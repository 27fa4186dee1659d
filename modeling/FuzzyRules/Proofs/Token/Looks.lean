import Mathlib.Logic.Relation
import FuzzyRules.Proofs.Token.Endings

/-!
# What a pull looks at

A step of a stream looks at one item, the next character or the end of the text, and at nothing
behind it. So two streams that differ only in the text ahead go the same way as long as the items
they look at are the same.
-/

namespace FuzzyRules

def items (cs : List Char) : List (Option Char) := cs.map some ++ [none]

theorem items_append (before cs : List Char) :
    items (before ++ cs) = before.map some ++ items cs := by
  simp [items]

theorem getElem?_items (before cs : List Char) :
    (items (before ++ cs))[before.length]? = some cs.head? := by
  rw [items_append, List.getElem?_append_right (by simp)]
  cases cs <;> simp [items]

theorem take_items (before cs : List Char) :
    (items (before ++ cs)).take (before.length + 1) = before.map some ++ [cs.head?] := by
  rw [items_append, List.take_append]
  cases cs <;> simp [items]

/-- Behind the same beginning, texts that agree on more items go on with the same one. -/
theorem head?_eq_of_prefix {seen : List (Option Char)} {before cs cs' : List Char}
    (h : seen <+: items (before ++ cs)) (h' : seen <+: items (before ++ cs'))
    (hlength : before.length < seen.length) : cs.head? = cs'.head? := by
  have hcs := List.prefix_iff_getElem?.1 h before.length hlength
  have hcs' := List.prefix_iff_getElem?.1 h' before.length hlength
  rw [getElem?_items] at hcs hcs'
  exact Option.some.inj (hcs.trans hcs'.symm)

namespace TokenStream

open Relation

variable {t : Table CharClass LexAction} {s s' : TokenStream t}

theorem operate_ne_violation {a : LexAction} {item : Option Char} {sink : Sink}
    {grammar state : String} {seen : Excerpt} {line : Nat} :
    (Sink.operate a item sink).2 ≠ .error (.violation grammar state seen line) := by
  intro h
  cases a with
  | push => cases item <;> cases h
  | keyword => cases h
  | text => cases h
  | number =>
    rw [Sink.operate] at h
    split at h <;> cases h

/-- A violation is about the item that the step looks at. -/
theorem disabled_of_violation {grammar state : String} {seen : Excerpt} {line : Nat}
    (h : s.advance = (s', .error (.violation grammar state seen line))) :
    s.run.accepted = false ∧ s.run.enabled? s.rest.head? = none ∧ grammar = t.name ∧
      seen = HasExcerpt.excerpt s.rest.head? := by
  rw [advance] at h
  cases hresult : (s.run.step Sink.operate s.rest.head? s.line s.openSink).result with
  | ok transit =>
    rw [openSink] at hresult
    simp [hresult] at h
  | error fault =>
    have hfault : GrammarFault.ofStep fault = .violation grammar state seen line := by
      rw [openSink] at hresult
      simp only [hresult] at h
      exact Except.error.inj (Prod.mk.inj h).2
    exact Run.disabled_of_violation (fun _ _ => operate_ne_violation) hresult hfault

/-- A step that does not fail. -/
def Steps (s s' : TokenStream t) : Prop :=
  s.run.accepted = false ∧ ∃ token?, s.advance = (s', .ok token?)

/-- What the stream can come to without a fault. -/
def Reaches : TokenStream t → TokenStream t → Prop := ReflTransGen Steps

/-- The stream before each step of a pull. -/
def looks : Nat → TokenStream t → List (TokenStream t)
  | 0, _ => []
  | fuel + 1, s =>
    if s.run.accepted then []
    else
      s :: match s.advance with
        | (s', .ok none) => looks fuel s'
        | _ => []

/-- A pull with the stream before each of its steps. -/
inductive Trail : TokenStream t → List (TokenStream t) →
    TokenStream t × Except GrammarFault Token → Prop
  | accepted {s : TokenStream t} (haccepted : s.run.accepted = true) : Trail s [] (s, .ok .finish)
  | fault {s s' : TokenStream t} {fault : GrammarFault} (hs : s.run.accepted = false)
      (advance : s.advance = (s', .error fault)) : Trail s [s] (s', .error fault)
  | token {s s' : TokenStream t} {token : Token} (hs : s.run.accepted = false)
      (advance : s.advance = (s', .ok (some token))) : Trail s [s] (s', .ok token)
  | silent {s s' : TokenStream t} {l : List (TokenStream t)}
      {x : TokenStream t × Except GrammarFault Token} (hs : s.run.accepted = false)
      (advance : s.advance = (s', .ok none)) (tail : Trail s' l x) : Trail s (s :: l) x

theorem trail_of_pull {fuel : Nat} {x : TokenStream t × Except GrammarFault Token}
    (h : s.pull fuel = some x) : Trail s (s.looks fuel) x := by
  induction fuel generalizing s with
  | zero => cases h
  | succ fuel ih =>
    rw [looks]
    cases hs : s.run.accepted with
    | true =>
      rw [pull_of_accepted hs] at h
      cases h
      exact .accepted hs
    | false =>
      rcases hadvance : s.advance with ⟨s', fault | _ | token⟩
      · rw [pull_of_fault hs hadvance] at h
        cases h
        exact .fault hs hadvance
      · rw [pull_of_silent hs hadvance] at h
        exact .silent hs hadvance (ih h)
      · rw [pull_of_token hs hadvance] at h
        cases h
        exact .token hs hadvance

namespace Trail

variable {l : List (TokenStream t)} {x : TokenStream t × Except GrammarFault Token}
  {result : Except GrammarFault Token} {token : Token} {fault : GrammarFault}

theorem pull_eq (h : Trail s l x) : s.pull (l.length + 1) = some x := by
  induction h with
  | accepted haccepted => exact pull_of_accepted haccepted _
  | fault hs advance => exact pull_of_fault hs advance _
  | token hs advance => exact pull_of_token hs advance _
  | silent hs advance _ ih => exact (pull_of_silent hs advance _).trans ih

theorem reaches_of_mem (h : Trail s l x) : ∀ y ∈ l, s.Reaches y := by
  induction h with
  | accepted => exact nofun
  | fault hs advance => simpa using .refl
  | token hs advance => simpa using .refl
  | silent hs advance _ ih =>
    exact List.forall_mem_cons.2 ⟨.refl, fun y hy => .head ⟨hs, _, advance⟩ (ih y hy)⟩

theorem pairwise_reaches (h : Trail s l x) : l.Pairwise Reaches := by
  induction h with
  | accepted => exact .nil
  | fault | token => exact List.pairwise_singleton ..
  | silent hs advance tail ih =>
    exact List.pairwise_cons.2 ⟨fun y hy => .head ⟨hs, _, advance⟩ (tail.reaches_of_mem y hy), ih⟩

theorem reaches_token (h : Trail s l (s', .ok token)) : ∀ y ∈ s :: l, y.Reaches s' := by
  generalize hx : (s', Except.ok token) = x at h
  induction h with
  | accepted =>
    cases hx
    simpa using .refl
  | fault => cases hx
  | token hs advance =>
    cases hx
    have hstep : ReflTransGen Steps _ s' := .single ⟨hs, _, advance⟩
    exact List.forall_mem_cons.2 ⟨hstep, List.forall_mem_cons.2 ⟨hstep, nofun⟩⟩
  | silent hs advance _ ih =>
    have htail := List.forall_mem_cons.1 (ih hx)
    have hhead := ReflTransGen.head ⟨hs, _, advance⟩ htail.1
    exact List.forall_mem_cons.2 ⟨hhead, List.forall_mem_cons.2 ⟨hhead, htail.2⟩⟩

/-- A pull that fails has failed with its last step. -/
theorem exists_last (h : Trail s l (s', .error fault)) : ∃ last, l.getLast? = some last ∧
    last.run.accepted = false ∧ last.advance = (s', .error fault) := by
  generalize hx : (s', Except.error fault) = x at h
  induction h with
  | accepted => cases hx
  | @fault s _ _ hs advance =>
    cases hx
    exact ⟨s, rfl, hs, advance⟩
  | token => cases hx
  | silent hs advance _ ih =>
    obtain ⟨last, hlast, hfails⟩ := ih hx
    exact ⟨last, by rw [List.getLast?_cons, hlast]; rfl, hfails⟩

end Trail

def withRest (s : TokenStream t) (cs : List Char) : TokenStream t := { s with rest := cs }

/-- A step looks at the next item only. -/
theorem advance_withRest {cs : List Char} (h : cs.head? = s.rest.head?) :
    ∃ skipped cs', s.rest = skipped ++ s.advance.1.rest ∧ cs = skipped ++ cs' ∧
      (s.withRest cs).advance = (s.advance.1.withRest cs', s.advance.2) := by
  obtain ⟨rest, run, sink, line, tokenLine⟩ := s
  cases rest with
  | nil =>
    obtain rfl : cs = [] := by simpa using h
    simp only [advance, withRest, beginsToken]
    split
    · exact ⟨[], [], rfl, rfl, rfl⟩
    · split <;> exact ⟨[], [], rfl, rfl, rfl⟩
  | cons c rest =>
    obtain ⟨cs, rfl⟩ : ∃ cs', cs = c :: cs' := by
      cases cs with
      | nil => cases h
      | cons d cs =>
        cases h
        exact ⟨cs, rfl⟩
    simp only [advance, withRest, beginsToken, List.head?_cons]
    split
    · exact ⟨[], c :: cs, rfl, rfl, rfl⟩
    · split
      · exact ⟨[c], cs, rfl, rfl, rfl⟩
      · exact ⟨[], c :: cs, rfl, rfl, rfl⟩

theorem rest_suffix_of_advance (s : TokenStream t) : s.advance.1.rest <:+ s.rest := by
  obtain ⟨skipped, -, hrest, -⟩ := advance_withRest (rfl : s.rest.head? = _)
  exact ⟨skipped, hrest.symm⟩

theorem rest_suffix_of_reaches (h : s.Reaches s') : s'.rest <:+ s.rest := by
  induction h with
  | refl => exact List.suffix_refl _
  | @tail s₁ _ _ hstep ih =>
    obtain ⟨-, token?, hadvance⟩ := hstep
    have hsuffix := s₁.rest_suffix_of_advance
    rw [hadvance] at hsuffix
    exact hsuffix.trans ih

/-- Behind the same beginning of two texts, the streams differ only in what is left of them. -/
structure Parallel (source source' : List Char) (s s' : TokenStream t) : Prop where
  eq : s' = s.withRest s'.rest
  shared : ∃ before, source = before ++ s.rest ∧ source' = before ++ s'.rest

theorem parallel_ofText (source source' : String) : Parallel source.toList source'.toList
    (ofText t source) (ofText t source') :=
  ⟨rfl, [], rfl, rfl⟩

namespace Parallel

variable {source source' : List Char} {seen : List (Option Char)}

theorem accepted_eq (h : Parallel source source' s s') : s'.run.accepted = s.run.accepted := by
  rw [h.eq]
  rfl

theorem exists_advance_eq (h : Parallel source source' s s') (hseen : seen <+: items source)
    (hseen' : seen <+: items source') (hlength : source.length < s.rest.length + seen.length) :
    ∃ s₁', s'.advance = (s₁', s.advance.2) ∧ Parallel source source' s.advance.1 s₁' := by
  obtain ⟨heq, before, hsource, hsource'⟩ := h
  have hhead : s'.rest.head? = s.rest.head? := by
    rw [hsource] at hseen hlength
    rw [hsource'] at hseen'
    rw [List.length_append] at hlength
    exact head?_eq_of_prefix hseen' hseen (by omega)
  obtain ⟨skipped, cs', hrest, hrest', hadvance⟩ := advance_withRest hhead
  rw [← heq] at hadvance
  refine ⟨_, hadvance, rfl, before ++ skipped, ?_, ?_⟩
  · rw [hsource, List.append_assoc, ← hrest]
  · rw [hsource', hrest', List.append_assoc]
    rfl

theorem exists_trail (h : Parallel source source' s s') (hseen : seen <+: items source)
    (hseen' : seen <+: items source') {l : List (TokenStream t)} {s₁ : TokenStream t}
    {result : Except GrammarFault Token} (htrail : Trail s l (s₁, result))
    (hlength : ∀ y ∈ l, source.length < y.rest.length + seen.length) :
    ∃ s₁' l', Trail s' l' (s₁', result) ∧ Parallel source source' s₁ s₁' := by
  generalize hx : (s₁, result) = x at htrail
  induction htrail generalizing s' with
  | accepted haccepted =>
    cases hx
    exact ⟨s', [], .accepted (h.accepted_eq.trans haccepted), h⟩
  | fault hs hadvance =>
    cases hx
    obtain ⟨s₁', hadvance', h₁⟩ := h.exists_advance_eq hseen hseen' (hlength _ List.mem_cons_self)
    rw [hadvance] at hadvance' h₁
    exact ⟨s₁', _, .fault (h.accepted_eq.trans hs) hadvance', h₁⟩
  | token hs hadvance =>
    cases hx
    obtain ⟨s₁', hadvance', h₁⟩ := h.exists_advance_eq hseen hseen' (hlength _ List.mem_cons_self)
    rw [hadvance] at hadvance' h₁
    exact ⟨s₁', _, .token (h.accepted_eq.trans hs) hadvance', h₁⟩
  | silent hs hadvance _ ih =>
    obtain ⟨hhead, htail⟩ := List.forall_mem_cons.1 hlength
    obtain ⟨s₂', hadvance', h₂⟩ := h.exists_advance_eq hseen hseen' hhead
    rw [hadvance] at hadvance' h₂
    obtain ⟨s₁', l', htrail', h₁⟩ := ih h₂ htail hx
    exact ⟨s₁', _, .silent (h.accepted_eq.trans hs) hadvance' htrail', h₁⟩

theorem exists_next_eq (h : Parallel source source' s s') (ht : t.Settles none)
    (hseen : seen <+: items source) (hseen' : seen <+: items source') {s₁ : TokenStream t}
    {result : Except GrammarFault Token} (hnext : s.next = some (s₁, result))
    (hlength : ∀ y ∈ s.looks s.stepBound, source.length < y.rest.length + seen.length) :
    ∃ s₁', s'.next = some (s₁', result) ∧ Parallel source source' s₁ s₁' := by
  obtain ⟨s₁', l', htrail', h₁⟩ := h.exists_trail hseen hseen' (trail_of_pull hnext) hlength
  obtain ⟨x, hx⟩ := exists_next ht s'
  have hpull := pull_mono htrail'.pull_eq (Nat.le_max_left _ s'.stepBound)
  rw [pull_mono hx (Nat.le_max_right _ _)] at hpull
  exact ⟨s₁', hx.trans hpull, h₁⟩

end Parallel

end TokenStream

end FuzzyRules
