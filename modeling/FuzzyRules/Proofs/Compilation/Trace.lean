import FuzzyRules.Proofs.Assembly.Refusals
import FuzzyRules.Proofs.Compilation.Endings
import FuzzyRules.Proofs.Token.Looks

/-!
# What a compilation examines

A compilation takes its tokens one by one, and the stream of a text looks no further than the token
that is taken. What a text comes to is settled by what has been examined of it: any other text that
agrees with it so far comes to the same.
-/

namespace FuzzyRules

namespace Compilation

variable {d : Dialect} {c c' : Compilation d} {t : Token}
  {outcome : Except GrammarFault (Engine Float)}

/-- The compilation before each of its steps. -/
def trace : Nat → Compilation d → List (Compilation d)
  | 0, _ => []
  | fuel + 1, c =>
    c :: match c.advance with
      | .running c' => trace fuel c'
      | _ => []

def pulled? (c : Compilation d) : Option Token :=
  match c.lookahead with
  | some _ => none
  | none =>
    match c.stream.next with
    | some (_, .ok t) => some t
    | _ => none

/-- The stream before each of its steps while the next token is taken. -/
def looks (c : Compilation d) : List (TokenStream d.words) :=
  match c.lookahead with
  | some _ => []
  | none => c.stream.looks c.stream.stepBound

theorem runFor_mono {fuel more : Nat} (h : c.runFor fuel = some outcome) (hle : fuel ≤ more) :
    c.runFor more = some outcome := by
  induction fuel generalizing c more with
  | zero => cases h
  | succ fuel ih =>
    obtain ⟨more, rfl⟩ := Nat.exists_eq_succ_of_ne_zero (Nat.ne_zero_of_lt hle)
    rw [runFor] at h ⊢
    cases hadvance : c.advance with
    | endless => simp [hadvance] at h
    | done outcome' =>
      simp only [hadvance] at h
      exact h
    | running c' =>
      simp only [hadvance] at h
      exact ih h (Nat.le_of_succ_le_succ hle)

theorem runFor_unique {fuel fuel' : Nat} {outcome' : Except GrammarFault (Engine Float)}
    (h : c.runFor fuel = some outcome) (h' : c.runFor fuel' = some outcome') :
    outcome = outcome' := by
  have hmax := runFor_mono h (Nat.le_max_left fuel fuel')
  have hmax' := runFor_mono h' (Nat.le_max_right fuel fuel')
  exact Option.some.inj (hmax.symm.trans hmax')

theorem stream_of_offer (h : c.offer t = .running c') : c'.stream = c.stream := by
  rcases c.offer_cases t with ⟨outcome, hoffer⟩ | ⟨tr, j, assembly, -, -, -, hoffer⟩
  · rw [hoffer] at h
    cases h
  · rw [hoffer] at h
    cases h
    rfl

/-- What a step is: it offers the token ahead, or it takes one from the stream and offers it. -/
inductive Turn (c : Compilation d) : Progress d → Prop
  | ahead (t : Token) (looks : c.looks = []) (pulled : c.pulled? = none) : Turn c (c.offer t)
  | endless : Turn c .endless
  | fault {s : TokenStream d.words} {fault : GrammarFault}
      (trail : c.stream.Trail c.looks (s, .error fault)) : Turn c (.done (.error fault))
  | taken {s : TokenStream d.words} {t : Token} (trail : c.stream.Trail c.looks (s, .ok t))
      (pulled : c.pulled? = some t) : Turn c (offer { c with stream := s } t)

theorem turn_advance (c : Compilation d) : c.Turn c.advance := by
  cases hlookahead : c.lookahead with
  | some t =>
    have hturn : c.Turn (c.offer t) :=
      .ahead t (by simp only [looks, hlookahead]) (by simp only [pulled?, hlookahead])
    simpa only [advance, hlookahead] using hturn
  | none =>
    have hlooks : c.looks = c.stream.looks c.stream.stepBound := by simp only [looks, hlookahead]
    rcases hnext : c.stream.next with _ | ⟨s, fault | t⟩
    · simpa only [advance, hlookahead, hnext] using .endless
    · have htrail := TokenStream.trail_of_pull hnext
      rw [← hlooks] at htrail
      simpa only [advance, hlookahead, hnext] using .fault htrail
    · have htrail := TokenStream.trail_of_pull hnext
      rw [← hlooks] at htrail
      have hturn : c.Turn (offer { c with stream := s } t) :=
        .taken htrail (by simp only [pulled?, hlookahead, hnext])
      simpa only [advance, hlookahead, hnext] using hturn

def runLooks (fuel : Nat) (c : Compilation d) : List (TokenStream d.words) :=
  (c.trace fuel).flatMap looks

theorem runLooks_of_running (h : c.advance = .running c') (fuel : Nat) :
    c.runLooks (fuel + 1) = c.looks ++ c'.runLooks fuel := by
  simp [runLooks, trace, h]

theorem runLooks_of_done (h : c.advance = .done outcome) (fuel : Nat) :
    c.runLooks (fuel + 1) = c.looks := by
  simp [runLooks, trace, h]

theorem reaches_looks (h : c.advance = .done outcome) :
    (∀ s ∈ c.looks, c.stream.Reaches s) ∧ c.looks.Pairwise TokenStream.Reaches := by
  have hturn := c.turn_advance
  rw [h] at hturn
  generalize hp : Progress.done outcome = p at hturn
  cases hturn with
  | ahead t hlooks =>
    rw [hlooks]
    exact ⟨nofun, .nil⟩
  | endless => cases hp
  | fault htrail => exact ⟨htrail.reaches_of_mem, htrail.pairwise_reaches⟩
  | taken htrail => exact ⟨htrail.reaches_of_mem, htrail.pairwise_reaches⟩

/-- A step that goes on leads from all that it looks at to what the next ones look at. -/
theorem reaches_of_running (h : c.advance = .running c') :
    (∀ s ∈ c.stream :: c.looks, s.Reaches c'.stream) ∧ (∀ s ∈ c.looks, c.stream.Reaches s) ∧
      c.looks.Pairwise TokenStream.Reaches := by
  have hturn := c.turn_advance
  rw [h] at hturn
  generalize hp : Progress.running c' = p at hturn
  cases hturn with
  | ahead t hlooks =>
    rw [hlooks, stream_of_offer hp.symm]
    exact ⟨List.forall_mem_singleton.2 .refl, nofun, .nil⟩
  | endless => cases hp
  | fault => cases hp
  | taken htrail =>
    rw [stream_of_offer hp.symm]
    exact ⟨htrail.reaches_token, htrail.reaches_of_mem, htrail.pairwise_reaches⟩

theorem reaches_runLooks {fuel : Nat} (h : c.runFor fuel = some outcome) :
    (∀ s ∈ c.runLooks fuel, c.stream.Reaches s) ∧
      (c.runLooks fuel).Pairwise TokenStream.Reaches := by
  induction fuel generalizing c with
  | zero => cases h
  | succ fuel ih =>
    rw [runFor] at h
    cases hadvance : c.advance with
    | endless => simp [hadvance] at h
    | done outcome' =>
      rw [runLooks_of_done hadvance]
      exact reaches_looks hadvance
    | running c' =>
      simp only [hadvance] at h
      obtain ⟨hlater, hpairwise⟩ := ih h
      obtain ⟨hnext, hlooks, hordered⟩ := reaches_of_running hadvance
      obtain ⟨hstream, hnext⟩ := List.forall_mem_cons.1 hnext
      rw [runLooks_of_running hadvance, List.forall_mem_append, List.pairwise_append]
      exact ⟨⟨hlooks, fun s hs => hstream.trans (hlater s hs)⟩, hordered, hpairwise,
        fun x hx y hy => (hnext x hx).trans (hlater y hy)⟩

section Violations

variable {grammar state : String} {seen : Excerpt} {line : Nat}

theorem disabled_of_offer (h : c.offer t = .done (.error (.violation grammar state seen line))) :
    c.run.accepted = false ∧ c.run.enabled? t = none ∧ grammar = d.phrases.name ∧
      seen = t.excerpt := by
  rw [offer] at h
  cases hresult : (c.run.step Assembly.operate t c.stream.tokenLine c.assembly).result with
  | ok transit =>
    simp only [hresult] at h
    split at h
    · exact absurd (Progress.done.inj h) Assembly.finish_ne_violation
    · cases h
  | error fault =>
    simp only [hresult] at h
    have hfault := Except.error.inj (Progress.done.inj h)
    exact Run.disabled_of_violation (fun _ _ => Assembly.operate_ne_violation) hresult hfault

/-- Any other violation is about the item that the stream has looked at last. -/
theorem exists_look_of_violation {fuel : Nat}
    (h : c.runFor fuel = some (.error (.violation grammar state seen line)))
    (hgrammar : grammar ≠ d.phrases.name) :
    ∃ last, (c.runLooks fuel).getLast? = some last ∧ last.run.accepted = false ∧
      last.run.enabled? last.rest.head? = none ∧ grammar = d.words.name ∧
      seen = HasExcerpt.excerpt last.rest.head? := by
  induction fuel generalizing c with
  | zero => cases h
  | succ fuel ih =>
    rw [runFor] at h
    cases hadvance : c.advance with
    | endless => simp [hadvance] at h
    | done outcome =>
      rw [runLooks_of_done hadvance]
      simp only [hadvance, Option.some.injEq] at h
      subst h
      have hturn := c.turn_advance
      rw [hadvance] at hturn
      generalize hp : Progress.done (.error (.violation grammar state seen line)) = p at hturn
      -- an offer that fails is a violation of the phrases
      cases hturn with
      | ahead t => exact absurd (disabled_of_offer hp.symm).2.2.1 hgrammar
      | endless => cases hp
      | fault htrail =>
        cases hp
        obtain ⟨last, hlast, -, hfails⟩ := htrail.exists_last
        exact ⟨last, hlast, TokenStream.disabled_of_violation hfails⟩
      | taken => exact absurd (disabled_of_offer hp.symm).2.2.1 hgrammar
    | running c' =>
      simp only [hadvance] at h
      obtain ⟨last, hlast, hlook⟩ := ih h
      refine ⟨last, ?_, hlook⟩
      rw [runLooks_of_running hadvance, List.getLast?_append, hlast, Option.some_or]

end Violations

/-- Behind the same beginning of two texts, the compilations differ only in what is left of them. -/
structure Parallel (source source' : List Char) (c c' : Compilation d) : Prop where
  eq : c' = { c with stream := c'.stream }
  stream : c.stream.Parallel source source' c'.stream

inductive Progress.Parallel (source source' : List Char) : Progress d → Progress d → Prop
  | running {c c' : Compilation d} (h : c.Parallel source source' c') :
      Parallel source source' (.running c) (.running c')
  | done (outcome : Except GrammarFault (Engine Float)) :
      Parallel source source' (.done outcome) (.done outcome)

namespace Parallel

variable {source source' : List Char} {seen : List (Option Char)}

theorem parallel_offer (h : c.Parallel source source' c') (t : Token) :
    (c.offer t).Parallel source source' (c'.offer t) := by
  obtain ⟨heq, hstream⟩ := h
  have hline : c'.stream.tokenLine = c.stream.tokenLine := by
    rw [hstream.eq]
    rfl
  rw [heq]
  simp only [Compilation.offer, hline]
  split
  · exact .done _
  · split
    · exact .done _
    · exact .running ⟨rfl, hstream⟩

/-- The streams look at the same items as long as these are among those that the texts agree on. -/
theorem parallel_advance (h : c.Parallel source source' c') (hwords : d.words.Settles none)
    (hseen : seen <+: items source) (hseen' : seen <+: items source')
    (hlength : ∀ s ∈ c.looks, source.length < s.rest.length + seen.length) :
    c.advance.Parallel source source' c'.advance := by
  have hahead : c'.lookahead = c.lookahead := by rw [h.eq]
  cases hlookahead : c.lookahead with
  | some t =>
    rw [hlookahead] at hahead
    simpa only [Compilation.advance, hlookahead, hahead] using h.parallel_offer t
  | none =>
    rw [hlookahead] at hahead
    simp only [looks, hlookahead] at hlength
    obtain ⟨⟨s, result⟩, hnext⟩ := TokenStream.exists_next hwords c.stream
    obtain ⟨s', hnext', hs⟩ := h.stream.exists_next_eq hwords hseen hseen' hnext hlength
    simp only [Compilation.advance, hlookahead, hahead, hnext, hnext']
    cases result with
    | error fault => exact .done _
    | ok t =>
      have hstreams : Parallel source source' { c with stream := s } { c' with stream := s' } :=
        ⟨by rw [h.eq], hs⟩
      exact hstreams.parallel_offer t

theorem runFor_eq (h : c.Parallel source source' c') (hwords : d.words.Settles none)
    (hseen : seen <+: items source) (hseen' : seen <+: items source') {fuel : Nat}
    (hlength : ∀ s ∈ c.runLooks fuel, source.length < s.rest.length + seen.length)
    (hrun : c.runFor fuel = some outcome) : c'.runFor fuel = some outcome := by
  induction fuel generalizing c c' with
  | zero => cases hrun
  | succ fuel ih =>
    rw [Compilation.runFor] at hrun ⊢
    cases hadvance : c.advance with
    | endless => simp [hadvance] at hrun
    | done outcome' =>
      rw [runLooks_of_done hadvance] at hlength
      have hstep := h.parallel_advance hwords hseen hseen' hlength
      rw [hadvance] at hstep hrun
      generalize c'.advance = p at hstep
      cases hstep
      exact hrun
    | running c₁ =>
      rw [runLooks_of_running hadvance] at hlength
      obtain ⟨hnow, hlater⟩ := List.forall_mem_append.1 hlength
      have hstep := h.parallel_advance hwords hseen hseen' hnow
      rw [hadvance] at hstep hrun
      generalize c'.advance = p at hstep
      cases hstep with
      | running h₁ => exact ih h₁ hlater hrun

end Parallel

end Compilation

namespace Dialect

variable {d : Dialect} {settings : EngineSettings} {source source' : String}
  {outcome : Except GrammarFault (Engine Float)}

def trace (d : Dialect) (settings : EngineSettings) (source : String) : List (Compilation d) :=
  (Compilation.start d settings source).trace (Compilation.start d settings source).stepBound

def pulled (d : Dialect) (settings : EngineSettings) (source : String) : List Token :=
  (d.trace settings source).filterMap Compilation.pulled?

def looks (d : Dialect) (settings : EngineSettings) (source : String) :
    List (TokenStream d.words) :=
  (d.trace settings source).flatMap Compilation.looks

/-- What is examined of a text: its items up to the one that the last step of the stream looks
at. -/
def examined (d : Dialect) (settings : EngineSettings) (source : String) : List (Option Char) :=
  match (d.looks settings source).getLast? with
  | none => []
  | some s => (items source.toList).take (source.toList.length - s.rest.length + 1)

theorem mem_looks (d : Dialect) (settings : EngineSettings) (source : String) :
    TokenStream.ofText d.words source ∈ d.looks settings source := by
  have hsteps := Compilation.rest_length_lt_stepBound (Compilation.start d settings source)
  obtain ⟨steps, hsteps⟩ := Nat.exists_eq_succ_of_ne_zero (Nat.ne_zero_of_lt hsteps)
  have hfuel := TokenStream.one_lt_stepBound (TokenStream.ofText d.words source)
  obtain ⟨fuel, hfuel⟩ := Nat.exists_eq_succ_of_ne_zero (Nat.ne_zero_of_lt hfuel)
  refine List.mem_flatMap.2 ⟨Compilation.start d settings source, ?_, ?_⟩
  · rw [trace, hsteps]
    exact List.mem_cons_self
  · change _ ∈ (TokenStream.ofText d.words source).looks
      (TokenStream.ofText d.words source).stepBound
    rw [hfuel]
    exact List.mem_cons_self

/-- The last look is the furthest one. -/
theorem exists_last_look (h : d.compile settings source = some outcome) :
    ∃ last before, (d.looks settings source).getLast? = some last ∧
      (TokenStream.ofText d.words source).Reaches last ∧ source.toList = before ++ last.rest ∧
      d.examined settings source = before.map some ++ [last.rest.head?] ∧
      ∀ s ∈ d.looks settings source, last.rest.length ≤ s.rest.length := by
  obtain ⟨hreaches, hpairwise⟩ : (∀ s ∈ d.looks settings source, _) ∧
    (d.looks settings source).Pairwise _ := Compilation.reaches_runLooks h
  rcases List.eq_nil_or_concat (d.looks settings source) with hlooks | ⟨others, last, hlooks⟩
  · exact absurd (d.mem_looks settings source) (by simp [hlooks])
  · rw [List.concat_eq_append] at hlooks
    rw [hlooks] at hreaches hpairwise ⊢
    have hreached := hreaches last (by simp)
    have hlast : (others ++ [last]).getLast? = some last := by simp
    obtain ⟨before, hsource⟩ := TokenStream.rest_suffix_of_reaches hreached
    have hsource : source.toList = before ++ last.rest := hsource.symm
    refine ⟨last, before, hlast, hreached, hsource, ?_, ?_⟩
    · simp only [examined, hlooks, hlast]
      rw [hsource, ← take_items, List.length_append, Nat.add_sub_cancel]
    · have hothers := (List.pairwise_append.1 hpairwise).2.2
      intro s hs
      rcases List.mem_append.1 hs with hs | hs
      · have hsuffix := TokenStream.rest_suffix_of_reaches (hothers s hs last (by simp))
        exact hsuffix.length_le
      · rw [List.mem_singleton.1 hs]

theorem examined_isBeginning (h : d.compile settings source = some outcome) :
    d.examined settings source <+: items source.toList := by
  obtain ⟨last, before, -, -, hsource, hexamined, -⟩ := exists_last_look h
  rw [hexamined, hsource, ← take_items]
  exact List.take_prefix _ _

theorem exists_compile (hwords : d.words.Settles none) (hphrases : d.phrases.Settles .finish)
    (settings : EngineSettings) (source : String) :
    ∃ outcome, d.compile settings source = some outcome :=
  Compilation.exists_runFor hwords hphrases (Compilation.steady_start d settings source)
    (Compilation.patience_lt_stepBound _)

/-- A text comes to what any other text comes to that agrees with what is examined of it. -/
theorem compile_of_examined (hwords : d.words.Settles none) (hphrases : d.phrases.Settles .finish)
    (h : d.compile settings source = some outcome)
    (hseen : d.examined settings source <+: items source'.toList) :
    d.compile settings source' = some outcome := by
  obtain ⟨last, before, -, -, hsource, hexamined, hlength⟩ := exists_last_look h
  have hfar : ∀ s ∈ d.looks settings source,
      source.toList.length < s.rest.length + (d.examined settings source).length := by
    intro s hs
    have := hlength s hs
    rw [hexamined, hsource]
    simp only [List.length_append, List.length_map, List.length_singleton]
    omega
  have hstart : (Compilation.start d settings source).Parallel source.toList source'.toList
      (Compilation.start d settings source') := ⟨rfl, TokenStream.parallel_ofText source source'⟩
  -- the texts differ in length, so the compilations are given different fuel
  have hrun := hstart.runFor_eq hwords (examined_isBeginning h) hseen hfar h
  obtain ⟨outcome', h'⟩ := exists_compile hwords hphrases settings source'
  rw [h', Compilation.runFor_unique h' hrun]

end Dialect

end FuzzyRules
