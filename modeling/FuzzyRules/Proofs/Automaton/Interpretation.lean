import FuzzyRules.Automaton.Run
import FuzzyRules.Proofs.Automaton.Objections
import FuzzyRules.Proofs.Automaton.Steps

/-!
# Descriptions as they are written

A description can be run without a table. Then every state, class and action is looked up by its
name when it is needed. Resolution preserves what a description means: to every operator, and item
by item, the table does what the description says.
-/

namespace FuzzyRules

open Traversal

/-- A run that knows the state it stands in by its name. -/
structure NamedRun where
  state : String
  accepted : Bool
  /-- Steps since an item was last consumed. -/
  idle : Nat
  deriving DecidableEq, Repr

/-- What can be seen of a step: the operator behind it, what came of it, the state that is reported
then and whether the run has accepted. -/
structure Sight (σ ε : Type) where
  operator : σ
  result : Except (StepFault ε) Transit
  state : String
  accepted : Bool

variable {κ A ι σ ε : Type} [ItemClass κ ι] [NamedAction A] [HasExcerpt ι]

/-- The operator on names of actions. A name that is unknown stands for no action. -/
def Operator.named (operate : Operator A ι σ ε) : Operator String ι σ ε := fun name item s =>
  match NamedAction.ofName? name with
  | some a => operate a item s
  | none => (s, .ok ())

variable (κ) in
def TransitionText.admits (t : TransitionText) (item : ι) : Bool :=
  (ItemClass.ofName? t.className : Option κ).any (ItemClass.admits · item)

namespace NamedRun

def start (d : Description) : NamedRun := ⟨d.start, false, 0⟩

def moveTo (r : NamedRun) (idle : Nat) (next : String) : NamedRun :=
  if next = Description.acceptName then ⟨r.state, true, idle⟩ else ⟨next, r.accepted, idle⟩

variable (κ) in
def enabled? (d : Description) (r : NamedRun) (item : ι) : Option TransitionText :=
  (d.states.get? r.state).bind (·.find? (·.admits κ item))

variable (κ) in
/-- A step of the description as it is written: the run, the operator and what came of it. -/
def step (d : Description) (operate : Operator A ι σ ε) (r : NamedRun) (item : ι) (line : Nat)
    (s : σ) : NamedRun × σ × Except (StepFault ε) Transit :=
  if r.accepted then (r, s, .ok ⟨false, true⟩)
  else
    match r.enabled? κ d item with
    | none => (r, s, .error (.violation d.name r.state (HasExcerpt.excerpt item) line))
    | some t =>
      match Run.perform operate.named item t.actions s with
      | (s', .error e) => (r, s', .error (.refused e))
      | (s', .ok ()) =>
        let idle := if t.consumes then 0 else r.idle + 1
        if d.states.size < idle then
          ({ r with idle := idle }, s', .error (.stalled d.name r.state))
        else
          let next := r.moveTo idle t.next
          (next, s', .ok ⟨t.consumes, next.accepted⟩)

variable (κ) in
/-- What is seen of a description, step by step, that is given the items with their lines. -/
def sights (d : Description) (operate : Operator A ι σ ε) :
    NamedRun → σ → List (ι × Nat) → List (Sight σ ε)
  | _, _, [] => []
  | r, s, (item, line) :: rest =>
    let (r', s', result) := r.step κ d operate item line s
    ⟨s', result, r'.state, r'.accepted⟩ :: sights d operate r' s' rest

end NamedRun

namespace Run

variable {t : Table κ A}

def sights (operate : Operator A ι σ ε) : Run t → σ → List (ι × Nat) → List (Sight σ ε)
  | _, _, [] => []
  | r, s, (item, line) :: rest =>
    let after := r.step operate item line s
    ⟨after.operator, after.result, after.run.stateName, after.run.accepted⟩ ::
      sights operate after.run after.operator rest

def named (r : Run t) : NamedRun := ⟨r.stateName, r.accepted, r.idle⟩

end Run

namespace Table

def nextName (t : Table κ A) : Next t.size → String
  | .state j => (t.row j).name
  | .accept => Description.acceptName

/-- A transition of the table is what the description says. -/
structure Renders (t : Table κ A) (text : TransitionText) (tr : Transition κ A t.size) : Prop where
  itemClass : ItemClass.ofName? text.className = some tr.itemClass
  actions : List.Forall₂ (fun name a => NamedAction.ofName? name = some a) text.actions tr.actions
  next : text.next = t.nextName tr.next
  consumes : text.consumes = tr.consumes

/-- The table has a row for every state of the description, with the transitions of the state. -/
structure Resolves (d : Description) (t : Table κ A) : Prop where
  name : t.name = d.name
  size : t.size = d.states.size
  start : (t.row t.start).name = d.start
  reserved (i : Fin t.size) : (t.row i).name ≠ Description.acceptName
  row (i : Fin t.size) : ∃ texts, d.states.get? (t.row i).name = some texts ∧
    List.Forall₂ t.Renders texts (t.row i).transitions

def InRange (t : Table κ A) : Prop :=
  t.start.val < t.rows.length ∧
    ∀ row ∈ t.rows, ∀ tr ∈ row.transitions, ∀ j, tr.next = .state j → j.val < t.rows.length

omit [NamedAction A] in
theorem inRange (t : Table κ A) : t.InRange :=
  ⟨t.rows_length.symm ▸ t.start.isLt, fun _ _ _ _ j _ => t.rows_length.symm ▸ j.isLt⟩

end Table

section Resolution

variable {d : Description} {t : Table κ A}

omit [HasExcerpt ι] in
theorem Description.next_of_resolveNext {grammar state next : String} {names : List String}
    {n : Next names.length} (h : resolveNext grammar state names next = .ok n) :
    (next = acceptName ∧ n = .accept) ∨ ∃ i, n = .state i ∧ names[i] = next := by
  unfold resolveNext at h
  split_ifs at h with haccept
  · cases h
    exact .inl ⟨haccept, rfl⟩
  · cases hindex : names.finIdxOf? next with
    | none => simp [hindex] at h
    | some i =>
      simp only [hindex, Except.ok.injEq] at h
      exact .inr ⟨i, h.symm, (List.finIdxOf?_eq_some_iff.1 hindex).1⟩

omit [HasExcerpt ι] in
theorem Description.rows_of_resolve (h : d.resolve = .ok t) : ∃ start rows hrows,
    t = ⟨d.name, d.states.keys.length, start, rows, hrows⟩ ∧ acceptName ∉ d.states.keys ∧
      d.states.keys[start] = d.start ∧
      List.Forall₂ (fun s row => resolveRow d.name d.states.keys s = .ok row)
        d.states.entries rows := by
  unfold resolve at h
  split_ifs at h with hreserved
  cases hstart : d.states.keys.finIdxOf? d.start with
  | none => simp [hstart] at h
  | some start =>
    simp only [hstart] at h
    obtain ⟨rows, hrows, rfl⟩ := map_eq_ok_iff.1 h
    have hmapM := resolveAll_eq_mapM (resolveRow (κ := κ) (A := A) d.name d.states.keys)
      d.states.entries
    rw [hrows] at hmapM
    exact ⟨start, rows.1, _, rfl, fun hmem => hreserved (NameMap.contains_iff_mem_keys.2 hmem),
      (List.finIdxOf?_eq_some_iff.1 hstart).1, mapM_eq_ok_iff.1 hmapM.symm⟩

omit [HasExcerpt ι] in
theorem Description.parts_of_resolveTransition {grammar state : String} {names : List String}
    {text : TransitionText} {tr : Transition κ A names.length}
    (h : resolveTransition grammar state names text = .ok tr) :
    ItemClass.ofName? text.className = some tr.itemClass ∧
      List.Forall₂ (fun name a => NamedAction.ofName? name = some a) text.actions tr.actions ∧
      resolveNext grammar state names text.next = .ok tr.next ∧
      text.consumes = tr.consumes := by
  obtain ⟨itemClass, hclass, h⟩ := bind_eq_ok_iff.1 h
  obtain ⟨actions, hactions, h⟩ := bind_eq_ok_iff.1 h
  obtain ⟨next, hnext, h⟩ := bind_eq_ok_iff.1 h
  cases h
  refine ⟨?_, (mapM_eq_ok_iff.1 hactions).imp fun name a ha => ?_, hnext, rfl⟩
  · unfold resolveClass at hclass
    split at hclass <;> cases hclass
    assumption
  · unfold resolveAction at ha
    split at ha <;> cases ha
    assumption

omit [HasExcerpt ι] in
theorem Description.parts_of_resolveRow {grammar : String} {names : List String}
    {s : String × List TransitionText} {row : TableRow κ A names.length}
    (h : resolveRow grammar names s = .ok row) : row.name = s.1 ∧
      s.2.mapM (resolveTransition grammar s.1 names) = .ok row.transitions := by
  obtain ⟨transitions, htransitions, rfl⟩ := map_eq_ok_iff.1 h
  exact ⟨rfl, htransitions⟩

omit [HasExcerpt ι] in
/-- The index under which a state stands in the table is the one that its name was resolved to. -/
theorem Table.resolves_of_resolve (h : d.resolve = .ok t) : t.Resolves d := by
  obtain ⟨start, rows, hlength, rfl, hreserved, hstart, hrows⟩ := Description.rows_of_resolve h
  set t : Table κ A := ⟨d.name, d.states.keys.length, start, rows, hlength⟩ with ht
  have hentries : d.states.keys.length = d.states.entries.length := List.length_map _
  have hrow (i : Fin t.size) := Description.parts_of_resolveRow
    (hrows.get (i.cast hentries).isLt (i.cast hlength.symm).isLt)
  have hkey (i : Fin t.size) : d.states.keys[i] = (d.states.entries.get (i.cast hentries)).1 :=
    List.getElem_map _
  have hname (i : Fin t.size) : (t.row i).name = d.states.keys[i] := (hrow i).1.trans (hkey i).symm
  refine ⟨rfl, d.states.length_keys, (hname start).trans hstart, fun i => ?_, fun i => ?_⟩
  · rw [hname i]
    exact fun heq => hreserved (heq ▸ List.getElem_mem _)
  · refine ⟨(d.states.entries.get (i.cast hentries)).2, ?_, ?_⟩
    · rw [hname i, hkey i, NameMap.get?_eq_some_iff]
      exact List.get_mem ..
    refine (mapM_eq_ok_iff.1 (hrow i).2).imp fun text tr htr => ?_
    obtain ⟨hclass, hactions, hnext, hconsumes⟩ := Description.parts_of_resolveTransition htr
    refine ⟨hclass, hactions, ?_, hconsumes⟩
    rcases Description.next_of_resolveNext hnext with ⟨haccept, hnext⟩ | ⟨j, hnext, hj⟩
    · rw [haccept, hnext]
      rfl
    · rw [hnext, ← hj]
      exact (hname j).symm

omit [ItemClass κ ι] [HasExcerpt ι] in
theorem Operator.perform_named (operate : Operator A ι σ ε) {names : List String}
    {actions : List A} (h : List.Forall₂ (fun name a => NamedAction.ofName? name = some a) names
      actions) (item : ι) (s : σ) :
    Run.perform operate.named item names s = Run.perform operate item actions s := by
  induction h generalizing s with
  | nil => rfl
  | @cons name a names actions ha _ ih =>
    have hoperate : operate.named name item s = operate a item s := by simp only [named, ha]
    rw [Run.perform, Run.perform, hoperate]
    rcases operate a item s with ⟨s', e | ⟨⟩⟩
    · rfl
    · exact ih s'

omit [NamedAction A] [HasExcerpt ι] in
theorem rel_find? {α β : Type} {R : α → β → Prop} {p : α → Bool} {q : β → Bool} {l : List α}
    {l' : List β} (h : List.Forall₂ R l l') (hpq : ∀ a b, R a b → p a = q b) :
    Option.Rel R (l.find? p) (l'.find? q) := by
  induction h with
  | nil => exact .none
  | cons hab _ ih =>
    rw [List.find?_cons, List.find?_cons, hpq _ _ hab]
    split
    · exact .some hab
    · exact ih

variable {r : Run t}

omit [HasExcerpt ι] in
theorem Table.Renders.admits_eq {text : TransitionText} {tr : Transition κ A t.size}
    (h : t.Renders text tr) (item : ι) :
    text.admits κ item = ItemClass.admits tr.itemClass item := by
  simp [TransitionText.admits, h.itemClass]

omit [HasExcerpt ι] in
theorem Table.Resolves.rel_enabled? (h : t.Resolves d) (r : Run t) (item : ι) :
    Option.Rel t.Renders (r.named.enabled? κ d item) (r.enabled? item) := by
  obtain ⟨texts, htexts, hrows⟩ := h.row r.state
  have hstate : d.states.get? r.named.state = some texts := htexts
  rw [NamedRun.enabled?, hstate, Option.bind_some]
  exact rel_find? hrows fun text tr htr => htr.admits_eq item

omit [ItemClass κ ι] [NamedAction A] [HasExcerpt ι] in
theorem Table.named_moveTo (hreserved : ∀ i, (t.row i).name ≠ Description.acceptName)
    (r : Run t) (idle : Nat) (next : Next t.size) :
    (r.moveTo idle next).named = r.named.moveTo idle (t.nextName next) := by
  cases next with
  | state j => simp [Run.moveTo, NamedRun.moveTo, Run.named, Run.stateName, nextName, hreserved j]
  | accept => simp [Run.moveTo, NamedRun.moveTo, Run.named, Run.stateName, nextName]

theorem Table.Resolves.step_named (h : t.Resolves d) (operate : Operator A ι σ ε) (r : Run t)
    (item : ι) (line : Nat) (s : σ) :
    r.named.step κ d operate item line s =
      ((r.step operate item line s).run.named, (r.step operate item line s).operator,
        (r.step operate item line s).result) := by
  cases hr : r.accepted with
  | true =>
    have haccepted : r.named.accepted = true := hr
    rw [NamedRun.step, if_pos haccepted, Run.step_of_accepted hr]
  | false =>
    have haccepted : ¬ r.named.accepted = true := Bool.eq_false_iff.1 hr
    rw [NamedRun.step, if_neg haccepted]
    have henabled := h.rel_enabled? r item
    generalize r.named.enabled? κ d item = text? at henabled
    generalize htr? : r.enabled? item = tr? at henabled
    cases henabled with
    | none =>
      rw [Run.step_of_disabled line s hr htr?, h.name]
      rfl
    | @some text tr htr =>
      have hperform := operate.perform_named htr.actions item s
      rcases hactions : Run.perform operate item tr.actions s with ⟨s', e | ⟨⟩⟩
      · rw [Run.step_of_refused line hr htr? hactions]
        simp only [hperform, hactions]
      · have hidle : (if text.consumes then 0 else r.named.idle + 1) = r.idleAfter tr := by
          rw [htr.consumes]
          rfl
        have hmove := Table.named_moveTo h.reserved r (r.idleAfter tr) tr.next
        simp only [hperform, hactions, hidle, ← h.size, htr.next, ← hmove]
        by_cases hstalled : t.size < r.idleAfter tr
        · rw [if_pos hstalled, Run.step_of_stalled line hr htr? hactions hstalled, h.name]
          rfl
        · rw [if_neg hstalled,
            Run.step_of_performed line hr htr? hactions (Nat.le_of_not_lt hstalled), htr.consumes]
          rfl

/-- Item by item, the table does what the description says. -/
theorem Table.Resolves.sights_named (h : t.Resolves d) (operate : Operator A ι σ ε)
    (items : List (ι × Nat)) (r : Run t) (s : σ) :
    r.named.sights κ d operate s items = r.sights operate s items := by
  induction items generalizing r s with
  | nil => rfl
  | cons x rest ih =>
    rw [NamedRun.sights, h.step_named, Run.sights]
    exact congrArg (_ :: ·) (ih _ _)

theorem Table.Resolves.sights_start (h : t.Resolves d) (operate : Operator A ι σ ε)
    (items : List (ι × Nat)) (s : σ) :
    (Run.start t).sights operate s items = (NamedRun.start d).sights κ d operate s items := by
  have hstart : (Run.start t).named = NamedRun.start d := by
    rw [NamedRun.start, ← h.start]
    rfl
  rw [← hstart, h.sights_named]

variable (κ A) in
/-- Exactly the descriptions without an objection are resolved, the others are refused with the
first one. A table that comes of it has the states, classes and actions of the description under
their indices, and to every operator, which may note all actions that it is handed, it does the
same as the description in which everything is looked up by its name. -/
theorem Description.resolve_faithful (d : Description) :
    ((∃ t : Table κ A, d.resolve = .ok t) ↔ d.Resolvable κ A) ∧
      (∀ fault, (d.resolve : Except GrammarFault (Table κ A)) = .error fault ↔
        (d.objections κ A).head? = some fault) ∧
      ∀ t : Table κ A, d.resolve = .ok t → t.Resolves d ∧ t.InRange ∧
        ∀ (σ ε : Type) (operate : Operator A ι σ ε) (items : List (ι × Nat)) (s : σ),
          (Run.start t).sights operate s items =
            (NamedRun.start d).sights κ d operate s items := by
  have hheeds : Heeds (d.resolve : Except GrammarFault (Table κ A)) (d.objections κ A) :=
    heeds_resolve d
  refine ⟨?_, hheeds, fun t ht => ?_⟩
  · rw [hheeds.exists_ok_iff, objections_eq_nil_iff]
  · have hresolves := Table.resolves_of_resolve ht
    exact ⟨hresolves, t.inRange, fun σ ε operate => hresolves.sights_start operate⟩

end Resolution

end FuzzyRules
