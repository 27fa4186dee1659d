import FuzzyRules.Compilation.Basic
import FuzzyRules.Proofs.Assembly.Replay
import FuzzyRules.Proofs.Phrases.Models

/-!
# Histories of compilations

A compilation that comes to an engine has carried out some actions, and its engine is what they make
of an empty assembly. So whatever tables a text is read with, the engine that it compiles to is
sound and has in it all that was opened on the way.
-/

namespace FuzzyRules

namespace Run

variable {κ A ι σ ε : Type} {t : Table κ A}

/-- The actions that are carried out, up to the first that is refused. -/
def carried (operate : Operator A ι σ ε) (item : ι) : List A → σ → List A
  | [], _ => []
  | a :: rest, s =>
    match operate a item s with
    | (s', .ok ()) => a :: carried operate item rest s'
    | (_, .error _) => []

def stepActions [ItemClass κ ι] (operate : Operator A ι σ ε) (r : Run t) (item : ι) (s : σ) :
    List A :=
  if r.accepted then []
  else
    match r.enabled? item with
    | none => []
    | some tr => carried operate item tr.actions s

theorem carried_of_performed {operate : Operator A ι σ ε} {item : ι} {actions : List A} {s s' : σ}
    (h : perform operate item actions s = (s', .ok ())) :
    carried operate item actions s = actions := by
  induction actions generalizing s with
  | nil => rfl
  | cons a rest ih =>
    obtain ⟨s₁, hop, h⟩ := exists_of_perform_cons h
    simp only [carried, hop, ih h]

end Run

namespace Assembly

variable {t : Token} {s s' : Assembly}

theorem replay_of_performed {actions : List AssemblyAction}
    (h : Run.perform operate t actions s = (s', .ok ())) :
    s.replay (actions.map (·, t)) = .ok s' := by
  induction actions generalizing s with
  | nil =>
    cases h
    rfl
  | cons a rest ih =>
    rw [Run.perform, operate] at h
    cases hattempt : s.attempt a t with
    | error fault => simp [hattempt] at h
    | ok s₁ =>
      simp only [hattempt] at h
      exact Traversal.foldlM_cons_eq_ok_iff.2 ⟨s₁, hattempt, ih h⟩

theorem replay_of_step {phrases : Table TokenClass AssemblyAction} {r : Run phrases} {line : Nat}
    {transit : Transit} (h : (r.step operate t line s).result = .ok transit) :
    s.replay ((r.stepActions operate t s).map (·, t)) = .ok (r.step operate t line s).operator := by
  unfold Run.stepActions
  rcases r.step_cases operate t line s with ⟨fault, hresult⟩ | ⟨haccepted, hstep⟩ |
    ⟨tr, s', haccepted, henabled, hperform, -, hstep⟩
  · rw [hresult] at h
    cases h
  · rw [hstep, if_pos haccepted]
    rfl
  · rw [hstep, haccepted, henabled]
    simp only [Bool.false_eq_true, if_false]
    rw [Run.carried_of_performed hperform, replay_of_performed hperform]

end Assembly

namespace Compilation

variable {d : Dialect}

/-- The token that the next step is about, and the compilation that has it. -/
def offered? (c : Compilation d) : Option (Compilation d × Token) :=
  match c.lookahead with
  | some t => some (c, t)
  | none =>
    match c.stream.next with
    | some (stream, .ok t) => some ({ c with stream := stream }, t)
    | _ => none

def stepActions (c : Compilation d) : List (AssemblyAction × Token) :=
  match c.offered? with
  | none => []
  | some (c', t) => (c'.run.stepActions Assembly.operate t c'.assembly).map (·, t)

/-- The actions of some steps, as long as the compilation is running. -/
def history : Nat → Compilation d → List (AssemblyAction × Token)
  | 0, _ => []
  | fuel + 1, c =>
    c.stepActions ++
      match c.advance with
      | .running c' => history fuel c'
      | _ => []

variable {c c' : Compilation d} {t : Token} {e : Engine Float}

theorem replay_of_offer_running (h : c.offer t = .running c') :
    c.assembly.replay ((c.run.stepActions Assembly.operate t c.assembly).map (·, t)) =
      .ok c'.assembly := by
  unfold offer at h
  cases hresult : (c.run.step Assembly.operate t c.stream.tokenLine c.assembly).result with
  | error fault => simp [hresult] at h
  | ok transit =>
    rw [Assembly.replay_of_step hresult]
    simp only [hresult] at h
    split_ifs at h <;> cases h <;> rfl

theorem replay_of_offer_done (h : c.offer t = .done (.ok e)) :
    c.assembly.replay ((c.run.stepActions Assembly.operate t c.assembly).map (·, t)) =
      .ok ⟨e, []⟩ := by
  unfold offer at h
  cases hresult : (c.run.step Assembly.operate t c.stream.tokenLine c.assembly).result with
  | error fault => simp [hresult] at h
  | ok transit =>
    rw [Assembly.replay_of_step hresult]
    simp only [hresult] at h
    split_ifs at h
    rw [Assembly.finish_eq_ok (Progress.done.inj h)]

theorem exists_offered_of_advance (h : (∃ c', c.advance = .running c') ∨
    ∃ e, c.advance = .done (.ok e)) : ∃ c₁ t, c.offered? = some (c₁, t) ∧
      c₁.assembly = c.assembly ∧ c₁.offer t = c.advance := by
  unfold advance offered? at *
  cases hlookahead : c.lookahead with
  | some t => exact ⟨c, t, rfl, rfl, rfl⟩
  | none =>
    simp only [hlookahead] at h
    rcases hnext : c.stream.next with _ | ⟨stream, fault | t⟩
    · simp [hnext] at h
    · simp [hnext] at h
    · exact ⟨_, t, rfl, rfl, rfl⟩

/-- The engine is what the actions of the compilation make of its assembly. -/
theorem replay_history {fuel : Nat} (h : c.runFor fuel = some (.ok e)) :
    c.assembly.replay (c.history fuel) = .ok ⟨e, []⟩ := by
  induction fuel generalizing c with
  | zero => cases h
  | succ fuel ih =>
    rw [runFor] at h
    rw [history]
    cases hadvance : c.advance with
    | endless => simp [hadvance] at h
    | done outcome =>
      simp only [hadvance, Option.some.injEq] at h
      subst h
      obtain ⟨c₁, t, hoffered, hassembly, hoffer⟩ :=
        exists_offered_of_advance (.inr ⟨e, hadvance⟩)
      rw [stepActions, hoffered, List.append_nil, ← hassembly]
      exact replay_of_offer_done (hoffer.trans hadvance)
    | running c' =>
      simp only [hadvance] at h
      obtain ⟨c₁, t, hoffered, hassembly, hoffer⟩ :=
        exists_offered_of_advance (.inl ⟨c', hadvance⟩)
      rw [stepActions, hoffered, ← hassembly,
        Assembly.replay_append (replay_of_offer_running (hoffer.trans hadvance))]
      exact ih h

end Compilation

def Dialect.history (d : Dialect) (settings : EngineSettings) (source : String) :
    List (AssemblyAction × Token) :=
  (Compilation.start d settings source).history (Compilation.start d settings source).stepBound

/-- Whatever the tables are, an engine that a text compiles to is sound, is what the actions of the
text make, and has in it every entity that they have opened. -/
theorem Dialect.compile_sound {d : Dialect} {settings : EngineSettings} {source : String}
    {e : Engine Float} (h : d.compile settings source = some (.ok e)) :
    e.Sound settings ∧
      (Assembly.start settings).replay (d.history settings source) = .ok ⟨e, []⟩ ∧
      e.Accounts ((d.history settings source).map Prod.fst) := by
  have hreplay := Compilation.replay_history h
  exact ⟨(Assembly.sound_of_replay hreplay (Assembly.sound_start settings)).engine, hreplay,
    Assembly.accounts_of_replay hreplay⟩

/-- A text with an entity of each kind. The terms are not written in the order of their centers. -/
def lampText : String :=
  "universe \"x\" \"on\" 1 2 \"off\" 0 -1 end " ++
    "rulebase \"x\" rule \"on\" when \"x\" is \"off\" end end"

def lamp : Engine Float where
  settings := ⟨true⟩
  universes := .ofList [("x", ⟨"x", none, [⟨"off", 0, -1⟩, ⟨"on", 1, 2⟩]⟩)]
  ruleBases := .ofList [("x", ⟨"x", none, [⟨"on", none, .ofList [("x", "off")]⟩]⟩)]
  state := .empty

theorem Dialect.compile_sound_lamp :
    builtinDialect.compile ⟨true⟩ lampText = some (.ok lamp) ∧ lamp.Sound ⟨true⟩ ∧
      (Assembly.start ⟨true⟩).replay (builtinDialect.history ⟨true⟩ lampText) = .ok ⟨lamp, []⟩ ∧
      lamp.Accounts ((builtinDialect.history ⟨true⟩ lampText).map Prod.fst) := by
  have h : builtinDialect.compile ⟨true⟩ lampText = some (.ok lamp) := by decide +kernel
  exact ⟨h, Dialect.compile_sound h⟩

end FuzzyRules
