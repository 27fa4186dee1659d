import FuzzyRules.Proofs.Compilation.History
import FuzzyRules.Proofs.Engine.Built

/-!
# Engines in use

An engine is used by setting signals, running cycles and adding universes and rule bases, in any
order. Its signals are what has been written last, by a signal that was set or by a cycle that
succeeded. What has been added to it stays as it is, and no name is taken twice.
-/

namespace FuzzyRules

/-- What can be done with an engine. -/
inductive Operation (α : Type) where
  | setSignal (name : String) (value : α)
  | cycle (observations : NameMap α)
  | addUniverse (u : Universe α)
  | addRuleBase (rb : RuleBase)

namespace Engine

variable {α : Type} [Scalar α]

def apply (e : Engine α) : Operation α → Except (ModelFault α) (Engine α)
  | .setSignal name value => .ok (e.setSignal name value)
  | .cycle observations => e.cycle observations
  | .addUniverse u => e.addUniverse u
  | .addRuleBase rb => e.addRuleBase rb

def use (e : Engine α) (operation : Operation α) : Engine α × Except (ModelFault α) Unit :=
  e.attempt (·.apply operation)

/-- The operations as steps that change the engine in place. -/
def steps : Operation α → InPlace (Engine α) (ModelFault α) Unit
  | .setSignal name value => modify fun e => { e with state := e.state.insert name value }
  | .cycle observations => cycleInPlace observations
  | .addUniverse u => receiveUniverse u
  | .addRuleBase rb => receiveRuleBase rb

def useInPlace (e : Engine α) (operation : Operation α) :
    Engine α × Except (ModelFault α) Unit :=
  ((steps operation).run.run e).swap

theorem comesTo_steps (e : Engine α) (operation : Operation α) :
    InPlace.ComesTo (steps operation) e (e.apply operation) := by
  cases operation with
  | setSignal name value => exact InPlace.comesTo_modify _ e
  | cycle observations => exact comesTo_cycleInPlace e observations
  | addUniverse u => exact comesTo_receiveUniverse e u
  | addRuleBase rb => exact comesTo_receiveRuleBase e rb

theorem use_eq_useInPlace (e : Engine α) (operation : Operation α) :
    e.use operation = e.useInPlace operation :=
  attempt_of_comesTo (e.comesTo_steps operation)

/-- The engine after some operations, of which any can fail. -/
def after (e : Engine α) (operations : List (Operation α)) : Engine α :=
  operations.foldl (fun e operation => (e.use operation).1) e

/-- The value that an operation writes under the name. A cycle writes if it succeeds, and then under
the names of the rule bases that there are. -/
def written? (e : Engine α) (name : String) : Operation α → Option α
  | .setSignal other value => if name = other then some value else none
  | .cycle observations =>
    match e.cycle observations, e.ruleBases.get? name with
    | .ok _, some rb => (rb.consequence e.universes (e.state.overlay observations)).toOption
    | _, _ => none
  | .addUniverse _ | .addRuleBase _ => none

/-- What some operations write under the name, in their order. -/
def writes (name : String) : Engine α → List (Operation α) → List α
  | _, [] => []
  | e, operation :: rest =>
    (e.written? name operation).toList ++ writes name (e.use operation).1 rest

variable {e e' : Engine α} {name : String} {operation : Operation α}

theorem use_cases (e : Engine α) (operation : Operation α) :
    (∃ e', e.apply operation = .ok e' ∧ e.use operation = (e', .ok ())) ∨
      ∃ fault, e.apply operation = .error fault ∧ e.use operation = (e, .error fault) := by
  cases h : e.apply operation with
  | ok e' => exact .inl ⟨e', rfl, by simp only [use, attempt, h]⟩
  | error fault => exact .inr ⟨fault, rfl, by simp only [use, attempt, h]⟩

theorem get?_state_of_apply (h : e.apply operation = .ok e') (name : String) :
    e'.state.get? name = (e.written? name operation).or (e.state.get? name) := by
  cases operation with
  | setSignal other value =>
    cases h
    rw [setSignal, NameMap.get?_insert, written?]
    split_ifs <;> rfl
  | cycle observations =>
    obtain ⟨outcomes, houtcomes, rfl⟩ := cycle_eq_ok_iff.1 h
    have h : e.cycle observations = _ := h
    rw [written?, h]
    cases hrb : e.ruleBases.get? name with
    | none => exact kept_of_get?_none houtcomes hrb
    | some rb =>
      obtain ⟨x, hx, hcommitted⟩ := committed_of_get? houtcomes hrb
      rw [hcommitted]
      simp [hx, Except.toOption]
  | addUniverse u =>
    obtain ⟨-, -, rfl⟩ := addUniverse_eq_ok_iff.1 h
    rfl
  | addRuleBase rb =>
    obtain ⟨-, rfl⟩ := addRuleBase_eq_ok_iff.1 h
    rfl

theorem written?_of_error {fault : ModelFault α} (h : e.apply operation = .error fault) :
    e.written? name operation = none := by
  cases operation with
  | setSignal other value => cases h
  | cycle observations =>
    have h : e.cycle observations = .error fault := h
    rw [written?, h]
  | addUniverse u => rfl
  | addRuleBase rb => rfl

theorem isSome_written?_cycle (e : Engine α) (observations : NameMap α) (name : String) :
    (e.written? name (.cycle observations)).isSome = true ↔
      (∃ e', e.cycle observations = .ok e') ∧ e.ruleBases.contains name = true := by
  rw [written?, NameMap.contains]
  cases hcycle : e.cycle observations with
  | error fault => simp
  | ok e' =>
    obtain ⟨outcomes, houtcomes, -⟩ := cycle_eq_ok_iff.1 hcycle
    cases hrb : e.ruleBases.get? name with
    | none => simp
    | some rb =>
      obtain ⟨x, hx, -⟩ := committed_of_get? houtcomes hrb
      simp [hx, Except.toOption]

theorem get?_state_of_use (e : Engine α) (operation : Operation α) (name : String) :
    (e.use operation).1.state.get? name =
      (e.written? name operation).or (e.state.get? name) := by
  rcases e.use_cases operation with ⟨e', h, huse⟩ | ⟨fault, h, huse⟩
  · rw [huse]
    exact get?_state_of_apply h name
  · rw [huse, written?_of_error h, Option.none_or]

theorem get?_state_after (e : Engine α) (operations : List (Operation α)) (name : String) :
    (e.after operations).state.get? name =
      (e.writes name operations).getLast?.or (e.state.get? name) := by
  induction operations generalizing e with
  | nil => rfl
  | cons operation rest ih =>
    have hlast : (e.written? name operation).toList.getLast? = e.written? name operation := by
      cases e.written? name operation <;> rfl
    rw [writes, List.getLast?_append, hlast, Option.or_assoc, ← get?_state_of_use]
    exact ih _

/-- What an operation that succeeds does to an engine: it replaces the signals, or it adds a
universe or a rule base under a name that is new. -/
inductive Change (e : Engine α) : Engine α → Prop
  | signals (state : NameMap α) : Change e { e with state := state }
  | withUniverse (u : Universe α) (new : ¬ e.universes.contains u.name = true)
      (trend : e.settings.strictMonotonic = true → u.checkTrend = .ok ()) :
      Change e { e with universes := e.universes.insert u.name u }
  | withRuleBase (rb : RuleBase) (new : ¬ e.ruleBases.contains rb.name = true) :
      Change e { e with ruleBases := e.ruleBases.insert rb.name rb }

theorem change_of_apply (h : e.apply operation = .ok e') : e.Change e' := by
  cases operation with
  | setSignal name value =>
    cases h
    exact .signals _
  | cycle observations =>
    obtain ⟨_, -, rfl⟩ := cycle_eq_ok_iff.1 h
    exact .signals _
  | addUniverse u =>
    obtain ⟨hnew, htrend, rfl⟩ := addUniverse_eq_ok_iff.1 h
    exact .withUniverse u hnew htrend
  | addRuleBase rb =>
    obtain ⟨hnew, rfl⟩ := addRuleBase_eq_ok_iff.1 h
    exact .withRuleBase rb hnew

theorem Change.get?_universes {u : Universe α} (h : e.Change e')
    (hu : e.universes.get? name = some u) : e'.universes.get? name = some u := by
  cases h with
  | signals => exact hu
  | withRuleBase => exact hu
  | withUniverse v new => exact NameMap.get?_insert_of_new new hu

theorem Change.get?_ruleBases {rb : RuleBase} (h : e.Change e')
    (hrb : e.ruleBases.get? name = some rb) : e'.ruleBases.get? name = some rb := by
  cases h with
  | signals => exact hrb
  | withUniverse => exact hrb
  | withRuleBase added new => exact NameMap.get?_insert_of_new new hrb

/-- What every change keeps, the engine keeps in use. -/
theorem after_of_change {P : Engine α → Prop} (hP : ∀ {e e'}, e.Change e' → P e → P e') (h : P e)
    (operations : List (Operation α)) : P (e.after operations) := by
  induction operations generalizing e with
  | nil => exact h
  | cons operation rest ih =>
    have huse : P (e.use operation).1 := by
      rcases e.use_cases operation with ⟨e', happly, huse⟩ | ⟨fault, -, huse⟩
      · rw [huse]
        exact hP (change_of_apply happly) h
      · rw [huse]
        exact h
    exact ih huse

/-- All that an engine holds stands under its own name, and its universes have one trend if the
settings ask for it. -/
structure Orderly (settings : EngineSettings) (e : Engine α) : Prop where
  settings_eq : e.settings = settings
  universe_name {name : String} {u : Universe α} (h : e.universes.get? name = some u) :
    u.name = name
  ruleBase_name {name : String} {rb : RuleBase} (h : e.ruleBases.get? name = some rb) :
    rb.name = name
  trend (hstrict : settings.strictMonotonic = true) {name : String} {u : Universe α}
    (h : e.universes.get? name = some u) : u.checkTrend = .ok ()

theorem Change.orderly {settings : EngineSettings} (h : e.Change e') (he : e.Orderly settings) :
    e'.Orderly settings := by
  cases h with
  | signals => exact ⟨he.settings_eq, he.universe_name, he.ruleBase_name, he.trend⟩
  | withUniverse u _ trend =>
    refine ⟨he.settings_eq, ?_, he.ruleBase_name, ?_⟩
    · intro name v hv
      rcases NameMap.eq_or_get?_of_insert hv with ⟨rfl, rfl⟩ | hv
      · rfl
      · exact he.universe_name hv
    · intro hstrict name v hv
      rcases NameMap.eq_or_get?_of_insert hv with ⟨rfl, rfl⟩ | hv
      · exact trend (he.settings_eq ▸ hstrict)
      · exact he.trend hstrict hv
  | withRuleBase rb =>
    refine ⟨he.settings_eq, he.universe_name, ?_, he.trend⟩
    intro name rb' hrb
    rcases NameMap.eq_or_get?_of_insert hrb with ⟨rfl, rfl⟩ | hrb
    · rfl
    · exact he.ruleBase_name hrb

/-- An engine before it is used: it is empty, or a text has been compiled to it. -/
inductive Origin (settings : EngineSettings) : Engine Float → Prop
  | new : Origin settings (.new settings)
  | compiled {d : Dialect} {source : String} {e : Engine Float}
      (h : d.compile settings source = some (.ok e)) : Origin settings e

theorem Origin.orderly {settings : EngineSettings} {e : Engine Float} (h : Origin settings e) :
    e.Orderly settings ∧ e.state = .empty := by
  cases h with
  | new => exact ⟨⟨rfl, nofun, nofun, nofun⟩, rfl⟩
  | compiled h =>
    have hsound := (Assembly.sound_of_replay (Compilation.replay_history h)
      (Assembly.sound_start settings)).engine
    exact ⟨⟨hsound.settings_eq, fun h => (hsound.universe_name h).1,
      fun h => (hsound.ruleBase_name h).1, hsound.universe_trend⟩, hsound.state_eq⟩

/-- The signals of an engine that has come from `start` are those that were written last, and the
others are undefined. -/
structure Remembers (start : Engine α) (operations : List (Operation α)) : Prop where
  signal_of_write {name : String} {v : α} (h : (start.writes name operations).getLast? = some v) :
    (start.after operations).signal name = .ok v
  undefined_iff (name : String) : (start.after operations).signal name =
    .error (.undefined .signalName name .engineState) ↔ start.writes name operations = []

/-- What is in the engine stays in it as it is, whatever is done later, and its name stays taken. -/
structure Permanent (e : Engine α) : Prop where
  universe_added {u : Universe α} (h : (e.use (.addUniverse u)).2 = .ok ()) :
    (e.use (.addUniverse u)).1.universes.get? u.name = some u
  ruleBase_added {rb : RuleBase} (h : (e.use (.addRuleBase rb)).2 = .ok ()) :
    (e.use (.addRuleBase rb)).1.ruleBases.get? rb.name = some rb
  universe_kept {name : String} {u : Universe α} (h : e.universes.get? name = some u)
    (later : List (Operation α)) : (e.after later).universes.get? name = some u
  ruleBase_kept {name : String} {rb : RuleBase} (h : e.ruleBases.get? name = some rb)
    (later : List (Operation α)) : (e.after later).ruleBases.get? name = some rb
  universe_taken {u : Universe α} (h : e.universes.contains u.name = true)
    (later : List (Operation α)) : (e.after later).use (.addUniverse u) =
      (e.after later, .error (.duplicate .universeName u.name .engine))
  ruleBase_taken {rb : RuleBase} (h : e.ruleBases.contains rb.name = true)
    (later : List (Operation α)) : (e.after later).use (.addRuleBase rb) =
      (e.after later, .error (.duplicate .ruleBaseName rb.name .engine))

theorem remembers_of_empty (hstate : e.state = .empty) (operations : List (Operation α)) :
    e.Remembers operations := by
  have hstate (name : String) : (e.after operations).state.get? name =
      (e.writes name operations).getLast? := by
    rw [get?_state_after, hstate, NameMap.get?_empty, Option.or_none]
  refine ⟨fun h => ?_, fun name => ?_⟩
  · rw [signal, hstate, h]
  · rw [signal, hstate, ← List.getLast?_eq_none_iff]
    cases (e.writes name operations).getLast? <;> simp

theorem universe_kept {u : Universe α} (h : e.universes.get? name = some u)
    (later : List (Operation α)) : (e.after later).universes.get? name = some u :=
  after_of_change (P := fun e => e.universes.get? name = some u) Change.get?_universes h later

theorem ruleBase_kept {rb : RuleBase} (h : e.ruleBases.get? name = some rb)
    (later : List (Operation α)) : (e.after later).ruleBases.get? name = some rb :=
  after_of_change (P := fun e => e.ruleBases.get? name = some rb) Change.get?_ruleBases h later

theorem permanent (e : Engine α) : e.Permanent where
  universe_added {u} h := by
    rcases e.use_cases (.addUniverse u) with ⟨e', happly, huse⟩ | ⟨fault, -, huse⟩
    · rw [huse, get?_universes_of_add happly, if_pos rfl]
    · rw [huse] at h
      cases h
  ruleBase_added {rb} h := by
    rcases e.use_cases (.addRuleBase rb) with ⟨e', happly, huse⟩ | ⟨fault, -, huse⟩
    · rw [huse, get?_ruleBases_of_add happly, if_pos rfl]
    · rw [huse] at h
      cases h
  universe_kept := universe_kept
  ruleBase_kept := ruleBase_kept
  universe_taken {u} h later := by
    obtain ⟨v, hv⟩ := Option.isSome_iff_exists.1 h
    have htaken := NameMap.contains_of_get? (universe_kept hv later)
    simp only [use, attempt, apply, addUniverse, htaken, if_true]
  ruleBase_taken {rb} h later := by
    obtain ⟨rb', hrb'⟩ := Option.isSome_iff_exists.1 h
    have htaken := NameMap.contains_of_get? (ruleBase_kept hrb' later)
    simp only [use, attempt, apply, addRuleBase, htaken, if_true]

/-- After any operations on an empty or a compiled engine, its signals are those that were written
last. A cycle that succeeds writes under the names of the rule bases, and only there. An operation
that fails changes nothing, also if it changes the engine in place, and what the engine holds is
there for good, under its own name and in order. -/
theorem history_faithful {settings : EngineSettings} {start : Engine Float}
    (h : Origin settings start) (operations : List (Operation Float)) :
    start.Remembers operations ∧
      (∀ operation, (start.after operations).use operation =
        (start.after operations).useInPlace operation) ∧
      (∀ operation fault, ((start.after operations).use operation).2 = .error fault →
        ((start.after operations).use operation).1 = start.after operations) ∧
      (∀ observations name,
        ((start.after operations).written? name (.cycle observations)).isSome = true ↔
          (∃ e', (start.after operations).cycle observations = .ok e') ∧
            (start.after operations).ruleBases.contains name = true) ∧
      (∀ observations name, (start.after operations).ruleBases.get? name = none →
        ((start.after operations).use (.cycle observations)).1.signal name =
          (start.after operations).signal name) ∧
      (start.after operations).Permanent ∧ (start.after operations).Orderly settings := by
  obtain ⟨horderly, hstate⟩ := h.orderly
  refine ⟨remembers_of_empty hstate operations, use_eq_useInPlace _,
    fun operation fault hfault => ?_, (start.after operations).isSome_written?_cycle,
    fun observations name hname => ?_, permanent _,
    after_of_change Change.orderly horderly operations⟩
  · rcases (start.after operations).use_cases operation with ⟨e', -, huse⟩ | ⟨_, -, huse⟩
    · rw [huse] at hfault
      cases hfault
    · rw [huse]
  · have hwritten : (start.after operations).written? name (.cycle observations) = none := by
      rw [written?, hname]
      split <;> simp_all
    rw [signal, get?_state_of_use, hwritten, Option.none_or]
    rfl

/-- A signal is set, a cycle replaces it, the next cycle fails on the outcome, and then a name is
taken for the second time. -/
def flicker : List (Operation Float) :=
  [.setSignal "x" 0, .cycle .empty, .cycle (.ofList [("y", 1)]), .addUniverse (Universe.new "x")]

theorem writes_flicker : lamp.writes "x" flicker = [0, 2] ∧ lamp.writes "y" flicker = [] := by
  decide +kernel

theorem origin_lamp : Origin ⟨true⟩ lamp := by
  have h : builtinDialect.compile ⟨true⟩ lampText = some (.ok lamp) := by decide +kernel
  exact .compiled h

theorem history_faithful_lamp : Origin ⟨true⟩ lamp ∧ (lamp.after flicker).signal "x" = .ok 2 ∧
    (lamp.after flicker).signal "y" = .error (.undefined .signalName "y" .engineState) ∧
    (lamp.after flicker).Permanent ∧ (lamp.after flicker).Orderly ⟨true⟩ := by
  obtain ⟨hremembers, -, -, -, -, hpermanent, horderly⟩ := history_faithful origin_lamp flicker
  refine ⟨origin_lamp, hremembers.signal_of_write ?_, (hremembers.undefined_iff "y").2 ?_,
    hpermanent, horderly⟩
  · rw [writes_flicker.1]
    rfl
  · exact writes_flicker.2

end Engine

end FuzzyRules
