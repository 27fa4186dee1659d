import FuzzyRules.Engine.Cycle
import FuzzyRules.Proofs.InPlace
import FuzzyRules.Proofs.Traversal

/-!
# Changing an engine in place

Adding to an engine and running a cycle once more, as steps on the engine where it stands. A name is
looked for before it is taken. A cycle goes through the rule bases one after the other and keeps
their outcomes until all of them are there; only then it writes to the signals. So what fails has
not written anything, and the steps come to the same as the functions that make a new engine.
-/

namespace FuzzyRules.Engine

open InPlace

variable {α : Type}

def receiveRuleBase (rb : RuleBase) : InPlace (Engine α) (ModelFault α) Unit := do
  let e ← get
  if e.ruleBases.contains rb.name then throw (.duplicate .ruleBaseName rb.name .engine)
  else set { e with ruleBases := e.ruleBases.insert rb.name rb }

theorem comesTo_receiveRuleBase (e : Engine α) (rb : RuleBase) :
    ComesTo (receiveRuleBase rb) e (e.addRuleBase rb) :=
  ends_get (.ite (comesTo_throw _ e) (comesTo_set e _))

variable [Scalar α]

def receiveUniverse (u : Universe α) : InPlace (Engine α) (ModelFault α) Unit := do
  let e ← get
  if e.universes.contains u.name then throw (.duplicate .universeName u.name .engine)
  else
    if e.settings.strictMonotonic then u.checkTrend
    set { e with universes := e.universes.insert u.name u }

theorem comesTo_receiveUniverse (e : Engine α) (u : Universe α) :
    ComesTo (receiveUniverse u) e (e.addUniverse u) := by
  refine ends_get (.ite (comesTo_throw _ e) ?_)
  cases e.settings.strictMonotonic with
  | false => exact comesTo_set e _
  | true => cases u.checkTrend <;> rfl

/-- The outcomes of some rule bases, added to those that are there already. -/
def gather (inputs : NameMap α) (outcomes : NameMap α) :
    List (String × RuleBase) → InPlace (Engine α) (ModelFault α) (NameMap α)
  | [] => return outcomes
  | (name, rb) :: rest => do
    let x ← rb.consequence (← get).universes inputs
    gather inputs (outcomes.insert name x) rest

/-- A cycle reads the signals at its start, and it writes to them at its end. -/
def cycleInPlace (observations : NameMap α) : InPlace (Engine α) (ModelFault α) Unit := do
  let e ← get
  let outcomes ← gather (e.state.overlay observations) .empty e.ruleBases.entries
  modify fun e => { e with state := e.state.overlay outcomes }

theorem run_gather_cons (e : Engine α) (inputs outcomes : NameMap α) (name : String)
    (rb : RuleBase) (rest : List (String × RuleBase)) :
    (gather inputs outcomes ((name, rb) :: rest)).run.run e =
      match rb.consequence e.universes inputs with
      | .ok x => (gather inputs (outcomes.insert name x) rest).run.run e
      | .error fault => (.error fault, e) := by
  have hgather : (gather inputs outcomes ((name, rb) :: rest)).run.run e =
      (liftM (rb.consequence e.universes inputs) >>= fun x =>
        gather inputs (outcomes.insert name x) rest : InPlace (Engine α) _ _).run.run e := rfl
  rw [hgather, run_bind]
  cases rb.consequence e.universes inputs <;> rfl

/-- The rule bases are evaluated as they are for a new engine, and this one stays as it is. -/
theorem run_gather (e : Engine α) (inputs outcomes : NameMap α)
    (ruleBases : List (String × RuleBase)) :
    (gather inputs outcomes ruleBases).run.run e =
      ((ruleBases.mapM fun b : String × RuleBase =>
          (b.2.consequence e.universes inputs).map fun x => (b.1, x)).map
        fun added => added.foldl (fun m o => m.insert o.1 o.2) outcomes, e) := by
  induction ruleBases generalizing outcomes with
  | nil => rfl
  | cons b rest ih =>
    obtain ⟨name, rb⟩ := b
    rw [run_gather_cons]
    cases hx : rb.consequence e.universes inputs with
    | error fault =>
      rw [Traversal.mapM_cons_error (by rw [hx]; rfl)]
      rfl
    | ok x =>
      rw [Traversal.mapM_cons_ok (by rw [hx]; rfl)]
      refine (ih _).trans ?_
      cases rest.mapM fun b : String × RuleBase =>
        (b.2.consequence e.universes inputs).map fun x => (b.1, x) <;> rfl

theorem comesTo_cycleInPlace (e : Engine α) (observations : NameMap α) :
    ComesTo (cycleInPlace observations) e (e.cycle observations) := by
  have hgather := run_gather e (e.state.overlay observations) .empty e.ruleBases.entries
  have hcycle : e.cycle observations =
      ((e.consequences (e.state.overlay observations)).map NameMap.ofList >>= fun outcomes =>
        .ok { e with state := e.state.overlay outcomes }) := by
    rw [cycle]
    cases e.consequences (e.state.overlay observations) <;> rfl
  rw [hcycle]
  exact ends_get (comesTo_bind hgather fun outcomes _ => comesTo_modify _ e)

end FuzzyRules.Engine
