import FuzzyRules.Assembly.Basic
import FuzzyRules.Proofs.Engine.InPlace

/-!
# Operating an assembly in place

The actions once more, as steps that change an assembly where it stands: a draft comes off the
stack before anyone looks at it, what it is to be added to is looked for afterwards, and whatever
has been changed stays so when a later step fails. This comes to the same as `operate`: a refused
action has dropped the draft that it was to close, and nothing else is left of it.
-/

namespace FuzzyRules

open InPlace

/-! ### What entities take in -/

def Universe.receive (t : Term Float) : InPlace (Universe Float) (ModelFault Float) Unit := do
  let u ← get
  if (u.term? t.name).isSome then throw (.duplicate .termName t.name (.inUniverse u.name))
  else set { u with terms := place t u.terms }

theorem Universe.comesTo_receive (u : Universe Float) (t : Term Float) :
    ComesTo (receive t) u (u.add t) :=
  ends_get (.ite (comesTo_throw _ u) (comesTo_set u _))

def Rule.receive (antecedent term : String) : InPlace Rule (ModelFault Float) Unit := do
  let r ← get
  if r.predicates.contains antecedent then
    throw (.duplicate .antecedent antecedent (.inRule r.consequent))
  else set { r with predicates := r.predicates.insert antecedent term }

theorem Rule.comesTo_receive (r : Rule) (antecedent term : String) :
    ComesTo (receive antecedent term) r (r.addPredicate antecedent term) :=
  ends_get (.ite (comesTo_throw _ r) (comesTo_set r _))

/-! ### Drafts of one kind -/

namespace Slot

variable {β : Type} {s : Assembly} (slot : Slot β) (a : AssemblyAction)

/-- The innermost draft comes off, whatever it is. -/
def take : InPlace Assembly GrammarFault β := do
  let s ← get
  set { s with drafts := s.drafts.tail }
  let (b, _) ← slot.top a s.drafts
  return b

/-- The innermost draft is changed where it stands. -/
def change (x : InPlace β GrammarFault Unit) : InPlace Assembly GrammarFault Unit := do
  let s ← get
  let (b, below) ← slot.top a s.drafts
  within b (fun b => { s with drafts := slot.draft b :: below }) x

variable {slot a}

theorem comesTo_change {x : InPlace β GrammarFault Unit} {f : β → Except GrammarFault β}
    (hx : ∀ b, ComesTo x b (f b)) :
    ComesTo (slot.change a x) s (slot.top a s.drafts >>= fun found => f found.1 >>= fun b =>
      pure { s with drafts := slot.draft b :: found.2 }) := by
  refine ends_get (comesTo_lift fun found htop => ?_)
  refine comesTo_within (hx found.1) ?_
  rw [← eq_of_top htop]

theorem comesTo_edit (edit : β → β) :
    ComesTo (slot.change a (modify edit)) s (slot.top a s.drafts >>= fun found =>
      pure { s with drafts := slot.draft (edit found.1) :: found.2 }) :=
  comesTo_change (comesTo_modify edit)

/-- What is done with the draft that has come off may leave the others as they are. -/
theorem ends_take {k : β → InPlace Assembly GrammarFault Unit}
    {g : β × List Draft → Except GrammarFault Assembly}
    (hk : ∀ found, ComesTo (k found.1) ⟨s.engine, found.2⟩ (g found)) :
    Ends (slot.take a >>= k) s (slot.top a s.drafts >>= g) { s with drafts := s.drafts.tail } := by
  have hrun : (slot.take a >>= k).run.run s =
      (liftM (slot.top a s.drafts) >>= fun found => k found.1 :
        InPlace Assembly GrammarFault Unit).run.run { s with drafts := s.drafts.tail } := by
    change ((do
      let found ← slot.top a s.drafts
      return found.1) >>= k : InPlace Assembly GrammarFault Unit).run.run _ = _
    cases slot.top a s.drafts <;> rfl
  unfold Ends
  rw [hrun]
  refine comesTo_lift fun found htop => ?_
  rw [eq_of_top htop]
  exact hk found

end Slot

namespace Assembly

variable {σ : Type} {s : Assembly} {a : AssemblyAction} {t : Token}

/-- A fault of the model is blamed on the token. -/
def blaming (t : Token) (x : InPlace σ (ModelFault Float) Unit) : InPlace σ GrammarFault Unit :=
  x.adapt (.model t.excerpt)

theorem comesTo_blaming {x : InPlace σ (ModelFault Float) Unit} {s : σ}
    {r : Except (ModelFault Float) σ} (h : ComesTo x s r) :
    ComesTo (blaming t x) s (orModelFault t r) := by
  have hrun : (blaming t x).run.run s =
      ((x.run.run s).1.mapError (.model t.excerpt), (x.run.run s).2) := rfl
  unfold ComesTo Ends at h ⊢
  rw [hrun, h]
  cases r <;> rfl

/-! ### The actions -/

def openInPlace (a : AssemblyAction) (parent : Option DraftKind) (draft : Draft) :
    InPlace Assembly GrammarFault Unit := do
  let s ← get
  if topKind? s.drafts = parent then set { s with drafts := draft :: s.drafts }
  else throw (.misplaced a.name parent (topKind? s.drafts))

theorem comesTo_openInPlace (parent : Option DraftKind) (draft : Draft) :
    ComesTo (openInPlace a parent draft) s (s.openDraft a parent draft) :=
  ends_get (.ite (comesTo_set s _) (comesTo_throw _ s))

def onEngine (x : InPlace (Engine Float) GrammarFault Unit) :
    InPlace Assembly GrammarFault Unit := do
  let s ← get
  within s.engine (fun engine => { s with engine := engine }) x

theorem comesTo_onEngine {x : InPlace (Engine Float) GrammarFault Unit}
    {r : Except GrammarFault (Engine Float)} (h : ComesTo x s.engine r) :
    ComesTo (onEngine x) s (do
      let engine ← r
      return { s with engine := engine }) :=
  ends_get (comesTo_within h rfl)

def fillInPlace {β γ : Type} (a : AssemblyAction) (slot : Slot γ) (item : Except GrammarFault β)
    (edit : β → γ → γ) : InPlace Assembly GrammarFault Unit := do
  let b ← item
  slot.change a (modify (edit b))

theorem comesTo_fillInPlace {β γ : Type} {slot : Slot γ} {item : Except GrammarFault β}
    {edit : β → γ → γ} : ComesTo (fillInPlace a slot item edit) s (s.fill a slot item edit) :=
  comesTo_lift fun b _ => Slot.comesTo_edit (edit b)

def steps (a : AssemblyAction) (t : Token) : InPlace Assembly GrammarFault Unit :=
  match a with
  | .createUniverse => openInPlace a none (.ofUniverse (Universe.new ""))
  | .setUniverseName =>
    fillInPlace a .ofUniverse (needText a t) fun name u => { u with name := name }
  | .setUniverseDescription =>
    fillInPlace a .ofUniverse (needText a t) fun description u =>
      { u with description := some description }
  | .createTerm => do
    let name ← needText a t
    openInPlace a (some .ofUniverse) (.ofTerm ⟨name, none, none⟩)
  | .setCenter =>
    fillInPlace a .ofTerm (needNumber a t) fun center d => { d with center := some center }
  | .setValue =>
    fillInPlace a .ofTerm (needNumber a t) fun value d => { d with value := some value }
  | .addTerm => do
    let d ← Slot.ofTerm.take a
    match d.center, d.value with
    | some center, some value =>
      Slot.ofUniverse.change a (blaming t (Universe.receive ⟨d.name, center, value⟩))
    | _, _ => throw (.incomplete (.term d.name) t.excerpt)
  | .addUniverse => do
    let u ← Slot.ofUniverse.take a
    if u.name = "" then throw (.incomplete .namelessUniverse t.excerpt)
    else onEngine (blaming t (Engine.receiveUniverse u))
  | .createRuleBase => openInPlace a none (.ofRuleBase (RuleBase.new ""))
  | .setRuleBaseName =>
    fillInPlace a .ofRuleBase (needText a t) fun name rb => { rb with name := name }
  | .setRuleBaseDescription =>
    fillInPlace a .ofRuleBase (needText a t) fun description rb =>
      { rb with description := some description }
  | .createRule => openInPlace a (some .ofRuleBase) (.ofRule (Rule.new ""))
  | .setRuleDescription =>
    fillInPlace a .ofRule (needText a t) fun description r =>
      { r with description := some description }
  | .setConsequence =>
    fillInPlace a .ofRule (needText a t) fun consequent r => { r with consequent := consequent }
  | .createPredicate => openInPlace a (some .ofRule) (.ofPredicate ⟨none, none⟩)
  | .setPredicateName =>
    fillInPlace a .ofPredicate (needText a t) fun antecedent d =>
      { d with antecedent := some antecedent }
  | .setPredicateValue =>
    fillInPlace a .ofPredicate (needText a t) fun term d => { d with term := some term }
  | .addPredicate => do
    let d ← Slot.ofPredicate.take a
    match d.antecedent, d.term with
    | some antecedent, some term =>
      Slot.ofRule.change a (blaming t (Rule.receive antecedent term))
    | _, _ => throw (.incomplete .predicate t.excerpt)
  | .addRule => do
    let r ← Slot.ofRule.take a
    if r.consequent = "" then throw (.incomplete .ruleWithoutConsequent t.excerpt)
    else Slot.ofRuleBase.change a (modify fun rb => rb.addRule r)
  | .addRuleBase => do
    let rb ← Slot.ofRuleBase.take a
    if rb.name = "" then throw (.incomplete .namelessRuleBase t.excerpt)
    else onEngine (blaming t (Engine.receiveRuleBase rb))

theorem ends_addTerm :
    Ends (steps .addTerm t) s (s.addTerm t) { s with drafts := s.drafts.tail } := by
  unfold steps addTerm
  refine Slot.ends_take ?_
  rintro ⟨⟨name, center, value⟩, below⟩
  cases center with
  | none => exact comesTo_throw _ _
  | some center =>
    cases value with
    | none => exact comesTo_throw _ _
    | some value =>
      exact Slot.comesTo_change fun u => comesTo_blaming (Universe.comesTo_receive u _)

theorem ends_addPredicate :
    Ends (steps .addPredicate t) s (s.addPredicate t) { s with drafts := s.drafts.tail } := by
  unfold steps addPredicate
  refine Slot.ends_take ?_
  rintro ⟨⟨antecedent, term⟩, below⟩
  cases antecedent with
  | none => exact comesTo_throw _ _
  | some antecedent =>
    cases term with
    | none => exact comesTo_throw _ _
    | some term =>
      exact Slot.comesTo_change fun r => comesTo_blaming (Rule.comesTo_receive r _ _)

theorem ends_addUniverse :
    Ends (steps .addUniverse t) s (s.addUniverse t) { s with drafts := s.drafts.tail } := by
  unfold steps addUniverse
  refine Slot.ends_take fun found => Ends.ite (comesTo_throw _ _) ?_
  exact comesTo_onEngine (comesTo_blaming (s.engine.comesTo_receiveUniverse found.1))

theorem ends_addRuleBase :
    Ends (steps .addRuleBase t) s (s.addRuleBase t) { s with drafts := s.drafts.tail } := by
  unfold steps addRuleBase
  refine Slot.ends_take fun found => Ends.ite (comesTo_throw _ _) ?_
  exact comesTo_onEngine (comesTo_blaming (s.engine.comesTo_receiveRuleBase found.1))

theorem ends_addRule :
    Ends (steps .addRule t) s (s.addRule t) { s with drafts := s.drafts.tail } := by
  unfold steps addRule
  exact Slot.ends_take fun _ => Ends.ite (comesTo_throw _ _) (Slot.comesTo_edit _)

theorem ends_steps (s : Assembly) (a : AssemblyAction) (t : Token) :
    Ends (steps a t) s (s.attempt a t) (s.refused a) := by
  cases a with
  | createUniverse | createRuleBase => exact comesTo_openInPlace none _
  | createRule | createPredicate => exact comesTo_openInPlace _ _
  | createTerm => exact comesTo_lift fun name _ => comesTo_openInPlace _ _
  | setUniverseName | setUniverseDescription | setCenter | setValue | setRuleBaseName
  | setRuleBaseDescription | setRuleDescription | setConsequence | setPredicateName
  | setPredicateValue => exact comesTo_fillInPlace
  | addTerm => exact ends_addTerm
  | addUniverse => exact ends_addUniverse
  | addPredicate => exact ends_addPredicate
  | addRule => exact ends_addRule
  | addRuleBase => exact ends_addRuleBase

/-- An assembly is operated by the steps of the action, with all that they leave behind. -/
def operateInPlace : Operator AssemblyAction Token Assembly GrammarFault := fun a t s =>
  ((steps a t).run.run s).swap

theorem operate_eq_operateInPlace : operate = operateInPlace := by
  funext a t s
  have hends := ends_steps s a t
  unfold Ends at hends
  unfold operate operateInPlace
  rw [hends]
  cases s.attempt a t <;> rfl

end Assembly

end FuzzyRules
