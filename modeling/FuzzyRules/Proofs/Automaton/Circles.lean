import Mathlib.Data.Fintype.Card
import Mathlib.Logic.Relation
import FuzzyRules.Proofs.Automaton.Steps

/-!
# Circles of a table

A partial function that comes to an end passes nothing twice on the way to it. An item that is
offered again and again, as the end of the input is, leads a run from state to state. It can be
consumed over and over only if it is consumed in a state that it leads back to. If there is no such
state, each step that consumes it leaves one state less to consume it in. Between two steps that
consume, a run waits no longer than the table has states.
-/

namespace FuzzyRules

section Ends

variable {α : Type} {f : α → Option α} {a b : α} {k : Nat}

theorem iterate_bind_none (f : α → Option α) (k : Nat) : (Option.bind · f)^[k] none = none :=
  Function.iterate_fixed rfl k

theorem iterate_bind_of_end (hb : f b = none) (hk : 0 < k) :
    (Option.bind · f)^[k] (some b) = none := by
  obtain ⟨k, rfl⟩ := Nat.exists_eq_add_one.2 hk
  rw [Function.iterate_succ_apply, Option.bind_some, hb, iterate_bind_none]

/-- A partial function that comes to an end has passed no element twice before. -/
theorem lt_card_of_end [Fintype α] (h : (Option.bind · f)^[k] (some a) = some b)
    (hb : f b = none) : k < Fintype.card α := by
  have hsplit (m : Fin (k + 1)) : ∃ c, (Option.bind · f)^[k - m] (some c) = some b := by
    rw [← Nat.sub_add_cancel (Nat.le_of_lt_succ m.isLt), Function.iterate_add_apply] at h
    cases hm : (Option.bind · f)^[m.val] (some a) with
    | none =>
      rw [hm, iterate_bind_none] at h
      cases h
    | some c => exact ⟨c, hm ▸ h⟩
  choose passed hpassed using hsplit
  have hne {m n : Fin (k + 1)} (hmn : m < n) : passed m ≠ passed n := by
    intro heq
    -- from the same element there would be steps left behind the end
    have hsum : k - m.val = (n.val - m.val) + (k - n.val) := by omega
    have hm := hpassed m
    rw [heq, hsum, Function.iterate_add_apply, hpassed n,
      iterate_bind_of_end hb (Nat.sub_pos_of_lt hmn)] at hm
    cases hm
  have hinj : Function.Injective passed := by
    intro m n heq
    rcases lt_trichotomy m n with hmn | hmn | hmn
    · exact absurd heq (hne hmn)
    · exact hmn
    · exact absurd heq.symm (hne hmn)
  have hcard := Fintype.card_le_of_injective passed hinj
  rw [Fintype.card_fin] at hcard
  exact hcard

end Ends

namespace Table

open Relation

variable {κ A ι : Type} [ItemClass κ ι]

def transition? (t : Table κ A) (item : ι) (i : Fin t.size) : Option (Transition κ A t.size) :=
  (t.row i).transitions.find? fun tr => ItemClass.admits tr.itemClass item

def Leads (t : Table κ A) (item : ι) (i j : Fin t.size) : Prop :=
  ∃ tr, t.transition? item i = some tr ∧ tr.next = .state j

def Consumes (t : Table κ A) (item : ι) (i : Fin t.size) : Prop :=
  ∃ tr, t.transition? item i = some tr ∧ tr.consumes = true

/-- No state consumes the item and is led back to by it. -/
def Settles (t : Table κ A) (item : ι) : Prop :=
  ∀ i j tr, t.transition? item i = some tr → tr.consumes = true → tr.next = .state j →
    ¬ ReflTransGen (t.Leads item) j i

variable {t : Table κ A} {item : ι} {i j : Fin t.size}

/-- A table that leaves the item where it is. -/
theorem settles_of_keeps (h : ∀ i, (t.transition? item i).all (fun tr => !tr.consumes) = true) :
    t.Settles item := by
  intro i j tr htr hconsumes
  have hkeeps := h i
  simp [htr, hconsumes] at hkeeps

open Classical in
/-- The states that can still consume the item. -/
noncomputable def consumers (t : Table κ A) (item : ι) (i : Fin t.size) : Finset (Fin t.size) :=
  Finset.univ.filter fun c => t.Consumes item c ∧ ReflTransGen (t.Leads item) i c

theorem mem_consumers {c : Fin t.size} :
    c ∈ t.consumers item i ↔ t.Consumes item c ∧ ReflTransGen (t.Leads item) i c := by
  simp [consumers]

theorem card_consumers_le (i : Fin t.size) : (t.consumers item i).card ≤ t.size :=
  (Finset.card_le_univ _).trans_eq (Fintype.card_fin _)

theorem consumers_subset (h : t.Leads item i j) : t.consumers item j ⊆ t.consumers item i := by
  intro c hc
  rw [mem_consumers] at hc ⊢
  exact ⟨hc.1, hc.2.head h⟩

theorem consumers_ssubset (ht : t.Settles item) {tr : Transition κ A t.size}
    (htr : t.transition? item i = some tr) (hconsumes : tr.consumes = true)
    (hnext : tr.next = .state j) : t.consumers item j ⊂ t.consumers item i := by
  have hi : i ∈ t.consumers item i := mem_consumers.2 ⟨⟨tr, htr, hconsumes⟩, .refl⟩
  have hj : i ∉ t.consumers item j := fun h =>
    ht i j tr htr hconsumes hnext (mem_consumers.1 h).2
  exact Finset.ssubset_iff_subset_ne.2
    ⟨consumers_subset ⟨tr, htr, hnext⟩, fun h => hj (h ▸ hi)⟩

end Table

namespace Run

variable {κ A : Type} {t : Table κ A} {r : Run t} {tr : Transition κ A t.size}

/-- Steps that a run can still take if `reserve` of them may consume. -/
def patience (r : Run t) (reserve : Nat) : Nat := reserve * (t.size + 1) + (t.size + 1 - r.idle)

theorem enabled?_eq_transition? {ι : Type} [ItemClass κ ι] (r : Run t) (item : ι) :
    r.enabled? item = t.transition? item r.state := rfl

theorem idle_moveTo (r : Run t) (idle : Nat) (next : Next t.size) :
    (r.moveTo idle next).idle = idle := by
  cases next <;> rfl

/-- A step spends patience, except that a run which is stalled may recover by it. -/
theorem patience_moveTo {reserve reserve' : Nat} (hidle : r.idleAfter tr ≤ t.size)
    (hreserve : reserve' + (if tr.consumes then 1 else 0) ≤ reserve) :
    (r.moveTo (r.idleAfter tr) tr.next).patience reserve' ≤ r.patience reserve ∧
      (r.idle ≤ t.size →
        (r.moveTo (r.idleAfter tr) tr.next).patience reserve' < r.patience reserve) := by
  have hmul := Nat.mul_le_mul_right (t.size + 1) hreserve
  rw [Nat.add_mul] at hmul
  rw [patience, patience, idle_moveTo]
  rw [idleAfter] at hidle ⊢
  cases hconsumes : tr.consumes <;> simp only [hconsumes, if_true, Bool.false_eq_true, if_false]
    at hidle hmul ⊢ <;> omega

end Run

end FuzzyRules
