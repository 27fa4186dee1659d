/-!
# Scalars

The numbers that centers, values, signals and distances are made of. The theory of universes and
rule bases needs the four operations, the order and a count; it is run on doubles and read over
exact fractions.
-/

namespace FuzzyRules

class Scalar (α : Type) extends Add α, Sub α, Mul α, Div α, LE α, LT α, BEq α where
  ofCount : Nat → α
  isFinite : α → Bool
  decidableLE : ∀ a b : α, Decidable (a ≤ b)
  decidableLT : ∀ a b : α, Decidable (a < b)

instance Scalar.instDecidableLE {α : Type} [Scalar α] (a b : α) : Decidable (a ≤ b) :=
  Scalar.decidableLE a b

instance Scalar.instDecidableLT {α : Type} [Scalar α] (a b : α) : Decidable (a < b) :=
  Scalar.decidableLT a b

instance : Scalar Float where
  ofCount := Float.ofNat
  isFinite := Float.isFinite
  decidableLE := Float.decLe
  decidableLT := Float.decLt

instance : Scalar Rat where
  ofCount n := n
  isFinite _ := true
  decidableLE _ _ := inferInstance
  decidableLT _ _ := inferInstance

namespace Scalar

variable {α : Type} [Scalar α]

/-- A number that differs from itself loses against any other. -/
def least (a b : α) : α := if b < a then b else if a == a then a else b

/-- The sum from the left, in the order of the list. -/
def sumFrom (first : α) (rest : List α) : α := rest.foldl (· + ·) first

def mean (first : α) (rest : List α) : α := sumFrom first rest / ofCount (rest.length + 1)

@[simp] theorem sumFrom_nil (a : α) : sumFrom a [] = a := rfl

@[simp] theorem sumFrom_cons (a b : α) (rest : List α) :
    sumFrom a (b :: rest) = sumFrom (a + b) rest := rfl

end Scalar

end FuzzyRules
