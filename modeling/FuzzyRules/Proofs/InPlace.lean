/-!
# Changes in place

Steps that work on a state where it stands: what has been changed stays so when a later step fails.
They come to the same as a function that makes a new state, or refuses to, if a failure leaves the
state as it was.
-/

namespace FuzzyRules

/-- Steps that keep what they have changed when one of them fails. -/
abbrev InPlace (σ ε : Type) := ExceptT ε (StateM σ)

namespace InPlace

variable {σ τ ε β : Type} {x y : InPlace σ ε Unit} {s left : σ} {r r' : Except ε σ}

/-- The steps turn `s` into a new value, or they fail and leave `left`. -/
def Ends (x : InPlace σ ε Unit) (s : σ) (r : Except ε σ) (left : σ) : Prop :=
  x.run.run s = match r with
    | .ok s' => (.ok (), s')
    | .error e => (.error e, left)

/-- The steps turn `s` into a new value, or they fail and leave it as it was. -/
abbrev ComesTo (x : InPlace σ ε Unit) (s : σ) (r : Except ε σ) : Prop := Ends x s r s

theorem comesTo_set (s s' : σ) : ComesTo (set s' : InPlace σ ε Unit) s (.ok s') := rfl

theorem comesTo_modify (edit : σ → σ) (s : σ) :
    ComesTo (modify edit : InPlace σ ε Unit) s (.ok (edit s)) := rfl

theorem comesTo_throw (e : ε) (s : σ) : ComesTo (throw e) s (.error e) := rfl

theorem ends_get {k : σ → InPlace σ ε Unit} (h : Ends (k s) s r left) :
    Ends (get >>= k) s r left := h

theorem run_bind {γ : Type} (item : InPlace σ ε β) (k : β → InPlace σ ε γ) (s : σ) :
    (item >>= k).run.run s =
      match item.run.run s with
      | (.ok b, s') => (k b).run.run s'
      | (.error e, s') => (.error e, s') := by
  rw [ExceptT.run_bind, StateT.run_bind]
  cases item.run.run s with
  | mk answer s' => cases answer <;> rfl

/-- What comes first may look at the state, if it leaves it as it is. -/
theorem comesTo_bind {item : InPlace σ ε β} {answer : Except ε β} {k : β → InPlace σ ε Unit}
    {g : β → Except ε σ} (hitem : item.run.run s = (answer, s))
    (h : ∀ b, answer = .ok b → ComesTo (k b) s (g b)) :
    ComesTo (item >>= k) s (answer >>= g) := by
  unfold ComesTo Ends
  rw [run_bind, hitem]
  cases answer with
  | ok b => exact h b rfl
  | error e => rfl

theorem comesTo_lift {item : Except ε β} {k : β → InPlace σ ε Unit} {g : β → Except ε σ}
    (h : ∀ b, item = .ok b → ComesTo (k b) s (g b)) :
    ComesTo (liftM item >>= k) s (item >>= g) :=
  comesTo_bind (by cases item <;> rfl) h

theorem Ends.ite {p : Prop} [Decidable p] (hx : Ends x s r left) (hy : Ends y s r' left) :
    Ends (if p then x else y) s (if p then r else r') left := by
  split
  · exact hx
  · exact hy

/-- The steps are taken on a part, which is put back whether they fail or not. -/
def within (part : τ) (put : τ → σ) (x : InPlace τ ε Unit) : InPlace σ ε Unit := do
  set (put (x.run.run part).2)
  (x.run.run part).1

theorem comesTo_within {part : τ} {put : τ → σ} {x : InPlace τ ε Unit} {r : Except ε τ}
    (h : ComesTo x part r) (hs : put part = s) :
    ComesTo (within part put x) s (do
      let part' ← r
      return put part') := by
  have hrun : (within part put x).run.run s =
      ((x.run.run part).1, put (x.run.run part).2) := by
    unfold within
    cases (x.run.run part).1 <;> rfl
  unfold ComesTo Ends at h ⊢
  rw [hrun, h]
  cases r with
  | ok part' => rfl
  | error e =>
    rw [hs]
    rfl

end InPlace

end FuzzyRules
