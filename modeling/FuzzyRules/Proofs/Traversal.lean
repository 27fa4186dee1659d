import Mathlib.Data.List.Forall2

/-!
# Traversals that stop at the first error

`List.mapM` in `Except` succeeds if and only if every element does, and then lists the values in
order. Otherwise it fails with the error of the first element that has one. If all that can be said
against a computation is listed in order, it fails with the first of these objections.
-/

namespace FuzzyRules.Traversal

variable {α β γ ε : Type} {f : α → Except ε β}

theorem mapM_cons_ok {a : α} {b : β} (h : f a = .ok b) (rest : List α) :
    (a :: rest).mapM f = (rest.mapM f).map (b :: ·) := by
  rw [List.mapM_cons, h]
  cases rest.mapM f <;> rfl

theorem mapM_cons_error {a : α} {e : ε} (h : f a = .error e) (rest : List α) :
    (a :: rest).mapM f = .error e := by
  rw [List.mapM_cons, h]
  rfl

theorem mapM_congr {g : α → Except ε β} {l : List α} (h : ∀ a ∈ l, f a = g a) :
    l.mapM f = l.mapM g := by
  induction l with
  | nil => rfl
  | cons a rest ih =>
    obtain ⟨ha, hrest⟩ := List.forall_mem_cons.1 h
    rw [List.mapM_cons, List.mapM_cons, ha, ih hrest]

theorem map_eq_ok_iff {g : β → γ} {x : Except ε β} {c : γ} :
    x.map g = .ok c ↔ ∃ b, x = .ok b ∧ g b = c := by
  cases x <;> simp [Except.map]

theorem bind_eq_ok_iff {x : Except ε β} {g : β → Except ε γ} {c : γ} :
    x >>= g = .ok c ↔ ∃ b, x = .ok b ∧ g b = .ok c := by
  cases x <;> simp [bind, Except.bind]

theorem bind_ne_error {x : Except ε β} {g : β → Except ε γ} {e : ε} (hx : x ≠ .error e)
    (hg : ∀ b, g b ≠ .error e) : x >>= g ≠ .error e := by
  cases x with
  | error e' => exact fun h => hx (congrArg Except.error (Except.error.inj h))
  | ok b => exact hg b

theorem foldlM_cons_eq_ok_iff {step : γ → α → Except ε γ} {s s' : γ} {a : α} {rest : List α} :
    (a :: rest).foldlM step s = .ok s' ↔
      ∃ s₁, step s a = .ok s₁ ∧ rest.foldlM step s₁ = .ok s' := by
  rw [List.foldlM_cons, bind_eq_ok_iff]

/-- What no step changes is as it was after all of them. -/
theorem foldlM_preserves {δ : Type} {step : γ → α → Except ε γ} {g : γ → δ}
    (hstep : ∀ {s a s'}, step s a = .ok s' → g s' = g s) {l : List α} {s s' : γ}
    (h : l.foldlM step s = .ok s') : g s' = g s := by
  induction l generalizing s with
  | nil =>
    cases h
    rfl
  | cons a rest ih =>
    obtain ⟨s₁, ha, hrest⟩ := foldlM_cons_eq_ok_iff.1 h
    rw [ih hrest, hstep ha]

theorem exists_of_mem_left {R : α → β → Prop} {l : List α} {r : List β}
    (h : List.Forall₂ R l r) {a : α} (ha : a ∈ l) : ∃ b ∈ r, R a b := by
  induction h with
  | nil => simp at ha
  | cons hab _ ih =>
    rcases List.mem_cons.1 ha with rfl | ha
    · exact ⟨_, List.mem_cons_self, hab⟩
    · obtain ⟨b, hb, hR⟩ := ih ha
      exact ⟨b, List.mem_cons_of_mem _ hb, hR⟩

theorem exists_forall₂ {R : α → β → Prop} {l : List α} (h : ∀ a ∈ l, ∃ b, R a b) :
    ∃ r, List.Forall₂ R l r := by
  induction l with
  | nil => exact ⟨[], .nil⟩
  | cons a rest ih =>
    obtain ⟨⟨b, hb⟩, hrest⟩ := List.forall_mem_cons.1 h
    obtain ⟨r, hr⟩ := ih hrest
    exact ⟨b :: r, .cons hb hr⟩

theorem exists_of_mem_right {R : α → β → Prop} {l : List α} {r : List β}
    (h : List.Forall₂ R l r) {b : β} (hb : b ∈ r) : ∃ a ∈ l, R a b :=
  exists_of_mem_left h.flip hb

theorem mapM_eq_ok_iff {l : List α} {r : List β} :
    l.mapM f = .ok r ↔ List.Forall₂ (fun a b => f a = .ok b) l r := by
  induction l generalizing r with
  | nil =>
    rw [List.mapM_nil, List.forall₂_nil_left_iff]
    exact ⟨fun h => (Except.ok.inj h).symm, fun h => h ▸ rfl⟩
  | cons a rest ih =>
    cases hfa : f a with
    | error e =>
      rw [mapM_cons_error hfa]
      constructor
      · intro h
        cases h
      · intro h
        obtain ⟨b, r', hb, -, -⟩ := List.forall₂_cons_left_iff.1 h
        rw [hfa] at hb
        cases hb
    | ok b =>
      rw [mapM_cons_ok hfa, map_eq_ok_iff]
      constructor
      · rintro ⟨bs, hbs, rfl⟩
        exact .cons hfa (ih.1 hbs)
      · intro h
        obtain ⟨b', r', hb, hr, rfl⟩ := List.forall₂_cons_left_iff.1 h
        rw [hfa] at hb
        cases hb
        exact ⟨r', ih.2 hr, rfl⟩

theorem mapM_error_of_first {before after : List α} {a : α} {e : ε}
    (hbefore : ∀ x ∈ before, ∃ b, f x = .ok b) (ha : f a = .error e) :
    (before ++ a :: after).mapM f = .error e := by
  induction before with
  | nil => exact mapM_cons_error ha after
  | cons x rest ih =>
    obtain ⟨b, hb⟩ := hbefore x List.mem_cons_self
    rw [List.cons_append, mapM_cons_ok hb, ih fun y hy => hbefore y (List.mem_cons_of_mem _ hy)]
    rfl

theorem exists_first_error {l : List α} {a : α} {e : ε} (ha : a ∈ l) (he : f a = .error e) :
    ∃ before x after cause, l = before ++ x :: after ∧ (∀ y ∈ before, ∃ b, f y = .ok b) ∧
      f x = .error cause := by
  induction l with
  | nil => simp at ha
  | cons y rest ih =>
    cases hy : f y with
    | error cause => exact ⟨[], y, rest, cause, rfl, by simp, hy⟩
    | ok b =>
      have hrest : a ∈ rest := by
        rcases List.mem_cons.1 ha with rfl | h
        · rw [he] at hy
          cases hy
        · exact h
      obtain ⟨before, x, after, cause, rfl, hbefore, hx⟩ := ih hrest
      refine ⟨y :: before, x, after, cause, rfl, ?_, hx⟩
      intro z hz
      rcases List.mem_cons.1 hz with rfl | hz
      · exact ⟨b, hy⟩
      · exact hbefore z hz

theorem exists_mapM_ok {l : List α} (h : ∀ a ∈ l, ∃ b, f a = .ok b) : ∃ r, l.mapM f = .ok r := by
  induction l with
  | nil => exact ⟨[], rfl⟩
  | cons a rest ih =>
    obtain ⟨b, hb⟩ := h a List.mem_cons_self
    obtain ⟨r, hr⟩ := ih fun x hx => h x (List.mem_cons_of_mem _ hx)
    exact ⟨b :: r, by rw [mapM_cons_ok hb, hr]; rfl⟩

/-- The error is the first of the objections, and there is none without an objection. -/
def Heeds (x : Except ε β) (objections : List ε) : Prop :=
  ∀ e, x = .error e ↔ objections.head? = some e

theorem heeds_ok (b : β) : Heeds (.ok b : Except ε β) [] := by simp [Heeds]

theorem heeds_error (e : ε) (objections : List ε) :
    Heeds (.error e : Except ε β) (e :: objections) := by simp [Heeds]

/-- What a computation itself has against its success. -/
def errors : Except ε β → List ε
  | .ok _ => []
  | .error e => [e]

theorem heeds_errors (x : Except ε β) : Heeds x (errors x) := by
  cases x with
  | ok b => exact heeds_ok b
  | error e => exact heeds_error e []

theorem Heeds.exists_ok_iff {x : Except ε β} {objections : List ε} (h : Heeds x objections) :
    (∃ b, x = .ok b) ↔ objections = [] := by
  cases x with
  | ok b =>
    cases objections with
    | nil => simp
    | cons e rest => exact absurd ((h e).2 rfl) nofun
  | error e =>
    have hhead := (h e).1 rfl
    constructor
    · rintro ⟨b, hb⟩
      cases hb
    · rintro rfl
      cases hhead

theorem Heeds.bind {x : Except ε β} {g : β → Except ε γ} {objections later : List ε}
    (hx : Heeds x objections) (hg : ∀ b, x = .ok b → Heeds (g b) later) :
    Heeds (x >>= g) (objections ++ later) := by
  cases x with
  | ok b =>
    rw [hx.exists_ok_iff.1 ⟨b, rfl⟩]
    exact hg b rfl
  | error cause =>
    have hhead := (hx cause).1 rfl
    have hbind : (Except.error cause : Except ε β) >>= g = .error cause := rfl
    intro e
    simp [hbind, List.head?_append, hhead]

theorem heeds_map_iff {x : Except ε β} {objections : List ε} {g : β → γ} :
    Heeds (x.map g) objections ↔ Heeds x objections := by
  cases x <;> simp [Heeds, Except.map]

/-- The objections against a traversal are those against its elements, in order. -/
theorem heeds_mapM {objections : α → List ε} {l : List α}
    (h : ∀ a ∈ l, Heeds (f a) (objections a)) : Heeds (l.mapM f) (l.flatMap objections) := by
  induction l with
  | nil => exact heeds_ok []
  | cons a rest ih =>
    obtain ⟨ha, hrest⟩ := List.forall_mem_cons.1 h
    rw [List.mapM_cons, List.flatMap_cons]
    exact ha.bind fun b _ => heeds_map_iff.2 (ih hrest)

end FuzzyRules.Traversal
