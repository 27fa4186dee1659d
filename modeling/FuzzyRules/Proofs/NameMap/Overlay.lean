import Mathlib.Data.List.Basic
import FuzzyRules.NameMap.Basic

/-!
# Look-ups in maps from names

A look-up finds exactly the entries of the map, so two maps with the same look-ups are equal. In an
overlay it finds the entry of the upper map if there is one, and that of the lower map otherwise. A
write under a new name adds one entry.
-/

namespace FuzzyRules.NameMap

variable {β : Type}

theorem lookup_eq_none_iff {name : String} {l : List (String × β)} :
    lookup name l = none ↔ name ∉ l.map Prod.fst := by
  induction l with
  | nil => simp [lookup]
  | cons e rest ih =>
    by_cases h : name = e.1 <;> simp [lookup, h, ih]

theorem mem_of_lookup {name : String} {v : β} {l : List (String × β)}
    (h : lookup name l = some v) : (name, v) ∈ l := by
  induction l with
  | nil => simp [lookup] at h
  | cons e rest ih =>
    obtain ⟨k, w⟩ := e
    unfold lookup at h
    split_ifs at h with hk
    · cases h
      rw [hk]
      exact List.mem_cons_self
    · exact List.mem_cons_of_mem _ (ih h)

theorem lookup_of_mem {name : String} {v : β} {l : List (String × β)}
    (hl : l.Pairwise fun a b => a.1 ≠ b.1) (h : (name, v) ∈ l) : lookup name l = some v := by
  induction l with
  | nil => simp at h
  | cons e rest ih =>
    obtain ⟨hk, hrest⟩ := List.pairwise_cons.1 hl
    rcases List.mem_cons.1 h with rfl | h
    · simp [lookup]
    · rw [lookup, if_neg (Ne.symm (hk _ h))]
      exact ih hrest h

theorem pairwise_ne (m : NameMap β) : m.entries.Pairwise fun a b => a.1 ≠ b.1 := by
  refine m.ordered.imp ?_
  intro a b h heq
  rw [heq] at h
  exact String.lt_irrefl _ h

theorem get?_eq_some_iff {m : NameMap β} {name : String} {v : β} :
    m.get? name = some v ↔ (name, v) ∈ m.entries :=
  ⟨mem_of_lookup, lookup_of_mem m.pairwise_ne⟩

theorem ext_get? {m m' : NameMap β} (h : ∀ name, m.get? name = m'.get? name) : m = m' := by
  have hnodup (m : NameMap β) : m.entries.Nodup :=
    m.pairwise_ne.imp fun hne heq => hne (congrArg Prod.fst heq)
  have hperm : m.entries.Perm m'.entries := by
    rw [List.perm_ext_iff_of_nodup (hnodup m) (hnodup m')]
    rintro ⟨name, v⟩
    rw [← get?_eq_some_iff, ← get?_eq_some_iff, h]
  have hentries : m.entries = m'.entries := by
    refine hperm.eq_of_pairwise ?_ m.ordered m'.ordered
    intro a b _ _ hab hba
    exact absurd (String.lt_trans hab hba) (String.lt_irrefl _)
  cases m
  cases m'
  simpa using hentries

theorem get?_eq_none_iff {m : NameMap β} {name : String} : m.get? name = none ↔ name ∉ m.keys :=
  lookup_eq_none_iff

theorem contains_iff_mem_keys {m : NameMap β} {name : String} :
    m.contains name = true ↔ name ∈ m.keys := by
  rw [contains, Option.isSome_iff_ne_none, ne_eq, get?_eq_none_iff, not_not]

theorem contains_of_get? {m : NameMap β} {name : String} {v : β} (h : m.get? name = some v) :
    m.contains name = true := by
  rw [contains, h]
  rfl

theorem contains_insert {m : NameMap β} {name other : String} {v : β} :
    (m.insert name v).contains other = true ↔ other = name ∨ m.contains other = true := by
  rw [contains, get?_insert]
  split_ifs with h <;> simp [h, contains]

theorem mem_values {m : NameMap β} {v : β} : v ∈ m.values ↔ ∃ name, m.get? name = some v := by
  simp [values, get?_eq_some_iff]

theorem length_values (m : NameMap β) : m.values.length = m.size := List.length_map ..

theorem eq_or_get?_of_insert {m : NameMap β} {name other : String} {v w : β}
    (h : (m.insert name v).get? other = some w) :
    other = name ∧ v = w ∨ m.get? other = some w := by
  rw [get?_insert] at h
  split_ifs at h with hname
  · exact .inl ⟨hname, Option.some.inj h⟩
  · exact .inr h

/-- A write under a new name leaves the other entries. -/
theorem get?_insert_of_new {m : NameMap β} {name other : String} {v w : β}
    (hnew : ¬ m.contains name = true) (hv : m.get? other = some v) :
    (m.insert name w).get? other = some v := by
  rw [get?_insert, if_neg, hv]
  rintro rfl
  exact hnew (contains_of_get? hv)

theorem perm_insertEntry {name : String} {v : β} {l : List (String × β)}
    (h : lookup name l = none) : (insertEntry name v l).Perm ((name, v) :: l) := by
  induction l with
  | nil => exact .refl _
  | cons e rest ih =>
    obtain ⟨k, w⟩ := e
    rw [lookup_eq_none_iff, List.map_cons, List.mem_cons, not_or, ← lookup_eq_none_iff] at h
    unfold insertEntry
    split_ifs with hlt heq
    · exact .refl _
    · exact absurd heq h.1
    · exact ((ih h.2).cons (k, w)).trans (.swap ..)

theorem values_insert_perm {m : NameMap β} {name : String} {v : β}
    (h : ¬ m.contains name = true) : (m.insert name v).values.Perm (v :: m.values) :=
  (perm_insertEntry (Option.not_isSome_iff_eq_none.1 h)).map Prod.snd

theorem size_insert {m : NameMap β} {name : String} {v : β} (h : ¬ m.contains name = true) :
    (m.insert name v).size = m.size + 1 :=
  (perm_insertEntry (Option.not_isSome_iff_eq_none.1 h)).length_eq

theorem get?_foldl_insert {l : List (String × β)} (hl : l.Pairwise fun a b => a.1 ≠ b.1)
    (m : NameMap β) (name : String) :
    (l.foldl (fun m e => m.insert e.1 e.2) m).get? name = (lookup name l).or (m.get? name) := by
  induction l generalizing m with
  | nil => rfl
  | cons e rest ih =>
    obtain ⟨hk, hrest⟩ := List.pairwise_cons.1 hl
    rw [List.foldl_cons, ih hrest, get?_insert, lookup]
    by_cases h : name = e.1
    · -- the name stands in no later entry, so nothing overwrites this one
      have hnone : lookup name rest = none := by
        rw [lookup_eq_none_iff]
        intro hmem
        obtain ⟨e', he', heq⟩ := List.mem_map.1 hmem
        exact hk e' he' (h ▸ heq.symm)
      rw [if_pos h, if_pos h, hnone]
      rfl
    · rw [if_neg h, if_neg h]

theorem get?_overlay (m top : NameMap β) (name : String) :
    (m.overlay top).get? name = (top.get? name).or (m.get? name) :=
  get?_foldl_insert top.pairwise_ne m name

theorem contains_overlay (m top : NameMap β) (name : String) :
    (m.overlay top).contains name = (top.contains name || m.contains name) := by
  rw [contains, get?_overlay, Option.isSome_or]
  rfl

theorem overlay_insert (m top : NameMap β) (name : String) (v : β) :
    m.overlay (top.insert name v) = (m.overlay top).insert name v := by
  apply ext_get?
  intro other
  rw [get?_overlay, get?_insert, get?_insert, get?_overlay]
  split_ifs <;> rfl

theorem get?_overlay_eq_some_iff {m m' : NameMap β}
    (h : ∀ name, m.contains name = true → ¬ m'.contains name = true) {name : String} {v : β} :
    (m.overlay m').get? name = some v ↔ m.get? name = some v ∨ m'.get? name = some v := by
  rw [get?_overlay]
  cases hm' : m'.get? name with
  | none => simp
  | some w =>
    have hm : m.get? name = none := by
      rw [← Option.not_isSome_iff_eq_none]
      exact fun hsome => h name hsome (contains_of_get? hm')
    simp [hm]

/-- Entries under different names can be written in either order. -/
theorem overlay_comm {m m' : NameMap β}
    (h : ∀ name, m.contains name = true → ¬ m'.contains name = true) :
    m.overlay m' = m'.overlay m := by
  apply ext_get?
  intro name
  have hcomm (v : β) : (m.overlay m').get? name = some v ↔ (m'.overlay m).get? name = some v := by
    rw [get?_overlay_eq_some_iff h, get?_overlay_eq_some_iff fun name h' hm => h name hm h',
      or_comm]
  exact Option.ext hcomm

/-- Writing the same entries once more changes nothing. -/
theorem overlay_overlay_self (m top : NameMap β) : (m.overlay top).overlay top = m.overlay top := by
  apply ext_get?
  intro name
  rw [get?_overlay, get?_overlay, ← Option.or_assoc, Option.or_self]

theorem get?_ofList {l : List (String × β)} (hl : l.Pairwise fun a b => a.1 ≠ b.1)
    (name : String) : (ofList l).get? name = lookup name l := by
  rw [ofList, get?_foldl_insert hl, get?_empty, Option.or_none]

theorem nodup_keys (m : NameMap β) : m.keys.Nodup :=
  List.pairwise_map.2 m.pairwise_ne

/-- The entries of a map make the same map in any order. -/
theorem ofList_of_perm {l : List (String × β)} {m : NameMap β} (h : l.Perm m.entries) :
    ofList l = m := by
  have hl : l.Pairwise fun a b => a.1 ≠ b.1 := by
    rw [← List.pairwise_map]
    exact (h.map Prod.fst).nodup_iff.2 m.nodup_keys
  apply ext_get?
  intro name
  rw [get?_ofList hl]
  refine Option.ext fun v => ⟨fun hv => ?_, fun hv => ?_⟩
  · exact get?_eq_some_iff.2 (h.mem_iff.1 (mem_of_lookup hv))
  · exact lookup_of_mem hl (h.mem_iff.2 (get?_eq_some_iff.1 hv))

end FuzzyRules.NameMap
