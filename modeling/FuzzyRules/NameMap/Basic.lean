/-!
# Maps from names

A `NameMap` holds its entries in ascending name order, with no name twice, so two maps with the
same entries are equal. `get?_insert` says what a write does; `overlay` writes the entries of a
second map over those of the first.
-/

namespace FuzzyRules

variable {β : Type}

namespace NameMap

def insertEntry (name : String) (value : β) : List (String × β) → List (String × β)
  | [] => [(name, value)]
  | (k, v) :: rest =>
    if name < k then (name, value) :: (k, v) :: rest
    else if name = k then (name, value) :: rest
    else (k, v) :: insertEntry name value rest

theorem mem_insertEntry {name : String} {value : β} {l : List (String × β)} {e : String × β}
    (h : e ∈ insertEntry name value l) : e = (name, value) ∨ e ∈ l := by
  induction l with
  | nil => simpa [insertEntry] using h
  | cons e' rest ih =>
    obtain ⟨k, v⟩ := e'
    unfold insertEntry at h
    split at h
    · simpa using h
    · split at h
      · rcases List.mem_cons.1 h with h | h
        · exact .inl h
        · exact .inr (List.mem_cons_of_mem _ h)
      · rcases List.mem_cons.1 h with h | h
        · exact .inr (h ▸ List.mem_cons_self)
        · exact (ih h).imp id (List.mem_cons_of_mem _)

theorem pairwise_insertEntry {name : String} {value : β} {l : List (String × β)}
    (h : l.Pairwise fun a b => a.1 < b.1) :
    (insertEntry name value l).Pairwise fun a b => a.1 < b.1 := by
  induction l with
  | nil => simp [insertEntry]
  | cons e rest ih =>
    obtain ⟨k, v⟩ := e
    obtain ⟨hk, hr⟩ := List.pairwise_cons.1 h
    unfold insertEntry
    split
    · refine List.pairwise_cons.2 ⟨fun b hb => ?_, h⟩
      rcases List.mem_cons.1 hb with rfl | hb
      · assumption
      · exact String.lt_trans (by assumption) (hk b hb)
    · split
      · subst name
        exact List.pairwise_cons.2 ⟨hk, hr⟩
      · refine List.pairwise_cons.2 ⟨fun b hb => ?_, ih hr⟩
        rcases mem_insertEntry hb with rfl | hb
        · exact Std.lt_of_le_of_ne (String.not_lt.1 (by assumption)) (Ne.symm (by assumption))
        · exact hk b hb

end NameMap

structure NameMap (β : Type) where
  entries : List (String × β)
  ordered : entries.Pairwise fun a b => a.1 < b.1
  deriving DecidableEq

namespace NameMap

def empty : NameMap β := ⟨[], .nil⟩

instance : EmptyCollection (NameMap β) := ⟨empty⟩

instance : Inhabited (NameMap β) := ⟨empty⟩

def lookup (name : String) : List (String × β) → Option β
  | [] => none
  | (k, v) :: rest => if name = k then some v else lookup name rest

def get? (m : NameMap β) (name : String) : Option β := lookup name m.entries

def contains (m : NameMap β) (name : String) : Bool := (m.get? name).isSome

def insert (m : NameMap β) (name : String) (value : β) : NameMap β :=
  ⟨insertEntry name value m.entries, pairwise_insertEntry m.ordered⟩

def keys (m : NameMap β) : List String := m.entries.map Prod.fst

def values (m : NameMap β) : List β := m.entries.map Prod.snd

def size (m : NameMap β) : Nat := m.entries.length

def isEmpty (m : NameMap β) : Bool := m.entries.isEmpty

/-- Later entries win. -/
def ofList (entries : List (String × β)) : NameMap β :=
  entries.foldl (fun m e => m.insert e.1 e.2) empty

/-- The entries of `top` win. -/
def overlay (m top : NameMap β) : NameMap β :=
  top.entries.foldl (fun m e => m.insert e.1 e.2) m

theorem lookup_insertEntry (name other : String) (value : β) (l : List (String × β)) :
    lookup other (insertEntry name value l) =
      if other = name then some value else lookup other l := by
  induction l with
  | nil => simp [insertEntry, lookup]
  | cons e rest ih =>
    obtain ⟨k, v⟩ := e
    unfold insertEntry
    split
    · simp [lookup]
    · split
      · subst name
        by_cases h : other = k <;> simp [lookup, h]
      · by_cases h : other = k
        · have : ¬ other = name := fun h' => by simp_all
          simp [lookup, h, h ▸ this]
        · simp [lookup, h, ih]

@[simp] theorem get?_empty (name : String) : (empty : NameMap β).get? name = none := rfl

theorem get?_insert (m : NameMap β) (name other : String) (value : β) :
    (m.insert name value).get? other = if other = name then some value else m.get? other :=
  lookup_insertEntry ..

@[simp] theorem get?_insert_self (m : NameMap β) (name : String) (value : β) :
    (m.insert name value).get? name = some value := by simp [get?_insert]

@[simp] theorem overlay_empty (m : NameMap β) : m.overlay empty = m := rfl

theorem pairwise_keys (m : NameMap β) : m.keys.Pairwise (· < ·) :=
  List.pairwise_map.2 m.ordered

theorem length_keys (m : NameMap β) : m.keys.length = m.size := List.length_map ..

end NameMap

end FuzzyRules
