import FuzzyRules.Proofs.Engine.Built
import Mathlib.Data.Set.List

/-!
# Terms sorted by center

Terms that are added one after the other end up in the stable sort of their order by center. Two
ascending lists are the same if they list the terms of each center in the same order, and a term
that is placed behind those of its own center leaves that order alone.
-/

namespace FuzzyRules.Universe

variable {α : Type} [Scalar α] {proper : α → Prop} {s t : Term α} {c : α}
  {terms terms' before after : List (Term α)} {name : String} {description : Option String}

/-- By center, and terms that share a center in the order of the list. -/
def sorted (terms : List (Term α)) : List (Term α) :=
  terms.mergeSort fun s t => s.center ≤ t.center

def standsAt (c : α) (t : Term α) : Bool := t.center ≤ c ∧ c ≤ t.center

theorem standsAt_iff : standsAt c t = true ↔ t.center ≤ c ∧ c ≤ t.center := decide_eq_true_iff

theorem perm_sorted (terms : List (Term α)) : (sorted terms).Perm terms :=
  List.mergeSort_perm _ _

theorem mem_sorted : t ∈ sorted terms ↔ t ∈ terms := (perm_sorted terms).mem_iff

theorem sorted_of_pairwise (h : terms.Pairwise fun s t => s.center ≤ t.center) :
    sorted terms = terms :=
  List.mergeSort_of_pairwise (by simpa using h)

section Proper

variable (hproper : Scalar.Comparable proper)

include hproper

theorem standsAt_center (ht : proper t.center) : standsAt t.center t = true :=
  standsAt_iff.2 ⟨hproper.refl ht, hproper.refl ht⟩

/-- Terms that can be compared are ascending in the end, and a part of them that was so before keeps
its order. -/
theorem sorted_spec (hterms : ∀ t ∈ terms, proper t.center) :
    (sorted terms).Pairwise (fun s t => s.center ≤ t.center) ∧
      ∀ {l}, l.Pairwise (fun s t => s.center ≤ t.center) → List.Sublist l terms →
        List.Sublist l (sorted terms) := by
  -- the order by center is total only among such terms, so the sort is moved to their type
  lift terms to List { t : Term α // proper t.center } using hterms
  have htrans (r s t : { t : Term α // proper t.center }) :
      decide (r.1.center ≤ s.1.center) = true → decide (s.1.center ≤ t.1.center) = true →
        decide (r.1.center ≤ t.1.center) = true := by
    simpa only [decide_eq_true_eq] using hproper.trans r.2 s.2 t.2
  have htotal (s t : { t : Term α // proper t.center }) :
      (decide (s.1.center ≤ t.1.center) || decide (t.1.center ≤ s.1.center)) = true := by
    simpa using hproper.total s.2 t.2
  have hsorted : sorted (terms.map Subtype.val) =
      (terms.mergeSort fun s t => s.1.center ≤ t.1.center).map Subtype.val :=
    (List.map_mergeSort (f := Subtype.val) fun _ _ _ _ => rfl).symm
  rw [hsorted]
  constructor
  · rw [List.pairwise_map]
    simpa using List.pairwise_mergeSort htrans htotal terms
  · intro l hl hsub
    obtain ⟨l, hsub', rfl⟩ := List.sublist_map_iff.1 hsub
    rw [List.pairwise_map] at hl
    exact (List.sublist_mergeSort htrans htotal (by simpa using hl) hsub').map _

theorem pairwise_sorted (hterms : ∀ t ∈ terms, proper t.center) :
    (sorted terms).Pairwise fun s t => s.center ≤ t.center :=
  (sorted_spec hproper hterms).1

/-- The terms at one center keep their order. -/
theorem filter_standsAt_sorted (hterms : ∀ t ∈ terms, proper t.center) (hc : proper c) :
    (sorted terms).filter (standsAt c) = terms.filter (standsAt c) := by
  have hlevel : (terms.filter (standsAt c)).Pairwise fun s t => s.center ≤ t.center := by
    refine List.pairwise_of_forall_mem_list fun s hs t ht => ?_
    obtain ⟨hs, hsc⟩ := List.mem_filter.1 hs
    obtain ⟨ht, htc⟩ := List.mem_filter.1 ht
    exact hproper.trans (hterms s hs) hc (hterms t ht) (standsAt_iff.1 hsc).1 (standsAt_iff.1 htc).2
  have hsub := (sorted_spec hproper hterms).2 hlevel List.filter_sublist
  have hsub := hsub.filter (standsAt c)
  rw [List.filter_filter] at hsub
  simp only [Bool.and_self] at hsub
  exact (hsub.eq_of_length ((perm_sorted terms).filter _).length_eq.symm).symm

/-- The order of the terms at each center decides an ascending list. -/
theorem eq_of_pairwise (hterms : ∀ t ∈ terms, proper t.center)
    (h : terms.Pairwise fun s t => s.center ≤ t.center)
    (h' : terms'.Pairwise fun s t => s.center ≤ t.center)
    (hperm : terms.Perm terms')
    (heq : ∀ c, proper c → terms.filter (standsAt c) = terms'.filter (standsAt c)) :
    terms = terms' := by
  induction terms generalizing terms' with
  | nil => exact hperm.nil_eq
  | cons a rest ih =>
    cases terms' with
    | nil => exact absurd hperm.eq_nil (List.cons_ne_nil _ _)
    | cons b rest' =>
      obtain ⟨hfirst, hrest⟩ := List.pairwise_cons.1 h
      obtain ⟨hfirst', hrest'⟩ := List.pairwise_cons.1 h'
      have hb : b ∈ a :: rest := hperm.mem_iff.2 List.mem_cons_self
      have ha : a ∈ b :: rest' := hperm.mem_iff.1 List.mem_cons_self
      have hab : a.center ≤ b.center := by
        rcases List.mem_cons.1 hb with rfl | hb
        · exact hproper.refl (hterms _ List.mem_cons_self)
        · exact hfirst b hb
      have hba : b.center ≤ a.center := by
        rcases List.mem_cons.1 ha with rfl | ha
        · exact hproper.refl (hterms _ List.mem_cons_self)
        · exact hfirst' a ha
      have hhead := heq a.center (hterms a List.mem_cons_self)
      rw [List.filter_cons_of_pos (standsAt_center hproper (hterms a List.mem_cons_self)),
        List.filter_cons_of_pos (standsAt_iff.2 ⟨hba, hab⟩)] at hhead
      obtain rfl := (List.cons.inj hhead).1
      congr 1
      refine ih (fun t ht => hterms t (List.mem_cons_of_mem a ht)) hrest hrest'
        (List.perm_cons a |>.1 hperm) fun c hc => ?_
      have hlevel := heq c hc
      rw [List.filter_cons, List.filter_cons] at hlevel
      split_ifs at hlevel
      · exact (List.cons.inj hlevel).2
      · exact hlevel

/-- A term is placed where the sort puts it that comes last. -/
theorem place_sorted (hterms : ∀ s ∈ terms, proper s.center) (ht : proper t.center) :
    place t (sorted terms) = sorted (terms ++ [t]) := by
  have hall : ∀ s ∈ terms ++ [t], proper s.center := by
    intro s hs
    rcases List.mem_append.1 hs with hs | hs
    · exact hterms s hs
    · rwa [List.mem_singleton.1 hs]
  have hsorted : ∀ s ∈ sorted terms, proper s.center := fun s hs => hterms s (mem_sorted.1 hs)
  have hpairwise := pairwise_sorted hproper hterms
  have hperm : (place t (sorted terms)).Perm (terms ++ [t]) :=
    calc (place t (sorted terms)).Perm (t :: sorted terms) := perm_place t _
      List.Perm _ (t :: terms) := (perm_sorted terms).cons t
      List.Perm _ (terms ++ [t]) := (List.perm_append_singleton t terms).symm
  refine eq_of_pairwise hproper (fun s hs => hall s (hperm.mem_iff.1 hs))
    (pairwise_place hproper ht hsorted hpairwise) (pairwise_sorted hproper hall)
    (hperm.trans (perm_sorted _).symm) fun c hc => ?_
  rw [filter_standsAt_sorted hproper hall hc, List.filter_append,
    ← filter_standsAt_sorted hproper hterms hc]
  obtain ⟨before, after, happend, hplace, -, hafter⟩ :=
    exists_place hproper ht hsorted hpairwise
  rw [hplace, happend, List.filter_append, List.filter_append, List.append_assoc]
  congr 1
  by_cases htc : standsAt c t = true
  · -- what stands at the same center does not come after the new term
    have hnone : after.filter (standsAt c) = [] := by
      refine List.filter_eq_nil_iff.2 fun s hs hsc => hafter s hs ?_
      have hs : proper s.center := hsorted s (happend ▸ List.mem_append_right before hs)
      exact hproper.trans hs hc ht (standsAt_iff.1 hsc).1 (standsAt_iff.1 htc).2
    rw [List.filter_cons_of_pos htc, hnone, List.filter_cons_of_pos htc]
    rfl
  · rw [List.filter_cons_of_neg htc, List.filter_cons_of_neg htc, List.filter_nil,
      List.append_nil]

theorem foldlM_add_sorted (hterms : ∀ t ∈ before ++ after, proper t.center)
    (hdistinct : ((before ++ after).map Term.name).Nodup) :
    after.foldlM add ⟨name, description, sorted before⟩ =
      .ok ⟨name, description, sorted (before ++ after)⟩ := by
  induction after generalizing before with
  | nil =>
    rw [List.append_nil]
    rfl
  | cons t after ih =>
    rw [List.append_cons] at hterms hdistinct ⊢
    have hbefore : ∀ s ∈ before ++ [t], proper s.center :=
      fun s hs => hterms s (List.mem_append_left after hs)
    have hnew : ¬ ((⟨name, description, sorted before⟩ : Universe α).term? t.name).isSome =
        true := by
      rw [isSome_term?_iff]
      rintro ⟨s, hs, hname⟩
      rw [List.map_append, List.map_append, List.nodup_append, List.nodup_append] at hdistinct
      exact hdistinct.1.2.2 s.name (List.mem_map_of_mem (mem_sorted.1 hs)) t.name (by simp) hname
    have hadd : (⟨name, description, sorted before⟩ : Universe α).add t =
        .ok ⟨name, description, sorted (before ++ [t])⟩ := by
      rw [add, if_neg hnew, ← place_sorted hproper (fun s hs => hbefore s (by simp [hs]))
        (hbefore t (by simp))]
    exact Traversal.foldlM_cons_eq_ok_iff.2 ⟨_, hadd, ih hterms hdistinct⟩

end Proper

/-- Terms with distinct names are stored in the stable sort of their order. -/
theorem foldlM_add_eq (hproper : Scalar.Comparable proper) (hterms : ∀ t ∈ terms, proper t.center)
    (hdistinct : (terms.map Term.name).Nodup) :
    terms.foldlM add ⟨name, description, []⟩ = .ok ⟨name, description, sorted terms⟩ := by
  have hempty : sorted ([] : List (Term α)) = [] := List.mergeSort_nil
  have hadded : terms.foldlM add ⟨name, description, sorted []⟩ =
      .ok ⟨name, description, sorted ([] ++ terms)⟩ :=
    foldlM_add_sorted hproper hterms hdistinct
  rwa [hempty] at hadded

theorem Built.foldlM_add {u u' : Universe α} (hu : u.Built) (h : terms.foldlM add u = .ok u') :
    u'.Built := by
  induction terms generalizing u with
  | nil =>
    cases h
    exact hu
  | cons t rest ih =>
    obtain ⟨u₁, hadd, hrest⟩ := Traversal.foldlM_cons_eq_ok_iff.1 h
    exact ih (hu.added hadd) hrest

theorem Built.of_pairwise (hproper : Scalar.Comparable proper)
    (hterms : ∀ t ∈ terms, proper t.center) (hdistinct : (terms.map Term.name).Nodup)
    (hpairwise : terms.Pairwise fun s t => s.center ≤ t.center) :
    (⟨name, none, terms⟩ : Universe α).Built := by
  have hadded : terms.foldlM add (Universe.new name) = .ok ⟨name, none, sorted terms⟩ :=
    foldlM_add_eq hproper hterms hdistinct
  rw [sorted_of_pairwise hpairwise] at hadded
  exact (Built.new name).foldlM_add hadded

end FuzzyRules.Universe
