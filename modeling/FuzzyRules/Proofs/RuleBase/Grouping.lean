import Mathlib.Data.List.Perm.Basic
import FuzzyRules.Proofs.NameMap.Overlay
import FuzzyRules.Proofs.Traversal
import FuzzyRules.RuleBase.Inference

/-!
# Groups of rules

Distances are grouped by the consequents of their rules. The members of all groups are the pairs
of a consequent and a distance that the rules give, in another order, so the votes of the groups
are the votes of the rules.
-/

namespace FuzzyRules.RuleBase

variable {α : Type}

/-- The members of all groups, each with the name of its group. -/
def members (groups : List (String × List α)) : List (String × α) :=
  groups.flatMap fun g => g.2.map fun d => (g.1, d)

theorem members_cons (g : String × List α) (rest : List (String × List α)) :
    members (g :: rest) = g.2.map (fun d => (g.1, d)) ++ members rest := rfl

theorem mem_members {groups : List (String × List α)} {p : String × α} :
    p ∈ members groups ↔ ∃ g ∈ groups, g.1 = p.1 ∧ p.2 ∈ g.2 := by
  obtain ⟨c, d⟩ := p
  simp only [members, List.mem_flatMap, List.mem_map, Prod.mk.injEq]
  constructor
  · rintro ⟨g, hg, d', hd, hc, rfl⟩
    exact ⟨g, hg, hc, hd⟩
  · rintro ⟨g, hg, hc, hd⟩
    exact ⟨g, hg, d, hd, hc, rfl⟩

theorem members_insertEntry {groups : List (String × List α)}
    (hordered : groups.Pairwise fun a b => a.1 < b.1) (consequent : String) (distance : α) :
    (members (NameMap.insertEntry consequent
      ((NameMap.lookup consequent groups).getD [] ++ [distance]) groups)).Perm
      ((consequent, distance) :: members groups) := by
  induction groups with
  | nil => exact .refl _
  | cons g rest ih =>
    obtain ⟨k, ds⟩ := g
    obtain ⟨hk, hrest⟩ := List.pairwise_cons.1 hordered
    unfold NameMap.insertEntry
    split_ifs with hlt heq
    · -- the name lies before all groups, so it had none
      have hnone : NameMap.lookup consequent ((k, ds) :: rest) = none := by
        rw [NameMap.lookup_eq_none_iff, List.map_cons, List.mem_cons, not_or]
        refine ⟨fun h => String.lt_irrefl _ (h ▸ hlt), ?_⟩
        intro hmem
        obtain ⟨e, he, rfl⟩ := List.mem_map.1 hmem
        exact String.lt_irrefl _ (String.lt_trans hlt (hk e he))
      rw [hnone]
      exact .refl _
    · subst heq
      rw [NameMap.lookup, if_pos rfl, Option.getD_some, members_cons, members_cons,
        List.map_append, List.append_assoc]
      exact List.perm_middle
    · rw [NameMap.lookup, if_neg heq, members_cons, members_cons]
      exact ((ih hrest).append_left _).trans List.perm_middle

theorem members_addToGroup (groups : NameMap (List α)) (consequent : String) (distance : α) :
    (members (addToGroup groups consequent distance).entries).Perm
      ((consequent, distance) :: members groups.entries) :=
  members_insertEntry groups.ordered consequent distance

theorem members_foldl_addToGroup (pairs : List (Rule × α)) (groups : NameMap (List α)) :
    (members (pairs.foldl (fun groups p => addToGroup groups p.1.consequent p.2)
      groups).entries).Perm
      (pairs.map (fun p => (p.1.consequent, p.2)) ++ members groups.entries) := by
  induction pairs generalizing groups with
  | nil => exact .refl _
  | cons p rest ih =>
    rw [List.foldl_cons, List.map_cons, List.cons_append]
    refine (ih _).trans ?_
    refine ((members_addToGroup groups p.1.consequent p.2).append_left _).trans ?_
    exact List.perm_middle

/-- No rule is lost, counted twice or given the distance of another rule. -/
theorem members_groupByConsequent (rules : List Rule) (distances : List α) :
    (members (groupByConsequent rules distances).entries).Perm
      ((rules.zip distances).map fun p => (p.1.consequent, p.2)) := by
  have h := members_foldl_addToGroup (rules.zip distances) .empty
  rwa [show members (NameMap.empty : NameMap (List α)).entries = [] from rfl,
    List.append_nil] at h

theorem ne_nil_of_mem_addToGroup {groups : NameMap (List α)}
    (h : ∀ g ∈ groups.entries, g.2 ≠ []) (consequent : String) (distance : α) :
    ∀ g ∈ (addToGroup groups consequent distance).entries, g.2 ≠ [] := by
  intro g hg
  rcases NameMap.mem_insertEntry hg with rfl | hg
  · simp
  · exact h g hg

theorem ne_nil_of_mem_groupByConsequent {rules : List Rule} {distances : List α}
    {g : String × List α} (hg : g ∈ (groupByConsequent rules distances).entries) : g.2 ≠ [] := by
  have hall (pairs : List (Rule × α)) (groups : NameMap (List α))
      (h : ∀ g ∈ groups.entries, g.2 ≠ []) :
      ∀ g ∈ (pairs.foldl (fun groups p => addToGroup groups p.1.consequent p.2) groups).entries,
        g.2 ≠ [] := by
    induction pairs generalizing groups with
    | nil => exact h
    | cons p rest ih => exact ih _ (ne_nil_of_mem_addToGroup h p.1.consequent p.2)
  exact hall (rules.zip distances) .empty (by simp [NameMap.empty]) g hg

/-- Given a distance for every rule, the groups are named by the consequents of the rules. -/
theorem exists_group_iff {rules : List Rule} {distances : List α}
    (hlength : rules.length = distances.length) {consequent : String} :
    (∃ g ∈ (groupByConsequent rules distances).entries, g.1 = consequent) ↔
      ∃ r ∈ rules, r.consequent = consequent := by
  have hperm := members_groupByConsequent rules distances
  constructor
  · rintro ⟨g, hg, rfl⟩
    obtain ⟨d, hd⟩ := List.exists_mem_of_ne_nil _ (ne_nil_of_mem_groupByConsequent hg)
    have hmem : (g.1, d) ∈ members (groupByConsequent rules distances).entries :=
      mem_members.2 ⟨g, hg, rfl, hd⟩
    obtain ⟨p, hp, heq⟩ := List.mem_map.1 (hperm.mem_iff.1 hmem)
    exact ⟨p.1, (List.of_mem_zip hp).1, congrArg Prod.fst heq⟩
  · rintro ⟨r, hr, rfl⟩
    have hfst : r ∈ (rules.zip distances).map Prod.fst := by
      rwa [List.map_fst_zip (Nat.le_of_eq hlength)]
    obtain ⟨p, hp, rfl⟩ := List.mem_map.1 hfst
    have hmem : (p.1.consequent, p.2) ∈ members (groupByConsequent rules distances).entries :=
      hperm.mem_iff.2 (List.mem_map_of_mem hp)
    obtain ⟨g, hg, hname, -⟩ := mem_members.1 hmem
    exact ⟨g, hg, hname⟩

theorem getD_get?_addToGroup (groups : NameMap (List α)) (consequent name : String)
    (distance : α) : ((addToGroup groups consequent distance).get? name).getD [] =
      (groups.get? name).getD [] ++ if consequent = name then [distance] else [] := by
  rw [addToGroup, NameMap.get?_insert]
  by_cases h : consequent = name
  · rw [if_pos h.symm, if_pos h, h]
    rfl
  · rw [if_neg (Ne.symm h), if_neg h, List.append_nil]

/-- A group holds what it has held before and then the distances of its rules, in their order. -/
theorem getD_get?_foldl_addToGroup (pairs : List (Rule × α)) (groups : NameMap (List α))
    (name : String) :
    ((pairs.foldl (fun groups p =>
        addToGroup groups p.1.consequent p.2) groups).get? name).getD [] =
      (groups.get? name).getD [] ++
        (pairs.filter fun p => p.1.consequent = name).map Prod.snd := by
  induction pairs generalizing groups with
  | nil => exact (List.append_nil _).symm
  | cons p rest ih =>
    rw [List.foldl_cons, ih, getD_get?_addToGroup, List.append_assoc]
    by_cases h : p.1.consequent = name <;> simp [h]

theorem get?_groupByConsequent {rules : List Rule} {distances : List α} {name : String}
    {group : List α} (h : (groupByConsequent rules distances).get? name = some group) :
    group = ((rules.zip distances).filter fun p => p.1.consequent = name).map Prod.snd := by
  have hgroup := getD_get?_foldl_addToGroup (rules.zip distances) .empty name
  rw [groupByConsequent] at h
  rw [h, NameMap.get?_empty] at hgroup
  exact hgroup

/-- The vote of a distance with the value of a consequent. -/
def voteOf (output : Universe α) (p : String × α) : Option (Vote α) :=
  (output.term? p.1).map fun t => ⟨t.value, p.2⟩

theorem resolve_eq_ok_iff {u : Universe α} {name : String} {scope : Scope} {t : Term α} :
    u.resolve name scope = .ok t ↔ u.term? name = some t := by
  unfold Universe.resolve
  cases u.term? name <;> simp

theorem flatten_votes {output : Universe α} {groups : List (String × List α)}
    {lists : List (List (Vote α))}
    (h : List.Forall₂ (fun g l => ∃ t, output.term? g.1 = some t ∧
      (g.2.map fun d => Vote.mk t.value d) = l) groups lists) :
    lists.flatten = (members groups).filterMap (voteOf output) := by
  induction h with
  | nil => rfl
  | @cons g l groups lists hg _ ih =>
    obtain ⟨t, ht, rfl⟩ := hg
    rw [members_cons, List.filterMap_append, List.flatten_cons, ih, List.filterMap_map]
    congr 1
    rw [← List.filterMap_eq_map]
    apply List.filterMap_congr
    intro d _
    simp [voteOf, ht]

theorem votes_eq_ok {rb : RuleBase} {output : Universe α} {groups : NameMap (List α)}
    {vs : List (Vote α)} (h : rb.votes output groups = .ok vs) :
    (∀ g ∈ groups.entries, ∃ t, output.term? g.1 = some t) ∧
      vs = (members groups.entries).filterMap (voteOf output) := by
  obtain ⟨lists, hlists, rfl⟩ := Traversal.map_eq_ok_iff.1 h
  have hall := (Traversal.mapM_eq_ok_iff.1 hlists).imp fun g l hg =>
    let ⟨t, ht, hl⟩ := Traversal.map_eq_ok_iff.1 hg
    (⟨t, resolve_eq_ok_iff.1 ht, hl⟩ : ∃ t, output.term? g.1 = some t ∧
      (g.2.map fun d => Vote.mk t.value d) = l)
  refine ⟨?_, flatten_votes hall⟩
  intro g hg
  obtain ⟨l, -, t, ht, -⟩ := Traversal.exists_of_mem_left hall hg
  exact ⟨t, ht⟩

/-- Rules that all have a distance have votes. -/
theorem votes_ne_nil {rb : RuleBase} {output : Universe α} {rules : List Rule}
    {distances : List α} {vs : List (Vote α)} (hne : rules ≠ [])
    (hlength : rules.length = distances.length)
    (h : rb.votes output (groupByConsequent rules distances) = .ok vs) : vs ≠ [] := by
  obtain ⟨hgroups, rfl⟩ := votes_eq_ok h
  obtain ⟨r, hr⟩ := List.exists_mem_of_ne_nil _ hne
  obtain ⟨g, hg, hname⟩ := (exists_group_iff hlength).2 ⟨r, hr, rfl⟩
  obtain ⟨d, hd⟩ := List.exists_mem_of_ne_nil _ (ne_nil_of_mem_groupByConsequent hg)
  obtain ⟨t, ht⟩ := hgroups g hg
  have hmem : (g.1, d) ∈ members (groupByConsequent rules distances).entries :=
    mem_members.2 ⟨g, hg, rfl, hd⟩
  have hvote : Vote.mk t.value d ∈
      (members (groupByConsequent rules distances).entries).filterMap (voteOf output) :=
    List.mem_filterMap.2 ⟨(g.1, d), hmem, by simp [voteOf, ht]⟩
  exact List.ne_nil_of_mem hvote

theorem exists_votes {output : Universe α} {groups : NameMap (List α)} (rb : RuleBase)
    (h : ∀ g ∈ groups.entries, ∃ t, output.term? g.1 = some t) :
    ∃ vs, rb.votes output groups = .ok vs := by
  have hall : ∃ lists, groups.entries.mapM (fun g =>
      (output.resolve g.1 (.consequentOf rb.name)).map fun t =>
        g.2.map fun d => Vote.mk t.value d) = .ok lists := by
    apply Traversal.exists_mapM_ok
    intro g hg
    obtain ⟨t, ht⟩ := h g hg
    exact ⟨_, Traversal.map_eq_ok_iff.2 ⟨t, resolve_eq_ok_iff.2 ht, rfl⟩⟩
  obtain ⟨lists, hlists⟩ := hall
  exact ⟨_, Traversal.map_eq_ok_iff.2 ⟨lists, hlists, rfl⟩⟩

/-- Rules that all have a distance have votes exactly if all their consequents are terms. -/
theorem exists_votes_iff (rb : RuleBase) {output : Universe α} {rules : List Rule}
    {distances : List α} (hlength : rules.length = distances.length) :
    (∃ vs, rb.votes output (groupByConsequent rules distances) = .ok vs) ↔
      ∀ r ∈ rules, ∃ t, output.term? r.consequent = some t := by
  constructor
  · rintro ⟨vs, hvs⟩ r hr
    obtain ⟨g, hg, hname⟩ := (exists_group_iff hlength).2 ⟨r, hr, rfl⟩
    exact hname ▸ (votes_eq_ok hvs).1 g hg
  · intro hterm
    apply exists_votes
    intro g hg
    obtain ⟨r, hr, hname⟩ := (exists_group_iff hlength).1 ⟨g, hg, rfl⟩
    exact hname ▸ hterm r hr

end FuzzyRules.RuleBase
