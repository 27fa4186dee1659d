import FuzzyRules.Proofs.Assembly.InPlace
import FuzzyRules.Proofs.Doubles
import FuzzyRules.Proofs.Universe.Sorting

/-!
# Universes that take in terms

A universe is filled by a sequence of calls, of which any can be refused. It stores the terms of the
calls that were not, in the stable sort of their order by center. A call is refused exactly if one
of these terms has its name, and then the universe stays as it is.
-/

namespace FuzzyRules.Universe

variable {u u' : Universe Float} {t : Term Float} {calls : List (Term Float)} {name : String}
  {fault : ModelFault Float}

/-- The answer to a call, and the universe it leaves behind. -/
def call (u : Universe Float) (t : Term Float) :
    Except (ModelFault Float) Unit × Universe Float :=
  (receive t).run.run u

def after (u : Universe Float) (calls : List (Term Float)) : Universe Float :=
  calls.foldl (fun u t => (u.call t).2) u

/-- The terms of the calls that succeed, in the order of the calls. -/
def accepted : Universe Float → List (Term Float) → List (Term Float)
  | _, [] => []
  | u, t :: rest =>
    match u.call t with
    | (.ok (), u') => t :: accepted u' rest
    | (.error _, u') => accepted u' rest

theorem call_cases (u : Universe Float) (t : Term Float) :
    (∃ u', u.add t = .ok u' ∧ u.call t = (.ok (), u')) ∨
      ∃ fault, u.add t = .error fault ∧ u.call t = (.error fault, u) := by
  have hcall : u.call t = _ := comesTo_receive u t
  cases hadd : u.add t with
  | ok u' => exact .inl ⟨u', rfl, by rw [hcall, hadd]⟩
  | error fault => exact .inr ⟨fault, rfl, by rw [hcall, hadd]⟩

theorem call_eq_error_iff : u.call t = (.error fault, u') ↔ (∃ s ∈ u.terms, s.name = t.name) ∧
    fault = .duplicate .termName t.name (.inUniverse u.name) ∧ u' = u := by
  have hcall : u.call t = _ := comesTo_receive u t
  rw [hcall, add, ← isSome_term?_iff]
  split_ifs with htaken <;> simp [htaken, eq_comm]

theorem foldlM_accepted (u : Universe Float) (calls : List (Term Float)) :
    (u.accepted calls).foldlM add u = .ok (u.after calls) := by
  induction calls generalizing u with
  | nil => rfl
  | cons t rest ih =>
    rcases u.call_cases t with ⟨u', hadd, hcall⟩ | ⟨fault, -, hcall⟩
    · rw [accepted, after, List.foldl_cons, hcall]
      exact Traversal.foldlM_cons_eq_ok_iff.2 ⟨u', hadd, ih u'⟩
    · rw [accepted, after, List.foldl_cons, hcall]
      exact ih u

theorem sublist_accepted (u : Universe Float) (calls : List (Term Float)) :
    List.Sublist (u.accepted calls) calls := by
  induction calls generalizing u with
  | nil => exact .slnil
  | cons t rest ih =>
    rcases u.call_cases t with ⟨u', -, hcall⟩ | ⟨fault, -, hcall⟩
    · rw [accepted, hcall]
      exact (ih u').cons_cons t
    · rw [accepted, hcall]
      exact (ih u).cons t

theorem nodup_accepted (name : String) (calls : List (Term Float)) :
    (((new name).accepted calls).map Term.name).Nodup :=
  (exists_foldlM_add_iff.1 ⟨_, foldlM_accepted _ calls⟩).1

theorem after_new (name : String) (hcalls : ∀ t ∈ calls, t.center.isNaN = false) :
    (new name).after calls = ⟨name, none, sorted ((new name).accepted calls)⟩ := by
  have hsorted : ((new name).accepted calls).foldlM add (new name) =
      .ok ⟨name, none, sorted ((new name).accepted calls)⟩ :=
    foldlM_add_eq Double.comparable_isNaN_false
      (fun t ht => hcalls t ((sublist_accepted _ calls).subset ht)) (nodup_accepted name calls)
  exact Except.ok.inj ((foldlM_accepted (new name) calls).symm.trans hsorted)

/-- After any calls with numbers for centers, the stored terms are the accepted ones sorted by
center, a further call is refused exactly if one of them has its name, a look-up finds the one that
has the name, and the domain reaches from their smallest center to their largest one. -/
theorem after_exact (name : String) (hcalls : ∀ t ∈ calls, t.center.isNaN = false) :
    ((new name).after calls).terms =
      ((new name).accepted calls).mergeSort (fun s t => s.center ≤ t.center) ∧
    (∀ t fault u', ((new name).after calls).call t = (.error fault, u') ↔
      (∃ s ∈ (new name).accepted calls, s.name = t.name) ∧
        fault = .duplicate .termName t.name (.inUniverse name) ∧ u' = (new name).after calls) ∧
    (∀ other t, ((new name).after calls).term? other = some t ↔
      t ∈ (new name).accepted calls ∧ t.name = other) ∧
    (((new name).after calls).domain? = none ↔ (new name).accepted calls = []) ∧
    ∀ low high, ((new name).after calls).domain? = some (low, high) →
      (∃ t ∈ (new name).accepted calls, t.center = low) ∧
      (∃ t ∈ (new name).accepted calls, t.center = high) ∧
      ∀ t ∈ (new name).accepted calls, low ≤ t.center ∧ t.center ≤ high := by
  have hafter := after_new name hcalls
  have hterms : ((new name).after calls).terms = sorted ((new name).accepted calls) := by
    rw [hafter]
  have hname : ((new name).after calls).name = name := by rw [hafter]
  have hperm := perm_sorted ((new name).accepted calls)
  have hproper : ∀ t ∈ (new name).accepted calls, t.center.isNaN = false :=
    fun t ht => hcalls t ((sublist_accepted _ calls).subset ht)
  refine ⟨hterms, fun t fault u' => ?_, fun other t => ?_, ?_, fun low high hdomain => ?_⟩
  · rw [call_eq_error_iff, hterms, hname]
    simp only [mem_sorted]
  · have hdistinct : (((new name).after calls).terms.map Term.name).Nodup := by
      rw [hterms, (hperm.map Term.name).nodup_iff]
      exact nodup_accepted name calls
    rw [term?_eq_some_iff hdistinct, hterms, mem_sorted]
  · rw [domain?_eq_none, hterms]
    exact ⟨fun h => (h ▸ hperm).nil_eq.symm, fun h => by rw [h]; exact List.mergeSort_nil⟩
  · have hbounds := domain?_spec Double.comparable_isNaN_false
      (fun t ht => hproper t (mem_sorted.1 (hterms ▸ ht)))
      (hterms ▸ pairwise_sorted Double.comparable_isNaN_false hproper) hdomain
    simpa only [hterms, mem_sorted] using hbounds

/-- A name comes twice, and two terms share a center. -/
def heating : List (Term Float) :=
  [⟨"warm", 20, 1⟩, ⟨"cold", 5, 0⟩, ⟨"warm", 30, 2⟩, ⟨"mild", 20, 1⟩, ⟨"cool", 12.5, 0.5⟩]

theorem after_exact_heating :
    (∀ t ∈ heating, t.center.isNaN = false) ∧
    ((new "heat").after heating).terms =
      ((new "heat").accepted heating).mergeSort (fun s t => s.center ≤ t.center) ∧
    ((new "heat").after heating).call ⟨"cold", 7, 1⟩ =
      (.error (.duplicate .termName "cold" (.inUniverse "heat")), (new "heat").after heating) := by
  have hcalls : ∀ t ∈ heating, t.center.isNaN = false := by decide +kernel
  have hcold : ∃ s ∈ (new "heat").accepted heating, s.name = "cold" := by decide +kernel
  obtain ⟨hterms, hrefused, -⟩ := after_exact "heat" hcalls
  exact ⟨hcalls, hterms, (hrefused ⟨"cold", 7, 1⟩ _ _).2 ⟨hcold, rfl, rfl⟩⟩

end FuzzyRules.Universe
