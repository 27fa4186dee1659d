import FuzzyRules.Proofs.Automaton.Circles
import FuzzyRules.Token.Stream

/-!
# Stalled runs

A run that is offered one item again and again waits in one state after another, until a state
consumes the item, accepts it or has no transition for it. If such a state is reached at all, it is
reached before the run has waited as often as the table has states. So a run is stalled exactly if
it would wait forever.
-/

namespace FuzzyRules

namespace Table

variable {κ A ι : Type} [ItemClass κ ι] {t : Table κ A} {item : ι} {i j : Fin t.size}

/-- The state consumes the item, accepts it or has no transition for it. -/
def Stops (t : Table κ A) (item : ι) (i : Fin t.size) : Prop :=
  ∀ tr, t.transition? item i = some tr → tr.consumes = true ∨ tr.next = .accept

/-- Where the item leads from the state if it is left where it is. -/
def wait? (t : Table κ A) (item : ι) (i : Fin t.size) : Option (Fin t.size) :=
  match t.transition? item i with
  | some ⟨_, _, .state j, false⟩ => some j
  | _ => none

/-- The state after so many transitions that leave the item where it is. -/
def chain (t : Table κ A) (item : ι) (i : Fin t.size) : Nat → Option (Fin t.size)
  | 0 => some i
  | k + 1 => (t.chain item i k).bind (t.wait? item)

theorem exists_of_wait? (h : t.wait? item i = some j) :
    ∃ tr, t.transition? item i = some tr ∧ tr.consumes = false ∧ tr.next = .state j := by
  unfold wait? at h
  split at h
  · cases h
    exact ⟨_, by assumption, rfl, rfl⟩
  · cases h

theorem stops_iff : t.Stops item i ↔ t.wait? item i = none := by
  rw [Stops, wait?]
  rcases t.transition? item i with _ | ⟨itemClass, actions, _ | _, _ | _⟩ <;> simp

theorem chain_succ (k : Nat) :
    t.chain item i (k + 1) = (t.wait? item i).bind (t.chain item · k) := by
  induction k with
  | zero => simp [chain]
  | succ k ih =>
    rw [chain, ih, Option.bind_assoc]
    rfl

theorem chain_add (k m : Nat) :
    t.chain item i (k + m) = (t.chain item i k).bind (t.chain item · m) := by
  induction m with
  | zero => simp [chain]
  | succ m ih =>
    rw [← Nat.add_assoc, chain, ih, Option.bind_assoc]
    rfl

theorem chain_of_stops (h : t.Stops item i) {k : Nat} (hk : 0 < k) : t.chain item i k = none := by
  obtain ⟨k, rfl⟩ := Nat.exists_eq_add_one.2 hk
  rw [chain_succ, stops_iff.1 h, Option.bind_none]

theorem stop_unique {k k' : Nat} {j' : Fin t.size} (h : t.chain item i k = some j)
    (hj : t.Stops item j) (h' : t.chain item i k' = some j') (hj' : t.Stops item j') :
    k = k' ∧ j = j' := by
  rcases lt_trichotomy k k' with hlt | rfl | hlt
  · rw [← Nat.add_sub_cancel' hlt.le, chain_add, h, Option.bind_some,
      chain_of_stops hj (Nat.sub_pos_of_lt hlt)] at h'
    cases h'
  · exact ⟨rfl, Option.some.inj (h.symm.trans h')⟩
  · rw [← Nat.add_sub_cancel' hlt.le, chain_add, h', Option.bind_some,
      chain_of_stops hj' (Nat.sub_pos_of_lt hlt)] at h
    cases h

theorem chain_eq_iterate (k : Nat) :
    t.chain item i k = (Option.bind · (t.wait? item))^[k] (some i) := by
  induction k with
  | zero => rfl
  | succ k ih => rw [chain, ih, Function.iterate_succ_apply']

theorem lt_size_of_stops {k : Nat} (h : t.chain item i k = some j) (hj : t.Stops item j) :
    k < t.size := by
  rw [chain_eq_iterate] at h
  exact (lt_card_of_end h (stops_iff.1 hj)).trans_eq (Fintype.card_fin _)

theorem forall_not_stops_iff :
    (∀ k j, t.chain item i k = some j → ¬ t.Stops item j) ↔
      ∀ k, (t.chain item i k).isSome = true := by
  constructor
  · intro h k
    induction k with
    | zero => rfl
    | succ k ih =>
      obtain ⟨j, hj⟩ := Option.isSome_iff_exists.1 ih
      have hwait := mt stops_iff.2 (h k j hj)
      rw [chain, hj, Option.bind_some]
      exact Option.isSome_iff_ne_none.2 hwait
  · intro h k j hj hstops
    have hnext := h (k + 1)
    rw [chain, hj, Option.bind_some, stops_iff.1 hstops] at hnext
    cases hnext

/-- What a step in the state comes to if no action is refused and the run is not stalled. -/
def verdict [HasExcerpt ι] {ε : Type} (t : Table κ A) (item : ι) (line : Nat) (i : Fin t.size) :
    Except (StepFault ε) Transit :=
  match t.transition? item i with
  | none => .error (.violation t.name (t.row i).name (HasExcerpt.excerpt item) line)
  | some tr => .ok ⟨tr.consumes, decide (tr.next = .accept)⟩

end Table

namespace Run

variable {κ A ι σ ε : Type} [ItemClass κ ι] [HasExcerpt ι] {t : Table κ A} {item : ι}
  {operate : Operator A ι σ ε}

/-- Offers the item again and again, until a step consumes it, accepts or fails. The steps are
counted. -/
def insist (operate : Operator A ι σ ε) (item : ι) (line : Nat) :
    Nat → Run t → σ → Option (Nat × Stepped t σ ε)
  | 0, _, _ => none
  | fuel + 1, r, s =>
    let after := r.step operate item line s
    match after.result with
    | .ok ⟨false, false⟩ =>
      (insist operate item line fuel after.run after.operator).map fun x => (x.1 + 1, x.2)
    | _ => some (1, after)

omit [ItemClass κ ι] [HasExcerpt ι] in
theorem exists_perform (hoperate : ∀ a item s, (operate a item s).2 = .ok ()) (item : ι)
    (actions : List A) (s : σ) : ∃ s', perform operate item actions s = (s', .ok ()) := by
  induction actions generalizing s with
  | nil => exact ⟨s, rfl⟩
  | cons a rest ih =>
    have ha := hoperate a item s
    rw [perform]
    rcases hstep : operate a item s with ⟨s', e | ⟨⟩⟩
    · rw [hstep] at ha
      cases ha
    · exact ih s'

variable {i j : Fin t.size} {idle : Nat}

theorem step_of_wait (hoperate : ∀ a item s, (operate a item s).2 = .ok ())
    (h : t.wait? item i = some j) (hidle : idle < t.size) (line : Nat) (s : σ) :
    ∃ s', (⟨i, false, idle⟩ : Run t).step operate item line s =
      ⟨⟨j, false, idle + 1⟩, s', .ok ⟨false, false⟩⟩ := by
  obtain ⟨tr, htr, hconsumes, hnext⟩ := Table.exists_of_wait? h
  obtain ⟨s', hs'⟩ := exists_perform hoperate item tr.actions s
  set r : Run t := ⟨i, false, idle⟩
  have hr : r.enabled? item = some tr := htr
  have hafter : r.idleAfter tr = idle + 1 := by simp [r, idleAfter, hconsumes]
  refine ⟨s', ?_⟩
  rw [step_of_performed line rfl hr hs' (hafter.trans_le hidle), hafter, hnext, hconsumes]
  rfl

theorem step_of_tired (hoperate : ∀ a item s, (operate a item s).2 = .ok ())
    (h : t.wait? item i = some j) (line : Nat) (s : σ) :
    ((⟨i, false, t.size⟩ : Run t).step operate item line s).result =
      .error (.stalled t.name (t.row i).name) := by
  obtain ⟨tr, htr, hconsumes, -⟩ := Table.exists_of_wait? h
  obtain ⟨s', hs'⟩ := exists_perform hoperate item tr.actions s
  set r : Run t := ⟨i, false, t.size⟩
  have hr : r.enabled? item = some tr := htr
  have hafter : r.idleAfter tr = t.size + 1 := by simp [r, idleAfter, hconsumes]
  rw [step_of_stalled line rfl hr hs' (hafter ▸ Nat.lt_succ_self _)]
  rfl

theorem result_of_step (hoperate : ∀ a item s, (operate a item s).2 = .ok ()) (item : ι)
    (i : Fin t.size) (hidle : idle < t.size) (line : Nat) (s : σ) :
    ((⟨i, false, idle⟩ : Run t).step operate item line s).result = t.verdict item line i := by
  set r : Run t := ⟨i, false, idle⟩
  cases htr : t.transition? item i with
  | none =>
    have hr : r.enabled? item = none := htr
    rw [step_of_disabled line s rfl hr]
    simp only [Table.verdict, htr]
    rfl
  | some tr =>
    have hr : r.enabled? item = some tr := htr
    obtain ⟨s', hs'⟩ := exists_perform hoperate item tr.actions s
    have hafter : r.idleAfter tr ≤ t.size := by
      rw [idleAfter]
      split
      · exact Nat.zero_le _
      · exact hidle
    rw [step_of_performed line rfl hr hs' hafter]
    simp only [Table.verdict, htr]
    cases tr.next <;> simp [moveTo, r]

theorem insist_of_over {r : Run t} {line : Nat} {s : σ}
    (h : (r.step operate item line s).result ≠ .ok ⟨false, false⟩) (fuel : Nat) :
    insist operate item line (fuel + 1) r s = some (1, r.step operate item line s) := by
  rw [insist]
  split
  · exact absurd (by assumption) h
  · rfl

theorem insist_of_waiting {r r' : Run t} {line : Nat} {s s' : σ}
    (h : r.step operate item line s = ⟨r', s', .ok ⟨false, false⟩⟩) (fuel : Nat) :
    insist operate item line (fuel + 1) r s =
      (insist operate item line fuel r' s').map fun x => (x.1 + 1, x.2) := by
  simp only [insist, h]

theorem verdict_ne_stalled {line : Nat} {grammar state : String} :
    (t.verdict item line i : Except (StepFault ε) Transit) ≠ .error (.stalled grammar state) := by
  unfold Table.verdict
  split <;> nofun

theorem verdict_ne_waiting (h : t.Stops item i) (line : Nat) :
    (t.verdict item line i : Except (StepFault ε) Transit) ≠ .ok ⟨false, false⟩ := by
  unfold Table.verdict
  cases htr : t.transition? item i with
  | none => nofun
  | some tr =>
    rcases h tr htr with hconsumes | hnext
    · simp [hconsumes]
    · simp [hnext]

/-- A chain that is not too long for the idle count is followed to its end. -/
theorem insist_of_chain (hoperate : ∀ a item s, (operate a item s).2 = .ok ()) {k fuel : Nat}
    (h : t.chain item i k = some j) (hj : t.Stops item j) (hidle : idle + k < t.size)
    (hfuel : k < fuel) (line : Nat) (s : σ) :
    ∃ last, insist operate item line fuel ⟨i, false, idle⟩ s = some (k + 1, last) ∧
      last.result = t.verdict item line j := by
  induction k generalizing i idle fuel s with
  | zero =>
    obtain ⟨fuel, rfl⟩ := Nat.exists_eq_add_one.2 hfuel
    cases h
    have hstep := result_of_step hoperate item j hidle line s
    exact ⟨_, insist_of_over (hstep ▸ verdict_ne_waiting hj line) fuel, hstep⟩
  | succ k ih =>
    obtain ⟨fuel, rfl⟩ := Nat.exists_eq_add_one.2 (Nat.zero_lt_of_lt hfuel)
    rw [Table.chain_succ] at h
    obtain ⟨i', hi', h⟩ := Option.bind_eq_some_iff.1 h
    have hlt : idle < t.size := by omega
    obtain ⟨s', hstep⟩ := step_of_wait hoperate hi' hlt line s
    have hidle' : idle + 1 + k < t.size := by omega
    obtain ⟨last, hlast, hresult⟩ := ih h hidle' (Nat.lt_of_succ_lt_succ hfuel) s'
    refine ⟨last, ?_, hresult⟩
    rw [insist_of_waiting hstep, hlast]
    rfl

/-- A chain without an end is followed until the idle count has passed all states. -/
theorem insist_of_endless (hoperate : ∀ a item s, (operate a item s).2 = .ok ()) {left : Nat}
    (h : ∀ k, (t.chain item i k).isSome = true) (hidle : idle + left = t.size) (line : Nat)
    (s : σ) : ∃ last state, insist operate item line (left + 1) ⟨i, false, idle⟩ s =
      some (left + 1, last) ∧ last.result = .error (.stalled t.name state) := by
  induction left generalizing i idle s with
  | zero =>
    obtain ⟨i', hi'⟩ := Option.isSome_iff_exists.1 (h 1)
    obtain rfl : idle = t.size := hidle
    have hstep := step_of_tired hoperate hi' line s
    exact ⟨_, _, insist_of_over (hstep ▸ nofun) 0, hstep⟩
  | succ left ih =>
    obtain ⟨i', hi'⟩ := Option.isSome_iff_exists.1 (h 1)
    have hlt : idle < t.size := by omega
    obtain ⟨s', hstep⟩ := step_of_wait hoperate hi' hlt line s
    have hidle' : idle + 1 + left = t.size := by omega
    have hrest (k : Nat) : (t.chain item i' k).isSome = true := by
      have hi'' : t.wait? item i = some i' := hi'
      have hk := h (k + 1)
      rwa [Table.chain_succ, hi'', Option.bind_some] at hk
    obtain ⟨last, state, hlast, hresult⟩ := ih hrest hidle' s'
    refine ⟨last, state, ?_, hresult⟩
    rw [insist_of_waiting hstep, hlast]
    rfl

/-- A run that has just consumed an item comes to an end with any other within one step more than
the table has states. It is stalled exactly if the item would lead it on forever. Otherwise it gets
to the state that stops the item, however far that is. -/
theorem insist_exact {operate : Operator A ι σ ε}
    (hoperate : ∀ a item s, (operate a item s).2 = .ok ()) (t : Table κ A) (i : Fin t.size)
    (item : ι) (line : Nat) (s : σ) :
    ((∀ k j, t.chain item i k = some j → ¬ t.Stops item j) ↔
      ∀ k, (t.chain item i k).isSome = true) ∧
    ∃ n last, insist operate item line (t.size + 1) ⟨i, false, 0⟩ s = some (n, last) ∧
      n ≤ t.size + 1 ∧
      ((∃ grammar state, last.result = .error (.stalled grammar state)) ↔
        ∀ k j, t.chain item i k = some j → ¬ t.Stops item j) ∧
      ∀ k j, t.chain item i k = some j → t.Stops item j →
        n = k + 1 ∧ last.result = t.verdict item line j := by
  refine ⟨Table.forall_not_stops_iff, ?_⟩
  by_cases hends : ∃ k j, t.chain item i k = some j ∧ t.Stops item j
  · obtain ⟨k, j, hk, hj⟩ := hends
    have hsize := Table.lt_size_of_stops hk hj
    have hidle : 0 + k < t.size := (Nat.zero_add k).trans_lt hsize
    obtain ⟨last, hlast, hresult⟩ :=
      insist_of_chain hoperate hk hj hidle (Nat.lt_succ_of_lt hsize) line s
    refine ⟨k + 1, last, hlast, Nat.succ_le_succ hsize.le, ?_, fun k' j' hk' hj' => ?_⟩
    · refine iff_of_false ?_ fun h => h k j hk hj
      rintro ⟨grammar, state, hstalled⟩
      exact verdict_ne_stalled (hresult.symm.trans hstalled)
    · obtain ⟨rfl, rfl⟩ := Table.stop_unique hk hj hk' hj'
      exact ⟨rfl, hresult⟩
  · have hnever : ∀ k j, t.chain item i k = some j → ¬ t.Stops item j :=
      fun k j hk hj => hends ⟨k, j, hk, hj⟩
    obtain ⟨last, state, hlast, hresult⟩ := insist_of_endless hoperate
      (Table.forall_not_stops_iff.1 hnever) (Nat.zero_add t.size) line s
    refine ⟨t.size + 1, last, hlast, le_rfl, ?_, fun k j hk hj => absurd hj (hnever k j hk)⟩
    exact iff_of_true ⟨_, _, hresult⟩ hnever

/-- A table in which a character passes all states before it is accepted, and the end of the text
goes in a circle. -/
def relay : Table CharClass LexAction where
  name := "relay"
  size := 3
  start := 0
  rows := [⟨"first", [⟨.any, [.push], .state 1, false⟩, ⟨.empty, [], .state 1, false⟩]⟩,
    ⟨"second", [⟨.any, [.push], .state 2, false⟩, ⟨.empty, [], .state 0, false⟩]⟩,
    ⟨"third", [⟨.any, [.text], .accept, false⟩]⟩]
  rows_length := rfl

def note : Operator LexAction (Option Char) (List LexAction) GrammarFault :=
  fun a _ noted => (noted ++ [a], .ok ())

theorem note_ok (a : LexAction) (item : Option Char) (noted : List LexAction) :
    (note a item noted).2 = .ok () := rfl

theorem chain_relay (k : Nat) : relay.chain none (0 : Fin 3) k = some (0 : Fin 3) ∨
    relay.chain none (0 : Fin 3) k = some (1 : Fin 3) := by
  induction k with
  | zero => exact .inl rfl
  | succ k ih =>
    rcases ih with h | h
    · exact .inr (congrArg (·.bind (relay.wait? none)) h)
    · exact .inl (congrArg (·.bind (relay.wait? none)) h)

/-- The longest chain that a table with three states can have is followed, and its circle is
reported. -/
theorem insist_exact_relay :
    (∀ a item s, (note a item s).2 = .ok ()) ∧
      (∃ last, insist note (some 'x') 1 4 (⟨(0 : Fin 3), false, 0⟩ : Run relay) [] =
        some (3, last) ∧ last.result = .ok ⟨false, true⟩) ∧
      ∃ n last, insist note none 1 4 (⟨(0 : Fin 3), false, 0⟩ : Run relay) [] = some (n, last) ∧
        ∃ grammar state, last.result = .error (.stalled grammar state) := by
  refine ⟨note_ok, ?_, ?_⟩
  · obtain ⟨-, n, last, hlast, -, -, hends⟩ :=
      insist_exact note_ok relay (0 : Fin 3) (some 'x') 1 []
    obtain ⟨rfl, hresult⟩ := hends 2 (2 : Fin 3) rfl (Table.stops_iff.2 rfl)
    exact ⟨last, hlast, hresult⟩
  · obtain ⟨-, n, last, hlast, -, hstalled, -⟩ := insist_exact note_ok relay (0 : Fin 3) none 1 []
    refine ⟨n, last, hlast, hstalled.2 fun k j hk hj => ?_⟩
    rw [Table.stops_iff] at hj
    rcases chain_relay k with h | h
    · cases h.symm.trans hk
      cases hj
    · cases h.symm.trans hk
      cases hj

end Run

end FuzzyRules
