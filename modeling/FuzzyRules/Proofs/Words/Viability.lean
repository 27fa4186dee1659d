import FuzzyRules.Proofs.Token.Looks
import FuzzyRules.Proofs.Words.Simulation

/-!
# Beginnings of texts

As long as the stream of a text has not failed, what it has read is the beginning of a text that
splits into pieces: the piece under way can be completed, and in front of it there are pieces.
-/

namespace FuzzyRules

/-- The built-in words leave the end of the text where it is. -/
theorem settles_wordTable : wordTable.Settles none := by
  have hkeeps : ∀ i : Fin 7, (wordTable.transition? none i).all (fun tr =>
      !tr.consumes) = true := by decide
  exact Table.settles_of_keeps hkeeps

namespace Reading

/-- Wherever the piece under way goes on to a split, the text goes on to one behind `before`. -/
def Follows (r : Reading) (before : List Char) : Prop :=
  ∀ rest ps, Splits (r.chars ++ rest) ps → ∃ qs, Splits (before ++ rest) qs

variable {r next : Reading} {before : List Char} {c : Char} {ps : List Piece}

theorem Follows.of_take (h : r.Follows before) (hvalid : r.Valid)
    (htake : r.take c = some (ps, next)) : next.Follows (before ++ [c]) := by
  intro rest qs hrest
  obtain ⟨qs', hsplits⟩ := h (c :: rest) _ (splits_of_take hvalid htake hrest)
  exact ⟨qs', by rwa [List.append_assoc]⟩

/-- Every piece under way can be completed. -/
theorem exists_scan (r : Reading) : ∃ more ps, r.scan more = some ps := by
  have hopen (units : List TextUnit) : (text units).scan ['"'] = some [.text units] := by
    simp [scan, take, close, CharKind.of_quote]
  cases r with
  | between => exact ⟨[], _, rfl⟩
  | word letters => exact ⟨[], _, rfl⟩
  | text units => exact ⟨['"'], _, hopen units⟩
  | escape units =>
    have htake : (escape units).take '"' = some ([], text (units ++ [.escaped '"'])) := by
      simp [take, CharKind.of_quote]
    exact ⟨['"', '"'], _, (scan_cons_silent htake ['"']).trans (hopen _)⟩
  | number n =>
    have htake : (number n).take '0' = some ([], number (n.push '0')) := by
      simp [take, CharKind.of_eq_digit_iff.2 (show '0'.isDigit = true from rfl)]
    have hdigits : (n.push '0').digits ≠ [] := by simp [NumberText.digits_push]
    exact ⟨['0'], [.number (n.push '0')],
      (scan_cons_silent htake []).trans (by simp [scan, close, hdigits])⟩

theorem patience_le_one (r : Reading) : r.patience ≤ 1 := by
  cases r <;> simp [patience]

theorem Follows.exists_splits (h : r.Follows before) (hvalid : r.Valid) :
    ∃ more ps, Splits (before ++ more) ps := by
  obtain ⟨more, ps, hscan⟩ := r.exists_scan
  obtain ⟨qs, hqs⟩ := h more ps (splits_of_scan hvalid hscan)
  exact ⟨more, qs, hqs⟩

end Reading

namespace TokenStream

/-- How far a stream of the text has come. -/
inductive Underway (source : List Char) (s : TokenStream wordTable) : Prop
  | reads {before cs : List Char} {r : Reading} (holds : s.Holds r cs)
      (source_eq : source = before ++ cs) (follows : r.Follows before)
  /-- The quote behind a word is still there. -/
  | quoted {before cs : List Char} (holds : s.Holds .between ('"' :: cs))
      (source_eq : source = before ++ '"' :: cs)
      (follows : (Reading.text []).Follows (before ++ ['"']))
  | ending (holds : s.Holds .between [])
  | accepted (h : s.run.accepted = true)

theorem underway_ofText (source : String) : (ofText wordTable source).Underway source.toList :=
  .reads (holds_ofText source) (List.nil_append _).symm fun _ ps h => ⟨ps, h⟩

namespace Underway

variable {source : List Char} {s s' : TokenStream wordTable}

theorem of_advance_cons {before cs : List Char} {c : Char} {r : Reading}
    (holds : s.Holds r (c :: cs)) (source_eq : source = before ++ c :: cs)
    (follows : r.Follows before) {token? : Option Token}
    (hadvance : s.advance = (s', .ok token?)) : s'.Underway source := by
  have htaken : source = before ++ [c] ++ cs := by rw [source_eq, List.append_assoc]; rfl
  have hstep := holds.advances_take
  generalize htake : r.take c = taken at hstep
  cases hstep with
  | fault hfails => cases hfails.symm.trans hadvance
  | taken hadvance' hs' =>
    cases hadvance.symm.trans hadvance'
    exact .reads hs' htaken (follows.of_take holds.valid htake)
  | left hc hadvance' hs' =>
    subst hc
    cases hadvance.symm.trans hadvance'
    exact .quoted hs' source_eq (follows.of_take holds.valid htake)

theorem of_steps (h : s.Underway source) (hstep : s.Steps s') : s'.Underway source := by
  obtain ⟨hs, token?, hadvance⟩ := hstep
  cases h with
  | @reads before cs r holds source_eq follows =>
    cases cs with
    | cons c cs => exact of_advance_cons holds source_eq follows hadvance
    | nil =>
      have hstep := holds.ends_close
      generalize r.close = closed at hstep
      cases hstep with
      | fault hfails => cases hfails.symm.trans hadvance
      | finished hadvance' haccepted =>
        cases hadvance.symm.trans hadvance'
        exact .accepted haccepted
      | token hadvance' hs' =>
        cases hadvance.symm.trans hadvance'
        exact .ending hs'
  | @quoted before cs holds source_eq follows =>
    obtain ⟨s₁, hopens, hs₁⟩ := holds.exists_holds_text
    cases hadvance.symm.trans hopens
    exact .reads hs₁ (by rw [source_eq, List.append_assoc]; rfl) follows
  | ending holds =>
    obtain ⟨s₁, hfinishes, haccepted⟩ := holds.exists_accepted
    cases hadvance.symm.trans hfinishes
    exact .accepted haccepted
  | accepted h => exact absurd h (by simp [hs])

theorem of_reaches {source : String} (h : (ofText wordTable source).Reaches s) :
    s.Underway source.toList := by
  induction h with
  | refl => exact underway_ofText source
  | tail _ hstep ih => exact ih.of_steps hstep

theorem idle_le (h : s.Underway source) (hs : s.run.accepted = false) : s.run.idle ≤ 1 := by
  cases h with
  | reads holds => exact holds.idle.trans (Reading.patience_le_one _)
  | quoted holds => exact holds.idle
  | ending holds => exact holds.idle
  | accepted h => exact absurd h (by simp [hs])

/-- Where no transition is enabled, what has been read is the beginning of a text that splits. -/
theorem exists_splits (h : s.Underway source) (hs : s.run.accepted = false)
    (hdisabled : s.run.enabled? s.rest.head? = none) {before : List Char}
    (hsource : source = before ++ s.rest) : ∃ more ps, Splits (before ++ more) ps := by
  cases h with
  | @reads before' cs r holds source_eq follows =>
    rw [holds.rest, source_eq] at hsource
    obtain rfl := List.append_cancel_right hsource
    exact follows.exists_splits holds.valid
  | @quoted before' cs holds =>
    -- a quote opens a text there
    have henabled := holds.enabled?_cons
    rw [hdisabled, CharKind.of_quote] at henabled
    cases henabled
  | ending holds =>
    have henabled := holds.enabled?_nil
    rw [hdisabled] at henabled
    cases henabled
  | accepted h => exact absurd h (by simp [hs])

end Underway

end TokenStream

end FuzzyRules
