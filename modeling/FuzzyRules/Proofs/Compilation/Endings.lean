import Mathlib.Tactic.Linarith
import Mathlib.Tactic.Positivity
import Mathlib.Tactic.Set
import FuzzyRules.Compilation.Load
import FuzzyRules.Proofs.Phrases.Models
import FuzzyRules.Proofs.Token.Endings

/-!
# Compilations come to an end

A step of a compilation takes a token from the stream, or it waits with the token ahead, or it takes
the end of the text once more. Each of these can happen so many times only, unless a circle of one
of the two tables consumes the end of the text: then the compilation can go on forever.
-/

namespace FuzzyRules

namespace Compilation

variable {d : Dialect} {c c' : Compilation d} {t : Token}

/-- The number of tokens ahead, without the end of the text. -/
def ahead (c : Compilation d) : Nat :=
  match c.lookahead with
  | none | some .finish => 0
  | some _ => 1

/-- How often the phrase table can still consume: each token that the stream can still yield and the
one ahead, and then the end of the text in each state that is left for it. -/
noncomputable def reserve (c : Compilation d) : Nat :=
  c.stream.patience + c.ahead +
    if c.stream.run.accepted = true ∧ c.ahead = 0 then
      (d.phrases.consumers .finish c.run.state).card
    else d.phrases.size

noncomputable def patience (c : Compilation d) : Nat := c.run.patience c.reserve

/-- A compilation between two steps. The end of the text is ahead only behind the text. -/
structure Steady (c : Compilation d) : Prop where
  stream : c.stream.Steady
  idle : c.run.idle ≤ d.phrases.size
  finish (h : c.lookahead = some .finish) : c.stream.run.accepted = true

theorem steady_start (d : Dialect) (settings : EngineSettings) (source : String) :
    (start d settings source).Steady :=
  ⟨TokenStream.steady_ofText .., Nat.zero_le _, nofun⟩

/-- The compilation after a transition on a token. -/
def follow (c : Compilation d) (tr : Transition TokenClass AssemblyAction d.phrases.size)
    (t : Token) (assembly : Assembly) : Compilation d :=
  ⟨c.stream, c.run.moveTo (c.run.idleAfter tr) tr.next, assembly,
    if tr.consumes then none else some t⟩

theorem offer_cases (c : Compilation d) (t : Token) :
    (∃ outcome, c.offer t = .done outcome) ∨ ∃ tr j assembly,
      d.phrases.transition? t c.run.state = some tr ∧ tr.next = .state j ∧
        c.run.idleAfter tr ≤ d.phrases.size ∧ c.offer t = .running (c.follow tr t assembly) := by
  rcases c.run.step_cases Assembly.operate t c.stream.tokenLine c.assembly with ⟨fault, hresult⟩ |
    ⟨-, hstep⟩ | ⟨tr, assembly, haccepted, henabled, -, hidle, hstep⟩
  · rw [offer]
    simp only [hresult]
    exact .inl ⟨_, rfl⟩
  · rw [offer, hstep]
    exact .inl ⟨_, rfl⟩
  · rw [offer, hstep]
    cases hnext : tr.next with
    | accept => exact .inl ⟨_, rfl⟩
    | state j =>
      refine .inr ⟨tr, j, assembly, c.run.enabled?_eq_transition? t ▸ henabled, hnext, hidle, ?_⟩
      simp [follow, hnext, Run.moveTo, haccepted]

theorem steady_follow {tr : Transition TokenClass AssemblyAction d.phrases.size}
    (assembly : Assembly) (hstream : c.stream.Steady)
    (hidle : c.run.idleAfter tr ≤ d.phrases.size)
    (hfinish : t = .finish → c.stream.run.accepted = true) : (c.follow tr t assembly).Steady where
  stream := hstream
  idle := (c.run.idle_moveTo ..).trans_le hidle
  finish h := by
    simp only [follow] at h
    split_ifs at h
    exact hfinish (Option.some.inj h)

variable {tr : Transition TokenClass AssemblyAction d.phrases.size} {j : Fin d.phrases.size}
  {assembly : Assembly}

theorem ahead_le (c : Compilation d) : c.ahead ≤ 1 := by
  unfold ahead
  split <;> omega

theorem ahead_follow_of_consumes (h : tr.consumes = true) :
    (c.follow tr t assembly).ahead = 0 := by
  simp [ahead, follow, h]

theorem ahead_follow_finish : (c.follow tr .finish assembly).ahead = 0 := by
  cases h : tr.consumes <;> simp [ahead, follow, h]

theorem reserve_le (c : Compilation d) :
    c.reserve ≤ c.stream.patience + c.ahead + d.phrases.size := by
  unfold reserve
  split_ifs
  · exact Nat.add_le_add_left (d.phrases.card_consumers_le _) _
  · exact le_rfl

/-- Behind a token, this token is all that can be ahead. -/
theorem reserve_follow_le : (c.follow tr t assembly).reserve + (if tr.consumes then 1 else 0) ≤
    c.stream.patience + 1 + d.phrases.size := by
  have hreserve : (c.follow tr t assembly).reserve ≤
      c.stream.patience + (c.follow tr t assembly).ahead + d.phrases.size :=
    (c.follow tr t assembly).reserve_le
  split_ifs with hconsumes
  · rw [ahead_follow_of_consumes hconsumes] at hreserve
    omega
  · have := (c.follow tr t assembly).ahead_le
    omega

/-- Behind the text, the end of the text is all that is left. -/
theorem reserve_follow_finish (hphrases : d.phrases.Settles .finish)
    (haccepted : c.stream.run.accepted = true)
    (htr : d.phrases.transition? .finish c.run.state = some tr) (hnext : tr.next = .state j) :
    (c.follow tr .finish assembly).reserve + (if tr.consumes then 1 else 0) ≤
      (d.phrases.consumers .finish c.run.state).card := by
  have hpatience : c.stream.patience = 0 := by simp [TokenStream.patience, haccepted]
  have hstate : (c.follow tr .finish assembly).run.state = j := by
    simp [follow, hnext, Run.moveTo]
  have hreserve : (c.follow tr .finish assembly).reserve =
      (d.phrases.consumers .finish j).card := by
    rw [reserve, ahead_follow_finish, hstate, if_pos ⟨haccepted, rfl⟩]
    simpa [follow] using hpatience
  rw [hreserve]
  split_ifs with hconsumes
  · exact Finset.card_lt_card (Table.consumers_ssubset hphrases htr hconsumes hnext)
  · exact Finset.card_le_card (Table.consumers_subset ⟨tr, htr, hnext⟩)

/-- The token of a step, with what is left to be consumed before it. -/
theorem offer_spends {left : Nat} (hstream : c.stream.Steady) (hidle : c.run.idle ≤ d.phrases.size)
    (hfinish : t = .finish → c.stream.run.accepted = true)
    (hleft : ∀ tr j assembly, d.phrases.transition? t c.run.state = some tr →
      tr.next = .state j →
        (c.follow tr t assembly).reserve + (if tr.consumes then 1 else 0) ≤ left) :
    (∃ outcome, c.offer t = .done outcome) ∨
      ∃ c', c.offer t = .running c' ∧ c'.Steady ∧ c'.patience < c.run.patience left := by
  rcases c.offer_cases t with hdone | ⟨tr, j, assembly, htr, hnext, hafter, hoffer⟩
  · exact .inl hdone
  · have hless := (Run.patience_moveTo hafter (hleft tr j assembly htr hnext)).2 hidle
    exact .inr ⟨_, hoffer, steady_follow assembly hstream hafter hfinish, hless⟩

/-- A step comes to an outcome, or it spends patience. -/
theorem advance_cases (hwords : d.words.Settles none) (hphrases : d.phrases.Settles .finish)
    (hc : c.Steady) : (∃ outcome, c.advance = .done outcome) ∨
      ∃ c', c.advance = .running c' ∧ c'.Steady ∧ c'.patience < c.patience := by
  cases hlookahead : c.lookahead with
  | some t =>
    have hadvance : c.advance = c.offer t := by simp only [advance, hlookahead]
    rw [hadvance]
    by_cases ht : t = .finish
    · subst ht
      have haccepted := hc.finish hlookahead
      have hahead : c.ahead = 0 := by simp [ahead, hlookahead]
      refine offer_spends hc.stream hc.idle (fun _ => haccepted) ?_
      intro tr j assembly htr hnext
      refine (reserve_follow_finish hphrases haccepted htr hnext).trans ?_
      rw [reserve, if_pos ⟨haccepted, hahead⟩]
      exact Nat.le_add_left _ _
    · have hahead : c.ahead = 1 := by
        unfold ahead
        split <;> simp_all
      refine offer_spends hc.stream hc.idle (fun h => absurd h ht) ?_
      intro tr j assembly _ _
      refine reserve_follow_le.trans_eq ?_
      rw [reserve, hahead, if_neg (fun h => Nat.one_ne_zero h.2)]
  | none =>
    have hahead : c.ahead = 0 := by simp [ahead, hlookahead]
    obtain ⟨⟨stream, result⟩, hnext, hpulled⟩ :=
      TokenStream.exists_next_of_steady hwords hc.stream
    cases hpulled with
    | fault _ fault => exact .inl ⟨.error fault, by simp only [advance, hlookahead, hnext]⟩
    | finish _ steady accepted patience =>
      have hadvance : c.advance = offer { c with stream := stream } .finish := by
        simp only [advance, hlookahead, hnext]
      rw [hadvance]
      refine offer_spends steady hc.idle (fun _ => accepted) ?_
      intro tr j assembly htr hstate
      refine (reserve_follow_finish hphrases accepted htr hstate).trans ?_
      have hcard : (d.phrases.consumers .finish c.run.state).card ≤ d.phrases.size :=
        d.phrases.card_consumers_le c.run.state
      change (d.phrases.consumers .finish c.run.state).card ≤ c.reserve
      rw [reserve]
      split_ifs <;> omega
    | token _ t steady proper patience =>
      have hadvance : c.advance = offer { c with stream := stream } t := by
        simp only [advance, hlookahead, hnext]
      rw [hadvance]
      -- a stream that has accepted has no patience left to spend on a token
      have haccepted : ¬ c.stream.run.accepted = true := by
        intro h
        simp [TokenStream.patience, h] at patience
      refine offer_spends steady hc.idle (fun h => absurd h proper) ?_
      intro tr j assembly _ _
      refine reserve_follow_le.trans ?_
      change stream.patience + 1 + d.phrases.size ≤ c.reserve
      rw [reserve, hahead, if_neg (fun h => haccepted h.1)]
      omega

theorem exists_runFor (hwords : d.words.Settles none) (hphrases : d.phrases.Settles .finish)
    (hc : c.Steady) {fuel : Nat} (hfuel : c.patience < fuel) :
    ∃ outcome, c.runFor fuel = some outcome := by
  induction fuel generalizing c with
  | zero => cases hfuel
  | succ fuel ih =>
    rcases advance_cases hwords hphrases hc with ⟨outcome, hadvance⟩ |
      ⟨c', hadvance, hc', hless⟩
    · exact ⟨outcome, by rw [runFor, hadvance]⟩
    · obtain ⟨outcome, houtcome⟩ := ih hc' (by omega)
      exact ⟨outcome, by rw [runFor, hadvance]; exact houtcome⟩

theorem patience_lt_stepBound (c : Compilation d) : c.patience < c.stepBound := by
  have hreserve := c.reserve_le
  have hahead := c.ahead_le
  have hstream := c.stream.patience_add_two_le
  rw [TokenStream.stepBound] at hstream
  set n := c.stream.rest.length
  set w := d.words.size
  set p := d.phrases.size
  set chars := (n + (w + 1) * (w + 1)) * (w + 1) with hchars
  have hpos : 1 ≤ chars := Nat.mul_pos (by positivity) (Nat.succ_pos w)
  have hwords : (n + 2 * w + 1) * (w + 1) ≤ chars := by
    refine Nat.mul_le_mul_right _ ?_
    nlinarith
  have hleft : c.reserve + 1 ≤ chars * (p + 1) := by
    have : p ≤ chars * p := Nat.le_mul_of_pos_left p hpos
    rw [Nat.mul_add]
    omega
  calc c.patience
      ≤ c.reserve * (p + 1) + (p + 1) := Nat.add_le_add_left (Nat.sub_le ..) _
    _ = (c.reserve + 1) * (p + 1) := by ring
    _ ≤ chars * (p + 1) * (p + 1) := Nat.mul_le_mul_right _ hleft
    _ < 64 * (chars * (p + 1) * (p + 1)) := by
      have : 0 < chars * (p + 1) * (p + 1) := by positivity
      omega
    _ = c.stepBound := by
      rw [stepBound, hchars]
      ring

end Compilation

/-- If no circle of the two tables consumes the end of the text, every pull of a text has an
outcome, also after a fault, and every text compiles or fails. -/
theorem Dialect.comes_to_an_end {d : Dialect} (hwords : d.words.Settles none)
    (hphrases : d.phrases.Settles .finish) (source : String) :
    (∀ n, ∃ results, (TokenStream.ofText d.words source).pulls n = some results) ∧
      ∀ settings, ∃ outcome, d.compile settings source = some outcome :=
  ⟨fun n => TokenStream.exists_pulls hwords n _, fun settings =>
    Compilation.exists_runFor hwords hphrases (Compilation.steady_start d settings source)
      (Compilation.patience_lt_stepBound _)⟩

/-- Words that consume the end of the text once before they accept it. -/
def drainingWords : Table CharClass LexAction where
  name := "words"
  size := 2
  start := 0
  rows := [⟨"drain", [⟨.empty, [], .state 1, true⟩]⟩, ⟨"over", [⟨.empty, [], .accept, false⟩]⟩]
  rows_length := rfl

theorem leads_drainingWords {i j : Fin 2} (h : drainingWords.Leads none i j) : i = 0 ∧ j = 1 := by
  obtain ⟨tr, htr, hnext⟩ := h
  obtain rfl | rfl : i = 0 ∨ i = 1 := by omega
  · cases htr
    cases hnext
    exact ⟨rfl, rfl⟩
  · cases htr
    cases hnext

theorem settles_drainingWords : drainingWords.Settles none := by
  intro i j tr htr _ hnext hback
  obtain ⟨rfl, rfl⟩ := leads_drainingWords ⟨tr, htr, hnext⟩
  rcases Relation.ReflTransGen.cases_head hback with h | ⟨k, h, -⟩
  · cases h
  · cases (leads_drainingWords h).1

/-- The built-in phrases leave the end of the text where it is. -/
theorem settles_phraseTable : phraseTable.Settles .finish := by
  have hkeeps : ∀ i : Fin 19, (phraseTable.transition? Token.finish i).all (fun tr =>
      !tr.consumes) = true := by decide
  exact Table.settles_of_keeps hkeeps

theorem Dialect.comes_to_an_end_draining :
    (drainingWords.Settles none ∧ phraseTable.Settles .finish) ∧
      (∀ n, ∃ results, (TokenStream.ofText drainingWords "").pulls n = some results) ∧
      ∀ settings, ∃ outcome,
        (Dialect.mk drainingWords phraseTable).compile settings "" = some outcome :=
  ⟨⟨settles_drainingWords, settles_phraseTable⟩,
    Dialect.comes_to_an_end (d := ⟨drainingWords, phraseTable⟩) settles_drainingWords
      settles_phraseTable ""⟩

/-- A description with a circle on the end of the text. It can stand for words and for phrases. -/
def circlingText : String :=
  "[grammar]\nname = \"g\"\nstart = \"s\"\n\n" ++
    "[states.s]\ntransitions = [\x7b class = \"empty\", next = \"s\" \x7d]\n"

def circling : Description := ⟨"g", "s", .ofList [("s", [⟨"empty", [], "s", true⟩])]⟩

theorem read_circlingText : Description.read circlingText = .ok circling := by decide +kernel

def circlingWords : Table CharClass LexAction :=
  ⟨"g", 1, 0, [⟨"s", [⟨.empty, [], .state 0, true⟩]⟩], rfl⟩

def circlingPhrases : Table TokenClass AssemblyAction :=
  ⟨"g", 1, 0, [⟨"s", [⟨.empty, [], .state 0, true⟩]⟩], rfl⟩

theorem resolve_circlingWords : circling.resolve = .ok circlingWords := rfl
theorem resolve_circlingPhrases : circling.resolve = .ok circlingPhrases := rfl

theorem Dialect.ofSources_of_resolve {words phrases : Option String} {w p : Description}
    {wordTable : Table CharClass LexAction} {phraseTable : Table TokenClass AssemblyAction}
    (hw : Dialect.describe builtinWords words = .ok w) (hwords : w.resolve = .ok wordTable)
    (hp : Dialect.describe builtinPhrases phrases = .ok p)
    (hphrases : p.resolve = .ok phraseTable) :
    Dialect.ofSources words phrases = .ok ⟨wordTable, phraseTable⟩ := by
  simp only [Dialect.ofSources, hw, hp, hwords, hphrases, bind, Except.bind, pure, Except.pure]

theorem ofSources_circlingWords :
    Dialect.ofSources (some circlingText) none = .ok ⟨circlingWords, phraseTable⟩ :=
  Dialect.ofSources_of_resolve read_circlingText resolve_circlingWords rfl resolve_builtinPhrases

theorem ofSources_circlingPhrases :
    Dialect.ofSources none (some circlingText) = .ok ⟨wordTable, circlingPhrases⟩ :=
  Dialect.ofSources_of_resolve rfl resolve_builtinWords read_circlingText resolve_circlingPhrases

theorem pull_circlingWords (fuel : Nat) :
    (TokenStream.ofText circlingWords "").pull fuel = none := by
  have hcircle : ∀ fuel, TokenStream.pull fuel
      ⟨[], Run.start circlingWords, ⟨"", none, 1⟩, 1, 1⟩ = none := by
    intro fuel
    induction fuel with
    | zero => rfl
    | succ fuel ih => exact ih
  cases fuel with
  | zero => rfl
  | succ fuel => exact hcircle fuel

theorem runFor_circlingPhrases (settings : EngineSettings) (fuel : Nat) :
    (Compilation.start ⟨wordTable, circlingPhrases⟩ settings "").runFor fuel = none := by
  have hcircle : ∀ fuel, Compilation.runFor (d := ⟨wordTable, circlingPhrases⟩) fuel
      ⟨⟨[], ⟨(5 : Fin 7), true, 1⟩, ⟨"", none, 1⟩, 1, 1⟩, Run.start circlingPhrases,
        Assembly.start settings, none⟩ = none := by
    intro fuel
    induction fuel with
    | zero => rfl
    | succ fuel ih => exact ih
  cases fuel with
  | zero => rfl
  | succ fuel => exact hcircle fuel

/-- A table that consumes the end of the text on a circle goes on forever, as words and as phrases:
with any number of steps, the pull and the compilation are not over. -/
theorem Dialect.circling_never_ends :
    (∃ d, Dialect.ofSources (some circlingText) none = .ok d ∧
      ∀ fuel, (TokenStream.ofText d.words "").pull fuel = none) ∧
    ∃ d, Dialect.ofSources none (some circlingText) = .ok d ∧
      ∀ settings fuel, (Compilation.start d settings "").runFor fuel = none :=
  ⟨⟨_, ofSources_circlingWords, pull_circlingWords⟩,
    ⟨_, ofSources_circlingPhrases, runFor_circlingPhrases⟩⟩

end FuzzyRules
