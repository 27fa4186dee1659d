import Mathlib.Data.List.Nodup
import FuzzyRules.Proofs.Phrases.Parsing
import FuzzyRules.Proofs.Phrases.Syntax

/-!
# Accepted token lists

A list of tokens is accepted if every token allows a move whose actions are not refused and the list
ends between two blocks. From each state the accepted lists begin with the tokens of a phrase, and
what the actions make of the assembly on the way is what the phrase builds.
-/

namespace FuzzyRules

namespace TokenClass

variable {t : Token}

theorem admits_keyword_iff {word : String} :
    (keyword word).admits t = true ↔ t = .keyword word := by
  cases t with
  | keyword found => simpa [admits] using eq_comm
  | text content => simp [admits]
  | number value => simp [admits]
  | finish => simp [admits]

theorem admits_text_iff : text.admits t = true ↔ ∃ content, t = .text content := by
  cases t <;> simp [admits]

theorem admits_number_iff : number.admits t = true ↔ ∃ value, t = .number value := by
  cases t <;> simp [admits]

theorem admits_unique {a b : TokenClass} (ha : a.admits t = true) (hb : b.admits t = true) :
    a = b := by
  cases t <;> cases a <;> cases b <;> simp_all [admits]

end TokenClass

namespace PhraseState

variable {q : PhraseState} {s : Assembly} {ts : List Token} {e : Engine Float}

theorem moves_nodup (q : PhraseState) : (q.moves.map PhraseMove.tokenClass).Nodup := by
  cases q <;> decide

theorem admits_of_move? {t : Token} {m : PhraseMove} (h : q.move? t = some m) :
    m.tokenClass.admits t = true := by
  unfold move? at h
  exact List.find?_some (p := fun m : PhraseMove => m.tokenClass.admits t) h

theorem move?_eq_some_iff {t : Token} {m : PhraseMove} :
    q.move? t = some m ↔ m ∈ q.moves ∧ m.tokenClass.admits t = true := by
  constructor
  · intro h
    exact ⟨List.mem_of_find?_eq_some h, admits_of_move? h⟩
  · rintro ⟨hm, ht⟩
    have hsome : (q.move? t).isSome = true := List.find?_isSome.2 ⟨m, hm, ht⟩
    obtain ⟨m', hm'⟩ := Option.isSome_iff_exists.1 hsome
    have hclass := TokenClass.admits_unique (admits_of_move? hm') ht
    rw [hm', List.inj_on_of_nodup_map (moves_nodup q) (List.mem_of_find?_eq_some hm') hm hclass]

/-- The tokens are accepted from a state, and the engine is what they make of the assembly. -/
def Accepts (q : PhraseState) (s : Assembly) : List Token → Engine Float → Prop
  | [], e => q = start ∧ s.finish .finish = .ok e
  | t :: ts, e => ∃ m s', q.move? t = some m ∧
      Run.perform Assembly.operate t m.actions s = (s', .ok ()) ∧ m.next.Accepts s' ts e

theorem parse_eq_ok_iff {l : List (Token × Nat)} {ending : Except GrammarFault Nat} :
    q.parse s l ending = .ok e ↔
      (∃ line, ending = .ok line) ∧ q.Accepts s (l.map Prod.fst) e := by
  induction l generalizing q s with
  | nil =>
    cases ending with
    | error fault => simp [parse]
    | ok line => by_cases hq : q = start <;> simp [parse, Accepts, hq]
  | cons entry l ih =>
    obtain ⟨t, line⟩ := entry
    cases hmove : q.move? t with
    | none => simp [parse, Accepts, hmove]
    | some m =>
      rcases hperform : Run.perform Assembly.operate t m.actions s with ⟨s', fault | ⟨⟩⟩
      · simp [parse, Accepts, hmove, hperform]
      · simp [parse, Accepts, hmove, hperform, ih]

end PhraseState

/-- The tokens begin with one that the move allows, and are accepted behind it. -/
def PhraseMove.Leads (m : PhraseMove) (s : Assembly) (ts : List Token) (e : Engine Float) : Prop :=
  ∃ t rest s', ts = t :: rest ∧ m.tokenClass.admits t = true ∧
    Run.perform Assembly.operate t m.actions s = (s', .ok ()) ∧ m.next.Accepts s' rest e

namespace PhraseState

variable {q next : PhraseState} {s s' : Assembly} {ts : List Token} {e : Engine Float}
  {actions : List AssemblyAction}

theorem accepts_iff_leads : q.Accepts s ts e ↔
    (q = start ∧ ts = [] ∧ s.finish .finish = .ok e) ∨ ∃ m ∈ q.moves, m.Leads s ts e := by
  cases ts with
  | nil => simp [Accepts, PhraseMove.Leads]
  | cons t rest =>
    constructor
    · rintro ⟨m, s', hmove, hperform, haccepts⟩
      obtain ⟨hm, ht⟩ := move?_eq_some_iff.1 hmove
      exact .inr ⟨m, hm, t, rest, s', rfl, ht, hperform, haccepts⟩
    · rintro (⟨-, hts, -⟩ | ⟨m, hm, _, _, s', hts, ht, hperform, haccepts⟩)
      · cases hts
      · obtain ⟨rfl, rfl⟩ := List.cons.inj hts
        exact ⟨m, s', move?_eq_some_iff.2 ⟨hm, ht⟩, hperform, haccepts⟩

theorem accepts_of_ne_start (hq : q ≠ start) :
    q.Accepts s ts e ↔ ∃ m ∈ q.moves, m.Leads s ts e := by
  rw [accepts_iff_leads]
  simp [hq]

/-- A state that adds some moves to those of another. -/
theorem accepts_of_moves_append {q' : PhraseState} {ms : List PhraseMove} (hq : q ≠ start)
    (hq' : q' ≠ start) (hmoves : q.moves = ms ++ q'.moves) :
    q.Accepts s ts e ↔ (∃ m ∈ ms, m.Leads s ts e) ∨ q'.Accepts s ts e := by
  rw [accepts_of_ne_start hq, accepts_of_ne_start hq', hmoves]
  simp only [List.mem_append, or_and_right, exists_or]

theorem accepts_of_single {m : PhraseMove} (hq : q.moves = [m]) :
    q.Accepts s ts e ↔ m.Leads s ts e := by
  have hne : q ≠ start := by
    rintro rfl
    cases hq
  rw [accepts_of_ne_start hne, hq]
  simp

theorem leads_text_iff : PhraseMove.Leads ⟨.text, actions, next⟩ s ts e ↔
    ∃ c rest s', ts = .text c :: rest ∧
      Run.perform Assembly.operate (.text c) actions s = (s', .ok ()) ∧
        next.Accepts s' rest e := by
  constructor
  · rintro ⟨t, rest, s', rfl, ht, h⟩
    obtain ⟨c, rfl⟩ := TokenClass.admits_text_iff.1 ht
    exact ⟨c, rest, s', rfl, h⟩
  · rintro ⟨c, rest, s', rfl, h⟩
    exact ⟨_, rest, s', rfl, TokenClass.admits_text_iff.2 ⟨c, rfl⟩, h⟩

theorem leads_number_iff : PhraseMove.Leads ⟨.number, actions, next⟩ s ts e ↔
    ∃ x rest s', ts = .number x :: rest ∧
      Run.perform Assembly.operate (.number x) actions s = (s', .ok ()) ∧
        next.Accepts s' rest e := by
  constructor
  · rintro ⟨t, rest, s', rfl, ht, h⟩
    obtain ⟨x, rfl⟩ := TokenClass.admits_number_iff.1 ht
    exact ⟨x, rest, s', rfl, h⟩
  · rintro ⟨x, rest, s', rfl, h⟩
    exact ⟨_, rest, s', rfl, TokenClass.admits_number_iff.2 ⟨x, rfl⟩, h⟩

theorem leads_keyword_iff {word : String} :
    PhraseMove.Leads ⟨.keyword word, actions, next⟩ s ts e ↔
      ∃ rest s', ts = .keyword word :: rest ∧
        Run.perform Assembly.operate (.keyword word) actions s = (s', .ok ()) ∧
          next.Accepts s' rest e := by
  constructor
  · rintro ⟨t, rest, s', rfl, ht, h⟩
    obtain rfl := TokenClass.admits_keyword_iff.1 ht
    exact ⟨rest, s', rfl, h⟩
  · rintro ⟨rest, s', rfl, h⟩
    exact ⟨_, rest, s', rfl, TokenClass.admits_keyword_iff.2 rfl, h⟩

/-- A move on a text whose actions are never refused. -/
theorem leads_text {f : String → Assembly}
    (hf : ∀ c, Run.perform Assembly.operate (.text c) actions s = (f c, .ok ())) :
    PhraseMove.Leads ⟨.text, actions, next⟩ s ts e ↔
      ∃ c rest, ts = .text c :: rest ∧ next.Accepts (f c) rest e := by
  simp [leads_text_iff, hf]

/-- A move on a number whose actions are never refused. -/
theorem leads_number {f : Float → Assembly}
    (hf : ∀ x, Run.perform Assembly.operate (.number x) actions s = (f x, .ok ())) :
    PhraseMove.Leads ⟨.number, actions, next⟩ s ts e ↔
      ∃ x rest, ts = .number x :: rest ∧ next.Accepts (f x) rest e := by
  simp [leads_number_iff, hf]

/-- A move on a keyword whose actions are not refused. -/
theorem leads_keyword {word : String}
    (hs : Run.perform Assembly.operate (.keyword word) actions s = (s', .ok ())) :
    PhraseMove.Leads ⟨.keyword word, actions, next⟩ s ts e ↔
      ∃ rest, ts = .keyword word :: rest ∧ next.Accepts s' rest e := by
  simp [leads_keyword_iff, hs]

end PhraseState

end FuzzyRules
