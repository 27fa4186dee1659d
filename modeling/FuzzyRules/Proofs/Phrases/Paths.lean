import FuzzyRules.Proofs.Phrases.Sentences

/-!
# Sentences and their beginnings

A sentence is a sequence of blocks, whatever they build. A token leads from one state of the phrase
table to the next, or nowhere, and from each state some tokens lead back to the start. So the lists
of tokens that lead somewhere are the beginnings of sentences.
-/

namespace FuzzyRules

/-- A sequence of blocks, written as tokens. -/
def Sentence (ts : List Token) : Prop := ∃ blocks : List Block, ts = blocks.flatMap Block.tokens

namespace PhraseState

variable {q : PhraseState} {t : Token} {ts : List Token}

def path (q : PhraseState) (ts : List Token) : Option PhraseState :=
  ts.foldlM (fun q t => (q.move? t).map PhraseMove.next) q

theorem path_append (q : PhraseState) (ts us : List Token) :
    q.path (ts ++ us) = (q.path ts).bind fun q' => q'.path us :=
  List.foldlM_append

theorem path_cons (q : PhraseState) (t : Token) (ts : List Token) :
    q.path (t :: ts) = (q.move? t).bind fun m => m.next.path ts := by
  rw [path, List.foldlM_cons]
  exact Option.bind_map ..

/-- The tokens that lead from a state to the start the shortest way. -/
def completion : PhraseState → List Token
  | start => []
  | ruleBaseBody | ruleBaseHead | universeBody | universeHead => [.keyword "end"]
  | ruleBaseDescription | ruleBaseName | universeDescription | universeName =>
    [.text "", .keyword "end"]
  | termCenter => [.number 0, .number 0, .keyword "end"]
  | termValue => [.number 0, .keyword "end"]
  | predicateNext => [.keyword "end", .keyword "end"]
  | predicateValue => [.text "", .keyword "end", .keyword "end"]
  | predicateIs => [.keyword "is", .text "", .keyword "end", .keyword "end"]
  | predicateStart => [.text "", .keyword "is", .text "", .keyword "end", .keyword "end"]
  | ruleHead | ruleWhen =>
    [.keyword "when", .text "", .keyword "is", .text "", .keyword "end", .keyword "end"]
  | ruleConsequence | ruleDescription =>
    [.text "", .keyword "when", .text "", .keyword "is", .text "", .keyword "end", .keyword "end"]

theorem path_completion (q : PhraseState) : q.path q.completion = some start := by
  cases q <;> rfl

/-- The tokens lead back to the start. -/
def Closes (q : PhraseState) (ts : List Token) : Prop := q.path ts = some start

end PhraseState

/-- The tokens begin with one that the move allows, and lead back to the start behind it. -/
def PhraseMove.Closes (m : PhraseMove) (ts : List Token) : Prop :=
  ∃ t rest, ts = t :: rest ∧ m.tokenClass.admits t = true ∧ m.next.Closes rest

/-- What is read again and again before something else is read as a list. -/
theorem exists_list_iff {α : Type} {reads done : List Token → Prop} {tokens : α → List Token}
    (hne : ∀ a, tokens a ≠ [])
    (hreads : ∀ ts, reads ts ↔ (∃ a rest, ts = tokens a ++ rest ∧ reads rest) ∨ done ts)
    (ts : List Token) :
    reads ts ↔ ∃ (as : List α) (rest : List Token), ts = as.flatMap tokens ++ rest ∧ done rest := by
  have hfold (as : List α) :
      as.foldlM (fun _ _ => (.ok () : Except Empty Unit)) () = .ok () := by
    induction as with
    | nil => rfl
    | cons a as ih => exact Traversal.foldlM_cons_eq_ok_iff.2 ⟨(), rfl, ih⟩
  have hmany := @exists_many_iff Unit α Empty (fun _ => reads) (fun _ => done) (fun _ => True)
    tokens (fun _ _ => .ok ()) hne (fun _ ts => by simpa using hreads ts) () ts
  simpa [hfold] using hmany

namespace PhraseState

variable {q q' next : PhraseState} {ts : List Token} {actions : List AssemblyAction}

theorem closes_append_iff (us : List Token) (h : q.path us = some q') :
    q.Closes (us ++ ts) ↔ q'.Closes ts := by
  rw [Closes, path_append, h]
  exact Iff.rfl

theorem closes_iff : q.Closes ts ↔ (q = start ∧ ts = []) ∨ ∃ m ∈ q.moves, m.Closes ts := by
  cases ts with
  | nil => simp [Closes, PhraseMove.Closes, path]
  | cons t rest =>
    simp only [Closes, PhraseMove.Closes, path_cons, Option.bind_eq_some_iff, move?_eq_some_iff,
      and_assoc]
    constructor
    · rintro ⟨m, hm, ht, hrest⟩
      exact .inr ⟨m, hm, t, rest, rfl, ht, hrest⟩
    · rintro (⟨-, h⟩ | ⟨m, hm, _, _, h, ht, hrest⟩)
      · cases h
      · obtain ⟨rfl, rfl⟩ := List.cons.inj h
        exact ⟨m, hm, ht, hrest⟩

theorem closes_of_ne_start (hq : q ≠ start) : q.Closes ts ↔ ∃ m ∈ q.moves, m.Closes ts := by
  rw [closes_iff]
  simp [hq]

/-- A state that adds some moves to those of another. -/
theorem closes_of_moves_append {ms : List PhraseMove} (hq : q ≠ start) (hq' : q' ≠ start)
    (hmoves : q.moves = ms ++ q'.moves) :
    q.Closes ts ↔ (∃ m ∈ ms, m.Closes ts) ∨ q'.Closes ts := by
  rw [closes_of_ne_start hq, closes_of_ne_start hq', hmoves]
  simp only [List.mem_append, or_and_right, exists_or]

theorem closes_of_single {m : PhraseMove} (hq : q.moves = [m]) : q.Closes ts ↔ m.Closes ts := by
  have hne : q ≠ start := by
    rintro rfl
    cases hq
  rw [closes_of_ne_start hne, hq]
  simp

theorem closes_text_iff : PhraseMove.Closes ⟨.text, actions, next⟩ ts ↔
    ∃ c rest, ts = .text c :: rest ∧ next.Closes rest := by
  simp only [PhraseMove.Closes, TokenClass.admits_text_iff]
  constructor
  · rintro ⟨_, rest, rfl, ⟨c, rfl⟩, h⟩
    exact ⟨c, rest, rfl, h⟩
  · rintro ⟨c, rest, rfl, h⟩
    exact ⟨_, rest, rfl, ⟨c, rfl⟩, h⟩

theorem closes_number_iff : PhraseMove.Closes ⟨.number, actions, next⟩ ts ↔
    ∃ x rest, ts = .number x :: rest ∧ next.Closes rest := by
  simp only [PhraseMove.Closes, TokenClass.admits_number_iff]
  constructor
  · rintro ⟨_, rest, rfl, ⟨x, rfl⟩, h⟩
    exact ⟨x, rest, rfl, h⟩
  · rintro ⟨x, rest, rfl, h⟩
    exact ⟨_, rest, rfl, ⟨x, rfl⟩, h⟩

theorem closes_keyword_iff {word : String} :
    PhraseMove.Closes ⟨.keyword word, actions, next⟩ ts ↔
      ∃ rest, ts = .keyword word :: rest ∧ next.Closes rest := by
  simp [PhraseMove.Closes, TokenClass.admits_keyword_iff]

theorem closes_universeBody : universeBody.Closes ts ↔
    ∃ (terms : List (Term Float)) (rest : List Token), ts = terms.flatMap Term.tokens ++ rest ∧
      ∃ us, rest = .keyword "end" :: us ∧ start.Closes us := by
  have hbody : universeBody ≠ start := by decide
  refine exists_list_iff (fun _ => List.cons_ne_nil _ _) (fun ts => ?_) ts
  rw [closes_of_ne_start hbody]
  simp only [moves, List.mem_cons, List.not_mem_nil, or_false, exists_eq_or_imp, exists_eq_left,
    closes_text_iff, closes_keyword_iff]
  refine or_congr ⟨?_, ?_⟩ Iff.rfl
  · rintro ⟨name, _, rfl, hcenter⟩
    obtain ⟨center, _, rfl, hvalue⟩ := closes_number_iff.1 ((closes_of_single rfl).1 hcenter)
    obtain ⟨value, rest, rfl, hrest⟩ := closes_number_iff.1 ((closes_of_single rfl).1 hvalue)
    exact ⟨⟨name, center, value⟩, rest, rfl, hrest⟩
  · rintro ⟨⟨name, center, value⟩, rest, rfl, hrest⟩
    exact ⟨name, _, rfl, (closes_append_iff [.number center, .number value] rfl).2 hrest⟩

theorem closes_universeHead : universeHead.Closes ts ↔
    ∃ d rest, ts = describing d ++ rest ∧ universeBody.Closes rest := by
  rw [closes_of_moves_append (by decide) (by decide)
    (show universeHead.moves =
      [⟨.keyword "description", [], universeDescription⟩] ++ universeBody.moves from rfl)]
  simp only [List.mem_singleton, exists_eq_left, closes_keyword_iff]
  constructor
  · rintro (⟨_, rfl, hdescription⟩ | hbody)
    · obtain ⟨text, rest, rfl, hbody⟩ := closes_text_iff.1 ((closes_of_single rfl).1 hdescription)
      exact ⟨some text, rest, rfl, hbody⟩
    · exact ⟨none, ts, rfl, hbody⟩
  · rintro ⟨d, rest, rfl, hbody⟩
    cases d with
    | none => exact .inr hbody
    | some text => exact .inl ⟨_, rfl, (closes_append_iff [.text text] rfl).2 hbody⟩

theorem closes_universeName : universeName.Closes ts ↔
    ∃ (b : UniverseBlock) (rest : List Token), ts = b.body ++ rest ∧ start.Closes rest := by
  rw [closes_of_single rfl, closes_text_iff]
  constructor
  · rintro ⟨name, _, rfl, hhead⟩
    obtain ⟨d, _, rfl, hbody⟩ := closes_universeHead.1 hhead
    obtain ⟨terms, _, rfl, rest, rfl, hrest⟩ := closes_universeBody.1 hbody
    exact ⟨⟨name, d, terms⟩, rest, by simp [UniverseBlock.body], hrest⟩
  · rintro ⟨b, rest, rfl, hrest⟩
    have hbody := closes_universeBody.2 ⟨b.terms, _, rfl, rest, rfl, hrest⟩
    refine ⟨b.name, _, ?_, closes_universeHead.2 ⟨b.description, _, rfl, hbody⟩⟩
    simp [UniverseBlock.body]

/-- A state that takes a description with or without the keyword, or goes on without one. -/
theorem closes_remark {head described body : PhraseState} {a : AssemblyAction}
    (hhead : head ≠ start) (hbody : body ≠ start)
    (hmoves : head.moves =
      [⟨.keyword "description", [], described⟩, ⟨.text, [a], body⟩] ++ body.moves)
    (hdescribed : described.moves = [⟨.text, [a], body⟩]) :
    head.Closes ts ↔
      ∃ (d : Remark) (rest : List Token), ts = d.tokens ++ rest ∧ body.Closes rest := by
  rw [closes_of_moves_append hhead hbody hmoves]
  simp only [List.mem_cons, List.not_mem_nil, or_false, exists_eq_or_imp, exists_eq_left,
    closes_keyword_iff, closes_text_iff, closes_of_single hdescribed]
  constructor
  · rintro ((⟨_, rfl, text, rest, rfl, hrest⟩ | ⟨text, rest, rfl, hrest⟩) | hrest)
    exacts [⟨.marked text, rest, rfl, hrest⟩, ⟨.bare text, rest, rfl, hrest⟩,
      ⟨.absent, ts, rfl, hrest⟩]
  · rintro ⟨d, rest, rfl, hrest⟩
    cases d with
    | absent => exact .inr hrest
    | marked text => exact .inl (.inl ⟨_, rfl, text, rest, rfl, hrest⟩)
    | bare text => exact .inl (.inr ⟨text, rest, rfl, hrest⟩)

theorem closes_predicateStart : predicateStart.Closes ts ↔
    ∃ (p : Predicate) (rest : List Token), ts = p.tokens ++ rest ∧ predicateNext.Closes rest := by
  constructor
  · intro h
    obtain ⟨antecedent, _, rfl, his⟩ := closes_text_iff.1 ((closes_of_single rfl).1 h)
    obtain ⟨_, rfl, hvalue⟩ := closes_keyword_iff.1 ((closes_of_single rfl).1 his)
    obtain ⟨term, rest, rfl, hrest⟩ := closes_text_iff.1 ((closes_of_single rfl).1 hvalue)
    exact ⟨⟨antecedent, term⟩, rest, rfl, hrest⟩
  · rintro ⟨p, rest, rfl, hrest⟩
    exact (closes_append_iff p.tokens rfl).2 hrest

theorem closes_predicateNext : predicateNext.Closes ts ↔
    ∃ (ps : List Predicate) (rest : List Token),
      ts = ps.flatMap (fun p => .keyword "and" :: p.tokens) ++ rest ∧
        ∃ us, rest = .keyword "end" :: us ∧ ruleBaseBody.Closes us := by
  have hnext : predicateNext ≠ start := by decide
  refine exists_list_iff (fun _ => List.cons_ne_nil _ _) (fun ts => ?_) ts
  rw [closes_of_ne_start hnext]
  simp only [moves, List.mem_cons, List.not_mem_nil, or_false, exists_eq_or_imp, exists_eq_left,
    closes_keyword_iff, closes_predicateStart]
  refine or_congr ⟨?_, ?_⟩ Iff.rfl
  · rintro ⟨_, rfl, p, rest, rfl, hrest⟩
    exact ⟨p, rest, rfl, hrest⟩
  · rintro ⟨p, rest, rfl, hrest⟩
    exact ⟨_, rfl, p, rest, rfl, hrest⟩

theorem closes_ruleConsequence : ruleConsequence.Closes ts ↔
    ∃ (r : RulePhrase) (rest : List Token), ts = r.body ++ rest ∧ ruleBaseBody.Closes rest := by
  have hremark (ts : List Token) : ruleHead.Closes ts ↔
      ∃ (d : Remark) (rest : List Token), ts = d.tokens ++ rest ∧ ruleWhen.Closes rest :=
    closes_remark (by decide) (by decide) rfl rfl
  rw [closes_of_single rfl, closes_text_iff]
  constructor
  · rintro ⟨consequent, _, rfl, hhead⟩
    obtain ⟨d, _, rfl, hwhen⟩ := (hremark _).1 hhead
    obtain ⟨_, rfl, hstart⟩ := closes_keyword_iff.1 ((closes_of_single rfl).1 hwhen)
    obtain ⟨first, _, rfl, hnext⟩ := closes_predicateStart.1 hstart
    obtain ⟨others, _, rfl, rest, rfl, hrest⟩ := closes_predicateNext.1 hnext
    exact ⟨⟨consequent, d, first, others⟩, rest, by simp [RulePhrase.body], hrest⟩
  · rintro ⟨r, rest, rfl, hrest⟩
    have hnext := closes_predicateNext.2 ⟨r.others, _, rfl, rest, rfl, hrest⟩
    have hstart := closes_predicateStart.2 ⟨r.first, _, rfl, hnext⟩
    have hwhen : ruleWhen.Closes ([.keyword "when"] ++ _) := (closes_append_iff _ rfl).2 hstart
    refine ⟨r.consequent, _, ?_, (hremark _).2 ⟨r.remark, _, rfl, hwhen⟩⟩
    simp [RulePhrase.body]

theorem closes_ruleBaseBody : ruleBaseBody.Closes ts ↔
    ∃ (rules : List RulePhrase) (rest : List Token), ts = rules.flatMap RulePhrase.tokens ++ rest ∧
      ∃ us, rest = .keyword "end" :: us ∧ start.Closes us := by
  have hbody : ruleBaseBody ≠ start := by decide
  refine exists_list_iff (fun _ => List.cons_ne_nil _ _) (fun ts => ?_) ts
  rw [closes_of_ne_start hbody]
  simp only [moves, List.mem_cons, List.not_mem_nil, or_false, exists_eq_or_imp, exists_eq_left,
    closes_keyword_iff, closes_ruleConsequence]
  refine or_congr ⟨?_, ?_⟩ Iff.rfl
  · rintro ⟨_, rfl, r, rest, rfl, hrest⟩
    exact ⟨r, rest, rfl, hrest⟩
  · rintro ⟨r, rest, rfl, hrest⟩
    exact ⟨_, rfl, r, rest, rfl, hrest⟩

theorem closes_ruleBaseName : ruleBaseName.Closes ts ↔
    ∃ (b : RuleBaseBlock) (rest : List Token), ts = b.body ++ rest ∧ start.Closes rest := by
  have hremark (ts : List Token) : ruleBaseHead.Closes ts ↔
      ∃ (d : Remark) (rest : List Token), ts = d.tokens ++ rest ∧ ruleBaseBody.Closes rest :=
    closes_remark (by decide) (by decide) rfl rfl
  rw [closes_of_single rfl, closes_text_iff]
  constructor
  · rintro ⟨name, _, rfl, hhead⟩
    obtain ⟨d, _, rfl, hbody⟩ := (hremark _).1 hhead
    obtain ⟨rules, _, rfl, rest, rfl, hrest⟩ := closes_ruleBaseBody.1 hbody
    exact ⟨⟨name, d, rules⟩, rest, by simp [RuleBaseBlock.body], hrest⟩
  · rintro ⟨b, rest, rfl, hrest⟩
    have hbody := closes_ruleBaseBody.2 ⟨b.rules, _, rfl, rest, rfl, hrest⟩
    refine ⟨b.name, _, ?_, (hremark _).2 ⟨b.remark, _, rfl, hbody⟩⟩
    simp [RuleBaseBlock.body]

/-- The tokens that lead from the start to the start are those of the sentences. -/
theorem closes_start : start.Closes ts ↔ Sentence ts := by
  have hne (b : Block) : b.tokens ≠ [] := by cases b <;> exact List.cons_ne_nil _ _
  have hstep (ts : List Token) : start.Closes ts ↔
      (∃ (b : Block) (rest : List Token), ts = b.tokens ++ rest ∧ start.Closes rest) ∨ ts = [] := by
    rw [closes_iff]
    simp only [moves, List.mem_cons, List.not_mem_nil, or_false, exists_eq_or_imp, exists_eq_left,
      true_and, closes_keyword_iff, closes_universeName, closes_ruleBaseName]
    constructor
    · rintro (hend | ⟨_, rfl, b, rest, rfl, h⟩ | ⟨_, rfl, b, rest, rfl, h⟩)
      exacts [.inr hend, .inl ⟨.ofUniverse b, rest, rfl, h⟩, .inl ⟨.ofRuleBase b, rest, rfl, h⟩]
    · rintro (⟨b, rest, rfl, h⟩ | hend)
      · cases b with
        | ofUniverse b => exact .inr (.inl ⟨_, rfl, b, rest, rfl, h⟩)
        | ofRuleBase b => exact .inr (.inr ⟨_, rfl, b, rest, rfl, h⟩)
      · exact .inl hend
  rw [exists_list_iff hne hstep, Sentence]
  simp

/-- Tokens that lead somewhere are the beginning of a sentence. -/
theorem exists_sentence_of_path (h : start.path ts = some q) : ∃ more, Sentence (ts ++ more) := by
  refine ⟨q.completion, closes_start.1 ?_⟩
  rw [Closes, path_append, h]
  exact q.path_completion

/-- A token that the state behind some others does not allow is the end of all sentences with
this beginning. -/
theorem not_sentence_of_stuck {t : Token} (h : start.path ts = some q) (ht : q.move? t = none)
    (more : List Token) : ¬ Sentence (ts ++ t :: more) := by
  rw [← closes_start, Closes, path_append, h, Option.bind_some, path_cons, ht]
  exact nofun

theorem not_sentence_of_path (h : start.path ts = some q) (hq : q ≠ start) : ¬ Sentence ts := by
  rw [← closes_start, Closes, h]
  exact fun hstart => hq (Option.some.inj hstart)

end PhraseState

end FuzzyRules
