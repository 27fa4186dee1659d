import FuzzyRules.Proofs.Phrases.Acceptance
import FuzzyRules.Proofs.Phrases.Closing
import FuzzyRules.Proofs.Traversal

/-!
# Sentences of the description language

From each state the accepted lists begin with the tokens of a phrase, and what the actions make of
the assembly on the way is what the phrase builds. So the lists that are accepted from the start are
those of blocks whose names are there and which build an engine.
-/

namespace FuzzyRules

open Traversal

/-- Anything that reads one element after another before it is done reads a list of them. -/
theorem exists_many_iff {σ α ε : Type} {reads done : σ → List Token → Prop} {named : α → Prop}
    {tokens : α → List Token} {step : σ → α → Except ε σ} (hne : ∀ a, tokens a ≠ [])
    (hreads : ∀ s ts, reads s ts ↔
      (∃ a rest s', ts = tokens a ++ rest ∧ named a ∧ step s a = .ok s' ∧ reads s' rest) ∨
        done s ts) (s : σ) (ts : List Token) :
    reads s ts ↔ ∃ (as : List α) (rest : List Token) (s' : σ),
      ts = as.flatMap tokens ++ rest ∧ (∀ a ∈ as, named a) ∧ as.foldlM step s = .ok s' ∧
        done s' rest := by
  constructor
  · intro h
    induction hn : ts.length using Nat.strongRecOn generalizing s ts with
    | _ n ih =>
      rcases (hreads s ts).1 h with ⟨a, rest, s', rfl, hnamed, hstep, hrest⟩ | hdone
      · have hlt : rest.length < n := by
          have := List.length_pos_iff.2 (hne a)
          simp only [← hn, List.length_append]
          omega
        obtain ⟨as, tail, s'', rfl, hall, hfold, hdone⟩ := ih _ hlt s' rest hrest rfl
        exact ⟨a :: as, tail, s'', by simp, List.forall_mem_cons.2 ⟨hnamed, hall⟩,
          foldlM_cons_eq_ok_iff.2 ⟨s', hstep, hfold⟩, hdone⟩
      · exact ⟨[], ts, s, rfl, by simp, rfl, hdone⟩
  · rintro ⟨as, rest, s', rfl, hall, hfold, hdone⟩
    induction as generalizing s with
    | nil =>
      cases hfold
      exact (hreads _ _).2 (.inr hdone)
    | cons a as ih =>
      obtain ⟨hnamed, hall⟩ := List.forall_mem_cons.1 hall
      obtain ⟨s₁, hstep, hfold⟩ := foldlM_cons_eq_ok_iff.1 hfold
      refine (hreads s _).2 (.inl ⟨a, as.flatMap tokens ++ rest, s₁, ?_, hnamed, hstep, ?_⟩)
      · simp
      · exact ih s₁ hall hfold

namespace PhraseState

variable {s : Assembly} {engine e : Engine Float} {u : Universe Float} {rb : RuleBase} {r : Rule}
  {below : List Draft} {ts : List Token}

section Universes

theorem accepts_termCenter {name : String} :
    termCenter.Accepts ⟨engine, .ofTerm ⟨name, none, none⟩ :: below⟩ ts e ↔
      ∃ center rest, ts = .number center :: rest ∧
        termValue.Accepts ⟨engine, .ofTerm ⟨name, some center, none⟩ :: below⟩ rest e :=
  (accepts_of_single rfl).trans (leads_number fun _ => rfl)

theorem accepts_termValue {name : String} {center : Float} :
    termValue.Accepts ⟨engine, .ofTerm ⟨name, some center, none⟩ :: .ofUniverse u :: below⟩ ts e ↔
      ∃ value rest u', ts = .number value :: rest ∧ u.add ⟨name, center, value⟩ = .ok u' ∧
        universeBody.Accepts ⟨engine, .ofUniverse u' :: below⟩ rest e := by
  rw [accepts_of_single rfl, leads_number_iff]
  simp only [Assembly.perform_addTerm_iff]
  constructor
  · rintro ⟨value, rest, s', rfl, ⟨u', hadd, rfl⟩, haccepts⟩
    exact ⟨value, rest, u', rfl, hadd, haccepts⟩
  · rintro ⟨value, rest, u', rfl, hadd, haccepts⟩
    exact ⟨value, rest, _, rfl, ⟨u', hadd, rfl⟩, haccepts⟩

/-- A term in a universe begins with a text. -/
theorem leads_createTerm : PhraseMove.Leads ⟨.text, [.createTerm], termCenter⟩
    ⟨engine, .ofUniverse u :: below⟩ ts e ↔
      ∃ (t : Term Float) (rest : List Token) (u' : Universe Float), ts = t.tokens ++ rest ∧
        u.add t = .ok u' ∧ universeBody.Accepts ⟨engine, .ofUniverse u' :: below⟩ rest e := by
  rw [leads_text (f := fun name => ⟨engine, .ofTerm ⟨name, none, none⟩ :: .ofUniverse u :: below⟩)
    fun _ => rfl]
  constructor
  · rintro ⟨name, _, rfl, hcenter⟩
    obtain ⟨center, _, rfl, hvalue⟩ := accepts_termCenter.1 hcenter
    obtain ⟨value, rest, u', rfl, hadd, hbody⟩ := accepts_termValue.1 hvalue
    exact ⟨⟨name, center, value⟩, rest, u', rfl, hadd, hbody⟩
  · rintro ⟨⟨name, center, value⟩, rest, u', rfl, hadd, haccepts⟩
    exact ⟨name, _, rfl, accepts_termCenter.2 ⟨center, _, rfl,
      accepts_termValue.2 ⟨value, rest, u', rfl, hadd, haccepts⟩⟩⟩

/-- The universe is closed and stands in the engine. -/
def ClosesUniverse (engine e : Engine Float) (u : Universe Float) (ts : List Token) : Prop :=
  ∃ rest engine', ts = .keyword "end" :: rest ∧ u.name ≠ "" ∧ engine.addUniverse u = .ok engine' ∧
    start.Accepts ⟨engine', []⟩ rest e

theorem leads_addUniverse : PhraseMove.Leads ⟨.keyword "end", [.addUniverse], start⟩
    ⟨engine, [.ofUniverse u]⟩ ts e ↔ ClosesUniverse engine e u ts := by
  rw [leads_keyword_iff]
  simp only [Assembly.perform_addUniverse_iff]
  constructor
  · rintro ⟨rest, s', rfl, ⟨hname, engine', hadd, rfl⟩, haccepts⟩
    exact ⟨rest, engine', rfl, hname, hadd, haccepts⟩
  · rintro ⟨rest, engine', rfl, hname, hadd, haccepts⟩
    exact ⟨rest, _, rfl, ⟨hname, engine', hadd, rfl⟩, haccepts⟩

theorem accepts_universeBody :
    universeBody.Accepts ⟨engine, [.ofUniverse u]⟩ ts e ↔
      ∃ (terms : List (Term Float)) (rest : List Token) (u' : Universe Float),
        ts = terms.flatMap Term.tokens ++ rest ∧ terms.foldlM Universe.add u = .ok u' ∧
          ClosesUniverse engine e u' rest := by
  have hne (t : Term Float) : t.tokens ≠ [] := List.cons_ne_nil _ _
  have hbody : universeBody ≠ start := by decide
  have hstep (u : Universe Float) (ts : List Token) :
      universeBody.Accepts ⟨engine, [.ofUniverse u]⟩ ts e ↔
        (∃ (t : Term Float) (rest : List Token) (u' : Universe Float), ts = t.tokens ++ rest ∧
          True ∧ u.add t = .ok u' ∧ universeBody.Accepts ⟨engine, [.ofUniverse u']⟩ rest e) ∨
        ClosesUniverse engine e u ts := by
    rw [accepts_of_ne_start hbody]
    simp only [moves, List.mem_cons, List.not_mem_nil, or_false, exists_eq_or_imp, exists_eq_left,
      true_and]
    exact or_congr leads_createTerm leads_addUniverse
  have hmany := exists_many_iff hne hstep u ts
  simpa using hmany

theorem accepts_universeDescription :
    universeDescription.Accepts ⟨engine, .ofUniverse u :: below⟩ ts e ↔
      ∃ text rest, ts = .text text :: rest ∧
        universeBody.Accepts ⟨engine, .ofUniverse { u with description := some text } :: below⟩
          rest e :=
  (accepts_of_single rfl).trans (leads_text fun _ => rfl)

theorem accepts_universeHead (hu : u.description = none) :
    universeHead.Accepts ⟨engine, .ofUniverse u :: below⟩ ts e ↔
      ∃ d rest, ts = describing d ++ rest ∧
        universeBody.Accepts ⟨engine, .ofUniverse { u with description := d } :: below⟩ rest e := by
  rw [accepts_of_moves_append (by decide) (by decide)
    (show universeHead.moves =
      [⟨.keyword "description", [], universeDescription⟩] ++ universeBody.moves from rfl)]
  simp only [List.mem_singleton, exists_eq_left]
  rw [leads_keyword (Run.perform_nil ..)]
  obtain ⟨name, description, terms⟩ := u
  obtain rfl : description = none := hu
  constructor
  · rintro (⟨_, rfl, hdescription⟩ | hbody)
    · obtain ⟨text, rest, rfl, hbody⟩ := accepts_universeDescription.1 hdescription
      exact ⟨some text, rest, rfl, hbody⟩
    · exact ⟨none, ts, rfl, hbody⟩
  · rintro ⟨d, rest, rfl, hbody⟩
    cases d with
    | none => exact .inr hbody
    | some text => exact .inl ⟨_, rfl, accepts_universeDescription.2 ⟨text, rest, rfl, hbody⟩⟩

/-- A universe without its opening keyword. -/
theorem accepts_universeName :
    universeName.Accepts ⟨engine, [.ofUniverse (Universe.new "")]⟩ ts e ↔
      ∃ (b : UniverseBlock) (rest : List Token) (engine' : Engine Float), ts = b.body ++ rest ∧
        b.name ≠ "" ∧ Block.add engine (.ofUniverse b) = .ok engine' ∧
          start.Accepts ⟨engine', []⟩ rest e := by
  rw [accepts_of_single rfl, leads_text
    (f := fun name => ⟨engine, [.ofUniverse (Universe.new name)]⟩) fun _ => rfl]
  constructor
  · rintro ⟨name, _, rfl, hhead⟩
    obtain ⟨d, _, rfl, hbody⟩ := (accepts_universeHead rfl).1 hhead
    obtain ⟨terms, _, u, rfl, hbuild, rest, engine', rfl, hname, hadd, hrest⟩ :=
      accepts_universeBody.1 hbody
    refine ⟨⟨name, d, terms⟩, rest, engine', by simp [UniverseBlock.body], ?_, ?_, hrest⟩
    · rwa [UniverseBlock.name_of_build (b := ⟨name, d, terms⟩) hbuild] at hname
    · exact bind_eq_ok_iff.2 ⟨u, hbuild, hadd⟩
  · rintro ⟨b, rest, engine', rfl, hname, hadd, hrest⟩
    obtain ⟨u, hbuild, hadd⟩ := bind_eq_ok_iff.1 hadd
    refine ⟨b.name, describing b.description ++ (b.terms.flatMap Term.tokens ++
      .keyword "end" :: rest), by simp [UniverseBlock.body], (accepts_universeHead rfl).2
        ⟨b.description, _, rfl, accepts_universeBody.2 ⟨b.terms, _, u, rfl, hbuild, ?_⟩⟩⟩
    rw [← UniverseBlock.name_of_build hbuild] at hname
    exact ⟨rest, engine', rfl, hname, hadd, hrest⟩

end Universes

/-- A state that takes a description with or without the keyword, or goes on without one. -/
theorem accepts_remark {head described body : PhraseState} {a : AssemblyAction}
    {f : Option String → Assembly} (hhead : head ≠ start) (hbody : body ≠ start)
    (hmoves : head.moves =
      [⟨.keyword "description", [], described⟩, ⟨.text, [a], body⟩] ++ body.moves)
    (hdescribed : described.moves = [⟨.text, [a], body⟩])
    (hf : ∀ c, Run.perform Assembly.operate (.text c) [a] (f none) = (f (some c), .ok ())) :
    head.Accepts (f none) ts e ↔ ∃ (d : Remark) (rest : List Token),
      ts = d.tokens ++ rest ∧ body.Accepts (f d.text?) rest e := by
  have htext (ts : List Token) : described.Accepts (f none) ts e ↔
      ∃ c rest, ts = .text c :: rest ∧ body.Accepts (f (some c)) rest e :=
    (accepts_of_single hdescribed).trans (leads_text hf)
  rw [accepts_of_moves_append hhead hbody hmoves]
  simp only [List.mem_cons, List.not_mem_nil, or_false, exists_eq_or_imp, exists_eq_left]
  rw [leads_keyword (Run.perform_nil ..), leads_text hf]
  constructor
  · rintro ((⟨_, rfl, hdescribed⟩ | ⟨text, rest, rfl, hrest⟩) | hrest)
    · obtain ⟨text, rest, rfl, hrest⟩ := (htext _).1 hdescribed
      exact ⟨.marked text, rest, rfl, hrest⟩
    · exact ⟨.bare text, rest, rfl, hrest⟩
    · exact ⟨.absent, ts, rfl, hrest⟩
  · rintro ⟨d, rest, rfl, hrest⟩
    cases d with
    | absent => exact .inr hrest
    | marked text => exact .inl (.inl ⟨_, rfl, (htext _).2 ⟨text, rest, rfl, hrest⟩⟩)
    | bare text => exact .inl (.inr ⟨text, rest, rfl, hrest⟩)

section Rules

theorem accepts_predicateValue {antecedent : String} :
    predicateValue.Accepts
        ⟨engine, .ofPredicate ⟨some antecedent, none⟩ :: .ofRule r :: below⟩ ts e ↔
      ∃ term rest r', ts = .text term :: rest ∧ RulePhrase.add r ⟨antecedent, term⟩ = .ok r' ∧
        predicateNext.Accepts ⟨engine, .ofRule r' :: below⟩ rest e := by
  rw [accepts_of_single rfl, leads_text_iff]
  simp only [Assembly.perform_addPredicate_iff]
  constructor
  · rintro ⟨term, rest, s', rfl, ⟨r', hadd, rfl⟩, hnext⟩
    exact ⟨term, rest, r', rfl, hadd, hnext⟩
  · rintro ⟨term, rest, r', rfl, hadd, hnext⟩
    exact ⟨term, rest, _, rfl, ⟨r', hadd, rfl⟩, hnext⟩

theorem accepts_predicateIs : predicateIs.Accepts s ts e ↔
    ∃ rest, ts = .keyword "is" :: rest ∧ predicateValue.Accepts s rest e :=
  (accepts_of_single rfl).trans (leads_keyword (Run.perform_nil ..))

theorem accepts_predicateStart :
    predicateStart.Accepts ⟨engine, .ofRule r :: below⟩ ts e ↔
      ∃ (p : Predicate) (rest : List Token) (r' : Rule), ts = p.tokens ++ rest ∧
        RulePhrase.add r p = .ok r' ∧
          predicateNext.Accepts ⟨engine, .ofRule r' :: below⟩ rest e := by
  rw [accepts_of_single rfl, leads_text (f := fun antecedent =>
    ⟨engine, .ofPredicate ⟨some antecedent, none⟩ :: .ofRule r :: below⟩) fun _ => rfl]
  constructor
  · rintro ⟨antecedent, _, rfl, his⟩
    obtain ⟨_, rfl, hvalue⟩ := accepts_predicateIs.1 his
    obtain ⟨term, rest, r', rfl, hadd, hnext⟩ := accepts_predicateValue.1 hvalue
    exact ⟨⟨antecedent, term⟩, rest, r', rfl, hadd, hnext⟩
  · rintro ⟨⟨antecedent, term⟩, rest, r', rfl, hadd, hnext⟩
    exact ⟨antecedent, _, rfl, accepts_predicateIs.2 ⟨_, rfl,
      accepts_predicateValue.2 ⟨term, rest, r', rfl, hadd, hnext⟩⟩⟩

/-- The rule is closed and stands in the rule base. -/
def ClosesRule (engine e : Engine Float) (rb : RuleBase) (r : Rule) (ts : List Token) : Prop :=
  ∃ rest, ts = .keyword "end" :: rest ∧ r.consequent ≠ "" ∧
    ruleBaseBody.Accepts ⟨engine, [.ofRuleBase (rb.addRule r)]⟩ rest e

theorem leads_addRule : PhraseMove.Leads ⟨.keyword "end", [.addRule], ruleBaseBody⟩
    ⟨engine, [.ofRule r, .ofRuleBase rb]⟩ ts e ↔ ClosesRule engine e rb r ts := by
  rw [leads_keyword_iff]
  simp only [Assembly.perform_addRule_iff]
  constructor
  · rintro ⟨rest, s', rfl, ⟨hname, rfl⟩, hrest⟩
    exact ⟨rest, rfl, hname, hrest⟩
  · rintro ⟨rest, rfl, hname, hrest⟩
    exact ⟨rest, _, rfl, ⟨hname, rfl⟩, hrest⟩

theorem accepts_predicateNext :
    predicateNext.Accepts ⟨engine, [.ofRule r, .ofRuleBase rb]⟩ ts e ↔
      ∃ (ps : List Predicate) (rest : List Token) (r' : Rule),
        ts = ps.flatMap (fun p => .keyword "and" :: p.tokens) ++ rest ∧
          ps.foldlM RulePhrase.add r = .ok r' ∧ ClosesRule engine e rb r' rest := by
  have hne (p : Predicate) : Token.keyword "and" :: p.tokens ≠ [] := List.cons_ne_nil _ _
  have hnext : predicateNext ≠ start := by decide
  have hstep (r : Rule) (ts : List Token) :
      predicateNext.Accepts ⟨engine, [.ofRule r, .ofRuleBase rb]⟩ ts e ↔
        (∃ (p : Predicate) (rest : List Token) (r' : Rule),
          ts = .keyword "and" :: p.tokens ++ rest ∧ True ∧ RulePhrase.add r p = .ok r' ∧
            predicateNext.Accepts ⟨engine, [.ofRule r', .ofRuleBase rb]⟩ rest e) ∨
        ClosesRule engine e rb r ts := by
    rw [accepts_of_ne_start hnext]
    simp only [moves, List.mem_cons, List.not_mem_nil, or_false, exists_eq_or_imp, exists_eq_left,
      true_and, leads_addRule]
    rw [leads_keyword (Run.perform_nil ..)]
    simp only [accepts_predicateStart]
    refine or_congr ⟨?_, ?_⟩ Iff.rfl
    · rintro ⟨_, rfl, p, rest, r', rfl, h⟩
      exact ⟨p, rest, r', rfl, h⟩
    · rintro ⟨p, rest, r', rfl, h⟩
      exact ⟨_, rfl, p, rest, r', rfl, h⟩
  have hmany := exists_many_iff hne hstep r ts
  simpa using hmany

theorem accepts_ruleWhen :
    ruleWhen.Accepts ⟨engine, [.ofRule r, .ofRuleBase rb]⟩ ts e ↔
      ∃ (p : Predicate) (ps : List Predicate) (rest : List Token) (r' : Rule),
        ts = .keyword "when" :: p.tokens ++
          (ps.flatMap (fun p => .keyword "and" :: p.tokens) ++ rest) ∧
          (p :: ps).foldlM RulePhrase.add r = .ok r' ∧ ClosesRule engine e rb r' rest := by
  rw [accepts_of_single rfl, leads_keyword (Run.perform_nil ..)]
  constructor
  · rintro ⟨_, rfl, hstart⟩
    obtain ⟨p, _, r₁, rfl, hadd, hnext⟩ := accepts_predicateStart.1 hstart
    obtain ⟨ps, rest, r', rfl, hfold, hcloses⟩ := accepts_predicateNext.1 hnext
    exact ⟨p, ps, rest, r', rfl, foldlM_cons_eq_ok_iff.2 ⟨r₁, hadd, hfold⟩, hcloses⟩
  · rintro ⟨p, ps, rest, r', rfl, hfold, hcloses⟩
    obtain ⟨r₁, hadd, hfold⟩ := foldlM_cons_eq_ok_iff.1 hfold
    exact ⟨_, rfl, accepts_predicateStart.2 ⟨p, _, r₁, rfl, hadd,
      accepts_predicateNext.2 ⟨ps, rest, r', rfl, hfold, hcloses⟩⟩⟩

theorem accepts_ruleHead {consequent : String} {predicates : NameMap String} :
    ruleHead.Accepts ⟨engine, .ofRule ⟨consequent, none, predicates⟩ :: below⟩ ts e ↔
      ∃ (d : Remark) (rest : List Token), ts = d.tokens ++ rest ∧
        ruleWhen.Accepts ⟨engine, .ofRule ⟨consequent, d.text?, predicates⟩ :: below⟩ rest e :=
  accepts_remark (f := fun d => ⟨engine, .ofRule ⟨consequent, d, predicates⟩ :: below⟩) (by decide)
    (by decide) rfl rfl fun _ => rfl

/-- A rule in a rule base begins with its keyword. -/
theorem leads_createRule : PhraseMove.Leads ⟨.keyword "rule", [.createRule], ruleConsequence⟩
    ⟨engine, [.ofRuleBase rb]⟩ ts e ↔
      ∃ (p : RulePhrase) (rest : List Token) (rb' : RuleBase), ts = p.tokens ++ rest ∧
        p.consequent ≠ "" ∧ RuleBaseBlock.add rb p = .ok rb' ∧
          ruleBaseBody.Accepts ⟨engine, [.ofRuleBase rb']⟩ rest e := by
  rw [leads_keyword (show Run.perform Assembly.operate (.keyword "rule") [.createRule]
    ⟨engine, [.ofRuleBase rb]⟩ =
      (⟨engine, [.ofRule (Rule.new ""), .ofRuleBase rb]⟩, .ok ()) from rfl)]
  have hconsequence (rest : List Token) :
      ruleConsequence.Accepts ⟨engine, [.ofRule (Rule.new ""), .ofRuleBase rb]⟩ rest e ↔ _ :=
    (accepts_of_single rfl).trans (leads_text (f := fun consequent =>
      ⟨engine, [.ofRule (Rule.new consequent), .ofRuleBase rb]⟩) fun _ => rfl)
  constructor
  · rintro ⟨_, rfl, h⟩
    obtain ⟨consequent, _, rfl, hhead⟩ := (hconsequence _).1 h
    obtain ⟨d, _, rfl, hwhen⟩ := accepts_ruleHead.1 hhead
    obtain ⟨first, others, _, r, rfl, hbuild, rest, rfl, hname, hrest⟩ := accepts_ruleWhen.1 hwhen
    refine ⟨⟨consequent, d, first, others⟩, rest, _, ?_, ?_, map_eq_ok_iff.2 ⟨r, hbuild, rfl⟩,
      hrest⟩
    · simp [RulePhrase.tokens, RulePhrase.body]
    · rwa [RulePhrase.consequent_of_build (r := ⟨consequent, d, first, others⟩) hbuild] at hname
  · rintro ⟨p, rest, _, rfl, hname, hadd, hrest⟩
    obtain ⟨r, hbuild, rfl⟩ := map_eq_ok_iff.1 hadd
    rw [← RulePhrase.consequent_of_build hbuild] at hname
    have hwhen := accepts_ruleWhen.2
      ⟨p.first, p.others, _, r, rfl, hbuild, rest, rfl, hname, hrest⟩
    have hhead := accepts_ruleHead.2 ⟨p.remark, _, rfl, hwhen⟩
    refine ⟨_, ?_, (hconsequence _).2 ⟨p.consequent, _, rfl, hhead⟩⟩
    simp [RulePhrase.tokens, RulePhrase.body]

/-- The rule base is closed and stands in the engine. -/
def ClosesRuleBase (engine e : Engine Float) (rb : RuleBase) (ts : List Token) : Prop :=
  ∃ rest engine', ts = .keyword "end" :: rest ∧ rb.name ≠ "" ∧
    engine.addRuleBase rb = .ok engine' ∧ start.Accepts ⟨engine', []⟩ rest e

theorem leads_addRuleBase : PhraseMove.Leads ⟨.keyword "end", [.addRuleBase], start⟩
    ⟨engine, [.ofRuleBase rb]⟩ ts e ↔ ClosesRuleBase engine e rb ts := by
  rw [leads_keyword_iff]
  simp only [Assembly.perform_addRuleBase_iff]
  constructor
  · rintro ⟨rest, s', rfl, ⟨hname, engine', hadd, rfl⟩, hrest⟩
    exact ⟨rest, engine', rfl, hname, hadd, hrest⟩
  · rintro ⟨rest, engine', rfl, hname, hadd, hrest⟩
    exact ⟨rest, _, rfl, ⟨hname, engine', hadd, rfl⟩, hrest⟩

theorem accepts_ruleBaseBody :
    ruleBaseBody.Accepts ⟨engine, [.ofRuleBase rb]⟩ ts e ↔
      ∃ (rules : List RulePhrase) (rest : List Token) (rb' : RuleBase),
        ts = rules.flatMap RulePhrase.tokens ++ rest ∧ (∀ r ∈ rules, r.consequent ≠ "") ∧
          rules.foldlM RuleBaseBlock.add rb = .ok rb' ∧ ClosesRuleBase engine e rb' rest := by
  have hne (r : RulePhrase) : r.tokens ≠ [] := List.cons_ne_nil _ _
  have hbody : ruleBaseBody ≠ start := by decide
  have hstep (rb : RuleBase) (ts : List Token) :
      ruleBaseBody.Accepts ⟨engine, [.ofRuleBase rb]⟩ ts e ↔
        (∃ (r : RulePhrase) (rest : List Token) (rb' : RuleBase), ts = r.tokens ++ rest ∧
          r.consequent ≠ "" ∧ RuleBaseBlock.add rb r = .ok rb' ∧
            ruleBaseBody.Accepts ⟨engine, [.ofRuleBase rb']⟩ rest e) ∨
        ClosesRuleBase engine e rb ts := by
    rw [accepts_of_ne_start hbody]
    simp only [moves, List.mem_cons, List.not_mem_nil, or_false, exists_eq_or_imp, exists_eq_left]
    exact or_congr leads_createRule leads_addRuleBase
  exact exists_many_iff hne hstep rb ts

theorem accepts_ruleBaseHead {name : String} {rules : List Rule} :
    ruleBaseHead.Accepts ⟨engine, .ofRuleBase ⟨name, none, rules⟩ :: below⟩ ts e ↔
      ∃ (d : Remark) (rest : List Token), ts = d.tokens ++ rest ∧
        ruleBaseBody.Accepts ⟨engine, .ofRuleBase ⟨name, d.text?, rules⟩ :: below⟩ rest e :=
  accepts_remark (f := fun d => ⟨engine, .ofRuleBase ⟨name, d, rules⟩ :: below⟩) (by decide)
    (by decide) rfl rfl fun _ => rfl

/-- A rule base without its opening keyword. -/
theorem accepts_ruleBaseName :
    ruleBaseName.Accepts ⟨engine, [.ofRuleBase (RuleBase.new "")]⟩ ts e ↔
      ∃ (b : RuleBaseBlock) (rest : List Token) (engine' : Engine Float), ts = b.body ++ rest ∧
        (b.name ≠ "" ∧ ∀ r ∈ b.rules, r.consequent ≠ "") ∧
          Block.add engine (.ofRuleBase b) = .ok engine' ∧
            start.Accepts ⟨engine', []⟩ rest e := by
  rw [accepts_of_single rfl, leads_text
    (f := fun name => ⟨engine, [.ofRuleBase (RuleBase.new name)]⟩) fun _ => rfl]
  constructor
  · rintro ⟨name, _, rfl, hhead⟩
    obtain ⟨d, _, rfl, hbody⟩ := accepts_ruleBaseHead.1 hhead
    obtain ⟨rules, _, rb, rfl, hrules, hbuild, rest, engine', rfl, hname, hadd, hrest⟩ :=
      accepts_ruleBaseBody.1 hbody
    refine ⟨⟨name, d, rules⟩, rest, engine', by simp [RuleBaseBlock.body], ⟨?_, hrules⟩, ?_, hrest⟩
    · rwa [RuleBaseBlock.name_of_build (b := ⟨name, d, rules⟩) hbuild] at hname
    · exact bind_eq_ok_iff.2 ⟨rb, hbuild, hadd⟩
  · rintro ⟨b, rest, engine', rfl, ⟨hname, hrules⟩, hadd, hrest⟩
    obtain ⟨rb, hbuild, hadd⟩ := bind_eq_ok_iff.1 hadd
    rw [← RuleBaseBlock.name_of_build hbuild] at hname
    have hbody := accepts_ruleBaseBody.2
      ⟨b.rules, _, rb, rfl, hrules, hbuild, rest, engine', rfl, hname, hadd, hrest⟩
    refine ⟨b.name, _, ?_, accepts_ruleBaseHead.2 ⟨b.remark, _, rfl, hbody⟩⟩
    simp [RuleBaseBlock.body]

end Rules

theorem accepts_start_step : start.Accepts ⟨engine, []⟩ ts e ↔
    (∃ (b : Block) (rest : List Token) (engine' : Engine Float), ts = b.tokens ++ rest ∧ b.Named ∧
      b.add engine = .ok engine' ∧ start.Accepts ⟨engine', []⟩ rest e) ∨
    (ts = [] ∧ engine = e) := by
  have hfinish : Assembly.finish ⟨engine, []⟩ .finish = .ok e ↔ engine = e := by
    simp [Assembly.finish]
  rw [accepts_iff_leads]
  simp only [moves, List.mem_cons, List.not_mem_nil, or_false, exists_eq_or_imp, exists_eq_left,
    true_and, hfinish]
  rw [leads_keyword (show Run.perform Assembly.operate (.keyword "universe") [.createUniverse]
      ⟨engine, []⟩ = (⟨engine, [.ofUniverse (Universe.new "")]⟩, .ok ()) from rfl),
    leads_keyword (show Run.perform Assembly.operate (.keyword "rulebase") [.createRuleBase]
      ⟨engine, []⟩ = (⟨engine, [.ofRuleBase (RuleBase.new "")]⟩, .ok ()) from rfl)]
  simp only [accepts_universeName, accepts_ruleBaseName]
  constructor
  · rintro (hend | ⟨_, rfl, b, rest, engine', rfl, h⟩ | ⟨_, rfl, b, rest, engine', rfl, h⟩)
    · exact .inr hend
    · exact .inl ⟨.ofUniverse b, rest, engine', rfl, h⟩
    · exact .inl ⟨.ofRuleBase b, rest, engine', rfl, h⟩
  · rintro (⟨b, rest, engine', rfl, h⟩ | hend)
    · cases b with
      | ofUniverse b => exact .inr (.inl ⟨_, rfl, b, rest, engine', rfl, h⟩)
      | ofRuleBase b => exact .inr (.inr ⟨_, rfl, b, rest, engine', rfl, h⟩)
    · exact .inl hend

/-- The lists that are accepted from the start are those of blocks that build an engine. -/
theorem accepts_start : start.Accepts ⟨engine, []⟩ ts e ↔ ∃ blocks : List Block,
    ts = blocks.flatMap Block.tokens ∧ (∀ b ∈ blocks, b.Named) ∧
      blocks.foldlM Block.add engine = .ok e := by
  have hne (b : Block) : b.tokens ≠ [] := by cases b <;> exact List.cons_ne_nil _ _
  have hmany := exists_many_iff hne (fun (engine : Engine Float) (ts : List Token) =>
    (accepts_start_step : start.Accepts ⟨engine, []⟩ ts e ↔ _)) engine ts
  rw [hmany]
  constructor
  · rintro ⟨blocks, rest, engine', rfl, hnamed, hfold, rfl, rfl⟩
    exact ⟨blocks, List.append_nil _, hnamed, hfold⟩
  · rintro ⟨blocks, rfl, hnamed, hfold⟩
    exact ⟨blocks, [], e, (List.append_nil _).symm, hnamed, hfold, rfl, rfl⟩

end PhraseState

end FuzzyRules
