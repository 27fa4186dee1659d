import FuzzyRules.Proofs.Phrases.Models

/-!
# Faults of the description language

In each state of the phrase table the open drafts have one shape, with some of their fields set
already. So the actions of the table find the draft and the token that they need, and a text can
only fail by what it says: by its words, by a missing name, or by a definition that the model
refuses.
-/

namespace FuzzyRules

/-- What can be wrong with a text that is read with the built-in tables. -/
inductive GrammarFault.Foreseen (settings : EngineSettings) : GrammarFault → Prop
  | violation (grammar state : String) (seen : Excerpt) (line : Nat) :
      Foreseen settings (.violation grammar state seen line)
  | malformedNumber (literal : String) (line : Nat) :
      Foreseen settings (.malformedNumber literal line)
  | namelessUniverse (seen : Excerpt) : Foreseen settings (.incomplete .namelessUniverse seen)
  | namelessRuleBase (seen : Excerpt) : Foreseen settings (.incomplete .namelessRuleBase seen)
  | ruleWithoutConsequent (seen : Excerpt) :
      Foreseen settings (.incomplete .ruleWithoutConsequent seen)
  | duplicate (seen : Excerpt) (kind : NameKind) (name : String) (scope : Scope) :
      Foreseen settings (.model seen (.duplicate kind name scope))
  | nonMonotonic (seen : Excerpt) (owner term : String) (h : settings.strictMonotonic = true) :
      Foreseen settings (.model seen (.nonMonotonic owner term))

/-- The faults of a grammar whose actions do not fit together. -/
inductive GrammarFault.Misfit : GrammarFault → Prop
  | misplaced (action : String) (expected found : Option DraftKind) :
      Misfit (.misplaced action expected found)
  | unexpectedItem (action : String) (need : Need) (seen : Excerpt) :
      Misfit (.unexpectedItem action need seen)
  | stalled (grammar state : String) : Misfit (.stalled grammar state)
  | term (name : String) (seen : Excerpt) : Misfit (.incomplete (.term name) seen)
  | predicate (seen : Excerpt) : Misfit (.incomplete .predicate seen)
  | stillOpen (kind : DraftKind) (seen : Excerpt) : Misfit (.incomplete (.stillOpen kind) seen)

theorem GrammarFault.Foreseen.not_misfit {settings : EngineSettings} {fault : GrammarFault}
    (h : fault.Foreseen settings) : ¬ fault.Misfit := by
  intro hmisfit
  cases h <;> cases hmisfit

theorem GrammarFault.Lexical.foreseen {fault : GrammarFault} (h : fault.Lexical)
    (settings : EngineSettings) : fault.Foreseen settings := by
  cases h with
  | violation => exact .violation ..
  | malformedNumber => exact .malformedNumber ..

section ModelFaults

variable {settings : EngineSettings} {e : Engine Float} {u : Universe Float}
  {fault : ModelFault Float}

theorem Universe.foreseen_of_add {t : Term Float} (h : u.add t = .error fault) (seen : Excerpt) :
    GrammarFault.Foreseen settings (.model seen fault) := by
  unfold add at h
  split_ifs at h
  cases h
  exact .duplicate ..

theorem Rule.foreseen_of_addPredicate {r : Rule} {antecedent term : String}
    (h : r.addPredicate antecedent term = .error fault) (seen : Excerpt) :
    GrammarFault.Foreseen settings (.model seen fault) := by
  unfold addPredicate at h
  split_ifs at h
  cases h
  exact .duplicate ..

theorem Engine.foreseen_of_addRuleBase {rb : RuleBase} (h : e.addRuleBase rb = .error fault)
    (seen : Excerpt) : GrammarFault.Foreseen settings (.model seen fault) := by
  unfold addRuleBase at h
  split_ifs at h
  cases h
  exact .duplicate ..

theorem Universe.foreseen_of_trendFrom (hstrict : settings.strictMonotonic = true) {owner : String}
    {rising falling : Bool} {terms : List (Term Float)}
    (h : trendFrom owner rising falling terms = .error fault) (seen : Excerpt) :
    GrammarFault.Foreseen settings (.model seen fault) := by
  fun_induction trendFrom owner rising falling terms with
  | case1 =>
    cases h
    exact .nonMonotonic _ _ _ hstrict
  | case2 =>
    rename_i ih
    exact ih h
  | case3 => cases h

theorem Engine.foreseen_of_addUniverse (h : e.addUniverse u = .error fault) (seen : Excerpt) :
    GrammarFault.Foreseen e.settings (.model seen fault) := by
  unfold addUniverse at h
  split_ifs at h with htaken hstrict
  · cases h
    exact .duplicate ..
  · cases htrend : u.checkTrend with
    | ok _ =>
      rw [htrend] at h
      cases h
    | error cause =>
      rw [htrend] at h
      cases h
      exact Universe.foreseen_of_trendFrom hstrict htrend seen

end ModelFaults

namespace Assembly

/-- The actions are performed and leave drafts such that `P`, or they are refused for a reason that
lies in the text. -/
def Fits (P : List Draft → Prop) (t : Token) (actions : List AssemblyAction) (s : Assembly) :
    Prop :=
  match Run.perform operate t actions s with
  | (s', .ok ()) => s'.engine.settings = s.engine.settings ∧ P s'.drafts
  | (_, .error fault) => fault.Foreseen s.engine.settings

section Fits

variable {P : List Draft → Prop} {t : Token} {a : AssemblyAction} {s s' : Assembly}
  {engine : Engine Float} {below : List Draft}

theorem fits_nil (h : P s.drafts) : Fits P t [] s := ⟨rfl, h⟩

theorem fits_cons {rest : List AssemblyAction} (h : s.attempt a t = .ok s')
    (hsettings : s'.engine.settings = s.engine.settings) (hrest : Fits P t rest s') :
    Fits P t (a :: rest) s := by
  rw [Fits, hsettings] at hrest
  rw [Fits, Run.perform, operate, h]
  exact hrest

theorem fits_of_attempt (h : s.attempt a t = .ok s')
    (hsettings : s'.engine.settings = s.engine.settings) (hdrafts : P s'.drafts) :
    Fits P t [a] s :=
  fits_cons h hsettings (fits_nil hdrafts)

theorem fits_of_refused {rest : List AssemblyAction} {fault : GrammarFault}
    (h : s.attempt a t = .error fault) (hfault : fault.Foreseen s.engine.settings) :
    Fits P t (a :: rest) s := by
  rw [Fits, Run.perform, operate, h]
  exact hfault

/-- An action that changes the model. -/
theorem fits_of_change {β : Type} {x : Except (ModelFault Float) β} {f : β → Assembly}
    (h : s.attempt a t = orModelFault t x >>= fun b => .ok (f b))
    (hok : ∀ b, x = .ok b → (f b).engine.settings = s.engine.settings ∧ P (f b).drafts)
    (herror : ∀ fault, x = .error fault →
      GrammarFault.Foreseen s.engine.settings (.model t.excerpt fault)) : Fits P t [a] s := by
  cases x with
  | ok b => exact fits_of_attempt h (hok b rfl).1 (hok b rfl).2
  | error fault => exact fits_of_refused h (herror fault rfl)

theorem fits_addTerm {d : TermDraft} {u : Universe Float} {center value : Float}
    (hcenter : d.center = some center) (hvalue : d.value = some value)
    (hP : ∀ u', P (.ofUniverse u' :: below)) :
    Fits P t [.addTerm] ⟨engine, .ofTerm d :: .ofUniverse u :: below⟩ := by
  obtain ⟨name, _, _⟩ := d
  cases hcenter
  cases hvalue
  exact fits_of_change (f := fun u' => ⟨engine, .ofUniverse u' :: below⟩) rfl
    (fun u' _ => ⟨rfl, hP u'⟩) fun fault h => Universe.foreseen_of_add h _

theorem fits_addPredicate {d : PredicateDraft} {r : Rule} {antecedent term : String}
    (hantecedent : d.antecedent = some antecedent) (hterm : d.term = some term)
    (hP : ∀ r', P (.ofRule r' :: below)) :
    Fits P t [.addPredicate] ⟨engine, .ofPredicate d :: .ofRule r :: below⟩ := by
  obtain ⟨_, _⟩ := d
  cases hantecedent
  cases hterm
  exact fits_of_change (f := fun r' => ⟨engine, .ofRule r' :: below⟩) rfl
    (fun r' _ => ⟨rfl, hP r'⟩) fun fault h => Rule.foreseen_of_addPredicate h _

theorem fits_addUniverse {u : Universe Float} (hP : P below) :
    Fits P t [.addUniverse] ⟨engine, .ofUniverse u :: below⟩ := by
  by_cases hname : u.name = ""
  · exact fits_of_refused (if_pos hname) (.namelessUniverse _)
  · refine fits_of_change (f := fun engine' => ⟨engine', below⟩) (if_neg hname) ?_ ?_
    · intro engine' h
      obtain ⟨-, -, rfl⟩ := Engine.addUniverse_eq_ok_iff.1 h
      exact ⟨rfl, hP⟩
    · exact fun fault h => Engine.foreseen_of_addUniverse h _

theorem fits_addRuleBase {rb : RuleBase} (hP : P below) :
    Fits P t [.addRuleBase] ⟨engine, .ofRuleBase rb :: below⟩ := by
  by_cases hname : rb.name = ""
  · exact fits_of_refused (if_pos hname) (.namelessRuleBase _)
  · refine fits_of_change (f := fun engine' => ⟨engine', below⟩) (if_neg hname) ?_ ?_
    · intro engine' h
      obtain ⟨-, rfl⟩ := Engine.addRuleBase_eq_ok_iff.1 h
      exact ⟨rfl, hP⟩
    · exact fun fault h => Engine.foreseen_of_addRuleBase h _

theorem fits_addRule {r : Rule} {rb : RuleBase} (hP : ∀ rb', P (.ofRuleBase rb' :: below)) :
    Fits P t [.addRule] ⟨engine, .ofRule r :: .ofRuleBase rb :: below⟩ := by
  by_cases hname : r.consequent = ""
  · exact fits_of_refused (if_pos hname) (.ruleWithoutConsequent _)
  · exact fits_of_attempt (if_neg hname) rfl (hP _)

end Fits

end Assembly

namespace PhraseState

/-- The drafts that are open in a state, and the fields of the innermost one that are set. -/
def Opens : PhraseState → List Draft → Prop
  | start, drafts => drafts = []
  | universeName, drafts | universeHead, drafts | universeDescription, drafts
  | universeBody, drafts => ∃ u, drafts = [.ofUniverse u]
  | termCenter, drafts => ∃ d u, drafts = [.ofTerm d, .ofUniverse u]
  | termValue, drafts =>
    ∃ d u center, drafts = [.ofTerm d, .ofUniverse u] ∧ d.center = some center
  | ruleBaseName, drafts | ruleBaseHead, drafts | ruleBaseDescription, drafts
  | ruleBaseBody, drafts => ∃ rb, drafts = [.ofRuleBase rb]
  | ruleConsequence, drafts | ruleHead, drafts | ruleDescription, drafts | ruleWhen, drafts
  | predicateStart, drafts | predicateNext, drafts =>
    ∃ r rb, drafts = [.ofRule r, .ofRuleBase rb]
  | predicateIs, drafts | predicateValue, drafts =>
    ∃ d r rb antecedent, drafts = [.ofPredicate d, .ofRule r, .ofRuleBase rb] ∧
      d.antecedent = some antecedent

end PhraseState

/-- Whatever token the move is made on, it fits the drafts and leaves those of the state that it
leads to. -/
def PhraseMove.Fits (m : PhraseMove) (s : Assembly) : Prop :=
  ∀ t, m.tokenClass.admits t = true → Assembly.Fits m.next.Opens t m.actions s

namespace PhraseMove.Fits

variable {actions : List AssemblyAction} {next : PhraseState} {s : Assembly}

theorem fits_text (h : ∀ content, Assembly.Fits next.Opens (.text content) actions s) :
    PhraseMove.Fits ⟨.text, actions, next⟩ s := by
  intro t ht
  obtain ⟨content, rfl⟩ := TokenClass.admits_text_iff.1 ht
  exact h content

theorem fits_number (h : ∀ value, Assembly.Fits next.Opens (.number value) actions s) :
    PhraseMove.Fits ⟨.number, actions, next⟩ s := by
  intro t ht
  obtain ⟨value, rfl⟩ := TokenClass.admits_number_iff.1 ht
  exact h value

theorem fits_keyword {word : String}
    (h : Assembly.Fits next.Opens (.keyword word) actions s) :
    PhraseMove.Fits ⟨.keyword word, actions, next⟩ s := by
  intro t ht
  obtain rfl := TokenClass.admits_keyword_iff.1 ht
  exact h

end PhraseMove.Fits

namespace PhraseState

open Assembly PhraseMove.Fits

variable {q : PhraseState} {s : Assembly}

theorem fits_of_opens (hq : q.Opens s.drafts) : ∀ m ∈ q.moves, m.Fits s := by
  obtain ⟨engine, drafts⟩ := s
  cases q <;>
    simp only [moves, List.forall_mem_cons, List.not_mem_nil, false_implies, implies_true, and_true]
  case start =>
    cases hq
    exact ⟨fits_keyword (fits_of_attempt rfl rfl ⟨_, rfl⟩),
      fits_keyword (fits_of_attempt rfl rfl ⟨_, rfl⟩)⟩
  case universeName =>
    obtain ⟨u, rfl⟩ := hq
    exact fits_text fun name => fits_of_attempt rfl rfl ⟨_, rfl⟩
  case universeHead =>
    obtain ⟨u, rfl⟩ := hq
    exact ⟨fits_keyword (fits_nil ⟨u, rfl⟩),
      fits_text fun name => fits_of_attempt rfl rfl ⟨_, u, rfl⟩,
      fits_keyword (fits_addUniverse rfl)⟩
  case universeDescription =>
    obtain ⟨u, rfl⟩ := hq
    exact fits_text fun text => fits_of_attempt rfl rfl ⟨_, rfl⟩
  case universeBody =>
    obtain ⟨u, rfl⟩ := hq
    exact ⟨fits_text fun name => fits_of_attempt rfl rfl ⟨_, u, rfl⟩,
      fits_keyword (fits_addUniverse rfl)⟩
  case termCenter =>
    obtain ⟨d, u, rfl⟩ := hq
    exact fits_number fun center => fits_of_attempt rfl rfl ⟨_, u, center, rfl, rfl⟩
  case termValue =>
    obtain ⟨d, u, center, rfl, hcenter⟩ := hq
    exact fits_number fun value => fits_cons rfl rfl (fits_addTerm hcenter rfl fun u' => ⟨u', rfl⟩)
  case ruleBaseName =>
    obtain ⟨rb, rfl⟩ := hq
    exact fits_text fun name => fits_of_attempt rfl rfl ⟨_, rfl⟩
  case ruleBaseHead =>
    obtain ⟨rb, rfl⟩ := hq
    exact ⟨fits_keyword (fits_nil ⟨rb, rfl⟩),
      fits_text fun text => fits_of_attempt rfl rfl ⟨_, rfl⟩,
      fits_keyword (fits_of_attempt rfl rfl ⟨_, rb, rfl⟩), fits_keyword (fits_addRuleBase rfl)⟩
  case ruleBaseDescription =>
    obtain ⟨rb, rfl⟩ := hq
    exact fits_text fun text => fits_of_attempt rfl rfl ⟨_, rfl⟩
  case ruleBaseBody =>
    obtain ⟨rb, rfl⟩ := hq
    exact ⟨fits_keyword (fits_of_attempt rfl rfl ⟨_, rb, rfl⟩), fits_keyword (fits_addRuleBase rfl)⟩
  case ruleConsequence =>
    obtain ⟨r, rb, rfl⟩ := hq
    exact fits_text fun consequent => fits_of_attempt rfl rfl ⟨_, rb, rfl⟩
  case ruleHead =>
    obtain ⟨r, rb, rfl⟩ := hq
    exact ⟨fits_keyword (fits_nil ⟨r, rb, rfl⟩),
      fits_text fun text => fits_of_attempt rfl rfl ⟨_, rb, rfl⟩,
      fits_keyword (fits_nil ⟨r, rb, rfl⟩)⟩
  case ruleDescription =>
    obtain ⟨r, rb, rfl⟩ := hq
    exact fits_text fun text => fits_of_attempt rfl rfl ⟨_, rb, rfl⟩
  case ruleWhen => exact fits_keyword (fits_nil hq)
  case predicateStart =>
    obtain ⟨r, rb, rfl⟩ := hq
    exact fits_text fun antecedent =>
      fits_cons rfl rfl (fits_of_attempt rfl rfl ⟨_, r, rb, antecedent, rfl, rfl⟩)
  case predicateIs => exact fits_keyword (fits_nil hq)
  case predicateValue =>
    obtain ⟨d, r, rb, antecedent, rfl, hantecedent⟩ := hq
    exact fits_text fun term =>
      fits_cons rfl rfl (fits_addPredicate hantecedent rfl fun r' => ⟨r', rb, rfl⟩)
  case predicateNext =>
    obtain ⟨r, rb, rfl⟩ := hq
    exact ⟨fits_keyword (fits_nil ⟨r, rb, rfl⟩), fits_keyword (fits_addRule fun rb' => ⟨rb', rfl⟩)⟩

/-- What is read from a state with the drafts of that state fails for foreseen reasons only. -/
theorem foreseen_of_parse {l : List (Token × Nat)} {ending : Except GrammarFault Nat}
    (hending : ∀ fault, ending = .error fault → fault.Lexical) (hq : q.Opens s.drafts)
    {fault : GrammarFault} (h : q.parse s l ending = .error fault) :
    fault.Foreseen s.engine.settings := by
  replace h := fails_of_parse h
  induction h with
  | ended _ _ fault => exact (hending fault rfl).foreseen _
  | @unclosed s _ _ hfinish =>
    -- between two blocks no draft is open
    rw [finish, show s.drafts = [] from hq] at hfinish
    cases hfinish
  | unfinished | stuck => exact .violation ..
  | @refused q s _ t m _ _ _ _ move perform =>
    obtain ⟨hm, ht⟩ := move?_eq_some_iff.1 move
    have hfits : Fits m.next.Opens t m.actions s := fits_of_opens hq m hm t ht
    simpa only [Fits, perform] using hfits
  | @later q s _ t m _ _ _ _ move perform _ ih =>
    obtain ⟨hm, ht⟩ := move?_eq_some_iff.1 move
    have hfits : Fits m.next.Opens t m.actions s := fits_of_opens hq m hm t ht
    rw [Fits, perform] at hfits
    rw [← hfits.1]
    exact ih hending hfits.2

end PhraseState

/-- With the built-in tables every text either compiles or fails for one of the foreseen reasons,
and never because the actions of the tables do not fit together. -/
theorem faults_builtin (settings : EngineSettings) (source : String) :
    (∃ e, compileWith none none settings source = .ok e) ∨
      ∃ fault, compileWith none none settings source = .error (.grammar fault) ∧
        fault.Foreseen settings ∧ ¬ fault.Misfit := by
  obtain ⟨l, ending, hyields, hlength, -, -⟩ := TokenStream.exists_yields source
  rw [compileWith_of_compile ofSources_none (compile_eq_parse settings hyields hlength)]
  cases hparse : PhraseState.start.parse (Assembly.start settings) l ending with
  | ok e => exact .inl ⟨e, rfl⟩
  | error fault =>
    have hending : ∀ cause, ending = .error cause → cause.Lexical := by
      rintro cause rfl
      exact hyields.lexical
    have hopens : PhraseState.start.Opens (Assembly.start settings).drafts := rfl
    have hforeseen := PhraseState.foreseen_of_parse hending hopens hparse
    exact .inr ⟨fault, rfl, hforeseen, hforeseen.not_misfit⟩

end FuzzyRules
