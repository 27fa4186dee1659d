import FuzzyRules.Proofs.Assembly.Union
import FuzzyRules.Proofs.Phrases.Models
import FuzzyRules.Proofs.RuleBase.Locality
import FuzzyRules.Proofs.Words.Joining

/-!
# Models one after the other

Between two blocks a compilation is as it was at the start, apart from the engine that it has made
so far. So two texts with a separator between them compile to the union of their engines, whichever
comes first, unless the second one defines a name that the first one has already.
-/

namespace FuzzyRules

open Engine

namespace PhraseState

variable {q : PhraseState} {s : Assembly} {ts : List Token} {l l' : List (Token × Nat)}
  {base e : Engine Float} {kind : NameKind} {name : String} {ending : Except GrammarFault Nat}

theorem Accepts.defines (h : q.Accepts s ts e) (hname : s.engine.Defines kind name) :
    e.Defines kind name := by
  induction ts generalizing q s with
  | nil =>
    obtain rfl := Assembly.finish_eq_ok h.2
    exact hname
  | cons t ts ih =>
    obtain ⟨m, s', -, hperform, hrest⟩ := h
    exact ih hrest (Assembly.defines_of_perform hperform hname)

/-- Behind tokens that are accepted the parser goes on from the start. -/
theorem parse_append (h : q.Accepts s (l.map Prod.fst) e) :
    q.parse s (l ++ l') ending = start.parse ⟨e, []⟩ l' ending := by
  induction l generalizing q s with
  | nil =>
    obtain ⟨rfl, hfinish⟩ := h
    obtain rfl := Assembly.finish_eq_ok hfinish
    rfl
  | cons entry l ih =>
    obtain ⟨m, s', hmove, hperform, hrest⟩ := h
    rw [List.cons_append, parse, hmove]
    simp only [hperform]
    exact ih hrest

/-- Tokens that are accepted are accepted on top of another engine, or the first name that both
define is reported. -/
theorem parse_union (h : q.Accepts s (l.map Prod.fst) e) (hapart : base.Apart s.engine)
    (line : Nat) :
    (q.parse ⟨base.union s.engine, s.drafts⟩ l (.ok line) = .ok (base.union e) ∧ base.Apart e) ∨
      ∃ fault, q.parse ⟨base.union s.engine, s.drafts⟩ l (.ok line) = .error fault ∧
        Assembly.Taken base e fault := by
  induction l generalizing q s with
  | nil =>
    obtain ⟨rfl, hfinish⟩ := h
    obtain rfl := Assembly.finish_eq_ok hfinish
    exact .inl ⟨rfl, hapart⟩
  | cons entry l ih =>
    obtain ⟨m, s', hmove, hperform, hrest⟩ := h
    rw [parse, hmove]
    rcases Assembly.perform_union hperform hapart with
      ⟨hunion, hapart'⟩ | ⟨s₁, fault, hunion, htaken⟩
    · simp only [hunion]
      exact ih hrest hapart'
    · simp only [hunion]
      exact .inr ⟨fault, rfl, htaken.mono fun _ _ => hrest.defines⟩

end PhraseState

section Joining

variable {settings : EngineSettings} {source a b s : String} {ts us : List Token}
  {e ea eb : Engine Float}

theorem accepts_of_compile (h : compileWith none none settings source = .ok e) :
    ∃ ts, (TokenStream.ofText wordTable source).tokens = some (.ok ts) ∧
      PhraseState.start.Accepts (Assembly.start settings) ts e := by
  obtain ⟨blocks, htokens, hnamed, hbuild⟩ := compile_eq_ok_iff.1 h
  exact ⟨_, htokens, PhraseState.accepts_start.2 ⟨blocks, rfl, hnamed, hbuild⟩⟩

theorem frame_of_compile (h : compileWith none none settings source = .ok e) :
    e.settings = settings ∧ e.state = .empty := by
  obtain ⟨blocks, -, -, hbuild⟩ := compile_eq_ok_iff.1 h
  exact ⟨Traversal.foldlM_preserves (g := Engine.settings) Block.settings_of_add hbuild,
    Traversal.foldlM_preserves (g := Engine.state) Block.state_of_add hbuild⟩

theorem union_new (base : Engine Float) : base.union (Engine.new base.settings) =
    { base with state := .empty } := rfl

/-- The second text is compiled on top of what the first one has come to. -/
theorem compile_join (ha : compileWith none none settings a = .ok ea)
    (hb : compileWith none none settings b = .ok eb) (hne : s ≠ "")
    (hs : ∀ c ∈ s.toList, IsSeparator c) :
    (compileWith none none settings (a ++ s ++ b) = .ok (ea.union eb) ∧ ea.Apart eb) ∨
      ∃ fault, compileWith none none settings (a ++ s ++ b) = .error (.grammar fault) ∧
        Assembly.Taken ea eb fault := by
  obtain ⟨ts, hts, haccepts⟩ := accepts_of_compile ha
  obtain ⟨us, hus, haccepts'⟩ := accepts_of_compile hb
  obtain ⟨rfl, hstate⟩ := frame_of_compile ha
  obtain ⟨l, ending, hyields, hlength, htokens, -⟩ := TokenStream.exists_yields (a ++ s ++ b)
  have hl := htokens.symm.trans (TokenStream.tokens_join hts hus hne hs)
  cases ending with
  | error fault => cases hl
  | ok line =>
    obtain ⟨l₁, l₂, rfl, rfl, rfl⟩ := List.map_eq_append_iff.1 (Except.ok.inj (Option.some.inj hl))
    have hengine : (⟨ea, []⟩ : Assembly) = ⟨ea.union (Engine.new ea.settings), []⟩ := by
      rw [union_new, ← hstate]
    have hapart : ea.Apart (Engine.new ea.settings) := by
      intro kind name _ hnew
      cases kind <;> cases hnew
    rw [compileWith_of_compile ofSources_none (compile_eq_parse _ hyields hlength),
      PhraseState.parse_append haccepts, hengine]
    rcases PhraseState.parse_union haccepts' hapart line with
      ⟨hparse, hapart'⟩ | ⟨fault, hparse, htaken⟩
    · exact .inl ⟨congrArg (Except.mapError Failure.grammar) hparse, hapart'⟩
    · exact .inr ⟨fault, congrArg (Except.mapError Failure.grammar) hparse, htaken⟩

theorem compile_join_of_apart (ha : compileWith none none settings a = .ok ea)
    (hb : compileWith none none settings b = .ok eb) (hne : s ≠ "")
    (hs : ∀ c ∈ s.toList, IsSeparator c) (hapart : ea.Apart eb) :
    compileWith none none settings (a ++ s ++ b) = .ok (ea.union eb) := by
  rcases compile_join ha hb hne hs with ⟨h, -⟩ | ⟨fault, -, htaken⟩
  · exact h
  · obtain ⟨seen, hbase, hname⟩ := htaken
    exact absurd hname (hapart _ _ hbase)

theorem compile_join_of_not_apart (ha : compileWith none none settings a = .ok ea)
    (hb : compileWith none none settings b = .ok eb) (hne : s ≠ "")
    (hs : ∀ c ∈ s.toList, IsSeparator c) (hapart : ¬ ea.Apart eb) :
    ∃ fault, compileWith none none settings (a ++ s ++ b) = .error (.grammar fault) ∧
      Assembly.Taken ea eb fault := by
  rcases compile_join ha hb hne hs with ⟨-, h⟩ | h
  · exact absurd h hapart
  · exact h

/-- Two texts with separators between them compile to what is in both, in either order, unless they
define the same name. A rule base may come before a universe that it names. -/
theorem compile_append (ha : compileWith none none settings a = .ok ea)
    (hb : compileWith none none settings b = .ok eb) (hne : s ≠ "")
    (hs : ∀ c ∈ s.toList, IsSeparator c) :
    ((∃ e, compileWith none none settings (a ++ s ++ b) = .ok e) ↔
      (∀ name, ea.universes.contains name = true → ¬ eb.universes.contains name = true) ∧
        ∀ name, ea.ruleBases.contains name = true → ¬ eb.ruleBases.contains name = true) ∧
    (∀ e, compileWith none none settings (a ++ s ++ b) = .ok e →
      (∀ name u, e.universes.get? name = some u ↔
        ea.universes.get? name = some u ∨ eb.universes.get? name = some u) ∧
      (∀ name rb, e.ruleBases.get? name = some rb ↔
        ea.ruleBases.get? name = some rb ∨ eb.ruleBases.get? name = some rb) ∧
      compileWith none none settings (b ++ s ++ a) = .ok e ∧
      ∀ owner rb name u, ea.ruleBases.get? owner = some rb → rb.Names name →
        eb.universes.get? name = some u →
          e.ruleBases.get? owner = some rb ∧ e.universes.get? name = some u) ∧
    ((¬ ∃ e, compileWith none none settings (a ++ s ++ b) = .ok e) →
      (∃ seen kind name, compileWith none none settings (a ++ s ++ b) =
        .error (.grammar (.model seen (.duplicate kind name .engine)))) ∧
      ¬ ∃ e, compileWith none none settings (b ++ s ++ a) = .ok e) := by
  have hiff : (∃ e, compileWith none none settings (a ++ s ++ b) = .ok e) ↔ ea.Apart eb := by
    refine ⟨?_, fun hapart => ⟨_, compile_join_of_apart ha hb hne hs hapart⟩⟩
    rintro ⟨e, he⟩
    rcases compile_join ha hb hne hs with ⟨-, hapart⟩ | ⟨fault, hfault, -⟩
    · exact hapart
    · cases he.symm.trans hfault
  refine ⟨hiff.trans apart_iff, ?_, ?_⟩
  · intro e he
    have hapart := hiff.1 ⟨e, he⟩
    cases he.symm.trans (compile_join_of_apart ha hb hne hs hapart)
    obtain ⟨hsettings, hstate⟩ := frame_of_compile ha
    obtain ⟨hsettings', hstate'⟩ := frame_of_compile hb
    refine ⟨fun _ _ => get?_universes_union hapart, fun _ _ => get?_ruleBases_union hapart, ?_, ?_⟩
    · rw [union_comm hapart (hsettings.trans hsettings'.symm) (hstate.trans hstate'.symm)]
      exact compile_join_of_apart hb ha hne hs hapart.symm
    · intro owner rb name u hrb _ hu
      exact ⟨(get?_ruleBases_union hapart).2 (.inl hrb), (get?_universes_union hapart).2 (.inr hu)⟩
  · intro hfails
    rw [hiff] at hfails
    obtain ⟨_, hfault, ⟨seen, -, -⟩⟩ := compile_join_of_not_apart ha hb hne hs hfails
    refine ⟨⟨seen, _, _, hfault⟩, ?_⟩
    rintro ⟨e, he⟩
    obtain ⟨fault', hfault', -⟩ :=
      compile_join_of_not_apart hb ha hne hs fun hapart => hfails hapart.symm
    cases he.symm.trans hfault'

/-- A rule base about a universe that is defined in another text. -/
def stairsText : String := "rulebase \"y\" rule \"up\" when \"x\" is \"low\" end end"

def stairs : Engine Float :=
  ⟨{}, {}, .ofList [("y", ⟨"y", none, [⟨"up", none, .ofList [("x", "low")]⟩]⟩)], {}⟩

def groundText : String := "universe \"x\" \"low\" 0 1 end"

def ground : Engine Float := ⟨{}, .ofList [("x", ⟨"x", none, [⟨"low", 0, 1⟩]⟩)], {}, {}⟩

theorem compile_stairs : compileWith none none {} stairsText = .ok stairs := by
  have h : builtinDialect.compile {} stairsText = some (.ok stairs) := by decide +kernel
  exact compileWith_of_compile ofSources_none h

theorem compile_ground : compileWith none none {} groundText = .ok ground := by
  have h : builtinDialect.compile {} groundText = some (.ok ground) := by decide +kernel
  exact compileWith_of_compile ofSources_none h

/-- The rule base is read before the universe that its rule is about. -/
theorem compile_append_stairs : ", " ≠ "" ∧ (∀ c ∈ ", ".toList, IsSeparator c) ∧
    ∃ e, compileWith none none {} (stairsText ++ ", " ++ groundText) = .ok e ∧
      compileWith none none {} (groundText ++ ", " ++ stairsText) = .ok e ∧
      e.universes.get? "x" = some ⟨"x", none, [⟨"low", 0, 1⟩]⟩ ∧
      e.ruleBases.get? "y" = some ⟨"y", none, [⟨"up", none, .ofList [("x", "low")]⟩]⟩ := by
  have hne : ", " ≠ "" := by decide
  have hblank : IsSeparator ' ' := by decide +kernel
  have hs : ∀ c ∈ ", ".toList, IsSeparator c :=
    List.forall_mem_cons.2 ⟨.inr rfl, List.forall_mem_singleton.2 hblank⟩
  obtain ⟨hiff, hunion, -⟩ := compile_append compile_stairs compile_ground hne hs
  have hnames : (∀ name, stairs.universes.contains name = true →
      ¬ ground.universes.contains name = true) ∧
        ∀ name, stairs.ruleBases.contains name = true →
          ¬ ground.ruleBases.contains name = true := by
    constructor
    · intro name hstairs
      cases hstairs
    · intro name _ hground
      cases hground
  obtain ⟨e, he⟩ := hiff.2 hnames
  obtain ⟨huniverses, hruleBases, hswapped, -⟩ := hunion e he
  have hx : e.universes.get? "x" = some ⟨"x", none, [⟨"low", 0, 1⟩]⟩ :=
    (huniverses _ _).2 (.inr rfl)
  have hy : e.ruleBases.get? "y" =
      some ⟨"y", none, [⟨"up", none, .ofList [("x", "low")]⟩]⟩ := (hruleBases _ _).2 (.inl rfl)
  exact ⟨hne, hs, e, he, hswapped, hx, hy⟩

end Joining

end FuzzyRules
