import FuzzyRules.Automaton.Reader
import FuzzyRules.Proofs.Token.Bounds
import FuzzyRules.Proofs.Token.Failures

/-!
# Tokens made and tokens pulled

A ledger keeps every token that an action makes. A sink holds one token at a time, and a later one
takes its place. So from each transition that makes tokens the last of them is pulled, in the order
in which the transitions are taken, and no token is lost where a transition makes one at most.
-/

namespace FuzzyRules

def LexAction.emits : LexAction → Bool
  | .push => false
  | _ => true

/-- Characters that are no token yet, and all tokens that have been made. -/
structure Ledger where
  buffer : String
  made : List Token

def Ledger.operate : Operator LexAction (Option Char) Ledger GrammarFault := fun a item l =>
  let after := Sink.operate a item ⟨l.buffer, none, 0⟩
  (⟨after.1.buffer, l.made ++ after.1.ready.toList⟩, after.2)

/-- A transition that has been taken, with the tokens that its actions have made. -/
structure Taken (t : Table CharClass LexAction) where
  transition : Transition CharClass LexAction t.size
  made : List Token

/-- A run over a text, with the characters that are no token yet. -/
structure Course (t : Table CharClass LexAction) where
  rest : List Char
  run : Run t
  buffer : String

namespace Course

variable {t : Table CharClass LexAction}

def start (t : Table CharClass LexAction) (source : String) : Course t :=
  ⟨source.toList, Run.start t, ""⟩

/-- The transition that is taken next. There is none if the run has accepted or the step fails. -/
def step (c : Course t) : Option (Taken t × Course t) :=
  if c.run.accepted then none
  else
    match c.run.enabled? c.rest.head?,
      c.run.step Ledger.operate c.rest.head? 0 ⟨c.buffer, []⟩ with
    | some tr, ⟨run, ledger, .ok transit⟩ =>
      some (⟨tr, ledger.made⟩,
        ⟨if transit.consumed then c.rest.tail else c.rest, run, ledger.buffer⟩)
    | _, _ => none

def taken : Nat → Course t → List (Taken t)
  | 0, _ => []
  | k + 1, c =>
    match c.step with
    | none => []
    | some (e, c') => e :: taken k c'

end Course

namespace Taken

variable {t : Table CharClass LexAction}

/-- The last token of each transition that has made any. -/
def lasts (es : List (Taken t)) : List Token := es.filterMap fun e => e.made.getLast?

theorem lasts_cons (e : Taken t) (es : List (Taken t)) :
    lasts (e :: es) = e.made.getLast?.toList ++ lasts es := by
  cases hlast : e.made.getLast? <;> simp [lasts, hlast]

theorem lasts_eq_flatMap {es : List (Taken t)} (h : ∀ e ∈ es, e.made.length ≤ 1) :
    lasts es = es.flatMap made := by
  induction es with
  | nil => rfl
  | cons e es ih =>
    obtain ⟨he, hes⟩ := List.forall_mem_cons.1 h
    have hmade : e.made.getLast?.toList = e.made := by
      rcases hmade : e.made with _ | ⟨token, _ | ⟨other, more⟩⟩
      · rfl
      · rfl
      · simp [hmade] at he
    rw [lasts_cons, hmade, ih hes, List.flatMap_cons]

end Taken

namespace Ledger

variable {a : LexAction} {item : Option Char} {l l' : Ledger} {actions : List LexAction}

/-- An action makes one token or none, which is not the end of the text. -/
theorem exists_made_of_operate (h : operate a item l = (l', .ok ())) : ∃ new,
    l'.made = l.made ++ new ∧ new.length = (if a.emits then 1 else 0) ∧ .finish ∉ new := by
  cases a with
  | push =>
    cases item with
    | none => cases h
    | some c =>
      cases h
      exact ⟨[], rfl, rfl, nofun⟩
  | keyword =>
    cases h
    exact ⟨[_], rfl, rfl, by simp⟩
  | text =>
    cases h
    exact ⟨[_], rfl, rfl, by simp⟩
  | number =>
    simp only [operate, Sink.operate] at h
    split at h
    · cases h
      exact ⟨[_], rfl, rfl, by simp⟩
    · cases h

theorem exists_made_of_perform (h : Run.perform operate item actions l = (l', .ok ())) : ∃ new,
    l'.made = l.made ++ new ∧ new.length = actions.countP LexAction.emits ∧ .finish ∉ new := by
  induction actions generalizing l with
  | nil =>
    cases h
    exact ⟨[], (List.append_nil _).symm, rfl, nofun⟩
  | cons a rest ih =>
    obtain ⟨l₁, hop, h⟩ := Run.exists_of_perform_cons h
    obtain ⟨new, hnew, hlength, hproper⟩ := exists_made_of_operate hop
    obtain ⟨more, hmore, hlength', hproper'⟩ := ih h
    refine ⟨new ++ more, by rw [hmore, hnew, List.append_assoc], ?_, by simp [hproper, hproper']⟩
    rw [List.length_append, hlength, hlength', List.countP_cons, Nat.add_comm]

end Ledger

namespace Sink

/-- The sink holds the last token of the ledger. -/
structure Follows (sink : Sink) (l : Ledger) : Prop where
  buffer : sink.buffer = l.buffer
  ready : sink.ready = l.made.getLast?

inductive Agrees : Sink × Except GrammarFault Unit → Ledger × Except GrammarFault Unit → Prop
  | ok {sink : Sink} {l : Ledger} (follows : sink.Follows l) : Agrees (sink, .ok ()) (l, .ok ())
  | error (sink : Sink) (l : Ledger) (fault fault' : GrammarFault) :
      Agrees (sink, .error fault) (l, .error fault')

variable {sink : Sink} {l : Ledger}

theorem Follows.agrees_operate (h : sink.Follows l) (a : LexAction) (item : Option Char) :
    Agrees (Sink.operate a item sink) (Ledger.operate a item l) := by
  obtain ⟨buffer, ready, line⟩ := sink
  obtain rfl : buffer = l.buffer := h.buffer
  cases a with
  | push =>
    cases item with
    | none => exact .error ..
    | some c => exact .ok ⟨rfl, by simpa [Sink.operate] using h.ready⟩
  | keyword => exact .ok ⟨rfl, by simp [Sink.operate]⟩
  | text => exact .ok ⟨rfl, by simp [Sink.operate]⟩
  | number =>
    cases hliteral : Decimal.literal? l.buffer with
    | none =>
      simp only [Ledger.operate, Sink.operate, hliteral]
      exact .error ..
    | some x =>
      simp only [Ledger.operate, Sink.operate, hliteral]
      exact .ok ⟨rfl, by simp⟩

theorem Follows.agrees_perform (h : sink.Follows l) (actions : List LexAction)
    (item : Option Char) :
    Agrees (Run.perform Sink.operate item actions sink)
      (Run.perform Ledger.operate item actions l) := by
  induction actions generalizing sink l with
  | nil => exact .ok h
  | cons a rest ih =>
    rw [Run.perform, Run.perform]
    have hagrees := h.agrees_operate a item
    revert hagrees
    generalize Sink.operate a item sink = after
    generalize Ledger.operate a item l = after'
    rintro (⟨hfollows⟩ | _)
    · exact ih hfollows
    · exact .error ..

end Sink

namespace Course

variable {t : Table CharClass LexAction} {c c' : Course t} {e : Taken t}

theorem step_of_accepted (h : c.run.accepted = true) : c.step = none := by
  rw [step, if_pos h]

theorem step_of_error {run : Run t} {ledger : Ledger} {fault : StepFault GrammarFault}
    (h : c.run.step Ledger.operate c.rest.head? 0 ⟨c.buffer, []⟩ = ⟨run, ledger, .error fault⟩) :
    c.step = none := by
  rw [step, h]
  split_ifs
  · rfl
  · cases c.run.enabled? c.rest.head? <;> rfl

theorem step_of_ok {tr : Transition CharClass LexAction t.size} {run : Run t} {ledger : Ledger}
    {transit : Transit} (hc : c.run.accepted = false)
    (henabled : c.run.enabled? c.rest.head? = some tr)
    (h : c.run.step Ledger.operate c.rest.head? 0 ⟨c.buffer, []⟩ = ⟨run, ledger, .ok transit⟩) :
    c.step = some (⟨tr, ledger.made⟩,
      ⟨if transit.consumed then c.rest.tail else c.rest, run, ledger.buffer⟩) := by
  simp only [step, hc, henabled, h, Bool.false_eq_true, if_false]

theorem taken_of_none (h : c.step = none) (k : Nat) : c.taken k = [] := by
  cases k with
  | zero => rfl
  | succ k => rw [taken, h]

theorem taken_of_some (h : c.step = some (e, c')) (k : Nat) :
    c.taken (k + 1) = e :: c'.taken k := by
  rw [taken, h]

end Course

namespace TokenStream

variable {t : Table CharClass LexAction} {s s' : TokenStream t}

def course (s : TokenStream t) : Course t := ⟨s.rest, s.run, s.sink.buffer⟩

/-- A step of a stream fails if there is no transition to be taken. Otherwise it makes the last
token ready that the transition makes. -/
theorem step_course (hs : s.Fresh) (haccepted : s.run.accepted = false) :
    (∃ s' fault, s.advance = (s', .error fault) ∧ s.course.step = none) ∨
      ∃ s' e, s.advance = (s', .ok e.made.getLast?) ∧ s.course.step = some (e, s'.course) ∧
        s'.Fresh ∧ e.made.length = e.transition.actions.countP LexAction.emits ∧
          .finish ∉ e.made := by
  cases henabled : s.run.enabled? s.rest.head? with
  | none =>
    exact .inl ⟨_, _, advance_of_failed (Run.step_of_disabled _ _ haccepted henabled),
      Course.step_of_error (Run.step_of_disabled _ _ haccepted henabled)⟩
  | some tr =>
    have hfollows : s.openSink.Follows ⟨s.sink.buffer, []⟩ := ⟨rfl, hs.ready⟩
    have hagrees := hfollows.agrees_perform tr.actions s.rest.head?
    rcases hsink : Run.perform Sink.operate s.rest.head? tr.actions s.openSink with ⟨sink, result⟩
    rcases hledger : Run.perform Ledger.operate s.rest.head? tr.actions ⟨s.sink.buffer, []⟩ with
      ⟨ledger, result'⟩
    rw [hsink, hledger] at hagrees
    cases hagrees with
    | error =>
      have hfails := Run.step_of_refused s.line haccepted henabled hsink
      have hfails' := Run.step_of_refused 0 haccepted henabled hledger
      exact .inl ⟨_, _, advance_of_failed hfails, Course.step_of_error (c := s.course) hfails'⟩
    | ok hfollows' =>
      by_cases hidle : s.run.idleAfter tr ≤ t.size
      · have hstep := Run.step_of_performed 0 haccepted henabled hledger hidle
        obtain ⟨new, hnew, hlength, hproper⟩ := Ledger.exists_made_of_perform hledger
        obtain rfl : ledger.made = new := hnew
        refine .inr ⟨s.follow tr sink, ⟨tr, ledger.made⟩, ?_, ?_, fresh_follow sink hidle, hlength,
          hproper⟩
        · rw [advance_of_performed haccepted henabled hsink hidle, hfollows'.ready]
        · rw [Course.step_of_ok (c := s.course) haccepted henabled hstep, course, follow,
            hfollows'.buffer]
          rfl
      · have hlt := Nat.lt_of_not_le hidle
        have hfails := Run.step_of_stalled s.line haccepted henabled hsink hlt
        have hfails' := Run.step_of_stalled 0 haccepted henabled hledger hlt
        exact .inl ⟨_, _, advance_of_failed hfails, Course.step_of_error (c := s.course) hfails'⟩

theorem step_of_fault (hs : s.Fresh) (haccepted : s.run.accepted = false) {fault : GrammarFault}
    (h : s.advance = (s', .error fault)) : s.course.step = none := by
  rcases step_course hs haccepted with ⟨_, _, -, hstep⟩ | ⟨_, _, hadvance, -⟩
  · exact hstep
  · cases h.symm.trans hadvance

theorem exists_taken (hs : s.Fresh) (haccepted : s.run.accepted = false) {token? : Option Token}
    (h : s.advance = (s', .ok token?)) : ∃ e, e.made.getLast? = token? ∧
      s.course.step = some (e, s'.course) ∧ s'.Fresh := by
  rcases step_course hs haccepted with ⟨_, _, hadvance, -⟩ | ⟨s₁, e, hadvance, hstep, hs₁, -⟩
  · cases h.symm.trans hadvance
  · rw [h, Prod.mk.injEq, Except.ok.injEq] at hadvance
    obtain ⟨rfl, hlast⟩ := hadvance
    exact ⟨e, hlast.symm, hstep, hs₁⟩

theorem course_cases (hs : s.Fresh) : s.course.step = none ∨
    ∃ s' e, s.run.accepted = false ∧ s.advance = (s', .ok e.made.getLast?) ∧
      s.course.step = some (e, s'.course) ∧ s'.Fresh ∧
        e.made.length = e.transition.actions.countP LexAction.emits ∧ .finish ∉ e.made := by
  cases haccepted : s.run.accepted with
  | true => exact .inl (Course.step_of_accepted haccepted)
  | false =>
    rcases step_course hs haccepted with ⟨_, _, -, hstep⟩ | ⟨s', e, htaken⟩
    · exact .inl hstep
    · exact .inr ⟨s', e, rfl, htaken⟩

end TokenStream

namespace Course

variable {t : Table CharClass LexAction} {c c' : Course t} {e : Taken t} {k : Nat}
  {results ending : List (Except GrammarFault Token)}

def Over (c : Course t) (k : Nat) : Prop := ∀ more, c.taken (k + more) = c.taken k

/-- What pulls come to when no transition is left to be taken: a fault, with anything behind it, or
the end of the text. -/
inductive Ending : List (Except GrammarFault Token) → Prop
  | fault (fault : GrammarFault) (more : List (Except GrammarFault Token)) :
      Ending (.error fault :: more)
  | finish (m : Nat) : Ending (List.replicate m (.ok .finish))

/-- The results are the last tokens of the first transitions, and what comes behind them comes when
no transition is left. -/
def Delivers (c : Course t) (results : List (Except GrammarFault Token)) : Prop :=
  ∃ k ending, results = (Taken.lasts (c.taken k)).map .ok ++ ending ∧
    (ending = [] ∨ c.Over k ∧ Ending ending)

theorem Over.of_none (h : c.step = none) : c.Over 0 :=
  fun _ => (taken_of_none h _).trans (taken_of_none h _).symm

theorem Over.of_some (h : c.step = some (e, c')) (h' : c'.Over k) : c.Over (k + 1) := by
  intro more
  rw [Nat.add_right_comm, taken_of_some h, taken_of_some h, h']

theorem delivers_nil (c : Course t) : c.Delivers [] := ⟨0, [], rfl, .inl rfl⟩

theorem Delivers.of_none (h : c.step = none) (hending : Ending ending) : c.Delivers ending :=
  ⟨0, ending, rfl, .inr ⟨.of_none h, hending⟩⟩

theorem Delivers.of_some (h : c.step = some (e, c')) (hresults : c'.Delivers results) :
    c.Delivers ((e.made.getLast?.toList).map .ok ++ results) := by
  obtain ⟨k, ending, rfl, hending⟩ := hresults
  refine ⟨k + 1, ending, ?_, hending.imp_right fun h' => ⟨.of_some h h'.1, h'.2⟩⟩
  rw [taken_of_some h, Taken.lasts_cons, List.map_append, List.append_assoc]

/-- What a pull comes to behind a course: a fault, the end of the text or the next token. -/
inductive Answers (c : Course t) : TokenStream t × Except GrammarFault Token → Prop
  | fault {s : TokenStream t} {fault : GrammarFault}
      (delivers : ∀ more, c.Delivers (.error fault :: more)) : Answers c (s, .error fault)
  | finish {s : TokenStream t} (accepted : s.run.accepted = true)
      (delivers : ∀ m, c.Delivers (List.replicate m (.ok .finish))) : Answers c (s, .ok .finish)
  | token {s : TokenStream t} {token : Token} (fresh : s.Fresh)
      (delivers : ∀ results, s.course.Delivers results → c.Delivers (.ok token :: results)) :
      Answers c (s, .ok token)

theorem Answers.of_silent {x : TokenStream t × Except GrammarFault Token}
    (h : c.step = some (e, c')) (hsilent : e.made.getLast? = none) (hx : c'.Answers x) :
    c.Answers x := by
  have hlift {results} (hresults : c'.Delivers results) : c.Delivers results := by
    have hdelivers := Delivers.of_some h hresults
    rwa [hsilent] at hdelivers
  cases hx with
  | fault delivers => exact .fault fun more => hlift (delivers more)
  | finish accepted delivers => exact .finish accepted fun m => hlift (delivers m)
  | token fresh delivers => exact .token fresh fun results h => hlift (delivers results h)

end Course

namespace TokenStream

variable {t : Table CharClass LexAction} {s s' : TokenStream t} {n : Nat}
  {results : List (Except GrammarFault Token)}

theorem answers_of_trail {l : List (TokenStream t)} {x : TokenStream t × Except GrammarFault Token}
    (h : Trail s l x) (hs : s.Fresh) : s.course.Answers x := by
  induction h with
  | accepted haccepted =>
    have hstep := Course.step_of_accepted (c := course _) haccepted
    exact .finish haccepted fun m => .of_none hstep (.finish m)
  | fault haccepted advance =>
    have hstep := step_of_fault hs haccepted advance
    exact .fault fun more => .of_none hstep (.fault _ more)
  | token haccepted advance =>
    obtain ⟨e, hlast, hstep, hs'⟩ := exists_taken hs haccepted advance
    refine .token hs' fun results hresults => ?_
    have hdelivers := Course.Delivers.of_some hstep hresults
    rwa [hlast] at hdelivers
  | silent haccepted advance _ ih =>
    obtain ⟨e, hlast, hstep, hs'⟩ := exists_taken hs haccepted advance
    exact .of_silent hstep hlast (ih hs')

theorem delivers_of_pulls (hs : s.Fresh) (h : s.pulls n = some results) :
    s.course.Delivers results := by
  induction n generalizing s results with
  | zero =>
    cases h
    exact Course.delivers_nil _
  | succ n ih =>
    rw [pulls] at h
    cases hnext : s.next with
    | none => simp [hnext] at h
    | some x =>
      simp only [hnext] at h
      obtain ⟨more, hmore, rfl⟩ := Option.map_eq_some_iff.1 h
      cases answers_of_trail (trail_of_pull hnext) hs with
      | fault delivers => exact delivers more
      | finish accepted delivers =>
        rw [pulls_of_accepted accepted] at hmore
        cases hmore
        exact delivers (n + 1)
      | token fresh delivers => exact delivers more (ih fresh hmore)

theorem pulls_eq_of_silent (hs : s.Fresh) (hs' : s'.Fresh) (haccepted : s.run.accepted = false)
    (h : s.advance = (s', .ok none)) (n : Nat) : s.pulls n = s'.pulls n := by
  cases n with
  | zero => rfl
  | succ n => rw [pulls, pulls, next_eq_of_silent hs hs' haccepted h]

/-- As many pulls as there are last tokens of transitions come to these tokens. -/
theorem pulls_taken (hs : s.Fresh) (k : Nat) :
    s.pulls (Taken.lasts (s.course.taken k)).length =
      some ((Taken.lasts (s.course.taken k)).map .ok) := by
  induction k generalizing s with
  | zero => rfl
  | succ k ih =>
    rcases course_cases hs with hstep | ⟨s', e, haccepted, hadvance, hstep, hs', -⟩
    · rw [Course.taken_of_none hstep]
      rfl
    · rw [Course.taken_of_some hstep, Taken.lasts_cons]
      cases hlast : e.made.getLast? with
      | none =>
        rw [hlast] at hadvance
        exact (pulls_eq_of_silent hs hs' haccepted hadvance _).trans (ih hs')
      | some token =>
        rw [hlast] at hadvance
        rw [Option.toList_some, List.singleton_append, List.length_cons, pulls,
          next_of_token haccepted hadvance]
        simp [ih hs']

theorem made_of_taken (hs : s.Fresh) (k : Nat) : ∀ e ∈ s.course.taken k,
    e.made.length = e.transition.actions.countP LexAction.emits ∧ .finish ∉ e.made := by
  induction k generalizing s with
  | zero => exact nofun
  | succ k ih =>
    rcases course_cases hs with hstep | ⟨s', e, -, -, hstep, hs', hmade⟩
    · rw [Course.taken_of_none hstep]
      exact nofun
    · rw [Course.taken_of_some hstep]
      exact List.forall_mem_cons.2 ⟨hmade, ih hs'⟩

end TokenStream

/-- Whatever the words are, pulls come to the last token of each transition that makes any, in the
order in which the transitions are taken. A fault, or the end of the text, only comes when no
transition is left. Where no transition makes more than one token, none is lost. -/
theorem tokens_pulled (t : Table CharClass LexAction) (source : String) :
    (∀ k, ∀ e ∈ (Course.start t source).taken k,
      e.made.length = e.transition.actions.countP LexAction.emits ∧ .finish ∉ e.made) ∧
    (∀ k, (TokenStream.ofText t source).pulls
        (Taken.lasts ((Course.start t source).taken k)).length =
      some ((Taken.lasts ((Course.start t source).taken k)).map .ok)) ∧
    (∀ n results, (TokenStream.ofText t source).pulls n = some results →
      (Course.start t source).Delivers results) ∧
    ∀ k, (∀ e ∈ (Course.start t source).taken k,
        e.transition.actions.countP LexAction.emits ≤ 1) →
      Taken.lasts ((Course.start t source).taken k) =
        ((Course.start t source).taken k).flatMap Taken.made := by
  have hfresh := TokenStream.fresh_ofText t source
  have hmade (k : Nat) := TokenStream.made_of_taken hfresh k
  refine ⟨hmade, TokenStream.pulls_taken hfresh,
    fun n results h => TokenStream.delivers_of_pulls hfresh h,
    fun k hone => Taken.lasts_eq_flatMap fun e he => ?_⟩
  rw [(hmade k e he).1]
  exact hone e he

def twofoldText : String :=
  "[grammar]\nname=\"g\"\nstart=\"s\"\n[states.s]\ntransitions=[" ++
    "\x7bclass=\"digit\",actions=[\"push\",\"text\"],next=\"s\"\x7d," ++
    "\x7bclass=\"any\",actions=[\"push\",\"keyword\",\"text\"],next=\"accept\"\x7d]\n"

def twofold : Description :=
  ⟨"g", "s", .ofList [("s", [⟨"digit", ["push", "text"], "s", true⟩,
    ⟨"any", ["push", "keyword", "text"], "accept", true⟩])]⟩

/-- A table that makes one token of a digit and two of any other character. -/
def twofoldWords : Table CharClass LexAction :=
  ⟨"g", 1, Fin.last 0, [⟨"s", [⟨.digit, [.push, .text], .state (Fin.last 0), true⟩,
    ⟨.any, [.push, .keyword, .text], .accept, true⟩]⟩], rfl⟩

theorem read_twofoldText : Description.read twofoldText = .ok twofold := by decide +kernel

theorem resolve_twofold : twofold.resolve = .ok twofoldWords := rfl

/-- The first token of a transition that makes two is not pulled. -/
theorem Course.twofold_loses : ∃ d t, Description.read twofoldText = .ok d ∧ d.resolve = .ok t ∧
    (∀ k, ((Course.start t "a").taken (k + 1)).flatMap Taken.made = [.keyword "a", .text ""]) ∧
      (TokenStream.ofText t "a").pulls 2 = some [.ok (.text ""), .ok .finish] := by
  refine ⟨_, _, read_twofoldText, resolve_twofold, fun k => ?_, rfl⟩
  cases k <;> rfl

theorem tokens_pulled_twofold :
    (∀ e ∈ (Course.start twofoldWords "12").taken 2,
      e.transition.actions.countP LexAction.emits ≤ 1) ∧
    (TokenStream.ofText twofoldWords "12").pulls 2 =
      some (((Course.start twofoldWords "12").taken 2).flatMap Taken.made |>.map .ok) := by
  have hone : ∀ e ∈ (Course.start twofoldWords "12").taken 2,
      e.transition.actions.countP LexAction.emits ≤ 1 := by decide
  obtain ⟨-, hpulls, -, hkept⟩ := tokens_pulled twofoldWords "12"
  refine ⟨hone, ?_⟩
  rw [← hkept 2 hone]
  exact hpulls 2

end FuzzyRules
