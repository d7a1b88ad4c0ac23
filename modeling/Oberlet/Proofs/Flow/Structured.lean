import Oberlet.Tree.Basic

/-!
# Control flow of statements

What a body does is seen from the outside as a sequence of events. The answers of its guards are
given beforehand; a guard that is left without answer stops the body.
-/

namespace Oberlet

/-- What a body does. -/
inductive Event
  | guard (cond : Expr)
  | assign (target : Designator Expr) (value : Expr)
  | call (c : Call Expr)
  | ret (value : Option Expr)

/-- How a body stops. -/
inductive Outcome
  | returned | fellOff | halted | waiting
deriving DecidableEq, Repr

/-- How a statement ends, with the answers that are left: the next one follows, or the innermost
loop around it ends, or the body does. -/
inductive Ending
  | next (rest : List Bool)
  | exit (rest : List Bool)
  | stop (outcome : Outcome)

/-- The runs of something: from which answers, with what events, and how it ends. -/
abbrev Behavior := List Bool → List Event → Ending → Prop

namespace Behavior

/-- Nothing happens. -/
inductive Skip : Behavior
  | intro {answers : List Bool} : Skip answers [] (.next answers)

/-- One event. -/
inductive Step (event : Event) : Behavior
  | intro {answers : List Bool} : Step event answers [event] (.next answers)

/-- The last event of a body. -/
inductive Last (event : Event) (outcome : Outcome) : Behavior
  | intro {answers : List Bool} : Last event outcome answers [event] (.stop outcome)

/-- The innermost loop is left. -/
inductive Exit : Behavior
  | intro {answers : List Bool} : Exit answers [] (.exit answers)

/-- One thing after the other. The second does not happen unless the first ends as usual. -/
inductive Seq (first second : Behavior) : Behavior
  | next {answers rest : List Bool} {events events' : List Event} {ending : Ending} :
      first answers events (.next rest) → second rest events' ending →
      Seq first second answers (events ++ events') ending
  | exit {answers rest : List Bool} {events : List Event} :
      first answers events (.exit rest) → Seq first second answers events (.exit rest)
  | stop {answers : List Bool} {events : List Event} {outcome : Outcome} :
      first answers events (.stop outcome) → Seq first second answers events (.stop outcome)

/-- One thing or the other, as a guard says. -/
inductive Choice (cond : Expr) (yes no : Behavior) : Behavior
  | wait : Choice cond yes no [] [.guard cond] (.stop .waiting)
  | yes {answers : List Bool} {events : List Event} {ending : Ending} :
      yes answers events ending → Choice cond yes no (true :: answers)
        (.guard cond :: events) ending
  | no {answers : List Bool} {events : List Event} {ending : Ending} :
      no answers events ending → Choice cond yes no (false :: answers)
        (.guard cond :: events) ending

/-- The same thing as long as a guard holds, which is evaluated each time. -/
inductive While (cond : Expr) (body : Behavior) : Behavior
  | wait : While cond body [] [.guard cond] (.stop .waiting)
  | leave {answers : List Bool} : While cond body (false :: answers) [.guard cond] (.next answers)
  | again {answers rest : List Bool} {events events' : List Event} {ending : Ending} :
      body answers events (.next rest) → While cond body rest events' ending →
      While cond body (true :: answers) (.guard cond :: (events ++ events')) ending
  | exit {answers rest : List Bool} {events : List Event} :
      body answers events (.exit rest) →
      While cond body (true :: answers) (.guard cond :: events) (.next rest)
  | stop {answers : List Bool} {events : List Event} {outcome : Outcome} :
      body answers events (.stop outcome) →
      While cond body (true :: answers) (.guard cond :: events) (.stop outcome)

end Behavior

mutual

/-- The runs of a statement, `halts` telling the names that stand for the built-in HALT. -/
def Stmt.run (halts : String → Bool) : Stmt → Behavior
  | .assign _ target value => .Step (.assign target value)
  | .call _ c => if halts c.callee.name then .Last (.call c) .halted else .Step (.call c)
  | .ite _ branches none => runBranches halts .Skip branches
  | .ite _ branches (some body) => runBranches halts (runStmts halts body) branches
  | .loop _ cond body => .While cond (runStmts halts body)
  | .exit _ => .Exit
  | .ret _ value => .Last (.ret value) .returned

/-- The runs of the branches of an IF statement: the first whose guard holds is taken. -/
def runBranches (halts : String → Bool) (otherwise : Behavior) : List (Branch Stmt) → Behavior
  | [] => otherwise
  | ⟨_, cond, body⟩ :: rest =>
    .Choice cond (runStmts halts body) (runBranches halts otherwise rest)

def runStmts (halts : String → Bool) : List Stmt → Behavior
  | [] => .Skip
  | stmt :: rest => .Seq (stmt.run halts) (runStmts halts rest)

end

/-- The runs of a whole body. An EXIT outside of any loop is none. -/
inductive BodyRuns (halts : String → Bool) (stmts : List Stmt) :
    List Bool → List Event → Outcome → Prop
  | fellOff {answers rest : List Bool} {events : List Event} :
      runStmts halts stmts answers events (.next rest) →
      BodyRuns halts stmts answers events .fellOff
  | stop {answers : List Bool} {events : List Event} {outcome : Outcome} :
      runStmts halts stmts answers events (.stop outcome) →
      BodyRuns halts stmts answers events outcome

/-! ## Runs are functions of the answers -/

/-- The answers that are left, if the run goes on, are no more than there were. -/
def Ending.Within (answers : List Bool) : Ending → Prop
  | .next rest => rest.length ≤ answers.length
  | .exit rest => rest.length ≤ answers.length
  | .stop _ => True

theorem Ending.Within.mono {answers answers' : List Bool} {ending : Ending}
    (h : ending.Within answers)
    (hle : answers.length ≤ answers'.length) : ending.Within answers' := by
  cases ending with
  | next rest => exact Nat.le_trans h hle
  | exit rest => exact Nat.le_trans h hle
  | stop outcome => trivial

namespace Behavior

/-- Given the answers, there is exactly one run. -/
structure Functional (run : Behavior) : Prop where
  total : ∀ answers, ∃ events ending, run answers events ending ∧ ending.Within answers
  unique : ∀ answers events events' ending ending', run answers events ending →
    run answers events' ending' → events = events' ∧ ending = ending'

theorem Functional.skip : Functional Skip where
  total answers := ⟨[], .next answers, .intro, Nat.le_refl _⟩
  unique := by
    rintro answers events events' ending ending' ⟨⟩ ⟨⟩
    exact ⟨rfl, rfl⟩

theorem Functional.step (event : Event) : Functional (Step event) where
  total answers := ⟨[event], .next answers, .intro, Nat.le_refl _⟩
  unique := by
    rintro answers events events' ending ending' ⟨⟩ ⟨⟩
    exact ⟨rfl, rfl⟩

theorem Functional.last (event : Event) (outcome : Outcome) : Functional (Last event outcome) where
  total answers := ⟨[event], .stop outcome, .intro, trivial⟩
  unique := by
    rintro answers events events' ending ending' ⟨⟩ ⟨⟩
    exact ⟨rfl, rfl⟩

theorem Functional.exit : Functional Exit where
  total answers := ⟨[], .exit answers, .intro, Nat.le_refl _⟩
  unique := by
    rintro answers events events' ending ending' ⟨⟩ ⟨⟩
    exact ⟨rfl, rfl⟩

theorem Functional.seq {first second : Behavior} (hfirst : Functional first)
    (hsecond : Functional second) : Functional (Seq first second) where
  total answers := by
    obtain ⟨events, ending, hrun, hwithin⟩ := hfirst.total answers
    cases ending with
    | next rest =>
      obtain ⟨events', ending', hrun', hwithin'⟩ := hsecond.total rest
      exact ⟨_, _, .next hrun hrun', hwithin'.mono hwithin⟩
    | exit rest => exact ⟨_, _, .exit hrun, hwithin⟩
    | stop outcome => exact ⟨_, _, .stop hrun, trivial⟩
  unique answers events events' ending ending' h h' := by
    have hends {es es' : List Event} {e e' : Ending} (h : first answers es e)
        (h' : first answers es' e') : es = es' ∧ e = e' := hfirst.unique _ _ _ _ _ h h'
    cases h with
    | next h₁ h₂ =>
      cases h' with
      | next h₁' h₂' =>
        obtain ⟨rfl, ⟨⟩⟩ := hends h₁ h₁'
        obtain ⟨rfl, rfl⟩ := hsecond.unique _ _ _ _ _ h₂ h₂'
        exact ⟨rfl, rfl⟩
      | exit h₁' => cases (hends h₁ h₁').2
      | stop h₁' => cases (hends h₁ h₁').2
    | exit h₁ =>
      cases h' with
      | next h₁' _ => cases (hends h₁ h₁').2
      | exit h₁' => exact hends h₁ h₁'
      | stop h₁' => cases (hends h₁ h₁').2
    | stop h₁ =>
      cases h' with
      | next h₁' _ => cases (hends h₁ h₁').2
      | exit h₁' => cases (hends h₁ h₁').2
      | stop h₁' => exact hends h₁ h₁'

theorem Functional.choice (cond : Expr) {yes no : Behavior} (hyes : Functional yes)
    (hno : Functional no) : Functional (Choice cond yes no) where
  total answers := by
    match answers with
    | [] => exact ⟨_, _, .wait, trivial⟩
    | true :: rest =>
      obtain ⟨events, ending, hrun, hwithin⟩ := hyes.total rest
      exact ⟨_, _, .yes hrun, hwithin.mono (Nat.le_succ _)⟩
    | false :: rest =>
      obtain ⟨events, ending, hrun, hwithin⟩ := hno.total rest
      exact ⟨_, _, .no hrun, hwithin.mono (Nat.le_succ _)⟩
  unique answers events events' ending ending' h h' := by
    cases h with
    | wait =>
      cases h'
      exact ⟨rfl, rfl⟩
    | yes h =>
      cases h' with
      | yes h' =>
        obtain ⟨rfl, rfl⟩ := hyes.unique _ _ _ _ _ h h'
        exact ⟨rfl, rfl⟩
    | no h =>
      cases h' with
      | no h' =>
        obtain ⟨rfl, rfl⟩ := hno.unique _ _ _ _ _ h h'
        exact ⟨rfl, rfl⟩

/-- Each turn of a loop uses up an answer. -/
theorem Functional.loop (cond : Expr) {body : Behavior} (hbody : Functional body) :
    Functional (While cond body) where
  total answers := by
    induction hlength : answers.length using Nat.strongRecOn generalizing answers with
    | ind length ih =>
      subst hlength
      match answers with
      | [] => exact ⟨_, _, .wait, trivial⟩
      | false :: rest => exact ⟨_, _, .leave, Nat.le_succ _⟩
      | true :: answers =>
        obtain ⟨events, ending, hrun, hwithin⟩ := hbody.total answers
        cases ending with
        | next rest =>
          have hlt : rest.length < (true :: answers).length := Nat.lt_succ_of_le hwithin
          obtain ⟨events', ending', hrun', hwithin'⟩ := ih _ hlt rest rfl
          exact ⟨_, _, .again hrun hrun', hwithin'.mono (Nat.le_of_lt hlt)⟩
        | exit rest => exact ⟨_, _, .exit hrun, Nat.le_succ_of_le hwithin⟩
        | stop outcome => exact ⟨_, _, .stop hrun, trivial⟩
  unique answers events events' ending ending' h h' := by
    have hends {answers : List Bool} {es es' : List Event} {e e' : Ending}
        (h : body answers es e) (h' : body answers es' e') : es = es' ∧ e = e' :=
      hbody.unique _ _ _ _ _ h h'
    induction h generalizing events' with
    | wait =>
      cases h'
      exact ⟨rfl, rfl⟩
    | leave =>
      cases h'
      exact ⟨rfl, rfl⟩
    | again h₁ _ ih =>
      cases h' with
      | again h₁' h₂' =>
        obtain ⟨rfl, ⟨⟩⟩ := hends h₁ h₁'
        obtain ⟨rfl, rfl⟩ := ih _ h₂'
        exact ⟨rfl, rfl⟩
      | exit h₁' => cases (hends h₁ h₁').2
      | stop h₁' => cases (hends h₁ h₁').2
    | exit h₁ =>
      cases h' with
      | again h₁' _ => cases (hends h₁ h₁').2
      | exit h₁' =>
        obtain ⟨rfl, ⟨⟩⟩ := hends h₁ h₁'
        exact ⟨rfl, rfl⟩
      | stop h₁' => cases (hends h₁ h₁').2
    | stop h₁ =>
      cases h' with
      | again h₁' _ => cases (hends h₁ h₁').2
      | exit h₁' => cases (hends h₁ h₁').2
      | stop h₁' =>
        obtain ⟨rfl, ⟨⟩⟩ := hends h₁ h₁'
        exact ⟨rfl, rfl⟩

end Behavior

mutual

/-- What a statement does is a function of the answers. -/
theorem Stmt.run_functional (halts : String → Bool) : ∀ stmt : Stmt, (stmt.run halts).Functional
  | .assign _ target value => .step (.assign target value)
  | .call _ c => by
    rw [Stmt.run]
    split
    · exact .last _ _
    · exact .step _
  | .ite _ branches none => runBranches_functional halts .skip branches
  | .ite _ branches (some body) => runBranches_functional halts
    (runStmts_functional halts body) branches
  | .loop _ cond body => .loop cond (runStmts_functional halts body)
  | .exit _ => .exit
  | .ret _ value => .last (.ret value) .returned

theorem runBranches_functional (halts : String → Bool) {otherwise : Behavior}
    (h : otherwise.Functional) : ∀ branches, (runBranches halts otherwise branches).Functional
  | [] => h
  | ⟨_, cond, body⟩ :: rest =>
    .choice cond (runStmts_functional halts body) (runBranches_functional halts h rest)

theorem runStmts_functional (halts : String → Bool) :
    ∀ stmts : List Stmt, (runStmts halts stmts).Functional
  | [] => .skip
  | stmt :: rest => .seq (stmt.run_functional halts) (runStmts_functional halts rest)

end

end Oberlet
