import PolicyShell.Proofs.Execution.Calls

/-! A return ends the function call or the sourced unit around it, and nothing beyond. -/
namespace PolicyShell

/-- What is no return ends nothing around it, unless it ends everything. -/
def Flow.Stays (flow : Flow) : Prop :=
  ∀ status, flow ≠ .returning status

def BuiltinOutcome.Stays (outcome : BuiltinOutcome) : Prop :=
  ∀ status, outcome ≠ .returning status

/-- The name is that of a function or of the builtin that sources files. -/
def Shell.Enters (shell : Shell) (name : String) : Prop :=
  name ∈ shell.functions ∨ Builtin.ofName? name = some .source

namespace Course

open Execution

variable {m : Type → Type} {shell : Shell} {nested : Nested (Course m)}

/-- Whatever a sourced unit ends with, it is no return for the shell around it. -/
theorem stays_sourceUnit (source : String → Course m Flow) (arguments : List String)
    (content : String) :
    Yields (fun outcome _ => outcome.Stays) shell
      (Builtin.sourceUnit source arguments content) := by
  unfold Builtin.sourceUnit
  refine .after _ fun shell after => .after _ fun _ after => .after _ fun flow after => ?_
  cases flow <;> exact .returns nofun

private theorem stays_sourceFile (host : Host m) (source : String → Course m Flow)
    (arguments : List String) :
    Yields (fun outcome _ => outcome.Stays) shell
      (Builtin.sourceFile host (some source) arguments) := by
  unfold Builtin.sourceFile
  cases arguments with
  | nil => exact .returns nofun
  | cons path rest =>
    refine .after _ fun shell after => ?_
    split
    · exact .throws _
    · refine .after _ fun answer after => ?_
      cases answer with
      | error error => exact .returns nofun
      | ok content => exact stays_sourceUnit source rest content

/-- Whatever the body of a function ends with, the call ends with no return. -/
theorem stays_call (body : Command) (arguments : List String) :
    Yields (fun flow _ => flow.Stays) shell (call nested body arguments) := by
  unfold call
  refine .after _ fun shell after => ?_
  split
  · exact .throws _
  · refine .after _ fun _ _ => .after _ fun flow _ => ?_
    cases flow <;> exact .returns nofun

private theorem stays_dispatch (host : Host m) {name : String} (enters : shell.Enters name)
    (arguments : List String) :
    Yields (fun flow _ => flow.Stays) shell (dispatch host nested name arguments) := by
  unfold dispatch
  refine .afterGet ?_
  cases found : shell.functions[name]? with
  | some body => exact stays_call body arguments
  | none =>
    have sources : Builtin.ofName? name = some .source := by
      refine enters.resolve_left fun defined => ?_
      have present := Std.TreeMap.isSome_getElem?_iff_mem.mpr defined
      rw [found] at present
      cases present
    rw [sources]
    refine (stays_sourceFile host nested.source arguments).bind fun outcome after stays => ?_
    cases outcome with
    | report report => exact .after _ fun _ _ => .returns nofun
    | returning status => exact absurd rfl (stays status)
    | exiting status => exact .returns nofun

/-- A return ends a course only if its shell was within something to return from, for the depth is
given back. -/
theorem Keeps.stays {start : Shell} {course : Course m Flow} {allowed : Int → Prop}
    {depth : {depth // start.Brackets depth}} (outside : ¬shell.Inside)
    (keeps : Keeps start.Reaches depth (Flow.Fits allowed (start.Reaches depth)) shell course)
    (begins : start.Reaches depth shell) : Yields (fun flow _ => flow.Stays) shell course := by
  apply Always.imp keeps
  · exact fun _ _ => trivial
  · rintro outcome after ⟨-, fits⟩ flow same status rfl
    obtain ⟨-, on, reached, inside⟩ := fits _ same
    have level : on.depth = shell.depth := reached.trans begins.symm
    simp only [Shell.depth, Prod.mk.injEq] at level
    unfold Shell.Inside at inside outside
    omega

variable [Monad m]

private theorem stays_runCommand (host : Host m) (tree : Command) (outside : ¬shell.Inside) :
    Yields (fun flow _ => flow.Stays) shell (runCommand host tree) :=
  (keeps_reaches_runCommand host tree shell).stays outside rfl

private theorem stays_runSource (host : Host m) (text : String) (outside : ¬shell.Inside) :
    Yields (fun flow _ => flow.Stays) shell (runSource host text) :=
  (keeps_reaches_runSource host text shell).stays outside rfl

end Course

namespace Execution

open PolicyShell.Action (Ensures)

variable {m : Type → Type} [Monad m] [LawfulMonad m] {shell : Shell}

theorem ensures_of_yields {course : Course m Flow}
    (stays : Course.Yields (fun flow _ => flow.Stays) shell course) :
    course.toAction.Ensures shell fun outcome _ => ∀ status, outcome ≠ .ok (.returning status) :=
  (Course.Always.ensures stays).mono fun _ _ stays _ same => stays _ same _ rfl

private theorem ensures_dispatch_enters (host : Host m) {name : String} (enters : shell.Enters name)
    (arguments : List String) :
    (dispatch host (whole host) name arguments).Ensures shell
      fun outcome _ => ∀ status, outcome ≠ .ok (.returning status) := by
  let courses : Nested (Course m) := ⟨Course.runCommand host, Course.runSource host⟩
  have nested : courses.toActions = whole host := by
    unfold courses Nested.toActions whole
    simp only [Course.toAction_runCommand, Course.toAction_runSource]
  have dispatched : Course.Yields (fun flow _ => flow.Stays) shell
      (dispatch host courses name arguments) := Course.stays_dispatch host enters arguments
  have stays := ensures_of_yields dispatched
  rwa [Course.toAction_dispatch, nested] at stays

/-- Returns stay where they belong. A shell that is in no function and no sourced unit ends neither
a command nor a unit with one; and in any shell, a simple command that calls a function or sources a
file does not. -/
theorem returns_stay_inside (host : Host m) (shell : Shell) :
    (shell.functionDepth = 0 → shell.sourceDepth = 0 →
      (∀ tree, (Action.runCommand host tree).Ensures shell fun outcome _ =>
        ∀ status, outcome ≠ .ok (.returning status)) ∧
      ∀ text, (Action.runSource host text).Ensures shell fun outcome _ =>
        ∀ status, outcome ≠ .ok (.returning status)) ∧
    ∀ assignments words,
      Action.runCommand host (.simple assignments words) =
        evaluate host words >>= launch host assignments ∧
      (evaluate host words : Action m (List String)).LeavesAlone shell ∧
      ∀ name arguments, shell.Enters name →
        (launch host assignments (name :: arguments)).Ensures shell fun outcome _ =>
          ∀ status, outcome ≠ .ok (.returning status) := by
  constructor
  · intro noFunction noUnit
    have outside : ¬shell.Inside := by
      unfold Shell.Inside
      omega
    constructor
    · intro tree
      have stays := ensures_of_yields (Course.stays_runCommand host tree outside)
      rwa [Course.toAction_runCommand] at stays
    · intro text
      have stays := ensures_of_yields (Course.stays_runSource host text outside)
      rwa [Course.toAction_runSource] at stays
  · intro assignments words
    refine ⟨runCommand_simple host assignments words, leavesAlone_evaluate host words shell, ?_⟩
    intro name arguments enters
    refine ensures_settle ?_ fun status after _ => nofun
    refine ensures_underAssignments_reassigned host assignments ?_ ?_ ?_
    · rintro _ ⟨scalars, arrays, rfl⟩
      have enters : Shell.Enters { shell with scalars, arrays } name := enters
      exact ensures_dispatch_enters host enters arguments
    · exact fun _ _ _ => nofun
    · exact fun _ _ _ _ stays => stays

/-- A file that calls a function that returns, and then returns itself. -/
theorem returns_stay_inside_sourced :
    let host : Host Id := ⟨fun _ => .ok [], fun _ => .ok "\x7b return 7; \x7d; exit"⟩
    let body : Command := .group [.simple [] [.literal "source", .literal "file"],
      .simple [] [.literal "return"]]
    let shell : Shell := { functions := .ofList [("f", body)] }
    shell.functionDepth = 0 ∧ shell.sourceDepth = 0 ∧ shell.Enters "f" ∧
      ((Action.runSource host "x=1 f; source file").run shell).1.toOption = some (.normal 7) ∧
      ((Action.runSource host "x=1 f; source file").Ensures shell fun outcome _ =>
        ∀ status, outcome ≠ .ok (.returning status)) ∧
      (launch host [⟨"x", .scalar (.literal "1")⟩] ["f"]).Ensures shell fun outcome _ =>
        ∀ status, outcome ≠ .ok (.returning status) := by
  intro host body shell
  have enters : shell.Enters "f" := .inl (by decide +kernel)
  have stays := returns_stay_inside host shell
  exact ⟨rfl, rfl, enters, by decide +kernel, (stays.1 rfl rfl).2 _,
    (stays.2 _ []).2.2 "f" [] enters⟩

end Execution

end PolicyShell
