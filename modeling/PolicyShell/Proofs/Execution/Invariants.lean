import PolicyShell.Proofs.Execution.Depth
import PolicyShell.Proofs.Execution.Stepwise

/-! What holds of a shell at every step of a run, because each change that a step may make keeps
it, and what commands end with where it holds. -/
namespace PolicyShell

/-- The shell is within a function call or a sourced unit. -/
def Shell.Inside (shell : Shell) : Prop :=
  0 < shell.functionDepth ∨ 0 < shell.sourceDepth

/-- The status is an allowed one, and for a return there is something to return from in one of the
shells that may be reached. -/
def Flow.Fits (allowed : Int → Prop) (reached : Shell → Prop) : Flow → Prop
  | normal status | exiting status => allowed status
  | returning status => allowed status ∧ ∃ shell, reached shell ∧ shell.Inside

def BuiltinOutcome.Fits (allowed : Int → Prop) (reached : Shell → Prop) : BuiltinOutcome → Prop
  | report found => allowed found.status
  | exiting status => allowed status
  | returning status => allowed status ∧ ∃ shell, reached shell ∧ shell.Inside

theorem Flow.Fits.allowed {allowed : Int → Prop} {reached : Shell → Prop} {flow : Flow}
    (fits : flow.Fits allowed reached) : allowed flow.status := by
  cases flow with
  | normal status => exact fits
  | returning status => exact fits.1
  | exiting status => exact fits

/-- Something that may hold of a shell, and still holds after whatever one step of a run does. It
may say more about some shells than about others, so it has an index: within a call or a sourced
unit it may hold at another one, from which the way back leads to the first. Only the statuses that
are allowed need to be remembered: those that a step gives of its own accord, and those that a
program may ask for where it holds. -/
structure Invariant {ι : Type} (holds : ι → Shell → Prop)
    (allowed : Int → Prop := fun _ => True) : Prop where
  setScalar {index : ι} {shell : Shell} : holds index shell →
    ∀ name value, holds index (shell.setScalar name value)
  setArray {index : ι} {shell : Shell} : holds index shell →
    ∀ name values, holds index (shell.setArray name values)
  restore {index : ι} {shell after : Shell} : holds index shell → holds index after →
    ∀ name, holds index (after.restore (shell.saved name))
  unsetFunction {index : ι} {shell : Shell} : holds index shell →
    ∀ name, holds index (shell.unsetFunction name)
  unsetNamed {index : ι} {shell : Shell} : holds index shell →
    ∀ name, holds index (shell.unsetNamed name)
  define {index : ι} {shell : Shell} : holds index shell →
    ∀ functions, holds index { shell with functions }
  arguments {index : ι} {shell : Shell} : holds index shell →
    ∀ arguments, holds index { shell with arguments }
  turn {index : ι} {shell : Shell} : holds index shell → ∀ on names,
    holds index { shell with options := (Shopt.turnNamed on shell.scope shell.options names).1 }
  status {index : ι} {shell : Shell} : holds index shell →
    ∀ status, allowed status → holds index { shell with status }
  write {index : ι} {shell : Shell} : holds index shell → ∀ text, holds index (shell.write text)
  writeError {index : ι} {shell : Shell} : holds index shell →
    ∀ text, holds index (shell.writeError text)
  call {index : ι} {shell : Shell} : holds index shell →
    shell.functionDepth < Shell.maxFunctionDepth → ∀ arguments, ∃ inner,
      holds inner { shell with arguments, functionDepth := shell.functionDepth + 1 } ∧
      ∀ after, holds inner after → holds index
        { after with arguments := shell.arguments, functionDepth := after.functionDepth - 1 }
  source {index : ι} {shell : Shell} : holds index shell →
    shell.sourceDepth < Shell.maxSourceDepth → ∀ arguments, ∃ inner,
      holds inner { shell with arguments, sourceDepth := shell.sourceDepth + 1 } ∧
      ∀ after, holds inner after → ∀ arguments,
        holds index { after with arguments, sourceDepth := after.sourceDepth - 1 }
  success : allowed 0 := by trivial
  failure : allowed 1 := by trivial
  misuse : allowed 2 := by trivial
  notFound : allowed 127 := by trivial
  requested {index : ι} {shell : Shell} : holds index shell → ∀ arguments status,
    shell.requestedStatus? arguments = some status → allowed status := by intros; trivial

namespace Invariant

variable {ι : Type} {holds : ι → Shell → Prop} {allowed : Int → Prop}

theorem unsetAll (invariant : Invariant holds allowed) {index : ι} {shell : Shell}
    (kept : holds index shell) (functions : Bool) (arguments : List String) :
    holds index (shell.unsetAll functions arguments) := by
  refine @Shell.unsetAll_induction (holds index) ?_ ?_ shell kept functions arguments
  · intro before name kept
    exact invariant.unsetFunction kept name
  · intro before name kept
    exact invariant.unsetNamed kept name

theorem showNamed (invariant : Invariant holds allowed) (request : Shopt.Request)
    (options : OptionSet) (names : List String) :
    allowed (Shopt.showNamed request options names).status := by
  induction names with
  | nil => exact invariant.success
  | cons name rest ih =>
    unfold Shopt.showNamed
    split
    · exact invariant.failure
    · dsimp only
      split
      · exact ih
      · exact invariant.failure

end Invariant

namespace Course

open Execution

variable {m : Type → Type} {ι α β : Type} {holds : ι → Shell → Prop} {allowed : Int → Prop}
  {index : ι} {shell : Shell} {gives : α → Prop}

/-- A course on which an invariant holds, that ends at a certain index of it, and whose value is as
it should be. -/
def Keeps (holds : ι → Shell → Prop) (index : ι) (gives : α → Prop) (shell : Shell)
    (course : Course m α) : Prop :=
  course.Always (fun on => ∃ index, holds index on)
    (fun outcome after => holds index after ∧ ∀ value, outcome = .ok value → gives value) shell

namespace Keeps

variable {course : Course m α}

theorem bind (keeps : Keeps holds index gives shell course) {lastly : β → Prop}
    {next : α → Course m β}
    (later : ∀ value after, holds index after → gives value →
      Keeps holds index lastly after (next value)) :
    Keeps holds index lastly shell (course >>= next) :=
  Always.bind keeps (fun value after ended => later value after ended.1 (ended.2 value rfl))
    fun _ _ ended => ⟨ended.1, nofun⟩

theorem returns (kept : holds index shell) {value : α} (given : gives value) :
    Keeps holds index gives shell (pure value : Course m α) := by
  refine ⟨kept, ?_⟩
  rintro _ ⟨⟩
  exact given

theorem throws (kept : holds index shell) (fault : Fault) :
    Keeps holds index gives shell (throw fault : Course m α) :=
  ⟨kept, nofun⟩

theorem afterGet {next : Shell → Course m α}
    (later : Keeps holds index gives shell (next shell)) :
    Keeps holds index gives shell (get >>= next) :=
  later

theorem afterAsk {question : m β} {next : β → Course m α}
    (later : ∀ answer, Keeps holds index gives shell (next answer)) :
    Keeps holds index gives shell ((liftM question : Course m β) >>= next) :=
  later

theorem afterSet {inner : ι} {changed : Shell} {next : PUnit → Course m α}
    (kept : holds inner changed) (later : Keeps holds index gives changed (next ⟨⟩)) :
    Keeps holds index gives shell (set changed >>= next) :=
  ⟨⟨inner, kept⟩, later⟩

theorem afterModify {inner : ι} {change : Shell → Shell} {next : PUnit → Course m α}
    (kept : holds inner (change shell))
    (later : Keeps holds index gives (change shell) (next ⟨⟩)) :
    Keeps holds index gives shell (modify change >>= next) :=
  ⟨⟨inner, kept⟩, later⟩

theorem modifies {change : Shell → Shell} (kept : holds index (change shell)) :
    Keeps holds index (fun _ => True) shell (modify change : Course m PUnit) :=
  ⟨⟨index, kept⟩, kept, fun _ _ => trivial⟩

theorem afterwards {inner : ι} {change : Shell → Shell}
    (keeps : Keeps holds inner gives shell course)
    (back : ∀ after, holds inner after → holds index (change after)) :
    Keeps holds index gives shell (Execution.afterwards course change) :=
  Always.afterwards <| Always.mono keeps fun _ after ended =>
    ⟨⟨index, back after ended.1⟩, back after ended.1, ended.2⟩

/-- Where the index says nothing, an invariant simply holds at each step and at the end. -/
theorem always {holds : Shell → Prop}
    (keeps : Keeps (fun (_ : Unit) => holds) () gives shell course) :
    course.Always holds (fun outcome after => holds after ∧
      ∀ value, outcome = .ok value → gives value) shell := by
  apply Always.imp keeps
  · intro on kept
    obtain ⟨_, kept⟩ := kept
    exact kept
  · intro outcome after ended
    exact ended

theorem mapM {γ : Type} {values : List γ} {course : γ → Course m α}
    (each : ∀ value after, holds index after →
      Keeps holds index (fun _ => True) after (course value)) (kept : holds index shell) :
    Keeps holds index (fun _ => True) shell (values.mapM course) := by
  induction values generalizing shell with
  | nil =>
    rw [List.mapM_nil]
    exact returns kept trivial
  | cons first rest ih =>
    rw [List.mapM_cons]
    refine (each first shell kept).bind fun one after kept _ => ?_
    exact (ih kept).bind fun others after kept _ => returns kept trivial

theorem forM {γ : Type} {values : List γ} {course : γ → Course m PUnit}
    (each : ∀ value after, holds index after →
      Keeps holds index (fun _ => True) after (course value)) (kept : holds index shell) :
    Keeps holds index (fun _ => True) shell (values.forM course) := by
  induction values generalizing shell with
  | nil => exact returns kept trivial
  | cons first rest ih => exact (each first shell kept).bind fun _ after kept _ => ih kept

end Keeps

section
variable (invariant : Invariant holds allowed) (kept : holds index shell)
include invariant kept

private theorem keeps_shopt (arguments : List String) :
    Keeps holds index (allowed ·.status) shell (Shopt.perform arguments : Course m Report) := by
  unfold Shopt.perform
  split
  · exact .returns kept invariant.misuse
  · refine .afterGet ?_
    dsimp only
    split
    · exact .returns kept invariant.success
    · split
      · exact .returns kept (invariant.showNamed _ _ _)
      · rename_i names _ _ _ on _
        have turned := invariant.turn kept on names
        refine .afterSet turned ?_
        split
        · exact .throws turned _
        · refine .returns turned ?_
          dsimp only
          split
          · exact invariant.success
          · exact invariant.failure

private theorem keeps_setArguments (arguments : List String) :
    Keeps holds index (allowed ·.status) shell
      (Builtin.setArguments arguments : Course m Report) := by
  have replaced := invariant.arguments kept
  unfold Builtin.setArguments
  split
  · exact .afterGet (.returns kept invariant.success)
  · split
    · exact .afterModify (replaced _) (.returns (replaced _) invariant.success)
    · split
      · exact .returns kept invariant.misuse
      · exact .afterModify (replaced _) (.returns (replaced _) invariant.success)

/-- A return begins in a function or a sourced unit. -/
private theorem keeps_leaveWith (arguments : List String) :
    Keeps holds index (BuiltinOutcome.Fits allowed (holds index)) shell
      (Builtin.leaveWith arguments : Course m BuiltinOutcome) := by
  unfold Builtin.leaveWith
  refine .afterGet ?_
  split
  · exact .returns kept invariant.failure
  · have inside : shell.Inside := by
      unfold Shell.Inside
      omega
    split
    · rename_i status found
      exact .returns kept ⟨invariant.requested kept arguments status found, shell, kept, inside⟩
    · exact .returns kept invariant.misuse

private theorem keeps_exitWith (arguments : List String) :
    Keeps holds index (BuiltinOutcome.Fits allowed (holds index)) shell
      (Builtin.exitWith arguments : Course m BuiltinOutcome) := by
  unfold Builtin.exitWith
  refine .afterGet ?_
  split
  · rename_i status found
    exact .returns kept (invariant.requested kept arguments status found)
  · have complained := invariant.writeError kept (Builtin.notNumeric "exit" arguments)
    exact .afterModify complained (.returns complained invariant.misuse)

end

section
variable [Monad m] (invariant : Invariant holds allowed)

private theorem keeps_evaluate (host : Host m) (words : List Word) (kept : holds index shell) :
    Keeps holds index (fun _ => True) shell (evaluate host words : Course m (List String)) := by
  unfold evaluate
  refine .afterGet ?_
  refine (Keeps.mapM (fun word after kept => ?_) kept).bind fun texts after kept _ =>
    .returns kept trivial
  refine .afterAsk fun outcome => ?_
  cases outcome with
  | error error => exact .throws kept _
  | ok texts => exact .returns kept trivial

include invariant

private theorem keeps_assign (host : Host m) (assignment : Assignment) (kept : holds index shell) :
    Keeps holds index (fun _ => True) shell (assign host assignment : Course m Unit) := by
  unfold assign
  cases assignment.value with
  | scalar word => exact .modifies (invariant.setScalar kept _ _)
  | array elements =>
    exact (keeps_evaluate host elements kept).bind fun values after kept _ =>
      .modifies (invariant.setArray kept _ values)

/-- What is restored in the end was saved from a shell on which the invariant held, too. -/
private theorem keeps_underAssignments (host : Host m) {course : Course m α}
    (keeps : ∀ after, holds index after → Keeps holds index gives after course)
    (assignments : List Assignment) (kept : holds index shell) :
    Keeps holds index gives shell (underAssignments host course assignments) := by
  induction assignments generalizing shell with
  | nil => exact keeps shell kept
  | cons assignment rest ih =>
    unfold underAssignments
    refine .afterGet (Keeps.afterwards ?_ fun after later => invariant.restore kept later _)
    exact (keeps_assign invariant host assignment kept).bind fun _ after kept _ => ih kept

end

end Course

/-- An invariant holds throughout whatever is nested, which ends as a command may. -/
structure Nested.Keep {m : Type → Type} {ι : Type} (holds : ι → Shell → Prop)
    (allowed : Int → Prop) (nested : Nested (Course m)) : Prop where
  call : ∀ index shell body, holds index shell →
    Course.Keeps holds index (Flow.Fits allowed (holds index)) shell (nested.call body)
  source : ∀ index shell text, holds index shell →
    Course.Keeps holds index (Flow.Fits allowed (holds index)) shell (nested.source text)

namespace Course

open Execution

variable {m : Type → Type} {ι : Type} {holds : ι → Shell → Prop} {allowed : Int → Prop}
  {index : ι} {shell : Shell}

section
variable {nested : Nested (Course m)} (invariant : Invariant holds allowed)
  (keep : nested.Keep holds allowed)
include invariant keep

/-- A return of the body is none of the call. -/
private theorem keeps_call (body : Command) (arguments : List String) (kept : holds index shell) :
    Keeps holds index (Flow.Fits allowed (holds index)) shell (call nested body arguments) := by
  unfold call
  refine .afterGet ?_
  split
  · exact .throws kept _
  · rename_i shallow
    obtain ⟨inner, entered, back⟩ := invariant.call kept (Nat.lt_of_not_le shallow) arguments
    refine .afterSet entered ?_
    refine (Keeps.afterwards (keep.call inner _ body entered) back).bind
      fun flow after kept fits => ?_
    cases flow with
    | normal status => exact .returns kept fits
    | returning status => exact .returns kept fits.1
    | exiting status => exact .returns kept fits

private theorem keeps_sourceUnit (arguments : List String) (content : String)
    (shallow : shell.sourceDepth < Shell.maxSourceDepth) (kept : holds index shell) :
    Keeps holds index (BuiltinOutcome.Fits allowed (holds index)) shell
      (Builtin.sourceUnit nested.source arguments content) := by
  unfold Builtin.sourceUnit
  obtain ⟨inner, entered, back⟩ := invariant.source kept shallow
    (if arguments.isEmpty then shell.arguments else arguments)
  refine .afterGet (.afterModify entered ?_)
  refine (Keeps.afterwards (keep.source inner _ _ entered) ?_).bind fun flow after kept fits => ?_
  · intro after kept
    exact back after kept _
  · cases flow with
    | normal status => exact .returns kept fits
    | returning status => exact .returns kept fits.1
    | exiting status => exact .returns kept fits

private theorem keeps_sourceFile (host : Host m) (arguments : List String)
    (kept : holds index shell) :
    Keeps holds index (BuiltinOutcome.Fits allowed (holds index)) shell
      (Builtin.sourceFile host (some nested.source) arguments) := by
  unfold Builtin.sourceFile
  cases arguments with
  | nil => exact .returns kept invariant.misuse
  | cons path rest =>
    refine .afterGet ?_
    split
    · exact .throws kept _
    · rename_i shallow
      refine .afterAsk fun answer => ?_
      cases answer with
      | error error => exact .returns kept invariant.failure
      | ok content =>
        exact keeps_sourceUnit invariant keep rest content (Nat.lt_of_not_le shallow) kept

theorem keeps_perform (host : Host m) (builtin : Builtin) (arguments : List String)
    (kept : holds index shell) :
    Keeps holds index (BuiltinOutcome.Fits allowed (holds index)) shell
      (builtin.perform host (some nested.source) arguments) := by
  unfold Builtin.perform
  cases builtin with
  | source => exact keeps_sourceFile invariant keep host arguments kept
  | shopt =>
    exact (keeps_shopt invariant kept arguments).bind fun report after kept found =>
      .returns kept found
  | set =>
    exact (keeps_setArguments invariant kept arguments).bind fun report after kept found =>
      .returns kept found
  | unset =>
    have removed := invariant.unsetAll kept false arguments
    exact .afterModify removed (.returns removed invariant.success)
  | leave => exact keeps_leaveWith invariant kept arguments
  | exit => exact keeps_exitWith invariant kept arguments
  | fail => exact .returns kept invariant.failure
  | _ => exact .returns kept invariant.success

private theorem keeps_dispatch (host : Host m) (name : String) (arguments : List String)
    (kept : holds index shell) :
    Keeps holds index (Flow.Fits allowed (holds index)) shell
      (dispatch host nested name arguments) := by
  unfold dispatch
  refine .afterGet ?_
  split
  · exact keeps_call invariant keep _ arguments kept
  · rename_i builtin _ _
    refine (keeps_perform invariant keep host builtin arguments kept).bind
      fun outcome after kept fits => ?_
    cases outcome with
    | report report =>
      have written := invariant.writeError (invariant.write kept report.out) report.err
      exact .afterModify written (.returns written fits)
    | returning status => exact .returns kept fits
    | exiting status => exact .returns kept fits
  · have written := invariant.writeError kept ("wordsh: " ++ name ++ ": command not found\n")
    exact .afterModify written (.returns written invariant.notFound)

variable [Monad m]

private theorem keeps_simple (host : Host m) (assignments : List Assignment) (words : List Word)
    (kept : holds index shell) :
    Keeps holds index (Flow.Fits allowed (holds index)) shell
      (simple host nested assignments words) := by
  unfold simple
  refine (keeps_evaluate host words kept).bind fun texts after kept _ => ?_
  cases texts with
  | nil =>
    refine (Keeps.forM (fun assignment after kept => ?_) kept).bind fun _ after kept _ =>
      .returns kept invariant.success
    exact keeps_assign invariant host assignment kept
  | cons name arguments =>
    refine keeps_underAssignments invariant host (fun after kept => ?_) assignments kept
    exact keeps_dispatch invariant keep host name arguments kept

end

/-- With this ending, too, a course keeps an invariant and ends as a command may. -/
def Closes (holds : ι → Shell → Prop) (allowed : Int → Prop)
    (ending : Course m Flow → Course m Flow) : Prop :=
  ∀ index shell course, Keeps holds index (Flow.Fits allowed (holds index)) shell course →
    Keeps holds index (Flow.Fits allowed (holds index)) shell (ending course)

theorem closes_settle (invariant : Invariant holds allowed) :
    Closes holds allowed (settle : Course m Flow → Course m Flow) := by
  intro index shell course keeps
  unfold settle
  refine keeps.bind fun flow after kept fits => ?_
  cases flow with
  | normal status =>
    have settled := invariant.status kept status fits
    exact .afterModify settled (.returns settled fits)
  | returning status => exact .returns kept fits
  | exiting status => exact .returns kept fits

variable [Monad m] {ending : Course m Flow → Course m Flow}

mutual

private theorem keeps_command {nested : Nested (Course m)} (invariant : Invariant holds allowed)
    (keep : nested.Keep holds allowed) (closes : Closes holds allowed ending) (host : Host m)
    (tree : Command) {shell : Shell} (kept : holds index shell) :
    Keeps holds index (Flow.Fits allowed (holds index)) shell
      (command ending host nested tree) := by
  cases tree with
  | simple assignments words =>
    rw [command]
    exact closes _ _ _ (keeps_simple invariant keep host assignments words kept)
  | chain left connective right =>
    rw [command]
    refine closes _ _ _ ?_
    refine (keeps_command invariant keep closes host left kept).bind
      fun flow after kept fits => ?_
    cases flow with
    | normal status =>
      dsimp only
      split
      · exact keeps_command invariant keep closes host right kept
      · exact .returns kept fits
    | returning status => exact .returns kept fits
    | exiting status => exact .returns kept fits
  | definition name body =>
    rw [command]
    have defined := invariant.define kept (shell.functions.insert name body)
    exact closes _ _ _ (.afterModify defined (.returns defined invariant.success))
  | group body =>
    rw [command]
    exact closes _ _ _ (keeps_commands invariant keep closes host invariant.success body kept)

private theorem keeps_commands {nested : Nested (Course m)} (invariant : Invariant holds allowed)
    (keep : nested.Keep holds allowed) (closes : Closes holds allowed ending) (host : Host m)
    {status : Int} (begins : allowed status) (trees : List Command) {shell : Shell}
    (kept : holds index shell) :
    Keeps holds index (Flow.Fits allowed (holds index)) shell
      (commands ending host nested status trees) := by
  cases trees with
  | nil =>
    rw [commands]
    exact .returns kept begins
  | cons first rest =>
    rw [commands]
    refine (keeps_command invariant keep closes host first kept).bind
      fun flow after kept fits => ?_
    cases flow with
    | normal status => exact keeps_commands invariant keep closes host fits rest kept
    | returning status => exact .returns kept fits
    | exiting status => exact .returns kept fits

end

private theorem keeps_rest {nested : Nested (Course m)} (invariant : Invariant holds allowed)
    (keep : nested.Keep holds allowed) (closes : Closes holds allowed ending) (host : Host m)
    (parser : Parser) {status : Int} (begins : allowed status) {shell : Shell}
    (kept : holds index shell) :
    Keeps holds index (Flow.Fits allowed (holds index)) shell
      (rest ending host nested parser status) := by
  rw [rest]
  refine .afterGet ?_
  dsimp only
  split
  · exact .throws kept _
  · exact .returns kept begins
  · rename_i first after read
    have shorter := Parser.length_unread_lt_of_next read
    refine (keeps_command invariant keep closes host first kept).bind
      fun flow later kept fits => ?_
    cases flow with
    | normal status => exact keeps_rest invariant keep closes host after fits kept
    | returning status => exact .returns kept fits
    | exiting status => exact .returns kept fits
termination_by parser.unread.length
decreasing_by simpa using shorter

section
variable (invariant : Invariant holds allowed) (closes : Closes holds allowed ending)
include invariant closes

private theorem keeps_unit {nested : Nested (Course m)} (keep : nested.Keep holds allowed)
    (host : Host m) (text : String) (kept : holds index shell) :
    Keeps holds index (Flow.Fits allowed (holds index)) shell
      (unit ending host nested text) := by
  unfold unit
  exact .afterGet (keeps_rest invariant keep closes host _ invariant.success kept)

theorem keep_nested (host : Host m) (levels : Nat) :
    (nested ending host levels : Nested (Course m)).Keep holds allowed := by
  induction levels with
  | zero =>
    exact ⟨fun _ _ _ kept => .throws kept _, fun _ _ _ kept => .throws kept _⟩
  | succ levels ih =>
    constructor
    · intro index shell body kept
      exact keeps_command invariant ih closes host body kept
    · intro index shell text kept
      exact keeps_unit invariant closes ih host text kept

theorem keeps_runCommand_of_closes (host : Host m) (tree : Command) (kept : holds index shell) :
    Keeps holds index (Flow.Fits allowed (holds index)) shell
      (Execution.runCommand ending host tree) := by
  unfold Execution.runCommand
  exact .afterGet (keeps_command invariant (keep_nested invariant closes host _) closes host
    tree kept)

theorem keeps_runSource_of_closes (host : Host m) (text : String) (kept : holds index shell) :
    Keeps holds index (Flow.Fits allowed (holds index)) shell
      (Execution.runSource ending host text) := by
  unfold Execution.runSource
  exact .afterGet (keeps_unit invariant closes (keep_nested invariant closes host _) host
    text kept)

end

/-- An invariant that holds when a command begins holds at each step of it. -/
theorem keeps_runCommand (invariant : Invariant holds allowed) (host : Host m) (tree : Command)
    (kept : holds index shell) :
    Keeps holds index (Flow.Fits allowed (holds index)) shell (runCommand host tree) :=
  keeps_runCommand_of_closes invariant (closes_settle invariant) host tree kept

theorem keeps_runSource (invariant : Invariant holds allowed) (host : Host m) (text : String)
    (kept : holds index shell) :
    Keeps holds index (Flow.Fits allowed (holds index)) shell (runSource host text) :=
  keeps_runSource_of_closes invariant (closes_settle invariant) host text kept

end Course

end PolicyShell
