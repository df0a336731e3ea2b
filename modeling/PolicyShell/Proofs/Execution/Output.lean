import PolicyShell.Proofs.Execution.Invariants
import PolicyShell.Proofs.Execution.Lockstep

/-! Output is only added to, and no command reads what has been written. -/
namespace PolicyShell

namespace Shell

/-- The shell with more output in front of its own. -/
def behind (out err : String) (shell : Shell) : Shell :=
  { shell with out := out ++ shell.out, err := err ++ shell.err }

section
variable (out err : String) (shell : Shell)

@[simp] theorem functions_behind : (shell.behind out err).functions = shell.functions := rfl

@[simp] theorem options_behind : (shell.behind out err).options = shell.options := rfl

@[simp] theorem functionDepth_behind :
    (shell.behind out err).functionDepth = shell.functionDepth := rfl

@[simp] theorem sourceDepth_behind : (shell.behind out err).sourceDepth = shell.sourceDepth := rfl

@[simp] theorem scope_behind : (shell.behind out err).scope = shell.scope := rfl

@[simp] theorem bindings_behind : (shell.behind out err).bindings = shell.bindings := rfl

@[simp] theorem saved_behind (name : String) :
    (shell.behind out err).saved name = shell.saved name := rfl

@[simp] theorem requestedStatus?_behind (arguments : List String) :
    (shell.behind out err).requestedStatus? arguments = shell.requestedStatus? arguments := by
  cases arguments <;> rfl

end

/-- The output of a shell is that of another one with more written behind it. -/
structure Extends (before after : Shell) : Prop where
  out : ∃ written, after.out = before.out ++ written
  err : ∃ written, after.err = before.err ++ written

variable {before after : Shell} {out err : String}

theorem Extends.of_eq (out : after.out = before.out) (err : after.err = before.err) :
    before.Extends after :=
  ⟨⟨"", by rw [out, String.append_empty]⟩, ⟨"", by rw [err, String.append_empty]⟩⟩

theorem Extends.refl (shell : Shell) : shell.Extends shell := .of_eq rfl rfl

theorem Extends.trans {one two three : Shell} (first : one.Extends two)
    (second : two.Extends three) : one.Extends three := by
  obtain ⟨⟨out, sameOut⟩, ⟨err, sameErr⟩⟩ := first
  obtain ⟨⟨out', sameOut'⟩, ⟨err', sameErr'⟩⟩ := second
  constructor
  · exact ⟨out ++ out', by rw [sameOut', sameOut, String.append_assoc]⟩
  · exact ⟨err ++ err', by rw [sameErr', sameErr, String.append_assoc]⟩

theorem extends_write (shell : Shell) (text : String) : shell.Extends (shell.write text) :=
  ⟨⟨text, rfl⟩, ⟨"", by rw [String.append_empty]; rfl⟩⟩

theorem extends_writeError (shell : Shell) (text : String) :
    shell.Extends (shell.writeError text) :=
  ⟨⟨"", by rw [String.append_empty]; rfl⟩, ⟨text, rfl⟩⟩

theorem Reassigned.extends (reassigned : before.Reassigned after) : before.Extends after := by
  obtain ⟨scalars, arrays, rfl⟩ := reassigned
  exact .of_eq rfl rfl

/-- Each step keeps what has been written, and so does the way into a call and back. -/
theorem invariant_extends : Invariant Extends where
  setScalar kept _ _ := ⟨kept.out, kept.err⟩
  setArray kept _ _ := ⟨kept.out, kept.err⟩
  restore _ later _ := ⟨later.out, later.err⟩
  unsetFunction kept _ := ⟨kept.out, kept.err⟩
  unsetNamed kept name := kept.trans (reassigned_unsetNamed _ name).extends
  define kept _ := ⟨kept.out, kept.err⟩
  arguments kept _ := ⟨kept.out, kept.err⟩
  turn kept _ _ := ⟨kept.out, kept.err⟩
  status kept _ _ := ⟨kept.out, kept.err⟩
  write kept text := kept.trans (extends_write _ text)
  writeError kept text := kept.trans (extends_writeError _ text)
  call kept _ _ := ⟨_, ⟨kept.out, kept.err⟩, fun _ later => ⟨later.out, later.err⟩⟩
  source kept _ _ := ⟨_, ⟨kept.out, kept.err⟩, fun _ later _ => ⟨later.out, later.err⟩⟩

theorem write_behind (shell : Shell) (text : String) :
    (shell.behind out err).write text = (shell.write text).behind out err := by
  simp only [write, behind, String.append_assoc]

theorem writeError_behind (shell : Shell) (text : String) :
    (shell.behind out err).writeError text = (shell.writeError text).behind out err := by
  simp only [writeError, behind, String.append_assoc]

private theorem unsetNamed_behind (shell : Shell) (name : String) :
    (shell.behind out err).unsetNamed name = (shell.unsetNamed name).behind out err := by
  unfold unsetNamed
  split
  · unfold unsetElement
    dsimp only [behind]
    split
    · split <;> rfl
    · rfl
  · rfl

private theorem unsetAll_behind (shell : Shell) (functions : Bool) (arguments : List String) :
    (shell.behind out err).unsetAll functions arguments =
      (shell.unsetAll functions arguments).behind out err := by
  have folded {change : Shell → String → Shell} (same : ∀ shell name,
      change (shell.behind out err) name = (change shell name).behind out err)
      (names : List String) :
      names.foldl change (shell.behind out err) = (names.foldl change shell).behind out err := by
    induction names generalizing shell with
    | nil => rfl
    | cons name rest ih => rw [List.foldl_cons, List.foldl_cons, same, ih]
  fun_induction unsetAll shell functions arguments with
  | case1 => rfl
  | case2 functions rest ih => exact ih
  | case3 functions rest ih => exact ih
  | case4 functions names noFunctions noVariables =>
    rw [unsetAll]
    · cases functions with
      | true => exact folded (fun _ _ => rfl) names
      | false => exact folded unsetNamed_behind names
    · exact noFunctions
    · exact noVariables
    · assumption

end Shell

namespace Course

open Execution

variable {m : Type → Type} {α : Type} {shell : Shell} {out err : String}

/-- The same course in a shell with more output in front, with each step adding to the output. -/
def Appends (out err : String) (shell : Shell) (course course' : Course m α) : Prop :=
  Lockstep (Shell.behind out err) Shell.Extends shell course course'

private theorem appends_shopt (arguments : List String) :
    Appends out err shell (Shopt.perform arguments : Course m Report)
      (Shopt.perform arguments) := by
  unfold Shopt.perform
  split
  · exact .returns _
  · refine .afterGet ?_
    simp only [Shell.options_behind, Shell.scope_behind]
    refine .ite (fun _ => .returns _) fun _ => ?_
    split
    · exact .returns _
    · refine .afterSet rfl (.of_eq rfl rfl) ?_
      split
      · exact .throws _
      · exact .returns _

private theorem appends_setArguments (arguments : List String) :
    Appends out err shell (Builtin.setArguments arguments : Course m Report)
      (Builtin.setArguments arguments) := by
  unfold Builtin.setArguments
  split
  · exact .afterGet (.returns _)
  · refine .ite (fun _ => ?_) fun _ => .ite (fun _ => .returns _) fun _ => ?_
    · exact .afterModify rfl (.of_eq rfl rfl) fun _ => .returns _
    · exact .afterModify rfl (.of_eq rfl rfl) fun _ => .returns _

private theorem appends_leaveWith (arguments : List String) :
    Appends out err shell (Builtin.leaveWith arguments : Course m BuiltinOutcome)
      (Builtin.leaveWith arguments) := by
  unfold Builtin.leaveWith
  refine .afterGet ?_
  simp only [Shell.functionDepth_behind, Shell.sourceDepth_behind, Shell.requestedStatus?_behind]
  refine .ite (fun _ => .returns _) fun _ => ?_
  split
  · exact .returns _
  · exact .returns _

private theorem appends_exitWith (arguments : List String) :
    Appends out err shell (Builtin.exitWith arguments : Course m BuiltinOutcome)
      (Builtin.exitWith arguments) := by
  unfold Builtin.exitWith
  refine .afterGet ?_
  simp only [Shell.requestedStatus?_behind]
  split
  · exact .returns _
  · exact .afterModify (shell.writeError_behind _) (shell.extends_writeError _) fun _ => .returns _

variable [Monad m]

private theorem appends_evaluate (host : Host m) (words : List Word) :
    Appends out err shell (evaluate host words : Course m (List String))
      (evaluate host words) := by
  unfold evaluate
  refine .afterGet ?_
  simp only [Shell.options_behind, Shell.bindings_behind]
  refine (Lockstep.mapM fun word after => ?_).bind fun texts after => .returns _
  refine .afterAsk fun outcome => ?_
  cases outcome with
  | error error => exact .throws _
  | ok texts => exact .returns _

private theorem appends_assign (host : Host m) (assignment : Assignment) :
    Appends out err shell (assign host assignment : Course m Unit) (assign host assignment) := by
  unfold assign
  cases assignment.value with
  | scalar word => exact .modifies rfl (.of_eq rfl rfl)
  | array elements =>
    exact (appends_evaluate host elements).bind fun values after => .modifies rfl (.of_eq rfl rfl)

private theorem appends_underAssignments (host : Host m) {course : Course m α}
    (appends : ∀ after, Appends out err after course course) (assignments : List Assignment) :
    Appends out err shell (underAssignments host course assignments)
      (underAssignments host course assignments) := by
  induction assignments generalizing shell with
  | nil => exact appends shell
  | cons assignment rest ih =>
    unfold underAssignments
    refine .afterGet ?_
    simp only [Shell.saved_behind]
    refine Lockstep.afterwards ?_ (fun _ => rfl) fun _ => .of_eq rfl rfl
    exact (appends_assign host assignment).bind fun _ _ => ih

end Course

/-- Whatever is nested only adds to the output. -/
structure Nested.Append (out err : String) {m : Type → Type} (nested : Nested (Course m)) :
    Prop where
  call : ∀ shell body, Course.Appends out err shell (nested.call body) (nested.call body)
  source : ∀ shell text, Course.Appends out err shell (nested.source text) (nested.source text)

namespace Course

open Execution

variable {m : Type → Type} {shell : Shell} {out err : String}

private theorem appends_settle {course : Course m Flow}
    (appends : Appends out err shell course course) :
    Appends out err shell (settle course) (settle course) := by
  unfold settle
  refine appends.bind fun flow after => ?_
  cases flow with
  | normal status => exact .afterModify rfl (.of_eq rfl rfl) fun _ => .returns _
  | returning status => exact .returns _
  | exiting status => exact .returns _

section
variable {nested : Nested (Course m)} (append : nested.Append out err)
include append

private theorem appends_call (body : Command) (arguments : List String) :
    Appends out err shell (call nested body arguments) (call nested body arguments) := by
  unfold call
  refine .afterGet ?_
  refine .ite (fun _ => .throws _) fun _ => .afterSet rfl (.of_eq rfl rfl) ?_
  refine Lockstep.bind (.afterwards (append.call _ body) ?_ ?_) fun flow after => ?_
  · exact fun _ => rfl
  · exact fun _ => .of_eq rfl rfl
  · cases flow <;> exact .returns _

private theorem appends_sourceUnit (arguments : List String) (content : String) :
    Appends out err shell (Builtin.sourceUnit nested.source arguments content)
      (Builtin.sourceUnit nested.source arguments content) := by
  unfold Builtin.sourceUnit
  refine .afterGet ?_
  refine .afterModify rfl (.of_eq rfl rfl) fun after => ?_
  refine Lockstep.bind (.afterwards (append.source _ _) ?_ ?_) fun flow after => ?_
  · exact fun _ => rfl
  · exact fun _ => .of_eq rfl rfl
  · cases flow <;> exact .returns _

private theorem appends_sourceFile (host : Host m) (arguments : List String) :
    Appends out err shell (Builtin.sourceFile host (some nested.source) arguments)
      (Builtin.sourceFile host (some nested.source) arguments) := by
  unfold Builtin.sourceFile
  cases arguments with
  | nil => exact .returns _
  | cons path rest =>
    refine .afterGet (.ite (fun _ => .throws _) fun _ => .afterAsk fun answer => ?_)
    cases answer with
    | error error => exact .returns _
    | ok content => exact appends_sourceUnit append rest content

private theorem appends_perform (host : Host m) (builtin : Builtin) (arguments : List String) :
    Appends out err shell (builtin.perform host (some nested.source) arguments)
      (builtin.perform host (some nested.source) arguments) := by
  unfold Builtin.perform
  cases builtin with
  | source => exact appends_sourceFile append host arguments
  | shopt => exact (appends_shopt arguments).bind fun _ _ => .returns _
  | set => exact (appends_setArguments arguments).bind fun _ _ => .returns _
  | unset =>
    refine .afterModify (shell.unsetAll_behind false arguments) ?_ fun _ => .returns _
    exact Shell.invariant_extends.unsetAll (.refl shell) false arguments
  | leave => exact appends_leaveWith arguments
  | exit => exact appends_exitWith arguments
  | _ => exact .returns _

private theorem appends_dispatch (host : Host m) (name : String) (arguments : List String) :
    Appends out err shell (dispatch host nested name arguments)
      (dispatch host nested name arguments) := by
  unfold dispatch
  refine .afterGet ?_
  simp only [Shell.functions_behind]
  split
  · exact appends_call append _ arguments
  · rename_i builtin _ _
    refine (appends_perform append host builtin arguments).bind fun outcome after => ?_
    cases outcome with
    | report report =>
      refine .afterModify ?_ ?_ fun _ => .returns _
      · rw [Shell.write_behind, Shell.writeError_behind]
      · exact (after.extends_write _).trans (Shell.extends_writeError _ _)
    | returning status => exact .returns _
    | exiting status => exact .returns _
  · exact .afterModify (shell.writeError_behind _) (shell.extends_writeError _) fun _ => .returns _

variable [Monad m]

private theorem appends_simple (host : Host m) (assignments : List Assignment) (words : List Word) :
    Appends out err shell (simple host nested assignments words)
      (simple host nested assignments words) := by
  unfold simple
  refine (appends_evaluate host words).bind fun texts after => ?_
  cases texts with
  | nil =>
    refine Lockstep.bind (.forM fun assignment after => ?_) fun _ _ => .returns _
    exact appends_assign host assignment
  | cons name arguments =>
    exact appends_underAssignments host
      (fun _ => appends_dispatch append host name arguments) assignments

end

section
variable [Monad m]

mutual

private theorem appends_command {nested : Nested (Course m)} (append : nested.Append out err)
    (host : Host m) (tree : Command) {shell : Shell} :
    Appends out err shell (command settle host nested tree) (command settle host nested tree) := by
  cases tree with
  | simple assignments words =>
    rw [command]
    exact appends_settle (appends_simple append host assignments words)
  | chain left connective right =>
    rw [command]
    refine appends_settle ((appends_command append host left).bind fun flow after => ?_)
    cases flow with
    | normal status =>
      exact .ite (fun _ => appends_command append host right) fun _ => .returns _
    | returning status => exact .returns _
    | exiting status => exact .returns _
  | definition name body =>
    rw [command]
    exact appends_settle (.afterModify rfl (.of_eq rfl rfl) fun _ => .returns _)
  | group body =>
    rw [command]
    exact appends_settle (appends_commands append host 0 body)

private theorem appends_commands {nested : Nested (Course m)} (append : nested.Append out err)
    (host : Host m) (status : Int) (trees : List Command) {shell : Shell} :
    Appends out err shell (commands settle host nested status trees)
      (commands settle host nested status trees) := by
  cases trees with
  | nil =>
    rw [commands]
    exact .returns _
  | cons first rest =>
    rw [commands]
    refine (appends_command append host first).bind fun flow after => ?_
    cases flow with
    | normal status => exact appends_commands append host status rest
    | returning status => exact .returns _
    | exiting status => exact .returns _

end

private theorem appends_rest {nested : Nested (Course m)} (append : nested.Append out err)
    (host : Host m) (parser : Parser) (status : Int) {shell : Shell} :
    Appends out err shell (rest settle host nested parser status)
      (rest settle host nested parser status) := by
  rw [rest]
  refine .afterGet ?_
  simp only [Shell.options_behind]
  split
  · exact .throws _
  · exact .returns _
  · rename_i first after read
    have shorter := Parser.length_unread_lt_of_next read
    refine (appends_command append host first).bind fun flow later => ?_
    cases flow with
    | normal status => exact appends_rest append host after status
    | returning status => exact .returns _
    | exiting status => exact .returns _
termination_by parser.unread.length
decreasing_by simpa using shorter

private theorem appends_unit {nested : Nested (Course m)} (append : nested.Append out err)
    (host : Host m) (text : String) :
    Appends out err shell (unit settle host nested text) (unit settle host nested text) := by
  unfold unit
  exact .afterGet (appends_rest append host _ 0)

theorem append_nested (host : Host m) (levels : Nat) :
    (nested settle host levels : Nested (Course m)).Append out err := by
  induction levels with
  | zero => exact ⟨fun _ _ => .throws _, fun _ _ => .throws _⟩
  | succ levels ih =>
    exact ⟨fun _ body => appends_command ih host body, fun _ text => appends_unit ih host text⟩

private theorem appends_runCommand (host : Host m) (tree : Command) :
    Appends out err shell (runCommand host tree) (runCommand host tree) := by
  unfold runCommand Execution.runCommand
  exact .afterGet (appends_command (append_nested host _) host tree)

private theorem appends_runSource (host : Host m) (text : String) :
    Appends out err shell (runSource host text) (runSource host text) := by
  unfold runSource Execution.runSource
  exact .afterGet (appends_unit (append_nested host _) host text)

end

end Course

namespace Execution

variable {m : Type → Type} [Monad m] [LawfulMonad m]

private theorem ensures_extends {course : Course m Flow} {shell : Shell}
    (steps : course.Steps Shell.Extends shell) :
    course.toAction.Ensures shell fun _ after => shell.Extends after :=
  (steps.always (fun _ _ _ => .trans) (.refl shell)).ensures

private theorem runProgram_behind (host : Host m) (text : String) (shell : Shell) (out err : String)
    (same : (Action.runSource host text).run (shell.behind out err) =
      Prod.map id (Shell.behind out err) <$> (Action.runSource host text).run shell) :
    (shell.behind out err).runProgram host text =
      (fun (report, after) =>
        ({ report with out := out ++ report.out, err := err ++ report.err }, after)) <$>
          shell.runProgram host text := by
  unfold Shell.runProgram
  rw [same, bind_map_left, map_bind]
  refine bind_congr fun ended => ?_
  rcases ended with ⟨fault | flow, after⟩
  · simp [Shell.behind, Shell.writeError, Shell.drained, String.append_assoc]
  · simp [Shell.behind, Shell.drained]

/-- Output is only added to, and nothing depends on it. With other output in front of its own a
shell runs a command, a unit and a program to the same end, which differs in that output alone. And
each step of a run leaves what was written before it where it is, whatever the run ends with. -/
theorem output_only_grows (host : Host m) (shell : Shell) (out err : String) :
    (∀ tree,
      (Action.runCommand host tree).run (shell.behind out err) =
        Prod.map id (Shell.behind out err) <$> (Action.runCommand host tree).run shell ∧
      (Action.runCommand host tree).Ensures shell (fun _ after => shell.Extends after) ∧
      (Course.runCommand host tree).toAction = Action.runCommand host tree ∧
      (Course.runCommand host tree).Steps Shell.Extends shell) ∧
    (∀ text,
      (Action.runSource host text).run (shell.behind out err) =
        Prod.map id (Shell.behind out err) <$> (Action.runSource host text).run shell ∧
      (Action.runSource host text).Ensures shell (fun _ after => shell.Extends after) ∧
      (Course.runSource host text).toAction = Action.runSource host text ∧
      (Course.runSource host text).Steps Shell.Extends shell) ∧
    ∀ text, (shell.behind out err).runProgram host text =
      (fun (report, after) =>
        ({ report with out := out ++ report.out, err := err ++ report.err }, after)) <$>
          shell.runProgram host text := by
  have unit (text : String) : Course.Appends out err shell (Course.runSource host text)
    (Course.runSource host text) := Course.appends_runSource host text
  refine ⟨fun tree => ?_, fun text => ?_, fun text => ?_⟩
  · have appends : Course.Appends out err shell (Course.runCommand host tree)
      (Course.runCommand host tree) := Course.appends_runCommand host tree
    have taken := Course.toAction_runCommand host tree
    exact ⟨taken ▸ appends.run_eq, taken ▸ ensures_extends appends.steps, taken, appends.steps⟩
  · have taken := Course.toAction_runSource host text
    exact ⟨taken ▸ (unit text).run_eq, taken ▸ ensures_extends (unit text).steps, taken,
      (unit text).steps⟩
  · exact runProgram_behind host text shell out err
      (Course.toAction_runSource host text ▸ (unit text).run_eq)

/-- The second line of a program cannot be read. -/
theorem output_only_grows_unreadable :
    let host : Host Id := ⟨fun _ => .ok [], fun _ => .ok ""⟩
    let shell : Shell := { out := "a" }
    let text := "echo b\necho 'c"
    LawfulMonad Id ∧
      (shell.runProgram host text).1 =
        ⟨2, "ab\n", "wordsh: parse error: unterminated single quote starting at offset 12\n"⟩ ∧
      ((shell.behind "x" "y").runProgram host text).1 =
        ⟨2, "xab\n", "ywordsh: parse error: unterminated single quote starting at offset 12\n"⟩ := by
  intro host shell text
  have ran : (shell.runProgram host text).1 =
      ⟨2, "ab\n", "wordsh: parse error: unterminated single quote starting at offset 12\n"⟩ := by
    decide +kernel
  have moved := congrArg Prod.fst ((output_only_grows host shell "x" "y").2.2 text)
  have longer := congrArg (fun report : Report =>
    { report with out := "x" ++ report.out, err := "y" ++ report.err }) ran
  exact ⟨inferInstance, ran, (moved.trans longer).trans (by decide)⟩

end Execution

end PolicyShell
