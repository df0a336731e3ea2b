import PolicyShell.Proofs.Execution.Bracketing
import PolicyShell.Proofs.Execution.Nesting
import PolicyShell.Proofs.Execution.Prefixes

/-! Function calls and sourced units give back what they change on the way in. -/
namespace PolicyShell

/-- The texts of a command that calls a function, or sources a file with arguments of its own. -/
inductive Shell.Calls (shell : Shell) : String → List String → Prop where
  | function {name : String} {arguments : List String} (defined : name ∈ shell.functions) :
      shell.Calls name arguments
  | source {name path first : String} {rest : List String}
      (builtin : Builtin.ofName? name = some .source) : shell.Calls name (path :: first :: rest)

theorem Shell.Calls.of_functions {shell after : Shell} {name : String} {arguments : List String}
    (calls : shell.Calls name arguments) (same : after.functions = shell.functions) :
    after.Calls name arguments := by
  cases calls with
  | function defined => exact .function (same ▸ defined)
  | source builtin => exact .source builtin

namespace Execution

open PolicyShell.Action (Ensures LeavesAlone)

variable {m : Type → Type} [Monad m] [LawfulMonad m] {shell : Shell} {name : String}
  {arguments : List String}

/-- Whatever the body does with them, the positional parameters are given back. -/
theorem ensures_call (nested : Nested (Action m)) (body : Command) (arguments : List String)
    (shell : Shell) :
    (call nested body arguments).Ensures shell fun _ after =>
      after.arguments = shell.arguments := by
  unfold call
  refine .afterGet ?_
  split
  · rw [Action.throw_bind]
    exact .of_run rfl rfl
  · refine .afterRun (Action.run_set ..) ?_
    refine (Ensures.afterwards_anything ?_).bind (fun flow after kept => ?_) fun _ _ kept => kept
    · exact fun before => rfl
    · cases flow <;> exact .returns kept

private theorem ensures_sourceUnit (run : String → Action m Flow) {arguments : List String}
    (some : arguments ≠ []) (content : String) (shell : Shell) :
    (Builtin.sourceUnit run arguments content).Ensures shell fun _ after =>
      after.arguments = shell.arguments := by
  have own : arguments.isEmpty = false := by simpa using some
  unfold Builtin.sourceUnit
  refine .afterGet (.afterModify ?_)
  refine (Ensures.afterwards_anything ?_).bind (fun flow after kept => ?_) fun _ _ kept => kept
  · exact fun before => if_neg (Bool.eq_false_iff.mp own)
  · cases flow <;> exact .returns kept

private theorem ensures_sourceFile (host : Host m) (run : String → Action m Flow)
    (path first : String) (rest : List String) (shell : Shell) :
    (Builtin.sourceFile host (some run) (path :: first :: rest)).Ensures shell fun _ after =>
      after.arguments = shell.arguments := by
  unfold Builtin.sourceFile
  refine .afterGet ?_
  split
  · rw [Action.throw_bind]
    exact .of_run rfl rfl
  · have alone := LeavesAlone.lifts (host.read path) shell
    refine alone.ensures_bind (.anything _ shell) (fun answer _ => ?_) fun fault _ => rfl
    cases answer with
    | error error => exact .returns rfl
    | ok content => exact ensures_sourceUnit run (List.cons_ne_nil first rest) content shell

private theorem ensures_dispatch (host : Host m) (nested : Nested (Action m))
    (calls : shell.Calls name arguments) :
    (dispatch host nested name arguments).Ensures shell fun _ after =>
      after.arguments = shell.arguments := by
  unfold dispatch
  refine .afterGet ?_
  cases found : shell.functions[name]? with
  | some body => exact ensures_call nested body arguments shell
  | none =>
    cases calls with
    | function defined =>
      have present := Std.TreeMap.isSome_getElem?_iff_mem.mpr defined
      rw [found] at present
      cases present
    | source builtin =>
      rw [builtin]
      refine Ensures.bind (ensures_sourceFile host nested.source _ _ _ shell) ?_
        fun _ _ kept => kept
      intro outcome after kept
      cases outcome with
      | report report => exact .afterModify (.returns kept)
      | returning status => exact .returns kept
      | exiting status => exact .returns kept

private theorem ensures_underAssignments_call (host : Host m) (nested : Nested (Action m))
    (assignments : List Assignment) (calls : shell.Calls name arguments) :
    (underAssignments host (dispatch host nested name arguments) assignments).Ensures shell
      fun _ after => after.arguments = shell.arguments := by
  refine ensures_underAssignments_reassigned host assignments ?_ ?_ ?_
  · rintro _ ⟨scalars, arrays, rfl⟩
    exact ensures_dispatch host nested (calls.of_functions rfl)
  · rintro fault _ ⟨scalars, arrays, rfl⟩
    rfl
  · rintro outcome before _ ⟨scalars, arrays, rfl⟩ kept
    exact kept

/-- What a simple command does with the texts of its words. -/
def launch (host : Host m) (assignments : List Assignment) : List String → Action m Flow
  | [] => settle do
    assignments.forM (assign host)
    return .normal 0
  | name :: arguments =>
    settle (underAssignments host (dispatch host (whole host) name arguments) assignments)

theorem runCommand_simple (host : Host m) (assignments : List Assignment) (words : List Word) :
    Action.runCommand host (.simple assignments words) =
      evaluate host words >>= launch host assignments := by
  have unfolded : Action.runCommand host = command settle host (whole host) :=
    (solves_whole host).call
  rw [unfolded, command, settle, simple, bind_assoc]
  refine bind_congr fun texts => ?_
  cases texts <;> rfl

private theorem ensures_launch (host : Host m) (assignments : List Assignment)
    (calls : shell.Calls name arguments) :
    (launch host assignments (name :: arguments)).Ensures shell fun _ after =>
      after.arguments = shell.arguments :=
  ensures_settle (ensures_underAssignments_call host (whole host) assignments calls)
    fun _ _ kept => kept

/-- Calls are bracketed: a command and a unit give both depths back however they end. Step by
step, whatever the host answers, neither depth is less than at the start on the way, or more than
both there and its limit. What a simple command calls gives the positional parameters back, too. -/
theorem runs_are_bracketed (host : Host m) (shell : Shell) :
    (∀ tree,
      (Action.runCommand host tree).Ensures shell (fun _ after => after.depth = shell.depth) ∧
      (Course.runCommand host tree).toAction = Action.runCommand host tree ∧
      (Course.runCommand host tree).Always (shell.Brackets ·.depth)
        (fun _ after => after.depth = shell.depth) shell) ∧
    (∀ text,
      (Action.runSource host text).Ensures shell (fun _ after => after.depth = shell.depth) ∧
      (Course.runSource host text).toAction = Action.runSource host text ∧
      (Course.runSource host text).Always (shell.Brackets ·.depth)
        (fun _ after => after.depth = shell.depth) shell) ∧
    ∀ assignments words,
      Action.runCommand host (.simple assignments words) =
        evaluate host words >>= launch host assignments ∧
      (evaluate host words : Action m (List String)).LeavesAlone shell ∧
      ∀ name arguments, shell.Calls name arguments →
        (launch host assignments (name :: arguments)).Ensures shell fun _ after =>
          after.arguments = shell.arguments := by
  refine ⟨fun tree => ?_, fun text => ?_, fun assignments words => ?_⟩
  · have balanced := Course.balanced_runCommand host tree shell
    have same := Course.toAction_runCommand host tree
    exact ⟨same ▸ Course.Always.ensures balanced, same, balanced⟩
  · have balanced := Course.balanced_runSource host text shell
    have same := Course.toAction_runSource host text
    exact ⟨same ▸ Course.Always.ensures balanced, same, balanced⟩
  · exact ⟨runCommand_simple host assignments words, leavesAlone_evaluate host words shell,
      fun name arguments calls => ensures_launch host assignments calls⟩

/-- A function that sets positional parameters and then sources a file with others. -/
theorem runs_are_bracketed_set :
    let host : Host Id := ⟨fun _ => .ok [], fun _ => .ok "set a b; exit"⟩
    let body : Command := .group [.simple [] [.literal "set", .literal "x"],
      .simple [] [.literal "source", .literal "file", .literal "y"]]
    let shell : Shell := { arguments := ["kept"], functions := .ofList [("f", body)] }
    shell.Calls "f" [] ∧ (launch host [] ["f"]).Ensures shell fun _ after =>
      after.arguments = shell.arguments := by
  intro host body shell
  have calls : shell.Calls "f" [] := .function (by decide +kernel)
  exact ⟨calls, ((runs_are_bracketed host shell).2.2 [] []).2.2 "f" [] calls⟩

end Execution

end PolicyShell
