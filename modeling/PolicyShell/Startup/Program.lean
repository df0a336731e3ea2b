import PolicyShell.Execution.Run
import PolicyShell.Host.Walk
import PolicyShell.Startup.Invocation
import PolicyShell.Syntax.Dump

/-! Whole runs of the programs: what they print, and the status they end with. -/
namespace PolicyShell

namespace Invocation

/-- A shell with the options of the command line. -/
def shell? (invocation : Invocation) : Except OptionError Shell :=
  (invocation.changes.foldlM change {}).map fun options => { options }
where
  change (options : OptionSet) : Bool × String → Except OptionError OptionSet
    | (on, name) => (options.apply name on .topLevel).map Prod.snd

variable {m : Type → Type} [Monad m]

/-- The text to run in a shell, or why there is none. No file has the empty path. -/
def source (invocation : Invocation) (files : Files m) (input : m String) (shell : Shell) :
    m (Except String (String × Shell)) := do
  match invocation.command?, invocation.operands with
  | some text, arguments => return .ok (text, { shell with arguments })
  | none, [] => return .ok (← input, shell)
  | none, path :: arguments =>
    let content ← if path.isEmpty then pure (.error .missing) else files.read path
    match content with
    | .ok text => return .ok (text, { shell with scriptName := path, arguments })
    | .error error =>
      return .error ("cannot read script `" ++ path ++ "`: " ++ error.reason)

/-- Runs the shell in a process. Either its output is printed, or one line that tells output and
status. -/
def run (invocation : Invocation) (files : Files m) (input : m String) (processId : Nat := 0) :
    m Report := do
  match invocation.shell? with
  | .error error => return failure error.message
  | .ok shell =>
    match ← invocation.source files input { shell with processId } with
    | .error reason => return failure reason
    | .ok (text, shell) =>
      let (report, _) ← shell.runProgram files.host text
      let status := report.status % 256
      return if invocation.json then { status, out := report.toJson.render ++ "\n" }
        else { report with status }
where
  failure (reason : String) : Report := { status := 1, err := "wordsh: " ++ reason ++ "\n" }

end Invocation

/-- Prints the syntax tree of a program. -/
def dumpProgram (arguments : List String) (text : String) : Report :=
  match parse ⟨arguments.contains "--parse-at"⟩ text with
  | .error error => { status := 2, err := "wordsh-parse: " ++ error.message ++ "\n" }
  | .ok program => { out := Command.dump program ++ "\n" }

end PolicyShell
