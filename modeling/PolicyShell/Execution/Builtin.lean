import PolicyShell.Execution.Echo
import PolicyShell.Execution.Shopt
import PolicyShell.Host.Basic
import PolicyShell.Text.Listing

/-! The commands that every shell has. -/
namespace PolicyShell

inductive Builtin where
  | argv
  | echo
  | succeed
  | fail
  | shopt
  | set
  | unset
  | source
  | leave
  | exit
  deriving DecidableEq, Repr

/-- The builtin of a name. -/
def Builtin.ofName? : String → Option Builtin
  | "argv" => some .argv
  | "echo" => some .echo
  | "true" | ":" => some .succeed
  | "false" => some .fail
  | "shopt" => some .shopt
  | "set" => some .set
  | "unset" => some .unset
  | "source" | "." => some .source
  | "return" => some .leave
  | "exit" => some .exit
  | _ => none

/-- What came of a builtin. -/
inductive BuiltinOutcome where
  | report (report : Report)
  | returning (status : Int)
  | exiting (status : Int)
  deriving DecidableEq, Repr

namespace Shell

/-- The variables in the order of their names, each as an assignment on a line. -/
def listVariables (shell : Shell) : String :=
  let names := (shell.scalars.keys ++ shell.arrays.keys).mergeSort
  String.join <| names.map fun name =>
    match shell.scalars[name]?, shell.arrays[name]? with
    | some value, _ => name ++ "=" ++ Listing.quote value ++ "\n"
    | none, some values =>
      name ++ "=(" ++ " ".intercalate (values.map Listing.quote) ++ ")\n"
    | none, none => ""

/-- Removes an element of an array, unless there is none at the index. -/
def unsetElement (shell : Shell) (name : String) (index : List Char) : Shell :=
  match shell.arrays[name]?, Numeral.natural? index with
  | some values, some index =>
    if index < values.length then
      { shell with arrays := shell.arrays.insert name (values.eraseIdx index) }
    else shell
  | _, _ => shell

/-- Removes a variable, or one element of it. -/
def unsetNamed (shell : Shell) (name : String) : Shell :=
  match Name.element? name.toList with
  | some (array, index) => shell.unsetElement (String.ofList array) index
  | none => shell.unset name

def unsetFunction (shell : Shell) (name : String) : Shell :=
  { shell with functions := shell.functions.erase name }

/-- Removes what the arguments name: functions if the last flag before the names says so,
otherwise variables. -/
def unsetAll (shell : Shell) (functions : Bool) : List String → Shell
  | [] => shell
  | "-f" :: rest => shell.unsetAll true rest
  | "-v" :: rest => shell.unsetAll false rest
  | names => names.foldl (if functions then unsetFunction else unsetNamed) shell

/-- The status that an argument asks for, of which the low eight bits count. Without an argument
it is that of the last command. -/
def requestedStatus? (shell : Shell) : List String → Option Int
  | [] => some shell.status
  | argument :: _ => (Numeral.integer? argument.toList).map (· % 256)

end Shell

namespace Builtin

universe u
variable {m : Type → Type} {c : Type → Type u} [Monad c] [MonadStateOf Shell c]

/-- Shows the variables, or sets the positional parameters. -/
def setArguments (arguments : List String) : c Report := do
  match arguments with
  | [] => return { out := (← get).listVariables }
  | first :: rest =>
    if first = "--" then
      modify fun shell => { shell with arguments := rest }
      return {}
    else if first.toList.head? = some '-' ∨ first.toList.head? = some '+' then
      return { status := 2, err := "set: " ++ first ++ ": invalid option\n" }
    else
      modify fun shell => { shell with arguments }
      return {}

def notNumeric (name : String) (arguments : List String) : String :=
  name ++ ": " ++ arguments.headD "" ++ ": numeric argument required\n"

def leaveWith (arguments : List String) : c BuiltinOutcome := do
  let shell ← get
  if shell.functionDepth = 0 ∧ shell.sourceDepth = 0 then
    return .report
      { status := 1, err := "return: can only `return' from a function or sourced script\n" }
  match shell.requestedStatus? arguments with
  | some status => return .returning status
  | none => return .report { status := 2, err := notNumeric "return" arguments }

def exitWith (arguments : List String) : c BuiltinOutcome := do
  match (← get).requestedStatus? arguments with
  | some status => return .exiting status
  | none =>
    modify (·.writeError (notNumeric "exit" arguments))
    return .exiting 2

/-- The text of a script after its first line, if that names an interpreter. -/
def withoutInterpreter (content : String) : String :=
  match content.toList with
  | '#' :: '!' :: rest => String.ofList ((rest.dropWhile (· != '\n')).drop 1)
  | _ => content

variable [MonadExceptOf Fault c]

/-- Runs a unit one level down, with positional parameters of its own if there are any. -/
def sourceUnit (run : String → c Flow) (arguments : List String) (content : String) :
    c BuiltinOutcome := do
  let saved := (← get).arguments
  modify fun shell => { shell with
    sourceDepth := shell.sourceDepth + 1
    arguments := if arguments.isEmpty then shell.arguments else arguments }
  let flow ← Execution.afterwards (run (withoutInterpreter content)) fun shell => { shell with
    sourceDepth := shell.sourceDepth - 1
    arguments := if arguments.isEmpty then shell.arguments else saved }
  match flow with
  | .normal status | .returning status => return .report { status }
  | .exiting status => return .exiting status

variable [MonadLiftT m c]

/-- Reads a file and runs it. -/
def sourceFile (host : Host m) (run? : Option (String → c Flow)) (arguments : List String) :
    c BuiltinOutcome := do
  match arguments, run? with
  | [], _ => return .report { status := 2, err := "source: filename argument required\n" }
  | _, none => return .report { status := 1, err := "source: no runner available\n" }
  | path :: rest, some run =>
    if (← get).sourceDepth ≥ Shell.maxSourceDepth then throw .sourceTooDeep
    match ← (host.read path : m _) with
    | .error error =>
      return .report { status := 1, err := "source: " ++ path ++ ": " ++ error.message ++ "\n" }
    | .ok content => sourceUnit run rest content

/-- Runs a builtin. `run?` runs the units that it sources. -/
def perform (host : Host m) (run? : Option (String → c Flow)) (builtin : Builtin)
    (arguments : List String) : c BuiltinOutcome :=
  match builtin with
  | .argv => return .report { out := Listing.line arguments }
  | .echo => return .report (PolicyShell.echo arguments)
  | .succeed => return .report {}
  | .fail => return .report { status := 1 }
  | .shopt => return .report (← Shopt.perform arguments)
  | .set => return .report (← setArguments arguments)
  | .unset => do
    modify (·.unsetAll false arguments)
    return .report {}
  | .source => sourceFile host run? arguments
  | .leave => leaveWith arguments
  | .exit => exitWith arguments

end Builtin

end PolicyShell
