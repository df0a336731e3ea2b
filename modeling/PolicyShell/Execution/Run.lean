import PolicyShell.Execution.Builtin
import PolicyShell.Syntax.Parser

/-! Running commands and units of source. -/
namespace PolicyShell

universe u

/-- How to run what a command reaches outside itself: the body of a function, and the text of a
sourced unit. -/
structure Nested (c : Type → Type u) where
  call : Command → c Flow
  source : String → c Flow

/-- A name with what it stood for. -/
structure SavedVariable where
  name : String
  scalar : Option String
  array : Option (List String)

namespace Shell

def saved (shell : Shell) (name : String) : SavedVariable :=
  ⟨name, shell.scalars[name]?, shell.arrays[name]?⟩

/-- Gives a name back what it stood for. -/
def restore (shell : Shell) (kept : SavedVariable) : Shell :=
  let cleared := shell.unset kept.name
  { cleared with
    scalars := match kept.scalar with
      | some value => cleared.scalars.insert kept.name value
      | none => cleared.scalars
    arrays := match kept.array with
      | some values => cleared.arrays.insert kept.name values
      | none => cleared.arrays }

/-- So many more function calls and sourced units may be nested. -/
def headroom (shell : Shell) : Nat :=
  (maxFunctionDepth - shell.functionDepth) + (maxSourceDepth - shell.sourceDepth)

end Shell

/-- Whether the right command of a chain runs after this status of the left one. -/
def Connective.goesOn : Connective → Int → Bool
  | .and, status => status == 0
  | .or, status => status != 0

namespace Execution

variable {m : Type → Type} [Monad m] {c : Type → Type u} [Monad c] [MonadStateOf Shell c]
  [MonadExceptOf Fault c] [MonadLiftT m c]

def assign (host : Host m) (assignment : Assignment) : c Unit := do
  match assignment.value with
  | .scalar word =>
    modify fun shell => shell.setScalar assignment.name (word.assignedValue shell.bindings)
  | .array elements =>
    let values ← evaluate host elements
    modify (·.setArray assignment.name values)

/-- Runs an action under assignments, which end with it. -/
def underAssignments {α : Type} (host : Host m) (action : c α) : List Assignment → c α
  | [] => action
  | assignment :: rest => do
    let saved := (← get).saved assignment.name
    afterwards (do assign host assignment; underAssignments host action rest) (·.restore saved)

/-- Runs the body of a function one level down, with positional parameters of its own. -/
def call (nested : Nested c) (body : Command) (arguments : List String) : c Flow := do
  let shell ← get
  if shell.functionDepth ≥ Shell.maxFunctionDepth then throw .functionTooDeep
  set { shell with arguments, functionDepth := shell.functionDepth + 1 }
  let flow ← afterwards (nested.call body) fun after =>
    { after with arguments := shell.arguments, functionDepth := after.functionDepth - 1 }
  match flow with
  | .returning status => return .normal status
  | flow => return flow

/-- Runs a function or else a builtin. -/
def dispatch (host : Host m) (nested : Nested c) (name : String) (arguments : List String) :
    c Flow := do
  match (← get).functions[name]?, Builtin.ofName? name with
  | some body, _ => call nested body arguments
  | none, some builtin =>
    match ← builtin.perform host (some nested.source) arguments with
    | .report report =>
      modify fun shell => (shell.write report.out).writeError report.err
      return .normal report.status
    | .returning status => return .returning status
    | .exiting status => return .exiting status
  | none, none =>
    modify (·.writeError ("wordsh: " ++ name ++ ": command not found\n"))
    return .normal 127

/-- All words are evaluated before anything runs. Assignments stay if there is no word left to
run. -/
def simple (host : Host m) (nested : Nested c) (assignments : List Assignment)
    (words : List Word) : c Flow := do
  match ← evaluate host words with
  | [] =>
    assignments.forM (assign host)
    return .normal 0
  | name :: arguments => underAssignments host (dispatch host nested name arguments) assignments

/-- Remembers the status of a command that ended normally. -/
def settle (action : c Flow) : c Flow := do
  match ← action with
  | .normal status =>
    modify ({ · with status })
    return .normal status
  | flow => return flow

mutual

/-- Runs a command. `ending` is what every command on the way ends with. -/
def command (ending : c Flow → c Flow) (host : Host m) (nested : Nested c) : Command → c Flow
  | .simple assignments words => ending (simple host nested assignments words)
  | .chain left connective right => ending do
    match ← command ending host nested left with
    | .normal status =>
      if connective.goesOn status then command ending host nested right
      else return .normal status
    | flow => return flow
  | .definition name body => ending do
    modify fun shell => { shell with functions := shell.functions.insert name body }
    return .normal 0
  | .group body => ending (commands ending host nested 0 body)

/-- Runs commands in turn; `status` is that of the last one before them. -/
def commands (ending : c Flow → c Flow) (host : Host m) (nested : Nested c) (status : Int) :
    List Command → c Flow
  | [] => return .normal status
  | first :: rest => do
    match ← command ending host nested first with
    | .normal status => commands ending host nested status rest
    | flow => return flow

end

variable (ending : c Flow → c Flow) (host : Host m)

/-- Runs what is left of a unit, reading each command under the options that hold then. -/
def rest (nested : Nested c) (parser : Parser) (status : Int) : c Flow := do
  let dialect := (← get).options.dialect
  match read : (parser.withDialect dialect).next with
  | (.error error, _) => throw (.parse error)
  | (.ok none, _) => return .normal status
  | (.ok (some first), after) =>
    have := Parser.length_unread_lt_of_next read
    match ← command ending host nested first with
    | .normal status => rest nested after status
    | flow => return flow
termination_by parser.unread.length
decreasing_by simpa using this

/-- Runs a unit of source. -/
def unit (nested : Nested c) (text : String) : c Flow := do
  rest ending host nested (.ofText (← get).options.dialect text) 0

/-- What may be nested so many levels deep. Deeper down the limits on the depth of a shell have
been reached. -/
def nested : Nat → Nested c
  | 0 => ⟨fun _ => throw .functionTooDeep, fun _ => throw .sourceTooDeep⟩
  | levels + 1 => ⟨command ending host (nested levels), unit ending host (nested levels)⟩

/-- Runs a command with as many levels below it as the shell has headroom. -/
def runCommand (tree : Command) : c Flow := do
  command ending host (nested ending host (← get).headroom) tree

/-- Runs a unit of source with as many levels below it as the shell has headroom. -/
def runSource (text : String) : c Flow := do
  unit ending host (nested ending host (← get).headroom) text

end Execution

namespace Action

variable {m : Type → Type} [Monad m]

/-- Runs a command. -/
def runCommand (host : Host m) (tree : Command) : Action m Flow :=
  Execution.runCommand Execution.settle host tree

/-- Runs a unit of source, in which an option changes how the rest of it is read. -/
def runSource (host : Host m) (text : String) : Action m Flow :=
  Execution.runSource Execution.settle host text

end Action

/-- Runs a whole program. A fault ends it and is reported after the output of the commands
before it. -/
def Shell.runProgram {m : Type → Type} [Monad m] (host : Host m) (text : String) (shell : Shell) :
    m (Report × Shell) := do
  let (outcome, after) ← (Action.runSource host text).run shell
  let (status, after) := match outcome with
    | .ok flow => (flow.status, after)
    | .error fault => (fault.exitStatus, after.writeError ("wordsh: " ++ fault.message ++ "\n"))
  return (⟨status, after.out, after.err⟩, { after.drained with status })

end PolicyShell
