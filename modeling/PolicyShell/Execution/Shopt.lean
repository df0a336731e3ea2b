import PolicyShell.Execution.Action

/-! Showing and changing options. -/
namespace PolicyShell.Shopt

inductive Task where
  | show
  | turn (on : Bool)
  deriving DecidableEq, Repr

structure Request where
  task : Task := .show
  /-- Options are shown as the commands that set them. -/
  asCommands : Bool := false
  quiet : Bool := false
  deriving DecidableEq, Repr

namespace Request

def withFlag? (request : Request) : Char → Option Request
  | 's' => some { request with task := .turn true }
  | 'u' => some { request with task := .turn false }
  | 'p' => some { request with asCommands := true }
  | 'q' => some { request with quiet := true }
  | _ => none

/-- Reads flags up to the first that is unknown. -/
def withFlags (request : Request) : List Char → Except Char Request
  | [] => .ok request
  | flag :: rest =>
    match request.withFlag? flag with
    | none => .error flag
    | some changed => withFlags changed rest

/-- Reads the leading arguments that are a dash and flags, and leaves the names after them. -/
def read (request : Request) : List String → Except Char (Request × List String)
  | [] => .ok (request, [])
  | argument :: rest =>
    if argument = "--" then .ok (request, rest)
    else match argument.toList with
      | '-' :: flag :: flags =>
        match request.withFlags (flag :: flags) with
        | .error unknown => .error unknown
        | .ok changed => read changed rest
      | _ => .ok (request, argument :: rest)

/-- How an option is shown. -/
def display (request : Request) (option : ShellOption) (on : Bool) : String :=
  if request.quiet then ""
  else if request.asCommands then
    "shopt " ++ (if on then "-s " else "-u ") ++ option.name ++ "\n"
  else
    let padding := String.ofList (List.replicate (20 - option.name.length) ' ')
    option.name ++ padding ++ "\t" ++ (if on then "on" else "off") ++ "\n"

end Request

def complaint (error : OptionError) : String := "shopt: " ++ error.message ++ "\n"

/-- Every option, or those in the state that the task would bring about. -/
def listAll (request : Request) (options : OptionSet) : Report :=
  let wanted := options.states.filter fun (_, on) =>
    match request.task with
    | .show => true
    | .turn target => on == target
  { out := String.join (wanted.map fun (option, on) => request.display option on) }

/-- Shows the named options. The status tells whether all of them are known and on. -/
def showNamed (request : Request) (options : OptionSet) : List String → Report
  | [] => {}
  | name :: rest =>
    let later := showNamed request options rest
    match ShellOption.ofName? name with
    | none => ⟨1, later.out, complaint (.unknown name) ++ later.err⟩
    | some option =>
      let on := options.isOn option
      ⟨if on then later.status else 1, request.display option on ++ later.out, later.err⟩

/-- Turns the named options on or off, up to the first that may not be changed here. The text
complains of unknown names. -/
def turnNamed (on : Bool) (scope : ExecScope) (options : OptionSet) :
    List String → OptionSet × Except OptionError String
  | [] => (options, .ok "")
  | name :: rest =>
    match options.apply name on scope with
    | .ok (_, changed) => turnNamed on scope changed rest
    | .error (.unknown name) =>
      let (final, outcome) := turnNamed on scope options rest
      (final, outcome.map (complaint (.unknown name) ++ ·))
    | .error error => (options, .error error)

universe u

def perform {c : Type → Type u} [Monad c] [MonadStateOf Shell c] [MonadExceptOf Fault c]
    (arguments : List String) : c Report := do
  match Request.read {} arguments with
  | .error flag =>
    return { status := 2, err := "shopt: -" ++ flag.toString ++
      ": invalid option\nshopt: usage: shopt [-pqsu] [optname ...]\n" }
  | .ok (request, names) =>
    let shell ← get
    if names.isEmpty then return listAll request shell.options
    match request.task with
    | .show => return showNamed request shell.options names
    | .turn on =>
      let (options, outcome) := turnNamed on shell.scope shell.options names
      set { shell with options }
      match outcome with
      | .error error => throw (.option error)
      | .ok complaints => return ⟨if complaints.isEmpty then 0 else 1, "", complaints⟩

end PolicyShell.Shopt
