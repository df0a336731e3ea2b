import PolicyShell.Options

/-! The command line of the shell. -/
namespace PolicyShell

/-- What a command line asks for. -/
structure Invocation where
  /-- Options to turn on or off, in the order in which they were given. -/
  changes : List (Bool × String) := []
  json : Bool := false
  command? : Option String := none
  /-- A script and its positional parameters, or only those if there is a command. -/
  operands : List String := []
  deriving DecidableEq, Repr

inductive UsageError where
  | missingValue (option : String)
  | repeated (option : String)
  | valueNotAllowed (option : String)
  | helpAsked
  | versionAsked
  deriving DecidableEq, Repr

namespace Invocation

/-- Whether an argument is an option that takes the next one for its value. -/
def takesNext (argument : String) : Bool :=
  argument == "+O" || argument == "-O" || argument == "-c"

/-- Whether all that comes after an argument is left as it is. -/
def endsOptions (argument : String) : Bool :=
  argument == "--" || argument.toList.head? != some '-'

/-- Spells `+O` as a long option. -/
def spellOne (argument : String) : String :=
  match argument.toList with
  | ['+', 'O'] => "--unset-option"
  | '+' :: 'O' :: name => "--unset-option=" ++ String.ofList name
  | _ => argument

/-- Spells `+O` as a long option up to the first operand. -/
def spell : List String → List String
  | [] => []
  | [last] => [spellOne last]
  | argument :: next :: rest =>
    if takesNext argument then spellOne argument :: next :: spell rest
    else if spellOne argument = argument ∧ endsOptions argument then argument :: next :: rest
    else spellOne argument :: spell (next :: rest)

/-- Spells the arguments after the name of the program. -/
def spellAll : List String → List String
  | [] => []
  | program :: arguments => program :: spell arguments

def isShort (c : Char) : Bool := c == 'O' || c == 'c' || c == 'h' || c == 'V'

/-- An argument, by what it asks for. A value may be attached to it. -/
inductive Argument where
  | change (on : Bool) (value? : Option String)
  | command (value? : Option String)
  | json (value? : Option String)
  | help (value? : Option String)
  | version (value? : Option String)
  | endOfOptions
  | operand
  deriving DecidableEq, Repr

namespace Argument

/-- An option with a long name, which an equals sign may follow. -/
def long (text : List Char) : Argument :=
  let value? := match text.dropWhile (· != '=') with
    | [] => none
    | _ :: value => some (String.ofList value)
  match String.ofList (text.takeWhile (· != '=')) with
  | "unset-option" => change false value?
  | "json" => json value?
  | "help" => help value?
  | "version" => version value?
  | _ => operand

/-- Letters after a dash are options if all of them are known. The first that takes a value has
the others for it. -/
def short (letter : Char) (others : List Char) : Argument :=
  let value? := if others.isEmpty then none else some (String.ofList others)
  if !(letter :: others).all isShort then operand
  else if letter = 'O' then change true value?
  else if letter = 'c' then command value?
  else if letter = 'h' then help none
  else version none

def ofText (text : String) : Argument :=
  match text.toList with
  | ['-', '-'] => endOfOptions
  | '-' :: '-' :: name => long name
  | '-' :: letter :: others => short letter others
  | _ => operand

end Argument

/-- The value of an option: attached, or else the next argument, which must not be an option or
end them. Also the arguments after it. -/
def value (option : String) (value? : Option String) (rest : List String) :
    Except UsageError (String × List String) :=
  match value?, rest with
  | some value, _ => .ok (value, rest)
  | none, [] => .error (.missingValue option)
  | none, next :: after =>
    if Argument.ofText next = .operand then .ok (next, after) else .error (.missingValue option)

theorem length_le_of_value {option found : String} {value? : Option String}
    {rest after : List String} (read : value option value? rest = .ok (found, after)) :
    after.length ≤ rest.length := by
  unfold value at read
  split at read
  · cases read; exact Nat.le_refl _
  · cases read
  · split at read
    · cases read; exact Nat.le_succ _
    · cases read

/-- Reads arguments up to the first operand, after those that gave `invocation`. -/
def readFrom (invocation : Invocation) (arguments : List String) :
    Except UsageError Invocation :=
  match arguments with
  | [] => .ok invocation
  | argument :: rest =>
    match Argument.ofText argument with
    | .change on value? =>
      match read : value argument value? rest with
      | .error error => .error error
      | .ok (name, after) =>
        have := length_le_of_value read
        readFrom { invocation with changes := invocation.changes ++ [(on, name)] } after
    | .command value? =>
      match read : value argument value? rest with
      | .error error => .error error
      | .ok (text, after) =>
        have := length_le_of_value read
        if invocation.command?.isSome then .error (.repeated argument)
        else readFrom { invocation with command? := some text } after
    | .json (some _) | .help (some _) | .version (some _) => .error (.valueNotAllowed argument)
    | .json none =>
      if invocation.json then .error (.repeated argument)
      else readFrom { invocation with json := true } rest
    | .help none => .error .helpAsked
    | .version none => .error .versionAsked
    | .endOfOptions => .ok { invocation with operands := rest }
    | .operand => .ok { invocation with operands := argument :: rest }
termination_by arguments.length
decreasing_by all_goals simp only [List.length_cons]; omega

@[simp] theorem readFrom_nil (invocation : Invocation) :
    readFrom invocation [] = .ok invocation := by rw [readFrom]

/-- Reads the arguments after the name of the program. -/
def read (arguments : List String) : Except UsageError Invocation :=
  readFrom {} (spell arguments)

end Invocation

end PolicyShell
