/-! The named options of the shell and the set of those that are on. -/
namespace PolicyShell

inductive ShellOption where
  | staticWords
  | strictArrays
  | atSplices
  deriving DecidableEq, Repr

/-- What an option governs: how words are evaluated, or also how later text is read. -/
inductive OptionScope where
  | session
  | grammar
  deriving DecidableEq, Repr

/-- Where an option is being changed. -/
inductive ExecScope where
  | topLevel
  | function
  deriving DecidableEq, Repr

namespace ShellOption

/-- Every option, in the order in which they are listed. -/
def all : List ShellOption := [.staticWords, .strictArrays, .atSplices]

def name : ShellOption → String
  | staticWords => "static-word-eval"
  | strictArrays => "strict-array"
  | atSplices => "oil-parse-at"

def scope : ShellOption → OptionScope
  | atSplices => .grammar
  | staticWords | strictArrays => .session

/-- An underscore may stand for each dash of a name. -/
def ofName? (text : String) : Option ShellOption :=
  let dashed := text.toList.map fun c => if c = '_' then '-' else c
  all.find? fun option => option.name.toList == dashed

theorem mem_all (option : ShellOption) : option ∈ all := by
  cases option <;> simp [all]

end ShellOption

inductive OptionError where
  | unknown (name : String)
  | topLevelOnly (option : ShellOption)
  deriving DecidableEq, Repr

def OptionError.message : OptionError → String
  | unknown name => name ++ ": invalid shell option name"
  | topLevelOnly option => option.name ++ " can only be set at the top level"

/-- The options that are on. -/
structure OptionSet where
  staticWords : Bool := false
  strictArrays : Bool := false
  atSplices : Bool := false
  deriving DecidableEq, Repr

namespace OptionSet

def isOn (options : OptionSet) : ShellOption → Bool
  | .staticWords => options.staticWords
  | .strictArrays => options.strictArrays
  | .atSplices => options.atSplices

def put (options : OptionSet) (option : ShellOption) (on : Bool) : OptionSet :=
  match option with
  | .staticWords => { options with staticWords := on }
  | .strictArrays => { options with strictArrays := on }
  | .atSplices => { options with atSplices := on }

@[simp] theorem isOn_put (options : OptionSet) (changed option : ShellOption) (on : Bool) :
    (options.put changed on).isOn option = if option = changed then on else options.isOn option := by
  cases changed <;> cases option <;> rfl

/-- Turns a named option on or off. An option that governs reading is turned on only at the
top level. -/
def apply (options : OptionSet) (name : String) (on : Bool) (scope : ExecScope) :
    Except OptionError (ShellOption × OptionSet) :=
  match ShellOption.ofName? name with
  | none => .error (.unknown name)
  | some option =>
    if on && option.scope == .grammar && scope != .topLevel then .error (.topLevelOnly option)
    else .ok (option, options.put option on)

/-- An unknown name is off. -/
def isNamedOn (options : OptionSet) (name : String) : Bool :=
  (ShellOption.ofName? name).any options.isOn

/-- Every option with its state. -/
def states (options : OptionSet) : List (ShellOption × Bool) :=
  ShellOption.all.map fun option => (option, options.isOn option)

end OptionSet

end PolicyShell
