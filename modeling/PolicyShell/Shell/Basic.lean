import PolicyShell.Options
import PolicyShell.Syntax.Command
import PolicyShell.Syntax.Dialect
import Std.Data.TreeMap

/-! What a shell remembers from one command to the next. -/
namespace PolicyShell

structure Shell where
  scalars : Std.TreeMap String String := ∅
  arrays : Std.TreeMap String (List String) := ∅
  functions : Std.TreeMap String Command := ∅
  options : OptionSet := {}
  /-- The positional parameters. -/
  arguments : List String := []
  scriptName : String := "wordsh"
  /-- The status of the last command. -/
  status : Int := 0
  functionDepth : Nat := 0
  sourceDepth : Nat := 0
  /-- The number of the process that the shell runs in. No command changes it. -/
  processId : Nat := 0
  out : String := ""
  err : String := ""

/-- The grammar that the options ask for. -/
def OptionSet.dialect (options : OptionSet) : Dialect := ⟨options.atSplices⟩

namespace Shell

/-- So many function calls may be under way at once. -/
def maxFunctionDepth : Nat := 100

/-- So many sourced units may be under way at once. -/
def maxSourceDepth : Nat := 64

def scope (shell : Shell) : ExecScope :=
  if shell.functionDepth > 0 then .function else .topLevel

/-- Assigns a scalar in place of any array of that name. -/
def setScalar (shell : Shell) (name value : String) : Shell :=
  { shell with arrays := shell.arrays.erase name, scalars := shell.scalars.insert name value }

/-- Assigns an array in place of any scalar of that name. -/
def setArray (shell : Shell) (name : String) (values : List String) : Shell :=
  { shell with scalars := shell.scalars.erase name, arrays := shell.arrays.insert name values }

def unset (shell : Shell) (name : String) : Shell :=
  { shell with scalars := shell.scalars.erase name, arrays := shell.arrays.erase name }

def write (shell : Shell) (text : String) : Shell := { shell with out := shell.out ++ text }

def writeError (shell : Shell) (text : String) : Shell := { shell with err := shell.err ++ text }

/-- Forgets the output collected so far. -/
def drained (shell : Shell) : Shell := { shell with out := "", err := "" }

end Shell

end PolicyShell
