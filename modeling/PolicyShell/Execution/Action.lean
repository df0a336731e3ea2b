import PolicyShell.Expansion.Evaluate
import PolicyShell.Syntax.ParseError
import PolicyShell.Text.Json

/-! What running a command does: it changes the shell and ends in one of several ways. -/
namespace PolicyShell

/-- How a command ended, with a status in each case. -/
inductive Flow where
  | normal (status : Int)
  /-- The function or the sourced unit around the command is to end, too. -/
  | returning (status : Int)
  /-- The whole program is to end. -/
  | exiting (status : Int)
  deriving DecidableEq, Repr

def Flow.status : Flow → Int
  | normal status | returning status | exiting status => status

/-- What ends a unit of source at once. -/
inductive Fault where
  | parse (error : ParseError)
  | expansion (error : ExpansionError)
  | option (error : OptionError)
  | functionTooDeep
  | sourceTooDeep
  deriving DecidableEq, Repr

namespace Fault

def message : Fault → String
  | parse error => "parse error: " ++ error.message
  | expansion error => error.message
  | option error => "shopt: " ++ error.message
  | functionTooDeep => "maximum function call depth exceeded"
  | sourceTooDeep => "source: maximum nesting depth exceeded"

/-- The status of a unit that ended so. -/
def exitStatus : Fault → Int
  | parse _ => 2
  | _ => 1

end Fault

/-- A status and the output that goes with it. -/
structure Report where
  status : Int := 0
  out : String := ""
  err : String := ""
  deriving DecidableEq, Repr

def Report.toJson (report : Report) : Json :=
  .object [("exit_code", .integer report.status), ("stdout", .text report.out),
    ("stderr", .text report.err)]

/-- A change of the shell with effects `m`. The shell is changed even if there is a fault. -/
abbrev Action (m : Type → Type) := ExceptT Fault (StateT Shell m)

namespace Execution

/- Commands run in any monad `c` that has a shell, faults and the effects `m`. The plainest one is
`Action m`. -/
universe u
variable {m : Type → Type} [Monad m] {c : Type → Type u} [Monad c] [MonadStateOf Shell c]
  [MonadExceptOf Fault c] {α : Type}

/-- Changes the shell after an action, however that ended. -/
def afterwards (action : c α) (change : Shell → Shell) : c α := do
  let value ← tryCatch action fun fault => do modify change; throw fault
  modify change
  return value

/-- The texts of words, each under the options and values of the shell. -/
def evaluate [MonadLiftT m c] (host : Host m) (words : List Word) : c (List String) := do
  let shell ← get
  let texts ← words.mapM fun word => do
    match ← (word.evaluate host shell.options.policy shell.bindings : m _) with
    | .error error => throw (.expansion error)
    | .ok texts => return texts
  return texts.flatten

end Execution

end PolicyShell
