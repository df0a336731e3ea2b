import PolicyShell.Execution.Action
import PolicyShell.Text.Escapes

/-! Printing arguments. -/
namespace PolicyShell

structure EchoStyle where
  newline : Bool := true
  escapes : Bool := false
  deriving DecidableEq, Repr

namespace EchoStyle

def isFlag (c : Char) : Bool := c == 'n' || c == 'e' || c == 'E'

def withFlag (style : EchoStyle) (c : Char) : EchoStyle :=
  if c = 'n' then { style with newline := false } else { style with escapes := c == 'e' }

/-- Reads the leading arguments that are a dash and flags, and leaves the others. -/
def read (style : EchoStyle) : List String → EchoStyle × List String
  | [] => (style, [])
  | argument :: rest =>
    match argument.toList with
    | '-' :: flag :: flags =>
      if (flag :: flags).all isFlag then read ((flag :: flags).foldl withFlag style) rest
      else (style, argument :: rest)
    | _ => (style, argument :: rest)

end EchoStyle

/-- Prints the arguments with blanks between them. -/
def echo (arguments : List String) : Report :=
  let (style, words) := EchoStyle.read {} arguments
  let body := " ".intercalate words
  let (text, stopped) :=
    if style.escapes then
      let (decoded, stopped) := Escapes.decode body.toList
      (String.ofList decoded, stopped)
    else (body, false)
  { out := if style.newline && !stopped then text ++ "\n" else text }

end PolicyShell
