import PolicyShell.Glob.Escape
import PolicyShell.Glob.Limits

/-! Patterns for one name of a path. -/
namespace PolicyShell.Glob

/-- A pattern for one name. -/
inductive Segment where
  | literal (name : List Char)
  | pattern (items : List Item) (dotfiles : Bool)
  deriving DecidableEq, Repr

namespace Segment

/-- Whether a pattern asks for a leading dot. -/
def startsWithDot : List Char → Bool
  | '.' :: _ | '\\' :: '.' :: _ => true
  | _ => false

/-- The pattern that a text spells, unless a range in it descends or it exceeds the limits. -/
def compile? (text : List Char) : Option Segment :=
  if hasMeta text then
    ((Item.read? text).filter withinLimits).map (.pattern · (startsWithDot text))
  else some (.literal (unescape text))

/-- Names with a leading dot have to be asked for. -/
def accepts (segment : Segment) (name : List Char) : Bool :=
  match segment with
  | literal wanted => wanted == name
  | pattern items dotfiles => (dotfiles || name.head? != some '.') && matchItems items name

end Segment

end PolicyShell.Glob
