import PolicyShell.Glob.Segment
import PolicyShell.Text.Split

/-! Patterns for paths. -/
namespace PolicyShell.Glob

/-- The names in a path. -/
def pathNames (path : List Char) : List (List Char) := runs (· == '/') path

def isAbsolute (path : List Char) : Bool := path.head? == some '/'

structure Pattern where
  absolute : Bool
  segments : List Segment
  deriving DecidableEq, Repr

namespace Pattern

/-- The pattern that a text spells, if every name in it has one. -/
def compile? (text : List Char) : Option Pattern :=
  ((pathNames text).mapM Segment.compile?).map (⟨isAbsolute text, ·⟩)

/-- Whether each segment accepts the name in its place. -/
def acceptNames : List Segment → List (List Char) → Bool
  | [], [] => true
  | segment :: segments, name :: names => segment.accepts name && acceptNames segments names
  | _, _ => false

def accepts (pattern : Pattern) (path : List Char) : Bool :=
  isAbsolute path == pattern.absolute && acceptNames pattern.segments (pathNames path)

end Pattern

end PolicyShell.Glob
