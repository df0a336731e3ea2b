/-! The switches of the grammar. -/
namespace PolicyShell

structure Dialect where
  /-- Whether a whole word `@name` is a splice of an array. -/
  atSplices : Bool := false
  deriving DecidableEq, Repr

end PolicyShell
