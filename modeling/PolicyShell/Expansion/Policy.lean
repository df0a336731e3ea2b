import PolicyShell.Options

/-! How words are evaluated. -/
namespace PolicyShell

inductive WordMode where
  /-- Unquoted values are split and globbed, and vanish when empty. -/
  | legacy
  /-- Every value is one field, taken literally. -/
  | static
  deriving DecidableEq, Repr

inductive ArrayMode where
  /-- A glob next to a splice joins the element beside it. -/
  | lenient
  /-- A glob next to a splice is an error. -/
  | strict
  deriving DecidableEq, Repr

structure Policy where
  words : WordMode := .legacy
  arrays : ArrayMode := .lenient
  deriving DecidableEq, Repr

def OptionSet.policy (options : OptionSet) : Policy where
  words := if options.staticWords then .static else .legacy
  arrays := if options.strictArrays then .strict else .lenient

end PolicyShell
