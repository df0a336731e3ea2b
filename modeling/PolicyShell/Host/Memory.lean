import PolicyShell.Glob.Pattern
import PolicyShell.Host.Basic
import Std.Data.TreeMap

/-! Files kept by name, without directories. -/
namespace PolicyShell

/-- A pattern stands for the names that it accepts as whole paths. -/
def Host.ofFiles {m : Type → Type} [Monad m] (files : Std.TreeMap String String) : Host m where
  glob pattern := pure <|
    match Glob.Pattern.compile? pattern.toList with
    | none => .error (.badPattern pattern)
    | some compiled => .ok (files.keys.filter (compiled.accepts ·.toList))
  read path := pure <|
    match files[path]? with
    | none => .error (.notFound path)
    | some content => .ok content

end PolicyShell
