import PolicyShell.Glob.Pattern
import PolicyShell.Host.Basic

/-! Finding the paths of a pattern in directories, one segment after the other. -/
namespace PolicyShell

/-- What is asked of files and directories. A path without a leading slash belongs to the working
directory, which is also the empty path. -/
structure Files (m : Type → Type) where
  isPresent : String → m Bool
  isDirectory : String → m Bool
  /-- The names in a directory; what cannot be listed has none. -/
  entries : String → m (List String)
  read : String → m (Except FileError String)

namespace Files

variable {m : Type → Type} [Monad m]

/-- A name in a directory. The slash that is the root needs no other. -/
def joinPath (directory name : String) : String :=
  if directory.isEmpty then name
  else if directory.toList.getLast? = some '/' then directory ++ name
  else directory ++ "/" ++ name

/-- The paths that a segment leads to from a directory. All but the last segment of a pattern
lead to directories only. -/
def follow (files : Files m) (segment : Glob.Segment) (isLast : Bool) (directory : String) :
    m (List String) := do
  match segment with
  | .literal name =>
    let path := joinPath directory (String.ofList name)
    return if ← files.isPresent path then [path] else []
  | .pattern .. =>
    let names := (← files.entries directory).filter (segment.accepts ·.toList)
    let found ← names.mapM fun name => do
      let path := joinPath directory name
      if isLast then return [path]
      return if ← files.isDirectory path then [path] else []
    return found.flatten

def walk (files : Files m) : List Glob.Segment → List String → m (List String)
  | [], found => return found
  | segment :: rest, found => do
    walk files rest (← found.mapM (files.follow segment rest.isEmpty)).flatten

/-- A pattern without segments stands for nothing. -/
def glob (files : Files m) (pattern : String) : m (Except HostError (List String)) :=
  match Glob.Pattern.compile? pattern.toList with
  | none => return .error (.badPattern pattern)
  | some ⟨_, []⟩ => return .ok []
  | some ⟨absolute, segments⟩ => .ok <$> files.walk segments [if absolute then "/" else ""]

def host (files : Files m) : Host m where
  glob := files.glob
  read path := return (← files.read path).mapError (·.atPath path)

end Files

end PolicyShell
