/-! The world outside the shell, as far as the shell looks at it. -/
namespace PolicyShell

inductive HostError where
  | notFound (path : String)
  | permissionDenied (path : String)
  | failure (reason : String)
  | badPattern (pattern : String)
  deriving DecidableEq, Repr

def HostError.message : HostError → String
  | notFound path => "not found: " ++ path
  | permissionDenied path => "permission denied: " ++ path
  | failure reason => "I/O error: " ++ reason
  | badPattern pattern => "invalid glob pattern: " ++ pattern

/-- Why a file cannot be read. -/
inductive FileError where
  | missing
  | denied
  | other (reason : String)
  deriving DecidableEq, Repr

namespace FileError

def reason : FileError → String
  | missing => "No such file or directory (os error 2)"
  | denied => "Permission denied (os error 13)"
  | other reason => reason

/-- The error with the path of the file. -/
def atPath (path : String) : FileError → HostError
  | missing => .notFound path
  | denied => .permissionDenied path
  | other reason => .failure (path ++ ": " ++ reason)

end FileError

/-- Answers to the questions of a shell, each given with an effect `m`. -/
structure Host (m : Type → Type) where
  /-- The paths that a pattern stands for, in any order. -/
  glob : String → m (Except HostError (List String))
  read : String → m (Except HostError String)

end PolicyShell
