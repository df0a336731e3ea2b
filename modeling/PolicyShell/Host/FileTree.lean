import PolicyShell.Host.Walk

/-! A finite tree of files and directories. -/
namespace PolicyShell

inductive FileTree where
  | file (content : String)
  | directory (entries : List (String × FileTree))

namespace FileTree

def isDirectory : FileTree → Bool
  | directory _ => true
  | file _ => false

def names : FileTree → List String
  | directory entries => entries.map Prod.fst
  | file _ => []

def entry? : FileTree → String → Option FileTree
  | directory entries, name => entries.lookup name
  | file _, _ => none

/-- What lies at the end of a path of names. -/
def at? : FileTree → List String → Option FileTree
  | tree, [] => some tree
  | tree, name :: rest => (tree.entry? name).bind (at? · rest)

/-- The tree with something else at a path. Directories on the way there are made. -/
def put : FileTree → List String → FileTree → FileTree
  | _, [], new => new
  | tree, name :: rest, new =>
    let entries := match tree with
      | directory entries => entries
      | file _ => []
    let inner := (entries.lookup name).getD (directory [])
    directory (entries.filter (·.1 != name) ++ [(name, inner.put rest new)])

/-- The tree with a directory at a path, which may have been there before. -/
def putDirectory (tree : FileTree) (path : List String) : FileTree :=
  if (tree.at? path).isSome then tree else tree.put path (directory [])

end FileTree

/-- A tree from the root, and the names that lead to the working directory. -/
structure FileSystem where
  root : FileTree
  workingDirectory : List String

namespace FileSystem

/-- Why a path leads nowhere. -/
inductive Obstacle where
  | missing
  | notDirectory
  | tooLong
  | malformed
  deriving DecidableEq, Repr

def Obstacle.toFileError : Obstacle → FileError
  | missing => .missing
  | notDirectory => .other "Not a directory (os error 20)"
  | tooLong => .other "File name too long (os error 36)"
  | malformed => .other "file name contained an unexpected NUL byte"

/-- The most bytes in a name. -/
def nameLimit : Nat := 255

/-- The most bytes in a path from the root. -/
def pathLimit : Nat := 4095

/-- Follows a path from a place in the tree. An empty name and a dot stay there, two dots go
back, and only directories have a way on. -/
def follow (system : FileSystem) (place : List String) : List String → Except Obstacle (List String)
  | [] => .ok place
  | name :: rest =>
    match system.root.at? place with
    | none | some (.file _) => .error .notDirectory
    | some tree =>
      if name = "" ∨ name = "." then system.follow place rest
      else if name = ".." then system.follow place.dropLast rest
      else if nameLimit < name.utf8ByteSize then .error .tooLong
      else if (tree.entry? name).isSome then system.follow (place ++ [name]) rest
      else .error .missing

/-- The names between the slashes of a path. -/
def pathNames (path : String) : List String :=
  (path.toList.splitOnP (· == '/')).map String.ofList

/-- A path from the root, which a path without a leading slash gets from the working directory. -/
def fromRoot (system : FileSystem) (path : String) : String :=
  if path.toList.head? = some '/' then path
  else system.workingDirectory.foldr (fun name rest => "/" ++ name ++ rest) ("/" ++ path)

def find (system : FileSystem) (path : String) : Except Obstacle (List String) :=
  let path := system.fromRoot path
  if path.toList.contains '\x00' then .error .malformed
  else if pathLimit < path.utf8ByteSize then .error .tooLong
  else system.follow [] (pathNames path)

def tree? (system : FileSystem) (path : String) : Option FileTree :=
  (system.find path).toOption.bind system.root.at?

def read (system : FileSystem) (path : String) : Except FileError String :=
  match system.find path with
  | .error obstacle => .error obstacle.toFileError
  | .ok place =>
    match system.root.at? place with
    | some (.file content) => .ok content
    | some (.directory _) => .error (.other "Is a directory (os error 21)")
    | none => .error .missing

def files {m : Type → Type} [Monad m] (system : FileSystem) : Files m where
  isPresent path := pure (system.tree? path).isSome
  isDirectory path := pure ((system.tree? path).any FileTree.isDirectory)
  entries path := pure ((system.tree? path).map FileTree.names |>.getD [])
  read path := pure (system.read path)

end FileSystem

end PolicyShell
