import PolicyShell.Startup.Program

/-! The shell and the printer of syntax trees as commands of an operating system. -/
namespace PolicyShell

/-- The files of the operating system. The empty path is the working directory. -/
def systemFiles : Files IO where
  isPresent path := (place path).pathExists
  isDirectory path := (place path).isDir
  entries path := do
    try
      return (← (place path).readDir).toList.map (·.fileName)
    catch _ => return []
  read path := do
    try
      return .ok (← IO.FS.readFile (place path))
    catch
      | .noFileOrDirectory .. => return .error .missing
      | .permissionDenied .. => return .error .denied
      | error => return .error (.other (toString error))
where
  place (path : String) := System.mkFilePath [if path.isEmpty then "." else path]

partial def readAll (input : IO.FS.Stream) (before : String) : IO String := do
  let line ← input.getLine
  if line.isEmpty then return before
  readAll input (before ++ line)

/-- The number of this process, or zero on a system that does not list itself among the files. -/
def processId : IO Nat := do
  try
    let status ← IO.FS.readFile "/proc/self/stat"
    return (String.ofList (status.toList.takeWhile Char.isDigit)).toNat?.getD 0
  catch _ => return 0

/-- Prints a report and gives its status. -/
def emit (report : Report) : IO UInt32 := do
  (← IO.getStdout).putStr report.out
  (← IO.getStderr).putStr report.err
  (← IO.getStdout).flush
  return (report.status % 256).toNat.toUInt32

def usage : String :=
  "usage: wordsh [-O NAME | +O NAME]... [--json] [-c COMMAND | SCRIPT] [ARGUMENT]..."

/-- Runs the shell. -/
def shellMain (arguments : List String) : IO UInt32 := do
  match Invocation.read arguments with
  | .error .helpAsked | .error .versionAsked => emit { out := usage ++ "\n" }
  | .error _ => emit { status := 2, err := usage ++ "\n" }
  | .ok invocation =>
    emit (← invocation.run systemFiles (do readAll (← IO.getStdin) "") (← processId))

/-- Prints the syntax tree of the program on standard input. -/
def dumpMain (arguments : List String) : IO UInt32 := do
  emit (dumpProgram arguments (← readAll (← IO.getStdin) ""))

end PolicyShell

def main (arguments : List String) : IO UInt32 := PolicyShell.shellMain arguments
