/-! Glob syntax in a text, and texts written so that they have none. -/
namespace PolicyShell.Glob

/-- The characters that make a text a pattern. -/
def isMeta (c : Char) : Bool := c == '*' || c == '?' || c == '['

/-- Whether a character of the pattern is glob syntax. A backslash quotes the next one. -/
def hasMeta : List Char → Bool
  | [] => false
  | '\\' :: _ :: rest => hasMeta rest
  | c :: rest => isMeta c || hasMeta rest

def escapeChar (c : Char) : List Char :=
  if isMeta c || c == ']' || c == '\\' then ['\\', c] else [c]

/-- A pattern that stands for a text as it is. -/
def escape (text : List Char) : List Char := text.flatMap escapeChar

/-- A pattern without the backslashes that quote a character. -/
def unescape : List Char → List Char
  | [] => []
  | '\\' :: c :: rest => c :: unescape rest
  | c :: rest => c :: unescape rest

end PolicyShell.Glob
