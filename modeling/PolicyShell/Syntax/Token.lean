import PolicyShell.Syntax.Word

/-! Tokens of a program. -/
namespace PolicyShell

inductive Token where
  | word (word : Word)
  | assignment (assigned : Assignment)
  | and
  | or
  | semicolon
  | newline
  | leftParen
  | rightParen
  | leftBrace
  | rightBrace
  deriving DecidableEq, Repr

namespace Token

/-- Separators stand between commands. -/
def isSeparator : Token → Bool
  | semicolon | newline => true
  | _ => false

def describe : Token → String
  | word _ => "word"
  | assignment assigned => "assignment to `" ++ assigned.name ++ "`"
  | and => "`&&`"
  | or => "`||`"
  | semicolon => "`;`"
  | newline => "newline"
  | leftParen => "`(`"
  | rightParen => "`)`"
  | leftBrace => "`\x7b`"
  | rightBrace => "`\x7d`"

end Token

end PolicyShell
