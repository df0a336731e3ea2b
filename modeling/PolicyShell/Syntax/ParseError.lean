import PolicyShell.Syntax.Token

/-! Errors of reading a program. -/
namespace PolicyShell

/-- What was begun and not ended. -/
inductive Construct where
  | singleQuote
  | doubleQuote
  | braceExpansion
  | arrayLiteral
  | braceGroup
  deriving DecidableEq, Repr

def Construct.name : Construct → String
  | singleQuote => "single quote"
  | doubleQuote => "double quote"
  | braceExpansion => "`$\x7b`"
  | arrayLiteral => "array literal"
  | braceGroup => "brace group"

/-- What stands where it may not. -/
inductive Found where
  | char (c : Char)
  | endOfInput
  /-- A token, by its description. -/
  | token (description : String)
  | arrayArgument
  deriving DecidableEq, Repr

def Found.describe : Found → String
  | char c => "`" ++ c.toString ++ "`"
  | endOfInput => "end of input"
  | token description => description
  | arrayArgument => "array assignment in argument position"

/-- Syntax known and refused. -/
inductive Operator where
  | doubleSemicolon
  | background
  | pipe
  | redirection
  | backquote
  | commandSubstitution
  deriving DecidableEq, Repr

def Operator.name : Operator → String
  | doubleSemicolon => ";;"
  | background => "&"
  | pipe => "|"
  | redirection => "redirection"
  | backquote => "`"
  | commandSubstitution => "$("

/-- Why a text is no program. A place is a number of characters: while a text is being read,
those not yet read; in the answer to a reader, those before the error. -/
inductive ParseError where
  | unterminated (what : Construct) (place : Nat)
  | unexpected (found : Found) (place : Nat)
  | badSubstitution (text : String)
  | unsupported (operator : Operator) (place : Nat)
  deriving DecidableEq, Repr

namespace ParseError

def mapPlace (change : Nat → Nat) : ParseError → ParseError
  | unterminated what place => unterminated what (change place)
  | unexpected found place => unexpected found (change place)
  | badSubstitution text => badSubstitution text
  | unsupported operator place => unsupported operator (change place)

/-- Turns a count of unread characters into an offset in a text of the given length. -/
def locate (error : ParseError) (length : Nat) : ParseError := error.mapPlace (length - ·)

def message : ParseError → String
  | unterminated what place =>
    "unterminated " ++ what.name ++ " starting at offset " ++ toString place
  | unexpected found place => "unexpected " ++ found.describe ++ " at offset " ++ toString place
  | badSubstitution text => "bad substitution: $\x7b" ++ text ++ "\x7d"
  | unsupported operator place =>
    "unsupported syntax `" ++ operator.name ++ "` at offset " ++ toString place

end ParseError

end PolicyShell
