import PolicyShell.Syntax.Token.Scan

/-! A place in a text from which tokens are read. -/
namespace PolicyShell

structure Cursor where
  text : List Char
  rest : List Char

namespace Cursor

def start (text : String) : Cursor := ⟨text.toList, text.toList⟩

def position (cursor : Cursor) : Nat := cursor.text.length - cursor.rest.length

/-- Goes to a position, or to the end if the text is not that long. -/
def moveTo (cursor : Cursor) (position : Nat) : Cursor :=
  { cursor with rest := cursor.text.drop position }

/-- Reads a token. After an error the cursor stands where reading stopped. -/
def next (dialect : Dialect) (cursor : Cursor) : Except ParseError (Option Token) × Cursor :=
  let scanned := Token.scan dialect cursor.rest
  (scanned.result.mapError (·.locate cursor.text.length), { cursor with rest := scanned.rest })

end Cursor

end PolicyShell
