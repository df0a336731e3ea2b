/-! Lists of texts on one line: quoted items between brackets, with everything that is not
printable ASCII below U+0080 written as an escape. -/
namespace PolicyShell.Listing

/-- Single quotes, unless the text has those and no double ones. -/
def quoteFor (text : List Char) : Char :=
  if text.contains '\'' && !text.contains '"' then '"' else '\''

def escapeChar (quote c : Char) : List Char :=
  if c = '\\' then ['\\', '\\']
  else if c = '\n' then ['\\', 'n']
  else if c = '\r' then ['\\', 'r']
  else if c = '\t' then ['\\', 't']
  else if c = quote then ['\\', c]
  else if c.toNat < 0x20 ∨ c.toNat = 0x7F then
    ['\\', 'x', Nat.digitChar (c.toNat / 16), Nat.digitChar (c.toNat % 16)]
  else [c]

def quoteChars (text : List Char) : List Char :=
  let quote := quoteFor text
  quote :: text.flatMap (escapeChar quote) ++ [quote]

def quote (text : String) : String := String.ofList (quoteChars text.toList)

/-- The line that lists the items. -/
def line (items : List String) : String :=
  "[" ++ ", ".intercalate (items.map quote) ++ "]\n"

end PolicyShell.Listing
