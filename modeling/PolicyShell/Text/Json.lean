/-! JSON values and their compact text. Members of an object keep their order. -/
namespace PolicyShell

inductive Json where
  | bool (value : Bool)
  | integer (value : Int)
  | text (value : String)
  | list (items : List Json)
  | object (members : List (String × Json))

namespace Json

/-- The escapes that have a letter of their own. -/
def letter? : Char → Option Char
  | '"' => some '"'
  | '\\' => some '\\'
  | '\n' => some 'n'
  | '\t' => some 't'
  | '\r' => some 'r'
  | '\x08' => some 'b'
  | '\x0c' => some 'f'
  | _ => none

def escapeChar (c : Char) : List Char :=
  match letter? c with
  | some letter => ['\\', letter]
  | none =>
    if c.toNat < 0x20 then
      ['\\', 'u', '0', '0', Nat.digitChar (c.toNat / 16), Nat.digitChar (c.toNat % 16)]
    else [c]

def renderText (text : String) : String :=
  String.ofList ('"' :: text.toList.flatMap escapeChar ++ ['"'])

mutual

def render : Json → String
  | .bool true => "true"
  | .bool false => "false"
  | .integer value => toString value
  | .text value => renderText value
  | .list items => "[" ++ renderItems items ++ "]"
  | .object members => "\x7b" ++ renderMembers members ++ "\x7d"

def renderItems : List Json → String
  | [] => ""
  | [item] => item.render
  | item :: rest => item.render ++ "," ++ renderItems rest

def renderMembers : List (String × Json) → String
  | [] => ""
  | [(name, value)] => renderText name ++ ":" ++ value.render
  | (name, value) :: rest => renderText name ++ ":" ++ value.render ++ "," ++ renderMembers rest

end

end Json

end PolicyShell
