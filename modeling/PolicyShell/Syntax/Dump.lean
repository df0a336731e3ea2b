import PolicyShell.Syntax.Command
import PolicyShell.Text.Json

/-! Programs as JSON: each alternative is an object with one member, named for it. -/
namespace PolicyShell

def WordPart.toJson : WordPart → Json
  | .literal text => .object [("Literal", .text text)]
  | .scalar name quoted =>
    .object [("VarSub", .object [("name", .text name), ("quoted", .bool quoted)])]
  | .array name splice quoted =>
    .object [("ArraySub",
      .object [("name", .text name), ("splice", .bool splice), ("quoted", .bool quoted)])]
  | .glob text => .object [("GlobPattern", .text text)]
  | .arguments splice quoted =>
    .object [("PositionalArgs", .object [("splice", .bool splice), ("quoted", .bool quoted)])]

def Word.toJson (word : Word) : Json :=
  .object [("parts", .list (word.parts.map WordPart.toJson))]

def AssignedValue.toJson : AssignedValue → Json
  | .scalar word => .object [("Scalar", word.toJson)]
  | .array elements => .object [("Array", .list (elements.map Word.toJson))]

def Assignment.toJson (assignment : Assignment) : Json :=
  .object [("name", .text assignment.name), ("value", assignment.value.toJson)]

def Connective.toJson : Connective → Json
  | .and => .text "And"
  | .or => .text "Or"

namespace Command

mutual

def toJson : Command → Json
  | simple assignments words =>
    .object [("Simple", .object
      [("assignments", .list (assignments.map Assignment.toJson)),
        ("words", .list (words.map Word.toJson))])]
  | chain left connective right =>
    .object [("List", .object
      [("left", left.toJson), ("op", connective.toJson), ("right", right.toJson)])]
  | definition name body =>
    .object [("FunctionDef", .object [("name", .text name), ("body", body.toJson)])]
  | group body => .object [("Group", .object [("body", .list (listToJson body))])]

def listToJson : List Command → List Json
  | [] => []
  | command :: rest => command.toJson :: listToJson rest

end

/-- The text of a program. -/
def dump (program : List Command) : String := (Json.list (listToJson program)).render

end Command

end PolicyShell
