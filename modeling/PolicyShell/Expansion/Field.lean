import PolicyShell.Glob.Escape
import PolicyShell.Text.Split

/-! Fields of a word, put together from left to right. -/
namespace PolicyShell

/-- What a word amounts to before file names are looked up. -/
inductive Field where
  | done (text : String)
  /-- A pattern in which all text that is no glob syntax is quoted, and the text to fall back on
  when nothing matches it. -/
  | pending (pattern literal : String)
  deriving DecidableEq, Repr

/-- A field that has begun. Its text may still be empty. -/
structure Draft where
  literal : String
  pattern : String
  isGlob : Bool
  deriving DecidableEq, Repr

def Draft.field (draft : Draft) : Field :=
  if draft.isGlob then .pending draft.pattern draft.literal else .done draft.literal

/-- The fields that are complete, and the one that goes on. -/
structure FieldBuilder where
  fields : List Field := []
  draft : Option Draft := none
  deriving DecidableEq, Repr

namespace FieldBuilder

def append (builder : FieldBuilder) (literal pattern : String) (isGlob : Bool) : FieldBuilder :=
  let draft := builder.draft.getD ⟨"", "", false⟩
  { builder with
    draft := some ⟨draft.literal ++ literal, draft.pattern ++ pattern, draft.isGlob || isGlob⟩ }

/-- Text that stands for itself. -/
def addLiteral (builder : FieldBuilder) (text : String) : FieldBuilder :=
  builder.append text (String.ofList (Glob.escape text.toList)) false

/-- Glob syntax of the program. -/
def addGlob (builder : FieldBuilder) (text : String) : FieldBuilder :=
  builder.append text text true

def doubleBackslash (c : Char) : List Char := if c = '\\' then ['\\', '\\'] else [c]

/-- A value whose glob syntax counts. Its backslashes quote nothing. -/
def addActive (builder : FieldBuilder) (text : String) : FieldBuilder :=
  builder.append text (String.ofList (text.toList.flatMap doubleBackslash))
    (text.toList.any Glob.isMeta)

/-- Ends the field that goes on, if there is one. -/
def close (builder : FieldBuilder) : FieldBuilder :=
  match builder.draft with
  | none => builder
  | some draft => ⟨builder.fields ++ [draft.field], none⟩

/-- Several values, each in a field of its own. The first goes on with the field before it, and
the last is gone on with. -/
def addEach {α : Type} (add : FieldBuilder → α → FieldBuilder) (builder : FieldBuilder) :
    List α → FieldBuilder
  | [] => builder
  | first :: rest => rest.foldl (fun built value => add built.close value) (add builder first)

/-- The fields of a value. Separators at its ends cut it off from what stands beside it. -/
def addSplit (separators : String) (builder : FieldBuilder) (value : String) : FieldBuilder :=
  let isSeparator := separators.toList.contains
  let closeAt (edge : Option Char) (builder : FieldBuilder) :=
    if edge.any isSeparator then builder.close else builder
  closeAt value.toList.getLast?
    (addEach addActive (closeAt value.toList.head? builder) (splitFields separators value))

def finish (builder : FieldBuilder) : List Field := builder.close.fields

end FieldBuilder

end PolicyShell
