import PolicyShell.Proofs.Text.Json
import PolicyShell.Syntax.Dump

/-! What is read of the text of a program is that program. -/
namespace PolicyShell

open Json (Document)

def WordPart.ofDocument? : Document → Option WordPart
  | .object [("Literal", .text text)] => some (.literal text)
  | .object [("VarSub", .object [("name", .text name), ("quoted", .bool quoted)])] =>
    some (.scalar name quoted)
  | .object [("ArraySub",
      .object [("name", .text name), ("splice", .bool splice), ("quoted", .bool quoted)])] =>
    some (.array name splice quoted)
  | .object [("GlobPattern", .text text)] => some (.glob text)
  | .object [("PositionalArgs", .object [("splice", .bool splice), ("quoted", .bool quoted)])] =>
    some (.arguments splice quoted)
  | _ => none

def Word.ofDocument? : Document → Option Word
  | .object [("parts", .list parts)] => (parts.mapM WordPart.ofDocument?).map Word.mk
  | _ => none

def AssignedValue.ofDocument? : Document → Option AssignedValue
  | .object [("Scalar", word)] => (Word.ofDocument? word).map .scalar
  | .object [("Array", .list elements)] => (elements.mapM Word.ofDocument?).map .array
  | _ => none

def Assignment.ofDocument? : Document → Option Assignment
  | .object [("name", .text name), ("value", value)] =>
    (AssignedValue.ofDocument? value).map (Assignment.mk name)
  | _ => none

def Connective.ofDocument? : Document → Option Connective
  | .text "And" => some .and
  | .text "Or" => some .or
  | _ => none

namespace Command

mutual

def ofDocument? : Document → Option Command
  | .object [("Simple", .object [("assignments", .list assignments), ("words", .list words)])] => do
    let assignments ← assignments.mapM Assignment.ofDocument?
    let words ← words.mapM Word.ofDocument?
    return simple assignments words
  | .object [("List", .object [("left", left), ("op", connective), ("right", right)])] => do
    let left ← ofDocument? left
    let connective ← Connective.ofDocument? connective
    let right ← ofDocument? right
    return chain left connective right
  | .object [("FunctionDef", .object [("name", .text name), ("body", body)])] =>
    (ofDocument? body).map (definition name)
  | .object [("Group", .object [("body", .list body)])] => (listOfDocuments? body).map group
  | _ => none

def listOfDocuments? : List Document → Option (List Command)
  | [] => some []
  | first :: rest => do
    let first ← ofDocument? first
    let rest ← listOfDocuments? rest
    return first :: rest

end

end Command

/-- A document is read as a value exactly if it is what the value is written as. -/
def IsInverse {α : Type} (decode : Document → Option α) (encode : α → Json) : Prop :=
  ∀ document value, decode document = some value ↔ document = (encode value).document

theorem IsInverse.mapM {α : Type} {decode : Document → Option α} {encode : α → Json}
    (inverse : IsInverse decode encode) (documents : List Document) (values : List α) :
    documents.mapM decode = some values ↔
      documents = Json.itemDocuments (values.map encode) := by
  induction documents generalizing values with
  | nil => cases values <;> simp [Json.itemDocuments]
  | cons document documents ih =>
    cases values with
    | nil => simp [Json.itemDocuments, Option.bind_eq_some_iff]
    | cons value values =>
      simp [Json.itemDocuments, Option.bind_eq_some_iff, inverse document, ih]

private theorem WordPart.isInverse : IsInverse ofDocument? toJson := by
  intro document part
  constructor
  · intro read
    unfold ofDocument? at read
    split at read <;> cases read <;> rfl
  · rintro rfl
    cases part <;> rfl

theorem Word.isInverse : IsInverse ofDocument? toJson := by
  intro document word
  constructor
  · intro read
    unfold ofDocument? at read
    split at read
    · obtain ⟨parts, inner, rfl⟩ := Option.map_eq_some_iff.mp read
      rw [(WordPart.isInverse.mapM _ _).mp inner]
      rfl
    · cases read
  · rintro rfl
    have read := (WordPart.isInverse.mapM _ word.parts).mpr rfl
    exact congrArg (Option.map Word.mk) read

private theorem AssignedValue.isInverse : IsInverse ofDocument? toJson := by
  intro document value
  constructor
  · intro read
    unfold ofDocument? at read
    split at read
    · obtain ⟨word, inner, rfl⟩ := Option.map_eq_some_iff.mp read
      rw [(Word.isInverse _ _).mp inner]
      rfl
    · obtain ⟨elements, inner, rfl⟩ := Option.map_eq_some_iff.mp read
      rw [(Word.isInverse.mapM _ _).mp inner]
      rfl
    · cases read
  · rintro rfl
    cases value with
    | scalar word => exact congrArg (Option.map scalar) ((Word.isInverse _ word).mpr rfl)
    | array elements => exact congrArg (Option.map array) ((Word.isInverse.mapM _ elements).mpr rfl)

theorem Assignment.isInverse : IsInverse ofDocument? toJson := by
  intro document assignment
  constructor
  · intro read
    unfold ofDocument? at read
    split at read
    · obtain ⟨value, inner, rfl⟩ := Option.map_eq_some_iff.mp read
      rw [(AssignedValue.isInverse _ _).mp inner]
      rfl
    · cases read
  · rintro rfl
    have read := (AssignedValue.isInverse _ assignment.value).mpr rfl
    exact congrArg (Option.map (Assignment.mk assignment.name)) read

theorem Connective.isInverse : IsInverse ofDocument? toJson := by
  intro document connective
  constructor
  · intro read
    unfold ofDocument? at read
    split at read <;> cases read <;> rfl
  · rintro rfl
    cases connective <;> rfl

namespace Command

mutual

theorem document_of_ofDocument? {document : Document} {command : Command}
    (read : ofDocument? document = some command) : document = command.toJson.document := by
  unfold ofDocument? at read
  split at read
  · obtain ⟨assignments, first, read⟩ := Option.bind_eq_some_iff.mp read
    obtain ⟨words, second, same⟩ := Option.bind_eq_some_iff.mp read
    cases same
    rw [(Assignment.isInverse.mapM _ _).mp first, (Word.isInverse.mapM _ _).mp second]
    rfl
  · obtain ⟨left, first, read⟩ := Option.bind_eq_some_iff.mp read
    obtain ⟨connective, second, read⟩ := Option.bind_eq_some_iff.mp read
    obtain ⟨right, third, same⟩ := Option.bind_eq_some_iff.mp read
    cases same
    rw [document_of_ofDocument? first, (Connective.isInverse _ _).mp second,
      document_of_ofDocument? third]
    rfl
  · obtain ⟨body, inner, rfl⟩ := Option.map_eq_some_iff.mp read
    rw [document_of_ofDocument? inner]
    rfl
  · obtain ⟨body, inner, rfl⟩ := Option.map_eq_some_iff.mp read
    rw [documents_of_listOfDocuments? inner]
    rfl
  · cases read
termination_by sizeOf document

theorem documents_of_listOfDocuments? {documents : List Document} {program : List Command}
    (read : listOfDocuments? documents = some program) :
    documents = Json.itemDocuments (listToJson program) := by
  unfold listOfDocuments? at read
  split at read
  · cases read
    rfl
  · obtain ⟨command, first, read⟩ := Option.bind_eq_some_iff.mp read
    obtain ⟨rest, second, same⟩ := Option.bind_eq_some_iff.mp read
    cases same
    rw [document_of_ofDocument? first, documents_of_listOfDocuments? second]
    rfl
termination_by sizeOf documents

end

mutual

theorem ofDocument?_document (command : Command) :
    ofDocument? command.toJson.document = some command := by
  match command with
  | simple assignments words =>
    have first := (Assignment.isInverse.mapM _ assignments).mpr rfl
    have second := (Word.isInverse.mapM _ words).mpr rfl
    simp [toJson, Json.document, Json.memberDocuments, ofDocument?, first, second]
  | chain left connective right =>
    have middle := (Connective.isInverse _ connective).mpr rfl
    simp [toJson, Json.document, Json.memberDocuments, ofDocument?, ofDocument?_document left,
      middle, ofDocument?_document right]
  | definition name body =>
    simp [toJson, Json.document, Json.memberDocuments, ofDocument?, ofDocument?_document body]
  | group body =>
    simp [toJson, Json.document, Json.memberDocuments, ofDocument?,
      listOfDocuments?_documents body]

theorem listOfDocuments?_documents (program : List Command) :
    listOfDocuments? (Json.itemDocuments (listToJson program)) = some program := by
  match program with
  | [] => simp [listToJson, Json.itemDocuments, listOfDocuments?]
  | command :: rest =>
    simp [listToJson, Json.itemDocuments, listOfDocuments?, ofDocument?_document command,
      listOfDocuments?_documents rest]

end

def programOf? : Document → Option (List Command)
  | .list documents => listOfDocuments? documents
  | _ => none

private theorem isInverse_programOf? :
    IsInverse programOf? fun program => .list (listToJson program) := by
  intro document program
  constructor
  · intro read
    unfold programOf? at read
    split at read
    · rw [documents_of_listOfDocuments? read]
      rfl
    · cases read
  · rintro rfl
    exact listOfDocuments?_documents program

/-- A JSON reader and the way back from JSON to programs give a program back from its text. So the
text determines the program, and it is one line. -/
theorem dump_determines :
    (∀ program, (Json.read? (dump program)).bind programOf? = some program) ∧
      (IsInverse programOf? fun program => .list (listToJson program)) ∧
      Function.Injective dump ∧ ∀ program, '\n' ∉ (dump program).toList := by
  have back (program : List Command) :
      (Json.read? (dump program)).bind programOf? = some program := by
    rw [dump, Json.read?_render, Option.bind_some]
    exact (isInverse_programOf? _ program).mpr rfl
  refine ⟨back, isInverse_programOf?, ?_, ?_⟩
  · intro first second same
    have read := back first
    rw [same, back second] at read
    exact (Option.some.inj read).symm
  · intro program member
    exact absurd (Json.isOneLine_render _ '\n' member) (by decide)

end Command

end PolicyShell
