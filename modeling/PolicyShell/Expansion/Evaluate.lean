import PolicyShell.Expansion.Field
import PolicyShell.Expansion.Policy
import PolicyShell.Host.Basic
import PolicyShell.Shell.Bindings
import PolicyShell.Syntax.Word

/-! Evaluation of words. -/
namespace PolicyShell

inductive ExpansionError where
  /-- A strict array is spliced next to a glob in a word, which is given as it was written. -/
  | spliceBesideGlob (word : String)
  deriving DecidableEq, Repr

def ExpansionError.message : ExpansionError → String
  | spliceBesideGlob word =>
    "strict-array: array splice next to a glob pattern in `" ++ word ++ "`"

namespace FieldBuilder

/-- A value as it is, or split. -/
def addValue (policy : Policy) (quoted : Bool) (separators : String) (builder : FieldBuilder)
    (value : String) : FieldBuilder :=
  if quoted || policy.words == .static then builder.addLiteral value
  else builder.addSplit separators value

def addElements (policy : Policy) (splice quoted : Bool) (separators : String)
    (builder : FieldBuilder) (elements : List String) : FieldBuilder :=
  if splice then builder.addEach (addValue policy quoted separators) elements
  else builder.addValue policy quoted separators (joinFields separators elements)

def addPart (policy : Policy) (bindings : Bindings) (builder : FieldBuilder) :
    WordPart → FieldBuilder
  | .literal text => builder.addLiteral text
  | .glob text => builder.addGlob text
  | .scalar name quoted =>
    builder.addValue policy quoted bindings.separators (bindings.scalar name)
  | .array name splice quoted =>
    builder.addElements policy splice quoted bindings.separators (bindings.array name)
  | .arguments splice quoted =>
    builder.addElements policy splice quoted bindings.separators bindings.arguments

end FieldBuilder

namespace Word

/-- Whether strict arrays forbid the word. -/
def hasConflict (word : Word) : Bool :=
  word.parts.any WordPart.isSplice && word.parts.any WordPart.isGlob

/-- The fields of a word. -/
def fields (policy : Policy) (bindings : Bindings) (word : Word) :
    Except ExpansionError (List Field) :=
  if policy.arrays == .strict && word.hasConflict then .error (.spliceBesideGlob word.describe)
  else .ok (word.parts.foldl (FieldBuilder.addPart policy bindings) {}).finish

/-- The value of a part in an assignment. -/
def partValue (bindings : Bindings) : WordPart → String
  | .literal text | .glob text => text
  | .scalar name _ => bindings.scalar name
  | .array name splice _ => join splice (bindings.array name)
  | .arguments splice _ => join splice bindings.arguments
where
  join (splice : Bool) (elements : List String) : String :=
    joinFields (if splice then " " else bindings.separators) elements

/-- The value of a word in an assignment: one text, never split or globbed. -/
def assignedValue (bindings : Bindings) (word : Word) : String :=
  String.join (word.parts.map (partValue bindings))

end Word

/-- The texts of a field: the paths that match it, in order, or else its own. -/
def Field.expand {m : Type → Type} [Monad m] (host : Host m) : Field → m (List String)
  | .done text => return [text]
  | .pending pattern literal => do
    match ← host.glob pattern with
    | .ok [] | .error _ => return [literal]
    | .ok found => return found.mergeSort

/-- The texts of a word. -/
def Word.evaluate {m : Type → Type} [Monad m] (host : Host m) (policy : Policy)
    (bindings : Bindings) (word : Word) : m (Except ExpansionError (List String)) :=
  match word.fields policy bindings with
  | .error error => return .error error
  | .ok fields => return .ok (← fields.mapM (Field.expand host)).flatten

end PolicyShell
