import PolicyShell.Expansion.Evaluate
import PolicyShell.Proofs.Text.Runs

/-! What the fields of a word mean: the word is flattened to atoms with gaps between them, and
the atoms that no gap parts make up a field. -/
namespace PolicyShell

/-- Whether a part is no substitution, or a quoted one. -/
def WordPart.isQuoted : WordPart → Bool
  | .literal _ | .glob _ => true
  | .scalar _ quoted | .array _ _ quoted | .arguments _ quoted => quoted

/-- Whether all values that are substituted stand for themselves. -/
def Word.IsLiteral (policy : Policy) (word : Word) : Prop :=
  policy.words = .static ∨ ∀ part ∈ word.parts, part.isQuoted = true

/-- A piece of text that lies in one field as a whole. -/
inductive Atom where
  /-- Text that stands for itself. It makes a field even if it is empty. -/
  | inert (text : String)
  /-- Glob syntax of the program. -/
  | glob (text : String)
  /-- A run of an unquoted value, of which the glob syntax counts. -/
  | active (text : String)
  deriving DecidableEq, Repr

namespace Atom

def text : Atom → String
  | inert text | glob text | active text => text

/-- The text with a backslash before each character that is no glob syntax but might be. -/
def pattern : Atom → String
  | inert text => String.ofList (Glob.escape text.toList)
  | glob text => text
  | active text => String.ofList (text.toList.flatMap FieldBuilder.doubleBackslash)

def isPattern : Atom → Bool
  | inert _ => false
  | glob _ => true
  | active text => text.toList.any Glob.isMeta

end Atom

/-- An element of a flattened word. -/
inductive Mark where
  | atom (found : Atom)
  /-- A place where one field ends. -/
  | gap
  deriving DecidableEq, Repr

namespace Mark

def isGap : Mark → Bool
  | .gap => true
  | .atom _ => false

def atom? : Mark → Option Atom
  | .gap => none
  | .atom found => some found

/-- A piece of a value between two separators. -/
def ofRun (run : List Char) : List Mark :=
  if run.isEmpty then [] else [atom (.active (String.ofList run))]

/-- A value that is split: its runs, with a gap for each separator. -/
def ofSplit (separators value : String) : List Mark :=
  [gap].intercalate ((value.toList.splitOnP separators.toList.contains).map ofRun)

def ofValue (policy : Policy) (quoted : Bool) (separators value : String) : List Mark :=
  if quoted || policy.words == .static then [atom (.inert value)] else ofSplit separators value

def ofElements (policy : Policy) (splice quoted : Bool) (separators : String)
    (elements : List String) : List Mark :=
  if splice then [gap].intercalate (elements.map (ofValue policy quoted separators))
  else ofValue policy quoted separators (joinFields separators elements)

def ofPart (policy : Policy) (bindings : Bindings) : WordPart → List Mark
  | .literal text => [atom (.inert text)]
  | .glob text => [atom (.glob text)]
  | .scalar name quoted => ofValue policy quoted bindings.separators (bindings.scalar name)
  | .array name splice quoted =>
    ofElements policy splice quoted bindings.separators (bindings.array name)
  | .arguments splice quoted =>
    ofElements policy splice quoted bindings.separators bindings.arguments

/-- A word, flattened. -/
def ofWord (policy : Policy) (bindings : Bindings) (word : Word) : List Mark :=
  word.parts.flatMap (ofPart policy bindings)

theorem ofValue_of_literal {policy : Policy} {quoted : Bool}
    (literal : policy.words = .static ∨ quoted = true) (separators value : String) :
    ofValue policy quoted separators value = [atom (.inert value)] :=
  if_pos (by simpa [or_comm] using literal)

/-- The atoms between gaps, as far as there are any. -/
def groups (marks : List Mark) : List (List Atom) :=
  ((marks.splitOnP isGap).map (List.filterMap atom?)).filter (!·.isEmpty)

/-- The field that some atoms make up together. -/
def fieldOf (atoms : List Atom) : Field :=
  let literal := String.join (atoms.map Atom.text)
  if atoms.any Atom.isPattern then .pending (String.join (atoms.map Atom.pattern)) literal
  else .done literal

def fields (marks : List Mark) : List Field := (groups marks).map fieldOf

@[simp] theorem splitOnP_atoms (atoms : List Atom) :
    (atoms.map atom).splitOnP isGap = [atoms.map atom] :=
  List.splitOnP_eq_singleton (by simp [isGap])

@[simp] theorem filterMap_atoms (atoms : List Atom) : (atoms.map atom).filterMap atom? = atoms := by
  rw [List.filterMap_map]
  exact List.filterMap_some

private theorem fields_atoms (atoms : List Atom) :
    fields (atoms.map atom) = if atoms.isEmpty then [] else [fieldOf atoms] := by
  unfold fields groups
  rw [splitOnP_atoms, List.map_singleton, filterMap_atoms]
  cases atoms <;> rfl

/-- What stands before a gap makes up a field of its own. -/
theorem groups_append_gap (before marks : List Mark) :
    groups (before ++ gap :: marks) = groups before ++ groups marks := by
  simp only [groups, List.splitOnP_append_cons before marks (show isGap gap = true from rfl),
    List.map_append, List.filter_append]

private theorem fields_append_gap (atoms : List Atom) (marks : List Mark) :
    fields (atoms.map atom ++ gap :: marks) = fields (atoms.map atom) ++ fields marks := by
  rw [fields, groups_append_gap, List.map_append]
  rfl

end Mark

namespace FieldBuilder

def addMark (builder : FieldBuilder) : Mark → FieldBuilder
  | .atom found => builder.append found.text found.pattern found.isPattern
  | .gap => builder.close

/-- Ends the field that goes on if a separator stands at the edge of a value. -/
def closeAt (isSeparator : Char → Bool) (edge : Option Char) (builder : FieldBuilder) :
    FieldBuilder :=
  if edge.any isSeparator then builder.close else builder

@[simp] theorem close_close (builder : FieldBuilder) : builder.close.close = builder.close := by
  rcases builder with ⟨fields, _ | draft⟩ <;> rfl

@[simp] theorem closeAt_close (isSeparator : Char → Bool) (edge : Option Char)
    (builder : FieldBuilder) : closeAt isSeparator edge builder.close = builder.close := by
  unfold closeAt
  split
  · exact close_close builder
  · rfl

/-- Several values are their marks with gaps in between. -/
theorem foldl_intercalate_gap {α : Type} {add : FieldBuilder → α → FieldBuilder}
    {marks : α → List Mark}
    (added : ∀ builder value, (marks value).foldl addMark builder = add builder value)
    (values : List α) (builder : FieldBuilder) :
    ([Mark.gap].intercalate (values.map marks)).foldl addMark builder =
      builder.addEach add values := by
  induction values generalizing builder with
  | nil => rfl
  | cons first rest ih =>
    cases rest with
    | nil => simpa [addEach] using added builder first
    | cons second rest =>
      rw [List.map_cons, List.map_cons, List.intercalate_cons_cons, ← List.map_cons]
      simp only [List.foldl_append, added, ih]
      rfl

private theorem foldl_ofRun {run : List Char} (present : run ≠ []) (builder : FieldBuilder) :
    (Mark.ofRun run).foldl addMark builder = builder.addActive (String.ofList run) := by
  simp [Mark.ofRun, present, addMark, addActive, Atom.text, Atom.pattern, Atom.isPattern]

theorem closeAt_of_not {isSeparator : Char → Bool} {edge : Option Char}
    (differs : ∀ c ∈ edge, isSeparator c = false) (builder : FieldBuilder) :
    closeAt isSeparator edge builder = builder := by
  cases edge with
  | none => rfl
  | some c => simp [closeAt, differs c rfl]

/-- A field in front of a separator ends there, and so does the value if only separators follow. -/
theorem closeAt_addEach_cons {isSeparator : Char → Bool} {c : Char}
    (separates : isSeparator c = true)
    (first : String) (rest : List Char) (builder : FieldBuilder) :
    closeAt isSeparator (c :: rest).getLast?
        (builder.addEach addActive (first :: (runs isSeparator rest).map String.ofList)) =
      closeAt isSeparator rest.getLast?
        ((builder.addActive first).close.addEach addActive
          ((runs isSeparator rest).map String.ofList)) := by
  cases left : runs isSeparator rest with
  | nil =>
    have all : ∀ d ∈ c :: rest, isSeparator d = true := by
      simpa [separates] using runs_eq_nil_iff.mp left
    have last : isSeparator ((c :: rest).getLast (by simp)) = true := all _ (List.getLast_mem _)
    simp only [List.map_nil, addEach, List.foldl_nil, closeAt_close]
    simp only [closeAt, List.getLast?_eq_some_getLast (List.cons_ne_nil c rest), Option.any_some,
      last, ↓reduceIte]
  | cons run later =>
    have present : rest ≠ [] := by
      intro none
      simp [none, runs] at left
    have last : (c :: rest).getLast? = rest.getLast? := by
      rw [List.getLast?_eq_some_getLast (List.cons_ne_nil c rest),
        List.getLast?_eq_some_getLast present, List.getLast_cons present]
    rw [last]
    rfl

private theorem foldl_pieces (isSeparator : Char → Bool) (value : List Char)
    (builder : FieldBuilder) :
    ([Mark.gap].intercalate ((value.splitOnP isSeparator).map Mark.ofRun)).foldl addMark builder =
      closeAt isSeparator value.getLast?
        (addEach addActive (closeAt isSeparator value.head? builder)
          ((runs isSeparator value).map String.ofList)) := by
  rcases plain_or_cut isSeparator value with plain | ⟨before, c, rest, whole, separates, plain⟩
  · rw [List.splitOnP_eq_singleton plain, runs_of_forall plain,
      closeAt_of_not fun c last => plain c (List.mem_of_getLast? last),
      closeAt_of_not fun c first => plain c (List.mem_of_head? first)]
    cases value with
    | nil => rfl
    | cons first others => simp [foldl_ofRun, addEach]
  · have last : (before ++ c :: rest).getLast? = (c :: rest).getLast? := by
      simp [List.getLast?_append, List.getLast?_cons]
    have shorter : rest.length < value.length := by
      simp only [whole, List.length_append, List.length_cons]
      omega
    rw [whole, List.splitOnP_append_cons_of_forall_mem plain c separates, List.map_cons,
      List.intercalate_cons_of_ne_nil (by simp), runs_append_cons before rest separates,
      runs_of_forall plain, last]
    -- the separator ends what goes on, so a further one at the head of the rest does nothing
    simp only [List.foldl_append, List.foldl_cons, List.foldl_nil, addMark,
      foldl_pieces isSeparator rest, closeAt_close]
    cases before with
    | nil =>
      cases rest with
      | nil => simp [closeAt, separates, Mark.ofRun, addEach, runs]
      | cons second others =>
        simp [closeAt, separates, Mark.ofRun, List.getLast?_cons]
    | cons first others =>
      have head : closeAt isSeparator (first :: others ++ c :: rest).head? builder = builder :=
        closeAt_of_not (fun d same => plain d (by simpa using Or.inl same.symm)) builder
      rw [head, foldl_ofRun (by simp)]
      exact (closeAt_addEach_cons separates _ rest builder).symm
termination_by value.length

private theorem foldl_ofSplit (separators value : String) (builder : FieldBuilder) :
    (Mark.ofSplit separators value).foldl addMark builder = builder.addSplit separators value :=
  foldl_pieces separators.toList.contains value.toList builder

theorem foldl_ofValue (policy : Policy) (quoted : Bool) (separators : String)
    (builder : FieldBuilder) (value : String) :
    (Mark.ofValue policy quoted separators value).foldl addMark builder =
      builder.addValue policy quoted separators value := by
  unfold Mark.ofValue addValue
  split
  · rfl
  · exact foldl_ofSplit separators value builder

private theorem foldl_ofElements (policy : Policy) (splice quoted : Bool) (separators : String)
    (builder : FieldBuilder) (elements : List String) :
    (Mark.ofElements policy splice quoted separators elements).foldl addMark builder =
      builder.addElements policy splice quoted separators elements := by
  unfold Mark.ofElements addElements
  split
  · exact foldl_intercalate_gap (foldl_ofValue policy quoted separators) elements builder
  · exact foldl_ofValue ..

private theorem foldl_ofPart (policy : Policy) (bindings : Bindings) (builder : FieldBuilder)
    (part : WordPart) :
    (Mark.ofPart policy bindings part).foldl addMark builder =
      builder.addPart policy bindings part := by
  cases part with
  | literal text => rfl
  | glob text => rfl
  | scalar name quoted => exact foldl_ofValue ..
  | array name splice quoted => exact foldl_ofElements ..
  | arguments splice quoted => exact foldl_ofElements ..

private theorem foldl_ofWord (policy : Policy) (bindings : Bindings) (word : Word)
    (builder : FieldBuilder) :
    (Mark.ofWord policy bindings word).foldl addMark builder =
      word.parts.foldl (addPart policy bindings) builder := by
  rw [Mark.ofWord, List.foldl_flatMap]
  congr 1
  funext builder part
  exact foldl_ofPart policy bindings builder part

/-- What goes on after some atoms; without an atom no field has begun. -/
def draftOf (atoms : List Atom) : Option Draft :=
  if atoms.isEmpty then none
  else some ⟨String.join (atoms.map Atom.text), String.join (atoms.map Atom.pattern),
    atoms.any Atom.isPattern⟩

private theorem append_draftOf (complete : List Field) (atoms : List Atom) (found : Atom) :
    (⟨complete, draftOf atoms⟩ : FieldBuilder).addMark (.atom found) =
      ⟨complete, draftOf (atoms ++ [found])⟩ := by
  cases atoms with
  | nil => simp [addMark, append, draftOf]
  | cons first others =>
    simp [addMark, append, draftOf, String.join_append, String.append_assoc, Bool.or_assoc]

private theorem close_draftOf (complete : List Field) (atoms : List Atom) :
    (⟨complete, draftOf atoms⟩ : FieldBuilder).close =
      ⟨complete ++ Mark.fields (atoms.map .atom), none⟩ := by
  rw [Mark.fields_atoms]
  cases atoms with
  | nil => simp [close, draftOf]
  | cons first others => simp [close, draftOf, Draft.field, Mark.fieldOf]

/-- The fields of a builder after some atoms and further marks: those that were complete, then
the groups of atoms that gaps part. -/
theorem finish_foldl_addMark (marks : List Mark) (complete : List Field) (atoms : List Atom) :
    (marks.foldl addMark ⟨complete, draftOf atoms⟩).finish =
      complete ++ Mark.fields (atoms.map .atom ++ marks) := by
  induction marks generalizing complete atoms with
  | nil => simp [finish, close_draftOf]
  | cons mark marks ih =>
    cases mark with
    | atom found => simpa [append_draftOf] using ih complete (atoms ++ [found])
    | gap =>
      rw [List.foldl_cons, addMark, close_draftOf, Mark.fields_append_gap, ← List.append_assoc]
      exact ih (complete ++ Mark.fields (atoms.map .atom)) []

end FieldBuilder

namespace Word

theorem finish_foldl_addPart (policy : Policy) (bindings : Bindings) (word : Word) :
    (word.parts.foldl (FieldBuilder.addPart policy bindings) {}).finish =
      Mark.fields (Mark.ofWord policy bindings word) := by
  rw [← FieldBuilder.foldl_ofWord]
  exact FieldBuilder.finish_foldl_addMark (Mark.ofWord policy bindings word) [] []

/-- The fields of a word are the groups of its atoms, unless strict arrays forbid the word. -/
theorem fields_eq_marks (policy : Policy) (bindings : Bindings) (word : Word) :
    word.fields policy bindings =
      if policy.arrays = .strict ∧ word.parts.any WordPart.isSplice ∧
          word.parts.any WordPart.isGlob then
        .error (.spliceBesideGlob word.describe)
      else .ok (Mark.fields (Mark.ofWord policy bindings word)) := by
  rw [← finish_foldl_addPart]
  simp [fields, hasConflict]

end Word

end PolicyShell
