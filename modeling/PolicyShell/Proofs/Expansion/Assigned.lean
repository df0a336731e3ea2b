import PolicyShell.Proofs.Expansion.Shape

/-! The value of a word in an assignment. It is made of the values of the parts, and yet it is the
line of the fields that the word has where values are neither split nor dropped: the one blank
between the elements of a splice is the end of a field there. -/
namespace PolicyShell

/-- Rows of texts as one text. Rows are parted by a blank, and what is in one row is not parted. -/
def lineOf (rows : List (List String)) : String := " ".intercalate (rows.map String.join)

theorem lineOf_cons (first : List String) {rows : List (List String)} (present : rows ≠ []) :
    lineOf (first :: rows) = String.join first ++ " " ++ lineOf rows := by
  have present' : rows.map String.join ≠ [] := by simpa using present
  rw [lineOf, List.map_cons, String.intercalate_cons_of_ne_nil present']
  rfl

private theorem glue_ne_nil {α : Type} (first : List α) (others later : List (List α)) :
    glue (first :: others) later ≠ [] := by
  cases others with
  | nil => cases later <;> simp [glue]
  | cons second others => simp [glue]

/-- Where rows are glued together no blank stands. -/
theorem lineOf_glue (earlier later : List (List String)) :
    lineOf (glue earlier later) = lineOf earlier ++ lineOf later := by
  fun_induction glue earlier later with
  | case1 => simp [lineOf]
  | case2 => simp [lineOf]
  | case3 last next later => simp [lineOf, String.join_append]
  | case4 first second others later ih =>
    rw [lineOf_cons first (glue_ne_nil second others later), ih,
      lineOf_cons first (List.cons_ne_nil second others)]
    simp [String.append_assoc]

private theorem lineOf_map_singleton (texts : List String) :
    lineOf (texts.map ([·])) = " ".intercalate texts := by
  simp [lineOf, Function.comp_def]

namespace Word

variable (bindings : Bindings)

private theorem map_text_shares (part : WordPart) :
    (shares bindings.count part).map bindings.text = bindings.texts part := by
  have every := map_range_getD (bindings.texts part) ""
  rw [shares, List.map_map]
  exact every

/-- Elements of a splice are joined with blanks in an assignment, and those of any other reference
with the first separator, as they are in a field. -/
theorem intercalate_elementTexts (splice : Bool) (elements : List String) :
    " ".intercalate (elementTexts splice bindings.separators elements) =
      partValue.join bindings splice elements := by
  cases splice with
  | true => simp [elementTexts, partValue.join, joinFields]
  | false => simp [elementTexts, partValue.join]

private theorem intercalate_texts (part : WordPart) :
    " ".intercalate (bindings.texts part) = partValue bindings part := by
  cases part with
  | literal text => simp [Bindings.texts, partValue]
  | glob text => simp [Bindings.texts, partValue]
  | scalar name quoted => simp [Bindings.texts, partValue]
  | array name splice quoted => exact intercalate_elementTexts bindings splice _
  | arguments splice quoted => exact intercalate_elementTexts bindings splice _

/-- The line of a word's layout grows with each part by the value of the part. -/
theorem lineOf_layout (parts : List WordPart) :
    lineOf ((layout bindings.count ⟨parts⟩).map (List.map bindings.text)) =
      assignedValue bindings ⟨parts⟩ := by
  induction parts with
  | nil => simp [layout, lineOf, assignedValue]
  | cons part parts ih =>
    have row : ((shares bindings.count part).map ([·])).map (List.map bindings.text) =
        (bindings.texts part).map ([·]) := by
      rw [← map_text_shares, List.map_map, List.map_map]
      rfl
    rw [layout_cons, map_glue, lineOf_glue, ih, row, lineOf_map_singleton, intercalate_texts]
    simp [assignedValue]

/-- The value of a word in an assignment is the line of its fields in the static mode, in which
every value is one field, with lenient arrays. -/
theorem assignedValue_eq_fields (word : Word) :
    ∃ fields, word.fields ⟨.static, .lenient⟩ bindings = .ok fields ∧
      word.assignedValue bindings = " ".intercalate (fields.map Field.literal) := by
  have literal : word.IsLiteral ⟨.static, .lenient⟩ := .inl rfl
  have shaped := shaped_fields bindings literal
  refine ⟨_, fields_of_lenient .static bindings word, ?_⟩
  calc word.assignedValue bindings
    _ = lineOf ((word.layout bindings.count).map (List.map bindings.text)) :=
      (lineOf_layout bindings word.parts).symm
    _ = " ".intercalate ((word.layout bindings.count).map fun shares =>
          String.join (shares.map bindings.text)) := by
      rw [lineOf, List.map_map]
      rfl
    _ = " ".intercalate _ := by rw [shaped.literal]

/-- An empty splice gives nothing at all, and an empty element still a blank. -/
example :
    let bindings : Bindings :=
      ⟨fun _ => none, fun name => if name = "e" then some [] else some ["", "b"], ["c", ""], ":"⟩
    let word : Word := ⟨[.array "e" true true, .array "a" true true, .arguments true false, .glob "*"]⟩
    word.assignedValue bindings = " bc *" ∧
      word.fields ⟨.static, .lenient⟩ bindings =
        .ok [.done "", .done "bc", .pending "*" "*"] := by
  decide +kernel

end Word

end PolicyShell
