import PolicyShell.Proofs.Text.Runs

/-! The fields of a value by the places where they stand in it, and fields that are joined. -/
namespace PolicyShell

variable {isSeparator : Char → Bool} {text before rest run : List Char} {start : Nat} {c : Char}

/-- A text has this run from a place on: none of its characters is a separator, but the one in
front of it and the one behind it are, unless the text begins or ends there. -/
structure IsMaximalRun (isSeparator : Char → Bool) (text : List Char) (start : Nat)
    (run : List Char) : Prop where
  present : run ≠ []
  plain : ∀ c ∈ run, isSeparator c = false
  within : ∃ front back, text = front ++ run ++ back ∧ front.length = start ∧
    (∀ c ∈ front.getLast?, isSeparator c = true) ∧ ∀ c ∈ back.head?, isSeparator c = true

namespace IsMaximalRun

/-- A part of a text that does not have one of its characters in it stands before that or behind
it. -/
theorem aside {front back : List Char} (present : run ≠ []) (outside : c ∉ run)
    (whole : before ++ c :: rest = front ++ run ++ back) :
    (∃ inner, before = front ++ run ++ inner ∧ back = inner ++ c :: rest) ∨
      ∃ inner, front = before ++ c :: inner ∧ rest = inner ++ run ++ back := by
  rw [List.append_assoc] at whole
  -- first where the part begins, and if that is before the character, where it ends
  obtain ⟨inner, rfl, cut⟩ | ⟨inner, rfl, cut⟩ := List.append_eq_append_iff.mp whole
  · cases inner with
    | nil =>
      obtain ⟨d, others, rfl⟩ := List.exists_cons_of_ne_nil present
      obtain ⟨rfl, -⟩ := List.cons.inj cut
      simp at outside
    | cons d inner =>
      obtain ⟨rfl, rfl⟩ := List.cons.inj cut
      exact .inr ⟨inner, rfl, (List.append_assoc ..).symm⟩
  · obtain ⟨inner, rfl, rfl⟩ | ⟨beyond, rfl, split⟩ := List.append_eq_append_iff.mp cut
    · exact .inl ⟨inner, (List.append_assoc ..).symm, rfl⟩
    · cases beyond with
      | nil => exact .inl ⟨[], by simp, split.symm⟩
      | cons d beyond =>
        obtain ⟨rfl, -⟩ := List.cons.inj split
        simp at outside

private theorem start_lt_length (found : IsMaximalRun isSeparator text start run) :
    start < text.length := by
  obtain ⟨present, -, front, back, rfl, rfl, -⟩ := found
  have length := List.length_pos_iff.mpr present
  simp only [List.length_append]
  omega

private theorem iff_of_forall (plain : ∀ c ∈ text, isSeparator c = false) :
    IsMaximalRun isSeparator text start run ↔ text ≠ [] ∧ start = 0 ∧ run = text := by
  constructor
  · rintro ⟨present, -, front, back, rfl, rfl, left, right⟩
    have first : front = [] := by
      cases last : front.getLast? with
      | none => exact List.getLast?_eq_none_iff.mp last
      | some c =>
        have member := List.mem_of_getLast? last
        simpa [left c last] using plain c (by simp [member])
    have last : back = [] := by
      cases first : back.head? with
      | none => exact List.head?_eq_none_iff.mp first
      | some c =>
        have member := List.mem_of_head? first
        simpa [right c first] using plain c (by simp [member])
    simp [first, last, present]
  · rintro ⟨present, rfl, rfl⟩
    exact ⟨present, plain, [], [], by simp⟩

private theorem append_left (found : IsMaximalRun isSeparator before start run)
    (separates : isSeparator c = true) (rest : List Char) :
    IsMaximalRun isSeparator (before ++ c :: rest) start run := by
  obtain ⟨present, plain, front, back, rfl, length, left, right⟩ := found
  refine ⟨present, plain, front, back ++ c :: rest, by simp, length, left, ?_⟩
  intro d first
  cases back with
  | nil =>
    obtain rfl : c = d := by simpa using first
    exact separates
  | cons e back => exact right d first

private theorem append_right (found : IsMaximalRun isSeparator rest start run)
    (separates : isSeparator c = true) (before : List Char) :
    IsMaximalRun isSeparator (before ++ c :: rest) (before.length + 1 + start) run := by
  obtain ⟨present, plain, front, back, rfl, rfl, left, right⟩ := found
  refine ⟨present, plain, before ++ c :: front, back, by simp, by simp; omega, ?_, right⟩
  intro d last
  rw [List.getLast?_append, List.getLast?_cons] at last
  cases inner : front.getLast? with
  | none =>
    obtain rfl : c = d := by simpa [inner] using last
    exact separates
  | some e =>
    obtain rfl : e = d := by simpa [inner] using last
    exact left e inner

/-- The runs of a text are those before one of its separators and those behind it. -/
theorem append_cons_iff (separates : isSeparator c = true) :
    IsMaximalRun isSeparator (before ++ c :: rest) start run ↔
      IsMaximalRun isSeparator before start run ∨
        ∃ later, start = before.length + 1 + later ∧ IsMaximalRun isSeparator rest later run := by
  constructor
  · rintro ⟨present, plain, front, back, whole, rfl, left, right⟩
    have outside : c ∉ run := fun member => by simpa [separates] using plain c member
    obtain ⟨inner, rfl, rfl⟩ | ⟨inner, rfl, rfl⟩ := aside present outside whole
    · refine .inl ⟨present, plain, front, inner, rfl, rfl, left, ?_⟩
      intro d first
      exact right d (by simp [List.head?_append, Option.mem_def.mp first])
    · refine .inr ⟨inner.length, by simp; omega, present, plain, inner, back, rfl, rfl, ?_, right⟩
      intro d last
      exact left d (by simp [List.getLast?_append, List.getLast?_cons, Option.mem_def.mp last])
  · rintro (found | ⟨later, rfl, found⟩)
    · exact found.append_left separates rest
    · exact found.append_right separates before

end IsMaximalRun

/-- The maximal runs of a text with the places where they start, from the first to the last. -/
structure ArePlaced (isSeparator : Char → Bool) (text : List Char)
    (placed : List (Nat × List Char)) : Prop where
  ordered : placed.Pairwise (·.1 < ·.1)
  exact : ∀ start run, (start, run) ∈ placed ↔ IsMaximalRun isSeparator text start run

namespace ArePlaced

variable {placed later : List (Nat × List Char)}

private theorem of_forall (plain : ∀ c ∈ text, isSeparator c = false) :
    ArePlaced isSeparator text (if text.isEmpty then [] else [(0, text)]) := by
  constructor
  · cases text <;> simp
  · intro start run
    rw [IsMaximalRun.iff_of_forall plain]
    cases text <;> simp

private theorem append_cons (first : ArePlaced isSeparator before placed)
    (second : ArePlaced isSeparator rest later) (separates : isSeparator c = true) :
    ArePlaced isSeparator (before ++ c :: rest)
      (placed ++ later.map fun place => (before.length + 1 + place.1, place.2)) := by
  constructor
  · refine List.pairwise_append.mpr ⟨first.ordered, ?_, ?_⟩
    · exact second.ordered.map _ fun left right less => Nat.add_lt_add_left less _
    · rintro ⟨start, run⟩ member place shifted
      obtain ⟨place, -, rfl⟩ := List.mem_map.mp shifted
      have inside := ((first.exact start run).mp member).start_lt_length
      show start < before.length + 1 + place.1
      omega
  · intro start run
    rw [IsMaximalRun.append_cons_iff separates, List.mem_append, first.exact, List.mem_map]
    refine or_congr_right ⟨?_, ?_⟩
    · rintro ⟨⟨inner, run⟩, member, same⟩
      obtain ⟨rfl, rfl⟩ := Prod.mk.inj same
      exact ⟨inner, rfl, (second.exact inner run).mp member⟩
    · rintro ⟨inner, rfl, found⟩
      exact ⟨(inner, run), (second.exact inner run).mpr found, rfl⟩

end ArePlaced

private theorem runs_placed (isSeparator : Char → Bool) (text : List Char) :
    ∃ placed, ArePlaced isSeparator text placed ∧
      runs isSeparator text = placed.map (·.2) := by
  induction text using cut_induction isSeparator with
  | plain text plain =>
    refine ⟨_, .of_forall plain, ?_⟩
    rw [runs_of_forall plain]
    cases text <;> rfl
  | cut before c rest plain separates ih =>
    obtain ⟨later, exact, same⟩ := ih
    refine ⟨_, .append_cons (.of_forall plain) exact separates, ?_⟩
    rw [runs_append_cons before rest separates, runs_of_forall plain, same, List.map_append,
      List.map_map]
    cases before <;> rfl

private theorem flatten_runs (isSeparator : Char → Bool) (text : List Char) :
    (runs isSeparator text).flatten = text.filter (!isSeparator ·) := by
  induction text using cut_induction isSeparator with
  | plain text plain =>
    have all : text.filter (!isSeparator ·) = text :=
      List.filter_eq_self.mpr fun c member => by simp [plain c member]
    rw [runs_of_forall plain, all]
    cases text <;> simp
  | cut before c rest plain separates ih =>
    have all : before.filter (!isSeparator ·) = before :=
      List.filter_eq_self.mpr fun c member => by simp [plain c member]
    rw [runs_append_cons before rest separates, runs_of_forall plain, List.flatten_append, ih,
      List.filter_append, all, List.filter_cons_of_neg (by simp [separates])]
    cases before <;> simp

/-- Texts that are not empty and have no separator in them are the runs of what they are when they
are joined. With no separator to join them with, there may be only one of them. -/
theorem runs_intercalate {separators : List Char} {elements : List (List Char)}
    (proper : ∀ element ∈ elements,
      element ≠ [] ∧ ∀ c ∈ element, separators.contains c = false)
    (few : separators = [] → elements.length ≤ 1) :
    runs separators.contains ((separators.take 1).intercalate elements) = elements := by
  induction elements with
  | nil => rfl
  | cons element elements ih =>
    obtain ⟨⟨present, plain⟩, others⟩ := List.forall_mem_cons.mp proper
    have single : runs separators.contains element = [element] := by
      rw [runs_of_forall plain, if_neg (by simpa using present)]
    cases elements with
    | nil => rw [List.intercalate_singleton, single]
    | cons next elements =>
      cases separators with
      | nil => simp at few
      | cons c separators =>
        have later := ih others nofun
        rw [List.take_succ_cons, List.take_zero] at later ⊢
        rw [List.intercalate_cons_cons, List.append_assoc, List.singleton_append,
          runs_append_cons element _ (by simp), single, later]
        rfl

section

variable {separators : String}

private theorem splitFields_placed (separators value : String) :
    ∃ placed, ArePlaced separators.toList.contains value.toList placed ∧
      splitFields separators value = placed.map fun place => String.ofList place.2 := by
  obtain ⟨placed, exact, same⟩ := runs_placed separators.toList.contains value.toList
  refine ⟨placed, exact, ?_⟩
  rw [splitFields, same, List.map_map]
  rfl

theorem mem_splitFields {value field : String} (member : field ∈ splitFields separators value) :
    field ≠ "" ∧ ∀ c ∈ field.toList, c ∉ separators.toList := by
  obtain ⟨run, among, rfl⟩ := List.mem_map.mp member
  obtain ⟨present, plain⟩ := mem_runs among
  refine ⟨by simpa using present, fun c inside => ?_⟩
  simpa using plain c (by simpa using inside)

private theorem join_splitFields (separators value : String) :
    String.join (splitFields separators value) =
      String.ofList (value.toList.filter (· ∉ separators.toList)) := by
  apply String.toList_injective
  rw [String.toList_join, splitFields, List.flatMap_map]
  simp only [String.toList_ofList, List.flatMap_id', flatten_runs]
  exact List.filter_congr fun c _ => by simp

private theorem splitFields_append_singleton {c : Char} (member : c ∈ separators.toList)
    (before after : String) :
    splitFields separators (before ++ String.singleton c ++ after) =
      splitFields separators before ++ splitFields separators after := by
  have separates : separators.toList.contains c = true := by simpa using member
  simp only [splitFields, String.toList_append, String.toList_singleton, List.append_assoc,
    List.singleton_append]
  rw [runs_append_cons before.toList after.toList separates, List.map_append]

theorem splitFields_joinFields {elements : List String}
    (proper : ∀ element ∈ elements, element ≠ "" ∧ ∀ c ∈ element.toList, c ∉ separators.toList)
    (few : separators = "" → elements.length ≤ 1) :
    splitFields separators (joinFields separators elements) = elements := by
  have apart : ∀ run ∈ elements.map String.toList,
      run ≠ [] ∧ ∀ c ∈ run, separators.toList.contains c = false := by
    intro run member
    obtain ⟨element, among, rfl⟩ := List.mem_map.mp member
    obtain ⟨present, plain⟩ := proper element among
    exact ⟨by simpa using present, fun c inside => by simpa using plain c inside⟩
  have single : separators.toList = [] → (elements.map String.toList).length ≤ 1 := by
    simpa using few
  rw [splitFields, joinFields, String.toList_intercalate, String.toList_ofList,
    runs_intercalate apart single]
  simp

end

/-- The fields of a value are its maximal runs, in the order of their places. So they are not empty
and have no separators, and together they are the value without those. A separator anywhere in a
value cuts it: the fields before it are followed by those behind it. So joined fields are found
again, if there is a first separator to join them with or no more than one field. -/
theorem fields_are_maximal_runs (separators : String) :
    (∀ value,
      (∃ placed, ArePlaced separators.toList.contains value.toList placed ∧
        splitFields separators value = placed.map fun place => String.ofList place.2) ∧
      (∀ field ∈ splitFields separators value,
        field ≠ "" ∧ ∀ c ∈ field.toList, c ∉ separators.toList) ∧
      String.join (splitFields separators value) =
        String.ofList (value.toList.filter (· ∉ separators.toList))) ∧
    (∀ c ∈ separators.toList, ∀ before after,
      splitFields separators (before ++ String.singleton c ++ after) =
        splitFields separators before ++ splitFields separators after) ∧
    ∀ elements : List String,
      (∀ element ∈ elements, element ≠ "" ∧ ∀ c ∈ element.toList, c ∉ separators.toList) →
      (separators = "" → elements.length ≤ 1) →
        splitFields separators (joinFields separators elements) = elements := by
  refine ⟨fun value => ⟨?_, ?_, ?_⟩, ?_, ?_⟩
  · exact splitFields_placed separators value
  · exact fun field => mem_splitFields
  · exact join_splitFields separators value
  · exact fun c member => splitFields_append_singleton member
  · exact fun elements => splitFields_joinFields

theorem fields_are_maximal_runs_comma :
    splitFields ", " ("a " ++ String.singleton ',' ++ "b") =
        splitFields ", " "a " ++ splitFields ", " "b" ∧
      splitFields ", " (joinFields ", " ["a", "b"]) = ["a", "b"] := by
  obtain ⟨-, cut, joined⟩ := fields_are_maximal_runs ", "
  exact ⟨cut ',' (by simp) "a " "b", joined ["a", "b"] (by simp) (by simp)⟩

end PolicyShell
