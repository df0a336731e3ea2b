import Mathlib.Algebra.Ring.Nat
import PolicyShell.Proofs.Expansion.Marks

/-! The shape of a word in which no value is split: how many fields there are and which parts lie
in each of them. It depends on the word and on how many elements its splices have, and on nothing
else. -/
namespace PolicyShell

/-- Two rows of fields as one, in which the last field before goes on with the first one after. -/
def glue {α : Type} : List (List α) → List (List α) → List (List α)
  | [], later => later
  | [last], [] => [last]
  | [last], next :: later => (last ++ next) :: later
  | first :: second :: others, later => first :: glue (second :: others) later

private theorem glue_nil {α : Type} (earlier : List (List α)) : glue earlier [] = earlier := by
  induction earlier with
  | nil => rfl
  | cons first others ih =>
    cases others with
    | nil => rfl
    | cons second others => rw [glue, ih]

theorem map_glue {α β : Type} (change : α → β) (earlier later : List (List α)) :
    (glue earlier later).map (List.map change) =
      glue (earlier.map (List.map change)) (later.map (List.map change)) := by
  fun_induction glue earlier later with
  | case1 => rfl
  | case2 => rfl
  | case3 => simp [glue]
  | case4 first second others later ih => simp [glue, ih]

private theorem length_glue {α : Type} (earlier later : List (List α)) :
    (glue earlier later).length = earlier.length + later.length -
      (if earlier.isEmpty || later.isEmpty then 0 else 1) := by
  fun_induction glue earlier later with
  | case1 => simp
  | case2 => simp
  | case3 => simp
  | case4 first second others later ih =>
    simp only [List.length_cons, ih, List.isEmpty_cons, Bool.false_or]
    split <;> omega

/-- What a part has in one field: all of its text, or one element of a splice. -/
structure Share where
  part : WordPart
  element : Nat
  deriving DecidableEq, Repr

/-- The texts of several elements: one for each in a splice, and one for all of them elsewhere. -/
def elementTexts (splice : Bool) (separators : String) (elements : List String) : List String :=
  if splice then elements else [joinFields separators elements]

namespace Bindings

/-- The texts of a part, each of them in a field of its own. -/
def texts (bindings : Bindings) : WordPart → List String
  | .literal text | .glob text => [text]
  | .scalar name _ => [bindings.scalar name]
  | .array name splice _ => elementTexts splice bindings.separators (bindings.array name)
  | .arguments splice _ => elementTexts splice bindings.separators bindings.arguments

/-- In how many fields a part has a share. -/
def count (bindings : Bindings) (part : WordPart) : Nat := (bindings.texts part).length

def text (bindings : Bindings) (share : Share) : String :=
  (bindings.texts share.part)[share.element]?.getD ""

end Bindings

namespace Word

/-- The shares of a part, each in a field of its own. -/
def shares (count : WordPart → Nat) (part : WordPart) : List Share :=
  (List.range (count part)).map (Share.mk part)

/-- The shares in each field of a word, if each part has so many. -/
def layout (count : WordPart → Nat) (word : Word) : List (List Share) :=
  word.parts.foldr (fun part later => glue ((shares count part).map ([·])) later) []

end Word

def Field.isPending : Field → Bool
  | .done _ => false
  | .pending .. => true

/-- The text of a field as it stands if nothing is looked up. -/
def Field.literal : Field → String
  | .done text => text
  | .pending _ literal => literal

/-- A share of glob text is glob text, and any other one stands for itself. -/
def Share.atom (bindings : Bindings) (share : Share) : Atom :=
  if share.part.isGlob then .glob (bindings.text share) else .inert (bindings.text share)

private theorem Share.text_atom (bindings : Bindings) (share : Share) :
    (share.atom bindings).text = bindings.text share := by
  unfold atom
  split <;> rfl

private theorem Share.isPattern_atom (bindings : Bindings) (share : Share) :
    (share.atom bindings).isPattern = share.part.isGlob := by
  unfold atom
  by_cases isGlob : share.part.isGlob = true
  · rw [if_pos isGlob, isGlob]
    rfl
  · rw [if_neg isGlob, Bool.eq_false_iff.mpr isGlob]
    rfl

namespace Mark

/-- Some atoms with gaps in between. -/
def apart (atoms : List Atom) : List Mark := [gap].intercalate (atoms.map fun found => [atom found])

theorem apart_cons_cons (first second : Atom) (others : List Atom) :
    apart (first :: second :: others) = atom first :: gap :: apart (second :: others) := by
  rw [apart, List.map_cons, List.map_cons, List.intercalate_cons_cons]
  rfl

private theorem head?_apart (atoms : List Atom) : (apart atoms).head? = atoms.head?.map atom := by
  rcases atoms with _ | ⟨first, _ | ⟨second, others⟩⟩
  · rfl
  · simp [apart]
  · rw [apart_cons_cons]
    rfl

theorem groups_singleton (found : Atom) : groups [atom found] = [[found]] := by
  have alone := splitOnP_atoms [found]
  simp only [List.map_cons, List.map_nil] at alone
  simp [groups, alone, atom?]

/-- An atom goes on with the field that the marks behind it begin with. -/
theorem groups_atom_cons (found : Atom) {marks : List Mark} (ahead : marks.head? ≠ some gap) :
    groups (atom found :: marks) = glue [[found]] (groups marks) := by
  rcases marks with _ | ⟨_ | _, marks⟩
  · exact groups_singleton found
  · rename_i next
    obtain ⟨first, others, pieces⟩ :=
      List.exists_cons_of_ne_nil (List.splitOnP_ne_nil isGap marks)
    simp [groups, List.splitOnP_cons_eq_if_modifyHead, isGap, pieces, atom?, glue]
  · exact absurd rfl ahead

private theorem groups_apart_append (atoms : List Atom) {marks : List Mark}
    (ahead : marks.head? ≠ some gap) :
    groups (apart atoms ++ marks) = glue (atoms.map ([·])) (groups marks) := by
  induction atoms with
  | nil => rfl
  | cons first others ih =>
    cases others with
    | nil => simpa [apart] using groups_atom_cons first ahead
    | cons second others =>
      have parted := groups_append_gap [atom first] (apart (second :: others) ++ marks)
      rw [ih, groups_singleton] at parted
      rw [apart_cons_cons]
      exact parted

end Mark

theorem map_range_getD {α : Type} (values : List α) (default : α) :
    (List.range values.length).map (fun place => values[place]?.getD default) = values := by
  refine List.ext_getElem (by simp) fun place _ inside => ?_
  simp [List.getElem?_eq_getElem inside]

private theorem Bindings.texts_of_not_isSplice (bindings : Bindings) {part : WordPart}
    (whole : part.isSplice = false) : ∃ text, bindings.texts part = [text] := by
  cases part with
  | literal text | glob text => exact ⟨text, rfl⟩
  | scalar name quoted => exact ⟨_, rfl⟩
  | array name splice quoted | arguments splice quoted =>
    obtain rfl : splice = false := whole
    exact ⟨_, rfl⟩

theorem Bindings.count_of_not_isSplice (bindings : Bindings) {part : WordPart}
    (whole : part.isSplice = false) : bindings.count part = 1 := by
  obtain ⟨text, only⟩ := bindings.texts_of_not_isSplice whole
  rw [count, only]
  rfl

/-- How many shares a part has is a matter of how many elements its array has. -/
theorem Bindings.count_congr {bindings bindings' : Bindings}
    (arrays : ∀ name, (bindings.array name).length = (bindings'.array name).length)
    (arguments : bindings.arguments.length = bindings'.arguments.length) :
    bindings.count = bindings'.count := by
  funext part
  by_cases splice : part.isSplice = true
  · cases part with
    | literal | glob | scalar => cases splice
    | array name splices quoted =>
      obtain rfl : splices = true := splice
      exact arrays name
    | arguments splices quoted =>
      obtain rfl : splices = true := splice
      exact arguments
  · have whole := Bool.eq_false_iff.mpr splice
    rw [count_of_not_isSplice _ whole, count_of_not_isSplice _ whole]

theorem Word.map_atom_shares (bindings : Bindings) (part : WordPart) :
    (shares bindings.count part).map (Share.atom bindings) =
      (bindings.texts part).map (if part.isGlob then Atom.glob else Atom.inert) := by
  have every := map_range_getD (bindings.texts part) ""
  refine Eq.trans ?_ (congrArg (List.map _) every)
  rw [shares, List.map_map, List.map_map]
  refine List.map_congr_left fun place _ => ?_
  by_cases isGlob : part.isGlob = true
  · simp [Share.atom, isGlob, Bindings.text]
  · simp [Share.atom, isGlob, Bindings.text]

namespace Mark

variable {policy : Policy} {quoted : Bool}

/-- The elements of a value that is not split stand apart from each other. -/
theorem ofElements_eq_apart (literal : policy.words = .static ∨ quoted = true)
    (splice : Bool) (separators : String) (elements : List String) :
    ofElements policy splice quoted separators elements =
      apart ((elementTexts splice separators elements).map .inert) := by
  have whole := funext (ofValue_of_literal literal separators)
  cases splice with
  | true => simp [ofElements, apart, whole, Function.comp_def, elementTexts]
  | false => simp [ofElements, apart, whole, elementTexts]

/-- A part whose value is not split is its shares, apart from each other. -/
theorem ofPart_eq_apart (bindings : Bindings) {part : WordPart}
    (literal : policy.words = .static ∨ part.isQuoted = true) :
    ofPart policy bindings part =
      apart ((Word.shares bindings.count part).map (Share.atom bindings)) := by
  rw [Word.map_atom_shares]
  cases part with
  | literal text | glob text => rfl
  | scalar name quoted => exact ofValue_of_literal literal ..
  | array name splice quoted => exact ofElements_eq_apart literal ..
  | arguments splice quoted => exact ofElements_eq_apart literal ..

/-- The first element of a part goes on with the field before it, so no part begins with a gap. -/
theorem groups_flatMap_ofPart (bindings : Bindings) {parts : List WordPart}
    (literal : ∀ part ∈ parts, policy.words = .static ∨ part.isQuoted = true) :
    (parts.flatMap (ofPart policy bindings)).head? ≠ some gap ∧
      groups (parts.flatMap (ofPart policy bindings)) =
        (Word.layout bindings.count ⟨parts⟩).map (List.map (Share.atom bindings)) := by
  induction parts with
  | nil => exact ⟨nofun, rfl⟩
  | cons part parts ih =>
    obtain ⟨here, later⟩ := List.forall_mem_cons.mp literal
    obtain ⟨ahead, same⟩ := ih later
    rw [List.flatMap_cons, ofPart_eq_apart bindings here]
    constructor
    · rw [List.head?_append, head?_apart]
      intro first
      cases found : ((Word.shares bindings.count part).map (Share.atom bindings)).head? with
      | none => exact ahead (by simpa [found] using first)
      | some _ => simp [found] at first
    · rw [groups_apart_append _ ahead, same]
      have split : Word.layout bindings.count ⟨part :: parts⟩ =
          glue ((Word.shares bindings.count part).map ([·])) (Word.layout bindings.count ⟨parts⟩) :=
        rfl
      rw [split, map_glue, List.map_map, List.map_map]
      rfl

private theorem isPending_fieldOf (atoms : List Atom) :
    (fieldOf atoms).isPending = atoms.any Atom.isPattern := by
  unfold fieldOf
  by_cases isPattern : atoms.any Atom.isPattern = true
  · rw [if_pos isPattern, isPattern]
    rfl
  · rw [if_neg isPattern, Bool.eq_false_iff.mpr isPattern]
    rfl

private theorem literal_fieldOf (atoms : List Atom) :
    (fieldOf atoms).literal = String.join (atoms.map Atom.text) := by
  unfold fieldOf
  split <;> rfl

end Mark

namespace Word

theorem layout_cons (count : WordPart → Nat) (part : WordPart) (parts : List WordPart) :
    layout count ⟨part :: parts⟩ =
      glue ((shares count part).map ([·])) (layout count ⟨parts⟩) :=
  rfl

private theorem length_shares (count : WordPart → Nat) (part : WordPart) :
    (shares count part).length = count part := by
  rw [shares, List.length_map, List.length_range]

/-- Of the shares of a part all but the first one begin a field, and one field begins anyway if
there is a share at all. -/
theorem length_layout (count : WordPart → Nat) (parts : List WordPart) :
    (layout count ⟨parts⟩).length =
      (parts.map (count · - 1)).sum + if parts.any (count · != 0) then 1 else 0 := by
  induction parts with
  | nil => rfl
  | cons part parts ih =>
    rw [layout_cons, length_glue, List.length_map, length_shares, List.map_cons, List.sum_cons,
      List.any_cons]
    by_cases none : count part = 0
    · have empty : shares count part = [] := by rw [shares, none, List.range_zero, List.map_nil]
      simp [none, empty, ih]
    have some : (shares count part).isEmpty = false := by
      rw [List.isEmpty_eq_false_iff, ← List.length_pos_iff, length_shares]
      omega
    by_cases any : parts.any (count · != 0) = true
    · have later : (layout count ⟨parts⟩).isEmpty = false := by
        rw [List.isEmpty_eq_false_iff, ← List.length_pos_iff, ih, if_pos any]
        omega
      simp [some, later, any, ih]
      omega
    · have zero : ∀ part ∈ parts, count part = 0 := by simpa using any
      have sum : (parts.map (count · - 1)).sum = 0 := by
        apply List.sum_eq_zero_iff_forall_eq_nat.mpr
        intro size member
        obtain ⟨part, among, rfl⟩ := List.mem_map.mp member
        rw [zero part among]
      have later : layout count ⟨parts⟩ = [] :=
        List.length_eq_zero_iff.mp (by rw [ih, if_neg any, sum])
      simp [some, later, any, none, sum]
      omega

section

variable {count : WordPart → Nat} (single : ∀ part, part.isSplice = false → count part = 1)

include single

private theorem sum_map_sub_one (parts : List WordPart) :
    (parts.map (count · - 1)).sum =
      ((parts.filter WordPart.isSplice).map (count · - 1)).sum := by
  induction parts with
  | nil => rfl
  | cons part parts ih =>
    by_cases splice : part.isSplice = true
    · simp [splice, ih]
    · simp [splice, ih, single part (Bool.eq_false_iff.mpr splice)]

private theorem any_count (parts : List WordPart) :
    parts.any (count · != 0) = parts.any fun part => !part.isSplice || count part != 0 := by
  congr 1
  funext part
  by_cases splice : part.isSplice = true
  · simp [splice]
  · simp [splice, single part (Bool.eq_false_iff.mpr splice)]

end

/-- Fields in the shape of a word: so many of them, patterns where the program has glob text, and
in each of them the texts that are laid out there. -/
structure Shaped (word : Word) (bindings : Bindings) (fields : List Field) : Prop where
  length : fields.length =
    ((word.parts.filter WordPart.isSplice).map fun part => bindings.count part - 1).sum +
      if word.parts.any (fun part => !part.isSplice || bindings.count part != 0) then 1 else 0
  isPending : fields.map Field.isPending =
    (word.layout bindings.count).map fun shares => shares.any fun share => share.part.isGlob
  literal : fields.map Field.literal =
    (word.layout bindings.count).map fun shares => String.join (shares.map bindings.text)

theorem groups_ofWord {policy : Policy} (bindings : Bindings) {word : Word}
    (literal : word.IsLiteral policy) :
    Mark.groups (Mark.ofWord policy bindings word) =
      (word.layout bindings.count).map (List.map (Share.atom bindings)) :=
  (Mark.groups_flatMap_ofPart bindings fun part member =>
    literal.imp_right fun quoted => quoted part member).2

theorem shaped_fields {policy : Policy} (bindings : Bindings) {word : Word}
    (literal : word.IsLiteral policy) :
    Shaped word bindings (Mark.fields (Mark.ofWord policy bindings word)) := by
  have single (part : WordPart) := @Bindings.count_of_not_isSplice bindings part
  rw [Mark.fields, groups_ofWord bindings literal]
  constructor
  · rw [List.length_map, List.length_map, length_layout, sum_map_sub_one single, any_count single]
  · rw [List.map_map, List.map_map]
    refine List.map_congr_left fun shares _ => ?_
    simp [Mark.isPending_fieldOf, Share.isPattern_atom, Function.comp_def]
  · rw [List.map_map, List.map_map]
    refine List.map_congr_left fun shares _ => ?_
    simp [Mark.literal_fieldOf, Share.text_atom, Function.comp_def]

theorem fields_of_lenient (mode : WordMode) (bindings : Bindings) (word : Word) :
    word.fields ⟨mode, .lenient⟩ bindings =
      .ok (Mark.fields (Mark.ofWord ⟨mode, .lenient⟩ bindings word)) :=
  congrArg Except.ok (finish_foldl_addPart ..)

/-- A quoted part alone gives its texts as they are, in either mode of words and of arrays. -/
theorem fields_single (policy : Policy) (bindings : Bindings) {part : WordPart}
    (noGlob : part.isGlob = false) (quoted : part.isQuoted = true) :
    (⟨[part]⟩ : Word).fields policy bindings = .ok ((bindings.texts part).map .done) := by
  have literal : (⟨[part]⟩ : Word).IsLiteral policy := .inr (by simpa using quoted)
  have row : layout bindings.count ⟨[part]⟩ = (shares bindings.count part).map ([·]) :=
    glue_nil _
  have noConflict : (⟨[part]⟩ : Word).hasConflict = false := by simp [hasConflict, noGlob]
  rw [fields, noConflict, Bool.and_false, if_neg Bool.false_ne_true, finish_foldl_addPart,
    Mark.fields, groups_ofWord bindings literal, row]
  have atoms := map_atom_shares bindings part
  rw [noGlob, if_neg Bool.false_ne_true] at atoms
  have alone (text : String) : Mark.fieldOf [.inert text] = .done text := by
    simp [Mark.fieldOf, Atom.isPattern, Atom.text]
  calc Except.ok ((((shares bindings.count part).map ([·])).map (List.map (Share.atom bindings))).map
        Mark.fieldOf)
    _ = .ok (((shares bindings.count part).map (Share.atom bindings)).map (Mark.fieldOf [·])) := by
      rw [List.map_map, List.map_map, List.map_map]
      rfl
    _ = .ok ((bindings.texts part).map .done) := by
      rw [atoms, List.map_map]
      exact congrArg Except.ok (List.map_congr_left fun text _ => alone text)

/-- Values do not change the shape of a word in which none of them is split: it has the same fields
for other values of as many elements, and a field is a pattern just if glob text of the program
lies in it. The word mode is of no account if all substitutions are quoted. -/
theorem same_shape {mode : WordMode} {bindings bindings' : Bindings} {word : Word}
    (arrays : ∀ name, (bindings.array name).length = (bindings'.array name).length)
    (arguments : bindings.arguments.length = bindings'.arguments.length)
    (literal : word.IsLiteral ⟨mode, .lenient⟩) :
    ∃ fields fields', word.fields ⟨mode, .lenient⟩ bindings = .ok fields ∧
      word.fields ⟨mode, .lenient⟩ bindings' = .ok fields' ∧
      fields.length = fields'.length ∧
      fields.map Field.isPending = fields'.map Field.isPending ∧
      Shaped word bindings fields ∧ Shaped word bindings' fields' ∧
      ((∀ part ∈ word.parts, part.isQuoted = true) →
        word.fields ⟨.legacy, .lenient⟩ bindings = word.fields ⟨.static, .lenient⟩ bindings) := by
  have first := shaped_fields bindings literal
  have second := shaped_fields bindings' literal
  have counts := Bindings.count_congr arrays arguments
  refine ⟨_, _, fields_of_lenient .., fields_of_lenient .., ?_, ?_, first, second, ?_⟩
  · rw [first.length, second.length, counts]
  · rw [first.isPending, second.isPending, counts]
  · intro quoted
    rw [fields_of_lenient, fields_of_lenient, Mark.fields, Mark.fields,
      groups_ofWord bindings (.inr quoted), groups_ofWord bindings (.inr quoted)]

/-- Blanks, glob syntax and empty values in quotes leave a word of three fields as it is. -/
theorem same_shape_blank :
    let bindings : Bindings := ⟨fun _ => some "", fun _ => some ["", "b"], [], " "⟩
    let bindings' : Bindings := ⟨fun _ => some "* [", fun _ => some [" a ", "?"], [], ""⟩
    let word : Word := ⟨[.scalar "x" true, .array "a" true true, .glob "*", .arguments true true,
      .array "b" true true]⟩
    (∀ name, (bindings.array name).length = (bindings'.array name).length) ∧
      bindings.arguments.length = bindings'.arguments.length ∧
      word.IsLiteral ⟨.legacy, .lenient⟩ ∧
      ∃ fields fields', word.fields ⟨.legacy, .lenient⟩ bindings = .ok fields ∧
        word.fields ⟨.legacy, .lenient⟩ bindings' = .ok fields' ∧
        fields.length = fields'.length ∧
        fields.map Field.isPending = fields'.map Field.isPending ∧
        Shaped word bindings fields ∧ Shaped word bindings' fields' ∧
        ((∀ part ∈ word.parts, part.isQuoted = true) →
          word.fields ⟨.legacy, .lenient⟩ bindings = word.fields ⟨.static, .lenient⟩ bindings) := by
  intro bindings bindings' word
  have arrays : ∀ name, (bindings.array name).length = (bindings'.array name).length := fun _ => rfl
  have literal : word.IsLiteral ⟨.legacy, .lenient⟩ := .inr (by decide)
  exact ⟨arrays, rfl, literal, same_shape arrays rfl literal⟩

end Word

end PolicyShell
