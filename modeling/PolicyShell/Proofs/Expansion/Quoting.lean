import PolicyShell.Proofs.Expansion.Marks
import PolicyShell.Proofs.Glob.Glyphs
import PolicyShell.Proofs.Glob.Names
import PolicyShell.Proofs.Syntax.Globs

/-! Quoted text in patterns. The glyphs of a field tell glob syntax of the program from text that
was quoted or substituted, and the pattern of the field accepts the names that they stand for. -/
namespace PolicyShell

open Glob

/-- Glob syntax of the program is active, and so are values that are neither quoted nor taken
literally. -/
def Atom.glyphs : Atom → List Glyph
  | .inert text => text.toList.map (⟨·, false⟩)
  | .glob text | .active text => text.toList.map (⟨·, true⟩)

/-- The glyphs of each field of a word. -/
def Word.glyphs (policy : Policy) (bindings : Bindings) (word : Word) : List (List Glyph) :=
  (Mark.groups (Mark.ofWord policy bindings word)).map (List.flatMap Atom.glyphs)

/-- Whether an atom is text that stands for itself. -/
def Atom.isInert : Atom → Bool
  | .inert _ => true
  | .glob _ | .active _ => false

@[simp] theorem Atom.isInert_inert (text : String) : (inert text).isInert = true := rfl

theorem Atom.map_char_glyphs (atom : Atom) : atom.glyphs.map Glyph.char = atom.text.toList := by
  cases atom <;> exact (List.map_map ..).trans (List.map_id _)

private theorem Atom.pattern_glyphs {atom : Atom} (differs : ∀ text, atom ≠ .active text) :
    Glyph.pattern atom.glyphs = atom.pattern.toList := by
  cases atom with
  | inert text => simp [glyphs, pattern, Glyph.pattern, List.flatMap_map, Glyph.quote, escape]
  | glob text => simp [glyphs, pattern, Glyph.pattern, List.flatMap_map, Glyph.quote]
  | active text => exact absurd rfl (differs text)

private theorem Atom.pattern_flatMap_glyphs {atoms : List Atom}
    (differs : ∀ atom ∈ atoms, ∀ text, atom ≠ .active text) :
    Glyph.pattern (atoms.flatMap glyphs) = atoms.flatMap fun atom => atom.pattern.toList := by
  induction atoms with
  | nil => rfl
  | cons first rest ih =>
    obtain ⟨head, tail⟩ := List.forall_mem_cons.mp differs
    rw [List.flatMap_cons, Glyph.pattern_append, pattern_glyphs head, ih tail]
    rfl

namespace Mark

/-- The atoms of some marks, wherever gaps part them. -/
def atoms (marks : List Mark) : List Atom := marks.filterMap atom?

@[simp] theorem atoms_nil : atoms [] = [] := rfl

@[simp] theorem atoms_gap (marks : List Mark) : atoms (gap :: marks) = atoms marks := rfl

@[simp] theorem atoms_atom (found : Atom) (marks : List Mark) :
    atoms (atom found :: marks) = found :: atoms marks := rfl

@[simp] theorem atoms_append (marks others : List Mark) :
    atoms (marks ++ others) = atoms marks ++ atoms others := List.filterMap_append

private theorem flatten_atoms_splitOnP (marks : List Mark) :
    ((marks.splitOnP isGap).map atoms).flatten = atoms marks := by
  induction marks with
  | nil => rfl
  | cons mark marks ih =>
    rw [List.splitOnP_cons_eq_if_modifyHead]
    cases mark with
    | gap => simpa [isGap] using ih
    | atom found =>
      obtain ⟨first, others, pieces⟩ :=
        List.exists_cons_of_ne_nil (List.splitOnP_ne_nil isGap marks)
      rw [pieces] at ih ⊢
      simpa [isGap] using ih

/-- The atoms of a field stand next to each other. -/
theorem infix_of_mem_groups {marks : List Mark} {group : List Atom}
    (member : group ∈ groups marks) : group <:+: atoms marks := by
  rw [← flatten_atoms_splitOnP]
  exact List.infix_of_mem_flatten (List.mem_filter.mp member).1

theorem atoms_intercalate_gap {α : Type} (marks : α → List Mark) (values : List α) :
    atoms ([gap].intercalate (values.map marks)) = values.flatMap (atoms ∘ marks) := by
  induction values with
  | nil => rfl
  | cons first rest ih =>
    cases rest with
    | nil => simp
    | cons second rest =>
      rw [List.map_cons, List.map_cons, List.intercalate_cons_cons, ← List.map_cons,
        List.append_assoc, atoms_append, List.singleton_append, atoms_gap, ih]
      rfl

variable {policy : Policy} {quoted : Bool}

private theorem atoms_ofValue (literal : policy.words = .static ∨ quoted = true)
    (separators value : String) :
    atoms (ofValue policy quoted separators value) = [.inert value] := by
  rw [ofValue_of_literal literal]
  rfl

private theorem exists_value_of_mem_ofElements {splice : Bool} {separators : String}
    {elements : List String} {atom : Atom}
    (member : atom ∈ atoms (ofElements policy splice quoted separators elements)) :
    ∃ value, atom ∈ atoms (ofValue policy quoted separators value) := by
  unfold ofElements at member
  split at member
  · rw [atoms_intercalate_gap] at member
    obtain ⟨value, -, present⟩ := List.mem_flatMap.mp member
    exact ⟨value, present⟩
  · exact ⟨_, member⟩

/-- All atoms of a part that is no glob text are those of values. Text in quotes is a value, too. -/
theorem exists_value_of_mem_ofPart {bindings : Bindings} {part : WordPart}
    (noGlob : part.isGlob = false) {atom : Atom}
    (member : atom ∈ atoms (ofPart policy bindings part)) :
    ∃ value, atom ∈ atoms (ofValue policy part.isQuoted bindings.separators value) := by
  cases part with
  | literal text => exact ⟨text, member⟩
  | glob text => cases noGlob
  | scalar name quoted => exact ⟨_, member⟩
  | array name splice quoted => exact exists_value_of_mem_ofElements member
  | arguments splice quoted => exact exists_value_of_mem_ofElements member

theorem inert_of_ofPart (bindings : Bindings) {part : WordPart} (noGlob : part.isGlob = false)
    (literal : policy.words = .static ∨ part.isQuoted = true) :
    ∀ atom ∈ atoms (ofPart policy bindings part), atom.isInert = true := by
  intro atom member
  obtain ⟨value, present⟩ := exists_value_of_mem_ofPart noGlob member
  rw [atoms_ofValue literal, List.mem_singleton] at present
  rw [present, Atom.isInert_inert]

end Mark

private theorem Atom.not_mem_glyphs_of_inert {c : Char} {atoms : List Atom}
    (inert : ∀ atom ∈ atoms, atom.isInert = true) : ⟨c, true⟩ ∉ atoms.flatMap glyphs := by
  intro member
  obtain ⟨atom, present, among⟩ := List.mem_flatMap.mp member
  cases atom with
  | inert text => simp [glyphs] at among
  | glob => cases inert _ present
  | active => cases inert _ present

/-- Glob text among atoms has a character of glob syntax, and no backslash but at the end. -/
structure Atom.Unescaped (atoms : List Atom) : Prop where
  syntactic : ∀ atom ∈ atoms, atom.isInert = true ∨
    ∃ text, atom = .glob text ∧ text.toList.any Glob.isMeta = true
  unescaped : Glyph.Unescaped (atoms.flatMap glyphs)

private theorem Atom.Unescaped.of_among {atoms group : List Atom} (unescaped : Unescaped atoms)
    (among : group <:+: atoms) : Unescaped group := by
  obtain ⟨before, after, rfl⟩ := among
  constructor
  · intro atom member
    exact unescaped.syntactic atom
      (List.mem_append_left after (List.mem_append_right before member))
  · have whole := unescaped.unescaped
    rw [List.flatMap_append, List.flatMap_append] at whole
    exact whole.of_append.suffix (List.suffix_append ..)

variable {policy : Policy} {bindings : Bindings}

theorem Atom.unescaped_of_parts {parts : List WordPart} (unescaped : WordPart.Unescaped parts)
    (literal : ∀ part ∈ parts, policy.words = .static ∨ part.isQuoted = true) :
    Unescaped (Mark.atoms (parts.flatMap (Mark.ofPart policy bindings))) := by
  induction unescaped with
  | nil => exact ⟨nofun, nofun⟩
  | @last text bare syntactic =>
    constructor
    · rintro _ (_ | ⟨_, ⟨⟩⟩)
      exact .inr ⟨_, rfl, by simp [syntactic]⟩
    · have bare' : ⟨'\\', true⟩ ∉ text.map (Glyph.mk · true) := by simpa using bare
      simpa [Glyph.Unescaped, Mark.ofPart, glyphs] using bare'
  | @glob text rest bare syntactic _ ih =>
    have later := ih (List.forall_mem_cons.mp literal).2
    constructor
    · rintro atom (_ | ⟨_, member⟩)
      · exact .inr ⟨_, rfl, by simpa using syntactic⟩
      · exact later.syntactic atom member
    · refine .append ?_ later.unescaped
      simpa [glyphs] using bare
  | @inert part rest noGlob _ ih =>
    obtain ⟨here, literal⟩ := List.forall_mem_cons.mp literal
    have inert := Mark.inert_of_ofPart bindings noGlob here
    have later := ih literal
    rw [List.flatMap_cons, Mark.atoms_append]
    constructor
    · intro atom member
      rcases List.mem_append.mp member with member | member
      · exact .inl (inert atom member)
      · exact later.syntactic atom member
    · rw [List.flatMap_append]
      exact .append (not_mem_glyphs_of_inert inert) later.unescaped

/-- A pending field has glob text, and its pattern is that of its glyphs. -/
theorem Mark.of_fieldOf_eq_pending {atoms : List Atom} (unescaped : Atom.Unescaped atoms)
    {pattern literal : String} (made : fieldOf atoms = .pending pattern literal) :
    pattern.toList = Glyph.pattern (atoms.flatMap Atom.glyphs) ∧
      (atoms.flatMap Atom.glyphs).map Glyph.char = literal.toList ∧
      (atoms.flatMap Atom.glyphs).any Glyph.isSyntax = true := by
  unfold fieldOf at made
  split at made
  · rename_i isPattern
    cases made
    refine ⟨?_, ?_, ?_⟩
    · rw [String.toList_join, List.flatMap_map]
      refine (Atom.pattern_flatMap_glyphs ?_).symm
      rintro _ member text rfl
      obtain inert | ⟨_, same, -⟩ := unescaped.syntactic _ member
      · cases inert
      · cases same
    · simp only [String.toList_join, List.flatMap_map, List.map_flatMap, Atom.map_char_glyphs]
    · obtain ⟨atom, member, syntactic⟩ := List.any_eq_true.mp isPattern
      obtain inert | ⟨text, rfl, has⟩ := unescaped.syntactic atom member
      · cases atom with
        | inert => cases syntactic
        | _ => cases inert
      · obtain ⟨c, present, isMeta⟩ := List.any_eq_true.mp has
        refine List.any_eq_true.mpr ⟨⟨c, true⟩, List.mem_flatMap.mpr ⟨_, member, ?_⟩, isMeta⟩
        exact List.mem_map.mpr ⟨c, present, rfl⟩
  · cases made

namespace Word

variable {word : Word} {fields : List Field}

theorem eq_marks_of_fields (evaluated : word.fields policy bindings = .ok fields) :
    fields = Mark.fields (Mark.ofWord policy bindings word) := by
  unfold Word.fields at evaluated
  split at evaluated
  · cases evaluated
  · cases evaluated
    exact finish_foldl_addPart policy bindings word

private theorem zip_glyphs (evaluated : word.fields policy bindings = .ok fields) :
    fields.zip (word.glyphs policy bindings) =
      (Mark.groups (Mark.ofWord policy bindings word)).map fun atoms =>
        (Mark.fieldOf atoms, atoms.flatMap Atom.glyphs) := by
  rw [eq_marks_of_fields evaluated, Mark.fields, glyphs, List.zip_map']

/-- A name matches the pattern of a field just when it matches the glyphs of the field, of which
those that were quoted or substituted stand for themselves only. The word is one of a program, and
it has no value that is split. Between brackets no text may look like syntax, for a backslash does
not quote it there. -/
theorem accepts_iff_reads {dialect : Dialect} {text : List Char} {token : Token}
    {pattern literal : String} {glyphs : List Glyph} {found : Pattern} {name : List Char}
    (lexed : (Token.scan dialect text).result = .ok (some token)) (member : word ∈ token.words)
    (isLiteral : word.IsLiteral policy) (evaluated : word.fields policy bindings = .ok fields)
    (produced : (.pending pattern literal, glyphs) ∈ fields.zip (word.glyphs policy bindings))
    (clear : Glyph.Clear glyphs) (single : '/' ∉ pattern.toList)
    (compiled : Pattern.compile? pattern.toList = some found) (present : name ≠ [])
    (slashFree : '/' ∉ name) (visible : name.head? ≠ some '.') :
    glyphs.map Glyph.char = literal.toList ∧
      (found.accepts name = true ↔ ∃ items, Glyph.Reads glyphs items ∧ Spells items name) := by
  have unescapedWord := Token.scan_yields dialect text _ lexed token rfl word member
  have literalParts : ∀ part ∈ word.parts, policy.words = .static ∨ part.isQuoted = true :=
    fun part among => isLiteral.imp_right fun quoted => quoted part among
  rw [zip_glyphs evaluated] at produced
  obtain ⟨atoms, group, same⟩ := List.mem_map.mp produced
  obtain ⟨made, rfl⟩ := Prod.mk.inj same
  have unescaped := (Atom.unescaped_of_parts unescapedWord literalParts).of_among
    (Mark.infix_of_mem_groups group)
  obtain ⟨written, chars, syntactic⟩ := Mark.of_fieldOf_eq_pending unescaped made
  rw [← Glyph.hasMeta_pattern unescaped.unescaped, ← written] at syntactic
  have nonempty : pattern.toList ≠ [] := fun none => by simp [none, hasMeta] at syntactic
  rw [Pattern.compile?_of_not_mem nonempty single] at compiled
  obtain ⟨segment, known, rfl⟩ := Option.map_eq_some_iff.mp compiled
  refine ⟨chars, ?_⟩
  rw [Pattern.accepts_of_not_mem segment present slashFree,
    Segment.accepts_of_compile? known syntactic visible, written]
  simp only [Glyph.read?_pattern_iff clear unescaped.unescaped]

/-- An asterisk that is the value of a quoted parameter stands for itself. -/
theorem accepts_iff_reads_value :
    let bindings : Bindings := ⟨fun _ => some "*", fun _ => none, [], " "⟩
    let word : Word := ⟨[.glob "[a-é]", .scalar "x" true, .glob "*"]⟩
    let glyphs : List Glyph := [⟨'[', true⟩, ⟨'a', true⟩, ⟨'-', true⟩, ⟨'é', true⟩, ⟨']', true⟩,
      ⟨'*', false⟩, ⟨'*', true⟩]
    let found : Pattern :=
      ⟨false, [.pattern [.oneOf ⟨false, [('a', 'é')], []⟩, .char '*', .anyText] false]⟩
    (Token.scan {} "[a-é]\"$x\"*".toList).result = .ok (some (.word word)) ∧
      word.fields {} bindings = .ok [.pending "[a-é]\\**" "[a-é]**"] ∧
      Pattern.compile? "[a-é]\\**".toList = some found ∧
      glyphs.map Glyph.char = "[a-é]**".toList ∧
        (found.accepts "b*c".toList = true ↔
          ∃ items, Glyph.Reads glyphs items ∧ Spells items "b*c".toList) := by
  intro bindings word glyphs found
  have lexed : (Token.scan {} "[a-é]\"$x\"*".toList).result = .ok (some (.word word)) :=
    eq_ok_of_toOption (by decide +kernel)
  have evaluated : word.fields {} bindings = .ok [.pending "[a-é]\\**" "[a-é]**"] :=
    eq_ok_of_toOption (by decide +kernel)
  have compiled : Pattern.compile? "[a-é]\\**".toList = some found := by decide +kernel
  have clear : Glyph.Clear glyphs := .oneOf rfl ⟨by decide, by decide, by decide⟩
    (.other (by decide) (.other (by decide) .nil))
  exact ⟨lexed, evaluated, compiled, accepts_iff_reads lexed (by decide) (.inr (by decide))
    evaluated (by decide +kernel) clear (by decide) compiled (by decide) (by decide) (by decide)⟩

/-- A quoted dash between two members of a bracket expression makes a range of them. -/
theorem misreads_quoted_dash :
    let bindings : Bindings := ⟨fun _ => none, fun _ => none, [], " "⟩
    let word : Word := ⟨[.glob "[a", .literal "-", .glob "é]*"]⟩
    let glyphs : List Glyph :=
      [⟨'[', true⟩, ⟨'a', true⟩, ⟨'-', false⟩, ⟨'é', true⟩, ⟨']', true⟩, ⟨'*', true⟩]
    let found : Pattern := ⟨false, [.pattern [.oneOf ⟨false, [('a', 'é')], []⟩, .anyText] false]⟩
    (Token.scan {} "[a'-'é]*".toList).result = .ok (some (.word word)) ∧
      word.fields {} bindings = .ok [.pending "[a-é]*" "[a-é]*"] ∧
      word.glyphs {} bindings = [glyphs] ∧ Pattern.compile? "[a-é]*".toList = some found ∧
      ¬ (found.accepts "b".toList = true ↔
        ∃ items, Glyph.Reads glyphs items ∧ Spells items "b".toList) := by
  intro bindings word glyphs found
  refine ⟨eq_ok_of_toOption (by decide +kernel), eq_ok_of_toOption (by decide +kernel),
    by decide +kernel, by decide +kernel, fun same => ?_⟩
  let members : Bracket := ⟨false, [('a', 'a'), ('-', '-'), ('é', 'é')], []⟩
  have accepted : found.accepts "b".toList = true := by decide
  obtain ⟨items, reads, spells⟩ := same.mp accepted
  obtain ⟨ranges, read, others, -, rfl⟩ := (Glyph.reads_oneOf_iff rfl).mp reads
  obtain rfl : (members.included, members.excluded) = ranges := Option.some.inj read
  have single : Item.oneOf members ≠ .anyText := nofun
  have refused : members.contains 'b' = false := by decide
  have accepted := ((spells_cons_iff single others 'b' []).mp spells).1
  exact Bool.false_ne_true (refused.symm.trans accepted)

end Word

end PolicyShell
