import PolicyShell.Expansion.Evaluate
import PolicyShell.Proofs.Syntax.Lookahead

/-! An assignment that stands among the arguments of a command is read as a word: its name becomes a
literal in front of its value. The same text read as a word from the start may have other parts,
for unquoted text goes on from the name into the value, but whatever is evaluated, the outcome is
the same. -/
namespace PolicyShell

/-- Whatever the options, the values and the host are, the words have the same outcomes. -/
structure Word.Equivalent (first second : Word) : Prop where
  hasConflict : first.hasConflict = second.hasConflict
  fields : ∀ policy bindings, first.fields policy bindings = second.fields policy bindings
  assignedValue : ∀ bindings, first.assignedValue bindings = second.assignedValue bindings
  evaluate : ∀ {m : Type → Type} [Monad m] (host : Host m) (policy : Policy) (bindings : Bindings),
    first.evaluate host policy bindings = second.evaluate host policy bindings

namespace WordPart

/-- Parts that add the same to any field, and have the same value and description. -/
structure Interchangeable (first second : List WordPart) : Prop where
  added : ∀ (policy : Policy) (bindings : Bindings) (builder : FieldBuilder),
    first.foldl (FieldBuilder.addPart policy bindings) builder =
      second.foldl (FieldBuilder.addPart policy bindings) builder
  splices : first.any isSplice = second.any isSplice
  globs : first.any isGlob = second.any isGlob
  values : ∀ bindings, String.join (first.map (Word.partValue bindings)) =
    String.join (second.map (Word.partValue bindings))
  descriptions : String.join (first.map describe) = String.join (second.map describe)

namespace Interchangeable

variable {first second third rest : List WordPart}

theorem refl (parts : List WordPart) : Interchangeable parts parts :=
  ⟨fun _ _ _ => rfl, rfl, rfl, fun _ => rfl, rfl⟩

theorem symm (same : Interchangeable first second) : Interchangeable second first where
  added policy bindings builder := (same.added policy bindings builder).symm
  splices := same.splices.symm
  globs := same.globs.symm
  values bindings := (same.values bindings).symm
  descriptions := same.descriptions.symm

theorem trans (left : Interchangeable first second) (right : Interchangeable second third) :
    Interchangeable first third where
  added policy bindings builder :=
    (left.added policy bindings builder).trans (right.added policy bindings builder)
  splices := left.splices.trans right.splices
  globs := left.globs.trans right.globs
  values bindings := (left.values bindings).trans (right.values bindings)
  descriptions := left.descriptions.trans right.descriptions

theorem cons (part : WordPart) (same : Interchangeable first second) :
    Interchangeable (part :: first) (part :: second) where
  added policy bindings builder := same.added policy bindings (builder.addPart policy bindings part)
  splices := by simp [same.splices]
  globs := by simp [same.globs]
  values bindings := by simp [same.values bindings]
  descriptions := by simp [same.descriptions]

theorem append_append (builder : FieldBuilder) (literal pattern literal' pattern' : String)
    (isGlob isGlob' : Bool) :
    (builder.append literal pattern isGlob).append literal' pattern' isGlob' =
      builder.append (literal ++ literal') (pattern ++ pattern') (isGlob || isGlob') := by
  simp [FieldBuilder.append, String.append_assoc, Bool.or_assoc]

/-- Literals side by side are one literal. -/
theorem literals (text next : String) (rest : List WordPart) :
    Interchangeable (literal text :: literal next :: rest) (literal (text ++ next) :: rest) where
  added policy bindings builder := by
    have once : (builder.addLiteral text).addLiteral next = builder.addLiteral (text ++ next) := by
      simp [FieldBuilder.addLiteral, append_append, Glob.escape]
    exact congrArg (rest.foldl (FieldBuilder.addPart policy bindings)) once
  splices := rfl
  globs := rfl
  values bindings := by simp [Word.partValue, String.append_assoc]
  descriptions := by simp [describe, String.append_assoc]

/-- A literal without any special character may as well be glob text in front of glob text. -/
theorem glob {text : String} (plain : Glob.escape text.toList = text.toList) (next : String)
    (rest : List WordPart) :
    Interchangeable (literal text :: .glob next :: rest) (.glob (text ++ next) :: rest) where
  added policy bindings builder := by
    have once : (builder.addLiteral text).addGlob next = builder.addGlob (text ++ next) := by
      simp [FieldBuilder.addLiteral, FieldBuilder.addGlob, append_append, plain]
    exact congrArg (rest.foldl (FieldBuilder.addPart policy bindings)) once
  splices := rfl
  globs := rfl
  values bindings := by simp [Word.partValue, String.append_assoc]
  descriptions := by simp [describe, String.append_assoc]

private theorem merged (parts : List WordPart) : Interchangeable (mergeLiterals parts) parts := by
  induction parts with
  | nil => exact refl []
  | cons part rest ih =>
    rcases mergeLiterals_cons part rest with ⟨text, next, merged, rfl, later, whole⟩ | whole
    · rw [later] at ih
      rw [whole]
      exact (literals text next merged).symm.trans (ih.cons (literal text))
    · rw [whole]
      exact ih.cons part

theorem equivalent (same : Interchangeable first second) : Word.Equivalent ⟨first⟩ ⟨second⟩ := by
  have hasConflict : (⟨first⟩ : Word).hasConflict = (⟨second⟩ : Word).hasConflict := by
    simp [Word.hasConflict, same.splices, same.globs]
  have fields (policy : Policy) (bindings : Bindings) :
      (⟨first⟩ : Word).fields policy bindings = (⟨second⟩ : Word).fields policy bindings := by
    simp [Word.fields, hasConflict, Word.describe, same.descriptions, same.added]
  constructor
  · exact hasConflict
  · exact fields
  · exact same.values
  · intro m _ host policy bindings
    rw [Word.evaluate, fields, Word.evaluate]

end Interchangeable

end WordPart

namespace Piece

/-- No character of an assignment up to the equals sign means anything but itself, neither in a
word nor in a pattern. -/
theorem ordinary_of_isValid {name : List Char} (valid : Name.isValid name = true) :
    ∀ c ∈ name ++ ['='], isActive c = false ∧ endsWord c = false ∧ Glob.isMeta c = false ∧
      Glob.escapeChar c = [c] := by
  intro c member
  rcases List.mem_append.mp member with within | equals
  · have continues := continuesName_of_isValid valid c within
    obtain ⟨inactive, goesOn, noMeta⟩ := ordinary_of_continuesName continues
    have noBackslash : c ≠ '\\' := by
      intro same
      subst same
      cases inactive
    have noBracket : c ≠ ']' := by
      intro same
      subst same
      cases continues
    exact ⟨inactive, goesOn, noMeta, by simp [Glob.escapeChar, noMeta, noBackslash, noBracket]⟩
  · rw [List.mem_singleton.mp equals]
    exact ⟨rfl, rfl, rfl, rfl⟩

/-- Unquoted text without special characters is as good as a literal in front of any pieces, even
if it is taken for the beginning of glob text there. -/
theorem interchangeable_gather {text : List Char}
    (bare : ∀ c ∈ text, Glob.isMeta c = false ∧ Glob.escapeChar c = [c]) (pieces : List Piece) :
    WordPart.Interchangeable (.literal (String.ofList text) :: (gather pieces).map toPart)
      ((gather (.plain text :: pieces)).map toPart) := by
  have noMeta : text.any Glob.isMeta = false :=
    List.any_eq_false.mpr fun c member => by simp [(bare c member).1]
  have unescaped : Glob.escape text = text := by
    rw [Glob.escape, List.flatMap_congr fun c member => (bare c member).2, List.flatMap_singleton']
  have alone : toPart (.plain text) = .literal (String.ofList text) := by simp [toPart, noMeta]
  rw [gather_plain]
  split
  · rename_i next gathered same
    rw [same, List.map_cons, List.map_cons, toPart, toPart, List.any_append, noMeta,
      Bool.false_or, String.ofList_append]
    split
    · exact .glob (by simpa using unescaped) _ _
    · exact .literals _ _ _
  · rw [List.map_cons, alone]
    exact .refl _

/-- Where such text is read, it may as well be a literal that is merged with what follows. -/
theorem interchangeable_parts {text : List Char} (present : text ≠ [])
    (bare : ∀ c ∈ text, Glob.isMeta c = false ∧ Glob.escapeChar c = [c]) (pieces : List Piece) :
    WordPart.Interchangeable
      (WordPart.mergeLiterals (.literal (String.ofList text) :: parts pieces))
      (parts (text.map (fun c => .plain [c]) ++ pieces)) := by
  have gathered : gather (text.map (fun c => .plain [c]) ++ pieces) =
      gather (.plain text :: pieces) := by
    obtain ⟨c, chars, rfl⟩ := List.exists_cons_of_ne_nil present
    exact gather_ordinary_append c chars pieces
  have front := interchangeable_gather bare pieces
  rw [← gathered] at front
  have inner := WordPart.Interchangeable.merged ((gather pieces).map toPart)
  have outer := WordPart.Interchangeable.merged (.literal (String.ofList text) :: parts pieces)
  have whole := WordPart.Interchangeable.merged
    ((gather (text.map (fun c => .plain [c]) ++ pieces)).map toPart)
  exact (outer.trans (inner.cons _)).trans (front.trans whole.symm)

end Piece

namespace Token

/-- A scalar assignment is its name and the word that its value is read as. -/
theorem exists_pieces_of_scan {dialect : Dialect} {name value rest : List Char}
    {assigned : Assignment} {argument : Word} (valid : Name.isValid name = true)
    (lexed : scan dialect (name ++ '=' :: value) = ⟨.ok (some (.assignment assigned)), rest⟩)
    (scalar : assigned.asWord? = some argument) :
    ∃ pieces, Piece.scan value = ⟨.ok pieces, rest⟩ ∧
      assigned = ⟨String.ofList name, .scalar ⟨Piece.parts pieces⟩⟩ := by
  have scanned : Name.scan? (name ++ '=' :: value) = some (name, '=' :: value) :=
    Name.scan?_eq_some_iff.mpr ⟨rfl, valid, by simp [Name.continuesName]⟩
  have named : assignedName? (name ++ '=' :: value) = some (String.ofList name, value) := by
    unfold assignedName?
    rw [scanned]
    rfl
  have here : skipBlanks (name ++ '=' :: value) = name ++ '=' :: value := by
    cases name with
    | nil => cases valid
    | cons c name => exact skipBlanks_of_startsName ((Bool.and_eq_true _ _).mp valid).1 _
  rw [scan, here] at lexed
  by_cases opening : value.head? = some '('
  · obtain ⟨inner, rfl⟩ := List.head?_eq_some_iff.mp opening
    rw [scanHere_array named] at lexed
    obtain ⟨elements, -, same⟩ := Scanned.eq_of_map_eq_ok lexed
    obtain rfl := Token.assignment.inj (Option.some.inj same)
    cases scalar
  · rw [scanHere_value named opening] at lexed
    obtain ⟨pieces, read, same⟩ := Scanned.eq_of_map_eq_ok lexed
    exact ⟨pieces, read, (Token.assignment.inj (Option.some.inj same)).symm⟩

/-- A scalar assignment that is read as an argument has the same outcomes as the word that is read
from its whole text, and as much of the text is read for either. -/
theorem argument_equivalent {dialect : Dialect} {name value rest : List Char}
    {assigned : Assignment} {argument : Word} (valid : Name.isValid name = true)
    (lexed : scan dialect (name ++ '=' :: value) = ⟨.ok (some (.assignment assigned)), rest⟩)
    (scalar : assigned.asWord? = some argument) :
    ∃ pieces, Piece.scan (name ++ '=' :: value) = ⟨.ok pieces, rest⟩ ∧
      Word.Equivalent argument ⟨Piece.parts pieces⟩ := by
  obtain ⟨pieces, read, rfl⟩ := exists_pieces_of_scan valid lexed scalar
  obtain rfl := Option.some.inj scalar
  have ordinary := Piece.ordinary_of_isValid valid
  have whole : Piece.scan (name ++ '=' :: value) =
      ⟨.ok ((name ++ ['=']).map (fun c => .plain [c]) ++ pieces), rest⟩ := by
    have scanned := Piece.scan_ordinary_append
      (fun c member => ⟨(ordinary c member).1, (ordinary c member).2.1⟩) value
    rw [List.append_assoc, List.singleton_append, read] at scanned
    exact scanned
  have spelled : String.ofList name ++ "=" = String.ofList (name ++ ['=']) :=
    String.ofList_append.symm
  have same := Piece.interchangeable_parts (List.append_ne_nil_of_right_ne_nil name
    (List.cons_ne_nil '=' [])) (fun c member => (ordinary c member).2.2) pieces
  rw [← spelled] at same
  exact ⟨_, whole, same.equivalent⟩

/-- Unquoted text goes on from the name into the value and has glob syntax only there, and a
backslash ends the text. -/
theorem argument_equivalent_glob :
    let assigned : Assignment := ⟨"n", .scalar ⟨[.glob "[a", .literal "*", .arguments true false,
      .literal "\\"]⟩⟩
    let argument : Word := ⟨[.literal "n=", .glob "[a", .literal "*", .arguments true false,
      .literal "\\"]⟩
    Name.isValid "n".toList = true ∧
      scan {} ("n".toList ++ '=' :: "[a'*'$@\\".toList) = ⟨.ok (some (.assignment assigned)), []⟩ ∧
      assigned.asWord? = some argument ∧
      ∃ pieces, Piece.scan ("n".toList ++ '=' :: "[a'*'$@\\".toList) = ⟨.ok pieces, []⟩ ∧
        Word.Equivalent argument ⟨Piece.parts pieces⟩ := by
  intro assigned argument
  have valid : Name.isValid "n".toList = true := by decide
  have result : (scan {} ("n".toList ++ '=' :: "[a'*'$@\\".toList)).result =
      .ok (some (.assignment assigned)) := eq_ok_of_toOption (by decide +kernel)
  have rest : (scan {} ("n".toList ++ '=' :: "[a'*'$@\\".toList)).rest = [] := by decide +kernel
  have lexed : scan {} ("n".toList ++ '=' :: "[a'*'$@\\".toList) =
      ⟨.ok (some (.assignment assigned)), []⟩ := by rw [← result, ← rest]
  have scalar : assigned.asWord? = some argument := by decide +kernel
  exact ⟨valid, lexed, scalar, argument_equivalent valid lexed scalar⟩

end Token

end PolicyShell
