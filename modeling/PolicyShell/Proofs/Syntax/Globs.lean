import PolicyShell.Proofs.Syntax.Pieces
import PolicyShell.Proofs.Syntax.Reading

/-! Glob text in the words that are read: it has a character of glob syntax, and no backslash in it
quotes anything, for there may be one only at the end of a word. -/
namespace PolicyShell

namespace Scanned

variable {α β : Type}

/-- Whatever is read has a property. -/
def Yields (holds : α → Prop) (scanned : Scanned α) : Prop :=
  ∀ value, scanned.result = .ok value → holds value

variable {holds : α → Prop} {holds' : β → Prop}

theorem Yields.ok {value : α} (held : holds value) (rest : List Char) :
    Yields holds ⟨.ok value, rest⟩ := by
  rintro _ ⟨⟩
  exact held

theorem Yields.failed (error : ParseError) (rest : List Char) :
    (Scanned.failed error rest).Yields holds := nofun

theorem Yields.map {scanned : Scanned α} (yields : scanned.Yields holds) {change : α → β}
    (later : ∀ value, holds value → holds' (change value)) :
    (scanned.map change).Yields holds' := by
  intro value read
  obtain ⟨found, scanned, rfl⟩ := result_map_ok read
  exact later found (yields found scanned)

theorem Yields.of_eq {scanned : Scanned α} (yields : scanned.Yields holds) {value : α}
    {rest : List Char} (read : scanned = ⟨.ok value, rest⟩) : holds value :=
  yields value (by rw [read])

end Scanned

open Scanned

private theorem Reference.isGlob_of_braced? {quoted : Bool} {content : List Char} {part : WordPart}
    (found : braced? quoted content = some part) : part.isGlob = false := by
  unfold braced? at found
  grind [WordPart.isGlob]

theorem Reference.scan_yields (quoted : Bool) (text : List Char) :
    (scan quoted text).Yields fun found => ∀ part ∈ found, part.isGlob = false := by
  unfold scan
  split
  · exact .ok nofun _
  · split
    · exact .failed _ _
    · split
      · rename_i part found
        exact .ok (by rintro _ ⟨⟩; exact isGlob_of_braced? found) _
      · exact .failed _ _
  · exact .failed _ _
  · exact .ok (by rintro _ ⟨⟩; rfl) _
  · exact .ok (by rintro _ ⟨⟩; rfl) _
  · split
    · exact .ok (by rintro _ ⟨⟩; rfl) _
    · split
      · exact .ok (by rintro _ ⟨⟩; rfl) _
      · exact .ok nofun _

namespace Piece

/-- Whether a piece is no unquoted text. -/
def isInert : Piece → Bool
  | plain _ => false
  | quoted _ => true
  | reference part => !part.isGlob

/-- Unquoted text has no backslash but at the very end. -/
inductive Unescaped : List Piece → Prop where
  | nil : Unescaped []
  | last {text : List Char} (bare : '\\' ∉ text) : Unescaped [plain (text ++ ['\\'])]
  | plain {text : List Char} {rest : List Piece} (bare : '\\' ∉ text) (later : Unescaped rest) :
      Unescaped (plain text :: rest)
  | inert {piece : Piece} {rest : List Piece} (inert : piece.isInert = true)
      (later : Unescaped rest) : Unescaped (piece :: rest)

theorem Unescaped.append {pieces rest : List Piece} (inert : ∀ piece ∈ pieces, piece.isInert = true)
    (later : Unescaped rest) : Unescaped (pieces ++ rest) := by
  induction pieces with
  | nil => exact later
  | cons first pieces ih =>
    obtain ⟨head, tail⟩ := List.forall_mem_cons.mp inert
    exact .inert head (ih tail)

private theorem scanDoubleQuoted_yields (opening text : List Char) :
    (scanDoubleQuoted opening text).Yields fun pieces =>
      ∀ piece ∈ pieces, piece.isInert = true := by
  have cons {piece : Piece} (inert : piece.isInert = true) (pieces : List Piece)
      (later : ∀ piece ∈ pieces, piece.isInert = true) :
      ∀ other ∈ piece :: pieces, other.isInert = true :=
    List.forall_mem_cons.mpr ⟨inert, later⟩
  fun_induction scanDoubleQuoted opening text with
  | case1 => exact .failed _ _
  | case2 => exact .ok (by simp) _
  | case3 => exact .failed _ _
  | case4 rest ih => exact ih
  | case5 c rest _ _ ih => exact ih.map (cons rfl)
  | case6 c rest _ _ ih => exact ih.map (cons rfl)
  | case7 => exact .failed _ _
  | case8 inner rest read _ ih => exact ih.map (cons rfl)
  | case9 inner part rest read _ ih =>
    have noGlob := (Reference.scan_yields true inner).of_eq read part rfl
    exact ih.map (cons (by rw [isInert, noGlob]; rfl))
  | case10 c rest _ _ _ _ _ ih => exact ih.map (cons rfl)

theorem scan_yields (text : List Char) : (scan text).Yields Unescaped := by
  fun_induction scan text with
  | case1 => exact .ok .nil _
  | case2 =>
    have ends : Unescaped [plain ([] ++ ['\\'])] := .last List.not_mem_nil
    exact .ok ends _
  | case3 rest ih => exact ih
  | case4 c rest _ ih => exact ih.map fun _ => .inert rfl
  | case5 => exact .failed _ _
  | case6 inner content rest read _ ih => exact ih.map fun _ => .inert rfl
  | case7 => exact .failed _ _
  | case8 inner pieces rest read _ ih =>
    have inert := (scanDoubleQuoted_yields ('"' :: inner) inner).of_eq read
    refine ih.map fun _ => .append ?_
    cases pieces with
    | nil => simp [orEmpty, isInert]
    | cons => exact inert
  | case9 => exact .failed _ _
  | case10 inner rest read _ ih => exact ih.map fun _ => .plain (by simp)
  | case11 inner part rest read _ ih =>
    have noGlob := (Reference.scan_yields false inner).of_eq read part rfl
    exact ih.map fun _ => .inert (by rw [isInert, noGlob]; rfl)
  | case12 => exact .failed _ _
  | case13 => exact .ok .nil _
  | case14 c rest last _ escape single double dollar backquote _ ih =>
    have inactive : isActive c = false :=
      inactive_of_other last escape single double dollar backquote
    have bare : '\\' ∉ [c] := by
      rintro (_ | ⟨_, ⟨⟩⟩)
      cases inactive
    exact ih.map fun _ => .plain bare

theorem Unescaped.gather {pieces : List Piece} (unescaped : Unescaped pieces) :
    Unescaped (gather pieces) := by
  fun_induction Piece.gather pieces with
  | case1 => exact .nil
  | case2 rest text next gathered same ih =>
    rw [same] at ih
    cases unescaped with
    | last => cases same
    | plain bare later =>
      cases ih later with
      | last bare' =>
        rw [← List.append_assoc]
        exact .last (by simp [bare, bare'])
      | plain bare' later => exact .plain (by simp [bare, bare']) later
      | inert inert => cases inert
    | inert inert => cases inert
  | case3 rest text next gathered same ih =>
    rw [same] at ih
    cases unescaped with
    | inert _ later =>
      cases ih later with
      | inert _ later => exact .inert rfl later
  | case4 piece rest _ _ ih =>
    cases unescaped with
    | last bare => exact .last bare
    | plain bare later => exact .plain bare (ih later)
    | inert inert later => exact .inert inert (ih later)

end Piece

namespace WordPart

/-- Glob text has a character of glob syntax, and no backslash but at the end of the word. -/
inductive Unescaped : List WordPart → Prop where
  | nil : Unescaped []
  | last {text : List Char} (bare : '\\' ∉ text) (syntactic : text.any Glob.isMeta = true) :
      Unescaped [glob (String.ofList (text ++ ['\\']))]
  | glob {text : List Char} {rest : List WordPart} (bare : '\\' ∉ text)
      (syntactic : text.any Glob.isMeta = true) (later : Unescaped rest) :
      Unescaped (glob (String.ofList text) :: rest)
  | inert {part : WordPart} {rest : List WordPart} (inert : part.isGlob = false)
      (later : Unescaped rest) : Unescaped (part :: rest)

theorem unescaped_of_pieces {pieces : List Piece} (unescaped : Piece.Unescaped pieces) :
    Unescaped (pieces.map Piece.toPart) := by
  induction unescaped with
  | nil => exact .nil
  | @last text bare =>
    rw [List.map_singleton, Piece.toPart]
    split
    · rename_i syntactic
      exact .last bare (by simpa [Glob.isMeta] using syntactic)
    · exact .inert rfl .nil
  | plain bare _ ih =>
    rw [List.map_cons, Piece.toPart]
    split
    · exact .glob bare ‹_› ih
    · exact .inert rfl ih
  | @inert piece rest inert _ ih =>
    refine .inert ?_ ih
    cases piece with
    | plain => cases inert
    | quoted => rfl
    | reference part => simpa [Piece.isInert, Piece.toPart] using inert

theorem Unescaped.mergeLiterals {parts : List WordPart} (unescaped : Unescaped parts) :
    Unescaped (mergeLiterals parts) := by
  fun_induction WordPart.mergeLiterals parts with
  | case1 => exact .nil
  | case2 rest text next merged same ih =>
    rw [same] at ih
    cases unescaped with
    | inert _ later =>
      cases ih later with
      | inert _ later => exact .inert rfl later
  | case3 part rest _ ih =>
    cases unescaped with
    | last bare syntactic => exact .last bare syntactic
    | glob bare syntactic later => exact .glob bare syntactic (ih later)
    | inert inert later => exact .inert inert (ih later)

end WordPart

/-- Unquoted text of a word is free of backslashes that might be taken for quotes. -/
def Word.Unescaped (word : Word) : Prop := WordPart.Unescaped word.parts

theorem Word.unescaped_parts {pieces : List Piece} (unescaped : Piece.Unescaped pieces) :
    Word.Unescaped ⟨Piece.parts pieces⟩ :=
  (WordPart.unescaped_of_pieces unescaped.gather).mergeLiterals

theorem Word.scan_yields (dialect : Dialect) (text : List Char) :
    (scan dialect text).Yields Word.Unescaped := by
  unfold scan
  split
  · exact .ok (.inert rfl .nil) _
  · split
    · exact .failed _ _
    · exact .failed _ _
    · rename_i pieces rest _ read
      exact .ok (unescaped_parts ((Piece.scan_yields text).of_eq read)) _

private theorem Word.scanElements_yields (dialect : Dialect) (opening text : List Char) :
    (scanElements dialect opening text).Yields fun words => ∀ word ∈ words, word.Unescaped := by
  fun_induction scanElements dialect opening text with
  | case1 => exact .failed _ _
  | case2 => exact .ok (by simp) _
  | case3 c inner _ _ ih => exact ih
  | case4 => exact .failed _ _
  | case5 c inner _ _ word rest read _ ih =>
    have first := (Word.scan_yields dialect (c :: inner)).of_eq read
    exact ih.map fun words later => List.forall_mem_cons.mpr ⟨first, later⟩

namespace Token

/-- The words that a token may bring into a command: those that are assigned, and the one that is
an argument. -/
def words (token : Token) : List Word := assigned token ++ (Grammar.argumentWord? token).toList
where
  assigned : Token → List Word
    | .assignment ⟨_, .scalar value⟩ => [value]
    | .assignment ⟨_, .array elements⟩ => elements
    | _ => []

private theorem scanWord_yields (dialect : Dialect) (text : List Char) :
    (scanWord dialect text).Yields fun token => ∀ word ∈ token.words, word.Unescaped := by
  have word (text : List Char) : (scanWord.words dialect text).Yields fun token =>
      ∀ word ∈ token.words, word.Unescaped := by
    refine (Word.scan_yields dialect text).map fun found unescaped => ?_
    rintro _ (_ | ⟨_, ⟨⟩⟩)
    exact unescaped
  have brace : Word.Unescaped (.literal "\x7b") := .inert rfl .nil
  have brace' : Word.Unescaped (.literal "\x7d") := .inert rfl .nil
  unfold scanWord
  split
  · refine (Word.scanElements_yields dialect text _).map fun elements unescaped => ?_
    simpa [words, words.assigned, Grammar.argumentWord?, Assignment.asWord?] using unescaped
  · rename_i name rest _ found
    refine (Piece.scan_yields rest).map fun pieces unescaped => ?_
    have value := Word.unescaped_parts unescaped
    have argument : Word.Unescaped ⟨WordPart.mergeLiterals
        (.literal (name ++ "=") :: Piece.parts pieces)⟩ :=
      WordPart.Unescaped.mergeLiterals (.inert rfl value)
    simpa [words, words.assigned, Grammar.argumentWord?, Assignment.asWord?] using ⟨value, argument⟩
  · split
    · split
      · exact .ok (by simpa [words, words.assigned, Grammar.argumentWord?] using brace) _
      · exact word _
    · split
      · exact .ok (by simpa [words, words.assigned, Grammar.argumentWord?] using brace') _
      · exact word _
    · exact word _

/-- Whatever token is read, unquoted text in its words is free of backslashes that might be taken
for quotes. -/
theorem scan_yields (dialect : Dialect) (text : List Char) :
    (scan dialect text).Yields fun found =>
      ∀ token ∈ found, ∀ word ∈ token.words, word.Unescaped := by
  have mark {token : Token} (none : token.words = []) (rest : List Char) :
      Yields (fun found => ∀ token ∈ found, ∀ word ∈ token.words, word.Unescaped)
        ⟨.ok (some token), rest⟩ := by
    refine .ok ?_ rest
    rintro _ ⟨⟩ word member
    rw [none] at member
    cases member
  unfold scan
  fun_cases scanHere dialect (skipBlanks text) with
  | case1 => exact .ok (by simp) _
  | case13 =>
    refine (scanWord_yields dialect _).map fun token unescaped => ?_
    rintro _ ⟨⟩
    exact unescaped
  | _ => first | exact mark rfl _ | exact .failed _ _

end Token

end PolicyShell
