import Mathlib.Data.List.Chain
import PolicyShell.Proofs.Syntax.Acceptance
import PolicyShell.Proofs.Syntax.Globs

/-! The form of programs that were read: what names there are in them, which parts stand side by
side in a word, and where commands stand in one another. -/
namespace PolicyShell

/-- What may be named after a dollar sign to stand for one value. -/
inductive IsScalarName : String → Prop where
  /-- A state of the shell. -/
  | special {c : Char} (special : c ∈ ['?', '#', '$', '!']) : IsScalarName (String.ofList [c])
  /-- A positional parameter. -/
  | position {digits : List Char} (present : digits ≠ []) (decimal : ∀ c ∈ digits, c.isDigit) :
      IsScalarName (String.ofList digits)
  | variable {name : List Char} (valid : Name.isValid name) : IsScalarName (String.ofList name)
  | element {array index : List Char} (valid : Name.isValid array) (present : index ≠ [])
      (single : index ≠ ['@'] ∧ index ≠ ['*']) :
      IsScalarName (String.ofList (array ++ '[' :: index ++ [']']))

namespace WordPart

def isLiteral : WordPart → Bool
  | literal _ => true
  | scalar _ _ | array _ _ _ | glob _ | arguments _ _ => false

def IsNamed : WordPart → Prop
  | scalar name _ => IsScalarName name
  | array name _ _ => Name.isValid name.toList
  | literal _ | glob _ | arguments _ _ => True

/-- Neighbouring parts of which not both are so. -/
def Apart (kind : WordPart → Bool) (parts : List WordPart) : Prop :=
  parts.IsChain fun first second => ¬(kind first = true ∧ kind second = true)

end WordPart

structure Word.WellFormed (word : Word) : Prop where
  named : ∀ part ∈ word.parts, part.IsNamed
  literals : WordPart.Apart WordPart.isLiteral word.parts
  globs : WordPart.Apart WordPart.isGlob word.parts
  /-- Glob text has glob syntax, and a backslash at the end of the word at most. -/
  unescaped : word.Unescaped

/-- A word with a part. Only the value of an assignment may have none. -/
structure Word.Substantial (word : Word) : Prop extends word.WellFormed where
  present : word.parts ≠ []

def AssignedValue.WellFormed : AssignedValue → Prop
  | .scalar word => word.WellFormed
  | .array elements => ∀ word ∈ elements, word.Substantial

structure Assignment.WellFormed (assignment : Assignment) : Prop where
  valid : Name.isValid assignment.name.toList
  value : assignment.value.WellFormed

inductive Command.WellFormed : Command → Prop where
  | simple {assignments : List Assignment} {words : List Word}
      (present : assignments ≠ [] ∨ words ≠ [])
      (assigned : ∀ assignment ∈ assignments, assignment.WellFormed)
      (arguments : ∀ word ∈ words, word.Substantial) : WellFormed (.simple assignments words)
  | chain {left right : Command} (connective : Connective) (before : WellFormed left)
      (after : WellFormed right)
      (single : ∀ first connective second, right ≠ .chain first connective second) :
      WellFormed (.chain left connective right)
  | definition {name : String} {body : List Command} (valid : Name.isValid name.toList)
      (inside : WellFormed (.group body)) : WellFormed (.definition name (.group body))
  | group {body : List Command} (each : ∀ command ∈ body, WellFormed command) :
      WellFormed (.group body)

def Token.WellFormed : Token → Prop
  | .word read => read.Substantial
  | .assignment assigned => assigned.WellFormed
  | _ => True

namespace Name

theorem eq_of_element? {text name index : List Char} (found : element? text = some (name, index)) :
    text = name ++ '[' :: index ++ [']'] := by
  unfold element? at found
  split at found
  · cases found
  · rename_i array inner cut
    split at found
    · rename_i closes
      cases found
      rw [← upTo?_append cut, List.append_assoc, List.cons_append,
        List.dropLast_append_getLast? ']' closes]
    · cases found

end Name

namespace Reference

open Scanned

theorem isScalarName_of_isSpecial {c : Char} (special : isSpecial c) :
    IsScalarName (String.ofList [c]) := by
  refine .special ?_
  simpa [isSpecial, or_assoc] using special

private theorem named_of_braced? {quoted : Bool} {content : List Char} {part : WordPart}
    (found : braced? quoted content = some part) : part.IsNamed := by
  unfold braced? at found
  split at found
  · cases found
    trivial
  · cases found
    trivial
  · dsimp only at found
    split at found
    · rename_i single
      cases found
      obtain ⟨one, special⟩ := Bool.and_eq_true_iff.mp single
      obtain ⟨c, rfl⟩ := List.length_eq_one_iff.mp (of_decide_eq_true one)
      exact isScalarName_of_isSpecial (by simpa using special)
    · split at found
      · rename_i position
        cases found
        obtain ⟨present, decimal⟩ := Bool.and_eq_true_iff.mp position
        exact .position (by simpa using present) (List.all_eq_true.mp decimal)
      · split at found
        · rename_i name index element
          split at found
          · cases found
          · rename_i proper
            simp only [Bool.or_eq_true, Bool.not_eq_true', not_or, List.isEmpty_iff,
              Bool.not_eq_false] at proper
            split at found
            · cases found
              simpa [WordPart.IsNamed] using proper.1
            · split at found
              · cases found
                simpa [WordPart.IsNamed] using proper.1
              · rename_i splice joined
                cases found
                rw [Name.eq_of_element? element]
                exact .element proper.1 proper.2 ⟨splice, joined⟩
        · split at found
          · rename_i valid
            cases found
            exact .variable valid
          · cases found

private theorem scan_named (quoted : Bool) (text : List Char) :
    (scan quoted text).Yields fun found => ∀ part ∈ found, part.IsNamed := by
  unfold scan
  split
  · exact .ok nofun _
  · split
    · exact .failed _ _
    · split
      · rename_i part found
        exact .ok (by rintro _ ⟨⟩; exact named_of_braced? found) _
      · exact .failed _ _
  · exact .failed _ _
  · exact .ok (by rintro _ ⟨⟩; trivial) _
  · exact .ok (by rintro _ ⟨⟩; trivial) _
  · rename_i c rest _ _ _ _
    split
    · rename_i single
      have named : IsScalarName (String.ofList [c]) := by
        rcases Bool.or_eq_true_iff.mp single with special | decimal
        · exact isScalarName_of_isSpecial special
        · exact .position (List.cons_ne_nil c []) (by simpa using decimal)
      exact .ok (by rintro _ ⟨⟩; exact named) _
    · split
      · rename_i name rest found
        exact .ok (by rintro _ ⟨⟩; exact .variable (Name.scan?_isValid found)) _
      · exact .ok nofun _

end Reference

namespace Piece

open Scanned

def isPlain : Piece → Bool
  | plain _ => true
  | quoted _ | reference _ => false

/-- A reference is to what has a name, and is no glob text. -/
def IsSound : Piece → Prop
  | reference part => part.IsNamed ∧ part.isGlob = false
  | plain _ | quoted _ => True

private theorem named_toPart {piece : Piece} (sound : piece.IsSound) : piece.toPart.IsNamed := by
  cases piece with
  | plain text =>
    rw [toPart]
    split <;> trivial
  | quoted text => trivial
  | reference part => exact sound.1

private theorem isPlain_of_isGlob {piece : Piece} (sound : piece.IsSound)
    (glob : piece.toPart.isGlob = true) : piece.isPlain = true := by
  cases piece with
  | plain text => rfl
  | quoted text => cases glob
  | reference part => exact absurd glob (by rw [toPart, sound.2]; exact Bool.false_ne_true)

theorem sound_reference {quoted : Bool} {text rest : List Char} {part : WordPart}
    (read : Reference.scan quoted text = ⟨.ok (some part), rest⟩) : (reference part).IsSound :=
  ⟨(Reference.scan_named quoted text).of_eq read part rfl,
    (Reference.scan_yields quoted text).of_eq read part rfl⟩

private theorem scanDoubleQuoted_sound (opening text : List Char) :
    (scanDoubleQuoted opening text).Yields fun pieces => ∀ piece ∈ pieces, piece.IsSound := by
  have cons {piece : Piece} (sound : piece.IsSound) (pieces : List Piece)
      (later : ∀ piece ∈ pieces, piece.IsSound) : ∀ other ∈ piece :: pieces, other.IsSound :=
    List.forall_mem_cons.mpr ⟨sound, later⟩
  fun_induction scanDoubleQuoted opening text with
  | case1 => exact .failed _ _
  | case2 => exact .ok (by simp) _
  | case3 => exact .failed _ _
  | case4 rest ih => exact ih
  | case5 c rest _ _ ih => exact ih.map (cons trivial)
  | case6 c rest _ _ ih => exact ih.map (cons trivial)
  | case7 => exact .failed _ _
  | case8 inner rest read _ ih => exact ih.map (cons trivial)
  | case9 inner part rest read _ ih => exact ih.map (cons (sound_reference read))
  | case10 c rest _ _ _ _ _ ih => exact ih.map (cons trivial)

theorem scan_sound (text : List Char) :
    (scan text).Yields fun pieces => ∀ piece ∈ pieces, piece.IsSound := by
  have cons {piece : Piece} (sound : piece.IsSound) (pieces : List Piece)
      (later : ∀ piece ∈ pieces, piece.IsSound) : ∀ other ∈ piece :: pieces, other.IsSound :=
    List.forall_mem_cons.mpr ⟨sound, later⟩
  fun_induction scan text with
  | case1 => exact .ok (by simp) _
  | case2 => exact .ok (by simp [IsSound]) _
  | case3 rest ih => exact ih
  | case4 c rest _ ih => exact ih.map (cons trivial)
  | case5 => exact .failed _ _
  | case6 inner content rest read _ ih => exact ih.map (cons trivial)
  | case7 => exact .failed _ _
  | case8 inner pieces rest read _ ih =>
    have inside : ∀ piece ∈ orEmpty pieces, piece.IsSound := by
      cases pieces with
      | nil => simp [orEmpty, IsSound]
      | cons => exact (scanDoubleQuoted_sound ('"' :: inner) inner).of_eq read
    exact ih.map fun later sound => List.forall_mem_append.mpr ⟨inside, sound⟩
  | case9 => exact .failed _ _
  | case10 inner rest read _ ih => exact ih.map (cons trivial)
  | case11 inner part rest read _ ih => exact ih.map (cons (sound_reference read))
  | case12 => exact .failed _ _
  | case13 => exact .ok (by simp) _
  | case14 c rest _ _ _ _ _ _ _ _ ih => exact ih.map (cons trivial)

theorem sound_gather {pieces : List Piece} (sound : ∀ piece ∈ pieces, piece.IsSound) :
    ∀ piece ∈ gather pieces, piece.IsSound := by
  fun_induction gather pieces with
  | case1 => exact sound
  | case2 rest text next gathered same ih =>
    have later := ih (List.forall_mem_cons.mp sound).2
    rw [same] at later
    exact List.forall_mem_cons.mpr ⟨trivial, (List.forall_mem_cons.mp later).2⟩
  | case3 rest text next gathered same ih =>
    have later := ih (List.forall_mem_cons.mp sound).2
    rw [same] at later
    exact List.forall_mem_cons.mpr ⟨trivial, (List.forall_mem_cons.mp later).2⟩
  | case4 rest piece _ _ ih =>
    obtain ⟨here, others⟩ := List.forall_mem_cons.mp sound
    exact List.forall_mem_cons.mpr ⟨here, ih others⟩

/-- Gathered pieces have no unquoted text beside unquoted text. -/
theorem apart_gather (pieces : List Piece) :
    (gather pieces).IsChain fun first second =>
      ¬(first.isPlain = true ∧ second.isPlain = true) := by
  fun_induction gather pieces with
  | case1 => exact .nil
  | case2 rest text next gathered same ih =>
    rw [same, List.isChain_cons] at ih
    exact List.isChain_cons.mpr ih
  | case3 rest text next gathered same ih =>
    rw [same, List.isChain_cons] at ih
    exact List.isChain_cons.mpr ih
  | case4 rest piece differs _ ih =>
    refine ih.cons fun second head both => ?_
    obtain ⟨others, whole⟩ := List.head?_eq_some_iff.mp head
    cases piece with
    | plain text =>
      cases second with
      | plain next => exact differs text next others rfl whole
      | quoted | reference => cases both.2
    | quoted | reference => cases both.1

private theorem apart_map_toPart {pieces : List Piece} (sound : ∀ piece ∈ pieces, piece.IsSound) :
    WordPart.Apart WordPart.isGlob ((gather pieces).map toPart) := by
  have sound := sound_gather sound
  refine (List.isChain_map toPart).mpr ((apart_gather pieces).imp_of_mem_imp ?_)
  intro first second member member' apart both
  exact apart ⟨isPlain_of_isGlob (sound first member) both.1,
    isPlain_of_isGlob (sound second member') both.2⟩

end Piece

namespace WordPart

private theorem apart_literals (parts : List WordPart) : Apart isLiteral (mergeLiterals parts) := by
  fun_induction mergeLiterals parts with
  | case1 => exact .nil
  | case2 rest text next merged same ih =>
    rw [same, Apart, List.isChain_cons] at ih
    exact List.isChain_cons.mpr ih
  | case3 rest part differs ih =>
    refine List.IsChain.cons ih fun second head both => ?_
    obtain ⟨others, whole⟩ := List.head?_eq_some_iff.mp head
    cases part with
    | literal text =>
      cases second with
      | literal next => exact differs text next others rfl whole
      | scalar | array | glob | arguments => cases both.2
    | scalar | array | glob | arguments => cases both.1

/-- Merging begins with a literal where it does not begin with the first part. -/
theorem head?_mergeLiterals {parts : List WordPart} {first : WordPart}
    (head : first ∈ (mergeLiterals parts).head?) (glob : first.isGlob = true) :
    first ∈ parts.head? := by
  cases parts with
  | nil => exact head
  | cons part rest =>
    unfold mergeLiterals at head
    split at head
    · cases head
      cases glob
    · exact head

private theorem apart_globs {parts : List WordPart} (apart : Apart isGlob parts) :
    Apart isGlob (mergeLiterals parts) := by
  fun_induction mergeLiterals parts with
  | case1 => exact .nil
  | case2 rest text next merged same ih =>
    have later := ih (List.isChain_cons.mp apart).2
    rw [same, Apart, List.isChain_cons] at later
    exact List.isChain_cons.mpr later
  | case3 rest part _ ih =>
    obtain ⟨here, later⟩ := List.isChain_cons.mp apart
    refine List.IsChain.cons (ih later) fun second head both => ?_
    exact here second (head?_mergeLiterals head both.2) both

private theorem named_mergeLiterals {parts : List WordPart} (named : ∀ part ∈ parts, part.IsNamed) :
    ∀ part ∈ mergeLiterals parts, part.IsNamed := by
  fun_induction mergeLiterals parts with
  | case1 => exact named
  | case2 rest text next merged same ih =>
    have later := ih (List.forall_mem_cons.mp named).2
    rw [same] at later
    exact List.forall_mem_cons.mpr ⟨trivial, (List.forall_mem_cons.mp later).2⟩
  | case3 rest part _ ih =>
    obtain ⟨here, others⟩ := List.forall_mem_cons.mp named
    exact List.forall_mem_cons.mpr ⟨here, ih others⟩

theorem mergeLiterals_ne_nil {parts : List WordPart} (present : parts ≠ []) :
    mergeLiterals parts ≠ [] := by
  obtain ⟨first, rest, rfl⟩ := List.exists_cons_of_ne_nil present
  unfold mergeLiterals
  split <;> exact List.cons_ne_nil _ _

end WordPart

namespace Word

open Scanned

theorem wellFormed_merged {parts : List WordPart} (named : ∀ part ∈ parts, part.IsNamed)
    (globs : WordPart.Apart WordPart.isGlob parts) (unescaped : WordPart.Unescaped parts) :
    Word.WellFormed ⟨WordPart.mergeLiterals parts⟩ where
  named := WordPart.named_mergeLiterals named
  literals := WordPart.apart_literals parts
  globs := WordPart.apart_globs globs
  unescaped := unescaped.mergeLiterals

theorem wellFormed_parts {pieces : List Piece} (sound : ∀ piece ∈ pieces, piece.IsSound)
    (unescaped : Piece.Unescaped pieces) : Word.WellFormed ⟨Piece.parts pieces⟩ := by
  refine wellFormed_merged (fun part member => ?_) (Piece.apart_map_toPart sound)
    (WordPart.unescaped_of_pieces unescaped.gather)
  obtain ⟨piece, among, rfl⟩ := List.mem_map.mp member
  exact Piece.named_toPart (Piece.sound_gather sound piece among)

private theorem substantial_literal (text : String) : (literal text).Substantial where
  named := by simp [literal, WordPart.IsNamed]
  literals := List.isChain_singleton _
  globs := List.isChain_singleton _
  unescaped := .inert rfl .nil
  present := List.cons_ne_nil _ _

private theorem substantial_splice {name : List Char} (valid : Name.isValid name) :
    Word.Substantial ⟨[.array (String.ofList name) true true]⟩ where
  named := by simpa [WordPart.IsNamed] using valid
  literals := List.isChain_singleton _
  globs := List.isChain_singleton _
  unescaped := .inert rfl .nil
  present := List.cons_ne_nil _ _

theorem parts_ne_nil {pieces : List Piece} (present : pieces ≠ []) : Piece.parts pieces ≠ [] := by
  obtain ⟨first, rest, rfl⟩ := List.exists_cons_of_ne_nil present
  refine WordPart.mergeLiterals_ne_nil fun empty => ?_
  have nothing := List.map_eq_nil_iff.mp empty
  unfold Piece.gather at nothing
  split at nothing <;> cases nothing

theorem scan_substantial (dialect : Dialect) (text : List Char) :
    (scan dialect text).Yields Word.Substantial := by
  unfold scan
  split
  · rename_i name rest found
    unfold splice? at found
    split at found
    · obtain ⟨scanned, _⟩ := Option.filter_eq_some_iff.mp found
      exact .ok (substantial_splice (Name.scan?_isValid scanned)) _
    · cases found
  · split
    · exact .failed _ _
    · exact .failed _ _
    · rename_i pieces rest present read
      have wellFormed := wellFormed_parts ((Piece.scan_sound text).of_eq read)
        ((Piece.scan_yields text).of_eq read)
      exact .ok ⟨wellFormed, parts_ne_nil present⟩ _

private theorem scanElements_substantial (dialect : Dialect) (opening text : List Char) :
    (scanElements dialect opening text).Yields fun words => ∀ word ∈ words, word.Substantial := by
  fun_induction scanElements dialect opening text with
  | case1 => exact .failed _ _
  | case2 => exact .ok (by simp) _
  | case3 c inner _ _ ih => exact ih
  | case4 => exact .failed _ _
  | case5 c inner _ _ word rest read _ ih =>
    have first := (Word.scan_substantial dialect (c :: inner)).of_eq read
    exact ih.map fun words later => List.forall_mem_cons.mpr ⟨first, later⟩

end Word

private theorem Assignment.substantial_asWord? {assignment : Assignment}
    (wellFormed : assignment.WellFormed) {word : Word} (found : assignment.asWord? = some word) :
    word.Substantial := by
  rcases assignment with ⟨name, value | elements⟩
  · cases found
    have value : value.WellFormed := wellFormed.value
    refine ⟨Word.wellFormed_merged ?_ ?_ ?_, WordPart.mergeLiterals_ne_nil (List.cons_ne_nil _ _)⟩
    · exact List.forall_mem_cons.mpr ⟨trivial, value.named⟩
    · exact List.IsChain.cons value.globs fun _ _ both => nomatch both.1
    · exact .inert rfl value.unescaped
  · cases found

namespace Token

open Scanned

private theorem isValid_of_assignedName? {text rest : List Char} {name : String}
    (found : assignedName? text = some (name, rest)) : Name.isValid name.toList := by
  unfold assignedName? at found
  split at found
  · rename_i scanned
    cases found
    simpa using Name.scan?_isValid scanned
  · cases found

private theorem scanWord_wellFormed (dialect : Dialect) (text : List Char) :
    (scanWord dialect text).Yields WellFormed := by
  have words (text : List Char) : (scanWord.words dialect text).Yields WellFormed :=
    (Word.scan_substantial dialect text).map fun _ substantial => substantial
  unfold scanWord
  split
  · rename_i name rest found
    exact (Word.scanElements_substantial dialect text rest).map fun elements substantial =>
      ⟨isValid_of_assignedName? found, substantial⟩
  · rename_i name rest _ found
    intro token read
    obtain ⟨pieces, scanned, rfl⟩ := result_map_ok read
    exact ⟨isValid_of_assignedName? found,
      Word.wellFormed_parts (Piece.scan_sound rest pieces scanned)
        (Piece.scan_yields rest pieces scanned)⟩
  · split
    · split
      · exact .ok trivial _
      · exact words _
    · split
      · exact .ok trivial _
      · exact words _
    · exact words _

private theorem scan_wellFormed (dialect : Dialect) (text : List Char) :
    (scan dialect text).Yields fun found => ∀ token ∈ found, token.WellFormed := by
  unfold scan
  fun_cases scanHere dialect (skipBlanks text) with
  | case1 => exact .ok (by rintro _ ⟨⟩) _
  | case13 =>
    refine (scanWord_wellFormed dialect _).map fun token wellFormed => ?_
    rintro _ ⟨⟩
    exact wellFormed
  | _ => first | exact .failed _ _ | exact .ok (by rintro _ ⟨⟩; trivial) _

private theorem forall_readTokens_wellFormed (dialect : Dialect) (text : List Char) :
    ∀ token ∈ Grammar.bare (readTokens dialect text).1, token.WellFormed := by
  fun_induction readTokens dialect text with
  | case1 | case2 =>
    intro token member
    cases member
  | case3 text token rest read _ tokens ending same ih =>
    rw [same] at ih
    have here := (scan_wellFormed dialect text).of_eq read token rfl
    exact List.forall_mem_cons.mpr ⟨here, ih⟩

end Token

namespace Grammar

/-- What a phrase may stand for. Only a command of its own may be the right one of a chain. -/
def Phrase.WellFormed : Phrase → Prop
  | .command found =>
    found.WellFormed ∧ ∀ first connective second, found ≠ .chain first connective second
  | .andOr found => found.WellFormed
  | .sequence commands | .group commands => ∀ found ∈ commands, found.WellFormed

theorem substantial_argumentWord? {token : Token} (wellFormed : token.WellFormed) {word : Word}
    (found : argumentWord? token = some word) : word.Substantial := by
  cases token with
  | word => cases found; exact wellFormed
  | assignment => exact Assignment.substantial_asWord? wellFormed found
  | leftBrace | rightBrace => cases found; exact Word.substantial_literal _
  | _ => cases found

private theorem isValid_of_definedName? {word : Word} {name : String}
    (named : definedName? word = some name) : Name.isValid name.toList :=
  (Option.filter_eq_some_iff.mp named).2

section
variable {tokens rest : List Token}

theorem IsArguments.substantial {words : List Word} (derives : IsArguments words tokens rest)
    (wellFormed : ∀ token ∈ tokens, token.WellFormed) :
    (∀ word ∈ words, word.Substantial) ∧ ∀ token ∈ rest, token.WellFormed := by
  induction derives with
  | ended => exact ⟨nofun, wellFormed⟩
  | argument isWord _ ih =>
    obtain ⟨here, later⟩ := List.forall_mem_cons.mp wellFormed
    obtain ⟨others, rest⟩ := ih later
    exact ⟨List.forall_mem_cons.mpr ⟨substantial_argumentWord? here isWord, others⟩, rest⟩

private theorem IsSimple.wellFormed {command : Command} (derives : IsSimple command tokens rest)
    (wellFormed : ∀ token ∈ tokens, token.WellFormed) :
    Phrase.WellFormed (.command command) ∧ ∀ token ∈ rest, token.WellFormed := by
  cases derives with
  | @assignments assignments present =>
    obtain ⟨assigned, rest⟩ := List.forall_mem_append.mp wellFormed
    refine ⟨⟨.simple (.inl present) (fun assignment member => ?_) nofun, nofun⟩, rest⟩
    exact assigned _ (List.mem_map_of_mem member)
  | @words assignments word tokens _ words plain arguments =>
    obtain ⟨assigned, later⟩ := List.forall_mem_append.mp wellFormed
    obtain ⟨first, later⟩ := List.forall_mem_cons.mp later
    obtain ⟨others, rest⟩ := arguments.substantial later
    refine ⟨⟨.simple (.inr (List.cons_ne_nil word words)) (fun assignment member => ?_)
      (List.forall_mem_cons.mpr ⟨first, others⟩), nofun⟩, rest⟩
    exact assigned _ (List.mem_map_of_mem member)

private theorem Derives.wellFormed {phrase : Phrase} (derives : Derives phrase tokens rest)
    (wellFormed : ∀ token ∈ tokens, token.WellFormed) :
    phrase.WellFormed ∧ ∀ token ∈ rest, token.WellFormed := by
  induction derives with
  | simple here => exact here.wellFormed wellFormed
  | group _ ih =>
    obtain ⟨body, rest⟩ := ih wellFormed
    exact ⟨⟨.group body, nofun⟩, rest⟩
  | definition named _ _ ih =>
    have inside := (List.forall_mem_cons.mp (List.forall_mem_cons.mp
      (List.forall_mem_cons.mp wellFormed).2).2).2
    obtain ⟨body, rest⟩ := ih (List.forall_mem_append.mp inside).2
    exact ⟨⟨.definition (isValid_of_definedName? named) (.group body), nofun⟩, rest⟩
  | alone _ ih =>
    obtain ⟨command, rest⟩ := ih wellFormed
    exact ⟨command.1, rest⟩
  | joined _ _ _ _ ih ih' =>
    obtain ⟨left, later⟩ := ih wellFormed
    obtain ⟨right, rest⟩ := ih' (List.forall_mem_append.mp (List.forall_mem_cons.mp later).2).2
    exact ⟨.chain _ left right.1 right.2, rest⟩
  | last _ ih =>
    obtain ⟨command, rest⟩ := ih wellFormed
    exact ⟨List.forall_mem_singleton.mpr command, rest⟩
  | more _ _ _ _ ih ih' =>
    obtain ⟨first, later⟩ := ih wellFormed
    obtain ⟨others, rest⟩ := ih' (List.forall_mem_append.mp later).2
    exact ⟨List.forall_mem_cons.mpr ⟨first, others⟩, rest⟩
  | empty =>
    have later := (List.forall_mem_append.mp (List.forall_mem_cons.mp wellFormed).2).2
    exact ⟨nofun, (List.forall_mem_cons.mp later).2⟩
  | braced _ _ _ ih =>
    obtain ⟨body, later⟩ := ih (List.forall_mem_append.mp (List.forall_mem_cons.mp wellFormed).2).2
    exact ⟨body, (List.forall_mem_cons.mp (List.forall_mem_append.mp later).2).2⟩

private theorem IsProgram.wellFormed {commands : List Command} (program : IsProgram commands tokens)
    (wellFormed : ∀ token ∈ tokens, token.WellFormed) :
    ∀ command ∈ commands, command.WellFormed := by
  cases program with
  | empty => nofun
  | sequence _ inside _ => exact (inside.wellFormed (List.forall_mem_append.mp wellFormed).2).1

end

end Grammar

/-- Every program that is read is well formed, at every depth. -/
theorem wellFormed_of_parse {dialect : Dialect} {text : String} {commands : List Command}
    (parsed : parse dialect text = .ok commands) : ∀ command ∈ commands, command.WellFormed :=
  (isProgram_of_commands parsed).wellFormed (Token.forall_readTokens_wellFormed dialect text.toList)

/-- A definition around a chain, and a pattern that ends in a backslash with the text. -/
theorem wellFormed_of_parse_nested :
    let elements : List Word := [⟨[.scalar "?" true, .glob "*"]⟩]
    let words : List Word := [.literal "argv", ⟨[.scalar "b[2]" false]⟩, ⟨[.array "c" true true]⟩]
    let left : Command := .simple [⟨"x", .scalar ⟨[]⟩⟩, ⟨"a", .array elements⟩] words
    let right : Command := .group [.simple [⟨"y", .scalar (.literal "1")⟩] []]
    let commands : List Command := [.definition "f" (.group [.chain left .or right]),
      .simple [] [.literal "echo", ⟨[.literal "q", .glob "*\\"]⟩]]
    parse .splicing "f() \x7b x= a=(\"$?\"*) argv $\x7bb[2]\x7d @c || \x7b y=1; \x7d; \x7d\necho 'q'*\\" =
        .ok commands ∧
      ∀ command ∈ commands, command.WellFormed := by
  intro elements words left right commands
  have parsed : parse .splicing
      "f() \x7b x= a=(\"$?\"*) argv $\x7bb[2]\x7d @c || \x7b y=1; \x7d; \x7d\necho 'q'*\\" = .ok commands := by
    decide +kernel
  exact ⟨parsed, wellFormed_of_parse parsed⟩

end PolicyShell
