import Mathlib.Data.List.Forall2
import PolicyShell.Proofs.Syntax.Line

/-! Two dialects read the same tokens from a text, up to the words that one of them splices. -/
namespace PolicyShell

/-- Two outcomes with the same failure, or with related values. -/
inductive Both {ε α β : Type} (related : α → β → Prop) : Except ε α → Except ε β → Prop where
  | error (failure : ε) : Both related (.error failure) (.error failure)
  | ok {value : α} {value' : β} (same : related value value') :
      Both related (.ok value) (.ok value')

namespace Both

variable {ε α β γ δ : Type} {related : α → β → Prop} {related' : γ → δ → Prop}

theorem bind {first : Except ε α} {second : Except ε β} (both : Both related first second)
    {next : α → Except ε γ} {next' : β → Except ε δ}
    (later : ∀ value value', first = .ok value → related value value' →
      Both related' (next value) (next' value')) :
    Both related' (first.bind next) (second.bind next') := by
  cases both with
  | error failure => exact .error failure
  | ok same => exact later _ _ rfl same

theorem map {first : Except ε α} {second : Except ε β} (both : Both related first second)
    {change : α → γ} {change' : β → δ}
    (later : ∀ value value', related value value' → related' (change value) (change' value')) :
    Both related' (first.map change) (second.map change') := by
  cases both with
  | error failure => exact .error failure
  | ok same => exact .ok (later _ _ same)

theorem exists_right {value : α} {second : Except ε β} (both : Both related (.ok value) second) :
    ∃ value', second = .ok value' ∧ related value value' := by
  cases both with
  | ok same => exact ⟨_, rfl, same⟩

theorem exists_left {first : Except ε α} {value' : β} (both : Both related first (.ok value')) :
    ∃ value, first = .ok value ∧ related value value' := by
  cases both with
  | ok same => exact ⟨_, rfl, same⟩

end Both

/-- The dialect without words of its own, and the one in which a whole word may be a splice. -/
def Dialect.plain : Dialect := ⟨false⟩

def Dialect.splicing : Dialect := ⟨true⟩

/-- What a word of the plain dialect may be in the splicing one. -/
inductive Word.Becomes : Word → Word → Prop where
  | same (word : Word) : Becomes word word
  | splice {name : List Char} (valid : Name.isValid name) :
      Becomes (.literal (String.ofList ('@' :: name))) ⟨[.array (String.ofList name) true true]⟩

inductive Assignment.Becomes : Assignment → Assignment → Prop where
  | scalar (name : String) (word : Word) : Becomes ⟨name, .scalar word⟩ ⟨name, .scalar word⟩
  | array (name : String) {elements elements' : List Word}
      (each : List.Forall₂ Word.Becomes elements elements') :
      Becomes ⟨name, .array elements⟩ ⟨name, .array elements'⟩

inductive Token.Becomes : Token → Token → Prop where
  | word {word word' : Word} (becomes : word.Becomes word') : Becomes (.word word) (.word word')
  | assignment {assigned assigned' : Assignment} (becomes : assigned.Becomes assigned') :
      Becomes (.assignment assigned) (.assignment assigned')
  | same (token : Token) : Becomes token token

/-- The same token up to its words, at the same place. -/
structure PlacedToken.Becomes (first second : PlacedToken) : Prop where
  token : first.token.Becomes second.token
  start : first.start = second.start

namespace Scanned

variable {α β γ δ : Type} {related : α → β → Prop} {related' : γ → δ → Prop}

/-- Related results, read from the same text. -/
structure Both (related : α → β → Prop) (first : Scanned α) (second : Scanned β) : Prop where
  result : PolicyShell.Both related first.result second.result
  rest : first.rest = second.rest

theorem Both.map {first : Scanned α} {second : Scanned β} (both : first.Both related second)
    {change : α → γ} {change' : β → δ}
    (later : ∀ value value', related value value' → related' (change value) (change' value')) :
    (first.map change).Both related' (second.map change') :=
  ⟨both.result.map later, both.rest⟩

theorem Both.exists_ok {value : α} {rest : List Char} {second : Scanned β}
    (both : Scanned.Both related ⟨.ok value, rest⟩ second) :
    ∃ value', second = ⟨.ok value', rest⟩ ∧ related value value' := by
  rcases second with ⟨result, rest'⟩
  obtain ⟨result, rfl⟩ := both
  cases result with
  | ok same => exact ⟨_, rfl, same⟩

theorem Both.eq_failed {error : ParseError} {rest : List Char} {second : Scanned β}
    (both : Scanned.Both related ⟨.error error, rest⟩ second) : second = ⟨.error error, rest⟩ := by
  rcases second with ⟨result, rest'⟩
  obtain ⟨result, rfl⟩ := both
  cases result
  rfl

theorem Both.refl {related : α → α → Prop} (same : ∀ value, related value value)
    (scanned : Scanned α) : scanned.Both related scanned := by
  refine ⟨?_, rfl⟩
  cases scanned.result with
  | error failure => exact .error failure
  | ok value => exact .ok (same value)

end Scanned

namespace Piece

/-- Characters that are neither active nor the end of a word are each a piece. -/
theorem scan_ordinary_append {chars : List Char}
    (ordinary : ∀ c ∈ chars, isActive c = false ∧ endsWord c = false) (rest : List Char) :
    scan (chars ++ rest) = (scan rest).map ((chars.map fun c => plain [c]) ++ ·) := by
  induction chars with
  | nil => exact (Scanned.map_nil_append _).symm
  | cons c chars ih =>
    obtain ⟨inactive, goesOn⟩ := ordinary c (List.mem_cons_self ..)
    rw [List.cons_append, scan_inactive inactive, goesOn,
      ih fun d member => ordinary d (List.mem_cons_of_mem _ member), if_neg Bool.false_ne_true,
      Scanned.map_map]
    rfl

theorem scan_ordinary {chars rest : List Char}
    (ordinary : ∀ c ∈ chars, isActive c = false ∧ endsWord c = false)
    (ends : scan rest = ⟨.ok [], rest⟩) :
    scan (chars ++ rest) = ⟨.ok (chars.map fun c => plain [c]), rest⟩ := by
  rw [scan_ordinary_append ordinary, ends]
  simp [Scanned.map, Except.map]

/-- Unquoted text goes on with unquoted text behind it. -/
theorem gather_plain (text : List Char) (pieces : List Piece) :
    gather (plain text :: pieces) =
      match gather pieces with
      | plain next :: gathered => plain (text ++ next) :: gathered
      | gathered => plain text :: gathered := by
  rw [gather.eq_def]
  dsimp only
  rcases gather pieces with _ | ⟨_ | _ | _, gathered⟩ <;> rfl

/-- Unquoted characters in front of other pieces are gathered with one another first. -/
theorem gather_ordinary_append (c : Char) (chars : List Char) (pieces : List Piece) :
    gather ((c :: chars).map (fun c => plain [c]) ++ pieces) =
      gather (plain (c :: chars) :: pieces) := by
  induction chars generalizing c with
  | nil => rfl
  | cons second chars ih =>
    rw [List.map_cons, List.cons_append, gather_plain, ih second, gather_plain, gather_plain]
    rcases gather pieces with _ | ⟨_ | _ | _, gathered⟩ <;> rfl

theorem gather_ordinary (c : Char) (chars : List Char) :
    gather ((c :: chars).map fun c => plain [c]) = [plain (c :: chars)] := by
  have gathered := gather_ordinary_append c chars []
  rwa [List.append_nil] at gathered

theorem scan_of_atWordEnd {rest : List Char} (ends : atWordEnd rest = true) :
    scan rest = ⟨.ok [], rest⟩ := by
  cases rest with
  | nil => exact scan_nil
  | cons c rest =>
    have stops : endsWord c = true := by simpa [atWordEnd] using ends
    have inactive : isActive c = false := by
      by_contra active
      simp only [isActive, Bool.not_eq_false, Bool.or_eq_true, beq_iff_eq] at active
      rcases active with (((rfl | rfl) | rfl) | rfl) | rfl
      all_goals exact absurd stops (by decide)
    rw [scan_inactive inactive, if_pos stops]

theorem ordinary_of_continuesName {c : Char} (continues : Name.continuesName c = true) :
    isActive c = false ∧ endsWord c = false ∧ Glob.isMeta c = false := by
  refine ⟨?_, ?_, ?_⟩
  · by_contra active
    simp only [isActive, Bool.not_eq_false, Bool.or_eq_true, beq_iff_eq] at active
    rcases active with (((rfl | rfl) | rfl) | rfl) | rfl
    all_goals exact absurd continues (by decide)
  · by_contra ends
    simp only [endsWord, Bool.not_eq_false, Bool.or_eq_true, beq_iff_eq] at ends
    rcases ends with ((((((((rfl | rfl) | rfl) | rfl) | rfl) | rfl) | rfl) | rfl) | rfl) | rfl
    all_goals exact absurd continues (by decide)
  · by_contra special
    simp only [Glob.isMeta, Bool.not_eq_false, Bool.or_eq_true, beq_iff_eq] at special
    rcases special with (rfl | rfl) | rfl
    all_goals exact absurd continues (by decide)

theorem continuesName_of_isValid {name : List Char} (valid : Name.isValid name = true) :
    ∀ c ∈ name, Name.continuesName c = true := by
  cases name with
  | nil => cases valid
  | cons first rest =>
    simp only [Name.isValid, Bool.and_eq_true, List.all_eq_true] at valid
    obtain ⟨starts, others⟩ := valid
    intro c member
    rcases List.mem_cons.mp member with rfl | later
    · exact Name.continuesName_of_startsName starts
    · exact others c later

/-- A whole word that looks like a splice is a literal in the plain dialect. -/
theorem scan_splice {name rest : List Char} (valid : Name.isValid name = true)
    (ends : atWordEnd rest = true) :
    ∃ pieces, scan ('@' :: name ++ rest) = ⟨.ok pieces, rest⟩ ∧ pieces ≠ [] ∧
      parts pieces = [.literal (String.ofList ('@' :: name))] := by
  have continues := continuesName_of_isValid valid
  have ordinary : ∀ c ∈ '@' :: name, isActive c = false ∧ endsWord c = false := by
    intro c member
    rcases List.mem_cons.mp member with rfl | later
    · exact ⟨rfl, rfl⟩
    · exact ⟨(ordinary_of_continuesName (continues c later)).1,
        (ordinary_of_continuesName (continues c later)).2.1⟩
  have inert : ('@' :: name).any Glob.isMeta = false := by
    rw [List.any_eq_false]
    intro c member
    rcases List.mem_cons.mp member with rfl | later
    · decide
    · simp [(ordinary_of_continuesName (continues c later)).2.2]
  refine ⟨_, scan_ordinary ordinary (scan_of_atWordEnd ends), by simp, ?_⟩
  rw [parts, gather_ordinary, List.map_singleton, toPart, inert]
  rfl

end Piece

namespace Word

private theorem splice?_plain (text : List Char) : splice? .plain text = none := by
  unfold splice?
  split
  · cases Name.scan? _ <;> rfl
  · rfl

/-- A splice is a name after an at sign, up to the end of the word. -/
theorem of_splice?_splicing {text name rest : List Char}
    (found : splice? .splicing text = some (name, rest)) :
    text = '@' :: name ++ rest ∧ Name.isValid name = true ∧ atWordEnd rest = true := by
  unfold splice? at found
  split at found
  · obtain ⟨scanned, ends⟩ := Option.filter_eq_some_iff.mp found
    refine ⟨?_, Name.scan?_isValid scanned, by simpa [Dialect.splicing] using ends⟩
    rw [← Name.scan?_append scanned]
    rfl
  · cases found

theorem both_scan (text : List Char) : (scan .plain text).Both Becomes (scan .splicing text) := by
  cases found : splice? .splicing text with
  | none =>
    have same : scan .splicing text = scan .plain text := by
      rw [scan, scan, found, splice?_plain]
    rw [same]
    exact .refl .same _
  | some read =>
    rcases read with ⟨name, rest⟩
    obtain ⟨rfl, valid, ends⟩ := of_splice?_splicing found
    obtain ⟨pieces, scanned, present, parts⟩ := Piece.scan_splice valid ends
    have plain : scan .plain ('@' :: name ++ rest) =
        ⟨.ok (.literal (String.ofList ('@' :: name))), rest⟩ := by
      rw [scan, splice?_plain, scanned]
      dsimp only
      split
      · rename_i same
        cases same
      · rename_i same
        cases same
        exact absurd rfl present
      · rename_i same
        cases same
        rw [parts]
        rfl
    have splicing : scan .splicing ('@' :: name ++ rest) =
        ⟨.ok ⟨[.array (String.ofList name) true true]⟩, rest⟩ := by
      rw [scan, found]
    rw [plain, splicing]
    exact ⟨.ok (.splice valid), rfl⟩

theorem scanElements_failed {dialect : Dialect} {opening inner rest : List Char} {c : Char}
    {error : ParseError} (paren : c = ')' → False) (graph : ¬(c = ' ' ∨ c = '\t' ∨ c = '\n'))
    (read : scan dialect (c :: inner) = ⟨.error error, rest⟩) :
    scanElements dialect opening (c :: inner) = .failed error rest := by
  rw [scanElements, if_neg graph]
  · split <;> simp_all
  · exact paren

private theorem both_scanElements (opening text : List Char) :
    (scanElements .plain opening text).Both (List.Forall₂ Becomes)
      (scanElements .splicing opening text) := by
  have refl (words : List Word) : List.Forall₂ Becomes words words :=
    List.forall₂_same.mpr fun word _ => Becomes.same word
  fun_induction scanElements Dialect.plain opening text with
  | case1 =>
    rw [scanElements]
    exact .refl refl _
  | case2 rest =>
    rw [scanElements]
    exact .refl refl _
  | case3 c inner paren blank ih =>
    rw [scanElements, if_pos blank]
    · exact ih
    · exact paren
  | case4 c inner paren graph error rest read =>
    have both := both_scan (c :: inner)
    rw [read] at both
    rw [scanElements_failed paren graph both.eq_failed]
    exact ⟨.error _, rfl⟩
  | case5 c inner paren graph word rest read _ ih =>
    have both := both_scan (c :: inner)
    rw [read] at both
    obtain ⟨word', read', becomes⟩ := both.exists_ok
    rw [scanElements_word _ paren graph read']
    exact ih.map fun words words' same => .cons becomes same

end Word

namespace Token

private theorem both_scanWord (text : List Char) :
    (scanWord .plain text).Both Becomes (scanWord .splicing text) := by
  cases found : assignedName? text with
  | none =>
    rw [scanWord_other found, scanWord_other found]
    cases loneBrace? text with
    | none => exact (Word.both_scan text).map fun word word' same => .word same
    | some read => exact .refl .same _
  | some read =>
    rcases read with ⟨name, rest⟩
    by_cases array : rest.head? = some '('
    · obtain ⟨elements, rfl⟩ := List.head?_eq_some_iff.mp array
      rw [scanWord_array found, scanWord_array found]
      exact (Word.both_scanElements text elements).map fun words words' each =>
        .assignment (.array name each)
    · rw [scanWord_scalar found array, scanWord_scalar found array]
      exact .refl .same _

theorem both_scan (text : List Char) :
    (scan .plain text).Both (Option.Rel Becomes) (scan .splicing text) := by
  have refl (token : Option Token) : Option.Rel Becomes token token := by
    cases token with
    | none => exact .none
    | some token => exact .some (.same token)
  unfold scan
  generalize skipBlanks text = place
  fun_cases scanHere Dialect.plain place with
  | case13 =>
    rw [scanHere] <;> try assumption
    exact (both_scanWord place).map fun token token' same => .some same
  | _ =>
    rw [scanHere] <;> try assumption
    exact .refl refl _

end Token

/-- The tokens of a text are the same in both dialects, up to the words of one of them. -/
theorem both_readTokens (text : List Char) :
    List.Forall₂ PlacedToken.Becomes (readTokens .plain text).1 (readTokens .splicing text).1 ∧
      (readTokens .plain text).2 = (readTokens .splicing text).2 := by
  fun_induction readTokens Dialect.plain text with
  | case1 text error rest read =>
    have both := Token.both_scan text
    rw [read] at both
    rw [readTokens_of_error both.eq_failed]
    exact ⟨.nil, rfl⟩
  | case2 text rest read =>
    have both := Token.both_scan text
    rw [read] at both
    obtain ⟨token', read', same⟩ := both.exists_ok
    cases same
    rw [readTokens_of_none read']
    exact ⟨.nil, rfl⟩
  | case3 text token rest read _ tokens ending same ih =>
    have both := Token.both_scan text
    rw [read] at both
    obtain ⟨token', read', same'⟩ := both.exists_ok
    cases same' with
    | some becomes =>
      rw [readTokens_of_some read']
      rw [same] at ih
      exact ⟨.cons ⟨becomes, rfl⟩ ih.1, ih.2⟩

end PolicyShell
