import PolicyShell.Syntax.Dialect
import PolicyShell.Syntax.Piece

/-! Reading one token from the beginning of a text. -/
namespace PolicyShell

/-- Drops blanks, line continuations and comments. -/
def skipBlanks : List Char → List Char
  | ' ' :: rest => skipBlanks rest
  | '\t' :: rest => skipBlanks rest
  | '\\' :: '\n' :: rest => skipBlanks rest
  | '#' :: rest => rest.dropWhile (· != '\n')
  | text => text

theorem skipBlanks_suffix (text : List Char) : skipBlanks text <:+ text := by
  fun_induction skipBlanks text with
  | case1 rest ih => exact ih.trans (List.suffix_cons ..)
  | case2 rest ih => exact ih.trans (List.suffix_cons ..)
  | case3 rest ih => exact ih.trans ⟨['\\', '\n'], rfl⟩
  | case4 rest => exact (List.dropWhile_suffix _).trans (List.suffix_cons ..)
  | case5 => exact List.suffix_refl _

/-- Whether a word cannot go on with this text. -/
def atWordEnd (text : List Char) : Bool := text.head?.all Piece.endsWord

namespace Word

/-- The name of a splice that fills a whole word, if the dialect has such words. -/
def splice? (dialect : Dialect) (text : List Char) : Option (List Char × List Char) :=
  match text with
  | '@' :: name => (Name.scan? name).filter fun (_, rest) => dialect.atSplices && atWordEnd rest
  | _ => none

private theorem length_lt_of_splice? {dialect : Dialect} {text name rest : List Char}
    (found : splice? dialect text = some (name, rest)) : rest.length < text.length := by
  unfold splice? at found
  split at found
  · rename_i inner
    obtain ⟨scanned, _⟩ := Option.filter_eq_some_iff.mp found
    rw [← Name.scan?_append scanned]
    simp only [List.length_cons, List.length_append]
    omega
  · cases found

/-- Reads a word that has at least one part. -/
def scan (dialect : Dialect) (text : List Char) : Scanned Word :=
  match splice? dialect text with
  | some (name, rest) => ⟨.ok ⟨[.array (String.ofList name) true true]⟩, rest⟩
  | none =>
    match Piece.scan text with
    | ⟨.error error, rest⟩ => .failed error rest
    | ⟨.ok [], rest⟩ =>
      .failed (.unexpected ((rest.head?.map .char).getD .endOfInput) text.length) rest
    | ⟨.ok pieces, rest⟩ => ⟨.ok ⟨Piece.parts pieces⟩, rest⟩

theorem rest_scan_suffix (dialect : Dialect) (text : List Char) :
    (scan dialect text).rest <:+ text := by
  unfold scan
  split
  · rename_i name rest found
    unfold splice? at found
    split at found
    · rename_i inner
      obtain ⟨scanned, _⟩ := Option.filter_eq_some_iff.mp found
      exact ⟨'@' :: name, by simp [Name.scan?_append scanned]⟩
    · cases found
  · split
    all_goals
      rename_i read
      exact Piece.suffix_of_scan read

theorem length_rest_lt_of_scan {dialect : Dialect} {text rest : List Char} {word : Word}
    (read : scan dialect text = ⟨.ok word, rest⟩) : rest.length < text.length := by
  unfold scan at read
  split at read
  · rename_i found
    cases read
    exact length_lt_of_splice? found
  · split at read
    · cases read
    · cases read
    · rename_i pieces rest present scanned
      cases read
      exact Piece.length_rest_lt_of_scan scanned present

/-- Reads the elements of an array and the closing parenthesis. `opening` is the text from the
assignment on. -/
def scanElements (dialect : Dialect) (opening text : List Char) : Scanned (List Word) :=
  match text with
  | [] => .failed (.unterminated .arrayLiteral opening.length) []
  | ')' :: rest => ⟨.ok [], rest⟩
  | c :: inner =>
    if c = ' ' ∨ c = '\t' ∨ c = '\n' then scanElements dialect opening inner
    else match read : scan dialect (c :: inner) with
      | ⟨.error error, rest⟩ => .failed error rest
      | ⟨.ok word, rest⟩ =>
        have := length_rest_lt_of_scan read
        (scanElements dialect opening rest).map (word :: ·)
termination_by text.length
decreasing_by all_goals simp_all

theorem rest_scanElements_suffix (dialect : Dialect) (opening text : List Char) :
    (scanElements dialect opening text).rest <:+ text := by
  have suffix {text rest : List Char} {result : Except ParseError Word}
      (read : scan dialect text = ⟨result, rest⟩) : rest <:+ text := by
    have suffix := rest_scan_suffix dialect text
    rwa [read] at suffix
  fun_induction scanElements dialect opening text with
  | case1 => exact List.nil_suffix
  | case2 => exact List.suffix_cons ..
  | case3 c inner _ _ ih => exact ih.trans (List.suffix_cons ..)
  | case4 c inner _ _ error rest read => exact suffix read
  | case5 c inner _ _ word rest read _ ih => exact ih.trans (suffix read)

end Word

namespace Token

/-- The name before an equals sign at the beginning of a text, and the text after the sign. -/
def assignedName? (text : List Char) : Option (String × List Char) :=
  match Name.scan? text with
  | some (name, '=' :: rest) => some (String.ofList name, rest)
  | _ => none

theorem suffix_of_assignedName? {text rest : List Char} {name : String}
    (found : assignedName? text = some (name, rest)) :
    rest <:+ text ∧ rest.length < text.length := by
  unfold assignedName? at found
  split at found
  · rename_i name after scanned
    cases found
    have whole := Name.scan?_append scanned
    refine ⟨⟨name ++ ['='], by simpa using whole⟩, ?_⟩
    rw [← whole]
    simp only [List.length_append, List.length_cons]
    omega
  · cases found

/-- Reads a word, an assignment or a lone brace. -/
def scanWord (dialect : Dialect) (text : List Char) : Scanned Token :=
  match assignedName? text with
  | some (name, '(' :: rest) =>
    (Word.scanElements dialect text rest).map fun elements => .assignment ⟨name, .array elements⟩
  | some (name, rest) =>
    (Piece.scan rest).map fun pieces => .assignment ⟨name, .scalar ⟨Piece.parts pieces⟩⟩
  | none =>
    match text with
    | '{' :: rest => if atWordEnd rest then ⟨.ok .leftBrace, rest⟩ else words text
    | '}' :: rest => if atWordEnd rest then ⟨.ok .rightBrace, rest⟩ else words text
    | _ => words text
where
  words (text : List Char) : Scanned Token := (Word.scan dialect text).map .word

theorem rest_scanWord_suffix (dialect : Dialect) (text : List Char) :
    (scanWord dialect text).rest <:+ text := by
  unfold scanWord
  split
  · rename_i name rest found
    exact (Word.rest_scanElements_suffix ..).trans
      ((List.suffix_cons ..).trans (suffix_of_assignedName? found).1)
  · rename_i name rest _ found
    exact (Piece.rest_scan_suffix rest).trans (suffix_of_assignedName? found).1
  · split
    · split
      · exact List.suffix_cons ..
      · exact Word.rest_scan_suffix ..
    · split
      · exact List.suffix_cons ..
      · exact Word.rest_scan_suffix ..
    · exact Word.rest_scan_suffix ..

theorem length_rest_lt_of_scanWord {dialect : Dialect} {text : List Char} {token : Token}
    (read : (scanWord dialect text).result = .ok token) :
    (scanWord dialect text).rest.length < text.length := by
  have word {text : List Char} (read : (scanWord.words dialect text).result = .ok token) :
      (scanWord.words dialect text).rest.length < text.length := by
    obtain ⟨word, scanned, _⟩ := Scanned.result_map_ok read
    have whole : Word.scan dialect text = ⟨.ok word, (Word.scan dialect text).rest⟩ := by
      rw [← scanned]
    exact Word.length_rest_lt_of_scan whole
  unfold scanWord at read ⊢
  split
  · rename_i name rest found
    have whole := suffix_of_assignedName? found
    have elements := (Word.rest_scanElements_suffix dialect text rest).length_le
    simp only [List.length_cons] at whole
    simp only [Scanned.rest_map]
    omega
  · rename_i name rest _ found
    exact Nat.lt_of_le_of_lt (Piece.rest_scan_suffix rest).length_le
      (suffix_of_assignedName? found).2
  · rename_i found
    simp only [found] at read
    split
    · split
      · simp
      · exact word (by simpa [*] using read)
    · split
      · simp
      · exact word (by simpa [*] using read)
    · exact word (by simpa using read)

/-- Reads the token at the very beginning of a text; at the end of the text there is none.
Refused syntax is not read. -/
def scanHere (dialect : Dialect) (text : List Char) : Scanned (Option Token) :=
  match text with
  | [] => ⟨.ok none, []⟩
  | '\n' :: rest => ⟨.ok (some .newline), rest⟩
  | ';' :: ';' :: _ => refused .doubleSemicolon text
  | ';' :: rest => ⟨.ok (some .semicolon), rest⟩
  | '&' :: '&' :: rest => ⟨.ok (some .and), rest⟩
  | '&' :: _ => refused .background text
  | '|' :: '|' :: rest => ⟨.ok (some .or), rest⟩
  | '|' :: _ => refused .pipe text
  | '(' :: rest => ⟨.ok (some .leftParen), rest⟩
  | ')' :: rest => ⟨.ok (some .rightParen), rest⟩
  | '<' :: _ => refused .redirection text
  | '>' :: _ => refused .redirection text
  | _ => (scanWord dialect text).map some
where
  refused (operator : Operator) (text : List Char) : Scanned (Option Token) :=
    .failed (.unsupported operator text.length) text

/-- Reads the next token, after dropping what may stand before it. -/
def scan (dialect : Dialect) (text : List Char) : Scanned (Option Token) :=
  scanHere dialect (skipBlanks text)

theorem rest_scan_suffix (dialect : Dialect) (text : List Char) :
    (scan dialect text).rest <:+ text := by
  refine List.IsSuffix.trans ?_ (skipBlanks_suffix text)
  unfold scan
  fun_cases scanHere dialect (skipBlanks text)
  all_goals first
    | exact List.suffix_refl _
    | exact List.suffix_cons ..
    | exact ⟨['&', '&'], rfl⟩
    | exact ⟨['|', '|'], rfl⟩
    | exact rest_scanWord_suffix ..

theorem length_rest_lt_of_scan {dialect : Dialect} {text rest : List Char} {token : Token}
    (read : scan dialect text = ⟨.ok (some token), rest⟩) : rest.length < text.length := by
  refine Nat.lt_of_lt_of_le ?_ (skipBlanks_suffix text).length_le
  have ends : (scanHere dialect (skipBlanks text)).rest = rest := by
    show (scan dialect text).rest = rest
    rw [read]
  have result : (scanHere dialect (skipBlanks text)).result = .ok (some token) := by
    show (scan dialect text).result = _
    rw [read]
  rw [← ends]
  revert result
  fun_cases scanHere dialect (skipBlanks text)
  all_goals intro result
  all_goals first
    | cases result; done
    | (simp only [List.length_cons]; omega)
    | (obtain ⟨read, scanned, _⟩ := Scanned.result_map_ok result
       exact length_rest_lt_of_scanWord scanned)

end Token

end PolicyShell
