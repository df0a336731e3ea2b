import PolicyShell.Proofs.Syntax.Pieces
import PolicyShell.Proofs.Syntax.Stream

/-! The tokens of a line are read in front of another line, too. -/
namespace PolicyShell

theorem atWordEnd_stopped {c : Char} (ends : Piece.endsWord c = true) (text after : List Char) :
    atWordEnd (text ++ c :: after) = atWordEnd text := by
  cases text with
  | nil => exact ends
  | cons => rfl

theorem Piece.continuesName_of_endsWord {c : Char} (ends : endsWord c = true) :
    Name.continuesName c = false := by
  simp only [endsWord, Bool.or_eq_true, beq_iff_eq] at ends
  rcases ends with ((((((((rfl | rfl) | rfl) | rfl) | rfl) | rfl) | rfl) | rfl) | rfl) | rfl
  all_goals rfl

namespace Word

variable (dialect : Dialect)

theorem splice?_stopped {c : Char} (ends : Piece.endsWord c = true) (text after : List Char) :
    splice? dialect (text ++ c :: after) =
      (splice? dialect text).map fun read => (read.1, read.2 ++ c :: after) := by
  have stops := Piece.continuesName_of_endsWord ends
  cases text with
  | nil =>
    rw [List.nil_append, splice?]
    · rfl
    · rintro _ ⟨⟩
      cases ends
  | cons d rest =>
    by_cases sign : d = '@'
    · subst sign
      rw [List.cons_append, splice?, splice?, Name.scan?_stopped rest after stops]
      cases Name.scan? rest with
      | none => rfl
      | some read =>
        simp only [Option.map_some, Option.filter_some, atWordEnd_stopped ends]
        split <;> rfl
    · rw [List.cons_append, splice?, splice?]
      · rfl
      · exact fun _ same => sign (List.cons.inj same).1
      · exact fun _ same => sign (List.cons.inj same).1

variable {text : List Char}

theorem persists_scan (sealedText : Sealed text) (after : List Char) :
    (scan dialect text).Persists ('\n' :: after) (scan dialect (text ++ '\n' :: after)) := by
  have newline : Piece.endsWord '\n' = true := rfl
  have longer := splice?_stopped dialect newline text after
  unfold scan
  split
  · rename_i name rest found
    rw [longer, found]
    exact .of_eq rfl
  · rename_i none
    rw [longer, none]
    have persists := Piece.persists_scan sealedText after
    split
    · exact .failed ..
    · exact .failed ..
    · rename_i pieces rest present read
      refine .of_eq ?_
      rw [Option.map_none, persists.eq_ok read]
      cases pieces with
      | nil => exact absurd rfl present
      | cons => rfl

theorem scanElements_word {opening inner rest : List Char} {c : Char} {word : Word}
    (paren : c = ')' → False) (graph : ¬(c = ' ' ∨ c = '\t' ∨ c = '\n'))
    (read : scan dialect (c :: inner) = ⟨.ok word, rest⟩) :
    scanElements dialect opening (c :: inner) =
      (scanElements dialect opening rest).map (word :: ·) := by
  rw [scanElements, if_neg graph]
  · split <;> simp_all
  · exact paren

private theorem persists_scanElements (opening opening' : List Char) (sealedText : Sealed text)
    (after : List Char) :
    (scanElements dialect opening text).Persists ('\n' :: after)
      (scanElements dialect opening' (text ++ '\n' :: after)) := by
  fun_induction scanElements dialect opening text with
  | case1 => exact .failed ..
  | case2 rest =>
    refine .of_eq ?_
    rw [List.cons_append, scanElements]
  | case3 c inner paren blank ih =>
    rw [List.cons_append, scanElements, if_pos blank]
    · exact ih (sealedText.of_suffix (List.suffix_cons ..))
    · exact paren
  | case4 => exact .failed ..
  | case5 c inner paren graph word rest read _ ih =>
    have suffix : rest <:+ c :: inner := by
      have suffix := rest_scan_suffix dialect (c :: inner)
      rwa [read] at suffix
    have longer := (persists_scan dialect sealedText after).eq_ok read
    rw [List.cons_append] at longer ⊢
    rw [scanElements_word dialect paren graph longer]
    exact (ih (sealedText.of_suffix suffix)).map _

end Word

namespace Token

theorem assignedName?_stopped {c : Char} (ends : Piece.endsWord c = true)
    (text after : List Char) :
    assignedName? (text ++ c :: after) =
      (assignedName? text).map fun read => (read.1, read.2 ++ c :: after) := by
  unfold assignedName?
  rw [Name.scan?_stopped text after (Piece.continuesName_of_endsWord ends)]
  cases Name.scan? text with
  | none => rfl
  | some read =>
    rcases read with ⟨name, _ | ⟨d, rest⟩⟩
    · simp only [Option.map_some, List.nil_append]
      split
      · rename_i same
        cases same
        cases ends
      · rfl
    · by_cases equals : d = '='
      · subst equals
        rfl
      · simp [equals]

/-- A brace that is a word of its own, and the text after it. -/
def loneBrace? (text : List Char) : Option (Token × List Char) :=
  match text with
  | '{' :: rest => if atWordEnd rest then some (.leftBrace, rest) else none
  | '}' :: rest => if atWordEnd rest then some (.rightBrace, rest) else none
  | _ => none

theorem loneBrace?_stopped {c : Char} (ends : Piece.endsWord c = true) (text after : List Char) :
    loneBrace? (text ++ c :: after) =
      (loneBrace? text).map fun read => (read.1, read.2 ++ c :: after) := by
  cases text with
  | nil =>
    rw [List.nil_append, loneBrace?]
    · rfl
    all_goals
      rintro _ ⟨⟩
      cases ends
  | cons d rest =>
    by_cases opening : d = '{'
    · subst opening
      rw [List.cons_append, loneBrace?, loneBrace?, atWordEnd_stopped ends]
      split <;> rfl
    · by_cases closing : d = '}'
      · subst closing
        rw [List.cons_append, loneBrace?, loneBrace?, atWordEnd_stopped ends]
        split <;> rfl
      · simp [loneBrace?, opening, closing]

section
variable {dialect : Dialect} {text rest : List Char} {name : String}

theorem scanWord_array (found : assignedName? text = some (name, '(' :: rest)) :
    scanWord dialect text =
      (Word.scanElements dialect text rest).map fun elements =>
        .assignment ⟨name, .array elements⟩ := by
  unfold scanWord
  rw [found]
  rfl

theorem scanWord_scalar (found : assignedName? text = some (name, rest))
    (plain : rest.head? ≠ some '(') :
    scanWord dialect text =
      (Piece.scan rest).map fun pieces => .assignment ⟨name, .scalar ⟨Piece.parts pieces⟩⟩ := by
  unfold scanWord
  rw [found]
  split
  · rename_i same
    cases same
    exact absurd rfl plain
  · rename_i same
    cases same
    rfl
  · rename_i same
    cases same

theorem scanWord_other (found : assignedName? text = none) :
    scanWord dialect text =
      match loneBrace? text with
      | some (brace, rest) => ⟨.ok brace, rest⟩
      | none => scanWord.words dialect text := by
  unfold scanWord
  rw [found]
  cases text with
  | nil => rfl
  | cons c rest =>
    by_cases opening : c = '{'
    · subst opening
      by_cases ends : atWordEnd rest = true <;> simp [loneBrace?, ends]
    · by_cases closing : c = '}'
      · subst closing
        by_cases ends : atWordEnd rest = true <;> simp [loneBrace?, ends]
      · simp [loneBrace?, opening, closing]

end

variable (dialect : Dialect) {text : List Char}

private theorem persists_scanWord (sealedText : Sealed text) (after : List Char) :
    (scanWord dialect text).Persists ('\n' :: after)
      (scanWord dialect (text ++ '\n' :: after)) := by
  have newline : Piece.endsWord '\n' = true := rfl
  have longer := assignedName?_stopped newline text after
  cases found : assignedName? text with
  | none =>
    rw [found] at longer
    rw [scanWord_other found, scanWord_other longer, loneBrace?_stopped newline]
    cases loneBrace? text with
    | none => exact (Word.persists_scan dialect sealedText after).map _
    | some read => exact .of_eq rfl
  | some read =>
    rcases read with ⟨name, rest⟩
    rw [found] at longer
    have inner : Sealed rest := sealedText.of_suffix (suffix_of_assignedName? found).1
    by_cases array : rest.head? = some '('
    · obtain ⟨elements, rfl⟩ := List.head?_eq_some_iff.mp array
      rw [scanWord_array found, scanWord_array longer]
      have content := inner.of_suffix (List.suffix_cons ..)
      exact (Word.persists_scanElements dialect _ _ content after).map _
    · have still : (rest ++ '\n' :: after).head? ≠ some '(' := by
        cases rest with
        | nil => simp
        | cons => exact array
      rw [scanWord_scalar found array, scanWord_scalar longer still]
      exact (Piece.persists_scan inner after).map _

theorem skipBlanks_line (sealedText : Sealed text) (after : List Char) :
    skipBlanks (text ++ '\n' :: after) = skipBlanks text ++ '\n' :: after := by
  fun_induction skipBlanks text with
  | case1 rest ih =>
    rw [List.cons_append, skipBlanks]
    exact ih (sealedText.of_suffix (List.suffix_cons ..))
  | case2 rest ih =>
    rw [List.cons_append, skipBlanks]
    exact ih (sealedText.of_suffix (List.suffix_cons ..))
  | case3 rest ih =>
    rw [List.cons_append, List.cons_append, skipBlanks]
    exact ih (sealedText.of_suffix ⟨['\\', '\n'], rfl⟩)
  | case4 rest =>
    rw [List.cons_append, skipBlanks]
    exact Name.dropWhile_stopped rest after rfl
  | case5 text space tab continued comment =>
    cases text with
    | nil => rw [List.nil_append, skipBlanks] <;> simp
    | cons c rest =>
      rw [List.cons_append, skipBlanks]
      · exact fun _ same => space rest (by rw [(List.cons.inj same).1])
      · exact fun _ same => tab rest (by rw [(List.cons.inj same).1])
      · intro others same
        obtain ⟨rfl, second⟩ := List.cons.inj same
        cases rest with
        | nil => exact sealedText (List.suffix_refl _)
        | cons next rest => exact continued rest (by rw [(List.cons.inj second).1])
      · exact fun _ same => comment rest (by rw [(List.cons.inj same).1])

/-- The characters that are tokens, or parts of tokens, without being words. -/
def isPunctuation (c : Char) : Bool :=
  c == '\n' || c == ';' || c == '&' || c == '|' || c == '(' || c == ')' || c == '<' || c == '>'

theorem scanHere_cons {c : Char} (other : isPunctuation c = false) (rest : List Char) :
    scanHere dialect (c :: rest) = (scanWord dialect (c :: rest)).map some := by
  simp only [isPunctuation, Bool.or_eq_false_iff, beq_eq_false_iff_ne] at other
  rw [scanHere] <;> simp_all

theorem not_isPunctuation_of_other {c : Char} {text : List Char}
    (newline : ∀ rest, c :: text = '\n' :: rest → False)
    (semicolon : ∀ rest, c :: text = ';' :: rest → False)
    (background : ∀ rest, c :: text = '&' :: rest → False)
    (pipe : ∀ rest, c :: text = '|' :: rest → False)
    (left : ∀ rest, c :: text = '(' :: rest → False)
    (right : ∀ rest, c :: text = ')' :: rest → False)
    (less : ∀ rest, c :: text = '<' :: rest → False)
    (greater : ∀ rest, c :: text = '>' :: rest → False) : isPunctuation c = false := by
  simp only [isPunctuation, Bool.or_eq_false_iff, beq_eq_false_iff_ne]
  refine ⟨⟨⟨⟨⟨⟨⟨?_, ?_⟩, ?_⟩, ?_⟩, ?_⟩, ?_⟩, ?_⟩, ?_⟩
  · exact fun same => newline text (by rw [same])
  · exact fun same => semicolon text (by rw [same])
  · exact fun same => background text (by rw [same])
  · exact fun same => pipe text (by rw [same])
  · exact fun same => left text (by rw [same])
  · exact fun same => right text (by rw [same])
  · exact fun same => less text (by rw [same])
  · exact fun same => greater text (by rw [same])

theorem persists_scanHere (sealedText : Sealed text) (present : text ≠ []) (after : List Char) :
    (scanHere dialect text).Persists ('\n' :: after)
      (scanHere dialect (text ++ '\n' :: after)) := by
  fun_cases scanHere dialect text with
  | case1 => exact absurd rfl present
  | case2 => exact .of_eq rfl
  | case3 => exact .failed ..
  | case4 rest single =>
    refine .of_eq ?_
    rw [List.cons_append, scanHere]
    intro others same
    cases rest with
    | nil => cases same
    | cons next rest => exact single rest (by rw [(List.cons.inj same).1])
  | case5 => exact .of_eq rfl
  | case6 => exact .failed ..
  | case7 => exact .of_eq rfl
  | case8 => exact .failed ..
  | case9 => exact .of_eq rfl
  | case10 => exact .of_eq rfl
  | case11 => exact .failed ..
  | case12 => exact .failed ..
  | case13 _ _ newline _ semicolon _ background _ pipe left right less greater =>
    cases text with
    | nil => exact absurd rfl present
    | cons c rest =>
      have other := not_isPunctuation_of_other newline semicolon background pipe left right less
        greater
      rw [List.cons_append, scanHere_cons dialect other]
      exact (persists_scanWord dialect sealedText after).map _

theorem empty_of_scanHere (read : (scanHere dialect text).result = .ok none) : text = [] := by
  revert read
  fun_cases scanHere dialect text
  all_goals intro result
  all_goals first
    | rfl
    | cases result
    | obtain ⟨_, _, same⟩ := Scanned.result_map_ok result
      cases same

/-- At the end of a text nothing is left. -/
theorem rest_of_scan_none {rest : List Char} (read : scan dialect text = ⟨.ok none, rest⟩) :
    rest = [] := by
  have empty : skipBlanks text = [] := by
    refine empty_of_scanHere dialect ?_
    rw [← scan, read]
  rw [scan, empty, scanHere] at read
  exact (congrArg Scanned.rest read).symm

/-- A token that was read in a text is read in front of another line. -/
theorem scan_line_of_some {rest after : List Char} {token : Token} (sealedText : Sealed text)
    (read : scan dialect text = ⟨.ok (some token), rest⟩) :
    scan dialect (text ++ '\n' :: after) = ⟨.ok (some token), rest ++ '\n' :: after⟩ := by
  unfold scan at read ⊢
  have present : skipBlanks text ≠ [] := by
    intro empty
    rw [empty, scanHere] at read
    cases read
  have inner := sealedText.of_suffix (skipBlanks_suffix text)
  rw [skipBlanks_line sealedText]
  exact (persists_scanHere dialect inner present after).eq_ok read

/-- Where a text has no more tokens, the end of its line is the next token. -/
theorem scan_line_of_none {rest after : List Char} (sealedText : Sealed text)
    (read : scan dialect text = ⟨.ok none, rest⟩) :
    scan dialect (text ++ '\n' :: after) = ⟨.ok (some .newline), after⟩ := by
  unfold scan at read ⊢
  have empty : skipBlanks text = [] := by
    refine empty_of_scanHere dialect ?_
    rw [read]
  rw [skipBlanks_line sealedText, empty]
  rfl

end Token

/-- The tokens of a text in front of more text. -/
def extend (more : List Char) (token : PlacedToken) : PlacedToken :=
  ⟨token.token, token.start ++ more⟩

/-- The tokens of a text, the end of its line and the tokens of the next lines. -/
theorem readTokens_line {dialect : Dialect} {text start : List Char} {tokens : List PlacedToken}
    (sealedText : Sealed text) (read : readTokens dialect text = (tokens, .finished start))
    (after : List Char) :
    readTokens dialect (text ++ '\n' :: after) =
      (tokens.map (extend ('\n' :: after)) ++
        ⟨.newline, start ++ '\n' :: after⟩ :: (readTokens dialect after).1,
        (readTokens dialect after).2) := by
  fun_induction readTokens dialect text generalizing tokens with
  | case1 => cases read
  | case2 text _ scanned =>
    cases read
    exact readTokens_of_some (Token.scan_line_of_none dialect sealedText scanned)
  | case3 text token rest scanned _ later ending same ih =>
    cases read
    have suffix := Token.rest_scan_suffix dialect text
    rw [scanned] at suffix
    rw [readTokens_of_some (Token.scan_line_of_some dialect sealedText scanned),
      ih (sealedText.of_suffix suffix) same]
    rfl

end PolicyShell
