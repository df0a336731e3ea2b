import PolicyShell.Syntax.Token.Scan

/-! What was read of a word at the end of a line is read in front of another line, too. -/
namespace PolicyShell

/-- Whether a result is the right one can be decided by its value, even if errors cannot be compared. -/
theorem eq_ok_of_toOption {ε α : Type} {result : Except ε α} {value : α}
    (found : result.toOption = some value) : result = .ok value := by
  cases result with
  | error => cases found
  | ok => exact congrArg _ (Option.some.inj found)

namespace Scanned

variable {α β : Type}

theorem map_map {γ : Type} (first : α → β) (second : β → γ) (scanned : Scanned α) :
    (scanned.map first).map second = scanned.map fun value => second (first value) := by
  rcases scanned with ⟨error | value, rest⟩ <;> rfl

theorem map_nil_append (scanned : Scanned (List α)) : scanned.map ([] ++ ·) = scanned := by
  rcases scanned with ⟨error | items, rest⟩ <;> rfl

/-- What was read from the shorter text is read from the longer one, with more text behind it. -/
structure Persists (more : List Char) (short long : Scanned α) : Prop where
  read : ∀ value, short.result = .ok value → long = ⟨.ok value, short.rest ++ more⟩

variable {more : List Char}

theorem Persists.eq_ok {value : α} {rest : List Char} {short long : Scanned α}
    (persists : Persists more short long) (read : short = ⟨.ok value, rest⟩) :
    long = ⟨.ok value, rest ++ more⟩ := by
  subst read
  exact persists.read value rfl

theorem Persists.of_eq {short long : Scanned α}
    (same : long = ⟨short.result, short.rest ++ more⟩) : Persists more short long := by
  constructor
  intro value read
  rw [same, read]

theorem Persists.failed (error : ParseError) (rest : List Char) (long : Scanned α) :
    Persists more (.failed error rest) long := ⟨nofun⟩

theorem Persists.map {short long : Scanned α} (persists : Persists more short long)
    (change : α → β) : Persists more (short.map change) (long.map change) := by
  constructor
  intro value read
  obtain ⟨found, scanned, rfl⟩ := result_map_ok read
  rw [persists.read found scanned]
  rfl

end Scanned

namespace Name

section
variable (text after : List Char) {c : Char}

theorem dropWhile_stopped {goesOn : Char → Bool} (stops : goesOn c = false) :
    (text ++ c :: after).dropWhile goesOn = text.dropWhile goesOn ++ c :: after := by
  induction text with
  | nil => simp [stops]
  | cons d rest ih =>
    by_cases same : goesOn d = true
    · simp [same, ih]
    · simp [same]

private theorem takeWhile_stopped {goesOn : Char → Bool} (stops : goesOn c = false) :
    (text ++ c :: after).takeWhile goesOn = text.takeWhile goesOn := by
  induction text with
  | nil => simp [stops]
  | cons d rest ih =>
    by_cases same : goesOn d = true
    · simp [same, ih]
    · simp [same]

theorem continuesName_of_startsName (starts : startsName c = true) : continuesName c = true := by
  simp only [startsName, continuesName, Bool.or_eq_true, Char.isAlphanum] at starts ⊢
  exact starts.imp_left .inl

/-- A name is read up to a character that is in no name. -/
theorem scan?_stopped (stops : continuesName c = false) :
    scan? (text ++ c :: after) =
      (scan? text).map fun read => (read.1, read.2 ++ c :: after) := by
  cases text with
  | nil =>
    have other : ¬startsName c = true := fun starts => by
      rw [continuesName_of_startsName starts] at stops
      cases stops
    exact if_neg other
  | cons d rest =>
    rw [List.cons_append, scan?, scan?]
    split
    · rw [takeWhile_stopped rest after stops, dropWhile_stopped rest after stops]
      rfl
    · rfl

end

theorem upTo?_cons (stop c : Char) (rest : List Char) :
    upTo? stop (c :: rest) =
      if c = stop then some ([], rest)
      else (upTo? stop rest).map fun read => (c :: read.1, read.2) := by
  by_cases stops : c = stop
  · simp [upTo?, stops]
  · have goesOn : (c != stop) = true := by simpa using stops
    rw [upTo?, upTo?, if_neg stops]
    simp only [List.dropWhile_cons, List.takeWhile_cons, goesOn, if_true]
    cases rest.dropWhile (· != stop) <;> rfl

theorem upTo?_append_right {text rest before : List Char} {stop : Char}
    (found : upTo? stop text = some (before, rest)) (more : List Char) :
    upTo? stop (text ++ more) = some (before, rest ++ more) := by
  induction text generalizing before with
  | nil => cases found
  | cons c text ih =>
    rw [List.cons_append, upTo?_cons]
    rw [upTo?_cons] at found
    by_cases stops : c = stop
    · rw [if_pos stops] at found ⊢
      cases found
      rfl
    · rw [if_neg stops] at found ⊢
      obtain ⟨⟨inner, after⟩, read, same⟩ := Option.map_eq_some_iff.mp found
      cases same
      rw [ih read]
      rfl

end Name

/-- A text at whose end no backslash waits for the next character. -/
def Sealed (text : List Char) : Prop := ¬['\\'] <:+ text

theorem Sealed.of_suffix {text rest : List Char} (sealedText : Sealed text)
    (suffix : rest <:+ text) :
    Sealed rest :=
  fun ends => sealedText (ends.trans suffix)

theorem sealed_of_getLast? {text : List Char} (noBackslash : text.getLast? ≠ some '\\') :
    Sealed text := by
  rintro ⟨before, rfl⟩
  exact noBackslash (by simp)

theorem Reference.persists_scan (quoted : Bool) (text after : List Char) :
    (scan quoted text).Persists ('\n' :: after) (scan quoted (text ++ '\n' :: after)) := by
  fun_cases scan quoted text with
  | case1 => exact .of_eq rfl
  | case2 => exact .failed ..
  | case3 inner content rest found part known =>
    refine .of_eq ?_
    rw [List.cons_append, scan, Name.upTo?_append_right found]
    dsimp only
    rw [known]
  | case4 => exact .failed ..
  | case5 => exact .failed ..
  | case6 => exact .of_eq rfl
  | case7 => exact .of_eq rfl
  | case8 c rest brace paren all star simple =>
    refine .of_eq ?_
    rw [List.cons_append, scan, if_pos simple] <;> assumption
  | case9 c rest brace paren all star simple name later found =>
    refine .of_eq ?_
    have longer := Name.scan?_stopped (c :: rest) after
      (show Name.continuesName '\n' = false from rfl)
    rw [found, List.cons_append] at longer
    rw [found, List.cons_append, scan, if_neg simple, longer] <;> first | assumption | rfl
  | case10 c rest brace paren all star simple found =>
    refine .of_eq ?_
    have longer := Name.scan?_stopped (c :: rest) after
      (show Name.continuesName '\n' = false from rfl)
    rw [found, List.cons_append] at longer
    rw [found, List.cons_append, scan, if_neg simple, longer] <;> first | assumption | rfl

namespace Piece

section
variable {opening inner rest : List Char}

theorem scanDoubleQuoted_dollar (read : Reference.scan true inner = ⟨.ok none, rest⟩) :
    scanDoubleQuoted opening ('$' :: inner) =
      (scanDoubleQuoted opening rest).map (quoted ['$'] :: ·) := by
  rw [scanDoubleQuoted]
  split <;> simp_all

theorem scanDoubleQuoted_reference {part : WordPart}
    (read : Reference.scan true inner = ⟨.ok (some part), rest⟩) :
    scanDoubleQuoted opening ('$' :: inner) =
      (scanDoubleQuoted opening rest).map (reference part :: ·) := by
  rw [scanDoubleQuoted]
  split <;> simp_all

theorem scan_nil : scan [] = ⟨.ok [], []⟩ := by
  rw [scan.eq_def]

theorem scan_continued (rest : List Char) : scan ('\\' :: '\n' :: rest) = scan rest := by
  rw [scan.eq_def]
  split <;> grind

theorem scan_escaped {c : Char} (graph : c ≠ '\n') (rest : List Char) :
    scan ('\\' :: c :: rest) = (scan rest).map (quoted [c] :: ·) := by
  rw [scan.eq_def]
  split <;> grind

theorem scan_singleQuoted {content : List Char}
    (read : Name.upTo? '\'' inner = some (content, rest)) :
    scan ('\'' :: inner) = (scan rest).map (quoted content :: ·) := by
  rw [scan.eq_def]
  split
  case h_5 same =>
    cases same
    split <;> simp_all
  all_goals grind

theorem scan_doubleQuoted {pieces : List Piece}
    (read : scanDoubleQuoted ('"' :: inner) inner = ⟨.ok pieces, rest⟩) :
    scan ('"' :: inner) = (scan rest).map (orEmpty pieces ++ ·) := by
  rw [scan.eq_def]
  split
  case h_6 same =>
    cases same
    split <;> simp_all
  all_goals grind

theorem scan_dollar (read : Reference.scan false inner = ⟨.ok none, rest⟩) :
    scan ('$' :: inner) = (scan rest).map (plain ['$'] :: ·) := by
  rw [scan.eq_def]
  split
  case h_7 same =>
    cases same
    split <;> simp_all
  all_goals grind

theorem scan_reference {part : WordPart}
    (read : Reference.scan false inner = ⟨.ok (some part), rest⟩) :
    scan ('$' :: inner) = (scan rest).map (reference part :: ·) := by
  rw [scan.eq_def]
  split
  case h_7 same =>
    cases same
    split <;> simp_all
  all_goals grind

/-- The characters that mean something else in a word than themselves. -/
def isActive (c : Char) : Bool := c == '\\' || c == '\'' || c == '"' || c == '$' || c == '`'

theorem inactive_of_other {c : Char} {rest : List Char} (last : c = '\\' → rest = [] → False)
    (escape : ∀ next others, c = '\\' → rest = next :: others → False) (single : c = '\'' → False)
    (double : c = '"' → False) (dollar : c = '$' → False) (backquote : c = '`' → False) :
    isActive c = false := by
  have back : c ≠ '\\' := by
    rintro rfl
    cases rest with
    | nil => exact last rfl rfl
    | cons next others => exact escape next others rfl rfl
  simp only [isActive, Bool.or_eq_false_iff, beq_eq_false_iff_ne]
  exact ⟨⟨⟨⟨back, single⟩, double⟩, dollar⟩, backquote⟩

theorem scan_inactive {c : Char} (inactive : isActive c = false) (rest : List Char) :
    scan (c :: rest) =
      if endsWord c then ⟨.ok [], c :: rest⟩ else (scan rest).map (plain [c] :: ·) := by
  simp only [isActive, Bool.or_eq_false_iff, beq_eq_false_iff_ne] at inactive
  obtain ⟨⟨⟨⟨back, single⟩, double⟩, dollar⟩, backquote⟩ := inactive
  rw [scan.eq_def]
  split <;> simp_all

end

private theorem persists_scanDoubleQuoted (opening opening' text after : List Char) :
    (scanDoubleQuoted opening text).Persists ('\n' :: after)
      (scanDoubleQuoted opening' (text ++ '\n' :: after)) := by
  fun_induction scanDoubleQuoted opening text with
  | case1 => exact .failed ..
  | case2 rest =>
    refine .of_eq ?_
    rw [List.cons_append, scanDoubleQuoted]
  | case3 => exact .failed ..
  | case4 rest ih =>
    rw [List.cons_append, List.cons_append, scanDoubleQuoted]
    exact ih
  | case5 c rest continued escapable ih =>
    rw [List.cons_append, List.cons_append, scanDoubleQuoted, if_pos escapable]
    · exact ih.map _
    · exact continued
  | case6 c rest continued plain ih =>
    rw [List.cons_append, List.cons_append, scanDoubleQuoted, if_neg plain]
    · exact ih.map _
    · exact continued
  | case7 => exact .failed ..
  | case8 inner rest read _ ih =>
    have longer := (Reference.persists_scan true inner after).eq_ok read
    rw [List.cons_append, scanDoubleQuoted_dollar longer]
    exact ih.map _
  | case9 inner part rest read _ ih =>
    have longer := (Reference.persists_scan true inner after).eq_ok read
    rw [List.cons_append, scanDoubleQuoted_reference longer]
    exact ih.map _
  | case10 c rest quote backquote continued escape dollar ih =>
    by_cases back : c = '\\'
    · have last : rest = [] := by
        cases rest with
        | nil => rfl
        | cons second rest => exact absurd rfl (escape second rest back)
      rw [last, scanDoubleQuoted]
      exact .failed ..
    · rw [List.cons_append, scanDoubleQuoted]
      · exact ih.map _
      · exact quote
      · exact backquote
      · exact fun _ same => absurd same back
      · exact fun _ _ same => absurd same back
      · exact dollar

theorem persists_scan {text : List Char} (sealedText : Sealed text) (after : List Char) :
    (scan text).Persists ('\n' :: after) (scan (text ++ '\n' :: after)) := by
  fun_induction scan text with
  | case1 => exact .of_eq (scan_inactive rfl after)
  | case2 => exact absurd (List.suffix_refl _) sealedText
  | case3 rest ih =>
    rw [List.cons_append, List.cons_append, scan_continued]
    exact ih (sealedText.of_suffix ⟨['\\', '\n'], rfl⟩)
  | case4 c rest continued ih =>
    rw [List.cons_append, List.cons_append, scan_escaped continued]
    exact (ih (sealedText.of_suffix ⟨['\\', c], rfl⟩)).map _
  | case5 => exact .failed ..
  | case6 inner content rest read _ ih =>
    have suffix : rest <:+ '\'' :: inner :=
      ⟨'\'' :: content ++ ['\''], by simp [← Name.upTo?_append read]⟩
    rw [List.cons_append, scan_singleQuoted (Name.upTo?_append_right read _)]
    exact (ih (sealedText.of_suffix suffix)).map _
  | case7 => exact .failed ..
  | case8 inner pieces rest read _ ih =>
    have suffix : rest <:+ '"' :: inner :=
      (suffix_of_scanDoubleQuoted read).trans (List.suffix_cons ..)
    have longer := (persists_scanDoubleQuoted ('"' :: inner) ('"' :: (inner ++ '\n' :: after)) inner
      after).eq_ok read
    rw [List.cons_append, scan_doubleQuoted longer]
    exact (ih (sealedText.of_suffix suffix)).map _
  | case9 => exact .failed ..
  | case10 inner rest read _ ih =>
    have suffix : rest <:+ '$' :: inner :=
      (Reference.suffix_of_scan read).trans (List.suffix_cons ..)
    have longer := (Reference.persists_scan false inner after).eq_ok read
    rw [List.cons_append, scan_dollar longer]
    exact (ih (sealedText.of_suffix suffix)).map _
  | case11 inner part rest read _ ih =>
    have suffix : rest <:+ '$' :: inner :=
      (Reference.suffix_of_scan read).trans (List.suffix_cons ..)
    have longer := (Reference.persists_scan false inner after).eq_ok read
    rw [List.cons_append, scan_reference longer]
    exact (ih (sealedText.of_suffix suffix)).map _
  | case12 => exact .failed ..
  | case13 c rest last continued escape single double dollar backquote ends =>
    have inactive : isActive c = false :=
      inactive_of_other last escape single double dollar backquote
    rw [List.cons_append, scan_inactive inactive, if_pos ends]
    exact .of_eq rfl
  | case14 c rest last continued escape single double dollar backquote goesOn ih =>
    have inactive : isActive c = false :=
      inactive_of_other last escape single double dollar backquote
    rw [List.cons_append, scan_inactive inactive, if_neg goesOn]
    exact (ih (sealedText.of_suffix (List.suffix_cons ..))).map _

end Piece

end PolicyShell
