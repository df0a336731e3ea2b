import PolicyShell.Execution.Echo

/-! The ways of writing a text with backslash escapes. Each of them is read as that text and nothing
else, whatever stands behind an escape. -/
namespace PolicyShell.Escapes

/-- A digit with its value. The digits above nine are letters, small or capital. -/
def IsDigit (base value : Nat) (digit : Char) : Prop :=
  value < base ∧ (digit = value.digitChar ∨ digit = value.digitChar.toUpper)

instance (base value : Nat) (digit : Char) : Decidable (IsDigit base value digit) :=
  inferInstanceAs (Decidable (_ ∧ _))

/-- The letters with a meaning behind a backslash. -/
def letters : List (Char × Char) :=
  [('n', '\n'), ('t', '\t'), ('r', '\r'), ('a', '\x07'), ('b', '\x08'), ('f', '\x0c'),
    ('v', '\x0b')]

/-- The ways of writing one character. -/
inductive Writes (c : Char) : List Char → Prop where
  | raw (plain : c ≠ '\\') : Writes c [c]
  | backslash (same : c = '\\') : Writes c ['\\', '\\']
  | named {letter : Char} (known : (letter, c) ∈ letters) : Writes c ['\\', letter]
  | octal {high middle low : Nat} {first second third : Char} (isHigh : IsDigit 8 high first)
      (isMiddle : IsDigit 8 middle second) (isLow : IsDigit 8 low third)
      (code : c.toNat = 64 * high + 8 * middle + low) :
      Writes c ['\\', '0', first, second, third]
  | hexadecimal {high low : Nat} {first second : Char} (isHigh : IsDigit 16 high first)
      (isLow : IsDigit 16 low second) (code : c.toNat = 16 * high + low) :
      Writes c ['\\', 'x', first, second]

/-- The ways of writing a text, each character in a way of its own. -/
inductive Spells : List Char → List Char → Prop where
  | nil : Spells [] []
  | cons {c : Char} {text written rest : List Char} (first : Writes c written)
      (others : Spells text rest) : Spells (c :: text) (written ++ rest)

private theorem IsDigit.octal {value : Nat} {digit : Char} (isDigit : IsDigit 8 value digit) :
    isOctal digit = true ∧ digitValue digit = value := by
  have all : ∀ value < 8,
      (isOctal value.digitChar = true ∧ digitValue value.digitChar = value) ∧
        isOctal value.digitChar.toUpper = true ∧ digitValue value.digitChar.toUpper = value := by
    decide
  obtain ⟨small, rfl | rfl⟩ := isDigit
  · exact (all value small).1
  · exact (all value small).2

theorem IsDigit.hexadecimal {value : Nat} {digit : Char} (isDigit : IsDigit 16 value digit) :
    isHex digit = true ∧ digitValue digit = value := by
  have all : ∀ value < 16,
      (isHex value.digitChar = true ∧ digitValue value.digitChar = value) ∧
        isHex value.digitChar.toUpper = true ∧ digitValue value.digitChar.toUpper = value := by
    decide
  obtain ⟨small, rfl | rfl⟩ := isDigit
  · exact (all value small).1
  · exact (all value small).2

theorem leading_append {isDigit : Char → Bool} {digits : List Char}
    (all : ∀ digit ∈ digits, isDigit digit = true) (rest : List Char) :
    leading isDigit digits.length (digits ++ rest) = digits := by
  have whole : (digits ++ []).takeWhile isDigit = digits ++ [].takeWhile isDigit :=
    List.takeWhile_append_of_pos all
  rw [leading, List.take_left]
  simpa using whole

variable {c : Char} {text written : List Char}

private theorem decode_octal {digits : List Char} (three : digits.length = 3)
    (all : ∀ digit ∈ digits, isOctal digit = true) (rest : List Char) :
    decode ('\\' :: '0' :: (digits ++ rest)) =
      Prod.map (codePoint 8 digits :: ·) id (decode rest) := by
  have taken : leading isOctal 3 (digits ++ rest) = digits := three ▸ leading_append all rest
  rw [decode]
  simp only [taken, List.drop_left]
  rfl

private theorem decode_hexadecimal {digits : List Char} (two : digits.length = 2)
    (all : ∀ digit ∈ digits, isHex digit = true) (rest : List Char) :
    decode ('\\' :: 'x' :: (digits ++ rest)) =
      Prod.map (codePoint 16 digits :: ·) id (decode rest) := by
  have taken : leading isHex 2 (digits ++ rest) = digits := two ▸ leading_append all rest
  have present : digits.isEmpty = false := by
    cases digits with
    | nil => cases two
    | cons => rfl
  rw [decode]
  simp only [taken, List.drop_left, present]
  rfl

private theorem decode_named {letter : Char} (known : (letter, c) ∈ letters) (rest : List Char) :
    decode ('\\' :: letter :: rest) = Prod.map (c :: ·) id (decode rest) := by
  have all : ∀ pair ∈ letters, named? pair.1 = some pair.2 ∧ pair.1 ≠ 'c' ∧ pair.1 ≠ '0' ∧
      pair.1 ≠ 'x' := by decide
  obtain ⟨meaning, stop, octal, hexadecimal⟩ := all _ known
  rw [decode]
  · simp only [meaning]
    rfl
  all_goals assumption

/-- Behind a written character the reader is where it would be without it. -/
theorem Writes.decode_append (writes : Writes c written) (rest : List Char) :
    decode (written ++ rest) = Prod.map (c :: ·) id (decode rest) := by
  cases writes with
  | raw plain =>
    rw [List.singleton_append, decode]
    · rfl
    all_goals simp [plain]
  | backslash same =>
    subst same
    rw [List.cons_append, List.singleton_append, decode]
    · rfl
    all_goals simp
  | named known => exact decode_named known rest
  | @octal high middle low first second third isHigh isMiddle isLow code =>
    have all : ∀ digit ∈ [first, second, third], isOctal digit = true := by
      simp [isHigh.octal.1, isMiddle.octal.1, isLow.octal.1]
    have value : codePoint 8 [first, second, third] = c := by
      rw [← c.ofNat_toNat, code, codePoint]
      simp only [List.foldl_cons, List.foldl_nil, isHigh.octal.2, isMiddle.octal.2, isLow.octal.2]
      congr 1
      omega
    have read := decode_octal rfl all rest
    rwa [value] at read
  | @hexadecimal high low first second isHigh isLow code =>
    have all : ∀ digit ∈ [first, second], isHex digit = true := by
      simp [isHigh.hexadecimal.1, isLow.hexadecimal.1]
    have value : codePoint 16 [first, second] = c := by
      rw [← c.ofNat_toNat, code, codePoint]
      simp only [List.foldl_cons, List.foldl_nil, isHigh.hexadecimal.2, isLow.hexadecimal.2]
      congr 1
      omega
    have read := decode_hexadecimal rfl all rest
    rwa [value] at read

private theorem Spells.decode_append (spells : Spells text written) (rest : List Char) :
    decode (written ++ rest) = Prod.map (text ++ ·) id (decode rest) := by
  induction spells with
  | nil => rfl
  | cons first others ih =>
    rw [List.append_assoc, first.decode_append, ih]
    rfl

/-- However a text is spelled, with whatever digits behind an escape, it is what is read, and it
is printed by every call that asks for escapes. Behind a `\c` nothing more is read or printed, not
even a newline. -/
theorem spelled_text_is_read (spells : Spells text written) :
    decode written = (text, false) ∧
      (∀ rest, decode (written ++ '\\' :: 'c' :: rest) = (text, true)) ∧
      ∀ arguments style words, EchoStyle.read {} arguments = (style, words) →
        style.escapes = true →
          ((" ".intercalate words).toList = written →
            echo arguments =
              { out := String.ofList text ++ (if style.newline then "\n" else "") }) ∧
          ∀ rest, (" ".intercalate words).toList = written ++ '\\' :: 'c' :: rest →
            echo arguments = { out := String.ofList text } := by
  have whole : decode written = (text, false) := by
    have read := spells.decode_append []
    simpa using read
  have stopped (rest : List Char) : decode (written ++ '\\' :: 'c' :: rest) = (text, true) := by
    rw [spells.decode_append, decode_stop]
    simp
  refine ⟨whole, stopped, fun arguments style words flags escapes => ⟨fun same => ?_, ?_⟩⟩
  · rw [echo, flags]
    cases newline : style.newline <;> simp [escapes, same, whole, newline]
  · intro rest same
    rw [echo, flags]
    simp [escapes, same, stopped]

/-- The `1` and the `4` behind three and two digits are characters of the text, and the doubled
backslash before the `c` does not stop anything. -/
theorem spelled_text_is_read_digits :
    Spells ['A', '1', 'J', '4', '\\', 'c']
      ['\\', '0', '1', '0', '1', '1', '\\', 'x', '4', 'a', '4', '\\', '\\', 'c'] ∧
    EchoStyle.read {} ["-e", "\\01011\\x4a4\\\\c\\cd"] =
      ({ escapes := true }, ["\\01011\\x4a4\\\\c\\cd"]) ∧
    decode ['\\', '0', '1', '0', '1', '1', '\\', 'x', '4', 'a', '4', '\\', '\\', 'c'] =
      (['A', '1', 'J', '4', '\\', 'c'], false) ∧
    echo ["-e", "\\01011\\x4a4\\\\c\\cd"] = { out := "A1J4\\c" } := by
  have spells : Spells ['A', '1', 'J', '4', '\\', 'c']
      ['\\', '0', '1', '0', '1', '1', '\\', 'x', '4', 'a', '4', '\\', '\\', 'c'] := by
    have first : Writes 'A' ['\\', '0', '1', '0', '1'] :=
      .octal (by decide : IsDigit 8 1 '1') (by decide : IsDigit 8 0 '0')
        (by decide : IsDigit 8 1 '1') (by decide)
    have third : Writes 'J' ['\\', 'x', '4', 'a'] :=
      .hexadecimal (by decide : IsDigit 16 4 '4') (by decide : IsDigit 16 10 'a') (by decide)
    exact .cons first (.cons (.raw (by decide)) (.cons third (.cons (.raw (by decide))
      (.cons (.backslash rfl) (.cons (.raw (by decide)) .nil)))))
  have flags : EchoStyle.read {} ["-e", "\\01011\\x4a4\\\\c\\cd"] =
      ({ escapes := true }, ["\\01011\\x4a4\\\\c\\cd"]) := by decide
  obtain ⟨read, -, printed⟩ := spelled_text_is_read spells
  exact ⟨spells, flags, read, (printed _ _ _ flags rfl).2 ['d'] (by decide)⟩

end PolicyShell.Escapes
