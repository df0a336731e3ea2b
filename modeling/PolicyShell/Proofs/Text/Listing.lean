import PolicyShell.Execution.Builtin
import PolicyShell.Text.Escapes

/-! The lists that are printed on a line, and a reader of such lists. What is read of a line is what
was printed. -/
namespace PolicyShell.Listing

/-- What a letter after a backslash stands for. -/
def meaning? : Char → Option Char
  | '\\' => some '\\'
  | '\'' => some '\''
  | '"' => some '"'
  | 'n' => some '\n'
  | 'r' => some '\r'
  | 't' => some '\t'
  | _ => none

/-- The character with a code of two hexadecimal digits. -/
def byte? (high low : Char) : Option Char :=
  if Escapes.isHex high && Escapes.isHex low then
    some (Char.ofNat (16 * Escapes.digitValue high + Escapes.digitValue low))
  else none

/-- A quoted text up to its closing quote, and what stands behind that. A line may not end in it. -/
def quoted? (mark : Char) : List Char → Option (List Char × List Char)
  | [] => none
  | '\\' :: 'x' :: high :: low :: rest =>
    (byte? high low).bind fun c => (quoted? mark rest).map (Prod.map (c :: ·) id)
  | '\\' :: letter :: rest =>
    (meaning? letter).bind fun c => (quoted? mark rest).map (Prod.map (c :: ·) id)
  | c :: rest =>
    if c = mark then some ([], rest)
    else if c = '\n' ∨ c = '\r' then none
    else (quoted? mark rest).map (Prod.map (c :: ·) id)

/-- What a list is written with. -/
inductive Symbol where
  | opening
  | closing
  | comma
  | text (content : String)
  deriving DecidableEq, Repr

/-- What is left behind a text does not hang on its first character. -/
theorem exists_of_map_cons {c : Char} {read? : Option (List Char × List Char)}
    {content after : List Char}
    (read : read?.map (Prod.map (c :: ·) id) = some (content, after)) :
    ∃ inner, read? = some (inner, after) := by
  obtain ⟨⟨inner, left⟩, found, same⟩ := Option.map_eq_some_iff.mp read
  obtain ⟨-, rfl⟩ := Prod.mk.inj same
  exact ⟨inner, found⟩

theorem length_lt_of_quoted? {mark : Char} {text content after : List Char}
    (read : quoted? mark text = some (content, after)) : after.length < text.length := by
  fun_induction quoted? mark text generalizing content with
  | case1 => cases read
  | case2 high low rest ih =>
    obtain ⟨c, -, read⟩ := Option.bind_eq_some_iff.mp read
    obtain ⟨inner, found⟩ := exists_of_map_cons read
    have shorter := ih found
    simp only [List.length_cons]
    omega
  | case3 letter rest others ih =>
    obtain ⟨c, -, read⟩ := Option.bind_eq_some_iff.mp read
    obtain ⟨inner, found⟩ := exists_of_map_cons read
    have shorter := ih found
    simp only [List.length_cons]
    omega
  | case4 rest =>
    cases read
    simp
  | case5 => cases read
  | case6 c rest _ _ _ _ ih =>
    obtain ⟨inner, found⟩ := exists_of_map_cons read
    exact Nat.lt_succ_of_lt (ih found)

/-- The symbols of a text. White space may stand between them. -/
def symbols? (text : List Char) : Option (List Symbol) :=
  match text with
  | [] => some []
  | c :: rest =>
    if c = ' ' ∨ c = '\t' ∨ c = '\n' then symbols? rest
    else if c = '[' then (symbols? rest).map (.opening :: ·)
    else if c = ']' then (symbols? rest).map (.closing :: ·)
    else if c = ',' then (symbols? rest).map (.comma :: ·)
    else if c = '\'' ∨ c = '"' then
      match read : quoted? c rest with
      | none => none
      | some (content, after) =>
        have := length_lt_of_quoted? read
        (symbols? after).map (.text (String.ofList content) :: ·)
    else none
termination_by text.length
decreasing_by all_goals simp only [List.length_cons]; omega

/-- The items of a list after its opening bracket, with commas between them. There may be one behind
the last item, too. -/
def items? : List Symbol → Option (List String)
  | [.closing] => some []
  | [.text last, .closing] => some [last]
  | .text item :: .comma :: rest => (items? rest).map (item :: ·)
  | _ => none

/-- Reads a list of quoted texts. -/
def read? (line : String) : Option (List String) :=
  match symbols? line.toList with
  | some (.opening :: rest) => items? rest
  | _ => none

theorem digitValue_digitChar {digit : Nat} (small : digit < 16) :
    Escapes.isHex (Nat.digitChar digit) = true ∧
      Escapes.digitValue (Nat.digitChar digit) = digit := by
  have all : ∀ digit < 16, Escapes.isHex (Nat.digitChar digit) = true ∧
      Escapes.digitValue (Nat.digitChar digit) = digit := by decide
  exact all digit small

private theorem byte?_digitChar {c : Char} (small : c.toNat < 256) :
    byte? (Nat.digitChar (c.toNat / 16)) (Nat.digitChar (c.toNat % 16)) = some c := by
  obtain ⟨isHigh, high⟩ := digitValue_digitChar (by omega : c.toNat / 16 < 16)
  obtain ⟨isLow, low⟩ := digitValue_digitChar (by omega : c.toNat % 16 < 16)
  have whole : 16 * (c.toNat / 16) + c.toNat % 16 = c.toNat := Nat.div_add_mod ..
  rw [byte?, isHigh, isLow, high, low, whole, Char.ofNat_toNat]
  rfl

variable {mark : Char}

/-- Behind an escaped character the reader is where it would be without it. -/
theorem quoted?_escapeChar (isQuote : mark = '\'' ∨ mark = '"') (c : Char) (rest : List Char) :
    quoted? mark (escapeChar mark c ++ rest) =
      (quoted? mark rest).map (Prod.map (c :: ·) id) := by
  unfold escapeChar
  split
  · subst c
    simp [quoted?, meaning?]
  split
  · subst c
    simp [quoted?, meaning?]
  split
  · subst c
    simp [quoted?, meaning?]
  split
  · subst c
    simp [quoted?, meaning?]
  split
  · subst c
    rcases isQuote with rfl | rfl <;> simp [quoted?, meaning?]
  split
  · have small : c.toNat < 256 := by omega
    simp [quoted?, byte?_digitChar small]
  · simp [quoted?, *]

private theorem quoted?_flatMap (isQuote : mark = '\'' ∨ mark = '"') (text rest : List Char) :
    quoted? mark (text.flatMap (escapeChar mark) ++ mark :: rest) = some (text, rest) := by
  induction text with
  | nil =>
    rcases isQuote with rfl | rfl <;> simp [quoted?]
  | cons c text ih =>
    rw [List.flatMap_cons, List.append_assoc, quoted?_escapeChar isQuote, ih]
    rfl

theorem isQuote_quoteFor (text : List Char) : quoteFor text = '\'' ∨ quoteFor text = '"' := by
  unfold quoteFor
  split
  · exact .inr rfl
  · exact .inl rfl

/-- A quoted text is one symbol. -/
theorem symbols?_cons_of_quoted? (isQuote : mark = '\'' ∨ mark = '"')
    {text content after : List Char} (read : quoted? mark text = some (content, after)) :
    symbols? (mark :: text) = (symbols? after).map (.text (String.ofList content) :: ·) := by
  have others : ¬(mark = ' ' ∨ mark = '\t' ∨ mark = '\n') ∧ mark ≠ '[' ∧ mark ≠ ']' ∧
      mark ≠ ',' := by
    rcases isQuote with rfl | rfl <;> decide
  obtain ⟨blank, opening, closing, comma⟩ := others
  rw [symbols?, if_neg blank, if_neg opening, if_neg closing, if_neg comma, if_pos isQuote]
  split
  · rename_i unread
    rw [read] at unread
    cases unread
  · rename_i found
    rw [read] at found
    cases found
    rfl

private theorem symbols?_quote (item : String) (rest : List Char) :
    symbols? ((quote item).toList ++ rest) = (symbols? rest).map (.text item :: ·) := by
  have isQuote := isQuote_quoteFor item.toList
  have read := quoted?_flatMap isQuote item.toList rest
  have whole := symbols?_cons_of_quoted? isQuote read
  rw [String.ofList_toList] at whole
  rw [← whole, quote, quoteChars]
  simp

/-- The symbols behind the opening bracket of a list. -/
def listed (items : List String) : List Symbol :=
  (items.map Symbol.text).intersperse .comma ++ [.closing]

theorem listed_cons_cons (item next : String) (rest : List String) :
    listed (item :: next :: rest) = .text item :: .comma :: listed (next :: rest) := rfl

private theorem symbols?_listed (items : List String) :
    symbols? ((", ".intercalate (items.map quote)).toList ++ [']', '\n']) =
      some (listed items) := by
  induction items with
  | nil => simp [listed, symbols?]
  | cons item rest ih =>
    cases rest with
    | nil =>
      rw [List.map_singleton, String.intercalate_singleton, symbols?_quote]
      simp [listed, symbols?]
    | cons next rest =>
      rw [List.map_cons, List.map_cons, String.intercalate_cons_cons, ← List.map_cons,
        String.append_assoc, String.toList_append, List.append_assoc, symbols?_quote,
        String.toList_append, List.append_assoc]
      have separated (text : List Char) :
          symbols? (", ".toList ++ text) = (symbols? text).map (.comma :: ·) := by
        simp [symbols?]
      rw [separated, ih, listed_cons_cons]
      rfl

private theorem items?_listed (items : List String) : items? (listed items) = some items := by
  induction items with
  | nil => rfl
  | cons item rest ih =>
    cases rest with
    | nil => rfl
    | cons next rest =>
      rw [listed_cons_cons, items?, ih]
      rfl

private theorem read?_line (items : List String) : read? (line items) = some items := by
  have whole : (line items).toList =
      '[' :: ((", ".intercalate (items.map quote)).toList ++ [']', '\n']) := by
    simp [line]
  have read : symbols? (line items).toList = some (.opening :: listed items) := by
    rw [whole, symbols?, symbols?_listed]
    simp
  rw [read?, read]
  exact items?_listed items

/-- White space, a last comma and the other quotes are read, too; two texts in a row are not. -/
example : read? "[ 'a\\'b\\x7f' ,\t\"it's\",]" = some ["a'b\x7f", "it's"] ∧
    read? "['a' 'b']" = none := by
  decide +kernel

/-- A character that is no control character of ASCII. -/
def IsShown (c : Char) : Prop := 0x20 ≤ c.toNat ∧ c.toNat ≠ 0x7F

instance : DecidablePred IsShown := fun _ => inferInstanceAs (Decidable (_ ∧ _))

theorem isShown_digitChar {digit : Nat} (small : digit < 16) : IsShown (Nat.digitChar digit) := by
  have all : ∀ digit < 16, IsShown (Nat.digitChar digit) := by decide
  exact all digit small

private theorem isShown_escapeChar (isShown : IsShown mark) (c : Char) :
    ∀ written ∈ escapeChar mark c, IsShown written := by
  obtain ⟨backslash, lineFeed, carriageReturn, tab, hexadecimal⟩ :
      IsShown '\\' ∧ IsShown 'n' ∧ IsShown 'r' ∧ IsShown 't' ∧ IsShown 'x' := by decide
  unfold escapeChar
  split
  · simp [backslash]
  split
  · simp [backslash, lineFeed]
  split
  · simp [backslash, carriageReturn]
  split
  · simp [backslash, tab]
  split
  · subst c
    simp [backslash, isShown]
  split
  · have high : c.toNat / 16 < 16 := by omega
    have low : c.toNat % 16 < 16 := by omega
    simp [backslash, hexadecimal, isShown_digitChar high, isShown_digitChar low]
  · rename_i visible
    have shown : IsShown c := by
      unfold IsShown
      omega
    simpa using shown

private theorem isShown_quote (item : String) : ∀ c ∈ (quote item).toList, IsShown c := by
  have isShown : IsShown (quoteFor item.toList) := by
    rcases isQuote_quoteFor item.toList with isQuote | isQuote <;> rw [isQuote] <;> decide
  intro c member
  simp only [quote, quoteChars, String.toList_ofList, List.mem_cons, List.mem_append,
    List.mem_flatMap, List.not_mem_nil, or_false] at member
  rcases member with (rfl | ⟨written, -, among⟩) | rfl
  · exact isShown
  · exact isShown_escapeChar isShown written c among
  · exact isShown

private theorem isShown_intercalate (items : List String) :
    ∀ c ∈ (", ".intercalate (items.map quote)).toList, IsShown c := by
  induction items with
  | nil => simp
  | cons item rest ih =>
    cases rest with
    | nil => simpa using isShown_quote item
    | cons next rest =>
      have separator : ∀ c ∈ ", ".toList, IsShown c := by simp [IsShown]
      rw [List.map_cons, List.map_cons, String.intercalate_cons_cons, ← List.map_cons]
      simp only [String.toList_append, List.forall_mem_append]
      exact ⟨⟨isShown_quote item, separator⟩, ih⟩

/-- The list of the arguments says what they are: it is one line without control characters, a
reader of lists of quoted texts finds the arguments in it, and no other arguments give the same
line. -/
theorem printed_arguments_read_back {m : Type → Type} [Monad m] (host : Host m)
    (run? : Option (String → Action m Flow)) (shell : Shell) (arguments : List String) :
    (Builtin.argv.perform host run? arguments).run shell =
        pure (.ok (.report { out := line arguments }), shell) ∧
      (∃ shown, line arguments = shown ++ "\n" ∧
        ∀ c ∈ shown.toList, 0x20 ≤ c.toNat ∧ c.toNat ≠ 0x7F) ∧
      read? (line arguments) = some arguments ∧
      ∀ others, line others = line arguments → others = arguments := by
  refine ⟨rfl, ⟨"[" ++ ", ".intercalate (arguments.map quote) ++ "]", ?_, ?_⟩,
    read?_line arguments, ?_⟩
  · simp only [line, String.append_assoc]
    rfl
  · have opening : ∀ c ∈ "[".toList, IsShown c := by simp [IsShown]
    have closing : ∀ c ∈ "]".toList, IsShown c := by simp [IsShown]
    simp only [String.toList_append, List.forall_mem_append]
    exact ⟨⟨opening, isShown_intercalate arguments⟩, closing⟩
  · intro others same
    have read := read?_line others
    rw [same, read?_line] at read
    exact (Option.some.inj read).symm

end PolicyShell.Listing
