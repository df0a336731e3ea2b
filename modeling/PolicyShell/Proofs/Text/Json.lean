import Mathlib.Data.List.TakeWhile
import PolicyShell.Proofs.Text.Listing
import PolicyShell.Text.Json

/-! A reader of JSON. What it reads of the compact text of a value is that value. -/
namespace PolicyShell.Json

/-- What a JSON text is written with. -/
inductive Symbol where
  | openList
  | closeList
  | openObject
  | closeObject
  | comma
  | colon
  | null
  | bool (value : Bool)
  | number (lexeme : String)
  | text (content : String)
  deriving DecidableEq, Repr

def isBlank (c : Char) : Bool := c = ' ' ∨ c = '\t' ∨ c = '\n' ∨ c = '\r'

/-- The symbols that are one character. -/
def mark? : Char → Option Symbol
  | '[' => some .openList
  | ']' => some .closeList
  | '\x7b' => some .openObject
  | '\x7d' => some .closeObject
  | ',' => some .comma
  | ':' => some .colon
  | _ => none

/-- A character of a word, that is, of a number or of a name that JSON reserves. -/
def IsWordly (c : Char) : Prop := isBlank c = false ∧ mark? c = none ∧ c ≠ '"'

instance : DecidablePred IsWordly := fun _ => inferInstanceAs (Decidable (_ ∧ _))

def IsWord (text : List Char) : Prop := ∀ c ∈ text, IsWordly c

instance : DecidablePred IsWord := fun text => List.decidableBAll _ text

/-- Digits, of which there is at least one. -/
def isDigits (text : List Char) : Bool := !text.isEmpty && text.all Char.isDigit

/-- Nothing, or an exponent with or without a sign. -/
def isExponent : List Char → Bool
  | [] => true
  | mark :: '+' :: digits | mark :: '-' :: digits | mark :: digits =>
    (mark == 'e' || mark == 'E') && isDigits digits

/-- What may stand behind the whole part of a number. -/
def isTail : List Char → Bool
  | '.' :: rest =>
    isDigits (rest.takeWhile Char.isDigit) && isExponent (rest.dropWhile Char.isDigit)
  | rest => isExponent rest

/-- Digits that begin with a zero only if there is no other, and what may stand behind them. -/
def isUnsigned (text : List Char) : Bool :=
  let digits := text.takeWhile Char.isDigit
  (digits.head? != some '0' || digits.length == 1) && isDigits digits &&
    isTail (text.dropWhile Char.isDigit)

def isNumber : List Char → Bool
  | '-' :: rest => isUnsigned rest
  | rest => isUnsigned rest

def word? (word : List Char) : Option Symbol :=
  if word = "null".toList then some .null
  else if word = "true".toList then some (.bool true)
  else if word = "false".toList then some (.bool false)
  else if isNumber word then some (.number (String.ofList word))
  else none

/-- The code that four hexadecimal digits are, and what stands behind them. -/
def unit? : List Char → Option (Nat × List Char)
  | a :: b :: c :: d :: rest =>
    if [a, b, c, d].all Escapes.isHex then
      some ([a, b, c, d].foldl (fun code digit => 16 * code + Escapes.digitValue digit) 0, rest)
    else none
  | _ => none

/-- What a letter behind a backslash stands for. -/
def meaning? : Char → Option Char
  | '"' => some '"'
  | '\\' => some '\\'
  | '/' => some '/'
  | 'b' => some '\x08'
  | 'f' => some '\x0c'
  | 'n' => some '\n'
  | 'r' => some '\r'
  | 't' => some '\t'
  | _ => none

/-- The character of two surrogates in a row, the second of which is to be read. -/
def pair? (first : Nat) : List Char → Option (Char × List Char)
  | '\\' :: 'u' :: rest =>
    (unit? rest).bind fun (second, rest) =>
      if first < 0xDC00 ∧ 0xDC00 ≤ second ∧ second < 0xE000 then
        some (Char.ofNat (0x10000 + 0x400 * (first - 0xD800) + (second - 0xDC00)), rest)
      else none
  | _ => none

/-- What an escape stands for, and what is behind it. A surrogate on its own is nothing. -/
def escape? : List Char → Option (Char × List Char)
  | [] => none
  | 'u' :: rest =>
    (unit? rest).bind fun (code, rest) =>
      if code < 0xD800 ∨ 0xE000 ≤ code then some (Char.ofNat code, rest) else pair? code rest
  | letter :: rest => (meaning? letter).map (·, rest)

theorem length_lt_of_unit? {text after : List Char} {code : Nat}
    (read : unit? text = some (code, after)) : after.length < text.length := by
  unfold unit? at read
  split at read
  · split at read
    · cases read
      simp only [List.length_cons]
      omega
    · cases read
  · cases read

private theorem length_lt_of_pair? {text after : List Char} {first : Nat} {c : Char}
    (read : pair? first text = some (c, after)) : after.length < text.length := by
  unfold pair? at read
  split at read
  · obtain ⟨⟨second, behind⟩, last, read⟩ := Option.bind_eq_some_iff.mp read
    have shorter := length_lt_of_unit? last
    dsimp only at read
    split at read
    · obtain ⟨-, rfl⟩ := Prod.mk.inj (Option.some.inj read)
      simp only [List.length_cons]
      omega
    · cases read
  · cases read

theorem length_lt_of_escape? {text after : List Char} {c : Char}
    (read : escape? text = some (c, after)) : after.length < text.length := by
  unfold escape? at read
  split at read
  · cases read
  · obtain ⟨⟨code, behind⟩, first, read⟩ := Option.bind_eq_some_iff.mp read
    have shorter := length_lt_of_unit? first
    dsimp only at read
    split at read
    · cases read
      exact Nat.lt_succ_of_lt shorter
    · have shorter' := length_lt_of_pair? read
      simp only [List.length_cons]
      omega
  · obtain ⟨meant, -, same⟩ := Option.map_eq_some_iff.mp read
    cases same
    exact Nat.lt_succ_self _

/-- A text up to its closing quote, and what stands behind that. -/
def text? (text : List Char) : Option (List Char × List Char) :=
  match text with
  | [] => none
  | '"' :: rest => some ([], rest)
  | '\\' :: rest =>
    match read : escape? rest with
    | none => none
    | some (c, after) =>
      have := length_lt_of_escape? read
      (text? after).map (Prod.map (c :: ·) id)
  | c :: rest => if c.toNat < 0x20 then none else (text? rest).map (Prod.map (c :: ·) id)
termination_by text.length
decreasing_by all_goals simp only [List.length_cons]; omega

theorem length_lt_of_text? {text content after : List Char}
    (read : text? text = some (content, after)) : after.length < text.length := by
  fun_induction text? text generalizing content with
  | case1 => cases read
  | case2 rest =>
    cases read
    exact Nat.lt_succ_self _
  | case3 => cases read
  | case4 rest c behind found shorter ih =>
    obtain ⟨inner, found⟩ := Listing.exists_of_map_cons read
    have := ih found
    simp only [List.length_cons]
    omega
  | case5 => cases read
  | case6 c rest _ _ _ ih =>
    obtain ⟨inner, found⟩ := Listing.exists_of_map_cons read
    exact Nat.lt_succ_of_lt (ih found)

/-- The symbols of a text. White space may stand between them. -/
def symbols? (text : List Char) : Option (List Symbol) :=
  match text with
  | [] => some []
  | c :: rest =>
    if isBlank c then symbols? rest
    else if c = '"' then
      match read : text? rest with
      | none => none
      | some (content, after) =>
        have := length_lt_of_text? read
        (symbols? after).map (.text (String.ofList content) :: ·)
    else match mark? c with
      | some symbol => (symbols? rest).map (symbol :: ·)
      | none =>
        (word? (c :: rest.takeWhile (IsWordly ·))).bind fun symbol =>
          (symbols? (rest.dropWhile (IsWordly ·))).map (symbol :: ·)
termination_by text.length
decreasing_by
  all_goals have := (rest.dropWhile_sublist (IsWordly ·)).length_le
  all_goals simp only [List.length_cons]; omega

/-- What a JSON text means. A number is kept as it is written. -/
inductive Document where
  | null
  | bool (value : Bool)
  | number (lexeme : String)
  | text (content : String)
  | list (items : List Document)
  | object (members : List (String × Document))

/-- A list or an object that is read, up to the value that is to come. -/
inductive Frame where
  | list (items : List Document)
  | object (members : List (String × Document)) (name : String)

/-- What is to come within the lists and objects around it. -/
inductive State where
  | value (around : List Frame)
  | name (around : List Frame) (members : List (String × Document))
  | colon (around : List Frame) (members : List (String × Document)) (name : String)
  /-- A value has just been read. -/
  | next (around : List Frame) (value : Document)

namespace State

def step : State → Symbol → Option State
  | value around, .null => some (next around .null)
  | value around, .bool b => some (next around (.bool b))
  | value around, .number lexeme => some (next around (.number lexeme))
  | value around, .text content => some (next around (.text content))
  | value around, .openList => some (value (.list [] :: around))
  | value around, .openObject => some (name around [])
  | value (.list [] :: around), .closeList => some (next around (.list []))
  | name around [], .closeObject => some (next around (.object []))
  | name around members, .text label => some (colon around members label)
  | colon around members label, .colon => some (value (.object members label :: around))
  | next (.list items :: around) item, .comma => some (value (.list (items ++ [item]) :: around))
  | next (.list items :: around) item, .closeList => some (next around (.list (items ++ [item])))
  | next (.object members label :: around) item, .comma =>
    some (name around (members ++ [(label, item)]))
  | next (.object members label :: around) item, .closeObject =>
    some (next around (.object (members ++ [(label, item)])))
  | _, _ => none

/-- The value that has been read if there is nothing around it. -/
def document? : State → Option Document
  | next [] whole => some whole
  | _ => none

end State

/-- Reads a JSON text. -/
def read? (text : String) : Option Document :=
  (symbols? text.toList).bind fun symbols =>
    (symbols.foldlM State.step (.value [])).bind State.document?

/-- Nothing is left out of a list, and a number or a name ends where it may end. -/
example :
    (read? " [ -0.5e+7 ,\t\"\\ud83d\\ude00\\/\" , \x7b \x7d ]").isSome ∧ (read? "[1,]").isNone ∧
      (read? "[01]").isNone ∧ (read? "truefalse").isNone ∧ (read? "\"\\ud83d\"").isNone := by
  decide +kernel

private theorem text?_cons_of_escape? {letters after : List Char} {c : Char}
    (read : escape? letters = some (c, after)) :
    text? ('\\' :: letters) = (text? after).map (Prod.map (c :: ·) id) := by
  rw [text?]
  split
  · rename_i unread
    rw [read] at unread
    cases unread
  · rename_i found
    rw [read] at found
    cases found
    rfl

private theorem meaning?_of_letter? {c letter : Char} (found : letter? c = some letter) :
    letter ≠ 'u' ∧ meaning? letter = some c := by
  unfold letter? at found
  split at found <;> cases found <;> decide

private theorem unit?_digitChar {c : Char} (small : c.toNat < 0x20) (rest : List Char) :
    unit? ('0' :: '0' :: Nat.digitChar (c.toNat / 16) :: Nat.digitChar (c.toNat % 16) :: rest) =
      some (c.toNat, rest) := by
  obtain ⟨isHigh, high⟩ := Listing.digitValue_digitChar (by omega : c.toNat / 16 < 16)
  obtain ⟨isLow, low⟩ := Listing.digitValue_digitChar (by omega : c.toNat % 16 < 16)
  have zero : Escapes.isHex '0' = true ∧ Escapes.digitValue '0' = 0 := by decide
  have whole : 16 * (c.toNat / 16) + c.toNat % 16 = c.toNat := Nat.div_add_mod ..
  simp only [unit?, List.all_cons, List.foldl_cons, zero, isHigh, isLow, high, low, List.all_nil,
    List.foldl_nil, Bool.and_true, Nat.mul_zero, Nat.zero_add, whole, if_true]

/-- Behind an escaped character the reader is where it would be without it. -/
theorem text?_escapeChar (c : Char) (rest : List Char) :
    text? (escapeChar c ++ rest) = (text? rest).map (Prod.map (c :: ·) id) := by
  unfold escapeChar
  split
  · rename_i letter found
    obtain ⟨other, meant⟩ := meaning?_of_letter? found
    have read : escape? (letter :: rest) = some (c, rest) := by
      rw [escape?, meant]
      · rfl
      · exact other
    exact text?_cons_of_escape? read
  · rename_i plain
    split
    · rename_i small
      have read : escape? ('u' :: '0' :: '0' :: Nat.digitChar (c.toNat / 16) ::
          Nat.digitChar (c.toNat % 16) :: rest) = some (c, rest) := by
        have low : c.toNat < 0xD800 ∨ 0xE000 ≤ c.toNat := by omega
        rw [escape?, unit?_digitChar small, Option.bind_some]
        simp only [if_pos low, Char.ofNat_toNat]
      exact text?_cons_of_escape? read
    · rename_i large
      have other : c ≠ '"' ∧ c ≠ '\\' := by
        constructor <;> rintro rfl <;> cases plain
      rw [List.singleton_append, text?]
      · rw [if_neg large]
      · exact other.1
      · exact other.2

private theorem text?_flatMap (content rest : List Char) :
    text? (content.flatMap escapeChar ++ '"' :: rest) = some (content, rest) := by
  induction content with
  | nil => rw [List.flatMap_nil, List.nil_append, text?]
  | cons c content ih =>
    rw [List.flatMap_cons, List.append_assoc, text?_escapeChar, ih]
    rfl

/-- In front of a rest, what is written is these symbols. -/
def Shows (written : List Char) (symbols : List Symbol) (rest : List Char) : Prop :=
  symbols? (written ++ rest) = (symbols? rest).map (symbols ++ ·)

/-- No word goes on in the rest. -/
def Ends (rest : List Char) : Prop := ∀ c ∈ rest.head?, ¬IsWordly c

theorem Shows.append {first second rest : List Char} {symbols later : List Symbol}
    (one : Shows first symbols (second ++ rest)) (two : Shows second later rest) :
    Shows (first ++ second) (symbols ++ later) rest := by
  unfold Shows at *
  rw [List.append_assoc, one, two, Option.map_map]
  congr 1
  funext more
  exact (List.append_assoc ..).symm

theorem shows_renderText (content : String) (rest : List Char) :
    Shows (renderText content).toList [.text content] rest := by
  have read := text?_flatMap content.toList rest
  have whole : (renderText content).toList ++ rest =
      '"' :: (content.toList.flatMap escapeChar ++ '"' :: rest) := by
    simp [renderText]
  rw [Shows, whole, symbols?, if_neg (by decide), if_pos rfl]
  split
  · rename_i unread
    rw [read] at unread
    cases unread
  · rename_i found
    rw [read] at found
    cases found
    rw [String.ofList_toList]
    rfl

section
variable {c : Char} {more rest : List Char} {symbol : Symbol}

theorem shows_mark (mark : mark? c = some symbol) : Shows [c] [symbol] rest := by
  have other : isBlank c = false ∧ c ≠ '"' := by
    unfold mark? at mark
    split at mark <;> first | decide | cases mark
  rw [Shows, List.singleton_append, symbols?, other.1, if_neg Bool.false_ne_true, if_neg other.2]
  simp [mark]

theorem ends_mark (mark : mark? c = some symbol) : Ends (c :: rest) := by
  rintro d found ⟨-, none, -⟩
  cases found
  rw [mark] at none
  cases none

theorem shows_word (wordly : IsWord (c :: more)) (means : word? (c :: more) = some symbol)
    (ends : Ends rest) : Shows (c :: more) [symbol] rest := by
  obtain ⟨⟨blank, mark, quote⟩, wordly⟩ := List.forall_mem_cons.mp wordly
  have all : ∀ d ∈ more, decide (IsWordly d) = true :=
    fun d member => decide_eq_true (wordly d member)
  have stops : rest.takeWhile (IsWordly ·) = [] ∧ rest.dropWhile (IsWordly ·) = rest := by
    cases rest with
    | nil => exact ⟨rfl, rfl⟩
    | cons d rest => simp [ends d rfl]
  have taken : (more ++ rest).takeWhile (IsWordly ·) = more := by
    rw [List.takeWhile_append_of_pos all, stops.1, List.append_nil]
  have left : (more ++ rest).dropWhile (IsWordly ·) = rest := by
    rw [List.dropWhile_append_of_pos all, stops.2]
  rw [Shows, List.cons_append, symbols?, blank, if_neg Bool.false_ne_true, if_neg quote]
  simp [mark, taken, left, means]

end

private theorem isWordly_of_isDigit {c : Char} (digit : c.isDigit = true) : IsWordly c := by
  refine ⟨?_, ?_, ?_⟩
  · rw [isBlank, decide_eq_false_iff_not]
    rintro (rfl | rfl | rfl | rfl) <;> exact absurd digit (by decide)
  · unfold mark?
    split <;> first | rfl | exact absurd digit (by decide)
  · rintro rfl
    exact absurd digit (by decide)

/-- A number other than zero is not written with a zero in front. -/
theorem toDigits_of_pos {n : Nat} (positive : 0 < n) :
    ∃ first more, Nat.toDigits 10 n = first :: more ∧ first ≠ '0' := by
  induction n using Nat.strongRecOn with
  | ind n ih =>
    by_cases small : n < 10
    · have all : ∀ n < 10, 0 < n → n.digitChar ≠ '0' := by decide
      exact ⟨n.digitChar, [], Nat.toDigits_of_lt_base small, all n small positive⟩
    · obtain ⟨first, more, front, other⟩ := ih (n / 10) (by omega) (by omega)
      have whole : Nat.toDigits 10 n = Nat.toDigits 10 (n / 10) ++ [(n % 10).digitChar] :=
        Nat.toDigits_of_base_le (by omega) (by omega)
      exact ⟨first, more ++ [(n % 10).digitChar], by rw [whole, front]; rfl, other⟩

theorem isDigit_of_mem_toDigits {n : Nat} : ∀ c ∈ Nat.toDigits 10 n, c.isDigit = true :=
  fun _ member => Nat.isDigit_of_mem_toDigits (by decide) (by decide) member

private theorem isUnsigned_toDigits (n : Nat) : isUnsigned (Nat.toDigits 10 n) = true := by
  have taken : (Nat.toDigits 10 n).takeWhile Char.isDigit = Nat.toDigits 10 n :=
    List.takeWhile_eq_self_iff.mpr isDigit_of_mem_toDigits
  have left : (Nat.toDigits 10 n).dropWhile Char.isDigit = [] :=
    List.dropWhile_eq_nil_iff.mpr isDigit_of_mem_toDigits
  have leading :
      ((Nat.toDigits 10 n).head? != some '0' || (Nat.toDigits 10 n).length == 1) = true := by
    rcases Nat.eq_zero_or_pos n with rfl | positive
    · decide
    · obtain ⟨first, more, whole, other⟩ := toDigits_of_pos positive
      simp [whole, other]
  have digits : isDigits (Nat.toDigits 10 n) = true := by
    rw [isDigits, List.all_eq_true.mpr isDigit_of_mem_toDigits]
    simp [Nat.toDigits_ne_nil]
  rw [isUnsigned, taken, left, leading, digits]
  rfl

private theorem word?_of_isNumber {word : List Char} (number : isNumber word = true) :
    word? word = some (.number (String.ofList word)) := by
  have other {reserved : List Char} (none : isNumber reserved = false) : word ≠ reserved := by
    rintro rfl
    rw [none] at number
    cases number
  rw [word?, if_neg (other (by decide)), if_neg (other (by decide)), if_neg (other (by decide)),
    if_pos number]

/-- A whole number is written with a sign if it is negative, and digits. -/
theorem toList_toString (value : Int) :
    (toString value).toList =
      if 0 ≤ value then Nat.toDigits 10 value.toNat else '-' :: Nat.toDigits 10 (-value).toNat := by
  change value.repr.toList = _
  rw [Int.repr_eq_if]
  split <;> simp [Nat.repr_eq_ofList_toDigits]

private theorem isNumber_toString (value : Int) : isNumber (toString value).toList = true := by
  rw [toList_toString]
  split
  · obtain ⟨first, more, whole⟩ := List.exists_cons_of_ne_nil (@Nat.toDigits_ne_nil value.toNat 10)
    have digit := isDigit_of_mem_toDigits first (whole ▸ List.mem_cons_self)
    have other : first ≠ '-' := by
      rintro rfl
      exact absurd digit (by decide)
    have unsigned := isUnsigned_toDigits value.toNat
    rw [whole] at unsigned ⊢
    rw [isNumber]
    · exact unsigned
    · rintro rest same
      cases same
      exact other rfl
  · exact isUnsigned_toDigits _

theorem minus_or_digit_of_mem_toString {value : Int} {c : Char}
    (member : c ∈ (toString value).toList) : c = '-' ∨ c.isDigit = true := by
  rw [toList_toString] at member
  split at member
  · exact .inr (isDigit_of_mem_toDigits c member)
  · exact (List.mem_cons.mp member).imp_right (isDigit_of_mem_toDigits c)

private theorem shows_toString (value : Int) {rest : List Char} (ends : Ends rest) :
    Shows (toString value).toList [.number (toString value)] rest := by
  have wordly : IsWord (toString value).toList := by
    intro c member
    rcases minus_or_digit_of_mem_toString member with rfl | digit
    · decide
    · exact isWordly_of_isDigit digit
  have means := word?_of_isNumber (isNumber_toString value)
  have present : (toString value).toList ≠ [] := by
    intro none
    have number := isNumber_toString value
    rw [none] at number
    cases number
  obtain ⟨first, more, whole⟩ := List.exists_cons_of_ne_nil present
  rw [String.ofList_toList] at means
  rw [whole] at wordly means ⊢
  exact shows_word wordly means ends

mutual

/-- The symbols that a value is rendered as. -/
def symbols : Json → List Symbol
  | .bool value => [.bool value]
  | .integer value => [.number (toString value)]
  | .text value => [.text value]
  | .list items => .openList :: (itemSymbols items ++ [.closeList])
  | .object members => .openObject :: (memberSymbols members ++ [.closeObject])

def itemSymbols : List Json → List Symbol
  | [] => []
  | [item] => item.symbols
  | item :: rest => item.symbols ++ .comma :: itemSymbols rest

def memberSymbols : List (String × Json) → List Symbol
  | [] => []
  | [(name, value)] => .text name :: .colon :: value.symbols
  | (name, value) :: rest => .text name :: .colon :: (value.symbols ++ .comma :: memberSymbols rest)

end

theorem shows_nil (rest : List Char) : Shows [] [] rest := (Option.map_id' ..).symm

section
variable {written more rest : List Char} {symbols later : List Symbol}

/-- What a comma separates. -/
theorem Shows.comma (one : ∀ {rest}, Ends rest → Shows written symbols rest)
    (two : Shows more later rest) :
    Shows (written ++ ",".toList ++ more) (symbols ++ .comma :: later) rest := by
  rw [List.append_assoc]
  exact (one (ends_mark rfl)).append ((shows_mark rfl).append two)

/-- What has a name. -/
theorem Shows.named (name : String) (value : Shows written symbols rest) :
    Shows ((renderText name).toList ++ ":".toList ++ written) (.text name :: .colon :: symbols)
      rest := by
  rw [List.append_assoc]
  exact (shows_renderText name _).append ((shows_mark rfl).append value)

end

mutual

theorem shows_render (value : Json) {rest : List Char} (ends : Ends rest) :
    Shows value.render.toList value.symbols rest := by
  match value with
  | .bool true => exact shows_word (by decide) (by decide) ends
  | .bool false => exact shows_word (by decide) (by decide) ends
  | .integer value => exact shows_toString value ends
  | .text content => exact shows_renderText content rest
  | .list items =>
    have inner := shows_renderItems items (@ends_mark ']' rest _ rfl)
    rw [render, String.toList_append, String.toList_append, List.append_assoc]
    exact (@shows_mark '[' _ _ rfl).append (inner.append (shows_mark rfl))
  | .object members =>
    have inner := shows_renderMembers members (@ends_mark '\x7d' rest _ rfl)
    rw [render, String.toList_append, String.toList_append, List.append_assoc]
    exact (@shows_mark '\x7b' _ _ rfl).append (inner.append (shows_mark rfl))

theorem shows_renderItems (items : List Json) {rest : List Char} (ends : Ends rest) :
    Shows (renderItems items).toList (itemSymbols items) rest := by
  match items with
  | [] => exact shows_nil rest
  | [item] => exact shows_render item ends
  | item :: next :: more =>
    have later := shows_renderItems (next :: more) ends
    rw [renderItems, String.toList_append, String.toList_append]
    · exact Shows.comma (shows_render item) later
    · exact List.cons_ne_nil next more

theorem shows_renderMembers (members : List (String × Json)) {rest : List Char}
    (ends : Ends rest) : Shows (renderMembers members).toList (memberSymbols members) rest := by
  match members with
  | [] => exact shows_nil rest
  | [(name, value)] =>
    rw [renderMembers, String.toList_append, String.toList_append]
    exact (shows_render value ends).named name
  | (name, value) :: next :: more =>
    have later := shows_renderMembers (next :: more) ends
    have named {rest : List Char} (ends : Ends rest) := (shows_render value ends).named name
    rw [renderMembers, String.toList_append, String.toList_append, String.toList_append,
      String.toList_append]
    · exact Shows.comma named later
    · exact List.cons_ne_nil next more

end

mutual

/-- What a value means. -/
def document : Json → Document
  | .bool value => .bool value
  | .integer value => .number (toString value)
  | .text value => .text value
  | .list items => .list (itemDocuments items)
  | .object members => .object (memberDocuments members)

def itemDocuments : List Json → List Document
  | [] => []
  | item :: rest => item.document :: itemDocuments rest

def memberDocuments : List (String × Json) → List (String × Document)
  | [] => []
  | (name, value) :: rest => (name, value.document) :: memberDocuments rest

end

theorem foldlM_named (name : String) (symbols : List Symbol) (read : List (String × Document))
    (around : List Frame) :
    (.text name :: .colon :: symbols).foldlM State.step (.name around read) =
      symbols.foldlM State.step (.value (.object read name :: around)) := by
  cases read <;> rfl

mutual

/-- The symbols of a value are read as what it means, whatever is around it. -/
theorem foldlM_symbols (value : Json) (around : List Frame) :
    value.symbols.foldlM State.step (.value around) = some (.next around value.document) := by
  match value with
  | .bool value => rfl
  | .integer value => rfl
  | .text content => rfl
  | .list [] => rfl
  | .list (item :: more) => exact foldlM_itemSymbols (item :: more) nofun [] around
  | .object [] => rfl
  | .object (member :: more) => exact foldlM_memberSymbols (member :: more) nofun [] around

theorem foldlM_itemSymbols (items : List Json) (present : items ≠ []) (read : List Document)
    (around : List Frame) :
    (itemSymbols items ++ [Symbol.closeList]).foldlM State.step (.value (.list read :: around)) =
      some (.next around (.list (read ++ itemDocuments items))) := by
  match items with
  | [] => exact absurd rfl present
  | [item] =>
    rw [itemSymbols, List.foldlM_append, foldlM_symbols item]
    rfl
  | item :: next :: more =>
    have later := foldlM_itemSymbols (next :: more) nofun (read ++ [item.document]) around
    rw [List.append_assoc] at later
    rw [itemSymbols, List.append_assoc, List.foldlM_append, foldlM_symbols item]
    · exact later
    · exact List.cons_ne_nil next more

theorem foldlM_memberSymbols (members : List (String × Json)) (present : members ≠ [])
    (read : List (String × Document)) (around : List Frame) :
    (memberSymbols members ++ [Symbol.closeObject]).foldlM State.step (.name around read) =
      some (.next around (.object (read ++ memberDocuments members))) := by
  match members with
  | [] => exact absurd rfl present
  | [(name, value)] =>
    rw [memberSymbols, List.cons_append, List.cons_append, foldlM_named, List.foldlM_append,
      foldlM_symbols value]
    rfl
  | (name, value) :: next :: more =>
    have later :=
      foldlM_memberSymbols (next :: more) nofun (read ++ [(name, value.document)]) around
    rw [List.append_assoc] at later
    rw [memberSymbols, List.cons_append, List.cons_append, foldlM_named, List.append_assoc,
      List.foldlM_append, foldlM_symbols value]
    · exact later
    · exact List.cons_ne_nil next more

end

/-- What is read of a value as it is rendered is what it means. -/
theorem read?_render (value : Json) : read? value.render = some value.document := by
  have shown : symbols? value.render.toList = some value.symbols := by
    have whole := @shows_render value [] nofun
    rw [Shows, List.append_nil, symbols?] at whole
    rw [whole, Option.map_some, List.append_nil]
  rw [read?, shown, Option.bind_some, foldlM_symbols]
  rfl

/-- There is no control character in the text. -/
def IsOneLine (text : String) : Prop := ∀ c ∈ text.toList, 0x20 ≤ c.toNat

instance : DecidablePred IsOneLine := fun text => List.decidableBAll _ text.toList

theorem IsOneLine.append {first second : String} (one : IsOneLine first)
    (two : IsOneLine second) : IsOneLine (first ++ second) := by
  intro c member
  rw [String.toList_append] at member
  exact (List.mem_append.mp member).elim (one c) (two c)

theorem isOneLine_renderText (content : String) : IsOneLine (renderText content) := by
  have escaped (c : Char) : ∀ written ∈ escapeChar c, 0x20 ≤ written.toNat := by
    unfold escapeChar
    split
    · rename_i letter found
      have shown : 0x20 ≤ letter.toNat := by
        unfold letter? at found
        split at found <;> cases found <;> decide
      exact List.forall_mem_cons.mpr ⟨by decide, List.forall_mem_singleton.mpr shown⟩
    · split
      · have digit : ∀ n < 16, 0x20 ≤ n.digitChar.toNat := by decide
        have high := digit (c.toNat / 16) (by omega)
        have low := digit (c.toNat % 16) (by omega)
        simp [high, low]
      · rename_i large
        exact List.forall_mem_singleton.mpr (Nat.le_of_not_lt large)
  have inner : ∀ written ∈ content.toList.flatMap escapeChar, 0x20 ≤ written.toNat := by
    intro written member
    obtain ⟨c, -, member⟩ := List.mem_flatMap.mp member
    exact escaped c written member
  intro c member
  rw [renderText, String.toList_ofList, List.cons_append, List.mem_cons, List.mem_append,
    List.mem_singleton] at member
  rcases member with rfl | member | rfl
  · decide
  · exact inner c member
  · decide

private theorem isOneLine_named (name : String) {written : String} (value : IsOneLine written) :
    IsOneLine (renderText name ++ ":" ++ written) :=
  ((isOneLine_renderText name).append (by decide)).append value

private theorem isOneLine_toString (value : Int) : IsOneLine (toString value) := by
  intro c member
  rcases minus_or_digit_of_mem_toString member with rfl | digit
  · decide
  · simp only [Char.isDigit, Bool.and_eq_true, decide_eq_true_eq] at digit
    exact Nat.le_trans (by decide) (UInt32.le_iff_toNat_le.mp digit.1)

mutual

theorem isOneLine_render (value : Json) : IsOneLine value.render := by
  match value with
  | .bool true => exact by decide
  | .bool false => exact by decide
  | .integer value => exact isOneLine_toString value
  | .text content => exact isOneLine_renderText content
  | .list items =>
    exact (IsOneLine.append (by decide) (isOneLine_renderItems items)).append (by decide)
  | .object members =>
    exact (IsOneLine.append (by decide) (isOneLine_renderMembers members)).append (by decide)

theorem isOneLine_renderItems (items : List Json) : IsOneLine (renderItems items) := by
  match items with
  | [] => exact nofun
  | [item] => exact isOneLine_render item
  | item :: next :: more =>
    have later := isOneLine_renderItems (next :: more)
    rw [renderItems]
    · exact ((isOneLine_render item).append (by decide)).append later
    · exact List.cons_ne_nil next more

theorem isOneLine_renderMembers (members : List (String × Json)) :
    IsOneLine (renderMembers members) := by
  match members with
  | [] => exact nofun
  | [(name, value)] =>
    exact isOneLine_named name (isOneLine_render value)
  | (name, value) :: next :: more =>
    have named := isOneLine_named name (isOneLine_render value)
    have later := isOneLine_renderMembers (next :: more)
    rw [renderMembers]
    · exact (named.append (by decide)).append later
    · exact List.cons_ne_nil next more

end

end PolicyShell.Json
