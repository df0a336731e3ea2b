import Mathlib.Data.List.Basic
import Mathlib.Data.List.Induction
import Mathlib.Data.List.TakeWhile
import PolicyShell.Text.Blank
import PolicyShell.Text.Numeral

/-! Which texts are numerals of which numbers, apart from the range that a number has to be in. -/
namespace PolicyShell

namespace Numeral

/-- The number that digits stand for. -/
def digitsValue (text : List Char) : Nat :=
  text.foldl (fun value c => 10 * value + (c.toNat - '0'.toNat)) 0

/-- The text is digits with a sign in front of them or none, and stands for the number. -/
inductive Spells : List Char → Int → Prop where
  | bare {text : List Char} {value : Nat} (read : digits? text = some value) : Spells text value
  | plus {text : List Char} {value : Nat} (read : digits? text = some value) :
      Spells ('+' :: text) value
  | minus {text : List Char} {value : Nat} (read : digits? text = some value) :
      Spells ('-' :: text) (-value)

variable {text : List Char} {value : Nat} {number : Int}

theorem toNat_of_isDigit {c : Char} (digit : c.isDigit = true) :
    '0'.toNat ≤ c.toNat ∧ c.toNat ≤ '9'.toNat := by
  simpa [Char.isDigit, UInt32.le_iff_toNat_le] using digit

theorem digits?_eq_some_iff :
    digits? text = some value ↔
      text ≠ [] ∧ (∀ c ∈ text, c.isDigit = true) ∧ digitsValue text = value := by
  by_cases proper : text ≠ [] ∧ ∀ c ∈ text, c.isDigit = true
  · simp [digits?, digitsValue, proper]
  · have improper : (text.isEmpty || !text.all Char.isDigit) = true := by
      by_contra neither
      apply proper
      simpa using neither
    rw [digits?, if_pos improper]
    simp only [reduceCtorEq, false_iff]
    rintro ⟨present, digits, -⟩
    exact proper ⟨present, digits⟩

private theorem isDigit_of_head? {c : Char} (read : digits? text = some value)
    (first : text.head? = some c) :
    c.isDigit = true :=
  (digits?_eq_some_iff.mp read).2.1 c (List.mem_of_head? first)

theorem digits?_cons_sign {c : Char} (sign : c.isDigit = false) : digits? (c :: text) = none := by
  simp [digits?, sign]

theorem spells_plus_iff :
    Spells ('+' :: text) number ↔ (digits? text).map Int.ofNat = some number := by
  constructor
  · intro spells
    cases spells with
    | bare read => simp [digits?_cons_sign (show '+'.isDigit = false from rfl)] at read
    | plus read => simp [read]
  · intro read
    obtain ⟨value, digits, rfl⟩ := Option.map_eq_some_iff.mp read
    exact .plus digits

private theorem spells_minus_iff :
    Spells ('-' :: text) number ↔
      (digits? text).map (fun value => -Int.ofNat value) = some number := by
  constructor
  · intro spells
    generalize signed : '-' :: text = whole at spells
    cases spells with
    | bare read => simp [← signed, digits?_cons_sign (show '-'.isDigit = false from rfl)] at read
    | plus => cases signed
    | minus read =>
      cases signed
      simp [read]
  · intro read
    obtain ⟨value, digits, rfl⟩ := Option.map_eq_some_iff.mp read
    exact .minus digits

theorem spells_unsigned_iff (noPlus : ∀ rest, text ≠ '+' :: rest)
    (noMinus : ∀ rest, text ≠ '-' :: rest) :
    Spells text number ↔ (digits? text).map Int.ofNat = some number := by
  constructor
  · intro spells
    cases spells with
    | bare read => simp [read]
    | plus => exact absurd rfl (noPlus _)
    | minus => exact absurd rfl (noMinus _)
  · intro read
    obtain ⟨value, digits, rfl⟩ := Option.map_eq_some_iff.mp read
    exact .bare digits

theorem integer?_eq_some_iff :
    integer? text = some number ↔
      Spells text number ∧ Int64.minValue.toInt ≤ number ∧ number ≤ Int64.maxValue.toInt := by
  unfold integer?
  rw [Option.filter_eq_some_iff, decide_eq_true_iff]
  refine and_congr_left' ?_
  split
  · exact spells_plus_iff.symm
  · exact spells_minus_iff.symm
  · rename_i noPlus noMinus
    exact (spells_unsigned_iff noPlus noMinus).symm

/-- A numeral with a minus sign is no numeral of a natural number, not even of zero. -/
theorem natural?_eq_some_iff :
    natural? text = some value ↔
      Spells text value ∧ text.head? ≠ some '-' ∧ value < UInt64.size := by
  unfold natural?
  rw [Option.filter_eq_some_iff, decide_eq_true_iff, ← and_assoc]
  refine and_congr_left' ?_
  split
  · simp only [spells_plus_iff, Option.map_eq_some_iff, Int.ofNat_eq_natCast, Int.natCast_inj,
      exists_eq_right]
    simp
  · rename_i noPlus
    constructor
    · intro read
      refine ⟨.bare read, fun first => ?_⟩
      cases isDigit_of_head? read first
    · rintro ⟨spells, first⟩
      have noMinus : ∀ rest, text ≠ '-' :: rest := by
        rintro rest rfl
        exact first rfl
      simpa [Int.natCast_inj] using (spells_unsigned_iff noPlus noMinus).mp spells

theorem digit_or_sign_of_spells (spells : Spells text number) :
    ∀ c ∈ text, c.isDigit = true ∨ c = '+' ∨ c = '-' := by
  have digit {text : List Char} {value : Nat} (read : digits? text = some value) :
      ∀ c ∈ text, c.isDigit = true ∨ c = '+' ∨ c = '-' :=
    fun c member => .inl ((digits?_eq_some_iff.mp read).2.1 c member)
  cases spells with
  | bare read => exact digit read
  | plus read => exact List.forall_mem_cons.mpr ⟨.inr (.inl rfl), digit read⟩
  | minus read => exact List.forall_mem_cons.mpr ⟨.inr (.inr rfl), digit read⟩

theorem natural?_eq_none_of_mem {c : Char} (member : c ∈ text)
    (odd : c.isDigit = false ∧ c ≠ '+' ∧ c ≠ '-') : natural? text = none := by
  obtain ⟨noDigit, noPlus, noMinus⟩ := odd
  apply Option.eq_none_iff_forall_not_mem.mpr
  intro value read
  have spells := (natural?_eq_some_iff.mp read).1
  simpa [noDigit, noPlus, noMinus] using digit_or_sign_of_spells spells c member

/-- Only a minus sign makes a numeral negative. -/
theorem nonneg_of_spells (spells : Spells text number) (noMinus : text.head? ≠ some '-') :
    0 ≤ number := by
  cases spells with
  | bare | plus => exact Int.natCast_nonneg _
  | minus => exact absurd rfl noMinus

theorem not_isBlank_of_isDigit {c : Char} (digit : c.isDigit = true) : Blank.isBlank c = false := by
  obtain ⟨low, high⟩ := toNat_of_isDigit digit
  have zero : '0'.toNat = 48 := rfl
  have nine : '9'.toNat = 57 := rfl
  simp only [Blank.isBlank, Blank.ranges, List.any_cons, List.any_nil]
  grind

private theorem not_isBlank_of_spells (spells : Spells text number) :
    ∀ c ∈ text, Blank.isBlank c = false := by
  intro c member
  rcases digit_or_sign_of_spells spells c member with digit | rfl | rfl
  · exact not_isBlank_of_isDigit digit
  · rfl
  · rfl

/-- A numeral has no blanks around it. -/
theorem trim_of_spells (spells : Spells text number) : Blank.trim text = text := by
  have bare := not_isBlank_of_spells spells
  have front : text.dropWhile Blank.isBlank = text :=
    List.dropWhile_eq_self_iff.mpr fun inside => by simp [bare]
  have back : text.reverse.dropWhile Blank.isBlank = text.reverse :=
    List.dropWhile_eq_self_iff.mpr fun inside => by simp [bare]
  rw [Blank.trim, front, back, List.reverse_reverse]

/-- Zeros, with a sign in front of them or none. -/
def IsZero (text : List Char) : Prop :=
  ∃ sign ∈ [[], ['+'], ['-']], ∃ count, text = sign ++ List.replicate (count + 1) '0'

/-- A minus sign and a one, with zeros between them or none. -/
def IsMinusOne (text : List Char) : Prop :=
  ∃ count, text = '-' :: (List.replicate count '0' ++ ['1'])

theorem digitsValue_concat (text : List Char) (c : Char) :
    digitsValue (text ++ [c]) = 10 * digitsValue text + (c.toNat - '0'.toNat) := by
  simp [digitsValue]

theorem eq_of_isDigit {c : Char} (digit : c.isDigit = true) (value : Nat) :
    c.toNat - '0'.toNat = value ↔ c.toNat = '0'.toNat + value := by
  have := (toNat_of_isDigit digit).1
  omega

theorem digitsValue_eq_zero_iff (digits : ∀ c ∈ text, c.isDigit = true) :
    digitsValue text = 0 ↔ ∀ c ∈ text, c = '0' := by
  induction text using List.reverseRecOn with
  | nil => simp [digitsValue]
  | append_singleton text c ih =>
    have front := ih fun d member => digits d (List.mem_append_left _ member)
    have last : c.toNat - '0'.toNat = 0 ↔ c = '0' := by
      rw [eq_of_isDigit (digits c (by simp))]
      exact Char.toNat_inj
    have tens : 10 * digitsValue text = 0 ↔ digitsValue text = 0 := by omega
    rw [digitsValue_concat, Nat.add_eq_zero_iff, tens, last, front, List.forall_mem_append]
    simp

private theorem digits?_eq_zero_iff :
    digits? text = some 0 ↔ ∃ count, text = List.replicate (count + 1) '0' := by
  rw [digits?_eq_some_iff]
  constructor
  · rintro ⟨present, digits, zero⟩
    obtain ⟨count, length⟩ := Nat.exists_eq_succ_of_ne_zero (List.length_pos_iff.mpr present).ne'
    exact ⟨count, List.eq_replicate_iff.mpr ⟨length, (digitsValue_eq_zero_iff digits).mp zero⟩⟩
  · rintro ⟨count, rfl⟩
    have zeros : ∀ c ∈ List.replicate (count + 1) '0', c = '0' :=
      fun c member => List.eq_of_mem_replicate member
    have digits : ∀ c ∈ List.replicate (count + 1) '0', c.isDigit = true :=
      fun c member => zeros c member ▸ rfl
    exact ⟨List.cons_ne_nil _ _, digits, (digitsValue_eq_zero_iff digits).mpr zeros⟩

private theorem digits?_eq_one_iff :
    digits? text = some 1 ↔ ∃ count, text = List.replicate count '0' ++ ['1'] := by
  rw [digits?_eq_some_iff]
  constructor
  · rintro ⟨present, digits, one⟩
    obtain rfl | ⟨front, last, rfl⟩ := List.eq_nil_or_concat' text
    · exact absurd rfl present
    have zeros : ∀ c ∈ front, c.isDigit = true := fun c member => digits c (by simp [member])
    rw [digitsValue_concat] at one
    have zero : digitsValue front = 0 := by omega
    have unit : last.toNat - '0'.toNat = 1 := by omega
    have same : last = '1' := Char.toNat_inj.mp ((eq_of_isDigit (digits last (by simp)) 1).mp unit)
    refine ⟨front.length, ?_⟩
    rw [same, ← List.eq_replicate_of_mem ((digitsValue_eq_zero_iff zeros).mp zero)]
  · rintro ⟨count, rfl⟩
    have digits : ∀ c ∈ List.replicate count '0', c.isDigit = true :=
      fun c member => List.eq_of_mem_replicate member ▸ rfl
    have zero : digitsValue (List.replicate count '0') = 0 :=
      (digitsValue_eq_zero_iff digits).mpr fun c member => List.eq_of_mem_replicate member
    refine ⟨by simp, List.forall_mem_append.mpr ⟨digits, by simp⟩, ?_⟩
    rw [digitsValue_concat, zero]
    rfl

theorem spells_zero_iff : Spells text 0 ↔ IsZero text := by
  constructor
  · intro spells
    generalize zero : (0 : Int) = number at spells
    cases spells with
    | bare read =>
      obtain rfl := Int.natCast_inj.mp zero
      obtain ⟨count, rfl⟩ := digits?_eq_zero_iff.mp read
      exact ⟨[], by simp, count, rfl⟩
    | plus read =>
      obtain rfl := Int.natCast_inj.mp zero
      obtain ⟨count, rfl⟩ := digits?_eq_zero_iff.mp read
      exact ⟨['+'], by simp, count, rfl⟩
    | @minus text value read =>
      obtain rfl : 0 = value := by omega
      obtain ⟨count, rfl⟩ := digits?_eq_zero_iff.mp read
      exact ⟨['-'], by simp, count, rfl⟩
  · rintro ⟨sign, among, count, rfl⟩
    have read : digits? (List.replicate (count + 1) '0') = some 0 :=
      digits?_eq_zero_iff.mpr ⟨count, rfl⟩
    simp only [List.mem_cons, List.not_mem_nil, or_false] at among
    rcases among with rfl | rfl | rfl
    · exact .bare read
    · exact .plus read
    · exact .minus read

theorem spells_minusOne_iff : Spells text (-1) ↔ IsMinusOne text := by
  constructor
  · intro spells
    generalize minusOne : (-1 : Int) = number at spells
    cases spells with
    | bare read => omega
    | plus read => omega
    | @minus text value read =>
      obtain rfl : 1 = value := by omega
      obtain ⟨count, rfl⟩ := digits?_eq_one_iff.mp read
      exact ⟨count, rfl⟩
  · rintro ⟨count, rfl⟩
    exact .minus (digits?_eq_one_iff.mpr ⟨count, rfl⟩)

end Numeral

end PolicyShell
