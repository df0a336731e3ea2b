import PolicyShell.Proofs.Execution.Alike
import PolicyShell.Proofs.Glob.Reading
import PolicyShell.Proofs.Syntax.Dialects
import PolicyShell.Proofs.Text.Numerals

/-! Elements of arrays. An index is read as a number with a sign that may have blanks around it, and
a negative one counts from the end. An element is only removed, however, at an index without blanks
and without a minus sign, and a scalar has an element only where the index is written in the
shortest way. -/
namespace PolicyShell

open Numeral (Spells IsZero IsMinusOne)

/-- How an element of an array is named. -/
def elementName (array index : String) : String := array ++ "[" ++ index ++ "]"

variable {array name : String}

theorem bracket_mem_elementName (array index : String) :
    '[' ∈ (elementName array index).toList := by
  simp [elementName]

theorem elementName_ne {special : String} (without : '[' ∉ special.toList) (array index : String) :
    elementName array index ≠ special := by
  intro same
  exact without (same ▸ bracket_mem_elementName array index)

theorem bracket_not_mem_of_isValid (valid : Name.isValid name.toList = true) :
    '[' ∉ name.toList := by
  intro bracket
  cases Piece.continuesName_of_isValid valid '[' bracket

theorem Name.element?_elementName (plain : '[' ∉ array.toList) (index : String) :
    Name.element? (elementName array index).toList = some (array.toList, index.toList) := by
  have whole : (elementName array index).toList =
      array.toList ++ '[' :: (index.toList ++ [']']) := by simp [elementName]
  rw [Name.element?, whole, Name.upTo?_append_cons plain]
  simp

private theorem not_isDigit_of_startsName {c : Char} (starts : Name.startsName c = true) :
    c.isDigit = false := by
  have above : '9'.toNat < c.toNat := by
    rcases (Bool.or_eq_true ..).mp starts with letter | underscore
    · rcases (Bool.or_eq_true ..).mp letter with upper | lower
      · have low := (of_decide_eq_true upper).1
        exact Nat.lt_of_lt_of_le (by decide) (UInt32.le_iff_toNat_le.mp low)
      · have low := of_decide_eq_true ((Bool.and_eq_true ..).mp lower).1
        exact Nat.lt_of_lt_of_le (by decide) (UInt32.le_iff_toNat_le.mp low)
    · rw [beq_iff_eq.mp underscore]
      decide
  by_contra digit
  exact Nat.not_le.mpr above (Numeral.toNat_of_isDigit (Bool.of_not_eq_false digit)).2

private theorem natural?_eq_none_of_isValid (valid : Name.isValid name.toList = true) :
    Numeral.natural? name.toList = none := by
  cases whole : name.toList with
  | nil => rfl
  | cons c rest =>
    rw [whole, Name.isValid, Bool.and_eq_true] at valid
    have noDigit := not_isDigit_of_startsName valid.1
    refine Numeral.natural?_eq_none_of_mem (List.mem_cons_self ..) ⟨noDigit, ?_, ?_⟩
    · rintro rfl
      cases valid.1
    · rintro rfl
      cases valid.1

namespace Shell

variable (shell : Shell)

theorem scalar?_elementName (plain : '[' ∉ array.toList) (index : String) :
    shell.scalar? (elementName array index) = shell.element? array index.toList := by
  have differs {special : String} (without : '[' ∉ special.toList) :=
    elementName_ne without array index
  have noNumber : Numeral.natural? (elementName array index).toList = none :=
    Numeral.natural?_eq_none_of_mem (bracket_mem_elementName array index) (by decide)
  simp [scalar?, differs, noNumber, Name.element?_elementName plain]

private theorem scalar?_of_isValid (valid : Name.isValid name.toList = true) :
    shell.scalar? name = shell.named? name := by
  have differs (special : String) (bad : Name.isValid special.toList = false) : name ≠ special := by
    rintro rfl
    rw [valid] at bad
    cases bad
  have noElement : Name.element? name.toList = none := by
    rw [Name.element?, Name.upTo?_of_not_mem (bracket_not_mem_of_isValid valid)]
  simp [scalar?, differs, natural?_eq_none_of_isValid valid, noElement, Name.isValid,
    Name.startsName]

private theorem unsetAll_elementName (plain : '[' ∉ array.toList) (index : String) :
    shell.unsetAll false [elementName array index] = shell.unsetElement array index.toList := by
  rw [unsetAll]
  · simp [unsetNamed, Name.element?_elementName plain]
  · exact List.cons_ne_nil _ _
  · intro rest same
    exact elementName_ne (by decide) array index (List.cons.inj same).1
  · intro rest same
    exact elementName_ne (by decide) array index (List.cons.inj same).1

end Shell

/-- The place that a number stands for in an array of so many elements, if there is one. -/
def placeAt? (length : Nat) (index : Int) : Option Nat :=
  let place := if index < 0 then index + length else index
  if 0 ≤ place ∧ place < length then some place.toNat else none

/-- The place of the element that is read at an index. -/
def readPlace? (length : Nat) (index : String) : Option Nat :=
  (Numeral.integer? (Blank.trim index.toList)).bind (placeAt? length)

theorem placeAt?_eq_some_iff {length place : Nat} {index : Int} :
    placeAt? length index = some place ↔
      place < length ∧ (index = place ∨ index = place - (length : Int)) := by
  unfold placeAt?
  grind

private theorem lt_of_readPlace? {length place : Nat} {index : String}
    (found : readPlace? length index = some place) : place < length := by
  obtain ⟨number, -, here⟩ := Option.bind_eq_some_iff.mp found
  exact (placeAt?_eq_some_iff.mp here).1

private theorem elementAt?_eq (values : List String) (index : Int) :
    Shell.elementAt? values index = (placeAt? values.length index).bind (values[·]?) := by
  unfold Shell.elementAt? placeAt?
  grind

private theorem Shell.element?_of_array {shell : Shell} {values : List String}
    (held : shell.arrays[array]? = some values) (index : String) :
    shell.element? array index.toList = (readPlace? values.length index).bind (values[·]?) := by
  simp only [Shell.element?, held, readPlace?, Option.bind_assoc, ← elementAt?_eq]

/-- The place of the element that is removed at an index. -/
def removedPlace? (length : Nat) (index : String) : Option Nat :=
  (Numeral.natural? index.toList).filter (· < length)

/-- An index without blanks around it and without a minus sign. -/
def IsDirect (index : String) : Prop :=
  Blank.trim index.toList = index.toList ∧ index.toList.head? ≠ some '-'
deriving Decidable

section
variable {length place : Nat} {index : String}

private theorem readPlace?_eq_some_iff :
    readPlace? length index = some place ↔
      ∃ number, Numeral.integer? (Blank.trim index.toList) = some number ∧ place < length ∧
        (number = place ∨ number = place - (length : Int)) := by
  simp only [readPlace?, Option.bind_eq_some_iff, placeAt?_eq_some_iff]

private theorem removedPlace?_eq_some_iff :
    removedPlace? length index = some place ↔
      Numeral.natural? index.toList = some place ∧ place < length := by
  simp [removedPlace?, Option.filter_eq_some_iff]

private theorem removedPlace?_iff_readPlace? (small : (length : Int) ≤ Int64.maxValue.toInt) :
    removedPlace? length index = some place ↔
      IsDirect index ∧ readPlace? length index = some place := by
  have least : Int64.minValue.toInt ≤ 0 := by decide
  have most : Int64.maxValue.toInt < (UInt64.size : Nat) := by decide
  rw [removedPlace?_eq_some_iff, readPlace?_eq_some_iff]
  constructor
  · rintro ⟨natural, inside⟩
    obtain ⟨spells, noMinus, -⟩ := Numeral.natural?_eq_some_iff.mp natural
    have bare := Numeral.trim_of_spells spells
    have range : Int64.minValue.toInt ≤ place ∧ (place : Int) ≤ Int64.maxValue.toInt := by omega
    refine ⟨⟨bare, noMinus⟩, place, ?_, inside, .inl rfl⟩
    rw [bare]
    exact Numeral.integer?_eq_some_iff.mpr ⟨spells, range⟩
  · rintro ⟨⟨bare, noMinus⟩, number, integer, inside, counted⟩
    rw [bare] at integer
    obtain ⟨spells, range⟩ := Numeral.integer?_eq_some_iff.mp integer
    have nonneg := Numeral.nonneg_of_spells spells noMinus
    obtain rfl : number = place := by omega
    exact ⟨Numeral.natural?_eq_some_iff.mpr ⟨spells, noMinus, by omega⟩, inside⟩

/-- Reading and removing agree on the indices that are direct; at the others nothing is removed. -/
theorem removedPlace?_eq (small : (length : Int) ≤ Int64.maxValue.toInt) :
    removedPlace? length index = if IsDirect index then readPlace? length index else none := by
  ext place
  have agree := @removedPlace?_iff_readPlace? length place index small
  by_cases direct : IsDirect index
  · simpa [direct] using agree
  · simpa [direct] using agree

end

namespace Shell

variable {shell : Shell} {values : List String}

private theorem unsetElement_of_array (held : shell.arrays[array]? = some values) (index : String) :
    shell.unsetElement array index.toList =
      match removedPlace? values.length index with
      | some place => { shell with arrays := shell.arrays.insert array (values.eraseIdx place) }
      | none => shell := by
  rw [unsetElement, held, removedPlace?]
  cases Numeral.natural? index.toList with
  | none => rfl
  | some place =>
    by_cases inside : place < values.length
    · simp [Option.filter, inside]
    · simp [Option.filter, inside]

end Shell

namespace Builtin

variable {m : Type → Type} [Monad m] [LawfulMonad m] {shell : Shell} {values : List String}

private theorem run_unset_elementName (host : Host m) (run? : Option (String → Action m Flow))
    (plain : '[' ∉ array.toList) (index : String) :
    (Builtin.unset.perform host run? [elementName array index]).run shell =
      pure (.ok (.report {}), shell.unsetElement array index.toList) := by
  rw [← Shell.unsetAll_elementName shell plain index]
  exact Action.run_modify_bind ..

/-- What an index reads is what is removed at it if the index is direct, and at every other index
nothing is removed. An array is never longer than the greatest index. -/
theorem unset_removes_read_element (host : Host m) (run? : Option (String → Action m Flow))
    (plain : '[' ∉ array.toList) (held : shell.arrays[array]? = some values)
    (small : (values.length : Int) ≤ Int64.maxValue.toInt) (index : String) :
    let element := elementName array index
    let unset := (Builtin.unset.perform host run? [element]).run shell
    (∀ place, readPlace? values.length index = some place →
      place < values.length ∧ shell.scalar? element = values[place]? ∧
      unset = pure (.ok (.report {}),
        if IsDirect index then
          { shell with arrays := shell.arrays.insert array (values.eraseIdx place) }
        else shell)) ∧
    (readPlace? values.length index = none →
      shell.scalar? element = none ∧ unset = pure (.ok (.report {}), shell)) := by
  intro element unset
  have reads : shell.scalar? element = (readPlace? values.length index).bind (values[·]?) := by
    rw [Shell.scalar?_elementName shell plain, Shell.element?_of_array held]
  have removes : unset = pure (.ok (.report {}), shell.unsetElement array index.toList) :=
    run_unset_elementName host run? plain index
  rw [Shell.unsetElement_of_array held, removedPlace?_eq small] at removes
  constructor
  · intro place found
    rw [reads, removes, found]
    refine ⟨lt_of_readPlace? found, rfl, ?_⟩
    by_cases direct : IsDirect index
    · rw [if_pos direct, if_pos direct]
    · rw [if_neg direct, if_neg direct]
  · intro missing
    rw [reads, removes, missing, ite_self]
    exact ⟨rfl, rfl⟩

/-- An index with a plus sign and a zero in front. -/
theorem unset_removes_read_element_plus :
    let host : Host Id := ⟨fun _ => .ok [], fun _ => .ok ""⟩
    let shell : Shell := { arrays := .ofList [("a", ["p", "q", "r"])] }
    '[' ∉ "a".toList ∧ shell.arrays["a"]? = some ["p", "q", "r"] ∧
      ((["p", "q", "r"].length : Nat) : Int) ≤ Int64.maxValue.toInt ∧
      shell.scalar? (elementName "a" "+01") = some "q" ∧
      (Builtin.unset.perform host none [elementName "a" "+01"] : Action Id _).run shell =
        (.ok (.report {}), { shell with arrays := shell.arrays.insert "a" ["p", "r"] }) := by
  intro host shell
  have plain : '[' ∉ "a".toList := by decide
  have held : shell.arrays["a"]? = some ["p", "q", "r"] := by decide +kernel
  have small : ((["p", "q", "r"].length : Nat) : Int) ≤ Int64.maxValue.toInt := by decide
  have direct : IsDirect "+01" := by decide +kernel
  obtain ⟨-, read, removed⟩ :=
    (unset_removes_read_element host none plain held small "+01").1 1 (by decide +kernel)
  rw [if_pos direct] at removed
  exact ⟨plain, held, small, read, removed⟩

/-- The last element is read at minus one, and is not removed there. -/
theorem unset_keeps_last_element :
    let host : Host Id := ⟨fun _ => .ok [], fun _ => .ok ""⟩
    let shell : Shell := { arrays := .ofList [("a", ["p", "q"])] }
    readPlace? 2 "-1" = some 1 ∧ shell.scalar? "a[-1]" = some "q" ∧
      ((Builtin.unset.perform host none ["a[-1]"] : Action Id _).run shell).2.arrays["a"]? =
        some ["p", "q"] ∧
      ["p", "q"] ≠ ["p", "q"].eraseIdx 1 := by
  decide +kernel

end Builtin

/-- A numeral of zero or minus one that is not the shortest. -/
def IsLong (index : String) : Prop :=
  (IsZero (Blank.trim index.toList) ∨ IsMinusOne (Blank.trim index.toList)) ∧
    Blank.trim index.toList ≠ ['0'] ∧ Blank.trim index.toList ≠ ['-', '1']

private theorem isZero_shortest : IsZero ['0'] := ⟨[], by simp, 0, rfl⟩

private theorem isMinusOne_shortest : IsMinusOne ['-', '1'] := ⟨0, rfl⟩

private theorem elementAt?_singleton (value : String) (index : Int) :
    Shell.elementAt? [value] index = if index = 0 ∨ index = -1 then some value else none := by
  unfold Shell.elementAt?
  grind

private theorem integer?_bind_elementAt? {value found : String} {text : List Char} :
    (Numeral.integer? text).bind (Shell.elementAt? [value]) = some found ↔
      (IsZero text ∨ IsMinusOne text) ∧ value = found := by
  have zero : Int64.minValue.toInt ≤ 0 ∧ 0 ≤ Int64.maxValue.toInt := by decide
  have minusOne : Int64.minValue.toInt ≤ -1 ∧ -1 ≤ Int64.maxValue.toInt := by decide
  rw [Option.bind_eq_some_iff]
  simp only [Numeral.integer?_eq_some_iff, elementAt?_singleton, Option.ite_none_right_eq_some,
    Option.some.injEq, ← Numeral.spells_zero_iff, ← Numeral.spells_minusOne_iff]
  constructor
  · rintro ⟨number, ⟨spells, -⟩, rfl | rfl, same⟩
    · exact ⟨.inl spells, same⟩
    · exact ⟨.inr spells, same⟩
  · rintro ⟨spells | spells, same⟩
    · exact ⟨0, ⟨spells, zero⟩, .inl rfl, same⟩
    · exact ⟨-1, ⟨spells, minusOne⟩, .inr rfl, same⟩

namespace Shell

variable (shell : Shell) (value : String)

private theorem element?_setScalar (index : List Char) :
    (shell.setScalar name value).element? name index =
      if Blank.trim index = ['0'] ∨ Blank.trim index = ['-', '1'] then some value else none := by
  simp [element?, setScalar]

private theorem element?_setArray (index : List Char) :
    (shell.setArray name [value]).element? name index =
      (Numeral.integer? (Blank.trim index)).bind (elementAt? [value]) := by
  simp [element?, setArray]

private theorem named?_setScalar : (shell.setScalar name value).named? name = some value := by
  simp [named?, setScalar]

private theorem named?_setArray : (shell.setArray name [value]).named? name = some value := by
  simp [named?, setArray]

private theorem array?_setScalar : (shell.setScalar name value).array? name = some [value] := by
  simp [array?, setScalar]

private theorem array?_setArray : (shell.setArray name [value]).array? name = some [value] := by
  simp [array?, setArray]

/-- Whether a value is assigned as a scalar or as an array of one element makes no difference to
the variable and to its elements, except where the index is a numeral that could be shorter: there
the scalar has no element. -/
theorem scalar_reads_as_singleton (valid : Name.isValid name.toList = true) :
    let scalar := shell.setScalar name value
    let single := shell.setArray name [value]
    (scalar.scalar? name = some value ∧ single.scalar? name = some value) ∧
      (scalar.array? name = some [value] ∧ single.array? name = some [value]) ∧
      ∀ index,
        (¬IsLong index →
          scalar.scalar? (elementName name index) = single.scalar? (elementName name index)) ∧
        (IsLong index →
          scalar.scalar? (elementName name index) = none ∧
          single.scalar? (elementName name index) = some value) := by
  intro scalar single
  have plain := bracket_not_mem_of_isValid valid
  have scalarNamed : scalar.scalar? name = some value := by
    rw [scalar?_of_isValid scalar valid]
    exact named?_setScalar shell value
  have singleNamed : single.scalar? name = some value := by
    rw [scalar?_of_isValid single valid]
    exact named?_setArray shell value
  refine ⟨⟨scalarNamed, singleNamed⟩, ⟨array?_setScalar shell value, array?_setArray shell value⟩,
    fun index => ?_⟩
  rw [scalar?_elementName scalar plain, scalar?_elementName single plain, element?_setScalar,
    element?_setArray]
  constructor
  · intro notLong
    by_cases shortest : Blank.trim index.toList = ['0'] ∨ Blank.trim index.toList = ['-', '1']
    · have numeral : IsZero (Blank.trim index.toList) ∨ IsMinusOne (Blank.trim index.toList) := by
        rcases shortest with zero | minusOne
        · exact .inl (zero ▸ isZero_shortest)
        · exact .inr (minusOne ▸ isMinusOne_shortest)
      rw [if_pos shortest, integer?_bind_elementAt?.mpr ⟨numeral, rfl⟩]
    · have missing :
          (Numeral.integer? (Blank.trim index.toList)).bind (elementAt? [value]) = none := by
        rw [Option.eq_none_iff_forall_not_mem]
        intro found read
        exact notLong ⟨(integer?_bind_elementAt?.mp read).1, not_or.mp shortest⟩
      rw [if_neg shortest, missing]
  · rintro ⟨numeral, notShortest⟩
    exact ⟨if_neg (not_or.mpr notShortest), integer?_bind_elementAt?.mpr ⟨numeral, rfl⟩⟩

/-- Blanks make no difference, but a zero in front does. -/
theorem scalar_reads_as_singleton_blanks :
    let scalar := ({} : Shell).setScalar "x" "v"
    let single := ({} : Shell).setArray "x" ["v"]
    Name.isValid "x".toList = true ∧ scalar.scalar? "x" = some "v" ∧
      scalar.array? "x" = single.array? "x" ∧
      scalar.scalar? (elementName "x" " -1 ") = single.scalar? (elementName "x" " -1 ") ∧
      scalar.scalar? (elementName "x" "-01") = none ∧
      single.scalar? (elementName "x" "-01") = some "v" := by
  intro scalar single
  have valid : Name.isValid "x".toList = true := by decide
  obtain ⟨⟨named, -⟩, ⟨all, all'⟩, elements⟩ := scalar_reads_as_singleton {} "v" valid
  have short : ¬IsLong " -1 " := fun ⟨_, _, notMinusOne⟩ => notMinusOne (by decide +kernel)
  have long : IsLong "-01" := ⟨.inr ⟨1, by decide +kernel⟩, by decide +kernel, by decide +kernel⟩
  exact ⟨valid, named, all.trans all'.symm, (elements " -1 ").1 short, (elements "-01").2 long⟩

/-- A plus sign in front of a zero. -/
theorem scalar_reads_no_plus :
    let scalar := ({} : Shell).setScalar "x" "v"
    let single := ({} : Shell).setArray "x" ["v"]
    Name.isValid "x".toList = true ∧
      scalar.scalar? "x[+0]" = none ∧ single.scalar? "x[+0]" = some "v" := by
  decide +kernel

end Shell

end PolicyShell
