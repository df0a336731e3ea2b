import Mathlib.Data.List.Chain
import PolicyShell.Glob.Segment
import PolicyShell.Proofs.Glob.Brackets
import PolicyShell.Proofs.Glob.Memory
import PolicyShell.Proofs.Glob.Spelling

/-! The ranges that a bracket expression spells, read from left to right, and the pattern that is
made of one alone. -/
namespace PolicyShell.Glob

namespace Bracket

/-- The ranges of a body. A dash between two characters joins them, and any other character is a
range by itself. -/
def spelledRanges : List Char → List CharRange
  | low :: '-' :: high :: rest => (low, high) :: spelledRanges rest
  | c :: rest => (c, c) :: spelledRanges rest
  | [] => []

private theorem length_spelledRanges_le (body : List Char) :
    (spelledRanges body).length ≤ body.length := by
  fun_induction spelledRanges body with
  | case1 low high rest ih =>
    simp only [List.length_cons]
    omega
  | case2 c rest noRange ih => exact Nat.succ_le_succ ih
  | case3 => exact Nat.le_refl 0

/-- The bracket that holds these ranges only. -/
def spelled (negated : Bool) (body : List Char) : Bracket := ⟨negated, spelledRanges body, []⟩

/-- No range descends. -/
def Ascending (ranges : List CharRange) : Prop := ∀ range ∈ ranges, range.1 ≤ range.2

instance (ranges : List CharRange) : Decidable (Ascending ranges) :=
  inferInstanceAs (Decidable (∀ range ∈ ranges, range.1 ≤ range.2))

private theorem ascending_cons_iff {range : CharRange} {ranges : List CharRange} :
    Ascending (range :: ranges) ↔ range.1 ≤ range.2 ∧ Ascending ranges := List.forall_mem_cons

private theorem not_ascending_iff {ranges : List CharRange} :
    ¬ Ascending ranges ↔ ∃ range ∈ ranges, range.2 < range.1 := by
  simp [Ascending]

end Bracket

namespace Mark

variable {c : Char} {mark : Mark} {marks : List Mark} {text : List Char}

/-- A dash is a mark of its own only if something follows it. -/
theorem following_cons (c : Char) (text : List Char) :
    following (c :: text) = (if c = '-' ∧ text ≠ [] then dash else member c) :: following text := by
  cases text with
  | nil => simp [following]
  | cons next rest => simp [following]

theorem exists_following_cons (c : Char) (text : List Char) :
    ∃ mark, following (c :: text) = mark :: following text ∧ mark.char = c := by
  rw [following_cons]
  split
  · rename_i inner
    exact ⟨dash, rfl, inner.1.symm⟩
  · exact ⟨member c, rfl, rfl⟩

/-- No two dashes stand side by side. -/
def Apart (marks : List Mark) : Prop :=
  marks.IsChain fun mark next => ¬ (mark = dash ∧ next = dash)

/-- Marks that a text is read as. The first of them may be any mark for its character. -/
inductive Written : List Mark → List Char → Prop where
  | nil : Written [] []
  | cons (mark : Mark) (text : List Char) : Written (mark :: following text) (mark.char :: text)

private theorem written_following (text : List Char) : Written (following text) text := by
  cases text with
  | nil => exact .nil
  | cons c rest =>
    obtain ⟨mark, behind, rfl⟩ := exists_following_cons c rest
    rw [behind]
    exact .cons mark rest

private theorem written_ofBody (body : List Char) : Written (ofBody body) body := by
  cases body with
  | nil => exact .nil
  | cons first rest => exact .cons (member first) rest

theorem apart_following (single : ¬ ['-', '-'] <:+: text.dropLast) : Apart (following text) := by
  induction text with
  | nil => exact List.isChain_nil
  | cons c rest ih =>
    cases rest with
    | nil => exact List.isChain_singleton _
    | cons next later =>
      have behind : Apart (following (next :: later)) :=
        ih fun inside => single (inside.trans (List.suffix_cons ..).isInfix)
      rw [Apart, following_cons c, following_cons next, List.isChain_cons_cons, ← following_cons]
      refine ⟨fun both => single ?_, behind⟩
      have first : c = '-' := by
        by_contra other
        simp [other] at both
      have second : next = '-' ∧ later ≠ [] := by
        by_contra other
        simp [other] at both
      obtain ⟨last, rest, rfl⟩ := List.exists_cons_of_ne_nil second.2
      rw [first, second.1]
      exact ⟨[], (last :: rest).dropLast, rfl⟩

private theorem apart_ofBody {body : List Char} (single : ¬ ['-', '-'] <:+: body.tail.dropLast) :
    Apart (ofBody body) := by
  cases body with
  | nil => exact List.isChain_nil
  | cons first rest =>
    have behind : Apart (following rest) := apart_following single
    cases written : following rest with
    | nil =>
      rw [ofBody, written]
      exact List.isChain_singleton _
    | cons mark marks =>
      rw [Apart, ofBody, written, List.isChain_cons_cons, ← written]
      exact ⟨fun both => Mark.noConfusion both.1, behind⟩

end Mark

namespace Bracket

open PolicyShell.Glob.Mark (Apart Written exists_following_cons following following_cons
  written_following written_ofBody apart_ofBody)

/-- A mark with no dash behind it is a range by itself. -/
theorem ranges?_cons {mark : Mark} {marks : List Mark} (joined : ∀ rest, marks ≠ .dash :: rest) :
    ranges? (mark :: marks) =
      (ranges? marks).map fun (included, excluded) =>
        ((mark.char, mark.char) :: included, excluded) := by
  rw [ranges?]
  · exact fun rest _ same => joined rest same
  · exact fun low high rest _ same => joined _ same

/-- Without two dashes side by side, marks are read as the ranges of their text. -/
theorem ranges?_of_written {marks : List Mark} {text : List Char} (written : Written marks text)
    (apart : Apart marks) :
    ranges? marks =
      if Ascending (spelledRanges text) then some (spelledRanges text, []) else none := by
  fun_induction spelledRanges text generalizing marks with
  | case1 low high rest ih =>
    cases written with | cons mark =>
    obtain ⟨next, behind, same⟩ := exists_following_cons high rest
    have dashed : following ('-' :: high :: rest) = .dash :: next :: following rest := by
      rw [following_cons, if_pos (by simp), behind]
    rw [dashed] at apart ⊢
    -- A dash stands between them, so that neither mark is one.
    obtain ⟨before, behindMark⟩ := List.isChain_cons_cons.mp apart
    obtain ⟨after, behindDash⟩ := List.isChain_cons_cons.mp behindMark
    cases mark with
    | dash => exact absurd ⟨rfl, rfl⟩ before
    | member low =>
      cases next with
      | dash => exact absurd ⟨rfl, rfl⟩ after
      | member high' =>
        obtain rfl : high' = high := same
        have later := ih (written_following rest) behindDash.of_cons
        by_cases ascends : low ≤ high' <;>
          by_cases ascending : Ascending (spelledRanges rest) <;>
          simp [ranges?, ascending_cons_iff, later, ascends, ascending, Mark.char]
  | case2 c rest noRange ih =>
    cases written with | cons mark =>
    -- A dash behind the character has nothing behind it, which makes it a member.
    have joined : ∀ marks, following rest ≠ .dash :: marks := by
      intro marks dashed
      cases rest with
      | nil => cases dashed
      | cons next later =>
        rw [following_cons] at dashed
        split at dashed
        · rename_i inner
          obtain ⟨high, later, rfl⟩ := List.exists_cons_of_ne_nil inner.2
          exact noRange high later (by rw [inner.1])
        · cases dashed
    have later := ih (written_following rest) apart.of_cons
    rw [ranges?_cons joined, later]
    by_cases ascending : Ascending (spelledRanges rest) <;>
      simp [ascending_cons_iff, ascending]
  | case3 =>
    cases written
    rfl

private theorem ofBody?_eq (negated : Bool) {body : List Char}
    (single : ¬ ['-', '-'] <:+: body.tail.dropLast) :
    ofBody? negated body =
      if Ascending (spelledRanges body) then some (spelled negated body) else none := by
  rw [ofBody?, ranges?_of_written (written_ofBody body) (apart_ofBody single)]
  split <;> rfl

private theorem contains_spelled_iff (negated : Bool) (body : List Char) (c : Char) :
    (spelled negated body).contains c = true ↔
      ((∃ range ∈ spelledRanges body, range.1 ≤ c ∧ c ≤ range.2) ↔ negated = false) := by
  have found : has (spelledRanges body) c = true ↔
      ∃ range ∈ spelledRanges body, range.1 ≤ c ∧ c ≤ range.2 := by
    simp [has, CharRange.contains]
  rw [← found, contains, spelled]
  cases has (spelledRanges body) c <;> cases negated <;> simp

theorem depth_spelled_le (negated : Bool) (body : List Char) : (spelled negated body).depth ≤ 2 := by
  rw [depth, rangesDepth]
  split <;> simp [spelled]

end Bracket

namespace Segment

open PolicyShell.Glob.Bracket (Closes spelledRanges spelled Ascending)

section
variable {inner body : List Char} {negated : Bool}

/-- A bracket expression alone is compiled to the bracket of its body. -/
theorem compile?_bracket (closes : Closes inner negated body []) :
    compile? ('[' :: inner) = (Bracket.ofBody? negated body).bind fun bracket =>
      if withinLimits [.oneOf bracket] then some (.pattern [.oneOf bracket] false) else none := by
  have syntactic : hasMeta ('[' :: inner) = true := by
    rw [hasMeta_cons fun same => absurd same (by decide)]
    rfl
  rw [compile?, if_pos syntactic, Item.read?_oneOf (Bracket.body?_eq_some_iff.mpr closes)]
  cases Bracket.ofBody? negated body with
  | none => rfl
  | some bracket =>
    by_cases limits : withinLimits [.oneOf bracket] = true
    · simp [limits, Option.filter_some, startsWithDot]
    · simp [limits, Option.filter_some]

/-- It is none if a range descends or takes too much memory. -/
theorem compile?_spelled (closes : Closes inner negated body [])
    (single : ¬ ['-', '-'] <:+: body.tail.dropLast) :
    compile? ('[' :: inner) =
      if Ascending (spelledRanges body) ∧ size [.oneOf (spelled negated body)] ≤ sizeLimit then
        some (.pattern [.oneOf (spelled negated body)] false)
      else none := by
  have shallow : (spelled negated body).depth + 2 ≤ depthLimit :=
    Nat.add_le_add_right ((Bracket.depth_spelled_le negated body).trans (by decide)) 2
  rw [compile?_bracket closes, Bracket.ofBody?_eq negated single]
  by_cases ascending : Ascending (spelledRanges body)
  · simp [ascending, withinLimits_oneOf shallow]
  · simp [ascending]

/-- Short bracket expressions do not reach the limit. -/
theorem size_le_sizeLimit (negated : Bool) (short : body.length ≤ 512) :
    size [.oneOf (spelled negated body)] ≤ sizeLimit := by
  refine size_oneOf_le ?_
  rw [spelled, List.flatten_singleton]
  exact (Bracket.length_spelledRanges_le body).trans short

/-- A pattern that is a bracket expression alone stands for the characters of its ranges, or for
all others, unless two dashes stand side by side between the first and the last character. -/
theorem bracket_stands_for_ranges (closes : Closes inner negated body [])
    (single : ¬ ['-', '-'] <:+: body.tail.dropLast) :
    (compile? ('[' :: inner) = none ↔
      (∃ range ∈ spelledRanges body, range.2 < range.1) ∨
        sizeLimit < size [.oneOf (spelled negated body)]) ∧
    (body.length ≤ 512 → size [.oneOf (spelled negated body)] ≤ sizeLimit) ∧
    ∀ segment, compile? ('[' :: inner) = some segment → ∀ c, c ≠ '.' →
      (segment.accepts [c] = true ↔
        ((∃ range ∈ spelledRanges body, range.1 ≤ c ∧ c ≤ range.2) ↔ negated = false)) := by
  rw [compile?_spelled closes single]
  refine ⟨?_, size_le_sizeLimit negated, ?_⟩
  · rw [← Bracket.not_ascending_iff, ← Nat.not_le]
    simp [imp_iff_not_or]
  · intro segment found c shown
    obtain ⟨-, same⟩ := Option.ite_none_right_eq_some.mp found
    cases same
    have alone : Item.oneOf (spelled negated body) ≠ .anyText := nofun
    have only : matchItems [.oneOf (spelled negated body)] [c] = true ↔
        (spelled negated body).contains c = true := by
      rw [matchItems_iff, spells_cons_iff alone, spells_nil_iff, and_iff_left rfl, Item.accepts]
    rw [← Bracket.contains_spelled_iff, ← only]
    simp [accepts, shown]

end

/-- A leading closing bracket, a range, a dash behind a range and one at the end, negated. -/
theorem bracket_stands_for_ranges_dash :
    let inner := "!]a-c-e-]".toList
    let body := "]a-c-e-".toList
    Closes inner true body [] ∧ ¬ ['-', '-'] <:+: body.tail.dropLast ∧
      ∃ segment, compile? ('[' :: inner) = some segment ∧ segment.accepts ['d'] = true := by
  intro inner body
  have closes : Closes inner true body [] := Bracket.body?_eq_some_iff.mp (by decide)
  have single : ¬ ['-', '-'] <:+: body.tail.dropLast := by decide +kernel
  obtain ⟨broken, small, accepted⟩ := bracket_stands_for_ranges closes single
  have compiles : compile? ('[' :: inner) ≠ none := by
    intro fails
    rcases broken.mp fails with descends | large
    · exact absurd descends (by decide)
    · exact Nat.not_le.mpr large (small (by decide))
  obtain ⟨segment, compiled⟩ := Option.ne_none_iff_exists'.mp compiles
  have outside := (accepted segment compiled 'd' (by decide)).mpr (by decide)
  exact ⟨closes, single, segment, compiled, outside⟩

/-- What stands behind a doubled dash is taken away, so that a character of the first range is not
accepted. -/
theorem doubled_dash_takes_away :
    let inner := "+--z]".toList
    let body := "+--z".toList
    Closes inner false body [] ∧ Ascending (spelledRanges body) ∧
      (∃ range ∈ spelledRanges body, range.1 ≤ ',' ∧ ',' ≤ range.2) ∧
      ∃ segment, compile? ('[' :: inner) = some segment ∧ segment.accepts [','] = false := by
  intro inner body
  let bracket : Bracket := ⟨false, [('+', '+')], [[('z', 'z')]]⟩
  have closes : Closes inner false body [] := Bracket.body?_eq_some_iff.mp (by decide)
  have read : Bracket.ofBody? false body = some bracket := by decide
  have limits : withinLimits [.oneOf bracket] = true := by
    rw [withinLimits_oneOf (by decide)]
    exact decide_eq_true (size_oneOf_le (by decide))
  have compiled : compile? ('[' :: inner) = some (.pattern [.oneOf bracket] false) := by
    rw [compile?_bracket closes, read, Option.bind_some, if_pos limits]
  exact ⟨closes, by decide, by decide, _, compiled, by decide⟩

end Segment

end PolicyShell.Glob
