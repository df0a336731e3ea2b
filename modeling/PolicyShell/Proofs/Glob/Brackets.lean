import PolicyShell.Proofs.Glob.Reading
import PolicyShell.Proofs.Text.Runs

/-! Where a bracket expression ends, and which characters it stands for. -/
namespace PolicyShell.Glob

namespace Bracket

/-- A bracket expression is closed: whether it is negated, what stands in it, and the text behind
it. `text` begins behind the opening bracket. The first character in it does not close it. -/
inductive Closes : (text : List Char) → (negated : Bool) → (body after : List Char) → Prop where
  | plain {first : Char} {middle after : List Char} (sign : isNegation first = false)
      (inside : ']' ∉ middle) :
      Closes (first :: (middle ++ ']' :: after)) false (first :: middle) after
  | negated {sign first : Char} {middle after : List Char} (negates : isNegation sign = true)
      (inside : ']' ∉ middle) :
      Closes (sign :: first :: (middle ++ ']' :: after)) true (first :: middle) after

private theorem exists_of_closed? {text body after : List Char}
    (closed : body?.closed? text = some (body, after)) :
    ∃ first middle, body = first :: middle ∧ ']' ∉ middle ∧
      text = first :: (middle ++ ']' :: after) := by
  cases text with
  | nil => cases closed
  | cons first rest =>
    rcases plain_or_cut (· == ']') rest with absent | ⟨middle, c, after', whole, closes, inside⟩
    · have none : ']' ∉ (first :: rest).tail := fun member => by simpa using absent _ member
      rw [closed?_of_not_mem none] at closed
      cases closed
    · have inside' : ']' ∉ middle := fun member => by simpa using inside _ member
      obtain rfl : c = ']' := by simpa using closes
      rw [whole, closed?_append_cons first inside'] at closed
      cases closed
      exact ⟨first, middle, rfl, inside', whole ▸ rfl⟩

/-- The scanner of bracket expressions finds just the closed ones. -/
theorem body?_eq_some_iff {text body after : List Char} {negated : Bool} :
    body? text = some (negated, body, after) ↔ Closes text negated body after := by
  constructor
  · intro found
    cases text with
    | nil => cases found
    | cons c rest =>
      rw [body?_cons] at found
      by_cases negates : isNegation c
      · rw [if_pos negates] at found
        obtain ⟨⟨body, after⟩, closed, same⟩ := Option.map_eq_some_iff.mp found
        cases same
        obtain ⟨first, middle, rfl, inside, rfl⟩ := exists_of_closed? closed
        exact .negated negates inside
      · rw [if_neg negates] at found
        obtain ⟨⟨body, after⟩, closed, same⟩ := Option.map_eq_some_iff.mp found
        cases same
        obtain ⟨first, middle, rfl, inside, whole⟩ := exists_of_closed? closed
        cases whole
        exact .plain (by simpa using negates) inside
  · intro closes
    cases closes with
    | plain sign inside =>
      rw [body?_cons, if_neg (by simp [sign]), closed?_append_cons _ inside]
      rfl
    | negated negates inside =>
      rw [body?_cons, if_pos negates, closed?_append_cons _ inside]
      rfl

theorem body?_eq_none_iff {text : List Char} :
    body? text = none ↔ ∀ negated body after, ¬ Closes text negated body after := by
  constructor
  · intro opened negated body after closes
    rw [body?_eq_some_iff.mpr closes] at opened
    cases opened
  · intro opened
    cases found : body? text with
    | none => rfl
    | some read =>
      obtain ⟨negated, body, after⟩ := read
      exact absurd (body?_eq_some_iff.mp found) (opened negated body after)

end Bracket

namespace Mark

/-- Neither a range nor a doubled dash begins here. -/
def isSingle : List Mark → Bool
  | .dash :: .dash :: _ => false
  | .member _ :: .dash :: .member _ :: _ => false
  | _ => true

/-- Marks before any doubled dash stand for a character, which is one of them or lies in a
range. -/
inductive Include (c : Char) : List Mark → Prop where
  | range {low high : Char} {rest : List Mark} (above : low ≤ c) (below : c ≤ high) :
      Include c (.member low :: .dash :: .member high :: rest)
  | afterRange {low high : Char} {rest : List Mark} (later : Include c rest) :
      Include c (.member low :: .dash :: .member high :: rest)
  | single {mark : Mark} {rest : List Mark} (alone : isSingle (mark :: rest) = true)
      (same : mark.char = c) : Include c (mark :: rest)
  | afterSingle {mark : Mark} {rest : List Mark} (alone : isSingle (mark :: rest) = true)
      (later : Include c rest) : Include c (mark :: rest)

/-- Marks behind a doubled dash stand for a character. -/
inductive Exclude (c : Char) : List Mark → Prop where
  | difference {rest : List Mark} (later : Include c rest) : Exclude c (.dash :: .dash :: rest)
  | afterDifference {rest : List Mark} (later : Exclude c rest) :
      Exclude c (.dash :: .dash :: rest)
  | afterRange {low high : Char} {rest : List Mark} (later : Exclude c rest) :
      Exclude c (.member low :: .dash :: .member high :: rest)
  | afterSingle {mark : Mark} {rest : List Mark} (alone : isSingle (mark :: rest) = true)
      (later : Exclude c rest) : Exclude c (mark :: rest)

section
variable {c low high : Char} {mark : Mark} {rest : List Mark}

private theorem include_difference : ¬ Include c (.dash :: .dash :: rest) := by
  intro included
  cases included with
  | single alone => cases alone
  | afterSingle alone => cases alone

private theorem include_range_iff :
    Include c (.member low :: .dash :: .member high :: rest) ↔
      low ≤ c ∧ c ≤ high ∨ Include c rest := by
  constructor
  · intro included
    cases included with
    | range above below => exact .inl ⟨above, below⟩
    | afterRange later => exact .inr later
    | single alone => cases alone
    | afterSingle alone => cases alone
  · rintro (⟨above, below⟩ | later)
    · exact .range above below
    · exact .afterRange later

private theorem include_single_iff (alone : isSingle (mark :: rest) = true) :
    Include c (mark :: rest) ↔ mark.char = c ∨ Include c rest := by
  constructor
  · intro included
    cases included with
    | range => cases alone
    | afterRange => cases alone
    | single _ same => exact .inl same
    | afterSingle _ later => exact .inr later
  · rintro (same | later)
    · exact .single alone same
    · exact .afterSingle alone later

private theorem exclude_difference_iff :
    Exclude c (.dash :: .dash :: rest) ↔ Include c rest ∨ Exclude c rest := by
  constructor
  · intro excluded
    cases excluded with
    | difference later => exact .inl later
    | afterDifference later => exact .inr later
    | afterSingle alone => cases alone
  · rintro (later | later)
    · exact .difference later
    · exact .afterDifference later

private theorem exclude_range_iff :
    Exclude c (.member low :: .dash :: .member high :: rest) ↔ Exclude c rest := by
  constructor
  · intro excluded
    cases excluded with
    | afterRange later => exact later
    | afterSingle alone => cases alone
  · exact .afterRange

private theorem exclude_single_iff (alone : isSingle (mark :: rest) = true) :
    Exclude c (mark :: rest) ↔ Exclude c rest := by
  constructor
  · intro excluded
    cases excluded with
    | difference => cases alone
    | afterDifference => cases alone
    | afterRange => cases alone
    | afterSingle _ later => exact later
  · exact .afterSingle alone

end

end Mark

namespace Bracket

/-- A character is in the class of a bracket expression: the marks before any doubled dash stand
for it, and those behind one do not. -/
def InClass (c : Char) (body : List Char) : Prop :=
  Mark.Include c (Mark.ofBody body) ∧ ¬ Mark.Exclude c (Mark.ofBody body)

/-- The ranges that marks are read as hold the characters that the marks stand for. -/
theorem has_iff_of_ranges? {c : Char} {marks : List Mark} {included : List CharRange}
    {excluded : List (List CharRange)} (read : ranges? marks = some (included, excluded)) :
    (has included c = true ↔ Mark.Include c marks) ∧
      (excluded.any (has · c) = true ↔ Mark.Exclude c marks) := by
  fun_induction ranges? marks generalizing included excluded with
  | case1 =>
    cases read
    exact ⟨⟨nofun, nofun⟩, ⟨nofun, nofun⟩⟩
  | case2 rest ih =>
    obtain ⟨⟨inner, others⟩, later, same⟩ := Option.map_eq_some_iff.mp read
    cases same
    obtain ⟨inside, outside⟩ := ih later
    rw [Mark.exclude_difference_iff, ← inside, ← outside]
    simp [has, Mark.include_difference]
  | case3 low high rest ascending ih =>
    obtain ⟨⟨inner, others⟩, later, same⟩ := Option.map_eq_some_iff.mp read
    cases same
    obtain ⟨inside, outside⟩ := ih later
    rw [Mark.include_range_iff, Mark.exclude_range_iff, ← inside, ← outside]
    simp [has, CharRange.contains]
  | case4 => cases read
  | case5 mark rest noDifference noRange ih =>
    obtain ⟨⟨inner, others⟩, later, same⟩ := Option.map_eq_some_iff.mp read
    cases same
    obtain ⟨inside, outside⟩ := ih later
    have alone : Mark.isSingle (mark :: rest) = true := by
      unfold Mark.isSingle
      split <;> simp_all
    have itself : mark.char ≤ c ∧ c ≤ mark.char ↔ mark.char = c := by
      constructor
      · intro ⟨below, above⟩
        exact Char.le_antisymm below above
      · intro same
        exact same ▸ ⟨Char.le_refl _, Char.le_refl _⟩
    rw [Mark.include_single_iff alone, Mark.exclude_single_iff alone, ← inside, ← outside]
    simp [has, CharRange.contains, itself]

/-- A bracket that was read from a body holds the characters of its class, or all others if it is
negated. -/
theorem contains_iff_of_ofBody? {negated : Bool} {body : List Char} {bracket : Bracket}
    (read : ofBody? negated body = some bracket) (c : Char) :
    bracket.contains c = true ↔ (InClass c body ↔ negated = false) := by
  obtain ⟨⟨included, excluded⟩, ranges, rfl⟩ := Option.map_eq_some_iff.mp read
  obtain ⟨inside, outside⟩ := has_iff_of_ranges? (c := c) ranges
  rw [InClass, ← inside, ← outside, contains]
  cases has included c <;> cases excluded.any (has · c) <;> cases negated <;> simp

end Bracket

end PolicyShell.Glob
