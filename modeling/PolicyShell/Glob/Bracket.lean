import PolicyShell.Text.Name

/-! Bracket expressions: sets of characters by their members and ranges. A body is translated to
the marks of a class, and what a class stands for is up to the regex library: there a doubled dash
takes what follows it away from all that stands before it. -/
namespace PolicyShell.Glob

/-- What the translation emits for a character of a bracket expression: the character, escaped, or
else a bare dash if it is one that is neither the first nor the last. -/
inductive Mark where
  | member (c : Char)
  | dash
  deriving DecidableEq, Repr

namespace Mark

def char : Mark → Char
  | member c => c
  | dash => '-'

/-- The marks after the first. -/
def following : List Char → List Mark
  | [] => []
  | [last] => [member last]
  | c :: rest => (if c = '-' then dash else member c) :: following rest

def ofBody : List Char → List Mark
  | [] => []
  | first :: rest => member first :: following rest

end Mark

/-- First and last character. -/
abbrev CharRange := Char × Char

namespace CharRange

def contains (range : CharRange) (c : Char) : Bool := range.1 ≤ c && c ≤ range.2

end CharRange

structure Bracket where
  negated : Bool
  included : List CharRange
  /-- Ranges taken away, one list for each doubled dash. -/
  excluded : List (List CharRange)
  deriving DecidableEq, Repr

namespace Bracket

def has (ranges : List CharRange) (c : Char) : Bool := ranges.any (·.contains c)

def contains (bracket : Bracket) (c : Char) : Bool :=
  (has bracket.included c && !bracket.excluded.any (has · c)) != bracket.negated

/-- The ranges up to the first doubled dash, and those after each. No range may descend. This is the
syntax of a class as the regex library has it, which is granted here. -/
def ranges? : List Mark → Option (List CharRange × List (List CharRange))
  | [] => some ([], [])
  | .dash :: .dash :: rest =>
    (ranges? rest).map fun (included, excluded) => ([], included :: excluded)
  | .member low :: .dash :: .member high :: rest =>
    if low ≤ high then
      (ranges? rest).map fun (included, excluded) => ((low, high) :: included, excluded)
    else none
  | mark :: rest =>
    (ranges? rest).map fun (included, excluded) => ((mark.char, mark.char) :: included, excluded)

def ofBody? (negated : Bool) (body : List Char) : Option Bracket :=
  (ranges? (Mark.ofBody body)).map fun (included, excluded) => ⟨negated, included, excluded⟩

/-- What stands between brackets, apart from a negation, and the text after the closing one.
A closing bracket that comes first is a member. `text` begins after the opening bracket. -/
def body? (text : List Char) : Option (Bool × List Char × List Char) :=
  match text with
  | '!' :: inner => (closed? inner).map (true, ·)
  | '^' :: inner => (closed? inner).map (true, ·)
  | _ => (closed? text).map (false, ·)
where
  closed? : List Char → Option (List Char × List Char)
    | ']' :: inner => (Name.upTo? ']' inner).map fun (body, rest) => (']' :: body, rest)
    | inner => Name.upTo? ']' inner

theorem length_lt_of_body? {text body rest : List Char} {negated : Bool}
    (found : body? text = some (negated, body, rest)) : rest.length < text.length := by
  have closed {inner : List Char} (found : body?.closed? inner = some (body, rest)) :
      rest.length < inner.length := by
    unfold body?.closed? at found
    split at found
    · rename_i after
      obtain ⟨⟨members, unread⟩, inside, same⟩ := Option.map_eq_some_iff.mp found
      cases same
      exact Nat.lt_succ_of_lt (Name.length_lt_of_upTo? inside)
    · exact Name.length_lt_of_upTo? found
  unfold body? at found
  split at found
  all_goals
    obtain ⟨inside, read, same⟩ := Option.map_eq_some_iff.mp found
    cases same
  · exact Nat.lt_succ_of_lt (closed read)
  · exact Nat.lt_succ_of_lt (closed read)
  · exact closed read

end Bracket

end PolicyShell.Glob
