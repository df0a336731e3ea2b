/-! Ranges of characters, as ranges of the digits that their encodings hold. -/
namespace PolicyShell.Utf8

/-- Code points whose encodings have equally many bytes. -/
structure Window where
  first : Nat
  last : Nat
  /-- Digits of base 64 after the first digit, one in each byte. -/
  digits : Nat
  deriving DecidableEq, Repr

/-- All code points. The surrogates between the third and the fourth window are none. -/
def windows : List Window :=
  [⟨0, 0x7F, 0⟩, ⟨0x80, 0x7FF, 1⟩, ⟨0x800, 0xD7FF, 2⟩, ⟨0xE000, 0xFFFF, 2⟩, ⟨0x10000, 0x10FFFF, 3⟩]

/-- First and last number. -/
abbrev Span := Nat × Nat

/-- The numbers of a span, in ascending runs that take every digit from a span of its own. Each
number has `digits` digits after the first. -/
def products : Nat → Span → List (List Span)
  | 0, span => [[span]]
  | digits + 1, (low, high) =>
    let unit := 64 ^ (digits + 1)
    let within (first low high : Nat) : List (List Span) :=
      (products digits (low, high)).map ((first, first) :: ·)
    if low / unit = high / unit then within (low / unit) (low % unit) (high % unit)
    else
      let (before, lowest) := if low % unit = 0 then ([], low / unit)
        else (within (low / unit) (low % unit) (unit - 1), low / unit + 1)
      let (after, beyond) := if high % unit = unit - 1 then ([], high / unit + 1)
        else (within (high / unit) 0 (high % unit), high / unit)
      let whole := if lowest < beyond then
          [(lowest, beyond - 1) :: List.replicate (digits + 1) (0, 63)]
        else []
      before ++ whole ++ after

end PolicyShell.Utf8
