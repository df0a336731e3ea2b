/-! Decimal numerals of a fixed range: ASCII digits after an optional sign, refused when the
value does not fit. -/
namespace PolicyShell.Numeral

/-- The value of a nonempty run of digits. -/
def digits? (text : List Char) : Option Nat :=
  if text.isEmpty || !text.all Char.isDigit then none
  else some (text.foldl (fun value c => 10 * value + (c.toNat - '0'.toNat)) 0)

/-- A numeral for a value below 2^64. A plus sign may stand in front. -/
def natural? (text : List Char) : Option Nat :=
  let unsigned := match text with
    | '+' :: rest => digits? rest
    | _ => digits? text
  unsigned.filter (· < UInt64.size)

/-- A numeral for a value of 64 bits in two's complement. Either sign may stand in front. -/
def integer? (text : List Char) : Option Int :=
  let signed := match text with
    | '+' :: rest => (digits? rest).map Int.ofNat
    | '-' :: rest => (digits? rest).map fun value => -Int.ofNat value
    | _ => (digits? text).map Int.ofNat
  signed.filter fun value => Int64.minValue.toInt ≤ value ∧ value ≤ Int64.maxValue.toInt

end PolicyShell.Numeral
