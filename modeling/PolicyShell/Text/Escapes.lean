/-! Backslash escapes in a text to be printed. -/
namespace PolicyShell.Escapes

def isOctal (c : Char) : Bool := '0' ≤ c && c ≤ '7'

def isHex (c : Char) : Bool :=
  c.isDigit || ('a' ≤ c && c ≤ 'f') || ('A' ≤ c && c ≤ 'F')

def digitValue (c : Char) : Nat :=
  if c.isDigit then c.toNat - '0'.toNat
  else if c.isLower then c.toNat - 'a'.toNat + 10
  else c.toNat - 'A'.toNat + 10

/-- The digits at the beginning of a text, at most `width` of them. -/
def leading (isDigit : Char → Bool) (width : Nat) (text : List Char) : List Char :=
  (text.take width).takeWhile isDigit

def codePoint (base : Nat) (digits : List Char) : Char :=
  Char.ofNat (digits.foldl (fun value c => base * value + digitValue c) 0)

/-- What an escaped letter stands for. -/
def named? : Char → Option Char
  | 'n' => some '\n'
  | 't' => some '\t'
  | 'r' => some '\r'
  | '\\' => some '\\'
  | 'a' => some '\x07'
  | 'b' => some '\x08'
  | 'f' => some '\x0c'
  | 'v' => some '\x0b'
  | _ => none

/-- The text with its escapes replaced, and whether `\c` cut it short. An escape that means
nothing stays as it is. -/
def decode (text : List Char) : List Char × Bool :=
  match text with
  | [] => ([], false)
  | ['\\'] => (['\\'], false)
  | '\\' :: 'c' :: _ => ([], true)
  | '\\' :: '0' :: rest =>
    let digits := leading isOctal 3 rest
    let (decoded, stopped) := decode (rest.drop digits.length)
    (codePoint 8 digits :: decoded, stopped)
  | '\\' :: 'x' :: rest =>
    let digits := leading isHex 2 rest
    let (decoded, stopped) := decode (rest.drop digits.length)
    (if digits.isEmpty then '\\' :: 'x' :: decoded else codePoint 16 digits :: decoded, stopped)
  | '\\' :: c :: rest =>
    let (decoded, stopped) := decode rest
    match named? c with
    | some meant => (meant :: decoded, stopped)
    | none => ('\\' :: c :: decoded, stopped)
  | c :: rest =>
    let (decoded, stopped) := decode rest
    (c :: decoded, stopped)
termination_by text.length
decreasing_by all_goals simp only [List.length_cons, List.length_drop]; omega

@[simp] theorem decode_nil : decode [] = ([], false) := by rw [decode]

theorem decode_stop (rest : List Char) : decode ('\\' :: 'c' :: rest) = ([], true) := by
  rw [decode]

end PolicyShell.Escapes
