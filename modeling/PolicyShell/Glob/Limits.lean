import PolicyShell.Glob.Item
import PolicyShell.Text.Utf8

/-! How large a pattern may be. Patterns are handed to the `regex` library, version 1, which refuses
those whose parts lie too deep in one another, and those whose machine, which reads a name byte by
byte, takes too much memory. How it counts, its two limits and the sizes of the parts of its
machines are granted here: they are its own and nothing in the shell sets them. -/
namespace PolicyShell.Glob

namespace Bracket

/-- Several ranges lie in the set that they form. -/
def rangesDepth (ranges : List CharRange) : Nat := if ranges.length > 1 then 1 else 0

/-- What stands on either side of a doubled dash lies in a difference. -/
def depth (bracket : Bracket) : Nat :=
  bracket.excluded.foldl (fun depth ranges => max depth (rangesDepth ranges) + 1)
    (rangesDepth bracket.included) + 1

end Bracket

def Item.depth : Item → Nat
  | char _ | anyChar => 0
  | anyText => 1
  | oneOf bracket => bracket.depth

/-- Two levels lie around all items, and one more if there are several of them. -/
def depth (items : List Item) : Nat :=
  (items.map Item.depth).foldl max 0 + if items.length > 1 then 3 else 2

/-- So deep the regex library lets parts lie in one another. -/
def depthLimit : Nat := 250

/-- The bytes of a state of a machine of the regex library. -/
def stateSize : Nat := 32

/-- The bytes of a way out of its states that reads a byte. -/
def readingSize : Nat := 8

/-- The bytes of a way out of its states that reads nothing. -/
def branchSize : Nat := 4

namespace Bracket

open Utf8 (Span Window)

/-- The numbers for which `holds`, which changes at the `bounds` only, as spans that do not touch.
No number is asked for after the last bound. -/
def spansWhere (holds : Nat → Bool) : List Nat → List Span
  | low :: next :: bounds =>
    if !holds low then spansWhere holds (next :: bounds)
    else match spansWhere holds (next :: bounds) with
      | (first, last) :: spans =>
        if first = next then (low, last) :: spans else (low, next - 1) :: (first, last) :: spans
      | [] => [(low, next - 1)]
  | _ => []

/-- The characters of a bracket expression in a window. -/
def spans (bracket : Bracket) (window : Window) : List Span :=
  let bounds := (bracket.included :: bracket.excluded).flatten.flatMap
    fun (low, high) => [low.toNat, high.toNat + 1]
  let inside := bounds.filter fun bound => window.first < bound && bound ≤ window.last
  spansWhere (bracket.contains <| Char.ofNat ·)
    (window.first :: inside.mergeSort ++ [window.last + 1]).eraseReps

/-- How many states read one of the products. Products share the states for what they begin with. -/
def stateCount : List (List Span) → Nat
  | first :: next :: rest => first.length - common first next + stateCount (next :: rest)
  | [last] => last.length
  | [] => 0
where
  common : List Span → List Span → Nat
    | a :: as, b :: bs => if a = b then common as bs + 1 else 0
    | _, _ => 0

/-- The memory for a character of a bracket expression. A single character has a state for each of
its bytes. A set of one-byte characters has a state with a way for each span, and any other set one
that branches to each product. Both have a state for the end. -/
def size (bracket : Bracket) : Nat :=
  let found := (Utf8.windows.map fun window => (window.digits, bracket.spans window)).filter
    fun (_, spans) => !spans.isEmpty
  match found with
  | [] => 2 * stateSize
  | [(digits, [(low, high)])] =>
    if low = high then (digits + 1) * stateSize else several found
  | _ => several found
where
  several : List (Nat × List Span) → Nat
    | [(0, spans)] => 2 * stateSize + readingSize * spans.length
    | found =>
      let products := found.map fun (digits, spans) => spans.flatMap (Utf8.products digits)
      (2 + (products.map stateCount).foldr (· + ·) 0) * stateSize + branchSize * products.flatten.length

end Bracket

/-- The memory for any character at all. -/
def anyCharSize : Nat := Bracket.size ⟨true, [], []⟩

/-- The memory for an item. Text is a character that a state with two branches repeats. -/
def Item.size : Item → Nat
  | char c => c.utf8Size * stateSize
  | anyChar => anyCharSize
  | anyText => anyCharSize + stateSize + 2 * branchSize
  | oneOf bracket => bracket.size

/-- The memory for all items, and for six states around them. -/
def size (items : List Item) : Nat := 6 * stateSize + (items.map Item.size).foldr (· + ·) 0

/-- So many bytes the regex library gives a machine, ten megabytes. -/
def sizeLimit : Nat := 10 <<< 20

def withinLimits (items : List Item) : Bool := depth items ≤ depthLimit && size items ≤ sizeLimit

end PolicyShell.Glob
