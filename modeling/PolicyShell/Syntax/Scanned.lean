import PolicyShell.Syntax.ParseError

/-! Results of reading the beginning of a text. -/
namespace PolicyShell

/-- What was read or why nothing was, and the text that is still unread in either case. Errors
are placed by the number of characters unread at them. -/
structure Scanned (α : Type) where
  result : Except ParseError α
  rest : List Char

namespace Scanned

variable {α β : Type}

/-- Changes what was read. -/
def map (change : α → β) (scanned : Scanned α) : Scanned β :=
  ⟨scanned.result.map change, scanned.rest⟩

/-- A failure stands for any kind of result. -/
def failed (error : ParseError) (rest : List Char) : Scanned α := ⟨.error error, rest⟩

@[simp] theorem rest_map (change : α → β) (scanned : Scanned α) :
    (scanned.map change).rest = scanned.rest := rfl

@[simp] theorem rest_failed (error : ParseError) (rest : List Char) :
    (failed error rest : Scanned α).rest = rest := rfl

@[simp] theorem result_failed (error : ParseError) (rest : List Char) :
    (failed error rest : Scanned α).result = .error error := rfl

theorem result_map_ok {change : α → β} {scanned : Scanned α} {value : β}
    (read : (scanned.map change).result = .ok value) :
    ∃ found, scanned.result = .ok found ∧ change found = value := by
  rcases scanned with ⟨result, rest⟩
  cases result with
  | error error => simp [map, Except.map] at read
  | ok found => exact ⟨found, rfl, by simpa [map, Except.map] using read⟩

end Scanned

end PolicyShell
