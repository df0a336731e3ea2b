import PolicyShell.Shell.Basic
import PolicyShell.Text.Blank
import PolicyShell.Text.Name
import PolicyShell.Text.Numeral

/-! The values that names stand for. -/
namespace PolicyShell

/-- Whatever gives values to the references in a word. -/
structure Bindings where
  scalar? : String → Option String
  array? : String → Option (List String)
  arguments : List String
  /-- The characters that separate fields. -/
  separators : String

namespace Bindings

/-- An unset name stands for the empty text. -/
def scalar (bindings : Bindings) (name : String) : String := (bindings.scalar? name).getD ""

/-- An unset array has no elements. -/
def array (bindings : Bindings) (name : String) : List String := (bindings.array? name).getD []

end Bindings

namespace Shell

/-- The element at an index, counted from the end if the index is negative. -/
def elementAt? (values : List String) (index : Int) : Option String :=
  let place := if index < 0 then index + values.length else index
  if place < 0 then none else values[place.toNat]?

/-- The element of an array at an index that is written with blanks around it. A scalar has one
element. -/
def element? (shell : Shell) (name : String) (index : List Char) : Option String :=
  match shell.arrays[name]? with
  | some values => (Numeral.integer? (Blank.trim index)).bind (elementAt? values)
  | none =>
    if Blank.trim index = ['0'] ∨ Blank.trim index = ['-', '1'] then shell.scalars[name]? else none

/-- The value of a variable; an array stands for its first element. -/
def named? (shell : Shell) (name : String) : Option String :=
  match shell.scalars[name]? with
  | some value => some value
  | none => shell.arrays[name]?.bind List.head?

/-- The script's name is parameter zero. -/
def parameter? (shell : Shell) : Nat → Option String
  | 0 => some shell.scriptName
  | index + 1 => shell.arguments[index]?

/-- The value of anything that may be named after a dollar sign. There is never a last process in
the background. -/
def scalar? (shell : Shell) (name : String) : Option String :=
  if name = "?" then some (toString shell.status)
  else if name = "#" then some (toString shell.arguments.length)
  else if name = "$" then some (toString shell.processId)
  else if name = "!" then none
  else match Numeral.natural? name.toList with
    | some index => shell.parameter? index
    | none =>
      match Name.element? name.toList with
      | some (array, index) => shell.element? (String.ofList array) index
      | none => shell.named? name

/-- The elements of an array; a scalar is an array of one. -/
def array? (shell : Shell) (name : String) : Option (List String) :=
  match shell.arrays[name]? with
  | some values => some values
  | none => shell.scalars[name]?.map ([·])

/-- Blank, tab and newline unless set otherwise. -/
def separators (shell : Shell) : String := shell.scalars["IFS"]?.getD " \t\n"

def bindings (shell : Shell) : Bindings :=
  ⟨shell.scalar?, shell.array?, shell.arguments, shell.separators⟩

end Shell

end PolicyShell
