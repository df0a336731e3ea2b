/-! Words of a program as they were read: parts in the order in which they stand. -/
namespace PolicyShell

/-- One piece of a word. A splice gives one value per element; without it the elements are
joined into one value. -/
inductive WordPart where
  /-- Text without any glob syntax of its own. -/
  | literal (text : String)
  /-- A reference to one value. -/
  | scalar (name : String) (quoted : Bool)
  /-- A reference to all elements of an array. -/
  | array (name : String) (splice quoted : Bool)
  /-- Unquoted text with glob syntax. -/
  | glob (text : String)
  /-- A reference to all positional parameters. -/
  | arguments (splice quoted : Bool)
  deriving DecidableEq, Repr

namespace WordPart

def isSplice : WordPart → Bool
  | array _ splice _ | arguments splice _ => splice
  | literal _ | scalar _ _ | glob _ => false

def isGlob : WordPart → Bool
  | glob _ => true
  | literal _ | scalar _ _ | array _ _ _ | arguments _ _ => false

/-- Neighbouring literals become one. -/
def mergeLiterals : List WordPart → List WordPart
  | [] => []
  | part :: rest =>
    match part, mergeLiterals rest with
    | literal text, literal next :: merged => literal (text ++ next) :: merged
    | part, merged => part :: merged

/-- Only a literal in front of a literal is not left as it is. -/
theorem mergeLiterals_cons (part : WordPart) (rest : List WordPart) :
    (∃ text next merged, part = literal text ∧ mergeLiterals rest = literal next :: merged ∧
      mergeLiterals (part :: rest) = literal (text ++ next) :: merged) ∨
    mergeLiterals (part :: rest) = part :: mergeLiterals rest := by
  generalize whole : part :: rest = parts
  fun_cases mergeLiterals parts with
  | case1 => cases whole
  | case2 rest text next merged later =>
    cases whole
    exact .inl ⟨text, next, merged, rfl, later, rfl⟩
  | case3 =>
    cases whole
    exact .inr rfl

/-- The part as it might have been written. -/
def describe : WordPart → String
  | literal text | glob text => text
  | scalar name _ => "$\x7b" ++ name ++ "\x7d"
  | array name splice _ => "$\x7b" ++ name ++ (if splice then "[@]\x7d" else "[*]\x7d")
  | arguments splice _ => if splice then "$@" else "$*"

end WordPart

structure Word where
  parts : List WordPart
  deriving DecidableEq, Repr

namespace Word

def literal (text : String) : Word := ⟨[.literal text]⟩

/-- The text of a word that is one literal. -/
def asLiteral? (word : Word) : Option String :=
  match word.parts with
  | [.literal text] => some text
  | _ => none

def describe (word : Word) : String := String.join (word.parts.map WordPart.describe)

end Word

inductive AssignedValue where
  | scalar (word : Word)
  | array (elements : List Word)
  deriving DecidableEq, Repr

structure Assignment where
  name : String
  value : AssignedValue
  deriving DecidableEq, Repr

/-- A scalar assignment read as an ordinary word. Arrays have no such form. -/
def Assignment.asWord? (assignment : Assignment) : Option Word :=
  match assignment.value with
  | .scalar word => some ⟨WordPart.mergeLiterals (.literal (assignment.name ++ "=") :: word.parts)⟩
  | .array _ => none

end PolicyShell
