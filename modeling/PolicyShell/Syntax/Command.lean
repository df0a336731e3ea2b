import PolicyShell.Syntax.Word

/-! Commands. -/
namespace PolicyShell

/-- The operator between the two commands of a chain. -/
inductive Connective where
  | and
  | or
  deriving DecidableEq, Repr

inductive Command where
  | simple (assignments : List Assignment) (words : List Word)
  /-- The right command runs if the status of the left one lets the operator go on. -/
  | chain (left : Command) (connective : Connective) (right : Command)
  | definition (name : String) (body : Command)
  | group (body : List Command)
  deriving Repr

namespace Command

mutual

private def decideEq : (first second : Command) → Decidable (first = second)
  | simple assignments words, simple assignments' words' =>
    decidable_of_iff (assignments = assignments' ∧ words = words') (by simp)
  | chain left connective right, chain left' connective' right' =>
    match decideEq left left', decideEq right right' with
    | isTrue same, isTrue same' => decidable_of_iff (connective = connective') (by simp [same, same'])
    | isFalse differ, _ => isFalse (by simp [differ])
    | _, isFalse differ => isFalse (by simp [differ])
  | definition name body, definition name' body' =>
    match decideEq body body' with
    | isTrue same => decidable_of_iff (name = name') (by simp [same])
    | isFalse differ => isFalse (by simp [differ])
  | group body, group body' =>
    match decideEqList body body' with
    | isTrue same => isTrue (by rw [same])
    | isFalse differ => isFalse (by simp [differ])
  | simple .., chain .. | simple .., definition .. | simple .., group .. => isFalse nofun
  | chain .., simple .. | chain .., definition .. | chain .., group .. => isFalse nofun
  | definition .., simple .. | definition .., chain .. | definition .., group .. => isFalse nofun
  | group .., simple .. | group .., chain .. | group .., definition .. => isFalse nofun

private def decideEqList : (first second : List Command) → Decidable (first = second)
  | [], [] => isTrue rfl
  | [], _ :: _ | _ :: _, [] => isFalse nofun
  | command :: rest, command' :: rest' =>
    match decideEq command command', decideEqList rest rest' with
    | isTrue same, isTrue same' => isTrue (by rw [same, same'])
    | isFalse differ, _ => isFalse (by simp [differ])
    | _, isFalse differ => isFalse (by simp [differ])

end

instance : DecidableEq Command := decideEq

end Command

end PolicyShell
