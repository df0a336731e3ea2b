import PolicyShell.Proofs.Execution.Nesting
import PolicyShell.Proofs.Syntax.Joined

/-! Running texts that stand on lines of their own one after the other. -/
namespace PolicyShell

/-- What became of the text of a unit. -/
inductive UnitEnd where
  /-- The last command that was run ended so. -/
  | ran (flow : Flow)
  /-- There was no command in the text. -/
  | empty
  /-- The text could not be read on; the place is an offset in the text. -/
  | unreadable (error : ParseError)

/-- The end of a unit that stands behind so many characters of another text, after a command with
this status. -/
def UnitEnd.within {m : Type → Type} [Monad m] (offset : Nat) (status : Int) :
    UnitEnd → Action m Flow
  | ran flow => return flow
  | empty => return .normal status
  | unreadable error => throw (.parse (error.mapPlace (· + offset)))

namespace Execution

variable {m : Type → Type} [Monad m]

end Execution

namespace Action

variable {m : Type → Type} [Monad m]

end Action

namespace Execution

variable {m : Type → Type} [Monad m] (host : Host m) (nested : Nested (Action m)) (length : Nat)

/-- How a unit goes on after its next command has been read. -/
def restAfter (dialect : Dialect) (status : Int) :
    Except Rejection (Option Command × List Char) → Action m Flow
  | .error rejection => throw (.parse (rejection.error.locate length))
  | .ok (none, _) => return .normal status
  | .ok (some first, later) => do
    match ← command settle host nested first with
    | .normal status => rest settle host nested (.reading dialect length later) status
    | flow => return flow

section
variable {length} {dialect dialect' : Dialect} {text : List Char} {after : Parser}

omit [Monad m] in
theorem next_withDialect (dialect dialect' : Dialect) (text : List Char) :
    ((Parser.reading dialect length text).withDialect dialect').next =
      (Parser.reading dialect' length text).advance (readNext dialect' text) := by
  rw [(Parser.faithful_reading dialect length text).withDialect, Parser.unread_reading,
    (Parser.faithful_reading ..).next_eq, Parser.unread_reading]
  rfl

omit [Monad m] in
theorem readNext_of_next {found : Option Command}
    (next : ((Parser.reading dialect length text).withDialect dialect').next =
      (.ok found, after)) :
    ∃ rest, readNext dialect' text = .ok (found, rest) ∧ after = .reading dialect' length rest :=
  Parser.advance_eq_ok ((next_withDialect dialect dialect' text).symm.trans next)

omit [Monad m] in
theorem readNext_of_next_error {error : ParseError}
    (next : ((Parser.reading dialect length text).withDialect dialect').next =
      (.error error, after)) :
    ∃ rejection, readNext dialect' text = .error rejection ∧
      error = rejection.error.locate length :=
  Parser.advance_eq_error ((next_withDialect dialect dialect' text).symm.trans next)

end

theorem rest_eq (dialect : Dialect) (text : List Char) (status : Int) :
    rest settle host nested (.reading dialect length text) status =
      get >>= fun shell => restAfter host nested length shell.options.dialect status
        (readNext shell.options.dialect text) := by
  rw [rest]
  congr 1
  funext shell
  dsimp only
  split
  · rename_i next
    obtain ⟨rejection, outcome, rfl⟩ := readNext_of_next_error next
    rw [outcome]
    rfl
  · rename_i next
    obtain ⟨rest, outcome, rfl⟩ := readNext_of_next next
    rw [outcome]
    rfl
  · rename_i next
    obtain ⟨rest, outcome, rfl⟩ := readNext_of_next next
    rw [outcome]
    rfl

variable [LawfulMonad m]

theorem run_runSource (text : String) (shell : Shell) :
    (Action.runSource host text).run shell =
      (rest settle host (Execution.nested settle host shell.headroom)
        (.reading shell.options.dialect text.length text.toList) 0 : Action m Flow).run shell := by
  rw [Action.runSource, runSource, Action.run_get_bind, unit, Action.run_get_bind]
  rfl

end Execution

end PolicyShell
