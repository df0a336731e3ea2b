import PolicyShell.Proofs.Syntax.DialectCommands

/-! Whole programs, read one command after the other. -/
namespace PolicyShell

/-- A parser reads the command that its text begins with, and goes on behind it. -/
theorem Parser.commands_reading (dialect : Dialect) (length : Nat) (text : List Char) :
    (reading dialect length text).commands =
      match readNext dialect text with
      | .error rejection => .error (rejection.error.locate length)
      | .ok (none, _) => .ok []
      | .ok (some command, rest) => (reading dialect length rest).commands.map (command :: ·) := by
  have next : (reading dialect length text).next =
      (reading dialect length text).advance (readNext dialect text) := by
    rw [(faithful_reading dialect length text).next_eq, unread_reading]
    rfl
  rw [commands]
  split
  · rename_i read
    obtain ⟨rejection, outcome, rfl⟩ := advance_eq_error (next.symm.trans read)
    rw [outcome]
    rfl
  · rename_i read
    obtain ⟨rest, outcome, rfl⟩ := advance_eq_ok (next.symm.trans read)
    rw [outcome]
  · rename_i read
    obtain ⟨rest, outcome, rfl⟩ := advance_eq_ok (next.symm.trans read)
    rw [outcome]
    rfl

/-- Command by command, the programs of two dialects are the same up to their words. -/
theorem Parser.both_commands (length : Nat) (text : List Char) :
    Both (List.Forall₂ Command.Becomes) (reading .plain length text).commands
      (reading .splicing length text).commands := by
  have both := both_readNext text
  rw [commands_reading, commands_reading]
  generalize read : readNext .plain text = plain at both ⊢
  generalize readNext .splicing text = splicing at both ⊢
  cases both with
  | error rejection => exact .error _
  | @ok first second same =>
    rcases first with ⟨found, rest⟩
    rcases second with ⟨found', rest'⟩
    obtain ⟨becomes, rfl⟩ : Option.Rel Command.Becomes found found' ∧ rest = rest' := same
    cases becomes with
    | none => exact .ok .nil
    | some command =>
      have := length_lt_of_readNext read
      exact (both_commands length rest).map fun _ _ later => .cons command later
termination_by text.length

/-- The dialects accept the same programs, refuse the others with the same error, and differ only
in words that one of them takes for the splice of an array. Every single token is read from the
same characters in both. -/
theorem both_parse (text : String) :
    Both (List.Forall₂ Command.Becomes) (parse .plain text) (parse .splicing text) ∧
      ∀ place : List Char, (Token.scan .plain place).Both (Option.Rel Token.Becomes)
        (Token.scan .splicing place) :=
  ⟨Parser.both_commands text.length text.toList, Token.both_scan⟩

end PolicyShell
