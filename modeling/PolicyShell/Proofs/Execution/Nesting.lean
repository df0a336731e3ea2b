import PolicyShell.Proofs.Execution.Depth

/-! Running a program never reaches the deepest level of nesting that its headroom allows. -/
namespace PolicyShell

namespace Execution

variable {m : Type → Type} [Monad m]

/-- Commands and units that may be nested so many levels above a deepest one. -/
def nestedOver (host : Host m) (deepest : Nested (Action m)) : Nat → Nested (Action m)
  | 0 => deepest
  | levels + 1 =>
    ⟨command settle host (nestedOver host deepest levels),
      unit settle host (nestedOver host deepest levels)⟩

theorem nested_eq_nestedOver (host : Host m) (levels : Nat) :
    nested settle host levels =
      nestedOver host ⟨fun _ => throw .functionTooDeep, fun _ => throw .sourceTooDeep⟩ levels := by
  induction levels with
  | zero => rfl
  | succ levels ih => rw [nested, nestedOver, ih]

/-- Commands and units as they are run from outside. -/
def whole (host : Host m) : Nested (Action m) := ⟨Action.runCommand host, Action.runSource host⟩

/-- What is nested in a command or a unit is of the same kind again. -/
structure Solves (host : Host m) (nested : Nested (Action m)) : Prop where
  call : nested.call = command settle host nested
  source : nested.source = unit settle host nested

private theorem Solves.nestedOver_eq {host : Host m} {solution : Nested (Action m)}
    (solves : Solves host solution) (levels : Nat) : nestedOver host solution levels = solution := by
  induction levels with
  | zero => rfl
  | succ levels ih => rw [nestedOver, ih, ← solves.call, ← solves.source]

variable [LawfulMonad m]

/-- Each level of nesting takes up headroom, so with enough of them the deepest is not reached. -/
theorem alike_nestedOver (host : Host m) (deepest deepest' : Nested (Action m)) (limit : Nat)
    {levels levels' : Nat} (enough : limit ≤ levels) (enough' : limit ≤ levels') :
    (nestedOver host deepest levels).Alike limit (nestedOver host deepest' levels') := by
  induction limit generalizing levels levels' with
  | zero => exact ⟨nofun, nofun⟩
  | succ limit ih =>
    obtain ⟨levels, rfl⟩ := Nat.exists_eq_succ_of_ne_zero (Nat.ne_zero_of_lt enough)
    obtain ⟨levels', rfl⟩ := Nat.exists_eq_succ_of_ne_zero (Nat.ne_zero_of_lt enough')
    have deeper := ih (Nat.le_of_succ_le_succ enough) (Nat.le_of_succ_le_succ enough')
    constructor
    · intro shell body room
      exact alike_command deeper (Nat.le_of_lt_succ room) host body rfl
    · intro shell text room
      exact alike_unit deeper (Nat.le_of_lt_succ room) host text rfl

theorem alike_nested (host : Host m) (deepest : Nested (Action m)) {limit levels : Nat}
    (enough : limit ≤ levels) :
    (nested settle host limit).Alike limit (nestedOver host deepest levels) := by
  rw [nested_eq_nestedOver]
  exact alike_nestedOver host _ deepest limit (Nat.le_refl _) enough

variable {host : Host m} {shell : Shell} {levels : Nat}

theorem runCommand_eq (host : Host m) (deepest : Nested (Action m))
    (enough : shell.headroom ≤ levels) (tree : Command) :
    (Action.runCommand host tree).run shell =
      (command settle host (nestedOver host deepest levels) tree).run shell := by
  have read : (Action.runCommand host tree).run shell =
      (command settle host (nested settle host shell.headroom) tree : Action m Flow).run
        shell := by
    rw [Action.runCommand, Execution.runCommand, Action.run_get_bind]
  rw [read]
  exact (alike_command (alike_nested host deepest enough) (Nat.le_refl _) host tree rfl).same

theorem runSource_eq (host : Host m) (deepest : Nested (Action m))
    (enough : shell.headroom ≤ levels) (text : String) :
    (Action.runSource host text).run shell =
      (unit settle host (nestedOver host deepest levels) text).run shell := by
  have read : (Action.runSource host text).run shell =
      (unit settle host (nested settle host shell.headroom) text : Action m Flow).run
        shell := by
    rw [Action.runSource, Execution.runSource, Action.run_get_bind]
  rw [read]
  exact (alike_unit (alike_nested host deepest enough) (Nat.le_refl _) host text rfl).same

private theorem alike_whole (host : Host m) (deepest : Nested (Action m)) {limit levels : Nat}
    (enough : limit ≤ levels) : (whole host).Alike limit (nestedOver host deepest levels) := by
  have deeper (limit levels : Nat) (enough : limit ≤ levels) :=
    alike_nestedOver host deepest deepest limit enough enough
  constructor
  · intro shell body room
    cases levels with
    | zero => exact absurd (Nat.lt_of_lt_of_le room enough) (Nat.not_lt_zero _)
    | succ levels =>
      have below : shell.headroom ≤ levels := Nat.le_of_lt_succ (Nat.lt_of_lt_of_le room enough)
      have same := runCommand_eq host deepest below body
      exact ⟨same, same ▸ (alike_command (deeper _ _ below) (Nat.le_refl _) host body rfl).kept⟩
  · intro shell text room
    cases levels with
    | zero => exact absurd (Nat.lt_of_lt_of_le room enough) (Nat.not_lt_zero _)
    | succ levels =>
      have below : shell.headroom ≤ levels := Nat.le_of_lt_succ (Nat.lt_of_lt_of_le room enough)
      have same := runSource_eq host deepest below text
      exact ⟨same, same ▸ (alike_unit (deeper _ _ below) (Nat.le_refl _) host text rfl).kept⟩

theorem solves_whole (host : Host m) : Solves host (whole host) := by
  constructor
  · funext tree shell
    have inner := alike_whole host (whole host) (Nat.le_refl shell.headroom)
    have same := (alike_command inner (Nat.le_refl _) host tree (rfl : shell.depth = _)).same
    exact (runCommand_eq host (whole host) (Nat.le_refl _) tree).trans same.symm
  · funext text shell
    have inner := alike_whole host (whole host) (Nat.le_refl shell.headroom)
    have same := (alike_unit inner (Nat.le_refl _) host text (rfl : shell.depth = _)).same
    exact (runSource_eq host (whole host) (Nat.le_refl _) text).trans same.symm

theorem Solves.eq_whole {solution : Nested (Action m)} (solves : Solves host solution) :
    solution = whole host := by
  have call : solution.call = Action.runCommand host := by
    rw [solves.call]
    funext tree shell
    have same := runCommand_eq host solution (Nat.le_refl shell.headroom) tree
    rw [solves.nestedOver_eq] at same
    exact same.symm
  have source : solution.source = Action.runSource host := by
    rw [solves.source]
    funext text shell
    have same := runSource_eq host solution (Nat.le_refl shell.headroom) text
    rw [solves.nestedOver_eq] at same
    exact same.symm
  cases solution
  cases call
  cases source
  rfl

/-- Every program ends: as many levels of nesting as the shell has headroom are enough to run any
command and any unit, whatever more levels there are and whatever would happen below them. So the
equations that say how commands, calls and sourced units run each other have one solution. -/
theorem levels_suffice (host : Host m) (shell : Shell) :
    (∀ levels, shell.headroom ≤ levels → ∀ deepest : Nested (Action m),
      (∀ tree, (command settle host (nestedOver host deepest levels) tree).run shell =
        (Action.runCommand host tree).run shell) ∧
      ∀ text, (unit settle host (nestedOver host deepest levels) text).run shell =
        (Action.runSource host text).run shell) ∧
      ∀ solution, Solves host solution ↔ solution = whole host := by
  constructor
  · intro levels enough deepest
    constructor
    · intro tree
      exact (runCommand_eq host deepest enough tree).symm
    · intro text
      exact (runSource_eq host deepest enough text).symm
  · intro solution
    constructor
    · exact Solves.eq_whole
    · rintro rfl
      exact solves_whole host

/-- A file that sources itself comes to an end whatever happens beyond the headroom. -/
theorem levels_suffice_selfSourcing :
    let host : Host Id := ⟨fun _ => .ok [], fun _ => .ok "source loop"⟩
    ∀ deepest, (unit settle host (nestedOver host deepest 164) "source loop").run {} =
      (Action.runSource host "source loop").run {} :=
  fun deepest => ((levels_suffice _ {}).1 164 (by decide) deepest).2 "source loop"

end Execution

end PolicyShell
