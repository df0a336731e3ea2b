import PolicyShell.Proofs.Execution.Invariants

/-! The depth of a shell while commands run: how deep it gets, and that it is given back. -/
namespace PolicyShell

/-- A depth that may be reached from a shell: neither number is less than there, or more than both
there and its limit. -/
structure Shell.Brackets (start : Shell) (depth : Nat × Nat) : Prop where
  least : start.functionDepth ≤ depth.1 ∧ start.sourceDepth ≤ depth.2
  functions : depth.1 ≤ max start.functionDepth maxFunctionDepth
  sources : depth.2 ≤ max start.sourceDepth maxSourceDepth

theorem Shell.brackets_depth (start : Shell) : start.Brackets start.depth :=
  ⟨⟨Nat.le_refl _, Nat.le_refl _⟩, Nat.le_max_left .., Nat.le_max_left ..⟩

/-- A call is one level deeper, unless the limit has been reached. -/
theorem Shell.Brackets.called {start shell : Shell} (inside : start.Brackets shell.depth)
    (shallow : shell.functionDepth < maxFunctionDepth) :
    start.Brackets (shell.functionDepth + 1, shell.sourceDepth) := by
  obtain ⟨⟨functions, sources⟩, -, mostSources⟩ := inside
  exact ⟨⟨Nat.le_succ_of_le functions, sources⟩,
    Nat.le_trans shallow (Nat.le_max_right ..), mostSources⟩

private theorem Shell.Brackets.sourced {start shell : Shell} (inside : start.Brackets shell.depth)
    (shallow : shell.sourceDepth < maxSourceDepth) :
    start.Brackets (shell.functionDepth, shell.sourceDepth + 1) := by
  obtain ⟨⟨functions, sources⟩, most, -⟩ := inside
  exact ⟨⟨functions, Nat.le_succ_of_le sources⟩, most,
    Nat.le_trans shallow (Nat.le_max_right ..)⟩

theorem Shell.Brackets.of_eq {start : Shell} {depth depth' : Nat × Nat}
    (inside : start.Brackets depth) (kept : depth' = depth) : start.Brackets depth' :=
  kept ▸ inside

/-- A shell is at one of the depths that may be reached from another one. -/
def Shell.Reaches (start : Shell) (depth : {depth // start.Brackets depth}) (shell : Shell) :
    Prop :=
  shell.depth = depth.val

/-- Every step leaves the depth alone, except for the way into a call or a sourced unit and the way
back. -/
theorem Shell.invariant_reaches (start : Shell) : Invariant start.Reaches where
  setScalar kept _ _ := kept
  setArray kept _ _ := kept
  restore _ kept _ := kept
  unsetFunction kept _ := kept
  unsetNamed kept name := (depth_unsetNamed _ name).trans kept
  define kept _ := kept
  arguments kept _ := kept
  turn kept _ _ := kept
  status kept _ _ := kept
  write kept _ := kept
  writeError kept _ := kept
  call {index shell} kept shallow arguments := by
    have inside : start.Brackets shell.depth := index.property.of_eq kept
    refine ⟨⟨_, inside.called shallow⟩, rfl, fun after same => ?_⟩
    refine Eq.trans ?_ kept
    simp only [Reaches, Shell.depth, Prod.mk.injEq] at same ⊢
    omega
  source {index shell} kept shallow arguments := by
    have inside : start.Brackets shell.depth := index.property.of_eq kept
    refine ⟨⟨_, inside.sourced shallow⟩, rfl, fun after same _ => ?_⟩
    refine Eq.trans ?_ kept
    simp only [Reaches, Shell.depth, Prod.mk.injEq] at same ⊢
    omega

namespace Course

variable {m : Type → Type} {α : Type} {start shell : Shell}

/-- A course that passes only depths that may be reached, and ends at a certain one. -/
def Balanced (start : Shell) (depth : Nat × Nat) (shell : Shell) (course : Course m α) : Prop :=
  course.Always (start.Brackets ·.depth) (fun _ after => after.depth = depth) shell

theorem Keeps.balanced {depth : {depth // start.Brackets depth}} {gives : α → Prop}
    {course : Course m α} (keeps : Keeps start.Reaches depth gives shell course) :
    Balanced start depth.val shell course := by
  apply Always.imp keeps
  · intro on reached
    obtain ⟨depth, same⟩ := reached
    exact depth.property.of_eq same
  · intro outcome after ended
    exact ended.1

variable [Monad m]

/-- From its start on, a command reaches only such depths, and returns only from where it may. -/
theorem keeps_reaches_runCommand (host : Host m) (tree : Command) (shell : Shell) :
    Keeps shell.Reaches ⟨shell.depth, shell.brackets_depth⟩
      (Flow.Fits (fun _ => True) (shell.Reaches ⟨shell.depth, shell.brackets_depth⟩)) shell
      (runCommand host tree) :=
  keeps_runCommand shell.invariant_reaches host tree rfl

theorem keeps_reaches_runSource (host : Host m) (text : String) (shell : Shell) :
    Keeps shell.Reaches ⟨shell.depth, shell.brackets_depth⟩
      (Flow.Fits (fun _ => True) (shell.Reaches ⟨shell.depth, shell.brackets_depth⟩)) shell
      (runSource host text) :=
  keeps_runSource shell.invariant_reaches host text rfl

/-- From its start on, a command passes only depths that may be reached, and ends where it began. -/
theorem balanced_runCommand (host : Host m) (tree : Command) (shell : Shell) :
    Balanced shell shell.depth shell (runCommand host tree) :=
  (keeps_reaches_runCommand host tree shell).balanced

theorem balanced_runSource (host : Host m) (text : String) (shell : Shell) :
    Balanced shell shell.depth shell (runSource host text) :=
  (keeps_reaches_runSource host text shell).balanced

end Course

end PolicyShell
