import PolicyShell.Proofs.Execution.Ensures

/-! Assignments in front of a command end with it. -/
namespace PolicyShell

namespace Shell

variable (shell : Shell) (kept : SavedVariable) {name other : String}

theorem saved_restore_self : (shell.restore kept).saved kept.name = kept := by
  rcases kept with ⟨name, scalar, array⟩
  cases scalar <;> cases array <;> simp [saved, restore, unset]

theorem saved_restore_other (differs : name ≠ kept.name) :
    (shell.restore kept).saved name = shell.saved name := by
  rcases kept with ⟨kept, scalar, array⟩
  have away : ¬kept = name := fun same => differs same.symm
  cases scalar <;> cases array <;>
    simp [saved, restore, unset, Std.TreeMap.getElem?_insert, Std.TreeMap.getElem?_erase, away]

theorem reassigned_restore : shell.Reassigned (shell.restore kept) :=
  ⟨_, _, rfl⟩

theorem saved_setScalar_other (value : String) (differs : name ≠ other) :
    (shell.setScalar other value).saved name = shell.saved name := by
  have away : ¬other = name := fun same => differs same.symm
  simp [saved, setScalar, Std.TreeMap.getElem?_insert, Std.TreeMap.getElem?_erase, away]

theorem saved_setArray_other (values : List String) (differs : name ≠ other) :
    (shell.setArray other values).saved name = shell.saved name := by
  have away : ¬other = name := fun same => differs same.symm
  simp [saved, setArray, Std.TreeMap.getElem?_insert, Std.TreeMap.getElem?_erase, away]

end Shell

namespace Execution

open PolicyShell.Action (Ensures LeavesAlone)

variable {m : Type → Type} [Monad m] [LawfulMonad m]

theorem leavesAlone_evaluate (host : Host m) (words : List Word) (shell : Shell) :
    (evaluate host words : Action m (List String)).LeavesAlone shell := by
  unfold evaluate
  refine .afterGet ((LeavesAlone.mapM (fun word => ?_) words).bind fun texts => .returns _ shell)
  refine (LeavesAlone.lifts _ shell).bind fun outcome => ?_
  cases outcome with
  | error error => exact .throws _ shell
  | ok texts => exact .returns _ shell

/-- An assignment gives its name a value, or else it fails and changes nothing. -/
theorem ensures_assign (host : Host m) (assignment : Assignment) (shell : Shell) :
    (assign host assignment : Action m Unit).Ensures shell fun _ after => after = shell ∨
      (∃ value, after = shell.setScalar assignment.name value) ∨
      ∃ values, after = shell.setArray assignment.name values := by
  unfold assign
  cases assignment.value with
  | scalar word => exact .modifies (.inr (.inl ⟨_, rfl⟩))
  | array elements =>
    have alone := leavesAlone_evaluate host elements shell
    refine alone.ensures_bind (.anything _ shell) (fun values _ => ?_) fun fault _ => ?_
    · exact .modifies (.inr (.inr ⟨values, rfl⟩))
    · exact .inl rfl

/-- An assignment changes a variable at most, even if it fails. -/
theorem ensures_assign_reassigned (host : Host m) (assignment : Assignment) (shell : Shell) :
    (assign host assignment : Action m Unit).Ensures shell
      fun _ after => shell.Reassigned after := by
  apply (ensures_assign host assignment shell).mono
  intro outcome after changed
  obtain rfl | ⟨value, rfl⟩ | ⟨values, rfl⟩ := changed
  · exact .refl _
  · exact ⟨_, _, rfl⟩
  · exact ⟨_, _, rfl⟩

/-- What does not speak of variables holds after an action under assignments if it holds after the
action in every shell that has other variables, and after a fault before it. -/
theorem ensures_underAssignments_reassigned {α : Type} (host : Host m) {action : Action m α}
    (assignments : List Assignment) {shell : Shell} {holds : Except Fault α → Shell → Prop}
    (ensures : ∀ assigned, shell.Reassigned assigned → action.Ensures assigned holds)
    (faults : ∀ fault assigned, shell.Reassigned assigned → holds (.error fault) assigned)
    (reassigned : ∀ outcome before after, before.Reassigned after → holds outcome before →
      holds outcome after) :
    (underAssignments host action assignments).Ensures shell holds := by
  induction assignments generalizing shell with
  | nil => exact ensures shell (.refl shell)
  | cons first rest ih =>
    unfold underAssignments
    refine .afterGet (.afterwards ?_)
    have inside : (do assign host first; underAssignments host action rest : Action m α).Ensures
        shell holds := by
      refine (ensures_assign_reassigned host first shell).bind (fun _ assigned once => ?_) faults
      exact ih (fun further again => ensures further (once.trans again))
        fun fault further again => faults fault further (once.trans again)
    exact inside.mono fun outcome after held =>
      reassigned outcome after _ (after.reassigned_restore _) held

private theorem ensures_assign_others (host : Host m) (assignment : Assignment) (shell : Shell) :
    (assign host assignment : Action m Unit).Ensures shell fun _ after =>
      ∀ name, name ≠ assignment.name → after.saved name = shell.saved name := by
  apply (ensures_assign host assignment shell).mono
  intro outcome after changed name differs
  obtain rfl | ⟨value, rfl⟩ | ⟨values, rfl⟩ := changed
  · rfl
  · exact shell.saved_setScalar_other value differs
  · exact shell.saved_setArray_other values differs

/-- Whatever runs under assignments, in the end each name stands for what it stood for before. -/
theorem ensures_underAssignments {α : Type} (host : Host m) (action : Action m α)
    (assignments : List Assignment) (shell : Shell) :
    (underAssignments host action assignments).Ensures shell fun _ after =>
      ∀ assignment ∈ assignments, after.saved assignment.name = shell.saved assignment.name := by
  induction assignments generalizing shell with
  | nil => exact (Ensures.anything action shell).mono fun _ _ _ => nofun
  | cons first rest ih =>
    unfold underAssignments
    refine .afterGet (.afterwards ?_)
    -- the first name is given back last, so the others only have to be right until then
    have inside : (do assign host first; underAssignments host action rest : Action m α).Ensures
        shell fun _ after => ∀ assignment ∈ rest, assignment.name ≠ first.name →
          after.saved assignment.name = shell.saved assignment.name := by
      refine (ensures_assign_others host first shell).bind (fun _ assigned others => ?_) ?_
      · exact (ih assigned).mono fun _ after same assignment member differs =>
          (same assignment member).trans (others _ differs)
      · exact fun _ after others assignment _ differs => others _ differs
    refine inside.mono fun _ after others assignment member => ?_
    by_cases same : assignment.name = first.name
    · rw [same]
      exact after.saved_restore_self (shell.saved first.name)
    · rcases List.mem_cons.mp member with rfl | member
      · exact absurd rfl same
      · exact (after.saved_restore_other (shell.saved first.name) same).trans
          (others assignment member same)

theorem ensures_settle {action : Action m Flow} {shell : Shell}
    {holds : Except Fault Flow → Shell → Prop} (ensures : action.Ensures shell holds)
    (settles : ∀ status after, holds (.ok (.normal status)) after →
      holds (.ok (.normal status)) { after with status }) :
    (settle action).Ensures shell holds := by
  unfold settle
  refine ensures.bind (fun flow after satisfied => ?_) fun _ _ satisfied => satisfied
  cases flow with
  | normal status => exact .afterModify (.returns (settles status after satisfied))
  | returning status => exact .returns satisfied
  | exiting status => exact .returns satisfied

/-- The names that are assigned in front of a command are what they were before, however the
command ends and whatever it runs. -/
theorem runCommand_restores (host : Host m) (shell : Shell) (assignments : List Assignment)
    {words : List Word}
    (present : (evaluate host words : Action m (List String)).Ensures shell
      fun texts _ => texts ≠ .ok []) :
    (Action.runCommand host (.simple assignments words)).Ensures shell fun _ after =>
      ∀ assignment ∈ assignments,
        after.scalars[assignment.name]? = shell.scalars[assignment.name]? ∧
          after.arrays[assignment.name]? = shell.arrays[assignment.name]? := by
  unfold Action.runCommand runCommand
  refine .afterGet ?_
  rw [command]
  refine ensures_settle ?_ fun _ _ same => same
  unfold simple
  have alone := leavesAlone_evaluate host words shell
  refine alone.ensures_bind present (fun texts some => ?_) fun fault _ => ?_
  · rcases texts with _ | ⟨name, arguments⟩
    · exact absurd rfl some
    · refine (ensures_underAssignments host _ assignments shell).mono fun _ later same => ?_
      intro assignment member
      have entries := same assignment member
      exact ⟨congrArg SavedVariable.scalar entries, congrArg SavedVariable.array entries⟩
  · exact fun _ _ => ⟨rfl, rfl⟩

/-- A name that is assigned twice, and then unset by a function that ends the program. -/
theorem runCommand_restores_twice :
    let host : Host Id := ⟨fun _ => .ok [], fun _ => .ok ""⟩
    let body : Command := .group
      [.simple [] [.literal "unset", .literal "x"], .simple [] [.literal "exit"]]
    let shell : Shell := { scalars := .ofList [("x", "1")], functions := .ofList [("f", body)] }
    let twice : List Assignment := [⟨"x", .scalar (.literal "2")⟩, ⟨"x", .array [.literal "3"]⟩]
    (evaluate host [.literal "f"] : Action Id _).Ensures shell (fun texts _ => texts ≠ .ok []) ∧
      (Action.runCommand host (.simple twice [.literal "f"])).Ensures shell fun _ after =>
        ∀ assignment ∈ twice,
          after.scalars[assignment.name]? = shell.scalars[assignment.name]? ∧
            after.arrays[assignment.name]? = shell.arrays[assignment.name]? := by
  intro host body shell twice
  have evaluated : (evaluate host [.literal "f"] : Action Id _).run shell =
      pure (.ok ["f"], shell) := rfl
  have present : (evaluate host [.literal "f"] : Action Id _).Ensures shell fun texts _ =>
      texts ≠ .ok [] := .of_run evaluated nofun
  exact ⟨present, runCommand_restores host shell twice present⟩

end Execution

end PolicyShell
