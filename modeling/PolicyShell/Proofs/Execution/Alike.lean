import PolicyShell.Execution.Run
import PolicyShell.Proofs.Execution.Certain

/-! Actions that do the same in a shell and give its depth back however they end. -/
namespace PolicyShell

namespace Shell

/-- The numbers of function calls and of sourced units under way. -/
def depth (shell : Shell) : Nat × Nat := (shell.functionDepth, shell.sourceDepth)

/-- The other shell differs from this one in its variables at most. -/
def Reassigned (shell after : Shell) : Prop :=
  ∃ scalars arrays, after = { shell with scalars, arrays }

namespace Reassigned

theorem refl (shell : Shell) : shell.Reassigned shell := ⟨_, _, rfl⟩

theorem trans {one two three : Shell} (first : one.Reassigned two) (second : two.Reassigned three) :
    one.Reassigned three := by
  obtain ⟨scalars, arrays, rfl⟩ := first
  obtain ⟨scalars, arrays, rfl⟩ := second
  exact ⟨_, _, rfl⟩

theorem options_eq {shell after : Shell} (reassigned : shell.Reassigned after) :
    after.options = shell.options := by
  obtain ⟨scalars, arrays, rfl⟩ := reassigned
  rfl

end Reassigned

end Shell

namespace Action

variable {m : Type → Type} [Monad m] {α β : Type}

/-- How an action goes on after the one before it has ended. -/
def resume (next : α → Action m β) (result : Except Fault α × Shell) : m (Except Fault β × Shell) :=
  match result.1 with
  | .ok value => (next value).run result.2
  | .error fault => pure (.error fault, result.2)

theorem run_bind (action : Action m α) (next : α → Action m β) (shell : Shell) :
    (action >>= next).run shell = action.run shell >>= resume next := by
  have resumed : (fun result : Except Fault α × Shell => ExceptT.bindCont next result.1 result.2) =
      resume next := by
    funext result
    rcases result with ⟨fault | value, after⟩ <;> rfl
  rw [← resumed]
  rfl

variable [LawfulMonad m]

@[simp] theorem run_get (shell : Shell) :
    (get : Action m Shell).run shell = pure (.ok shell, shell) :=
  pure_bind (shell, shell) _

theorem run_get_bind (next : Shell → Action m α) (shell : Shell) :
    (get >>= next).run shell = (next shell).run shell := by
  rw [run_bind, run_get, pure_bind, resume]

@[simp] theorem run_set (changed shell : Shell) :
    (set changed : Action m PUnit).run shell = pure (.ok ⟨⟩, changed) :=
  pure_bind (PUnit.unit, changed) _

@[simp] theorem run_modify (change : Shell → Shell) (shell : Shell) :
    (modify change : Action m PUnit).run shell = pure (.ok ⟨⟩, change shell) :=
  pure_bind (PUnit.unit, change shell) _

theorem run_set_bind (changed : Shell) (next : PUnit → Action m α) (shell : Shell) :
    (set changed >>= next).run shell = (next ⟨⟩).run changed := by
  rw [run_bind, run_set, pure_bind, resume]

theorem run_modify_bind (change : Shell → Shell) (next : PUnit → Action m α) (shell : Shell) :
    (modify change >>= next).run shell = (next ⟨⟩).run (change shell) := by
  rw [run_bind, run_modify, pure_bind, resume]

@[simp] theorem run_lift (computation : m α) (shell : Shell) :
    (liftM computation : Action m α).run shell =
      (fun value => (.ok value, shell)) <$> computation := by
  have lifted : (liftM computation : Action m α).run shell =
      (computation >>= fun value => pure (value, shell)) >>= fun result =>
        pure (.ok result.1, result.2) := rfl
  rw [lifted, map_eq_pure_bind, bind_assoc]
  simp only [pure_bind]

/-- Nothing follows a fault. -/
theorem throw_bind (fault : Fault) (next : α → Action m β) :
    (throw fault >>= next) = (throw fault : Action m β) := by
  funext shell
  have thrown : (throw fault : Action m α).run shell = pure (.error fault, shell) := rfl
  refine (run_bind ..).trans ?_
  rw [thrown, pure_bind]
  rfl

omit [LawfulMonad m] in
/-- A fault is handled in the shell that it leaves. -/
theorem run_tryCatch (action : Action m α) (handle : Fault → Action m α) (shell : Shell) :
    (tryCatch action handle).run shell = action.run shell >>= fun result =>
      match result.1 with
      | .ok value => pure (.ok value, result.2)
      | .error fault => (handle fault).run result.2 := by
  change (action.run shell >>= fun result => _) = _
  refine bind_congr fun result => ?_
  rcases result with ⟨fault | value, after⟩ <;> rfl

theorem run_afterwards (action : Action m α) (change : Shell → Shell) (shell : Shell) :
    (Execution.afterwards action change).run shell =
      (fun result => (result.1, change result.2)) <$> action.run shell := by
  unfold Execution.afterwards
  rw [run_bind, run_tryCatch, bind_assoc, map_eq_pure_bind]
  refine bind_congr fun result => ?_
  rcases result with ⟨fault | value, after⟩
  · dsimp only
    rw [run_modify_bind]
    exact pure_bind (Except.error fault, change after) _
  · rw [pure_bind]
    exact run_modify_bind change _ after

/-- Two actions that do the same in a shell and leave it at the given depth, whatever they end
with. -/
structure Alike (depth : Nat × Nat) (shell : Shell) (first second : Action m α) : Prop where
  same : first.run shell = second.run shell
  kept : ∃ certified : m {result : Except Fault α × Shell // result.2.depth = depth},
    Subtype.val <$> certified = first.run shell

namespace Alike

variable {depth : Nat × Nat} {shell : Shell} {first second : Action m α}

/-- What follows need only be alike where the first actions can end. -/
theorem bind (alike : Alike depth shell first second) {next next' : α → Action m β}
    (later : ∀ value after, after.depth = depth → Alike depth after (next value) (next' value)) :
    Alike depth shell (first >>= next) (second >>= next') := by
  have ends : Certain (fun result => result.2.depth = depth) (first.run shell) := alike.kept
  constructor
  · rw [run_bind, run_bind, ← alike.same]
    refine ends.congr fun ended kept => ?_
    rcases ended with ⟨fault | value, after⟩
    · rfl
    · exact (later value after kept).same
  · rw [run_bind]
    refine ends.bind fun ended kept => ?_
    rcases ended with ⟨fault | value, after⟩
    · exact .returns kept
    · exact (later value after kept).kept

theorem of_run {result : Except Fault α × Shell} (one : first.run shell = pure result)
    (two : second.run shell = pure result) (kept : result.2.depth = depth) :
    Alike depth shell first second :=
  ⟨one.trans two.symm, pure ⟨result, kept⟩, (map_pure ..).trans one.symm⟩

theorem returns (value : α) (kept : shell.depth = depth) :
    Alike depth shell (pure value : Action m α) (pure value) :=
  of_run rfl rfl kept

theorem throws (fault : Fault) (kept : shell.depth = depth) :
    Alike depth shell (throw fault : Action m α) (throw fault) :=
  of_run rfl rfl kept

theorem throwsBefore (fault : Fault) (kept : shell.depth = depth) {next next' : β → Action m α} :
    Alike depth shell (throw fault >>= next) (throw fault >>= next') := by
  rw [throw_bind, throw_bind]
  exact throws fault kept

theorem modifies {change : Shell → Shell} (kept : (change shell).depth = depth) :
    Alike depth shell (modify change : Action m PUnit) (modify change) :=
  of_run (run_modify ..) (run_modify ..) kept

theorem lifts (computation : m α) (kept : shell.depth = depth) :
    Alike depth shell (liftM computation : Action m α) (liftM computation) := by
  refine ⟨rfl, (fun value => ⟨(.ok value, shell), kept⟩) <$> computation, ?_⟩
  rw [run_lift, Functor.map_map]

/-- The depth may differ on the way. -/
theorem afterRun {action : Action m β} {value : β} {changed : Shell}
    (ran : action.run shell = pure (.ok value, changed)) {next next' : β → Action m α}
    (later : Alike depth changed (next value) (next' value)) :
    Alike depth shell (action >>= next) (action >>= next') := by
  have goOn (next : β → Action m α) : (action >>= next).run shell = (next value).run changed := by
    rw [run_bind, ran, pure_bind, resume]
  constructor
  · rw [goOn, goOn, later.same]
  · rw [goOn]
    exact later.kept

theorem afterGet {next next' : Shell → Action m α}
    (later : Alike depth shell (next shell) (next' shell)) :
    Alike depth shell (get >>= next) (get >>= next') :=
  afterRun (run_get shell) later

theorem afterModify {change : Shell → Shell} {next next' : PUnit → Action m α}
    (later : Alike depth (change shell) (next ⟨⟩) (next' ⟨⟩)) :
    Alike depth shell (modify change >>= next) (modify change >>= next') :=
  afterRun (run_modify change shell) later

theorem afterSet {changed : Shell} {next next' : PUnit → Action m α}
    (later : Alike depth changed (next ⟨⟩) (next' ⟨⟩)) :
    Alike depth shell (set changed >>= next) (set changed >>= next') :=
  afterRun (run_set changed shell) later

theorem afterwards {inner : Nat × Nat} {change : Shell → Shell}
    (alike : Alike inner shell first second)
    (back : ∀ after, after.depth = inner → (change after).depth = depth) :
    Alike depth shell (Execution.afterwards first change) (Execution.afterwards second change) := by
  have ends : Certain (fun result => (change result.2).depth = depth) (first.run shell) :=
    Certain.mono alike.kept fun result kept => back result.2 kept
  constructor
  · rw [run_afterwards, run_afterwards, alike.same]
  · rw [run_afterwards]
    exact ends.map

/-- Each of several actions in turn. -/
theorem mapM {γ : Type} {values : List γ} {action : γ → Action m α}
    (each : ∀ value after, after.depth = depth → Alike depth after (action value) (action value))
    (kept : shell.depth = depth) : Alike depth shell (values.mapM action) (values.mapM action) := by
  induction values generalizing shell with
  | nil =>
    rw [List.mapM_nil]
    exact returns _ kept
  | cons first rest ih =>
    rw [List.mapM_cons]
    refine (each first shell kept).bind fun one after kept => ?_
    exact (ih kept).bind fun others after kept => returns _ kept

theorem forM {γ : Type} {values : List γ} {action : γ → Action m PUnit}
    (each : ∀ value after, after.depth = depth → Alike depth after (action value) (action value))
    (kept : shell.depth = depth) : Alike depth shell (values.forM action) (values.forM action) := by
  induction values generalizing shell with
  | nil => exact returns _ kept
  | cons first rest ih => exact (each first shell kept).bind fun _ after kept => ih kept

end Alike

end Action
end PolicyShell
