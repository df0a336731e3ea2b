import PolicyShell.Proofs.Execution.Alike

/-! What holds however an action ends, whatever the effects in which it runs. -/
namespace PolicyShell.Action

variable {m : Type → Type} [Monad m] {α β : Type}

/-- Every result of an action in a shell, together with the shell that it leaves, is so. -/
def Ensures (action : Action m α) (shell : Shell) (holds : Except Fault α → Shell → Prop) : Prop :=
  ∃ certified : m {result : Except Fault α × Shell // holds result.1 result.2},
    Subtype.val <$> certified = action.run shell

/-- The shell is as before, however the action ends. -/
def LeavesAlone (action : Action m α) (shell : Shell) : Prop :=
  ∃ computation : m (Except Fault α),
    action.run shell = (fun outcome => (outcome, shell)) <$> computation

variable [LawfulMonad m] {action : Action m α} {shell : Shell}
  {holds : Except Fault α → Shell → Prop}

namespace Ensures

omit [LawfulMonad m] in
theorem certain (ensures : action.Ensures shell holds) :
    Certain (fun result => holds result.1 result.2) (action.run shell) :=
  ensures

theorem mono (ensures : action.Ensures shell holds) {weaker : Except Fault α → Shell → Prop}
    (implies : ∀ outcome after, holds outcome after → weaker outcome after) :
    action.Ensures shell weaker := by
  apply ensures.certain.mono
  intro result satisfied
  exact implies _ _ satisfied

theorem of_run {result : Except Fault α × Shell} (ran : action.run shell = pure result)
    (satisfied : holds result.1 result.2) : action.Ensures shell holds :=
  ⟨pure ⟨result, satisfied⟩, (map_pure ..).trans ran.symm⟩

theorem of_map {computation : m β} {result : β → Except Fault α × Shell}
    (ran : action.run shell = result <$> computation)
    (satisfied : ∀ value, holds (result value).1 (result value).2) :
    action.Ensures shell holds :=
  ⟨(fun value => ⟨result value, satisfied value⟩) <$> computation, by rw [ran, Functor.map_map]⟩

theorem returns {value : α} (satisfied : holds (.ok value) shell) :
    (pure value : Action m α).Ensures shell holds :=
  of_run rfl satisfied

theorem modifies {change : Shell → Shell} {holds : Except Fault PUnit → Shell → Prop}
    (satisfied : holds (.ok ⟨⟩) (change shell)) :
    (modify change : Action m PUnit).Ensures shell holds :=
  of_run (run_modify ..) satisfied

theorem afterRun {first : Action m β} {value : β} {changed : Shell}
    (ran : first.run shell = pure (.ok value, changed)) {next : β → Action m α}
    (later : (next value).Ensures changed holds) : (first >>= next).Ensures shell holds := by
  obtain ⟨certified, whole⟩ := later
  refine ⟨certified, whole.trans ?_⟩
  rw [run_bind, ran, pure_bind, resume]

theorem afterGet {next : Shell → Action m α} (later : (next shell).Ensures shell holds) :
    (get >>= next).Ensures shell holds :=
  afterRun (run_get shell) later

theorem afterModify {change : Shell → Shell} {next : PUnit → Action m α}
    (later : (next ⟨⟩).Ensures (change shell) holds) :
    (modify change >>= next).Ensures shell holds :=
  afterRun (run_modify change shell) later

/-- What comes first may end with a fault, and otherwise the next action follows. -/
theorem bind {first : Except Fault α → Shell → Prop} {second : Except Fault β → Shell → Prop}
    (ensures : action.Ensures shell first) {next : α → Action m β}
    (later : ∀ value after, first (.ok value) after → (next value).Ensures after second)
    (faults : ∀ fault after, first (.error fault) after → second (.error fault) after) :
    (action >>= next).Ensures shell second := by
  unfold Ensures
  rw [run_bind]
  refine ensures.certain.bind fun ended satisfied => ?_
  rcases ended with ⟨fault | value, after⟩
  · exact .returns (faults fault after satisfied)
  · exact later value after satisfied

theorem afterwards {change : Shell → Shell}
    (ensures : action.Ensures shell fun outcome after => holds outcome (change after)) :
    (Execution.afterwards action change).Ensures shell holds := by
  unfold Ensures
  rw [run_afterwards]
  exact ensures.certain.map

/-- Nothing is known of an action before it runs. -/
theorem anything (action : Action m α) (shell : Shell) : action.Ensures shell fun _ _ => True :=
  Certain.anything _

/-- What a change brings about whatever the shell was like is so after any action. -/
theorem afterwards_anything {change : Shell → Shell} {kept : Shell → Prop}
    (brings : ∀ before, kept (change before)) :
    (Execution.afterwards action change).Ensures shell fun _ after => kept after :=
  .afterwards ((anything action shell).mono fun _ before _ => brings before)

end Ensures

namespace LeavesAlone

theorem of_run {outcome : Except Fault α} (ran : action.run shell = pure (outcome, shell)) :
    action.LeavesAlone shell :=
  ⟨pure outcome, by rw [ran, map_pure]⟩

theorem returns (value : α) (shell : Shell) : (pure value : Action m α).LeavesAlone shell :=
  of_run rfl

theorem throws (fault : Fault) (shell : Shell) : (throw fault : Action m α).LeavesAlone shell :=
  of_run rfl

theorem lifts (computation : m α) (shell : Shell) :
    (liftM computation : Action m α).LeavesAlone shell :=
  ⟨.ok <$> computation, by rw [run_lift, Functor.map_map]⟩

theorem afterGet {next : Shell → Action m α} (later : (next shell).LeavesAlone shell) :
    (get >>= next).LeavesAlone shell := by
  obtain ⟨computation, whole⟩ := later
  exact ⟨computation, (run_get_bind next shell).trans whole⟩

theorem bind (alone : action.LeavesAlone shell) {next : α → Action m β}
    (later : ∀ value, (next value).LeavesAlone shell) :
    (action >>= next).LeavesAlone shell := by
  obtain ⟨computation, whole⟩ := alone
  have goOn (outcome : Except Fault α) : ∃ computation : m (Except Fault β),
      resume next (outcome, shell) = (fun outcome => (outcome, shell)) <$> computation := by
    cases outcome with
    | error fault => exact ⟨pure (.error fault), by rw [map_pure, resume]⟩
    | ok value => exact later value
  refine ⟨computation >>= fun outcome => (goOn outcome).choose, ?_⟩
  rw [run_bind, whole, bind_map_left, map_bind]
  exact bind_congr fun outcome => (goOn outcome).choose_spec

theorem mapM {γ : Type} {action : γ → Action m α}
    (each : ∀ value, (action value).LeavesAlone shell) (values : List γ) :
    (values.mapM action).LeavesAlone shell := by
  induction values with
  | nil =>
    rw [List.mapM_nil]
    exact returns _ shell
  | cons first rest ih =>
    rw [List.mapM_cons]
    exact (each first).bind fun one => ih.bind fun others => returns _ shell

/-- What holds of the outcome holds of it in the same shell. -/
theorem ensures (alone : action.LeavesAlone shell) {holds : Except Fault α → Prop}
    (known : action.Ensures shell fun outcome _ => holds outcome) :
    action.Ensures shell fun outcome after => holds outcome ∧ after = shell := by
  obtain ⟨computation, same⟩ := alone
  obtain ⟨certified, whole⟩ := known
  refine ⟨(fun ended => ⟨(ended.val.1, shell), ended.property, rfl⟩) <$> certified, ?_⟩
  have again : (fun result : Except Fault α × Shell => (result.1, shell)) <$> action.run shell =
      action.run shell := by
    rw [same, Functor.map_map]
  rw [Functor.map_map, ← again, ← whole, Functor.map_map]

/-- What comes next begins in the shell that an action leaves alone. -/
theorem ensures_bind (alone : action.LeavesAlone shell) {known : Except Fault α → Prop}
    (ensures : action.Ensures shell fun outcome _ => known outcome) {next : α → Action m β}
    {holds : Except Fault β → Shell → Prop}
    (later : ∀ value, known (.ok value) → (next value).Ensures shell holds)
    (faults : ∀ fault, known (.error fault) → holds (.error fault) shell) :
    (action >>= next).Ensures shell holds := by
  refine (alone.ensures ensures).bind (fun value after satisfied => ?_)
    fun fault after satisfied => ?_
  · obtain ⟨satisfied, rfl⟩ := satisfied
    exact later value satisfied
  · obtain ⟨satisfied, rfl⟩ := satisfied
    exact faults fault satisfied

end LeavesAlone

end PolicyShell.Action
