import PolicyShell.Proofs.Execution.Stepwise

/-! Two runs of the same commands, in a shell and in one that differs from it in something that no
step looks at. -/
namespace PolicyShell.Course

variable {m : Type → Type} {α β : Type}

/-- Each step of a course leaves a shell that is related to the one before. -/
def Steps (related : Shell → Shell → Prop) : Course m α → Shell → Prop
  | done _, _ => True
  | look next, shell => (next shell).Steps related shell
  | put changed next, shell => related shell changed ∧ next.Steps related changed
  | ask _ next, shell => ∀ answer, (next answer).Steps related shell

/-- What is related to a shell step by step is so to the shell that a course begins in, if the
relation is transitive. -/
theorem Steps.always {related : Shell → Shell → Prop}
    (trans : ∀ one two three, related one two → related two three → related one three)
    {course : Course m α} {start shell : Shell} (reached : related start shell)
    (steps : course.Steps related shell) :
    course.Always (related start) (fun _ => related start) shell := by
  induction course generalizing shell with
  | done outcome => exact reached
  | look next ih => exact ih shell reached steps
  | put changed next ih =>
    have further := trans _ _ _ reached steps.1
    exact ⟨further, ih further steps.2⟩
  | ask question next ih => exact fun answer => ih answer reached (steps answer)

/-- The second course takes the same steps in changed shells as the first one in those that are
not, which are related step by step. -/
inductive Lockstep (change : Shell → Shell) (related : Shell → Shell → Prop) :
    Shell → Course m α → Course m α → Prop where
  | done {shell : Shell} (outcome : Except Fault α) :
      Lockstep change related shell (done outcome) (done outcome)
  | look {shell : Shell} {next next' : Shell → Course m α}
      (later : Lockstep change related shell (next shell) (next' (change shell))) :
      Lockstep change related shell (look next) (look next')
  | put {shell changed : Shell} {next next' : Course m α} (step : related shell changed)
      (later : Lockstep change related changed next next') :
      Lockstep change related shell (put changed next) (put (change changed) next')
  | ask {shell : Shell} {answer : Type} {question : m answer} {next next' : answer → Course m α}
      (later : ∀ answer, Lockstep change related shell (next answer) (next' answer)) :
      Lockstep change related shell (ask question next) (ask question next')

namespace Lockstep

variable {change : Shell → Shell} {related : Shell → Shell → Prop} {shell : Shell}
  {course course' : Course m α}

theorem steps (lockstep : Lockstep change related shell course course') :
    course.Steps related shell := by
  induction lockstep with
  | done outcome => trivial
  | look later ih => exact ih
  | put step later ih => exact ⟨step, ih⟩
  | ask later ih => exact ih

/-- In the end, too, the shells differ by the change alone, and the outcomes do not. -/
theorem run_eq [Monad m] [LawfulMonad m] (lockstep : Lockstep change related shell course course') :
    course'.toAction.run (change shell) =
      Prod.map id change <$> course.toAction.run shell := by
  change course'.run (change shell) = Prod.map id change <$> course.run shell
  induction lockstep with
  | @done after outcome => exact (map_pure (Prod.map id change) (outcome, after)).symm
  | look later ih => exact ih
  | put step later ih => exact ih
  | ask later ih =>
    rw [run, run, map_bind]
    exact bind_congr ih

theorem returns (value : α) :
    Lockstep change related shell (pure value : Course m α) (pure value) :=
  .done _

theorem throws (fault : Fault) :
    Lockstep change related shell (throw fault : Course m α) (throw fault) :=
  .done _

theorem bind (lockstep : Lockstep change related shell course course')
    {next next' : α → Course m β}
    (later : ∀ value after, Lockstep change related after (next value) (next' value)) :
    Lockstep change related shell (course >>= next) (course' >>= next') := by
  induction lockstep with
  | @done after outcome =>
    cases outcome with
    | error fault => exact .done _
    | ok value => exact later value after
  | look _ ih => exact .look ih
  | put step _ ih => exact .put step ih
  | ask _ ih => exact .ask ih

theorem ite {condition : Prop} [Decidable condition] {other other' : Course m α}
    (yes : condition → Lockstep change related shell course course')
    (no : ¬condition → Lockstep change related shell other other') :
    Lockstep change related shell (if condition then course else other)
      (if condition then course' else other') := by
  split
  · exact yes ‹_›
  · exact no ‹_›

theorem afterGet {next next' : Shell → Course m α}
    (later : Lockstep change related shell (next shell) (next' (change shell))) :
    Lockstep change related shell (get >>= next) (get >>= next') :=
  .look later

theorem afterAsk {question : m β} {next next' : β → Course m α}
    (later : ∀ answer, Lockstep change related shell (next answer) (next' answer)) :
    Lockstep change related shell ((liftM question : Course m β) >>= next)
      ((liftM question : Course m β) >>= next') :=
  .ask later

theorem afterSet {changed changed' : Shell} {next next' : PUnit → Course m α}
    (same : changed' = change changed) (step : related shell changed)
    (later : Lockstep change related changed (next ⟨⟩) (next' ⟨⟩)) :
    Lockstep change related shell (set changed >>= next) (set changed' >>= next') :=
  same ▸ .put step later

theorem modifies {update update' : Shell → Shell}
    (same : update' (change shell) = change (update shell)) (step : related shell (update shell)) :
    Lockstep change related shell (modify update : Course m PUnit) (modify update') := by
  refine .look ?_
  dsimp only
  rw [same]
  exact .put step (.done _)

theorem afterModify {update update' : Shell → Shell} {next next' : PUnit → Course m α}
    (same : update' (change shell) = change (update shell)) (step : related shell (update shell))
    (later : ∀ after, Lockstep change related after (next ⟨⟩) (next' ⟨⟩)) :
    Lockstep change related shell (modify update >>= next) (modify update' >>= next') :=
  (modifies same step).bind fun _ after => later after

theorem afterwards {back back' : Shell → Shell}
    (lockstep : Lockstep change related shell course course')
    (same : ∀ after, back' (change after) = change (back after))
    (step : ∀ after, related after (back after)) :
    Lockstep change related shell (Execution.afterwards course back)
      (Execution.afterwards course' back') := by
  induction lockstep with
  | @done after outcome =>
    have ends (last : Course m α) (ends : ∀ on, Lockstep change related on last last) :
        Lockstep change related after (modify back >>= fun _ => last)
          (modify back' >>= fun _ => last) :=
      .afterModify (same after) (step after) ends
    cases outcome with
    | error fault => exact ends (throw fault) fun _ => .throws fault
    | ok value => exact ends (pure value) fun _ => .returns value
  | look _ ih => exact .look ih
  | put step _ ih => exact .put step ih
  | ask _ ih => exact .ask ih

theorem mapM {γ : Type} {values : List γ} {course : γ → Course m α}
    (each : ∀ value after, Lockstep change related after (course value) (course value)) :
    Lockstep change related shell (values.mapM course) (values.mapM course) := by
  induction values generalizing shell with
  | nil =>
    rw [List.mapM_nil]
    exact .returns _
  | cons first rest ih =>
    rw [List.mapM_cons]
    exact (each first shell).bind fun one _ => ih.bind fun others _ => .returns _

theorem forM {γ : Type} {values : List γ} {course : γ → Course m PUnit}
    (each : ∀ value after, Lockstep change related after (course value) (course value)) :
    Lockstep change related shell (values.forM course) (values.forM course) := by
  induction values generalizing shell with
  | nil => exact .returns _
  | cons first rest ih => exact (each first shell).bind fun _ _ => ih

end Lockstep

end PolicyShell.Course
