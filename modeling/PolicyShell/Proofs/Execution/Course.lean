import PolicyShell.Proofs.Execution.Ensures

/-! Actions step by step, so that each shell on the way can be spoken of. -/
namespace PolicyShell

/-- What an action does to the shell and asks outside, one step after the other. -/
inductive Course (m : Type → Type) (α : Type) : Type 1 where
  | done (outcome : Except Fault α)
  | look (next : Shell → Course m α)
  | put (shell : Shell) (next : Course m α)
  | ask {answer : Type} (question : m answer) (next : answer → Course m α)

namespace Course

variable {m : Type → Type} {α β : Type}

def bind (course : Course m α) (next : α → Course m β) : Course m β :=
  match course with
  | done (.ok value) => next value
  | done (.error fault) => done (.error fault)
  | look following => look fun shell => (following shell).bind next
  | put shell following => put shell (following.bind next)
  | ask question following => ask question fun answer => (following answer).bind next

instance : Monad (Course m) where
  pure value := done (.ok value)
  bind := bind

instance : MonadStateOf Shell (Course m) where
  get := look fun shell => done (.ok shell)
  set shell := put shell (done (.ok ⟨⟩))
  modifyGet change := look fun shell => put (change shell).2 (done (.ok (change shell).1))

instance : MonadLift m (Course m) where
  monadLift question := ask question fun answer => done (.ok answer)

/-- Goes on with the handler where the course ends with a fault. -/
def handle (course : Course m α) (handler : Fault → Course m α) : Course m α :=
  match course with
  | done (.ok value) => done (.ok value)
  | done (.error fault) => handler fault
  | look next => look fun shell => (next shell).handle handler
  | put shell next => put shell (next.handle handler)
  | ask question next => ask question fun answer => (next answer).handle handler

instance : MonadExceptOf Fault (Course m) where
  throw fault := done (.error fault)
  tryCatch := handle

private theorem bind_done (course : Course m α) : course.bind pure = course := by
  induction course with
  | done outcome => cases outcome <;> rfl
  | look next ih => exact congrArg look (funext ih)
  | put shell next ih => exact congrArg (put shell) ih
  | ask question next ih => exact congrArg (ask question) (funext ih)

private theorem bind_bind {γ : Type} (course : Course m α) (first : α → Course m β)
    (second : β → Course m γ) :
    (course.bind first).bind second = course.bind fun value => (first value).bind second := by
  induction course with
  | done outcome => cases outcome <;> rfl
  | look next ih => exact congrArg look (funext ih)
  | put shell next ih => exact congrArg (put shell) ih
  | ask question next ih => exact congrArg (ask question) (funext ih)

instance : LawfulMonad (Course m) :=
  .mk' _ bind_done (fun _ _ => rfl) bind_bind

variable [Monad m]

def run : Course m α → Shell → m (Except Fault α × Shell)
  | done outcome, shell => pure (outcome, shell)
  | look next, shell => (next shell).run shell
  | put changed next, _ => next.run changed
  | ask question next, shell => do (next (← question)).run shell

/-- The action that takes the steps. -/
def toAction (course : Course m α) : Action m α := ExceptT.mk course.run

@[simp] theorem toAction_pure (value : α) : (pure value : Course m α).toAction = pure value :=
  rfl

@[simp] theorem toAction_throw (fault : Fault) :
    (throw fault : Course m α).toAction = throw fault :=
  rfl

variable [LawfulMonad m]

@[simp] theorem toAction_get : (get : Course m Shell).toAction = get :=
  funext fun shell => (Action.run_get shell).symm

@[simp] theorem toAction_set (shell : Shell) : (set shell : Course m PUnit).toAction = set shell :=
  funext fun before => (Action.run_set shell before).symm

@[simp] theorem toAction_modify (change : Shell → Shell) :
    (modify change : Course m PUnit).toAction = modify change :=
  funext fun shell => (Action.run_modify change shell).symm

@[simp] theorem toAction_lift (question : m α) :
    (liftM question : Course m α).toAction = liftM question := by
  funext shell
  refine Eq.trans ?_ (Action.run_lift question shell).symm
  exact (map_eq_pure_bind ..).symm

@[simp] theorem toAction_bind (course : Course m α) (next : α → Course m β) :
    (course >>= next).toAction = course.toAction >>= fun value => (next value).toAction := by
  funext shell
  refine Eq.trans ?_ (Action.run_bind course.toAction _ shell).symm
  change (course.bind next).run shell = course.run shell >>= _
  induction course generalizing shell with
  | done outcome =>
    rw [run, pure_bind]
    cases outcome <;> rfl
  | look following ih => exact ih shell shell
  | put changed following ih => exact ih changed
  | ask question following ih =>
    rw [run, bind_assoc]
    exact bind_congr fun answer => ih answer shell

@[simp] theorem toAction_tryCatch (course : Course m α) (handler : Fault → Course m α) :
    (tryCatch course handler).toAction =
      tryCatch course.toAction fun fault => (handler fault).toAction := by
  funext shell
  refine Eq.trans ?_ (Action.run_tryCatch course.toAction _ shell).symm
  change (course.handle handler).run shell = course.run shell >>= _
  induction course generalizing shell with
  | done outcome =>
    rw [run, pure_bind]
    cases outcome <;> rfl
  | look following ih => exact ih shell shell
  | put changed following ih => exact ih changed
  | ask question following ih =>
    rw [run, bind_assoc]
    exact bind_congr fun answer => ih answer shell

@[simp] theorem toAction_afterwards (course : Course m α) (change : Shell → Shell) :
    (Execution.afterwards course change).toAction =
      Execution.afterwards course.toAction change := by
  unfold Execution.afterwards
  simp only [toAction_bind, toAction_tryCatch, toAction_modify, toAction_throw, toAction_pure]

@[simp] theorem toAction_mapM (courses : α → Course m β) (values : List α) :
    (values.mapM courses).toAction = values.mapM fun value => (courses value).toAction := by
  induction values with
  | nil => simp
  | cons first rest ih => simp only [List.mapM_cons, toAction_bind, ih, toAction_pure]

@[simp] theorem toAction_forM (courses : α → Course m PUnit) (values : List α) :
    (values.forM courses).toAction = values.forM fun value => (courses value).toAction := by
  induction values with
  | nil => rfl
  | cons first rest ih => exact (toAction_bind ..).trans (bind_congr fun _ => ih)

omit [Monad m] [LawfulMonad m]

/-- Each shell on the way is safe, and what the course ends with is as it should be, whatever the
answers are. -/
def Always (safe : Shell → Prop) (ends : Except Fault α → Shell → Prop) :
    Course m α → Shell → Prop
  | done outcome, shell => ends outcome shell
  | look next, shell => (next shell).Always safe ends shell
  | put changed next, _ => safe changed ∧ next.Always safe ends changed
  | ask _ next, shell => ∀ answer, (next answer).Always safe ends shell

namespace Always

variable {safe : Shell → Prop} {ends : Except Fault α → Shell → Prop} {course : Course m α}
  {shell : Shell}

theorem bind {lastly : Except Fault β → Shell → Prop} (always : course.Always safe ends shell)
    {next : α → Course m β}
    (later : ∀ value after, ends (.ok value) after → (next value).Always safe lastly after)
    (faults : ∀ fault after, ends (.error fault) after → lastly (.error fault) after) :
    (course >>= next).Always safe lastly shell := by
  change (course.bind next).Always safe lastly shell
  induction course generalizing shell with
  | done outcome =>
    cases outcome with
    | error fault => exact faults fault shell always
    | ok value => exact later value shell always
  | look following ih => exact ih shell always
  | put changed following ih => exact ⟨always.1, ih always.2⟩
  | ask question following ih => exact fun answer => ih answer (always answer)

theorem imp (always : course.Always safe ends shell) {safer : Shell → Prop}
    {weaker : Except Fault α → Shell → Prop} (steps : ∀ on, safe on → safer on)
    (implies : ∀ outcome after, ends outcome after → weaker outcome after) :
    course.Always safer weaker shell := by
  induction course generalizing shell with
  | done outcome => exact implies outcome shell always
  | look following ih => exact ih shell always
  | put changed following ih => exact ⟨steps changed always.1, ih always.2⟩
  | ask question following ih => exact fun answer => ih answer (always answer)

theorem mono (always : course.Always safe ends shell) {weaker : Except Fault α → Shell → Prop}
    (implies : ∀ outcome after, ends outcome after → weaker outcome after) :
    course.Always safe weaker shell :=
  always.imp (fun _ safe => safe) implies

theorem afterwards {change : Shell → Shell}
    (always : course.Always safe (fun outcome after => safe (change after) ∧
      ends outcome (change after)) shell) :
    (Execution.afterwards course change).Always safe ends shell := by
  induction course generalizing shell with
  | done outcome => cases outcome <;> exact always
  | look following ih => exact ih shell always
  | put changed following ih => exact ⟨always.1, ih always.2⟩
  | ask question following ih => exact fun answer => ih answer (always answer)

/-- What holds at the end of a course holds at the end of its action. -/
theorem ensures [Monad m] [LawfulMonad m] (always : course.Always safe ends shell) :
    course.toAction.Ensures shell ends := by
  induction course generalizing shell with
  | done outcome => exact .of_run rfl always
  | look following ih => exact ih shell always
  | put changed following ih => exact ih always.2
  | ask question following ih =>
    exact (Certain.anything question).bind fun answer _ => ih answer (always answer)

end Always

/-- What a course yields, unless it ends with a fault, is so. -/
def Yields (holds : α → Shell → Prop) (shell : Shell) (course : Course m α) : Prop :=
  course.Always (fun _ => True) (fun outcome after => ∀ value, outcome = .ok value →
    holds value after) shell

namespace Yields

variable {course : Course m α} {holds : α → Shell → Prop} {shell : Shell}

theorem returns {value : α} (satisfied : holds value shell) :
    Yields holds shell (pure value : Course m α) := by
  rintro _ ⟨⟩
  exact satisfied

theorem throws (fault : Fault) : Yields holds shell (throw fault : Course m α) :=
  nofun

theorem bind (yields : Yields holds shell course) {lastly : β → Shell → Prop}
    {next : α → Course m β}
    (later : ∀ value after, holds value after → Yields lastly after (next value)) :
    Yields lastly shell (course >>= next) :=
  Always.bind yields (fun value after satisfied => later value after (satisfied value rfl))
    fun _ _ _ _ => nofun

/-- What a course yields in the end need not depend on how it begins. -/
theorem after (course : Course m α) {lastly : β → Shell → Prop} {next : α → Course m β}
    (later : ∀ value after, Yields lastly after (next value)) :
    Yields lastly shell (course >>= next) := by
  have anything : Yields (fun _ _ => True) shell course := by
    induction course generalizing shell with
    | done outcome => exact fun _ _ => trivial
    | look next ih => exact ih shell
    | put changed next ih => exact ⟨trivial, ih⟩
    | ask question next ih => exact fun answer => ih answer
  exact anything.bind fun value after _ => later value after

theorem afterGet {next : Shell → Course m α} (later : Yields holds shell (next shell)) :
    Yields holds shell (get >>= next) :=
  later

end Yields

end Course

end PolicyShell
