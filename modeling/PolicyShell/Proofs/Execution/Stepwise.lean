import PolicyShell.Proofs.Execution.Course

/-! Commands and units of source as courses. To take the steps of one is to run it. -/
namespace PolicyShell

variable {m : Type → Type} [Monad m]

/-- What the steps of nested courses amount to. -/
def Nested.toActions (nested : Nested (Course m)) : Nested (Action m) :=
  ⟨fun body => (nested.call body).toAction, fun text => (nested.source text).toAction⟩

namespace Course

open Execution

/-- The steps of a command. -/
def runCommand (host : Host m) (tree : Command) : Course m Flow :=
  Execution.runCommand settle host tree

/-- The steps of a unit of source. -/
def runSource (host : Host m) (text : String) : Course m Flow :=
  Execution.runSource settle host text

variable [LawfulMonad m]

private theorem toAction_evaluate (host : Host m) (words : List Word) :
    (evaluate host words : Course m (List String)).toAction = evaluate host words := by
  unfold evaluate
  simp only [toAction_bind, toAction_get, toAction_mapM, toAction_pure, toAction_lift]
  refine bind_congr fun shell => congrArg (· >>= _) (congrArg words.mapM (funext fun word => ?_))
  refine bind_congr fun outcome => ?_
  cases outcome <;> rfl

private theorem toAction_assign (host : Host m) (assignment : Assignment) :
    (assign host assignment : Course m Unit).toAction = assign host assignment := by
  unfold assign
  cases assignment.value with
  | scalar word => exact toAction_modify _
  | array elements => simp only [toAction_bind, toAction_evaluate, toAction_modify]

private theorem toAction_underAssignments {α : Type} (host : Host m) (course : Course m α)
    (assignments : List Assignment) :
    (underAssignments host course assignments).toAction =
      underAssignments host course.toAction assignments := by
  induction assignments with
  | nil => rfl
  | cons assignment rest ih =>
    simp only [underAssignments, toAction_bind, toAction_get, toAction_afterwards,
      toAction_assign, ih]

private theorem toAction_call (nested : Nested (Course m)) (body : Command)
    (arguments : List String) :
    (call nested body arguments).toAction = call nested.toActions body arguments := by
  unfold call
  rw [toAction_bind, toAction_get]
  refine bind_congr fun shell => ?_
  split
  · exact (Action.throw_bind ..).symm
  · simp only [toAction_bind, toAction_set, toAction_afterwards]
    refine bind_congr fun _ => bind_congr fun flow => ?_
    cases flow <;> rfl

private theorem toAction_shopt (arguments : List String) :
    (Shopt.perform arguments : Course m Report).toAction = Shopt.perform arguments := by
  unfold Shopt.perform
  split
  · rfl
  · rw [toAction_bind, toAction_get]
    refine bind_congr fun shell => ?_
    dsimp only
    split
    · rfl
    · split
      · rfl
      · rw [toAction_bind, toAction_set]
        refine bind_congr fun _ => ?_
        split <;> rfl

private theorem toAction_setArguments (arguments : List String) :
    (Builtin.setArguments arguments : Course m Report).toAction =
      Builtin.setArguments arguments := by
  unfold Builtin.setArguments
  split
  · rw [toAction_bind, toAction_get]
    rfl
  · split
    · rw [toAction_bind, toAction_modify]
      rfl
    · split
      · rfl
      · rw [toAction_bind, toAction_modify]
        rfl

private theorem toAction_leaveWith (arguments : List String) :
    (Builtin.leaveWith arguments : Course m BuiltinOutcome).toAction =
      Builtin.leaveWith arguments := by
  unfold Builtin.leaveWith
  rw [toAction_bind, toAction_get]
  refine bind_congr fun shell => ?_
  split
  · rfl
  · split <;> rfl

private theorem toAction_exitWith (arguments : List String) :
    (Builtin.exitWith arguments : Course m BuiltinOutcome).toAction =
      Builtin.exitWith arguments := by
  unfold Builtin.exitWith
  rw [toAction_bind, toAction_get]
  refine bind_congr fun shell => ?_
  split
  · rfl
  · rw [toAction_bind, toAction_modify]
    rfl

private theorem toAction_sourceUnit (source : String → Course m Flow) (arguments : List String)
    (content : String) :
    (Builtin.sourceUnit source arguments content).toAction =
      Builtin.sourceUnit (fun text => (source text).toAction) arguments content := by
  unfold Builtin.sourceUnit
  simp only [toAction_bind, toAction_get, toAction_modify, toAction_afterwards]
  refine bind_congr fun shell => bind_congr fun _ => bind_congr fun flow => ?_
  cases flow <;> rfl

private theorem toAction_sourceFile (host : Host m) (source : String → Course m Flow)
    (arguments : List String) :
    (Builtin.sourceFile host (some source) arguments).toAction =
      Builtin.sourceFile host (some fun text => (source text).toAction) arguments := by
  cases arguments with
  | nil => rfl
  | cons path rest =>
    unfold Builtin.sourceFile
    rw [toAction_bind, toAction_get]
    refine bind_congr fun shell => ?_
    split
    · exact (Action.throw_bind ..).symm
    · rw [toAction_bind, toAction_lift]
      refine bind_congr fun answer => ?_
      cases answer with
      | error error => rfl
      | ok content => exact toAction_sourceUnit source rest content

theorem toAction_perform (host : Host m) (source : String → Course m Flow) (builtin : Builtin)
    (arguments : List String) :
    (builtin.perform host (some source) arguments).toAction =
      builtin.perform host (some fun text => (source text).toAction) arguments := by
  unfold Builtin.perform
  cases builtin with
  | shopt => rw [toAction_bind, toAction_shopt]; rfl
  | set => rw [toAction_bind, toAction_setArguments]; rfl
  | unset => rw [toAction_bind, toAction_modify]; rfl
  | source => exact toAction_sourceFile host source arguments
  | leave => exact toAction_leaveWith arguments
  | exit => exact toAction_exitWith arguments
  | _ => rfl

theorem toAction_dispatch (host : Host m) (nested : Nested (Course m)) (name : String)
    (arguments : List String) :
    (dispatch host nested name arguments).toAction =
      dispatch host nested.toActions name arguments := by
  unfold dispatch
  rw [toAction_bind, toAction_get]
  refine bind_congr fun shell => ?_
  cases shell.functions[name]? with
  | some body => exact toAction_call nested body arguments
  | none =>
    cases Builtin.ofName? name with
    | none =>
      dsimp only
      rw [toAction_bind, toAction_modify]
      rfl
    | some builtin =>
      dsimp only
      rw [toAction_bind, toAction_perform]
      refine bind_congr fun outcome => ?_
      cases outcome with
      | report report => rw [toAction_bind, toAction_modify]; rfl
      | returning status => rfl
      | exiting status => rfl

private theorem toAction_simple (host : Host m) (nested : Nested (Course m))
    (assignments : List Assignment) (words : List Word) :
    (simple host nested assignments words).toAction =
      simple host nested.toActions assignments words := by
  unfold simple
  rw [toAction_bind, toAction_evaluate]
  refine bind_congr fun texts => ?_
  cases texts with
  | nil =>
    simp only [toAction_bind, toAction_forM, toAction_assign]
    rfl
  | cons name arguments =>
    simp only [toAction_underAssignments, toAction_dispatch]

theorem toAction_settle (course : Course m Flow) :
    (settle course).toAction = settle course.toAction := by
  unfold settle
  rw [toAction_bind]
  refine bind_congr fun flow => ?_
  cases flow with
  | normal status => rw [toAction_bind, toAction_modify]; rfl
  | returning status => rfl
  | exiting status => rfl

/-- What a command ends with may take more steps than to remember the status, as long as they come
to the same. -/
def Settles (ending : Course m Flow → Course m Flow) : Prop :=
  ∀ course, (ending course).toAction = settle course.toAction

variable {ending : Course m Flow → Course m Flow} (settles : Settles ending) (host : Host m)

mutual

private theorem toAction_command {ending : Course m Flow → Course m Flow} (settles : Settles ending)
    (host : Host m) (nested : Nested (Course m)) (tree : Command) :
    (command ending host nested tree).toAction = command settle host nested.toActions tree := by
  cases tree with
  | simple assignments words =>
    rw [command, command, settles, toAction_simple]
  | chain left connective right =>
    rw [command, command, settles, toAction_bind, toAction_command settles]
    refine congrArg settle (bind_congr fun flow => ?_)
    cases flow with
    | normal status =>
      dsimp only
      split
      · exact toAction_command settles host nested right
      · rfl
    | returning status => rfl
    | exiting status => rfl
  | definition name body =>
    rw [command, command, settles, toAction_bind, toAction_modify]
    rfl
  | group body =>
    rw [command, command, settles, toAction_commands settles]

private theorem toAction_commands {ending : Course m Flow → Course m Flow}
    (settles : Settles ending) (host : Host m) (nested : Nested (Course m)) (status : Int)
    (trees : List Command) :
    (commands ending host nested status trees).toAction =
      commands settle host nested.toActions status trees := by
  cases trees with
  | nil =>
    rw [commands, commands]
    rfl
  | cons first rest =>
    rw [commands, commands, toAction_bind, toAction_command settles]
    refine bind_congr fun flow => ?_
    cases flow with
    | normal status => exact toAction_commands settles host nested status rest
    | returning status => rfl
    | exiting status => rfl

end

include settles

private theorem toAction_rest (nested : Nested (Course m)) (parser : Parser) (status : Int) :
    (rest ending host nested parser status).toAction =
      rest settle host nested.toActions parser status := by
  rw [rest, rest, toAction_bind, toAction_get]
  refine bind_congr fun shell => ?_
  dsimp only
  rcases read : (parser.withDialect shell.options.dialect).next with ⟨error | found, after⟩
  · rfl
  · cases found with
    | none => rfl
    | some first =>
      have shorter := Parser.length_unread_lt_of_next read
      dsimp only
      rw [toAction_bind, toAction_command settles]
      refine bind_congr fun flow => ?_
      cases flow with
      | normal status => exact toAction_rest nested after status
      | returning status => rfl
      | exiting status => rfl
termination_by parser.unread.length
decreasing_by simpa using shorter

private theorem toAction_unit (nested : Nested (Course m)) (text : String) :
    (unit ending host nested text).toAction = unit settle host nested.toActions text := by
  unfold unit
  rw [toAction_bind, toAction_get]
  exact bind_congr fun shell => toAction_rest settles host nested _ 0

theorem toActions_nested (levels : Nat) :
    (nested ending host levels).toActions = nested settle host levels := by
  induction levels with
  | zero => rfl
  | succ levels ih =>
    rw [nested, nested, ← ih]
    exact congr (congrArg Nested.mk (funext fun body => toAction_command settles host _ body))
      (funext fun text => toAction_unit settles host _ text)

/-- Taking the steps of a command runs it. -/
theorem toAction_runCommand_of_settles (tree : Command) :
    (Execution.runCommand ending host tree).toAction = Action.runCommand host tree := by
  unfold Action.runCommand Execution.runCommand
  simp only [toAction_bind, toAction_get, toAction_command settles, toActions_nested settles]

/-- Taking the steps of a unit runs it. -/
theorem toAction_runSource_of_settles (text : String) :
    (Execution.runSource ending host text).toAction = Action.runSource host text := by
  unfold Action.runSource Execution.runSource
  simp only [toAction_bind, toAction_get, toAction_unit settles, toActions_nested settles]

omit settles

theorem toAction_runCommand (tree : Command) :
    (runCommand host tree).toAction = Action.runCommand host tree :=
  toAction_runCommand_of_settles toAction_settle host tree

theorem toAction_runSource (text : String) :
    (runSource host text).toAction = Action.runSource host text :=
  toAction_runSource_of_settles toAction_settle host text

end Course

end PolicyShell
