import PolicyShell.Proofs.Execution.Alike

/-! Commands give the depth of a shell back, and look at nested ones only one level down. -/
namespace PolicyShell

namespace Shell

/-- The headroom of a shell at a depth. -/
def room (depth : Nat × Nat) : Nat :=
  (maxFunctionDepth - depth.1) + (maxSourceDepth - depth.2)

theorem reassigned_unsetNamed (shell : Shell) (name : String) :
    shell.Reassigned (shell.unsetNamed name) := by
  unfold unsetNamed unsetElement
  split
  · split
    · split <;> exact ⟨_, _, rfl⟩
    · exact ⟨_, _, rfl⟩
  · exact ⟨_, _, rfl⟩

theorem depth_unsetNamed (shell : Shell) (name : String) :
    (shell.unsetNamed name).depth = shell.depth := by
  obtain ⟨scalars, arrays, same⟩ := shell.reassigned_unsetNamed name
  rw [same]
  rfl

/-- What removing one name keeps is kept when all names are removed. -/
theorem unsetAll_induction {holds : Shell → Prop}
    (unsetFunction : ∀ shell name, holds shell → holds (shell.unsetFunction name))
    (unsetNamed : ∀ shell name, holds shell → holds (shell.unsetNamed name)) {shell : Shell}
    (begins : holds shell) (functions : Bool) (arguments : List String) :
    holds (shell.unsetAll functions arguments) := by
  have folded {change : Shell → String → Shell} (keeps : ∀ shell name, holds shell →
      holds (change shell name)) (names : List String) : holds (names.foldl change shell) := by
    induction names generalizing shell with
    | nil => exact begins
    | cons name rest ih => exact ih (keeps shell name begins)
  fun_induction unsetAll shell functions arguments with
  | case1 => exact begins
  | case2 functions rest ih => exact ih
  | case3 functions rest ih => exact ih
  | case4 functions names =>
    cases functions with
    | true => exact folded unsetFunction names
    | false => exact folded unsetNamed names

private theorem depth_unsetAll (shell : Shell) (functions : Bool) (arguments : List String) :
    (shell.unsetAll functions arguments).depth = shell.depth := by
  refine @unsetAll_induction (·.depth = shell.depth) ?_ ?_ shell rfl functions arguments
  · intro before name kept
    exact kept
  · intro before name kept
    exact (depth_unsetNamed before name).trans kept

end Shell

variable {m : Type → Type} [Monad m] [LawfulMonad m]

/-- What is nested does the same below a limit, and gives the depth back. -/
structure Nested.Alike (limit : Nat) (first second : Nested (Action m)) : Prop where
  call : ∀ shell body, Shell.room shell.depth < limit →
    Action.Alike shell.depth shell (first.call body) (second.call body)
  source : ∀ shell text, Shell.room shell.depth < limit →
    Action.Alike shell.depth shell (first.source text) (second.source text)

open PolicyShell.Action (Alike)

section
variable {depth : Nat × Nat} {shell : Shell}

private theorem alike_evaluate (host : Host m) (words : List Word) (kept : shell.depth = depth) :
    Alike depth shell (Execution.evaluate host words : Action m (List String))
      (Execution.evaluate host words) := by
  unfold Execution.evaluate
  refine .afterGet ?_
  refine (Alike.mapM (fun word after kept => ?_) kept).bind fun texts after kept => .returns _ kept
  refine (Alike.lifts _ kept).bind fun outcome after kept => ?_
  cases outcome with
  | error error => exact .throws _ kept
  | ok texts => exact .returns _ kept

private theorem alike_assign (host : Host m) (assignment : Assignment)
    (kept : shell.depth = depth) :
    Alike depth shell (Execution.assign host assignment : Action m Unit)
      (Execution.assign host assignment) := by
  unfold Execution.assign
  cases assignment.value with
  | scalar word => exact .modifies kept
  | array elements =>
    exact (alike_evaluate host elements kept).bind fun values after kept => .modifies kept

private theorem alike_underAssignments {α : Type} (host : Host m) {action action' : Action m α}
    (alike : ∀ after, after.depth = depth → Alike depth after action action')
    (assignments : List Assignment) (kept : shell.depth = depth) :
    Alike depth shell (Execution.underAssignments host action assignments)
      (Execution.underAssignments host action' assignments) := by
  induction assignments generalizing shell with
  | nil => exact alike shell kept
  | cons assignment rest ih =>
    unfold Execution.underAssignments
    refine .afterGet (Alike.afterwards ?_ fun after kept => kept)
    exact (alike_assign host assignment kept).bind fun _ after kept => ih kept

private theorem alike_shopt (arguments : List String) (kept : shell.depth = depth) :
    Alike depth shell (Shopt.perform arguments : Action m Report) (Shopt.perform arguments) := by
  unfold Shopt.perform
  split
  · exact .returns _ kept
  · refine .afterGet ?_
    dsimp only
    split
    · exact .returns _ kept
    · split
      · exact .returns _ kept
      · refine .afterSet ?_
        split
        · exact .throws _ kept
        · exact .returns _ kept

private theorem alike_setArguments (arguments : List String) (kept : shell.depth = depth) :
    Alike depth shell (Builtin.setArguments arguments : Action m Report)
      (Builtin.setArguments arguments) := by
  unfold Builtin.setArguments
  split
  · exact .afterGet (.returns _ kept)
  · split
    · exact .afterModify (.returns _ kept)
    · split
      · exact .returns _ kept
      · exact .afterModify (.returns _ kept)

private theorem alike_leaveWith (arguments : List String) (kept : shell.depth = depth) :
    Alike depth shell (Builtin.leaveWith arguments : Action m BuiltinOutcome)
      (Builtin.leaveWith arguments) := by
  unfold Builtin.leaveWith
  refine .afterGet ?_
  split
  · exact .returns _ kept
  · split
    · exact .returns _ kept
    · exact .returns _ kept

private theorem alike_exitWith (arguments : List String) (kept : shell.depth = depth) :
    Alike depth shell (Builtin.exitWith arguments : Action m BuiltinOutcome)
      (Builtin.exitWith arguments) := by
  unfold Builtin.exitWith
  refine .afterGet ?_
  split
  · exact .returns _ kept
  · exact .afterModify (.returns _ kept)

variable {limit : Nat} {first second : Nested (Action m)} (alike : first.Alike limit second)
  (room : Shell.room depth ≤ limit)

include alike room

/-- A call that is not too deep leaves less headroom to the body. -/
private theorem alike_call (body : Command) (arguments : List String) (kept : shell.depth = depth) :
    Alike depth shell (Execution.call first body arguments)
      (Execution.call second body arguments) := by
  unfold Execution.call
  refine .afterGet ?_
  subst kept
  split
  · exact .throwsBefore _ rfl
  · rename_i shallow
    dsimp only
    refine .afterSet ?_
    refine Alike.bind (.afterwards (alike.call _ body ?_) ?_) fun flow after kept => ?_
    · -- the call counts as one more level of depth, which the limit leaves room for
      simp only [Shell.room, Shell.depth, Shell.maxFunctionDepth] at *
      omega
    · intro after kept
      simp only [Shell.depth, Prod.mk.injEq] at kept ⊢
      omega
    · cases flow <;> exact .returns _ kept

private theorem alike_sourceUnit (arguments : List String) (content : String)
    (below : shell.sourceDepth < Shell.maxSourceDepth) (kept : shell.depth = depth) :
    Alike depth shell (Builtin.sourceUnit first.source arguments content)
      (Builtin.sourceUnit second.source arguments content) := by
  unfold Builtin.sourceUnit
  refine .afterGet (.afterModify ?_)
  subst kept
  refine Alike.bind (.afterwards (alike.source _ _ ?_) ?_) fun flow after kept => ?_
  · simp only [Shell.room, Shell.depth] at *
    omega
  · intro after kept
    simp only [Shell.depth, Prod.mk.injEq] at kept ⊢
    omega
  · cases flow <;> exact .returns _ kept

private theorem alike_sourceFile (host : Host m) (arguments : List String)
    (kept : shell.depth = depth) :
    Alike depth shell (Builtin.sourceFile host (some first.source) arguments)
      (Builtin.sourceFile host (some second.source) arguments) := by
  unfold Builtin.sourceFile
  cases arguments with
  | nil => exact .returns _ kept
  | cons path rest =>
    refine .afterGet ?_
    split
    · exact .throwsBefore _ kept
    · rename_i shallow
      subst kept
      refine (Alike.lifts _ rfl).bind fun answer after kept => ?_
      cases answer with
      | error error => exact .returns _ kept
      | ok content =>
        have same : after.sourceDepth = shell.sourceDepth := congrArg Prod.snd kept
        exact alike_sourceUnit alike room rest content (by omega) kept

private theorem alike_perform (host : Host m) (builtin : Builtin) (arguments : List String)
    (kept : shell.depth = depth) :
    Alike depth shell (builtin.perform host (some first.source) arguments)
      (builtin.perform host (some second.source) arguments) := by
  unfold Builtin.perform
  cases builtin with
  | source => exact alike_sourceFile alike room host arguments kept
  | shopt => exact (alike_shopt arguments kept).bind fun report after kept => .returns _ kept
  | set => exact (alike_setArguments arguments kept).bind fun report after kept => .returns _ kept
  | unset => exact .afterModify (.returns _ ((Shell.depth_unsetAll ..).trans kept))
  | leave => exact alike_leaveWith arguments kept
  | exit => exact alike_exitWith arguments kept
  | _ => exact .returns _ kept

private theorem alike_dispatch (host : Host m) (name : String) (arguments : List String)
    (kept : shell.depth = depth) :
    Alike depth shell (Execution.dispatch host first name arguments)
      (Execution.dispatch host second name arguments) := by
  unfold Execution.dispatch
  refine .afterGet ?_
  split
  · exact alike_call alike room _ arguments kept
  · rename_i builtin _ _
    refine (alike_perform alike room host builtin arguments kept).bind fun outcome after kept => ?_
    cases outcome with
    | report report => exact .afterModify (.returns _ kept)
    | returning status => exact .returns _ kept
    | exiting status => exact .returns _ kept
  · exact .afterModify (.returns _ kept)

private theorem alike_simple (host : Host m) (assignments : List Assignment) (words : List Word)
    (kept : shell.depth = depth) :
    Alike depth shell (Execution.simple host first assignments words)
      (Execution.simple host second assignments words) := by
  unfold Execution.simple
  refine (alike_evaluate host words kept).bind fun texts after kept => ?_
  cases texts with
  | nil =>
    refine (Alike.forM (fun assignment after kept => ?_) kept).bind fun _ after kept =>
      .returns _ kept
    exact alike_assign host assignment kept
  | cons name arguments =>
    exact alike_underAssignments host
      (fun after kept => alike_dispatch alike room host name arguments kept) assignments kept

omit alike room in
private theorem alike_settle {action action' : Action m Flow}
    (alike : Alike depth shell action action') :
    Alike depth shell (Execution.settle action) (Execution.settle action') := by
  unfold Execution.settle
  refine alike.bind fun flow after kept => ?_
  cases flow with
  | normal status => exact .afterModify (.returns _ kept)
  | returning status => exact .returns _ kept
  | exiting status => exact .returns _ kept

end

section
variable {depth : Nat × Nat} {shell : Shell}

mutual

theorem alike_command {limit : Nat} {first second : Nested (Action m)}
    (alike : first.Alike limit second) (room : Shell.room depth ≤ limit) (host : Host m)
    (command : Command) {shell : Shell} (kept : shell.depth = depth) :
    Alike depth shell (Execution.command Execution.settle host first command)
      (Execution.command Execution.settle host second command) := by
  cases command with
  | simple assignments words =>
    rw [Execution.command, Execution.command]
    exact alike_settle (alike_simple alike room host assignments words kept)
  | chain left connective right =>
    rw [Execution.command, Execution.command]
    refine alike_settle ((alike_command alike room host left kept).bind fun flow after kept => ?_)
    cases flow with
    | normal status =>
      dsimp only
      split
      · exact alike_command alike room host right kept
      · exact .returns _ kept
    | returning status => exact .returns _ kept
    | exiting status => exact .returns _ kept
  | definition name body =>
    rw [Execution.command, Execution.command]
    exact alike_settle (.afterModify (.returns _ kept))
  | group body =>
    rw [Execution.command, Execution.command]
    exact alike_settle (alike_commands alike room host 0 body kept)

theorem alike_commands {limit : Nat} {first second : Nested (Action m)}
    (alike : first.Alike limit second) (room : Shell.room depth ≤ limit) (host : Host m)
    (status : Int) (commands : List Command) {shell : Shell} (kept : shell.depth = depth) :
    Alike depth shell (Execution.commands Execution.settle host first status commands)
      (Execution.commands Execution.settle host second status commands) := by
  cases commands with
  | nil =>
    rw [Execution.commands, Execution.commands]
    exact .returns _ kept
  | cons command rest =>
    rw [Execution.commands, Execution.commands]
    refine (alike_command alike room host command kept).bind fun flow after kept => ?_
    cases flow with
    | normal status => exact alike_commands alike room host status rest kept
    | returning status => exact .returns _ kept
    | exiting status => exact .returns _ kept

end

theorem alike_rest {limit : Nat} {first second : Nested (Action m)}
    (alike : first.Alike limit second) (room : Shell.room depth ≤ limit) (host : Host m)
    (parser : Parser) (status : Int) {shell : Shell} (kept : shell.depth = depth) :
    Alike depth shell (Execution.rest Execution.settle host first parser status)
      (Execution.rest Execution.settle host second parser status) := by
  rw [Execution.rest, Execution.rest]
  refine .afterGet ?_
  dsimp only
  split
  · exact .throws _ kept
  · exact .returns _ kept
  · rename_i command remaining read
    have shorter := Parser.length_unread_lt_of_next read
    refine (alike_command alike room host command kept).bind fun flow after kept => ?_
    cases flow with
    | normal status => exact alike_rest alike room host remaining status kept
    | returning status => exact .returns _ kept
    | exiting status => exact .returns _ kept
termination_by parser.unread.length
decreasing_by simpa using shorter

theorem alike_unit {limit : Nat} {first second : Nested (Action m)}
    (alike : first.Alike limit second) (room : Shell.room depth ≤ limit) (host : Host m)
    (text : String) (kept : shell.depth = depth) :
    Alike depth shell (Execution.unit Execution.settle host first text)
      (Execution.unit Execution.settle host second text) := by
  unfold Execution.unit
  exact .afterGet (alike_rest alike room host _ 0 kept)

end

end PolicyShell
