import PolicyShell.Proofs.Execution.Invariants
import PolicyShell.Startup.Program

/-! A status is never more than a byte, whatever numbers a program returns or exits with. -/
namespace PolicyShell

/-- A status that the end of a program can tell as it is. -/
def IsByte (status : Int) : Prop := 0 ≤ status ∧ status ≤ 255

theorem isByte_natCast (number : Nat) (small : number ≤ 255 := by decide) :
    IsByte (number : Int) := by
  unfold IsByte
  omega

private theorem isByte_emod (number : Int) : IsByte (number % 256) := by
  unfold IsByte
  omega

/-- The low eight bits of a byte are all of it. -/
theorem IsByte.emod_eq {status : Int} (byte : IsByte status) : status % 256 = status := by
  unfold IsByte at byte
  omega

private theorem Fault.isByte_exitStatus (fault : Fault) : IsByte fault.exitStatus := by
  cases fault with
  | parse error => exact isByte_natCast 2
  | _ => exact isByte_natCast 1

/-- The status that a shell remembers is a byte. -/
def Shell.RemembersByte (shell : Shell) : Prop := IsByte shell.status

/-- Of a number that is asked for only the low eight bits count, and without one the status is
that of the last command. -/
theorem Shell.RemembersByte.requested {shell : Shell} (byte : shell.RemembersByte)
    {arguments : List String} {status : Int}
    (requested : shell.requestedStatus? arguments = some status) : IsByte status := by
  cases arguments with
  | nil =>
    obtain rfl := Option.some.inj requested
    exact byte
  | cons argument rest =>
    obtain ⟨number, -, rfl⟩ := Option.map_eq_some_iff.mp requested
    exact isByte_emod number

/-- Only what a command ends with changes the status that is remembered, and that is a byte. -/
theorem Shell.invariant_remembersByte :
    Invariant (fun (_ : Unit) => Shell.RemembersByte) IsByte where
  setScalar byte _ _ := byte
  setArray byte _ _ := byte
  restore _ later _ := later
  unsetFunction byte _ := byte
  unsetNamed byte name := by
    obtain ⟨scalars, arrays, same⟩ := Shell.reassigned_unsetNamed _ name
    rw [same]
    exact byte
  define byte _ := byte
  arguments byte _ := byte
  turn byte _ _ := byte
  status _ _ allowed := allowed
  write byte _ := byte
  writeError byte _ := byte
  call byte _ _ := ⟨(), byte, fun _ later => later⟩
  source byte _ _ := ⟨(), byte, fun _ later _ => later⟩
  success := isByte_natCast 0
  failure := isByte_natCast 1
  misuse := isByte_natCast 2
  notFound := isByte_natCast 127
  requested byte _ _ asked := byte.requested asked

namespace Course

open Execution

variable {m : Type → Type} {α : Type} {shell : Shell}

/-- Every shell on the way and at the end remembers a byte, and a value that the course gives is
as it should be. -/
def InBytes (holds : α → Prop) (shell : Shell) (course : Course m α) : Prop :=
  course.Always Shell.RemembersByte (fun outcome after => after.RemembersByte ∧
    ∀ value, outcome = .ok value → holds value) shell

theorem Keeps.inBytes {course : Course m Flow} {reached : Shell → Prop}
    (keeps : Keeps (fun (_ : Unit) => Shell.RemembersByte) () (Flow.Fits IsByte reached) shell
      course) : InBytes (IsByte ·.status) shell course :=
  keeps.always.mono fun _ _ ended => ⟨ended.1, fun flow same => (ended.2 flow same).allowed⟩

namespace Showing

/-- Settles a command. For a moment the shell then has the status that the command ends with,
even one with which it leaves a function or the program, in the place of the one remembered. -/
def settle (course : Course m Flow) : Course m Flow := do
  let flow ← Execution.settle course
  let shell ← get
  set { shell with status := flow.status }
  set shell
  return flow

/-- Where only allowed statuses are remembered, only such are shown. -/
theorem closes_settle {ι : Type} {holds : ι → Shell → Prop} {allowed : Int → Prop}
    (invariant : Invariant holds allowed) :
    Closes holds allowed (settle : Course m Flow → Course m Flow) := by
  intro index shell course keeps
  unfold settle
  refine (Course.closes_settle invariant index shell course keeps).bind
    fun flow after kept fits => ?_
  have shown := invariant.status kept flow.status fits.allowed
  exact .afterGet (.afterSet shown (.afterSet kept (.returns kept fits)))

variable [Monad m]

/-- The shell that is put last is the one that was there before. -/
theorem settles_settle [LawfulMonad m] : Settles (m := m) settle := by
  intro course
  unfold settle
  rw [toAction_bind, toAction_settle]
  have unchanged (flow : Flow) :
      (do let shell ← get
          set { shell with status := flow.status }
          set shell
          return flow : Course m Flow).toAction = pure flow := by
    simp only [toAction_bind, toAction_get, toAction_set, toAction_pure]
    funext shell
    refine (Action.run_get_bind _ shell).trans ?_
    refine (Action.run_set_bind _ _ shell).trans ?_
    exact Action.run_set_bind _ _ _
  rw [funext unchanged, bind_pure]

/-- The steps of a command on which each command shows the status that it ends with. -/
def runCommand (host : Host m) (tree : Command) : Course m Flow :=
  Execution.runCommand settle host tree

/-- The steps of a unit on which each command shows the status that it ends with. -/
def runSource (host : Host m) (text : String) : Course m Flow :=
  Execution.runSource settle host text

theorem toAction_runCommand [LawfulMonad m] (host : Host m) (tree : Command) :
    (runCommand host tree).toAction = Action.runCommand host tree :=
  toAction_runCommand_of_settles settles_settle host tree

theorem toAction_runSource [LawfulMonad m] (host : Host m) (text : String) :
    (runSource host text).toAction = Action.runSource host text :=
  toAction_runSource_of_settles settles_settle host text

theorem inBytes_runCommand (host : Host m) (tree : Command) (byte : shell.RemembersByte) :
    InBytes (IsByte ·.status) shell (runCommand host tree) :=
  (keeps_runCommand_of_closes Shell.invariant_remembersByte
    (closes_settle Shell.invariant_remembersByte) host tree byte).inBytes

theorem inBytes_runSource (host : Host m) (text : String) (byte : shell.RemembersByte) :
    InBytes (IsByte ·.status) shell (runSource host text) :=
  (keeps_runSource_of_closes Shell.invariant_remembersByte
    (closes_settle Shell.invariant_remembersByte) host text byte).inBytes

end Showing

end Course

variable {m : Type → Type} [Monad m]

/-- Runs the shell, and tells the status of the program whole. -/
def Invocation.runWhole (invocation : Invocation) (files : Files m) (input : m String)
    (processId : Nat) : m Report := do
  match invocation.shell? with
  | .error error => return run.failure error.message
  | .ok shell =>
    match ← invocation.source files input { shell with processId } with
    | .error reason => return run.failure reason
    | .ok (text, shell) =>
      let (report, _) ← shell.runProgram files.host text
      return if invocation.json then
          { status := report.status, out := report.toJson.render ++ "\n" }
        else report

private theorem Invocation.remembersByte_of_shell? {invocation : Invocation} {shell : Shell}
    (made : invocation.shell? = .ok shell) : shell.RemembersByte := by
  unfold shell? at made
  cases changed : invocation.changes.foldlM shell?.change ({} : OptionSet) with
  | error error =>
    rw [changed] at made
    cases made
  | ok options =>
    rw [changed] at made
    obtain rfl := Except.ok.inj made
    exact isByte_natCast 0

namespace Execution

open PolicyShell.Action (Ensures)

variable [LawfulMonad m] {shell : Shell}

theorem ensures_byte {course : Course m Flow} {action : Action m Flow}
    (taken : course.toAction = action) (inBytes : Course.InBytes (IsByte ·.status) shell course) :
    action.Ensures shell fun outcome after => after.RemembersByte ∧
      ∀ flow, outcome = .ok flow → IsByte flow.status :=
  taken ▸ Course.Always.ensures inBytes

/-- A program that ends with a fault has a byte for its status, too. -/
theorem certain_runProgram (host : Host m) (text : String) (byte : shell.RemembersByte) :
    Certain (fun ended => IsByte ended.1.status ∧ ended.2.RemembersByte)
      (shell.runProgram host text) := by
  have ran := ensures_byte (Course.Showing.toAction_runSource host text)
    (Course.Showing.inBytes_runSource host text byte)
  unfold Shell.runProgram
  refine ran.certain.bind fun ended known => ?_
  rcases ended with ⟨fault | flow, after⟩
  · exact .returns ⟨fault.isByte_exitStatus, fault.isByte_exitStatus⟩
  · have found : IsByte flow.status := known.2 flow rfl
    exact .returns ⟨found, found⟩

/-- Where the text of a program comes from has no influence on the status remembered. -/
theorem certain_source (invocation : Invocation) (files : Files m) (input : m String)
    (byte : shell.RemembersByte) :
    Certain (fun found => ∀ text after, found = .ok (text, after) → after.RemembersByte)
      (invocation.source files input shell) := by
  unfold Invocation.source
  split
  · exact .returns fun _ _ same => by cases same; exact byte
  · refine (Certain.anything input).bind fun text _ => ?_
    exact .returns fun _ _ same => by cases same; exact byte
  · dsimp only
    split
    · rw [pure_bind]
      exact .returns nofun
    · refine (Certain.anything _).bind fun content _ => ?_
      cases content with
      | error error => exact .returns nofun
      | ok text => exact .returns fun _ _ same => by cases same; exact byte

theorem run_eq_runWhole (invocation : Invocation) (files : Files m) (input : m String)
    (processId : Nat) :
    invocation.run files input processId = invocation.runWhole files input processId := by
  unfold Invocation.run Invocation.runWhole
  cases made : invocation.shell? with
  | error error => rfl
  | ok shell =>
    have started : shell.RemembersByte := Invocation.remembersByte_of_shell? made
    have byte : { shell with processId }.RemembersByte := started
    dsimp only
    refine (certain_source invocation files input byte).congr fun found known => ?_
    rcases found with reason | ⟨text, after⟩
    · rfl
    · have ends := certain_runProgram files.host text (known text after rfl)
      refine ends.congr fun ended byte => ?_
      rw [byte.1.emod_eq]

/-- Statuses are bytes, if the shell remembers one at first. So is what a command or a unit ends
with, and what the shell remembers then. Step by step, whatever the host answers, so are the status
that the shell remembers and the one that each command on the way ends with. So is that of a
program, also if it ends with a fault; to keep the low eight bits of it changes nothing. -/
theorem statuses_are_bytes (host : Host m) (byte : IsByte shell.status) :
    (∀ tree,
      (Action.runCommand host tree).Ensures shell (fun outcome after => IsByte after.status ∧
        ∀ flow, outcome = .ok flow → IsByte flow.status) ∧
      (Course.Showing.runCommand host tree).toAction = Action.runCommand host tree ∧
      Course.InBytes (IsByte ·.status) shell (Course.Showing.runCommand host tree)) ∧
    (∀ text,
      (Action.runSource host text).Ensures shell (fun outcome after => IsByte after.status ∧
        ∀ flow, outcome = .ok flow → IsByte flow.status) ∧
      (Course.Showing.runSource host text).toAction = Action.runSource host text ∧
      Course.InBytes (IsByte ·.status) shell (Course.Showing.runSource host text)) ∧
    (∀ text, Certain (fun (report, after) => IsByte report.status ∧ IsByte after.status)
      (shell.runProgram host text)) ∧
    ∀ (invocation : Invocation) (files : Files m) (input : m String) (processId : Nat),
      invocation.run files input processId = invocation.runWhole files input processId := by
  refine ⟨fun tree => ?_, fun text => ?_, fun text => certain_runProgram host text byte,
    run_eq_runWhole⟩
  · have inBytes := Course.Showing.inBytes_runCommand host tree byte
    have taken := Course.Showing.toAction_runCommand host tree
    exact ⟨ensures_byte taken inBytes, taken, inBytes⟩
  · have inBytes := Course.Showing.inBytes_runSource host text byte
    have taken := Course.Showing.toAction_runSource host text
    exact ⟨ensures_byte taken inBytes, taken, inBytes⟩

/-- Numbers that are too large or negative, which a function, a file and the program end with. -/
theorem statuses_are_bytes_wrapped :
    let host : Host Id := ⟨fun _ => .ok [], fun _ => .ok "f; return -212"⟩
    let shell : Shell := { status := 255 }
    let text := "f() \x7b return 511; \x7d; f || source file || exit"
    LawfulMonad Id ∧ IsByte shell.status ∧
      (shell.runProgram host text).1.status = 44 ∧
      ((Action.runSource host text).run shell).1.toOption = some (.exiting 44) ∧
      Course.InBytes (IsByte ·.status) shell (Course.Showing.runSource host text) := by
  intro host shell text
  have byte : IsByte shell.status := isByte_natCast 255
  exact ⟨inferInstance, byte, by decide +kernel, by decide +kernel,
    ((statuses_are_bytes host byte).2.1 text).2.2⟩

end Execution

end PolicyShell
