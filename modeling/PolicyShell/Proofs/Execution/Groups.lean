import PolicyShell.Proofs.Execution.Ensures
import PolicyShell.Proofs.Execution.Sequence
import PolicyShell.Proofs.Syntax.Programs

/-! A unit that reads the same in both dialects runs as the group of its commands. -/
namespace PolicyShell

/-- These are the commands of the text, whichever dialect each of them is read in. -/
inductive ReadsAs : List Char → List Command → Prop where
  | done {text rest : List Char} (read : ∀ dialect, readNext dialect text = .ok (none, rest)) :
      ReadsAs text []
  | more {text rest : List Char} {first : Command} {others : List Command}
      (read : ∀ dialect, readNext dialect text = .ok (some first, rest))
      (later : ReadsAs rest others) : ReadsAs text (first :: others)

/-- A program is either at its end or has a first command with the others behind it. -/
theorem readNext_of_commands {dialect : Dialect} {length : Nat} {text : List Char}
    {trees : List Command}
    (read : (Parser.reading dialect length text).commands = .ok trees) :
    (trees = [] ∧ ∃ rest, readNext dialect text = .ok (none, rest)) ∨
      ∃ first rest others, trees = first :: others ∧
        readNext dialect text = .ok (some first, rest) ∧
        (Parser.reading dialect length rest).commands = .ok others := by
  rw [Parser.commands_reading] at read
  cases next : readNext dialect text with
  | error rejection =>
    rw [next] at read
    cases read
  | ok result =>
    rw [next] at read
    rcases result with ⟨_ | first, rest⟩
    · left
      cases read
      exact ⟨rfl, rest, rfl⟩
    · right
      obtain ⟨others, later, rfl⟩ := Reading.exists_of_map_ok read
      exact ⟨first, rest, others, rfl, rfl, later⟩

theorem readNext_any {text rest : List Char} {found : Option Command}
    (plain : readNext .plain text = .ok (found, rest))
    (splicing : readNext .splicing text = .ok (found, rest)) (dialect : Dialect) :
    readNext dialect text = .ok (found, rest) := by
  rcases dialect.eq_plain_or_splicing with rfl | rfl
  · exact plain
  · exact splicing

/-- If the dialects agree on the whole program they agree behind each command, too, since they
always go on in the same place. -/
theorem readsAs_of_commands {length : Nat} {text : List Char} {trees : List Command}
    (plain : (Parser.reading .plain length text).commands = .ok trees)
    (splicing : (Parser.reading .splicing length text).commands = .ok trees) :
    ReadsAs text trees := by
  induction trees generalizing text with
  | nil =>
    rcases readNext_of_commands plain with ⟨-, rest, read⟩ | ⟨_, _, _, same, _⟩
    · obtain ⟨_, read', same⟩ := readNext_splicing read
      cases same
      exact .done (readNext_any read read')
    · cases same
  | cons first others ih =>
    rcases readNext_of_commands plain with ⟨same, _⟩ | ⟨_, rest, _, same, read, later⟩
    · cases same
    · cases same
      rcases readNext_of_commands splicing with ⟨same, _⟩ | ⟨_, rest', _, same, read', later'⟩
      · cases same
      · cases same
        obtain ⟨_, again, _⟩ := readNext_splicing read
        obtain ⟨-, rfl⟩ : some first = _ ∧ rest' = rest := by
          simpa using read'.symm.trans again
        exact .more (readNext_any read read') (ih later later')

namespace Execution

open PolicyShell.Action (Ensures)

variable {m : Type → Type} [Monad m] [LawfulMonad m]

/-- An option may change the dialect after any command, but it changes none of those that
follow. -/
theorem rest_eq_commands (host : Host m) (nested : Nested (Action m)) {text : List Char}
    {trees : List Command} (reads : ReadsAs text trees) (dialect : Dialect) (length : Nat)
    (status : Int) :
    rest settle host nested (.reading dialect length text) status =
      commands settle host nested status trees := by
  induction reads generalizing dialect status with
  | done read =>
    rw [rest_eq, commands]
    funext shell
    refine (Action.run_get_bind _ shell).trans ?_
    rw [read]
    rfl
  | more read later ih =>
    rw [rest_eq, commands]
    funext shell
    refine (Action.run_get_bind _ shell).trans ?_
    rw [read]
    dsimp only [restAfter]
    refine congrArg (fun action : Action m Flow => action.run shell) (bind_congr fun flow => ?_)
    cases flow with
    | normal ended => exact ih shell.options.dialect ended
    | returning ended => rfl
    | exiting ended => rfl

/-- A command that ended normally has left its status in the shell. -/
def Settled (outcome : Except Fault Flow) (after : Shell) : Prop :=
  ∀ status, outcome = .ok (.normal status) → after.status = status

/-- Remembering the status once more changes nothing. -/
theorem settle_of_settled {action : Action m Flow}
    (settled : ∀ shell, action.Ensures shell Settled) : settle action = action := by
  funext shell
  refine (Action.run_bind action _ shell).trans (Eq.trans ?_ (bind_pure (action.run shell)))
  refine (settled shell).certain.congr fun ended remembered => ?_
  rcases ended with ⟨fault | flow, after⟩
  · rfl
  · cases flow with
    | normal status =>
      have same : { after with status } = after := by
        rw [← remembered status rfl]
      refine (Action.run_modify_bind _ _ after).trans ?_
      rw [same]
      rfl
    | returning status => rfl
    | exiting status => rfl

private theorem settled_settle (action : Action m Flow) (shell : Shell) :
    (settle action).Ensures shell Settled := by
  unfold settle
  refine (Ensures.anything action shell).bind (fun flow after _ => ?_) fun _ _ _ => nofun
  cases flow with
  | normal status =>
    refine .afterModify (.returns ?_)
    rintro _ ⟨⟩
    rfl
  | returning status => exact .returns nofun
  | exiting status => exact .returns nofun

theorem settled_command (host : Host m) (nested : Nested (Action m)) (tree : Command)
    (shell : Shell) :
    (command settle host nested tree).Ensures shell Settled := by
  cases tree <;> rw [command] <;> exact settled_settle ..

private theorem settled_commands (host : Host m) (nested : Nested (Action m)) (trees : List Command)
    {shell : Shell} {status : Int} (remembered : trees = [] → shell.status = status) :
    (commands settle host nested status trees).Ensures shell Settled := by
  induction trees generalizing shell status with
  | nil =>
    rw [commands]
    refine .returns ?_
    rintro _ ⟨⟩
    exact remembered rfl
  | cons first others ih =>
    rw [commands]
    refine (settled_command host nested first shell).bind (fun flow after settled => ?_)
      fun _ _ _ => nofun
    cases flow with
    | normal ended => exact ih fun _ => settled ended rfl
    | returning ended => exact .returns nofun
    | exiting ended => exact .returns nofun

/-- A text that is the same program in both dialects runs as the group of its commands: that each
of them is read only after the one before has run makes no difference, whatever options the
program changes on the way. -/
theorem runSource_eq_group (host : Host m) {text : String} {trees : List Command}
    (plain : parse .plain text = .ok trees) (splicing : parse .splicing text = .ok trees)
    (present : trees ≠ []) :
    Action.runSource host text = Action.runCommand host (.group trees) := by
  have reads : ReadsAs text.toList trees := readsAs_of_commands plain splicing
  funext shell
  have unit := run_runSource host text shell
  rw [rest_eq_commands host _ reads] at unit
  refine unit.trans ?_
  rw [Action.runCommand]
  refine Eq.trans ?_ (Action.run_get_bind _ shell).symm
  have settled (nested : Nested (Action m)) :
      settle (commands settle host nested 0 trees) = commands settle host nested 0 trees :=
    settle_of_settled fun _ => settled_commands host _ trees (absurd · present)
  rw [command, settled]

/-- Splices are switched on and off again around a word that is none. -/
theorem runSource_eq_group_shopt :
    let host : Host Id := ⟨fun _ => .ok [], fun _ => .ok ""⟩
    let text := "shopt -s oil-parse-at && argv a@b\nshopt -u oil-parse-at; exit 3"
    let turn (flag : String) : Command :=
      .simple [] [.literal "shopt", .literal flag, .literal "oil-parse-at"]
    let trees : List Command :=
      [.chain (turn "-s") .and (.simple [] [.literal "argv", .literal "a@b"]), turn "-u",
        .simple [] [.literal "exit", .literal "3"]]
    parse .plain text = .ok trees ∧ parse .splicing text = .ok trees ∧ trees ≠ [] ∧
      Action.runSource host text = Action.runCommand host (.group trees) := by
  intro host text turn trees
  have plain : parse .plain text = .ok trees := by decide +kernel
  have splicing : parse .splicing text = .ok trees := by decide +kernel
  have present : trees ≠ [] := nofun
  exact ⟨plain, splicing, present, runSource_eq_group host plain splicing present⟩

end Execution

end PolicyShell
