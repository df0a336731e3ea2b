import PolicyShell.Proofs.Execution.Invariants

/-! Inside a function no option is switched on that governs how later text is read. -/
namespace PolicyShell

variable {option : ShellOption}

/-- Inside a function an option that governs reading is on after a change only if it was on
before. -/
theorem OptionSet.isOn_of_apply {options changed : OptionSet} {name : String} {on : Bool}
    {found : ShellOption} (applied : options.apply name on .function = .ok (found, changed))
    (governs : option.scope = .grammar) (isOn : changed.isOn option) : options.isOn option := by
  unfold apply at applied
  split at applied
  · cases applied
  · split at applied
    · cases applied
    · rename_i allowed
      cases applied
      rw [isOn_put] at isOn
      split at isOn
      · rename_i same
        subst same
        exact absurd (by simp [isOn, governs]) allowed
      · exact isOn

private theorem Shopt.isOn_of_turnNamed (governs : option.scope = .grammar) (on : Bool)
    (options : OptionSet) (names : List String)
    (isOn : (turnNamed on .function options names).1.isOn option) : options.isOn option := by
  induction names generalizing options with
  | nil => exact isOn
  | cons name rest ih =>
    unfold turnNamed at isOn
    split at isOn
    · rename_i applied
      exact OptionSet.isOn_of_apply applied governs (ih _ isOn)
    · exact ih _ isOn
    · exact isOn

namespace Shell

/-- A shell so many calls deep, with an option on only if it was on in the options given. -/
structure Confined (option : ShellOption) (given : OptionSet) (depth : {depth : Nat // 0 < depth})
    (shell : Shell) : Prop where
  deep : shell.functionDepth = depth
  bounded : shell.options.isOn option → given.isOn option

/-- Only at the top level may a step turn such an option on, and no step leads there from inside a
function. -/
theorem invariant_confined (governs : option.scope = .grammar) (given : OptionSet) :
    Invariant (Confined option given) where
  setScalar confined _ _ := ⟨confined.deep, confined.bounded⟩
  setArray confined _ _ := ⟨confined.deep, confined.bounded⟩
  restore _ later _ := ⟨later.deep, later.bounded⟩
  unsetFunction confined _ := ⟨confined.deep, confined.bounded⟩
  unsetNamed confined name := by
    obtain ⟨scalars, arrays, same⟩ := Shell.reassigned_unsetNamed _ name
    rw [same]
    exact ⟨confined.deep, confined.bounded⟩
  define confined _ := ⟨confined.deep, confined.bounded⟩
  arguments confined _ := ⟨confined.deep, confined.bounded⟩
  turn {depth shell} confined on names := by
    refine ⟨confined.deep, fun isOn => confined.bounded ?_⟩
    have inside : shell.scope = .function := if_pos (confined.deep ▸ depth.property)
    rw [inside] at isOn
    exact Shopt.isOn_of_turnNamed governs on _ names isOn
  status confined _ _ := ⟨confined.deep, confined.bounded⟩
  write confined _ := ⟨confined.deep, confined.bounded⟩
  writeError confined _ := ⟨confined.deep, confined.bounded⟩
  call {depth shell} confined _ arguments := by
    refine ⟨⟨depth + 1, Nat.succ_pos _⟩, ⟨congrArg (· + 1) confined.deep, confined.bounded⟩, ?_⟩
    intro after later
    exact ⟨congrArg (· - 1) later.deep, later.bounded⟩
  source {depth shell} confined _ arguments :=
    ⟨depth, ⟨confined.deep, confined.bounded⟩, fun _ later _ => ⟨later.deep, later.bounded⟩⟩

end Shell

namespace Course

variable {m : Type → Type} {shell : Shell}

/-- What such an option was at the start bounds what it is at each step of a course, and at its
end. -/
theorem Keeps.confined {α : Type} {gives : α → Prop} {course : Course m α}
    {depth : {depth : Nat // 0 < depth}}
    (keeps : Keeps (Shell.Confined option shell.options) depth gives shell course) :
    course.Always (fun on => on.options.isOn option → shell.options.isOn option)
      (fun _ after => after.options.isOn option → shell.options.isOn option) shell := by
  apply Always.imp keeps
  · rintro on ⟨depth, confined⟩
    exact confined.bounded
  · intro outcome after ended
    exact ended.1.bounded

end Course

namespace Execution

variable {m : Type → Type} [Monad m] [LawfulMonad m]

/-- Inside a function nothing switches splices on: if they are on after a command or a unit, or on
the way through it, they were on before it, whatever it calls or sources and however it ends. -/
theorem splices_stay_off (host : Host m) {shell : Shell} (inside : 0 < shell.functionDepth) :
    (∀ tree,
      (Action.runCommand host tree).Ensures shell (fun _ after =>
        after.options.isOn .atSplices → shell.options.isOn .atSplices) ∧
      (Course.runCommand host tree).toAction = Action.runCommand host tree ∧
      (Course.runCommand host tree).Always
        (fun on => on.options.isOn .atSplices → shell.options.isOn .atSplices)
        (fun _ after => after.options.isOn .atSplices → shell.options.isOn .atSplices) shell) ∧
    ∀ text,
      (Action.runSource host text).Ensures shell (fun _ after =>
        after.options.isOn .atSplices → shell.options.isOn .atSplices) ∧
      (Course.runSource host text).toAction = Action.runSource host text ∧
      (Course.runSource host text).Always
        (fun on => on.options.isOn .atSplices → shell.options.isOn .atSplices)
        (fun _ after => after.options.isOn .atSplices → shell.options.isOn .atSplices) shell := by
  have invariant : Invariant (Shell.Confined .atSplices shell.options) :=
    Shell.invariant_confined rfl shell.options
  have confined : shell.Confined .atSplices shell.options ⟨_, inside⟩ := ⟨rfl, id⟩
  constructor
  · intro tree
    have keeps := Course.keeps_runCommand invariant host tree confined
    have confined := keeps.confined
    have same := Course.toAction_runCommand host tree
    exact ⟨same ▸ confined.ensures, same, confined⟩
  · intro text
    have keeps := Course.keeps_runSource invariant host text confined
    have confined := keeps.confined
    have same := Course.toAction_runSource host text
    exact ⟨same ▸ confined.ensures, same, confined⟩

/-- A sourced file that tries to, in a function that is called under an assignment. -/
theorem splices_stay_off_sourced :
    let host : Host Id :=
      ⟨fun _ => .ok [], fun _ => .ok "shopt -u oil-parse-at; shopt -s strict_array oil_parse_at"⟩
    let body : Command := .group [.simple [] [.literal "source", .literal "file"]]
    let shell : Shell := { functionDepth := 1, functions := .ofList [("f", body)] }
    let tree : Command := .simple [⟨"x", .scalar (.literal "1")⟩] [.literal "f"]
    0 < shell.functionDepth ∧ ((Action.runCommand host tree).run shell).2.options =
        { strictArrays := true } ∧
      (Action.runCommand host tree).Ensures shell fun _ after =>
        after.options.isOn .atSplices → shell.options.isOn .atSplices := by
  intro host body shell tree
  have inside : 0 < shell.functionDepth := Nat.one_pos
  exact ⟨inside, by decide +kernel, ((splices_stay_off host inside).1 tree).1⟩

end Execution

end PolicyShell
