import PolicyShell.Proofs.Execution.Groups
import PolicyShell.Proofs.Expansion.Shape
import PolicyShell.Proofs.Syntax.Quoted

/-! Quoting loses nothing: quoted texts come out unchanged where they were handed from one line of
a program to the next. -/
namespace PolicyShell

namespace Action

variable {m : Type → Type} [Monad m] [LawfulMonad m] {α β : Type}

theorem run_bind_of_ok {action : Action m α} {value : α} {shell after : Shell}
    (ran : action.run shell = pure (.ok value, after)) (next : α → Action m β) :
    (action >>= next).run shell = (next value).run after := by
  rw [run_bind, ran, pure_bind, resume]

private theorem run_lift_pure_bind (value : α) (next : α → Action m β) (shell : Shell) :
    ((liftM (pure value : m α) : Action m α) >>= next).run shell = (next value).run shell := by
  rw [run_bind, run_lift, map_pure, pure_bind, resume]

private theorem run_mapM {change : α → Action m β} {found : α → β} {shell : Shell} {values : List α}
    (each : ∀ value ∈ values, (change value).run shell = pure (.ok (found value), shell)) :
    (values.mapM change).run shell = pure (.ok (values.map found), shell) := by
  induction values with
  | nil => rfl
  | cons value values ih =>
    obtain ⟨here, later⟩ := List.forall_mem_cons.mp each
    rw [List.mapM_cons, run_bind_of_ok here, run_bind_of_ok (ih later)]
    rfl

/-- A word of which no field is a pattern gives its texts, and no file is looked up. -/
theorem evaluate_of_done (host : Host m) {policy : Policy} {bindings : Bindings} {word : Word}
    {texts : List String} (done : word.fields policy bindings = .ok (texts.map .done)) :
    word.evaluate host policy bindings = pure (.ok texts) := by
  have each : (texts.map .done).mapM (Field.expand host) = pure (texts.map ([·])) := by
    rw [List.mapM_map]
    exact List.mapM_pure
  have whole : (texts.map ([·])).flatten = texts :=
    (List.flatMap_def ..).symm.trans (List.flatMap_singleton' texts)
  rw [Word.evaluate, done]
  dsimp only
  rw [each, pure_bind, whole]

private theorem run_evaluate (host : Host m) {shell : Shell} {words : List Word}
    {texts : Word → List String}
    (done : ∀ word ∈ words, word.fields shell.options.policy shell.bindings =
      .ok ((texts word).map .done)) :
    (Execution.evaluate host words : Action m (List String)).run shell =
      pure (.ok (words.flatMap texts), shell) := by
  unfold Execution.evaluate
  refine (run_get_bind _ shell).trans ?_
  rw [List.flatMap_def]
  refine run_bind_of_ok (run_mapM fun word member => ?_) _
  rw [evaluate_of_done host (done word member)]
  exact run_lift_pure_bind ..

/-- Words of one quoted part each give the texts of these. -/
theorem run_evaluate_parts (host : Host m) (shell : Shell) (parts : List WordPart)
    (plain : ∀ part ∈ parts, part.isGlob = false ∧ part.isQuoted = true) :
    (Execution.evaluate host (parts.map fun part => ⟨[part]⟩) : Action m (List String)).run shell =
      pure (.ok (parts.flatMap shell.bindings.texts), shell) := by
  have texts : (parts.map fun part => (⟨[part]⟩ : Word)).flatMap
      (·.parts.flatMap shell.bindings.texts) = parts.flatMap shell.bindings.texts := by
    simp [List.flatMap_map]
  rw [← texts]
  apply run_evaluate
  intro word member
  obtain ⟨part, present, rfl⟩ := List.mem_map.mp member
  obtain ⟨noGlob, quoted⟩ := plain part present
  rw [Word.fields_single _ _ noGlob quoted, List.flatMap_singleton]

end Action

namespace Execution

variable {m : Type → Type} [Monad m] [LawfulMonad m] (host : Host m) (nested : Nested (Action m))

/-- The command ends normally with the status that it leaves in the shell. -/
def Leaves (tree : Command) (shell after : Shell) : Prop :=
  (command settle host nested tree).run shell = pure (.ok (.normal after.status), after)

variable {host nested} {shell after : Shell}

theorem run_settle {action : Action m Flow} {status : Int}
    (ran : action.run shell = pure (.ok (.normal status), after)) :
    (settle action).run shell = pure (.ok (.normal status), { after with status }) := by
  rw [settle, Action.run_bind_of_ok ran]
  exact Action.run_modify_bind ..

theorem run_dispatch {name : String} {builtin : Builtin} {arguments : List String} {report : Report}
    (undefined : shell.functions[name]? = none) (known : Builtin.ofName? name = some builtin)
    (performed : (builtin.perform host (some nested.source) arguments).run shell =
      pure (.ok (.report report), after)) :
    (dispatch host nested name arguments).run shell =
      pure (.ok (.normal report.status), (after.write report.out).writeError report.err) := by
  rw [dispatch]
  refine (Action.run_get_bind _ shell).trans ?_
  rw [undefined, known]
  dsimp only
  rw [Action.run_bind_of_ok performed]
  exact Action.run_modify_bind ..

theorem leaves_builtin {parts : List WordPart} {name : String} {builtin : Builtin}
    {arguments : List String} {report : Report}
    (plain : ∀ part ∈ parts, part.isGlob = false ∧ part.isQuoted = true)
    (texts : parts.flatMap shell.bindings.texts = name :: arguments)
    (undefined : shell.functions[name]? = none) (known : Builtin.ofName? name = some builtin)
    (performed : (builtin.perform host (some nested.source) arguments).run shell =
      pure (.ok (.report report), after)) :
    Leaves host nested (.simple [] (parts.map fun part => ⟨[part]⟩)) shell
      { (after.write report.out).writeError report.err with status := report.status } := by
  have evaluated := Action.run_evaluate_parts host shell parts plain
  rw [texts] at evaluated
  rw [Leaves, command]
  apply run_settle
  rw [simple, Action.run_bind_of_ok evaluated]
  exact run_dispatch undefined known performed

private theorem run_commands {tree : Command} {others : List Command}
    (left : Leaves host nested tree shell after) (status : Int) :
    (commands settle host nested status (tree :: others)).run shell =
      (commands settle host nested after.status others).run after := by
  rw [commands, Action.run_bind_of_ok left]

open Quoting (assigned elements relay relayed)

private theorem leaves_set (texts : List String) (undefined : shell.functions["set"]? = none) :
    Leaves host nested (.simple [] (("set" :: "--" :: texts).map .literal)) shell
      { shell with arguments := texts, status := 0 } := by
  have plain : ∀ part ∈ ("set" :: "--" :: texts).map WordPart.literal,
      part.isGlob = false ∧ part.isQuoted = true := by
    intro part member
    obtain ⟨text, -, rfl⟩ := List.mem_map.mp member
    exact ⟨rfl, rfl⟩
  have values : (("set" :: "--" :: texts).map WordPart.literal).flatMap shell.bindings.texts =
      "set" :: "--" :: texts := by
    rw [List.flatMap_map]
    exact List.flatMap_singleton' _
  have performed : (Builtin.set.perform host (some nested.source) ("--" :: texts)).run shell =
      pure (.ok (.report {}), { shell with arguments := texts }) := by
    rw [Builtin.perform, Builtin.setArguments, if_pos rfl]
    refine (Action.run_bind_of_ok ?_ _).trans rfl
    exact Action.run_modify_bind ..
  have left := leaves_builtin plain values undefined rfl performed
  have quiet (shell : Shell) : (shell.write "").writeError "" = shell := by
    simp [Shell.write, Shell.writeError]
  rw [quiet, List.map_map] at left
  exact left

private theorem run_assign (host : Host m) (shell : Shell) :
    (assign host assigned : Action m Unit).run shell =
      pure (.ok ⟨⟩, shell.setArray "a" shell.arguments) := by
  have evaluated := Action.run_evaluate_parts host shell [.arguments true true]
    (by simp [WordPart.isGlob, WordPart.isQuoted])
  rw [List.flatMap_singleton] at evaluated
  refine (Action.run_bind_of_ok evaluated _).trans ?_
  exact Action.run_modify ..

private theorem leaves_assigned (shell : Shell) :
    Leaves host nested (.simple [assigned] []) shell
      { shell.setArray "a" shell.arguments with status := 0 } := by
  have noWord : (evaluate host [] : Action m _).run shell = pure (.ok [], shell) :=
    Action.run_evaluate_parts host shell [] nofun
  rw [Leaves, command]
  apply run_settle
  rw [simple, Action.run_bind_of_ok noWord]
  dsimp only
  have all : ([assigned].forM (assign host) : Action m PUnit).run shell =
      pure (.ok ⟨⟩, shell.setArray "a" shell.arguments) :=
    (Action.run_bind_of_ok (run_assign host shell) _).trans rfl
  rw [Action.run_bind_of_ok all]
  rfl

private theorem leaves_argv {shell : Shell} {texts : List String}
    (undefined : shell.functions["argv"]? = none) (known : shell.arrays["a"]? = some texts) :
    Leaves host nested (.simple [] [.literal "argv", elements]) shell
      { shell.write (Listing.line texts) with status := 0 } := by
  let parts : List WordPart := [.literal "argv", .array "a" true true]
  have plain : ∀ part ∈ parts, part.isGlob = false ∧ part.isQuoted = true := by
    simp [parts, WordPart.isGlob, WordPart.isQuoted]
  have array : shell.bindings.array "a" = texts := by
    simp [Bindings.array, Shell.bindings, Shell.array?, known]
  have values : parts.flatMap shell.bindings.texts = "argv" :: texts := by
    simp [parts, Bindings.texts, elementTexts, array]
  have performed : (Builtin.argv.perform host (some nested.source) texts).run shell =
    pure (.ok (.report { out := Listing.line texts }), shell) := rfl
  have left := leaves_builtin plain values undefined rfl performed
  have quiet (shell : Shell) : shell.writeError "" = shell := by simp [Shell.writeError]
  rw [quiet] at left
  exact left

/-- The shell after the three lines. -/
def relayedTo (shell : Shell) (texts : List String) : Shell :=
  { shell.setArray "a" texts with arguments := texts, status := 0 }

private theorem run_relayed (host : Host m) (nested : Nested (Action m)) {shell : Shell}
    (texts : List String) (noSet : shell.functions["set"]? = none)
    (noArgv : shell.functions["argv"]? = none) (status : Int) :
    (commands settle host nested status (relayed texts)).run shell =
      pure (.ok (.normal 0), (relayedTo shell texts).write (Listing.line texts)) := by
  have first : Leaves host nested (.simple [] (("set" :: "--" :: texts).map .literal)) shell
      { shell with arguments := texts, status := 0 } := leaves_set texts noSet
  have second : Leaves host nested (.simple [assigned] []) _ (relayedTo shell texts) :=
    leaves_assigned { shell with arguments := texts, status := 0 }
  have known : (relayedTo shell texts).arrays["a"]? = some texts :=
    Std.TreeMap.getElem?_insert_self
  have third : Leaves host nested _ (relayedTo shell texts) _ := leaves_argv noArgv known
  refine (run_commands first _).trans ((run_commands second _).trans ?_)
  exact (run_commands third _).trans rfl

/-- Whatever texts are quoted, and in whatever way, comes out as it was: the first line of the
program hands them to the positional parameters, the second to an array, and the third shows the
elements of that. Neither the values nor the options of the shell change anything about it. -/
theorem runProgram_relay (host : Host m) {shell : Shell} {items : List (Quoting × String)}
    (fits : ∀ item ∈ items, item.1.Fits item.2.toList) (noOut : shell.out = "")
    (noErr : shell.err = "") (noSet : "set" ∉ shell.functions) (noArgv : "argv" ∉ shell.functions)
    (terminated : Bool) :
    shell.runProgram host (relay items terminated) =
      pure (⟨0, Listing.line (items.map Prod.snd), ""⟩, relayedTo shell (items.map Prod.snd)) := by
  have noSet : shell.functions["set"]? = none := Std.TreeMap.getElem?_eq_none noSet
  have noArgv : shell.functions["argv"]? = none := Std.TreeMap.getElem?_eq_none noArgv
  have reads : ReadsAs (relay items terminated).toList (relayed (items.map Prod.snd)) :=
    readsAs_of_commands (Quoting.parse_relay fits .plain terminated)
      (Quoting.parse_relay fits .splicing terminated)
  have ran := run_runSource host (relay items terminated) shell
  rw [rest_eq_commands host _ reads, run_relayed host _ _ noSet noArgv] at ran
  rw [Shell.runProgram, ran, pure_bind]
  dsimp only
  rcases shell
  obtain rfl := noOut
  obtain rfl := noErr
  simp [relayedTo, Shell.write, Shell.drained, Shell.setArray, Flow.status]

/-- A quote and an asterisk, an expansion with a newline, a splice, and nothing at all. -/
theorem runProgram_relay_splice :
    let host : Host Id := ⟨fun _ => .ok [], fun _ => .ok ""⟩
    let shell : Shell := { scalars := .ofList [("IFS", "s@"), ("x", "*")] }
    let items : List (Quoting × String) :=
      [(.single, "it's *"), (.double, "$x\n\\"), (.backslashes, "@a"), (.double, "")]
    relay items true =
        "set -- 'it'\\''s *' \"\\$x\n\\\\\" \\@\\a \"\"\na=(\"$@\")\nargv \"$\x7ba[@]\x7d\"\n" ∧
      (∀ item ∈ items, item.1.Fits item.2.toList) ∧ shell.out = "" ∧ shell.err = "" ∧
      "set" ∉ shell.functions ∧ "argv" ∉ shell.functions ∧
      shell.runProgram host (relay items true) =
        (⟨0, Listing.line ["it's *", "$x\n\\", "@a", ""], ""⟩,
          relayedTo shell ["it's *", "$x\n\\", "@a", ""]) := by
  intro host shell items
  have fits : ∀ item ∈ items, item.1.Fits item.2.toList := by decide
  have noSet : "set" ∉ shell.functions := Std.TreeMap.not_mem_emptyc
  have noArgv : "argv" ∉ shell.functions := Std.TreeMap.not_mem_emptyc
  exact ⟨by decide +kernel, fits, rfl, rfl, noSet, noArgv,
    runProgram_relay host fits rfl rfl noSet noArgv true⟩

end Execution

end PolicyShell
