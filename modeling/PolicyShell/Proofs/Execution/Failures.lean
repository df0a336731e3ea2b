import PolicyShell.Proofs.Execution.Conflicts
import PolicyShell.Proofs.Execution.Separate

/-! What is left of the variables by a command whose words or assignments fail. -/
namespace PolicyShell

/-- All of the words come to nothing, so that there is no command to be run. -/
def Shell.Elides (shell : Shell) (words : List Word) : Prop :=
  ∀ word ∈ words, word.fields shell.options.policy shell.bindings = .ok []

/-- Every name stands for the same in both shells. -/
def Shell.SameVariables (shell after : Shell) : Prop :=
  ∀ name : String, after.scalars[name]? = shell.scalars[name]? ∧
    after.arrays[name]? = shell.arrays[name]?

private theorem Shell.sameVariables_iff_saved {shell after : Shell} :
    shell.SameVariables after ↔ ∀ name, after.saved name = shell.saved name := by
  refine forall_congr' fun name => ?_
  simp [saved]

variable {m : Type → Type} [Monad m]

/-- What a simple command evaluates for itself: its words, and then what it assigns. -/
def Execution.prepare (host : Host m) (assignments : List Assignment) (words : List Word) :
    Action m PUnit := do
  let _ ← evaluate host words
  assignments.forM (assign host)

theorem verdict_elements_cons (first : Assignment) (rest : List Assignment) :
    verdict ((first :: rest).flatMap Assignment.elements) =
      verdict first.elements >>= fun _ => verdict (rest.flatMap Assignment.elements) := by
  rw [List.flatMap_cons, verdict_append]

/-- The assignment that fails is the first in which there is a conflict. -/
theorem exists_failing {assignments : List Assignment} {fault : Fault}
    (refused : verdict (assignments.flatMap Assignment.elements) = .error fault) :
    ∃ made failing later, assignments = made ++ failing :: later ∧
      verdict (made.flatMap Assignment.elements) = .ok () ∧
      verdict failing.elements = .error fault := by
  induction assignments with
  | nil => cases refused
  | cons first rest ih =>
    rw [verdict_elements_cons] at refused
    cases here : verdict first.elements with
    | error other =>
      rw [here] at refused
      cases refused
      exact ⟨[], first, rest, rfl, rfl, here⟩
    | ok =>
      rw [here] at refused
      obtain ⟨made, failing, later, rfl, clear, failed⟩ := ih refused
      refine ⟨first :: made, failing, later, rfl, ?_, failed⟩
      rw [verdict_elements_cons, here]
      exact clear

section
variable [LawfulMonad m]

/-- A field has a text, even if no path matches it. -/
theorem Field.certain_expand (host : Host m) (field : Field) :
    Certain (· ≠ []) (field.expand host) := by
  cases field with
  | done text => exact .returns (List.cons_ne_nil text [])
  | pending pattern literal =>
    unfold expand
    refine (Certain.anything (host.glob pattern)).bind fun outcome _ => ?_
    rcases outcome with error | _ | ⟨first, others⟩
    · exact .returns (List.cons_ne_nil literal [])
    · exact .returns (List.cons_ne_nil literal [])
    · refine .returns fun empty => ?_
      have length : ((first :: others).mergeSort fun a b => decide (a ≤ b)).length =
          (first :: others).length := List.length_mergeSort _
      rw [empty] at length
      cases length

private theorem certain_mapM_expand (host : Host m) {fields : List Field} (present : fields ≠ []) :
    Certain (fun texts => texts.flatten ≠ []) (fields.mapM (Field.expand host)) := by
  obtain ⟨first, others, rfl⟩ := List.exists_cons_of_ne_nil present
  rw [List.mapM_cons]
  refine (first.certain_expand host).bind fun texts some => ?_
  refine (Certain.anything _).bind fun later _ => .returns ?_
  rw [List.flatten_cons]
  exact List.append_ne_nil_of_left_ne_nil some _

/-- Without a conflict, a word has no text only if it has no field. -/
theorem Word.certain_texts (host : Host m) (policy : Policy) (bindings : Bindings) {word : Word}
    (clear : ¬word.hasConflict) :
    Certain (fun texts => texts = [] → word.fields policy bindings = .ok [])
      (word.texts host policy.words bindings) := by
  unfold texts fields
  rw [Bool.eq_false_iff.mpr clear, Bool.and_false, if_neg Bool.false_ne_true,
    FieldBuilder.addPart_arrays policy]
  dsimp only
  generalize (word.parts.foldl (FieldBuilder.addPart ⟨policy.words, .lenient⟩ bindings)
    ({} : FieldBuilder)).finish = fields
  apply Certain.map
  by_cases empty : fields = []
  · exact (Certain.anything _).mono fun _ _ _ => congrArg _ empty
  · apply (certain_mapM_expand host empty).mono
    intro texts some nothing
    exact absurd nothing some

private theorem Word.certain_mapM_texts (host : Host m) (shell : Shell) {words : List Word}
    (clear : ∀ word ∈ words, ¬word.hasConflict) (present : ¬shell.Elides words) :
    Certain (fun texts => texts.flatten ≠ [])
      (words.mapM (Word.texts host shell.options.policy.words shell.bindings)) := by
  induction words with
  | nil => exact absurd nofun present
  | cons word rest ih =>
    obtain ⟨here, later⟩ := List.forall_mem_cons.mp clear
    rw [List.mapM_cons]
    refine (word.certain_texts host shell.options.policy _ here).bind fun texts elided => ?_
    by_cases some : texts = []
    · have others : ¬shell.Elides rest := fun none =>
        present (List.forall_mem_cons.mpr ⟨elided some, none⟩)
      refine (ih later others).bind fun found nonempty => .returns ?_
      rwa [some, List.flatten_cons, List.nil_append]
    · refine (Certain.anything _).bind fun found _ => .returns ?_
      rw [List.flatten_cons]
      exact List.append_ne_nil_of_left_ne_nil some _

end

namespace Execution

open PolicyShell.Action (Ensures)

variable [LawfulMonad m] {shell : Shell}

private theorem ensures_evaluate_present (host : Host m) {words : List Word}
    (clear : ∀ word ∈ words, ¬word.hasConflict) (present : ¬shell.Elides words) :
    (evaluate host words : Action m (List String)).Ensures shell fun outcome after =>
      (∃ name arguments, outcome = .ok (name :: arguments)) ∧ after = shell := by
  unfold Ensures
  rw [Action.run_evaluate_of_clear host shell clear]
  refine Certain.map ((Word.certain_mapM_texts host shell clear present).mono fun texts some => ?_)
  obtain ⟨name, arguments, whole⟩ := List.exists_cons_of_ne_nil some
  exact ⟨⟨name, arguments, congrArg _ whole⟩, rfl⟩

theorem run_evaluateWord_of_fields (host : Host m) {word : Word} {fields : List Field}
    (found : word.fields shell.options.policy shell.bindings = .ok fields) :
    (Action.evaluateWord host shell word).run shell =
      (fun texts => (.ok texts.flatten, shell)) <$> fields.mapM (Field.expand host) := by
  unfold Action.evaluateWord Word.evaluate
  rw [found, Action.run_bind, Action.run_lift]
  dsimp only
  rw [← map_eq_pure_bind, Functor.map_map, bind_map_left, map_eq_pure_bind]
  rfl

/-- Words of which nothing is left ask nothing of the host. -/
theorem run_evaluate_of_elides (host : Host m) {words : List Word} (elided : shell.Elides words) :
    (evaluate host words : Action m (List String)).run shell = pure (.ok [], shell) := by
  have each (word : Word) (nothing : word.fields shell.options.policy shell.bindings = .ok []) :
      (Action.evaluateWord host shell word).run shell = pure (.ok [], shell) := by
    rw [run_evaluateWord_of_fields host nothing, List.mapM_nil, map_pure]
    rfl
  have all : (words.mapM (Action.evaluateWord host shell)).run shell =
      pure (.ok (words.map fun _ => []), shell) := by
    induction words with
    | nil => rfl
    | cons word rest ih =>
      obtain ⟨here, later⟩ := List.forall_mem_cons.mp elided
      rw [List.mapM_cons, Action.run_bind, each word here, pure_bind, Action.resume]
      dsimp only
      rw [Action.run_bind, ih later, pure_bind]
      rfl
  rw [Action.evaluate_eq, Action.run_get_bind, Action.run_bind, all, pure_bind, Action.resume]
  have none : (words.map fun _ => ([] : List String)).flatten = [] := by
    simp
  dsimp only
  rw [none]
  rfl

private theorem verdict_of_elides (strict : shell.options.isOn .strictArrays) {words : List Word}
    (elided : shell.Elides words) : verdict words = .ok () := by
  refine verdict_of_clear (List.find?_eq_none.mpr fun word member conflict => ?_)
  have policy : shell.options.policy.arrays = .strict := if_pos strict
  have nothing := elided word member
  unfold Word.fields at nothing
  rw [policy, conflict] at nothing
  cases nothing

theorem ensures_evaluateWord_lenient (host : Host m) (lenient : ¬shell.options.isOn .strictArrays)
    (word : Word) :
    (Action.evaluateWord host shell word).Ensures shell fun outcome after =>
      (∃ texts, outcome = .ok texts) ∧ after = shell := by
  have arrays : shell.options.policy.arrays = .lenient := if_neg lenient
  have succeeds : ∃ fields, word.fields shell.options.policy shell.bindings = .ok fields :=
    ⟨_, by rw [Word.fields, arrays]; rfl⟩
  obtain ⟨fields, found⟩ := succeeds
  exact .of_map (run_evaluateWord_of_fields host found) fun texts => ⟨⟨_, rfl⟩, rfl⟩

private theorem ensures_mapM_lenient (host : Host m) (lenient : ¬shell.options.isOn .strictArrays)
    (words : List Word) :
    (words.mapM (Action.evaluateWord host shell)).Ensures shell fun outcome after =>
      (∃ texts, outcome = .ok texts) ∧ after = shell := by
  induction words with
  | nil =>
    rw [List.mapM_nil]
    exact .returns ⟨⟨_, rfl⟩, rfl⟩
  | cons word rest ih =>
    rw [List.mapM_cons]
    refine (ensures_evaluateWord_lenient host lenient word).bind ?_
      fun _ _ failed => nomatch failed.1
    rintro texts after ⟨-, rfl⟩
    refine ih.bind ?_ fun _ _ failed => nomatch failed.1
    rintro others after ⟨-, rfl⟩
    exact .returns ⟨⟨_, rfl⟩, rfl⟩

theorem ensures_evaluate_lenient (host : Host m) (lenient : ¬shell.options.isOn .strictArrays)
    (words : List Word) :
    (evaluate host words : Action m (List String)).Ensures shell fun outcome after =>
      (∃ texts, outcome = .ok texts) ∧ after = shell := by
  rw [Action.evaluate_eq]
  refine .afterGet ((ensures_mapM_lenient host lenient words).bind ?_
    fun _ _ failed => nomatch failed.1)
  rintro texts after ⟨-, rfl⟩
  exact .returns ⟨⟨_, rfl⟩, rfl⟩

private theorem ensures_assign_lenient (host : Host m) (lenient : ¬shell.options.isOn .strictArrays)
    (assignment : Assignment) :
    (assign host assignment : Action m Unit).Ensures shell fun outcome after =>
      outcome = .ok ⟨⟩ ∧ shell.Reassigned after := by
  unfold assign
  cases assignment.value with
  | scalar word => exact .modifies ⟨rfl, _, _, rfl⟩
  | array elements =>
    refine (ensures_evaluate_lenient host lenient elements).bind ?_
      fun _ _ failed => nomatch failed.1
    rintro values after ⟨-, rfl⟩
    exact .modifies ⟨rfl, _, _, rfl⟩

private theorem ensures_forM_lenient (host : Host m) (lenient : ¬shell.options.isOn .strictArrays)
    (assignments : List Assignment) :
    (assignments.forM (assign host) : Action m PUnit).Ensures shell
      fun outcome _ => outcome = .ok ⟨⟩ := by
  induction assignments generalizing shell with
  | nil => exact .returns rfl
  | cons first rest ih =>
    refine (ensures_assign_lenient host lenient first).bind ?_ fun _ _ failed => nomatch failed.1
    rintro _ assigned ⟨-, once⟩
    exact ih (once.options_eq ▸ lenient)

theorem ensures_prepare_lenient (host : Host m) (lenient : ¬shell.options.isOn .strictArrays)
    (assignments : List Assignment) (words : List Word) :
    (prepare host assignments words).Ensures shell fun outcome _ => outcome = .ok ⟨⟩ := by
  unfold prepare
  refine (ensures_evaluate_lenient host lenient words).bind ?_ fun _ _ failed => nomatch failed.1
  rintro texts after ⟨-, rfl⟩
  exact ensures_forM_lenient host lenient assignments

private theorem ensures_prepare_verdict (host : Host m) (strict : shell.options.isOn .strictArrays)
    (assignments : List Assignment) (words : List Word) :
    (prepare host assignments words).Ensures shell fun outcome _ =>
      outcome = verdict (words ++ assignments.flatMap Assignment.elements) := by
  rw [verdict_append]
  unfold prepare
  refine (ensures_evaluate_verdict host strict words).bind ?_ ?_
  · rintro texts after ⟨clear, rfl⟩
    rw [← clear]
    exact (ensures_forM_verdict host strict assignments).mono fun _ _ ended => ended.1
  · rintro fault after ⟨refused, rfl⟩
    rw [← refused]
    rfl

/-- An assignment that fails changes nothing, and one that does not changes its own name. -/
theorem ensures_assign_failing (host : Host m) (strict : shell.options.isOn .strictArrays)
    (assignment : Assignment) :
    (assign host assignment : Action m Unit).Ensures shell fun outcome after =>
      outcome = verdict assignment.elements ∧ shell.Reassigned after ∧
        (∀ fault, outcome = .error fault → after = shell) ∧
        ∀ name, name ≠ assignment.name → after.saved name = shell.saved name := by
  unfold assign Assignment.elements
  cases assignment.value with
  | scalar word =>
    exact .modifies ⟨rfl, ⟨_, _, rfl⟩, nofun, fun _ => shell.saved_setScalar_other _⟩
  | array elements =>
    refine (ensures_evaluate_verdict host strict elements).bind ?_ ?_
    · rintro values after ⟨clear, rfl⟩
      exact .modifies ⟨clear, ⟨_, _, rfl⟩, nofun, fun _ => after.saved_setArray_other _⟩
    · rintro fault after ⟨refused, rfl⟩
      exact ⟨refused, .refl after, fun _ _ => rfl, fun _ _ => rfl⟩

/-- Assignments for the time of a command are undone if one of them fails, in the opposite order. -/
theorem ensures_underAssignments_undone {α : Type} (host : Host m) (action : Action m α)
    (strict : shell.options.isOn .strictArrays) {assignments : List Assignment} {fault : Fault}
    (refused : verdict (assignments.flatMap Assignment.elements) = .error fault) :
    (underAssignments host action assignments).Ensures shell fun outcome after =>
      outcome = .error fault ∧ ∀ name, after.saved name = shell.saved name := by
  induction assignments generalizing shell with
  | nil => cases refused
  | cons first rest ih =>
    rw [verdict_elements_cons] at refused
    unfold underAssignments
    refine .afterGet (.afterwards ?_)
    have inside : (assign host first >>= fun _ => underAssignments host action rest).Ensures shell
        fun outcome after => outcome = .error fault ∧
          ∀ name, name ≠ first.name → after.saved name = shell.saved name := by
      refine (ensures_assign_failing host strict first).bind ?_ ?_
      · rintro _ assigned ⟨clear, once, -, others⟩
        rw [← clear] at refused
        have later := ih (once.options_eq ▸ strict) refused
        exact later.mono fun _ _ ended => ⟨ended.1, fun name differs =>
          (ended.2 name).trans (others name differs)⟩
      · rintro other assigned ⟨same, -, -, others⟩
        rw [← same] at refused
        cases refused
        exact ⟨rfl, others⟩
    refine inside.mono fun _ after ended => ⟨ended.1, fun name => ?_⟩
    by_cases same : name = first.name
    · rw [same]
      exact after.saved_restore_self (shell.saved first.name)
    · exact (after.saved_restore_other (shell.saved first.name) same).trans (ended.2 name same)

private theorem ensures_simple_undone (host : Host m) (nested : Nested (Action m))
    (strict : shell.options.isOn .strictArrays) {assignments : List Assignment}
    {words : List Word} {fault : Fault} (present : ¬shell.Elides words)
    (refused : verdict (words ++ assignments.flatMap Assignment.elements) = .error fault) :
    (simple host nested assignments words).Ensures shell fun outcome after =>
      outcome = .error fault ∧ ∀ name, after.saved name = shell.saved name := by
  unfold simple
  cases found : words.find? Word.hasConflict with
  | some word =>
    rw [verdict_append, verdict_of_first found] at refused
    have same := (verdict_of_first found).trans refused
    refine (ensures_evaluate_verdict host strict words).bind ?_ ?_
    · rintro texts after ⟨clear, -⟩
      exact nomatch clear.trans same
    · rintro other after ⟨failed, rfl⟩
      cases failed.trans same
      exact ⟨rfl, fun _ => rfl⟩
  | none =>
    have clear : ∀ word ∈ words, ¬word.hasConflict := List.find?_eq_none.mp found
    rw [verdict_append, verdict_of_clear found] at refused
    refine (ensures_evaluate_present host clear present).bind ?_ fun _ _ failed => nomatch failed.1
    rintro texts after ⟨⟨name, arguments, some⟩, rfl⟩
    cases some
    exact ensures_underAssignments_undone host _ strict refused

/-- The assignments before one of them are made, and that one fails and changes nothing. -/
def StopsAt (host : Host m) (shell : Shell) (made : List Assignment) (failing : Assignment)
    (fault : Fault) : Prop :=
  (made.forM (assign host) : Action m PUnit).Ensures shell fun outcome assigned =>
    outcome = .ok ⟨⟩ ∧ (assign host failing : Action m Unit).Ensures assigned
      fun outcome after => outcome = .error fault ∧ after = assigned

private theorem stopsAt_of_verdict (host : Host m) (strict : shell.options.isOn .strictArrays)
    {made : List Assignment} {failing : Assignment} {fault : Fault}
    (clear : verdict (made.flatMap Assignment.elements) = .ok ())
    (failed : verdict failing.elements = .error fault) : StopsAt host shell made failing fault := by
  refine (ensures_forM_verdict host strict made).mono fun outcome assigned ended => ?_
  refine ⟨ended.1.trans clear, ?_⟩
  refine (ensures_assign_failing host (ended.2.options_eq ▸ strict) failing).mono ?_
  intro outcome after ended
  exact ⟨ended.1.trans failed, ended.2.2.1 fault (ended.1.trans failed)⟩

/-- Nothing is done after a failure. -/
theorem run_bind_of_fails {α β : Type} {action : Action m α} {fault : Fault}
    (fails : action.Ensures shell fun outcome after => outcome = .error fault ∧ after = shell)
    (next next' : α → Action m β) :
    (action >>= next).run shell = (action >>= next').run shell := by
  rw [Action.run_bind, Action.run_bind]
  refine fails.certain.congr fun ended failed => ?_
  rcases ended with ⟨outcome, after⟩
  cases failed.1
  rfl

/-- Where no command is left to run, the assignments are made up to the one that fails. -/
theorem run_simple_of_stopsAt (host : Host m) (nested : Nested (Action m))
    {made later : List Assignment} {failing : Assignment} {words : List Word} {fault : Fault}
    (elided : shell.Elides words) (stops : StopsAt host shell made failing fault) :
    (settle (simple host nested (made ++ failing :: later) words)).run shell =
      (do made.forM (assign host); assign host failing; return .normal 0 : Action m Flow).run
        shell := by
  unfold settle simple
  rw [bind_assoc, Action.run_bind, run_evaluate_of_elides host elided, pure_bind, Action.resume]
  dsimp only
  have split : ((made ++ failing :: later).forM (assign host) : Action m PUnit) =
      (do made.forM (assign host); assign host failing; later.forM (assign host)) := by
    simp only [List.forM_eq_forM, List.forM_append, List.forM_cons]
  rw [bind_assoc, split, bind_assoc, Action.run_bind, Action.run_bind]
  refine stops.certain.congr fun ended reached => ?_
  rcases ended with ⟨outcome, assigned⟩
  obtain ⟨done, fails⟩ := reached
  cases done
  dsimp only [Action.resume]
  rw [bind_assoc]
  exact run_bind_of_fails fails _ _

/-- What a simple command evaluates for itself comes out well whatever the host answers, or else it
fails. In that case the command ends with the fault. Each variable is what it was before, unless no
word is left to be run: then the assignments before the one that fails stay, and nothing else is
done. -/
theorem variables_after_failure (host : Host m) (shell : Shell) (assignments : List Assignment)
    (words : List Word) :
    (prepare host assignments words).Ensures shell (fun outcome _ => outcome = .ok ⟨⟩) ∨
      ∃ fault,
        (prepare host assignments words).Ensures shell (fun outcome _ => outcome = .error fault) ∧
        (¬shell.Elides words ∧
            (Action.runCommand host (.simple assignments words)).Ensures shell
              (fun outcome after => outcome = .error fault ∧ shell.SameVariables after) ∨
          shell.Elides words ∧ ∃ made failing later, assignments = made ++ failing :: later ∧
            StopsAt host shell made failing fault ∧
            (Action.runCommand host (.simple assignments words)).run shell =
              (do made.forM (assign host); assign host failing; return .normal 0 :
                Action m Flow).run shell) := by
  by_cases strict : shell.options.isOn .strictArrays
  · have prepared := ensures_prepare_verdict host strict assignments words
    cases refused : verdict (words ++ assignments.flatMap Assignment.elements) with
    | ok => exact .inl (refused ▸ prepared)
    | error fault =>
      refine .inr ⟨fault, refused ▸ prepared, ?_⟩
      unfold Action.runCommand runCommand
      by_cases elided : shell.Elides words
      · rw [verdict_append, verdict_of_elides strict elided] at refused
        obtain ⟨made, failing, later, rfl, before, failed⟩ := exists_failing refused
        have stops := stopsAt_of_verdict host strict before failed
        refine .inr ⟨elided, made, failing, later, rfl, stops, ?_⟩
        rw [Action.run_get_bind, command]
        exact run_simple_of_stopsAt host _ elided stops
      · refine .inl ⟨elided, .afterGet ?_⟩
        rw [command]
        refine ensures_settle ?_ fun _ _ ended => nomatch ended.1
        refine (ensures_simple_undone host _ strict elided refused).mono fun _ _ ended => ?_
        exact ⟨ended.1, Shell.sameVariables_iff_saved.mpr ended.2⟩
  · exact .inl (ensures_prepare_lenient host strict assignments words)

theorem variables_after_failure_prefix :
    let host : Host Id := ⟨fun _ => .ok [], fun _ => .ok ""⟩
    let shell : Shell := { scalars := .ofList [("x", "orig")], options := { strictArrays := true } }
    let splice : Word := ⟨[.arguments true true, .glob "*.txt"]⟩
    let assignments : List Assignment := [⟨"x", .scalar (.literal "temp")⟩, ⟨"a", .array [splice]⟩]
    LawfulMonad Id ∧ ∃ fault,
      (Action.runCommand host (.simple assignments [.literal "argv"])).Ensures shell
        fun outcome after => outcome = .error fault ∧ shell.SameVariables after := by
  intro host shell splice assignments
  refine ⟨inferInstance, ?_⟩
  rcases variables_after_failure host shell assignments [.literal "argv"] with
    done | ⟨fault, -, ⟨-, restored⟩ | ⟨elided, -⟩⟩
  · obtain ⟨certified, whole⟩ := done
    have same : certified.val = (prepare host assignments [.literal "argv"]).run shell := whole
    have value := certified.property
    rw [same] at value
    cases value
  · exact ⟨fault, restored⟩
  · have nothing := elided (.literal "argv") (List.mem_singleton_self _)
    cases nothing

/-- Of two assignments without a command, the first outlives the failure of the second. -/
theorem assignments_outlive_failure :
    let host : Host Id := ⟨fun _ => .ok [], fun _ => .ok ""⟩
    let shell : Shell := { scalars := .ofList [("x", "orig")], options := { strictArrays := true } }
    let splice : Word := ⟨[.arguments true true, .glob "*.txt"]⟩
    let assignments : List Assignment := [⟨"x", .scalar (.literal "temp")⟩, ⟨"a", .array [splice]⟩]
    shell.Separate ∧
      ¬((prepare host assignments []).Ensures shell
          (fun outcome _ => ∃ fault, outcome = .error fault) →
        (Action.runCommand host (.simple assignments [])).Ensures shell fun _ after =>
          shell.SameVariables after) := by
  intro host shell splice assignments
  refine ⟨fun name _ array => Std.TreeMap.not_mem_emptyc array, fun restores => ?_⟩
  obtain ⟨certified, whole⟩ := restores (.of_run rfl ⟨_, rfl⟩)
  have kept := (certified.property "x").1
  have same : certified.val = (Action.runCommand host (.simple assignments [])).run shell := whole
  rw [same] at kept
  revert kept
  decide +kernel

end Execution

end PolicyShell
