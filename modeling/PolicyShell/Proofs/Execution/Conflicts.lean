import PolicyShell.Proofs.Execution.Prefixes

/-! Strict arrays stop a command before it is run, or else make no difference. -/
namespace PolicyShell

/-- The words of an array. -/
def Assignment.elements (assignment : Assignment) : List Word :=
  match assignment.value with
  | .scalar _ => []
  | .array elements => elements

/-- The shell with arrays that are not strict. -/
def Shell.lenient (shell : Shell) : Shell :=
  { shell with options := shell.options.put .strictArrays false }

/-- What strict arrays make of words that are evaluated in turn: the first one in which there is a
conflict is an error. -/
def verdict (words : List Word) : Except Fault Unit :=
  match words.find? Word.hasConflict with
  | some word => .error (.expansion (.spliceBesideGlob word.describe))
  | none => .ok ()

theorem verdict_append (words others : List Word) :
    verdict (words ++ others) = verdict words >>= fun _ => verdict others := by
  unfold verdict
  rw [List.find?_append]
  cases words.find? Word.hasConflict <;> rfl

theorem verdict_of_first {words : List Word} {word : Word}
    (first : words.find? Word.hasConflict = some word) :
    verdict words = .error (.expansion (.spliceBesideGlob word.describe)) := by
  rw [verdict, first]

theorem verdict_of_clear {words : List Word} (clear : words.find? Word.hasConflict = none) :
    verdict words = .ok () := by
  rw [verdict, clear]

variable {m : Type → Type} [Monad m]

/-- The texts of a word without a conflict. -/
def Word.texts (host : Host m) (mode : WordMode) (bindings : Bindings) (word : Word) :
    m (List String) :=
  let builder := word.parts.foldl (FieldBuilder.addPart ⟨mode, .lenient⟩ bindings) {}
  List.flatten <$> builder.finish.mapM (Field.expand host)

/-- Only the guard looks at the mode of arrays. -/
theorem FieldBuilder.addPart_arrays (policy : Policy) :
    FieldBuilder.addPart policy = FieldBuilder.addPart ⟨policy.words, .lenient⟩ := by
  funext bindings builder part
  cases part <;> rfl

private theorem Word.evaluate_of_conflict (host : Host m) {policy : Policy}
    (strict : policy.arrays = .strict) (bindings : Bindings) {word : Word}
    (conflict : word.hasConflict) :
    word.evaluate host policy bindings = pure (.error (.spliceBesideGlob word.describe)) := by
  unfold evaluate fields
  rw [strict, conflict]
  rfl

variable [LawfulMonad m]

private theorem Word.evaluate_of_clear (host : Host m) (policy : Policy) (bindings : Bindings)
    {word : Word} (clear : ¬word.hasConflict) :
    word.evaluate host policy bindings = .ok <$> word.texts host policy.words bindings := by
  unfold evaluate fields texts
  rw [Bool.eq_false_iff.mpr clear, Bool.and_false, if_neg Bool.false_ne_true,
    FieldBuilder.addPart_arrays]
  dsimp only
  rw [Functor.map_map, map_eq_pure_bind]

namespace Action

variable {shell : Shell}

/-- The texts of one of several words that are evaluated in a shell. -/
def evaluateWord (host : Host m) (shell : Shell) (word : Word) : Action m (List String) := do
  match ← (word.evaluate host shell.options.policy shell.bindings : m _) with
  | .error error => throw (.expansion error)
  | .ok texts => return texts

omit [LawfulMonad m] in
theorem evaluate_eq (host : Host m) (words : List Word) :
    Execution.evaluate host words = do
      let shell ← get
      return (← words.mapM (evaluateWord host shell)).flatten :=
  rfl

theorem run_evaluateWord_of_conflict (host : Host m) (strict : shell.options.isOn .strictArrays)
    {word : Word} (conflict : word.hasConflict) :
    (evaluateWord host shell word).run shell =
      pure (.error (.expansion (.spliceBesideGlob word.describe)), shell) := by
  have policy : shell.options.policy.arrays = .strict := if_pos strict
  unfold evaluateWord
  rw [word.evaluate_of_conflict host policy _ conflict, run_bind, run_lift, map_pure, pure_bind]
  rfl

theorem run_evaluateWord_of_clear (host : Host m) (shell : Shell) {word : Word}
    (clear : ¬word.hasConflict) :
    (evaluateWord host shell word).run shell =
      (fun texts => (.ok texts, shell)) <$>
        word.texts host shell.options.policy.words shell.bindings := by
  unfold evaluateWord
  rw [word.evaluate_of_clear host _ _ clear, run_bind, run_lift, Functor.map_map, bind_map_left]
  exact (map_eq_pure_bind ..).symm

end Action

namespace Execution

open PolicyShell.Action (Ensures)

variable {shell : Shell}

private theorem ensures_evaluateWord (host : Host m) (strict : shell.options.isOn .strictArrays)
    (word : Word) :
    (Action.evaluateWord host shell word).Ensures shell fun outcome after =>
      outcome.map (fun _ => ()) = verdict [word] ∧ after = shell := by
  by_cases conflict : word.hasConflict
  · rw [verdict_of_first (List.find?_cons_of_pos conflict)]
    exact .of_run (Action.run_evaluateWord_of_conflict host strict conflict) ⟨rfl, rfl⟩
  · rw [verdict_of_clear (List.find?_cons_of_neg conflict)]
    exact .of_map (Action.run_evaluateWord_of_clear host shell conflict) fun _ => ⟨rfl, rfl⟩

private theorem ensures_mapM_verdict (host : Host m) (strict : shell.options.isOn .strictArrays)
    (words : List Word) :
    (words.mapM (Action.evaluateWord host shell)).Ensures shell fun outcome after =>
      outcome.map (fun _ => ()) = verdict words ∧ after = shell := by
  induction words with
  | nil =>
    rw [List.mapM_nil]
    exact .returns ⟨rfl, rfl⟩
  | cons word rest ih =>
    have whole : verdict (word :: rest) = verdict [word] >>= fun _ => verdict rest :=
      verdict_append [word] rest
    rw [List.mapM_cons, whole]
    refine (ensures_evaluateWord host strict word).bind ?_ ?_
    · rintro texts after ⟨clear, rfl⟩
      rw [← clear]
      refine ih.bind ?_ fun _ _ refused => refused
      rintro others after ⟨clear, rfl⟩
      exact .returns ⟨clear, rfl⟩
    · rintro fault after ⟨refused, rfl⟩
      exact ⟨by rw [← refused]; rfl, rfl⟩

/-- Where arrays are strict, words are evaluated up to the first conflict. -/
theorem ensures_evaluate_verdict (host : Host m) (strict : shell.options.isOn .strictArrays)
    (words : List Word) :
    (evaluate host words : Action m (List String)).Ensures shell fun outcome after =>
      outcome.map (fun _ => ()) = verdict words ∧ after = shell := by
  rw [Action.evaluate_eq]
  refine .afterGet ((ensures_mapM_verdict host strict words).bind ?_ fun _ _ refused => refused)
  rintro texts after ⟨clear, rfl⟩
  exact .returns ⟨clear, rfl⟩

theorem ensures_assign_verdict (host : Host m) (strict : shell.options.isOn .strictArrays)
    (assignment : Assignment) :
    (assign host assignment : Action m Unit).Ensures shell fun outcome after =>
      outcome = verdict assignment.elements ∧ shell.Reassigned after := by
  unfold assign Assignment.elements
  cases assignment.value with
  | scalar word => exact .modifies ⟨rfl, _, _, rfl⟩
  | array elements =>
    refine (ensures_evaluate_verdict host strict elements).bind ?_ ?_
    · rintro values after ⟨clear, rfl⟩
      exact .modifies ⟨clear, _, _, rfl⟩
    · rintro fault after ⟨refused, rfl⟩
      exact ⟨refused, .refl after⟩

/-- Assignments that stay are made up to the first conflict, too. -/
theorem ensures_forM_verdict (host : Host m) (strict : shell.options.isOn .strictArrays)
    (assignments : List Assignment) :
    (assignments.forM (assign host) : Action m PUnit).Ensures shell fun outcome after =>
      outcome = verdict (assignments.flatMap Assignment.elements) ∧ shell.Reassigned after := by
  induction assignments generalizing shell with
  | nil => exact .returns ⟨rfl, .refl shell⟩
  | cons first rest ih =>
    rw [List.flatMap_cons, verdict_append]
    refine (ensures_assign_verdict host strict first).bind ?_ ?_
    · rintro _ assigned ⟨clear, once⟩
      rw [← clear]
      exact (ih (once.options_eq ▸ strict)).mono fun _ _ ended => ⟨ended.1, once.trans ended.2⟩
    · rintro fault assigned ⟨refused, once⟩
      exact ⟨by rw [← refused]; rfl, once⟩

/-- Nothing runs under assignments with a conflict. -/
theorem ensures_underAssignments_verdict {α : Type} (host : Host m) (action : Action m α)
    (strict : shell.options.isOn .strictArrays) {assignments : List Assignment} {fault : Fault}
    (refused : verdict (assignments.flatMap Assignment.elements) = .error fault) :
    (underAssignments host action assignments).Ensures shell fun outcome after =>
      outcome = .error fault ∧ shell.Reassigned after := by
  induction assignments generalizing shell with
  | nil => cases refused
  | cons first rest ih =>
    rw [List.flatMap_cons, verdict_append] at refused
    unfold underAssignments
    refine .afterGet (.afterwards ?_)
    have inside : (assign host first >>= fun _ => underAssignments host action rest).Ensures shell
        fun outcome after => outcome = .error fault ∧ shell.Reassigned after := by
      refine (ensures_assign_verdict host strict first).bind ?_ ?_
      · rintro _ assigned ⟨clear, once⟩
        rw [← clear] at refused
        have later := ih (once.options_eq ▸ strict) refused
        exact later.mono fun _ _ ended => ⟨ended.1, once.trans ended.2⟩
      · rintro other assigned ⟨same, once⟩
        rw [← same] at refused
        cases refused
        exact ⟨rfl, once⟩
    exact inside.mono fun _ after ended =>
      ⟨ended.1, ended.2.trans (after.reassigned_restore _)⟩

private theorem ensures_simple_conflict (host : Host m) (nested : Nested (Action m))
    (strict : shell.options.isOn .strictArrays) {assignments : List Assignment}
    {words : List Word} {fault : Fault}
    (refused : verdict (words ++ assignments.flatMap Assignment.elements) = .error fault) :
    (simple host nested assignments words).Ensures shell fun outcome after =>
      outcome = .error fault ∧ shell.Reassigned after := by
  rw [verdict_append] at refused
  unfold simple
  refine (ensures_evaluate_verdict host strict words).bind ?_ ?_
  · rintro texts after ⟨clear, rfl⟩
    rw [← clear] at refused
    cases texts with
    | nil =>
      refine (ensures_forM_verdict host strict assignments).bind ?_ ?_
      · rintro _ assigned ⟨clear, -⟩
        exact nomatch clear.trans refused
      · rintro other assigned ⟨same, once⟩
        cases same.trans refused
        exact ⟨rfl, once⟩
    | cons name arguments => exact ensures_underAssignments_verdict host _ strict refused
  · rintro other after ⟨same, rfl⟩
    rw [← same] at refused
    cases refused
    exact ⟨rfl, .refl after⟩

end Execution

namespace Action

variable {α β : Type} {shell : Shell} {action : Action m α}

/-- The action does not fail, and where arrays are not strict it does the same. -/
def Unhindered (action : Action m α) (shell : Shell) : Prop :=
  ∃ computation : m (α × Shell),
    action.run shell = (fun ended => (.ok ended.1, ended.2)) <$> computation ∧
    action.run shell.lenient = (fun ended => (.ok ended.1, ended.2.lenient)) <$> computation

namespace Unhindered

theorem of_run {value : α} {after : Shell} (here : action.run shell = pure (.ok value, after))
    (there : action.run shell.lenient = pure (.ok value, after.lenient)) :
    action.Unhindered shell :=
  ⟨pure (value, after), by rw [here, map_pure], by rw [there, map_pure]⟩

theorem bind (unhindered : action.Unhindered shell) {next : α → Action m β}
    (later : ∀ value after, (next value).Unhindered after) :
    (action >>= next).Unhindered shell := by
  obtain ⟨computation, here, there⟩ := unhindered
  have goOn (ended : α × Shell) : (next ended.1).Unhindered ended.2 := later ended.1 ended.2
  refine ⟨computation >>= fun ended => (goOn ended).choose, ?_, ?_⟩
  · rw [run_bind, here, bind_map_left, map_bind]
    exact bind_congr fun ended => (goOn ended).choose_spec.1
  · rw [run_bind, there, bind_map_left, map_bind]
    exact bind_congr fun ended => (goOn ended).choose_spec.2

theorem modifies {change : Shell → Shell} (same : change shell.lenient = (change shell).lenient) :
    (modify change : Action m PUnit).Unhindered shell :=
  of_run (run_modify ..) (same ▸ run_modify change shell.lenient)

theorem afterGet {next : Shell → Action m α} (same : next shell.lenient = next shell)
    (later : (next shell).Unhindered shell) : (get >>= next).Unhindered shell := by
  obtain ⟨computation, here, there⟩ := later
  refine ⟨computation, (run_get_bind ..).trans here, (run_get_bind ..).trans ?_⟩
  rw [same, there]

theorem afterwards {change : Shell → Shell} (unhindered : action.Unhindered shell)
    (same : ∀ after, change after.lenient = (change after).lenient) :
    (Execution.afterwards action change).Unhindered shell := by
  obtain ⟨computation, here, there⟩ := unhindered
  refine ⟨(fun ended => (ended.1, change ended.2)) <$> computation, ?_, ?_⟩
  · rw [run_afterwards, here, Functor.map_map, Functor.map_map]
  · rw [run_afterwards, there, Functor.map_map, Functor.map_map]
    simp only [same]

end Unhindered

/-- The values of all variables. -/
def values : Action m (Std.TreeMap String String × Std.TreeMap String (List String)) := do
  let shell ← get
  return (shell.scalars, shell.arrays)

private theorem run_mapM_of_clear (host : Host m) (shell : Shell) {words : List Word}
    (clear : ∀ word ∈ words, ¬word.hasConflict) :
    (words.mapM (evaluateWord host shell)).run shell = (fun texts => (.ok texts, shell)) <$>
      words.mapM (Word.texts host shell.options.policy.words shell.bindings) := by
  induction words with
  | nil =>
    rw [List.mapM_nil, List.mapM_nil, map_pure]
    rfl
  | cons word rest ih =>
    obtain ⟨here, later⟩ := List.forall_mem_cons.mp clear
    rw [List.mapM_cons, List.mapM_cons, run_bind, run_evaluateWord_of_clear host shell here,
      bind_map_left, map_bind]
    refine bind_congr fun texts => ?_
    refine (run_bind _ _ shell).trans ?_
    rw [ih later, bind_map_left, map_bind]
    refine bind_congr fun others => ?_
    rw [map_pure]
    rfl

theorem run_evaluate_of_clear (host : Host m) (shell : Shell) {words : List Word}
    (clear : ∀ word ∈ words, ¬word.hasConflict) :
    (Execution.evaluate host words : Action m (List String)).run shell =
      (fun texts => (.ok texts.flatten, shell)) <$>
        words.mapM (Word.texts host shell.options.policy.words shell.bindings) := by
  rw [evaluate_eq, run_get_bind, run_bind, run_mapM_of_clear host shell clear, bind_map_left]
  exact (map_eq_pure_bind ..).symm

theorem unhindered_evaluate (host : Host m) (shell : Shell) {words : List Word}
    (clear : ∀ word ∈ words, ¬word.hasConflict) :
    (Execution.evaluate host words : Action m (List String)).Unhindered shell := by
  refine ⟨(fun texts => (texts.flatten, shell)) <$>
    words.mapM (Word.texts host shell.options.policy.words shell.bindings), ?_, ?_⟩
  · rw [Functor.map_map]
    exact run_evaluate_of_clear host shell clear
  · rw [Functor.map_map]
    exact run_evaluate_of_clear host shell.lenient clear

end Action

namespace Execution

theorem unhindered_assign (host : Host m) (shell : Shell) {assignment : Assignment}
    (clear : ∀ word ∈ assignment.elements, ¬word.hasConflict) :
    (assign host assignment : Action m Unit).Unhindered shell := by
  unfold Assignment.elements at clear
  unfold assign
  cases value : assignment.value with
  | scalar word => exact .modifies rfl
  | array elements =>
    rw [value] at clear
    exact (Action.unhindered_evaluate host shell clear).bind fun _ _ => .modifies rfl

private theorem unhindered_forM (host : Host m) (shell : Shell) {assignments : List Assignment}
    (clear : ∀ assignment ∈ assignments, ∀ word ∈ assignment.elements, ¬word.hasConflict) :
    (assignments.forM (assign host) : Action m PUnit).Unhindered shell := by
  induction assignments generalizing shell with
  | nil => exact .of_run rfl rfl
  | cons first rest ih =>
    obtain ⟨here, later⟩ := List.forall_mem_cons.mp clear
    exact (unhindered_assign host shell here).bind fun _ assigned => ih assigned later

private theorem unhindered_underAssignments {α : Type} (host : Host m) {action : Action m α}
    (inside : ∀ shell, action.Unhindered shell) (shell : Shell) {assignments : List Assignment}
    (clear : ∀ assignment ∈ assignments, ∀ word ∈ assignment.elements, ¬word.hasConflict) :
    (underAssignments host action assignments).Unhindered shell := by
  induction assignments generalizing shell with
  | nil => exact inside shell
  | cons first rest ih =>
    obtain ⟨here, later⟩ := List.forall_mem_cons.mp clear
    unfold underAssignments
    refine .afterGet rfl (.afterwards ?_ fun _ => rfl)
    exact (unhindered_assign host shell here).bind fun _ assigned => ih assigned later

/-- The values that an action finds under assignments. -/
theorem unhindered_values (host : Host m) (shell : Shell) {assignments : List Assignment}
    (clear : ∀ assignment ∈ assignments, ∀ word ∈ assignment.elements, ¬word.hasConflict) :
    (underAssignments host (Action.values : Action m _) assignments).Unhindered shell :=
  unhindered_underAssignments host (fun _ => .afterGet rfl (.of_run rfl rfl)) shell clear

/-- Where arrays are strict, a simple command with a conflict stops at the first of its words in
which there is one, those after its name before those that it assigns, and changes nothing but
variables. Without a conflict, its words and assignments come out as where arrays are not strict. -/
theorem conflicts_stop_commands (host : Host m) (shell : Shell) (assignments : List Assignment)
    (words : List Word) :
    (shell.options.isOn .strictArrays → ∀ word,
      (words ++ assignments.flatMap Assignment.elements).find? Word.hasConflict = some word →
        (Action.runCommand host (.simple assignments words)).Ensures shell fun outcome after =>
          outcome = .error (.expansion (.spliceBesideGlob word.describe)) ∧
            shell.Reassigned after) ∧
    ((∀ word ∈ words ++ assignments.flatMap Assignment.elements, ¬word.hasConflict) →
      (evaluate host words : Action m (List String)).Unhindered shell ∧
        (assignments.forM (assign host) : Action m PUnit).Unhindered shell ∧
        (underAssignments host (Action.values : Action m _) assignments).Unhindered shell) := by
  refine ⟨fun strict word first => ?_, fun clear => ?_⟩
  · unfold Action.runCommand runCommand
    refine .afterGet ?_
    rw [command]
    refine ensures_settle ?_ fun _ _ ended => nomatch ended.1
    exact ensures_simple_conflict host _ strict (verdict_of_first first)
  · have inWords (word : Word) (member : word ∈ words) : ¬word.hasConflict :=
      clear word (List.mem_append_left _ member)
    have inAssignments (assignment : Assignment) (member : assignment ∈ assignments) (word : Word)
        (element : word ∈ assignment.elements) : ¬word.hasConflict :=
      clear word (List.mem_append_right _ (List.mem_flatMap.mpr ⟨assignment, member, element⟩))
    exact ⟨Action.unhindered_evaluate host shell inWords, unhindered_forM host shell inAssignments,
      unhindered_values host shell inAssignments⟩

/-- A splice beside a pattern in the second of two assignments, and the two in different words. -/
theorem conflicts_stop_commands_splice :
    let host : Host Id := ⟨fun _ => .ok [], fun _ => .ok ""⟩
    let shell : Shell := { options := { strictArrays := true } }
    let both : Word := ⟨[.array "b" true true, .glob "*"]⟩
    let splice : Word := ⟨[.array "b" true true]⟩
    let glob : Word := ⟨[.glob "*"]⟩
    let assignments : List Assignment := [⟨"a", .scalar glob⟩, ⟨"b", .array [splice, both]⟩]
    shell.options.isOn .strictArrays ∧
      ([splice, glob] ++ assignments.flatMap Assignment.elements).find? Word.hasConflict =
        some both ∧
      (Action.runCommand host (.simple assignments [splice, glob])).Ensures shell
        (fun outcome after => outcome = .error (.expansion (.spliceBesideGlob both.describe)) ∧
          shell.Reassigned after) ∧
      (∀ word ∈ [splice, glob] ++ [⟨"b", .array [splice]⟩].flatMap Assignment.elements,
        ¬word.hasConflict) ∧
      (evaluate host [splice, glob] : Action Id _).Unhindered shell := by
  intro host shell both splice glob assignments
  have strict : shell.options.isOn .strictArrays := rfl
  have first : ([splice, glob] ++ assignments.flatMap Assignment.elements).find? Word.hasConflict =
      some both := by decide
  have clear : ∀ word ∈ [splice, glob] ++ [⟨"b", .array [splice]⟩].flatMap Assignment.elements,
      ¬word.hasConflict := by decide
  have stops := conflicts_stop_commands host shell assignments [splice, glob]
  have goesOn := conflicts_stop_commands host shell [⟨"b", .array [splice]⟩] [splice, glob]
  exact ⟨strict, first, stops.1 strict both first, clear, (goesOn.2 clear).1⟩

end Execution

end PolicyShell
