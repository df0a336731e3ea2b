import PolicyShell.Proofs.Execution.Calls

/-! A name stands for a scalar or for an array, but never for both, and so each variable is listed
once. -/
namespace PolicyShell

/-- At most one of a scalar and an array. -/
def SavedVariable.Single (kept : SavedVariable) : Prop :=
  kept.scalar = none ∨ kept.array = none

namespace Shell

/-- No name is that of a scalar and of an array at once. -/
def Separate (shell : Shell) : Prop :=
  ∀ name, name ∈ shell.scalars → name ∉ shell.arrays

variable {shell : Shell}

theorem separate_iff_single : shell.Separate ↔ ∀ name, (shell.saved name).Single := by
  refine forall_congr' fun name => ?_
  rw [Std.TreeMap.mem_iff_isSome_getElem?, Std.TreeMap.mem_iff_isSome_getElem?]
  unfold SavedVariable.Single saved
  cases shell.scalars[name]? <;> cases shell.arrays[name]? <;> simp

private theorem separate_new (processId : Nat) : ({ processId } : Shell).Separate := by
  intro name scalar
  exact absurd scalar Std.TreeMap.not_mem_emptyc

namespace Separate

/-- Only the name that a change is about has to be looked at. -/
theorem changed (separate : shell.Separate) {after : Shell} (name : String)
    (single : (after.saved name).Single)
    (others : ∀ other, other ≠ name → after.saved other = shell.saved other) : after.Separate := by
  apply separate_iff_single.mpr
  intro other
  by_cases same : other = name
  · exact same ▸ single
  · rw [others other same]
    exact separate_iff_single.mp separate other

theorem setScalar (separate : shell.Separate) (name value : String) :
    (shell.setScalar name value).Separate := by
  apply separate.changed name
  · exact .inr (by simp [saved, Shell.setScalar])
  · intro other differs
    exact shell.saved_setScalar_other value differs

theorem setArray (separate : shell.Separate) (name : String) (values : List String) :
    (shell.setArray name values).Separate := by
  apply separate.changed name
  · exact .inl (by simp [saved, Shell.setArray])
  · intro other differs
    exact shell.saved_setArray_other values differs

theorem unset (separate : shell.Separate) (name : String) : (shell.unset name).Separate := by
  intro other scalar array
  exact separate other (Std.TreeMap.mem_of_mem_erase scalar) (Std.TreeMap.mem_of_mem_erase array)

/-- What was saved of a name was single in the shell that it was saved from. -/
theorem restore (separate : shell.Separate) {after : Shell} (later : after.Separate)
    (name : String) : (after.restore (shell.saved name)).Separate := by
  apply later.changed name
  · have given : (after.restore (shell.saved name)).saved name = shell.saved name :=
      after.saved_restore_self (shell.saved name)
    rw [given]
    exact separate_iff_single.mp separate name
  · intro other differs
    exact after.saved_restore_other (shell.saved name) differs

private theorem unsetElement (separate : shell.Separate) (name : String) (index : List Char) :
    (shell.unsetElement name index).Separate := by
  unfold Shell.unsetElement
  split
  · rename_i values place found _
    split
    · have array : name ∈ shell.arrays :=
        Std.TreeMap.mem_iff_isSome_getElem?.mpr (by rw [found]; rfl)
      intro other scalar element
      rcases Std.TreeMap.mem_insert.mp element with same | kept
      · have same : name = other := Std.LawfulEqCmp.eq_of_compare same
        exact separate name (same ▸ scalar) array
      · exact separate other scalar kept
    · exact separate
  · exact separate

private theorem unsetNamed (separate : shell.Separate) (name : String) :
    (shell.unsetNamed name).Separate := by
  unfold Shell.unsetNamed
  split
  · exact separate.unsetElement _ _
  · exact separate.unset name

end Separate

/-- Each step of a run keeps a shell separate, and so it is on the way into a call as outside it. -/
theorem invariant_separate : Invariant fun (_ : Unit) => Separate where
  setScalar separate name value := separate.setScalar name value
  setArray separate name values := separate.setArray name values
  restore separate later name := separate.restore later name
  unsetFunction separate _ := separate
  unsetNamed separate name := separate.unsetNamed name
  define separate _ := separate
  arguments separate _ := separate
  turn separate _ _ := separate
  status separate _ _ := separate
  write separate _ := separate
  writeError separate _ := separate
  call separate _ _ := ⟨(), separate, fun _ later => later⟩
  source separate _ _ := ⟨(), separate, fun _ later _ => later⟩

/-- The line that shows the variable of a name. -/
inductive Shows (shell : Shell) : String → String → Prop where
  | scalar {name value : String} (found : shell.scalars[name]? = some value) :
      shell.Shows name (name ++ "=" ++ Listing.quote value ++ "\n")
  | array {name : String} {values : List String} (found : shell.arrays[name]? = some values) :
      shell.Shows name (name ++ "=(" ++ " ".intercalate (values.map Listing.quote) ++ ")\n")

/-- The text shows each variable once, in the order of the code points of the names. -/
def IsListing (shell : Shell) (text : String) : Prop :=
  ∃ lines : List (String × String),
    lines.Pairwise (fun first second => first.1 < second.1) ∧
    (∀ name line, (name, line) ∈ lines ↔ shell.Shows name line) ∧
    text = String.join (lines.map Prod.snd)

def variableNames (shell : Shell) : List String :=
  (shell.scalars.keys ++ shell.arrays.keys).mergeSort

def variableLine (shell : Shell) (name : String) : String :=
  match shell.scalars[name]?, shell.arrays[name]? with
  | some value, _ => name ++ "=" ++ Listing.quote value ++ "\n"
  | none, some values => name ++ "=(" ++ " ".intercalate (values.map Listing.quote) ++ ")\n"
  | none, none => ""

private theorem listVariables_eq (shell : Shell) :
    shell.listVariables = String.join (shell.variableNames.map shell.variableLine) :=
  rfl

theorem mem_variableNames {name : String} :
    name ∈ shell.variableNames ↔ name ∈ shell.scalars ∨ name ∈ shell.arrays := by
  unfold variableNames
  rw [List.mem_mergeSort, List.mem_append, Std.TreeMap.mem_keys, Std.TreeMap.mem_keys]

private theorem Separate.pairwise_variableNames (separate : shell.Separate) :
    shell.variableNames.Pairwise (· < ·) := by
  have distinct : shell.variableNames.Nodup := by
    refine (List.mergeSort_perm _ _).nodup_iff.mpr (List.nodup_append.mpr ?_)
    refine ⟨Std.TreeMap.nodup_keys, Std.TreeMap.nodup_keys, fun name scalar other array same => ?_⟩
    exact separate name (Std.TreeMap.mem_keys.mp scalar) (same ▸ Std.TreeMap.mem_keys.mp array)
  have sorted : shell.variableNames.Pairwise (· ≤ ·) := by
    have ordered := @List.pairwise_mergeSort String (fun first second => decide (first ≤ second))
      (by simpa using fun _ _ _ => String.le_trans) (by simpa using String.le_total)
      (shell.scalars.keys ++ shell.arrays.keys)
    exact ordered.imp of_decide_eq_true
  refine sorted.imp₂ (fun first second least differs => ?_) distinct
  exact String.not_le.mp fun greatest => differs (String.le_antisymm least greatest)

private theorem shows_variableLine {name : String} (named : name ∈ shell.variableNames) :
    shell.Shows name (shell.variableLine name) := by
  unfold variableLine
  cases scalar : shell.scalars[name]? with
  | some value => exact .scalar scalar
  | none =>
    cases array : shell.arrays[name]? with
    | some values => exact .array array
    | none =>
      rw [mem_variableNames, Std.TreeMap.mem_iff_isSome_getElem?,
        Std.TreeMap.mem_iff_isSome_getElem?, scalar, array] at named
      simp at named

private theorem Shows.named {name line : String} (shows : shell.Shows name line) :
    name ∈ shell.variableNames := by
  rw [mem_variableNames, Std.TreeMap.mem_iff_isSome_getElem?, Std.TreeMap.mem_iff_isSome_getElem?]
  cases shows with
  | scalar found => exact .inl (by rw [found]; rfl)
  | array found => exact .inr (by rw [found]; rfl)

private theorem Separate.line_unique (separate : shell.Separate) {name line : String}
    (shows : shell.Shows name line) : line = shell.variableLine name := by
  unfold variableLine
  cases shows with
  | scalar found => rw [found]
  | array found =>
    have single := separate_iff_single.mp separate name
    have absent : shell.scalars[name]? = none :=
      single.resolve_right (by simp [saved, found])
    rw [absent, found]

theorem Separate.isListing (separate : shell.Separate) : shell.IsListing shell.listVariables := by
  refine ⟨shell.variableNames.map fun name => (name, shell.variableLine name), ?_, ?_, ?_⟩
  · exact List.pairwise_map.mpr separate.pairwise_variableNames
  · intro name line
    rw [List.mem_map]
    constructor
    · intro listed
      obtain ⟨other, named, same⟩ := listed
      obtain ⟨rfl, rfl⟩ := Prod.mk.inj same
      exact shows_variableLine named
    · intro shows
      exact ⟨name, shows.named, by rw [separate.line_unique shows]⟩
  · rw [listVariables_eq, List.map_map]
    rfl

end Shell

/-- What a program with a shell of its own may do to it. -/
inductive Operation (m : Type → Type) where
  | setScalar (name value : String)
  | setArray (name : String) (values : List String)
  | unset (name : String)
  /-- A builtin sources files only if it is given the way to run them. -/
  | perform (host : Host m) (builtin : Builtin) (arguments : List String) (sourcing : Bool)
  | command (host : Host m) (tree : Command)
  | source (host : Host m) (text : String)
  | program (host : Host m) (text : String)

variable {m : Type → Type} [Monad m]

/-- The shell after an operation, even if that ended with a fault. -/
def Operation.run : Operation m → Shell → m Shell
  | setScalar name value, shell => return shell.setScalar name value
  | setArray name values, shell => return shell.setArray name values
  | unset name, shell => return shell.unset name
  | perform host builtin arguments sourcing, shell =>
    let run? := if sourcing then some (Action.runSource host) else none
    Prod.snd <$> (builtin.perform host run? arguments).run shell
  | command host tree, shell => Prod.snd <$> (Action.runCommand host tree).run shell
  | source host text, shell => Prod.snd <$> (Action.runSource host text).run shell
  | program host text, shell => Prod.snd <$> shell.runProgram host text

/-- The shell after a sequence of operations. -/
def Operation.runAll (operations : List (Operation m)) (shell : Shell) : m Shell :=
  operations.foldlM (fun shell operation => operation.run shell) shell

variable {shell : Shell}

namespace Course

theorem separate_runCommand (host : Host m) (tree : Command) (separate : shell.Separate) :
    (runCommand host tree).Always Shell.Separate (fun _ => Shell.Separate) shell :=
  (keeps_runCommand Shell.invariant_separate host tree separate).always.mono
    fun _ _ ended => ended.1

theorem separate_runSource (host : Host m) (text : String) (separate : shell.Separate) :
    (runSource host text).Always Shell.Separate (fun _ => Shell.Separate) shell :=
  (keeps_runSource Shell.invariant_separate host text separate).always.mono
    fun _ _ ended => ended.1

private theorem separate_perform (host : Host m) (builtin : Builtin) (arguments : List String)
    (separate : shell.Separate) :
    (builtin.perform host (some (runSource host)) arguments).Always Shell.Separate
      (fun _ => Shell.Separate) shell := by
  have keep : Nested.Keep (fun (_ : Unit) => Shell.Separate) (fun _ => True)
      ⟨runCommand host, runSource host⟩ := by
    constructor
    · intro index shell body separate
      exact keeps_runCommand Shell.invariant_separate host body separate
    · intro index shell text separate
      exact keeps_runSource Shell.invariant_separate host text separate
  exact (keeps_perform Shell.invariant_separate keep host builtin arguments
    separate).always.mono fun _ _ ended => ended.1

end Course

namespace Execution

variable [LawfulMonad m]

theorem separate_runSource (host : Host m) (text : String) (separate : shell.Separate) :
    (Action.runSource host text).Ensures shell fun _ after => after.Separate :=
  Course.toAction_runSource host text ▸ (Course.separate_runSource host text separate).ensures

theorem separate_perform (host : Host m) (builtin : Builtin) (arguments : List String)
    (separate : shell.Separate) :
    (builtin.perform host (some (Action.runSource host)) arguments).Ensures shell
      fun _ after => after.Separate := by
  have performed := (Course.separate_perform host builtin arguments separate).ensures
  simpa only [Course.toAction_perform, Course.toAction_runSource] using performed

/-- Without a way to run files, only `source` does anything else, and it leaves the shell alone. -/
theorem separate_perform_none (host : Host m) (builtin : Builtin) (arguments : List String)
    (separate : shell.Separate) :
    (builtin.perform host none arguments : Action m BuiltinOutcome).Ensures shell
      fun _ after => after.Separate := by
  by_cases sources : builtin = .source
  · subst sources
    cases arguments with
    | nil => exact .returns separate
    | cons path rest => exact .returns separate
  · have same : (builtin.perform host none arguments : Action m BuiltinOutcome) =
        builtin.perform host (some (Action.runSource host)) arguments := by
      cases builtin with
      | source => exact absurd rfl sources
      | _ => rfl
    rw [same]
    exact separate_perform host builtin arguments separate

private theorem separate_runProgram (host : Host m) (text : String) (separate : shell.Separate) :
    Certain Shell.Separate (Prod.snd <$> shell.runProgram host text) := by
  apply Certain.map
  unfold Shell.runProgram
  refine (separate_runSource host text separate).certain.bind fun ended separate => ?_
  rcases ended with ⟨fault | flow, after⟩
  · exact .returns separate
  · exact .returns separate

private theorem separate_run (operation : Operation m) (separate : shell.Separate) :
    Certain Shell.Separate (operation.run shell) := by
  cases operation with
  | setScalar name value => exact .returns (separate.setScalar name value)
  | setArray name values => exact .returns (separate.setArray name values)
  | unset name => exact .returns (separate.unset name)
  | perform host builtin arguments sourcing =>
    cases sourcing with
    | true => exact (separate_perform host builtin arguments separate).certain.map
    | false => exact (separate_perform_none host builtin arguments separate).certain.map
  | command host tree =>
    have ended := (Course.separate_runCommand host tree separate).ensures
    rw [Course.toAction_runCommand] at ended
    exact ended.certain.map
  | source host text => exact (separate_runSource host text separate).certain.map
  | program host text => exact separate_runProgram host text separate

private theorem run_set (host : Host m) (run? : Option (String → Action m Flow)) (shell : Shell) :
    (Builtin.set.perform host run? []).run shell =
      pure (.ok (.report { out := shell.listVariables }), shell) := by
  unfold Builtin.perform Builtin.setArguments
  simp only [bind_assoc, Action.run_get_bind, pure_bind]
  rfl

/-- No name is ever that of a scalar and of an array at once: neither after any operations on the
new shell of a process, nor on the way through a command or a unit, whatever ends it. Wherever that
is so, `set` shows each variable once. -/
theorem names_stay_separate :
    (∀ (processId : Nat) (operations : List (Operation m)),
      Certain Shell.Separate (Operation.runAll operations { processId } : m Shell)) ∧
    ∀ (host : Host m) (shell : Shell), shell.Separate →
      (∀ tree, (Course.runCommand host tree).toAction = Action.runCommand host tree ∧
        (Course.runCommand host tree).Always Shell.Separate (fun _ => Shell.Separate) shell) ∧
      (∀ text, (Course.runSource host text).toAction = Action.runSource host text ∧
        (Course.runSource host text).Always Shell.Separate (fun _ => Shell.Separate) shell) ∧
      ∀ run? : Option (String → Action m Flow), ∃ out, shell.IsListing out ∧
        (Builtin.set.perform host run? []).run shell = pure (.ok (.report { out }), shell) := by
  constructor
  · intro processId operations
    exact Certain.foldlM (fun shell operation => separate_run operation) operations
      (Shell.separate_new processId)
  · intro host shell separate
    refine ⟨fun tree => ?_, fun text => ?_, fun run? => ?_⟩
    · exact ⟨Course.toAction_runCommand host tree, Course.separate_runCommand host tree separate⟩
    · exact ⟨Course.toAction_runSource host text, Course.separate_runSource host text separate⟩
    · exact ⟨shell.listVariables, separate.isListing, run_set host run? shell⟩

/-- An array that gives way to a scalar in front of a call, and comes back when the call exits. -/
theorem names_stay_separate_exit :
    let host : Host Id := ⟨fun _ => .ok [], fun _ => .ok ""⟩
    let body : Command := .group [.simple [] [.literal "unset", .literal "x"],
      .simple [⟨"x", .array []⟩] [.literal "exit", .literal "3"]]
    let call : Command := .simple [⟨"x", .scalar (.literal "2")⟩] [.literal "f"]
    let operations : List (Operation Id) := [.setArray "x" ["1"],
      .command host (.group [.definition "f" body, call]), .perform host .unset ["x[0]"] false,
      .setScalar "y" "4"]
    let shell : Shell := (Operation.runAll operations { processId := 7 }).run
    LawfulMonad Id ∧ shell.arrays["x"]? = some [] ∧ shell.scalars["y"]? = some "4" ∧
      shell.Separate ∧ ∃ out, shell.IsListing out ∧
        (Builtin.set.perform host none [] : Action Id _).run shell =
          pure (.ok (.report { out }), shell) := by
  intro host body call operations shell
  have stays := @names_stay_separate Id _ _
  have separate : shell.Separate := by
    obtain ⟨certified, whole⟩ := stays.1 7 operations
    have same : certified.run.val = shell := whole
    exact same ▸ certified.run.property
  refine ⟨inferInstance, by decide +kernel, by decide +kernel, separate, ?_⟩
  exact (stays.2 host shell separate).2.2 none

end Execution

end PolicyShell
