import Mathlib.Data.List.Forall2
import Mathlib.Data.List.Induction
import PolicyShell.Execution.Builtin
import PolicyShell.Proofs.Execution.Alike

/-! Options are turned on and off by name: the last change that is allowed decides, and a change
that is not leaves everything as it is. -/
namespace PolicyShell

namespace ShellOption

/-- A text names an option if it is the name of it up to dashes and underscores. -/
def IsSpelled (option : ShellOption) (text : String) : Prop :=
  List.Forall₂ (fun c d => c = d ∨ (c = '-' ∨ c = '_') ∧ (d = '-' ∨ d = '_')) text.toList
    option.name.toList

/-- Inside functions an option that governs how text is read is not turned on. -/
def IsForbidden (option : ShellOption) (on : Bool) (scope : ExecScope) : Prop :=
  on = true ∧ option.scope = .grammar ∧ scope = .function

instance (option : ShellOption) (on : Bool) (scope : ExecScope) :
    Decidable (option.IsForbidden on scope) :=
  inferInstanceAs (Decidable (_ ∧ _))

private theorem forall₂_dashes_iff {text name : List Char} (dashes : '_' ∉ name) :
    List.Forall₂ (fun c d => c = d ∨ (c = '-' ∨ c = '_') ∧ (d = '-' ∨ d = '_')) text name ↔
      (text.map fun c => if c = '_' then '-' else c) = name := by
  induction name generalizing text with
  | nil => simp
  | cons d name ih =>
    simp only [List.mem_cons, not_or] at dashes
    obtain ⟨other, dashes⟩ := dashes
    cases text with
    | nil => simp
    | cons c text =>
      have first : (c = d ∨ (c = '-' ∨ c = '_') ∧ (d = '-' ∨ d = '_')) ↔
          (if c = '_' then '-' else c) = d := by
        by_cases under : c = '_'
        · rw [if_pos under]
          grind
        · rw [if_neg under]
          grind
      rw [List.forall₂_cons, ih dashes, first, List.map_cons, List.cons.injEq]

/-- At most one option has such a name. -/
theorem ofName?_eq_some_iff {option : ShellOption} {text : String} :
    ofName? text = some option ↔ option.IsSpelled text := by
  rw [IsSpelled, forall₂_dashes_iff (by cases option <;> decide), ofName?]
  generalize (text.toList.map fun c => if c = '_' then '-' else c) = dashed
  constructor
  · intro found
    have same :=
      List.find?_some (p := fun option : ShellOption => option.name.toList == dashed) found
    exact (beq_iff_eq.mp same).symm
  · rintro rfl
    cases option <;> decide

instance (option : ShellOption) (text : String) : Decidable (option.IsSpelled text) :=
  decidable_of_iff _ ofName?_eq_some_iff

/-- No option has such a name. -/
def IsUnknown (text : String) : Prop := ∀ option : ShellOption, ¬option.IsSpelled text

theorem ofName?_eq_none_iff {text : String} : ofName? text = none ↔ IsUnknown text := by
  rw [Option.eq_none_iff_forall_ne_some]
  exact forall_congr' fun option => not_congr ofName?_eq_some_iff

instance : DecidablePred IsUnknown := fun _ => decidable_of_iff _ ofName?_eq_none_iff

end ShellOption

/-- One call that turns an option on or off. -/
structure Toggle where
  name : String
  on : Bool
  scope : ExecScope

namespace Toggle

/-- The call names the option and may turn it so where it is. -/
def Turns (toggle : Toggle) (option : ShellOption) : Prop :=
  option.IsSpelled toggle.name ∧ ¬option.IsForbidden toggle.on toggle.scope

end Toggle

namespace OptionSet

variable {options changed : OptionSet} {option : ShellOption} {name : String} {on : Bool}
  {scope : ExecScope}

/-- The options after a call, whatever came of it. -/
def attempt (options : OptionSet) (toggle : Toggle) : OptionSet :=
  match options.apply toggle.name toggle.on toggle.scope with
  | .ok (_, changed) => changed
  | .error _ => options

theorem apply_of_unknown (unknown : ShellOption.IsUnknown name) :
    options.apply name on scope = .error (.unknown name) := by
  rw [apply, ShellOption.ofName?_eq_none_iff.mpr unknown]

theorem apply_of_spelled (spelled : option.IsSpelled name) :
    options.apply name on scope =
      if option.IsForbidden on scope then .error (.topLevelOnly option)
      else .ok (option, options.put option on) := by
  rw [apply, ShellOption.ofName?_eq_some_iff.mpr spelled]
  unfold ShellOption.IsForbidden
  cases on <;> cases option <;> cases scope <;> rfl

/-- A call that succeeds turns the option that it names, and no other. -/
theorem apply_eq_ok_iff :
    options.apply name on scope = .ok (option, changed) ↔
      Toggle.Turns ⟨name, on, scope⟩ option ∧ changed = options.put option on := by
  constructor
  · intro applied
    cases found : ShellOption.ofName? name with
    | none =>
      rw [apply, found] at applied
      cases applied
    | some known =>
      have spelled := ShellOption.ofName?_eq_some_iff.mp found
      rw [apply_of_spelled spelled] at applied
      split at applied
      · cases applied
      · rename_i allowed
        cases applied
        exact ⟨⟨spelled, allowed⟩, rfl⟩
  · rintro ⟨⟨spelled, allowed⟩, rfl⟩
    rw [apply_of_spelled spelled, if_neg allowed]

/-- A call fails if no option has the name, or if the one that has it is governed by where the call
is made. -/
theorem exists_error_iff :
    (∃ error, options.apply name on scope = .error error) ↔
      ShellOption.IsUnknown name ∨
        ∃ option : ShellOption, option.IsSpelled name ∧ option.IsForbidden on scope := by
  constructor
  · rintro ⟨error, failed⟩
    cases found : ShellOption.ofName? name with
    | none => exact .inl (ShellOption.ofName?_eq_none_iff.mp found)
    | some known =>
      have spelled := ShellOption.ofName?_eq_some_iff.mp found
      rw [apply_of_spelled spelled] at failed
      by_cases forbidden : known.IsForbidden on scope
      · exact .inr ⟨known, spelled, forbidden⟩
      · rw [if_neg forbidden] at failed
        cases failed
  · rintro (unknown | ⟨option, spelled, forbidden⟩)
    · exact ⟨_, apply_of_unknown unknown⟩
    · exact ⟨_, (apply_of_spelled spelled).trans (if_pos forbidden)⟩

variable {toggle : Toggle} {error : OptionError}

theorem attempt_of_error
    (failed : options.apply toggle.name toggle.on toggle.scope = .error error) :
    options.attempt toggle = options := by
  rw [attempt, failed]

private theorem isOn_attempt_of_turns (turns : toggle.Turns option) :
    (options.attempt toggle).isOn option = toggle.on := by
  have applied : options.apply toggle.name toggle.on toggle.scope =
      .ok (option, options.put option toggle.on) := apply_eq_ok_iff.mpr ⟨turns, rfl⟩
  rw [attempt, applied]
  simp

private theorem isOn_attempt_of_not_turns (other : ¬toggle.Turns option) :
    (options.attempt toggle).isOn option = options.isOn option := by
  cases applied : options.apply toggle.name toggle.on toggle.scope with
  | error error => rw [attempt_of_error applied]
  | ok result =>
    obtain ⟨turned, changed⟩ := result
    obtain ⟨turns, rfl⟩ := apply_eq_ok_iff.mp applied
    have different : option ≠ turned := by
      rintro rfl
      exact other turns
    rw [attempt, applied]
    simp [different]

/-- The last call that turns an option decides what it is; if there is none, it is as before. -/
theorem isOn_foldl_attempt (toggles : List Toggle) (options : OptionSet) (option : ShellOption) :
    (∃ before toggle after, toggles = before ++ toggle :: after ∧ toggle.Turns option ∧
        (∀ later ∈ after, ¬later.Turns option) ∧
        (toggles.foldl attempt options).isOn option = toggle.on) ∨
      (∀ toggle ∈ toggles, ¬toggle.Turns option) ∧
        (toggles.foldl attempt options).isOn option = options.isOn option := by
  induction toggles generalizing options with
  | nil => exact .inr ⟨nofun, rfl⟩
  | cons toggle toggles ih =>
    obtain ⟨before, last, after, whole, turns, unturned, decides⟩ | ⟨unturned, kept⟩ :=
      ih (options.attempt toggle)
    · subst whole
      exact .inl ⟨toggle :: before, last, after, rfl, turns, unturned, decides⟩
    · by_cases turns : toggle.Turns option
      · exact .inl ⟨[], toggle, toggles, rfl, turns, unturned,
          kept.trans (isOn_attempt_of_turns turns)⟩
      · refine .inr ⟨List.forall_mem_cons.mpr ⟨turns, unturned⟩, ?_⟩
        exact kept.trans (isOn_attempt_of_not_turns turns)

end OptionSet

namespace Shopt

/-- An argument that is a dash and flags. -/
def IsFlags (argument : String) : Prop :=
  argument ≠ "--" ∧ argument ≠ "-" ∧ argument.toList.head? = some '-'

instance : DecidablePred IsFlags := fun _ => inferInstanceAs (Decidable (_ ∧ _))

private theorem isFlags_iff {argument : String} :
    IsFlags argument ↔ argument ≠ "--" ∧ ∃ flag flags, argument.toList = '-' :: flag :: flags := by
  refine and_congr_right fun _ => ?_
  have dash : argument = "-" ↔ argument.toList = ['-'] := String.toList_inj.symm
  rw [ne_eq, dash]
  match argument.toList with
  | [] => simp
  | [first] => simp
  | first :: flag :: flags => simp

/-- The flags in front of the names. -/
def flags (arguments : List String) : List Char :=
  (arguments.takeWhile fun argument => IsFlags argument).flatMap (·.toList.tail)

/-- The names behind the flags, which `--` may end. -/
def names (arguments : List String) : List String :=
  match arguments.dropWhile fun argument => IsFlags argument with
  | [] => []
  | argument :: rest => if argument = "--" then rest else argument :: rest

/-- What the last of the flags that turn options says. -/
def direction? (flags : List Char) : Option Bool :=
  (flags.filter fun flag => flag = 's' ∨ flag = 'u').getLast?.map (· == 's')

private theorem direction?_concat (flags : List Char) (flag : Char) :
    direction? (flags ++ [flag]) =
      if flag = 's' ∨ flag = 'u' then some (flag == 's') else direction? flags := by
  unfold direction?
  rw [List.filter_append]
  by_cases turns : flag = 's' ∨ flag = 'u'
  · simp [turns]
  · simp [turns]

def IsKnown (flag : Char) : Prop := flag ∈ ['s', 'u', 'p', 'q']

instance : DecidablePred IsKnown := fun _ => inferInstanceAs (Decidable (_ ∈ _))

namespace Request

variable {request : Request} {flag : Char} {before after : List Char}

private theorem withFlag?_of_known (known : IsKnown flag) :
    ∃ changed, request.withFlag? flag = some changed ∧
      changed.task = if flag = 's' ∨ flag = 'u' then .turn (flag == 's') else request.task := by
  simp only [IsKnown, List.mem_cons, List.not_mem_nil, or_false] at known
  rcases known with rfl | rfl | rfl | rfl <;> exact ⟨_, rfl, rfl⟩

private theorem withFlag?_of_unknown (unknown : ¬IsKnown flag) : request.withFlag? flag = none := by
  simp only [IsKnown, List.mem_cons, List.not_mem_nil, or_false, not_or] at unknown
  obtain ⟨set, unset, print, quiet⟩ := unknown
  unfold withFlag?
  split <;> first | rfl | contradiction

theorem withFlags_append (request : Request) (before after : List Char) :
    request.withFlags (before ++ after) = request.withFlags before >>= (withFlags · after) := by
  induction before generalizing request with
  | nil => rfl
  | cons flag before ih =>
    rw [List.cons_append, withFlags, withFlags]
    cases request.withFlag? flag with
    | none => rfl
    | some changed => exact ih changed

/-- Flags that are all known are read, and the last that turns options sets the task. -/
theorem withFlags_of_known (known : ∀ flag ∈ before, IsKnown flag) :
    ∃ changed, request.withFlags before = .ok changed ∧
      changed.task = (direction? before).elim request.task .turn := by
  induction before using List.reverseRecOn with
  | nil => exact ⟨request, rfl, rfl⟩
  | append_singleton flags flag ih =>
    obtain ⟨first, read, task⟩ := ih fun flag member => known flag (List.mem_append_left _ member)
    obtain ⟨changed, last, turned⟩ :=
      @withFlag?_of_known first flag (known flag (List.mem_append_right _ List.mem_cons_self))
    refine ⟨changed, ?_, ?_⟩
    · rw [withFlags_append, read]
      change first.withFlags [flag] = .ok changed
      rw [withFlags, last]
      rfl
    · rw [turned, direction?_concat, task]
      split <;> rfl

theorem withFlags_of_unknown (known : ∀ flag ∈ before, IsKnown flag) (unknown : ¬IsKnown flag) :
    request.withFlags (before ++ flag :: after) = .error flag := by
  obtain ⟨changed, read, -⟩ := @withFlags_of_known request before known
  rw [withFlags_append, read]
  change changed.withFlags (flag :: after) = _
  rw [withFlags, withFlag?_of_unknown unknown]

/-- The arguments are flags and names. -/
theorem read_eq (request : Request) (arguments : List String) :
    request.read arguments =
      (request.withFlags (flags arguments)).map fun changed => (changed, names arguments) := by
  induction arguments generalizing request with
  | nil => rfl
  | cons argument rest ih =>
    by_cases asked : IsFlags argument
    · obtain ⟨separates, flag, more, whole⟩ := isFlags_iff.mp asked
      have split : flags (argument :: rest) = (flag :: more) ++ flags rest := by
        simp [flags, asked, whole]
      have behind : names (argument :: rest) = names rest := by
        simp [names, asked]
      rw [read, if_neg separates, whole, split, behind, withFlags_append]
      cases outcome : request.withFlags (flag :: more) with
      | error unknown =>
        simp only [outcome]
        rfl
      | ok changed =>
        simp only [outcome]
        exact ih changed
    · have none : flags (argument :: rest) = [] := by
        simp [flags, asked]
      have all : names (argument :: rest) = if argument = "--" then rest else argument :: rest := by
        simp [names, asked]
      rw [read, none, all]
      split
      · rfl
      · rename_i different
        split
        · rename_i whole
          exact absurd (isFlags_iff.mpr ⟨different, _, _, whole⟩) asked
        · rfl

end Request

section
variable {options : OptionSet} {option : ShellOption} {name : String} {on : Bool}
  {scope : ExecScope} {before names : List String}

/-- A list of names as the calls that it asks for. -/
def toggles (on : Bool) (scope : ExecScope) (names : List String) : List Toggle :=
  names.map fun name => ⟨name, on, scope⟩

/-- The shell after a list of names. -/
def turned (shell : Shell) (on : Bool) (names : List String) : Shell :=
  { shell with
    options := (toggles on shell.scope names).foldl OptionSet.attempt shell.options }

/-- No name in the list is that of an option that may not be turned so. -/
def AreAllowed (on : Bool) (scope : ExecScope) (names : List String) : Prop :=
  ∀ name ∈ names, ∀ option : ShellOption, option.IsSpelled name → ¬option.IsForbidden on scope

/-- A line for each unknown name. -/
def complaints (names : List String) : String :=
  String.join ((names.filter fun name => ShellOption.IsUnknown name).map fun name =>
    complaint (.unknown name))

theorem complaints_cons (name : String) (names : List String) :
    complaints (name :: names) = complaints [name] ++ complaints names := by
  unfold complaints
  rw [← List.singleton_append, List.filter_append, List.map_append, String.join_append]

theorem complaints_of_unknown (unknown : ShellOption.IsUnknown name) :
    complaints [name] = complaint (.unknown name) := by
  simp [complaints, unknown]

theorem complaints_of_spelled (spelled : option.IsSpelled name) : complaints [name] = "" := by
  have known : ¬ShellOption.IsUnknown name := fun unknown => unknown option spelled
  simp [complaints, known]

private theorem complaints_eq_empty_iff :
    complaints names = "" ↔ ∀ name ∈ names, ¬ShellOption.IsUnknown name := by
  induction names with
  | nil => simp [complaints]
  | cons name names ih =>
    rw [complaints_cons, String.append_eq_empty_iff, ih, List.forall_mem_cons]
    refine and_congr_left fun _ => ?_
    by_cases unknown : ShellOption.IsUnknown name
    · simp [complaints_of_unknown unknown, unknown, complaint]
    · obtain ⟨option, spelled⟩ := not_forall_not.mp unknown
      exact iff_of_true (complaints_of_spelled spelled) unknown

private theorem status_complaints (names : List String) :
    (if (complaints names).isEmpty then (0 : Int) else 1) =
      if ∃ name ∈ names, ShellOption.IsUnknown name then 1 else 0 := by
  have empty : (complaints names).isEmpty ↔ ¬∃ name ∈ names, ShellOption.IsUnknown name := by
    rw [String.isEmpty_iff, complaints_eq_empty_iff]
    simp only [not_exists, not_and]
  by_cases unknown : ∃ name ∈ names, ShellOption.IsUnknown name
  · rw [if_pos unknown, if_neg fun isEmpty => empty.mp isEmpty unknown]
  · rw [if_neg unknown, if_pos (empty.mpr unknown)]

/-- A name that is allowed is turned, or complained of, before the rest. -/
theorem turnNamed_cons
    (allowed : ∀ option : ShellOption, option.IsSpelled name → ¬option.IsForbidden on scope)
    (options : OptionSet) (names : List String) :
    turnNamed on scope options (name :: names) =
      let later := turnNamed on scope (options.attempt ⟨name, on, scope⟩) names
      (later.1, later.2.map (complaints [name] ++ ·)) := by
  rw [turnNamed]
  by_cases unknown : ShellOption.IsUnknown name
  · have failed : options.apply name on scope = .error (.unknown name) :=
      OptionSet.apply_of_unknown unknown
    have kept : options.attempt ⟨name, on, scope⟩ = options := OptionSet.attempt_of_error failed
    rw [failed, kept, complaints_of_unknown unknown]
  · obtain ⟨option, spelled⟩ := not_forall_not.mp unknown
    have turned : options.apply name on scope = .ok (option, options.put option on) :=
      (OptionSet.apply_of_spelled spelled).trans (if_neg (allowed option spelled))
    have silent : (fun text => complaints [name] ++ text) = id := by
      funext text
      rw [complaints_of_spelled spelled, String.empty_append, id]
    rw [OptionSet.attempt, turned, silent, Except.map_id]
    rfl

/-- Names that are allowed are all turned, with a complaint of each that is unknown. -/
theorem turnNamed_of_allowed (allowed : AreAllowed on scope names) (options : OptionSet) :
    turnNamed on scope options names =
      ((toggles on scope names).foldl OptionSet.attempt options, .ok (complaints names)) := by
  induction names generalizing options with
  | nil => rfl
  | cons name names ih =>
    obtain ⟨first, allowed⟩ := List.forall_mem_cons.mp allowed
    rw [turnNamed_cons first, ih allowed, complaints_cons name names]
    rfl

/-- Nothing is turned from the first name on that is not allowed. -/
theorem turnNamed_of_forbidden (allowed : AreAllowed on scope before)
    (spelled : option.IsSpelled name) (forbidden : option.IsForbidden on scope)
    (options : OptionSet) (after : List String) :
    turnNamed on scope options (before ++ name :: after) =
      ((toggles on scope before).foldl OptionSet.attempt options,
        .error (.topLevelOnly option)) := by
  induction before generalizing options with
  | nil =>
    rw [List.nil_append, turnNamed, OptionSet.apply_of_spelled spelled, if_pos forbidden]
    rfl
  | cons first before ih =>
    obtain ⟨one, allowed⟩ := List.forall_mem_cons.mp allowed
    rw [List.cons_append, turnNamed_cons one, ih allowed]
    rfl

end

section
variable {m : Type → Type} [Monad m] [LawfulMonad m] {host : Host m}
  {run? : Option (String → Action m Flow)} {shell : Shell} {arguments names : List String}
  {request : Request} {flag : Char} {on : Bool}

def usage (flag : Char) : String :=
  "shopt: -" ++ flag.toString ++
    ": invalid option\nshopt: usage: shopt [-pqsu] [optname ...]\n"

/-- How the command ends is how the builtin does. -/
theorem run_report {outcome : Except Fault Report} {after : Shell}
    (ran : (perform arguments : Action m Report).run shell = pure (outcome, after)) :
    (Builtin.shopt.perform host run? arguments).run shell =
      pure (outcome.map .report, after) := by
  refine (Action.run_bind (perform arguments) _ shell).trans ?_
  rw [ran, pure_bind]
  cases outcome <;> rfl

theorem run_of_error (read : Request.read {} arguments = .error flag) :
    (Builtin.shopt.perform host run? arguments).run shell =
      pure (.ok (.report { status := 2, err := usage flag }), shell) := by
  have ran : (perform arguments : Action m Report).run shell =
      pure (.ok { status := 2, err := usage flag }, shell) := by
    rw [perform, read]
    rfl
  exact run_report ran

theorem run_of_show (read : Request.read {} arguments = .ok (request, names))
    (shows : names = [] ∨ request.task = .show) :
    ∃ report, (Builtin.shopt.perform host run? arguments).run shell =
      pure (.ok (.report report), shell) := by
  have ran : ∃ report,
      (perform arguments : Action m Report).run shell = pure (.ok report, shell) := by
    rw [perform, read]
    simp only [Action.run_get_bind]
    by_cases empty : names.isEmpty
    · rw [if_pos empty]
      exact ⟨_, rfl⟩
    · have task : request.task = .show := shows.resolve_left fun none => empty (by rw [none]; rfl)
      rw [if_neg empty, task]
      exact ⟨_, rfl⟩
  obtain ⟨report, ran⟩ := ran
  exact ⟨report, run_report ran⟩

variable {outcome : Except OptionError String} {options : OptionSet}

theorem run_of_turn (read : Request.read {} arguments = .ok (request, names))
    (turn : request.task = .turn on) (present : names ≠ [])
    (turned : turnNamed on shell.scope shell.options names = (options, outcome)) :
    (Builtin.shopt.perform host run? arguments).run shell =
      pure (match outcome with
        | .error error => .error (.option error)
        | .ok complaints => .ok (.report ⟨if complaints.isEmpty then 0 else 1, "", complaints⟩),
        { shell with options }) := by
  have ran : (perform arguments : Action m Report).run shell =
      pure (match outcome with
        | .error error => .error (.option error)
        | .ok complaints => .ok ⟨if complaints.isEmpty then 0 else 1, "", complaints⟩,
        { shell with options }) := by
    rw [perform, read]
    simp only [Action.run_get_bind]
    rw [if_neg (by simpa using present), turn]
    simp only [Action.run_set_bind, turned]
    cases outcome <;> rfl
  rw [run_report ran]
  cases outcome <;> rfl

private theorem read_of_known (known : ∀ flag ∈ flags arguments, IsKnown flag) :
    ∃ request : Request, Request.read {} arguments = .ok (request, Shopt.names arguments) ∧
      request.task = (direction? (flags arguments)).elim .show .turn := by
  obtain ⟨request, read, task⟩ := @Request.withFlags_of_known {} _ known
  refine ⟨request, ?_, task⟩
  rw [Request.read_eq, read]
  rfl

private theorem read_of_unknown {known after : List Char}
    (split : flags arguments = known ++ flag :: after) (all : ∀ flag ∈ known, IsKnown flag)
    (unknown : ¬IsKnown flag) : Request.read {} arguments = .error flag := by
  rw [Request.read_eq, split, Request.withFlags_of_unknown all unknown]
  rfl

/-- Whatever the arguments are, nothing but the options changes. -/
theorem run_changes_options (arguments : List String) (shell : Shell) :
    ∃ outcome options, (Builtin.shopt.perform host run? arguments).run shell =
      pure (outcome, { shell with options }) := by
  cases read : Request.read {} arguments with
  | error flag => exact ⟨_, shell.options, run_of_error read⟩
  | ok result =>
    obtain ⟨request, names⟩ := result
    by_cases shows : names = [] ∨ request.task = .show
    · exact (run_of_show read shows).elim fun report ran => ⟨_, shell.options, ran⟩
    · obtain ⟨present, changes⟩ := not_or.mp shows
      match task : request.task with
      | .show => exact absurd task changes
      | .turn on => exact ⟨_, _, run_of_turn read task present rfl⟩

end

end Shopt

open Shopt in
/-- The last call that is allowed to turn an option decides what it is, and a call that is not
changes nothing. So do the names given to `shopt`, in their order, up to the first that may not be
turned where the command is. -/
theorem last_turn_decides {m : Type → Type} [Monad m] [LawfulMonad m] :
    (∀ (options : OptionSet) (name : String) (on : Bool) (scope : ExecScope),
      (∀ option, (∃ changed, options.apply name on scope = .ok (option, changed)) ↔
        Toggle.Turns ⟨name, on, scope⟩ option) ∧
      ((∃ error, options.apply name on scope = .error error) ↔
        ShellOption.IsUnknown name ∨
          ∃ option : ShellOption, option.IsSpelled name ∧ option.IsForbidden on scope) ∧
      ((∃ error, options.apply name on scope = .error error) →
        options.attempt ⟨name, on, scope⟩ = options)) ∧
    (∀ (options : OptionSet) (toggles : List Toggle) (option : ShellOption),
      (∃ before toggle after, toggles = before ++ toggle :: after ∧ toggle.Turns option ∧
          (∀ later ∈ after, ¬later.Turns option) ∧
          (toggles.foldl OptionSet.attempt options).isOn option = toggle.on) ∨
        (∀ toggle ∈ toggles, ¬toggle.Turns option) ∧
          (toggles.foldl OptionSet.attempt options).isOn option = options.isOn option) ∧
    ∀ (host : Host m) (run? : Option (String → Action m Flow)) (arguments : List String)
      (shell : Shell),
      let ran := (Builtin.shopt.perform host run? arguments).run shell
      (∀ before flag after, flags arguments = before ++ flag :: after →
        (∀ known ∈ before, IsKnown known) → ¬IsKnown flag →
          ran = pure (.ok (.report { status := 2, err := usage flag }), shell)) ∧
      (∀ on, (∀ flag ∈ flags arguments, IsKnown flag) → direction? (flags arguments) = some on →
        names arguments ≠ [] →
          (AreAllowed on shell.scope (names arguments) →
            ran = pure
              (.ok (.report
                { status := if ∃ name ∈ names arguments, ShellOption.IsUnknown name then 1 else 0
                  err := complaints (names arguments) }),
                turned shell on (names arguments))) ∧
          ∀ before name after option, names arguments = before ++ name :: after →
            AreAllowed on shell.scope before → option.IsSpelled name →
              option.IsForbidden on shell.scope →
                ran = pure (.error (.option (.topLevelOnly option)), turned shell on before)) ∧
      ((∀ flag ∈ flags arguments, IsKnown flag) →
        names arguments = [] ∨ direction? (flags arguments) = none →
          ∃ report, ran = pure (.ok (.report report), shell)) ∧
      ∃ outcome options, ran = pure (outcome, { shell with options }) := by
  refine ⟨?_, ?_, ?_⟩
  · intro options name on scope
    refine ⟨fun option => ?_, OptionSet.exists_error_iff, ?_⟩
    · simp only [OptionSet.apply_eq_ok_iff, exists_and_left, exists_eq, and_true]
    · rintro ⟨error, failed⟩
      exact OptionSet.attempt_of_error failed
  · intro options toggles option
    exact OptionSet.isOn_foldl_attempt toggles options option
  · intro host run? arguments shell ran
    refine ⟨?_, ?_, ?_, run_changes_options arguments shell⟩
    · intro before flag after split known unknown
      exact run_of_error (read_of_unknown split known unknown)
    · intro on known direction present
      obtain ⟨request, read, task⟩ := read_of_known known
      rw [direction] at task
      constructor
      · intro allowed
        rw [← status_complaints]
        exact run_of_turn read task present (turnNamed_of_allowed allowed shell.options)
      · intro before name after option split allowed spelled forbidden
        have stopped := turnNamed_of_forbidden allowed spelled forbidden shell.options after
        rw [← split] at stopped
        exact run_of_turn read task present stopped
    · intro known shows
      obtain ⟨request, read, task⟩ := read_of_known known
      refine run_of_show read (shows.imp_right fun none => ?_)
      rw [task, none]
      rfl

open Shopt in
/-- A name that is unknown, one that is turned, and one that is not allowed. -/
theorem last_turn_decides_function :
    let host : Host Id := ⟨fun _ => .ok [], fun _ => .ok ""⟩
    let shell : Shell := { functionDepth := 1, options := { staticWords := true } }
    let arguments := ["-u", "-ps", "nope", "strict_array", "oil-parse_at", "static-word-eval"]
    let before := ["nope", "strict_array"]
    (∀ flag ∈ flags arguments, IsKnown flag) ∧ direction? (flags arguments) = some true ∧
      names arguments = before ++ "oil-parse_at" :: ["static-word-eval"] ∧
      AreAllowed true shell.scope before ∧ ShellOption.atSplices.IsSpelled "oil-parse_at" ∧
      ShellOption.atSplices.IsForbidden true shell.scope ∧
      (turned shell true before).options = { staticWords := true, strictArrays := true } ∧
      (Builtin.shopt.perform host none arguments : Action Id _).run shell =
        pure (.error (.option (.topLevelOnly .atSplices)), turned shell true before) := by
  intro host shell arguments before
  have asked : flags arguments = ['u', 'p', 's'] := by decide
  have known : ∀ flag ∈ flags arguments, IsKnown flag := by simp [asked, IsKnown]
  have direction : direction? (flags arguments) = some true := by decide
  have allowed : AreAllowed true shell.scope before := by
    intro name member option spelled forbidden
    cases option with
    | atSplices =>
      have none : ∀ name ∈ before, ¬ShellOption.atSplices.IsSpelled name := by decide
      exact none name member spelled
    | staticWords => exact absurd forbidden (by decide)
    | strictArrays => exact absurd forbidden (by decide)
  have spelled : ShellOption.atSplices.IsSpelled "oil-parse_at" := by decide
  have forbidden : ShellOption.atSplices.IsForbidden true shell.scope := by decide
  have present : names arguments ≠ [] := by decide
  have stops := (last_turn_decides.2.2 host none arguments shell).2.1 true known direction present
  exact ⟨known, direction, rfl, allowed, spelled, forbidden, by decide,
    stops.2 before "oil-parse_at" ["static-word-eval"] .atSplices rfl allowed spelled forbidden⟩

end PolicyShell
