import Mathlib.Data.List.Forall2
import PolicyShell.Startup.Program

/-! The ways in which options of a command line are written. Before the line is read, `+O` is
spelled out as a long option, up to the first argument that looks like an operand. -/
namespace PolicyShell.Invocation

/-- A name that can be written in every way. -/
def IsPlain (name : String) : Prop := ∃ c rest, name.toList = c :: rest ∧ c ≠ '-' ∧ c ≠ '='

/-- Letters of short options, which may be the value of another. -/
def IsLetters (text : String) : Prop := text ≠ "" ∧ text.toList.all isShort

/-- What an option of a command line asks for. -/
inductive Setting where
  | change (on : Bool) (name : String)
  | command (text : String)
  | json
  deriving DecidableEq, Repr

namespace Setting

/-- The arguments that an option may be written as. -/
inductive Writes : Setting → List String → Prop where
  | plus {name : String} (plain : IsPlain name) : Writes (change false name) ["+O", name]
  | plusAttached {name : String} (plain : IsPlain name) : Writes (change false name) ["+O" ++ name]
  | long {name : String} (plain : IsPlain name) :
      Writes (change false name) ["--unset-option", name]
  | longAttached {name : String} (plain : IsPlain name) :
      Writes (change false name) ["--unset-option=" ++ name]
  | on (name : String) : Writes (change true name) ["-O", name]
  | onAttached {name : String} (letters : IsLetters name) : Writes (change true name) ["-O" ++ name]
  | command (text : String) : Writes (command text) ["-c", text]
  | commandAttached {text : String} (letters : IsLetters text) :
      Writes (command text) ["-c" ++ text]
  | json : Writes json ["--json"]

/-- What is asked for with one more option. There is nothing if its value is an option itself, or
if it is a second command or a second `--json`. -/
def add? (before : Invocation) : Setting → Option Invocation
  | change on name =>
    if Argument.ofText name = .operand then
      some { before with changes := before.changes ++ [(on, name)] }
    else none
  | command text =>
    if Argument.ofText text = .operand ∧ before.command? = none then
      some { before with command? := some text }
    else none
  | json => if before.json then none else some { before with json := true }

def change? : Setting → Option (Bool × String)
  | change on name => some (on, name)
  | command _ | json => none

end Setting

variable {argument name text : String} {rest : List String} {invocation : Invocation}

private theorem spellOne_of_head (other : argument.toList.head? ≠ some '+') :
    spellOne argument = argument := by
  unfold spellOne
  split
  · rename_i same
    simp [same] at other
  · rename_i same
    simp [same] at other
  · rfl

private theorem takesNext_of_spelled (same : spellOne argument = argument)
    (ends : endsOptions argument = true) : takesNext argument = false := by
  apply Bool.eq_false_iff.mpr
  intro takes
  simp only [takesNext, Bool.or_eq_true, beq_iff_eq] at takes
  obtain (rfl | rfl) | rfl := takes
  · revert same
    decide
  · revert ends
    decide
  · revert ends
    decide

theorem spell_cons_of_takesNext (takes : takesNext argument = true) (value : String)
    (rest : List String) :
    spell (argument :: value :: rest) = spellOne argument :: value :: spell rest := by
  rw [spell, if_pos takes]

theorem spell_cons_of_ends (same : spellOne argument = argument)
    (ends : endsOptions argument = true) (rest : List String) :
    spell (argument :: rest) = argument :: rest := by
  cases rest with
  | nil => rw [spell, same]
  | cons next rest =>
    rw [spell, takesNext_of_spelled same ends, if_neg Bool.false_ne_true, if_pos ⟨same, ends⟩]

theorem spell_cons_of_goesOn (single : takesNext argument = false)
    (goesOn : spellOne argument = argument → endsOptions argument = false) (rest : List String) :
    spell (argument :: rest) = spellOne argument :: spell rest := by
  have stays : ¬(spellOne argument = argument ∧ endsOptions argument = true) := by
    rintro ⟨same, ends⟩
    rw [goesOn same] at ends
    cases ends
  cases rest with
  | nil => rfl
  | cons next rest => rw [spell, single, if_neg Bool.false_ne_true, if_neg stays]

/-- Only arguments of two characters take the next one, or end the options with a dash. -/
theorem takesNext_of_length (long : 2 < argument.toList.length) :
    takesNext argument = false ∧ argument ≠ "--" := by
  have others (text : String) (short : text.toList.length = 2) : argument ≠ text := by
    rintro rfl
    omega
  simp [takesNext, others "+O" rfl, others "-O" rfl, others "-c" rfl, others "--" rfl]

theorem spell_cons_of_dash (dash : argument.toList.head? = some '-')
    (long : 2 < argument.toList.length) (rest : List String) :
    spell (argument :: rest) = argument :: spell rest := by
  obtain ⟨single, more⟩ := takesNext_of_length long
  have same : spellOne argument = argument := by
    apply spellOne_of_head
    simp [dash]
  have goesOn : endsOptions argument = false := by simp [endsOptions, dash, more]
  rw [spell_cons_of_goesOn single (fun _ => goesOn), same]

theorem ofText_of_head (other : argument.toList.head? ≠ some '-') :
    Argument.ofText argument = .operand := by
  unfold Argument.ofText
  split
  · rename_i same
    simp [same] at other
  · rename_i same
    simp [same] at other
  · rename_i same
    simp [same] at other
  · rfl

theorem ofText_short {letter : Char} {others : List Char}
    (whole : argument.toList = '-' :: letter :: others) (known : isShort letter = true) :
    Argument.ofText argument = Argument.short letter others := by
  have notDash : letter ≠ '-' := by
    rintro rfl
    revert known
    decide
  unfold Argument.ofText
  split
  · rename_i same
    rw [whole] at same
    cases same
    exact absurd rfl notDash
  · rename_i same
    rw [whole] at same
    cases same
    exact absurd rfl notDash
  · rename_i same
    rw [whole] at same
    cases same
    rfl
  · rename_i other
    exact absurd whole (other letter others)

theorem ofText_long : Argument.ofText "--unset-option" = .change false none := by decide

theorem ofText_longAttached (name : String) :
    Argument.ofText ("--unset-option=" ++ name) = .change false (some name) := by
  simp [Argument.ofText, Argument.long]

/-- Letters of short options are the value of the first, if that takes one. -/
theorem short_of_letters (letters : IsLetters text) :
    Argument.short 'O' text.toList = .change true (some text) ∧
      Argument.short 'c' text.toList = .command (some text) := by
  obtain ⟨present, short⟩ := letters
  have filled : text.toList.isEmpty = false := by simpa using present
  simp [Argument.short, filled, short, isShort]

private theorem ofText_onAttached (letters : IsLetters name) :
    Argument.ofText ("-O" ++ name) = .change true (some name) := by
  have whole : ("-O" ++ name).toList = '-' :: 'O' :: name.toList := by simp
  rw [ofText_short whole (by decide)]
  exact (short_of_letters letters).1

private theorem ofText_commandAttached (letters : IsLetters text) :
    Argument.ofText ("-c" ++ text) = .command (some text) := by
  have whole : ("-c" ++ text).toList = '-' :: 'c' :: text.toList := by simp
  rw [ofText_short whole (by decide)]
  exact (short_of_letters letters).2

private theorem IsLetters.ofText (letters : IsLetters text) : Argument.ofText text = .operand := by
  obtain ⟨present, short⟩ := letters
  apply ofText_of_head
  intro dash
  have member := List.all_eq_true.mp short '-' (List.mem_of_head? dash)
  revert member
  decide

theorem IsPlain.ofText (plain : IsPlain name) : Argument.ofText name = .operand := by
  obtain ⟨c, rest, whole, dash, -⟩ := plain
  apply ofText_of_head
  simpa [whole] using dash

private theorem IsPlain.ne_empty (plain : IsPlain name) : name ≠ "" := by
  obtain ⟨c, rest, whole, -⟩ := plain
  rintro rfl
  cases whole

theorem IsPlain.endsOptions (plain : IsPlain name) : endsOptions name = true := by
  obtain ⟨c, rest, whole, dash, -⟩ := plain
  simp [Invocation.endsOptions, whole, dash]

private theorem spellOne_plusAttached (plain : IsPlain name) :
    spellOne ("+O" ++ name) = "--unset-option=" ++ name := by
  obtain ⟨c, rest, whole, -⟩ := plain
  rw [← String.ofList_toList (s := name), whole]
  simp [spellOne]

theorem value_attached (option value : String) (rest : List String) :
    Invocation.value option (some value) rest = .ok (value, rest) := by
  rw [Invocation.value]

theorem value_apart (option value : String) (rest : List String) :
    Invocation.value option none (value :: rest) =
      if Argument.ofText value = .operand then .ok (value, rest)
      else .error (.missingValue option) := by
  rw [Invocation.value]

theorem readFrom_change {on : Bool} {value? : Option String}
    (kind : Argument.ofText argument = .change on value?) :
    readFrom invocation (argument :: rest) =
      Invocation.value argument value? rest >>= fun (name, after) =>
        readFrom { invocation with changes := invocation.changes ++ [(on, name)] } after := by
  rw [readFrom, kind]
  dsimp only
  split
  · rename_i read
    rw [read]
    rfl
  · rename_i read
    rw [read]
    rfl

theorem readFrom_command {value? : Option String}
    (kind : Argument.ofText argument = .command value?) :
    readFrom invocation (argument :: rest) =
      Invocation.value argument value? rest >>= fun (text, after) =>
        if invocation.command?.isSome then .error (.repeated argument)
        else readFrom { invocation with command? := some text } after := by
  rw [readFrom, kind]
  dsimp only
  split
  · rename_i read
    rw [read]
    rfl
  · rename_i read
    rw [read]
    rfl

theorem readFrom_operand (kind : Argument.ofText argument = .operand) :
    readFrom invocation (argument :: rest) =
      .ok { invocation with operands := argument :: rest } := by
  rw [readFrom, kind]

/-- What an option adds goes before what the arguments behind it ask for. -/
def Adds (setting : Setting) (arguments rest : List String) : Prop :=
  ∀ invocation, (readFrom invocation arguments).toOption =
    (setting.add? invocation).bind fun before => (readFrom before rest).toOption

private theorem adds_change_attached {on : Bool} (readable : Argument.ofText name = .operand)
    (kind : Argument.ofText argument = .change on (some name)) (rest : List String) :
    Adds (.change on name) (argument :: rest) rest := by
  intro invocation
  rw [readFrom_change kind, value_attached, Setting.add?, if_pos readable]
  rfl

private theorem adds_change_apart {on : Bool} (kind : Argument.ofText argument = .change on none)
    (name : String) (rest : List String) :
    Adds (.change on name) (argument :: name :: rest) rest := by
  intro invocation
  rw [readFrom_change kind, value_apart, Setting.add?]
  by_cases readable : Argument.ofText name = .operand
  · rw [if_pos readable, if_pos readable]
    rfl
  · rw [if_neg readable, if_neg readable]
    rfl

private theorem adds_command_attached (readable : Argument.ofText text = .operand)
    (kind : Argument.ofText argument = .command (some text)) (rest : List String) :
    Adds (.command text) (argument :: rest) rest := by
  intro invocation
  rw [readFrom_command kind, value_attached, Setting.add?]
  cases before : invocation.command? with
  | none =>
    rw [if_pos ⟨readable, rfl⟩]
    rfl
  | some earlier =>
    rw [if_neg (by simp)]
    rfl

private theorem adds_command_apart (kind : Argument.ofText argument = .command none)
    (text : String) (rest : List String) :
    Adds (.command text) (argument :: text :: rest) rest := by
  intro invocation
  rw [readFrom_command kind, value_apart, Setting.add?]
  by_cases readable : Argument.ofText text = .operand
  · cases before : invocation.command? with
    | none =>
      rw [if_pos readable, if_pos ⟨readable, rfl⟩]
      rfl
    | some earlier =>
      rw [if_pos readable, if_neg (by simp)]
      rfl
  · rw [if_neg readable, if_neg (by simp [readable])]
    rfl

private theorem adds_json (kind : Argument.ofText argument = .json none) (rest : List String) :
    Adds .json (argument :: rest) rest := by
  intro invocation
  rw [readFrom, kind, Setting.add?]
  cases invocation.json <;> rfl

/-- The pass finds nothing to spell out behind an option with a long name and its value apart. -/
def Untouched (piece rest : List String) : Prop :=
  ∀ name, piece = ["--unset-option", name] → spellOne name = name ∧ spell rest = rest

variable {setting : Setting} {piece : List String}

private theorem adds_piece (writes : setting.Writes piece) (untouched : Untouched piece rest) :
    Adds setting (spell (piece ++ rest)) (spell rest) := by
  have long {text : String} (present : text ≠ "") (first second : Char) :
      2 < (String.ofList [first, second] ++ text).toList.length := by
    simpa [Nat.pos_iff_ne_zero] using present
  cases writes with
  | @plus name plain =>
    have spelled : spell ("+O" :: name :: rest) = "--unset-option" :: name :: spell rest :=
      spell_cons_of_takesNext rfl name rest
    exact spelled ▸ adds_change_apart ofText_long name _
  | @plusAttached name plain =>
    have attached := spellOne_plusAttached plain
    have spelled : spell (("+O" ++ name) :: rest) = ("--unset-option=" ++ name) :: spell rest := by
      rw [← attached]
      apply spell_cons_of_goesOn (takesNext_of_length (long plain.ne_empty '+' 'O')).1
      intro same
      rw [attached] at same
      have heads := congrArg (·.toList.head?) same
      simp at heads
    exact spelled ▸ adds_change_attached plain.ofText (ofText_longAttached name) _
  | @long name plain =>
    obtain ⟨same, unchanged⟩ := untouched name rfl
    have spelled : spell ("--unset-option" :: name :: rest) =
        "--unset-option" :: name :: spell rest := by
      rw [spell_cons_of_dash rfl (by decide), spell_cons_of_ends same plain.endsOptions, unchanged]
    exact spelled ▸ adds_change_apart ofText_long name _
  | @longAttached name plain =>
    have spelled : spell (("--unset-option=" ++ name) :: rest) =
        ("--unset-option=" ++ name) :: spell rest :=
      spell_cons_of_dash (by simp) (by simp) rest
    exact spelled ▸ adds_change_attached plain.ofText (ofText_longAttached name) _
  | on name =>
    have spelled : spell ("-O" :: name :: rest) = "-O" :: name :: spell rest :=
      spell_cons_of_takesNext rfl name rest
    exact spelled ▸ adds_change_apart (by decide) name _
  | @onAttached name letters =>
    have spelled : spell (("-O" ++ name) :: rest) = ("-O" ++ name) :: spell rest :=
      spell_cons_of_dash (by simp) (long letters.1 '-' 'O') rest
    exact spelled ▸ adds_change_attached letters.ofText (ofText_onAttached letters) _
  | command text =>
    have spelled : spell ("-c" :: text :: rest) = "-c" :: text :: spell rest :=
      spell_cons_of_takesNext rfl text rest
    exact spelled ▸ adds_command_apart (by decide) text _
  | @commandAttached text letters =>
    have spelled : spell (("-c" ++ text) :: rest) = ("-c" ++ text) :: spell rest :=
      spell_cons_of_dash (by simp) (long letters.1 '-' 'c') rest
    exact spelled ▸ adds_command_attached letters.ofText (ofText_commandAttached letters) _
  | json =>
    have spelled : spell ("--json" :: rest) = "--json" :: spell rest :=
      spell_cons_of_dash rfl (by decide) rest
    exact spelled ▸ adds_json (by decide) _

/-- No option with a long name and its value apart stands in front of anything that the pass would
spell out. -/
def Heeded (pieces : List (List String)) (rest : List String) : Prop :=
  ∀ before name after, pieces = before ++ ["--unset-option", name] :: after →
    spellOne name = name ∧ spell (after.flatten ++ rest) = after.flatten ++ rest

variable {settings : List Setting} {pieces : List (List String)}

private theorem heeded_nil : Heeded [] rest := by
  intro before name after same
  simp at same

theorem heeded_cons_iff :
    Heeded (piece :: pieces) rest ↔
      Untouched piece (pieces.flatten ++ rest) ∧ Heeded pieces rest := by
  constructor
  · intro heeded
    constructor
    · rintro name rfl
      exact heeded [] name pieces rfl
    · rintro before name after rfl
      exact heeded (piece :: before) name after rfl
  · rintro ⟨untouched, heeded⟩ before name after same
    cases before with
    | nil =>
      obtain ⟨rfl, rfl⟩ := List.cons.inj same
      exact untouched name rfl
    | cons first before =>
      obtain ⟨rfl, rfl⟩ := List.cons.inj same
      exact heeded before name after rfl

/-- Options are read from left to right, however they are written. -/
theorem readFrom_pieces (writes : List.Forall₂ Setting.Writes settings pieces)
    (heeded : Heeded pieces rest) (invocation : Invocation) :
    (readFrom invocation (spell (pieces.flatten ++ rest))).toOption =
      (settings.foldlM Setting.add? invocation).bind fun asked =>
        (readFrom asked (spell rest)).toOption := by
  induction writes generalizing invocation with
  | nil => rfl
  | @cons setting piece settings pieces writes later ih =>
    obtain ⟨untouched, heeded⟩ := heeded_cons_iff.mp heeded
    rw [List.flatten_cons, List.append_assoc, adds_piece writes untouched, List.foldlM_cons,
      Option.bind_eq_bind, Option.bind_assoc]
    congr
    funext asked
    exact ih heeded asked

/-- What two parts of a command line ask for together. -/
def followedBy? (first later : Invocation) : Option Invocation :=
  if first.json && later.json || first.command?.isSome && later.command?.isSome then none
  else some {
    changes := first.changes ++ later.changes
    json := first.json || later.json
    command? := first.command?.or later.command?
    operands := later.operands }

private theorem followedBy?_assoc (first second third : Invocation) :
    (first.followedBy? second).bind (·.followedBy? third) =
      (second.followedBy? third).bind first.followedBy? := by
  obtain ⟨changes, json, command?, operands⟩ := first
  obtain ⟨changes', json', command?', operands'⟩ := second
  obtain ⟨changes'', json'', command?'', operands''⟩ := third
  cases json <;> cases json' <;> cases json'' <;> cases command? <;> cases command?' <;>
    cases command?'' <;> simp [followedBy?]

/-- Whatever was asked for before arguments goes in front of what they ask for by themselves. -/
def Follows (arguments : List String) : Prop :=
  ∀ invocation : Invocation, invocation.operands = [] →
    (readFrom invocation arguments).toOption =
      (readFrom {} arguments).toOption.bind invocation.followedBy?

theorem Follows.after {after : List String} (follows : Follows after) (step : Invocation)
    (unended : step.operands = []) (invocation : Invocation) :
    (invocation.followedBy? step).bind (fun both => (readFrom both after).toOption) =
      (readFrom step after).toOption.bind invocation.followedBy? := by
  rw [follows step unended, Option.bind_assoc]
  simp only [← followedBy?_assoc]
  cases joined : invocation.followedBy? step with
  | none => simp
  | some both =>
    have unended : both.operands = [] := by
      rw [followedBy?] at joined
      split at joined
      · cases joined
      · cases joined
        exact unended
    exact follows both unended

private theorem follows (arguments : List String) : Follows arguments := by
  induction size : arguments.length using Nat.strongRecOn generalizing arguments with
  | ind size ih =>
    rintro ⟨changes, json, command?, operands⟩ rfl
    cases arguments with
    | nil => simp [followedBy?, Except.toOption]
    | cons argument rest =>
      have shorter {after : List String} (le : after.length ≤ rest.length) : Follows after :=
        ih after.length (by rw [← size, List.length_cons]; omega) after rfl
      cases kind : Argument.ofText argument with
      | change on value? =>
        rw [readFrom_change kind, readFrom_change kind]
        cases read : Invocation.value argument value? rest with
        | error error => rfl
        | ok found =>
          obtain ⟨name, after⟩ := found
          have joined := (shorter (length_le_of_value read)).after { changes := [(on, name)] } rfl
            { changes, json, command? }
          simpa [followedBy?, bind, Except.bind] using joined
      | command value? =>
        rw [readFrom_command kind, readFrom_command kind]
        cases read : Invocation.value argument value? rest with
        | error error => rfl
        | ok found =>
          obtain ⟨text, after⟩ := found
          have joined := (shorter (length_le_of_value read)).after { command? := some text } rfl
            { changes, json, command? }
          cases command? with
          | none => simpa [followedBy?, bind, Except.bind] using joined
          | some earlier => simpa [followedBy?, bind, Except.bind, Except.toOption] using joined
      | json value? =>
        rw [readFrom, readFrom, kind]
        cases value? with
        | some value => rfl
        | none =>
          have joined := (shorter (Nat.le_refl _)).after { json := true } rfl
            { changes, json, command? }
          cases json with
          | false => simpa [followedBy?] using joined
          | true => simpa [followedBy?, Except.toOption] using joined
      | help value? =>
        rw [readFrom, readFrom, kind]
        cases value? <;> rfl
      | version value? =>
        rw [readFrom, readFrom, kind]
        cases value? <;> rfl
      | endOfOptions =>
        rw [readFrom, readFrom, kind]
        simp [followedBy?, Except.toOption]
      | operand =>
        rw [readFrom, readFrom, kind]
        simp [followedBy?, Except.toOption]

theorem Setting.of_add? {before after : Invocation} (added : add? before setting = some after) :
    after.changes = before.changes ++ setting.change?.toList ∧
      after.operands = before.operands := by
  cases setting with
  | change on name =>
    rw [add?] at added
    split at added
    · cases added
      exact ⟨rfl, rfl⟩
    · cases added
  | command text =>
    rw [add?] at added
    split at added
    · cases added
      exact ⟨(List.append_nil _).symm, rfl⟩
    · cases added
  | json =>
    rw [add?] at added
    split at added
    · cases added
    · cases added
      exact ⟨(List.append_nil _).symm, rfl⟩

theorem of_asked {before asked : Invocation}
    (added : settings.foldlM Setting.add? before = some asked) :
    asked.changes = before.changes ++ settings.filterMap Setting.change? ∧
      asked.operands = before.operands := by
  induction settings generalizing before with
  | nil =>
    cases added
    simp
  | cons setting settings ih =>
    rw [List.foldlM_cons] at added
    obtain ⟨first, begun, added⟩ := Option.bind_eq_some_iff.mp added
    obtain ⟨changes, operands⟩ := ih added
    obtain ⟨firstChanges, firstOperands⟩ := Setting.of_add? begun
    rw [changes, firstChanges, operands, firstOperands, List.append_assoc]
    cases change : setting.change? <;> simp [change]

/-- What options ask for comes in front of what the rest of the line asks for by itself. -/
theorem read_pieces (writes : List.Forall₂ Setting.Writes settings pieces)
    (heeded : Heeded pieces rest) :
    (read (pieces.flatten ++ rest)).toOption =
      (settings.foldlM Setting.add? {}).bind fun asked =>
        (read rest).toOption.bind asked.followedBy? := by
  rw [read, readFrom_pieces writes heeded]
  cases added : settings.foldlM Setting.add? {} with
  | none => rfl
  | some asked => exact follows (spell rest) asked (of_asked added).2

theorem eq_ok_iff {result : Except UsageError Invocation} :
    result = .ok invocation ↔ result.toOption = some invocation := by
  cases result <;> simp [Except.toOption]

/-- However the options are written that turn others off, a command line is taken or refused
alike and asks for the same: what its options ask for from left to right, and then what the rest of
it asks for. The options of the shell are changed in that order. -/
theorem option_spellings_agree {others : List (List String)}
    (writes : List.Forall₂ Setting.Writes settings pieces)
    (rewrites : List.Forall₂ Setting.Writes settings others)
    (heeded : Heeded pieces rest) (reheeded : Heeded others rest) :
    (read (pieces.flatten ++ rest)).toOption = (read (others.flatten ++ rest)).toOption ∧
      (read (pieces.flatten ++ rest)).toOption =
        (settings.foldlM Setting.add? {}).bind (fun asked =>
          (read rest).toOption.bind asked.followedBy?) ∧
      ∀ invocation, read (pieces.flatten ++ rest) = .ok invocation →
        ∃ later, read rest = .ok later ∧
          invocation.shell? =
            ((settings.filterMap Setting.change? ++ later.changes).foldlM
              (fun (options : OptionSet) (on, name) =>
                (options.apply name on .topLevel).map Prod.snd) {}).map
                  fun options => { options } := by
  have whole := read_pieces writes heeded
  refine ⟨whole.trans (read_pieces rewrites reheeded).symm, whole, ?_⟩
  intro invocation accepted
  rw [eq_ok_iff, whole] at accepted
  obtain ⟨asked, added, accepted⟩ := Option.bind_eq_some_iff.mp accepted
  obtain ⟨later, taken, joined⟩ := Option.bind_eq_some_iff.mp accepted
  refine ⟨later, eq_ok_iff.mpr taken, ?_⟩
  have changes : invocation.changes = settings.filterMap Setting.change? ++ later.changes := by
    rw [followedBy?] at joined
    split at joined
    · cases joined
    · cases joined
      rw [(of_asked added).1]
      rfl
  rw [shell?, changes]
  rfl

theorem option_spellings_agree_mixed :
    let settings : List Setting :=
      [.change false "oil-parse-at", .command "shopt", .change true "strict_array", .json,
        .change false "strict-array"]
    let pieces := [["--unset-option=oil-parse-at"], ["-c", "shopt"], ["-O", "strict_array"],
      ["--json"], ["+Ostrict-array"]]
    let others := [["+O", "oil-parse-at"], ["-c", "shopt"], ["-O", "strict_array"], ["--json"],
      ["--unset-option", "strict-array"]]
    let rest := ["x", "+O"]
    (List.Forall₂ Setting.Writes settings pieces ∧ List.Forall₂ Setting.Writes settings others ∧
      Heeded pieces rest ∧ Heeded others rest) ∧
      (read (pieces.flatten ++ rest)).toOption = (read (others.flatten ++ rest)).toOption ∧
      (read (pieces.flatten ++ rest)).toOption = some {
        changes := [(false, "oil-parse-at"), (true, "strict_array"), (false, "strict-array")]
        json := true, command? := some "shopt", operands := ["x", "+O"] } := by
  intro settings pieces others rest
  have plain : IsPlain "oil-parse-at" ∧ IsPlain "strict-array" :=
    ⟨⟨'o', _, rfl, by decide, by decide⟩, ⟨'s', _, rfl, by decide, by decide⟩⟩
  have writes : List.Forall₂ Setting.Writes settings pieces :=
    .cons (.longAttached plain.1) (.cons (.command _) (.cons (.on _) (.cons .json
      (.cons (.plusAttached plain.2) .nil))))
  have rewrites : List.Forall₂ Setting.Writes settings others :=
    .cons (.plus plain.1) (.cons (.command _) (.cons (.on _) (.cons .json
      (.cons (.long plain.2) .nil))))
  have heeded : Heeded pieces rest := by
    simp [pieces, heeded_cons_iff, heeded_nil, Untouched]
  have reheeded : Heeded others rest := by
    simp [others, heeded_cons_iff, heeded_nil, Untouched]
    decide
  obtain ⟨agree, -⟩ := option_spellings_agree writes rewrites heeded reheeded
  exact ⟨⟨writes, rewrites, heeded, reheeded⟩, agree, by decide +kernel⟩

/-- Behind an option with a long name and its value apart, what begins without a dash is the first
operand, `+O` too. -/
theorem readFrom_long (plain : IsPlain name) (same : spellOne name = name)
    (bare : argument.toList.head? ≠ some '-') :
    readFrom invocation (spell ("--unset-option" :: name :: argument :: rest)) =
      .ok { invocation with
        changes := invocation.changes ++ [(false, name)], operands := argument :: rest } := by
  rw [spell_cons_of_dash rfl (by decide), spell_cons_of_ends same plain.endsOptions,
    readFrom_change ofText_long, value_apart, if_pos plain.ofText]
  exact readFrom_operand (ofText_of_head bare)

/-- Two options that are turned off: what they ask for hangs on how the first is written. -/
theorem long_option_stops_spelling :
    let settings : List Setting := [.change false "strict-array", .change false "oil-parse-at"]
    let pieces := [["--unset-option", "strict-array"], ["+O", "oil-parse-at"]]
    let others := [["+O", "strict-array"], ["+O", "oil-parse-at"]]
    List.Forall₂ Setting.Writes settings pieces ∧ List.Forall₂ Setting.Writes settings others ∧
      read pieces.flatten = .ok {
        changes := [(false, "strict-array")], operands := ["+O", "oil-parse-at"] } ∧
      read others.flatten = .ok {
        changes := [(false, "strict-array"), (false, "oil-parse-at")] } := by
  intro settings pieces others
  have plain : IsPlain "oil-parse-at" ∧ IsPlain "strict-array" :=
    ⟨⟨'o', _, rfl, by decide, by decide⟩, ⟨'s', _, rfl, by decide, by decide⟩⟩
  refine ⟨.cons (.long plain.2) (.cons (.plus plain.1) .nil),
    .cons (.plus plain.2) (.cons (.plus plain.1) .nil), ?_, ?_⟩
  · exact readFrom_long plain.2 rfl (by decide)
  · rw [eq_ok_iff]
    decide +kernel

end PolicyShell.Invocation
