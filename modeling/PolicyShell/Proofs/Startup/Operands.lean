import PolicyShell.Proofs.Startup.Spelling
import PolicyShell.Proofs.Syntax.Reading

/-! The operands of a command line: the script and its positional parameters. They reach the shell
as they were typed, unless they begin with a dash and `+O` stands behind that. -/
namespace PolicyShell.Invocation

/-- Whether an option has its value in the next argument. -/
def Argument.takesValue : Argument → Bool
  | change _ none | command none => true
  | change _ (some _) | command (some _) | json _ | help _ | version _ | endOfOptions | operand =>
    false

/-- The arguments of a command line that are no options, as they were typed. -/
structure Division where
  /-- Whether `+O` would be spelled out among the operands, too. -/
  spelling : Bool
  operands : List String

/-- An argument as it is read. -/
def shown (spelling : Bool) (argument : String) : String :=
  if spelling then spellOne argument else argument

/-- Arguments as they are read. -/
def pass (spelling : Bool) (arguments : List String) : List String :=
  if spelling then spell arguments else arguments

/-- Divides arguments at the first operand. For the spelling pass the value of an option with a
long name is an operand already, unless it begins with a dash. -/
def divide (spelling : Bool) : List String → Division
  | [] => ⟨spelling, []⟩
  | argument :: rest =>
    if Argument.ofText (shown spelling argument) = .operand then ⟨spelling, argument :: rest⟩
    else if Argument.ofText (shown spelling argument) = .endOfOptions then ⟨false, rest⟩
    else if (Argument.ofText (shown spelling argument)).takesValue then
      match rest with
      | [] => ⟨spelling, []⟩
      | value :: after => divide (spelling && (takesNext argument || !endsOptions value)) after
    else divide spelling rest

namespace Division

/-- Where the operands begin with a dash, nothing is spelled out behind that. -/
def IsLeftAlone (division : Division) : Prop :=
  division.spelling = true → ∀ first rest, division.operands = first :: rest →
    first.toList.head? = some '-' → spell rest = rest

end Division

variable {argument : String} {arguments rest : List String} {invocation final : Invocation}

private theorem value_apart_eq_ok_iff {option text : String} {after : List String} :
    value option none rest = .ok (text, after) ↔
      rest = text :: after ∧ Argument.ofText text = .operand := by
  cases rest with
  | nil => simp [value]
  | cons first rest =>
    rw [value_apart]
    by_cases readable : Argument.ofText first = .operand
    · rw [if_pos readable]
      constructor
      · intro read
        cases read
        exact ⟨rfl, readable⟩
      · rintro ⟨same, -⟩
        cases same
        rfl
    · rw [if_neg readable]
      constructor
      · intro read
        cases read
      · rintro ⟨same, operand⟩
        cases same
        exact absurd operand readable

/-- Behind an option whose value stands apart, reading goes on after that. -/
theorem exists_value_of_ok (takes : (Argument.ofText argument).takesValue = true)
    (accepted : readFrom invocation (argument :: rest) = .ok final) :
    ∃ text after next, rest = text :: after ∧ Argument.ofText text = .operand ∧
      next.operands = invocation.operands ∧ readFrom next after = .ok final := by
  cases kind : Argument.ofText argument with
  | change on value? =>
    cases value? with
    | some text => simp [kind, Argument.takesValue] at takes
    | none =>
      rw [readFrom_change kind] at accepted
      obtain ⟨⟨text, after⟩, read, accepted⟩ := Reading.exists_of_bind_ok accepted
      obtain ⟨whole, readable⟩ := value_apart_eq_ok_iff.mp read
      exact ⟨text, after, { invocation with changes := invocation.changes ++ [(on, text)] },
        whole, readable, rfl, accepted⟩
  | command value? =>
    cases value? with
    | some text => simp [kind, Argument.takesValue] at takes
    | none =>
      rw [readFrom_command kind] at accepted
      obtain ⟨⟨text, after⟩, read, accepted⟩ := Reading.exists_of_bind_ok accepted
      obtain ⟨whole, readable⟩ := value_apart_eq_ok_iff.mp read
      dsimp only at accepted
      split at accepted
      · cases accepted
      · exact ⟨text, after, { invocation with command? := some text }, whole, readable, rfl,
          accepted⟩
  | json | help | version | endOfOptions | operand => simp [kind, Argument.takesValue] at takes

/-- Behind any other option, reading goes on at once. -/
theorem exists_next_of_ok (single : (Argument.ofText argument).takesValue = false)
    (notOperand : Argument.ofText argument ≠ .operand)
    (notEnd : Argument.ofText argument ≠ .endOfOptions)
    (accepted : readFrom invocation (argument :: rest) = .ok final) :
    ∃ next, next.operands = invocation.operands ∧ readFrom next rest = .ok final := by
  cases kind : Argument.ofText argument with
  | change on value? =>
    cases value? with
    | none => simp [kind, Argument.takesValue] at single
    | some text =>
      rw [readFrom_change kind, value_attached] at accepted
      exact ⟨{ invocation with changes := invocation.changes ++ [(on, text)] }, rfl, accepted⟩
  | command value? =>
    cases value? with
    | none => simp [kind, Argument.takesValue] at single
    | some text =>
      rw [readFrom_command kind, value_attached] at accepted
      obtain ⟨found, read, accepted⟩ := Reading.exists_of_bind_ok accepted
      cases read
      dsimp only at accepted
      split at accepted
      · cases accepted
      · exact ⟨{ invocation with command? := some text }, rfl, accepted⟩
  | json value? =>
    rw [readFrom, kind] at accepted
    cases value? with
    | some text => cases accepted
    | none =>
      dsimp only at accepted
      split at accepted
      · cases accepted
      · exact ⟨{ invocation with json := true }, rfl, accepted⟩
  | help value? =>
    rw [readFrom, kind] at accepted
    cases value? <;> cases accepted
  | version value? =>
    rw [readFrom, kind] at accepted
    cases value? <;> cases accepted
  | endOfOptions => exact absurd kind notEnd
  | operand => exact absurd kind notOperand

private theorem long_ne_endOfOptions (text : List Char) : Argument.long text ≠ .endOfOptions := by
  unfold Argument.long
  dsimp only
  generalize text.dropWhile (· != '=') = attached
  cases attached <;> split <;> simp

private theorem short_ne_endOfOptions (letter : Char) (others : List Char) :
    Argument.short letter others ≠ .endOfOptions := by
  unfold Argument.short
  grind

theorem ofText_eq_endOfOptions_iff :
    Argument.ofText argument = .endOfOptions ↔ argument = "--" := by
  constructor
  · intro ends
    unfold Argument.ofText at ends
    split at ends
    · rename_i whole
      exact String.toList_inj.mp whole
    · exact absurd ends (long_ne_endOfOptions _)
    · exact absurd ends (short_ne_endOfOptions _ _)
    · cases ends
  · rintro rfl
    rfl

private theorem endsOptions_of_option (option : Argument.ofText argument ≠ .operand)
    (more : Argument.ofText argument ≠ .endOfOptions) : endsOptions argument = false := by
  have dash : argument.toList.head? = some '-' := by
    by_contra bare
    exact option (ofText_of_head bare)
  have notEnd : argument ≠ "--" := fun same => more (ofText_eq_endOfOptions_iff.mpr same)
  simp [endsOptions, dash, notEnd]

theorem exists_pass_cons (spelling : Bool) (argument : String) (rest : List String) :
    ∃ after, pass spelling (argument :: rest) = shown spelling argument :: after := by
  cases spelling with
  | false => exact ⟨rest, rfl⟩
  | true =>
    cases rest with
    | nil => exact ⟨[], rfl⟩
    | cons next rest =>
      by_cases takes : takesNext argument = true
      · exact ⟨_, spell_cons_of_takesNext takes next rest⟩
      · by_cases ends : spellOne argument = argument ∧ endsOptions argument = true
        · refine ⟨next :: rest, ?_⟩
          rw [shown, if_pos rfl, ends.1]
          exact spell_cons_of_ends ends.1 ends.2 _
        · refine ⟨_, spell_cons_of_goesOn (Bool.eq_false_iff.mpr takes) ?_ _⟩
          intro same
          exact Bool.eq_false_iff.mpr fun stops => ends ⟨same, stops⟩

/-- Only `--` itself is read as `--`, and nothing is spelled out behind it. -/
theorem pass_of_endOfOptions {spelling : Bool}
    (ends : Argument.ofText (shown spelling argument) = .endOfOptions) (rest : List String) :
    pass spelling (argument :: rest) = shown spelling argument :: rest := by
  cases spelling with
  | false => rfl
  | true =>
    have mark : spellOne argument = "--" := ofText_eq_endOfOptions_iff.mp ends
    have same : argument = "--" := by
      by_contra other
      rw [spellOne] at mark
      split at mark
      · revert mark
        decide
      · have heads := congrArg (fun text => text.toList[2]?) mark
        simp at heads
      · exact other mark
    subst same
    exact spell_cons_of_ends rfl rfl rest

/-- The pass goes on behind an option that does not take the next argument. -/
theorem spell_cons_of_option (single : takesNext argument = false)
    (option : Argument.ofText (spellOne argument) ≠ .operand)
    (more : Argument.ofText (spellOne argument) ≠ .endOfOptions) (rest : List String) :
    spell (argument :: rest) = spellOne argument :: spell rest := by
  apply spell_cons_of_goesOn single
  intro same
  rw [same] at option more
  exact endsOptions_of_option option more

theorem takesValue_of_takesNext (takes : takesNext argument = true) :
    (Argument.ofText (spellOne argument)).takesValue = true := by
  simp only [takesNext, Bool.or_eq_true, beq_iff_eq] at takes
  obtain (rfl | rfl) | rfl := takes <;> decide

private theorem pass_of_single {spelling : Bool}
    (single : (Argument.ofText (shown spelling argument)).takesValue = false)
    (option : Argument.ofText (shown spelling argument) ≠ .operand)
    (more : Argument.ofText (shown spelling argument) ≠ .endOfOptions) (rest : List String) :
    pass spelling (argument :: rest) = shown spelling argument :: pass spelling rest := by
  cases spelling with
  | false => rfl
  | true =>
    have alone : takesNext argument = false := by
      apply Bool.eq_false_iff.mpr
      intro takes
      have valued := takesValue_of_takesNext takes
      rw [shown, if_pos rfl, valued] at single
      cases single
    exact spell_cons_of_option alone option more rest

/-- What is spelled out is an option. -/
theorem spellOne_of_operand (operand : Argument.ofText (spellOne argument) = .operand) :
    spellOne argument = argument ∧ takesNext argument = false := by
  constructor
  · rw [spellOne] at operand ⊢
    split at operand
    · cases ofText_long.symm.trans operand
    · cases (ofText_longAttached _).symm.trans operand
    · rfl
  · apply Bool.eq_false_iff.mpr
    intro takes
    have valued := takesValue_of_takesNext takes
    rw [operand] at valued
    cases valued

/-- The value of an option is read as it was typed. -/
theorem pass_of_value {spelling : Bool} {text : String} {typed after : List String}
    (takes : (Argument.ofText (shown spelling argument)).takesValue = true)
    (whole : pass spelling (argument :: typed) = shown spelling argument :: text :: after)
    (readable : Argument.ofText text = .operand) :
    ∃ rest, typed = text :: rest ∧
      after = pass (spelling && (takesNext argument || !endsOptions text)) rest := by
  cases spelling with
  | false =>
    obtain rfl : typed = text :: after := by simpa [pass, shown] using whole
    exact ⟨after, rfl, rfl⟩
  | true =>
    have option : Argument.ofText (spellOne argument) ≠ .operand := by
      intro operand
      simp [shown, operand, Argument.takesValue] at takes
    have more : Argument.ofText (spellOne argument) ≠ .endOfOptions := by
      intro ends
      simp [shown, ends, Argument.takesValue] at takes
    change spell (argument :: typed) = spellOne argument :: text :: after at whole
    cases typed with
    | nil => cases whole
    | cons value rest =>
      cases next : takesNext argument with
      | true =>
        rw [spell_cons_of_takesNext next] at whole
        obtain ⟨rfl, rfl⟩ : value = text ∧ spell rest = after := by simpa using whole
        exact ⟨rest, rfl, rfl⟩
      | false =>
        rw [spell_cons_of_option next option more] at whole
        have spelled : spell (value :: rest) = text :: after := by simpa using whole
        obtain ⟨behind, front⟩ := exists_pass_cons true value rest
        change spell (value :: rest) = spellOne value :: behind at front
        obtain ⟨rfl, rfl⟩ : spellOne value = text ∧ behind = after := by
          simpa [front] using spelled
        obtain ⟨same, alone⟩ := spellOne_of_operand readable
        rw [same] at front ⊢
        refine ⟨rest, rfl, ?_⟩
        cases ends : endsOptions value with
        | true =>
          rw [spell_cons_of_ends same ends] at front
          exact (List.cons.inj front).2.symm
        | false =>
          rw [spell_cons_of_goesOn alone (fun _ => ends), same] at front
          exact (List.cons.inj front).2.symm

private theorem pass_nil (spelling : Bool) : pass spelling [] = [] := by
  cases spelling <;> rfl

/-- The operands are those of the arguments as they were typed, once they are through the pass. -/
theorem operands_of_ok (spelling : Bool) (arguments : List String)
    (fresh : invocation.operands = [])
    (accepted : readFrom invocation (pass spelling arguments) = .ok final) :
    final.operands =
      pass (divide spelling arguments).spelling (divide spelling arguments).operands := by
  fun_induction divide spelling arguments generalizing invocation with
  | case1 spelling =>
    rw [pass_nil, readFrom_nil] at accepted
    cases accepted
    rw [fresh, pass_nil]
  | case2 spelling argument rest operand =>
    obtain ⟨after, front⟩ := exists_pass_cons spelling argument rest
    rw [front, readFrom_operand operand] at accepted
    cases accepted
    exact front.symm
  | case3 spelling argument rest _ ends =>
    rw [pass_of_endOfOptions ends, readFrom, ends] at accepted
    cases accepted
    rfl
  | case4 spelling argument operand ends takes =>
    obtain ⟨after, front⟩ := exists_pass_cons spelling argument []
    rw [front] at accepted
    obtain ⟨text, behind, next, rfl, readable, -⟩ := exists_value_of_ok takes accepted
    obtain ⟨rest, typed, -⟩ := pass_of_value takes front readable
    cases typed
  | case5 spelling argument operand ends takes value rest ih =>
    obtain ⟨after, front⟩ := exists_pass_cons spelling argument (value :: rest)
    rw [front] at accepted
    obtain ⟨text, behind, next, rfl, readable, kept, accepted⟩ := exists_value_of_ok takes accepted
    obtain ⟨rest, typed, rfl⟩ := pass_of_value takes front readable
    cases typed
    exact ih (kept.trans fresh) accepted
  | case6 spelling argument rest operand ends single ih =>
    have alone := Bool.eq_false_iff.mpr single
    rw [pass_of_single alone operand ends] at accepted
    obtain ⟨next, kept, accepted⟩ := exists_next_of_ok alone operand ends accepted
    exact ih (kept.trans fresh) accepted

/-- The first operand is none of the options. -/
theorem ofText_of_divide (spelling : Bool) (arguments : List String) {first : String}
    (whole : (divide spelling arguments).operands = first :: rest)
    (on : (divide spelling arguments).spelling = true) :
    Argument.ofText (spellOne first) = .operand := by
  fun_induction divide spelling arguments with
  | case1 => cases whole
  | case2 spelling argument rest operand =>
    cases whole
    cases on
    exact operand
  | case3 => cases on
  | case4 => cases whole
  | case5 _ _ _ _ _ _ _ ih => exact ih whole on
  | case6 _ _ _ _ _ _ ih => exact ih whole on

private theorem suffix_of_divide (spelling : Bool) (arguments : List String) :
    (divide spelling arguments).operands <:+ arguments := by
  fun_induction divide spelling arguments with
  | case1 => exact List.suffix_refl _
  | case2 => exact List.suffix_refl _
  | case3 => exact List.suffix_cons _ _
  | case4 => exact List.nil_suffix
  | case5 _ _ _ _ _ _ _ ih => exact (ih.trans (List.suffix_cons _ _)).trans (List.suffix_cons _ _)
  | case6 _ _ _ _ _ _ ih => exact ih.trans (List.suffix_cons _ _)

/-- The pass stops at a first operand that has no dash, and goes on behind one that has. -/
theorem spell_operands {first : String} (operand : Argument.ofText (spellOne first) = .operand)
    (rest : List String) :
    spell (first :: rest) =
      first :: if first.toList.head? = some '-' then spell rest else rest := by
  obtain ⟨same, alone⟩ := spellOne_of_operand operand
  rw [same] at operand
  by_cases dash : first.toList.head? = some '-'
  · have goesOn : endsOptions first = false := by
      have notEnd : first ≠ "--" := by
        rintro rfl
        cases operand
      simp [endsOptions, dash, notEnd]
    rw [if_pos dash, spell_cons_of_goesOn alone (fun _ => goesOn), same]
  · have ends : endsOptions first = true := by simp [endsOptions, dash]
    rw [if_neg dash, spell_cons_of_ends same ends]

private theorem pass_divide_iff (arguments : List String) :
    pass (divide true arguments).spelling (divide true arguments).operands =
        (divide true arguments).operands ↔
      (divide true arguments).IsLeftAlone := by
  unfold Division.IsLeftAlone
  cases on : (divide true arguments).spelling with
  | false => simp [pass]
  | true =>
    cases whole : (divide true arguments).operands with
    | nil => simp [pass, spell]
    | cons first rest =>
      have spelled := spell_operands (ofText_of_divide true arguments whole on) rest
      constructor
      · rintro same - first' rest' ⟨⟩ dash
        rw [pass, if_pos rfl, spelled, if_pos dash] at same
        exact (List.cons.inj same).2
      · intro leftAlone
        rw [pass, if_pos rfl, spelled]
        by_cases dash : first.toList.head? = some '-'
        · rw [if_pos dash, leftAlone rfl first rest rfl dash]
        · rw [if_neg dash]

/-- The operands of a command line that is taken are what is left of it as it was typed, and the
script and its positional parameters are these operands, just where nothing is spelled out behind a
first operand with a dash. -/
theorem operands_reach_as_typed (accepted : read arguments = .ok invocation) :
    (divide true arguments).operands <:+ arguments ∧
      (invocation.operands = (divide true arguments).operands ↔
        (divide true arguments).IsLeftAlone) ∧
      ((divide true arguments).IsLeftAlone →
        ∀ {m : Type → Type} [Monad m] (files : Files m) (input : m String) (shell : Shell),
          (∀ text, invocation.command? = some text →
            invocation.source files input shell =
              pure (.ok (text, { shell with arguments := (divide true arguments).operands }))) ∧
          ∀ path rest, invocation.command? = none →
            (divide true arguments).operands = path :: rest →
            invocation.source files input shell = do
              match ← if path.isEmpty then pure (.error .missing) else files.read path with
              | .ok text => return .ok (text, { shell with scriptName := path, arguments := rest })
              | .error error =>
                return .error ("cannot read script `" ++ path ++ "`: " ++ error.reason)) := by
  have operands := operands_of_ok true arguments rfl accepted
  have asTyped := operands ▸ pass_divide_iff arguments
  refine ⟨suffix_of_divide true arguments, asTyped, ?_⟩
  intro alone m _ files input shell
  have same := asTyped.mpr alone
  constructor
  · intro text command
    rw [source, command, same]
  · intro path rest command typed
    obtain ⟨changes, json, command?, split⟩ := invocation
    obtain rfl : command? = none := command
    obtain rfl : split = path :: rest := same.trans typed
    rfl

/-- A lone dash is the script. -/
theorem operands_reach_as_typed_dash :
    let arguments := ["+Ostrict-array", "--unset-option", "oil-parse-at", "-", "+O", "x"]
    let invocation : Invocation := {
      changes := [(false, "strict-array"), (false, "oil-parse-at")], operands := ["-", "+O", "x"] }
    read arguments = .ok invocation ∧ (divide true arguments).IsLeftAlone ∧
      invocation.operands = (divide true arguments).operands := by
  intro arguments invocation
  have accepted : read arguments = .ok invocation := by
    rw [eq_ok_iff]
    decide +kernel
  have leftAlone : (divide true arguments).IsLeftAlone := by
    have off : (divide true arguments).spelling = false := by decide +kernel
    intro on
    rw [off] at on
    cases on
  exact ⟨accepted, leftAlone, (operands_reach_as_typed accepted).2.1.mpr leftAlone⟩

/-- A lone dash is the first operand, but it does not end the spelling pass. -/
theorem dash_operand_spells_on :
    let arguments := ["-c", "argv $*", "-", "+O", "x"]
    (divide true arguments).operands = ["-", "+O", "x"] ∧
      read arguments = .ok {
        command? := some "argv $*", operands := ["-", "--unset-option", "x"] } := by
  intro arguments
  rw [eq_ok_iff]
  exact ⟨by decide +kernel, by decide +kernel⟩

end PolicyShell.Invocation
