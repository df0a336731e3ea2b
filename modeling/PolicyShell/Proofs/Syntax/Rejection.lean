import PolicyShell.Proofs.Syntax.Progress

/-! What may go wrong in reading commands from tokens. -/
namespace PolicyShell.Grammar

/-- The ways in which a reader that has come so far can refuse tokens. -/
inductive Refused (ending : Ending) (progress : Progress) (tokens : List PlacedToken) :
    Rejection → Prop where
  /-- A token stands where it may not, and stays unread. -/
  | outOfPlace {before after : List PlacedToken} {next : PlacedToken} {reached : Progress}
      (whole : tokens = before ++ next :: after) (reaches : progress.after? before = some reached)
      (stuck : reached.step? next = none) :
      Refused ending progress tokens
        ⟨.unexpected (.token next.token.describe) next.start.length, next.start⟩
  /-- An array is assigned among the words of a command. It has been read. -/
  | arrayArgument {name : String} {elements : List Word} {start : List Char}
      {before after : List PlacedToken} {reached : Progress}
      (whole : tokens = before ++ ⟨.assignment ⟨name, .array elements⟩, start⟩ :: after)
      (reaches : progress.after? before = some reached)
      (stuck : reached.step? ⟨.assignment ⟨name, .array elements⟩, start⟩ = none) :
      Refused ending progress tokens
        ⟨.unexpected .arrayArgument start.length, resumption ending after⟩
  | broken {error : ParseError} {start rest : List Char} {reached : Progress}
      (ends : ending = .broken error start rest)
      (reaches : progress.after? tokens = some reached) :
      Refused ending progress tokens ⟨error, rest⟩
  | endOfInput {start : List Char} {reached : Progress} (ends : ending = .finished start)
      (reaches : progress.after? tokens = some reached)
      (incomplete : reached.stage.isComplete = false) :
      Refused ending progress tokens ⟨.unexpected .endOfInput 0, []⟩
  | unclosed {opening start : List Char} {stage : Stage} {outer : List (List Char)}
      (ends : ending = .finished start)
      (reaches : progress.after? tokens = some ⟨stage, opening :: outer⟩) :
      Refused ending progress tokens ⟨.unterminated .braceGroup opening.length, []⟩

theorem suffix_of_cons {token : PlacedToken} {rest whole : List PlacedToken}
    (suffix : token :: rest <:+ whole) : rest <:+ whole :=
  (List.suffix_cons ..).trans suffix

section
variable {ending : Ending} {progress reached : Progress} {before tokens rest : List PlacedToken}

/-- A reader of these tokens cannot go on. -/
def Progress.Stuck (progress : Progress) : List PlacedToken → Prop
  | [] => progress.stage.isComplete = false
  | next :: _ => progress.step? next = none

theorem Refused.unexpected (stuck : progress.Stuck tokens) :
    Refused ending progress tokens (Grammar.unexpected ending tokens) := by
  cases tokens with
  | cons next rest => exact .outOfPlace (List.nil_append _).symm rfl stuck
  | nil =>
    cases ending with
    | finished start => exact .endOfInput rfl rfl stuck
    | broken error start rest => exact .broken rfl rfl

private theorem Refused.of_unclosed {opening : List Char} {outer : List (List Char)}
    (reaches : progress.after? tokens = some reached) (kept : reached.groups = opening :: outer) :
    Refused ending progress tokens (Grammar.unclosed ending opening) := by
  rcases reached with ⟨stage, _⟩
  cases kept
  cases ending with
  | finished start => exact .unclosed rfl reaches
  | broken error start rest => exact .broken rfl reaches

theorem Progress.after?_of_append {last : Option Progress} (whole : tokens = before ++ rest)
    (reaches : progress.after? before = some reached) (later : reached.after? rest = last) :
    progress.after? tokens = last := by
  rw [whole, Progress.after?_append, reaches]
  exact later

theorem Progress.after?_of_stuck {next : PlacedToken} (whole : tokens = before ++ next :: rest)
    (reaches : progress.after? before = some reached) (stuck : reached.step? next = none) :
    progress.after? tokens = none := by
  refine Progress.after?_of_append whole reaches ?_
  rw [Progress.after?_cons, stuck]
  rfl

/-- What is refused later is refused. -/
theorem Refused.later {rejection : Rejection} (whole : tokens = before ++ rest)
    (reaches : progress.after? before = some reached)
    (refused : Refused ending reached rest rejection) :
    Refused ending progress tokens rejection := by
  have go {last : Option Progress} {between : List PlacedToken}
      (reaches' : reached.after? between = last) :
      progress.after? (before ++ between) = last := Progress.after?_of_append rfl reaches reaches'
  cases refused with
  | outOfPlace whole' reaches' stuck =>
    exact .outOfPlace (by rw [whole, whole', List.append_assoc]) (go reaches') stuck
  | arrayArgument whole' reaches' stuck =>
    exact .arrayArgument (by rw [whole, whole', List.append_assoc]) (go reaches') stuck
  | broken ends reaches' => exact .broken ends (whole ▸ go reaches')
  | endOfInput ends reaches' incomplete => exact .endOfInput ends (whole ▸ go reaches') incomplete
  | unclosed ends reaches' => exact .unclosed ends (whole ▸ go reaches')

end

/-- A failure is one of these, and a success has made progress over the tokens that it used. -/
structure Tracks {α : Type} (ending : Ending) (progress : Progress) (tokens : List PlacedToken)
    (result : Except Rejection (α × List PlacedToken))
    (goal : α → Progress → List PlacedToken → Prop) : Prop where
  refused : ∀ rejection, result = .error rejection → Refused ending progress tokens rejection
  reaches : ∀ value rest, result = .ok (value, rest) →
    ∃ before reached, tokens = before ++ rest ∧ progress.after? before = some reached ∧
      goal value reached rest

namespace Tracks

variable {ending : Ending} {α β : Type} {progress reached : Progress}
  {before tokens rest : List PlacedToken} {result : Except Rejection (α × List PlacedToken)}
  {goal : α → Progress → List PlacedToken → Prop} {goal' : β → Progress → List PlacedToken → Prop}

theorem ok (value : α) (holds : goal value progress tokens) :
    Tracks ending progress tokens (.ok (value, tokens)) goal where
  refused := nofun
  reaches := by
    rintro _ _ ⟨⟩
    exact ⟨[], progress, rfl, rfl, holds⟩

theorem error {rejection : Rejection} (refused : Refused ending progress tokens rejection) :
    Tracks ending progress tokens (.error rejection) goal where
  refused := by
    rintro _ ⟨⟩
    exact refused
  reaches := nofun

/-- What is read later, after some tokens. -/
theorem later (whole : tokens = before ++ rest) (reaches : progress.after? before = some reached)
    (tracks : Tracks ending reached rest result goal) :
    Tracks ending progress tokens result goal where
  refused rejection read := (tracks.refused rejection read).later whole reaches
  reaches value after read := by
    obtain ⟨between, last, whole', reaches', holds⟩ := tracks.reaches value after read
    exact ⟨before ++ between, last, by rw [whole, whole', List.append_assoc],
      Progress.after?_of_append rfl reaches reaches', holds⟩

theorem step {next : PlacedToken} (steps : progress.step? next = some reached)
    (tracks : Tracks ending reached rest result goal) :
    Tracks ending progress (next :: rest) result goal := by
  refine tracks.later List.singleton_append.symm ?_
  rw [Progress.after?_cons, steps]
  rfl

theorem bind {next : α × List PlacedToken → Except Rejection (β × List PlacedToken)}
    (tracks : Tracks ending progress tokens result goal)
    (further : ∀ value reached rest, result = .ok (value, rest) → goal value reached rest →
      Tracks ending reached rest (next (value, rest)) goal') :
    Tracks ending progress tokens (result.bind next) goal' := by
  cases result with
  | error rejection => exact .error (tracks.refused rejection rfl)
  | ok read =>
    obtain ⟨before, reached, whole, reaches, holds⟩ := tracks.reaches read.1 read.2 rfl
    exact .later whole reaches (further read.1 reached read.2 rfl holds)

private theorem weaken {goal' : α → Progress → List PlacedToken → Prop}
    (tracks : Tracks ending progress tokens result goal)
    (holds : ∀ value reached rest, goal value reached rest → goal' value reached rest) :
    Tracks ending progress tokens result goal' where
  refused := tracks.refused
  reaches value rest read := by
    obtain ⟨before, reached, whole, reaches, found⟩ := tracks.reaches value rest read
    exact ⟨before, reached, whole, reaches, holds _ _ _ found⟩

/-- A change of what was read that leaves the same tokens. -/
theorem map {goal : Progress → List PlacedToken → Prop}
    {change : α × List PlacedToken → β × List PlacedToken}
    (tracks : Tracks ending progress tokens result fun _ => goal)
    (keeps : ∀ read, (change read).2 = read.2) :
    Tracks ending progress tokens (result.map change) fun _ => goal := by
  cases result with
  | error rejection => exact .error (tracks.refused rejection rfl)
  | ok read =>
    obtain ⟨before, reached, whole, reaches, holds⟩ := tracks.reaches read.1 read.2 rfl
    refine .later whole reaches ?_
    rw [← keeps read] at holds ⊢
    exact .ok (change read).1 holds

end Tracks

/-- The tokens in front of which a command has ended. -/
structure Ended (groups : List (List Char)) (reached : Progress) (rest : List PlacedToken) :
    Prop where
  kept : reached.groups = groups
  complete : reached.stage.isComplete = true
  leaves : ∀ next ∈ rest.head?, reached.step? next = Progress.leave? groups next.token

/-- The tokens in front of which a chain of commands has ended. -/
structure EndedChain (groups : List (List Char)) (reached : Progress) (rest : List PlacedToken) :
    Prop extends Ended groups reached rest where
  unconnected : ∀ next ∈ rest.head?, connective? next.token = none

section
variable {ending : Ending} {groups : List (List Char)} {progress : Progress}
  {tokens : List PlacedToken}

/-- Behind a chain there must be a separator, or the end of a group. -/
theorem EndedChain.stuck {next : PlacedToken} (ended : EndedChain groups progress (next :: tokens))
    (noSeparator : next.token.isSeparator = false)
    (outside : next.token = .rightBrace → groups = []) : progress.Stuck (next :: tokens) := by
  rw [Progress.Stuck, ended.leaves next rfl]
  have unconnected := ended.unconnected next rfl
  rcases next with ⟨token, start⟩
  cases token with
  | semicolon | newline => cases noSeparator
  | and | or => cases unconnected
  | rightBrace =>
    rw [outside rfl]
    rfl
  | _ => rfl

theorem tracks_atEnd {α : Type} (value : α) {goal : α → Progress → List PlacedToken → Prop}
    (holds : goal value progress []) :
    Tracks ending progress [] (atEnd ending value) goal := by
  cases ending with
  | finished start => exact .ok value holds
  | broken error start rest => exact .error (.broken rfl rfl)

/-- Where nothing but one token may stand, it is expected. -/
theorem tracks_expect {token : Token} (incomplete : progress.stage.isComplete = false)
    (here : ∀ start, (progress.step? ⟨token, start⟩).isSome)
    (others : ∀ next ∈ tokens.head?, next.token ≠ token → progress.step? next = none) :
    Tracks ending progress tokens (expect ending token tokens) fun start reached _ =>
      progress.step? ⟨token, start⟩ = some reached := by
  cases tokens with
  | nil => exact .error (.unexpected incomplete)
  | cons next rest =>
    rw [expect]
    split
    · rename_i same
      obtain ⟨reached, steps⟩ := Option.isSome_iff_exists.mp (here next.start)
      have found : progress.step? next = some reached := by rw [← steps, ← same]
      exact .step found (.ok _ steps)
    · rename_i differs
      exact .error (.unexpected (others next rfl differs))

theorem tracks_arguments (complete : progress.stage.isComplete = true)
    (argues : ∀ next ∈ tokens.head?,
      progress.step? next = Progress.argument? progress.groups next.token) :
    Tracks ending progress tokens (arguments ending tokens).outcome fun _ =>
      Ended progress.groups := by
  induction tokens generalizing progress with
  | nil =>
    rw [outcome_arguments_nil]
    exact tracks_atEnd _ ⟨rfl, complete, nofun⟩
  | cons next rest ih =>
    have steps := argues next rfl
    rw [Progress.argument?] at steps
    rw [outcome_arguments_cons]
    split
    · rename_i word isWord
      rw [isWord] at steps
      exact .step steps ((ih rfl fun _ _ => rfl).map fun _ => rfl)
    · rename_i assigned noWord isArray
      rcases next with ⟨token, start⟩
      cases isArray
      rcases assigned with ⟨name, word | elements⟩
      · cases noWord
      · exact .error (.arrayArgument (List.nil_append _).symm rfl steps)
    · rename_i noWord _
      rw [noWord] at steps
      refine .ok _ ⟨rfl, complete, ?_⟩
      rintro _ ⟨⟩
      exact steps

private theorem tracks_words (groups : List (List Char))
    (other : ∀ next ∈ tokens.head?, ∀ assigned, next.token ≠ .assignment assigned) :
    Tracks ending ⟨.assignments, groups⟩ tokens (words ending tokens).outcome fun _ =>
      Ended groups := by
  cases tokens with
  | nil =>
    rw [outcome_words_nil]
    exact tracks_atEnd _ ⟨rfl, rfl, nofun⟩
  | cons next rest =>
    rcases next with ⟨token, start⟩
    rw [outcome_words_cons]
    split
    · rename_i word isWord
      cases isWord
      have steps : Progress.step? ⟨.assignments, groups⟩ ⟨.word word, start⟩ =
        some ⟨.arguments, groups⟩ := rfl
      exact .step steps ((tracks_arguments rfl fun _ _ => rfl).map fun _ => rfl)
    · rename_i noWord
      refine .ok _ ⟨rfl, rfl, ?_⟩
      rintro _ ⟨⟩
      cases token with
      | word word => exact absurd rfl (noWord word)
      | assignment assigned => exact absurd rfl (other _ rfl assigned)
      | _ => rfl

private theorem after?_leadingAssignments (groups : List (List Char)) (tokens : List PlacedToken) :
    ∃ before, tokens = before ++ (leadingAssignments tokens).2 ∧
      Progress.after? ⟨.assignments, groups⟩ before = some ⟨.assignments, groups⟩ ∧
      ∀ next ∈ (leadingAssignments tokens).2.head?, ∀ assigned,
        next.token ≠ .assignment assigned := by
  fun_induction leadingAssignments tokens with
  | case1 assigned start rest assignments after same ih =>
    rw [same] at ih
    obtain ⟨before, whole, reaches, other⟩ := ih
    refine ⟨⟨.assignment assigned, start⟩ :: before, congrArg _ whole, ?_, other⟩
    rw [Progress.after?_cons]
    exact reaches
  | case2 tokens differs =>
    refine ⟨[], rfl, rfl, ?_⟩
    intro next member assigned same
    obtain ⟨rest, rfl⟩ := List.head?_eq_some_iff.mp member
    exact differs assigned next.start rest (by rw [← same])

theorem after?_skipNewlines (progress : Progress)
    (skipped : ∀ start, progress.step? ⟨.newline, start⟩ = some progress)
    (tokens : List PlacedToken) :
    ∃ before, tokens = before ++ skipNewlines tokens ∧ progress.after? before = some progress ∧
      ∀ next ∈ (skipNewlines tokens).head?, next.token ≠ .newline := by
  induction tokens with
  | nil => exact ⟨[], rfl, rfl, nofun⟩
  | cons next rest ih =>
    rw [skipNewlines, List.dropWhile_cons]
    split
    · rename_i newline
      obtain ⟨before, whole, reaches, other⟩ := ih
      refine ⟨next :: before, congrArg _ whole, ?_, other⟩
      have same : next = ⟨.newline, next.start⟩ := by rw [← eq_of_beq newline]
      rw [Progress.after?_cons, same, skipped next.start]
      exact reaches
    · rename_i other
      refine ⟨[], rfl, rfl, ?_⟩
      rintro _ ⟨⟩ newline
      exact other (by rw [newline]; rfl)

/-- The tokens in front of which another command may begin. -/
structure Between (groups : List (List Char)) (progress : Progress) (tokens : List PlacedToken) :
    Prop where
  kept : progress.groups = groups
  complete : progress.stage.isComplete = true
  continues : ∀ next ∈ tokens.head?, progress.step? next = Progress.step? ⟨.start, groups⟩ next

theorem between_start (groups : List (List Char)) (tokens : List PlacedToken) :
    Between groups ⟨.start, groups⟩ tokens :=
  ⟨rfl, rfl, fun _ _ => rfl⟩

theorem after?_skipSeparators (inside : Between groups progress tokens) :
    ∃ before reached, tokens = before ++ skipSeparators tokens ∧
      progress.after? before = some reached ∧ Between groups reached (skipSeparators tokens) := by
  induction tokens generalizing progress with
  | nil => exact ⟨[], progress, rfl, rfl, inside⟩
  | cons next rest ih =>
    rw [skipSeparators, List.dropWhile_cons]
    split
    · rename_i separates
      have steps : progress.step? next = some ⟨.start, groups⟩ := by
        rw [inside.continues next rfl]
        rcases next with ⟨token, start⟩
        cases token <;> first | rfl | cases separates
      obtain ⟨before, reached, whole, reaches, inside'⟩ := ih (between_start groups rest)
      refine ⟨next :: before, reached, congrArg _ whole, ?_, inside'⟩
      rw [Progress.after?_cons, steps]
      exact reaches
    · exact ⟨[], progress, rfl, rfl, inside⟩

private theorem tracks_bodyOf {word : Word} {name : String} {inner : List Char}
    (named : definedName? word = some name) :
    Tracks ending ⟨.name word, groups⟩ (⟨.leftParen, inner⟩ :: tokens)
      (bodyOf ending (⟨.leftParen, inner⟩ :: tokens)).outcome fun start reached _ =>
        reached = ⟨.start, start :: groups⟩ := by
  have paren : expect ending .leftParen (⟨.leftParen, inner⟩ :: tokens) = .ok (inner, tokens) := by
    rw [expect, if_pos rfl]
  rw [outcome_bodyOf, paren]
  dsimp only [Except.bind]
  refine .step (Progress.step?_leftParen named inner)
    (.bind (tracks_expect rfl (fun _ => rfl) ?_) ?_)
  · rintro ⟨token, start⟩ - differs
    cases token <;> first | rfl | exact absurd rfl differs
  rintro start reached rest - ⟨⟩
  obtain ⟨before, whole, reaches, other⟩ :=
    after?_skipNewlines ⟨.body, groups⟩ (fun _ => rfl) rest
  refine .later whole reaches ((tracks_expect rfl (fun _ => rfl) ?_).weaken ?_)
  · rintro ⟨token, start⟩ here differs
    cases token <;> first | rfl | exact absurd rfl differs | exact absurd rfl (other _ here)
  · rintro start reached rest ⟨⟩
    rfl

/-- A command is looked for in front of these tokens. -/
structure Awaits (progress : Progress) (tokens : List PlacedToken) : Prop where
  begins : ∀ next ∈ tokens.head?, progress.step? next = Progress.begin? progress.groups next
  present : tokens = [] → progress.stage.isComplete = false

theorem Awaits.step? {next : PlacedToken} (awaits : Awaits progress (next :: tokens)) :
    progress.step? next = Progress.begin? progress.groups next :=
  awaits.begins next rfl

/-- Nothing but a command can be begun. -/
theorem Awaits.stuck (awaits : Awaits progress tokens) (other : NoCommand tokens) :
    progress.Stuck tokens := by
  cases tokens with
  | nil => exact awaits.present rfl
  | cons next rest =>
    obtain ⟨noBrace, noWord, noAssignment⟩ := other next rfl
    rw [Progress.Stuck, awaits.step?]
    rcases next with ⟨token, start⟩
    cases token with
    | leftBrace => exact absurd rfl noBrace
    | word word => exact absurd rfl (noWord word)
    | assignment assigned => exact absurd rfl (noAssignment assigned)
    | _ => rfl

theorem not_separator_of_skipSeparators {next : PlacedToken} {rest : List PlacedToken}
    (found : skipSeparators tokens = next :: rest) : next.token.isSeparator = false := by
  have stops := List.head?_dropWhile_not (fun token : PlacedToken => token.token.isSeparator) tokens
  rw [← skipSeparators, found] at stops
  exact stops

/-- Between commands something other than a separator or the end of a group begins a command. -/
theorem Between.awaits {next : PlacedToken} (inside : Between groups progress (next :: tokens))
    (noSeparator : next.token.isSeparator = false)
    (outside : next.token = .rightBrace → groups = []) :
    Awaits progress (next :: tokens) := by
  refine ⟨?_, nofun⟩
  rintro _ ⟨⟩
  rw [inside.continues next rfl, inside.kept]
  rcases next with ⟨token, start⟩
  cases token with
  | rightBrace =>
    rw [outside rfl]
    rfl
  | semicolon | newline => cases noSeparator
  | _ => rfl

private theorem ended_group (groups : List (List Char)) (tokens : List PlacedToken) :
    Ended groups ⟨.group, groups⟩ tokens :=
  ⟨rfl, rfl, fun _ _ => rfl⟩

mutual

theorem tracks_command {progress : Progress} {tokens : List PlacedToken}
    (awaits : Awaits progress tokens) :
    Tracks ending progress tokens (command ending tokens).outcome fun _ =>
      Ended progress.groups := by
  rcases commandStart tokens with ⟨start, rest⟩ | ⟨word, start, inner, rest⟩ |
    ⟨word, start, plain⟩ | ⟨assigned, start, rest⟩ | other
  · rw [outcome_command_leftBrace]
    exact .step awaits.step? ((tracks_group (between_start ..)).map fun _ => rfl)
  · rw [outcome_command_leftParen]
    refine .step awaits.step? ?_
    split
    · rename_i unnamed
      refine .error (.unexpected ?_)
      show (definedName? word).map _ = none
      rw [unnamed]
      rfl
    · rename_i name named
      refine (tracks_bodyOf named).bind fun opening reached body read same => ?_
      have := (Reading.proper_of_outcome read).shorter
      subst same
      exact ((tracks_group (between_start ..)).map fun _ => rfl)
  · rename_i rest
    rw [outcome_command_word word start plain]
    refine .step awaits.step? ((tracks_arguments rfl ?_).map fun _ => rfl)
    rintro ⟨token, place⟩ member
    cases token <;> first | rfl | exact absurd rfl (plain _ member)
  · rw [outcome_command_assignment]
    obtain ⟨before, whole, reaches, other⟩ := after?_leadingAssignments progress.groups rest
    exact .step awaits.step? (.later whole reaches ((tracks_words _ other).map fun _ => rfl))
  · rw [outcome_command_other other]
    exact .error (.unexpected (awaits.stuck other))
termination_by 4 * tokens.length + 0
decreasing_by all_goals subst_vars; simp only [List.length_cons] at *; omega

theorem tracks_chain {left : Command} {groups : List (List Char)} {progress : Progress}
    {tokens : List PlacedToken} (ended : Ended groups progress tokens) :
    Tracks ending progress tokens (chain ending left tokens).outcome fun _ =>
      EndedChain groups := by
  cases tokens with
  | nil =>
    rw [outcome_chain_nil]
    exact tracks_atEnd _ ⟨ended, nofun⟩
  | cons next rest =>
    rw [outcome_chain_cons]
    split
    · rename_i unconnected
      refine .ok _ ⟨ended, ?_⟩
      rintro _ ⟨⟩
      exact unconnected
    · rename_i connective connects
      have steps : progress.step? next = some ⟨.operand, groups⟩ := by
        rw [ended.leaves next rfl]
        rcases next with ⟨token, start⟩
        cases token <;> first | rfl | cases connects
      obtain ⟨before, whole, reaches, other⟩ :=
        after?_skipNewlines ⟨.operand, groups⟩ (fun _ => rfl) rest
      have := (skipNewlines_suffix rest).length_le
      have awaits : Awaits ⟨.operand, groups⟩ (skipNewlines rest) := by
        refine ⟨?_, fun _ => rfl⟩
        rintro ⟨token, start⟩ here
        cases token <;> first | rfl | exact absurd rfl (other _ here)
      refine .step steps (.later whole reaches ?_)
      refine (tracks_command awaits).bind fun right reached after same ended' => ?_
      have := (Reading.proper_of_outcome same).shorter
      exact tracks_chain ended'
termination_by 4 * tokens.length + 1
decreasing_by all_goals subst_vars; simp only [List.length_cons] at *; omega

theorem tracks_andOr {progress : Progress} {tokens : List PlacedToken}
    (awaits : Awaits progress tokens) :
    Tracks ending progress tokens (andOr ending tokens).outcome fun _ =>
      EndedChain progress.groups := by
  rw [outcome_andOr]
  refine (tracks_command awaits).bind fun first reached rest same ended => ?_
  have := (Reading.proper_of_outcome same).shorter
  exact tracks_chain ended
termination_by 4 * tokens.length + 2
decreasing_by all_goals omega

theorem tracks_group {opening : List Char} {outer : List (List Char)} {progress : Progress}
    {tokens : List PlacedToken} (inside : Between (opening :: outer) progress tokens) :
    Tracks ending progress tokens (group ending opening tokens).outcome fun _ =>
      Ended outer := by
  obtain ⟨before, reached, whole, reaches, inside'⟩ := after?_skipSeparators inside
  rcases groupStart tokens with found | @⟨start, rest, found⟩ | @⟨next, others, found, differs⟩
  · rw [outcome_group_nil found]
    rw [found, List.append_nil] at whole
    rw [whole]
    exact .error (.of_unclosed reaches inside'.kept)
  · rw [outcome_group_rightBrace found]
    rw [found] at whole inside'
    refine .later whole reaches (.step ?_ (.ok _ (ended_group outer rest)))
    exact inside'.continues _ rfl
  · rw [outcome_group_cons found differs]
    have separate := not_separator_of_skipSeparators found
    have : (next :: others).length ≤ tokens.length :=
      found ▸ (skipSeparators_suffix tokens).length_le
    rw [found] at whole inside'
    have awaits := inside'.awaits separate fun brace => absurd brace differs
    refine .later whole reaches ((tracks_andOr awaits).bind ?_)
    rintro first last (_ | ⟨after, rest⟩) same ended
    · exact .error (.of_unclosed rfl (ended.kept.trans inside'.kept))
    · have := (Reading.proper_of_outcome same).shorter
      rw [afterMember]
      split
      · rename_i ends
        -- the reader stands behind a command, but goes on as it does behind the brace
        refine (tracks_group ⟨ended.kept.trans inside'.kept, ended.complete, ?_⟩).map fun _ => rfl
        rintro _ ⟨⟩
        rw [ended.leaves after rfl, inside'.kept]
        rcases after with ⟨token, start⟩
        cases token <;> first | rfl | cases ends
      · rename_i goesOn
        obtain ⟨noSeparator, noBrace⟩ : after.token.isSeparator = false ∧
          after.token ≠ .rightBrace := by simpa using goesOn
        exact .error (.unexpected (ended.stuck noSeparator fun brace => absurd brace noBrace))
termination_by 4 * tokens.length + 3
decreasing_by all_goals simp only [List.length_cons] at *; omega

end

end

end PolicyShell.Grammar
