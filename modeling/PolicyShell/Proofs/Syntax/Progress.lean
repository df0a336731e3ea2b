import PolicyShell.Proofs.Syntax.Reading

/-! How far the reading of a program has come after each of its tokens. -/
namespace PolicyShell.Grammar

/-- What has just been read of a program. -/
inductive Stage where
  /-- Nothing of the command that may come next. -/
  | start
  /-- An operator, and no more than newlines after it. -/
  | operand
  | assignments
  /-- A word with which a command begins. -/
  | name (word : Word)
  /-- A word with a word or an assignment before it. -/
  | arguments
  /-- A closing brace. -/
  | group
  /-- The name of a function and the parenthesis behind it. -/
  | parenthesis
  /-- The head of a definition, and no more than newlines after it. -/
  | body

/-- Whether a command may end here. -/
def Stage.isComplete : Stage → Bool
  | start | assignments | name _ | arguments | group => true
  | operand | parenthesis | body => false

/-- How far reading has come: the stage, and the opening braces of the groups that are not closed,
the innermost first. -/
structure Progress where
  stage : Stage
  groups : List (List Char)

namespace Progress

/-- Nothing has been read. -/
def initial : Progress := ⟨.start, []⟩

/-- Behind the first token of a command. -/
def begin? (groups : List (List Char)) (next : PlacedToken) : Option Progress :=
  match next.token with
  | .word word => some ⟨.name word, groups⟩
  | .assignment _ => some ⟨.assignments, groups⟩
  | .leftBrace => some ⟨.start, next.start :: groups⟩
  | _ => none

/-- Behind the brace that closes the innermost group. -/
def close? : List (List Char) → Option Progress
  | [] => none
  | _ :: outer => some ⟨.group, outer⟩

/-- Behind a token that follows a command. -/
def leave? (groups : List (List Char)) : Token → Option Progress
  | .semicolon | .newline => some ⟨.start, groups⟩
  | .and | .or => some ⟨.operand, groups⟩
  | .rightBrace => close? groups
  | _ => none

/-- Behind a token that follows a word. -/
def argument? (groups : List (List Char)) (token : Token) : Option Progress :=
  match argumentWord? token with
  | some _ => some ⟨.arguments, groups⟩
  | none => leave? groups token

/-- Behind one more token, if it may stand there. -/
def step? (progress : Progress) (next : PlacedToken) : Option Progress :=
  let ⟨stage, groups⟩ := progress
  match stage, next.token with
  | .start, .semicolon | .start, .newline => some ⟨.start, groups⟩
  | .start, .rightBrace => close? groups
  | .start, _ => begin? groups next
  | .operand, .newline => some ⟨.operand, groups⟩
  | .operand, _ => begin? groups next
  | .assignments, .assignment _ => some ⟨.assignments, groups⟩
  | .assignments, .word _ => some ⟨.arguments, groups⟩
  | .assignments, token => leave? groups token
  | .name word, .leftParen => (definedName? word).map fun _ => ⟨.parenthesis, groups⟩
  | .name _, token => argument? groups token
  | .arguments, token => argument? groups token
  | .group, token => leave? groups token
  | .parenthesis, .rightParen => some ⟨.body, groups⟩
  | .parenthesis, _ => none
  | .body, .newline => some ⟨.body, groups⟩
  | .body, .leftBrace => some ⟨.start, next.start :: groups⟩
  | .body, _ => none

/-- Behind some more tokens. -/
def after? (progress : Progress) (tokens : List PlacedToken) : Option Progress :=
  tokens.foldlM step? progress

@[simp] theorem after?_nil (progress : Progress) : progress.after? [] = some progress := rfl

@[simp] theorem after?_cons (progress : Progress) (next : PlacedToken)
    (tokens : List PlacedToken) :
    progress.after? (next :: tokens) = (progress.step? next).bind (·.after? tokens) := by
  simp [after?, bind]

theorem after?_append (progress : Progress) (before tokens : List PlacedToken) :
    progress.after? (before ++ tokens) = (progress.after? before).bind (·.after? tokens) := by
  simp [after?, bind]

theorem step?_leftParen {word : Word} {name : String} {groups : List (List Char)}
    (named : definedName? word = some name) (start : List Char) :
    step? ⟨.name word, groups⟩ ⟨.leftParen, start⟩ = some ⟨.parenthesis, groups⟩ := by
  show (definedName? word).map _ = _
  rw [named]
  rfl

variable {progress reached : Progress} {opening : List Char} {groups : List (List Char)}

theorem brace_of_close? (closes : close? groups = some reached)
    (member : opening ∈ reached.groups) : opening ∈ groups := by
  cases groups with
  | nil => cases closes
  | cons inner outer =>
    cases closes
    exact List.mem_cons_of_mem inner member

theorem brace_of_leave? {token : Token} (leaves : leave? groups token = some reached)
    (member : opening ∈ reached.groups) : opening ∈ groups := by
  cases token with
  | semicolon | newline | and | or =>
    cases leaves
    exact member
  | rightBrace => exact brace_of_close? leaves member
  | _ => cases leaves

private theorem brace_of_argument? {token : Token} (argues : argument? groups token = some reached)
    (member : opening ∈ reached.groups) : opening ∈ groups := by
  unfold argument? at argues
  split at argues
  · cases argues
    exact member
  · exact brace_of_leave? argues member

private theorem brace_of_begin? {next : PlacedToken} (begins : begin? groups next = some reached)
    (member : opening ∈ reached.groups) : opening ∈ groups ∨ next = ⟨.leftBrace, opening⟩ := by
  rcases next with ⟨token, start⟩
  cases token with
  | word | assignment =>
    cases begins
    exact .inl member
  | leftBrace =>
    cases begins
    rcases List.mem_cons.mp member with rfl | earlier
    · exact .inr rfl
    · exact .inl earlier
  | _ => cases begins

/-- Only an opening brace begins a group. -/
theorem brace_of_step? {next : PlacedToken} (steps : progress.step? next = some reached)
    (member : opening ∈ reached.groups) :
    opening ∈ progress.groups ∨ next = ⟨.leftBrace, opening⟩ := by
  rcases next with ⟨token, start⟩
  revert steps
  fun_cases step? progress ⟨token, start⟩
  all_goals intro steps
  case case3 => exact .inl (brace_of_close? steps member)
  case case4 | case6 => exact brace_of_begin? steps member
  case case9 | case13 => exact .inl (brace_of_leave? steps member)
  case case11 | case12 => exact .inl (brace_of_argument? steps member)
  case case10 =>
    obtain ⟨_, _, rfl⟩ := Option.map_eq_some_iff.mp steps
    exact .inl member
  case case17 isBrace =>
    cases isBrace
    exact brace_of_begin? steps member
  all_goals
    cases steps
    try exact .inl member

theorem brace_of_after? {tokens : List PlacedToken}
    (reaches : progress.after? tokens = some reached) (member : opening ∈ reached.groups) :
    opening ∈ progress.groups ∨ ⟨.leftBrace, opening⟩ ∈ tokens := by
  induction tokens generalizing progress with
  | nil =>
    cases reaches
    exact .inl member
  | cons next rest ih =>
    rw [after?_cons] at reaches
    obtain ⟨between, steps, later⟩ := Option.bind_eq_some_iff.mp reaches
    rcases ih later with earlier | inside
    · exact (brace_of_step? steps earlier).imp_right fun same => by simp [same]
    · exact .inr (List.mem_cons_of_mem _ inside)

end Progress

end PolicyShell.Grammar
