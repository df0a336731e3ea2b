import PolicyShell.Syntax.Parser

/-! What reading commands gives, without the proofs about what is left. -/
namespace PolicyShell

namespace Reading

variable {α : Type} {isRest : List PlacedToken → Prop}

/-- What was read and the tokens after it. -/
def outcome : Reading α isRest → Except Rejection (α × List PlacedToken)
  | .error rejection => .error rejection
  | .ok parsed => .ok (parsed.value, parsed.rest)

@[simp] theorem outcome_error (rejection : Rejection) :
    outcome (.error rejection : Reading α isRest) = .error rejection := rfl

@[simp] theorem outcome_ok (value : α) (rest : List PlacedToken) (proper : isRest rest) :
    outcome (.ok ⟨value, rest, proper⟩ : Reading α isRest) = .ok (value, rest) := rfl

theorem proper_of_outcome {reading : Reading α isRest} {value : α} {rest : List PlacedToken}
    (read : reading.outcome = .ok (value, rest)) : isRest rest := by
  cases reading with
  | error => cases read
  | ok parsed =>
    cases read
    exact parsed.proper

theorem exists_of_bind_ok {ε β γ : Type} {result : Except ε β} {next : β → Except ε γ} {value : γ}
    (read : result.bind next = .ok value) :
    ∃ found, result = .ok found ∧ next found = .ok value := by
  cases result with
  | error => cases read
  | ok found => exact ⟨found, rfl, read⟩

theorem exists_of_map_ok {ε β γ : Type} {result : Except ε β} {change : β → γ} {value : γ}
    (read : result.map change = .ok value) :
    ∃ found, result = .ok found ∧ change found = value := by
  cases result with
  | error => cases read
  | ok found => exact ⟨found, rfl, Except.ok.inj read⟩

end Reading

namespace Grammar

variable (ending : Ending) (opening : List Char) (left : Command)

/-- Where reading goes on in front of these tokens. -/
def resumption (tokens : List PlacedToken) : List Char :=
  (tokens.head?.map PlacedToken.start).getD ending.start

/-- What was read when the tokens come to their end, unless a broken one follows. -/
def atEnd {α : Type} (value : α) : Except Rejection (α × List PlacedToken) :=
  match ending with
  | .broken error _ rest => .error ⟨error, rest⟩
  | .finished _ => .ok (value, [])

/-- Takes one token away if it is the expected one. -/
def expect (token : Token) : List PlacedToken → Except Rejection (List Char × List PlacedToken)
  | [] => .error (unexpected ending [])
  | next :: rest =>
    if next.token = token then .ok (next.start, rest)
    else .error (unexpected ending (next :: rest))

/-- The word that a token is among the arguments of a command. -/
def argumentWord? : Token → Option Word
  | .word word => some word
  | .leftBrace => some (.literal "\x7b")
  | .rightBrace => some (.literal "\x7d")
  | .assignment assigned => assigned.asWord?
  | _ => none

theorem outcome_arguments_nil : (arguments ending []).outcome = atEnd ending [] := by
  cases ending <;> rw [arguments] <;> rfl

/-- A token that is no word ends the arguments, unless it assigns an array. -/
theorem outcome_arguments_cons (next : PlacedToken) (rest : List PlacedToken) :
    (arguments ending (next :: rest)).outcome =
      match argumentWord? next.token, next.token with
      | some word, _ => (arguments ending rest).outcome.map fun read => (word :: read.1, read.2)
      | none, .assignment _ =>
        .error ⟨.unexpected .arrayArgument next.start.length, resumption ending rest⟩
      | none, _ => .ok ([], next :: rest) := by
  rcases next with ⟨token, start⟩
  cases token with
  | assignment assigned =>
    rw [arguments]
    dsimp only [argumentWord?]
    cases assigned.asWord? with
    | none => rfl
    | some word =>
      dsimp only [arguments.argument]
      cases arguments ending rest <;> rfl
  | word | leftBrace | rightBrace =>
    rw [arguments]
    dsimp only [arguments.argument, argumentWord?]
    cases arguments ending rest <;> rfl
  | _ => rw [arguments] <;> first | rfl | nofun

theorem outcome_words_nil : (words ending []).outcome = atEnd ending [] := by
  cases ending <;> rfl

theorem outcome_words_cons (next : PlacedToken) (rest : List PlacedToken) :
    (words ending (next :: rest)).outcome =
      match next.token with
      | .word word => (arguments ending rest).outcome.map fun read => (word :: read.1, read.2)
      | _ => .ok ([], next :: rest) := by
  rcases next with ⟨token, start⟩
  cases token with
  | word =>
    dsimp only [words]
    cases arguments ending rest <;> rfl
  | _ => rfl

theorem outcome_bodyOf (tokens : List PlacedToken) :
    (bodyOf ending tokens).outcome =
      (expect ending .leftParen tokens).bind fun first =>
        (expect ending .rightParen first.2).bind fun second =>
          expect ending .leftBrace (skipNewlines second.2) := by
  unfold bodyOf
  split
  · rename_i first second rest
    split
    · rename_i start body found
      simp [expect, Except.bind, found]
    · rename_i other differs
      cases found : skipNewlines rest with
      | nil => simp [expect, Except.bind, found]
      | cons next body =>
        have brace : next.token ≠ .leftBrace := by
          intro same
          exact differs next.start body (by rw [← same]; exact found)
        simp [expect, Except.bind, found, brace]
  · rename_i first other differs
    cases other with
    | nil => simp [expect, Except.bind]
    | cons next rest =>
      have paren : next.token ≠ .rightParen := by
        intro same
        exact differs next.start rest (by rw [← same])
      simp [expect, Except.bind, paren]
  · rename_i differs
    cases tokens with
    | nil => rfl
    | cons next rest =>
      have paren : next.token ≠ .leftParen := by
        intro same
        exact differs next.start rest (by rw [← same])
      simp [expect, Except.bind, paren]

theorem outcome_bodyOf_bind {β : Type} (tokens : List PlacedToken)
    (later : List Char × List PlacedToken → Except Rejection β) :
    (bodyOf ending tokens).outcome.bind later =
      (expect ending .leftParen tokens).bind fun first =>
        (expect ending .rightParen first.2).bind fun second =>
          (expect ending .leftBrace (skipNewlines second.2)).bind later := by
  rw [outcome_bodyOf]
  cases expect ending .leftParen tokens with
  | error rejection => rfl
  | ok first =>
    dsimp only [Except.bind]
    cases expect ending .rightParen first.2 <;> rfl

/-- The expected token is one of those that were there. -/
theorem expect_eq_ok {token : Token} {tokens rest : List PlacedToken} {start : List Char}
    (read : expect ending token tokens = .ok (start, rest)) : tokens = ⟨token, start⟩ :: rest := by
  rcases tokens with _ | ⟨⟨next, here⟩, others⟩
  · cases read
  · rw [expect] at read
    split at read
    · rename_i same
      cases read
      cases same
      rfl
    · cases read

theorem outcome_andOr (tokens : List PlacedToken) :
    (andOr ending tokens).outcome =
      (command ending tokens).outcome.bind fun read => (chain ending read.1 read.2).outcome := by
  rw [andOr]
  cases command ending tokens with
  | error rejection => rfl
  | ok parsed =>
    dsimp only [Reading.outcome, Except.bind]
    cases chain ending parsed.value parsed.rest <;> rfl

theorem outcome_chain_nil : (chain ending left []).outcome = atEnd ending left := by
  cases ending <;> rw [chain] <;> rfl

theorem outcome_chain_cons (next : PlacedToken) (rest : List PlacedToken) :
    (chain ending left (next :: rest)).outcome =
      match connective? next.token with
      | none => .ok (left, next :: rest)
      | some connective =>
        (command ending (skipNewlines rest)).outcome.bind fun read =>
          (chain ending (.chain left connective read.1) read.2).outcome := by
  rw [chain]
  cases connective? next.token with
  | none => rfl
  | some connective =>
    cases command ending (skipNewlines rest) with
    | error rejection => rfl
    | ok parsed =>
      dsimp only [Reading.outcome, Except.bind]
      cases chain ending (left.chain connective parsed.value) parsed.rest <;> rfl

/-- What comes after a command in a group. -/
def afterMember (first : Command) (after : List PlacedToken) :
    Except Rejection (List Command × List PlacedToken) :=
  match after with
  | [] => .error (unclosed ending opening)
  | next :: rest =>
    if next.token.isSeparator || next.token == .rightBrace then
      (group ending opening (next :: rest)).outcome.map fun read => (first :: read.1, read.2)
    else .error (unexpected ending (next :: rest))

variable {ending opening}

theorem outcome_group_nil {tokens : List PlacedToken} (found : skipSeparators tokens = []) :
    (group ending opening tokens).outcome = .error (unclosed ending opening) := by
  rw [group]
  split <;> simp_all

theorem outcome_group_rightBrace {tokens rest : List PlacedToken} {start : List Char}
    (found : skipSeparators tokens = ⟨.rightBrace, start⟩ :: rest) :
    (group ending opening tokens).outcome = .ok ([], rest) := by
  rw [group]
  split <;> simp_all

theorem outcome_group_cons {tokens others : List PlacedToken} {next : PlacedToken}
    (found : skipSeparators tokens = next :: others) (differs : next.token ≠ .rightBrace) :
    (group ending opening tokens).outcome =
      (andOr ending (next :: others)).outcome.bind fun read =>
        afterMember ending opening read.1 read.2 := by
  rw [group]
  split
  · simp_all
  · rename_i same
    obtain ⟨rfl, -⟩ := List.cons.inj (same.symm.trans found)
    exact absurd rfl differs
  · rename_i first rest _ same
    obtain ⟨rfl, rfl⟩ := List.cons.inj (same.symm.trans found)
    cases andOr ending (first :: rest) with
    | error rejection => rfl
    | ok parsed =>
      rcases parsed with ⟨value, _ | ⟨after, rest⟩, follows⟩
      · rfl
      · simp only [Reading.outcome_ok, Except.bind, afterMember]
        split
        · cases group ending opening (after :: rest) <;> rfl
        · rfl

theorem outcome_command_leftBrace (start : List Char) (rest : List PlacedToken) :
    (command ending (⟨.leftBrace, start⟩ :: rest)).outcome =
      (group ending start rest).outcome.map fun read => (.group read.1, read.2) := by
  rw [command]
  cases group ending start rest <;> rfl

theorem outcome_command_assignment (assigned : Assignment) (start : List Char)
    (rest : List PlacedToken) :
    (command ending (⟨.assignment assigned, start⟩ :: rest)).outcome =
      (words ending (leadingAssignments rest).2).outcome.map fun read =>
        (.simple (assigned :: (leadingAssignments rest).1) read.1, read.2) := by
  rw [command]
  cases words ending (leadingAssignments rest).2 <;> rfl

/-- A word that no parenthesis follows begins a simple command. -/
theorem outcome_command_word (word : Word) (start : List Char) {rest : List PlacedToken}
    (plain : ∀ next ∈ rest.head?, next.token ≠ .leftParen) :
    (command ending (⟨.word word, start⟩ :: rest)).outcome =
      (arguments ending rest).outcome.map fun read => (.simple [] (word :: read.1), read.2) := by
  rw [command]
  · cases arguments ending rest <;> rfl
  · rintro inner others rfl
    exact plain ⟨.leftParen, inner⟩ rfl rfl

theorem outcome_command_leftParen (word : Word) (start inner : List Char)
    (rest : List PlacedToken) :
    (command ending (⟨.word word, start⟩ :: ⟨.leftParen, inner⟩ :: rest)).outcome =
      match definedName? word with
      | none => .error (unexpected ending (⟨.leftParen, inner⟩ :: rest))
      | some name =>
        (bodyOf ending (⟨.leftParen, inner⟩ :: rest)).outcome.bind fun opened =>
          (group ending opened.1 opened.2).outcome.map fun read =>
            (.definition name (.group read.1), read.2) := by
  rw [command]
  cases definedName? word with
  | none => rfl
  | some name =>
    cases bodyOf ending (⟨.leftParen, inner⟩ :: rest) with
    | error rejection => rfl
    | ok parsed =>
      dsimp only [Reading.outcome, Except.bind]
      cases group ending parsed.value parsed.rest <;> rfl

/-- Tokens with which no command begins. -/
def NoCommand (tokens : List PlacedToken) : Prop :=
  ∀ next ∈ tokens.head?, next.token ≠ .leftBrace ∧ (∀ word, next.token ≠ .word word) ∧
    ∀ assigned, next.token ≠ .assignment assigned

theorem outcome_command_other {tokens : List PlacedToken} (other : NoCommand tokens) :
    (command ending tokens).outcome = .error (unexpected ending tokens) := by
  rw [command]
  · rfl
  · rintro start rest rfl
    exact (other _ rfl).1 rfl
  · rintro word start inner rest rfl
    exact (other _ rfl).2.1 word rfl
  · rintro word start rest rfl
    exact (other _ rfl).2.1 word rfl
  · rintro assigned start rest rfl
    exact (other _ rfl).2.2 assigned rfl

/-- How a command may begin. -/
inductive CommandStart : List PlacedToken → Prop where
  | group (start : List Char) (rest : List PlacedToken) : CommandStart (⟨.leftBrace, start⟩ :: rest)
  | definition (word : Word) (start inner : List Char) (rest : List PlacedToken) :
      CommandStart (⟨.word word, start⟩ :: ⟨.leftParen, inner⟩ :: rest)
  | words (word : Word) (start : List Char) {rest : List PlacedToken}
      (plain : ∀ next ∈ rest.head?, next.token ≠ .leftParen) :
      CommandStart (⟨.word word, start⟩ :: rest)
  | assignments (assigned : Assignment) (start : List Char) (rest : List PlacedToken) :
      CommandStart (⟨.assignment assigned, start⟩ :: rest)
  | none {tokens : List PlacedToken} (other : NoCommand tokens) : CommandStart tokens

theorem commandStart (tokens : List PlacedToken) : CommandStart tokens := by
  cases tokens with
  | nil => exact .none nofun
  | cons first rest =>
    rcases first with ⟨token, start⟩
    cases token with
    | leftBrace => exact .group start rest
    | assignment assigned => exact .assignments assigned start rest
    | word word =>
      rcases rest with _ | ⟨⟨second, inner⟩, rest⟩
      · exact .words word start nofun
      · by_cases paren : second = .leftParen
        · exact paren ▸ .definition word start inner rest
        · exact .words word start (by simpa using paren)
    | _ => exact .none (by simp [NoCommand])

/-- What may stand in a group before its end. -/
inductive GroupStart (tokens : List PlacedToken) : Prop where
  | ended (found : skipSeparators tokens = []) : GroupStart tokens
  | closed {start : List Char} {rest : List PlacedToken}
      (found : skipSeparators tokens = ⟨.rightBrace, start⟩ :: rest) : GroupStart tokens
  | member {next : PlacedToken} {others : List PlacedToken}
      (found : skipSeparators tokens = next :: others) (differs : next.token ≠ .rightBrace) :
      GroupStart tokens

theorem groupStart (tokens : List PlacedToken) : GroupStart tokens := by
  rcases found : skipSeparators tokens with _ | ⟨⟨token, start⟩, rest⟩
  · exact .ended found
  · by_cases brace : token = .rightBrace
    · exact .closed (brace ▸ found)
    · exact .member found brace

end Grammar

end PolicyShell
