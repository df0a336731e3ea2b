import PolicyShell.Proofs.Syntax.Reading

/-! The grammar of programs, as rules for what tokens begin with. Each rule relates what tokens
stand for to the tokens and to those that follow. -/
namespace PolicyShell.Grammar

/-- As many arguments as there are. A word, a scalar assignment and a brace are each one. -/
inductive IsArguments : List Word → List Token → List Token → Prop where
  | ended {rest : List Token} (stops : ∀ next ∈ rest.head?, argumentWord? next = none) :
      IsArguments [] rest rest
  | argument {token : Token} {word : Word} {tokens rest : List Token} {words : List Word}
      (isWord : argumentWord? token = some word) (others : IsArguments words tokens rest) :
      IsArguments (word :: words) (token :: tokens) rest

/-- Assignments alone, or a word with its arguments and any assignments before it. A word with a
parenthesis behind it begins the definition of a function. -/
inductive IsSimple : Command → List Token → List Token → Prop where
  | assignments {assignments : List Assignment} (present : assignments ≠ []) (rest : List Token) :
      IsSimple (.simple assignments []) (assignments.map .assignment ++ rest) rest
  | words (assignments : List Assignment) {word : Word} {tokens rest : List Token}
      {words : List Word} (plain : assignments = [] → tokens.head? ≠ some .leftParen)
      (arguments : IsArguments words tokens rest) :
      IsSimple (.simple assignments (word :: words))
        (assignments.map .assignment ++ .word word :: tokens) rest

def AllNewlines (tokens : List Token) : Prop := ∀ token ∈ tokens, token = .newline

def AllSeparators (tokens : List Token) : Prop := ∀ token ∈ tokens, token.isSeparator = true

/-- What the rules are about. -/
inductive Phrase where
  | command (command : Command)
  /-- A command, or some that operators join. -/
  | andOr (command : Command)
  /-- One or more of these with separators between them. -/
  | sequence (commands : List Command)
  /-- A sequence, if anything, between braces. -/
  | group (commands : List Command)

inductive Derives : Phrase → List Token → List Token → Prop where
  | simple {command : Command} {tokens rest : List Token} (here : IsSimple command tokens rest) :
      Derives (.command command) tokens rest
  | group {body : List Command} {tokens rest : List Token}
      (here : Derives (.group body) tokens rest) : Derives (.command (.group body)) tokens rest
  | definition {word : Word} {name : String} {body : List Command}
      {newlines tokens rest : List Token} (named : definedName? word = some name)
      (blank : AllNewlines newlines) (later : Derives (.group body) tokens rest) :
      Derives (.command (.definition name (.group body)))
        (.word word :: .leftParen :: .rightParen :: (newlines ++ tokens)) rest
  | alone {command : Command} {tokens rest : List Token}
      (here : Derives (.command command) tokens rest) : Derives (.andOr command) tokens rest
  /-- Operators join from the left. -/
  | joined {left right : Command} {operator : Token} {connective : Connective}
      {tokens newlines middle rest : List Token}
      (here : Derives (.andOr left) tokens (operator :: (newlines ++ middle)))
      (connects : connective? operator = some connective) (blank : AllNewlines newlines)
      (later : Derives (.command right) middle rest) :
      Derives (.andOr (.chain left connective right)) tokens rest
  | last {command : Command} {tokens rest : List Token}
      (here : Derives (.andOr command) tokens rest) : Derives (.sequence [command]) tokens rest
  | more {first : Command} {others : List Command} {tokens separators middle rest : List Token}
      (here : Derives (.andOr first) tokens (separators ++ middle)) (present : separators ≠ [])
      (blank : AllSeparators separators) (later : Derives (.sequence others) middle rest) :
      Derives (.sequence (first :: others)) tokens rest
  | empty {separators : List Token} (blank : AllSeparators separators) (rest : List Token) :
      Derives (.group []) (.leftBrace :: (separators ++ .rightBrace :: rest)) rest
  | braced {body : List Command} {leading trailing tokens rest : List Token}
      (before : AllSeparators leading)
      (inside : Derives (.sequence body) tokens (trailing ++ .rightBrace :: rest))
      (after : AllSeparators trailing) :
      Derives (.group body) (.leftBrace :: (leading ++ tokens)) rest

/-- A program is a sequence, if anything, with separators around it. -/
inductive IsProgram : List Command → List Token → Prop where
  | empty {separators : List Token} (blank : AllSeparators separators) : IsProgram [] separators
  | sequence {commands : List Command} {leading trailing tokens : List Token}
      (before : AllSeparators leading) (inside : Derives (.sequence commands) tokens trailing)
      (after : AllSeparators trailing) :
      IsProgram commands (leading ++ tokens)

/-- The tokens with which a command can begin. -/
def beginsCommand : Token → Bool
  | .word _ | .assignment _ | .leftBrace => true
  | _ => false

def Begins (tokens : List Token) : Prop :=
  ∃ first others, tokens = first :: others ∧ beginsCommand first = true

theorem not_separator_of_beginsCommand {token : Token} (begins : beginsCommand token = true) :
    token.isSeparator = false := by
  cases token <;> first | rfl | cases begins

variable {tokens rest : List Token}

private theorem IsSimple.begins {command : Command} (simple : IsSimple command tokens rest) :
    Begins tokens := by
  cases simple with
  | @assignments assignments present =>
    obtain ⟨first, others, rfl⟩ := List.exists_cons_of_ne_nil present
    exact ⟨_, _, rfl, rfl⟩
  | words assignments =>
    cases assignments with
    | nil => exact ⟨_, _, rfl, rfl⟩
    | cons first others => exact ⟨_, _, rfl, rfl⟩

/-- Whatever is derived begins as a command does. -/
theorem Derives.begins {phrase : Phrase} (derives : Derives phrase tokens rest) :
    Begins tokens := by
  induction derives with
  | simple here => exact here.begins
  | group _ ih => exact ih
  | definition => exact ⟨_, _, rfl, rfl⟩
  | alone _ ih => exact ih
  | joined _ _ _ _ ih => exact ih
  | last _ ih => exact ih
  | more _ _ _ _ ih => exact ih
  | empty => exact ⟨_, _, rfl, rfl⟩
  | braced => exact ⟨_, _, rfl, rfl⟩

end PolicyShell.Grammar
