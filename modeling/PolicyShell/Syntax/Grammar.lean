import PolicyShell.Syntax.Command
import PolicyShell.Syntax.TokenStream

/-! Reading commands from tokens. -/
namespace PolicyShell

/-- The tokens left when at least one of `tokens` has been used. -/
structure Follows (rest tokens : List PlacedToken) : Prop where
  suffix : rest <:+ tokens
  shorter : rest.length < tokens.length

namespace Follows

variable {first second third : List PlacedToken}

theorem cons {token : PlacedToken} (suffix : second <:+ first) : Follows second (token :: first) :=
  ⟨suffix.trans (List.suffix_cons ..), Nat.lt_succ_of_le suffix.length_le⟩

theorem suffix_trans (left : third <:+ second) (right : Follows second first) :
    Follows third first :=
  ⟨left.trans right.suffix, Nat.lt_of_le_of_lt left.length_le right.shorter⟩

theorem trans_suffix (left : Follows third second) (right : second <:+ first) :
    Follows third first :=
  ⟨left.suffix.trans right, Nat.lt_of_lt_of_le left.shorter right.length_le⟩

end Follows

/-- Why a command could not be read, and the text from which reading may go on. -/
structure Rejection where
  error : ParseError
  rest : List Char

/-- What was read, and the tokens after it. -/
structure Parsed (α : Type) (isRest : List PlacedToken → Prop) where
  value : α
  rest : List PlacedToken
  proper : isRest rest

/-- The outcome of reading a command or a part of one. -/
abbrev Reading (α : Type) (isRest : List PlacedToken → Prop) := Except Rejection (Parsed α isRest)

def Reading.map {α β : Type} {isRest isRest' : List PlacedToken → Prop} (change : α → β)
    (weaker : ∀ {rest}, isRest rest → isRest' rest) : Reading α isRest → Reading β isRest'
  | .error rejection => .error rejection
  | .ok ⟨value, rest, proper⟩ => .ok ⟨change value, rest, weaker proper⟩

namespace Grammar

def skipSeparators (tokens : List PlacedToken) : List PlacedToken :=
  tokens.dropWhile (·.token.isSeparator)

theorem skipSeparators_suffix (tokens : List PlacedToken) : skipSeparators tokens <:+ tokens :=
  List.dropWhile_suffix _

def skipNewlines (tokens : List PlacedToken) : List PlacedToken :=
  tokens.dropWhile (·.token == .newline)

theorem skipNewlines_suffix (tokens : List PlacedToken) : skipNewlines tokens <:+ tokens :=
  List.dropWhile_suffix _

/-- The first token does not belong here. -/
def unexpected (ending : Ending) (tokens : List PlacedToken) : Rejection :=
  match tokens, ending with
  | next :: _, _ => ⟨.unexpected (.token next.token.describe) next.start.length, next.start⟩
  | [], .broken error _ rest => ⟨error, rest⟩
  | [], .finished _ => ⟨.unexpected .endOfInput 0, []⟩

/-- The leading assignments, and the tokens after them. -/
def leadingAssignments : List PlacedToken → List Assignment × List PlacedToken
  | ⟨.assignment assigned, _⟩ :: rest =>
    let (assignments, rest) := leadingAssignments rest
    (assigned :: assignments, rest)
  | tokens => ([], tokens)

theorem leadingAssignments_suffix (tokens : List PlacedToken) :
    (leadingAssignments tokens).2 <:+ tokens := by
  fun_induction leadingAssignments tokens with
  | case1 assigned _ rest assignments after same ih =>
    simp only [same] at ih
    exact ih.trans (List.suffix_cons ..)
  | case2 => exact List.suffix_refl _

/-- The words after the first one of a command. A brace is a word there, and so is a scalar
assignment. -/
def arguments (ending : Ending) : (tokens : List PlacedToken) → Reading (List Word) (· <:+ tokens)
  | [] =>
    match ending with
    | .broken error _ rest => .error ⟨error, rest⟩
    | .finished _ => .ok ⟨[], [], List.suffix_refl _⟩
  | ⟨.word word, _⟩ :: rest => argument word (arguments ending rest)
  | ⟨.leftBrace, _⟩ :: rest => argument (.literal "\x7b") (arguments ending rest)
  | ⟨.rightBrace, _⟩ :: rest => argument (.literal "\x7d") (arguments ending rest)
  | ⟨.assignment assigned, start⟩ :: rest =>
    match assigned.asWord? with
    | some word => argument word (arguments ending rest)
    | none =>
      .error ⟨.unexpected .arrayArgument start.length,
        (rest.head?.map PlacedToken.start).getD ending.start⟩
  | tokens => .ok ⟨[], tokens, List.suffix_refl _⟩
where
  argument (word : Word) {token : PlacedToken} {rest : List PlacedToken}
      (words : Reading (List Word) (· <:+ rest)) : Reading (List Word) (· <:+ token :: rest) :=
    words.map (word :: ·) fun suffix => suffix.trans (List.suffix_cons ..)

/-- The words of a command after its assignments. -/
def words (ending : Ending) (tokens : List PlacedToken) : Reading (List Word) (· <:+ tokens) :=
  match tokens, ending with
  | ⟨.word word, _⟩ :: rest, _ =>
    (arguments ending rest).map (word :: ·) fun suffix => suffix.trans (List.suffix_cons ..)
  | [], .broken error _ rest => .error ⟨error, rest⟩
  | tokens, _ => .ok ⟨[], tokens, List.suffix_refl _⟩

/-- The name that a function definition may give. -/
def definedName? (word : Word) : Option String :=
  word.asLiteral?.filter fun name => Name.isValid name.toList

/-- The tokens after the opening brace of a function's body; `tokens` are those after its name. -/
def bodyOf (ending : Ending) (tokens : List PlacedToken) : Reading (List Char) (Follows · tokens) :=
  match tokens with
  | ⟨.leftParen, _⟩ :: ⟨.rightParen, _⟩ :: rest =>
    match found : skipNewlines rest with
    | ⟨.leftBrace, start⟩ :: body => .ok ⟨start, body, by
        have skipped := skipNewlines_suffix rest
        rw [found] at skipped
        exact .cons (((List.suffix_cons ..).trans skipped).trans (List.suffix_cons ..))⟩
    | other => .error (unexpected ending other)
  | ⟨.leftParen, _⟩ :: other => .error (unexpected ending other)
  | other => .error (unexpected ending other)

def connective? : Token → Option Connective
  | .and => some .and
  | .or => some .or
  | _ => none

/-- A brace group does not end before the text does. -/
def unclosed (ending : Ending) (opening : List Char) : Rejection :=
  match ending with
  | .broken error _ rest => ⟨error, rest⟩
  | .finished _ => ⟨.unterminated .braceGroup opening.length, []⟩

mutual

/-- A group, a function definition or a simple command. -/
def command (ending : Ending) (tokens : List PlacedToken) : Reading Command (Follows · tokens) :=
  match tokens with
  | ⟨.leftBrace, start⟩ :: rest =>
    (group ending start rest).map .group fun follows => .cons follows.suffix
  | ⟨.word word, _⟩ :: ⟨.leftParen, parenStart⟩ :: inner =>
    match definedName? word with
    | none => .error (unexpected ending (⟨.leftParen, parenStart⟩ :: inner))
    | some name =>
      match bodyOf ending (⟨.leftParen, parenStart⟩ :: inner) with
      | .error rejection => .error rejection
      | .ok ⟨start, body, follows⟩ =>
        have := follows.shorter
        (group ending start body).map (fun commands => .definition name (.group commands))
          fun rest => .cons (rest.suffix.trans follows.suffix)
  | ⟨.word word, _⟩ :: rest =>
    (arguments ending rest).map (fun words => .simple [] (word :: words)) .cons
  | ⟨.assignment assigned, _⟩ :: rest =>
    (words ending (leadingAssignments rest).2).map
      (.simple (assigned :: (leadingAssignments rest).1))
      fun suffix => .cons (suffix.trans (leadingAssignments_suffix rest))
  | other => .error (unexpected ending other)
termination_by 4 * tokens.length + 0
decreasing_by all_goals simp_all only [List.length_cons]; omega

/-- A chain of commands, `left` being what comes before its first operator. -/
def chain (ending : Ending) (left : Command) (tokens : List PlacedToken) :
    Reading Command (· <:+ tokens) :=
  match tokens, ending with
  | [], .broken error _ rest => .error ⟨error, rest⟩
  | [], .finished _ => .ok ⟨left, [], List.suffix_refl _⟩
  | next :: rest, _ =>
    match connective? next.token with
    | none => .ok ⟨left, next :: rest, List.suffix_refl _⟩
    | some connective =>
      have skipped := skipNewlines_suffix rest
      have := skipped.length_le
      match command ending (skipNewlines rest) with
      | .error rejection => .error rejection
      | .ok ⟨right, after, follows⟩ =>
        have := follows.shorter
        (chain ending (.chain left connective right) after).map id fun suffix =>
          ((suffix.trans follows.suffix).trans skipped).trans (List.suffix_cons ..)
termination_by 4 * tokens.length + 1
decreasing_by all_goals simp_all only [List.length_cons]; omega

/-- Commands joined by operators, or a single one. -/
def andOr (ending : Ending) (tokens : List PlacedToken) : Reading Command (Follows · tokens) :=
  match command ending tokens with
  | .error rejection => .error rejection
  | .ok ⟨left, rest, follows⟩ =>
    have := follows.shorter
    (chain ending left rest).map id fun suffix => .suffix_trans suffix follows
termination_by 4 * tokens.length + 2
decreasing_by all_goals omega

/-- Commands up to a closing brace. `opening` is the text from the opening one on. -/
def group (ending : Ending) (opening : List Char) (tokens : List PlacedToken) :
    Reading (List Command) (Follows · tokens) :=
  have skipped := skipSeparators_suffix tokens
  match found : skipSeparators tokens with
  | [] => .error (unclosed ending opening)
  | ⟨.rightBrace, _⟩ :: rest => .ok ⟨[], rest, .trans_suffix (.cons (List.suffix_refl _)) (found ▸ skipped)⟩
  | next :: others =>
    have := (found ▸ skipped : next :: others <:+ tokens).length_le
    match andOr ending (next :: others) with
    | .error rejection => .error rejection
    | .ok ⟨_, [], _⟩ => .error (unclosed ending opening)
    | .ok ⟨first, after :: rest, follows⟩ =>
      have := follows.shorter
      if after.token.isSeparator || after.token == .rightBrace then
        (group ending opening (after :: rest)).map (first :: ·) fun later =>
          .trans_suffix (.suffix_trans later.suffix follows) (found ▸ skipped)
      else .error (unexpected ending (after :: rest))
termination_by 4 * tokens.length + 3
decreasing_by all_goals simp_all only [List.length_cons]; omega

end

end Grammar

end PolicyShell
