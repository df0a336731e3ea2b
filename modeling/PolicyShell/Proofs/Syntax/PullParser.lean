import PolicyShell.Proofs.Syntax.Resumption
import PolicyShell.Syntax.Cursor

/-! A parser that reads a token when it comes to look at it, and holds no more than this one token.
Its loops and the calls of its rules are limited, and it may find another token than the one it has
looked at: neither ever shows in an answer. -/
namespace PolicyShell

structure PullParser where
  dialect : Dialect
  cursor : Cursor
  /-- The token that was looked at and not used yet, and the position where it was looked for. -/
  ahead : Option (Token × Nat)

namespace PullParser

/-- Why there is no answer. -/
inductive Halt where
  | refused (error : ParseError)
  /-- The token that was looked at is not the one that is used. -/
  | unreachable
  /-- The limit was reached. -/
  | exhausted
  deriving DecidableEq, Repr

/-- A part of reading. The parser is changed even if there is no answer. -/
abbrev Pull := ExceptT Halt (StateM PullParser)

def ofText (dialect : Dialect) (text : String) : PullParser := ⟨dialect, .start text, none⟩

/-- Where reading goes on. -/
def position (parser : PullParser) : Nat :=
  match parser.ahead with
  | some (_, place) => place
  | none => parser.cursor.position

/-- Goes on in a dialect. A token of another one is read again. -/
def withDialect (parser : PullParser) (dialect : Dialect) : PullParser :=
  if dialect = parser.dialect then parser
  else match parser.ahead with
    | some (_, place) => ⟨dialect, parser.cursor.moveTo place, none⟩
    | none => { parser with dialect }

/-- Looks at the next token. At the end of the text there is none. -/
def peek : Pull (Option Token) := do
  let parser ← get
  match parser.ahead with
  | some (token, _) => return some token
  | none =>
    let (read, cursor) := parser.cursor.next parser.dialect
    match read with
    | .error error =>
      set { parser with cursor }
      throw (.refused error)
    | .ok none =>
      set { parser with cursor }
      return none
    | .ok (some token) =>
      set { parser with cursor, ahead := some (token, parser.cursor.position) }
      return some token

/-- Uses the next token up. -/
def take : Pull (Option Token) := do
  let _ ← peek
  let parser ← get
  set { parser with ahead := none }
  return parser.ahead.map Prod.fst

/-- The next token does not belong here. -/
def unexpected {α : Type} : Pull α := do
  let found := match ← peek with
    | some token => Found.token token.describe
    | none => .endOfInput
  throw (.refused (.unexpected found (← get).position))

def expect (expected : Token) : Pull Unit := do
  match ← peek with
  | some token => if token = expected then let _ ← take else unexpected
  | none => unexpected

/-- Uses up all the next tokens of a kind. -/
def skip (isSkipped : Token → Bool) : Nat → Pull Unit
  | 0 => throw .exhausted
  | limit + 1 => do
    match ← peek with
    | some token =>
      if isSkipped token then
        let _ ← take
        skip isSkipped limit
      else return ()
    | none => return ()

mutual

/-- Goes on with a simple command behind some assignments and words, or defines a function if its
first word is one and a parenthesis follows. -/
def simple : Nat → List Assignment → List Word → Pull Command
  | 0, _, _ => throw .exhausted
  | limit + 1, assignments, words => do
    match ← peek with
    | some (.assignment _) =>
      let place := (← get).position
      match ← take with
      | some (.assignment assigned) =>
        if words.isEmpty then simple limit (assignments ++ [assigned]) words
        else match assigned.asWord? with
          | some word => simple limit assignments (words ++ [word])
          | none => throw (.refused (.unexpected .arrayArgument place))
      | _ => throw .unreachable
    | some (.word _) =>
      match ← take with
      | some (.word word) =>
        if words.isEmpty && assignments.isEmpty then
          match ← peek with
          | some .leftParen => definition limit word
          | _ => simple limit assignments (words ++ [word])
        else simple limit assignments (words ++ [word])
      | _ => throw .unreachable
    | some .leftBrace =>
      if words.isEmpty then return .simple assignments words
      else
        let _ ← take
        simple limit assignments (words ++ [.literal "\x7b"])
    | some .rightBrace =>
      if words.isEmpty then return .simple assignments words
      else
        let _ ← take
        simple limit assignments (words ++ [.literal "\x7d"])
    | _ => return .simple assignments words

/-- Goes on with the definition of a function behind its name. -/
def definition : Nat → Word → Pull Command
  | 0, _ => throw .exhausted
  | limit + 1, word => do
    match Grammar.definedName? word with
    | none => unexpected
    | some name =>
      expect .leftParen
      expect .rightParen
      skip (· == .newline) limit
      return .definition name (.group (← group limit))

/-- Reads the commands between braces. -/
def group : Nat → Pull (List Command)
  | 0 => throw .exhausted
  | limit + 1 => do
    let opening := (← get).position
    expect .leftBrace
    members limit opening []

/-- Goes on with a group behind some of its commands. -/
def members : Nat → Nat → List Command → Pull (List Command)
  | 0, _, _ => throw .exhausted
  | limit + 1, opening, body => do
    skip Token.isSeparator limit
    match ← peek with
    | none => throw (.refused (.unterminated .braceGroup opening))
    | some .rightBrace =>
      let _ ← take
      return body
    | some _ =>
      let first ← andOr limit
      match ← peek with
      | none => throw (.refused (.unterminated .braceGroup opening))
      | some after =>
        if after.isSeparator || after == .rightBrace then members limit opening (body ++ [first])
        else unexpected

/-- Reads one command. -/
def command : Nat → Pull Command
  | 0 => throw .exhausted
  | limit + 1 => do
    match ← peek with
    | some .leftBrace => return .group (← group limit)
    | some (.word _) | some (.assignment _) => simple limit [] []
    | _ => unexpected

/-- Goes on with a chain behind some of its commands. -/
def chain : Nat → Command → Pull Command
  | 0, _ => throw .exhausted
  | limit + 1, left => do
    match (← peek).bind Grammar.connective? with
    | some connective =>
      let _ ← take
      skip (· == .newline) limit
      let right ← command limit
      chain limit (.chain left connective right)
    | none => return left

/-- Reads one command, or some that operators join. -/
def andOr : Nat → Pull Command
  | 0 => throw .exhausted
  | limit + 1 => do
    let left ← command limit
    chain limit left

end

/-- Reads the next command and the separator behind it. At the end of the text there is none. -/
def next (limit : Nat) : Pull (Option Command) := do
  skip Token.isSeparator limit
  match ← peek with
  | none => return none
  | some _ =>
    let command ← andOr limit
    match ← peek with
    | none => return some command
    | some after =>
      if after.isSeparator then
        let _ ← take
        return some command
      else unexpected

/-- Reads commands until there is none. -/
def commands : Nat → List Command → Pull (List Command)
  | 0, _ => throw .exhausted
  | limit + 1, read => do
    match ← next limit with
    | none => return read
    | some command => commands limit (read ++ [command])

/-- What becomes of a parser that is used. -/
def step (limit : Nat) (parser : PullParser) : Parser.Step → PullParser
  | .next => ((next limit).run parser).2
  | .setDialect dialect => parser.withDialect dialect

def after (parser : PullParser) (limit : Nat) (steps : List Parser.Step) : PullParser :=
  steps.foldl (step limit) parser

/-- Reads the elements of an array behind some of them, and the closing parenthesis. -/
def elements (dialect : Dialect) (opening : List Char) :
    Nat → List Word → List Char → Option (Scanned (List Word))
  | 0, _, _ => none
  | limit + 1, read, text =>
    match text with
    | [] => some (.failed (.unterminated .arrayLiteral opening.length) [])
    | ')' :: rest => some ⟨.ok read, rest⟩
    | c :: inner =>
      if c = ' ' ∨ c = '\t' ∨ c = '\n' then elements dialect opening limit read inner
      else match Word.scan dialect (c :: inner) with
        | ⟨.error error, rest⟩ => some (.failed error rest)
        | ⟨.ok word, rest⟩ => elements dialect opening limit (read ++ [word]) rest

end PullParser

end PolicyShell
