import PolicyShell.Syntax.Grammar

/-! Reading a text command by command, so that the dialect may change in between. -/
namespace PolicyShell

/-- A text of which the beginning has been read. The tokens ahead belong to the dialect. -/
structure Parser where
  dialect : Dialect
  /-- The length of the whole text. -/
  length : Nat
  stream : TokenStream

namespace Parser

def ofText (dialect : Dialect) (text : String) : Parser :=
  ⟨dialect, text.length, .read dialect text.toList⟩

/-- The text that is still to be read. -/
def unread (parser : Parser) : List Char := parser.stream.start

/-- Reads what is ahead in another dialect. -/
def withDialect (parser : Parser) (dialect : Dialect) : Parser :=
  if dialect = parser.dialect then parser
  else ⟨dialect, parser.length, .read dialect parser.unread⟩

@[simp] theorem unread_withDialect (parser : Parser) (dialect : Dialect) :
    (parser.withDialect dialect).unread = parser.unread := by
  unfold withDialect
  split
  · rfl
  · simp [unread]

/-- Goes on with a given text. -/
def resume (parser : Parser) (text : List Char) : Parser :=
  { parser with stream := .read parser.dialect text }

def reject (parser : Parser) (rejection : Rejection) :
    Except ParseError (Option Command) × Parser :=
  (.error (rejection.error.locate parser.length), parser.resume rejection.rest)

/-- The command at the beginning of some of the tokens ahead, with the separator after it. -/
def nextAt (parser : Parser) (tokens : List PlacedToken) (ahead : tokens <:+ parser.stream.tokens) :
    Except ParseError (Option Command) × Parser :=
  match tokens, parser.stream.ending with
  | [], .finished _ => (.ok none, { parser with stream := .empty })
  | [], .broken error _ rest => parser.reject ⟨error, rest⟩
  | first :: others, ending =>
    match Grammar.andOr ending (first :: others) with
    | .error rejection => parser.reject rejection
    | .ok ⟨command, [], _⟩ => (.ok (some command), { parser with stream := .empty })
    | .ok ⟨command, after :: rest, follows⟩ =>
      if after.token.isSeparator then
        (.ok (some command), { parser with
          stream := parser.stream.dropTo rest
            (((List.suffix_cons ..).trans follows.suffix).trans ahead) })
      else parser.reject (Grammar.unexpected ending (after :: rest))

/-- The next command. After an error, reading may go on behind what could not be read, or before
the token that was out of place. -/
def next (parser : Parser) : Except ParseError (Option Command) × Parser :=
  parser.nextAt (Grammar.skipSeparators parser.stream.tokens) (Grammar.skipSeparators_suffix _)

private theorem length_unread_lt_of_nextAt {parser after : Parser} {command : Command}
    {tokens : List PlacedToken} {ahead : tokens <:+ parser.stream.tokens}
    (read : parser.nextAt tokens ahead = (.ok (some command), after)) :
    after.unread.length < parser.unread.length := by
  revert read
  fun_cases nextAt parser tokens ahead with
  | case1 => intro same; cases same
  | case2 => intro same; cases same
  | case3 => intro same; cases same
  | case4 first others ahead =>
    intro same
    cases same
    refine @TokenStream.length_start_pos parser.stream fun empty => ?_
    simp [empty] at ahead
  | case5 first others ahead _ next rest follows =>
    intro same
    cases same
    refine TokenStream.length_start_dropTo_lt
      (((List.suffix_cons ..).trans follows.suffix).trans ahead) ?_
    have := follows.shorter
    have := ahead.length_le
    simp only [List.length_cons] at *
    omega
  | case6 => intro same; cases same

/-- A command takes up text. -/
theorem length_unread_lt_of_next {parser after : Parser} {command : Command}
    (read : parser.next = (.ok (some command), after)) :
    after.unread.length < parser.unread.length :=
  length_unread_lt_of_nextAt read

/-- Every command that is left. -/
def commands (parser : Parser) : Except ParseError (List Command) :=
  match read : parser.next with
  | (.error error, _) => .error error
  | (.ok none, _) => .ok []
  | (.ok (some command), after) =>
    have := length_unread_lt_of_next read
    (commands after).map (command :: ·)
termination_by parser.unread.length

end Parser

/-- The commands of a whole text in one dialect. -/
def parse (dialect : Dialect) (text : String) : Except ParseError (List Command) :=
  (Parser.ofText dialect text).commands

end PolicyShell
