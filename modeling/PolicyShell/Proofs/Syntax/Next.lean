import PolicyShell.Proofs.Syntax.Places
import PolicyShell.Proofs.Syntax.Stream

/-! The next command of a parser, as a function of its dialect and its unread text. -/
namespace PolicyShell

namespace Grammar

variable (ending : Ending)

/-- A command with the separator after it, and the text behind that. -/
def closeCommand (command : Command) :
    List PlacedToken → Except Rejection (Option Command × List Char)
  | [] => .ok (some command, [])
  | next :: rest =>
    if next.token.isSeparator then .ok (some command, resumption ending rest)
    else .error (unexpected ending (next :: rest))

variable {ending} in
/-- A command ends at the end of the text, or in front of a separator. -/
theorem closeCommand_eq_ok {command : Command} {found : Option Command} {rest : List Char}
    {after : List PlacedToken} (close : closeCommand ending command after = .ok (found, rest)) :
    found = some command ∧ (after = [] ∧ rest = [] ∨
      ∃ next later, after = next :: later ∧ next.token.isSeparator = true ∧
        rest = resumption ending later) := by
  rcases after with _ | ⟨next, later⟩
  · cases close
    exact ⟨rfl, .inl ⟨rfl, rfl⟩⟩
  · rw [closeCommand] at close
    split at close
    · rename_i separates
      cases close
      exact ⟨rfl, .inr ⟨next, later, rfl, separates, rfl⟩⟩
    · cases close

/-- The command at the beginning of tokens that begin with no separator. -/
def firstCommand : List PlacedToken → Except Rejection (Option Command × List Char)
  | [] => (atEnd ending ()).map fun _ => (none, [])
  | first :: others =>
    (andOr ending (first :: others)).outcome.bind fun read => closeCommand ending read.1 read.2

end Grammar

/-- The first command of a text and the text behind it, or no command at the end of the text. -/
def readNext (dialect : Dialect) (text : List Char) :
    Except Rejection (Option Command × List Char) :=
  Grammar.firstCommand (readTokens dialect text).2
    (Grammar.skipSeparators (readTokens dialect text).1)

namespace Parser

/-- What becomes of a parser that has read so much. -/
def advance (parser : Parser) :
    Except Rejection (Option Command × List Char) → Except ParseError (Option Command) × Parser
  | .error rejection => parser.reject rejection
  | .ok (found, rest) => (.ok found, parser.resume rest)

section
variable {parser : Parser} {tokens : List PlacedToken} {ahead : tokens <:+ parser.stream.tokens}

theorem resume_nil (parser : Parser) : parser.resume [] = { parser with stream := .empty } := by
  have nothing : TokenStream.empty = .read parser.dialect [] := TokenStream.faithful_empty
  rw [resume, nothing]

private theorem Faithful.resume_dropTo (faithful : parser.Faithful) {rest : List PlacedToken}
    (suffix : rest <:+ parser.stream.tokens) :
    parser.resume (Grammar.resumption parser.stream.ending rest) =
      { parser with stream := parser.stream.dropTo rest suffix } := by
  have start : (parser.stream.dropTo rest suffix).start =
      Grammar.resumption parser.stream.ending rest := by
    cases rest <;> rfl
  have whole := ((faithful_iff parser).mp faithful).dropTo suffix
  rw [TokenStream.Faithful, start] at whole
  rw [resume, ← whole]

private theorem Faithful.nextAt_eq (faithful : parser.Faithful) :
    parser.nextAt tokens ahead =
      parser.advance (Grammar.firstCommand parser.stream.ending tokens) := by
  cases tokens with
  | nil =>
    rw [nextAt.eq_def, Grammar.firstCommand, Grammar.atEnd.eq_def]
    cases parser.stream.ending with
    | finished start => simp [advance, Except.map, resume_nil]
    | broken error start rest => rfl
  | cons first others =>
    rw [nextAt, Grammar.firstCommand]
    cases Grammar.andOr parser.stream.ending (first :: others) with
    | error rejection => rfl
    | ok parsed =>
      rcases parsed with ⟨command, _ | ⟨after, rest⟩, follows⟩
      · simp [Except.bind, Grammar.closeCommand, advance, resume_nil]
      · simp only [Reading.outcome_ok, Except.bind, Grammar.closeCommand]
        split
        · dsimp only [advance]
          rw [faithful.resume_dropTo]
        · rfl

end

/-- A parser without hidden memory reads what its unread text begins with. -/
theorem Faithful.next_eq {parser : Parser} (faithful : parser.Faithful) :
    parser.next = parser.advance (readNext parser.dialect parser.unread) := by
  have stream : parser.stream = .read parser.dialect parser.unread :=
    (faithful_iff parser).mp faithful
  have tokens : parser.stream.tokens = (readTokens parser.dialect parser.unread).1 :=
    congrArg TokenStream.tokens stream
  have ending : parser.stream.ending = (readTokens parser.dialect parser.unread).2 :=
    congrArg TokenStream.ending stream
  rw [Parser.next, faithful.nextAt_eq, readNext, tokens, ending]

section
variable {parser after : Parser} {result : Except Rejection (Option Command × List Char)}

theorem advance_eq_ok {found : Option Command} (read : parser.advance result = (.ok found, after)) :
    ∃ rest, result = .ok (found, rest) ∧ after = parser.resume rest := by
  rcases result with rejection | ⟨found', rest⟩
  · cases read
  · cases read
    exact ⟨rest, rfl, rfl⟩

theorem advance_eq_error {error : ParseError}
    (read : parser.advance result = (.error error, after)) :
    ∃ rejection, result = .error rejection ∧ error = rejection.error.locate parser.length := by
  rcases result with rejection | ⟨found, rest⟩
  · cases read
    exact ⟨rejection, rfl, rfl⟩
  · cases read

theorem Faithful.readNext_of_next {found : Option Command} (faithful : parser.Faithful)
    (read : parser.next = (.ok found, after)) :
    ∃ rest, readNext parser.dialect parser.unread = .ok (found, rest) ∧
      after = parser.resume rest :=
  advance_eq_ok (faithful.next_eq.symm.trans read)

end

end Parser

section
variable {dialect : Dialect} {text rest : List Char}

namespace Grammar

variable {ending : Ending} {progress : Progress} {tokens others after : List PlacedToken}
  {first : PlacedToken}

theorem after?_initial (tokens : List PlacedToken) :
    ∃ before reached, tokens = before ++ skipSeparators tokens ∧
      Progress.after? .initial before = some reached ∧
      Between [] reached (skipSeparators tokens) :=
  after?_skipSeparators (between_start [] tokens)

theorem tracks_firstChain (ending : Ending) (present : skipSeparators tokens = first :: others) :
    Tracks ending .initial tokens (andOr ending (first :: others)).outcome fun _ =>
      EndedChain [] := by
  obtain ⟨before, reached, whole, reaches, between⟩ := after?_initial tokens
  have separate := not_separator_of_skipSeparators present
  rw [present] at whole between
  refine .later whole reaches ?_
  rw [← between.kept]
  exact tracks_andOr (between.awaits separate fun _ => rfl)

private theorem refused_of_closeCommand {command : Command} {rejection : Rejection}
    (ended : EndedChain [] progress after)
    (close : closeCommand ending command after = .error rejection) :
    Refused ending progress after rejection := by
  rcases after with _ | ⟨next, later⟩
  · cases close
  · rw [closeCommand] at close
    split at close
    · cases close
    · rename_i goesOn
      cases close
      exact .unexpected (ended.stuck (Bool.not_eq_true _ ▸ goesOn) fun _ => rfl)

end Grammar

/-- A failure to read a command is a failure to read the tokens of the text. -/
theorem refused_of_readNext {rejection : Rejection}
    (read : readNext dialect text = .error rejection) :
    Grammar.Refused (readTokens dialect text).2 .initial (readTokens dialect text).1 rejection := by
  rw [readNext] at read
  cases present : Grammar.skipSeparators (readTokens dialect text).1 with
  | nil =>
    obtain ⟨before, reached, whole, reaches, -⟩ :=
      Grammar.after?_initial (readTokens dialect text).1
    refine .later whole reaches ?_
    rw [present] at read ⊢
    generalize (readTokens dialect text).2 = ending at read
    cases ending with
    | finished start => cases read
    | broken error start rest =>
      cases read
      exact .broken rfl rfl
  | cons first others =>
    rw [present, Grammar.firstCommand] at read
    have tracks := Grammar.tracks_firstChain (readTokens dialect text).2 present
    cases outcome : (Grammar.andOr (readTokens dialect text).2 (first :: others)).outcome with
    | error rejection' =>
      rw [outcome] at read
      cases read
      exact tracks.refused _ outcome
    | ok parsed =>
      obtain ⟨before, reached, whole, reaches, ended⟩ :=
        tracks.reaches parsed.1 parsed.2 outcome
      rw [outcome] at read
      exact .later whole reaches (Grammar.refused_of_closeCommand ended read)

/-- A failure to read a command stays inside the text. -/
theorem sound_of_readNext {rejection : Rejection}
    (read : readNext dialect text = .error rejection) :
    rejection.Sound text :=
  (refused_of_readNext read).sound

/-- Where no command is left there are only separators up to the end of the text. -/
theorem ends_of_readNext_none (read : readNext dialect text = .ok (none, rest)) :
    rest = [] ∧ Grammar.skipSeparators (readTokens dialect text).1 = [] ∧
      ∃ start, (readTokens dialect text).2 = .finished start := by
  unfold readNext at read
  cases present : Grammar.skipSeparators (readTokens dialect text).1 with
  | nil =>
    rw [present] at read
    obtain ⟨_, ended, same⟩ := Reading.exists_of_map_ok read
    cases same
    cases ending : (readTokens dialect text).2 with
    | finished start => exact ⟨rfl, rfl, start, rfl⟩
    | broken =>
      rw [ending] at ended
      cases ended
  | cons first others =>
    rw [present] at read
    obtain ⟨⟨command, after⟩, _, close⟩ := Reading.exists_of_bind_ok read
    cases (Grammar.closeCommand_eq_ok close).1

/-- How a command was read: it was the last one, or a separator stands before the rest. -/
theorem ends_of_readNext {command : Command}
    (read : readNext dialect text = .ok (some command, rest)) :
    ∃ first others after,
      Grammar.skipSeparators (readTokens dialect text).1 = first :: others ∧
      (Grammar.andOr (readTokens dialect text).2 (first :: others)).outcome = .ok (command, after) ∧
      Grammar.closeCommand (readTokens dialect text).2 command after =
        .ok (some command, rest) := by
  unfold readNext at read
  cases present : Grammar.skipSeparators (readTokens dialect text).1 with
  | nil =>
    rw [present] at read
    obtain ⟨_, _, same⟩ := Reading.exists_of_map_ok read
    cases same
  | cons first others =>
    rw [present] at read
    obtain ⟨⟨found, after⟩, outcome, close⟩ := Reading.exists_of_bind_ok read
    cases (Grammar.closeCommand_eq_ok close).1
    exact ⟨first, others, after, rfl, outcome, close⟩

theorem suffix_of_readNext {found : Option Command}
    (read : readNext dialect text = .ok (found, rest)) : rest <:+ text := by
  cases found with
  | none =>
    rw [(ends_of_readNext_none read).1]
    exact List.nil_suffix
  | some command =>
    obtain ⟨first, others, after, present, outcome, close⟩ := ends_of_readNext read
    have ahead := present ▸ Grammar.skipSeparators_suffix (readTokens dialect text).1
    have follows := (Reading.proper_of_outcome outcome).suffix.trans ahead
    obtain ⟨-, ⟨-, rfl⟩ | ⟨next, later, rfl, -, rfl⟩⟩ := Grammar.closeCommand_eq_ok close
    · exact List.nil_suffix
    · exact Grammar.suffix_of_resumption (Grammar.suffix_of_cons follows)

theorem length_lt_of_readNext {command : Command}
    (read : readNext dialect text = .ok (some command, rest)) : rest.length < text.length := by
  have next := (Parser.faithful_reading dialect text.length text).next_eq
  have same : (Parser.reading dialect text.length text).dialect = dialect := rfl
  rw [Parser.unread_reading, same, read] at next
  have shorter := Parser.length_unread_lt_of_next next
  rwa [Parser.unread_resume, Parser.unread_reading] at shorter

end

end PolicyShell
