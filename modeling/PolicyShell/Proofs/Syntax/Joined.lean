import PolicyShell.Proofs.Syntax.Continuation
import PolicyShell.Proofs.Syntax.DialectCommands
import PolicyShell.Proofs.Syntax.Next

/-! Texts that are read to their end, and what follows them on further lines. -/
namespace PolicyShell

/-- A text of which every command can be read. -/
inductive ReadsAll (dialect : Dialect) : List Char → Prop where
  | done {text : List Char} (read : readNext dialect text = .ok (none, [])) : ReadsAll dialect text
  | more {text rest : List Char} {command : Command}
      (read : readNext dialect text = .ok (some command, rest)) (later : ReadsAll dialect rest) :
      ReadsAll dialect text

variable {dialect : Dialect} {text rest : List Char}

private theorem readsAll_of_commands {parser : Parser} (faithful : parser.Faithful)
    {commands : List Command}
    (read : parser.commands = .ok commands) : ReadsAll parser.dialect parser.unread := by
  fun_induction Parser.commands parser generalizing commands with
  | case1 => cases read
  | case2 parser after next =>
    obtain ⟨rest, found, _⟩ := faithful.readNext_of_next next
    exact .done ((ends_of_readNext_none found).1 ▸ found)
  | case3 parser first after next _ ih =>
    obtain ⟨rest, found, rfl⟩ := faithful.readNext_of_next next
    cases later : (parser.resume rest).commands with
    | error error => simp [later, Except.map] at read
    | ok others =>
      have whole := ih (Parser.faithful_resume parser rest) later
      rw [Parser.unread_resume] at whole
      exact .more found whole

theorem readsAll_of_parse {text : String} (parsed : (parse dialect text).isOk) :
    ReadsAll dialect text.toList := by
  unfold parse at parsed
  cases read : (Parser.ofText dialect text).commands with
  | error error => rw [read] at parsed; cases parsed
  | ok commands =>
    have faithful : (Parser.ofText dialect text).Faithful := Parser.faithful_reading ..
    have whole := readsAll_of_commands faithful read
    rwa [Parser.unread_ofText] at whole

theorem Dialect.eq_plain_or_splicing (dialect : Dialect) :
    dialect = .plain ∨ dialect = .splicing := by
  rcases dialect with ⟨_ | _⟩
  · exact .inl rfl
  · exact .inr rfl

theorem readNext_splicing {found : Option Command}
    (read : readNext .plain text = .ok (found, rest)) :
    ∃ found', readNext .splicing text = .ok (found', rest) ∧
      Option.Rel Command.Becomes found found' := by
  have both := both_readNext text
  rw [read] at both
  obtain ⟨⟨found', rest'⟩, other, same, rfl⟩ := both.exists_right
  exact ⟨found', other, same⟩

theorem readNext_plain {found : Option Command}
    (read : readNext .splicing text = .ok (found, rest)) :
    ∃ found', readNext .plain text = .ok (found', rest) ∧
      Option.Rel Command.Becomes found' found := by
  have both := both_readNext text
  rw [read] at both
  obtain ⟨⟨found', rest'⟩, other, same, rfl⟩ := both.exists_left
  exact ⟨found', other, same⟩

/-- Whether a text can be read to its end does not depend on the dialect. -/
theorem readsAll_iff (text : List Char) : ReadsAll .plain text ↔ ReadsAll .splicing text := by
  constructor
  · intro reads
    induction reads with
    | done read =>
      obtain ⟨_, read', same⟩ := readNext_splicing read
      cases same
      exact .done read'
    | more read later ih =>
      obtain ⟨_, read', same⟩ := readNext_splicing read
      cases same
      exact .more read' ih
  · intro reads
    induction reads with
    | done read =>
      obtain ⟨_, read', same⟩ := readNext_plain read
      cases same
      exact .done read'
    | more read later ih =>
      obtain ⟨_, read', same⟩ := readNext_plain read
      cases same
      exact .more read' ih

theorem ReadsAll.any (reads : ReadsAll dialect text) (other : Dialect) : ReadsAll other text := by
  rcases dialect.eq_plain_or_splicing with rfl | rfl <;>
    rcases other.eq_plain_or_splicing with rfl | rfl
  · exact reads
  · exact (readsAll_iff text).mp reads
  · exact (readsAll_iff text).mpr reads
  · exact reads

namespace Grammar

/-- Only at the end of the text nothing is left after a command. -/
theorem finished_of_chain {ending : Ending} {left command : Command} {tokens : List PlacedToken}
    (read : (chain ending left tokens).outcome = .ok (command, [])) :
    ∃ start, ending = .finished start := by
  cases tokens with
  | nil =>
    rw [outcome_chain_nil] at read
    cases ending with
    | finished start => exact ⟨start, rfl⟩
    | broken => cases read
  | cons next rest =>
    rw [outcome_chain_cons] at read
    split at read
    · cases read
    · obtain ⟨⟨right, after⟩, found, later⟩ := Reading.exists_of_bind_ok read
      have := (Reading.proper_of_outcome found).shorter
      have := (skipNewlines_suffix rest).length_le
      exact finished_of_chain later
termination_by tokens.length
decreasing_by subst_vars; simp only [List.length_cons]; omega

theorem finished_of_andOr {ending : Ending} {command : Command} {tokens : List PlacedToken}
    (read : (andOr ending tokens).outcome = .ok (command, [])) :
    ∃ start, ending = .finished start := by
  rw [outcome_andOr] at read
  obtain ⟨_, _, later⟩ := Reading.exists_of_bind_ok read
  exact finished_of_chain later

end Grammar

/-- A text that can be read to its end has no broken token. -/
theorem ReadsAll.finished (reads : ReadsAll dialect text) :
    ∃ start, (readTokens dialect text).2 = .finished start := by
  induction reads with
  | done read => exact (ends_of_readNext_none read).2.2
  | @more text rest command read later ih =>
    obtain ⟨first, others, after, present, outcome, close⟩ := ends_of_readNext read
    obtain ⟨-, ⟨rfl, -⟩ | ⟨next, after, rfl, -, rfl⟩⟩ := Grammar.closeCommand_eq_ok close
    · exact Grammar.finished_of_andOr outcome
    · have suffix : after <:+ (readTokens dialect text).1 := by
        have follows := (Reading.proper_of_outcome outcome).suffix
        rw [← present] at follows
        exact Grammar.suffix_of_cons (follows.trans (Grammar.skipSeparators_suffix _))
      have here : (starts after (readTokens dialect text).2).head? =
          some (Grammar.resumption (readTokens dialect text).2 after) := by
        cases after <;> rfl
      rw [TokenStream.readTokens_of_suffix suffix here] at ih
      exact ih

namespace Grammar

variable {more place start : List Char} {later tokens : List PlacedToken} {ending : Ending}

private theorem skipSeparators_lengthen_of_nil (separators : skipSeparators tokens = []) :
    skipSeparators (lengthen more place later tokens) = skipSeparators later := by
  induction tokens with
  | nil => rfl
  | cons first rest ih =>
    rw [skipSeparators, List.dropWhile_cons] at separators
    split at separators
    · rename_i separates
      rcases first with ⟨token, place'⟩
      rw [lengthen_cons, skipSeparators, List.dropWhile_cons, if_pos separates]
      exact ih separators
    · cases separators

private theorem resumption_lengthen (tokens : List PlacedToken) :
    resumption ending (lengthen more (start ++ more) later tokens) =
      resumption (.finished start) tokens ++ more := by
  cases tokens <;> rfl

private theorem firstCommand_lengthen {first : PlacedToken} {others left : List PlacedToken}
    {command : Command}
    (read : (andOr (.finished start) (first :: others)).outcome = .ok (command, left)) :
    firstCommand ending (lengthen more place later (first :: others)) =
      closeCommand ending command (lengthen more place later left) := by
  have extended : Extends more place later (andOr (.finished start) (first :: others)).outcome
      (andOr ending (lengthen more place later (first :: others))).outcome :=
    extends_andOr (first :: others)
  have whole := extended.read command left read
  rcases first with ⟨token, place'⟩
  rw [lengthen_cons] at whole ⊢
  rw [firstCommand, whole]
  rfl

end Grammar

private theorem resumption_readTokens (dialect : Dialect) (text : List Char) :
    Grammar.resumption (readTokens dialect text).2 (readTokens dialect text).1 = text := by
  have head := TokenStream.starts_readTokens dialect text
  cases tokens : (readTokens dialect text).1 with
  | nil => simpa [tokens, starts, Grammar.resumption] using head
  | cons first rest => simpa [tokens, starts, Grammar.resumption] using head

/-- What is left to read if another line follows a text of which `rest` is left. The end of the
line may have been read as the separator after the last command. -/
def Joins (after rest joined : List Char) : Prop :=
  joined = rest ++ '\n' :: after ∨ rest = [] ∧ joined = after

section
variable {command : Command} {joined : List Char} (sealedText : Sealed text)
  (reads : ReadsAll dialect text) (after : List Char)

include sealedText reads

theorem readTokens_lengthen :
    ∃ start, (readTokens dialect text).2 = .finished start ∧
      readTokens dialect (text ++ '\n' :: after) =
        (Grammar.lengthen ('\n' :: after) (start ++ '\n' :: after) (readTokens dialect after).1
          (readTokens dialect text).1, (readTokens dialect after).2) := by
  obtain ⟨start, finished⟩ := reads.finished
  exact ⟨start, finished, readTokens_line sealedText (Prod.ext rfl finished) after⟩

private theorem readNext_line (read : readNext dialect text = .ok (some command, rest)) :
    ∃ joined, readNext dialect (text ++ '\n' :: after) = .ok (some command, joined) ∧
      Joins after rest joined := by
  obtain ⟨start, finished, longer⟩ := readTokens_lengthen sealedText reads after
  obtain ⟨first, others, left, present, outcome, close⟩ := ends_of_readNext read
  rw [finished] at outcome close
  have whole : readNext dialect (text ++ '\n' :: after) =
      Grammar.closeCommand (readTokens dialect after).2 command
        (Grammar.lengthen ('\n' :: after) (start ++ '\n' :: after) (readTokens dialect after).1
          left) := by
    unfold readNext
    rw [longer]
    dsimp only
    rw [Grammar.skipSeparators_lengthen present, Grammar.firstCommand_lengthen outcome]
  rw [whole]
  obtain ⟨-, ⟨rfl, rfl⟩ | ⟨⟨token, place⟩, later, rfl, separates, rfl⟩⟩ :=
    Grammar.closeCommand_eq_ok close
  · -- the end of the line is the separator behind the last command
    refine ⟨after, ?_, .inr ⟨rfl, rfl⟩⟩
    have separates : Token.newline.isSeparator = true := rfl
    rw [Grammar.lengthen_nil, Grammar.closeCommand, if_pos separates, resumption_readTokens]
  · rw [Grammar.lengthen_cons, Grammar.closeCommand, if_pos separates]
    exact ⟨_, rfl, .inl (Grammar.resumption_lengthen later)⟩

private theorem readNext_line_of_none (read : readNext dialect text = .ok (none, rest)) :
    readNext dialect (text ++ '\n' :: after) = readNext dialect after := by
  obtain ⟨start, finished, longer⟩ := readTokens_lengthen sealedText reads after
  obtain ⟨_, separators, _⟩ := ends_of_readNext_none read
  unfold readNext
  rw [longer]
  dsimp only
  have skipped : Grammar.skipSeparators (Grammar.lengthen ('\n' :: after) (start ++ '\n' :: after)
      (readTokens dialect after).1 (readTokens dialect text).1) =
      Grammar.skipSeparators (readTokens dialect after).1 :=
    Grammar.skipSeparators_lengthen_of_nil separators
  rw [skipped]

end

theorem readNext_nil (dialect : Dialect) : readNext dialect [] = .ok (none, []) := by
  have nothing : readTokens dialect [] = ([], .finished []) := readTokens_of_none rfl
  rw [readNext, nothing]
  rfl

section
variable {joined after : List Char} (joins : Joins after text joined) (sealedText : Sealed text)
  (reads : ReadsAll dialect text)

include joins sealedText reads

/-- A command at the beginning of joined texts is that of the first one. -/
theorem Joins.readNext_some {command : Command}
    (read : readNext dialect text = .ok (some command, rest)) :
    ∃ joined', readNext dialect joined = .ok (some command, joined') ∧
      Joins after rest joined' := by
  rcases joins with rfl | ⟨rfl, rfl⟩
  · exact readNext_line sealedText reads after read
  · rw [readNext_nil] at read
    cases read

/-- Where the first text has no more commands, the second one goes on. -/
theorem Joins.readNext_none (read : readNext dialect text = .ok (none, rest)) :
    readNext dialect joined = readNext dialect after := by
  rcases joins with rfl | ⟨rfl, rfl⟩
  · exact readNext_line_of_none sealedText reads after read
  · rfl

end

end PolicyShell
