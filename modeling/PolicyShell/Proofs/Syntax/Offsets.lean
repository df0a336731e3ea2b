import PolicyShell.Proofs.Syntax.Acceptance
import PolicyShell.Proofs.Syntax.Positions

/-! Where the errors of a text are: what stands at their offsets. -/
namespace PolicyShell

open Grammar

section
variable {dialect : Dialect} {length : Nat} {text rest : List Char}

/-- Reading a command goes on to the end of the text, or to a place where the next one may begin. -/
theorem reaches_of_readNext {command : Command}
    (read : readNext dialect text = .ok (some command, rest)) :
    (rest = [] ∧ ∃ reached, Progress.after? .initial (readTokens dialect text).1 = some reached ∧
      EndedChain [] reached []) ∨
    ∃ before later, (readTokens dialect text).1 = before ++ later ∧
      Progress.after? .initial before = some .initial ∧
      readTokens dialect rest = (later, (readTokens dialect text).2) := by
  obtain ⟨first, others, after, present, outcome, close⟩ := ends_of_readNext read
  obtain ⟨before, reached, whole, reaches, ended⟩ :=
    (tracks_firstChain (readTokens dialect text).2 present).reaches _ _ outcome
  obtain ⟨-, ⟨rfl, rfl⟩ | ⟨separator, later, rfl, separates, rfl⟩⟩ := closeCommand_eq_ok close
  · rw [List.append_nil] at whole
    exact .inl ⟨rfl, reached, whole ▸ reaches, ended⟩
  · have steps : reached.step? separator = some .initial := by
      rw [ended.leaves separator rfl]
      rcases separator with ⟨token, start⟩
      cases token <;> first | rfl | cases separates
    refine .inr ⟨before ++ [separator], later, by simp [whole], ?_, ?_⟩
    · refine Progress.after?_of_append rfl reaches ?_
      rw [Progress.after?_cons, steps]
      rfl
    · exact readTokens_resumption (whole ▸ List.suffix_append before _)

/-- A text is refused for the first of its tokens that cannot be read, or for the way it ends. -/
theorem refused_of_commands {text : List Char} {error : ParseError}
    (failed : (Parser.reading dialect length text).commands = .error error) :
    ∃ rejection, error = rejection.error.locate length ∧
      Refused (readTokens dialect text).2 .initial (readTokens dialect text).1 rejection := by
  rw [Parser.commands_reading] at failed
  split at failed
  · rename_i rejection next
    cases failed
    exact ⟨rejection, rfl, refused_of_readNext next⟩
  · cases failed
  · rename_i command rest next
    have := length_lt_of_readNext next
    have failed' : (Parser.reading dialect length rest).commands = .error error := by
      generalize (Parser.reading dialect length rest).commands = result at failed
      cases result with
      | error found => exact failed
      | ok => cases failed
    obtain ⟨rejection, same, refused⟩ := refused_of_commands failed'
    refine ⟨rejection, same, ?_⟩
    rcases reaches_of_readNext next with ⟨rfl, -⟩ | ⟨before, later, whole, reaches, again⟩
    · rw [Parser.commands_reading, readNext_nil] at failed'
      cases failed'
    · rw [again] at refused
      exact refused.later whole reaches
termination_by text.length

/-- All the tokens of a program can be read, and no group is open at the end. -/
theorem reaches_of_commands {text : List Char} {commands : List Command}
    (read : (Parser.reading dialect length text).commands = .ok commands) :
    ∃ reached, Progress.after? .initial (readTokens dialect text).1 = some reached ∧
      reached.stage.isComplete = true ∧ reached.groups = [] := by
  rw [Parser.commands_reading] at read
  split at read
  · cases read
  · rename_i next
    obtain ⟨before, reached, whole, reaches, between⟩ := after?_initial (readTokens dialect text).1
    rw [(ends_of_readNext_none next).2.1, List.append_nil] at whole
    exact ⟨reached, whole ▸ reaches, between.complete, between.kept⟩
  · rename_i command rest next
    have := length_lt_of_readNext next
    rcases reaches_of_readNext next with
      ⟨-, reached, reaches, ended⟩ | ⟨before, later, whole, reaches, again⟩
    · exact ⟨reached, reaches, ended.complete, ended.kept⟩
    · obtain ⟨others, read', -⟩ := Reading.exists_of_map_ok read
      obtain ⟨last, reaches', ends⟩ := reaches_of_commands read'
      rw [again] at reaches'
      exact ⟨last, Progress.after?_of_append whole reaches reaches', ends⟩
termination_by text.length

end

/-- A text is a program just when all its tokens can be read, the last of them may end a command,
and no group is open. -/
theorem isOk_parse_iff (dialect : Dialect) (text : String) :
    (parse dialect text).isOk ↔ (∃ start, (readTokens dialect text.toList).2 = .finished start) ∧
      ∃ reached, Progress.after? .initial (readTokens dialect text.toList).1 = some reached ∧
        reached.stage.isComplete = true ∧ reached.groups = [] := by
  have same : parse dialect text = (Parser.reading dialect text.length text.toList).commands := rfl
  constructor
  · intro parsed
    refine ⟨(readsAll_of_parse parsed).finished, ?_⟩
    rw [same] at parsed
    cases read : (Parser.reading dialect text.length text.toList).commands with
    | error error =>
      rw [read] at parsed
      cases parsed
    | ok commands => exact reaches_of_commands read
  · rintro ⟨⟨start, finished⟩, reached, reaches, complete, closed⟩
    rw [same]
    cases read : (Parser.reading dialect text.length text.toList).commands with
    | ok commands => rfl
    | error error =>
      obtain ⟨rejection, -, refused⟩ := refused_of_commands read
      cases refused with
      | outOfPlace whole reaches' stuck | arrayArgument whole reaches' stuck =>
        rw [Progress.after?_of_stuck whole reaches' stuck] at reaches
        cases reaches
      | broken ends =>
        rw [finished] at ends
        cases ends
      | endOfInput _ reaches' incomplete =>
        cases reaches.symm.trans reaches'
        rw [complete] at incomplete
        cases incomplete
      | unclosed _ reaches' =>
        cases reaches.symm.trans reaches'
        cases closed

/-- How a text begins at an operator that is refused. -/
inductive Operator.Begins : Operator → List Char → Prop where
  | doubleSemicolon (rest : List Char) : Begins .doubleSemicolon (';' :: ';' :: rest)
  | background {rest : List Char} (single : rest.head? ≠ some '&') :
      Begins .background ('&' :: rest)
  | pipe {rest : List Char} (single : rest.head? ≠ some '|') :
      Begins .pipe ('|' :: rest)
  | input (rest : List Char) : Begins .redirection ('<' :: rest)
  | output (rest : List Char) : Begins .redirection ('>' :: rest)

/-- How an error names a token. An array among arguments has a name of its own. -/
inductive Found.Names : Found → Token → Prop where
  | token (token : Token) : Names (.token token.describe) token
  | arrayArgument (name : String) (elements : List Word) :
      Names .arrayArgument (.assignment ⟨name, .array elements⟩)

/-- The reader comes to a place in a word, double-quoted or not. -/
def InWord (dialect : Dialect) (text place : List Char) : Prop :=
  Comes dialect text .word place ∨ Comes dialect text .doubleQuotes place

/-- What an error says of the text at its offset. Where a token is out of place and where a group is
not closed, this is where the token was looked for: blanks, comments and line continuations may
come first. All other offsets are exact, except that line continuations may come before a character
with which no element can begin. -/
inductive Points (dialect : Dialect) (text : List Char) : ParseError → Prop where
  /-- The first token with which reading cannot go on. -/
  | token {before after : List PlacedToken} {token : Token} {reached : Progress} {found : Found}
      {place rest : List Char} {offset : Nat} (here : text.drop offset = place)
      (whole : (readTokens dialect text).1 = before ++ ⟨token, place⟩ :: after)
      (reaches : Progress.after? .initial before = some reached)
      (stuck : reached.step? ⟨token, place⟩ = none) (names : found.Names token)
      (begins : Token.scanHere dialect (skipBlanks place) = ⟨.ok (some token), rest⟩) :
      Points dialect text (.unexpected found offset)
  | endOfInput {start : List Char} {reached : Progress}
      (ends : (readTokens dialect text).2 = .finished start)
      (reaches : Progress.after? .initial (readTokens dialect text).1 = some reached)
      (incomplete : reached.stage.isComplete = false) :
      Points dialect text (.unexpected .endOfInput text.length)
  | element {opening place rest : List Char} {c : Char} {count offset : Nat}
      (here : text.drop offset = place) (comes : Comes dialect text (.elements opening) place)
      (noGap : Word.BeginsElement place) (begins : place = continuations count ++ c :: rest)
      (ends : Piece.endsWord c = true) :
      Points dialect text (.unexpected (.char c) offset)
  | lastElement {opening place : List Char} {count offset : Nat} (here : text.drop offset = place)
      (comes : Comes dialect text (.elements opening) place)
      (begins : place = continuations (count + 1)) :
      Points dialect text (.unexpected .endOfInput offset)
  | singleQuote {inner : List Char} {offset : Nat} (here : text.drop offset = '\'' :: inner)
      (comes : Comes dialect text .word ('\'' :: inner)) (unclosed : '\'' ∉ inner) :
      Points dialect text (.unterminated .singleQuote offset)
  | doubleQuote {inner : List Char} {pieces : List Piece} {offset : Nat}
      (here : text.drop offset = '"' :: inner) (comes : Comes dialect text .word ('"' :: inner))
      (unclosed : Steps Piece.QuotedStep inner pieces []) :
      Points dialect text (.unterminated .doubleQuote offset)
  | braceExpansion {inner : List Char} {offset : Nat}
      (here : text.drop offset = '$' :: '{' :: inner)
      (comes : InWord dialect text ('$' :: '{' :: inner)) (unclosed : '}' ∉ inner) :
      Points dialect text (.unterminated .braceExpansion offset)
  | arrayLiteral {place inside : List Char} {name : String} {offset : Nat}
      (here : text.drop offset = place)
      (begins : Token.assignedName? place = some (name, '(' :: inside))
      (unclosed : Comes dialect text (.elements place) []) :
      Points dialect text (.unterminated .arrayLiteral offset)
  /-- The innermost of the groups that are not closed. -/
  | braceGroup {start place rest : List Char} {stage : Stage} {outer : List (List Char)}
      {offset : Nat} (here : text.drop offset = place)
      (ends : (readTokens dialect text).2 = .finished start)
      (unclosed : Progress.after? .initial (readTokens dialect text).1 =
        some ⟨stage, place :: outer⟩)
      (begins : skipBlanks place = '{' :: rest) :
      Points dialect text (.unterminated .braceGroup offset)
  | operator {place : List Char} {operator : Operator} {offset : Nat}
      (here : text.drop offset = skipBlanks place) (comes : Comes dialect text .tokens place)
      (begins : operator.Begins (skipBlanks place)) :
      Points dialect text (.unsupported operator offset)
  | backquote {rest : List Char} {offset : Nat} (here : text.drop offset = '`' :: rest)
      (comes : InWord dialect text ('`' :: rest)) :
      Points dialect text (.unsupported .backquote offset)
  | commandSubstitution {rest : List Char} {offset : Nat}
      (here : text.drop offset = '$' :: '(' :: rest)
      (comes : InWord dialect text ('$' :: '(' :: rest)) :
      Points dialect text (.unsupported .commandSubstitution offset)
  | badSubstitution {content rest : List Char}
      (comes : InWord dialect text ('$' :: '{' :: (content ++ '}' :: rest)))
      (closed : '}' ∉ content) : Points dialect text (.badSubstitution (String.ofList content))

section
variable {dialect : Dialect} {text place : List Char}

/-- The offset of a place at the end of a text. -/
theorem drop_of_suffix (suffix : place <:+ text) :
    text.drop (text.length - place.length) = place :=
  (List.suffix_iff_eq_drop.mp suffix).symm

private theorem InWord.suffix (comes : InWord dialect text place) : place <:+ text :=
  comes.elim Comes.suffix Comes.suffix

/-- What is wrong at a dollar sign or a backquote. -/
theorem points_of_reference {quoted : Bool} {error : ParseError}
    (comes : InWord dialect text place) (fault : Reference.Fault quoted place error) :
    Points dialect text (error.locate text.length) := by
  have here := drop_of_suffix comes.suffix
  cases fault with
  | backquote => exact .backquote here comes
  | braceExpansion unclosed => exact .braceExpansion here comes unclosed
  | commandSubstitution => exact .commandSubstitution here comes
  | badSubstitution rest closed => exact .badSubstitution comes closed

theorem points_of_fault {error : ParseError} (comes : Comes dialect text .word place)
    (fault : Piece.Fault place error) : Points dialect text (error.locate text.length) := by
  have here := drop_of_suffix comes.suffix
  cases fault with
  | singleQuote unclosed => exact .singleQuote here comes unclosed
  | doubleQuote inside => exact .doubleQuote here comes inside
  | quoted inside fault => exact points_of_reference (.inr (.doubleQuotes comes inside)) fault
  | unquoted fault => exact points_of_reference (.inl comes) fault

/-- A word that cannot be read is no splice; something is wrong in it, or it is empty. -/
theorem Word.fault_of_scan {error : ParseError} {rest : List Char}
    (read : scan dialect text = ⟨.error error, rest⟩) :
    splice? dialect text = none ∧
      ((∃ pieces place, Steps Piece.Step text pieces place ∧ Piece.Fault place error) ∨
        ∃ count, text = continuations count ++ rest ∧ atWordEnd rest = true ∧
          error = .unexpected ((rest.head?.map .char).getD .endOfInput) text.length) := by
  cases found : splice? dialect text with
  | some splice =>
    rw [scan, found] at read
    cases read
  | none =>
    refine ⟨rfl, ?_⟩
    obtain ⟨pieces, place, steps, ends | ⟨error', fault⟩⟩ := Piece.exists_steps text
    · rw [scan_of_steps found steps ends] at read
      cases pieces with
      | nil =>
        obtain ⟨count, whole⟩ := Piece.exists_continuations steps rfl
        cases read
        exact .inr ⟨count, whole, ends, rfl⟩
      | cons => cases read
    · obtain ⟨_, failed⟩ := scan_of_fault found steps fault
      rw [failed] at read
      cases read
      exact .inl ⟨pieces, place, steps, fault⟩

private theorem points_of_element {opening rest : List Char} {error : ParseError}
    (comes : Comes dialect text (.elements opening) place) (begins : Word.BeginsElement place)
    (read : Word.scan dialect place = ⟨.error error, rest⟩) :
    Points dialect text (error.locate text.length) := by
  obtain ⟨noSplice, ⟨pieces, spot, steps, fault⟩ | ⟨count, whole, ends, rfl⟩⟩ :=
    Word.fault_of_scan read
  · exact points_of_fault (.element comes begins noSplice steps) fault
  · have here := drop_of_suffix comes.suffix
    cases rest with
    | cons c rest => exact .element here comes begins whole ends
    | nil =>
      rw [List.append_nil] at whole
      cases count with
      | zero =>
        obtain ⟨c, inner, same, -⟩ := begins
        cases whole.symm.trans same
      | succ count => exact .lastElement here comes whole

/-- Where blanks were dropped there are no more. -/
theorem not_blank_of_skipBlanks {c : Char} {rest : List Char}
    (same : skipBlanks text = c :: rest) :
    c ≠ ' ' ∧ c ≠ '\t' ∧ (c = '\\' → rest.head? ≠ some '\n') := by
  fun_induction skipBlanks text with
  | case1 _ ih => exact ih same
  | case2 _ ih => exact ih same
  | case3 _ ih => exact ih same
  | case4 comment =>
    have stops := List.head?_dropWhile_not (· != '\n') comment
    rw [same] at stops
    obtain rfl : c = '\n' := by simpa using stops
    exact ⟨by decide, by decide, fun same => absurd same (by decide)⟩
  | case5 text space tab continued _ =>
    subst same
    refine ⟨?_, ?_, ?_⟩
    · rintro rfl
      exact space rest rfl
    · rintro rfl
      exact tab rest rfl
    · rintro rfl newline
      obtain ⟨after, rfl⟩ := List.head?_eq_some_iff.mp newline
      exact continued after rfl

/-- Where a token begins and no punctuation is, there is something of a word. -/
theorem not_ended_of_skipBlanks {count : Nat} {rest : List Char}
    (begins : Begins (Token.isPunctuation · = false) (skipBlanks text))
    (whole : skipBlanks text = continuations count ++ rest) : atWordEnd rest = false := by
  cases count with
  | zero =>
    obtain ⟨c, inner, same, other⟩ := begins
    obtain rfl : rest = c :: inner := whole.symm.trans same
    obtain ⟨space, tab, -⟩ := not_blank_of_skipBlanks same
    show Piece.endsWord c = false
    simp_all [Token.isPunctuation, Piece.endsWord]
  | succ count => exact absurd rfl ((not_blank_of_skipBlanks whole).2.2 rfl)

variable {rest : List Char} {error : ParseError}

private theorem points_of_scanWord (comes : Comes dialect text .tokens place)
    (begins : Begins (Token.isPunctuation · = false) (skipBlanks place))
    (read : Token.scanWord dialect (skipBlanks place) = ⟨.error error, rest⟩) :
    Points dialect text (error.locate text.length) := by
  have here := drop_of_suffix ((skipBlanks_suffix place).trans comes.suffix)
  cases named : Token.assignedName? (skipBlanks place) with
  | none =>
    rw [Token.scanWord_other named] at read
    cases brace : Token.loneBrace? (skipBlanks place) with
    | some found =>
      rw [brace] at read
      cases read
    | none =>
      rw [brace] at read
      obtain ⟨noSplice, ⟨pieces, spot, steps, fault⟩ | ⟨count, whole, ends, -⟩⟩ :=
        Word.fault_of_scan (Scanned.eq_of_map_eq_error read)
      · exact points_of_fault (.word comes (.word begins named brace noSplice) steps) fault
      · rw [not_ended_of_skipBlanks begins whole] at ends
        cases ends
  | some assigned =>
    obtain ⟨name, value⟩ := assigned
    by_cases array : value.head? = some '('
    · obtain ⟨inside, rfl⟩ := List.head?_eq_some_iff.mp array
      rw [Token.scanWord_array named] at read
      have failed := Scanned.eq_of_map_eq_error read
      obtain ⟨words, spot, steps, rfl | ⟨after, rfl⟩ | ⟨first, error', after, fault⟩⟩ :=
        Word.exists_elementSteps dialect inside
      · rw [Word.scanElements_steps steps, Word.scanElements] at failed
        cases failed
        exact .arrayLiteral here named (.elements comes named steps)
      · rw [Word.scanElements_eq_ok_iff.mpr steps] at failed
        cases failed
      · rw [Word.scanElements_steps steps, Word.scanElements_fault first fault] at failed
        cases failed
        exact points_of_element (.elements comes named steps) first fault
    · rw [Token.scanWord_scalar named array] at read
      obtain ⟨pieces, spot, steps, fault⟩ :=
        Piece.steps_of_scan_error (Scanned.eq_of_map_eq_error read)
      exact points_of_fault (.word comes (.value named array) steps) fault

/-- Where no token can be read there is an operator that is refused, or a word is at fault. -/
theorem Token.refused_or_word {text : List Char}
    (read : scanHere dialect text = ⟨.error error, rest⟩) :
    (∃ operator : Operator, operator.Begins text ∧ error = .unsupported operator text.length) ∨
      Begins (isPunctuation · = false) text ∧ scanWord dialect text = ⟨.error error, rest⟩ := by
  revert read
  fun_cases scanHere dialect text
  case case3 rest =>
    rintro ⟨⟩
    exact .inl ⟨_, .doubleSemicolon rest, rfl⟩
  case case6 rest single =>
    rintro ⟨⟩
    refine .inl ⟨_, .background fun same => ?_, rfl⟩
    obtain ⟨after, rfl⟩ := List.head?_eq_some_iff.mp same
    exact single after rfl
  case case8 rest single =>
    rintro ⟨⟩
    refine .inl ⟨_, .pipe fun same => ?_, rfl⟩
    obtain ⟨after, rfl⟩ := List.head?_eq_some_iff.mp same
    exact single after rfl
  case case11 rest =>
    rintro ⟨⟩
    exact .inl ⟨_, .input rest, rfl⟩
  case case12 rest =>
    rintro ⟨⟩
    exact .inl ⟨_, .output rest, rfl⟩
  case case13 present newline _ semicolon _ background _ pipe left right less greater =>
    intro read
    cases text with
    | nil => exact absurd rfl present
    | cons c inner =>
      have other := not_isPunctuation_of_other newline semicolon background pipe left right less
        greater
      exact .inr ⟨⟨c, inner, rfl, other⟩, Scanned.eq_of_map_eq_error read⟩
  all_goals
    intro read
    cases read

private theorem points_of_scan (comes : Comes dialect text .tokens place)
    (read : Token.scan dialect place = ⟨.error error, rest⟩) :
    Points dialect text (error.locate text.length) := by
  rcases Token.refused_or_word read with ⟨operator, begins, rfl⟩ | ⟨begins, failed⟩
  · have here := drop_of_suffix ((skipBlanks_suffix place).trans comes.suffix)
    exact .operator here comes begins
  · exact points_of_scanWord comes begins failed

end

section
variable {dialect : Dialect} {text : List Char} {error : ParseError}

private theorem points_of_broken {start rest : List Char}
    (ends : (readTokens dialect text).2 = .broken error start rest) :
    Points dialect text (error.locate text.length) := by
  have broken : (∃ tokens, Steps (Token.Step dialect) text tokens start) ∧
      Token.scan dialect start = ⟨.error error, rest⟩ := by
    fun_induction readTokens dialect text with
    | case1 text found after read =>
      cases ends
      exact ⟨⟨[], .done _⟩, read⟩
    | case2 => cases ends
    | case3 text token after read _ tokens ending same ih =>
      rw [same] at ih
      obtain ⟨⟨later, steps⟩, failed⟩ := ih ends
      exact ⟨⟨[token] ++ later, .more (.read read) steps⟩, failed⟩
  obtain ⟨⟨tokens, steps⟩, failed⟩ := broken
  exact points_of_scan (.token steps) failed

/-- A token was read from the place where it was looked for. -/
theorem scan_of_mem {next : PlacedToken} (member : next ∈ (readTokens dialect text).1) :
    next.start <:+ text ∧
      ∃ rest, Token.scanHere dialect (skipBlanks next.start) = ⟨.ok (some next.token), rest⟩ := by
  refine ⟨suffix_of_starts (List.mem_append_left _ (List.mem_map_of_mem member)), ?_⟩
  fun_induction readTokens dialect text with
  | case1 => cases member
  | case2 => cases member
  | case3 text token rest read _ tokens ending same ih =>
    rw [same] at ih
    rcases List.mem_cons.mp member with rfl | later
    · exact ⟨rest, read⟩
    · exact ih later

theorem points_of_stuck {before after : List PlacedToken} {next : PlacedToken} {found : Found}
    {reached : Progress} (whole : (readTokens dialect text).1 = before ++ next :: after)
    (reaches : Progress.after? .initial before = some reached) (stuck : reached.step? next = none)
    (names : found.Names next.token) :
    Points dialect text ((ParseError.unexpected found next.start.length).locate text.length) := by
  obtain ⟨suffix, rest, read⟩ := scan_of_mem (whole ▸ List.mem_append_cons_self)
  exact .token (drop_of_suffix suffix) whole reaches stuck names read

/-- An opening brace is read from one. -/
theorem Token.brace_of_scanHere {text rest : List Char}
    (read : scanHere dialect text = ⟨.ok (some .leftBrace), rest⟩) :
    ∃ inner, text = '{' :: inner := by
  revert read
  fun_cases scanHere dialect text
  case case13 =>
    intro read
    obtain ⟨token, read, ⟨⟩⟩ := Scanned.eq_of_map_eq_ok read
    unfold scanWord at read
    split at read
    · obtain ⟨_, _, ⟨⟩⟩ := Scanned.eq_of_map_eq_ok read
    · obtain ⟨_, _, ⟨⟩⟩ := Scanned.eq_of_map_eq_ok read
    · split at read
      · exact ⟨_, rfl⟩
      · split at read
        · cases read
        · obtain ⟨_, _, ⟨⟩⟩ := Scanned.eq_of_map_eq_ok read
      · obtain ⟨_, _, ⟨⟩⟩ := Scanned.eq_of_map_eq_ok read
  all_goals
    intro read
    cases read

private theorem points_of_refused {rejection : Rejection}
    (refused : Refused (readTokens dialect text).2 .initial (readTokens dialect text).1 rejection) :
    Points dialect text (rejection.error.locate text.length) := by
  cases refused with
  | outOfPlace whole reaches stuck => exact points_of_stuck whole reaches stuck (.token _)
  | arrayArgument whole reaches stuck =>
    exact points_of_stuck whole reaches stuck (.arrayArgument _ _)
  | broken ends => exact points_of_broken ends
  | endOfInput ends reaches incomplete => exact .endOfInput ends reaches incomplete
  | unclosed ends reaches =>
    rcases Progress.brace_of_after? reaches (List.mem_cons_self ..) with outside | member
    · cases outside
    · obtain ⟨suffix, rest, read⟩ := scan_of_mem member
      obtain ⟨inner, begins⟩ := Token.brace_of_scanHere read
      exact .braceGroup (drop_of_suffix suffix) ends reaches begins

end

/-- Every error of reading a program points at what it is about, in this way. -/
theorem points_of_parse {dialect : Dialect} {text : String} {error : ParseError}
    (failed : parse dialect text = .error error) : Points dialect text.toList error := by
  obtain ⟨rejection, rfl, refused⟩ := refused_of_commands failed
  exact points_of_refused refused

theorem points_of_parse_stray :
    parse .splicing "\x7b a\n(" = .error (.unexpected (.token "`(`") 4) ∧
      Points .splicing "\x7b a\n(".toList (.unexpected (.token "`(`") 4) := by
  have failed : parse .splicing "\x7b a\n(" = .error (.unexpected (.token "`(`") 4) := by
    decide +kernel
  exact ⟨failed, points_of_parse failed⟩

/-- Blanks in front of it are taken for a stray parenthesis, or for the brace of an open group. -/
theorem points_at_blanks :
    parse {} "echo a )" = .error (.unexpected (.token "`)`") 6) ∧
      "echo a )".toList.drop 6 = [' ', ')'] ∧
      parse {} "a; \x7b b" = .error (.unterminated .braceGroup 2) ∧
      "a; \x7b b".toList.drop 2 = [' ', '{', ' ', 'b'] := by
  decide +kernel

end PolicyShell
