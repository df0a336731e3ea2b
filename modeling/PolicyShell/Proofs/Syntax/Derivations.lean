import Mathlib.Data.List.TakeWhile
import PolicyShell.Proofs.Syntax.Rules

/-! Reading commands from tokens is deriving them by the rules of the grammar. -/
namespace PolicyShell.Grammar

/-- Tokens without their places. -/
def bare (tokens : List PlacedToken) : List Token := tokens.map PlacedToken.token

@[simp] theorem bare_nil : bare [] = [] := rfl

@[simp] theorem bare_cons (first : PlacedToken) (rest : List PlacedToken) :
    bare (first :: rest) = first.token :: bare rest := rfl

theorem exists_of_bare_cons {token : Token} {rest : List Token} {placed : List PlacedToken}
    (same : bare placed = token :: rest) :
    ∃ place later, placed = ⟨token, place⟩ :: later ∧ bare later = rest := by
  obtain ⟨⟨_, place⟩, later, rfl, rfl, whole⟩ := List.map_eq_cons_iff.mp same
  exact ⟨place, later, rfl, whole⟩

theorem bare_skipSeparators (tokens : List PlacedToken) :
    bare (skipSeparators tokens) = (bare tokens).dropWhile Token.isSeparator := by
  rw [bare, bare, skipSeparators, List.dropWhile_map]
  rfl

theorem bare_skipNewlines (tokens : List PlacedToken) :
    bare (skipNewlines tokens) = (bare tokens).dropWhile (· == .newline) := by
  rw [bare, bare, skipNewlines, List.dropWhile_map]
  rfl

section
variable {ending : Ending} {tokens rest : List PlacedToken}

theorem exists_separators (tokens : List PlacedToken) :
    ∃ leading, AllSeparators leading ∧ bare tokens = leading ++ bare (skipSeparators tokens) := by
  refine ⟨(bare tokens).takeWhile Token.isSeparator, fun token member => ?_, ?_⟩
  · exact List.mem_takeWhile_imp member
  · rw [bare_skipSeparators, List.takeWhile_append_dropWhile]

private theorem exists_newlines (tokens : List PlacedToken) :
    ∃ leading, AllNewlines leading ∧ bare tokens = leading ++ bare (skipNewlines tokens) := by
  refine ⟨(bare tokens).takeWhile (· == .newline), fun token member => ?_, ?_⟩
  · simpa using List.mem_takeWhile_imp member
  · rw [bare_skipNewlines, List.takeWhile_append_dropWhile]

theorem atEnd_eq_ok {α : Type} {value found : α} (read : atEnd ending value = .ok (found, rest)) :
    found = value ∧ rest = [] := by
  cases ending with
  | finished start => cases read; exact ⟨rfl, rfl⟩
  | broken => cases read

theorem isArguments_of_arguments {words : List Word}
    (read : (arguments ending tokens).outcome = .ok (words, rest)) :
    IsArguments words (bare tokens) (bare rest) := by
  induction tokens generalizing words with
  | nil =>
    rw [outcome_arguments_nil] at read
    obtain ⟨rfl, rfl⟩ := atEnd_eq_ok read
    exact .ended nofun
  | cons next others ih =>
    rw [outcome_arguments_cons] at read
    split at read
    · rename_i isWord
      obtain ⟨⟨later, after⟩, found, same⟩ := Reading.exists_of_map_ok read
      cases same
      exact .argument isWord (ih found)
    · cases read
    · rename_i stops _
      cases read
      exact .ended (by simpa using stops)

private theorem bare_leadingAssignments (tokens : List PlacedToken) :
    bare tokens =
      (leadingAssignments tokens).1.map .assignment ++ bare (leadingAssignments tokens).2 := by
  fun_induction leadingAssignments tokens with
  | case1 assigned start rest assignments after same ih =>
    rw [same] at ih
    simpa using ih
  | case2 => rfl

private theorem isSimple_of_words {assigned : Assignment} {found : List Word}
    (read : (words ending (leadingAssignments tokens).2).outcome = .ok (found, rest)) :
    IsSimple (.simple (assigned :: (leadingAssignments tokens).1) found)
      (.assignment assigned :: bare tokens) (bare rest) := by
  rw [bare_leadingAssignments]
  generalize (leadingAssignments tokens).2 = after at read
  generalize (leadingAssignments tokens).1 = others
  cases after with
  | nil =>
    rw [outcome_words_nil] at read
    obtain ⟨rfl, rfl⟩ := atEnd_eq_ok read
    exact .assignments (List.cons_ne_nil assigned others) []
  | cons next after =>
    rw [outcome_words_cons] at read
    split at read
    · rename_i word isWord
      obtain ⟨⟨later, rest⟩, arguments, same⟩ := Reading.exists_of_map_ok read
      cases same
      rw [bare_cons, isWord]
      exact .words (assigned :: others) nofun (isArguments_of_arguments arguments)
    · cases read
      exact .assignments (List.cons_ne_nil assigned others) _

/-- One more chain at the beginning of a group. -/
theorem Derives.group_cons {first : Command} {others : List Command}
    {leading tokens later rest : List Token} {next : Token}
    (here : Derives (.andOr first) tokens (next :: later))
    (ends : next.isSeparator = true ∨ next = .rightBrace)
    (group : Derives (.group others) (.leftBrace :: next :: later) rest)
    (before : AllSeparators leading) :
    Derives (.group (first :: others)) (.leftBrace :: (leading ++ tokens)) rest := by
  generalize phrase : Phrase.group others = groups at group
  generalize opened : .leftBrace :: next :: later = place at group
  cases group with
  | empty blank rest =>
    cases phrase
    rw [(List.cons.inj opened).2] at here
    exact .braced before (.last here) blank
  | @braced body between trailing inner rest blank inside after =>
    cases phrase
    have same := (List.cons.inj opened).2
    rw [same] at here
    refine .braced before (.more here ?_ blank inside) after
    rintro rfl
    -- then a chain would begin with the separator or the closing brace
    obtain ⟨begin, others, rfl, begins⟩ := inside.begins
    cases same
    rcases ends with separates | rfl
    · rw [not_separator_of_beginsCommand begins] at separates
      cases separates
    · cases begins
  | _ => cases phrase

mutual

theorem derives_of_command {found : Command} {tokens rest : List PlacedToken}
    (read : (command ending tokens).outcome = .ok (found, rest)) :
    Derives (.command found) (bare tokens) (bare rest) := by
  rcases commandStart tokens with ⟨opening, inner⟩ | ⟨word, opening, paren, inner⟩ |
    @⟨word, opening, inner, plain⟩ | ⟨assigned, opening, inner⟩ | other
  · rw [outcome_command_leftBrace] at read
    obtain ⟨⟨body, after⟩, group, same⟩ := Reading.exists_of_map_ok read
    cases same
    exact .group (derives_of_group group)
  · rw [outcome_command_leftParen] at read
    split at read
    · cases read
    · rename_i name named
      obtain ⟨⟨start, inside⟩, opened, read⟩ := Reading.exists_of_bind_ok read
      obtain ⟨⟨body, after⟩, group, same⟩ := Reading.exists_of_map_ok read
      cases same
      have := (Reading.proper_of_outcome opened).shorter
      rw [outcome_bodyOf] at opened
      obtain ⟨⟨_, afterFirst⟩, first, opened⟩ := Reading.exists_of_bind_ok opened
      obtain ⟨⟨_, afterSecond⟩, second, opened⟩ := Reading.exists_of_bind_ok opened
      obtain ⟨newlines, blank, whole⟩ := exists_newlines afterSecond
      dsimp only at second opened
      rw [expect_eq_ok ending first, expect_eq_ok ending second, bare_cons, bare_cons, bare_cons,
        whole, expect_eq_ok ending opened]
      exact .definition named blank (derives_of_group group)
  · rw [outcome_command_word word opening plain] at read
    obtain ⟨⟨others, after⟩, arguments, same⟩ := Reading.exists_of_map_ok read
    cases same
    refine .simple (.words [] (fun _ paren => ?_) (isArguments_of_arguments arguments))
    cases inner with
    | nil => cases paren
    | cons next inner => exact plain next rfl (Option.some.inj paren)
  · rw [outcome_command_assignment] at read
    obtain ⟨⟨found, after⟩, words, same⟩ := Reading.exists_of_map_ok read
    cases same
    exact .simple (isSimple_of_words words)
  · rw [outcome_command_other other] at read
    cases read
termination_by 4 * tokens.length + 0
decreasing_by all_goals subst_vars; simp only [List.length_cons] at *; omega

theorem derives_of_chain {left found : Command} {whole : List Token}
    {tokens rest : List PlacedToken}
    (before : Derives (.andOr left) whole (bare tokens))
    (read : (chain ending left tokens).outcome = .ok (found, rest)) :
    Derives (.andOr found) whole (bare rest) := by
  cases tokens with
  | nil =>
    rw [outcome_chain_nil] at read
    obtain ⟨rfl, rfl⟩ := atEnd_eq_ok read
    exact before
  | cons next others =>
    rw [outcome_chain_cons] at read
    split at read
    · cases read
      exact before
    · rename_i connective connects
      obtain ⟨⟨right, after⟩, second, read⟩ := Reading.exists_of_bind_ok read
      have := (Reading.proper_of_outcome second).shorter
      have := (skipNewlines_suffix others).length_le
      obtain ⟨newlines, blank, same⟩ := exists_newlines others
      rw [bare_cons, same] at before
      exact derives_of_chain (.joined before connects blank (derives_of_command second)) read
termination_by 4 * tokens.length + 1
decreasing_by all_goals subst_vars; simp only [List.length_cons] at *; omega

theorem derives_of_andOr {found : Command} {tokens rest : List PlacedToken}
    (read : (andOr ending tokens).outcome = .ok (found, rest)) :
    Derives (.andOr found) (bare tokens) (bare rest) := by
  rw [outcome_andOr] at read
  obtain ⟨⟨first, after⟩, begins, read⟩ := Reading.exists_of_bind_ok read
  have := (Reading.proper_of_outcome begins).shorter
  exact derives_of_chain (.alone (derives_of_command begins)) read
termination_by 4 * tokens.length + 2
decreasing_by all_goals omega

theorem derives_of_group {opening : List Char} {found : List Command}
    {tokens rest : List PlacedToken}
    (read : (group ending opening tokens).outcome = .ok (found, rest)) :
    Derives (.group found) (.leftBrace :: bare tokens) (bare rest) := by
  obtain ⟨leading, blank, whole⟩ := exists_separators tokens
  have shorter := skipSeparators_suffix tokens
  rw [whole]
  rcases groupStart tokens with ended | closed | ⟨here, differs⟩
  · rw [outcome_group_nil ended] at read
    cases read
  · rw [outcome_group_rightBrace closed] at read
    cases read
    rw [closed]
    exact .empty blank _
  · rename_i next others
    rw [outcome_group_cons here differs] at read
    rw [here] at shorter ⊢
    have := shorter.length_le
    obtain ⟨⟨first, after⟩, member, read⟩ := Reading.exists_of_bind_ok read
    have := (Reading.proper_of_outcome member).shorter
    cases after with
    | nil => cases read
    | cons after later =>
      dsimp only [afterMember] at read
      split at read
      · rename_i ends
        obtain ⟨⟨body, last⟩, more, same⟩ := Reading.exists_of_map_ok read
        cases same
        exact .group_cons (derives_of_andOr member) (by simpa using ends) (derives_of_group more)
          blank
      · cases read
termination_by 4 * tokens.length + 3
decreasing_by all_goals simp only [List.length_cons] at *; omega

end

end

/-- A chain ends in front of these tokens. -/
def EndsChain (tokens : List Token) : Prop :=
  ∀ next ∈ tokens.head?, next.isSeparator = true ∨ next = .rightBrace

/-- A command ends in front of these tokens. -/
def EndsCommand (tokens : List Token) : Prop :=
  ∀ next ∈ tokens.head?,
    next.isSeparator = true ∨ next = .rightBrace ∨ (connective? next).isSome = true

theorem EndsChain.endsCommand {tokens : List Token} (ends : EndsChain tokens) :
    EndsCommand tokens :=
  fun next member => (ends next member).imp_right .inl

theorem AllSeparators.endsChain {separators rest : List Token} (blank : AllSeparators separators)
    (ends : EndsChain rest) : EndsChain (separators ++ rest) := by
  cases separators with
  | nil => exact ends
  | cons first others =>
    rintro next ⟨⟩
    exact .inl (blank first (List.mem_cons_self ..))

private theorem endsCommand_of_connective {operator : Token} {connective : Connective}
    (connects : connective? operator = some connective) (rest : List Token) :
    EndsCommand (operator :: rest) := by
  rintro next ⟨⟩
  exact .inr (.inr (by rw [connects]; rfl))

private theorem endsChain_rightBrace (rest : List Token) : EndsChain (.rightBrace :: rest) := by
  rintro next ⟨⟩
  exact .inr rfl

theorem endsChain_of_separators {separators : List Token} (blank : AllSeparators separators)
    (present : separators ≠ []) (rest : List Token) : EndsChain (separators ++ rest) := by
  obtain ⟨first, others, rfl⟩ := List.exists_cons_of_ne_nil present
  rintro next ⟨⟩
  exact .inl (blank first (List.mem_cons_self ..))

theorem dropWhile_append_of_begins {skipped : Token → Bool} {leading tokens : List Token}
    (all : ∀ token ∈ leading, skipped token = true)
    (keeps : ∀ token, beginsCommand token = true → skipped token = false)
    (begins : Begins tokens) :
    (leading ++ tokens).dropWhile skipped = tokens := by
  obtain ⟨first, others, rfl, begins⟩ := begins
  rw [List.dropWhile_append_of_pos all, List.dropWhile_cons_of_neg (by simp [keeps first begins])]

private theorem skipNewlines_of_begins {newlines tokens : List Token} {placed : List PlacedToken}
    (same : bare placed = newlines ++ tokens) (blank : AllNewlines newlines)
    (begins : Begins tokens) :
    bare (skipNewlines placed) = tokens := by
  rw [bare_skipNewlines, same]
  refine dropWhile_append_of_begins (fun token member => ?_) (fun token begins => ?_) begins
  · rw [blank token member]
    rfl
  · cases token <;> first | rfl | cases begins

theorem skipSeparators_of_begins {separators tokens : List Token} {placed : List PlacedToken}
    (same : bare placed = separators ++ tokens) (blank : AllSeparators separators)
    (begins : Begins tokens) :
    bare (skipSeparators placed) = tokens := by
  rw [bare_skipSeparators, same]
  exact dropWhile_append_of_begins blank (fun _ => not_separator_of_beginsCommand) begins

private theorem expect_here (ending : Ending) (token : Token) (place : List Char)
    (rest : List PlacedToken) : expect ending token (⟨token, place⟩ :: rest) = .ok (place, rest) :=
  if_pos rfl

section
variable {start : List Char} {tokens rest : List Token} {placed : List PlacedToken}

/-- The words that arguments are, read up to what ends the command. -/
theorem arguments_of_isArguments {words : List Word} (derives : IsArguments words tokens rest)
    (ends : EndsCommand rest) (same : bare placed = tokens) :
    ∃ after, bare after = rest ∧
      (arguments (.finished start) placed).outcome = .ok (words, after) := by
  induction derives generalizing placed with
  | ended stops =>
    refine ⟨placed, same, ?_⟩
    cases placed with
    | nil => rw [outcome_arguments_nil]; rfl
    | cons next others =>
      subst same
      have noWord := stops next.token rfl
      have ended := ends next.token rfl
      rw [outcome_arguments_cons, noWord]
      -- an array is no argument, but it does not end a command either
      cases token : next.token with
      | assignment => simp [token, Token.isSeparator, connective?] at ended
      | _ => rfl
  | argument isWord _ ih =>
    obtain ⟨place, others, rfl, later⟩ := exists_of_bare_cons same
    obtain ⟨after, whole, read⟩ := ih ends later
    exact ⟨after, whole, by rw [outcome_arguments_cons, isWord, read]; rfl⟩

private theorem leadingAssignments_of_bare {assignments : List Assignment}
    (same : bare placed = assignments.map .assignment ++ rest)
    (stops : ∀ assigned, rest.head? ≠ some (.assignment assigned)) :
    (leadingAssignments placed).1 = assignments ∧ bare (leadingAssignments placed).2 = rest := by
  induction assignments generalizing placed with
  | nil =>
    subst same
    rcases placed with _ | ⟨⟨token, place⟩, others⟩
    · exact ⟨rfl, rfl⟩
    · cases token with
      | assignment assigned => exact absurd rfl (stops assigned)
      | _ => exact ⟨rfl, rfl⟩
  | cons first others ih =>
    obtain ⟨place, later, rfl, whole⟩ := exists_of_bare_cons same
    obtain ⟨found, after⟩ := ih whole
    exact ⟨congrArg (first :: ·) found, after⟩

private theorem EndsCommand.not_assignment (ends : EndsCommand rest) (assigned : Assignment) :
    rest.head? ≠ some (.assignment assigned) := by
  intro head
  have ended := ends _ head
  simp [Token.isSeparator, connective?] at ended

private theorem words_of_endsCommand (ends : EndsCommand (bare placed)) :
    (words (.finished start) placed).outcome = .ok ([], placed) := by
  cases placed with
  | nil => rw [outcome_words_nil]; rfl
  | cons next others =>
    have ended := ends next.token rfl
    rw [outcome_words_cons]
    cases token : next.token with
    | word => simp [token, Token.isSeparator, connective?] at ended
    | _ => rfl

private theorem command_of_isSimple {found : Command} (derives : IsSimple found tokens rest)
    (ends : EndsCommand rest) (same : bare placed = tokens) :
    ∃ after, bare after = rest ∧
      (command (.finished start) placed).outcome = .ok (found, after) := by
  cases derives with
  | @assignments assignments present =>
    obtain ⟨first, others, rfl⟩ := List.exists_cons_of_ne_nil present
    obtain ⟨place, later, rfl, behind⟩ := exists_of_bare_cons same
    obtain ⟨leading, after⟩ := leadingAssignments_of_bare behind ends.not_assignment
    refine ⟨_, after, ?_⟩
    rw [outcome_command_assignment, words_of_endsCommand (after ▸ ends), leading]
    rfl
  | @words assignments word tokens _ words plain arguments =>
    cases assignments with
    | nil =>
      obtain ⟨place, later, rfl, behind⟩ := exists_of_bare_cons same
      obtain ⟨after, whole, read⟩ := arguments_of_isArguments arguments ends behind
      have noParen : ∀ next ∈ later.head?, next.token ≠ .leftParen := by
        rintro next head paren
        refine plain rfl ?_
        rw [← behind, bare, List.head?_map, Option.mem_def.mp head, Option.map_some, paren]
      exact ⟨after, whole, by rw [outcome_command_word word place noParen, read]; rfl⟩
    | cons first others =>
      obtain ⟨place, later, rfl, behind⟩ := exists_of_bare_cons same
      obtain ⟨leading, left⟩ := leadingAssignments_of_bare behind nofun
      obtain ⟨place', inner, left, inside⟩ := exists_of_bare_cons left
      obtain ⟨after, whole, read⟩ := arguments_of_isArguments arguments ends inside
      refine ⟨after, whole, ?_⟩
      rw [outcome_command_assignment, left, outcome_words_cons]
      dsimp only
      rw [read, leading]
      rfl

/-- A chain is complete in front of what ends it. -/
theorem chain_of_endsChain {found : Command} (ends : EndsChain (bare placed)) :
    (chain (.finished start) found placed).outcome = .ok (found, placed) := by
  cases placed with
  | nil => rw [outcome_chain_nil]; rfl
  | cons next others =>
    have ended := ends next.token rfl
    rw [outcome_chain_cons]
    cases token : next.token with
    | and => simp [token, Token.isSeparator] at ended
    | or => simp [token, Token.isSeparator] at ended
    | _ => rfl

/-- A phrase is read from its tokens up to those in front of which it ends. -/
def Phrase.IsRead (start : List Char) (tokens rest : List Token) : Phrase → Prop
  | command found => ∀ placed, bare placed = tokens → EndsCommand rest →
    ∃ after, bare after = rest ∧
      (Grammar.command (.finished start) placed).outcome = .ok (found, after)
  | andOr found => ∀ placed, bare placed = tokens → EndsCommand rest →
    ∃ after, bare after = rest ∧
      (Grammar.andOr (.finished start) placed).outcome =
        (chain (.finished start) found after).outcome
  | sequence found => ∀ opening placed trailing last, bare (skipSeparators placed) = tokens →
    AllSeparators trailing → rest = trailing ++ .rightBrace :: last →
    ∃ after, bare after = last ∧
      (Grammar.group (.finished start) opening placed).outcome = .ok (found, after)
  | group found => ∀ opening place placed, bare (⟨.leftBrace, place⟩ :: placed) = tokens →
    ∃ after, bare after = rest ∧
      (Grammar.group (.finished start) opening placed).outcome = .ok (found, after)

/-- A group begins with a chain, and goes on in front of what ends that. -/
theorem group_of_andOr (opening : List Char) {found : Command}
    (isRead : (Phrase.andOr found).IsRead start tokens rest) (begins : Begins tokens)
    (present : rest ≠ []) (ends : EndsChain rest)
    (same : bare (skipSeparators placed) = tokens) :
    ∃ after, bare after = rest ∧
      (group (.finished start) opening placed).outcome =
        (group (.finished start) opening after).outcome.map fun read =>
          (found :: read.1, read.2) := by
  obtain ⟨after, rfl, read⟩ := isRead _ same ends.endsCommand
  rw [chain_of_endsChain ends] at read
  obtain ⟨first, others, whole, begins⟩ := begins
  obtain ⟨place, later, here, -⟩ := exists_of_bare_cons (same.trans whole)
  have differs : first ≠ .rightBrace := by
    rintro rfl
    cases begins
  obtain ⟨next, last, rfl⟩ := List.exists_cons_of_ne_nil (List.map_eq_nil_iff.not.mp present)
  have ended : (next.token.isSeparator || next.token == .rightBrace) = true := by
    simpa using ends next.token rfl
  refine ⟨_, rfl, ?_⟩
  rw [here] at read
  rw [outcome_group_cons here differs, read]
  dsimp only [Except.bind, afterMember]
  rw [if_pos ended]

private theorem group_closed (opening : List Char) {trailing last : List Token}
    (blank : AllSeparators trailing) (same : bare placed = trailing ++ .rightBrace :: last) :
    ∃ after, bare after = last ∧
      (group (.finished start) opening placed).outcome = .ok ([], after) := by
  have skipped : bare (skipSeparators placed) = .rightBrace :: last := by
    rw [bare_skipSeparators, same, List.dropWhile_append_of_pos blank]
    rfl
  obtain ⟨place, after, here, whole⟩ := exists_of_bare_cons skipped
  exact ⟨after, whole, outcome_group_rightBrace here⟩

private theorem Derives.exists_leftBrace {body : List Command}
    (derives : Derives (.group body) tokens rest) :
    ∃ inner, tokens = .leftBrace :: inner := by
  cases derives with
  | empty => exact ⟨_, rfl⟩
  | braced => exact ⟨_, rfl⟩

/-- Whatever can be derived is read. -/
theorem Derives.isRead (start : List Char) {phrase : Phrase}
    (derives : Derives phrase tokens rest) :
    phrase.IsRead start tokens rest := by
  induction derives with
  | simple here =>
    intro placed same ends
    exact command_of_isSimple here ends same
  | group here ih =>
    intro placed same _
    obtain ⟨inner, rfl⟩ := here.exists_leftBrace
    obtain ⟨place, later, rfl, -⟩ := exists_of_bare_cons same
    obtain ⟨after, whole, read⟩ := ih place place later same
    exact ⟨after, whole, by rw [outcome_command_leftBrace, read]; rfl⟩
  | definition named blank later ih =>
    intro placed same _
    obtain ⟨place, _, rfl, behindName⟩ := exists_of_bare_cons same
    obtain ⟨leftParen, _, rfl, behindLeft⟩ := exists_of_bare_cons behindName
    obtain ⟨rightParen, others, rfl, behindRight⟩ := exists_of_bare_cons behindLeft
    have skipped := skipNewlines_of_begins behindRight blank later.begins
    obtain ⟨inner, brace⟩ := later.exists_leftBrace
    obtain ⟨opening, inside, found, -⟩ := exists_of_bare_cons (skipped.trans brace)
    rw [found] at skipped
    obtain ⟨after, whole, read⟩ := ih opening opening inside skipped
    refine ⟨after, whole, ?_⟩
    rw [outcome_command_leftParen, named]
    simp only [outcome_bodyOf, expect_here, Except.bind, found, read]
    rfl
  | alone _ ih =>
    intro placed same ends
    obtain ⟨after, whole, read⟩ := ih placed same ends
    exact ⟨after, whole, by rw [outcome_andOr, read]; rfl⟩
  | joined here connects blank later ih ih' =>
    intro placed same ends
    obtain ⟨first, behind, read⟩ := ih placed same (endsCommand_of_connective connects _)
    obtain ⟨place, others, rfl, further⟩ := exists_of_bare_cons behind
    obtain ⟨after, whole, second⟩ :=
      ih' (skipNewlines others) (skipNewlines_of_begins further blank later.begins) ends
    refine ⟨after, whole, ?_⟩
    rw [read, outcome_chain_cons, connects]
    dsimp only
    rw [second]
    rfl
  | last here ih =>
    rintro opening placed trailing last same blank rfl
    have ends := blank.endsChain (endsChain_rightBrace last)
    obtain ⟨after, behind, read⟩ := group_of_andOr opening ih here.begins (by simp) ends same
    obtain ⟨rest, whole, closed⟩ := group_closed opening blank behind
    exact ⟨rest, whole, by rw [read, closed]; rfl⟩
  | @more _ _ _ _ middle _ here present blank later ih ih' =>
    rintro opening placed trailing last same blank' rfl
    have ends := endsChain_of_separators blank present middle
    obtain ⟨after, behind, read⟩ :=
      group_of_andOr opening ih here.begins (by simp [present]) ends same
    obtain ⟨rest, whole, more⟩ := ih' opening after trailing last
      (skipSeparators_of_begins behind blank later.begins) blank' rfl
    exact ⟨rest, whole, by rw [read, more]; rfl⟩
  | empty blank rest =>
    intro opening place placed same
    exact group_closed opening blank (List.cons.inj same).2
  | braced before inside after ih =>
    intro opening place placed same
    have behind := (List.cons.inj same).2
    exact ih opening placed _ _ (skipSeparators_of_begins behind before inside.begins) after rfl

end

end PolicyShell.Grammar
