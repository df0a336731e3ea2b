import PolicyShell.Proofs.Syntax.Line
import PolicyShell.Proofs.Syntax.Reading

/-! What was read from the tokens of a line is read in front of further lines, too. -/
namespace PolicyShell.Grammar

/-- The tokens of a line with those of further lines after its end. -/
def lengthen (more place : List Char) (later tokens : List PlacedToken) : List PlacedToken :=
  tokens.map (extend more) ++ ⟨.newline, place⟩ :: later

section
variable {more place start : List Char} {later : List PlacedToken} {ending : Ending}

@[simp] theorem lengthen_nil : lengthen more place later [] = ⟨.newline, place⟩ :: later := rfl

@[simp] theorem lengthen_cons (token : Token) (start : List Char) (rest : List PlacedToken) :
    lengthen more place later (⟨token, start⟩ :: rest) =
      ⟨token, start ++ more⟩ :: lengthen more place later rest := rfl

theorem dropWhile_lengthen {skipped : PlacedToken → Bool} {tokens rest : List PlacedToken}
    {first : PlacedToken} (sameSkipped : ∀ token, skipped (extend more token) = skipped token)
    (found : tokens.dropWhile skipped = first :: rest) :
    (lengthen more place later tokens).dropWhile skipped =
      lengthen more place later (first :: rest) := by
  induction tokens with
  | nil => cases found
  | cons token tokens ih =>
    have step : lengthen more place later (token :: tokens) =
        extend more token :: lengthen more place later tokens := rfl
    rw [step, List.dropWhile_cons, sameSkipped]
    rw [List.dropWhile_cons] at found
    by_cases goesOn : skipped token = true
    · rw [if_pos goesOn] at found ⊢
      exact ih found
    · rw [if_neg goesOn] at found ⊢
      rw [← found]
      rfl

theorem skipNewlines_lengthen {tokens rest : List PlacedToken} {first : PlacedToken}
    (found : skipNewlines tokens = first :: rest) :
    skipNewlines (lengthen more place later tokens) = lengthen more place later (first :: rest) :=
  dropWhile_lengthen (fun _ => rfl) found

theorem skipSeparators_lengthen {tokens rest : List PlacedToken} {first : PlacedToken}
    (found : skipSeparators tokens = first :: rest) :
    skipSeparators (lengthen more place later tokens) = lengthen more place later (first :: rest) :=
  dropWhile_lengthen (fun _ => rfl) found

private theorem leadingAssignments_lengthen (tokens : List PlacedToken) :
    leadingAssignments (lengthen more place later tokens) =
      ((leadingAssignments tokens).1, lengthen more place later (leadingAssignments tokens).2) := by
  fun_induction leadingAssignments tokens with
  | case1 assigned start rest assignments after same ih =>
    rw [lengthen_cons, leadingAssignments, ih, same]
  | case2 tokens other =>
    cases tokens with
    | nil => rfl
    | cons first rest =>
      rcases first with ⟨token, start⟩
      rw [lengthen_cons, leadingAssignments]
      intro assigned start' rest' same
      cases same
      exact other assigned start rest rfl

variable {α β : Type}

/-- What was read from the shorter tokens is read from the longer ones, with more of them left. -/
structure Extends (more place : List Char) (later : List PlacedToken)
    (short long : Except Rejection (α × List PlacedToken)) : Prop where
  read : ∀ value rest, short = .ok (value, rest) →
    long = .ok (value, lengthen more place later rest)

theorem Extends.of_eq {value : α} {rest : List PlacedToken}
    {long : Except Rejection (α × List PlacedToken)}
    (same : long = .ok (value, lengthen more place later rest)) :
    Extends more place later (.ok (value, rest)) long := by
  constructor
  intro found left read
  cases read
  exact same

theorem Extends.error {rejection : Rejection} {long : Except Rejection (α × List PlacedToken)} :
    Extends more place later (.error rejection) long := ⟨nofun⟩

theorem Extends.bind {short long : Except Rejection (α × List PlacedToken)}
    (extended : Extends more place later short long)
    {next next' : α × List PlacedToken → Except Rejection (β × List PlacedToken)}
    (goOn : ∀ value rest, short = .ok (value, rest) →
      Extends more place later (next (value, rest))
        (next' (value, lengthen more place later rest))) :
    Extends more place later (short.bind next) (long.bind next') := by
  constructor
  intro value rest read
  obtain ⟨⟨found, left⟩, first, second⟩ := Reading.exists_of_bind_ok read
  rw [extended.read found left first]
  exact (goOn found left first).read value rest second

theorem Extends.map {short long : Except Rejection (α × List PlacedToken)}
    (extended : Extends more place later short long) (change : α → β) :
    Extends more place later (short.map fun read => (change read.1, read.2))
      (long.map fun read => (change read.1, read.2)) := by
  constructor
  intro value rest read
  obtain ⟨⟨found, left⟩, first, same⟩ := Reading.exists_of_map_ok read
  cases same
  rw [extended.read found left first]
  rfl

theorem extends_arguments (tokens : List PlacedToken) :
    Extends more place later (arguments (.finished start) tokens).outcome
      (arguments ending (lengthen more place later tokens)).outcome := by
  induction tokens with
  | nil =>
    rw [lengthen_nil, outcome_arguments_nil, outcome_arguments_cons]
    exact .of_eq rfl
  | cons next rest ih =>
    rcases next with ⟨token, place'⟩
    rw [lengthen_cons, outcome_arguments_cons, outcome_arguments_cons]
    dsimp only
    split
    · exact ih.map _
    · exact .error
    · exact .of_eq rfl

private theorem extends_words (tokens : List PlacedToken) :
    Extends more place later (words (.finished start) tokens).outcome
      (words ending (lengthen more place later tokens)).outcome := by
  rcases tokens with _ | ⟨⟨token, place'⟩, rest⟩
  · rw [lengthen_nil, outcome_words_nil, outcome_words_cons]
    exact .of_eq rfl
  · rw [lengthen_cons, outcome_words_cons, outcome_words_cons]
    dsimp only
    split
    · exact (extends_arguments rest).map _
    · exact .of_eq rfl

theorem expect_lengthen {token : Token} {tokens rest : List PlacedToken} {opening : List Char}
    (read : expect (.finished start) token tokens = .ok (opening, rest)) :
    expect ending token (lengthen more place later tokens) =
      .ok (opening ++ more, lengthen more place later rest) := by
  rw [expect_eq_ok _ read, lengthen_cons, expect, if_pos rfl]

private theorem bodyOf_lengthen {tokens body : List PlacedToken} {opening : List Char}
    (read : (bodyOf (.finished start) tokens).outcome = .ok (opening, body)) :
    (bodyOf ending (lengthen more place later tokens)).outcome =
      .ok (opening ++ more, lengthen more place later body) := by
  rw [outcome_bodyOf] at read ⊢
  obtain ⟨⟨_, afterFirst⟩, first, read⟩ := Reading.exists_of_bind_ok read
  obtain ⟨⟨_, afterSecond⟩, second, read⟩ := Reading.exists_of_bind_ok read
  have brace := expect_eq_ok _ read
  rw [expect_lengthen first, Except.bind, expect_lengthen second, Except.bind]
  dsimp only at brace ⊢
  rw [skipNewlines_lengthen brace, ← brace]
  exact expect_lengthen read

-- Each of the four hands on fewer tokens, or the same ones to one that stands before it.
mutual

theorem extends_command (tokens : List PlacedToken) :
    Extends more place later (command (.finished start) tokens).outcome
      (command ending (lengthen more place later tokens)).outcome := by
  rcases commandStart tokens with ⟨opening, rest⟩ | ⟨word, opening, inner, rest⟩ |
    @⟨word, opening, rest, plain⟩ | ⟨assigned, opening, rest⟩ | other
  · rw [lengthen_cons, outcome_command_leftBrace, outcome_command_leftBrace]
    exact (extends_group opening (opening ++ more) rest).map Command.group
  · rw [lengthen_cons, lengthen_cons, outcome_command_leftParen, outcome_command_leftParen]
    split
    · exact .error
    · rename_i name _
      constructor
      intro value left read
      obtain ⟨⟨brace, body⟩, opened, read⟩ := Reading.exists_of_bind_ok read
      have shorter := (Reading.proper_of_outcome opened).shorter
      have longer : (bodyOf ending
          (⟨.leftParen, inner ++ more⟩ :: lengthen more place later rest)).outcome =
          .ok (brace ++ more, lengthen more place later body) := bodyOf_lengthen opened
      rw [longer]
      exact ((extends_group brace (brace ++ more) body).map
        fun commands => Command.definition name (.group commands)).read value left read
  · have still : ∀ next ∈ (lengthen more place later rest).head?, next.token ≠ .leftParen := by
      cases rest with
      | nil => simp
      | cons first others =>
        rintro next ⟨⟩
        exact plain first rfl
    rw [lengthen_cons, outcome_command_word word opening plain, outcome_command_word word _ still]
    exact (extends_arguments rest).map fun words => Command.simple [] (word :: words)
  · rw [lengthen_cons, outcome_command_assignment, outcome_command_assignment,
      leadingAssignments_lengthen]
    exact (extends_words _).map fun words =>
      Command.simple (assigned :: (leadingAssignments rest).1) words
  · rw [outcome_command_other other]
    exact .error
termination_by 4 * tokens.length + 0
decreasing_by all_goals subst_vars; simp only [List.length_cons] at *; omega

theorem extends_chain (left : Command) (tokens : List PlacedToken) :
    Extends more place later (chain (.finished start) left tokens).outcome
      (chain ending left (lengthen more place later tokens)).outcome := by
  rcases tokens with _ | ⟨⟨token, place'⟩, rest⟩
  · rw [lengthen_nil, outcome_chain_nil, outcome_chain_cons]
    exact .of_eq rfl
  · rw [lengthen_cons, outcome_chain_cons, outcome_chain_cons]
    dsimp only
    split
    · exact .of_eq rfl
    · cases found : skipNewlines rest with
      | nil =>
        rw [outcome_command_other (by simp [NoCommand])]
        exact .error
      | cons first others =>
        rw [skipNewlines_lengthen found]
        have inner := (found ▸ skipNewlines_suffix rest : first :: others <:+ rest).length_le
        refine (extends_command (first :: others)).bind fun right after same => ?_
        have := (Reading.proper_of_outcome same).shorter
        exact extends_chain _ after
termination_by 4 * tokens.length + 1
decreasing_by all_goals simp only [List.length_cons] at *; omega

theorem extends_andOr (tokens : List PlacedToken) :
    Extends more place later (andOr (.finished start) tokens).outcome
      (andOr ending (lengthen more place later tokens)).outcome := by
  rw [outcome_andOr, outcome_andOr]
  refine (extends_command tokens).bind fun left after same => ?_
  have := (Reading.proper_of_outcome same).shorter
  exact extends_chain left after
termination_by 4 * tokens.length + 2
decreasing_by all_goals omega

theorem extends_group (opening opening' : List Char) (tokens : List PlacedToken) :
    Extends more place later (group (.finished start) opening tokens).outcome
      (group ending opening' (lengthen more place later tokens)).outcome := by
  have := (skipSeparators_suffix tokens).length_le
  rcases groupStart tokens with found | found | ⟨found, differs⟩
  · rw [outcome_group_nil found]
    exact .error
  · rw [outcome_group_rightBrace found, outcome_group_rightBrace (skipSeparators_lengthen found)]
    exact .of_eq rfl
  · rw [outcome_group_cons found differs]
    rw [outcome_group_cons (skipSeparators_lengthen found) differs]
    have skipped := found ▸ skipSeparators_suffix tokens
    have := skipped.length_le
    refine (extends_andOr _).bind fun first after same => ?_
    have := (Reading.proper_of_outcome same).shorter
    rcases after with _ | ⟨⟨token, place'⟩, rest⟩
    · exact .error
    · dsimp only [lengthen_cons, afterMember]
      split
      · exact (extends_group opening opening' (⟨token, place'⟩ :: rest)).map (first :: ·)
      · exact .error
termination_by 4 * tokens.length + 3
decreasing_by all_goals simp only [List.length_cons] at *; omega

end

end

end PolicyShell.Grammar
