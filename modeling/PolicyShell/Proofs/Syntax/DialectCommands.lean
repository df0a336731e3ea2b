import PolicyShell.Proofs.Syntax.Dialects
import PolicyShell.Proofs.Syntax.Next

/-! Two dialects read the same commands, up to the words that one of them splices. -/
namespace PolicyShell

/-- The same command up to its words. -/
inductive Command.Becomes : Command → Command → Prop where
  | simple {assignments assignments' : List Assignment} {words words' : List Word}
      (assigned : List.Forall₂ Assignment.Becomes assignments assignments')
      (each : List.Forall₂ Word.Becomes words words') :
      Becomes (.simple assignments words) (.simple assignments' words')
  | chain {left left' right right' : Command} (first : Becomes left left')
      (connective : Connective) (second : Becomes right right') :
      Becomes (.chain left connective right) (.chain left' connective right')
  | definition (name : String) {body body' : Command} (inner : Becomes body body') :
      Becomes (.definition name body) (.definition name body')
  | group {body body' : List Command} (each : List.Forall₂ Becomes body body') :
      Becomes (.group body) (.group body')

namespace Token

/-- Tokens that are neither words nor assignments. -/
def isMark : Token → Bool
  | word _ | assignment _ => false
  | _ => true

namespace Becomes

variable {first second : Token}

theorem eq_mark_iff (becomes : first.Becomes second) {mark : Token} (isMark : mark.isMark = true) :
    first = mark ↔ second = mark := by
  cases becomes with
  | same => rfl
  | word | assignment => constructor <;> rintro rfl <;> cases isMark

theorem isSeparator (becomes : first.Becomes second) : first.isSeparator = second.isSeparator := by
  cases becomes <;> rfl

theorem beq_mark (becomes : first.Becomes second) {mark : Token} (isMark : mark.isMark = true) :
    (first == mark) = (second == mark) :=
  Bool.eq_iff_iff.mpr (by simpa using becomes.eq_mark_iff isMark)

private theorem connective? (becomes : first.Becomes second) :
    Grammar.connective? first = Grammar.connective? second := by
  cases becomes <;> rfl

private theorem describe (becomes : first.Becomes second) : first.describe = second.describe := by
  cases becomes with
  | assignment same => cases same <;> rfl
  | _ => rfl

end Becomes

end Token

private theorem Word.Becomes.definedName? {word word' : Word} (becomes : word.Becomes word') :
    Grammar.definedName? word = Grammar.definedName? word' := by
  cases becomes with
  | same => rfl
  | splice valid =>
    simp [Grammar.definedName?, Word.asLiteral?, Word.literal, Name.isValid, Name.startsName,
      Option.filter]

namespace Grammar

variable {ending : Ending} {tokens tokens' : List PlacedToken}

theorem forall₂_dropWhile {skipped : PlacedToken → Bool}
    (agree : ∀ {first second : PlacedToken}, first.Becomes second → skipped first = skipped second)
    (each : List.Forall₂ PlacedToken.Becomes tokens tokens') :
    List.Forall₂ PlacedToken.Becomes (tokens.dropWhile skipped) (tokens'.dropWhile skipped) := by
  induction each with
  | nil => exact .nil
  | cons first rest ih =>
    rw [List.dropWhile_cons, List.dropWhile_cons, agree first]
    split
    · exact ih
    · exact .cons first rest

theorem forall₂_skipNewlines (each : List.Forall₂ PlacedToken.Becomes tokens tokens') :
    List.Forall₂ PlacedToken.Becomes (skipNewlines tokens) (skipNewlines tokens') :=
  forall₂_dropWhile (fun becomes => becomes.token.beq_mark rfl) each

theorem forall₂_skipSeparators (each : List.Forall₂ PlacedToken.Becomes tokens tokens') :
    List.Forall₂ PlacedToken.Becomes (skipSeparators tokens) (skipSeparators tokens') :=
  forall₂_dropWhile (fun becomes => becomes.token.isSeparator) each

theorem unexpected_eq (each : List.Forall₂ PlacedToken.Becomes tokens tokens') :
    unexpected ending tokens = unexpected ending tokens' := by
  cases each with
  | nil => rfl
  | cons first rest => simp only [unexpected, first.token.describe, first.start]

theorem resumption_eq (each : List.Forall₂ PlacedToken.Becomes tokens tokens') :
    resumption ending tokens = resumption ending tokens' := by
  cases each with
  | nil => rfl
  | cons first rest => simp only [resumption, List.head?_cons, Option.map_some, first.start]

variable {α β γ δ : Type} {related : α → β → Prop} {related' : γ → δ → Prop}

/-- Related values in front of the same tokens up to their words. -/
def Paired (related : α → β → Prop) (read : α × List PlacedToken) (read' : β × List PlacedToken) :
    Prop :=
  related read.1 read'.1 ∧ List.Forall₂ PlacedToken.Becomes read.2 read'.2

theorem both_atEnd {value : α} {value' : β} (same : related value value') :
    Both (Paired related) (atEnd ending value) (atEnd ending value') := by
  cases ending with
  | finished start => exact .ok ⟨same, .nil⟩
  | broken error start rest => exact .error _

private theorem both_expect {mark : Token} (isMark : mark.isMark = true)
    (each : List.Forall₂ PlacedToken.Becomes tokens tokens') :
    Both (Paired Eq) (expect ending mark tokens) (expect ending mark tokens') := by
  cases each with
  | nil => exact .error _
  | @cons first second rest rest' becomes others =>
    rw [expect, expect, ← unexpected_eq (.cons becomes others)]
    by_cases same : first.token = mark
    · rw [if_pos same, if_pos ((becomes.token.eq_mark_iff isMark).mp same)]
      exact .ok ⟨becomes.start, others⟩
    · rw [if_neg same, if_neg (mt (becomes.token.eq_mark_iff isMark).mpr same)]
      exact .error _

private theorem both_bodyOf (each : List.Forall₂ PlacedToken.Becomes tokens tokens') :
    Both (Paired Eq) (bodyOf ending tokens).outcome (bodyOf ending tokens').outcome := by
  rw [outcome_bodyOf, outcome_bodyOf]
  refine (both_expect rfl each).bind fun first first' _ same => ?_
  refine (both_expect rfl same.2).bind fun second second' _ same => ?_
  exact both_expect rfl (forall₂_skipNewlines same.2)

theorem becomes_refl (assigned : Assignment) : assigned.Becomes assigned := by
  rcases assigned with ⟨name, word | elements⟩
  · exact .scalar name word
  · exact .array name (List.forall₂_same.mpr fun word _ => .same word)

section
variable {start : List Char} {rest : List PlacedToken}

theorem exists_of_token {token : Token}
    (each : List.Forall₂ PlacedToken.Becomes (⟨token, start⟩ :: rest) tokens') :
    ∃ token' rest', tokens' = ⟨token', start⟩ :: rest' ∧ token.Becomes token' ∧
      List.Forall₂ PlacedToken.Becomes rest rest' := by
  cases each with
  | @cons _ second _ rest' becomes others =>
    rcases second with ⟨token', place⟩
    obtain ⟨becomes, rfl⟩ := becomes
    exact ⟨token', rest', rfl, becomes, others⟩

private theorem exists_of_mark {mark : Token} (isMark : mark.isMark = true)
    (each : List.Forall₂ PlacedToken.Becomes (⟨mark, start⟩ :: rest) tokens') :
    ∃ rest', tokens' = ⟨mark, start⟩ :: rest' ∧ List.Forall₂ PlacedToken.Becomes rest rest' := by
  obtain ⟨token, rest', rfl, becomes, others⟩ := exists_of_token each
  have same : token = mark := (becomes.eq_mark_iff isMark).mp rfl
  exact ⟨rest', by rw [same], others⟩

private theorem exists_of_word {word : Word}
    (each : List.Forall₂ PlacedToken.Becomes (⟨.word word, start⟩ :: rest) tokens') :
    ∃ word' rest', tokens' = ⟨.word word', start⟩ :: rest' ∧ word.Becomes word' ∧
      List.Forall₂ PlacedToken.Becomes rest rest' := by
  obtain ⟨token, rest', rfl, becomes, others⟩ := exists_of_token each
  cases becomes with
  | word same => exact ⟨_, rest', rfl, same, others⟩
  | same => exact ⟨_, rest', rfl, .same word, others⟩

private theorem exists_of_assignment {assigned : Assignment}
    (each : List.Forall₂ PlacedToken.Becomes (⟨.assignment assigned, start⟩ :: rest) tokens') :
    ∃ assigned' rest', tokens' = ⟨.assignment assigned', start⟩ :: rest' ∧
      assigned.Becomes assigned' ∧ List.Forall₂ PlacedToken.Becomes rest rest' := by
  obtain ⟨token, rest', rfl, becomes, others⟩ := exists_of_token each
  cases becomes with
  | assignment same => exact ⟨_, rest', rfl, same, others⟩
  | same => exact ⟨_, rest', rfl, becomes_refl assigned, others⟩

end

theorem becomes_leadingAssignments (each : List.Forall₂ PlacedToken.Becomes tokens tokens') :
    List.Forall₂ Assignment.Becomes (leadingAssignments tokens).1 (leadingAssignments tokens').1 ∧
      List.Forall₂ PlacedToken.Becomes (leadingAssignments tokens).2
        (leadingAssignments tokens').2 := by
  induction each with
  | nil => exact ⟨.nil, .nil⟩
  | @cons first second rest rest' becomes others ih =>
    rcases first with ⟨token, start⟩
    rcases second with ⟨token', start'⟩
    obtain ⟨becomes, rfl⟩ := becomes
    cases becomes with
    | word same => exact ⟨.nil, .cons ⟨.word same, rfl⟩ others⟩
    | assignment same =>
      rw [leadingAssignments, leadingAssignments]
      exact ⟨.cons same ih.1, ih.2⟩
    | same token =>
      cases token with
      | assignment assigned =>
        rw [leadingAssignments, leadingAssignments]
        exact ⟨.cons (becomes_refl assigned) ih.1, ih.2⟩
      | _ => exact ⟨.nil, .cons ⟨.same _, rfl⟩ others⟩

theorem both_arguments (each : List.Forall₂ PlacedToken.Becomes tokens tokens') :
    Both (Paired (List.Forall₂ Word.Becomes)) (arguments ending tokens).outcome
      (arguments ending tokens').outcome := by
  induction each with
  | nil =>
    rw [outcome_arguments_nil]
    exact both_atEnd .nil
  | @cons first second rest rest' becomes others ih =>
    rcases first with ⟨token, start⟩
    rcases second with ⟨token', start'⟩
    obtain ⟨becomes, rfl⟩ := becomes
    rw [outcome_arguments_cons, outcome_arguments_cons, resumption_eq others]
    cases becomes with
    | word same => exact ih.map fun _ _ later => ⟨.cons same later.1, later.2⟩
    | assignment same =>
      cases same with
      | scalar name word => exact ih.map fun _ _ later => ⟨.cons (.same _) later.1, later.2⟩
      | array name elements => exact .error _
    | same token =>
      dsimp only
      split
      · exact ih.map fun _ _ later => ⟨.cons (.same _) later.1, later.2⟩
      · exact .error _
      · exact .ok ⟨.nil, .cons ⟨.same _, rfl⟩ others⟩

private theorem both_words (each : List.Forall₂ PlacedToken.Becomes tokens tokens') :
    Both (Paired (List.Forall₂ Word.Becomes)) (words ending tokens).outcome
      (words ending tokens').outcome := by
  cases each with
  | nil =>
    rw [outcome_words_nil]
    exact both_atEnd .nil
  | @cons first second rest rest' becomes others =>
    rcases first with ⟨token, start⟩
    rcases second with ⟨token', start'⟩
    obtain ⟨becomes, rfl⟩ := becomes
    rw [outcome_words_cons, outcome_words_cons]
    cases becomes with
    | word same => exact (both_arguments others).map fun _ _ later => ⟨.cons same later.1, later.2⟩
    | assignment same => exact .ok ⟨.nil, .cons ⟨.assignment same, rfl⟩ others⟩
    | same token =>
      dsimp only
      split
      · exact (both_arguments others).map fun _ _ later => ⟨.cons (.same _) later.1, later.2⟩
      · exact .ok ⟨.nil, .cons ⟨.same token, rfl⟩ others⟩

private theorem noCommand_of_becomes (each : List.Forall₂ PlacedToken.Becomes tokens tokens')
    (other : NoCommand tokens) : NoCommand tokens' := by
  cases each with
  | nil => exact other
  | @cons first second rest rest' becomes others =>
    rcases first with ⟨token, start⟩
    rcases second with ⟨token', start'⟩
    obtain ⟨becomes, rfl⟩ := becomes
    cases becomes with
    | word same => exact absurd rfl ((other _ rfl).2.1 _)
    | assignment same => exact absurd rfl ((other _ rfl).2.2 _)
    | same token =>
      rintro next ⟨⟩
      exact other _ rfl

mutual

theorem both_command {tokens tokens' : List PlacedToken}
    (each : List.Forall₂ PlacedToken.Becomes tokens tokens') :
    Both (Paired Command.Becomes) (command ending tokens).outcome
      (command ending tokens').outcome := by
  rcases commandStart tokens with ⟨opening, rest⟩ | ⟨word, opening, inner, rest⟩ |
    @⟨word, opening, rest, plain⟩ | ⟨assigned, opening, rest⟩ | other
  · obtain ⟨rest', rfl, others⟩ := exists_of_mark rfl each
    rw [outcome_command_leftBrace, outcome_command_leftBrace]
    exact (both_group opening others).map fun _ _ later => ⟨.group later.1, later.2⟩
  · obtain ⟨word', _, rfl, same, others⟩ := exists_of_word each
    obtain ⟨rest', rfl, inside⟩ := exists_of_mark rfl others
    rw [outcome_command_leftParen, outcome_command_leftParen, ← same.definedName?,
      unexpected_eq others]
    split
    · exact .error _
    · rename_i name _
      refine (both_bodyOf others).bind fun opened opened' found paired => ?_
      have := (Reading.proper_of_outcome found).shorter
      rw [← paired.1]
      exact (both_group opened.1 paired.2).map fun _ _ later =>
        ⟨.definition name (.group later.1), later.2⟩
  · obtain ⟨word', rest', rfl, same, others⟩ := exists_of_word each
    have still : ∀ next ∈ rest'.head?, next.token ≠ .leftParen := by
      cases others with
      | nil => nofun
      | cons becomes =>
        rintro next ⟨⟩
        exact mt (becomes.token.eq_mark_iff rfl).mpr (plain _ rfl)
    rw [outcome_command_word word opening plain, outcome_command_word word' opening still]
    exact (both_arguments others).map fun _ _ later => ⟨.simple .nil (.cons same later.1), later.2⟩
  · obtain ⟨assigned', rest', rfl, same, others⟩ := exists_of_assignment each
    rw [outcome_command_assignment, outcome_command_assignment]
    obtain ⟨leading, left⟩ := becomes_leadingAssignments others
    exact (both_words left).map fun _ _ later => ⟨.simple (.cons same leading) later.1, later.2⟩
  · rw [outcome_command_other other, outcome_command_other (noCommand_of_becomes each other),
      unexpected_eq each]
    exact .error _
termination_by 4 * tokens.length + 0
decreasing_by all_goals subst_vars; simp only [List.length_cons] at *; omega

theorem both_chain {left left' : Command} (same : left.Becomes left')
    {tokens tokens' : List PlacedToken}
    (each : List.Forall₂ PlacedToken.Becomes tokens tokens') :
    Both (Paired Command.Becomes) (chain ending left tokens).outcome
      (chain ending left' tokens').outcome := by
  cases each with
  | nil =>
    rw [outcome_chain_nil, outcome_chain_nil]
    exact both_atEnd same
  | @cons first second rest rest' becomes others =>
    rw [outcome_chain_cons, outcome_chain_cons, ← becomes.token.connective?]
    have skipped := (skipNewlines_suffix rest).length_le
    split
    · exact .ok ⟨same, .cons becomes others⟩
    · rename_i connective _
      refine (both_command (forall₂_skipNewlines others)).bind fun read read' found paired => ?_
      have := (Reading.proper_of_outcome found).shorter
      exact both_chain (.chain same connective paired.1) paired.2
termination_by 4 * tokens.length + 1
decreasing_by all_goals subst_vars; simp only [List.length_cons] at *; omega

theorem both_andOr {tokens tokens' : List PlacedToken}
    (each : List.Forall₂ PlacedToken.Becomes tokens tokens') :
    Both (Paired Command.Becomes) (andOr ending tokens).outcome (andOr ending tokens').outcome := by
  rw [outcome_andOr, outcome_andOr]
  refine (both_command each).bind fun read read' found paired => ?_
  have := (Reading.proper_of_outcome found).shorter
  exact both_chain paired.1 paired.2
termination_by 4 * tokens.length + 2
decreasing_by all_goals omega

theorem both_group (opening : List Char) {tokens tokens' : List PlacedToken}
    (each : List.Forall₂ PlacedToken.Becomes tokens tokens') :
    Both (Paired (List.Forall₂ Command.Becomes)) (group ending opening tokens).outcome
      (group ending opening tokens').outcome := by
  have skipped := forall₂_skipSeparators each
  have shorter := skipSeparators_suffix tokens
  rcases groupStart tokens with found | found | ⟨found, differs⟩
  · rw [found] at skipped
    cases found' : skipSeparators tokens' with
    | nil =>
      rw [outcome_group_nil found, outcome_group_nil found']
      exact .error _
    | cons first rest =>
      rw [found'] at skipped
      cases skipped
  · rw [found] at skipped
    obtain ⟨rest', found', others⟩ := exists_of_mark rfl skipped
    rw [outcome_group_rightBrace found, outcome_group_rightBrace found']
    exact .ok ⟨.nil, others⟩
  · rename_i first others
    rw [found] at skipped shorter
    cases found' : skipSeparators tokens' with
    | nil =>
      rw [found'] at skipped
      cases skipped
    | cons first' others' =>
      rw [found'] at skipped
      have becomes := (List.forall₂_cons.mp skipped).1.token
      rw [outcome_group_cons found differs,
        outcome_group_cons found' (mt (becomes.eq_mark_iff rfl).mpr differs)]
      have := shorter.length_le
      refine (both_andOr skipped).bind fun read read' member paired => ?_
      have := (Reading.proper_of_outcome member).shorter
      rcases read with ⟨one, left⟩
      rcases read' with ⟨one', left'⟩
      obtain ⟨same, each⟩ := paired
      cases each with
      | nil => exact .error _
      | @cons next next' rest rest' becomes others =>
        have agree : (next.token.isSeparator || next.token == .rightBrace) =
            (next'.token.isSeparator || next'.token == .rightBrace) := by
          rw [becomes.token.isSeparator, becomes.token.beq_mark rfl]
        rw [afterMember, afterMember, ← agree, unexpected_eq (.cons becomes others)]
        split
        · exact (both_group opening (.cons becomes others)).map fun _ _ later =>
            ⟨.cons same later.1, later.2⟩
        · exact .error _
termination_by 4 * tokens.length + 3
decreasing_by all_goals simp only [List.length_cons] at *; omega

end

end Grammar

/-- Whatever one dialect reads another one reads, up to its words. -/
theorem both_readNext (text : List Char) :
    Both (fun read read' => Option.Rel Command.Becomes read.1 read'.1 ∧ read.2 = read'.2)
      (readNext .plain text) (readNext .splicing text) := by
  obtain ⟨tokens, ending⟩ := both_readTokens text
  unfold readNext
  rw [← ending]
  have skipped := Grammar.forall₂_skipSeparators tokens
  generalize Grammar.skipSeparators (readTokens .plain text).1 = ahead at skipped ⊢
  generalize Grammar.skipSeparators (readTokens .splicing text).1 = ahead' at skipped ⊢
  cases skipped with
  | nil =>
    have ended : Both (Grammar.Paired Eq) (Grammar.atEnd (readTokens .plain text).2 ())
        (Grammar.atEnd (readTokens .plain text).2 ()) := Grammar.both_atEnd rfl
    exact ended.map fun _ _ _ => ⟨.none, rfl⟩
  | cons becomes others =>
    refine (Grammar.both_andOr (.cons becomes others)).bind fun read read' _ paired => ?_
    rcases read with ⟨command, left⟩
    rcases read' with ⟨command', left'⟩
    obtain ⟨same, each⟩ := paired
    cases each with
    | nil => exact .ok ⟨.some same, rfl⟩
    | cons next later =>
      dsimp only [Grammar.closeCommand]
      rw [← next.token.isSeparator, Grammar.resumption_eq later,
        Grammar.unexpected_eq (.cons next later)]
      split
      · exact .ok ⟨.some same, rfl⟩
      · exact .error _

end PolicyShell
