import PolicyShell.Proofs.Syntax.PullSteps

/-! The rules of a pull parser give what the rules for tokens give. -/
namespace PolicyShell.PullParser

open Grammar (leadingAssignments skipNewlines)

/-- The rules agree with those for tokens, if there are not too many tokens for the limit: from one
token to the next there are at most five calls. -/
structure Pulls (dialect : Dialect) (text : List Char) (ending : Ending) (limit : Nat) : Prop where
  arguments : ∀ {parser : PullParser} {tokens : List PlacedToken} (assignments : List Assignment)
    {words : List Word}, Sees dialect text ending parser tokens → words ≠ [] →
    5 * tokens.length + 1 ≤ limit →
      Reads dialect text ending ((simple limit assignments words).run parser)
        ((Grammar.arguments ending tokens).outcome.map fun read =>
          (.simple assignments (words ++ read.1), read.2))
  assignments : ∀ {parser : PullParser} {tokens : List PlacedToken}
    {assignments : List Assignment}, Sees dialect text ending parser tokens → assignments ≠ [] →
    5 * tokens.length + 1 ≤ limit →
      Reads dialect text ending ((simple limit assignments []).run parser)
        ((Grammar.words ending (leadingAssignments tokens).2).outcome.map fun read =>
          (.simple (assignments ++ (leadingAssignments tokens).1) read.1, read.2))
  simple : ∀ {parser : PullParser} {next : PlacedToken} {tokens : List PlacedToken},
    (∃ word, next.token = .word word) ∨ (∃ assigned, next.token = .assignment assigned) →
    Looked dialect text ending parser next tokens → 5 * tokens.length + 2 ≤ limit →
      Reads dialect text ending ((simple limit [] []).run parser)
        (Grammar.command ending (next :: tokens)).outcome
  definition : ∀ {parser : PullParser} {inner : List Char} {rest : List PlacedToken} (word : Word)
    (start : List Char), Sees dialect text ending parser (⟨.leftParen, inner⟩ :: rest) →
    5 * rest.length + 5 ≤ limit →
      Reads dialect text ending ((definition limit word).run parser)
        (Grammar.command ending (⟨.word word, start⟩ :: ⟨.leftParen, inner⟩ :: rest)).outcome
  group : ∀ {parser : PullParser} {tokens : List PlacedToken},
    Sees dialect text ending parser tokens → 5 * tokens.length + 1 ≤ limit →
      Reads dialect text ending ((group limit).run parser)
        ((Grammar.expect ending .leftBrace tokens).bind fun opened =>
          (Grammar.group ending opened.1 opened.2).outcome)
  members : ∀ {parser : PullParser} {tokens : List PlacedToken} {opening : List Char}
    (body : List Command), Sees dialect text ending parser tokens →
    5 * tokens.length + 4 ≤ limit →
      Reads dialect text ending ((members limit (text.length - opening.length) body).run parser)
        ((Grammar.group ending opening tokens).outcome.map fun read => (body ++ read.1, read.2))
  command : ∀ {parser : PullParser} {tokens : List PlacedToken},
    Sees dialect text ending parser tokens → 5 * tokens.length + 2 ≤ limit →
      Reads dialect text ending ((command limit).run parser)
        (Grammar.command ending tokens).outcome
  chain : ∀ {parser : PullParser} {tokens : List PlacedToken} (left : Command),
    Sees dialect text ending parser tokens → 5 * tokens.length + 1 ≤ limit →
      Reads dialect text ending ((chain limit left).run parser)
        (Grammar.chain ending left tokens).outcome
  andOr : ∀ {parser : PullParser} {tokens : List PlacedToken},
    Sees dialect text ending parser tokens → 5 * tokens.length + 3 ≤ limit →
      Reads dialect text ending ((andOr limit).run parser)
        (Grammar.andOr ending tokens).outcome

variable {dialect : Dialect} {text : List Char} {ending : Ending} {limit : Nat}
  {parser : PullParser} {tokens : List PlacedToken}

namespace Pulls

/-- A word more. -/
theorem argument (pulls : Pulls dialect text ending limit) (assignments : List Assignment)
    (words : List Word) (word : Word) (sees : Sees dialect text ending parser tokens)
    (enough : 5 * tokens.length + 1 ≤ limit) :
    Reads dialect text ending ((PullParser.simple limit assignments (words ++ [word])).run parser)
      ((Grammar.arguments ending tokens).outcome.map fun read =>
        (.simple assignments (words ++ word :: read.1), read.2)) := by
  have later := pulls.arguments assignments sees (List.append_ne_nil_of_right_ne_nil words
    (List.cons_ne_nil word [])) enough
  simpa using later

theorem arguments_succ (pulls : Pulls dialect text ending limit) (assignments : List Assignment)
    {words : List Word} (sees : Sees dialect text ending parser tokens) (present : words ≠ [])
    (enough : 5 * tokens.length ≤ limit) :
    Reads dialect text ending ((PullParser.simple (limit + 1) assignments words).run parser)
      ((Grammar.arguments ending tokens).outcome.map fun read =>
        (.simple assignments (words ++ read.1), read.2)) := by
  have nonempty : words.isEmpty = false := by simpa using present
  rw [PullParser.simple]
  refine .peek sees (.map (breaks_arguments ending tokens) _) ?_ ?_
  · rintro start after rfl rfl stands
    rw [Grammar.outcome_arguments_nil]
    exact .returns (by rw [List.append_nil]) (stands.sees_end start)
  · rintro ⟨token, start⟩ rest after rfl looked
    have fewer : 5 * rest.length + 1 ≤ limit := by
      simp only [List.length_cons] at enough
      omega
    have another (word : Word) := pulls.argument assignments words word looked.sees_used fewer
    rw [Grammar.outcome_arguments_cons]
    cases token with
    | assignment assigned =>
      dsimp only [Grammar.argumentWord?]
      rw [run_get_bind, run_bind_of_ok looked.run_take]
      simp only [nonempty]
      cases assigned.asWord? with
      | some word =>
        exact (another word).of_eq (Functor.map_map _ _ (Grammar.arguments ending rest).outcome)
      | none =>
        refine .throws ?_ looked.stands_used
        rw [looked.stands.position]
        rfl
    | word word =>
      dsimp only [Grammar.argumentWord?]
      rw [run_bind_of_ok looked.run_take]
      simp only [nonempty]
      exact (another word).of_eq (Functor.map_map _ _ (Grammar.arguments ending rest).outcome)
    | leftBrace | rightBrace =>
      dsimp only [Grammar.argumentWord?]
      rw [nonempty, if_neg Bool.false_ne_true, run_bind_of_ok looked.run_take]
      exact (another _).of_eq (Functor.map_map _ _ (Grammar.arguments ending rest).outcome)
    | _ => exact .returns (by rw [List.append_nil]) looked.sees

private theorem assignments_succ (pulls : Pulls dialect text ending limit)
    {assignments : List Assignment} (sees : Sees dialect text ending parser tokens)
    (present : assignments ≠ []) (enough : 5 * tokens.length ≤ limit) :
    Reads dialect text ending ((PullParser.simple (limit + 1) assignments []).run parser)
      ((Grammar.words ending (leadingAssignments tokens).2).outcome.map fun read =>
        (.simple (assignments ++ (leadingAssignments tokens).1) read.1, read.2)) := by
  rw [PullParser.simple]
  refine .peek sees ?_ ?_ ?_
  · rintro error start rest rfl rfl
    rfl
  · rintro start after rfl rfl stands
    exact .returns (by simp [leadingAssignments]) (stands.sees_end start)
  · rintro ⟨token, start⟩ rest after rfl looked
    have fewer : 5 * rest.length + 1 ≤ limit := by
      simp only [List.length_cons] at enough
      omega
    cases token with
    | assignment assigned =>
      dsimp only
      rw [run_get_bind, run_bind_of_ok looked.run_take]
      have later := @pulls.assignments _ _ (assignments ++ [assigned]) looked.sees_used
        (List.append_ne_nil_of_right_ne_nil assignments (List.cons_ne_nil assigned [])) fewer
      simpa [leadingAssignments] using later
    | word word =>
      dsimp only
      rw [run_bind_of_ok looked.run_take]
      have stops : leadingAssignments (⟨.word word, start⟩ :: rest) =
          ([], ⟨.word word, start⟩ :: rest) := rfl
      rw [stops, Grammar.outcome_words_cons, List.append_nil]
      cases assignments with
      | nil => exact absurd rfl present
      | cons =>
        exact (pulls.argument _ [] word looked.sees_used fewer).of_eq
          (Functor.map_map _ _ (Grammar.arguments ending rest).outcome)
    | _ => exact .returns (by simp [leadingAssignments]) looked.sees

/-- A simple command, or the definition of a function. -/
theorem simple_succ (pulls : Pulls dialect text ending limit) {next : PlacedToken}
    (begins : (∃ word, next.token = .word word) ∨ ∃ assigned, next.token = .assignment assigned)
    (looked : Looked dialect text ending parser next tokens)
    (enough : 5 * tokens.length + 1 ≤ limit) :
    Reads dialect text ending ((PullParser.simple (limit + 1) [] []).run parser)
      (Grammar.command ending (next :: tokens)).outcome := by
  rcases next with ⟨token, start⟩
  rw [PullParser.simple, run_bind_of_ok looked.run_peek]
  obtain ⟨word, rfl⟩ | ⟨assigned, rfl⟩ := begins
  · dsimp only
    rw [run_bind_of_ok looked.run_take]
    dsimp only
    have words {after : PullParser} {rest : List PlacedToken}
        (plain : ∀ next ∈ rest.head?, next.token ≠ .leftParen)
        (sees : Sees dialect text ending after rest)
        (enough : 5 * rest.length + 1 ≤ limit) :
        Reads dialect text ending ((PullParser.simple limit [] ([] ++ [word])).run after)
          (Grammar.command ending (⟨.word word, start⟩ :: rest)).outcome := by
      rw [Grammar.outcome_command_word word start plain]
      exact pulls.argument [] [] word sees enough
    refine .peek looked.sees_used ?_ ?_ ?_
    · rintro error place rest rfl ends
      have plain : ∀ next ∈ ([] : List PlacedToken).head?, next.token ≠ .leftParen := by simp
      rw [Grammar.outcome_command_word word start plain]
      exact (breaks_arguments ending []).map _ error place rest rfl ends
    · rintro place after rfl rfl stands
      exact words (by simp) (stands.sees_end place) enough
    · rintro ⟨token, inner⟩ rest after rfl looked'
      cases token with
      | leftParen =>
        simp only [List.length_cons] at enough
        exact pulls.definition word start looked'.sees (by omega)
      | _ => exact words (by simp) looked'.sees enough
  · dsimp only
    rw [run_get_bind, run_bind_of_ok looked.run_take, Grammar.outcome_command_assignment]
    exact pulls.assignments looked.sees_used (List.cons_ne_nil _ _) enough

theorem definition_succ (pulls : Pulls dialect text ending limit) {inner : List Char} (word : Word)
    (start : List Char) (sees : Sees dialect text ending parser (⟨.leftParen, inner⟩ :: tokens))
    (enough : 5 * tokens.length + 4 ≤ limit) :
    Reads dialect text ending ((PullParser.definition (limit + 1) word).run parser)
      (Grammar.command ending (⟨.word word, start⟩ :: ⟨.leftParen, inner⟩ :: tokens)).outcome := by
  rw [Grammar.outcome_command_leftParen, PullParser.definition]
  cases Grammar.definedName? word with
  | none => exact .unexpected sees
  | some name =>
    dsimp only
    rw [Grammar.outcome_bodyOf_bind]
    refine .expect sees fun _ _ _ opened behindFirst => ?_
    cases opened
    refine .expect behindFirst fun _ rest _ closed behindSecond => ?_
    subst closed
    simp only [List.length_cons] at enough
    have skipped := (Grammar.skipNewlines_suffix rest).length_le
    have fewer : rest.length < limit := by omega
    refine .skip behindSecond fewer ((breaks_expect ending _ _).bind _) fun after sees => ?_
    exact (Agrees.map (pulls.group sees (show 5 * (skipNewlines rest).length + 1 ≤ limit by omega))
      _).of_eq (map_bind _ (Grammar.expect ending .leftBrace (skipNewlines rest)) _).symm

private theorem group_succ (pulls : Pulls dialect text ending limit)
    (sees : Sees dialect text ending parser tokens) (enough : 5 * tokens.length ≤ limit) :
    Reads dialect text ending ((PullParser.group (limit + 1)).run parser)
      ((Grammar.expect ending .leftBrace tokens).bind fun opened =>
        (Grammar.group ending opened.1 opened.2).outcome) := by
  rw [PullParser.group, run_get_bind]
  refine .expect sees fun start rest after whole inside => ?_
  subst whole
  simp only [List.length_cons] at enough
  rw [sees.position_of_cons]
  exact (pulls.members [] inside (by omega)).of_eq
    (id_map (Grammar.group ending start rest).outcome).symm

/-- A member of a group and what follows it. -/
theorem member (pulls : Pulls dialect text ending limit) {opening : List Char}
    (body : List Command) (first : Command) (sees : Sees dialect text ending parser tokens)
    (enough : 5 * tokens.length + 4 ≤ limit) :
    Reads dialect text ending
      ((do
        match ← peek with
        | none => throw (.refused (.unterminated .braceGroup (text.length - opening.length)))
        | some after =>
          if after.isSeparator || after == .rightBrace then
            PullParser.members limit (text.length - opening.length) (body ++ [first])
          else unexpected : Pull (List Command)).run parser)
      ((Grammar.afterMember ending opening first tokens).map fun read =>
        (body ++ read.1, read.2)) := by
  refine .peek sees ?_ ?_ ?_
  · rintro error start rest rfl rfl
    rfl
  · rintro start after rfl rfl stands
    exact .throws rfl stands
  · rintro next rest after rfl looked
    rw [Grammar.afterMember]
    dsimp only
    split
    · refine (pulls.members (body ++ [first]) looked.sees enough).of_eq ?_
      simp only [List.append_assoc, List.singleton_append]
      exact Functor.map_map _ _ (Grammar.group ending opening (next :: rest)).outcome
    · exact .unexpected looked.sees

private theorem members_succ (pulls : Pulls dialect text ending limit) {opening : List Char}
    (body : List Command) (sees : Sees dialect text ending parser tokens)
    (enough : 5 * tokens.length + 3 ≤ limit) :
    Reads dialect text ending
      ((PullParser.members (limit + 1) (text.length - opening.length) body).run parser)
      ((Grammar.group ending opening tokens).outcome.map fun read => (body ++ read.1, read.2)) := by
  rw [PullParser.members]
  refine .skip sees (by omega) (.map (breaks_group ending opening tokens) _) fun after sees => ?_
  have skipped := (Grammar.skipSeparators_suffix tokens).length_le
  change Sees dialect text ending after (Grammar.skipSeparators tokens) at sees
  refine .peek sees (.map (breaks_group ending opening tokens) _) ?_ ?_
  · rintro start after none rfl stands
    rw [Grammar.outcome_group_nil none]
    exact .throws rfl stands
  · rintro next rest after found looked
    rw [found, List.length_cons] at skipped
    split
    · rename_i same
      cases same
    · rename_i same
      obtain ⟨token, start⟩ := next
      obtain rfl : token = .rightBrace := Option.some.inj same
      rw [Grammar.outcome_group_rightBrace found, run_bind_of_ok looked.run_take]
      exact .returns (by rw [List.append_nil]) looked.sees_used
    · rename_i token differs same
      obtain rfl : next.token = token := Option.some.inj same
      rw [Grammar.outcome_group_cons found differs]
      refine .of_eq (.bind (pulls.andOr looked.sees (by simp only [List.length_cons]; omega))
        fun first more last read sees => ?_)
        (map_bind _ (Grammar.andOr ending (next :: rest)).outcome _)
      have shorter := (Reading.proper_of_outcome read).shorter
      simp only [List.length_cons] at shorter
      exact pulls.member body first sees (show 5 * more.length + 4 ≤ limit by omega)

private theorem command_succ (pulls : Pulls dialect text ending limit)
    (sees : Sees dialect text ending parser tokens) (enough : 5 * tokens.length + 1 ≤ limit) :
    Reads dialect text ending ((PullParser.command (limit + 1)).run parser)
      (Grammar.command ending tokens).outcome := by
  rw [PullParser.command]
  refine .peek sees (breaks_command ending tokens) ?_ ?_
  · rintro start after rfl rfl stands
    have none : Grammar.NoCommand [] := by simp [Grammar.NoCommand]
    rw [Grammar.outcome_command_other none]
    exact .unexpected (stands.sees_end start)
  · rintro ⟨token, start⟩ rest after rfl looked
    simp only [List.length_cons] at enough
    cases token with
    | leftBrace =>
      rw [Grammar.outcome_command_leftBrace]
      exact .map (pulls.group looked.sees (by simp only [List.length_cons]; omega)) _
    | word word => exact pulls.simple (.inl ⟨word, rfl⟩) looked (by omega)
    | assignment assigned => exact pulls.simple (.inr ⟨assigned, rfl⟩) looked (by omega)
    | _ =>
      rw [Grammar.outcome_command_other (by simp [Grammar.NoCommand])]
      exact .unexpected looked.sees

private theorem chain_succ (pulls : Pulls dialect text ending limit) (left : Command)
    (sees : Sees dialect text ending parser tokens) (enough : 5 * tokens.length ≤ limit) :
    Reads dialect text ending ((PullParser.chain (limit + 1) left).run parser)
      (Grammar.chain ending left tokens).outcome := by
  rw [PullParser.chain]
  refine .peek sees (breaks_chain ending left tokens) ?_ ?_
  · rintro start after rfl rfl stands
    rw [Grammar.outcome_chain_nil]
    exact .returns rfl (stands.sees_end start)
  · rintro next rest after rfl looked
    have skipped := (Grammar.skipNewlines_suffix rest).length_le
    simp only [List.length_cons] at enough
    rw [Grammar.outcome_chain_cons]
    dsimp only [Option.bind]
    cases Grammar.connective? next.token with
    | none => exact .returns rfl looked.sees
    | some connective =>
      dsimp only
      rw [run_bind_of_ok looked.run_take]
      refine .skip looked.sees_used (by omega) ((breaks_command ending _).bind _)
        fun after sees => ?_
      refine .bind (pulls.command sees (by omega)) fun right more last read sees => ?_
      have shorter := (Reading.proper_of_outcome read).shorter
      exact pulls.chain _ sees (show 5 * more.length + 1 ≤ limit by omega)

private theorem andOr_succ (pulls : Pulls dialect text ending limit)
    (sees : Sees dialect text ending parser tokens) (enough : 5 * tokens.length + 2 ≤ limit) :
    Reads dialect text ending ((PullParser.andOr (limit + 1)).run parser)
      (Grammar.andOr ending tokens).outcome := by
  rw [PullParser.andOr, Grammar.outcome_andOr]
  refine .bind (pulls.command sees enough) fun left rest after read sees => ?_
  have shorter := (Reading.proper_of_outcome read).shorter
  exact pulls.chain left sees (show 5 * rest.length + 1 ≤ limit by omega)

end Pulls

/-- By induction on the limit, which goes down with each round and each call. -/
theorem pulls (dialect : Dialect) (text : List Char) (ending : Ending) (limit : Nat) :
    Pulls dialect text ending limit := by
  induction limit with
  | zero => constructor <;> intros <;> omega
  | succ limit ih =>
    constructor
    · intro parser tokens assignments words sees present enough
      exact ih.arguments_succ assignments sees present (Nat.le_of_succ_le_succ enough)
    · intro parser tokens assignments sees present enough
      exact ih.assignments_succ sees present (Nat.le_of_succ_le_succ enough)
    · intro parser next tokens begins looked enough
      exact ih.simple_succ begins looked (Nat.le_of_succ_le_succ enough)
    · intro parser inner rest word start sees enough
      exact ih.definition_succ word start sees (Nat.le_of_succ_le_succ enough)
    · intro parser tokens sees enough
      exact ih.group_succ sees (Nat.le_of_succ_le_succ enough)
    · intro parser tokens opening body sees enough
      exact ih.members_succ body sees (Nat.le_of_succ_le_succ enough)
    · intro parser tokens sees enough
      exact ih.command_succ sees (Nat.le_of_succ_le_succ enough)
    · intro parser tokens left sees enough
      exact ih.chain_succ left sees (Nat.le_of_succ_le_succ enough)
    · intro parser tokens sees enough
      exact ih.andOr_succ sees (Nat.le_of_succ_le_succ enough)

end PolicyShell.PullParser
