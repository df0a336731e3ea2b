import PolicyShell.Proofs.Syntax.Derivations
import PolicyShell.Proofs.Syntax.Joined
import PolicyShell.Proofs.Syntax.Programs

/-! The texts that are programs are those whose tokens the grammar derives, and a program has the
commands of its derivation. -/
namespace PolicyShell

namespace Grammar

variable {tokens rest rest' : List Token}

/-- One more chain at the beginning of a program. -/
theorem IsProgram.cons {first : Command} {others : List Command} {leading : List Token}
    {next : Token} (before : AllSeparators leading)
    (here : Derives (.andOr first) tokens (next :: rest)) (separates : next.isSeparator = true)
    (later : IsProgram others rest) : IsProgram (first :: others) (leading ++ tokens) := by
  cases later with
  | empty blank => exact .sequence before (.last here) (List.forall_mem_cons.mpr ⟨separates, blank⟩)
  | @sequence _ between _ _ blank inside after =>
    have joined : AllSeparators (next :: between) := List.forall_mem_cons.mpr ⟨separates, blank⟩
    exact .sequence before (.more here (List.cons_ne_nil next between) joined inside) after

private theorem endsChain_nil : EndsChain [] := nofun

private theorem AllSeparators.ends (blank : AllSeparators rest) : EndsChain rest := by
  simpa using blank.endsChain endsChain_nil

theorem Derives.dropWhile_eq {phrase : Phrase} {separators : List Token}
    (derives : Derives phrase tokens rest) (blank : AllSeparators separators) :
    (separators ++ tokens).dropWhile Token.isSeparator = tokens :=
  dropWhile_append_of_begins blank (fun _ => not_separator_of_beginsCommand) derives.begins

theorem Derives.not_allSeparators {phrase : Phrase} (derives : Derives phrase tokens rest)
    (leading : List Token) : ¬ AllSeparators (leading ++ tokens) := by
  intro blank
  obtain ⟨first, others, rfl, begins⟩ := derives.begins
  have separates := blank first (List.mem_append_right leading (List.mem_cons_self ..))
  rw [not_separator_of_beginsCommand begins] at separates
  cases separates

theorem Derives.andOr_unique {first second : Command} (here : Derives (.andOr first) tokens rest)
    (there : Derives (.andOr second) tokens rest') (ends : EndsChain rest)
    (ends' : EndsChain rest') : first = second ∧ rest = rest' := by
  -- both are what is read from the tokens, wherever these stand
  have same : bare (tokens.map (PlacedToken.mk · [])) = tokens := by
    rw [bare, List.map_map]
    exact List.map_id tokens
  obtain ⟨after, rfl, read⟩ := here.isRead [] _ same ends.endsCommand
  obtain ⟨after', rfl, read'⟩ := there.isRead [] _ same ends'.endsCommand
  rw [chain_of_endsChain ends] at read
  rw [chain_of_endsChain ends'] at read'
  cases read.symm.trans read'
  exact ⟨rfl, rfl⟩

theorem Derives.sequence_unique {commands others : List Command}
    (here : Derives (.sequence commands) tokens rest)
    (there : Derives (.sequence others) tokens rest') (blank : AllSeparators rest)
    (blank' : AllSeparators rest') : commands = others := by
  induction commands generalizing others tokens with
  | nil => cases here
  | cons first commands ih =>
    cases here with
    | last here =>
      cases there with
      | last there =>
        obtain ⟨rfl, -⟩ := here.andOr_unique there blank.ends blank'.ends
        rfl
      | @more _ _ _ separators middle _ there present between later =>
        obtain ⟨-, rfl⟩ :=
          here.andOr_unique there blank.ends (endsChain_of_separators between present middle)
        exact absurd blank (later.not_allSeparators separators)
    | @more _ _ _ separators middle _ here present between later =>
      have ends := endsChain_of_separators between present middle
      cases there with
      | last there =>
        obtain ⟨-, rfl⟩ := here.andOr_unique there ends blank'.ends
        exact absurd blank' (later.not_allSeparators separators)
      | @more _ _ _ separators' middle' _ there present' between' later' =>
        obtain ⟨rfl, left⟩ :=
          here.andOr_unique there ends (endsChain_of_separators between' present' middle')
        have same : middle = middle' := by
          rw [← later.dropWhile_eq between, left, later'.dropWhile_eq between']
        rw [ih later (same ▸ later')]

theorem IsProgram.unique {commands others : List Command} (here : IsProgram commands tokens)
    (there : IsProgram others tokens) : commands = others := by
  cases here with
  | empty blank =>
    generalize same : tokens = whole at there
    cases there with
    | empty => rfl
    | sequence before inside _ => exact absurd (same ▸ blank) (inside.not_allSeparators _)
  | @sequence _ leading trailing tokens before inside after =>
    generalize same : leading ++ tokens = whole at there
    cases there with
    | empty blank => exact absurd (same ▸ blank) (inside.not_allSeparators leading)
    | @sequence _ leading' _ tokens' before' inside' after' =>
      have skipped : tokens = tokens' := by
        rw [← inside.dropWhile_eq before, same, inside'.dropWhile_eq before']
      exact inside.sequence_unique (skipped ▸ inside') after after'

end Grammar

open Grammar

variable {dialect : Dialect} {text rest : List Char}

/-- A text is made of these tokens, and of blanks and comments. -/
inductive Lexes (dialect : Dialect) : List Char → List Token → Prop where
  | done {text rest : List Char} (read : Token.scan dialect text = ⟨.ok none, rest⟩) :
      Lexes dialect text []
  | more {text rest : List Char} {token : Token} {tokens : List Token}
      (read : Token.scan dialect text = ⟨.ok (some token), rest⟩)
      (later : Lexes dialect rest tokens) : Lexes dialect text (token :: tokens)

theorem readTokens_of_lexes {tokens : List Token} (lexes : Lexes dialect text tokens) :
    bare (readTokens dialect text).1 = tokens ∧
      ∃ start, (readTokens dialect text).2 = .finished start := by
  induction lexes with
  | done read =>
    rw [readTokens_of_none read]
    exact ⟨rfl, _, rfl⟩
  | more read _ ih =>
    rw [readTokens_of_some read]
    exact ⟨congrArg _ ih.1, ih.2⟩

theorem lexes_of_finished {start : List Char}
    (finished : (readTokens dialect text).2 = .finished start) :
    Lexes dialect text (bare (readTokens dialect text).1) := by
  fun_induction readTokens dialect text with
  | case1 => cases finished
  | case2 text rest read => exact .done read
  | case3 text token rest read _ tokens ending same ih =>
    rw [same] at ih
    exact .more read (ih finished)

/-- What is ahead when a command was read up to a separator: the tokens after this one. -/
theorem readTokens_resumption {next : PlacedToken} {later : List PlacedToken}
    (ahead : next :: later <:+ (readTokens dialect text).1) :
    readTokens dialect (resumption (readTokens dialect text).2 later) =
      (later, (readTokens dialect text).2) := by
  refine TokenStream.readTokens_of_suffix (suffix_of_cons ahead) ?_
  cases later <;> rfl

theorem suffix_of_andOr {first : PlacedToken} {others after : List PlacedToken} {command : Command}
    (present : skipSeparators (readTokens dialect text).1 = first :: others)
    (read : (andOr (readTokens dialect text).2 (first :: others)).outcome = .ok (command, after)) :
    after <:+ (readTokens dialect text).1 := by
  have follows := (Reading.proper_of_outcome read).suffix
  rw [← present] at follows
  exact follows.trans (skipSeparators_suffix _)

theorem isProgram_of_commands {length : Nat} {text : List Char} {commands : List Command}
    (read : (Parser.reading dialect length text).commands = .ok commands) :
    IsProgram commands (bare (readTokens dialect text).1) := by
  rw [Parser.commands_reading] at read
  obtain ⟨leading, before, whole⟩ := exists_separators (readTokens dialect text).1
  split at read
  · cases read
  · rename_i next
    cases read
    obtain ⟨-, separators, -⟩ := ends_of_readNext_none next
    rw [whole, separators]
    exact .empty (by simpa using before)
  · rename_i command rest next
    have shorter := length_lt_of_readNext next
    obtain ⟨first, others, after, present, outcome, close⟩ := ends_of_readNext next
    have here := derives_of_andOr outcome
    rw [whole, present]
    obtain ⟨-, ⟨rfl, rfl⟩ | ⟨separator, later, rfl, separates, rfl⟩⟩ := closeCommand_eq_ok close
    · rw [Parser.commands_reading, readNext_nil] at read
      cases read
      exact .sequence before (.last here) nofun
    · obtain ⟨others, last, rfl⟩ := Reading.exists_of_map_ok read
      have more := isProgram_of_commands last
      rw [readTokens_resumption (suffix_of_andOr present outcome)] at more
      exact .cons before here separates more
termination_by text.length

section
variable {start : List Char} {length : Nat}
  (finished : (readTokens dialect text).2 = .finished start)

include finished

private theorem readNext_of_separators (blank : AllSeparators (bare (readTokens dialect text).1)) :
    readNext dialect text = .ok (none, []) := by
  have nothing : bare (skipSeparators (readTokens dialect text).1) = [] := by
    rw [bare_skipSeparators]
    exact List.dropWhile_eq_nil_iff.mpr blank
  rw [readNext, List.map_eq_nil_iff.mp nothing, finished]
  rfl

theorem commands_of_separators (blank : AllSeparators (bare (readTokens dialect text).1)) :
    (Parser.reading dialect length text).commands = .ok [] := by
  rw [Parser.commands_reading, readNext_of_separators finished blank]

/-- A command is read up to its end, and a separator with it. -/
theorem readNext_of_derives {command : Command} {tokens after : List Token}
    (derives : Derives (.andOr command) tokens after)
    (ends : ∀ next ∈ after.head?, next.isSeparator = true)
    (same : bare (skipSeparators (readTokens dialect text).1) = tokens) :
    ∃ rest, readNext dialect text = .ok (some command, rest) ∧
      bare (readTokens dialect rest).1 = after.tail ∧
      ∃ start, (readTokens dialect rest).2 = .finished start := by
  have complete : EndsChain after := fun next member => .inl (ends next member)
  obtain ⟨left, rfl, read⟩ := derives.isRead start _ same complete.endsCommand
  rw [chain_of_endsChain complete] at read
  obtain ⟨_, _, rfl, -⟩ := derives.begins
  obtain ⟨place, others, present, -⟩ := exists_of_bare_cons same
  rw [present] at read
  have next : readNext dialect text = closeCommand (.finished start) command left := by
    rw [readNext, finished, present, firstCommand, read]
    rfl
  rw [next]
  cases left with
  | nil =>
    have nothing : readTokens dialect [] = ([], .finished []) := readTokens_of_none rfl
    exact ⟨[], rfl, by rw [nothing]; rfl, [], by rw [nothing]⟩
  | cons separator later =>
    have separates : separator.token.isSeparator = true := ends separator.token rfl
    rw [← finished] at read
    have again := readTokens_resumption (suffix_of_andOr present read)
    rw [finished] at again
    exact ⟨_, by rw [closeCommand, if_pos separates], by rw [again]; rfl, start, by rw [again]⟩

private theorem commands_of_derives {commands : List Command} {tokens trailing : List Token}
    (derives : Derives (.sequence commands) tokens trailing) (blank : AllSeparators trailing)
    (same : bare (skipSeparators (readTokens dialect text).1) = tokens) :
    (Parser.reading dialect length text).commands = .ok commands := by
  induction commands generalizing text start tokens with
  | nil => cases derives
  | cons first others ih =>
    cases derives with
    | last here =>
      have ends : ∀ next ∈ trailing.head?, next.isSeparator = true :=
        fun next member => blank next (List.mem_of_mem_head? member)
      obtain ⟨rest, next, left, start, finished⟩ := readNext_of_derives finished here ends same
      have blank' : AllSeparators (bare (readTokens dialect rest).1) := by
        rw [left]
        exact fun token member => blank token (List.mem_of_mem_tail member)
      rw [Parser.commands_reading, next]
      dsimp only
      rw [commands_of_separators finished blank']
      rfl
    | @more _ _ _ separators middle _ here present between later =>
      obtain ⟨separator, separators, rfl⟩ := List.exists_cons_of_ne_nil present
      obtain ⟨separates, between⟩ := List.forall_mem_cons.mp between
      have ends : ∀ next ∈ (separator :: separators ++ middle).head?, next.isSeparator = true := by
        rintro next ⟨⟩
        exact separates
      obtain ⟨rest, next, left, start, finished⟩ := readNext_of_derives finished here ends same
      have same' := skipSeparators_of_begins left between later.begins
      rw [Parser.commands_reading, next]
      dsimp only
      rw [ih finished later same']
      rfl

theorem commands_of_isProgram {commands : List Command}
    (program : IsProgram commands (bare (readTokens dialect text).1)) :
    (Parser.reading dialect length text).commands = .ok commands := by
  generalize same : bare (readTokens dialect text).1 = tokens at program
  cases program with
  | empty blank => exact commands_of_separators finished (same ▸ blank)
  | sequence before inside after =>
    exact commands_of_derives finished inside after
      (skipSeparators_of_begins same before inside.begins)

end

/-- A text is read as a program just when its tokens are those of this program, and the tokens
determine the program. -/
theorem parse_eq_ok_iff :
    (∀ (dialect : Dialect) (text : String) (commands : List Command),
      parse dialect text = .ok commands ↔
        ∃ tokens, Lexes dialect text.toList tokens ∧ IsProgram commands tokens) ∧
      ∀ (tokens : List Token) (first second : List Command),
        IsProgram first tokens → IsProgram second tokens → first = second := by
  refine ⟨fun dialect text commands => ⟨fun parsed => ?_, ?_⟩, fun _ _ _ => IsProgram.unique⟩
  · have reads : ReadsAll dialect text.toList := readsAll_of_parse (by rw [parsed]; rfl)
    obtain ⟨start, finished⟩ := reads.finished
    exact ⟨_, lexes_of_finished finished, isProgram_of_commands parsed⟩
  · rintro ⟨tokens, lexes, program⟩
    obtain ⟨rfl, start, finished⟩ := readTokens_of_lexes lexes
    exact commands_of_isProgram finished program

end PolicyShell
