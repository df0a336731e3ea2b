import PolicyShell.Proofs.Syntax.Joined
import PolicyShell.Proofs.Syntax.Programs
import PolicyShell.Proofs.Syntax.PullRules

/-! Reading advances with every token and every command, and so it comes to an end. -/
namespace PolicyShell

namespace PullParser

variable {dialect : Dialect} {text start : List Char} {limit : Nat} {parser : PullParser}

/-- The next command is the first one of the unread text. -/
theorem agrees_next (stands : Stands dialect text parser start)
    (enough : 5 * start.length + 3 ≤ limit) :
    Agrees dialect text (Stands dialect text) ((next limit).run parser)
      (readNext dialect start) := by
  have fewer := length_readTokens_le dialect start
  have sees : Sees dialect text (readTokens dialect start).2 parser (readTokens dialect start).1 :=
    ⟨start, stands, .inl rfl⟩
  rw [readNext, next]
  generalize (readTokens dialect start).2 = ending at *
  generalize (readTokens dialect start).1 = tokens at *
  have skipped := (Grammar.skipSeparators_suffix tokens).length_le
  have broken : Breaks ending (Grammar.skipSeparators tokens)
      (Grammar.firstCommand ending (Grammar.skipSeparators tokens)) := by
    intro error place rest none ends
    rw [none, ends]
    rfl
  refine .skip sees (by omega) broken fun after sees => ?_
  change Sees dialect text ending after (Grammar.skipSeparators tokens) at sees
  refine .peek sees broken ?_ ?_
  · intro place after none ends stands
    rw [none, ends]
    exact .returns rfl stands
  · intro first rest after found looked
    rw [found] at skipped
    rw [found]
    refine .bind ((pulls dialect text ending limit).andOr looked.sees (by omega))
      fun command more last read sees => ?_
    refine .peek sees ?_ ?_ ?_
    · rintro error place rest rfl rfl
      -- No command is read up to a broken token: what comes next is looked for first.
      obtain ⟨_, ⟨⟩⟩ := Grammar.finished_of_andOr read
    · rintro place after rfl ends stands
      exact .returns rfl stands
    · rintro next rest after rfl looked
      dsimp only [Grammar.closeCommand]
      split
      · rw [run_bind_of_ok looked.run_take]
        exact .returns rfl looked.stands_used
      · exact .unexpected looked.sees

/-- A pull parser where another parser has come to. -/
structure Matches (text : String) (pull : PullParser) (parser : Parser) : Prop where
  within : parser.Within text
  stands : Stands parser.dialect text.toList pull parser.unread

namespace Matches

variable {text : String} {pull : PullParser} {parser : Parser}

private theorem ofText (dialect : Dialect) (text : String) :
    Matches text (.ofText dialect text) (.ofText dialect text) where
  within := .ofText dialect text
  stands := by
    rw [Parser.unread_ofText]
    exact .unlooked (List.suffix_refl _)

private theorem position (same : Matches text pull parser) : pull.position = parser.position := by
  rw [same.stands.position, Parser.position, same.within.length, String.length_toList]

private theorem withDialect (same : Matches text pull parser) (dialect : Dialect) :
    Matches text (pull.withDialect dialect) (parser.withDialect dialect) where
  within := same.within.withDialect dialect
  stands := by
    rw [Parser.unread_withDialect, same.within.faithful.withDialect]
    exact same.stands.withDialect dialect

/-- The same answer, and the same place behind it. -/
theorem next (same : Matches text pull parser) (enough : 5 * text.length + 3 ≤ limit) :
    ((PullParser.next limit).run pull).1 = parser.next.1.mapError .refused ∧
      Matches text ((PullParser.next limit).run pull).2 parser.next.2 := by
  have shorter := same.within.length_le
  have agrees := agrees_next same.stands (by omega : 5 * parser.unread.length + 3 ≤ limit)
  have within := same.within.next
  rw [same.within.faithful.next_eq] at within ⊢
  generalize (PullParser.next limit).run pull = answer at agrees ⊢
  generalize readNext parser.dialect parser.unread = outcome at agrees within ⊢
  cases agrees with
  | ok stands =>
    refine ⟨rfl, within, ?_⟩
    rwa [Parser.advance, Parser.unread_resume]
  | @error rejection _ stands =>
    refine ⟨?_, within, ?_⟩
    · show _ = Except.error (Halt.refused (rejection.error.locate parser.length))
      rw [same.within.length, String.length_toList]
    · rwa [Parser.advance, Parser.reject, Parser.unread_resume]

theorem after (same : Matches text pull parser) (enough : 5 * text.length + 3 ≤ limit)
    (steps : List Parser.Step) : Matches text (pull.after limit steps) (parser.after steps) := by
  induction steps generalizing pull parser with
  | nil => exact same
  | cons first rest ih =>
    cases first with
    | next => exact ih (same.next enough).2
    | setDialect dialect => exact ih (same.withDialect dialect)

private theorem commands (same : Matches text pull parser)
    (enough : 5 * text.length + 3 + parser.unread.length < limit) (read : List Command) :
    ((PullParser.commands limit read).run pull).1 =
      (parser.commands.map (read ++ ·)).mapError .refused := by
  induction limit generalizing pull parser read with
  | zero => cases enough
  | succ limit ih =>
    obtain ⟨result, later⟩ := same.next (by omega : 5 * text.length + 3 ≤ limit)
    generalize given : (PullParser.next limit).run pull = answer at result later
    obtain ⟨found, after⟩ := answer
    rw [PullParser.commands, Parser.commands]
    split
    · rename_i error _ failed
      rw [failed] at result
      obtain rfl : found = .error (.refused error) := result
      rw [run_bind_of_error given]
      rfl
    · rename_i ended
      rw [ended] at result
      obtain rfl : found = .ok none := result
      rw [run_bind_of_ok given]
      simp [Except.map]
      rfl
    · rename_i command behind advanced
      rw [advanced] at result later
      obtain rfl : found = .ok (some command) := result
      -- The rounds to come are paid for by the text that the command took up.
      have shorter := Parser.length_unread_lt_of_next advanced
      have fewer : 5 * text.length + 3 + behind.unread.length < limit := by omega
      rw [run_bind_of_ok given]
      refine (ih later fewer (read ++ [command])).trans ?_
      cases behind.commands with
      | error error => rfl
      | ok others => simp [Except.map]

end Matches

/-- Round by round, the elements of an array are those that are read of it. -/
theorem elements_eq (dialect : Dialect) (opening text : List Char) (read : List Word)
    (enough : text.length < limit) :
    elements dialect opening limit read text =
      some ((Word.scanElements dialect opening text).map (read ++ ·)) := by
  fun_induction Word.scanElements dialect opening text generalizing limit read with
  | case1 =>
    obtain _ | limit := limit
    · cases enough
    · rfl
  | case2 =>
    obtain _ | limit := limit
    · cases enough
    · simp [elements, Scanned.map, Except.map]
  | case3 c inner notClosing blank ih =>
    obtain _ | limit := limit
    · cases enough
    · rw [elements, if_pos blank]
      exacts [ih read (Nat.lt_of_succ_lt_succ enough), notClosing]
  | case4 c inner notClosing notBlank error rest scanned =>
    obtain _ | limit := limit
    · cases enough
    · rw [elements, if_neg notBlank, scanned]
      exacts [rfl, notClosing]
  | case5 c inner notClosing notBlank word rest scanned shorter ih =>
    obtain _ | limit := limit
    · cases enough
    · rw [elements, if_neg notBlank, scanned]
      · refine (ih (read ++ [word]) (by omega)).trans ?_
        rcases Word.scanElements dialect opening rest with ⟨_ | others, after⟩
        · rfl
        · simp [Scanned.map, Except.map]
      · exact notClosing

end PullParser

namespace Cursor

theorem position_moveTo {cursor : Cursor} {place : Nat} (inside : place ≤ cursor.text.length) :
    (cursor.moveTo place).position = place := by
  rw [moveTo, position, List.length_drop]
  exact Nat.sub_sub_self inside

/-- Reading goes on from where the cursor is. A token takes up text, and all of the text is taken up
where there is none. -/
theorem next_advances (cursor : Cursor) (dialect : Dialect) (inside : cursor.rest <:+ cursor.text) :
    let read := cursor.next dialect
    cursor.position ≤ read.2.position ∧ read.2.position ≤ cursor.text.length ∧
      (∀ token, read.1 = .ok (some token) → cursor.position < read.2.position) ∧
      (read.1 = .ok none → read.2.position = cursor.text.length) := by
  have shorter := (Token.rest_scan_suffix dialect cursor.rest).length_le
  have whole := inside.length_le
  dsimp only [next, position]
  rcases scanned : Token.scan dialect cursor.rest with ⟨result, rest⟩
  rw [scanned] at shorter
  dsimp only at shorter ⊢
  refine ⟨by omega, by omega, fun token found => ?_, fun ended => ?_⟩
  · obtain rfl : result = .ok (some token) := by
      cases result <;> cases found
      rfl
    have := Token.length_rest_lt_of_scan scanned
    omega
  · obtain rfl : result = .ok none := by
      cases result <;> cases ended
      rfl
    rw [Token.rest_of_scan_none dialect scanned]
    rfl

end Cursor

namespace Parser

private theorem length_commands_le {parser : Parser} {commands : List Command}
    (read : parser.commands = .ok commands) : commands.length ≤ parser.unread.length := by
  fun_induction Parser.commands parser generalizing commands with
  | case1 => cases read
  | case2 => cases read; simp
  | case3 parser command after found shorter ih =>
    obtain ⟨others, later, rfl⟩ := Reading.exists_of_map_ok read
    have := ih later
    simp only [List.length_cons]
    omega

theorem Within.position_lt_of_next {text : String} {parser after : Parser} {command : Command}
    (within : parser.Within text) (read : parser.next = (.ok (some command), after)) :
    parser.position < after.position ∧ after.position ≤ text.length := by
  have within' := within.next
  rw [read] at within'
  have shorter := length_unread_lt_of_next read
  have whole := within.length_le
  refine ⟨?_, within'.position_le⟩
  rw [position, position, within.length, within'.length]
  omega

end Parser

/-- Reading ends for every text, whether it is a program or not. A token takes up text wherever it
is looked for, and so does a command, whatever was read before and in which dialects. A parser that
reads a token when it comes to look at it gives what is read of the tokens: it stays within its
limit, and always uses the token it has looked at. -/
theorem reading_advances (dialect : Dialect) (text : String) :
    (∀ place, place ≤ text.length →
      let cursor := (Cursor.start text).moveTo place
      let read := cursor.next dialect
      cursor.position = place ∧ place ≤ read.2.position ∧ read.2.position ≤ text.length ∧
        (∀ token, read.1 = .ok (some token) → place < read.2.position) ∧
        (read.1 = .ok none → read.2.position = text.length)) ∧
    (∀ steps command after,
      let parser := (Parser.ofText dialect text).after steps
      parser.next = (.ok (some command), after) →
        parser.position < after.position ∧ after.position ≤ text.length) ∧
    (∀ limit steps, 5 * text.length + 3 ≤ limit →
      let pull := (PullParser.ofText dialect text).after limit steps
      let parser := (Parser.ofText dialect text).after steps
      pull.position = parser.position ∧
        ((PullParser.next limit).run pull).1 = parser.next.1.mapError .refused) ∧
    (∀ limit, 6 * text.length + 4 ≤ limit →
      ((PullParser.commands limit []).run (.ofText dialect text)).1 =
        (parse dialect text).mapError .refused) ∧
    (∀ limit opening place, place.length < limit →
      PullParser.elements dialect opening limit [] place =
        some (Word.scanElements dialect opening place)) ∧
    ∀ commands, parse dialect text = .ok commands → commands.length ≤ text.length := by
  have within := Parser.Within.ofText dialect text
  have same := PullParser.Matches.ofText dialect text
  have whole := within.length_le
  refine ⟨fun place inside => ?_, fun steps command after read => ?_,
    fun limit steps enough => ?_, fun limit enough => ?_, fun limit opening place enough => ?_,
    fun commands read => ?_⟩
  · have advances := ((Cursor.start text).moveTo place).next_advances dialect
      (List.drop_suffix place text.toList)
    rw [Cursor.position_moveTo inside] at advances
    exact ⟨Cursor.position_moveTo inside, advances⟩
  · exact (within.after steps).position_lt_of_next read
  · have later := same.after enough steps
    exact ⟨later.position, (later.next enough).1⟩
  · rw [same.commands (by omega), parse]
    cases (Parser.ofText dialect text).commands <;> rfl
  · rw [PullParser.elements_eq dialect opening place [] enough]
    rcases Word.scanElements dialect opening place with ⟨_ | _, after⟩ <;> rfl
  · exact Nat.le_trans (Parser.length_commands_le read) whole

/-- A word that becomes a splice by the choice of the dialect before it is read. -/
theorem reading_advances_chosen :
    let text := "a && \x7b b=(c); \x7d; @d"
    let array : Command := .simple [⟨"b", .array [.literal "c"]⟩] []
    let first : Command := .chain (.simple [] [.literal "a"]) .and (.group [array])
    let brace := ((Cursor.start text).moveTo 4).next .plain
    let steps : List Parser.Step := [.next, .setDialect .splicing]
    let parser := (Parser.ofText .plain text).after steps
    let pull := (PullParser.ofText .plain text).after 98 steps
    let splice : Command := .simple [] [⟨[.array "d" true true]⟩]
    let commands : List Command := [first, .simple [] [.literal "@d"]]
    let elements := "c);".toList
    let scanned := Word.scanElements .plain ('b' :: '=' :: '(' :: elements) elements
    (4 ≤ text.length ∧ brace.1 = .ok (some .leftBrace) ∧ 4 < brace.2.position) ∧
      (parser.next.1 = .ok (some splice) ∧ parser.position < parser.next.2.position) ∧
      (5 * text.length + 3 ≤ 98 ∧
        ((PullParser.next 98).run pull).1 = .ok (some splice)) ∧
      (6 * text.length + 4 ≤ 118 ∧
        ((PullParser.commands 118 []).run (.ofText .plain text)).1 = .ok commands) ∧
      (elements.length < 4 ∧ scanned.result = .ok [.literal "c"] ∧
        PullParser.elements .plain ('b' :: '=' :: '(' :: elements) 4 [] elements = some scanned) ∧
      parse .plain text = .ok commands ∧ commands.length ≤ text.length := by
  intro text array first brace steps parser pull splice commands elements scanned
  obtain ⟨tokens, advances, next, whole, rounds, fewer⟩ := reading_advances .plain text
  have inside : 4 ≤ text.length := by decide
  have found : brace.1 = .ok (some .leftBrace) := by decide +kernel
  have read : parser.next.1 = .ok (some splice) := by decide +kernel
  have enough : 5 * text.length + 3 ≤ 98 := by decide
  have more : 6 * text.length + 4 ≤ 118 := by decide
  have parsed : parse .plain text = .ok commands := by decide +kernel
  have short : elements.length < 4 := by decide
  have listed : scanned.result = .ok [.literal "c"] := by decide +kernel
  refine ⟨⟨inside, found, (tokens 4 inside).2.2.2.1 _ found⟩,
    ⟨read, (advances steps splice _ (Prod.ext read rfl)).1⟩, ⟨enough, ?_⟩, ⟨more, ?_⟩,
    ⟨short, listed, rounds 4 _ elements short⟩, parsed, fewer commands parsed⟩
  · rw [(next 98 steps enough).2, read]
    rfl
  · rw [whole 118 more, parsed]
    rfl

end PolicyShell
