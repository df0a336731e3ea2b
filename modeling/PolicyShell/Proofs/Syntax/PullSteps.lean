import PolicyShell.Proofs.Syntax.Line
import PolicyShell.Proofs.Syntax.Next
import PolicyShell.Proofs.Syntax.PullParser

/-! What a pull parser does where it stands, in terms of the tokens from there on. -/
namespace PolicyShell.PullParser

/-- In the middle of `text` with `start` still to be read. The token that was looked at is the
first one of it. -/
inductive Stands (dialect : Dialect) (text : List Char) : PullParser → List Char → Prop where
  | unlooked {start : List Char} (suffix : start <:+ text) :
      Stands dialect text ⟨dialect, ⟨text, start⟩, none⟩ start
  | looked {start rest : List Char} {token : Token} (suffix : start <:+ text)
      (scanned : Token.scan dialect start = ⟨.ok (some token), rest⟩) :
      Stands dialect text ⟨dialect, ⟨text, rest⟩, some (token, text.length - start.length)⟩ start

section
variable {dialect : Dialect} {text start rest : List Char} {parser : PullParser}

private theorem Stands.suffix (stands : Stands dialect text parser start) : start <:+ text := by
  cases stands with
  | unlooked suffix => exact suffix
  | looked suffix => exact suffix

theorem Stands.position (stands : Stands dialect text parser start) :
    parser.position = text.length - start.length := by
  cases stands <;> rfl

theorem suffix_of_scan {token : Except ParseError (Option Token)} (suffix : start <:+ text)
    (scanned : Token.scan dialect start = ⟨token, rest⟩) : rest <:+ text := by
  have inside := Token.rest_scan_suffix dialect start
  rw [scanned] at inside
  exact inside.trans suffix

/-- Another choice of the dialect goes back to the place before a token that was looked at. -/
theorem Stands.withDialect (stands : Stands dialect text parser start) (mode : Dialect) :
    Stands mode text (parser.withDialect mode) start := by
  unfold PullParser.withDialect
  cases stands with
  | unlooked suffix =>
    dsimp only
    split
    · rename_i same
      obtain rfl : mode = dialect := same
      exact .unlooked suffix
    · exact .unlooked suffix
  | looked suffix scanned =>
    dsimp only
    split
    · rename_i same
      obtain rfl : mode = dialect := same
      exact .looked suffix scanned
    · rw [Cursor.moveTo, ← List.suffix_iff_eq_drop.mp suffix]
      exact .unlooked suffix

end

section
variable {α β : Type} {parser after : PullParser} {action : Pull α}

theorem run_bind_of_ok {value : α} (read : action.run parser = (.ok value, after))
    (later : α → Pull β) : (action >>= later).run parser = (later value).run after := by
  show (match action.run parser with | (result, after) => ExceptT.bindCont later result after) = _
  rw [read]
  rfl

theorem run_bind_of_error {halt : Halt} (read : action.run parser = (.error halt, after))
    (later : α → Pull β) : (action >>= later).run parser = (.error halt, after) := by
  show (match action.run parser with | (result, after) => ExceptT.bindCont later result after) = _
  rw [read]
  rfl

theorem run_get_bind (later : PullParser → Pull β) :
    (get >>= later : Pull β).run parser = (later parser).run parser := rfl

private theorem Stands.run_peek {dialect : Dialect} {text start : List Char}
    (stands : Stands dialect text parser start) :
    peek.run parser = match Token.scan dialect start with
      | ⟨.error error, rest⟩ =>
        (.error (.refused (error.locate text.length)), ⟨dialect, ⟨text, rest⟩, none⟩)
      | ⟨.ok none, rest⟩ => (.ok none, ⟨dialect, ⟨text, rest⟩, none⟩)
      | ⟨.ok (some token), rest⟩ =>
        (.ok (some token), ⟨dialect, ⟨text, rest⟩, some (token, text.length - start.length)⟩) := by
  cases stands with
  | unlooked suffix =>
    rw [peek, run_get_bind]
    dsimp only [Cursor.next]
    rcases Token.scan dialect start with ⟨_ | _ | _, rest⟩ <;> rfl
  | looked suffix scanned =>
    rw [scanned]
    rfl

end

/-- The ending of the tokens is found by looking for one more token. After that, the text is at its
end. -/
structure Sees (dialect : Dialect) (text : List Char) (ending : Ending) (parser : PullParser)
    (tokens : List PlacedToken) : Prop where
  exists_start : ∃ start, Stands dialect text parser start ∧
    (readTokens dialect start = (tokens, ending) ∨
      start = [] ∧ tokens = [] ∧ ∃ place, ending = .finished place)

/-- The next token was looked at. -/
inductive Looked (dialect : Dialect) (text : List Char) (ending : Ending) :
    PullParser → PlacedToken → List PlacedToken → Prop where
  | intro {next : PlacedToken} {rest : List Char} {others : List PlacedToken}
      (suffix : next.start <:+ text)
      (scanned : Token.scan dialect next.start = ⟨.ok (some next.token), rest⟩)
      (read : readTokens dialect rest = (others, ending)) :
      Looked dialect text ending
        ⟨dialect, ⟨text, rest⟩, some (next.token, text.length - next.start.length)⟩ next others

/-- The parser when the token that was looked at is used up. -/
def used (parser : PullParser) : PullParser := { parser with ahead := none }

section
variable {dialect : Dialect} {text : List Char} {ending : Ending} {parser : PullParser}
  {next : PlacedToken} {tokens others : List PlacedToken}

theorem resumption_of_readTokens {start : List Char}
    (read : readTokens dialect start = (tokens, ending)) :
    Grammar.resumption ending tokens = start := by
  have first := TokenStream.starts_readTokens dialect start
  rw [read] at first
  cases tokens <;> exact Option.some.inj first

namespace Looked

theorem stands (looked : Looked dialect text ending parser next others) :
    Stands dialect text parser next.start := by
  obtain ⟨suffix, scanned, _⟩ := looked
  exact .looked suffix scanned

theorem sees (looked : Looked dialect text ending parser next others) :
    Sees dialect text ending parser (next :: others) := by
  refine ⟨next.start, looked.stands, .inl ?_⟩
  obtain ⟨_, scanned, read⟩ := looked
  rw [readTokens_of_some scanned, read]

theorem stands_used (looked : Looked dialect text ending parser next others) :
    Stands dialect text parser.used (Grammar.resumption ending others) := by
  obtain ⟨suffix, scanned, read⟩ := looked
  rw [resumption_of_readTokens read]
  exact .unlooked (suffix_of_scan suffix scanned)

theorem sees_used (looked : Looked dialect text ending parser next others) :
    Sees dialect text ending parser.used others := by
  refine ⟨_, looked.stands_used, .inl ?_⟩
  obtain ⟨_, _, read⟩ := looked
  rwa [resumption_of_readTokens read]

theorem run_peek (looked : Looked dialect text ending parser next others) :
    peek.run parser = (.ok (some next.token), parser) := by
  cases looked
  rfl

/-- What is used is what was looked at. -/
theorem run_take (looked : Looked dialect text ending parser next others) :
    take.run parser = (.ok (some next.token), parser.used) := by
  cases looked
  rfl

end Looked

/-- What is found by looking for a token. -/
inductive Look (dialect : Dialect) (text : List Char) (ending : Ending) (parser : PullParser) :
    List PlacedToken → Prop where
  | ended {start : List Char} {after : PullParser} (ends : ending = .finished start)
      (read : peek.run parser = (.ok none, after)) (stands : Stands dialect text after []) :
      Look dialect text ending parser []
  | broken {error : ParseError} {start rest : List Char} {after : PullParser}
      (ends : ending = .broken error start rest)
      (read : peek.run parser = (.error (.refused (error.locate text.length)), after))
      (stands : Stands dialect text after rest) : Look dialect text ending parser []
  | present {next : PlacedToken} {others : List PlacedToken} {after : PullParser}
      (read : peek.run parser = (.ok (some next.token), after))
      (looked : Looked dialect text ending after next others) :
      Look dialect text ending parser (next :: others)

private theorem Sees.look (sees : Sees dialect text ending parser tokens) :
    Look dialect text ending parser tokens := by
  obtain ⟨start, stands, same⟩ := sees
  have suffix := stands.suffix
  have read := stands.run_peek
  rcases scanned : Token.scan dialect start with ⟨error | _ | token, rest⟩
  · rw [scanned] at read
    rw [readTokens_of_error scanned] at same
    obtain ⟨⟨⟩⟩ | ⟨rfl, -⟩ := same
    · exact .broken rfl read (.unlooked (suffix_of_scan suffix scanned))
    · cases scanned
  · rw [scanned] at read
    rw [readTokens_of_none scanned] at same
    obtain rfl := Token.rest_of_scan_none dialect scanned
    obtain ⟨⟨⟩⟩ | ⟨-, rfl, place, ends⟩ := same
    · exact .ended rfl read (.unlooked List.nil_suffix)
    · exact .ended ends read (.unlooked List.nil_suffix)
  · rw [scanned] at read
    rw [readTokens_of_some scanned] at same
    obtain ⟨⟨⟩⟩ | ⟨rfl, -⟩ := same
    · exact .present read (@Looked.intro dialect text _ ⟨token, start⟩ rest _ suffix scanned rfl)
    · cases scanned

theorem Sees.position_of_cons (sees : Sees dialect text ending parser (next :: others)) :
    parser.position = text.length - next.start.length := by
  obtain ⟨start, stands, read | ⟨-, nothing, -⟩⟩ := sees
  · obtain rfl : next.start = start := resumption_of_readTokens read
    exact stands.position
  · cases nothing

/-- At the end of the text there are no tokens. -/
theorem Stands.sees_end (stands : Stands dialect text parser []) (place : List Char) :
    Sees dialect text (.finished place) parser [] :=
  ⟨[], stands, .inr ⟨rfl, rfl, place, rfl⟩⟩

end

/-- An answer with what is ahead behind it, or an error, where the parser then stands at the place
from which reading goes on. -/
inductive Agrees (dialect : Dialect) (text : List Char) {α ρ : Type}
    (ahead : PullParser → ρ → Prop) :
    Except Halt α × PullParser → Except Rejection (α × ρ) → Prop where
  | ok {value : α} {parser : PullParser} {rest : ρ} (sees : ahead parser rest) :
      Agrees dialect text ahead (.ok value, parser) (.ok (value, rest))
  | error {rejection : Rejection} {parser : PullParser}
      (stands : Stands dialect text parser rejection.rest) :
      Agrees dialect text ahead (.error (.refused (rejection.error.locate text.length)), parser)
        (.error rejection)

/-- Agreement with a reading of tokens. -/
abbrev Reads (dialect : Dialect) (text : List Char) (ending : Ending) {α : Type}
    (answer : Except Halt α × PullParser) (outcome : Except Rejection (α × List PlacedToken)) :
    Prop :=
  Agrees dialect text (Sees dialect text ending) answer outcome

/-- The error that a broken token gives, whatever it was looked for. -/
def Breaks {α : Type} (ending : Ending) (tokens : List PlacedToken)
    (outcome : Except Rejection α) : Prop :=
  ∀ error start rest, tokens = [] → ending = .broken error start rest →
    outcome = .error ⟨error, rest⟩

section
variable {ending : Ending} {tokens : List PlacedToken} {α β : Type} {outcome : Except Rejection α}

theorem Breaks.bind (breaks : Breaks ending tokens outcome) (later : α → Except Rejection β) :
    Breaks ending tokens (outcome.bind later) := by
  intro error start rest none ends
  rw [breaks error start rest none ends]
  rfl

theorem Breaks.map (breaks : Breaks ending tokens outcome) (change : α → β) :
    Breaks ending tokens (outcome.map change) := by
  intro error start rest none ends
  rw [breaks error start rest none ends]
  rfl

theorem breaks_arguments (ending : Ending) (tokens : List PlacedToken) :
    Breaks ending tokens (Grammar.arguments ending tokens).outcome := by
  rintro error start rest rfl rfl
  exact Grammar.outcome_arguments_nil _

theorem breaks_chain (ending : Ending) (left : Command) (tokens : List PlacedToken) :
    Breaks ending tokens (Grammar.chain ending left tokens).outcome := by
  rintro error start rest rfl rfl
  exact Grammar.outcome_chain_nil ..

theorem breaks_command (ending : Ending) (tokens : List PlacedToken) :
    Breaks ending tokens (Grammar.command ending tokens).outcome := by
  rintro error start rest rfl rfl
  exact Grammar.outcome_command_other (by simp [Grammar.NoCommand])

theorem breaks_expect (ending : Ending) (token : Token) (tokens : List PlacedToken) :
    Breaks ending tokens (Grammar.expect ending token tokens) := by
  rintro error start rest rfl rfl
  rfl

theorem breaks_group (ending : Ending) (opening : List Char) (tokens : List PlacedToken) :
    Breaks ending (Grammar.skipSeparators tokens)
      (Grammar.group ending opening tokens).outcome := by
  rintro error start rest none rfl
  exact Grammar.outcome_group_nil none

end

section
variable {dialect : Dialect} {text : List Char} {ending : Ending} {parser : PullParser}
  {tokens : List PlacedToken} {α β ρ σ : Type} {ahead : PullParser → ρ → Prop}
  {ahead' : PullParser → σ → Prop}

namespace Agrees

theorem returns {value value' : α} {rest : ρ} (same : value = value')
    (sees : ahead parser rest) :
    Agrees dialect text ahead ((pure value : Pull α).run parser) (.ok (value', rest)) :=
  same ▸ .ok sees

theorem throws {rejection : Rejection} {error : ParseError}
    (same : error = rejection.error.locate text.length)
    (stands : Stands dialect text parser rejection.rest) :
    Agrees dialect text ahead ((throw (.refused error) : Pull α).run parser) (.error rejection) :=
  same ▸ .error stands

private theorem breaks {error : ParseError} {rest : List Char}
    (stands : Stands dialect text parser rest) :
    Agrees dialect text ahead (.error (.refused (error.locate text.length)), parser)
      (.error ⟨error, rest⟩ : Except Rejection (α × ρ)) :=
  @Agrees.error dialect text α ρ ahead ⟨error, rest⟩ parser stands

/-- One part of reading after another. -/
theorem bind {action : Pull α} {later : α → Pull β} {outcome : Except Rejection (α × ρ)}
    {continuation : α × ρ → Except Rejection (β × σ)}
    (first : Agrees dialect text ahead (action.run parser) outcome)
    (others : ∀ value rest after, outcome = .ok (value, rest) → ahead after rest →
      Agrees dialect text ahead' ((later value).run after) (continuation (value, rest))) :
    Agrees dialect text ahead' ((action >>= later).run parser) (outcome.bind continuation) := by
  generalize read : action.run parser = answer at first
  cases first with
  | ok sees =>
    rw [run_bind_of_ok read]
    exact others _ _ _ rfl sees
  | error stands =>
    rw [run_bind_of_error read]
    exact .error stands

/-- Nothing is done behind an error. -/
theorem stops {action : Pull α} {rejection : Rejection}
    (first : Agrees dialect text ahead (action.run parser) (.error rejection))
    (later : α → Pull β) :
    Agrees dialect text ahead ((action >>= later).run parser) (.error rejection) := by
  generalize read : action.run parser = answer at first
  cases first with
  | error stands =>
    rw [run_bind_of_error read]
    exact .error stands

theorem map {action : Pull α} {outcome : Except Rejection (α × ρ)}
    (first : Agrees dialect text ahead (action.run parser) outcome) (change : α → β) :
    Agrees dialect text ahead ((do return change (← action) : Pull β).run parser)
      (outcome.map fun read => (change read.1, read.2)) := by
  generalize read : action.run parser = answer at first
  cases first with
  | ok sees =>
    rw [run_bind_of_ok read]
    exact .returns rfl sees
  | error stands =>
    rw [run_bind_of_error read]
    exact .error stands

/-- Another form of the same reading. -/
theorem of_eq {answer : Except Halt α × PullParser} {outcome outcome' : Except Rejection (α × ρ)}
    (agrees : Agrees dialect text ahead answer outcome) (same : outcome' = outcome) :
    Agrees dialect text ahead answer outcome' :=
  same ▸ agrees

/-- Looking for a token. -/
theorem peek {later : Option Token → Pull β} {outcome : Except Rejection (β × ρ)}
    (sees : Sees dialect text ending parser tokens) (broken : Breaks ending tokens outcome)
    (ended : ∀ start after, tokens = [] → ending = .finished start →
      Stands dialect text after [] →
        Agrees dialect text ahead ((later none).run after) outcome)
    (present : ∀ next others after, tokens = next :: others →
      Looked dialect text ending after next others →
        Agrees dialect text ahead ((later (some next.token)).run after) outcome) :
    Agrees dialect text ahead ((PullParser.peek >>= later).run parser) outcome := by
  cases sees.look with
  | ended ends read stands =>
    rw [run_bind_of_ok read]
    exact ended _ _ rfl ends stands
  | broken ends read stands =>
    rw [run_bind_of_error read, broken _ _ _ rfl ends]
    exact .breaks stands
  | present read looked =>
    rw [run_bind_of_ok read]
    exact present _ _ _ rfl looked

theorem unexpected (sees : Sees dialect text ending parser tokens) :
    Agrees dialect text ahead ((PullParser.unexpected : Pull α).run parser)
      (.error (Grammar.unexpected ending tokens)) := by
  unfold PullParser.unexpected
  refine .peek sees ?_ ?_ ?_
  · rintro error start rest rfl rfl
    rfl
  · rintro start after rfl rfl stands
    dsimp only
    rw [run_get_bind]
    refine .throws ?_ stands
    rw [stands.position]
    rfl
  · rintro next others after rfl looked
    dsimp only
    rw [run_get_bind]
    refine .throws ?_ looked.stands
    rw [looked.stands.position]
    rfl

/-- Using up an expected token. -/
theorem expect {token : Token} {later : Unit → Pull β}
    {continuation : List Char × List PlacedToken → Except Rejection (β × ρ)}
    (sees : Sees dialect text ending parser tokens)
    (others : ∀ start rest after, tokens = ⟨token, start⟩ :: rest →
      Sees dialect text ending after rest →
        Agrees dialect text ahead ((later ()).run after) (continuation (start, rest))) :
    Agrees dialect text ahead ((PullParser.expect token >>= later).run parser)
      ((Grammar.expect ending token tokens).bind continuation) := by
  unfold PullParser.expect
  rw [bind_assoc]
  refine .peek sees ?_ ?_ ?_
  · rintro error start rest rfl rfl
    rfl
  · rintro start after rfl rfl stands
    dsimp only
    rw [Grammar.expect]
    exact .stops (.unexpected (stands.sees_end start)) later
  · rintro next rest after rfl looked
    rw [Grammar.expect]
    dsimp only
    split
    · rename_i same
      rw [bind_assoc, run_bind_of_ok looked.run_take]
      exact others _ _ _ (same ▸ rfl) looked.sees_used
    · exact .stops (.unexpected looked.sees) later

/-- Using up all tokens of a kind. -/
theorem skip {isSkipped : Token → Bool} {limit : Nat} {later : Unit → Pull β}
    {outcome : Except Rejection (β × ρ)}
    (sees : Sees dialect text ending parser tokens) (enough : tokens.length < limit)
    (broken : Breaks ending (tokens.dropWhile (isSkipped ·.token)) outcome)
    (others : ∀ after, Sees dialect text ending after (tokens.dropWhile (isSkipped ·.token)) →
      Agrees dialect text ahead ((later ()).run after) outcome) :
    Agrees dialect text ahead ((PullParser.skip isSkipped limit >>= later).run parser)
      outcome := by
  induction limit generalizing tokens parser with
  | zero => cases enough
  | succ limit ih =>
    rw [PullParser.skip, bind_assoc]
    refine .peek sees ?_ ?_ ?_
    · rintro error start rest rfl ends
      exact broken error start rest rfl ends
    · rintro start after rfl rfl stands
      exact others after (stands.sees_end start)
    · rintro next rest after rfl looked
      dsimp only
      cases skips : isSkipped next.token with
      | true =>
        rw [if_pos rfl, bind_assoc, run_bind_of_ok looked.run_take]
        simp only [List.dropWhile_cons, skips] at broken others
        exact ih looked.sees_used (Nat.lt_of_succ_lt_succ enough) broken others
      | false =>
        simp only [List.dropWhile_cons, skips] at others
        exact others after looked.sees

end Agrees

end

end PolicyShell.PullParser
