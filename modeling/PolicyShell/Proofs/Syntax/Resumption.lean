import PolicyShell.Proofs.Syntax.Next

/-! A parser that was used is as good as a fresh one on the text it has not read. -/
namespace PolicyShell.Parser

/-- What may be done with a parser. -/
inductive Step where
  | next
  | setDialect (dialect : Dialect)

def step (parser : Parser) : Step → Parser
  | .next => parser.next.2
  | .setDialect dialect => parser.withDialect dialect

def after (parser : Parser) (steps : List Step) : Parser := steps.foldl step parser

/-- The number of characters before the text that is still to be read. -/
def position (parser : Parser) : Nat := parser.length - parser.unread.length

/-- A parser in the middle of a text that remembers nothing of what it has read. -/
structure Within (text : String) (parser : Parser) : Prop where
  faithful : parser.Faithful
  length : parser.length = text.length
  suffix : parser.unread <:+ text.toList

namespace Within

variable {text : String} {parser : Parser}

theorem ofText (dialect : Dialect) (text : String) : (Parser.ofText dialect text).Within text where
  faithful := faithful_reading dialect text.length text.toList
  length := rfl
  suffix := (unread_ofText dialect text) ▸ List.suffix_refl _

theorem withDialect (within : parser.Within text) (dialect : Dialect) :
    (parser.withDialect dialect).Within text where
  faithful := by
    rw [within.faithful.withDialect]
    exact faithful_reading ..
  length := by
    rw [within.faithful.withDialect]
    exact within.length
  suffix := by
    rw [unread_withDialect]
    exact within.suffix

theorem suffix_next (within : parser.Within text) : parser.next.2.unread <:+ parser.unread := by
  rw [within.faithful.next_eq]
  cases read : readNext parser.dialect parser.unread with
  | error rejection =>
    rw [show (parser.advance (.error rejection)).2 = parser.resume rejection.rest from rfl,
      unread_resume]
    exact (sound_of_readNext read).suffix
  | ok result =>
    rw [show (parser.advance (.ok result)).2 = parser.resume result.2 from rfl, unread_resume]
    exact suffix_of_readNext read

theorem next (within : parser.Within text) : parser.next.2.Within text where
  faithful := within.faithful.next
  length := (length_next parser).trans within.length
  suffix := within.suffix_next.trans within.suffix

/-- Nothing that is done with a parser leaves it with more than its unread text. -/
theorem after (within : parser.Within text) (steps : List Step) :
    (parser.after steps).Within text := by
  induction steps generalizing parser with
  | nil => exact within
  | cons first rest ih =>
    cases first with
    | next => exact ih within.next
    | setDialect dialect => exact ih (within.withDialect dialect)

theorem length_le (within : parser.Within text) : parser.unread.length ≤ text.length := by
  rw [← String.length_toList]
  exact within.suffix.length_le

theorem position_le (within : parser.Within text) : parser.position ≤ text.length := by
  rw [position, within.length]
  exact Nat.sub_le ..

/-- The unread text is what lies behind the position. -/
theorem drop_position (within : parser.Within text) :
    text.toList.drop parser.position = parser.unread := by
  rw [position, within.length, ← String.length_toList]
  exact (List.suffix_iff_eq_drop.mp within.suffix).symm

end Within

/-- A fresh parser on the text behind the position of another one. -/
theorem Within.ofText_drop {text : String} {parser : Parser} (within : parser.Within text)
    (mode : Dialect) :
    Parser.ofText mode (String.ofList (text.toList.drop parser.position)) =
      reading mode parser.unread.length parser.unread := by
  rw [within.drop_position, Parser.ofText, String.length_ofList, String.toList_ofList, reading]

/-- Reading on is reading afresh behind the position, with the places of errors shifted. -/
theorem Within.next_eq_fresh {text : String} {parser : Parser} (within : parser.Within text) :
    let fresh := reading parser.dialect parser.unread.length parser.unread
    parser.next.1 = fresh.next.1.mapError (·.mapPlace (· + parser.position)) ∧
      parser.next.2.stream = fresh.next.2.stream := by
  intro fresh
  have same : fresh.next = fresh.advance (readNext parser.dialect parser.unread) := by
    rw [(faithful_reading ..).next_eq, unread_reading]
    rfl
  rw [within.faithful.next_eq, same]
  cases read : readNext parser.dialect parser.unread with
  | error rejection =>
    have sound := sound_of_readNext read
    refine ⟨congrArg Except.error ?_, rfl⟩
    rw [sound.within.locate (within.length ▸ within.length_le)]
    rfl
  | ok result => exact ⟨rfl, rfl⟩

/-- After any use of a parser and a choice of the dialect, the next command, end or error is that
of a fresh parser on the text behind the position, and so is the place where reading goes on. The
choice moves nothing, and leaves only tokens of the chosen dialect ahead. -/
theorem next_after (dialect mode : Dialect) (text : String) (steps : List Step) :
    let parser := (ofText dialect text).after steps
    let chosen := parser.withDialect mode
    let fresh := ofText mode (String.ofList (text.toList.drop parser.position))
    parser.position ≤ text.length ∧
      chosen.position = parser.position ∧
      chosen.stream = .read mode (text.toList.drop parser.position) ∧
      chosen.next.1 = fresh.next.1.mapError (·.mapPlace (· + parser.position)) ∧
      chosen.next.2.position = parser.position + fresh.next.2.position ∧
      chosen.next.2.stream = fresh.next.2.stream := by
  intro parser chosen fresh
  have within : parser.Within text := (Within.ofText dialect text).after steps
  have moved : chosen.Within text := within.withDialect mode
  have reread : chosen = reading mode parser.length parser.unread :=
    within.faithful.withDialect mode
  have unread : chosen.unread = parser.unread := unread_withDialect parser mode
  have position : chosen.position = parser.position := by
    rw [Parser.position, Parser.position, unread, reread, reading]
  have same : fresh = reading mode chosen.unread.length chosen.unread := by
    rw [unread]
    exact within.ofText_drop mode
  have dialect : chosen.dialect = mode := by rw [reread, reading]
  obtain ⟨result, stream⟩ := moved.next_eq_fresh
  rw [dialect, ← same] at result stream
  refine ⟨within.position_le, position, ?_, position ▸ result, ?_, stream⟩
  · rw [within.drop_position, reread, reading]
  · have left : chosen.next.2.unread = fresh.next.2.unread := congrArg TokenStream.start stream
    have shorter := moved.suffix_next.length_le
    have whole := moved.length_le
    have length : fresh.length = chosen.unread.length := by rw [same, reading]
    rw [← position]
    simp only [Parser.position, length_next, moved.length, length, ← left]
    omega

end PolicyShell.Parser
