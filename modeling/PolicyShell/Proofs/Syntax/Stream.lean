import PolicyShell.Syntax.Parser

/-! The tokens ahead of a parser are those of its unread text, whatever was read before. -/
namespace PolicyShell

section
variable {dialect : Dialect} {text rest : List Char}

theorem readTokens_of_error {error : ParseError}
    (read : Token.scan dialect text = ⟨.error error, rest⟩) :
    readTokens dialect text = ([], .broken error text rest) := by
  fun_cases readTokens dialect text <;> simp_all

theorem readTokens_of_none (read : Token.scan dialect text = ⟨.ok none, rest⟩) :
    readTokens dialect text = ([], .finished text) := by
  fun_cases readTokens dialect text <;> simp_all

theorem readTokens_of_some {token : Token}
    (read : Token.scan dialect text = ⟨.ok (some token), rest⟩) :
    readTokens dialect text =
      (⟨token, text⟩ :: (readTokens dialect rest).1, (readTokens dialect rest).2) := by
  fun_cases readTokens dialect text <;> simp_all

/-- There are no more tokens than characters. -/
theorem length_readTokens_le (dialect : Dialect) (text : List Char) :
    (readTokens dialect text).1.length ≤ text.length := by
  fun_induction readTokens dialect text with
  | case1 => simp
  | case2 => simp
  | case3 text token rest read shorter tokens ending same ih =>
    simp only [same] at ih
    simp only [List.length_cons]
    omega

end

namespace TokenStream

variable {dialect : Dialect}

theorem eq_of_parts {first second : TokenStream} (tokens : first.tokens = second.tokens)
    (ending : first.ending = second.ending) : first = second := by
  cases first
  cases second
  simp_all

/-- Reading again from a place where a token was looked for gives the tokens from there on. -/
theorem readTokens_of_suffix {text place : List Char} {after : List PlacedToken}
    (later : after <:+ (readTokens dialect text).1)
    (here : (starts after (readTokens dialect text).2).head? = some place) :
    readTokens dialect place = (after, (readTokens dialect text).2) := by
  fun_induction readTokens dialect text with
  | case1 text error rest read =>
    obtain rfl := List.suffix_nil.mp later
    obtain rfl : text = place := by simpa [starts, Ending.start] using here
    exact readTokens_of_error read
  | case2 text _ read =>
    obtain rfl := List.suffix_nil.mp later
    obtain rfl : text = place := by simpa [starts, Ending.start] using here
    exact readTokens_of_none read
  | case3 text token rest read _ tokens ending same ih =>
    simp only [same] at ih
    rcases List.suffix_cons_iff.mp later with rfl | later
    · obtain rfl : text = place := by simpa [starts] using here
      rw [readTokens_of_some read, same]
    · exact ih later here

/-- The tokens ahead are those of the text that is ahead. -/
def Faithful (dialect : Dialect) (stream : TokenStream) : Prop :=
  stream = .read dialect stream.start

theorem faithful_empty : empty.Faithful dialect := by
  have nothing : readTokens dialect [] = ([], .finished []) := readTokens_of_none rfl
  exact eq_of_parts (by simp [empty, start, Ending.start, read, nothing])
    (by simp [empty, start, Ending.start, read, nothing])

theorem Faithful.dropTo {stream : TokenStream} (faithful : stream.Faithful dialect)
    {rest : List PlacedToken} (suffix : rest <:+ stream.tokens) :
    (stream.dropTo rest suffix).Faithful dialect := by
  have tokens : stream.tokens = (readTokens dialect stream.start).1 :=
    congrArg TokenStream.tokens faithful
  have ending : stream.ending = (readTokens dialect stream.start).2 :=
    congrArg TokenStream.ending faithful
  have again := readTokens_of_suffix (tokens ▸ suffix)
    (ending ▸ head?_starts (stream.dropTo rest suffix))
  exact eq_of_parts (congrArg Prod.fst again).symm (ending.trans (congrArg Prod.snd again).symm)

end TokenStream

namespace Parser

/-- A parser with some text ahead and nothing read of it. -/
def reading (dialect : Dialect) (length : Nat) (text : List Char) : Parser :=
  ⟨dialect, length, .read dialect text⟩

@[simp] theorem unread_reading (dialect : Dialect) (length : Nat) (text : List Char) :
    (reading dialect length text).unread = text :=
  TokenStream.start_read dialect text

@[simp] theorem unread_ofText (dialect : Dialect) (text : String) :
    (ofText dialect text).unread = text.toList :=
  TokenStream.start_read dialect text.toList

@[simp] theorem unread_resume (parser : Parser) (text : List Char) :
    (parser.resume text).unread = text :=
  TokenStream.start_read parser.dialect text

/-- A parser that remembers no more than its dialect, its unread text and the length of the
whole text. -/
def Faithful (parser : Parser) : Prop :=
  parser = reading parser.dialect parser.length parser.unread

theorem faithful_iff (parser : Parser) :
    parser.Faithful ↔ parser.stream.Faithful parser.dialect := by
  cases parser
  simp [Faithful, reading, unread, TokenStream.Faithful]

theorem faithful_reading (dialect : Dialect) (length : Nat) (text : List Char) :
    (reading dialect length text).Faithful := by
  rw [Faithful, unread_reading]
  rfl

theorem Faithful.withDialect {parser : Parser} (faithful : parser.Faithful) (dialect : Dialect) :
    parser.withDialect dialect = reading dialect parser.length parser.unread := by
  unfold Parser.withDialect
  split
  · rename_i same
    rw [same]
    exact faithful
  · rfl

theorem faithful_resume (parser : Parser) (text : List Char) : (parser.resume text).Faithful :=
  faithful_reading parser.dialect parser.length text

section
variable {parser : Parser} {tokens : List PlacedToken} {ahead : tokens <:+ parser.stream.tokens}

private theorem length_nextAt : (parser.nextAt tokens ahead).2.length = parser.length := by
  fun_cases nextAt parser tokens ahead <;> rfl

private theorem faithful_nextAt (faithful : parser.Faithful) :
    (parser.nextAt tokens ahead).2.Faithful := by
  have stream := (faithful_iff parser).mp faithful
  fun_cases nextAt parser tokens ahead with
  | case1 => exact (faithful_iff _).mpr TokenStream.faithful_empty
  | case2 => exact faithful_resume ..
  | case3 => exact faithful_resume ..
  | case4 => exact (faithful_iff _).mpr TokenStream.faithful_empty
  | case5 first others ahead _ after rest follows =>
    exact (faithful_iff _).mpr
      (stream.dropTo (((List.suffix_cons ..).trans follows.suffix).trans ahead))
  | case6 => exact faithful_resume ..

end

@[simp] theorem length_next (parser : Parser) : parser.next.2.length = parser.length :=
  length_nextAt

theorem Faithful.next {parser : Parser} (faithful : parser.Faithful) : parser.next.2.Faithful :=
  faithful_nextAt faithful

end Parser

end PolicyShell
