import PolicyShell.Syntax.Token.Scan

/-! The tokens of a text, and how the text ends. -/
namespace PolicyShell

/-- A token and the text from the place where it was looked for. Blanks before it are still in
that text. -/
structure PlacedToken where
  token : Token
  start : List Char

/-- How the tokens of a text come to an end; `start` is the text after the last of them. -/
inductive Ending where
  | finished (start : List Char)
  /-- No token could be read, and `rest` was left unread. -/
  | broken (error : ParseError) (start rest : List Char)

def Ending.start : Ending → List Char
  | finished start | broken _ start _ => start

/-- The tokens at the beginning of a text. -/
def readTokens (dialect : Dialect) (text : List Char) : List PlacedToken × Ending :=
  match read : Token.scan dialect text with
  | ⟨.error error, rest⟩ => ([], .broken error text rest)
  | ⟨.ok none, _⟩ => ([], .finished text)
  | ⟨.ok (some token), rest⟩ =>
    have := Token.length_rest_lt_of_scan read
    let (tokens, ending) := readTokens dialect rest
    (⟨token, text⟩ :: tokens, ending)
termination_by text.length

/-- Where the tokens and the ending were looked for. -/
def starts (tokens : List PlacedToken) (ending : Ending) : List (List Char) :=
  tokens.map PlacedToken.start ++ [ending.start]

/-- Tokens in their order, each found in a shorter text than the one before. -/
structure TokenStream where
  tokens : List PlacedToken
  ending : Ending
  descending : (starts tokens ending).Pairwise fun earlier later => later.length < earlier.length

namespace TokenStream

theorem starts_readTokens (dialect : Dialect) (text : List Char) :
    (starts (readTokens dialect text).1 (readTokens dialect text).2).head? = some text := by
  fun_cases readTokens dialect text <;> simp_all [starts, Ending.start]

theorem descending_readTokens (dialect : Dialect) (text : List Char) :
    (starts (readTokens dialect text).1 (readTokens dialect text).2).Pairwise
      fun earlier later => later.length < earlier.length := by
  fun_induction readTokens dialect text with
  | case1 => simp [starts]
  | case2 => simp [starts]
  | case3 text token rest read shorter tokens ending same ih =>
    have head := starts_readTokens dialect rest
    simp only [same] at ih head ⊢
    refine List.pairwise_cons.mpr ⟨fun later member => ?_, ih⟩
    change (starts tokens ending).head? = some rest at head
    change later ∈ starts tokens ending at member
    obtain ⟨others, whole⟩ := List.head?_eq_some_iff.mp head
    rw [whole] at ih member
    rcases List.mem_cons.mp member with rfl | member
    · exact shorter
    · exact Nat.lt_trans (List.rel_of_pairwise_cons ih member) shorter

def read (dialect : Dialect) (text : List Char) : TokenStream :=
  ⟨_, _, descending_readTokens dialect text⟩

/-- The text from the place where the next token is looked for. -/
def start (stream : TokenStream) : List Char :=
  match stream.tokens with
  | [] => stream.ending.start
  | next :: _ => next.start

theorem head?_starts (stream : TokenStream) :
    (starts stream.tokens stream.ending).head? = some stream.start := by
  unfold start
  split <;> simp_all [starts]

@[simp] theorem start_read (dialect : Dialect) (text : List Char) :
    (read dialect text).start = text :=
  Option.some.inj ((head?_starts _).symm.trans (starts_readTokens dialect text))

/-- The stream without some of its first tokens. -/
def dropTo (stream : TokenStream) (rest : List PlacedToken) (suffix : rest <:+ stream.tokens) :
    TokenStream :=
  ⟨rest, stream.ending, stream.descending.sublist ((suffix.map _).sublist.append_right _)⟩

/-- Nothing is left. -/
def empty : TokenStream := ⟨[], .finished [], by simp [starts]⟩

/-- A place after the first token has less text behind it. -/
theorem length_lt_start {stream : TokenStream} {first : PlacedToken} {others : List PlacedToken}
    (present : stream.tokens = first :: others) {later : List Char}
    (member : later ∈ starts others stream.ending) : later.length < stream.start.length := by
  have descending := stream.descending
  have starts_eq : starts stream.tokens stream.ending = first.start :: starts others stream.ending := by
    simp [present, starts]
  rw [starts_eq] at descending
  have whole : stream.start = first.start := by simp [start, present]
  rw [whole]
  exact List.rel_of_pairwise_cons descending member

theorem length_start_dropTo_lt {stream : TokenStream} {rest : List PlacedToken}
    (suffix : rest <:+ stream.tokens) (shorter : rest.length < stream.tokens.length) :
    (stream.dropTo rest suffix).start.length < stream.start.length := by
  cases present : stream.tokens with
  | nil => simp [present] at shorter
  | cons first others =>
    refine length_lt_start present ?_
    have member := List.mem_of_head? (head?_starts (stream.dropTo rest suffix))
    rw [present] at suffix shorter
    have later : rest <:+ others := by
      rcases List.suffix_cons_iff.mp suffix with same | later
      · simp [same] at shorter
      · exact later
    exact ((later.map _).sublist.append_right _).subset member

theorem length_start_pos {stream : TokenStream} (present : stream.tokens ≠ []) :
    0 < stream.start.length := by
  obtain ⟨first, others, whole⟩ := List.exists_cons_of_ne_nil present
  have member : stream.ending.start ∈ starts others stream.ending := by simp [starts]
  exact Nat.zero_lt_of_lt (length_lt_start whole member)

end TokenStream

end PolicyShell
