import PolicyShell.Proofs.Syntax.Lookahead

/-! More blanks and line continuations where there are some already: what they change. -/
namespace PolicyShell

/-- What is put in: a blank or a line continuation. -/
inductive Filler where
  | blank
  | continuation

def Filler.text : Filler → List Char
  | blank => [' ']
  | continuation => ['\\', '\n']

/-- Blanks, tabs and line continuations. -/
inductive Spacing : List Char → Prop where
  | none : Spacing []
  | blank {rest : List Char} (later : Spacing rest) : Spacing (' ' :: rest)
  | tab {rest : List Char} (later : Spacing rest) : Spacing ('\t' :: rest)
  | continuation {rest : List Char} (later : Spacing rest) : Spacing ('\\' :: '\n' :: rest)

/-- The places between two tokens that are directly behind a blank, a tab or a line continuation,
by the texts before and behind them. -/
inductive TokenGap (dialect : Dialect) : List Char → List Char → Prop where
  /-- What is before the place is dropped when a token is looked for. -/
  | dropped {front spacing after : List Char} (spaces : Spacing spacing) (present : spacing ≠ [])
      (comes : Comes dialect (front ++ (spacing ++ after)) .tokens (spacing ++ after)) :
      TokenGap dialect (front ++ spacing) after
  /-- The pieces of a token go on up to a line continuation, and only further ones follow before
  its end. -/
  | swallowed {front place inner rest : List Char} {pieces : List Piece} {count : Nat}
      (comes : Comes dialect (front ++ '\\' :: '\n' :: (continuations count ++ rest)) .tokens place)
      (spelled : Token.Spelled dialect (skipBlanks place) inner)
      (steps : Steps Piece.Step inner pieces ('\\' :: '\n' :: (continuations count ++ rest)))
      (ends : atWordEnd rest = true) :
      TokenGap dialect (front ++ ['\\', '\n']) (continuations count ++ rest)

/-- What is directly before a place in an array. -/
inductive Anchor where
  /-- A character that separates elements. -/
  | gap
  /-- A line continuation, and nothing of the element that begins with it. -/
  | leading
  /-- A line continuation with which an element ends. -/
  | trailing

/-- The places between the elements of an array, or between an element and a parenthesis, by the
texts before and behind them. -/
inductive ElementGap (dialect : Dialect) : Anchor → List Char → List Char → Prop where
  | gap {front opening after : List Char} {c : Char} (isGap : Word.IsGap c)
      (comes : Comes dialect (front ++ c :: after) (.elements opening) (c :: after)) :
      ElementGap dialect .gap (front ++ [c]) after
  | leading {front opening after : List Char} {count : Nat}
      (comes : Comes dialect (front ++ (continuations (count + 1) ++ after)) (.elements opening)
        (continuations (count + 1) ++ after)) :
      ElementGap dialect .leading (front ++ continuations (count + 1)) after
  | trailing {front opening place rest : List Char} {pieces : List Piece} {count : Nat}
      (comes : Comes dialect (front ++ '\\' :: '\n' :: (continuations count ++ rest))
        (.elements opening) place)
      (begins : Word.BeginsElement place) (noSplice : Word.splice? dialect place = none)
      (steps : Steps Piece.Step place pieces ('\\' :: '\n' :: (continuations count ++ rest)))
      (ends : atWordEnd rest = true) :
      ElementGap dialect .trailing (front ++ ['\\', '\n']) (continuations count ++ rest)

/-- What can be put in there without any effect. A line continuation does not separate elements:
it begins the next one, which then is no splice and may not be missing. -/
def Anchor.Allows (dialect : Dialect) (after : List Char) : Anchor → Filler → Prop
  | gap, .blank => True
  | gap, .continuation => Word.BeginsElement after ∧ Word.splice? dialect after = none
  | leading, .blank => False
  | leading, .continuation => True
  | trailing, .blank => ¬['\\', '\n'] <+: after
  | trailing, .continuation => True

theorem skipBlanks_spacing {spacing : List Char} (spaces : Spacing spacing) (rest : List Char) :
    skipBlanks (spacing ++ rest) = skipBlanks rest := by
  induction spaces with
  | none => rfl
  | blank _ ih => rwa [List.cons_append, skipBlanks]
  | tab _ ih => rwa [List.cons_append, skipBlanks]
  | continuation _ ih => rwa [List.cons_append, List.cons_append, skipBlanks]

private theorem Filler.spacing (filler : Filler) : Spacing filler.text := by
  cases filler with
  | blank => exact .blank .none
  | continuation => exact .continuation .none

private theorem spacing_continuations (count : Nat) : Spacing (continuations count) := by
  induction count with
  | zero => exact .none
  | succ count ih => exact .continuation ih

theorem scan_spacing {dialect : Dialect} {spacing : List Char} (spaces : Spacing spacing)
    (rest : List Char) : Token.scan dialect (spacing ++ rest) = Token.scan dialect rest :=
  congrArg (Token.scanHere dialect) (skipBlanks_spacing spaces rest)

theorem Word.scanElements_opening {dialect : Dialect} {opening opening' text rest : List Char}
    {words : List Word} (read : scanElements dialect opening text = ⟨.ok words, rest⟩) :
    scanElements dialect opening' text = ⟨.ok words, rest⟩ :=
  scanElements_eq_ok_iff.mpr (scanElements_eq_ok_iff.mp read)

namespace Piece

/-- Line continuations are no pieces. -/
theorem scan_continuations (count : Nat) (rest : List Char) :
    scan (continuations count ++ rest) = scan rest := by
  induction count with
  | zero => rfl
  | succ count ih => rwa [continuations, List.cons_append, List.cons_append, scan_continued]

theorem ended_continuations (count : Nat) {rest : List Char} (ends : atWordEnd rest = true) :
    scan (continuations count ++ rest) = ⟨.ok [], rest⟩ :=
  (scan_continuations count rest).trans (scan_of_atWordEnd ends)

/-- A word of which only line continuations are left is read. -/
theorem steps_of_ended {text tail rest : List Char} {pieces : List Piece}
    (steps : Steps Step text pieces ('\\' :: '\n' :: tail))
    (ended : scan tail = ⟨.ok [], rest⟩) : Steps Step text pieces rest ∧ atWordEnd rest = true := by
  refine scan_eq_ok_iff.mp ?_
  rw [scan_steps steps, scan_continued, ended]
  exact congrArg (Scanned.mk · rest) (congrArg Except.ok (List.append_nil pieces))

end Piece

section
variable {dialect : Dialect} {text place rest : List Char} {tokens front : List Token}

private theorem lexes_cons_iff {token : Token} :
    Lexes dialect text (token :: tokens) ↔
      ∃ rest, Token.scan dialect text = ⟨.ok (some token), rest⟩ ∧ Lexes dialect rest tokens := by
  constructor
  · intro lexes
    cases lexes with
    | more read later => exact ⟨_, read, later⟩
  · rintro ⟨rest, read, later⟩
    exact .more read later

theorem lexes_of_scan_eq {text' : List Char}
    (same : Token.scan dialect text = Token.scan dialect text')
    (lexes : Lexes dialect text tokens) : Lexes dialect text' tokens := by
  cases lexes with
  | done read => exact .done (same ▸ read)
  | more read later => exact .more (same ▸ read) later

private theorem Lexes.spacing {spacing : List Char} (spaces : Spacing spacing)
    (lexes : Lexes dialect rest tokens) : Lexes dialect (spacing ++ rest) tokens :=
  lexes_of_scan_eq (scan_spacing spaces rest).symm lexes

/-- The tokens of a text are those up to a place and those from there on. -/
theorem Steps.lexes_iff (steps : Steps (Token.Step dialect) text front place) :
    Lexes dialect text tokens ↔ ∃ later, tokens = front ++ later ∧ Lexes dialect place later := by
  induction steps generalizing tokens with
  | done place => exact ⟨fun lexes => ⟨tokens, rfl, lexes⟩, fun ⟨_, same, lexes⟩ => same ▸ lexes⟩
  | more first _ ih =>
    obtain ⟨read⟩ := first
    constructor
    · intro lexes
      cases lexes with
      | done none => cases none.symm.trans read
      | more read' later =>
        cases read'.symm.trans read
        obtain ⟨last, rfl, lexes⟩ := ih.mp later
        exact ⟨last, rfl, lexes⟩
    · rintro ⟨last, rfl, lexes⟩
      exact .more read (ih.mpr ⟨last, rfl, lexes⟩)

end

/-- If a token is behind its first character at some place in the text, what is there can be
replaced: the tokens stay the same just when this one does, and the later ones. -/
theorem lexes_at_token {dialect : Dialect} {front place kept tail : List Char} {c : Char}
    {tokens : List Token} (comes : Comes dialect (front ++ c :: tail) .tokens place)
    (here : skipBlanks place = kept ++ c :: tail) (present : kept ≠ [])
    (lexes : Lexes dialect (front ++ c :: tail) tokens) :
    ∃ token later rest, Token.scanHere dialect (kept ++ c :: tail) = ⟨.ok (some token), rest⟩ ∧
      Lexes dialect rest later ∧ ∀ tail', Lexes dialect (front ++ c :: tail') tokens ↔
        ∃ rest', Token.scanHere dialect (kept ++ c :: tail') = ⟨.ok (some token), rest'⟩ ∧
          Lexes dialect rest' later := by
  cases comes with
  | token steps =>
    obtain ⟨blanks, whole⟩ := skipBlanks_suffix place
    rw [here] at whole
    subst whole
    obtain ⟨start, whole⟩ := steps.suffix Token.consuming_step
    obtain rfl : front = start ++ blanks ++ kept :=
      List.append_cancel_right (whole.symm.trans (by simp))
    obtain ⟨later, rfl, lexesHere⟩ := steps.lexes_iff.mp lexes
    cases lexesHere with
    | done none =>
      rw [Token.scan, here] at none
      have empty := Token.empty_of_scanHere dialect (congrArg Scanned.result none)
      cases kept <;> cases empty
    | @more _ rest token later read lexesLater =>
      rw [Token.scan, here] at read
      refine ⟨token, later, rest, read, lexesLater, fun tail' => ?_⟩
      have dropped := skipBlanks_before present here tail'
      have steps' := Steps.before Token.consuming_step Token.local_step
        (by simpa using steps : Steps _ (start ++ (blanks ++ kept ++ c :: tail)) _
          (blanks ++ kept ++ c :: tail)) tail'
      have whole' : start ++ blanks ++ kept ++ c :: tail' =
          start ++ (blanks ++ kept ++ c :: tail') := by simp
      rw [whole', steps'.lexes_iff, ← dropped]
      constructor
      · rintro ⟨later', same, lexes'⟩
        obtain rfl := List.append_cancel_left same
        rw [List.append_assoc] at lexes'
        exact lexes_cons_iff.mp lexes'
      · intro lexes'
        refine ⟨token :: later, rfl, ?_⟩
        rw [List.append_assoc]
        exact lexes_cons_iff.mpr lexes'

section
variable {dialect : Dialect} {before lexeme tail tail' rest rest' : List Char}
  {pieces : List Piece}

/-- What is not found before a line continuation is not found with other text behind it. -/
theorem none_of_continued {α : Type} {find : List Char → Option (α × List Char)}
    (stopped : ∀ text after,
      find (text ++ '\n' :: after) = (find text).map fun read => (read.1, read.2 ++ '\n' :: after))
    (absent : find (lexeme ++ '\\' :: '\n' :: tail) = none) (tail' : List Char) :
    find (lexeme ++ '\\' :: '\n' :: tail') = none := by
  have whole (tail : List Char) :
      lexeme ++ '\\' :: '\n' :: tail = lexeme ++ ['\\'] ++ '\n' :: tail := by simp
  rw [whole] at absent ⊢
  exact none_of_stopped stopped absent tail'

theorem Piece.steps_continued
    (steps : Steps Step (lexeme ++ '\\' :: '\n' :: tail) pieces ('\\' :: '\n' :: tail))
    (ended' : scan tail' = ⟨.ok [], rest'⟩) :
    Steps Step (lexeme ++ '\\' :: '\n' :: tail') pieces rest' ∧ atWordEnd rest' = true :=
  steps_of_ended (steps.swap consuming_step local_step ('\n' :: tail')) ended'

/-- A word that is read up to a line continuation is read in the same way whatever ends it. -/
theorem Word.scan_continued {word : Word} {after : List Char}
    (noSplice : splice? dialect (lexeme ++ '\\' :: '\n' :: tail) = none)
    (steps : Steps Piece.Step (lexeme ++ '\\' :: '\n' :: tail) pieces ('\\' :: '\n' :: tail))
    (ended : Piece.scan tail = ⟨.ok [], rest⟩) (ended' : Piece.scan tail' = ⟨.ok [], rest'⟩)
    (read : scan dialect (lexeme ++ '\\' :: '\n' :: tail) = ⟨.ok word, after⟩) :
    after = rest ∧ scan dialect (lexeme ++ '\\' :: '\n' :: tail') = ⟨.ok word, rest'⟩ := by
  have noSplice' := none_of_continued (splice?_stopped dialect rfl) noSplice tail'
  obtain ⟨steps', ends'⟩ := Piece.steps_continued steps ended'
  obtain ⟨whole, ends⟩ := Piece.steps_continued steps ended
  rw [scan_of_steps noSplice whole ends] at read
  rw [scan_of_steps noSplice' steps' ends']
  cases pieces with
  | nil => cases read
  | cons first others =>
    cases read
    exact ⟨rfl, rfl⟩

namespace Token

/-- A token that is read piece by piece up to a line continuation is read in the same way whatever
ends it. -/
theorem Spelled.scanHere_continued {token : Token} {after : List Char}
    (spelled : Spelled dialect (before ++ (lexeme ++ '\\' :: '\n' :: tail))
      (lexeme ++ '\\' :: '\n' :: tail))
    (steps : Steps Piece.Step (lexeme ++ '\\' :: '\n' :: tail) pieces ('\\' :: '\n' :: tail))
    (ended : Piece.scan tail = ⟨.ok [], rest⟩) (ended' : Piece.scan tail' = ⟨.ok [], rest'⟩)
    (read : scanHere dialect (before ++ (lexeme ++ '\\' :: '\n' :: tail)) =
      ⟨.ok (some token), after⟩) :
    after = rest ∧ scanHere dialect (before ++ (lexeme ++ '\\' :: '\n' :: tail')) =
      ⟨.ok (some token), rest'⟩ := by
  generalize inner_eq : lexeme ++ '\\' :: '\n' :: tail = inner at spelled
  generalize whole : before ++ inner = text at spelled
  cases spelled with
  | word begins unnamed noBrace noSplice =>
    obtain rfl : before = [] := List.append_left_eq_self.mp whole
    subst inner_eq
    rw [List.nil_append] at read ⊢
    rw [scanHere_word begins unnamed noBrace] at read
    obtain ⟨word, wordRead, ⟨⟩⟩ := Scanned.eq_of_map_eq_ok read
    obtain ⟨left, wordRead'⟩ := Word.scan_continued noSplice steps ended ended' wordRead
    rw [scanHere_word (begins.swap _) (none_of_continued (assignedName?_stopped rfl) unnamed tail')
      (none_of_continued (loneBrace?_stopped rfl) noBrace tail'), wordRead']
    exact ⟨left, rfl⟩
  | value named scalar =>
    rw [← whole] at named
    subst inner_eq
    have named' := assignedName?_replace named (lexeme ++ '\\' :: '\n' :: tail')
    have scalar' : (lexeme ++ '\\' :: '\n' :: tail').head? ≠ some '(' := by
      cases lexeme <;> exact scalar
    rw [scanHere_value named scalar,
      Piece.scan_eq_ok_iff.mpr (Piece.steps_continued steps ended)] at read
    rw [scanHere_value named' scalar',
      Piece.scan_eq_ok_iff.mpr (Piece.steps_continued steps ended')]
    cases read
    exact ⟨rfl, rfl⟩

end Token

/-- What stays before the end of a word that only line continuations separate from it. -/
def Filler.left (count : Nat) : Filler → List Char
  | blank => ' ' :: continuations count
  | continuation => []

theorem Filler.spacing_left (filler : Filler) (count : Nat) : Spacing (filler.left count) := by
  cases filler with
  | blank => exact .blank (spacing_continuations count)
  | continuation => exact .none

theorem Filler.ended (filler : Filler) (count : Nat) (ends : atWordEnd rest = true) :
    Piece.scan (filler.text ++ (continuations count ++ rest)) =
      ⟨.ok [], filler.left count ++ rest⟩ := by
  cases filler with
  | blank => exact Piece.scan_of_atWordEnd rfl
  | continuation => exact Piece.ended_continuations (count + 1) ends

/-- The tokens of a text stay the same if blanks and line continuations between them become more. -/
theorem TokenGap.lexes {before after : List Char} {tokens : List Token}
    (gap : TokenGap dialect before after) (lexes : Lexes dialect (before ++ after) tokens)
    (filler : Filler) : Lexes dialect (before ++ (filler.text ++ after)) tokens := by
  cases gap with
  | @dropped front spacing after spaces present comes =>
    obtain ⟨c, spacing, rfl⟩ := List.exists_cons_of_ne_nil present
    rw [List.append_assoc] at lexes ⊢
    cases comes with
    | token steps =>
      obtain ⟨later, rfl, here⟩ := steps.lexes_iff.mp lexes
      have steps' : Steps (Token.Step dialect) (front ++ (c :: spacing ++ (filler.text ++ after))) _
          (c :: spacing ++ (filler.text ++ after)) :=
        steps.swap Token.consuming_step Token.local_step (spacing ++ (filler.text ++ after))
      refine steps'.lexes_iff.mpr ⟨later, rfl, lexes_of_scan_eq ?_ here⟩
      rw [scan_spacing spaces, scan_spacing spaces, scan_spacing filler.spacing]
  | @swallowed front place inner rest pieces count comes spelled steps ends =>
    obtain ⟨lexeme, rfl⟩ := steps.suffix Piece.consuming_step
    obtain ⟨before, here⟩ := spelled.suffix
    have cut (text tail : List Char) :
        text ++ '\\' :: '\n' :: tail = text ++ ['\\'] ++ '\n' :: tail := by simp
    have kept : skipBlanks place =
        before ++ lexeme ++ ['\\'] ++ '\n' :: (continuations count ++ rest) := by simp [← here]
    rw [cut] at comes
    obtain ⟨token, later, after, read, lexesLater, replaced⟩ :=
      lexes_at_token comes kept (by simp) (by simpa using lexes)
    rw [← here] at spelled
    obtain ⟨rfl, read'⟩ := spelled.scanHere_continued steps (Piece.ended_continuations count ends)
      (filler.ended count ends) (by simpa using read)
    have whole := (replaced _).mpr
      ⟨_, by simpa using read', lexesLater.spacing (filler.spacing_left count)⟩
    simpa using whole

end

section
variable {dialect : Dialect}

/-- In an array, what is read from a place on can be replaced: the tokens stay the same just when
the elements do, and the later tokens. -/
theorem lexes_at_element (kept : List Char) {front opening tail : List Char} {c : Char}
    {tokens : List Token}
    (comes : Comes dialect (front ++ c :: tail) (.elements opening) (kept ++ c :: tail))
    (lexes : Lexes dialect (front ++ c :: tail) tokens) :
    ∃ words later rest, Word.scanElements dialect [] (kept ++ c :: tail) = ⟨.ok words, rest⟩ ∧
      Lexes dialect rest later ∧ ∀ tail', Lexes dialect (front ++ c :: tail') tokens ↔
        ∃ rest', Word.scanElements dialect [] (kept ++ c :: tail') = ⟨.ok words, rest'⟩ ∧
          Lexes dialect rest' later := by
  cases comes with
  | @elements place inside _ name first token array steps =>
    obtain ⟨before, rfl⟩ := steps.suffix Word.consuming_elementStep
    obtain ⟨named, whole⟩ := (Token.suffix_of_assignedName? array).1
    have here : skipBlanks place = named ++ '(' :: before ++ kept ++ c :: tail := by simp [← whole]
    obtain ⟨assigned, later, rest, read, lexesLater, replaced⟩ :=
      lexes_at_token token here (by simp) lexes
    rw [here] at array whole
    have same (tail : List Char) : named ++ '(' :: before ++ kept ++ c :: tail =
        named ++ '(' :: (before ++ (kept ++ c :: tail)) := by simp
    rw [same] at array
    have readAs (tail' : List Char) :
        Token.scanHere dialect (named ++ '(' :: before ++ kept ++ c :: tail') =
          (Word.scanElements dialect (named ++ '(' :: before ++ kept ++ c :: tail')
            (before ++ (kept ++ c :: tail'))).map fun elements =>
              some (.assignment ⟨name, .array elements⟩) := by
      rw [same]
      exact Token.scanHere_array (Token.assignedName?_replace array _)
    have stepsTo (tail' : List Char) :=
      Steps.before Word.consuming_elementStep Word.local_elementStep steps tail'
    rw [readAs] at read
    obtain ⟨elements, elementsRead, made⟩ := Scanned.eq_of_map_eq_ok read
    rw [Word.scanElements_steps steps] at elementsRead
    obtain ⟨words, wordsRead, rfl⟩ := Scanned.eq_of_map_eq_ok elementsRead
    refine ⟨words, later, rest, Word.scanElements_opening wordsRead, lexesLater, fun tail' => ?_⟩
    rw [replaced, readAs, Word.scanElements_steps (stepsTo tail')]
    constructor
    · rintro ⟨rest', read', lexesLater'⟩
      obtain ⟨elements', elementsRead', made'⟩ := Scanned.eq_of_map_eq_ok read'
      obtain ⟨words', wordsRead', rfl⟩ := Scanned.eq_of_map_eq_ok elementsRead'
      obtain rfl : words' = words := by simpa using made'.trans made.symm
      exact ⟨rest', Word.scanElements_opening wordsRead', lexesLater'⟩
    · rintro ⟨rest', read', lexesLater'⟩
      refine ⟨rest', ?_, lexesLater'⟩
      rw [Word.scanElements_opening read']
      exact congrArg (Scanned.mk · rest') (congrArg Except.ok made)

namespace Word

variable {opening text rest : List Char} {words : List Word}

private theorem scanElements_gap {c : Char} (isGap : IsGap c) (rest : List Char) :
    scanElements dialect opening (c :: rest) = scanElements dialect opening rest :=
  (ElementStep.scan_eq (.gap isGap rest)).trans (Scanned.map_nil_append _)

/-- The first element of an array, where one begins. -/
theorem scanElements_begins_iff (begins : BeginsElement text) :
    scanElements dialect opening text = ⟨.ok words, rest⟩ ↔
      ∃ word after later, scan dialect text = ⟨.ok word, after⟩ ∧ words = word :: later ∧
        scanElements dialect opening after = ⟨.ok later, rest⟩ := by
  constructor
  · intro read
    cases first : scan dialect text with
    | mk result after =>
      cases result with
      | error error =>
        rw [scanElements_fault begins first] at read
        cases read
      | ok word =>
        rw [ElementStep.scan_eq (.word begins first)] at read
        obtain ⟨later, laterRead, rfl⟩ := Scanned.eq_of_map_eq_ok read
        exact ⟨word, after, later, rfl, rfl, laterRead⟩
  · rintro ⟨word, after, later, first, rfl, laterRead⟩
    rw [ElementStep.scan_eq (.word begins first), laterRead]
    rfl

private theorem begins_continuation (rest : List Char) : BeginsElement ('\\' :: rest) := by
  refine ⟨'\\', rest, rfl, ?_, by decide⟩
  rintro (same | same | same) <;> cases same

/-- A line continuation in front of an element belongs to it, and the element has pieces. -/
theorem scanElements_continued_iff :
    scanElements dialect opening ('\\' :: '\n' :: text) = ⟨.ok words, rest⟩ ↔
      ∃ pieces after later, Piece.scan text = ⟨.ok pieces, after⟩ ∧ pieces ≠ [] ∧
        words = ⟨Piece.parts pieces⟩ :: later ∧
          scanElements dialect opening after = ⟨.ok later, rest⟩ := by
  rw [scanElements_begins_iff (begins_continuation _)]
  constructor
  · rintro ⟨word, after, later, first, rfl, laterRead⟩
    obtain ⟨name, found, -⟩ | ⟨pieces, -, steps, ends, present, rfl⟩ :=
      splice_or_steps_of_scan first
    · cases found
    · have read := Piece.scan_eq_ok_iff.mpr ⟨steps, ends⟩
      rw [Piece.scan_continued] at read
      exact ⟨pieces, after, later, read, present, rfl, laterRead⟩
  · rintro ⟨pieces, after, later, read, present, rfl, laterRead⟩
    obtain ⟨steps, ends⟩ := Piece.scan_eq_ok_iff.mp ((Piece.scan_continued text).trans read)
    refine ⟨_, after, later, ?_, rfl, laterRead⟩
    rw [scan_of_steps rfl steps ends]
    cases pieces with
    | nil => exact absurd rfl present
    | cons => rfl

private theorem scanElements_continuation (begins : BeginsElement text)
    (noSplice : splice? dialect text = none)
    (read : scanElements dialect opening text = ⟨.ok words, rest⟩) :
    scanElements dialect opening ('\\' :: '\n' :: text) = ⟨.ok words, rest⟩ := by
  obtain ⟨word, after, later, first, rfl, laterRead⟩ := (scanElements_begins_iff begins).mp read
  obtain ⟨name, found, -⟩ | ⟨pieces, -, steps, ends, present, rfl⟩ :=
    splice_or_steps_of_scan first
  · cases noSplice.symm.trans found
  · exact scanElements_continued_iff.mpr
      ⟨pieces, after, later, Piece.scan_eq_ok_iff.mpr ⟨steps, ends⟩, present, rfl, laterRead⟩

theorem begins_or_ends {c : Char} (rest : List Char) :
    BeginsElement (c :: rest) ∨ Piece.endsWord c = true := by
  by_cases paren : c = ')'
  · exact .inr (paren ▸ rfl)
  · by_cases isGap : IsGap c
    · rcases isGap with rfl | rfl | rfl <;> exact .inr rfl
    · exact .inl ⟨c, rest, rfl, isGap, paren⟩

/-- If a line continuation in front of the rest of an array leaves the elements as they are, then an
element begins there, and it is no splice. -/
theorem allows_of_continuation {rest' : List Char}
    (read : scanElements dialect opening text = ⟨.ok words, rest⟩)
    (read' : scanElements dialect opening ('\\' :: '\n' :: text) = ⟨.ok words, rest'⟩) :
    BeginsElement text ∧ splice? dialect text = none := by
  obtain ⟨pieces, after, later, scanned, present, rfl, -⟩ := scanElements_continued_iff.mp read'
  have begins : BeginsElement text := by
    cases text with
    | nil =>
      rw [scanElements] at read
      cases read
    | cons c text =>
      refine (begins_or_ends text).resolve_right fun ends => present ?_
      have ended : atWordEnd (c :: text) = true := ends
      cases (Piece.scan_of_atWordEnd ended).symm.trans scanned
      rfl
  refine ⟨begins, ?_⟩
  obtain ⟨word, _, _, first, same, -⟩ := (scanElements_begins_iff begins).mp read
  obtain ⟨name, found, rfl⟩ | ⟨_, noSplice, -⟩ := splice_or_steps_of_scan first
  · -- the splice would be a literal behind the line continuation
    obtain ⟨rfl, valid, -, ends⟩ := splice?_eq_some_iff.mp found
    obtain ⟨pieces', scanned', -, parts⟩ := Piece.scan_splice valid ends
    cases scanned.symm.trans scanned'
    rw [parts] at same
    cases same
  · exact noSplice

end Word

private theorem not_prefix_of_atWordEnd {rest : List Char} (ends : atWordEnd rest = true) :
    ¬['\\', '\n'] <+: rest := by
  rintro ⟨tail, rfl⟩
  cases ends

/-- In an array, the tokens of a text stay the same just where something may be put in. -/
theorem ElementGap.lexes_iff {anchor : Anchor} {before after : List Char} {tokens : List Token}
    (gap : ElementGap dialect anchor before after)
    (lexes : Lexes dialect (before ++ after) tokens) (filler : Filler) :
    Lexes dialect (before ++ (filler.text ++ after)) tokens ↔
      anchor.Allows dialect after filler := by
  cases gap with
  | @gap front opening after c isGap comes =>
    rw [List.append_assoc] at lexes ⊢
    obtain ⟨words, later, rest, read, lexesLater, replaced⟩ := lexes_at_element [] comes lexes
    rw [List.nil_append, Word.scanElements_gap isGap] at read
    refine (replaced (filler.text ++ after)).trans ?_
    rw [List.nil_append, Word.scanElements_gap isGap]
    cases filler with
    | blank =>
      refine iff_of_true ⟨rest, ?_, lexesLater⟩ trivial
      exact (Word.scanElements_gap (.inl rfl) after).trans read
    | continuation =>
      constructor
      · rintro ⟨rest', read', -⟩
        exact Word.allows_of_continuation read read'
      · rintro ⟨begins, noSplice⟩
        exact ⟨rest, Word.scanElements_continuation begins noSplice read, lexesLater⟩
  | @leading front opening after count comes =>
    rw [List.append_assoc] at lexes ⊢
    obtain ⟨words, later, rest, read, lexesLater, replaced⟩ := lexes_at_element [] comes lexes
    have inFront : Word.scanElements dialect [] ('\\' :: '\n' :: (continuations count ++ after)) =
        ⟨.ok words, rest⟩ := read
    obtain ⟨pieces, stop, others, scanned, present, rfl, othersRead⟩ :=
      Word.scanElements_continued_iff.mp inFront
    rw [Piece.scan_continuations] at scanned
    refine (replaced ('\n' :: (continuations count ++ (filler.text ++ after)))).trans ?_
    cases filler with
    | blank =>
      refine iff_of_false ?_ id
      rintro ⟨rest', read', -⟩
      obtain ⟨pieces', _, _, scanned', present', -, -⟩ :=
        Word.scanElements_continued_iff.mp read'
      rw [Piece.scan_continuations] at scanned'
      cases (Piece.scan_of_atWordEnd rfl).symm.trans scanned'
      exact present' rfl
    | continuation =>
      refine iff_of_true ⟨rest, ?_, lexesLater⟩ trivial
      refine Word.scanElements_continued_iff.mpr
        ⟨pieces, stop, others, ?_, present, rfl, othersRead⟩
      rw [Piece.scan_continuations]
      exact (Piece.scan_continued after).trans scanned
  | @trailing front opening place rest pieces count comes begins noSplice steps ends =>
    obtain ⟨lexeme, rfl⟩ := steps.suffix Piece.consuming_step
    rw [List.append_assoc] at lexes ⊢
    obtain ⟨words, later, after, read, lexesLater, replaced⟩ :=
      lexes_at_element lexeme comes lexes
    obtain ⟨word, stop, others, first, rfl, othersRead⟩ :=
      (Word.scanElements_begins_iff begins).mp read
    obtain ⟨rfl, first'⟩ := Word.scan_continued noSplice steps
      (Piece.ended_continuations count ends) (filler.ended count ends) first
    have whole : Word.scanElements dialect []
        (lexeme ++ '\\' :: '\n' :: (filler.text ++ (continuations count ++ stop))) =
        (Word.scanElements dialect [] (filler.left count ++ stop)).map ([word] ++ ·) :=
      Word.ElementStep.scan_eq (.word (begins.swap _) first')
    refine (replaced ('\n' :: (filler.text ++ (continuations count ++ stop)))).trans ?_
    rw [whole]
    cases filler with
    | continuation =>
      refine iff_of_true ⟨after, ?_, lexesLater⟩ trivial
      rw [Filler.left, List.nil_append, othersRead]
      rfl
    | blank =>
      rw [Filler.left, List.cons_append, Word.scanElements_gap (.inl rfl)]
      cases count with
      | zero =>
        refine iff_of_true ⟨after, ?_, lexesLater⟩ (not_prefix_of_atWordEnd ends)
        rw [continuations, List.nil_append, othersRead]
        rfl
      | succ count =>
        refine iff_of_false ?_ fun apart => apart ⟨continuations count ++ stop, rfl⟩
        rintro ⟨rest', read', -⟩
        obtain ⟨_, othersRead', -⟩ := Scanned.eq_of_map_eq_ok read'
        obtain ⟨pieces', _, _, scanned', present', -, -⟩ :=
          Word.scanElements_continued_iff.mp othersRead'
        cases (Piece.ended_continuations count ends).symm.trans scanned'
        exact present' rfl

end

/-- Where blanks and line continuations between two tokens become more, the tokens stay the same.
Between the elements of an array they do just where what is put in is allowed. -/
theorem lexes_insert {dialect : Dialect} {before after : List Char} {tokens : List Token}
    (filler : Filler) (lexes : Lexes dialect (before ++ after) tokens) :
    (TokenGap dialect before after → Lexes dialect (before ++ (filler.text ++ after)) tokens) ∧
      ∀ anchor, ElementGap dialect anchor before after →
        (Lexes dialect (before ++ (filler.text ++ after)) tokens ↔
          anchor.Allows dialect after filler) :=
  ⟨fun gap => gap.lexes lexes filler, fun _ gap => gap.lexes_iff lexes filler⟩

/-- A splice after a blank, and a separator after one: only the splice cannot have a line
continuation in front of it. -/
theorem lexes_insert_splice :
    let tokens : List Token :=
      [.assignment ⟨"b", .array [⟨[.array "a" true true]⟩]⟩, .semicolon]
    Lexes .splicing "b=( @a) ;".toList tokens ∧
      Lexes .splicing "b=( @a) \\\n;".toList tokens ∧
      Lexes .splicing "b=(  @a) ;".toList tokens ∧
      ¬Lexes .splicing "b=( \\\n@a) ;".toList tokens := by
  intro tokens
  have named : Token.assignedName? (skipBlanks "b=( @a) ;".toList) =
      some ("b", '(' :: " @a) ;".toList) := rfl
  have begins : Word.BeginsElement "@a) ;".toList :=
    (Word.begins_or_ends _).resolve_right (by decide)
  have splice : Word.ElementStep .splicing "@a) ;".toList [⟨[.array "a" true true]⟩] ") ;".toList :=
    .word begins rfl
  have elements : Steps (Word.ElementStep .splicing) " @a) ;".toList [⟨[.array "a" true true]⟩]
      ") ;".toList := Steps.more (.gap (.inl rfl) _) (.single splice)
  have first : Token.scan .splicing "b=( @a) ;".toList =
      ⟨.ok (some (.assignment ⟨"b", .array [⟨[.array "a" true true]⟩]⟩)), " ;".toList⟩ := by
    rw [Token.scan, Token.scanHere_array named, Word.scanElements_eq_ok_iff.mpr elements]
    rfl
  have second : Token.scan .splicing " ;".toList = ⟨.ok (some .semicolon), []⟩ := rfl
  have lexes : Lexes .splicing "b=( @a) ;".toList tokens :=
    .more first (.more second (.done rfl))
  have between : TokenGap .splicing "b=( @a) ".toList ";".toList := by
    have comes : Comes .splicing ("b=( @a)".toList ++ ([' '] ++ ";".toList)) .tokens " ;".toList :=
      .token (.single (.read first))
    exact .dropped (.blank .none) (List.cons_ne_nil ' ' []) comes
  have inside : ElementGap .splicing .gap "b=( ".toList "@a) ;".toList := by
    have comes : Comes .splicing ("b=(".toList ++ ' ' :: "@a) ;".toList)
        (.elements "b=( @a) ;".toList) " @a) ;".toList :=
      .elements (.token (.done _)) named (.done _)
    exact .gap (.inl rfl) comes
  refine ⟨lexes, (lexes_insert .continuation lexes).1 between,
    ((lexes_insert .blank lexes).2 _ inside).mpr trivial, fun lexes' => ?_⟩
  obtain ⟨-, noSplice⟩ := ((lexes_insert .continuation lexes).2 _ inside).mp lexes'
  cases noSplice

/-- Before a parenthesis that closes an array a line continuation is not allowed, even behind a
blank: an element would begin with it. -/
theorem continuation_breaks_array :
    let tokens : List Token := [.assignment ⟨"a", .array [.literal "x"]⟩]
    ElementGap {} .gap "a=(x ".toList " )".toList ∧
      Lexes {} ("a=(x ".toList ++ " )".toList) tokens ∧
      ¬Lexes {} ("a=(x ".toList ++ (Filler.continuation.text ++ " )".toList)) tokens ∧
      parse {} "a=(x \\\n )" = .error (.unexpected (.char ' ') 5) := by
  intro tokens
  have named : Token.assignedName? (skipBlanks "a=(x  )".toList) =
    some ("a", '(' :: "x  )".toList) := rfl
  have piece : Steps Piece.Step "x  )".toList [.plain ['x']] "  )".toList :=
    .single (.plain rfl rfl _)
  have element : Word.scan {} "x  )".toList = ⟨.ok (.literal "x"), "  )".toList⟩ :=
    Word.scan_of_steps rfl piece rfl
  have begins : Word.BeginsElement "x  )".toList :=
    (Word.begins_or_ends _).resolve_right (by decide)
  have gap : ElementGap {} .gap "a=(x ".toList " )".toList := by
    have comes : Comes {} ("a=(x".toList ++ ' ' :: " )".toList) (.elements "a=(x  )".toList)
        "  )".toList :=
      .elements (.token (.done _)) named (.single (.word begins element))
    exact .gap (.inl rfl) comes
  have lexes : Lexes {} ("a=(x ".toList ++ " )".toList) tokens := by
    have word : Word.ElementStep {} "x  )".toList [.literal "x"] "  )".toList :=
      .word begins element
    have blank (rest : List Char) : Word.ElementStep {} (' ' :: rest) [] rest :=
      .gap (.inl rfl) rest
    have elements : Steps (Word.ElementStep {}) "x  )".toList [.literal "x"] [')'] :=
      Steps.more word (Steps.more (blank [' ', ')']) (.single (blank [')'])))
    have array : Token.scan {} "a=(x  )".toList =
        ⟨.ok (some (.assignment ⟨"a", .array [.literal "x"]⟩)), []⟩ := by
      rw [Token.scan, Token.scanHere_array named, Word.scanElements_eq_ok_iff.mpr elements]
      rfl
    exact .more array (.done rfl)
  refine ⟨gap, lexes, fun lexes' => ?_, by decide +kernel⟩
  obtain ⟨begins, -⟩ := (gap.lexes_iff lexes .continuation).mp lexes'
  obtain ⟨c, rest, same, noGap, -⟩ := begins
  cases same
  exact noGap (.inl rfl)

end PolicyShell
