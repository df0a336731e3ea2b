import PolicyShell.Proofs.Syntax.Steps

/-! The places in a text to which its reader comes: between tokens, in words, between double quotes
and between the elements of arrays. -/
namespace PolicyShell

/-- The text has a first character, and it is one of those allowed. -/
def Begins (allowed : Char → Prop) (text : List Char) : Prop :=
  ∃ c rest, text = c :: rest ∧ allowed c

namespace Word

/-- The characters between the elements of an array. -/
def IsGap (c : Char) : Prop := c = ' ' ∨ c = '\t' ∨ c = '\n'

/-- Neither a gap nor the end of an array. -/
def BeginsElement : List Char → Prop := Begins fun c => ¬IsGap c ∧ c ≠ ')'

/-- The steps of reading the elements of an array. -/
inductive ElementStep (dialect : Dialect) : List Char → List Word → List Char → Prop where
  | gap {c : Char} (isGap : IsGap c) (rest : List Char) : ElementStep dialect (c :: rest) [] rest
  | word {text rest : List Char} {word : Word} (begins : BeginsElement text)
      (read : scan dialect text = ⟨.ok word, rest⟩) : ElementStep dialect text [word] rest

section
variable {dialect : Dialect} {opening text rest : List Char} {words : List Word}

theorem consuming_elementStep : Consuming (ElementStep dialect) := by
  intro text words rest step
  cases step with
  | @gap c => exact ⟨c, [], rfl⟩
  | @word _ _ word begins read =>
    have shorter := length_rest_lt_of_scan read
    obtain ⟨front, rfl⟩ : rest <:+ text := by
      have suffix := rest_scan_suffix dialect text
      rwa [read] at suffix
    cases front with
    | nil => exact absurd shorter (Nat.lt_irrefl _)
    | cons c taken => exact ⟨c, taken, rfl⟩

theorem ElementStep.scan_eq (step : ElementStep dialect text words rest) :
    scanElements dialect opening text =
      (scanElements dialect opening rest).map (words ++ ·) := by
  cases step with
  | @gap c isGap =>
    have gap : c = ' ' ∨ c = '\t' ∨ c = '\n' := isGap
    rw [scanElements, if_pos gap, Scanned.map_nil_append]
    rintro rfl
    rcases gap with same | same | same <;> cases same
  | word begins read =>
    obtain ⟨c, inner, rfl, graph, paren⟩ := begins
    exact scanElements_word dialect paren graph read

theorem scanElements_steps (steps : Steps (ElementStep dialect) text words rest) :
    scanElements dialect opening text =
      (scanElements dialect opening rest).map (words ++ ·) :=
  Scanned.eq_map_of_steps (scanElements dialect opening) ElementStep.scan_eq steps

private theorem scanElements_close (rest : List Char) :
    scanElements dialect opening (')' :: rest) = ⟨.ok [], rest⟩ := by
  rw [scanElements]

theorem scanElements_fault {error : ParseError} (begins : BeginsElement text)
    (read : scan dialect text = ⟨.error error, rest⟩) :
    scanElements dialect opening text = ⟨.error error, rest⟩ := by
  obtain ⟨c, inner, rfl, graph, paren⟩ := begins
  exact scanElements_failed paren graph read

/-- Reading an array takes steps to its end, to the end of the text or to an element at fault. -/
theorem exists_elementSteps (dialect : Dialect) (text : List Char) :
    ∃ words place, Steps (ElementStep dialect) text words place ∧
      (place = [] ∨ (∃ rest, place = ')' :: rest) ∨
        BeginsElement place ∧ ∃ error rest, scan dialect place = ⟨.error error, rest⟩) := by
  obtain ⟨words, place, steps, stuck⟩ := Steps.exists_stuck consuming_elementStep text
  refine ⟨words, place, steps, ?_⟩
  rcases place with _ | ⟨c, rest⟩
  · exact .inl rfl
  · by_cases paren : c = ')'
    · exact .inr (.inl ⟨rest, by rw [paren]⟩)
    · have begins : BeginsElement (c :: rest) :=
        ⟨c, rest, rfl, fun isGap => stuck _ _ (.gap isGap rest), paren⟩
      cases read : scan dialect (c :: rest) with
      | mk result after =>
        cases result with
        | error error => exact .inr (.inr ⟨begins, error, after, rfl⟩)
        | ok word => exact absurd (.word begins read) (stuck _ _)

theorem scanElements_eq_ok_iff :
    scanElements dialect opening text = ⟨.ok words, rest⟩ ↔
      Steps (ElementStep dialect) text words (')' :: rest) := by
  constructor
  · intro read
    obtain ⟨words', place, steps, rfl | ⟨after, rfl⟩ | ⟨begins, error, after, failed⟩⟩ :=
      exists_elementSteps dialect text
    · rw [scanElements_steps steps, scanElements] at read
      cases read
    · rw [scanElements_steps steps, scanElements_close] at read
      cases read
      simpa using steps
    · rw [scanElements_steps steps, scanElements_fault begins failed] at read
      cases read
  · intro steps
    rw [scanElements_steps steps, scanElements_close]
    exact congrArg (Scanned.mk · rest) (congrArg Except.ok (List.append_nil words))

/-- A word that is no splice, and whose pieces were read up to its end. -/
theorem scan_of_steps {pieces : List Piece} (noSplice : splice? dialect text = none)
    (steps : Steps Piece.Step text pieces rest) (ends : atWordEnd rest = true) :
    scan dialect text = match pieces with
      | [] => .failed (.unexpected ((rest.head?.map .char).getD .endOfInput) text.length) rest
      | pieces => ⟨.ok ⟨Piece.parts pieces⟩, rest⟩ := by
  rw [scan, noSplice]
  dsimp only
  rw [Piece.scan_eq_ok_iff.mpr ⟨steps, ends⟩]
  cases pieces <;> rfl

theorem scan_of_fault {place : List Char} {pieces : List Piece} {error : ParseError}
    (noSplice : splice? dialect text = none) (steps : Steps Piece.Step text pieces place)
    (fault : Piece.Fault place error) : ∃ rest, scan dialect text = ⟨.error error, rest⟩ := by
  obtain ⟨rest, failed⟩ := Piece.scan_fault fault
  refine ⟨rest, ?_⟩
  rw [scan, noSplice]
  dsimp only
  rw [Piece.scan_steps steps, failed]
  rfl

/-- A word that was read is a splice, or steps were taken to its end. -/
theorem splice_or_steps_of_scan {word : Word} (read : scan dialect text = ⟨.ok word, rest⟩) :
    (∃ name, splice? dialect text = some (name, rest) ∧
      word = ⟨[.array (String.ofList name) true true]⟩) ∨
      ∃ pieces, splice? dialect text = none ∧ Steps Piece.Step text pieces rest ∧
        atWordEnd rest = true ∧ pieces ≠ [] ∧ word = ⟨Piece.parts pieces⟩ := by
  cases found : splice? dialect text with
  | some splice =>
    rcases splice with ⟨name, after⟩
    rw [scan, found] at read
    cases read
    exact .inl ⟨name, rfl, rfl⟩
  | none =>
    obtain ⟨pieces, place, steps, ends | ⟨error, fault⟩⟩ := Piece.exists_steps text
    · rw [scan_of_steps found steps ends] at read
      cases pieces with
      | nil => cases read
      | cons first others =>
        cases read
        exact .inr ⟨first :: others, rfl, steps, ends, List.cons_ne_nil first others, rfl⟩
    · obtain ⟨_, failed⟩ := scan_of_fault found steps fault
      rw [failed] at read
      cases read

end

end Word

namespace Token

/-- The tokens that are read piece by piece, and the text in which their pieces begin: words other
than splices, and the values of scalar assignments. -/
inductive Spelled (dialect : Dialect) : List Char → List Char → Prop where
  | word {text : List Char} (begins : Begins (isPunctuation · = false) text)
      (unnamed : assignedName? text = none) (noBrace : loneBrace? text = none)
      (noSplice : Word.splice? dialect text = none) : Spelled dialect text text
  | value {text rest : List Char} {name : String}
      (named : assignedName? text = some (name, rest)) (scalar : rest.head? ≠ some '(') :
      Spelled dialect text rest

theorem Spelled.suffix {dialect : Dialect} {text inner : List Char}
    (spelled : Spelled dialect text inner) : inner <:+ text := by
  cases spelled with
  | word => exact List.suffix_refl _
  | value named => exact (suffix_of_assignedName? named).1

/-- The only step of reading tokens. -/
inductive Step (dialect : Dialect) : List Char → List Token → List Char → Prop where
  | read {text rest : List Char} {token : Token}
      (read : scan dialect text = ⟨.ok (some token), rest⟩) : Step dialect text [token] rest

theorem consuming_step {dialect : Dialect} : Consuming (Step dialect) := by
  rintro text _ rest ⟨read⟩
  have shorter := length_rest_lt_of_scan read
  obtain ⟨front, rfl⟩ : rest <:+ text := by
    have suffix := rest_scan_suffix dialect text
    rwa [read] at suffix
  cases front with
  | nil => exact absurd shorter (Nat.lt_irrefl _)
  | cons c taken => exact ⟨c, taken, rfl⟩

private theorem begins_of_assignedName? {text rest : List Char} {name : String}
    (named : assignedName? text = some (name, rest)) :
    Begins (isPunctuation · = false) text := by
  unfold assignedName? at named
  split at named
  · rename_i spelling _ scanned
    cases text with
    | nil => cases scanned
    | cons c inner =>
      refine ⟨c, inner, rfl, not_isPunctuation_of_endsWord ?_⟩
      have continues : Name.continuesName c = true := by
        refine Piece.continuesName_of_isValid (Name.scan?_isValid scanned) c ?_
        rw [Name.scan?] at scanned
        split at scanned
        · obtain ⟨rfl, -⟩ := Prod.mk.inj (Option.some.inj scanned)
          exact List.mem_cons_self ..
        · cases scanned
      exact (Piece.ordinary_of_continuesName continues).2.1
  · cases named

section
variable {dialect : Dialect} {text inner rest : List Char} {name : String}

theorem scanHere_of_named (named : assignedName? text = some (name, rest)) :
    scanHere dialect text = (scanWord dialect text).map some := by
  obtain ⟨c, inner, rfl, other⟩ := begins_of_assignedName? named
  exact scanHere_cons dialect other inner

theorem scanHere_array (named : assignedName? text = some (name, '(' :: inner)) :
    scanHere dialect text = (Word.scanElements dialect text inner).map fun elements =>
      some (.assignment ⟨name, .array elements⟩) := by
  rw [scanHere_of_named named, scanWord_array named, Scanned.map_map]

theorem scanHere_value (named : assignedName? text = some (name, rest))
    (scalar : rest.head? ≠ some '(') :
    scanHere dialect text = (Piece.scan rest).map fun pieces =>
      some (.assignment ⟨name, .scalar ⟨Piece.parts pieces⟩⟩) := by
  rw [scanHere_of_named named, scanWord_scalar named scalar, Scanned.map_map]

theorem scanHere_word (begins : Begins (isPunctuation · = false) text)
    (unnamed : assignedName? text = none) (noBrace : loneBrace? text = none) :
    scanHere dialect text = (Word.scan dialect text).map fun word => some (.word word) := by
  obtain ⟨c, rest, rfl, other⟩ := begins
  rw [scanHere_cons dialect other, scanWord_other unnamed, noBrace, scanWord.words,
    Scanned.map_map]

end

end Token

/-- What is being read at a place. -/
inductive Scope where
  | tokens
  | word
  | doubleQuotes
  /-- Between the elements of an array, whose assignment begins with `opening`. -/
  | elements (opening : List Char)

/-- The places to which the reader of a text comes. Blanks before a token are still unread where
it is looked for. -/
inductive Comes (dialect : Dialect) (text : List Char) : Scope → List Char → Prop where
  | token {place : List Char} {tokens : List Token}
      (steps : Steps (Token.Step dialect) text tokens place) : Comes dialect text .tokens place
  | word {place inner spot : List Char} {pieces : List Piece}
      (token : Comes dialect text .tokens place)
      (spelled : Token.Spelled dialect (skipBlanks place) inner)
      (steps : Steps Piece.Step inner pieces spot) : Comes dialect text .word spot
  | elements {place inside spot : List Char} {name : String} {words : List Word}
      (token : Comes dialect text .tokens place)
      (array : Token.assignedName? (skipBlanks place) = some (name, '(' :: inside))
      (steps : Steps (Word.ElementStep dialect) inside words spot) :
      Comes dialect text (.elements (skipBlanks place)) spot
  | element {opening place spot : List Char} {pieces : List Piece}
      (elements : Comes dialect text (.elements opening) place)
      (begins : Word.BeginsElement place) (noSplice : Word.splice? dialect place = none)
      (steps : Steps Piece.Step place pieces spot) : Comes dialect text .word spot
  | doubleQuotes {inner spot : List Char} {pieces : List Piece}
      (word : Comes dialect text .word ('"' :: inner))
      (steps : Steps Piece.QuotedStep inner pieces spot) : Comes dialect text .doubleQuotes spot

theorem Comes.suffix {dialect : Dialect} {text place : List Char} {scope : Scope}
    (comes : Comes dialect text scope place) : place <:+ text := by
  induction comes with
  | token steps => exact steps.suffix Token.consuming_step
  | @word place _ _ _ _ spelled steps ih =>
    exact (steps.suffix Piece.consuming_step).trans
      (spelled.suffix.trans ((skipBlanks_suffix place).trans ih))
  | @elements place _ _ _ _ _ array steps ih =>
    exact (steps.suffix Word.consuming_elementStep).trans ((List.suffix_cons ..).trans
      ((Token.suffix_of_assignedName? array).1.trans ((skipBlanks_suffix place).trans ih)))
  | element _ _ _ steps ih => exact (steps.suffix Piece.consuming_step).trans ih
  | doubleQuotes _ steps ih =>
    exact (steps.suffix Piece.consuming_quotedStep).trans ((List.suffix_cons ..).trans ih)

end PolicyShell
