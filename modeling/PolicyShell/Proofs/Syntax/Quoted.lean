import PolicyShell.Proofs.Glob.Reading
import PolicyShell.Proofs.Syntax.Acceptance
import PolicyShell.Proofs.Syntax.Dialects

/-! Quoting: a text can be written as a word in several ways, and each of them is read as this text
and nothing else. -/
namespace PolicyShell

/-- A way to write a text so that it stands for itself. -/
inductive Quoting where
  /-- Single quotes. Those in the text stand outside, each behind a backslash. -/
  | single
  /-- Double quotes, with a backslash before whatever has a meaning between them. -/
  | double
  /-- A backslash before every character. -/
  | backslashes
  deriving DecidableEq, Repr

namespace Quoting

def singleQuoted (c : Char) : List Char := if c = '\'' then ['\'', '\\', '\'', '\''] else [c]

def doubleQuoted (c : Char) : List Char :=
  if c = '$' ∨ c = '"' ∨ c = '\\' ∨ c = '`' then ['\\', c] else [c]

def write : Quoting → List Char → List Char
  | single, text => '\'' :: text.flatMap singleQuoted ++ ['\'']
  | double, text => '"' :: text.flatMap doubleQuoted ++ ['"']
  | backslashes, text => text.flatMap fun c => ['\\', c]

/-- Nothing at all is no word, and a newline behind a backslash is no character. -/
def Fits : Quoting → List Char → Prop
  | single, _ | double, _ => True
  | backslashes, text => text ≠ [] ∧ '\n' ∉ text

instance (style : Quoting) (text : List Char) : Decidable (style.Fits text) :=
  match style with
  | single | double => isTrue trivial
  | backslashes => inferInstanceAs (Decidable (text ≠ [] ∧ '\n' ∉ text))

end Quoting

namespace Piece

variable {text rest : List Char}

theorem gather_quoted_cons {next : List Char} {pieces : List Piece} (text : List Char)
    (gathered : gather pieces = [quoted next]) :
    gather (quoted text :: pieces) = [quoted (text ++ next)] := by
  rw [gather.eq_def]
  dsimp only
  rw [gathered]

private theorem gather_quoted_each (present : text ≠ []) :
    gather (text.map fun c => quoted [c]) = [quoted text] := by
  induction text with
  | nil => exact absurd rfl present
  | cons c text ih =>
    cases text with
    | nil => rfl
    | cons second text =>
      have later := ih (List.cons_ne_nil second text)
      exact gather_quoted_cons [c] later

private theorem parts_of_gather {pieces : List Piece} (gathered : gather pieces = [quoted text]) :
    parts pieces = [.literal (String.ofList text)] := by
  rw [parts, gathered]
  rfl

/-- What stands between single quotes goes on behind each quote of the text. -/
theorem scan_single (ends : scan rest = ⟨.ok [], rest⟩) (text : List Char) {before : List Char}
    (plain : '\'' ∉ before) :
    ∃ pieces,
      scan ('\'' :: (before ++ (text.flatMap Quoting.singleQuoted ++ '\'' :: rest))) =
        ⟨.ok pieces, rest⟩ ∧ gather pieces = [quoted (before ++ text)] := by
  induction text generalizing before with
  | nil =>
    refine ⟨[quoted before], ?_, by rw [List.append_nil]; rfl⟩
    rw [List.flatMap_nil, List.nil_append, scan_singleQuoted (Name.upTo?_append_cons plain rest),
      ends]
    rfl
  | cons c text ih =>
    rw [List.flatMap_cons]
    by_cases quote : c = '\''
    · subst quote
      obtain ⟨pieces, scanned, gathered⟩ := @ih [] List.not_mem_nil
      refine ⟨quoted before :: quoted ['\''] :: pieces, ?_,
        gather_quoted_cons before (gather_quoted_cons ['\''] gathered)⟩
      rw [List.nil_append] at scanned
      have here : Quoting.singleQuoted '\'' = ['\'', '\\', '\'', '\''] := rfl
      simp only [here, List.cons_append, List.nil_append]
      rw [scan_singleQuoted (Name.upTo?_append_cons plain _), scan_escaped (by decide), scanned]
      rfl
    · have here : Quoting.singleQuoted c = [c] := if_neg quote
      have further : '\'' ∉ before ++ [c] := by
        simpa using ⟨plain, fun same => quote same.symm⟩
      obtain ⟨pieces, scanned, gathered⟩ := ih further
      refine ⟨pieces, ?_, by simpa using gathered⟩
      simpa [here] using scanned

private theorem scanDoubleQuoted_write (opening text rest : List Char) :
    scanDoubleQuoted opening (text.flatMap Quoting.doubleQuoted ++ '"' :: rest) =
      ⟨.ok (text.map fun c => quoted [c]), rest⟩ := by
  induction text with
  | nil =>
    rw [List.flatMap_nil, List.nil_append, scanDoubleQuoted]
    rfl
  | cons c text ih =>
    rw [List.flatMap_cons, Quoting.doubleQuoted]
    by_cases special : c = '$' ∨ c = '"' ∨ c = '\\' ∨ c = '`'
    · have escapable : isEscapable c = true := by
        rcases special with rfl | rfl | rfl | rfl <;> rfl
      simp only [if_pos special, List.cons_append, List.nil_append]
      rw [scanDoubleQuoted, if_pos escapable, ih]
      · rfl
      · rintro rfl
        cases escapable
    · simp only [not_or] at special
      obtain ⟨dollar, quote, back, backquote⟩ := special
      rw [if_neg (by simp [*]), List.cons_append, List.cons_append, List.nil_append,
        scanDoubleQuoted, ih]
      · rfl
      all_goals simp_all

private theorem scan_backslashes (ends : scan rest = ⟨.ok [], rest⟩) (noNewline : '\n' ∉ text) :
    scan ((text.flatMap fun c => ['\\', c]) ++ rest) =
      ⟨.ok (text.map fun c => quoted [c]), rest⟩ := by
  induction text with
  | nil => exact ends
  | cons c text ih =>
    have graph : c ≠ '\n' := fun same => noNewline (same ▸ List.mem_cons_self ..)
    have later := ih fun member => noNewline (List.mem_cons_of_mem c member)
    simp only [List.flatMap_cons, List.cons_append, List.nil_append]
    rw [scan_escaped graph, later]
    rfl

/-- A quoted text is read as it is, whatever stands in it. -/
theorem scan_write {style : Quoting} (fits : style.Fits text) (ends : atWordEnd rest = true) :
    ∃ pieces, scan (style.write text ++ rest) = ⟨.ok pieces, rest⟩ ∧
      gather pieces = [quoted text] := by
  have ends := scan_of_atWordEnd ends
  cases style with
  | single =>
    obtain ⟨pieces, scanned, gathered⟩ := @scan_single rest ends text [] List.not_mem_nil
    exact ⟨pieces, by simpa [Quoting.write] using scanned, gathered⟩
  | double =>
    refine ⟨orEmpty (text.map fun c => quoted [c]), ?_, ?_⟩
    · have inside := scanDoubleQuoted_write ('"' :: (text.flatMap Quoting.doubleQuoted ++ '"' :: rest))
        text rest
      have whole := scan_doubleQuoted inside
      rw [ends] at whole
      simpa [Quoting.write, Scanned.map, Except.map] using whole
    · cases text with
      | nil => rfl
      | cons c text => exact gather_quoted_each (List.cons_ne_nil c text)
  | backslashes => exact ⟨_, scan_backslashes ends fits.2, gather_quoted_each fits.1⟩

end Piece

/-- A name that is a word of its own is not the beginning of an assignment. -/
theorem Token.assignedName?_of_isValid {name rest : List Char} (valid : Name.isValid name = true)
    (ends : atWordEnd rest = true) : assignedName? (name ++ rest) = none := by
  cases name with
  | nil => cases valid
  | cons c name =>
    obtain ⟨starts, continues⟩ : Name.startsName c = true ∧ ∀ d ∈ name, Name.continuesName d = true := by
      simpa [Name.isValid] using valid
    have scanned : Name.scan? (c :: name ++ rest) =
        some (c :: (name ++ rest.takeWhile Name.continuesName), rest.dropWhile Name.continuesName) := by
      rw [List.cons_append, Name.scan?, if_pos starts, List.takeWhile_append_of_pos continues,
        List.dropWhile_append_of_pos continues]
    rw [assignedName?, scanned]
    cases rest with
    | nil => rfl
    | cons d rest =>
      have stops : Piece.endsWord d = true := by simpa [atWordEnd] using ends
      rw [List.dropWhile_cons, Piece.continuesName_of_endsWord stops]
      by_cases equals : d = '='
      · subst equals
        cases stops
      · simp [equals]

theorem skipBlanks_of_startsName {c : Char} (starts : Name.startsName c = true) (text : List Char) :
    skipBlanks (c :: text) = c :: text := by
  rw [skipBlanks]
  all_goals
    intro _ same
    obtain rfl := (List.cons.inj same).1
    cases starts

theorem Token.not_isPunctuation_of_endsWord {c : Char} (goesOn : Piece.endsWord c = false) :
    isPunctuation c = false := by
  by_contra mark
  simp only [isPunctuation, Bool.not_eq_false, Bool.or_eq_true, beq_iff_eq] at mark
  rcases mark with ((((((rfl | rfl) | rfl) | rfl) | rfl) | rfl) | rfl) | rfl
  all_goals cases goesOn

/-- A text that begins as a word is read as one. -/
theorem Token.scan_of_pieces {dialect : Dialect} {c : Char} {text rest : List Char}
    {pieces : List Piece} (here : skipBlanks (c :: text) = c :: text)
    (other : isPunctuation c = false) (unnamed : assignedName? (c :: text) = none)
    (noBrace : loneBrace? (c :: text) = none) (noSplice : Word.splice? dialect (c :: text) = none)
    (scanned : Piece.scan (c :: text) = ⟨.ok pieces, rest⟩) (present : pieces ≠ []) :
    scan dialect (c :: text) = ⟨.ok (some (.word ⟨Piece.parts pieces⟩)), rest⟩ := by
  have word : Word.scan dialect (c :: text) = ⟨.ok ⟨Piece.parts pieces⟩, rest⟩ := by
    rw [Word.scan, noSplice, scanned]
    cases pieces with
    | nil => exact absurd rfl present
    | cons => rfl
  rw [scan, here, scanHere_cons dialect other, scanWord_other unnamed, noBrace]
  dsimp only
  rw [scanWord.words, word]
  rfl

namespace Word

/-- The text is read as this word in any dialect, wherever a word can end behind it. -/
def IsWritten (word : Word) (text : List Char) : Prop :=
  ∀ dialect rest, atWordEnd rest = true →
    Token.scan dialect (text ++ rest) = ⟨.ok (some (.word word)), rest⟩

/-- Text in which no character has a meaning is a word that stands for itself, unless the beginning
of it is something else. -/
theorem isWritten_of_ordinary {c : Char} {text : List Char}
    (ordinary : ∀ d ∈ c :: text,
      Piece.isActive d = false ∧ Piece.endsWord d = false ∧ Glob.isMeta d = false)
    (here : ∀ rest, skipBlanks (c :: rest) = c :: rest)
    (unnamed : ∀ rest, atWordEnd rest = true → Token.assignedName? (c :: text ++ rest) = none)
    (noBrace : ∀ rest, Token.loneBrace? (c :: rest) = none)
    (noSplice : ∀ dialect rest, splice? dialect (c :: rest) = none) :
    IsWritten (.literal (String.ofList (c :: text))) (c :: text) := by
  intro dialect rest ends
  have scanned := Piece.scan_ordinary
    (fun d member => ⟨(ordinary d member).1, (ordinary d member).2.1⟩) (Piece.scan_of_atWordEnd ends)
  have noMeta : (c :: text).any Glob.isMeta = false := by
    simpa using fun d member => (ordinary d member).2.2
  have parts : Piece.parts ((c :: text).map fun d => .plain [d]) =
      [.literal (String.ofList (c :: text))] := by
    rw [Piece.parts, Piece.gather_ordinary, List.map_singleton, Piece.toPart, noMeta]
    rfl
  rw [literal, ← parts]
  have other := Token.not_isPunctuation_of_endsWord (ordinary c (List.mem_cons_self ..)).2.1
  exact Token.scan_of_pieces (here _) other (unnamed rest ends) (noBrace _) (noSplice dialect _)
    scanned (by simp)

private theorem isWritten_of_isValid {name : List Char} (valid : Name.isValid name = true) :
    IsWritten (.literal (String.ofList name)) name := by
  cases name with
  | nil => cases valid
  | cons c name =>
    have starts : Name.startsName c = true := ((Bool.and_eq_true _ _).mp valid).1
    apply isWritten_of_ordinary
    · intro d member
      exact Piece.ordinary_of_continuesName (Piece.continuesName_of_isValid valid d member)
    · exact skipBlanks_of_startsName starts
    · intro rest ends
      exact Token.assignedName?_of_isValid valid ends
    · intro rest
      rw [Token.loneBrace?]
      all_goals
        rintro _ ⟨⟩
        cases starts
    · intro dialect rest
      rw [splice?]
      rintro _ ⟨⟩
      cases starts

private theorem isWritten_dashes : IsWritten (.literal "--") ['-', '-'] := by
  refine isWritten_of_ordinary ?_ (fun _ => rfl) (fun _ _ => rfl) (fun _ => rfl) fun _ _ => rfl
  intro d member
  obtain rfl : d = '-' := by simpa using member
  exact ⟨rfl, rfl, rfl⟩

private theorem isWritten_write {style : Quoting} {text : List Char} (fits : style.Fits text) :
    IsWritten (.literal (String.ofList text)) (style.write text) := by
  intro dialect rest ends
  obtain ⟨pieces, scanned, gathered⟩ := Piece.scan_write fits ends
  have present : pieces ≠ [] := by
    rintro rfl
    cases gathered
  have word : (⟨Piece.parts pieces⟩ : Word) = .literal (String.ofList text) := by
    rw [Piece.parts_of_gather gathered]
    rfl
  rw [← word]
  cases style with
  | single => exact Token.scan_of_pieces rfl rfl rfl rfl rfl scanned present
  | double => exact Token.scan_of_pieces rfl rfl rfl rfl rfl scanned present
  | backslashes =>
    rcases text with _ | ⟨c, text⟩
    · exact absurd rfl fits.1
    · refine Token.scan_of_pieces ?_ rfl rfl rfl rfl scanned present
      have graph : c ≠ '\n' := fun same => fits.2 (same ▸ List.mem_cons_self ..)
      rw [skipBlanks]
      all_goals simp [graph]

end Word

section
variable {dialect : Dialect} {text rest : List Char} {tokens : List Token}

theorem Lexes.blank (lexes : Lexes dialect text tokens) : Lexes dialect (' ' :: text) tokens := by
  have same : Token.scan dialect (' ' :: text) = Token.scan dialect text := rfl
  cases lexes with
  | done read => exact .done (same.trans read)
  | more read later => exact .more (same.trans read) later

theorem Lexes.word {word : Word} (written : word.IsWritten text) (ends : atWordEnd rest = true)
    (lexes : Lexes dialect rest tokens) : Lexes dialect (text ++ rest) (.word word :: tokens) :=
  .more (written dialect rest ends) lexes

end

namespace Quoting

/-- Texts with their quoting, each of them behind a blank. -/
def spaced (items : List (Quoting × String)) : List Char :=
  items.flatMap fun item => ' ' :: item.1.write item.2.toList

theorem atWordEnd_spaced (items : List (Quoting × String)) {rest : List Char}
    (ends : atWordEnd rest = true) : atWordEnd (spaced items ++ rest) = true := by
  cases items with
  | nil => exact ends
  | cons => rfl

theorem lexes_spaced {dialect : Dialect} {items : List (Quoting × String)} {rest : List Char}
    {tokens : List Token} (fits : ∀ item ∈ items, item.1.Fits item.2.toList)
    (ends : atWordEnd rest = true) (lexes : Lexes dialect rest tokens) :
    Lexes dialect (spaced items ++ rest) (items.map (.word <| .literal ·.2) ++ tokens) := by
  induction items with
  | nil => exact lexes
  | cons item items ih =>
    obtain ⟨here, later⟩ := List.forall_mem_cons.mp fits
    have written := Word.isWritten_write here
    rw [String.ofList_toList] at written
    have others := (ih later).word written (atWordEnd_spaced items ends)
    rw [← List.append_assoc] at others
    exact others.blank

def laterLines (terminated : Bool) : String :=
  "\na=(\"$@\")\nargv \"$\x7ba[@]\x7d\"" ++ if terminated then "\n" else ""

/-- Hands quoted texts to the positional parameters, then to an array, and shows its elements. -/
def relay (items : List (Quoting × String)) (terminated : Bool) : String :=
  "set --" ++ String.ofList (spaced items) ++ laterLines terminated

/-- The array that the second line assigns. -/
def assigned : Assignment := ⟨"a", .array [⟨[.arguments true true]⟩]⟩

/-- The last word of the third line. -/
def elements : Word := ⟨[.array "a" true true]⟩

/-- The commands of the three lines. -/
def relayed (texts : List String) : List Command :=
  [.simple [] (("set" :: "--" :: texts).map .literal), .simple [assigned] [],
    .simple [] [.literal "argv", elements]]

/-- The newline at the end of the text, if there is one. -/
def terminator (terminated : Bool) : List Token := if terminated then [.newline] else []

def laterTokens (terminated : Bool) : List Token :=
  .newline :: .assignment assigned :: .newline :: .word (.literal "argv") :: .word elements ::
    terminator terminated

private theorem lexes_laterLines (dialect : Dialect) (terminated : Bool) :
    Lexes dialect (laterLines terminated).toList (laterTokens terminated) := by
  have complete : (parse dialect (laterLines terminated)).isOk = true := by
    rcases dialect.eq_plain_or_splicing with rfl | rfl <;> cases terminated <;> decide +kernel
  have tokens : Grammar.bare (readTokens dialect (laterLines terminated).toList).1 =
      laterTokens terminated := by
    rcases dialect.eq_plain_or_splicing with rfl | rfl <;> cases terminated <;> decide +kernel
  obtain ⟨start, finished⟩ := (readsAll_of_parse complete).finished
  rw [← tokens]
  exact lexes_of_finished finished

open Grammar

private theorem isArguments_literals (texts : List String) {rest : List Token}
    (stops : ∀ next ∈ rest.head?, argumentWord? next = none) :
    IsArguments (texts.map .literal) (texts.map (.word <| .literal ·) ++ rest) rest := by
  induction texts with
  | nil => exact .ended stops
  | cons text texts ih => exact .argument rfl ih

private theorem isProgram_relayed (texts : List String) (terminated : Bool) :
    IsProgram (relayed texts)
      (("set" :: "--" :: texts).map (.word <| .literal ·) ++ laterTokens terminated) := by
  have newline : AllSeparators [.newline] := by simp [AllSeparators, Token.isSeparator]
  have nothing : AllSeparators [] := List.forall_mem_nil _
  have trailing : AllSeparators (terminator terminated) := by
    cases terminated
    · exact nothing
    · exact newline
  have stops : ∀ next ∈ (terminator terminated).head?, argumentWord? next = none := by
    cases terminated <;> simp [terminator, argumentWord?]
  have stopsAtNewline : ∀ next ∈ (laterTokens terminated).head?, argumentWord? next = none := by
    simp [laterTokens, argumentWord?]
  have arguments := isArguments_literals ("--" :: texts) stopsAtNewline
  have first : Derives (.andOr (.simple [] (("set" :: "--" :: texts).map .literal))) _
      ([.newline] ++ (laterTokens terminated).tail) :=
    .alone (.simple (.words [] (by simp) arguments))
  have second : Derives (.andOr (.simple [assigned] [])) _
      ([.newline] ++ (laterTokens terminated).drop 3) :=
    .alone (.simple (@IsSimple.assignments [assigned] (List.cons_ne_nil _ _) _))
  have third : Derives (.andOr (.simple [] [.literal "argv", elements]))
      ((laterTokens terminated).drop 3) (terminator terminated) :=
    .alone (.simple (.words [] (by simp) (.argument rfl (.ended stops))))
  have present : [Token.newline] ≠ [] := List.cons_ne_nil _ _
  exact @IsProgram.sequence _ [] _ _ nothing
    (.more first present newline (.more second present newline (.last third))) trailing

/-- However the texts are quoted, the three lines are the same commands. -/
theorem parse_relay {items : List (Quoting × String)}
    (fits : ∀ item ∈ items, item.1.Fits item.2.toList) (dialect : Dialect) (terminated : Bool) :
    parse dialect (relay items terminated) = .ok (relayed (items.map Prod.snd)) := by
  have valid : Name.isValid "set".toList = true := by decide
  have later := lexes_laterLines dialect terminated
  have ends : atWordEnd (laterLines terminated).toList = true := by cases terminated <;> decide
  have texts := lexes_spaced fits ends later
  have dashes := (texts.word Word.isWritten_dashes (atWordEnd_spaced items ends)).blank
  have set := dashes.word (Word.isWritten_of_isValid valid) rfl
  have whole : (relay items terminated).toList =
      "set".toList ++ ' ' :: (['-', '-'] ++ (spaced items ++ (laterLines terminated).toList)) := by
    simp [relay]
  rw [String.ofList_toList, ← whole] at set
  have program := isProgram_relayed (items.map Prod.snd) terminated
  obtain ⟨same, start, finished⟩ := readTokens_of_lexes set
  apply commands_of_isProgram finished
  rw [same]
  simpa [Function.comp_def] using program

end Quoting

end PolicyShell
