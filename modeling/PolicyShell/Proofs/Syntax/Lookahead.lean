import PolicyShell.Proofs.Syntax.Positions

/-! What is read of a text depends on no more than the text that is read and the first character
behind it: all that follows can be replaced. -/
namespace PolicyShell

/-- A step that was taken is also taken if the text behind it is replaced, except for the first
character of that text. -/
def Local {α : Type} (step : List Char → List α → List Char → Prop) : Prop :=
  ∀ ⦃taken : List Char⦄ ⦃c : Char⦄ ⦃tail : List Char⦄ ⦃items : List α⦄,
    step (taken ++ c :: tail) items (c :: tail) →
      ∀ tail', step (taken ++ c :: tail') items (c :: tail')

section
variable {α : Type} {step : List Char → List α → List Char → Prop} {c : Char} {items : List α}
  {front tail : List Char}

/-- The text behind the step may begin with more that stays as it is. -/
theorem Local.before (localStep : Local step) {taken : List Char}
    (done : step (taken ++ (front ++ c :: tail)) items (front ++ c :: tail)) (tail' : List Char) :
    step (taken ++ (front ++ c :: tail')) items (front ++ c :: tail') := by
  cases front with
  | nil => exact localStep done tail'
  | cons d front => exact localStep done (front ++ c :: tail')

theorem Steps.before (consuming : Consuming step) (localStep : Local step) {taken : List Char}
    (steps : Steps step (taken ++ (front ++ c :: tail)) items (front ++ c :: tail))
    (tail' : List Char) :
    Steps step (taken ++ (front ++ c :: tail')) items (front ++ c :: tail') := by
  generalize whole : taken ++ (front ++ c :: tail) = text at steps
  generalize left : front ++ c :: tail = rest at steps
  induction steps generalizing taken with
  | done text =>
    obtain rfl : taken = [] := by simpa [left] using whole
    exact .done _
  | @more text middle rest items later first others ih =>
    obtain ⟨between, rfl⟩ := others.suffix consuming
    obtain ⟨d, skipped, rfl⟩ := consuming first
    subst left
    obtain rfl : taken = d :: skipped ++ between :=
      List.append_cancel_right (whole.trans (by simp))
    have one : step (d :: skipped ++ (between ++ front ++ c :: tail)) items
        (between ++ front ++ c :: tail) := by simpa using first
    have moved : step (d :: skipped ++ between ++ (front ++ c :: tail')) items
        (between ++ (front ++ c :: tail')) := by simpa using localStep.before one tail'
    exact .more moved (ih rfl rfl)

theorem Steps.swap (consuming : Consuming step) (localStep : Local step)
    (steps : Steps step (front ++ c :: tail) items (c :: tail)) (tail' : List Char) :
    Steps step (front ++ c :: tail') items (c :: tail') := by
  rw [← List.nil_append (c :: tail)] at steps
  exact steps.before consuming localStep tail'

end

theorem Begins.swap {allowed : Char → Prop} {front tail : List Char} {c : Char}
    (begins : Begins allowed (front ++ c :: tail)) (tail' : List Char) :
    Begins allowed (front ++ c :: tail') := by
  obtain ⟨d, rest, same, allows⟩ := begins
  cases front with
  | nil => exact ⟨c, tail', rfl, (List.cons.inj same).1 ▸ allows⟩
  | cons e front => exact ⟨e, front ++ c :: tail', rfl, (List.cons.inj same).1 ▸ allows⟩

namespace Name

variable {text name rest : List Char}

/-- The longest name is one that no further character continues. -/
theorem scan?_eq_some_iff :
    scan? text = some (name, rest) ↔
      text = name ++ rest ∧ isValid name = true ∧ ∀ c ∈ rest.head?, continuesName c = false := by
  constructor
  · intro found
    refine ⟨(scan?_append found).symm, scan?_isValid found, ?_⟩
    cases text with
    | nil => cases found
    | cons c text =>
      rw [scan?] at found
      split at found
      · obtain ⟨-, rfl⟩ := Prod.mk.inj (Option.some.inj found)
        intro d member
        have stops := List.head?_dropWhile_not continuesName text
        rw [Option.mem_def.mp member] at stops
        exact stops
      · cases found
  · rintro ⟨rfl, valid, ends⟩
    cases name with
    | nil => cases valid
    | cons c name =>
      obtain ⟨starts, others⟩ := (Bool.and_eq_true _ _).mp valid
      have continues := List.all_eq_true.mp others
      have taken : (name ++ rest).takeWhile continuesName = name := by
        rw [List.takeWhile_append_of_pos continues]
        cases rest with
        | nil => simp
        | cons d rest => simp [ends d rfl]
      have dropped : (name ++ rest).dropWhile continuesName = rest := by
        rw [List.dropWhile_append_of_pos continues]
        cases rest with
        | nil => rfl
        | cons d rest => simp [ends d rfl]
      rw [List.cons_append, scan?, if_pos starts, taken, dropped]

end Name

theorem Reference.scan_swap {quoted : Bool} {taken tail : List Char} {c : Char}
    {result : Option WordPart} (read : scan quoted (taken ++ c :: tail) = ⟨.ok result, c :: tail⟩)
    (tail' : List Char) : scan quoted (taken ++ c :: tail') = ⟨.ok result, c :: tail'⟩ := by
  generalize whole : taken ++ c :: tail = text at read
  generalize left : c :: tail = unread at read whole
  revert read
  fun_cases scan quoted text with
  | case1 => simp [← left] at whole
  | case2 | case4 | case5 =>
    intro read
    cases read
  | case3 inner content rest found part known =>
    intro read
    cases read
    obtain ⟨rfl, closed⟩ := Name.upTo?_eq_some_iff.mp found
    obtain rfl : taken = '{' :: content ++ ['}'] :=
      List.append_cancel_right (whole.trans (by simp))
    have found' : Name.upTo? '}' (content ++ '}' :: c :: tail') = some (content, c :: tail') :=
      Name.upTo?_eq_some_iff.mpr ⟨rfl, closed⟩
    rw [List.append_assoc, List.cons_append, scan, List.singleton_append, found']
    dsimp only
    rw [known]
  | case6 rest =>
    intro read
    cases read
    obtain rfl : taken = ['@'] := List.append_cancel_right whole
    rfl
  | case7 rest =>
    intro read
    cases read
    obtain rfl : taken = ['*'] := List.append_cancel_right whole
    rfl
  | case8 d rest brace paren all star simple =>
    intro read
    cases read
    obtain rfl : taken = [d] := List.append_cancel_right whole
    rw [List.singleton_append, scan, if_pos simple] <;> assumption
  | case9 d rest brace paren all star simple name after found =>
    intro read
    rw [found] at read
    cases read
    obtain ⟨same, valid, ends⟩ := Name.scan?_eq_some_iff.mp found
    obtain rfl : taken = name := List.append_cancel_right (whole.trans same)
    have found' : Name.scan? (taken ++ c :: tail') = some (taken, c :: tail') :=
      Name.scan?_eq_some_iff.mpr ⟨rfl, valid, by rw [← left] at ends; exact ends⟩
    cases taken with
    | nil => cases valid
    | cons e taken =>
      obtain rfl : d = e := (List.cons.inj same).1
      rw [List.cons_append] at found' ⊢
      rw [scan, if_neg simple, found'] <;> assumption
  | case10 d rest brace paren all star simple found =>
    intro read
    rw [found] at read
    cases read
    obtain rfl : taken = [] := List.append_cancel_right whole
    obtain rfl : c = d := (List.cons.inj left).1
    have other : Name.startsName c = false := by
      rw [Name.scan?] at found
      split at found
      · cases found
      · exact Bool.not_eq_true _ ▸ ‹_›
    have found' : Name.scan? (c :: tail') = none := by
      rw [Name.scan?, other]
      rfl
    rw [List.nil_append, scan, if_neg simple, found'] <;> assumption

namespace Piece

private theorem local_quotedStep : Local QuotedStep := by
  intro taken c tail pieces step tail'
  generalize whole : taken ++ c :: tail = text at step
  generalize left : c :: tail = rest at step whole
  cases step with
  | continued =>
    obtain rfl : taken = ['\\', '\n'] := List.append_cancel_right whole
    exact .continued _
  | @escaped d escapable =>
    obtain rfl : taken = ['\\', d] := List.append_cancel_right whole
    exact .escaped escapable _
  | backslash graph inert =>
    obtain rfl : taken = ['\\'] := List.append_cancel_right whole
    cases left
    exact .backslash graph inert _
  | lastBackslash => cases left
  | dollar read =>
    obtain ⟨front, rfl⟩ := Reference.suffix_of_scan read
    obtain rfl : taken = '$' :: front := List.append_cancel_right whole
    subst left
    exact .dollar (Reference.scan_swap read tail')
  | reference read =>
    obtain ⟨front, rfl⟩ := Reference.suffix_of_scan read
    obtain rfl : taken = '$' :: front := List.append_cancel_right whole
    subst left
    exact .reference (Reference.scan_swap read tail')
  | @plain d inert =>
    obtain rfl : taken = [d] := List.append_cancel_right whole
    exact .plain inert _

theorem local_step : Local Step := by
  intro taken c tail pieces step tail'
  generalize whole : taken ++ c :: tail = text at step
  generalize left : c :: tail = rest at step whole
  cases step with
  | continued =>
    obtain rfl : taken = ['\\', '\n'] := List.append_cancel_right whole
    exact .continued _
  | lastBackslash => cases left
  | @escaped d graph =>
    obtain rfl : taken = ['\\', d] := List.append_cancel_right whole
    exact .escaped graph _
  | @singleQuoted content closed =>
    obtain rfl : taken = '\'' :: content ++ ['\''] :=
      List.append_cancel_right (whole.trans (by simp))
    simpa using Step.singleQuoted closed (c :: tail')
  | doubleQuoted inside =>
    obtain ⟨front, rfl⟩ := inside.suffix consuming_quotedStep
    obtain rfl : taken = '"' :: front ++ ['"'] :=
      List.append_cancel_right (whole.trans (by simp))
    simpa using Step.doubleQuoted (inside.swap consuming_quotedStep local_quotedStep (c :: tail'))
  | dollar read =>
    obtain ⟨front, rfl⟩ := Reference.suffix_of_scan read
    obtain rfl : taken = '$' :: front := List.append_cancel_right whole
    subst left
    exact .dollar (Reference.scan_swap read tail')
  | reference read =>
    obtain ⟨front, rfl⟩ := Reference.suffix_of_scan read
    obtain rfl : taken = '$' :: front := List.append_cancel_right whole
    subst left
    exact .reference (Reference.scan_swap read tail')
  | @plain d inactive goesOn =>
    obtain rfl : taken = [d] := List.append_cancel_right whole
    exact .plain inactive goesOn _

end Piece

private theorem dropWhile_swap {goesOn : Char → Bool} {front tail : List Char} {c : Char}
    (kept : (front ++ c :: tail).dropWhile goesOn = c :: tail) (tail' : List Char) :
    (front ++ c :: tail').dropWhile goesOn = c :: tail' := by
  have stops : goesOn c = false := by
    have head := List.head?_dropWhile_not goesOn (front ++ c :: tail)
    rw [kept] at head
    exact head
  rw [Name.dropWhile_stopped front _ stops] at kept ⊢
  rw [List.append_left_eq_self.mp kept]
  rfl

/-- Blanks are dropped up to the first two characters that stay. -/
theorem skipBlanks_swap {front tail : List Char} {c d : Char}
    (kept : skipBlanks (front ++ c :: d :: tail) = c :: d :: tail) (tail' : List Char) :
    skipBlanks (front ++ c :: d :: tail') = c :: d :: tail' := by
  have tooLong {rest : List Char} (same : skipBlanks rest = c :: d :: tail)
      (shorter : rest.length < tail.length + 2) : False := by
    have inside := (skipBlanks_suffix rest).length_le
    rw [same] at inside
    simp only [List.length_cons] at inside
    omega
  generalize whole : front ++ c :: d :: tail = text at kept
  fun_induction skipBlanks text generalizing front with
  | case1 rest ih =>
    rcases front with _ | ⟨e, front⟩
    · cases whole
      exact (tooLong kept (by simp)).elim
    · cases whole
      rw [List.cons_append, skipBlanks]
      exact ih rfl kept
  | case2 rest ih =>
    rcases front with _ | ⟨e, front⟩
    · cases whole
      exact (tooLong kept (by simp)).elim
    · cases whole
      rw [List.cons_append, skipBlanks]
      exact ih rfl kept
  | case3 rest ih =>
    rcases front with _ | ⟨e, _ | ⟨f, front⟩⟩
    · cases whole
      exact (tooLong kept (by omega)).elim
    · cases whole
      exact (tooLong kept (by simp)).elim
    · cases whole
      rw [List.cons_append, List.cons_append, skipBlanks]
      exact ih rfl kept
  | case4 rest =>
    rcases front with _ | ⟨e, front⟩
    · cases whole
      have inside := (List.dropWhile_suffix (l := d :: tail) fun c => c != '\n').length_le
      rw [kept] at inside
      exact absurd inside (Nat.not_succ_le_self _)
    · cases whole
      rw [List.cons_append, skipBlanks]
      exact dropWhile_swap kept (d :: tail')
  | case5 text space tab continued comment =>
    subst kept
    obtain rfl : front = [] := by simpa using whole
    rw [List.nil_append, skipBlanks]
    · exact fun _ same => space (d :: tail) (by rw [(List.cons.inj same).1])
    · exact fun _ same => tab (d :: tail) (by rw [(List.cons.inj same).1])
    · intro others same
      obtain ⟨rfl, second⟩ := List.cons.inj same
      exact continued tail (by rw [(List.cons.inj second).1])
    · exact fun _ same => comment (d :: tail) (by rw [(List.cons.inj same).1])

/-- What stays may begin with a text that is not empty. -/
theorem skipBlanks_before {front kept tail : List Char} {c : Char} (present : kept ≠ [])
    (dropped : skipBlanks (front ++ (kept ++ c :: tail)) = kept ++ c :: tail) (tail' : List Char) :
    skipBlanks (front ++ (kept ++ c :: tail')) = kept ++ c :: tail' := by
  rcases kept with _ | ⟨d, _ | ⟨e, kept⟩⟩
  · exact absurd rfl present
  · exact skipBlanks_swap dropped tail'
  · exact skipBlanks_swap dropped (kept ++ c :: tail')

/-- What is not found before a character that stops the search is not found with other text behind
that character. -/
theorem none_of_stopped {α : Type} {find : List Char → Option (α × List Char)} {c : Char}
    (stopped : ∀ text after,
      find (text ++ c :: after) = (find text).map fun read => (read.1, read.2 ++ c :: after))
    {text tail : List Char} (absent : find (text ++ c :: tail) = none) (tail' : List Char) :
    find (text ++ c :: tail') = none := by
  rw [stopped] at absent ⊢
  rw [Option.map_eq_none_iff.mp absent]
  rfl

namespace Word

variable {dialect : Dialect} {text name rest : List Char}

theorem splice?_eq_some_iff :
    splice? dialect text = some (name, rest) ↔
      text = '@' :: (name ++ rest) ∧ Name.isValid name = true ∧ dialect.atSplices = true ∧
        atWordEnd rest = true := by
  constructor
  · intro found
    unfold splice? at found
    split at found
    · rename_i inner
      obtain ⟨scanned, conditions⟩ := Option.filter_eq_some_iff.mp found
      obtain ⟨splices, ends⟩ := (Bool.and_eq_true _ _).mp conditions
      exact ⟨by rw [Name.scan?_append scanned], Name.scan?_isValid scanned, splices, ends⟩
    · cases found
  · rintro ⟨rfl, valid, splices, ends⟩
    have scanned : Name.scan? (name ++ rest) = some (name, rest) := by
      refine Name.scan?_eq_some_iff.mpr ⟨rfl, valid, fun c first => ?_⟩
      refine Piece.continuesName_of_endsWord ?_
      rw [atWordEnd, Option.mem_def.mp first] at ends
      exact ends
    rw [splice?, scanned]
    simp [splices, ends]

theorem atWordEnd_of_scan {word : Word} (read : scan dialect text = ⟨.ok word, rest⟩) :
    atWordEnd rest = true := by
  obtain ⟨name, found, -⟩ | ⟨_, -, -, ends, -⟩ := splice_or_steps_of_scan read
  · exact (splice?_eq_some_iff.mp found).2.2.2
  · exact ends

variable {taken tail : List Char} {c : Char}

theorem scan_swap {word : Word} (read : scan dialect (taken ++ c :: tail) = ⟨.ok word, c :: tail⟩)
    (tail' : List Char) : scan dialect (taken ++ c :: tail') = ⟨.ok word, c :: tail'⟩ := by
  have ends : Piece.endsWord c = true := atWordEnd_of_scan read
  obtain ⟨name, found, rfl⟩ | ⟨pieces, found, steps, -, present, rfl⟩ :=
    splice_or_steps_of_scan read
  · obtain ⟨whole, conditions⟩ := splice?_eq_some_iff.mp found
    obtain rfl : taken = '@' :: name := List.append_cancel_right whole
    have found' : splice? dialect ('@' :: name ++ c :: tail') = some (name, c :: tail') :=
      splice?_eq_some_iff.mpr ⟨rfl, conditions⟩
    rw [scan, found']
  · have noSplice := none_of_stopped (splice?_stopped dialect ends) found tail'
    rw [scan_of_steps noSplice (steps.swap Piece.consuming_step Piece.local_step tail') ends]
    cases pieces with
    | nil => exact absurd rfl present
    | cons => rfl

theorem local_elementStep : Local (ElementStep dialect) := by
  intro taken c tail words step tail'
  generalize whole : taken ++ c :: tail = text at step
  generalize left : c :: tail = rest at step whole
  cases step with
  | @gap d isGap =>
    obtain rfl : taken = [d] := List.append_cancel_right whole
    exact .gap isGap _
  | word begins read =>
    subst whole left
    exact .word (begins.swap tail') (scan_swap read tail')

end Word

namespace Token

variable {dialect : Dialect} {front rest taken tail : List Char} {c : Char} {name : String}

/-- The text behind the equals sign can be replaced. -/
theorem assignedName?_replace (named : assignedName? (front ++ rest) = some (name, rest))
    (rest' : List Char) : assignedName? (front ++ rest') = some (name, rest') := by
  unfold assignedName? at named
  split at named
  · rename_i spelling _ scanned
    cases named
    obtain ⟨whole, valid, -⟩ := Name.scan?_eq_some_iff.mp scanned
    obtain rfl : front = spelling ++ ['='] :=
      List.append_cancel_right (whole.trans (by simp))
    have scanned' : Name.scan? (spelling ++ '=' :: rest') = some (spelling, '=' :: rest') := by
      refine Name.scan?_eq_some_iff.mpr ⟨rfl, valid, ?_⟩
      rintro _ ⟨⟩
      rfl
    rw [List.append_assoc, List.singleton_append, assignedName?, scanned']
    rfl
  · cases named

private theorem atWordEnd_of_loneBrace? {text : List Char} {token : Token}
    (found : loneBrace? text = some (token, rest)) : atWordEnd rest = true := by
  unfold loneBrace? at found
  split at found
  · split at found
    · cases found
      assumption
    · cases found
  · split at found
    · cases found
      assumption
    · cases found
  · cases found

private theorem scanWord_swap {token : Token}
    (read : scanWord dialect (taken ++ c :: tail) = ⟨.ok token, c :: tail⟩) (tail' : List Char) :
    scanWord dialect (taken ++ c :: tail') = ⟨.ok token, c :: tail'⟩ := by
  cases found : assignedName? (taken ++ c :: tail) with
  | some named =>
    rcases named with ⟨name, rest⟩
    obtain ⟨front, whole⟩ := (suffix_of_assignedName? found).1
    by_cases array : rest.head? = some '('
    · obtain ⟨inside, rfl⟩ := List.head?_eq_some_iff.mp array
      rw [scanWord_array found] at read
      obtain ⟨elements, elementsRead, rfl⟩ := Scanned.eq_of_map_eq_ok read
      have steps := Word.scanElements_eq_ok_iff.mp elementsRead
      obtain ⟨content, rfl⟩ := steps.suffix Word.consuming_elementStep
      obtain rfl : taken = front ++ '(' :: content ++ [')'] :=
        List.append_cancel_right (whole.symm.trans (by simp))
      have steps' := steps.swap Word.consuming_elementStep Word.local_elementStep (c :: tail')
      rw [← whole] at found
      have found' := assignedName?_replace found ('(' :: (content ++ ')' :: c :: tail'))
      have whole' : front ++ '(' :: content ++ [')'] ++ c :: tail' =
          front ++ '(' :: (content ++ ')' :: c :: tail') := by simp
      rw [whole', scanWord_array found', Word.scanElements_eq_ok_iff.mpr steps']
      rfl
    · rw [scanWord_scalar found array] at read
      obtain ⟨pieces, valueRead, rfl⟩ := Scanned.eq_of_map_eq_ok read
      obtain ⟨steps, ends⟩ := Piece.scan_eq_ok_iff.mp valueRead
      obtain ⟨value, rfl⟩ := steps.suffix Piece.consuming_step
      obtain rfl : taken = front ++ value :=
        List.append_cancel_right (whole.symm.trans (by simp))
      have steps' := steps.swap Piece.consuming_step Piece.local_step tail'
      rw [← whole] at found
      have found' := assignedName?_replace found (value ++ c :: tail')
      have scalar : (value ++ c :: tail').head? ≠ some '(' := by
        cases value <;> exact array
      rw [List.append_assoc, scanWord_scalar found' scalar,
        Piece.scan_eq_ok_iff.mpr ⟨steps', ends⟩]
      rfl
  | none =>
    rw [scanWord_other found] at read
    have unnamed (ends : Piece.endsWord c = true) : assignedName? (taken ++ c :: tail') = none :=
      none_of_stopped (assignedName?_stopped ends) found tail'
    cases brace : loneBrace? (taken ++ c :: tail) with
    | some lone =>
      rcases lone with ⟨token, rest⟩
      rw [brace] at read
      cases read
      have ends : Piece.endsWord c = true := atWordEnd_of_loneBrace? brace
      rw [loneBrace?_stopped ends] at brace
      obtain ⟨⟨token, rest⟩, brace', same⟩ := Option.map_eq_some_iff.mp brace
      obtain ⟨rfl, left⟩ := Prod.mk.inj same
      obtain rfl : rest = [] := List.append_left_eq_self.mp left
      rw [scanWord_other (unnamed ends), loneBrace?_stopped ends, brace']
      rfl
    | none =>
      rw [brace] at read
      obtain ⟨word, wordRead, rfl⟩ := Scanned.eq_of_map_eq_ok read
      have ends : Piece.endsWord c = true := Word.atWordEnd_of_scan wordRead
      have noBrace := none_of_stopped (loneBrace?_stopped ends) brace tail'
      rw [scanWord_other (unnamed ends), noBrace]
      dsimp only
      rw [scanWord.words, Word.scan_swap wordRead tail']
      rfl

/-- A token that begins a text has a first character, and the text behind it can be replaced. -/
theorem scanHere_swap {here : List Char} {token : Token}
    (read : scanHere dialect here = ⟨.ok (some token), c :: tail⟩) :
    ∃ d lexeme, here = d :: (lexeme ++ c :: tail) ∧
      ∀ tail', scanHere dialect (d :: (lexeme ++ c :: tail')) = ⟨.ok (some token), c :: tail'⟩ := by
  revert read
  fun_cases scanHere dialect here with
  | case1 | case3 | case6 | case8 | case11 | case12 =>
    intro read
    cases read
  | case2 rest =>
    rintro ⟨⟩
    exact ⟨'\n', [], rfl, fun _ => rfl⟩
  | case4 rest single =>
    rintro ⟨⟩
    refine ⟨';', [], rfl, fun tail' => ?_⟩
    rw [List.nil_append, scanHere]
    exact fun _ same => single tail (by rw [(List.cons.inj same).1])
  | case5 rest =>
    rintro ⟨⟩
    exact ⟨'&', ['&'], rfl, fun _ => rfl⟩
  | case7 rest =>
    rintro ⟨⟩
    exact ⟨'|', ['|'], rfl, fun _ => rfl⟩
  | case9 rest =>
    rintro ⟨⟩
    exact ⟨'(', [], rfl, fun _ => rfl⟩
  | case10 rest =>
    rintro ⟨⟩
    exact ⟨')', [], rfl, fun _ => rfl⟩
  | case13 _ present newline _ semicolon _ background _ pipe left right less greater =>
    intro read
    obtain ⟨_, wordRead, ⟨⟩⟩ := Scanned.eq_of_map_eq_ok read
    have shorter := length_rest_lt_of_scanWord (congrArg Scanned.result wordRead)
    obtain ⟨front, rfl⟩ : c :: tail <:+ here := by
      have suffix := rest_scanWord_suffix dialect here
      rwa [wordRead] at suffix
    rw [wordRead] at shorter
    cases front with
    | nil => exact absurd shorter (Nat.lt_irrefl _)
    | cons d lexeme =>
      refine ⟨d, lexeme, rfl, fun tail' => ?_⟩
      have other := not_isPunctuation_of_other newline semicolon background pipe left right less
        greater
      rw [scanHere_cons dialect other]
      exact congrArg (Scanned.map some) (scanWord_swap wordRead tail')

theorem local_step : Local (Step dialect) := by
  rintro taken c tail _ ⟨read⟩ tail'
  obtain ⟨front, whole⟩ := skipBlanks_suffix (taken ++ c :: tail)
  obtain ⟨d, lexeme, here, swapped⟩ := scanHere_swap read
  refine .read ?_
  rw [here] at whole
  obtain rfl : taken = front ++ d :: lexeme :=
    List.append_cancel_right (whole.symm.trans (by simp))
  have kept := skipBlanks_before (List.cons_ne_nil d lexeme) (whole.symm ▸ here) tail'
  rw [List.append_assoc, scan, kept]
  exact swapped tail'

end Token

end PolicyShell
