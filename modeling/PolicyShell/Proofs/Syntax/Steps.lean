import PolicyShell.Proofs.Syntax.Quoted

/-! Reading goes on by steps, each of which takes something off the beginning of a text, until
the text ends, something ends in it, or there is a fault. -/
namespace PolicyShell

/-- Steps one after the other, with all that was read by them. -/
inductive Steps {α : Type} (step : List Char → List α → List Char → Prop) :
    List Char → List α → List Char → Prop where
  | done (text : List Char) : Steps step text [] text
  | more {text middle rest : List Char} {items later : List α} (first : step text items middle)
      (others : Steps step middle later rest) : Steps step text (items ++ later) rest

/-- Each step takes characters off the beginning of the text. -/
def Consuming {α : Type} (step : List Char → List α → List Char → Prop) : Prop :=
  ∀ ⦃text items rest⦄, step text items rest → ∃ c taken, text = c :: (taken ++ rest)

section
variable {α : Type} {step : List Char → List α → List Char → Prop} {text rest : List Char}
  {items : List α}

private theorem Consuming.suffix (consuming : Consuming step) (taken : step text items rest) :
    rest <:+ text := by
  obtain ⟨c, front, rfl⟩ := consuming taken
  exact ⟨c :: front, rfl⟩

private theorem Consuming.shorter (consuming : Consuming step) (taken : step text items rest) :
    rest.length < text.length := by
  obtain ⟨c, front, rfl⟩ := consuming taken
  simp only [List.length_cons, List.length_append]
  omega

theorem consuming_of_suffix {c : Char} {inner : List Char} (suffix : rest <:+ inner) :
    ∃ d taken, c :: inner = d :: (taken ++ rest) := by
  obtain ⟨taken, rfl⟩ := suffix
  exact ⟨c, taken, rfl⟩

namespace Steps

theorem single (taken : step text items rest) : Steps step text items rest := by
  have one := more taken (done rest)
  rwa [List.append_nil] at one

theorem suffix (consuming : Consuming step) (steps : Steps step text items rest) :
    rest <:+ text := by
  induction steps with
  | done => exact List.suffix_refl _
  | more first _ ih => exact ih.trans (consuming.suffix first)

/-- Steps can be taken until no further one is possible. -/
theorem exists_stuck (consuming : Consuming step) (text : List Char) :
    ∃ items place, Steps step text items place ∧ ∀ more rest, ¬ step place more rest := by
  by_cases goesOn : ∃ items rest, step text items rest
  · obtain ⟨items, rest, taken⟩ := goesOn
    have := consuming.shorter taken
    obtain ⟨later, place, steps, stuck⟩ := exists_stuck consuming rest
    exact ⟨items ++ later, place, .more taken steps, stuck⟩
  · exact ⟨[], text, .done text, fun items rest taken => goesOn ⟨items, rest, taken⟩⟩
termination_by text.length

end Steps

end

namespace Scanned

variable {α : Type}

theorem eq_of_map_eq_ok {β : Type} {change : α → β} {scanned : Scanned α} {value : β}
    {rest : List Char} (read : scanned.map change = ⟨.ok value, rest⟩) :
    ∃ found, scanned = ⟨.ok found, rest⟩ ∧ change found = value := by
  rcases scanned with ⟨error | found, rest⟩
  · cases read
  · cases read
    exact ⟨found, rfl, rfl⟩

theorem eq_of_map_eq_error {β : Type} {change : α → β} {scanned : Scanned α} {error : ParseError}
    {rest : List Char} (read : scanned.map change = ⟨.error error, rest⟩) :
    scanned = ⟨.error error, rest⟩ := by
  rcases scanned with ⟨error' | found, rest'⟩ <;> cases read
  rfl

/-- If every step puts what it reads in front of what is read later, then so do some steps. -/
theorem eq_map_of_steps {step : List Char → List α → List Char → Prop}
    (scan : List Char → Scanned (List α))
    (one : ∀ {text items rest}, step text items rest → scan text = (scan rest).map (items ++ ·))
    {text rest : List Char} {items : List α} (steps : Steps step text items rest) :
    scan text = (scan rest).map (items ++ ·) := by
  induction steps with
  | done text => rw [map_nil_append]
  | more first _ ih =>
    rw [one first, ih, map_map]
    simp only [List.append_assoc]

end Scanned

/-- A dollar sign or a backquote that begins nothing that can be read. The error has the
characters unread at that place. -/
inductive Reference.Fault (quoted : Bool) : List Char → ParseError → Prop where
  | backquote (rest : List Char) :
      Fault quoted ('`' :: rest) (.unsupported .backquote ('`' :: rest).length)
  | braceExpansion {inner : List Char} (unclosed : '}' ∉ inner) :
      Fault quoted ('$' :: '{' :: inner)
        (.unterminated .braceExpansion ('$' :: '{' :: inner).length)
  | commandSubstitution (rest : List Char) :
      Fault quoted ('$' :: '(' :: rest)
        (.unsupported .commandSubstitution ('$' :: '(' :: rest).length)
  | badSubstitution {content : List Char} (rest : List Char) (closed : '}' ∉ content)
      (bad : braced? quoted content = none) :
      Fault quoted ('$' :: '{' :: (content ++ '}' :: rest))
        (.badSubstitution (String.ofList content))

namespace Name

variable {stop : Char} {text before rest : List Char}

theorem upTo?_eq_none_iff : upTo? stop text = none ↔ stop ∉ text := by
  induction text with
  | nil => simp [upTo?]
  | cons c text ih =>
    rw [upTo?_cons]
    by_cases same : c = stop
    · simp [same]
    · simp [same, ih, Ne.symm same]

theorem upTo?_eq_some_iff :
    upTo? stop text = some (before, rest) ↔ text = before ++ stop :: rest ∧ stop ∉ before := by
  constructor
  · intro found
    refine ⟨(upTo?_append found).symm, ?_⟩
    unfold upTo? at found
    split at found
    · cases found
    · cases found
      intro member
      simpa using List.mem_takeWhile_imp member
  · rintro ⟨rfl, plain⟩
    induction before with
    | nil => simp [upTo?_cons]
    | cons c before ih =>
      obtain ⟨differs, others⟩ := not_or.mp (mt List.mem_cons.mpr plain)
      rw [List.cons_append, upTo?_cons, if_neg (Ne.symm differs), ih others]
      rfl

end Name

theorem Reference.Fault.scan_eq {quoted : Bool} {inner : List Char} {error : ParseError}
    (fault : Fault quoted ('$' :: inner) error) :
    ∃ rest, scan quoted inner = ⟨.error error, rest⟩ := by
  cases fault with
  | braceExpansion unclosed =>
    refine ⟨[], ?_⟩
    rw [scan, Name.upTo?_eq_none_iff.mpr unclosed]
    rfl
  | commandSubstitution rest => exact ⟨'(' :: rest, rfl⟩
  | badSubstitution rest closed bad =>
    refine ⟨rest, ?_⟩
    rw [scan, Name.upTo?_eq_some_iff.mpr ⟨rfl, closed⟩]
    dsimp only
    rw [bad]
    rfl

/-- What follows a dollar sign is read, or the dollar sign is at fault. -/
theorem Reference.progress (quoted : Bool) (inner : List Char) :
    (∃ result rest, scan quoted inner = ⟨.ok result, rest⟩) ∨
      ∃ error, Fault quoted ('$' :: inner) error := by
  fun_cases scan quoted inner with
  | case1 => exact .inl ⟨_, _, rfl⟩
  | case2 inner unclosed =>
    exact .inr ⟨_, .braceExpansion (Name.upTo?_eq_none_iff.mp unclosed)⟩
  | case3 => exact .inl ⟨_, _, rfl⟩
  | case4 inner content rest found bad =>
    obtain ⟨rfl, plain⟩ := Name.upTo?_eq_some_iff.mp found
    exact .inr ⟨_, .badSubstitution rest plain bad⟩
  | case5 rest => exact .inr ⟨_, .commandSubstitution rest⟩
  | case6 => exact .inl ⟨_, _, rfl⟩
  | case7 => exact .inl ⟨_, _, rfl⟩
  | case8 => exact .inl ⟨_, _, rfl⟩
  | case9 c rest _ _ _ _ _ name after found =>
    rw [found]
    exact .inl ⟨_, _, rfl⟩
  | case10 c rest _ _ _ _ _ found =>
    rw [found]
    exact .inl ⟨_, _, rfl⟩

namespace Piece

/-- The steps of reading the inside of double quotes. -/
inductive QuotedStep : List Char → List Piece → List Char → Prop where
  | continued (rest : List Char) : QuotedStep ('\\' :: '\n' :: rest) [] rest
  | escaped {c : Char} (escapable : isEscapable c = true) (rest : List Char) :
      QuotedStep ('\\' :: c :: rest) [quoted [c]] rest
  | backslash {c : Char} (graph : c ≠ '\n') (inert : isEscapable c = false) (rest : List Char) :
      QuotedStep ('\\' :: c :: rest) [quoted ['\\']] (c :: rest)
  | lastBackslash : QuotedStep ['\\'] [quoted ['\\']] []
  | dollar {inner rest : List Char} (read : Reference.scan true inner = ⟨.ok none, rest⟩) :
      QuotedStep ('$' :: inner) [quoted ['$']] rest
  | reference {inner rest : List Char} {part : WordPart}
      (read : Reference.scan true inner = ⟨.ok (some part), rest⟩) :
      QuotedStep ('$' :: inner) [reference part] rest
  | plain {c : Char} (inert : isEscapable c = false) (rest : List Char) :
      QuotedStep (c :: rest) [quoted [c]] rest

/-- The steps of reading the pieces of a word. -/
inductive Step : List Char → List Piece → List Char → Prop where
  | continued (rest : List Char) : Step ('\\' :: '\n' :: rest) [] rest
  | lastBackslash : Step ['\\'] [plain ['\\']] []
  | escaped {c : Char} (graph : c ≠ '\n') (rest : List Char) :
      Step ('\\' :: c :: rest) [quoted [c]] rest
  | singleQuoted {content : List Char} (closed : '\'' ∉ content) (rest : List Char) :
      Step ('\'' :: (content ++ '\'' :: rest)) [quoted content] rest
  | doubleQuoted {inner rest : List Char} {pieces : List Piece}
      (inside : Steps QuotedStep inner pieces ('"' :: rest)) :
      Step ('"' :: inner) (orEmpty pieces) rest
  | dollar {inner rest : List Char} (read : Reference.scan false inner = ⟨.ok none, rest⟩) :
      Step ('$' :: inner) [plain ['$']] rest
  | reference {inner rest : List Char} {part : WordPart}
      (read : Reference.scan false inner = ⟨.ok (some part), rest⟩) :
      Step ('$' :: inner) [reference part] rest
  | plain {c : Char} (inactive : isActive c = false) (goesOn : endsWord c = false)
      (rest : List Char) : Step (c :: rest) [plain [c]] rest

theorem consuming_quotedStep : Consuming QuotedStep := by
  intro text pieces rest step
  cases step with
  | continued => exact ⟨'\\', ['\n'], rfl⟩
  | @escaped c => exact ⟨'\\', [c], rfl⟩
  | backslash => exact ⟨'\\', [], rfl⟩
  | lastBackslash => exact ⟨'\\', [], rfl⟩
  | dollar read => exact consuming_of_suffix (Reference.suffix_of_scan read)
  | reference read => exact consuming_of_suffix (Reference.suffix_of_scan read)
  | @plain c => exact ⟨c, [], rfl⟩

theorem consuming_step : Consuming Step := by
  intro text pieces rest step
  cases step with
  | continued => exact ⟨'\\', ['\n'], rfl⟩
  | lastBackslash => exact ⟨'\\', [], rfl⟩
  | @escaped c => exact ⟨'\\', [c], rfl⟩
  | @singleQuoted content => exact ⟨'\'', content ++ ['\''], by simp⟩
  | doubleQuoted inside =>
    exact consuming_of_suffix ((List.suffix_cons ..).trans (inside.suffix consuming_quotedStep))
  | dollar read => exact consuming_of_suffix (Reference.suffix_of_scan read)
  | reference read => exact consuming_of_suffix (Reference.suffix_of_scan read)
  | @plain c => exact ⟨c, [], rfl⟩

/-- What can be wrong in a word where it is not double-quoted. -/
inductive Fault : List Char → ParseError → Prop where
  | singleQuote {inner : List Char} (unclosed : '\'' ∉ inner) :
      Fault ('\'' :: inner) (.unterminated .singleQuote ('\'' :: inner).length)
  | doubleQuote {inner : List Char} {pieces : List Piece}
      (inside : Steps QuotedStep inner pieces []) :
      Fault ('"' :: inner) (.unterminated .doubleQuote ('"' :: inner).length)
  | quoted {inner place : List Char} {pieces : List Piece} {error : ParseError}
      (inside : Steps QuotedStep inner pieces place) (fault : Reference.Fault true place error) :
      Fault ('"' :: inner) error
  | unquoted {place : List Char} {error : ParseError}
      (fault : Reference.Fault false place error) : Fault place error

section
variable {opening text rest : List Char} {pieces : List Piece}

private theorem QuotedStep.scan_eq (step : QuotedStep text pieces rest) :
    scanDoubleQuoted opening text = (scanDoubleQuoted opening rest).map (pieces ++ ·) := by
  cases step with
  | continued => rw [scanDoubleQuoted, Scanned.map_nil_append]
  | @escaped c escapable =>
    have graph : c ≠ '\n' := by
      rintro rfl
      cases escapable
    rw [scanDoubleQuoted, if_pos escapable]
    · rfl
    · exact graph
  | backslash graph inert =>
    rw [scanDoubleQuoted, inert, if_neg Bool.false_ne_true]
    · rfl
    · exact graph
  | lastBackslash =>
    simp [scanDoubleQuoted]
  | dollar read => exact scanDoubleQuoted_dollar read
  | reference read => exact scanDoubleQuoted_reference read
  | @plain c inert =>
    simp only [isEscapable, Bool.or_eq_false_iff, beq_eq_false_iff_ne] at inert
    obtain ⟨⟨⟨dollar, quote⟩, back⟩, backquote⟩ := inert
    rw [scanDoubleQuoted]
    · rfl
    all_goals simp_all

theorem scanDoubleQuoted_steps (steps : Steps QuotedStep text pieces rest) :
    scanDoubleQuoted opening text = (scanDoubleQuoted opening rest).map (pieces ++ ·) :=
  Scanned.eq_map_of_steps (scanDoubleQuoted opening) QuotedStep.scan_eq steps

theorem scanDoubleQuoted_fault (opening : List Char) {error : ParseError}
    (fault : Reference.Fault true text error) :
    ∃ rest, scanDoubleQuoted opening text = ⟨.error error, rest⟩ := by
  have dollar {inner : List Char} (fault : Reference.Fault true ('$' :: inner) error) :
      ∃ rest, scanDoubleQuoted opening ('$' :: inner) = ⟨.error error, rest⟩ := by
    obtain ⟨rest, failed⟩ := fault.scan_eq
    refine ⟨rest, ?_⟩
    rw [scanDoubleQuoted]
    split <;> simp_all [Scanned.failed]
  cases fault with
  | backquote rest => exact ⟨_, by rw [scanDoubleQuoted]; rfl⟩
  | braceExpansion unclosed => exact dollar (.braceExpansion unclosed)
  | commandSubstitution rest => exact dollar (.commandSubstitution rest)
  | badSubstitution rest closed bad => exact dollar (.badSubstitution rest closed bad)

/-- Inside double quotes a step is possible up to the closing quote, the end or a fault. -/
theorem quoted_progress (text : List Char) :
    text = [] ∨ (∃ rest, text = '"' :: rest) ∨ (∃ pieces rest, QuotedStep text pieces rest) ∨
      ∃ error, Reference.Fault true text error := by
  rcases text with _ | ⟨c, rest⟩
  · exact .inl rfl
  · refine .inr ?_
    by_cases inert : isEscapable c = false
    · exact .inr (.inl ⟨_, _, .plain inert rest⟩)
    · simp only [isEscapable, Bool.not_eq_false, Bool.or_eq_true, beq_iff_eq] at inert
      rcases inert with ((rfl | rfl) | rfl) | rfl
      · rcases Reference.progress true rest with ⟨_ | part, after, read⟩ | ⟨error, fault⟩
        · exact .inr (.inl ⟨_, _, .dollar read⟩)
        · exact .inr (.inl ⟨_, _, .reference read⟩)
        · exact .inr (.inr ⟨error, fault⟩)
      · exact .inl ⟨rest, rfl⟩
      · refine .inr (.inl ?_)
        rcases rest with _ | ⟨next, rest⟩
        · exact ⟨_, _, .lastBackslash⟩
        · by_cases newline : next = '\n'
          · exact newline ▸ ⟨_, _, .continued rest⟩
          · by_cases escapable : isEscapable next = true
            · exact ⟨_, _, .escaped escapable rest⟩
            · exact ⟨_, _, .backslash newline (Bool.not_eq_true _ ▸ escapable) rest⟩
      · exact .inr (.inr ⟨_, .backquote rest⟩)

/-- The inside of double quotes is read by steps to the closing quote. -/
theorem scanDoubleQuoted_eq_ok_iff :
    scanDoubleQuoted opening text = ⟨.ok pieces, rest⟩ ↔
      Steps QuotedStep text pieces ('"' :: rest) := by
  have closed (rest : List Char) : scanDoubleQuoted opening ('"' :: rest) = ⟨.ok [], rest⟩ := by
    rw [scanDoubleQuoted]
  constructor
  · intro read
    obtain ⟨pieces', place, steps, stuck⟩ := Steps.exists_stuck consuming_quotedStep text
    rw [scanDoubleQuoted_steps steps] at read
    rcases quoted_progress place with rfl | ⟨after, rfl⟩ | ⟨_, _, step⟩ | ⟨error, fault⟩
    · rw [scanDoubleQuoted] at read
      cases read
    · rw [closed] at read
      cases read
      simpa using steps
    · exact absurd step (stuck _ _)
    · obtain ⟨_, failed⟩ := scanDoubleQuoted_fault opening fault
      rw [failed] at read
      cases read
  · intro steps
    rw [scanDoubleQuoted_steps steps, closed]
    exact congrArg (Scanned.mk · rest) (congrArg Except.ok (List.append_nil pieces))

private theorem Step.scan_eq (step : Step text pieces rest) :
    scan text = (scan rest).map (pieces ++ ·) := by
  cases step with
  | continued => rw [scan_continued, Scanned.map_nil_append]
  | lastBackslash =>
    rw [scan_nil, scan.eq_def]
    rfl
  | escaped graph => exact scan_escaped graph rest
  | singleQuoted closed => exact scan_singleQuoted (Name.upTo?_eq_some_iff.mpr ⟨rfl, closed⟩)
  | doubleQuoted inside => exact scan_doubleQuoted (scanDoubleQuoted_eq_ok_iff.mpr inside)
  | dollar read => exact scan_dollar read
  | reference read => exact scan_reference read
  | plain inactive goesOn =>
    rw [scan_inactive inactive, goesOn, if_neg Bool.false_ne_true]
    rfl

theorem scan_steps (steps : Steps Step text pieces rest) :
    scan text = (scan rest).map (pieces ++ ·) :=
  Scanned.eq_map_of_steps scan Step.scan_eq steps

theorem scan_fault {error : ParseError} (fault : Fault text error) :
    ∃ rest, scan text = ⟨.error error, rest⟩ := by
  have doubleQuoted {inner rest : List Char}
      (read : scanDoubleQuoted ('"' :: inner) inner = ⟨.error error, rest⟩) :
      scan ('"' :: inner) = ⟨.error error, rest⟩ := by
    rw [scan.eq_def]
    split
    case h_6 same =>
      cases same
      split <;> simp_all [Scanned.failed]
    all_goals grind
  have dollar {inner : List Char} (fault : Reference.Fault false ('$' :: inner) error) :
      ∃ rest, scan ('$' :: inner) = ⟨.error error, rest⟩ := by
    obtain ⟨rest, failed⟩ := fault.scan_eq
    refine ⟨rest, ?_⟩
    rw [scan.eq_def]
    split
    case h_7 same =>
      cases same
      split <;> simp_all [Scanned.failed]
    all_goals grind
  cases fault with
  | @singleQuote inner unclosed =>
    have open' := Name.upTo?_eq_none_iff.mpr unclosed
    refine ⟨[], ?_⟩
    rw [scan.eq_def]
    split
    case h_5 same =>
      cases same
      split <;> simp_all [Scanned.failed]
    all_goals grind
  | doubleQuote inside =>
    refine ⟨[], doubleQuoted ?_⟩
    rw [scanDoubleQuoted_steps inside, scanDoubleQuoted]
    rfl
  | @quoted inner place _ _ inside fault =>
    obtain ⟨rest, failed⟩ := scanDoubleQuoted_fault ('"' :: inner) fault
    refine ⟨rest, doubleQuoted ?_⟩
    rw [scanDoubleQuoted_steps inside, failed]
    rfl
  | unquoted fault =>
    cases fault with
    | backquote rest =>
      refine ⟨'`' :: rest, ?_⟩
      rw [scan.eq_def]
      rfl
    | braceExpansion unclosed => exact dollar (.braceExpansion unclosed)
    | commandSubstitution rest => exact dollar (.commandSubstitution rest)
    | badSubstitution rest closed bad => exact dollar (.badSubstitution rest closed bad)

/-- In a word a step is possible up to its end or a fault. -/
theorem progress (text : List Char) :
    atWordEnd text = true ∨ (∃ pieces rest, Step text pieces rest) ∨ ∃ error, Fault text error := by
  rcases text with _ | ⟨c, rest⟩
  · exact .inl rfl
  · by_cases inactive : isActive c = false
    · by_cases ends : endsWord c = true
      · exact .inl ends
      · exact .inr (.inl ⟨_, _, .plain inactive (Bool.not_eq_true _ ▸ ends) rest⟩)
    · simp only [isActive, Bool.not_eq_false, Bool.or_eq_true, beq_iff_eq] at inactive
      refine .inr ?_
      rcases inactive with (((rfl | rfl) | rfl) | rfl) | rfl
      · refine .inl ?_
        rcases rest with _ | ⟨next, rest⟩
        · exact ⟨_, _, .lastBackslash⟩
        · by_cases newline : next = '\n'
          · exact newline ▸ ⟨_, _, .continued rest⟩
          · exact ⟨_, _, .escaped newline rest⟩
      · by_cases closed : '\'' ∈ rest
        · obtain ⟨content, after, rfl, first⟩ := List.eq_append_cons_of_mem closed
          exact .inl ⟨_, _, .singleQuoted first after⟩
        · exact .inr ⟨_, .singleQuote closed⟩
      · obtain ⟨pieces, place, inside, stuck⟩ := Steps.exists_stuck consuming_quotedStep rest
        rcases quoted_progress place with rfl | ⟨after, rfl⟩ | ⟨_, _, step⟩ | ⟨error, fault⟩
        · exact .inr ⟨_, .doubleQuote inside⟩
        · exact .inl ⟨_, _, .doubleQuoted inside⟩
        · exact absurd step (stuck _ _)
        · exact .inr ⟨error, .quoted inside fault⟩
      · rcases Reference.progress false rest with ⟨_ | part, after, read⟩ | ⟨error, fault⟩
        · exact .inl ⟨_, _, .dollar read⟩
        · exact .inl ⟨_, _, .reference read⟩
        · exact .inr ⟨error, .unquoted fault⟩
      · exact .inr ⟨_, .unquoted (.backquote rest)⟩

/-- Reading the pieces of a word takes steps to its end or to a fault. -/
theorem exists_steps (text : List Char) :
    ∃ pieces place, Steps Step text pieces place ∧
      (atWordEnd place = true ∨ ∃ error, Fault place error) := by
  obtain ⟨pieces, place, steps, stuck⟩ := Steps.exists_stuck consuming_step text
  rcases progress place with ends | ⟨_, _, step⟩ | fault
  · exact ⟨pieces, place, steps, .inl ends⟩
  · exact absurd step (stuck _ _)
  · exact ⟨pieces, place, steps, .inr fault⟩

theorem scan_eq_ok_iff :
    scan text = ⟨.ok pieces, rest⟩ ↔ Steps Step text pieces rest ∧ atWordEnd rest = true := by
  constructor
  · intro read
    obtain ⟨pieces', place, steps, ends | ⟨error, fault⟩⟩ := exists_steps text
    · rw [scan_steps steps, scan_of_atWordEnd ends] at read
      cases read
      exact ⟨by simpa using steps, ends⟩
    · obtain ⟨_, failed⟩ := scan_fault fault
      rw [scan_steps steps, failed] at read
      cases read
  · rintro ⟨steps, ends⟩
    rw [scan_steps steps, scan_of_atWordEnd ends]
    exact congrArg (Scanned.mk · rest) (congrArg Except.ok (List.append_nil pieces))

theorem steps_of_scan_error {error : ParseError} (read : scan text = ⟨.error error, rest⟩) :
    ∃ pieces place, Steps Step text pieces place ∧ Fault place error := by
  obtain ⟨pieces, place, steps, ends | ⟨error', fault⟩⟩ := exists_steps text
  · rw [scan_steps steps, scan_of_atWordEnd ends] at read
    cases read
  · obtain ⟨_, failed⟩ := scan_fault fault
    rw [scan_steps steps, failed] at read
    cases read
    exact ⟨pieces, place, steps, fault⟩

end

end Piece

/-- So many line continuations. -/
def continuations : Nat → List Char
  | 0 => []
  | count + 1 => '\\' :: '\n' :: continuations count

/-- Only a line continuation is no piece. -/
theorem Piece.Step.continued_of_nil {text rest : List Char} {pieces : List Piece}
    (step : Step text pieces rest) (nothing : pieces = []) : text = '\\' :: '\n' :: rest := by
  cases step with
  | continued => rfl
  | @doubleQuoted _ _ pieces => cases pieces <;> cases nothing
  | _ => cases nothing

theorem Piece.exists_continuations {text rest : List Char} {pieces : List Piece}
    (steps : Steps Step text pieces rest) (nothing : pieces = []) :
    ∃ count, text = continuations count ++ rest := by
  induction steps with
  | done text => exact ⟨0, rfl⟩
  | more first _ ih =>
    obtain ⟨none, noMore⟩ := List.append_eq_nil_iff.mp nothing
    obtain ⟨count, rfl⟩ := ih noMore
    exact ⟨count + 1, first.continued_of_nil none⟩

end PolicyShell
