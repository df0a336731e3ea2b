import PolicyShell.Proofs.Glob.Reading

/-! Patterns of which it is known which characters may be glob syntax, and which ones are text. To
write one down, a backslash goes before each character of the text that might be taken for
syntax. -/
namespace PolicyShell.Glob

/-- A character of a pattern, and whether it may be glob syntax. -/
structure Glyph where
  char : Char
  active : Bool
  deriving DecidableEq, Repr

namespace Glyph

/-- The glyph as it is written in a pattern. -/
def quote (glyph : Glyph) : List Char :=
  if glyph.active then [glyph.char] else escapeChar glyph.char

def pattern (glyphs : List Glyph) : List Char := glyphs.flatMap quote

def opening : Glyph := ⟨'[', true⟩

def closing : Glyph := ⟨']', true⟩

/-- Whether a glyph is syntax outside of brackets. -/
def isSyntax (glyph : Glyph) : Bool := glyph.active && isMeta glyph.char

def negates (glyph : Glyph) : Bool := glyph.active && Bracket.isNegation glyph.char

/-- The glyphs before the first closing bracket, and those behind it. -/
def upToClosing? : List Glyph → Option (List Glyph × List Glyph)
  | [] => none
  | glyph :: rest =>
    if glyph = closing then some ([], rest)
    else (upToClosing? rest).map fun (inside, after) => (glyph :: inside, after)

/-- The members of a bracket expression, and what stands behind it. The first member does not
close the bracket. -/
def members? : List Glyph → Option (List Glyph × List Glyph)
  | [] => none
  | first :: rest => (upToClosing? rest).map fun (inside, after) => (first :: inside, after)

/-- Whether a bracket expression is negated, its members, and what stands behind it. `glyphs`
begin behind the opening bracket. -/
def bracket? : List Glyph → Option (Bool × List Glyph × List Glyph)
  | [] => none
  | first :: rest =>
    if first.negates then (members? rest).map (true, ·)
    else (members? (first :: rest)).map (false, ·)

/-- A dash is syntax between two members only. -/
def marks : List Glyph → List Mark
  | [] => []
  | first :: rest => .member first.char :: following rest
where
  following : List Glyph → List Mark
    | [] => []
    | [last] => [.member last.char]
    | glyph :: rest =>
      (if glyph = ⟨'-', true⟩ then .dash else .member glyph.char) :: following rest

/-- Glyphs are read as items: only active ones as syntax, and any other one as itself. -/
inductive Reads : List Glyph → List Item → Prop where
  | nil : Reads [] []
  | anyText {rest : List Glyph} {items : List Item} (later : Reads rest items) :
      Reads (⟨'*', true⟩ :: rest) (.anyText :: items)
  | anyChar {rest : List Glyph} {items : List Item} (later : Reads rest items) :
      Reads (⟨'?', true⟩ :: rest) (.anyChar :: items)
  | oneOf {rest members after : List Glyph} {items : List Item} {bracket : Bracket}
      (closed : bracket? rest = some (bracket.negated, members, after))
      (ranges : Bracket.ranges? (marks members) = some (bracket.included, bracket.excluded))
      (later : Reads after items) : Reads (opening :: rest) (.oneOf bracket :: items)
  | unclosed {rest : List Glyph} {items : List Item} (opened : bracket? rest = none)
      (later : Reads rest items) : Reads (opening :: rest) (.char '[' :: items)
  | itself {glyph : Glyph} {rest : List Glyph} {items : List Item}
      (plain : glyph.isSyntax = false) (later : Reads rest items) :
      Reads (glyph :: rest) (.char glyph.char :: items)

/-- The text among the members of a bracket expression is told from syntax without a backslash,
which would be one more member. -/
structure Plain (negated : Bool) (members : List Glyph) : Prop where
  bare : ∀ glyph ∈ members, glyph.quote = [glyph.char]
  /-- The first member does not look like a negation. -/
  sign : negated = false → ∀ first ∈ members.head?, Bracket.isNegation first.char = false
  /-- No text between two members looks like the dash of a range. -/
  dash : ⟨'-', false⟩ ∉ members.tail.dropLast

/-- No text in brackets needs to be told from syntax. -/
inductive Clear : List Glyph → Prop where
  | nil : Clear []
  | oneOf {rest members after : List Glyph} {negated : Bool}
      (closed : bracket? rest = some (negated, members, after))
      (plain : Plain negated members) (later : Clear after) : Clear (opening :: rest)
  | unclosed {rest : List Glyph} (opened : bracket? rest = none) (clear : ⟨']', false⟩ ∉ rest)
      (later : Clear rest) : Clear (opening :: rest)
  | other {glyph : Glyph} {rest : List Glyph} (differs : glyph ≠ opening) (later : Clear rest) :
      Clear (glyph :: rest)

/-- No active backslash stands before anything. -/
def Unescaped (glyphs : List Glyph) : Prop := ⟨'\\', true⟩ ∉ glyphs.dropLast

theorem Unescaped.suffix {glyphs later : List Glyph} (unescaped : Unescaped glyphs)
    (suffix : later <:+ glyphs) : Unescaped later := by
  obtain ⟨before, rfl⟩ := suffix
  intro member
  refine unescaped ?_
  have present : later ≠ [] := by
    rintro rfl
    cases member
  rw [List.dropLast_append_of_ne_nil present]
  exact List.mem_append_right before member

theorem Unescaped.of_append {glyphs later : List Glyph} (unescaped : Unescaped (glyphs ++ later)) :
    Unescaped glyphs := by
  intro member
  refine unescaped ?_
  cases later with
  | nil => simpa using member
  | cons next later =>
    rw [List.dropLast_append_cons]
    exact List.mem_append_left _ ((List.dropLast_prefix glyphs).subset member)

theorem Unescaped.append {glyphs later : List Glyph} (bare : ⟨'\\', true⟩ ∉ glyphs)
    (unescaped : Unescaped later) : Unescaped (glyphs ++ later) := by
  intro member
  cases later with
  | nil => exact bare ((List.dropLast_prefix glyphs).subset (by simpa using member))
  | cons next later =>
    rw [List.dropLast_append_of_ne_nil (List.cons_ne_nil next later)] at member
    exact (List.mem_append.mp member).elim bare unescaped

theorem Unescaped.cons {glyph : Glyph} {rest : List Glyph} (unescaped : Unescaped (glyph :: rest)) :
    glyph = ⟨'\\', true⟩ → rest = [] := by
  rintro rfl
  cases rest with
  | nil => rfl
  | cons => exact absurd (List.mem_cons_self ..) unescaped

variable {glyph : Glyph} {glyphs rest members after : List Glyph} {negated : Bool}

@[simp] theorem pattern_nil : pattern [] = [] := rfl

@[simp] theorem pattern_cons (glyph : Glyph) (rest : List Glyph) :
    pattern (glyph :: rest) = glyph.quote ++ pattern rest := rfl

@[simp] theorem pattern_append (glyphs rest : List Glyph) :
    pattern (glyphs ++ rest) = pattern glyphs ++ pattern rest := List.flatMap_append

theorem quote_of_active (active : glyph.active = true) : glyph.quote = [glyph.char] := by
  rw [quote, if_pos active]

theorem quote_of_inert (inert : glyph.active = false) : glyph.quote = escapeChar glyph.char := by
  rw [quote, if_neg (by simp [inert])]

/-- A backslash stands before some of the glyphs that are not active. -/
theorem quote_cases (glyph : Glyph) :
    glyph.quote = [glyph.char] ∨ glyph.active = false ∧ glyph.quote = ['\\', glyph.char] := by
  cases active : glyph.active with
  | true => exact .inl (quote_of_active active)
  | false =>
    rw [quote_of_inert active, escapeChar]
    split
    · exact .inr ⟨rfl, rfl⟩
    · exact .inl rfl

private theorem pattern_of_bare (bare : ∀ glyph ∈ members, glyph.quote = [glyph.char]) :
    pattern members = members.map char := by
  induction members with
  | nil => rfl
  | cons first rest ih =>
    obtain ⟨head, tail⟩ := List.forall_mem_cons.mp bare
    rw [pattern_cons, head, ih tail]
    rfl

theorem upToClosing?_eq_some {inside : List Glyph}
    (found : upToClosing? glyphs = some (inside, after)) :
    closing ∉ inside ∧ glyphs = inside ++ closing :: after := by
  induction glyphs generalizing inside with
  | nil => cases found
  | cons glyph rest ih =>
    rw [upToClosing?] at found
    split at found
    · rename_i closes
      cases found
      exact ⟨nofun, by rw [closes]; rfl⟩
    · rename_i differs
      obtain ⟨⟨inside, after⟩, later, same⟩ := Option.map_eq_some_iff.mp found
      cases same
      obtain ⟨absent, rfl⟩ := ih later
      refine ⟨fun member => ?_, rfl⟩
      rcases List.mem_cons.mp member with closes | member
      · exact differs closes.symm
      · exact absent member

private theorem upToClosing?_eq_none (found : upToClosing? glyphs = none) : closing ∉ glyphs := by
  induction glyphs with
  | nil => nofun
  | cons glyph rest ih =>
    rw [upToClosing?] at found
    split at found
    · cases found
    · rename_i differs
      have absent := ih (Option.map_eq_none_iff.mp found)
      simpa using ⟨fun closes => differs closes.symm, absent⟩

theorem members?_suffix (found : members? glyphs = some (members, after)) : after <:+ glyphs := by
  cases glyphs with
  | nil => cases found
  | cons first rest =>
    obtain ⟨⟨inside, _⟩, closed, same⟩ := Option.map_eq_some_iff.mp found
    cases same
    exact ⟨first :: (inside ++ [closing]), by simp [(upToClosing?_eq_some closed).2]⟩

private theorem bracket?_suffix (found : bracket? glyphs = some (negated, members, after)) :
    after <:+ glyphs := by
  cases glyphs with
  | nil => cases found
  | cons first rest =>
    rw [bracket?] at found
    split at found
    all_goals
      obtain ⟨_, closed, same⟩ := Option.map_eq_some_iff.mp found
      cases same
    · exact (members?_suffix closed).trans (List.suffix_cons ..)
    · exact members?_suffix closed

theorem closing_not_mem_of_members? (found : members? glyphs = none) : closing ∉ glyphs.tail := by
  cases glyphs with
  | nil => nofun
  | cons first rest => exact upToClosing?_eq_none (Option.map_eq_none_iff.mp found)

private theorem not_mem_pattern (active : closing ∉ glyphs) (inert : ⟨']', false⟩ ∉ glyphs) :
    ']' ∉ pattern glyphs := by
  intro member
  obtain ⟨⟨c, isActive⟩, present, written⟩ := List.mem_flatMap.mp member
  obtain rfl : ']' = c := by
    rcases quote_cases ⟨c, isActive⟩ with bare | ⟨-, quoted⟩
    · simpa [bare] using written
    · simpa [quoted] using written
  cases isActive with
  | true => exact active present
  | false => exact inert present

theorem not_mem_tail_pattern (active : closing ∉ glyphs.tail) (inert : ⟨']', false⟩ ∉ glyphs) :
    ']' ∉ (pattern glyphs).tail := by
  cases glyphs with
  | nil => nofun
  | cons first rest =>
    have later := not_mem_pattern active fun member => inert (List.mem_cons_of_mem first member)
    rcases quote_cases first with bare | ⟨isInert, quoted⟩
    · simpa [bare] using later
    · -- a quoted bracket is the only text whose last character might be taken for a closing one
      have differs : ']' ≠ first.char := by
        intro same
        obtain rfl : first = ⟨']', false⟩ := by rw [same, ← isInert]
        exact inert (List.mem_cons_self ..)
      simpa [quoted] using ⟨differs, later⟩

/-- The members of a bracket expression in the text of a pattern. -/
theorem closed?_pattern (found : members? glyphs = some (members, after))
    (bare : ∀ glyph ∈ members, glyph.quote = [glyph.char]) :
    Bracket.body?.closed? (pattern glyphs) = some (members.map char, pattern after) := by
  cases glyphs with
  | nil => cases found
  | cons first rest =>
    obtain ⟨⟨others, _⟩, closed, same⟩ := Option.map_eq_some_iff.mp found
    cases same
    obtain ⟨inside, rfl⟩ := upToClosing?_eq_some closed
    have absent : ']' ∉ others.map char := by
      intro member
      obtain ⟨⟨c, active⟩, present, rfl⟩ := List.mem_map.mp member
      cases active with
      | true => exact inside present
      | false => cases bare _ (List.mem_cons_of_mem first present)
    have written := pattern_of_bare bare
    rw [List.map_cons] at written ⊢
    rw [← List.cons_append, pattern_append, written]
    exact Bracket.closed?_append_cons first.char absent (pattern after)

private theorem body?_pattern (found : bracket? glyphs = some (negated, members, after))
    (plain : Plain negated members) :
    Bracket.body? (pattern glyphs) = some (negated, members.map char, pattern after) := by
  cases glyphs with
  | nil => cases found
  | cons first rest =>
    rw [bracket?] at found
    split at found
    · rename_i negates
      obtain ⟨active, sign⟩ := Bool.and_eq_true_iff.mp negates
      obtain ⟨⟨members, after⟩, closed, same⟩ := Option.map_eq_some_iff.mp found
      cases same
      rw [pattern_cons, quote_of_active active, List.singleton_append, Bracket.body?_cons,
        if_pos sign, closed?_pattern closed plain.bare]
      rfl
    · rename_i differs
      obtain ⟨⟨members, after⟩, closed, same⟩ := Option.map_eq_some_iff.mp found
      cases same
      have inside := closed?_pattern closed plain.bare
      obtain ⟨_, _, same⟩ := Option.map_eq_some_iff.mp closed
      cases same
      have noSign : ¬ Bracket.isNegation first.char = true := by
        rw [plain.sign rfl first rfl]
        exact Bool.false_ne_true
      rw [pattern_cons, plain.bare first (List.mem_cons_self ..), List.singleton_append] at inside ⊢
      rw [Bracket.body?_cons, if_neg noSign, inside]
      rfl

theorem body?_pattern_of_none (opened : bracket? glyphs = none) (clear : ⟨']', false⟩ ∉ glyphs) :
    Bracket.body? (pattern glyphs) = none := by
  cases glyphs with
  | nil => rfl
  | cons first rest =>
    rw [bracket?] at opened
    split at opened
    · rename_i negates
      obtain ⟨active, sign⟩ := Bool.and_eq_true_iff.mp negates
      have absent := not_mem_tail_pattern
        (closing_not_mem_of_members? (Option.map_eq_none_iff.mp opened))
        (fun member => clear (List.mem_cons_of_mem first member))
      rw [pattern_cons, quote_of_active active, List.singleton_append, Bracket.body?_cons,
        if_pos sign, Bracket.closed?_of_not_mem absent]
      rfl
    · exact Bracket.body?_of_not_mem (not_mem_tail_pattern
        (closing_not_mem_of_members? (Option.map_eq_none_iff.mp opened)) clear)

private theorem following_eq (dash : ⟨'-', false⟩ ∉ members.dropLast) :
    marks.following members = Mark.following (members.map char) := by
  fun_induction marks.following members with
  | case1 => rfl
  | case2 => rfl
  | case3 glyph rest several ih =>
    rw [List.dropLast_cons_of_ne_nil several] at dash
    have same : glyph = ⟨'-', true⟩ ↔ glyph.char = '-' := by
      rcases glyph with ⟨c, _ | _⟩
      · refine ⟨nofun, ?_⟩
        rintro rfl
        exact absurd (List.mem_cons_self ..) dash
      · simp
    rw [ih fun member => dash (List.mem_cons_of_mem glyph member), List.map_cons, Mark.following]
    · simp only [same]
    · exact fun none => several (List.map_eq_nil_iff.mp none)

private theorem marks_eq (dash : ⟨'-', false⟩ ∉ members.tail.dropLast) :
    marks members = Mark.ofBody (members.map char) := by
  cases members with
  | nil => rfl
  | cons first rest => exact congrArg (Mark.member first.char :: ·) (following_eq dash)

section
variable {items : List Item}

private theorem reads_nil_iff : Reads [] items ↔ [] = items := by
  constructor
  · rintro ⟨⟩
    rfl
  · rintro rfl
    exact .nil

private theorem reads_anyText_iff :
    Reads (⟨'*', true⟩ :: rest) items ↔
      ∃ others, Reads rest others ∧ .anyText :: others = items := by
  constructor
  · intro reads
    cases reads with
    | anyText later => exact ⟨_, later, rfl⟩
    | itself plain => cases plain
  · rintro ⟨others, later, rfl⟩
    exact .anyText later

private theorem reads_anyChar_iff :
    Reads (⟨'?', true⟩ :: rest) items ↔
      ∃ others, Reads rest others ∧ .anyChar :: others = items := by
  constructor
  · intro reads
    cases reads with
    | anyChar later => exact ⟨_, later, rfl⟩
    | itself plain => cases plain
  · rintro ⟨others, later, rfl⟩
    exact .anyChar later

theorem reads_oneOf_iff (closed : bracket? rest = some (negated, members, after)) :
    Reads (opening :: rest) items ↔
      ∃ found, Bracket.ranges? (marks members) = some found ∧
        ∃ others, Reads after others ∧ .oneOf ⟨negated, found.1, found.2⟩ :: others = items := by
  constructor
  · intro reads
    cases reads with
    | oneOf closed' ranges later =>
      cases closed.symm.trans closed'
      exact ⟨_, ranges, _, later, rfl⟩
    | unclosed opened => cases closed.symm.trans opened
    | itself plain => cases plain
  · rintro ⟨found, ranges, others, later, rfl⟩
    exact .oneOf closed ranges later

private theorem reads_unclosed_iff (opened : bracket? rest = none) :
    Reads (opening :: rest) items ↔ ∃ others, Reads rest others ∧ .char '[' :: others = items := by
  constructor
  · intro reads
    cases reads with
    | oneOf closed => cases opened.symm.trans closed
    | unclosed _ later => exact ⟨_, later, rfl⟩
    | itself plain => cases plain
  · rintro ⟨others, later, rfl⟩
    exact .unclosed opened later

private theorem reads_itself_iff (plain : glyph.isSyntax = false) :
    Reads (glyph :: rest) items ↔
      ∃ others, Reads rest others ∧ .char glyph.char :: others = items := by
  constructor
  · intro reads
    cases reads with
    | itself _ later => exact ⟨_, later, rfl⟩
    | anyText => cases plain
    | anyChar => cases plain
    | oneOf => cases plain
    | unclosed => cases plain
  · rintro ⟨others, later, rfl⟩
    exact .itself plain later

end

private theorem eq_of_isSyntax (syntactic : glyph.isSyntax = true) (differs : glyph ≠ opening) :
    glyph = ⟨'*', true⟩ ∨ glyph = ⟨'?', true⟩ := by
  rcases glyph with ⟨c, active⟩
  simp_all [isSyntax, isMeta, opening]

private theorem read?_pattern_itself (plain : glyph.isSyntax = false)
    (unescaped : Unescaped (glyph :: rest)) :
    Item.read? (pattern (glyph :: rest)) =
      (Item.read? (pattern rest)).map (.char glyph.char :: ·) := by
  rw [pattern_cons]
  cases active : glyph.active with
  | true =>
    rw [quote_of_active active]
    refine Item.read?_char (by simpa [isSyntax, active] using plain) fun same => ?_
    rw [unescaped.cons (by rw [← same, ← active])]
    rfl
  | false =>
    rw [quote_of_inert active, escapeChar]
    split
    · exact Item.read?_quoted ..
    · rename_i bare
      simp only [Bool.or_eq_true, beq_iff_eq, not_or] at bare
      exact Item.read?_char (by simpa using bare.1.1) fun same => absurd same bare.2

/-- A text is a pattern if one of its glyphs is syntax. -/
theorem hasMeta_pattern (unescaped : Unescaped glyphs) :
    hasMeta (pattern glyphs) = glyphs.any isSyntax := by
  induction glyphs with
  | nil => rfl
  | cons glyph rest ih =>
    rw [pattern_cons, List.any_cons, ← ih (unescaped.suffix (List.suffix_cons ..))]
    cases active : glyph.active with
    | true =>
      rw [quote_of_active active, List.singleton_append, isSyntax, active, Bool.true_and]
      refine hasMeta_cons fun same => ?_
      rw [unescaped.cons (by rw [← same, ← active])]
      rfl
    | false =>
      rw [quote_of_inert active, escapeChar, isSyntax, active, Bool.false_and, Bool.false_or]
      split
      · exact hasMeta_quoted ..
      · rename_i bare
        simp only [Bool.or_eq_true, beq_iff_eq, not_or] at bare
        rw [List.singleton_append, hasMeta_cons fun same => absurd same bare.2]
        simp [bare.1.1]

/-- The text of a pattern is read as its glyphs are, unless it matters in a bracket expression
which of its members are active. -/
theorem read?_pattern_iff (clear : Clear glyphs) (unescaped : Unescaped glyphs)
    (items : List Item) : Item.read? (pattern glyphs) = some items ↔ Reads glyphs items := by
  -- the induction follows the reading, which goes on behind a bracket expression as a whole
  induction clear generalizing items with
  | nil => rw [pattern_nil, Item.read?_nil, Option.some_inj, reads_nil_iff]
  | @oneOf rest members after negated closed plain _ ih =>
    have written : pattern (opening :: rest) = '[' :: pattern rest := rfl
    have suffix : after <:+ opening :: rest :=
      (bracket?_suffix closed).trans (List.suffix_cons ..)
    rw [written, Item.read?_oneOf (body?_pattern closed plain), Bracket.ofBody?,
      ← marks_eq plain.dash, reads_oneOf_iff closed]
    simp only [Option.bind_eq_some_iff, Option.map_eq_some_iff, ih (unescaped.suffix suffix)]
    constructor
    · rintro ⟨_, ⟨found, ranges, rfl⟩, others, later, rfl⟩
      exact ⟨found, ranges, others, later, rfl⟩
    · rintro ⟨found, ranges, others, later, rfl⟩
      exact ⟨_, ⟨found, ranges, rfl⟩, others, later, rfl⟩
  | @unclosed rest opened clear _ ih =>
    have written : pattern (opening :: rest) = '[' :: pattern rest := rfl
    rw [written, Item.read?_unclosed (body?_pattern_of_none opened clear), Option.map_eq_some_iff,
      reads_unclosed_iff opened]
    simp only [ih (unescaped.suffix (List.suffix_cons ..))]
  | @other glyph rest differs _ ih =>
    have later := ih (unescaped.suffix (List.suffix_cons ..))
    cases syntactic : glyph.isSyntax with
    | false =>
      rw [read?_pattern_itself syntactic unescaped, Option.map_eq_some_iff,
        reads_itself_iff syntactic]
      simp only [later]
    | true =>
      rcases eq_of_isSyntax syntactic differs with rfl | rfl
      · have written : pattern (⟨'*', true⟩ :: rest) = '*' :: pattern rest := rfl
        rw [written, Item.read?_anyText, Option.map_eq_some_iff, reads_anyText_iff]
        simp only [later]
      · have written : pattern (⟨'?', true⟩ :: rest) = '?' :: pattern rest := rfl
        rw [written, Item.read?_anyChar, Option.map_eq_some_iff, reads_anyChar_iff]
        simp only [later]

end Glyph

end PolicyShell.Glob
