import PolicyShell.Proofs.Glob.Brackets
import PolicyShell.Proofs.Glob.Names

/-! What the text of a pattern for a name stands for, read from left to right, and that a compiled
pattern accepts just that. -/
namespace PolicyShell.Glob

/-- A text stands for a whole name. -/
inductive Matches : (text name : List Char) → Prop where
  | nil : Matches [] []
  /-- A backslash quotes the next character. -/
  | quoted {c : Char} {rest name : List Char} (later : Matches rest name) :
      Matches ('\\' :: c :: rest) (c :: name)
  | anyText (skipped : List Char) {rest name : List Char} (later : Matches rest name) :
      Matches ('*' :: rest) (skipped ++ name)
  | anyChar {c : Char} {rest name : List Char} (later : Matches rest name) :
      Matches ('?' :: rest) (c :: name)
  /-- If it is negated, a bracket expression stands for any character that is not of its class. -/
  | oneOf {c : Char} {rest body after name : List Char} {negated : Bool}
      (closed : Bracket.Closes rest negated body after)
      (member : Bracket.InClass c body ↔ negated = false) (later : Matches after name) :
      Matches ('[' :: rest) (c :: name)
  | unclosed {rest name : List Char}
      (opened : ∀ negated body after, ¬ Bracket.Closes rest negated body after)
      (later : Matches rest name) : Matches ('[' :: rest) ('[' :: name)
  /-- Any other character, and a backslash at the end, stands for itself. -/
  | itself {c : Char} {rest name : List Char} (plain : isMeta c = false)
      (unquoted : c = '\\' → rest = []) (later : Matches rest name) :
      Matches (c :: rest) (c :: name)

section
variable {text name : List Char} {items : List Item}

/-- The items of a text stand for no other names than the text. -/
theorem matches_of_spells (read : Item.read? text = some items) (spells : Spells items name) :
    Matches text name := by
  fun_induction Item.read? text generalizing items name with
  | case1 =>
    cases read
    cases spells
    exact .nil
  | case2 c rest ih =>
    obtain ⟨others, later, rfl⟩ := Option.map_eq_some_iff.mp read
    cases spells with
    | single accepted goOn =>
      obtain rfl := eq_of_beq accepted
      exact .quoted (ih later goOn)
  | case3 rest ih =>
    obtain ⟨others, later, rfl⟩ := Option.map_eq_some_iff.mp read
    cases spells with
    | single accepted => cases accepted
    | anyText skipped goOn => exact .anyText skipped (ih later goOn)
  | case4 rest ih =>
    obtain ⟨others, later, rfl⟩ := Option.map_eq_some_iff.mp read
    cases spells with
    | single _ goOn => exact .anyChar (ih later goOn)
  | case5 rest opened ih =>
    obtain ⟨others, later, rfl⟩ := Option.map_eq_some_iff.mp read
    cases spells with
    | single accepted goOn =>
      obtain rfl := eq_of_beq accepted
      exact .unclosed (Bracket.body?_eq_none_iff.mp opened) (ih later goOn)
  | case6 rest negated body after found shorter bracket others later members ih =>
    cases read
    cases spells with
    | single accepted goOn =>
      have member := (Bracket.contains_iff_of_ofBody? members _).mp accepted
      exact .oneOf (Bracket.body?_eq_some_iff.mp found) member (ih later goOn)
  | case7 => cases read
  | case8 c rest noQuote noText noChar noBracket ih =>
    obtain ⟨others, later, rfl⟩ := Option.map_eq_some_iff.mp read
    cases spells with
    | @single _ _ first _ accepted goOn =>
      obtain rfl : c = first := (eq_of_beq accepted).symm
      have plain : isMeta c = false := by
        simpa [isMeta] using ⟨⟨noText, noChar⟩, noBracket⟩
      have unquoted : c = '\\' → rest = [] := by
        intro same
        cases rest with
        | nil => rfl
        | cons next others => exact absurd rfl (noQuote next others same)
      exact .itself plain unquoted (ih later goOn)

/-- The items of a text stand for all names that the text stands for. -/
theorem Matches.spells (stands : Matches text name) (read : Item.read? text = some items) :
    Spells items name := by
  induction stands generalizing items with
  | nil =>
    rw [Item.read?_nil] at read
    cases read
    exact .nil
  | quoted later ih =>
    rw [Item.read?_quoted] at read
    obtain ⟨others, found, rfl⟩ := Option.map_eq_some_iff.mp read
    exact .single (beq_self_eq_true _) (ih found)
  | anyText skipped later ih =>
    rw [Item.read?_anyText] at read
    obtain ⟨others, found, rfl⟩ := Option.map_eq_some_iff.mp read
    exact .anyText skipped (ih found)
  | anyChar later ih =>
    rw [Item.read?_anyChar] at read
    obtain ⟨others, found, rfl⟩ := Option.map_eq_some_iff.mp read
    exact .single rfl (ih found)
  | oneOf closed member later ih =>
    rw [Item.read?_oneOf (Bracket.body?_eq_some_iff.mpr closed)] at read
    obtain ⟨bracket, members, read⟩ := Option.bind_eq_some_iff.mp read
    obtain ⟨others, found, rfl⟩ := Option.map_eq_some_iff.mp read
    exact .single ((Bracket.contains_iff_of_ofBody? members _).mpr member) (ih found)
  | unclosed opened later ih =>
    rw [Item.read?_unclosed (Bracket.body?_eq_none_iff.mpr opened)] at read
    obtain ⟨others, found, rfl⟩ := Option.map_eq_some_iff.mp read
    exact .single (beq_self_eq_true _) (ih found)
  | itself plain unquoted later ih =>
    rw [Item.read?_char plain unquoted] at read
    obtain ⟨others, found, rfl⟩ := Option.map_eq_some_iff.mp read
    exact .single (beq_self_eq_true _) (ih found)

private theorem spells_iff_matches (read : Item.read? text = some items) (name : List Char) :
    Spells items name ↔ Matches text name :=
  ⟨matches_of_spells read, fun stands => stands.spells read⟩

end

private theorem spells_map_char_iff (wanted name : List Char) :
    Spells (wanted.map .char) name ↔ wanted = name := by
  induction wanted generalizing name with
  | nil => exact (spells_nil_iff name).trans eq_comm
  | cons c rest ih =>
    have single : Item.char c ≠ .anyText := nofun
    cases name with
    | nil => simp [not_spells_nil single]
    | cons first others =>
      rw [List.map_cons, spells_cons_iff single, ih, Item.accepts, beq_iff_eq, List.cons.injEq]
      exact and_congr_left' eq_comm

/-- Such a text is read as the characters that are left of it without the quoting. -/
theorem read?_of_not_hasMeta {text : List Char} (literal : hasMeta text = false) :
    Item.read? text = some ((unescape text).map .char) := by
  fun_induction unescape text with
  | case1 => exact Item.read?_nil
  | case2 c rest ih =>
    rw [hasMeta_quoted] at literal
    rw [Item.read?_quoted, ih literal]
    rfl
  | case3 c rest noQuote ih =>
    have unquoted : c = '\\' → rest = [] := by
      intro same
      cases rest with
      | nil => rfl
      | cons next others => exact absurd rfl (noQuote next others same)
    rw [hasMeta_cons unquoted, Bool.or_eq_false_iff] at literal
    rw [Item.read?_char literal.1 unquoted, ih literal.2]
    rfl

/-- A character of glob syntax stands in a text, and no backslash quotes it: an even number of
them stands right before it. -/
def IsSyntactic (text : List Char) : Prop :=
  ∃ before c after, text = before ++ c :: after ∧ isMeta c = true ∧
    (before.reverse.takeWhile (· == '\\')).length % 2 = 0

private theorem isSyntactic_quoted_iff (c : Char) (rest : List Char) :
    IsSyntactic ('\\' :: c :: rest) ↔ IsSyntactic rest := by
  have parity (before : List Char) :
      (('\\' :: c :: before).reverse.takeWhile (· == '\\')).length % 2 =
        (before.reverse.takeWhile (· == '\\')).length % 2 := by
    rw [List.reverse_cons, List.reverse_cons, List.append_assoc, List.takeWhile_append]
    by_cases all : (before.reverse.takeWhile (· == '\\')).length = before.reverse.length
    · rw [if_pos all, all]
      by_cases quotes : c = '\\' <;> simp [quotes]
    · rw [if_neg all]
  constructor
  · rintro ⟨before, sign, after, whole, syntactic, even⟩
    rcases before with _ | ⟨first, _ | ⟨second, before⟩⟩
    · cases whole
      cases syntactic
    · cases whole
      cases even
    · cases whole
      rw [parity] at even
      exact ⟨before, sign, after, rfl, syntactic, even⟩
  · rintro ⟨before, sign, after, rfl, syntactic, even⟩
    exact ⟨'\\' :: c :: before, sign, after, rfl, syntactic, (parity before).trans even⟩

private theorem isSyntactic_cons_iff {c : Char} (rest : List Char) (differs : c ≠ '\\') :
    IsSyntactic (c :: rest) ↔ isMeta c = true ∨ IsSyntactic rest := by
  have same (before : List Char) : (c :: before).reverse.takeWhile (· == '\\') =
      before.reverse.takeWhile (· == '\\') := by
    rw [List.reverse_cons, List.takeWhile_append]
    split
    · rename_i all
      have whole := (List.takeWhile_prefix (· == '\\')).eq_of_length all
      simp [differs, whole]
    · rfl
  constructor
  · rintro ⟨before, sign, after, whole, syntactic, even⟩
    cases before with
    | nil =>
      cases whole
      exact .inl syntactic
    | cons first before =>
      cases whole
      rw [same] at even
      exact .inr ⟨before, sign, after, rfl, syntactic, even⟩
  · rintro (syntactic | ⟨before, sign, after, rfl, syntactic, even⟩)
    · exact ⟨[], c, rest, rfl, syntactic, rfl⟩
    · exact ⟨c :: before, sign, after, rfl, syntactic, (same before).symm ▸ even⟩

/-- The search for glob syntax finds what no backslash quotes. -/
theorem hasMeta_iff (text : List Char) : hasMeta text = true ↔ IsSyntactic text := by
  fun_induction hasMeta text with
  | case1 =>
    constructor
    · exact nofun
    · rintro ⟨before, c, after, whole, -⟩
      simp at whole
  | case2 c rest ih => rw [isSyntactic_quoted_iff, ih]
  | case3 c rest noQuote ih =>
    by_cases quotes : c = '\\'
    · cases rest with
      | cons next others => exact absurd rfl (noQuote next others quotes)
      | nil =>
        constructor
        · simp [quotes, isMeta, hasMeta]
        · rintro ⟨before, sign, after, whole, syntactic, -⟩
          have member : sign ∈ [c] := by simp [whole]
          rw [List.mem_singleton.mp member, quotes] at syntactic
          cases syntactic
    · rw [isSyntactic_cons_iff rest quotes, Bool.or_eq_true, ih]

namespace Segment

private theorem startsWithDot_iff (text : List Char) :
    startsWithDot text = true ↔ ['.'] <+: text ∨ ['\\', '.'] <+: text := by
  unfold startsWithDot
  split
  · simp
  · simp
  · rename_i noDot noQuotedDot
    constructor
    · exact nofun
    · rintro (⟨rest, rfl⟩ | ⟨rest, rfl⟩)
      · exact absurd rfl (noDot rest)
      · exact absurd rfl (noQuotedDot rest)

/-- A compiled pattern accepts the names that its text stands for, read from left to right. With
glob syntax in the text, a name with a leading dot is accepted only if the text has one, too. -/
theorem accepts_iff_matches {text : List Char} {segment : Segment}
    (compiled : compile? text = some segment) (name : List Char) :
    segment.accepts name = true ↔
      Matches text name ∧
        (IsSyntactic text → ['.'] <+: name → ['.'] <+: text ∨ ['\\', '.'] <+: text) := by
  rw [← startsWithDot_iff, ← hasMeta_iff]
  cases syntactic : hasMeta text with
  | true =>
    rw [compile?, if_pos syntactic] at compiled
    obtain ⟨items, read, rfl⟩ := Option.map_eq_some_iff.mp compiled
    obtain ⟨read, -⟩ := Option.filter_eq_some_iff.mp read
    have shown : (startsWithDot text || name.head? != some '.') = true ↔
        (['.'] <+: name → startsWithDot text = true) := by
      cases name with
      | nil => simp
      | cons first rest =>
        by_cases dot : first = '.'
        · simp [dot]
        · have differs : '.' ≠ first := fun same => dot same.symm
          simp [dot, differs]
    rw [accepts, Bool.and_eq_true, matchItems_iff, spells_iff_matches read, shown]
    simp [and_comm]
  | false =>
    rw [compile?, syntactic] at compiled
    cases compiled
    have literal := read?_of_not_hasMeta syntactic
    rw [← spells_iff_matches literal, spells_map_char_iff]
    simp [accepts]

/-- A negated bracket expression stands for the end of a line, and an unclosed one for itself. -/
theorem accepts_iff_matches_newline :
    let text := "\\.[!a-é]*[".toList
    let found : Segment :=
      .pattern [.char '.', .oneOf ⟨true, [('a', 'é')], []⟩, .anyText, .char '['] true
    compile? text = some found ∧ found.accepts ".\n*[".toList = true ∧
      Matches text ".\n*[".toList := by
  intro text found
  have compiled : compile? text = some found := by decide +kernel
  have accepted : found.accepts ".\n*[".toList = true := by decide +kernel
  exact ⟨compiled, accepted, ((accepts_iff_matches compiled _).mp accepted).1⟩

end Segment

end PolicyShell.Glob
