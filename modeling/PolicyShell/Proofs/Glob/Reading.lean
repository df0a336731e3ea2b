import PolicyShell.Glob.Escape
import PolicyShell.Glob.Item

/-! How the text of a pattern is read, one item at a time. -/
namespace PolicyShell

namespace Name

variable {stop : Char} {text : List Char}

theorem upTo?_of_not_mem (absent : stop ∉ text) : upTo? stop text = none := by
  cases found : upTo? stop text with
  | none => rfl
  | some read =>
    have whole := upTo?_append found
    exact absurd (by simp [← whole]) absent

theorem upTo?_append_cons (absent : stop ∉ text) (rest : List Char) :
    upTo? stop (text ++ stop :: rest) = some (text, rest) := by
  have before : ∀ c ∈ text, (c != stop) = true := fun c member => by
    simpa using fun same : c = stop => absent (same ▸ member)
  rw [upTo?, List.dropWhile_append_of_pos before, List.takeWhile_append_of_pos before]
  simp

end Name

namespace Glob

namespace Bracket

variable {c : Char} {text : List Char}

/-- The signs with which a bracket expression is negated. -/
def isNegation (c : Char) : Bool := c == '!' || c == '^'

theorem body?_cons (c : Char) (text : List Char) :
    body? (c :: text) =
      if isNegation c then (body?.closed? text).map (true, ·)
      else (body?.closed? (c :: text)).map (false, ·) := by
  by_cases negates : isNegation c
  · rw [if_pos negates]
    obtain rfl | rfl : c = '!' ∨ c = '^' := by simpa [isNegation] using negates
    · rfl
    · rfl
  · have differs : c ≠ '!' ∧ c ≠ '^' := by simpa [isNegation] using negates
    rw [if_neg negates, body?]
    · exact fun inner same => differs.1 (List.cons.inj same).1
    · exact fun inner same => differs.2 (List.cons.inj same).1

/-- The first character of a body does not close the bracket. -/
theorem closed?_append_cons (c : Char) (absent : ']' ∉ text) (rest : List Char) :
    body?.closed? (c :: (text ++ ']' :: rest)) = some (c :: text, rest) := by
  by_cases closes : c = ']'
  · subst closes
    rw [body?.closed?, Name.upTo?_append_cons absent]
    rfl
  · have absent' : ']' ∉ c :: text := by
      simpa using ⟨fun same => closes same.symm, absent⟩
    rw [body?.closed?, ← List.cons_append, Name.upTo?_append_cons absent']
    exact fun inner same => closes (List.cons.inj same).1

theorem closed?_of_not_mem (absent : ']' ∉ text.tail) : body?.closed? text = none := by
  unfold body?.closed?
  split
  · rename_i inner
    have absent' : ']' ∉ inner := absent
    rw [Name.upTo?_of_not_mem absent']
    rfl
  · rename_i differs
    refine Name.upTo?_of_not_mem fun member => ?_
    cases text with
    | nil => cases member
    | cons c text =>
      rcases List.mem_cons.mp member with rfl | member
      · exact differs text rfl
      · exact absent member

theorem body?_of_not_mem (absent : ']' ∉ text.tail) : body? text = none := by
  cases text with
  | nil => rfl
  | cons c text =>
    have absent' : ']' ∉ text.tail := fun member => absent (List.mem_of_mem_tail member)
    rw [body?_cons, closed?_of_not_mem absent, closed?_of_not_mem absent']
    split <;> rfl

end Bracket

theorem hasMeta_quoted (c : Char) (rest : List Char) :
    hasMeta ('\\' :: c :: rest) = hasMeta rest := rfl

theorem hasMeta_cons {c : Char} {rest : List Char} (unquoted : c = '\\' → rest = []) :
    hasMeta (c :: rest) = (isMeta c || hasMeta rest) := by
  rw [hasMeta]
  rintro next others rfl rfl
  cases unquoted rfl

namespace Item

variable {c : Char} {rest : List Char}

/-- A backslash quotes the character behind it. -/
theorem read?_quoted (c : Char) (rest : List Char) :
    read? ('\\' :: c :: rest) = (read? rest).map (char c :: ·) := by
  rw [read?]

theorem read?_anyText (rest : List Char) :
    read? ('*' :: rest) = (read? rest).map (anyText :: ·) := by
  rw [read?]

theorem read?_anyChar (rest : List Char) :
    read? ('?' :: rest) = (read? rest).map (anyChar :: ·) := by
  rw [read?]

theorem read?_unclosed (opened : Bracket.body? rest = none) :
    read? ('[' :: rest) = (read? rest).map (char '[' :: ·) := by
  rw [read?]
  split <;> simp_all

theorem read?_oneOf {negated : Bool} {body after : List Char}
    (closed : Bracket.body? rest = some (negated, body, after)) :
    read? ('[' :: rest) =
      (Bracket.ofBody? negated body).bind fun bracket =>
        (read? after).map (oneOf bracket :: ·) := by
  rw [read?]
  split
  · simp_all
  · simp_all
    cases Bracket.ofBody? negated body <;> cases read? after <;> rfl

/-- Any other character stands for itself, and a backslash does at the end. -/
theorem read?_char (plain : isMeta c = false) (unquoted : c = '\\' → rest = []) :
    read? (c :: rest) = (read? rest).map (char c :: ·) := by
  rw [read?]
  all_goals simp_all [isMeta]

end Item

end Glob

end PolicyShell
