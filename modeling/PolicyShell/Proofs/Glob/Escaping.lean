import PolicyShell.Expansion.Field
import PolicyShell.Proofs.Glob.Reading

/-! Patterns that are written piece by piece. Each piece stands for a text of its own, so that
neither the text of the whole pattern nor its glob syntax depends on what stands beside it. -/
namespace PolicyShell

namespace Glob

/-- A piece of a pattern stands for a text, whatever is written behind it, and has glob syntax or
none. -/
structure Writes (piece text : List Char) (syntactic : Bool) : Prop where
  unescape : ∀ rest, unescape (piece ++ rest) = text ++ unescape rest
  hasMeta : ∀ rest, hasMeta (piece ++ rest) = (syntactic || hasMeta rest)

namespace Writes

variable {piece next text later : List Char} {syntactic syntactic' : Bool}

theorem nil : Writes [] [] false := by
  constructor
  · intro rest
    rfl
  · intro rest
    rfl

theorem append (first : Writes piece text syntactic) (second : Writes next later syntactic') :
    Writes (piece ++ next) (text ++ later) (syntactic || syntactic') := by
  constructor
  · intro rest
    rw [List.append_assoc, first.unescape, second.unescape, List.append_assoc]
  · intro rest
    rw [List.append_assoc, first.hasMeta, second.hasMeta, Bool.or_assoc]

theorem quoted (c : Char) : Writes ['\\', c] [c] false := by
  constructor
  · intro rest
    rfl
  · intro rest
    rfl

theorem bare {c : Char} (differs : c ≠ '\\') : Writes [c] [c] (isMeta c) := by
  constructor
  · intro rest
    rw [List.singleton_append, Glob.unescape]
    · rfl
    · intro next others same
      exact absurd same differs
  · intro rest
    exact hasMeta_cons fun same => absurd same differs

/-- A text may be written one character at a time. -/
theorem flatMap {write : Char → List Char} {isSyntax : Char → Bool}
    (writes : ∀ c ∈ text, Writes (write c) [c] (isSyntax c)) :
    Writes (text.flatMap write) text (text.any isSyntax) := by
  induction text with
  | nil => exact nil
  | cons c text ih =>
    obtain ⟨head, tail⟩ := List.forall_mem_cons.mp writes
    exact head.append (ih tail)

private theorem escapedChar (c : Char) : Writes (escapeChar c) [c] false := by
  unfold escapeChar
  by_cases special : (isMeta c || c == ']' || c == '\\') = true
  · rw [if_pos special]
    exact quoted c
  · rw [if_neg special]
    simp only [Bool.or_eq_true, beq_iff_eq, not_or, Bool.not_eq_true] at special
    obtain ⟨⟨plain, -⟩, differs⟩ := special
    have written := bare differs
    rwa [plain] at written

/-- An escaped text has no glob syntax. -/
theorem escaped (text : List Char) : Writes (escape text) text false := by
  have writes : Writes (escape text) text (text.any fun _ => false) :=
    flatMap fun c _ => escapedChar c
  have none : (text.any fun _ => false) = false := List.any_eq_false.mpr fun _ _ => nofun
  rwa [none] at writes

/-- A text in which only the backslashes are quoted keeps its glob syntax. -/
theorem doubled (text : List Char) :
    Writes (text.flatMap FieldBuilder.doubleBackslash) text (text.any isMeta) := by
  apply flatMap
  intro c member
  by_cases backslash : c = '\\'
  · subst backslash
    exact quoted '\\'
  · rw [FieldBuilder.doubleBackslash, if_neg backslash]
    exact bare backslash

/-- A text without backslashes is a pattern as it is. -/
theorem unquoted (absent : '\\' ∉ text) : Writes text text (text.any isMeta) := by
  have writes : Writes (text.flatMap ([·])) text (text.any isMeta) := by
    apply flatMap
    intro c member
    apply bare
    intro same
    exact absent (same ▸ member)
  rwa [List.flatMap_singleton'] at writes

end Writes

end Glob

end PolicyShell
