import PolicyShell.Proofs.Glob.Escaping
import PolicyShell.Proofs.Glob.Names

/-! Escaped texts. They are patterns for the names in the text and for nothing else. -/
namespace PolicyShell.Glob

@[simp] theorem hasMeta_escape (text : List Char) : hasMeta (escape text) = false := by
  simpa [hasMeta] using (Writes.escaped text).hasMeta []

@[simp] theorem unescape_escape (text : List Char) : unescape (escape text) = text := by
  simpa [unescape] using (Writes.escaped text).unescape []

theorem isAbsolute_escape (text : List Char) : isAbsolute (escape text) = isAbsolute text := by
  cases text with
  | nil => rfl
  | cons c text =>
    rw [escape, List.flatMap_cons, escapeChar]
    split
    case isTrue special =>
      -- a slash is not among the characters that are quoted
      have differs : c ≠ '/' := fun same => by simp [same, isMeta] at special
      simp [isAbsolute, differs]
    case isFalse => rfl

private theorem pathNames_escape (text : List Char) :
    pathNames (escape text) = (pathNames text).map escape := by
  apply runs_flatMap
  · intro c slash
    obtain rfl : c = '/' := by simpa using slash
    rfl
  · intro c differs
    unfold escapeChar
    split <;> simpa using differs

private theorem pathNames_eq_splitOn (path : List Char) :
    pathNames path = (path.splitOn '/').filter (· ≠ []) := by
  rw [pathNames, runs_eq_splitOnP, List.splitOn]
  exact List.filter_congr fun name _ => by cases name <;> rfl

private theorem Segment.compile?_escape (name : List Char) :
    compile? (escape name) = some (.literal name) := by
  rw [compile?, hasMeta_escape, unescape_escape, if_neg Bool.false_ne_true]

namespace Pattern

/-- The pattern for the names in a text as they are. -/
def literal (text : List Char) : Pattern :=
  ⟨isAbsolute text, (pathNames text).map .literal⟩

theorem compile?_escape (text : List Char) : compile? (escape text) = some (literal text) := by
  have each : ∀ names : List (List Char),
      (names.map escape).mapM Segment.compile? = some (names.map .literal) := by
    intro names
    induction names with
    | nil => rfl
    | cons name names ih =>
      rw [List.map_cons, List.mapM_cons, Segment.compile?_escape, ih]
      rfl
  rw [compile?, pathNames_escape, each, isAbsolute_escape]
  rfl

private theorem acceptNames_literal_iff (wanted names : List (List Char)) :
    acceptNames (wanted.map .literal) names = true ↔ names = wanted := by
  induction wanted generalizing names with
  | nil => cases names <;> simp [acceptNames]
  | cons first wanted ih =>
    cases names with
    | nil => simp [acceptNames]
    | cons name names =>
      rw [List.map_cons, acceptNames, Bool.and_eq_true, ih, Segment.accepts, beq_iff_eq,
        List.cons.injEq]
      exact and_congr_left' eq_comm

theorem literal_accepts_iff (text path : List Char) :
    (literal text).accepts path = true ↔
      isAbsolute path = isAbsolute text ∧ pathNames path = pathNames text := by
  rw [accepts, literal, Bool.and_eq_true, beq_iff_eq, acceptNames_literal_iff]

end Pattern

/-- An escaped text has no glob syntax and stands for the text. It is a pattern, and a path matches
it if and only if both are absolute or both are not, and the names in them are the same. -/
theorem escaped_text_matches_itself (text : List Char) :
    hasMeta (escape text) = false ∧ unescape (escape text) = text ∧
      ∃ pattern, Pattern.compile? (escape text) = some pattern ∧
        ∀ path : List Char, pattern.accepts path = true ↔
          (path.head? = some '/' ↔ text.head? = some '/') ∧
            (path.splitOn '/').filter (· ≠ []) = (text.splitOn '/').filter (· ≠ []) := by
  refine ⟨hasMeta_escape text, unescape_escape text, .literal text,
    Pattern.compile?_escape text, fun path => ?_⟩
  have absolute : isAbsolute path = isAbsolute text ↔
      (path.head? = some '/' ↔ text.head? = some '/') := by
    rw [Bool.eq_iff_iff, isAbsolute, isAbsolute, beq_iff_eq, beq_iff_eq]
  rw [Pattern.literal_accepts_iff, absolute, pathNames_eq_splitOn, pathNames_eq_splitOn]

end PolicyShell.Glob
