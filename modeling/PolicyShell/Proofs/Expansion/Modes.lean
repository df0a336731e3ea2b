import Mathlib.Data.List.Basic
import PolicyShell.Proofs.Expansion.Shape

/-! The legacy mode differs from the static one by splitting, globbing and elision only. Where none
of these has anything to do with a value, it adds the same text and the same pattern to a field in
either mode, whatever stands beside it. -/
namespace PolicyShell

/-- There is nothing in the value to split, to match or to drop. -/
structure Intact (separators value : String) : Prop where
  present : value ≠ ""
  whole : ∀ c ∈ value.toList, c ∉ separators.toList
  plain : ∀ c ∈ value.toList, c ∉ ['*', '?', '[', ']']

/-- Every value that an unquoted substitution brings into the word is intact. -/
def Word.IsIntact (bindings : Bindings) (word : Word) : Prop :=
  ∀ part ∈ word.parts, part.isQuoted = false →
    ∀ value ∈ bindings.texts part, Intact bindings.separators value

namespace Intact

variable {separators value : String}

theorem noMeta (intact : Intact separators value) : value.toList.any Glob.isMeta = false := by
  apply List.any_eq_false.mpr
  intro c member
  have plain := intact.plain c member
  simp only [List.mem_cons, List.not_mem_nil, or_false, not_or] at plain
  simp [Glob.isMeta, plain]

/-- A backslash is the only character that is quoted in a pattern, and it is quoted in both
modes. -/
theorem escape_eq (intact : Intact separators value) :
    Glob.escape value.toList = value.toList.flatMap FieldBuilder.doubleBackslash := by
  apply List.flatMap_congr
  intro c member
  have plain := intact.plain c member
  simp only [List.mem_cons, List.not_mem_nil, or_false, not_or] at plain
  by_cases backslash : c = '\\'
  · subst backslash
    rfl
  · simp [Glob.escapeChar, Glob.isMeta, FieldBuilder.doubleBackslash, plain, backslash]

theorem not_contains (intact : Intact separators value) :
    ∀ c ∈ value.toList, separators.toList.contains c = false := by
  intro c member
  simpa using intact.whole c member

private theorem splitFields_eq (intact : Intact separators value) :
    splitFields separators value = [value] := by
  have present : value.toList.isEmpty = false := by simpa using intact.present
  rw [splitFields, runs_of_forall intact.not_contains, present]
  simp

end Intact

namespace FieldBuilder

variable {separators : String}

private theorem addActive_of_intact {value : String} (intact : Intact separators value)
    (builder : FieldBuilder) : builder.addActive value = builder.addLiteral value := by
  rw [addActive, addLiteral, intact.escape_eq, intact.noMeta]

private theorem addSplit_of_intact {value : String} (intact : Intact separators value)
    (builder : FieldBuilder) : builder.addSplit separators value = builder.addLiteral value := by
  have first : closeAt separators.toList.contains value.toList.head? builder = builder :=
    closeAt_of_not (fun c head => intact.not_contains c (List.mem_of_head? head)) builder
  have last : closeAt separators.toList.contains value.toList.getLast? (builder.addLiteral value) =
      builder.addLiteral value :=
    closeAt_of_not (fun c last => intact.not_contains c (List.mem_of_getLast? last)) _
  calc builder.addSplit separators value
    _ = closeAt separators.toList.contains value.toList.getLast?
          (addEach addActive (closeAt separators.toList.contains value.toList.head? builder)
            (splitFields separators value)) := rfl
    _ = closeAt separators.toList.contains value.toList.getLast? (builder.addActive value) := by
      rw [first, intact.splitFields_eq]
      rfl
    _ = builder.addLiteral value := by rw [addActive_of_intact intact, last]

variable {quoted : Bool} (arrays : ArrayMode)

/-- A value is added in the same way in both modes if it is quoted or intact. -/
theorem addValue_legacy {value : String} (kept : quoted = false → Intact separators value)
    (builder : FieldBuilder) :
    builder.addValue ⟨.legacy, arrays⟩ quoted separators value =
      builder.addValue ⟨.static, arrays⟩ quoted separators value := by
  cases quoted with
  | true => rfl
  | false => exact addSplit_of_intact (kept rfl) builder

private theorem addEach_legacy {values : List String}
    (kept : quoted = false → ∀ value ∈ values, Intact separators value) (builder : FieldBuilder) :
    builder.addEach (addValue ⟨.legacy, arrays⟩ quoted separators) values =
      builder.addEach (addValue ⟨.static, arrays⟩ quoted separators) values := by
  cases values with
  | nil => rfl
  | cons first rest =>
    have head : quoted = false → Intact separators first :=
      fun unquoted => kept unquoted first (List.mem_cons_self ..)
    rw [addEach, addEach, addValue_legacy arrays head]
    apply List.foldl_ext
    intro built value member
    exact addValue_legacy arrays
      (fun unquoted => kept unquoted value (List.mem_cons_of_mem first member)) built.close

private theorem addElements_legacy {splice : Bool} {elements : List String}
    (kept : quoted = false → ∀ value ∈ elementTexts splice separators elements,
      Intact separators value) (builder : FieldBuilder) :
    builder.addElements ⟨.legacy, arrays⟩ splice quoted separators elements =
      builder.addElements ⟨.static, arrays⟩ splice quoted separators elements := by
  cases splice with
  | true => exact addEach_legacy arrays kept builder
  | false =>
    exact addValue_legacy arrays (fun unquoted => kept unquoted _ (List.mem_singleton_self _))
      builder

private theorem addPart_legacy {bindings : Bindings} {part : WordPart}
    (kept : part.isQuoted = false → ∀ value ∈ bindings.texts part,
      Intact bindings.separators value) (builder : FieldBuilder) :
    builder.addPart ⟨.legacy, arrays⟩ bindings part =
      builder.addPart ⟨.static, arrays⟩ bindings part := by
  cases part with
  | literal text => rfl
  | glob text => rfl
  | scalar name quoted =>
    exact addValue_legacy arrays (fun unquoted => kept unquoted _ (List.mem_singleton_self _))
      builder
  | array name splice quoted => exact addElements_legacy arrays kept builder
  | arguments splice quoted => exact addElements_legacy arrays kept builder

end FieldBuilder

namespace Word

/-- A word into which no unquoted value is substituted that might be split, matched or dropped has
the same fields in the legacy and in the static mode, down to their patterns. Where strict arrays
forbid the word, they forbid it in both. -/
theorem fields_legacy_eq_static {bindings : Bindings} {word : Word}
    (intact : word.IsIntact bindings) (arrays : ArrayMode) :
    word.fields ⟨.legacy, arrays⟩ bindings = word.fields ⟨.static, arrays⟩ bindings := by
  have added : word.parts.foldl (FieldBuilder.addPart ⟨.legacy, arrays⟩ bindings) {} =
      word.parts.foldl (FieldBuilder.addPart ⟨.static, arrays⟩ bindings) {} := by
    apply List.foldl_ext
    intro builder part member
    exact FieldBuilder.addPart_legacy arrays (intact part member) builder
  rw [fields, fields, added]

/-- Unquoted values with a backslash and a blank stand in a pattern, between quoted ones that would
be split and matched. -/
theorem fields_legacy_eq_static_backslash :
    let bindings : Bindings :=
      ⟨fun name => some (if name = "q" then "*:" else "c\\ d"), fun _ => none, ["a\\", "b"], ":"⟩
    let word : Word :=
      ⟨[.glob "[x", .scalar "q" true, .arguments true false, .literal "]", .scalar "v" false]⟩
    word.IsIntact bindings ∧
      word.fields ⟨.static, .lenient⟩ bindings =
        .ok [.pending "[x\\*:a\\\\" "[x*:a\\", .done "b]c\\ d"] ∧
      word.fields ⟨.legacy, .lenient⟩ bindings = word.fields ⟨.static, .lenient⟩ bindings := by
  intro bindings word
  have first : Intact ":" "a\\" := ⟨by simp, by simp, by simp⟩
  have second : Intact ":" "b" := ⟨by simp, by simp, by simp⟩
  have value : Intact ":" "c\\ d" := ⟨by simp, by simp, by simp⟩
  have intact : word.IsIntact bindings := by
    simp [Word.IsIntact, word, WordPart.isQuoted, bindings, Bindings.texts, Bindings.scalar,
      elementTexts, first, second, value]
  exact ⟨intact, by decide +kernel, fields_legacy_eq_static intact .lenient⟩

end Word

end PolicyShell
