import PolicyShell.Glob.Pattern
import PolicyShell.Proofs.Glob.Spelling
import PolicyShell.Proofs.Text.Runs

/-! Patterns and paths by their names, and those that are a single name. -/
namespace PolicyShell.Glob

variable {text name : List Char}

private theorem exists_of_mem_mapM {α β : Type} {f : α → Option β} {elements : List α}
    {results : List β} (mapped : elements.mapM f = some results) {result : β}
    (member : result ∈ results) : ∃ element ∈ elements, f element = some result := by
  induction elements generalizing results with
  | nil =>
    cases mapped
    cases member
  | cons element elements ih =>
    rw [List.mapM_cons] at mapped
    obtain ⟨first, made, mapped⟩ := Option.bind_eq_some_iff.mp mapped
    obtain ⟨others, later, same⟩ := Option.bind_eq_some_iff.mp mapped
    obtain rfl := Option.some.inj same
    obtain rfl | member := List.mem_cons.mp member
    · exact ⟨element, List.mem_cons_self .., made⟩
    · obtain ⟨element, among, made⟩ := ih later member
      exact ⟨element, List.mem_cons_of_mem _ among, made⟩

theorem pathNames_of_not_mem (present : name ≠ []) (single : '/' ∉ name) :
    pathNames name = [name] := by
  have plain : ∀ c ∈ name, (c == '/') = false := fun c member => by
    simpa using fun same : c = '/' => single (same ▸ member)
  have some : ¬ name.isEmpty = true := by simpa using present
  rw [pathNames, runs_of_forall plain, if_neg some]

theorem isAbsolute_of_not_mem (single : '/' ∉ name) : isAbsolute name = false := by
  cases name with
  | nil => rfl
  | cons c rest =>
    have differs : c ≠ '/' := fun same => single (same ▸ List.mem_cons_self ..)
    simpa [isAbsolute] using differs

private theorem mem_of_mem_unescape {c : Char} (member : c ∈ unescape text) : c ∈ text := by
  fun_induction unescape text with
  | case1 => exact member
  | case2 quoted rest ih =>
    obtain rfl | member := List.mem_cons.mp member
    · simp
    · simp [ih member]
  | case3 first rest bare ih =>
    obtain rfl | member := List.mem_cons.mp member
    · exact List.mem_cons_self ..
    · exact List.mem_cons_of_mem _ (ih member)

private theorem unescape_ne_nil (present : text ≠ []) : unescape text ≠ [] := by
  fun_cases unescape text with
  | case1 => exact absurd rfl present
  | case2 => simp
  | case3 => simp

namespace Pattern

/-- The names in a pattern are not empty and have no slash in them. -/
theorem literal_of_compile? {absolute : Bool} {segments : List Segment}
    (compiled : compile? text = some ⟨absolute, segments⟩) (member : .literal name ∈ segments) :
    name ≠ [] ∧ '/' ∉ name := by
  obtain ⟨found, read, same⟩ := Option.map_eq_some_iff.mp compiled
  obtain ⟨-, rfl⟩ := Pattern.mk.inj same
  obtain ⟨piece, among, spelled⟩ := exists_of_mem_mapM read member
  obtain ⟨present, plain⟩ := mem_runs among
  have written : name = unescape piece := by
    rw [Segment.compile?] at spelled
    split at spelled
    · simp at spelled
    · simpa using spelled.symm
  rw [written]
  exact ⟨unescape_ne_nil present, fun slash => by simpa using plain _ (mem_of_mem_unescape slash)⟩

/-- The pattern for a name that a text spells. -/
theorem compile?_of_not_mem (present : text ≠ []) (single : '/' ∉ text) :
    compile? text = (Segment.compile? text).map fun segment => ⟨false, [segment]⟩ := by
  rw [compile?, pathNames_of_not_mem present single, isAbsolute_of_not_mem single]
  cases compiled : Segment.compile? text <;> simp [compiled]

theorem accepts_of_not_mem (segment : Segment) (present : name ≠ []) (single : '/' ∉ name) :
    accepts ⟨false, [segment]⟩ name = segment.accepts name := by
  rw [accepts, pathNames_of_not_mem present single, isAbsolute_of_not_mem single]
  simp [acceptNames]

end Pattern

namespace Segment

/-- A text with glob syntax accepts what its items stand for, apart from leading dots. -/
theorem accepts_of_compile? {segment : Segment} (compiled : compile? text = some segment)
    (syntactic : hasMeta text = true) (visible : name.head? ≠ some '.') :
    segment.accepts name = true ↔ ∃ items, Item.read? text = some items ∧ Spells items name := by
  rw [compile?, if_pos syntactic] at compiled
  obtain ⟨items, read, rfl⟩ := Option.map_eq_some_iff.mp compiled
  obtain ⟨read, -⟩ := Option.filter_eq_some_iff.mp read
  have shown : (name.head? != some '.') = true := by simpa using visible
  rw [accepts, shown, Bool.or_true, Bool.true_and, matchItems_iff, read]
  simp

end Segment

end PolicyShell.Glob
