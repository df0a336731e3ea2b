import Mathlib.Data.List.Nodup
import PolicyShell.Proofs.Host.Lookup

/-! The entries of a tree whose names are accepted, one segment for each name. -/
namespace PolicyShell.FileTree

open Glob

variable {segment : Segment} {rest segments : List Segment} {name : String} {names : List String}
  {tree inner : FileTree}

/-- The paths that segments lead to, directory by directory. -/
def select : List Segment → FileTree → List (List String)
  | [], _ => [[]]
  | segment :: rest, tree =>
    (tree.names.filter (segment.accepts ·.toList)).flatMap fun name =>
      ((tree.entry? name).elim [] (select rest)).map (name :: ·)

/-- A file has no entries. -/
theorem select_of_not_isDirectory (present : segments ≠ []) (leaf : tree.isDirectory = false) :
    select segments tree = [] := by
  cases segments with
  | nil => exact absurd rfl present
  | cons segment rest =>
    cases tree with
    | file content => rfl
    | directory entries => cases leaf

private theorem mem_select_cons :
    name :: names ∈ select (segment :: rest) tree ↔
      segment.accepts name.toList = true ∧
        ∃ inner, tree.entry? name = some inner ∧ names ∈ select rest inner := by
  simp only [select, List.mem_flatMap, List.mem_filter, List.mem_map]
  constructor
  · rintro ⟨first, ⟨-, accepted⟩, others, member, same⟩
    obtain ⟨rfl, rfl⟩ := List.cons.inj same
    cases found : tree.entry? first with
    | none => simp [found] at member
    | some inner => exact ⟨accepted, inner, rfl, by simpa [found] using member⟩
  · rintro ⟨accepted, inner, found, member⟩
    have among : name ∈ tree.names := isSome_entry_iff.mp (Option.isSome_of_eq_some found)
    exact ⟨name, ⟨among, accepted⟩, names, by simpa [found] using member, rfl⟩

/-- What segments lead to is what exists and is accepted name by name. -/
theorem mem_select_iff :
    names ∈ select segments tree ↔
      (tree.at? names).isSome ∧ Pattern.acceptNames segments (names.map String.toList) = true := by
  induction segments generalizing tree names with
  | nil => cases names <;> simp [select, at?, Pattern.acceptNames]
  | cons segment rest ih =>
    cases names with
    | nil => simp [select, Pattern.acceptNames]
    | cons name names =>
      rw [mem_select_cons]
      cases found : tree.entry? name with
      | none => simp [at?, found]
      | some inner =>
        simp only [at?, found, Option.some.injEq, exists_eq_left', Option.bind_some, ih,
          List.map_cons, Pattern.acceptNames, Bool.and_eq_true]
        exact and_left_comm

/-- No path is found twice. -/
theorem nodup_select (wellFormed : tree.WellFormed) : (select segments tree).Nodup := by
  induction segments generalizing tree with
  | nil => exact List.nodup_singleton []
  | cons segment rest ih =>
    refine List.nodup_flatMap.mpr ⟨?_, ?_⟩
    · intro name member
      refine List.Nodup.map List.cons_injective ?_
      cases found : tree.entry? name with
      | none => exact List.nodup_nil
      | some inner => exact ih (wellFormed.entry? found)
    · -- the paths below different entries have different first names
      refine (wellFormed.nodup_names.filter _).imp fun {first second} differ => ?_
      intro path inFirst inSecond
      obtain ⟨_, -, rfl⟩ := List.mem_map.mp inFirst
      obtain ⟨_, -, same⟩ := List.mem_map.mp inSecond
      exact differ (List.cons.inj same).1.symm

theorem proper_of_mem_select (wellFormed : tree.WellFormed)
    (member : names ∈ select segments tree) : ∀ name ∈ names, IsProper name := by
  obtain ⟨inner, found⟩ := Option.isSome_iff_exists.mp (mem_select_iff.mp member).1
  exact fun name among => ((wellFormed.at? found).2 name among).toIsProper

theorem ne_nil_of_mem_select (present : segments ≠ []) (member : names ∈ select segments tree) :
    names ≠ [] := by
  rintro rfl
  obtain ⟨segment, rest, rfl⟩ := List.exists_cons_of_ne_nil present
  simp [mem_select_iff, Pattern.acceptNames] at member

/-- A literal name leads to its entry, if there is one. -/
theorem filter_names_literal (wellFormed : tree.WellFormed) (name : String) :
    tree.names.filter (Segment.accepts (.literal name.toList) ·.toList) =
      if (tree.entry? name).isSome then [name] else [] := by
  have same : (Segment.accepts (.literal name.toList) ·.toList) = (· == name) := by
    funext other
    simp [Segment.accepts, Bool.beq_eq_decide_eq, String.toList_inj, eq_comm]
  rw [same, List.filter_beq]
  by_cases present : (tree.entry? name).isSome
  · have once := List.count_eq_one_of_mem wellFormed.nodup_names (isSome_entry_iff.mp present)
    rw [if_pos present, once]
    rfl
  · rw [if_neg present, List.count_eq_zero_of_not_mem (mt isSome_entry_iff.mpr present)]
    rfl

end PolicyShell.FileTree
