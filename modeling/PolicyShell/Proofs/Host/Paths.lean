import PolicyShell.Host.FileTree
import PolicyShell.Proofs.Glob.Names

/-! Paths as the names between their slashes. -/
namespace PolicyShell

/-- A name that leads one step down. The empty name, a dot and two dots do not. -/
structure IsProper (name : String) : Prop where
  present : name ≠ ""
  notHere : name ≠ "."
  notBack : name ≠ ".."
  single : '/' ∉ name.toList

/-- The path from the working directory down through names. -/
def relativePath (names : List String) : String := "/".intercalate names

variable {path name rest : String} {names place : List String}

theorem relativePath_append (present : names ≠ []) :
    relativePath (names ++ [name]) = relativePath names ++ "/" ++ name := by
  rw [relativePath, String.intercalate_append_of_ne_nil present (by simp),
    String.intercalate_singleton]
  rfl

private theorem toList_relativePath :
    (relativePath names).toList = ['/'].intercalate (names.map String.toList) := by
  rw [relativePath, String.toList_intercalate]
  rfl

namespace FileSystem

theorem pathNames_slash (rest : String) : pathNames ("/" ++ rest) = "" :: pathNames rest := by
  simp [pathNames, List.splitOnP_cons_eq_if_modifyHead]

/-- Characters without a slash in front of a path belong to its first name. -/
theorem pathNames_append (rest : String) (single : '/' ∉ name.toList) :
    pathNames (name ++ rest) = (pathNames rest).modifyHead (name ++ ·) := by
  have plain : ∀ c ∈ name.toList, (c == '/') = false := fun c member => by
    simpa using fun same : c = '/' => single (same ▸ member)
  rw [pathNames, String.toList_append, splitOnP_append plain, pathNames]
  cases rest.toList.splitOnP (· == '/') <;> simp

theorem pathNames_relativePath (present : names ≠ []) (proper : ∀ name ∈ names, IsProper name) :
    pathNames (relativePath names) = names := by
  have pieces : ∀ text ∈ names.map String.toList, '/' ∉ text := by
    simpa using fun name among => (proper name among).single
  have cut := List.splitOn_intercalate '/' pieces (by simpa using present)
  rw [pathNames, toList_relativePath]
  rw [List.splitOn] at cut
  simp [cut, Function.comp_def]

/-- Every character of a path is a slash or belongs to a name. -/
theorem mem_pathNames {c : Char} (member : c ∈ path.toList) (differs : c ≠ '/') :
    ∃ name ∈ pathNames path, c ∈ name.toList := by
  obtain ⟨piece, among, within⟩ := mem_splitOnP (· == '/') member (by simpa using differs)
  exact ⟨String.ofList piece, List.mem_map_of_mem among, by simpa using within⟩

/-- A relative path goes on from the names of the working directory. -/
theorem pathNames_fromRoot (system : FileSystem) (relative : path.toList.head? ≠ some '/')
    (single : ∀ name ∈ system.workingDirectory, '/' ∉ name.toList) :
    pathNames (system.fromRoot path) = "" :: (system.workingDirectory ++ pathNames path) := by
  rw [fromRoot, if_neg relative]
  generalize system.workingDirectory = directory at single ⊢
  induction directory with
  | nil => exact pathNames_slash path
  | cons name names ih =>
    obtain ⟨first, others⟩ := List.forall_mem_cons.mp single
    rw [List.foldr_cons, String.append_assoc, pathNames_slash, pathNames_append _ first, ih others]
    simp

/-- A path of proper names is relative. -/
theorem head?_relativePath (proper : ∀ name ∈ names, IsProper name) :
    (relativePath names).toList.head? ≠ some '/' := by
  intro absolute
  obtain ⟨rest, whole⟩ := List.head?_eq_some_iff.mp absolute
  have slash : relativePath names = "/" ++ String.ofList rest :=
    String.toList_injective (by simp [whole])
  by_cases present : names = []
  · simp [present, relativePath] at absolute
  · have first := pathNames_relativePath present proper
    rw [slash, pathNames_slash] at first
    exact (proper "" (first ▸ List.mem_cons_self ..)).present rfl

/-- Paths of proper names are different when the names are. -/
theorem relativePath_injective {others : List String} (present : names ≠ [])
    (proper : ∀ name ∈ names, IsProper name) (othersPresent : others ≠ [])
    (othersProper : ∀ name ∈ others, IsProper name)
    (same : relativePath names = relativePath others) : names = others := by
  rw [← pathNames_relativePath present proper, ← pathNames_relativePath othersPresent othersProper,
    same]

end FileSystem

theorem relativePath_ne_empty (present : names ≠ []) (proper : ∀ name ∈ names, IsProper name) :
    relativePath names ≠ "" := by
  intro empty
  have cut := FileSystem.pathNames_relativePath present proper
  rw [empty] at cut
  exact (proper "" (cut ▸ List.mem_cons_self ..)).present rfl

private theorem getLast?_relativePath (proper : ∀ name ∈ names, IsProper name) :
    (relativePath names).toList.getLast? ≠ some '/' := by
  intro slash
  obtain rfl | ⟨init, last, rfl⟩ := names.eq_nil_or_concat
  · simp [relativePath] at slash
  · have proper := proper last (by simp)
    have inLast : last.toList.getLast? = some '/' := by
      by_cases present : init = []
      · simpa [present, relativePath] using slash
      · rw [List.concat_eq_append, relativePath_append present, String.toList_append,
          List.getLast?_append] at slash
        cases final : last.toList.getLast? with
        | none => exact absurd (by simpa using final) proper.present
        | some c => simpa [final] using slash
    exact proper.single (List.mem_of_getLast? inLast)

theorem Files.joinPath_relativePath (name : String) (proper : ∀ name ∈ names, IsProper name) :
    Files.joinPath (relativePath names) name = relativePath (names ++ [name]) := by
  by_cases present : names = []
  · subst present
    rfl
  · have some : (relativePath names).isEmpty = false := by
      simpa using relativePath_ne_empty present proper
    rw [Files.joinPath, some, if_neg Bool.false_ne_true, if_neg (getLast?_relativePath proper),
      relativePath_append present]

/-- A pattern is compared with the names of a path that are not empty. -/
theorem Glob.pathNames_toList (path : String) :
    Glob.pathNames path.toList =
      ((FileSystem.pathNames path).filter (· ≠ "")).map String.toList := by
  rw [Glob.pathNames, runs_eq_splitOnP, FileSystem.pathNames, List.filter_map, List.map_map]
  have kept : ∀ piece : List Char,
      (!piece.isEmpty) = decide (String.ofList piece ≠ "") := fun piece => by
    cases piece <;> simp
  simp [Function.comp_def, kept]

theorem Glob.Pattern.accepts_relativePath (segments : List Segment) (present : names ≠ [])
    (proper : ∀ name ∈ names, IsProper name) :
    accepts ⟨false, segments⟩ (relativePath names).toList =
      acceptNames segments (names.map String.toList) := by
  have relative : isAbsolute (relativePath names).toList = false := by
    simpa [isAbsolute] using FileSystem.head?_relativePath proper
  have whole : names.filter (· ≠ "") = names :=
    List.filter_eq_self.mpr fun name among => by simpa using (proper name among).present
  rw [accepts, relative, Glob.pathNames_toList,
    FileSystem.pathNames_relativePath present proper, whole]
  rfl

end PolicyShell
