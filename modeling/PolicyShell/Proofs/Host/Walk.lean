import PolicyShell.Host.Memory
import PolicyShell.Proofs.Host.Selection

/-! Walking through directories finds the paths that the whole pattern accepts. -/
namespace PolicyShell.FileSystem

open Glob

variable {m : Type → Type} [Monad m] {system : FileSystem} {segment : Segment}
  {rest segments : List Segment} {names : List String} {tree : FileTree}

/-- A path from the working directory to a file or a directory. -/
def HasEntry (system : FileSystem) (path : String) : Prop :=
  ∃ names, names ≠ [] ∧ (system.root.at? (system.workingDirectory ++ names)).isSome ∧
    relativePath names = path

/-- What segments lead to from a place below the working directory. -/
def below (system : FileSystem) (segments : List Segment) (names : List String) :
    List (List String) :=
  ((system.root.at? (system.workingDirectory ++ names)).elim [] (FileTree.select segments)).map
    (names ++ ·)

/-- Whether a segment goes on to an entry. A literal name does so to a file on the way too: nothing
is found below it. -/
def goesOn (isLast : Bool) (inner : FileTree) : Segment → Bool
  | .literal _ => true
  | .pattern .. => isLast || inner.isDirectory

/-- The places that a segment leads to from another one. -/
def onward (system : FileSystem) (segment : Segment) (isLast : Bool) (names : List String) :
    List (List String) :=
  (system.root.at? (system.workingDirectory ++ names)).elim [] fun tree =>
    (tree.names.filter (segment.accepts ·.toList)).flatMap fun name =>
      if (tree.entry? name).any (goesOn isLast · segment) then [names ++ [name]] else []

/-- The literal segments are names, and none of them is for the same or the outer directory. -/
def ProperLiterals (segments : List Segment) : Prop :=
  ∀ name, .literal name ∈ segments → IsProper (String.ofList name)

/-- A place below the working directory. -/
structure IsPlace (system : FileSystem) (names : List String) : Prop where
  proper : ∀ name ∈ names, IsProper name
  found : (system.root.at? (system.workingDirectory ++ names)).isSome

private theorem IsPlace.proper_append {name : String} (place : system.IsPlace names)
    (proper : IsProper name) : ∀ other ∈ names ++ [name], IsProper other := by
  intro other among
  obtain inside | last := List.mem_append.mp among
  · exact place.proper other inside
  · exact List.mem_singleton.mp last ▸ proper

theorem at?_below (here : system.root.at? (system.workingDirectory ++ names) = some tree)
    (name : String) :
    system.root.at? (system.workingDirectory ++ (names ++ [name])) = tree.entry? name := by
  rw [← List.append_assoc, FileTree.at?_append, here, Option.bind_some, FileTree.at?_singleton]

/-- What is left out on the way leads to nothing. -/
theorem flatMap_onward (place : system.IsPlace names) :
    (system.onward segment rest.isEmpty names).flatMap (system.below rest) =
      system.below (segment :: rest) names := by
  obtain ⟨tree, here⟩ := Option.isSome_iff_exists.mp place.found
  rw [onward, here, Option.elim_some, List.flatMap_assoc, below, here, Option.elim_some,
    FileTree.select, List.map_flatMap]
  refine List.flatMap_congr fun name among => ?_
  obtain ⟨inner, found⟩ := FileTree.exists_entry (List.mem_of_mem_filter among)
  by_cases goes : goesOn rest.isEmpty inner segment = true
  · simp [found, goes, below, at?_below here, Function.comp_def]
  · have stops : rest ≠ [] ∧ inner.isDirectory = false := by
      cases segment with
      | literal name => exact absurd rfl goes
      | pattern items dotfiles => simpa [goesOn] using goes
    simp [found, goes, FileTree.select_of_not_isDirectory stops.1 stops.2]

theorem mapM_eq_pure [LawfulMonad m] {α β : Type} {f : α → m β} {g : α → β} {elements : List α}
    (each : ∀ element ∈ elements, f element = pure (g element)) :
    elements.mapM f = pure (elements.map g) := by
  induction elements with
  | nil => simp
  | cons element elements ih =>
    obtain ⟨first, others⟩ := List.forall_mem_cons.mp each
    simp [List.mapM_cons, first, ih others]

namespace Readable

variable (readable : system.Readable)
include readable

theorem isPlace (found : (system.root.at? (system.workingDirectory ++ names)).isSome) :
    system.IsPlace names := by
  obtain ⟨tree, there⟩ := Option.isSome_iff_exists.mp found
  have isNames := (readable.wellFormed.at? there).2
  exact ⟨fun name among => (isNames name (List.mem_append_right _ among)).toIsProper, found⟩

private theorem files_isPresent (proper : ∀ name ∈ names, IsProper name) :
    (system.files (m := m)).isPresent (relativePath names) =
      pure (system.root.at? (system.workingDirectory ++ names)).isSome :=
  congrArg (pure ·.isSome) (tree?_relativePath readable proper)

private theorem files_isDirectory (proper : ∀ name ∈ names, IsProper name) :
    (system.files (m := m)).isDirectory (relativePath names) =
      pure ((system.root.at? (system.workingDirectory ++ names)).any FileTree.isDirectory) :=
  congrArg (pure <| ·.any FileTree.isDirectory) (tree?_relativePath readable proper)

private theorem files_entries (proper : ∀ name ∈ names, IsProper name) :
    (system.files (m := m)).entries (relativePath names) =
      pure ((system.root.at? (system.workingDirectory ++ names)).map FileTree.names |>.getD []) :=
  congrArg (pure <| ·.map FileTree.names |>.getD []) (tree?_relativePath readable proper)

private theorem isPlace_of_mem_onward {isLast : Bool} {next : List String}
    (member : next ∈ system.onward segment isLast names) : system.IsPlace next := by
  cases here : system.root.at? (system.workingDirectory ++ names) with
  | none => simp [onward, here] at member
  | some tree =>
    simp only [onward, here, Option.elim_some, List.mem_flatMap] at member
    obtain ⟨name, among, member⟩ := member
    have present := FileTree.isSome_entry_iff.mpr (List.mem_of_mem_filter among)
    split at member
    · obtain rfl := List.mem_singleton.mp member
      refine readable.isPlace ?_
      rwa [at?_below here]
    · cases member

variable [LawfulMonad m]

private theorem follow_eq (place : system.IsPlace names)
    (literals : ∀ name, segment = .literal name → IsProper (String.ofList name)) (isLast : Bool) :
    (system.files (m := m)).follow segment isLast (relativePath names) =
      pure ((system.onward segment isLast names).map relativePath) := by
  obtain ⟨tree, here⟩ := Option.isSome_iff_exists.mp place.found
  have placed := (readable.wellFormed.at? here).1
  cases segment with
  | literal name =>
    have proper := place.proper_append (literals name rfl)
    have kept := FileTree.filter_names_literal placed (String.ofList name)
    rw [String.toList_ofList] at kept
    rw [Files.follow, Files.joinPath_relativePath _ place.proper, files_isPresent readable proper,
      pure_bind, onward, here, Option.elim_some, kept, at?_below here]
    cases found : tree.entry? (String.ofList name) <;> simp [found, goesOn]
  | pattern items dotfiles =>
    rw [Files.follow, files_entries readable place.proper, here, pure_bind, onward, here]
    simp only [Option.map_some, Option.getD_some, Option.elim_some]
    rw [mapM_eq_pure (g := fun name =>
      if (tree.entry? name).any (goesOn isLast · (.pattern items dotfiles)) then
        [relativePath (names ++ [name])] else []), pure_bind]
    · rw [List.map_flatMap, ← List.flatMap_def]
      congr 1
      refine List.flatMap_congr fun name _ => ?_
      split <;> rfl
    · intro name among
      have first := placed.isName (List.mem_of_mem_filter among)
      have proper := place.proper_append first.toIsProper
      obtain ⟨inner, found⟩ := FileTree.exists_entry (List.mem_of_mem_filter among)
      rw [Files.joinPath_relativePath _ place.proper, files_isDirectory readable proper,
        at?_below here, pure_bind, found]
      cases isLast <;> simp [goesOn]

/-- All that is found at the end of a walk lies below the places where it began. -/
theorem walk_eq (literals : ProperLiterals segments) (places : List (List String))
    (isPlaces : ∀ names ∈ places, system.IsPlace names) :
    (system.files (m := m)).walk segments (places.map relativePath) =
      pure ((places.flatMap (system.below segments)).map relativePath) := by
  induction segments generalizing places with
  | nil =>
    have same : places.flatMap (system.below []) = places := by
      have each : ∀ names ∈ places, system.below [] names = [names] := fun names member => by
        obtain ⟨tree, here⟩ := Option.isSome_iff_exists.mp (isPlaces names member).found
        simp [below, here, FileTree.select]
      rw [List.flatMap_congr each, List.flatMap_singleton']
    rw [Files.walk, same]
  | cons segment rest ih =>
    have step : (places.map relativePath).mapM
          ((system.files (m := m)).follow segment rest.isEmpty) =
        pure (places.map fun names =>
          (system.onward segment rest.isEmpty names).map relativePath) := by
      rw [List.mapM_map]
      refine mapM_eq_pure fun names member => ?_
      exact readable.follow_eq (isPlaces names member)
        (fun name same => literals name (same ▸ List.mem_cons_self ..)) _
    rw [Files.walk, step, pure_bind, ← List.flatMap_def, ← List.map_flatMap, ih]
    · rw [List.flatMap_assoc, List.flatMap_congr fun names member =>
        flatMap_onward (isPlaces names member)]
    · exact fun name member => literals name (List.mem_cons_of_mem _ member)
    · intro next member
      obtain ⟨names, -, member⟩ := List.mem_flatMap.mp member
      exact readable.isPlace_of_mem_onward member

end Readable

private theorem properLiterals_of_compile? {text : List Char} {absolute : Bool}
    (compiled : Pattern.compile? text = some ⟨absolute, segments⟩)
    (here : .literal ['.'] ∉ segments) (back : .literal ['.', '.'] ∉ segments) :
    ProperLiterals segments := by
  intro name member
  obtain ⟨present, single⟩ := Pattern.literal_of_compile? compiled member
  constructor
  · simpa using present
  · intro same
    have dot : name = ['.'] := by simpa using congrArg String.toList same
    exact here (dot ▸ member)
  · intro same
    have dots : name = ['.', '.'] := by simpa using congrArg String.toList same
    exact back (dots ▸ member)
  · simpa using single

namespace Readable

variable (readable : system.Readable) {entries : List (String × FileTree)}
  (listed : system.root.at? system.workingDirectory = some (.directory entries))
include readable listed

theorem glob_eq_select [LawfulMonad m] {pattern : String}
    (compiled : Pattern.compile? pattern.toList = some ⟨false, segments⟩)
    (present : segments ≠ []) (literals : ProperLiterals segments) :
    (system.files (m := m)).glob pattern =
      pure (.ok ((FileTree.select segments (.directory entries)).map relativePath)) := by
  have start : system.IsPlace [] := ⟨by simp, by simp [listed]⟩
  have walked := readable.walk_eq (m := m) literals [[]] (by simpa using start)
  have below : [[]].flatMap (system.below segments) =
      FileTree.select segments (.directory entries) := by
    simp [FileSystem.below, listed]
  rw [below, List.map_singleton] at walked
  obtain ⟨segment, rest, rfl⟩ := List.exists_cons_of_ne_nil present
  rw [Files.glob, compiled]
  have root : relativePath [] = "" := rfl
  simpa [root] using congrArg (Except.ok <$> ·) walked

private theorem nodup_select (present : segments ≠ []) :
    ((FileTree.select segments (.directory entries)).map relativePath).Nodup := by
  have placed := (readable.wellFormed.at? listed).1
  refine (FileTree.nodup_select placed).map_on fun first inFirst second inSecond same => ?_
  exact relativePath_injective (FileTree.ne_nil_of_mem_select present inFirst)
    (FileTree.proper_of_mem_select placed inFirst) (FileTree.ne_nil_of_mem_select present inSecond)
    (FileTree.proper_of_mem_select placed inSecond) same

private theorem mem_select_iff (present : segments ≠ []) (path : String) :
    path ∈ (FileTree.select segments (.directory entries)).map relativePath ↔
      system.HasEntry path ∧ Pattern.accepts ⟨false, segments⟩ path.toList = true := by
  have below : ∀ names, system.root.at? (system.workingDirectory ++ names) =
      (FileTree.directory entries).at? names := fun names => by
    rw [FileTree.at?_append, listed, Option.bind_some]
  constructor
  · intro member
    obtain ⟨names, selected, rfl⟩ := List.mem_map.mp member
    have some := FileTree.ne_nil_of_mem_select present selected
    obtain ⟨found, accepted⟩ := FileTree.mem_select_iff.mp selected
    rw [← below] at found
    refine ⟨⟨names, some, found, rfl⟩, ?_⟩
    rwa [Pattern.accepts_relativePath segments some (readable.isPlace found).proper]
  · rintro ⟨⟨names, some, found, rfl⟩, accepted⟩
    rw [Pattern.accepts_relativePath segments some (readable.isPlace found).proper] at accepted
    rw [below] at found
    exact List.mem_map_of_mem (FileTree.mem_select_iff.mpr ⟨found, accepted⟩)

end Readable

/-- Walking from directory to directory finds exactly the entries whose paths the pattern accepts,
each of them once. A host that keeps the same entries by their paths finds the same ones. -/
theorem glob_eq_accepted [LawfulMonad m] (readable : system.Readable) {pattern : String}
    (compiled : Pattern.compile? pattern.toList = some ⟨false, segments⟩)
    (present : segments ≠ []) (here : .literal ['.'] ∉ segments)
    (back : .literal ['.', '.'] ∉ segments) :
    ∃ found, (system.files.host (m := m)).glob pattern = pure (.ok found) ∧ found.Nodup ∧
      (∀ path, path ∈ found ↔
        system.HasEntry path ∧ Pattern.accepts ⟨false, segments⟩ path.toList = true) ∧
      ∀ kept : Std.TreeMap String String, (∀ path, path ∈ kept ↔ system.HasEntry path) →
        ∃ filtered, (Host.ofFiles (m := m) kept).glob pattern = pure (.ok filtered) ∧
          filtered.Nodup ∧ ∀ path, path ∈ filtered ↔ path ∈ found := by
  obtain ⟨entries, listed⟩ := readable.listed
  have literals := properLiterals_of_compile? compiled here back
  refine ⟨_, readable.glob_eq_select listed compiled present literals,
    readable.nodup_select listed present, readable.mem_select_iff listed present, ?_⟩
  intro kept same
  refine ⟨kept.keys.filter (Pattern.accepts ⟨false, segments⟩ ·.toList), ?_, ?_, ?_⟩
  · simp only [Host.ofFiles, compiled]
  · exact kept.nodup_keys.filter _
  · intro path
    rw [List.mem_filter, Std.TreeMap.mem_keys, same, readable.mem_select_iff listed present]

/-- A working directory with a file in a directory. -/
def nested : FileSystem where
  root := .directory [("w", .directory [("d", .directory [("b", .file "")])])]
  workingDirectory := ["w"]

private theorem only_entry {first name : String} {rest : List String}
    (found : ((FileTree.directory [(name, tree)]).at? (first :: rest)).isSome) :
    first = name ∧ (tree.at? rest).isSome := by
  by_cases same : first = name
  · subst same
    exact ⟨rfl, by simpa [FileTree.at?, FileTree.entry?] using found⟩
  · have differs : (first == name) = false := by simpa using same
    simp [FileTree.at?, FileTree.entry?, List.lookup_cons, differs] at found

theorem nested_names (found : (nested.root.at? (nested.workingDirectory ++ names)).isSome) :
    names ∈ [[], ["d"], ["d", "b"]] := by
  have inside := (only_entry found).2
  match names with
  | [] => decide
  | [first] =>
    obtain ⟨rfl, -⟩ := only_entry inside
    decide
  | first :: second :: rest =>
    obtain ⟨firstName, below⟩ := only_entry inside
    obtain ⟨secondName, file⟩ := only_entry below
    cases rest with
    | nil => simp [firstName, secondName]
    | cons third rest => cases file

private theorem readable_nested : nested.Readable where
  wellFormed := by
    have checked : ∀ name ∈ ["w", "d", "b"],
        (name ≠ "" ∧ name ≠ "." ∧ name ≠ ".." ∧ '/' ∉ name.toList) ∧
          '\x00' ∉ name.toList ∧ name.utf8ByteSize ≤ nameLimit := by decide +kernel
    have isName : ∀ name ∈ ["w", "d", "b"], IsName name := fun name member =>
      have ⟨⟨present, notHere, notBack, single⟩, clean, short⟩ := checked name member
      ⟨⟨present, notHere, notBack, single⟩, clean, short⟩
    have wrapped : ∀ name ∈ ["w", "d", "b"], ∀ inner : FileTree, inner.WellFormed →
        (FileTree.directory [(name, inner)]).WellFormed := fun name member inner wellFormed =>
      .directory (by simpa using isName name member) (by simp) (by simpa using wellFormed)
    have innermost := wrapped "b" (by decide) _ (.file "")
    exact wrapped "w" (by decide) _ (wrapped "d" (by decide) _ innermost)
  listed := ⟨_, rfl⟩
  short := by
    have checked : ∀ names ∈ [[], ["d"], ["d", "b"]],
        (nested.fromRoot (relativePath names)).utf8ByteSize ≤ pathLimit := by decide +kernel
    exact fun names found => checked names (nested_names found)

theorem hasEntry_nested (path : String) : nested.HasEntry path ↔ path = "d" ∨ path = "d/b" := by
  constructor
  · rintro ⟨names, some, found, rfl⟩
    have among := nested_names found
    simp only [List.mem_cons, List.not_mem_nil, or_false] at among
    obtain rfl | rfl | rfl := among
    · exact absurd rfl some
    · exact .inl (by decide +kernel)
    · exact .inr (by decide +kernel)
  · rintro (rfl | rfl)
    · exact ⟨["d"], by decide, rfl, by decide +kernel⟩
    · exact ⟨["d", "b"], by decide, rfl, by decide +kernel⟩

theorem glob_eq_accepted_nested :
    let kept : Std.TreeMap String String := .ofList [("d", ""), ("d/b", "")]
    (∀ path, path ∈ kept ↔ nested.HasEntry path) ∧
      ∃ found filtered, (nested.files.host (m := Id)).glob "*/b" = pure (.ok found) ∧
        (Host.ofFiles (m := Id) kept).glob "*/b" = pure (.ok filtered) ∧
        ∀ path, (path ∈ found ↔ path = "d/b") ∧ (path ∈ filtered ↔ path ∈ found) := by
  intro kept
  have same : ∀ path, path ∈ kept ↔ nested.HasEntry path := fun path => by
    rw [hasEntry_nested, Std.TreeMap.mem_ofList]
    simp
  have compiled : Pattern.compile? "*/b".toList =
      some ⟨false, [.pattern [.anyText] false, .literal ['b']]⟩ := by decide +kernel
  obtain ⟨found, walked, -, exactly, keeps⟩ := glob_eq_accepted (m := Id) readable_nested compiled
    (by decide) (by decide) (by decide)
  obtain ⟨filtered, kept, -, agree⟩ := keeps kept same
  refine ⟨same, found, filtered, walked, kept, fun path => ⟨?_, agree path⟩⟩
  rw [exactly, hasEntry_nested]
  constructor
  · rintro ⟨rfl | rfl, accepted⟩
    · exact absurd accepted (by decide +kernel)
    · rfl
  · rintro rfl
    exact ⟨.inr rfl, by decide +kernel⟩

end PolicyShell.FileSystem
