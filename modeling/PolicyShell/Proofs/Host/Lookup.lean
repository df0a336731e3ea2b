import PolicyShell.Proofs.Host.Paths

/-! Trees of files and directories, and what paths lead to in them. -/
namespace PolicyShell

/-- A name that an entry of a directory can have. -/
structure IsName (name : String) : Prop extends IsProper name where
  clean : '\x00' ∉ name.toList
  short : name.utf8ByteSize ≤ FileSystem.nameLimit

variable {name : String} {names place : List String}

namespace FileTree

variable {tree inner : FileTree}

/-- The entries of each directory have different names. -/
inductive WellFormed : FileTree → Prop where
  | file (content : String) : WellFormed (file content)
  | directory {entries : List (String × FileTree)}
      (named : ∀ entry ∈ entries, IsName entry.1) (distinct : (entries.map Prod.fst).Nodup)
      (inner : ∀ entry ∈ entries, WellFormed entry.2) : WellFormed (directory entries)

theorem isSome_entry_iff : (tree.entry? name).isSome ↔ name ∈ tree.names := by
  cases tree with
  | file content => simp [FileTree.names, entry?]
  | directory entries =>
    unfold entry?
    rw [List.lookup_isSome_iff, FileTree.names, List.mem_map]
    simp [eq_comm (a := name)]

theorem exists_entry (member : name ∈ tree.names) : ∃ inner, tree.entry? name = some inner :=
  Option.isSome_iff_exists.mp (isSome_entry_iff.mpr member)

theorem at?_append (names rest : List String) :
    tree.at? (names ++ rest) = (tree.at? names).bind (·.at? rest) := by
  induction names generalizing tree with
  | nil => rfl
  | cons name names ih => cases found : tree.entry? name <;> simp [at?, found, ih]

theorem at?_singleton : tree.at? [name] = tree.entry? name := by
  cases found : tree.entry? name <;> simp [at?, found]

private theorem eq_directory_of_at? {entries : List (String × FileTree)}
    (found : tree.at? names = some (.directory entries)) :
    ∃ top, tree = .directory top := by
  cases tree with
  | file content => cases names <;> simp [at?, entry?] at found
  | directory top => exact ⟨top, rfl⟩

namespace WellFormed

theorem isName (wellFormed : tree.WellFormed) (member : name ∈ tree.names) : IsName name := by
  cases wellFormed with
  | file content => simp [FileTree.names] at member
  | directory named distinct inner =>
    obtain ⟨entry, among, rfl⟩ := List.mem_map.mp member
    exact named entry among

theorem nodup_names (wellFormed : tree.WellFormed) : tree.names.Nodup := by
  cases wellFormed with
  | file content => exact List.nodup_nil
  | directory named distinct inner => exact distinct

theorem entry? (wellFormed : tree.WellFormed) (found : tree.entry? name = some inner) :
    inner.WellFormed := by
  cases wellFormed with
  | file content => simp [FileTree.entry?] at found
  | directory named distinct wellFormed =>
    obtain ⟨before, after, whole, -⟩ := List.lookup_eq_some_iff.mp found
    exact wellFormed (name, inner) (by simp [whole])

/-- Paths lead to well-formed trees, and are made of names. -/
theorem at? (wellFormed : tree.WellFormed) (found : tree.at? names = some inner) :
    inner.WellFormed ∧ ∀ name ∈ names, IsName name := by
  induction names generalizing tree with
  | nil =>
    obtain rfl := Option.some.inj found
    exact ⟨wellFormed, by simp⟩
  | cons name names ih =>
    obtain ⟨next, entry, found⟩ := Option.bind_eq_some_iff.mp found
    obtain ⟨below, isNames⟩ := ih (wellFormed.entry? entry) found
    have first := wellFormed.isName (isSome_entry_iff.mp (Option.isSome_of_eq_some entry))
    exact ⟨below, List.forall_mem_cons.mpr ⟨first, isNames⟩⟩

end WellFormed

end FileTree

namespace FileSystem

/-- What lies below the working directory can all be reached from the root. -/
structure Readable (system : FileSystem) : Prop where
  wellFormed : system.root.WellFormed
  listed : ∃ entries, system.root.at? system.workingDirectory = some (.directory entries)
  short : ∀ names, (system.root.at? (system.workingDirectory ++ names)).isSome →
    (system.fromRoot (relativePath names)).utf8ByteSize ≤ pathLimit

variable {system : FileSystem}

private theorem follow_empty {entries : List (String × FileTree)}
    (found : system.root.at? place = some (.directory entries)) (rest : List String) :
    system.follow place ("" :: rest) = system.follow place rest := by
  simp [follow, found]

private theorem follow_append (place names rest : List String) :
    system.follow place (names ++ rest) =
      (system.follow place names).bind (system.follow · rest) := by
  induction names generalizing place with
  | nil => rfl
  | cons name names ih =>
    rw [List.cons_append, follow, follow]
    split
    · rfl
    · rfl
    · by_cases stays : name = "" ∨ name = "."
      · simpa [stays] using ih place
      · by_cases back : name = ".."
        · simpa [stays, back] using ih place.dropLast
        · rw [if_neg stays, if_neg back, if_neg stays, if_neg back]
          split
          · rfl
          · split
            · exact ih _
            · rfl

/-- Proper names are followed down the tree, as far as the tree goes. -/
theorem at?_follow (wellFormed : system.root.WellFormed) (proper : ∀ name ∈ names, IsProper name)
    (place : List String) :
    (system.follow place names).toOption.bind system.root.at? =
      system.root.at? (place ++ names) := by
  induction names generalizing place with
  | nil => simp [follow, Except.toOption]
  | cons name names ih =>
    obtain ⟨first, others⟩ := List.forall_mem_cons.mp proper
    rw [FileTree.at?_append]
    cases found : system.root.at? place with
    | none => simp [follow, found, Except.toOption]
    | some tree =>
      cases tree with
      | file content => simp [follow, found, Except.toOption, FileTree.at?, FileTree.entry?]
      | directory entries =>
        have placed := (wellFormed.at? found).1
        have below := ih others (place ++ [name])
        rw [List.append_assoc, List.singleton_append, FileTree.at?_append, found] at below
        simp only [follow, found, first.present, first.notHere, first.notBack, or_self, ↓reduceIte]
        by_cases present : (FileTree.entry? (.directory entries) name).isSome
        · have short := (placed.isName (FileTree.isSome_entry_iff.mp present)).short
          rw [if_neg (Nat.not_lt.mpr short), if_pos present, below]
        · have missing : FileTree.entry? (.directory entries) name = none := by
            simpa using present
          rw [if_neg present]
          split <;> simp [Except.toOption, FileTree.at?, missing]

private theorem at?_follow_fromRoot (readable : system.Readable)
    (proper : ∀ name ∈ names, IsProper name) :
    (system.follow [] (pathNames (system.fromRoot (relativePath names)))).toOption.bind
        system.root.at? =
      system.root.at? (system.workingDirectory ++ names) := by
  obtain ⟨entries, listed⟩ := readable.listed
  have way : ∀ name ∈ system.workingDirectory, IsProper name := fun name among =>
    ((readable.wellFormed.at? listed).2 name among).toIsProper
  have arrived := at?_follow readable.wellFormed way []
  obtain ⟨top, root⟩ := FileTree.eq_directory_of_at? listed
  have start : system.root.at? [] = some (.directory top) := by rw [FileTree.at?, root]
  rw [pathNames_fromRoot system (head?_relativePath proper) fun name among =>
    (way name among).single, follow_empty start]
  by_cases present : names = []
  · -- the empty path is the working directory itself
    subst present
    rw [List.nil_append, listed] at arrived
    obtain ⟨place, there, directory⟩ := Option.bind_eq_some_iff.mp arrived
    have reached : system.follow [] system.workingDirectory = .ok place := by
      cases reached : system.follow [] system.workingDirectory <;>
        simp_all [Except.toOption]
    have stays := follow_empty directory []
    have empty : pathNames (relativePath []) = [""] := rfl
    rw [empty, follow_append, reached, Except.bind, stays, List.append_nil, listed]
    exact directory
  · rw [pathNames_relativePath present proper]
    exact at?_follow readable.wellFormed
      (fun name among => (List.mem_append.mp among).elim (way name) (proper name)) []

private theorem clean_fromRoot (readable : system.Readable) (proper : ∀ name ∈ names, IsProper name)
    (found : (system.root.at? (system.workingDirectory ++ names)).isSome) :
    '\x00' ∉ (system.fromRoot (relativePath names)).toList := by
  intro malformed
  obtain ⟨tree, found⟩ := Option.isSome_iff_exists.mp found
  have isNames := (readable.wellFormed.at? found).2
  obtain ⟨name, among, within⟩ := mem_pathNames malformed (by decide)
  rw [pathNames_fromRoot system (head?_relativePath proper) fun name among =>
    (isNames name (List.mem_append_left _ among)).single] at among
  obtain rfl | among := List.mem_cons.mp among
  · simp at within
  · obtain among | among := List.mem_append.mp among
    · exact (isNames name (List.mem_append_left _ among)).clean within
    · by_cases present : names = []
      · have empty : name = "" := by simpa [present, relativePath, pathNames] using among
        simp [empty] at within
      · rw [pathNames_relativePath present proper] at among
        exact (isNames name (List.mem_append_right _ among)).clean within

/-- What a path of proper names leads to from the working directory. -/
theorem tree?_relativePath (readable : system.Readable)
    (proper : ∀ name ∈ names, IsProper name) :
    system.tree? (relativePath names) = system.root.at? (system.workingDirectory ++ names) := by
  have followed := at?_follow_fromRoot readable proper
  by_cases found : (system.root.at? (system.workingDirectory ++ names)).isSome
  · have clean : (system.fromRoot (relativePath names)).toList.contains '\x00' = false := by
      simpa using clean_fromRoot readable proper found
    rw [tree?, find, clean, if_neg Bool.false_ne_true,
      if_neg (Nat.not_lt.mpr (readable.short names found)), followed]
  · have missing : system.root.at? (system.workingDirectory ++ names) = none := by simpa using found
    rw [missing] at followed ⊢
    rw [tree?, find]
    split
    · rfl
    · split
      · rfl
      · exact followed

end FileSystem

end PolicyShell
