import PolicyShell.Text.Split

/-! The runs of a text are the pieces between its separators, the empty ones left out. -/
namespace PolicyShell

variable {isSeparator : Char → Bool}

theorem splitOnP_append {front : List Char} (plain : ∀ c ∈ front, isSeparator c = false)
    (rest : List Char) :
    (front ++ rest).splitOnP isSeparator =
      (rest.splitOnP isSeparator).modifyHead (front ++ ·) := by
  induction front with
  | nil => exact (congrFun List.modifyHead_id _).symm
  | cons c front ih =>
    obtain ⟨differs, others⟩ := List.forall_mem_cons.mp plain
    rw [List.cons_append, List.splitOnP_cons_eq_if_modifyHead, ih others, differs,
      if_neg Bool.false_ne_true, List.modifyHead_modifyHead]
    rfl

theorem mem_splitOnP (isSeparator : Char → Bool) {c : Char} {text : List Char} (member : c ∈ text)
    (differs : isSeparator c = false) : ∃ piece ∈ text.splitOnP isSeparator, c ∈ piece := by
  induction text with
  | nil => simp at member
  | cons d rest ih =>
    obtain ⟨first, others, pieces⟩ :=
      List.exists_cons_of_ne_nil (List.splitOnP_ne_nil isSeparator rest)
    rw [List.splitOnP_cons_eq_if_modifyHead, pieces]
    rw [pieces] at ih
    obtain rfl | later := List.mem_cons.mp member
    · exact ⟨c :: first, by simp [differs], List.mem_cons_self ..⟩
    · obtain ⟨piece, among, within⟩ := ih later
      by_cases separates : isSeparator d = true
      · exact ⟨piece, by rw [if_pos separates]; exact List.mem_cons_of_mem _ among, within⟩
      · obtain rfl | among := List.mem_cons.mp among
        · exact ⟨d :: piece, by simp [separates], List.mem_cons_of_mem d within⟩
        · exact ⟨piece, by simp [separates, among], within⟩

theorem runs_eq_splitOnP (text : List Char) :
    runs isSeparator text = (text.splitOnP isSeparator).filter (!·.isEmpty) := by
  fun_induction runs isSeparator text with
  | case1 => simp
  | case2 c rest separates ih =>
    simp [List.splitOnP_cons_eq_if_modifyHead, separates, ih]
  | case3 c differs => simp [List.splitOnP_cons_eq_if_modifyHead, differs]
  | case4 c differs next rest separates ih =>
    simp [List.splitOnP_cons_eq_if_modifyHead, differs, separates, ih]
  | case5 c differs next rest nextDiffers ih =>
    -- the next character belongs to the first piece, so that piece is not left out
    obtain ⟨first, others, pieces⟩ :=
      List.exists_cons_of_ne_nil (List.splitOnP_ne_nil isSeparator rest)
    rw [ih]
    simp [List.splitOnP_cons_eq_if_modifyHead, differs, nextDiffers, pieces]

theorem runs_append_cons (before rest : List Char) {c : Char} (separates : isSeparator c = true) :
    runs isSeparator (before ++ c :: rest) = runs isSeparator before ++ runs isSeparator rest := by
  simp only [runs_eq_splitOnP, List.splitOnP_append_cons before rest separates, List.filter_append]

theorem runs_of_forall {text : List Char} (plain : ∀ c ∈ text, isSeparator c = false) :
    runs isSeparator text = if text.isEmpty then [] else [text] := by
  rw [runs_eq_splitOnP, List.splitOnP_eq_singleton plain]
  cases text <;> rfl

theorem runs_eq_nil_iff {text : List Char} :
    runs isSeparator text = [] ↔ ∀ c ∈ text, isSeparator c = true := by
  fun_induction runs isSeparator text with
  | case1 => simp
  | case2 c rest separates ih => simp [separates, ih]
  | case3 c differs => simp [differs]
  | case4 c differs next rest separates ih => simp [differs]
  | case5 c differs next rest nextDiffers ih =>
    have some : runs isSeparator (next :: rest) ≠ [] := fun none => by
      simp [nextDiffers] at ih
      exact ih none
    simp [differs, some]

/-- The runs are not empty and have no separators in them. -/
theorem mem_runs {text piece : List Char} (member : piece ∈ runs isSeparator text) :
    piece ≠ [] ∧ ∀ c ∈ piece, isSeparator c = false := by
  fun_induction runs isSeparator text generalizing piece with
  | case1 => cases member
  | case2 c rest separates ih => exact ih member
  | case3 c differs =>
    obtain rfl := List.mem_singleton.mp member
    simpa using differs
  | case4 c differs next rest separates ih =>
    obtain rfl | later := List.mem_cons.mp member
    · simpa using differs
    · exact ih later
  | case5 c differs next rest nextDiffers ih =>
    cases others : runs isSeparator (next :: rest) with
    | nil => simp [others] at member
    | cons first others =>
      simp only [others, List.modifyHead_cons] at member ih
      obtain rfl | later := List.mem_cons.mp member
      · have plain := (ih (List.mem_cons_self ..)).2
        simpa [differs] using plain
      · exact ih (List.mem_cons_of_mem _ later)

/-- A text has no separator, or it is cut at the first one. -/
theorem plain_or_cut (isSeparator : Char → Bool) (text : List Char) :
    (∀ c ∈ text, isSeparator c = false) ∨
      ∃ before c rest, text = before ++ c :: rest ∧ isSeparator c = true ∧
        ∀ c ∈ before, isSeparator c = false := by
  cases found : text.find? isSeparator with
  | none => exact .inl fun c member => by simpa using List.find?_eq_none.mp found c member
  | some c =>
    obtain ⟨separates, before, rest, whole, plain⟩ := List.find?_eq_some_iff_append.mp found
    exact .inr ⟨before, c, rest, whole, separates, fun c member => by simpa using plain c member⟩

/-- What holds of texts without separators, and of a text if it holds of what is behind the first
separator in it, holds of all texts. -/
@[elab_as_elim]
theorem cut_induction {motive : List Char → Prop} (isSeparator : Char → Bool)
    (plain : ∀ text, (∀ c ∈ text, isSeparator c = false) → motive text)
    (cut : ∀ before c rest, (∀ c ∈ before, isSeparator c = false) → isSeparator c = true →
      motive rest → motive (before ++ c :: rest)) (text : List Char) : motive text := by
  rcases plain_or_cut isSeparator text with absent | ⟨before, c, rest, rfl, separates, absent⟩
  · exact plain text absent
  · exact cut before c rest absent separates (cut_induction isSeparator plain cut rest)
termination_by text.length

/-- Where each separator is written as itself and no other character with one, a text is cut at the
same places when it is written. -/
theorem runs_flatMap {write : Char → List Char}
    (kept : ∀ c, isSeparator c = true → write c = [c])
    (plain : ∀ c, isSeparator c = false →
      write c ≠ [] ∧ ∀ d ∈ write c, isSeparator d = false) (text : List Char) :
    runs isSeparator (text.flatMap write) = (runs isSeparator text).map (·.flatMap write) := by
  have written : ∀ text, (∀ c ∈ text, isSeparator c = false) →
      runs isSeparator (text.flatMap write) = (runs isSeparator text).map (·.flatMap write) := by
    intro text absent
    have none : ∀ d ∈ text.flatMap write, isSeparator d = false := by
      intro d member
      obtain ⟨c, among, within⟩ := List.mem_flatMap.mp member
      exact (plain c (absent c among)).2 d within
    rw [runs_of_forall none, runs_of_forall absent]
    cases text with
    | nil => rfl
    | cons c text =>
      have present := (plain c (absent c (List.mem_cons_self ..))).1
      simp [List.flatMap_cons, present]
  induction text using cut_induction isSeparator with
  | plain text absent => exact written text absent
  | cut before c rest absent separates ih =>
    rw [List.flatMap_append, List.flatMap_cons, kept c separates, List.singleton_append,
      runs_append_cons _ _ separates, runs_append_cons before rest separates, List.map_append,
      written before absent, ih]

end PolicyShell
