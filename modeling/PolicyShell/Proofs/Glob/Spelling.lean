import PolicyShell.Glob.Item

/-! What a name looks like that the items of a pattern stand for, and that matching finds it out. -/
namespace PolicyShell.Glob

/-- The items, one after the other, stand for the whole name. -/
inductive Spells : List Item → List Char → Prop where
  | nil : Spells [] []
  | single {item : Item} {items : List Item} {c : Char} {rest : List Char}
      (accepted : item.accepts c = true) (later : Spells items rest) :
      Spells (item :: items) (c :: rest)
  | anyText {items : List Item} (skipped : List Char) {rest : List Char}
      (later : Spells items rest) : Spells (.anyText :: items) (skipped ++ rest)

theorem spells_nil_iff (name : List Char) : Spells [] name ↔ name = [] := by
  constructor
  · intro spells
    cases spells
    rfl
  · rintro rfl
    exact .nil

private theorem spells_anyText_iff (items : List Item) (name : List Char) :
    Spells (.anyText :: items) name ↔ ∃ rest, rest <:+ name ∧ Spells items rest := by
  constructor
  · intro spells
    cases spells with
    | single accepted => cases accepted
    | anyText skipped later => exact ⟨_, List.suffix_append .., later⟩
  · rintro ⟨rest, ⟨skipped, rfl⟩, later⟩
    exact .anyText skipped later

theorem not_spells_nil {item : Item} (single : item ≠ .anyText) (items : List Item) :
    ¬ Spells (item :: items) [] := by
  generalize same : [] = name
  rintro (_ | _ | _)
  · cases same
  · exact single rfl

theorem spells_cons_iff {item : Item} (single : item ≠ .anyText) (items : List Item) (c : Char)
    (rest : List Char) :
    Spells (item :: items) (c :: rest) ↔ item.accepts c = true ∧ Spells items rest := by
  constructor
  · generalize same : c :: rest = name
    intro spells
    cases spells with
    | single accepted later =>
      cases same
      exact ⟨accepted, later⟩
    | anyText => exact absurd rfl single
  · rintro ⟨accepted, later⟩
    exact .single accepted later

/-- For each place of a name there is a flag that tells whether what follows it is accepted. -/
inductive Flagged (accepted : List Char → Prop) : List Char → List Bool → Prop where
  | last {flag : Bool} (tells : flag = true ↔ accepted []) : Flagged accepted [] [flag]
  | cons {c : Char} {rest : List Char} {flag : Bool} {flags : List Bool}
      (tells : flag = true ↔ accepted (c :: rest)) (later : Flagged accepted rest flags) :
      Flagged accepted (c :: rest) (flag :: flags)

section
variable {accepted : List Char → Prop} {item : Item} {items : List Item} {name : List Char}
  {flags : List Bool}

theorem Flagged.head_iff (flagged : Flagged accepted name flags) :
    flags.headD false = true ↔ accepted name := by
  cases flagged with
  | last tells => exact tells
  | cons tells => exact tells

private theorem flagged_nil (name : List Char) :
    Flagged (Spells []) name (name.map (fun _ => false) ++ [true]) := by
  induction name with
  | nil => exact .last (by simp [spells_nil_iff])
  | cons c rest ih => exact .cons (by simp [spells_nil_iff]) ih

private theorem Flagged.orLater (flagged : Flagged (Spells items) name flags) :
    Flagged (Spells (.anyText :: items)) name (Item.orLater flags) := by
  induction flagged with
  | last tells =>
    refine .last ?_
    simp [spells_anyText_iff, Item.orLater, tells]
  | @cons c rest flag flags tells _ ih =>
    refine .cons ?_ ih
    have skips : Spells (.anyText :: items) (c :: rest) ↔
        Spells items (c :: rest) ∨ Spells (.anyText :: items) rest := by
      simp [spells_anyText_iff, List.suffix_cons_iff, or_and_right, exists_or]
    rw [skips, ← ih.head_iff, ← tells, Bool.or_eq_true]

theorem Flagged.single (single : item ≠ .anyText) (flagged : Flagged (Spells items) name flags) :
    Flagged (Spells (item :: items)) name
      (List.zipWith (fun c matched => item.accepts c && matched) name flags.tail ++ [false]) := by
  induction flagged with
  | last tells =>
    exact .last (by simp [not_spells_nil single])
  | @cons c rest flag flags tells later ih =>
    obtain ⟨next, others, rfl⟩ : ∃ next others, flags = next :: others := by
      cases later <;> exact ⟨_, _, rfl⟩
    refine .cons ?_ ih
    rw [spells_cons_iff single, ← later.head_iff, Bool.and_eq_true]
    rfl

private theorem Flagged.places (item : Item) (flagged : Flagged (Spells items) name flags) :
    Flagged (Spells (item :: items)) name (item.places name flags) := by
  cases item with
  | anyText => exact flagged.orLater
  | _ => exact flagged.single nofun

end

/-- Matching answers whether the items stand for the name. -/
theorem matchItems_iff (items : List Item) (name : List Char) :
    matchItems items name = true ↔ Spells items name := by
  have whole : Flagged (Spells items) name
      (items.foldr (Item.places name) (name.map (fun _ => false) ++ [true])) := by
    induction items with
    | nil => exact flagged_nil name
    | cons item items ih => exact ih.places item
  exact whole.head_iff

end PolicyShell.Glob
