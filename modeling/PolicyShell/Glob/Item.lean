import PolicyShell.Glob.Bracket

/-! What a pattern for a name is made of. -/
namespace PolicyShell.Glob

/-- What the translation of a pattern emits for the regex library: an escaped character, a dot, a
dot with a star, or a class. -/
inductive Item where
  | char (c : Char)
  | anyChar
  | anyText
  | oneOf (bracket : Bracket)
  deriving DecidableEq, Repr

namespace Item

/-- Whether a single character is what the item stands for. A dot stands for a newline, too. -/
def accepts : Item → Char → Bool
  | char wanted, c => c == wanted
  | anyChar, _ => true
  | anyText, _ => false
  | oneOf bracket, c => bracket.contains c

/-- Translates a pattern, unless a range in it descends, which the regex library refuses. A bracket
that is not closed is itself. -/
def read? (text : List Char) : Option (List Item) :=
  match text with
  | [] => some []
  | '\\' :: c :: rest => (read? rest).map (char c :: ·)
  | '*' :: rest => (read? rest).map (anyText :: ·)
  | '?' :: rest => (read? rest).map (anyChar :: ·)
  | '[' :: rest =>
    match found : Bracket.body? rest with
    | none => (read? rest).map (char '[' :: ·)
    | some (negated, body, after) =>
      have := Bracket.length_lt_of_body? found
      match Bracket.ofBody? negated body, read? after with
      | some bracket, some items => some (oneOf bracket :: items)
      | _, _ => none
  | c :: rest => (read? rest).map (char c :: ·)
termination_by text.length
decreasing_by all_goals simp only [List.length_cons]; omega

@[simp] theorem read?_nil : read? [] = some [] := by rw [read?]

/-- Where one of the flags from a place on is set. -/
def orLater : List Bool → List Bool
  | [] => []
  | flag :: rest =>
    let later := orLater rest
    (flag || later.headD false) :: later

/-- The places of a name from which an item and all later ones match, out of those from which
the later ones do. There is a place before each character and one at the end. -/
def places (name : List Char) (item : Item) (later : List Bool) : List Bool :=
  match item with
  | anyText => orLater later
  | single => List.zipWith (fun c matched => single.accepts c && matched) name later.tail ++ [false]

end Item

/-- Whether the items together stand for the whole name. -/
def matchItems (items : List Item) (name : List Char) : Bool :=
  (items.foldr (Item.places name) (name.map (fun _ => false) ++ [true])).headD false

end PolicyShell.Glob
