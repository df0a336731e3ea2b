/-! Names of variables and functions: an ASCII letter or underscore, then ASCII
letters, digits and underscores. -/
namespace PolicyShell.Name

def startsName (c : Char) : Bool := c.isAlpha || c == '_'

def continuesName (c : Char) : Bool := c.isAlphanum || c == '_'

/-- The longest name at the beginning of a text, and the text after it. -/
def scan? : List Char → Option (List Char × List Char)
  | [] => none
  | c :: rest =>
    if startsName c then some (c :: rest.takeWhile continuesName, rest.dropWhile continuesName)
    else none

def isValid : List Char → Bool
  | [] => false
  | c :: rest => startsName c && rest.all continuesName

theorem scan?_append {text name rest : List Char} (found : scan? text = some (name, rest)) :
    name ++ rest = text := by
  cases text with
  | nil => simp [scan?] at found
  | cons c tail =>
    simp only [scan?] at found
    split at found
    · obtain ⟨rfl, rfl⟩ := Prod.mk.inj (Option.some.inj found)
      simp [List.takeWhile_append_dropWhile]
    · cases found

theorem scan?_isValid {text name rest : List Char} (found : scan? text = some (name, rest)) :
    isValid name = true := by
  cases text with
  | nil => simp [scan?] at found
  | cons c tail =>
    simp only [scan?] at found
    split at found
    · rename_i starts
      obtain ⟨rfl, rfl⟩ := Prod.mk.inj (Option.some.inj found)
      simp [isValid, starts]
    · cases found

/-- The text before the first `stop` and the text after it. -/
def upTo? (stop : Char) (text : List Char) : Option (List Char × List Char) :=
  match text.dropWhile (· != stop) with
  | [] => none
  | _ :: rest => some (text.takeWhile (· != stop), rest)

theorem upTo?_append {stop : Char} {text before rest : List Char}
    (found : upTo? stop text = some (before, rest)) : before ++ stop :: rest = text := by
  unfold upTo? at found
  split at found
  · cases found
  · rename_i c after dropped
    obtain ⟨rfl, rfl⟩ := Prod.mk.inj (Option.some.inj found)
    have stops : c = stop := by
      have head := List.head?_dropWhile_not (· != stop) text
      simpa [dropped] using head
    rw [← stops, ← dropped, stops, List.takeWhile_append_dropWhile]

theorem length_lt_of_upTo? {stop : Char} {text before rest : List Char}
    (found : upTo? stop text = some (before, rest)) : rest.length < text.length := by
  rw [← upTo?_append found]
  simp only [List.length_append, List.length_cons]
  omega

/-- The name and the index of `name[index]`: the text before the first opening bracket, and
the text from there to a closing bracket at the end. -/
def element? (text : List Char) : Option (List Char × List Char) :=
  match upTo? '[' text with
  | none => none
  | some (name, inner) => if inner.getLast? = some ']' then some (name, inner.dropLast) else none

end PolicyShell.Name
