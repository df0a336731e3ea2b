import PolicyShell.Syntax.Scanned
import PolicyShell.Text.Name

/-! References to values: what may follow a dollar sign. -/
namespace PolicyShell.Reference

/-- Names of one character that stand for a state of the shell. -/
def isSpecial (c : Char) : Bool := c == '?' || c == '#' || c == '$' || c == '!'

/-- The reference between the braces of `${...}`. -/
def braced? (quoted : Bool) (content : List Char) : Option WordPart :=
  match content with
  | ['@'] => some (.arguments true quoted)
  | ['*'] => some (.arguments false quoted)
  | _ =>
    let scalar := some (.scalar (String.ofList content) quoted)
    if content.length = 1 && content.all isSpecial then scalar
    else if !content.isEmpty && content.all Char.isDigit then scalar
    else match Name.element? content with
      | some (name, index) =>
        if !Name.isValid name || index.isEmpty then none
        else if index = ['@'] then some (.array (String.ofList name) true quoted)
        else if index = ['*'] then some (.array (String.ofList name) false quoted)
        else scalar
      | none => if Name.isValid content then scalar else none

/-- Reads what follows a dollar sign. If that is no reference, nothing is read and the dollar
sign is text. -/
def scan (quoted : Bool) (text : List Char) : Scanned (Option WordPart) :=
  match text with
  | [] => ⟨.ok none, []⟩
  | '{' :: inner =>
    match Name.upTo? '}' inner with
    | none => .failed (.unterminated .braceExpansion (text.length + 1)) []
    | some (content, rest) =>
      match braced? quoted content with
      | some part => ⟨.ok (some part), rest⟩
      | none => .failed (.badSubstitution (String.ofList content)) rest
  | '(' :: _ => .failed (.unsupported .commandSubstitution (text.length + 1)) text
  | '@' :: rest => ⟨.ok (some (.arguments true quoted)), rest⟩
  | '*' :: rest => ⟨.ok (some (.arguments false quoted)), rest⟩
  | c :: rest =>
    if isSpecial c || c.isDigit then ⟨.ok (some (.scalar c.toString quoted)), rest⟩
    else match Name.scan? text with
      | some (name, rest) => ⟨.ok (some (.scalar (String.ofList name) quoted)), rest⟩
      | none => ⟨.ok none, text⟩

theorem rest_scan_suffix (quoted : Bool) (text : List Char) : (scan quoted text).rest <:+ text := by
  unfold scan
  split
  · exact List.suffix_refl _
  · rename_i inner
    split
    · exact List.nil_suffix
    · rename_i content rest found
      have whole := Name.upTo?_append found
      split <;> exact ⟨'{' :: content ++ ['}'], by simp [← whole]⟩
  · exact List.suffix_refl _
  · exact List.suffix_cons ..
  · exact List.suffix_cons ..
  · rename_i c rest _ _ _ _
    split
    · exact List.suffix_cons ..
    · split
      · rename_i name after found
        exact ⟨name, Name.scan?_append found⟩
      · exact List.suffix_refl _

theorem suffix_of_scan {quoted : Bool} {text rest : List Char}
    {result : Except ParseError (Option WordPart)} (read : scan quoted text = ⟨result, rest⟩) :
    rest <:+ text := by
  have suffix := rest_scan_suffix quoted text
  rwa [read] at suffix

end PolicyShell.Reference
