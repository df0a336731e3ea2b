import PolicyShell.Glob.Escape
import PolicyShell.Syntax.Reference

/-! Pieces of a word, which tell quoted from unquoted text, and the parts they make up. -/
namespace PolicyShell

inductive Piece where
  | plain (text : List Char)
  | quoted (text : List Char)
  | reference (part : WordPart)
  deriving DecidableEq, Repr

namespace Piece

/-- Neighbouring pieces of one kind of text become one. -/
def gather : List Piece → List Piece
  | [] => []
  | piece :: rest =>
    match piece, gather rest with
    | plain text, plain next :: gathered => plain (text ++ next) :: gathered
    | quoted text, quoted next :: gathered => quoted (text ++ next) :: gathered
    | piece, gathered => piece :: gathered

/-- Unquoted text is a glob as soon as it has one of the characters of glob syntax. -/
def toPart : Piece → WordPart
  | plain text =>
    if text.any Glob.isMeta then .glob (String.ofList text) else .literal (String.ofList text)
  | quoted text => .literal (String.ofList text)
  | reference part => part

def parts (pieces : List Piece) : List WordPart :=
  WordPart.mergeLiterals ((gather pieces).map toPart)

/-- The characters that end a word where they are not quoted. -/
def endsWord (c : Char) : Bool :=
  c == ' ' || c == '\t' || c == '\n' || c == ';' || c == '&' || c == '|' || c == '(' || c == ')' ||
    c == '<' || c == '>'

/-- The characters that a backslash quotes between double quotes. -/
def isEscapable (c : Char) : Bool := c == '$' || c == '"' || c == '\\' || c == '`'

/-- Reads the inside of double quotes and the closing one. `opening` is the text from the
opening one on. -/
def scanDoubleQuoted (opening text : List Char) : Scanned (List Piece) :=
  match text with
  | [] => .failed (.unterminated .doubleQuote opening.length) []
  | '"' :: rest => ⟨.ok [], rest⟩
  | '`' :: _ => .failed (.unsupported .backquote text.length) text
  | '\\' :: '\n' :: rest => scanDoubleQuoted opening rest
  | '\\' :: c :: rest =>
    if isEscapable c then (scanDoubleQuoted opening rest).map (quoted [c] :: ·)
    else (scanDoubleQuoted opening (c :: rest)).map (quoted ['\\'] :: ·)
  | '$' :: inner =>
    match read : Reference.scan true inner with
    | ⟨.error error, rest⟩ => .failed error rest
    | ⟨.ok none, rest⟩ =>
      have := (Reference.suffix_of_scan read).length_le
      (scanDoubleQuoted opening rest).map (quoted ['$'] :: ·)
    | ⟨.ok (some part), rest⟩ =>
      have := (Reference.suffix_of_scan read).length_le
      (scanDoubleQuoted opening rest).map (reference part :: ·)
  | c :: rest => (scanDoubleQuoted opening rest).map (quoted [c] :: ·)
termination_by text.length
decreasing_by all_goals simp only [List.length_cons]; omega

private theorem rest_scanDoubleQuoted_suffix (opening text : List Char) :
    (scanDoubleQuoted opening text).rest <:+ text := by
  fun_induction scanDoubleQuoted opening text with
  | case1 => exact List.nil_suffix
  | case2 rest => exact List.suffix_cons ..
  | case3 => exact List.suffix_refl _
  | case4 rest ih => exact ih.trans ⟨['\\', '\n'], rfl⟩
  | case5 c rest _ _ ih => exact ih.trans ⟨['\\', c], rfl⟩
  | case6 c rest _ _ ih => exact ih.trans ⟨['\\'], rfl⟩
  | case7 inner error rest read =>
    exact (Reference.suffix_of_scan read).trans (List.suffix_cons ..)
  | case8 inner rest read _ ih =>
    exact ih.trans ((Reference.suffix_of_scan read).trans (List.suffix_cons ..))
  | case9 inner part rest read _ ih =>
    exact ih.trans ((Reference.suffix_of_scan read).trans (List.suffix_cons ..))
  | case10 c rest _ _ _ _ _ ih => exact ih.trans (List.suffix_cons ..)

theorem suffix_of_scanDoubleQuoted {opening text rest : List Char}
    {result : Except ParseError (List Piece)}
    (read : scanDoubleQuoted opening text = ⟨result, rest⟩) : rest <:+ text := by
  have suffix := rest_scanDoubleQuoted_suffix opening text
  rwa [read] at suffix

/-- Quotes with nothing between them still make a piece. -/
def orEmpty : List Piece → List Piece
  | [] => [quoted []]
  | pieces => pieces

/-- Reads the pieces of a word up to the character that ends it. -/
def scan (text : List Char) : Scanned (List Piece) :=
  match text with
  | [] => ⟨.ok [], []⟩
  | ['\\'] => ⟨.ok [plain ['\\']], []⟩
  | '\\' :: '\n' :: rest => scan rest
  | '\\' :: c :: rest => (scan rest).map (quoted [c] :: ·)
  | '\'' :: inner =>
    match read : Name.upTo? '\'' inner with
    | none => .failed (.unterminated .singleQuote text.length) []
    | some (content, rest) =>
      have := Name.length_lt_of_upTo? read
      (scan rest).map (quoted content :: ·)
  | '"' :: inner =>
    match read : scanDoubleQuoted ('"' :: inner) inner with
    | ⟨.error error, rest⟩ => .failed error rest
    | ⟨.ok pieces, rest⟩ =>
      have := (suffix_of_scanDoubleQuoted read).length_le
      (scan rest).map (orEmpty pieces ++ ·)
  | '$' :: inner =>
    match read : Reference.scan false inner with
    | ⟨.error error, rest⟩ => .failed error rest
    | ⟨.ok none, rest⟩ =>
      have := (Reference.suffix_of_scan read).length_le
      (scan rest).map (plain ['$'] :: ·)
    | ⟨.ok (some part), rest⟩ =>
      have := (Reference.suffix_of_scan read).length_le
      (scan rest).map (reference part :: ·)
  | '`' :: _ => .failed (.unsupported .backquote text.length) text
  | c :: rest => if endsWord c then ⟨.ok [], text⟩ else (scan rest).map (plain [c] :: ·)
termination_by text.length
decreasing_by all_goals simp only [List.length_cons]; omega

theorem rest_scan_suffix (text : List Char) : (scan text).rest <:+ text := by
  fun_induction scan text with
  | case1 => exact List.suffix_refl _
  | case2 => exact List.nil_suffix
  | case3 rest ih => exact ih.trans ⟨['\\', '\n'], rfl⟩
  | case4 c rest _ ih => exact ih.trans ⟨['\\', c], rfl⟩
  | case5 => exact List.nil_suffix
  | case6 inner content rest read _ ih =>
    exact ih.trans ⟨'\'' :: content ++ ['\''], by simp [← Name.upTo?_append read]⟩
  | case7 inner error rest read =>
    exact (suffix_of_scanDoubleQuoted read).trans (List.suffix_cons ..)
  | case8 inner pieces rest read _ ih =>
    exact ih.trans ((suffix_of_scanDoubleQuoted read).trans (List.suffix_cons ..))
  | case9 inner error rest read =>
    exact (Reference.suffix_of_scan read).trans (List.suffix_cons ..)
  | case10 inner rest read _ ih =>
    exact ih.trans ((Reference.suffix_of_scan read).trans (List.suffix_cons ..))
  | case11 inner part rest read _ ih =>
    exact ih.trans ((Reference.suffix_of_scan read).trans (List.suffix_cons ..))
  | case12 => exact List.suffix_refl _
  | case13 => exact List.suffix_refl _
  | case14 c rest _ _ _ _ _ _ _ _ ih => exact ih.trans (List.suffix_cons ..)

theorem suffix_of_scan {text rest : List Char} {result : Except ParseError (List Piece)}
    (read : scan text = ⟨result, rest⟩) : rest <:+ text := by
  have suffix := rest_scan_suffix text
  rwa [read] at suffix

/-- A piece is made from text that was read. -/
theorem length_rest_lt_of_scan {text rest : List Char} {pieces : List Piece}
    (read : scan text = ⟨.ok pieces, rest⟩) (present : pieces ≠ []) :
    rest.length < text.length := by
  have shorter {first : Char} {after tail : List Char} (suffix : after <:+ tail) :
      after.length < (first :: tail).length := Nat.lt_succ_of_le suffix.length_le
  have ends : (scan text).rest = rest := by rw [read]
  rw [← ends]
  revert read
  fun_cases scan text with
  | case1 => intro same; cases same; exact absurd rfl present
  | case2 => intro; simp
  | case3 inner => intro; exact shorter ((rest_scan_suffix inner).trans (List.suffix_cons ..))
  | case4 c inner => intro; exact shorter ((rest_scan_suffix inner).trans (List.suffix_cons ..))
  | case5 => intro same; cases same
  | case6 inner content after found _ =>
    intro
    exact shorter ((rest_scan_suffix after).trans ⟨content ++ ['\''], by simp [← Name.upTo?_append found]⟩)
  | case7 => intro same; cases same
  | case8 inner _ after found _ =>
    intro; exact shorter ((rest_scan_suffix after).trans (suffix_of_scanDoubleQuoted found))
  | case9 => intro same; cases same
  | case10 inner after found _ =>
    intro; exact shorter ((rest_scan_suffix after).trans (Reference.suffix_of_scan found))
  | case11 inner _ after found _ =>
    intro; exact shorter ((rest_scan_suffix after).trans (Reference.suffix_of_scan found))
  | case12 => intro same; cases same
  | case13 => intro same; cases same; exact absurd rfl present
  | case14 c inner => intro; exact shorter (rest_scan_suffix inner)

@[simp] theorem parts_nil : parts [] = [] := rfl

end Piece

end PolicyShell
