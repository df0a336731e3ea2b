import PolicyShell.Proofs.Syntax.Joined
import PolicyShell.Proofs.Syntax.Programs

/-! The program of two texts on lines of their own is the program of the first and then that of
the second. -/
namespace PolicyShell

/-- Behind so many characters of another text the same commands are read, and errors have their
places shifted. -/
theorem Parser.commands_shifted (dialect : Dialect) (length offset : Nat) (text : List Char)
    (inside : text.length ≤ length) :
    (reading dialect (length + offset) text).commands =
      (reading dialect length text).commands.mapError (·.mapPlace (· + offset)) := by
  rw [commands_reading, commands_reading]
  cases read : readNext dialect text with
  | error rejection =>
    have within := (sound_of_readNext read).within.mono inside
    have shifted := within.locate (Nat.le_add_right length offset)
    rw [Nat.add_sub_cancel_left] at shifted
    simp [Except.mapError, shifted]
  | ok result =>
    rcases result with ⟨_ | command, rest⟩
    · rfl
    · have shorter := length_lt_of_readNext read
      have goOn := commands_shifted dialect length offset rest (by omega)
      simp only [goOn]
      cases (reading dialect length rest).commands <;> rfl
termination_by text.length

/-- Joined texts are read one after the other. The whole of the first one can be read, so the only
errors are those of the second. -/
theorem Joins.commands {dialect : Dialect} {text after joined : List Char}
    (joins : Joins after text joined) (sealedText : Sealed text) (reads : ReadsAll dialect text)
    (length short : Nat) {commands : List Command}
    (first : (Parser.reading dialect short text).commands = .ok commands) :
    (Parser.reading dialect length joined).commands =
      (Parser.reading dialect length after).commands.map (commands ++ ·) := by
  induction reads generalizing joined commands with
  | done read =>
    rw [Parser.commands_reading, read] at first
    cases first
    rw [Parser.commands_reading, joins.readNext_none sealedText (.done read) read,
      ← Parser.commands_reading]
    cases (Parser.reading dialect length after).commands <;> rfl
  | @more text rest command read later ih =>
    rw [Parser.commands_reading, read] at first
    obtain ⟨others, left, rfl⟩ := Reading.exists_of_map_ok first
    obtain ⟨joined', read', joins'⟩ := joins.readNext_some sealedText (.more read later) read
    have sealedRest := sealedText.of_suffix (suffix_of_readNext read)
    rw [Parser.commands_reading, read']
    simp only [ih joins' sealedRest left]
    cases (Parser.reading dialect length after).commands <;> rfl

/-- A text that can be read to its end, and does not end in a backslash, may be followed by any
other one on the next line: what is read are its commands and then those of the other, or else the
error of the other at its place behind the first. -/
theorem parse_line {dialect : Dialect} {first : String} {commands : List Command}
    (parsed : parse dialect first = .ok commands)
    (noBackslash : first.toList.getLast? ≠ some '\\') (second : String) :
    parse dialect (first ++ "\n" ++ second) =
      match parse dialect second with
      | .ok others => .ok (commands ++ others)
      | .error error => .error (error.mapPlace (· + (first.length + 1))) := by
  have text : (first ++ "\n" ++ second).toList = first.toList ++ '\n' :: second.toList := by simp
  have length : (first ++ "\n" ++ second).length = second.length + (first.length + 1) := by
    have newline : "\n".length = 1 := rfl
    rw [String.length_append, String.length_append]
    omega
  have reads : ReadsAll dialect first.toList := readsAll_of_parse (by rw [parsed]; rfl)
  have joins : Joins second.toList first.toList (first ++ "\n" ++ second).toList := .inl text
  have inside : second.toList.length ≤ second.length := Nat.le_of_eq String.length_toList
  have whole := joins.commands (sealed_of_getLast? noBackslash) reads
    (second.length + (first.length + 1)) first.length parsed
  have same : parse dialect (first ++ "\n" ++ second) =
      ((parse dialect second).mapError (·.mapPlace (· + (first.length + 1)))).map
        (commands ++ ·) := by
    have shifted := Parser.commands_shifted dialect second.length (first.length + 1) second.toList
      inside
    rw [parse, Parser.ofText, length]
    exact whole.trans (congrArg (Except.map (commands ++ ·)) shifted)
  rw [same]
  cases parse dialect second <;> rfl

/-- A quote in a comment does not reach into the next line, where another one stays open. -/
theorem parse_line_unterminated :
    let first := "f() { argv @a; } # '"
    let body : Command := .group [.simple [] [.literal "argv", ⟨[.array "a" true true]⟩]]
    parse .splicing first = .ok [.definition "f" body] ∧
      first.toList.getLast? ≠ some '\\' ∧
      parse .splicing (first ++ "\n" ++ "b && 'c") = .error (.unterminated .singleQuote 26) := by
  intro first body
  have parsed : parse .splicing first = .ok [.definition "f" body] := by decide +kernel
  have noBackslash : first.toList.getLast? ≠ some '\\' := by decide +kernel
  have failed : parse .splicing "b && 'c" = .error (.unterminated .singleQuote 5) := by
    decide +kernel
  refine ⟨parsed, noBackslash, ?_⟩
  rw [parse_line parsed noBackslash, failed]
  decide +kernel

end PolicyShell
