import PolicyShell.Proofs.Expansion.Quoting
import PolicyShell.Proofs.Glob.Escaping

/-! The pattern of a field and the text to fall back on are put together side by side. They stay in
step: without the backslashes that quote a character the pattern is the text, whatever pieces of
glob text, of values and of quoted text lie in the field. -/
namespace PolicyShell

open Glob

namespace Atom

/-- Whether an atom is glob text of the program. -/
def isGlob : Atom → Bool
  | glob _ => true
  | inert _ | active _ => false

/-- What an atom adds to a pattern stands for the text of the atom. -/
def Steady (atom : Atom) : Prop := Writes atom.pattern.toList atom.text.toList atom.isPattern

theorem steady_of_not_isGlob {atom : Atom} (noGlob : atom.isGlob = false) : atom.Steady := by
  cases atom with
  | inert text => simpa [Steady, pattern, Atom.text, isPattern] using Writes.escaped text.toList
  | active text => simpa [Steady, pattern, Atom.text, isPattern] using Writes.doubled text.toList
  | glob text => cases noGlob

private theorem steady_glob {text : List Char} (bare : '\\' ∉ text)
    (syntactic : text.any isMeta = true) : (glob (String.ofList text)).Steady := by
  have written := Writes.unquoted bare
  rw [syntactic] at written
  simpa [Steady, pattern, Atom.text, isPattern] using written

/-- Atoms of a word in their order. Only the last one may hold a backslash that quotes nothing. -/
inductive InStep : List Atom → Prop where
  | nil : InStep []
  | last {text : List Char} (bare : '\\' ∉ text) (syntactic : text.any isMeta = true) :
      InStep [glob (String.ofList (text ++ ['\\']))]
  | cons {atom : Atom} {rest : List Atom} (steady : atom.Steady) (later : InStep rest) :
      InStep (atom :: rest)

namespace InStep

variable {atoms rest : List Atom}

theorem append (steady : ∀ atom ∈ atoms, atom.Steady) (later : InStep rest) :
    InStep (atoms ++ rest) := by
  induction atoms with
  | nil => exact later
  | cons first atoms ih =>
    obtain ⟨head, tail⟩ := List.forall_mem_cons.mp steady
    exact .cons head (ih tail)

private theorem of_append_right (inStep : InStep (atoms ++ rest)) : InStep rest := by
  induction atoms with
  | nil => exact inStep
  | cons first atoms ih =>
    generalize same : first :: atoms ++ rest = whole at inStep
    cases inStep with
    | nil => cases same
    | last =>
      obtain ⟨-, none⟩ := List.cons.inj same
      obtain ⟨-, rfl⟩ := List.append_eq_nil_iff.mp none
      exact .nil
    | cons steady later =>
      obtain ⟨-, rfl⟩ := List.cons.inj same
      exact ih later

private theorem of_append_left (inStep : InStep (atoms ++ rest)) : InStep atoms := by
  induction atoms with
  | nil => exact .nil
  | cons first atoms ih =>
    generalize same : first :: atoms ++ rest = whole at inStep
    cases inStep with
    | nil => cases same
    | last bare syntactic =>
      obtain ⟨rfl, none⟩ := List.cons.inj same
      obtain ⟨rfl, -⟩ := List.append_eq_nil_iff.mp none
      exact .last bare syntactic
    | cons steady later =>
      obtain ⟨rfl, rfl⟩ := List.cons.inj same
      exact .cons steady (ih later)

private theorem of_infix {group : List Atom} (inStep : InStep atoms) (among : group <:+: atoms) :
    InStep group := by
  obtain ⟨before, after, rfl⟩ := among
  exact inStep.of_append_left.of_append_right

private theorem unescape_pattern (inStep : InStep atoms) :
    unescape (atoms.flatMap (·.pattern.toList)) = atoms.flatMap (·.text.toList) := by
  induction inStep with
  | nil => rfl
  | @last text bare syntactic =>
    have last : unescape ['\\'] = ['\\'] := rfl
    simpa [pattern, Atom.text, last] using (Writes.unquoted bare).unescape ['\\']
  | cons steady later ih => rw [List.flatMap_cons, steady.unescape, ih, List.flatMap_cons]

private theorem hasMeta_pattern (inStep : InStep atoms) :
    hasMeta (atoms.flatMap (·.pattern.toList)) = atoms.any isPattern := by
  induction inStep with
  | nil => rfl
  | @last text bare syntactic =>
    simpa [pattern, isPattern, syntactic] using (Writes.unquoted bare).hasMeta ['\\']
  | cons steady later ih => rw [List.flatMap_cons, steady.hasMeta, ih, List.any_cons]

end InStep

end Atom

namespace Mark

variable {policy : Policy}

private theorem noGlob_of_ofSplit (separators value : String) :
    ∀ atom ∈ atoms (ofSplit separators value), atom.isGlob = false := by
  intro atom member
  rw [ofSplit, atoms_intercalate_gap] at member
  obtain ⟨run, -, present⟩ := List.mem_flatMap.mp member
  by_cases empty : run.isEmpty = true
  · simp [ofRun, empty] at present
  · obtain rfl : atom = .active (String.ofList run) := by simpa [ofRun, empty] using present
    rfl

private theorem noGlob_of_ofValue (quoted : Bool) (separators value : String) :
    ∀ atom ∈ atoms (ofValue policy quoted separators value), atom.isGlob = false := by
  unfold ofValue
  split
  · intro atom member
    rw [List.mem_singleton.mp member]
    rfl
  · exact noGlob_of_ofSplit separators value

theorem noGlob_of_ofPart (bindings : Bindings) {part : WordPart} (noGlob : part.isGlob = false) :
    ∀ atom ∈ atoms (ofPart policy bindings part), atom.isGlob = false := by
  intro atom member
  obtain ⟨value, present⟩ := exists_value_of_mem_ofPart noGlob member
  exact noGlob_of_ofValue part.isQuoted bindings.separators value atom present

/-- Whatever values a word has, they bring no glob text of the program into it. -/
theorem inStep_of_parts (policy : Policy) (bindings : Bindings) {parts : List WordPart}
    (unescaped : WordPart.Unescaped parts) :
    Atom.InStep (atoms (parts.flatMap (ofPart policy bindings))) := by
  induction unescaped with
  | nil => exact .nil
  | last bare syntactic => exact .last bare syntactic
  | glob bare syntactic _ ih => exact .cons (Atom.steady_glob bare syntactic) ih
  | inert noGlob _ ih =>
    rw [List.flatMap_cons, atoms_append]
    apply Atom.InStep.append
    · intro atom member
      exact Atom.steady_of_not_isGlob (noGlob_of_ofPart bindings noGlob atom member)
    · exact ih

private theorem fieldOf_in_step {atoms : List Atom} (inStep : Atom.InStep atoms)
    {pattern literal : String} (made : fieldOf atoms = .pending pattern literal) :
    unescape pattern.toList = literal.toList ∧ hasMeta pattern.toList = true := by
  unfold fieldOf at made
  split at made
  · rename_i isPattern
    obtain ⟨rfl, rfl⟩ := Field.pending.inj made
    rw [String.toList_join, String.toList_join, List.flatMap_map, List.flatMap_map]
    exact ⟨inStep.unescape_pattern, inStep.hasMeta_pattern.trans isPattern⟩
  · cases made

end Mark

namespace Word

variable {policy : Policy} {bindings : Bindings} {word : Word} {fields : List Field}

/-- In every word of a program, also in one that is read from an assignment, a pattern without its
backslashes is the text to fall back on, and it has glob syntax, whatever the values are. -/
theorem pending_in_step {dialect : Dialect} {text : List Char} {token : Token}
    {pattern literal : String} (lexed : (Token.scan dialect text).result = .ok (some token))
    (member : word ∈ token.words) (evaluated : word.fields policy bindings = .ok fields)
    (produced : .pending pattern literal ∈ fields) :
    unescape pattern.toList = literal.toList ∧ hasMeta pattern.toList = true := by
  have unescaped := Token.scan_yields dialect text _ lexed token rfl word member
  rw [eq_marks_of_fields evaluated] at produced
  obtain ⟨atoms, group, made⟩ := List.mem_map.mp produced
  have whole := Mark.inStep_of_parts policy bindings unescaped
  exact Mark.fieldOf_in_step (whole.of_infix (Mark.infix_of_mem_groups group)) made

/-- An assignment read as an argument, with a value that is split and a backslash at its end. -/
theorem pending_in_step_argument :
    let bindings : Bindings := ⟨fun _ => some "\\? c", fun _ => none, [], " "⟩
    let assigned : Word := ⟨[.literal "*", .scalar "x" false, .glob "[b\\"]⟩
    let word : Word := ⟨[.literal "n=*", .scalar "x" false, .glob "[b\\"]⟩
    let token : Token := .assignment ⟨"n", .scalar assigned⟩
    (Token.scan {} "n='*'$x[b\\".toList).result = .ok (some token) ∧ word ∈ token.words ∧
      word.fields {} bindings =
        .ok [.pending "n=\\*\\\\?" "n=*\\?", .pending "c[b\\" "c[b\\"] ∧
      (unescape "n=\\*\\\\?".toList = "n=*\\?".toList ∧ hasMeta "n=\\*\\\\?".toList = true) ∧
      unescape "c[b\\".toList = "c[b\\".toList ∧ hasMeta "c[b\\".toList = true := by
  intro bindings assigned word token
  have lexed : (Token.scan {} "n='*'$x[b\\".toList).result = .ok (some token) :=
    eq_ok_of_toOption (by decide +kernel)
  have member : word ∈ token.words := by decide +kernel
  have evaluated : word.fields {} bindings =
      .ok [.pending "n=\\*\\\\?" "n=*\\?", .pending "c[b\\" "c[b\\"] :=
    eq_ok_of_toOption (by decide +kernel)
  exact ⟨lexed, member, evaluated, pending_in_step lexed member evaluated (by simp),
    pending_in_step lexed member evaluated (by simp)⟩

end Word

end PolicyShell
