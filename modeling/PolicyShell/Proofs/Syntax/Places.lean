import PolicyShell.Proofs.Syntax.Rejection

/-! Errors are placed inside the text that was being read. -/
namespace PolicyShell

namespace ParseError

/-- An error with at most so many characters unread at it. -/
def Within (bound : Nat) : ParseError → Prop
  | unterminated _ place | unexpected _ place | unsupported _ place => place ≤ bound
  | badSubstitution _ => True

theorem Within.mono {small large : Nat} {error : ParseError} (within : error.Within small)
    (below : small ≤ large) : error.Within large := by
  cases error with
  | badSubstitution => trivial
  | _ => exact Nat.le_trans within below

/-- In a longer text with the same end, an error has a place shifted by what comes before. -/
theorem Within.locate {small large : Nat} {error : ParseError} (within : error.Within small)
    (below : small ≤ large) :
    error.locate large = (error.locate small).mapPlace (· + (large - small)) := by
  cases error with
  | badSubstitution => rfl
  | unterminated what place =>
    have inside : place ≤ small := within
    have shifted : large - place = small - place + (large - small) := by omega
    simp [ParseError.locate, mapPlace, shifted]
  | unexpected found place =>
    have inside : place ≤ small := within
    have shifted : large - place = small - place + (large - small) := by omega
    simp [ParseError.locate, mapPlace, shifted]
  | unsupported operator place =>
    have inside : place ≤ small := within
    have shifted : large - place = small - place + (large - small) := by omega
    simp [ParseError.locate, mapPlace, shifted]

end ParseError

namespace Scanned

variable {α β : Type}

/-- A failure has at most so many characters unread at it. -/
structure Within (bound : Nat) (scanned : Scanned α) : Prop where
  place : ∀ error, scanned.result = .error error → error.Within bound

theorem Within.ok {bound : Nat} (value : α) (rest : List Char) :
    Within bound ⟨.ok value, rest⟩ := ⟨nofun⟩

theorem Within.failed {bound : Nat} {error : ParseError} (within : error.Within bound)
    (rest : List Char) : (Scanned.failed error rest : Scanned α).Within bound := by
  constructor
  intro found same
  cases same
  exact within

theorem Within.map {bound : Nat} {scanned : Scanned α} (within : scanned.Within bound)
    (change : α → β) : (scanned.map change).Within bound := by
  rcases scanned with ⟨error | value, rest⟩
  · exact .failed (within.place error rfl) rest
  · exact .ok (change value) rest

theorem Within.mono {small large : Nat} {scanned : Scanned α} (within : scanned.Within small)
    (below : small ≤ large) : scanned.Within large :=
  ⟨fun error failed => (within.place error failed).mono below⟩

theorem Within.of_eq {bound : Nat} {scanned : Scanned α} {error : ParseError} {rest : List Char}
    (within : scanned.Within bound) (read : scanned = ⟨.error error, rest⟩) :
    (Scanned.failed error rest : Scanned β).Within bound :=
  .failed (within.place error (by rw [read])) rest

end Scanned

theorem Reference.within_scan (quoted : Bool) (text : List Char) :
    (scan quoted text).Within (text.length + 1) := by
  fun_cases scan quoted text with
  | case2 => exact .failed (Nat.le_refl _) _
  | case4 inner content rest _ _ => 
    exact .failed (show (ParseError.badSubstitution _).Within _ from trivial) rest
  | case5 => exact .failed (Nat.le_refl _) _
  | case9 c rest _ _ _ _ _ name after found =>
    rw [found]
    exact .ok ..
  | case10 c rest _ _ _ _ _ found =>
    rw [found]
    exact .ok ..
  | _ => exact .ok ..

namespace Piece

theorem within_scanDoubleQuoted {opening text : List Char} (inside : text.length ≤ opening.length) :
    (scanDoubleQuoted opening text).Within opening.length := by
  fun_induction scanDoubleQuoted opening text with
  | case1 => exact .failed (Nat.le_refl _) _
  | case2 => exact .ok ..
  | case3 rest =>
    have within : (ParseError.unsupported .backquote ('`' :: rest).length).Within opening.length :=
      inside
    exact .failed within _
  | case4 rest ih => exact ih (by simp only [List.length_cons] at inside; omega)
  | case5 c rest _ _ ih => exact (ih (by simp only [List.length_cons] at inside; omega)).map _
  | case6 c rest _ _ ih => exact (ih (by simp only [List.length_cons] at *; omega)).map _
  | case7 inner error rest read => exact ((Reference.within_scan true inner).of_eq read).mono inside
  | case8 inner rest read shorter ih =>
    exact (ih (by simp only [List.length_cons] at inside; omega)).map _
  | case9 inner part rest read shorter ih =>
    exact (ih (by simp only [List.length_cons] at inside; omega)).map _
  | case10 c rest _ _ _ _ _ ih =>
    exact (ih (by simp only [List.length_cons] at inside; omega)).map _

theorem within_scan (text : List Char) : (scan text).Within text.length := by
  fun_induction scan text with
  | case1 => exact .ok ..
  | case2 => exact .ok ..
  | case3 rest ih => exact ih.mono (by simp only [List.length_cons]; omega)
  | case4 c rest _ ih => exact (ih.map _).mono (by simp only [List.length_cons]; omega)
  | case5 => exact .failed (Nat.le_refl _) _
  | case6 inner content rest read shorter ih =>
    exact (ih.map _).mono (by simp only [List.length_cons]; omega)
  | case7 inner error rest read =>
    have inside : inner.length ≤ ('"' :: inner).length := Nat.le_succ _
    exact (within_scanDoubleQuoted inside).of_eq read
  | case8 inner pieces rest read shorter ih =>
    exact (ih.map _).mono (by simp only [List.length_cons]; omega)
  | case9 inner error rest read => exact (Reference.within_scan false inner).of_eq read
  | case10 inner rest read shorter ih =>
    exact (ih.map _).mono (by simp only [List.length_cons]; omega)
  | case11 inner part rest read shorter ih =>
    exact (ih.map _).mono (by simp only [List.length_cons]; omega)
  | case12 => exact .failed (Nat.le_refl _) _
  | case13 => exact .ok ..
  | case14 c rest _ _ _ _ _ _ _ _ ih => exact (ih.map _).mono (Nat.le_succ _)

end Piece

namespace Word

theorem within_scan (dialect : Dialect) (text : List Char) :
    (scan dialect text).Within text.length := by
  unfold scan
  split
  · exact .ok ..
  · split
    · rename_i read
      exact (Piece.within_scan text).of_eq read
    · exact .failed (Nat.le_refl _) _
    · exact .ok ..

private theorem within_scanElements {dialect : Dialect} {opening text : List Char}
    (inside : text.length ≤ opening.length) :
    (scanElements dialect opening text).Within opening.length := by
  fun_induction scanElements dialect opening text with
  | case1 => exact .failed (Nat.le_refl _) _
  | case2 => exact .ok ..
  | case3 c inner _ _ ih => exact ih (by simp only [List.length_cons] at inside; omega)
  | case4 c inner _ _ error rest read =>
    exact ((within_scan dialect (c :: inner)).of_eq read).mono inside
  | case5 c inner _ _ word rest read shorter ih => exact (ih (by omega)).map _

end Word

namespace Token

private theorem within_scanWord (dialect : Dialect) (text : List Char) :
    (scanWord dialect text).Within text.length := by
  have words (text : List Char) : (scanWord.words dialect text).Within text.length :=
    (Word.within_scan dialect text).map _
  unfold scanWord
  split
  · rename_i name rest found
    have shorter := (suffix_of_assignedName? found).2
    exact (Word.within_scanElements (by simp only [List.length_cons] at shorter; omega)).map _
  · rename_i name rest _ found
    have shorter := (suffix_of_assignedName? found).2
    exact ((Piece.within_scan rest).map _).mono (Nat.le_of_lt shorter)
  · split
    · split
      · exact .ok ..
      · exact words _
    · split
      · exact .ok ..
      · exact words _
    · exact words _

private theorem within_scan (dialect : Dialect) (text : List Char) :
    (scan dialect text).Within text.length := by
  refine Scanned.Within.mono ?_ (skipBlanks_suffix text).length_le
  unfold scan
  fun_cases scanHere dialect (skipBlanks text)
  all_goals first
    | exact .ok ..
    | exact .failed (Nat.le_refl _) _
    | exact (within_scanWord ..).map _

end Token

/-- Every place where tokens were looked for is at the end of the text. -/
theorem suffix_of_starts {dialect : Dialect} {text place : List Char}
    (member : place ∈ starts (readTokens dialect text).1 (readTokens dialect text).2) :
    place <:+ text := by
  fun_induction readTokens dialect text with
  | case1 => simp_all [starts, Ending.start]
  | case2 => simp_all [starts, Ending.start]
  | case3 text token rest read _ tokens ending same ih =>
    simp only [same] at ih
    have suffix := Token.rest_scan_suffix dialect text
    rw [read] at suffix
    rcases List.mem_cons.mp member with rfl | later
    · exact List.suffix_refl _
    · exact (ih later).trans suffix

/-- A rejection that stays inside the text. -/
structure Rejection.Sound (text : List Char) (rejection : Rejection) : Prop where
  suffix : rejection.rest <:+ text
  within : rejection.error.Within text.length

theorem sound_of_broken {dialect : Dialect} {text start rest : List Char} {error : ParseError}
    (ends : (readTokens dialect text).2 = .broken error start rest) :
    Rejection.Sound text ⟨error, rest⟩ := by
  fun_induction readTokens dialect text with
  | case1 whole found after read =>
    have suffix := Token.rest_scan_suffix dialect whole
    have within := (Token.within_scan dialect whole).place found (by rw [read])
    rw [read] at suffix
    cases ends
    exact ⟨suffix, within⟩
  | case2 => cases ends
  | case3 text token rest read shorter tokens ending same ih =>
    simp only [same] at ih
    have suffix := Token.rest_scan_suffix dialect text
    rw [read] at suffix
    have sound := ih ends
    exact ⟨sound.suffix.trans suffix, sound.within.mono (Nat.le_of_lt shorter)⟩

theorem Grammar.suffix_of_resumption {dialect : Dialect} {text : List Char}
    {tokens : List PlacedToken} (suffix : tokens <:+ (readTokens dialect text).1) :
    resumption (readTokens dialect text).2 tokens <:+ text := by
  apply suffix_of_starts
  cases tokens with
  | nil => exact List.mem_append_right _ (List.mem_singleton_self _)
  | cons first others =>
    have member := suffix.subset (List.mem_cons_self ..)
    exact List.mem_append_left _ (List.mem_map_of_mem member)

theorem Grammar.Refused.sound {dialect : Dialect} {text : List Char} {rejection : Rejection}
    (refused : Refused (readTokens dialect text).2 .initial (readTokens dialect text).1 rejection) :
    rejection.Sound text := by
  have place {token : PlacedToken} (member : token ∈ (readTokens dialect text).1) :
      token.start <:+ text := suffix_of_starts (List.mem_append_left _ (List.mem_map_of_mem member))
  cases refused with
  | outOfPlace whole =>
    have start := place (whole ▸ List.mem_append_cons_self)
    exact ⟨start, start.length_le⟩
  | @arrayArgument _ _ _ before _ _ whole =>
    have suffix := whole ▸ List.suffix_append before _
    exact ⟨suffix_of_resumption (suffix_of_cons suffix),
      (place (suffix.subset (List.mem_cons_self ..))).length_le⟩
  | broken ends => exact sound_of_broken ends
  | endOfInput => exact ⟨List.nil_suffix, Nat.zero_le _⟩
  | unclosed _ reaches =>
    rcases Progress.brace_of_after? reaches (List.mem_cons_self ..) with outside | brace
    · cases outside
    · exact ⟨List.nil_suffix, (place brace).length_le⟩

end PolicyShell
