import Mathlib.Algebra.BigOperators.Group.List.Basic
import Mathlib.Algebra.Order.Ring.Nat
import PolicyShell.Glob.Limits

/-! How much memory a bracket expression takes, by the number of its ranges, and that one with few
of them is within the limits. -/
namespace PolicyShell

namespace Utf8

/-- At most `count` products, of `digits` digits each. -/
structure Fits (count digits : Nat) (products : List (List Span)) : Prop where
  few : products.length ≤ count
  alike : ∀ product ∈ products, product.length = digits

section
variable {count others digits : Nat} {first second : List (List Span)}

theorem Fits.nil : Fits count digits [] := ⟨Nat.zero_le _, nofun⟩

private theorem Fits.singleton {product : List Span} (alike : product.length = digits) :
    Fits 1 digits [product] :=
  ⟨Nat.le_refl 1, fun _ member => List.mem_singleton.mp member ▸ alike⟩

theorem Fits.append (one : Fits count digits first) (other : Fits others digits second) :
    Fits (count + others) digits (first ++ second) where
  few := by
    rw [List.length_append]
    exact Nat.add_le_add one.few other.few
  alike product member := by
    rcases List.mem_append.mp member with member | member
    · exact one.alike product member
    · exact other.alike product member

private theorem Fits.map_cons (fits : Fits count digits first) (span : Span) :
    Fits count (digits + 1) (first.map (span :: ·)) where
  few := by
    rw [List.length_map]
    exact fits.few
  alike product member := by
    obtain ⟨rest, among, rfl⟩ := List.mem_map.mp member
    rw [List.length_cons, fits.alike rest among]

theorem Fits.mono (fits : Fits count digits first) (more : count ≤ others) :
    Fits others digits first := ⟨fits.few.trans more, fits.alike⟩

private theorem fits_flatMap {spans : List Span} {f : Span → List (List Span)}
    (fits : ∀ span, Fits count digits (f span)) :
    Fits (spans.length * count) digits (spans.flatMap f) := by
  induction spans with
  | nil => exact .nil
  | cons span spans ih =>
    rw [List.flatMap_cons, List.length_cons, Nat.succ_mul, Nat.add_comm]
    exact (fits span).append ih

end

/-- A further digit at most doubles the products of either end, with one more between them. -/
theorem fits_products (digits : Nat) (span : Span) :
    Fits (2 ^ (digits + 1) - 1) (digits + 1) (products digits span) := by
  induction digits generalizing span with
  | zero => exact .singleton rfl
  | succ digits ih =>
    have positive : 0 < 2 ^ (digits + 1) := Nat.two_pow_pos _
    have counted : 2 ^ (digits + 1) - 1 + 1 + (2 ^ (digits + 1) - 1) = 2 ^ (digits + 1 + 1) - 1 := by
      omega
    -- Both ends of the span, and the numbers between them that take every further digit.
    let unit := 64 ^ (digits + 1)
    change Fits _ _ (if span.1 / unit = span.2 / unit then _ else
      (if span.1 % unit = 0 then ([], _) else (_, _)).1 ++ _ ++
        (if span.2 % unit = unit - 1 then ([], _) else (_, _)).1)
    split
    · exact ((ih _).map_cons _).mono (by omega)
    · rw [← counted]
      refine .append (.append ?_ ?_) ?_
      · split
        · exact .nil
        · exact (ih _).map_cons _
      · exact iteInduction (fun _ => .singleton (by simp)) fun _ => .nil
      · split
        · exact .nil
        · exact (ih _).map_cons _

end Utf8

namespace Glob

namespace Bracket

open Utf8 (Span Window Fits fits_products fits_flatMap)

private theorem stateCount_le {count digits : Nat} {products : List (List Span)}
    (fits : Fits count digits products) : stateCount products ≤ count * digits := by
  have total : stateCount products ≤ products.length * digits := by
    -- Each step drops a product, so that the induction keeps their length only.
    have alike := fits.alike
    clear fits
    fun_induction stateCount products with
    | case1 first next rest ih =>
      have := ih fun product member => alike product (List.mem_cons_of_mem _ member)
      have := alike first (List.mem_cons_self ..)
      rw [List.length_cons, Nat.succ_mul]
      omega
    | case2 last => simp [alike last]
    | case3 => exact Nat.zero_le _
  exact total.trans (Nat.mul_le_mul_right _ fits.few)

private theorem length_spansWhere_le (holds : Nat → Bool) (bounds : List Nat) :
    (spansWhere holds bounds).length ≤ bounds.length := by
  fun_induction spansWhere holds bounds with
  | case1 low next bounds out ih => exact Nat.le_succ_of_le ih
  | case2 low bounds inside first last spans later ih =>
    rw [later] at ih
    exact Nat.le_succ_of_le ih
  | case3 low next bounds inside first last spans later apart ih =>
    rw [later] at ih
    exact Nat.succ_le_succ ih
  | case4 => simp
  | case5 => exact Nat.zero_le _

theorem length_eraseReps_le (numbers : List Nat) : numbers.eraseReps.length ≤ numbers.length := by
  have loop (first : Nat) (rest done : List Nat) :
      (List.eraseRepsBy.loop (· == ·) first rest done).length ≤ rest.length + 1 + done.length := by
    fun_induction List.eraseRepsBy.loop (· == ·) first rest done with
    | case1 => simp [Nat.add_comm]
    | case2 =>
      rw [List.length_cons]
      omega
    | case3 =>
      simp only [List.length_cons] at *
      omega
  cases numbers with
  | nil => exact Nat.le_refl _
  | cons first rest => exact loop first rest []

/-- Every range has two bounds, and so has the window. -/
theorem length_spans_le (bracket : Bracket) (window : Window) :
    (bracket.spans window).length ≤
      2 * ((bracket.included :: bracket.excluded).flatten.length + 1) := by
  let bounds := (bracket.included :: bracket.excluded).flatten.flatMap
    fun range => [range.1.toNat, range.2.toNat + 1]
  let inside := bounds.filter fun bound => window.first < bound && bound ≤ window.last
  have filtered : inside.length ≤ bounds.length := List.length_filter_le ..
  have counted (ranges : List CharRange) :
      (ranges.flatMap fun range => [range.1.toNat, range.2.toNat + 1]).length =
        2 * ranges.length := by
    simp [List.length_flatMap, Nat.mul_comm]
  have twice : bounds.length = 2 * (bracket.included :: bracket.excluded).flatten.length :=
    counted _
  let places := window.first :: inside.mergeSort (· ≤ ·) ++ [window.last + 1]
  calc (bracket.spans window).length
    _ ≤ places.eraseReps.length := length_spansWhere_le ..
    _ ≤ places.length := length_eraseReps_le _
    _ = inside.length + 2 := by simp [places]
    _ ≤ 2 * ((bracket.included :: bracket.excluded).flatten.length + 1) := by omega

/-- The characters of a window have at most 15 products for each span, of at most 4 digits. -/
theorem fits_window {digits most : Nat} {spans : List Span} (short : digits ≤ 3)
    (few : spans.length ≤ most) :
    let products := spans.flatMap (Utf8.products digits)
    products.length ≤ 15 * most ∧ stateCount products ≤ 60 * most := by
  intro products
  have power : 2 ^ (digits + 1) ≤ 2 ^ 4 := Nat.pow_le_pow_right (by decide) (by omega)
  have count : spans.length * (2 ^ (digits + 1) - 1) ≤ 15 * most :=
    (Nat.mul_le_mul few (by omega)).trans_eq (Nat.mul_comm ..)
  have fits : Fits (15 * most) (digits + 1) products :=
    (fits_flatMap (fits_products digits)).mono count
  refine ⟨fits.few, ?_⟩
  calc stateCount products
    _ ≤ 15 * most * (digits + 1) := stateCount_le fits
    _ ≤ 15 * most * 4 := Nat.mul_le_mul_left _ (by omega)
    _ = 60 * most := by omega

private theorem foldr_add_le {numbers : List Nat} {count most : Nat} (few : numbers.length ≤ count)
    (small : ∀ number ∈ numbers, number ≤ most) : numbers.foldr (· + ·) 0 ≤ count * most := by
  have total : numbers.foldr (· + ·) 0 ≤ numbers.length * most := by
    clear few
    induction numbers with
    | nil => simp
    | cons number numbers ih =>
      obtain ⟨here, others⟩ := List.forall_mem_cons.mp small
      have later := ih others
      rw [List.foldr_cons, List.length_cons, Nat.succ_mul]
      omega
  exact total.trans (Nat.mul_le_mul_right _ few)

theorem several_le {found : List (Nat × List Span)} {most : Nat} (windows : found.length ≤ 5)
    (small : ∀ window ∈ found, window.1 ≤ 3 ∧ window.2.length ≤ most) :
    size.several found ≤ 64 + 9900 * most := by
  fun_cases size.several found with
  | case1 spans =>
    have spans : spans.length ≤ most := (small _ (List.mem_singleton_self _)).2
    simp only [stateSize, readingSize]
    omega
  | case2 _ several products =>
    have each : ∀ window ∈ products, window.length ≤ 15 * most ∧ stateCount window ≤ 60 * most := by
      intro window member
      obtain ⟨⟨digits, spans⟩, among, rfl⟩ := List.mem_map.mp member
      exact fits_window (small _ among).1 (small _ among).2
    have length : products.length ≤ 5 := by simpa [products] using windows
    have branches : products.flatten.length ≤ 5 * (15 * most) := by
      rw [List.length_flatten]
      exact foldr_add_le (by simpa using length)
        (by simpa using fun window member => (each window member).1)
    have states : (products.map stateCount).foldr (· + ·) 0 ≤ 5 * (60 * most) :=
      foldr_add_le (by simpa using length)
        (by simpa using fun window member => (each window member).2)
    simp only [stateSize, branchSize]
    omega

/-- The memory is at most proportional to the number of ranges. -/
theorem size_le (bracket : Bracket) :
    bracket.size ≤ 64 + 19800 * ((bracket.included :: bracket.excluded).flatten.length + 1) := by
  have digits : ∀ window ∈ Utf8.windows, window.digits ≤ 3 := by decide
  have small {found : List (Nat × List Span)} (filtered : found.Sublist
      (Utf8.windows.map fun window => (window.digits, bracket.spans window))) :
      ∀ window ∈ found, window.1 ≤ 3 ∧
        window.2.length ≤ 2 * ((bracket.included :: bracket.excluded).flatten.length + 1) := by
    intro window member
    obtain ⟨window, inside, rfl⟩ := List.mem_map.mp (filtered.subset member)
    exact ⟨digits window inside, length_spans_le bracket window⟩
  have severally {found : List (Nat × List Span)} (filtered : found.Sublist
      (Utf8.windows.map fun window => (window.digits, bracket.spans window))) :
      size.several found ≤
        64 + 19800 * ((bracket.included :: bracket.excluded).flatten.length + 1) :=
    (several_le filtered.length_le (small filtered)).trans_eq (by omega)
  fun_cases size bracket with
  | case1 =>
    simp only [stateSize]
    omega
  | case2 found digits high same =>
    have filtered : found.Sublist _ := List.filter_sublist
    have short : digits ≤ 3 := (small filtered _ (same ▸ List.mem_singleton_self _)).1
    simp only [stateSize]
    omega
  | case3 => exact severally List.filter_sublist
  | case4 => exact severally List.filter_sublist

end Bracket

/-- A bracket expression alone has two levels around it and no further item. -/
theorem withinLimits_oneOf {bracket : Bracket} (shallow : bracket.depth + 2 ≤ depthLimit) :
    withinLimits [.oneOf bracket] = decide (size [.oneOf bracket] ≤ sizeLimit) := by
  have levels : depth [.oneOf bracket] = bracket.depth + 2 := by simp [depth, Item.depth]
  rw [withinLimits, levels, decide_eq_true shallow, Bool.true_and]

/-- One with few ranges does not reach the limit. -/
theorem size_oneOf_le {bracket : Bracket}
    (few : (bracket.included :: bracket.excluded).flatten.length ≤ 512) :
    size [.oneOf bracket] ≤ sizeLimit := by
  have memory := bracket.size_le
  have whole : size [.oneOf bracket] = 192 + bracket.size := rfl
  have limit : sizeLimit = 10485760 := rfl
  omega

end Glob

end PolicyShell
