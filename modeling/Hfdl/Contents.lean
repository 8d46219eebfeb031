import Hfdl.Indexed
import Mathlib.Data.List.Basic

/-! The contents of a regular file under allocation and positional writes. A gap that either leaves reads as zeros. -/
namespace Hfdl.Contents
variable {β : Type} {zero : β} {old source : List β}

/-- Allocation up to a size; it never makes the file shorter. -/
def extend (zero : β) (size : Nat) (old : List β) : List β := old ++ List.replicate (size - old.length) zero

/-- A write of no bytes does not even extend the file. -/
def pwrite (zero : β) (old : List β) (off : Nat) : List β → List β
  | [] => old
  | b :: bytes => (extend zero off old).take off ++ (b :: bytes) ++ old.drop (off + (b :: bytes).length)

def fill (zero : β) (old : List β) (writes : List (Nat × List β)) : List β :=
  writes.foldl (fun old w => pwrite zero old w.1 w.2) old

theorem fill_cons : fill zero old (w :: writes) = fill zero (pwrite zero old w.1 w.2) writes := rfl

theorem extend_of_le (long : size ≤ old.length) : extend zero size old = old := by
  rw [extend, Nat.sub_eq_zero_of_le long, List.replicate_zero, List.append_nil]

theorem drop_extend : (extend zero size old).drop size = old.drop size := by
  by_cases long : size ≤ old.length
  · rw [extend_of_le long]
  · rw [List.drop_eq_nil_of_le (by simp only [extend, List.length_append, List.length_replicate]; omega),
      List.drop_eq_nil_of_le (by omega)]

theorem length_take_extend : ((extend zero off old).take off).length = off := by
  simp only [extend, List.length_take, List.length_append, List.length_replicate]
  omega

theorem getElem?_pwrite_inside (left : off ≤ x) (right : x < off + bytes.length) :
    (pwrite zero old off bytes)[x]? = bytes[x - off]? := by
  cases bytes with
  | nil => simp only [List.length_nil] at right; omega
  | cons b bytes =>
    rw [pwrite, List.append_assoc, List.getElem?_append_right (by rw [length_take_extend]; exact left), length_take_extend,
      List.getElem?_append_left (by omega)]

theorem getElem?_pwrite_beyond (beyond : off + bytes.length ≤ x) : (pwrite zero old off bytes)[x]? = old[x]? := by
  cases bytes with
  | nil => rfl
  | cons b bytes =>
    have skipped : ((extend zero off old).take off ++ (b :: bytes)).length = off + (b :: bytes).length := by
      rw [List.length_append, length_take_extend]
    rw [pwrite, List.getElem?_append_right (by omega), skipped, List.getElem?_drop, Nat.add_sub_cancel' beyond]

theorem getElem?_pwrite_before (before : x < off) (present : x < old.length) : (pwrite zero old off bytes)[x]? = old[x]? := by
  cases bytes with
  | nil => rfl
  | cons b bytes =>
    rw [pwrite, List.append_assoc, List.getElem?_append_left (by rw [length_take_extend]; exact before),
      List.getElem?_take_of_lt before, extend, List.getElem?_append_left present]

theorem getElem?_pwrite_kept (present : old[x]? = some v) (same : off ≤ x → x < off + bytes.length → bytes[x - off]? = some v) :
    (pwrite zero old off bytes)[x]? = some v := by
  have short : x < old.length := (List.getElem?_eq_some_iff.mp present).1
  by_cases left : off ≤ x
  · by_cases right : x < off + bytes.length
    · rw [getElem?_pwrite_inside left right, same left right]
    · rw [getElem?_pwrite_beyond (by omega), present]
  · rw [getElem?_pwrite_before (by omega) short, present]

theorem pwrite_same (same : ∀ k < bytes.length, old[off + k]? = bytes[k]?) : pwrite zero old off bytes = old := by
  apply List.ext_getElem?
  intro x
  by_cases inside : off ≤ x ∧ x < off + bytes.length
  · have there := same (x - off) (by omega)
    rw [Nat.add_sub_cancel' inside.1] at there
    rw [getElem?_pwrite_inside inside.1 inside.2, there]
  · by_cases beyond : off + bytes.length ≤ x
    · exact getElem?_pwrite_beyond beyond
    · cases bytes with
      | nil => rfl
      | cons b bytes =>
        -- the first byte written is there, so the file reaches the offset
        have first : old[off]? = some b := same 0 (Nat.zero_lt_succ _)
        have reached := (List.getElem?_eq_some_iff.mp first).1
        exact getElem?_pwrite_before (by omega) (by omega)

theorem fill_same (same : ∀ w ∈ writes, ∀ k < w.2.length, old[w.1 + k]? = w.2[k]?) : fill zero old writes = old := by
  induction writes with
  | nil => rfl
  | cons w writes ih =>
    rw [fill_cons, pwrite_same (same w List.mem_cons_self)]
    exact ih fun w' later => same w' (List.mem_cons_of_mem _ later)

theorem getElem?_fill_beyond (inside : ∀ w ∈ writes, w.1 + w.2.length ≤ n) (beyond : n ≤ x) :
    (fill zero old writes)[x]? = old[x]? := by
  induction writes generalizing old with
  | nil => rfl
  | cons w writes ih =>
    have untouched : (pwrite zero old w.1 w.2)[x]? = old[x]? :=
      getElem?_pwrite_beyond (Nat.le_trans (inside w List.mem_cons_self) beyond)
    rw [fill_cons, ← untouched]
    exact ih fun w' later => inside w' (List.mem_cons_of_mem _ later)

theorem getElem?_fill_kept {x : Nat} (sourced : ∀ w ∈ writes, ∀ k < w.2.length, w.2[k]? = source[w.1 + k]?)
    (present : old[x]? = some v)
    (same : source[x]? = some v) : (fill zero old writes)[x]? = some v := by
  induction writes generalizing old with
  | nil => exact present
  | cons w writes ih =>
    rw [fill_cons]
    refine ih (fun w' later => sourced w' (List.mem_cons_of_mem _ later)) ?_
    refine getElem?_pwrite_kept present fun left right => ?_
    rw [sourced w List.mem_cons_self _ (by omega), Nat.add_sub_cancel' left, same]

theorem getElem?_fill_written {x : Nat} (sourced : ∀ w ∈ writes, ∀ k < w.2.length, w.2[k]? = source[w.1 + k]?)
    (written : ∃ w ∈ writes, w.1 ≤ x ∧ x < w.1 + w.2.length) (same : source[x]? = some v) :
    (fill zero old writes)[x]? = some v := by
  induction writes generalizing old with
  | nil =>
    obtain ⟨w, member, -⟩ := written
    cases member
  | cons w writes ih =>
    have later : ∀ w' ∈ writes, ∀ k < w'.2.length, w'.2[k]? = source[w'.1 + k]? :=
      fun w' member => sourced w' (List.mem_cons_of_mem _ member)
    rw [fill_cons]
    by_cases now : w.1 ≤ x ∧ x < w.1 + w.2.length
    · refine getElem?_fill_kept later ?_ same
      rw [getElem?_pwrite_inside now.1 now.2, sourced w List.mem_cons_self _ (by omega), Nat.add_sub_cancel' now.1, same]
    · obtain ⟨w', member, covers⟩ := written
      rcases List.mem_cons.mp member with rfl | member
      · exact absurd covers now
      · exact ih later ⟨w', member, covers⟩

/-- Writes that cover a source leave it, followed by what the file held behind it. -/
theorem fill_covering (sourced : ∀ w ∈ writes, ∀ k < w.2.length, w.2[k]? = source[w.1 + k]?)
    (inside : ∀ w ∈ writes, w.1 + w.2.length ≤ source.length)
    (written : ∀ x < source.length, ∃ w ∈ writes, w.1 ≤ x ∧ x < w.1 + w.2.length) :
    fill zero old writes = source ++ old.drop source.length := by
  apply List.ext_getElem?
  intro x
  by_cases low : x < source.length
  · rw [List.getElem?_append_left low]
    have same := List.getElem?_eq_getElem low
    rw [same]
    exact getElem?_fill_written sourced (written x low) same
  · rw [List.getElem?_append_right (by omega), List.getElem?_drop, Nat.add_sub_cancel' (by omega)]
    exact getElem?_fill_beyond inside (by omega)

end Hfdl.Contents
