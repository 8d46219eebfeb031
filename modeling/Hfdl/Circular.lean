import Mathlib.Data.List.Basic
import Mathlib.Data.Nat.Init

/-! A circular buffer of fixed capacity that overwrites its oldest element when it is full.
Read from the oldest on it holds the last elements pushed, as many as fit. -/
namespace Hfdl

structure Circular (α : Type _) where
  buf : List α
  start : Nat
  len : Nat
  inside : start < buf.length
  fits : len ≤ buf.length

namespace Circular
variable {α : Type _}

/-- The slot `i` places after the oldest element. -/
def slot (r : Circular α) (i : Nat) : Nat := (r.start + i) % r.buf.length

theorem slot_lt (r : Circular α) (i : Nat) : r.slot i < r.buf.length :=
  Nat.mod_lt _ (Nat.zero_lt_of_lt r.inside)

def get (r : Circular α) (i : Nat) : α := r.buf.get ⟨r.slot i, r.slot_lt i⟩

def items (r : Circular α) : List α := (List.range r.len).map r.get

def empty (filler : α) (cap : Nat) (positive : 0 < cap) : Circular α where
  buf := List.replicate cap filler
  start := 0
  len := 0
  inside := by simpa using positive
  fits := Nat.zero_le _

def push (r : Circular α) (x : α) : Circular α :=
  if room : r.len < r.buf.length then
    { buf := r.buf.set (r.slot r.len) x
      start := r.start
      len := r.len + 1
      inside := by simpa using r.inside
      fits := by rw [List.length_set]; exact room }
  else
    { buf := r.buf.set r.start x
      start := r.slot 1
      len := r.len
      inside := by simpa using r.slot_lt 1
      fits := by simpa using r.fits }

@[simp] theorem length_items (r : Circular α) : r.items.length = r.len := by
  simp [items]

@[simp] theorem capacity_push (r : Circular α) (x : α) : (r.push x).buf.length = r.buf.length := by
  unfold push
  split <;> simp

theorem slot_eq (r : Circular α) (turn : i ≤ r.buf.length) :
    r.slot i = if r.start + i < r.buf.length then r.start + i else r.start + i - r.buf.length := by
  have inside := r.inside
  unfold slot
  split
  · case isTrue short => exact Nat.mod_eq_of_lt short
  · case isFalse wraps =>
    rw [Nat.mod_eq_sub_mod (by omega)]
    exact Nat.mod_eq_of_lt (by omega)

theorem slot_ne (r : Circular α) (less : i < j) (turn : j < r.buf.length) : r.slot j ≠ r.slot i := by
  have inside := r.inside
  rw [r.slot_eq (by omega), r.slot_eq (by omega)]
  split <;> split <;> omega

theorem items_push_room (r : Circular α) (x : α) (room : r.len < r.buf.length) :
    (r.push x).items = r.items ++ [x] := by
  have older : ∀ i < r.len, (r.push x).get i = r.get i := by
    intro i less
    have apart := r.slot_ne less room
    simp only [slot] at apart
    simp [push, room, get, slot, List.getElem_set_ne apart]
  have newest : (r.push x).get r.len = x := by
    simp [push, room, get, slot]
  have len : (r.push x).len = r.len + 1 := by simp [push, room]
  rw [items, len, List.range_succ, List.map_append, List.map_singleton, newest, items]
  congr 1
  apply List.map_congr_left
  intro i held
  exact older i (List.mem_range.mp held)

theorem items_push_full (r : Circular α) (x : α) (full : ¬ r.len < r.buf.length) :
    (r.push x).items = r.items.tail ++ [x] := by
  have inside := r.inside
  have fits := r.fits
  obtain ⟨m, cap⟩ : ∃ m, r.len = m + 1 := ⟨r.len - 1, by omega⟩
  -- the oldest slot is overwritten and becomes the last one read
  have slots : ∀ i ≤ m, (r.push x).slot i = r.slot (i + 1) := by
    intro i le
    have start : (r.push x).start = r.slot 1 := by simp [push, full]
    rw [slot_eq _ (by rw [capacity_push]; omega), start, capacity_push, r.slot_eq (by omega),
      r.slot_eq (by omega)]
    split <;> split <;> split <;> omega
  have reads : ∀ i ≤ m, (r.push x).get i = if i = m then x else r.get (i + 1) := by
    intro i le
    have buf : (r.push x).buf = r.buf.set r.start x := by simp [push, full]
    have at_start : r.slot (i + 1) = r.start ↔ i = m := by
      rw [r.slot_eq (by omega)]
      split <;> omega
    unfold get
    simp only [List.get_eq_getElem, slots i le, buf, List.getElem_set]
    split <;> split <;> first | rfl | omega
  have len : (r.push x).len = m + 1 := by
    rw [← cap]
    simp [push, full]
  rw [items, len, List.range_succ, List.map_append, List.map_singleton, reads m (Nat.le_refl m),
    if_pos rfl, items, cap, List.range_succ_eq_map, List.map_cons, List.tail_cons, List.map_map]
  congr 1
  apply List.map_congr_left
  intro i held
  have less := List.mem_range.mp held
  rw [reads i (by omega), if_neg (by omega)]
  rfl

/-- The buffer holds the last elements of everything pushed, as many as fit. -/
def Holds (r : Circular α) (pushed : List α) : Prop :=
  r.items = pushed.drop (pushed.length - r.buf.length)

theorem holds_empty (filler : α) (cap : Nat) (positive : 0 < cap) :
    (empty filler cap positive).Holds [] := by
  simp [Holds, items, empty]

theorem Holds.len {r : Circular α} (holds : r.Holds pushed) : r.len = min pushed.length r.buf.length := by
  rw [← r.length_items, holds, List.length_drop]
  omega

theorem Holds.push {r : Circular α} (holds : r.Holds pushed) (x : α) : (r.push x).Holds (pushed ++ [x]) := by
  have len := holds.len
  have inside := r.inside
  unfold Holds at holds ⊢
  rw [capacity_push, List.length_append, List.length_singleton]
  by_cases room : r.len < r.buf.length
  · rw [r.items_push_room x room, holds, Nat.sub_eq_zero_of_le (by omega),
      Nat.sub_eq_zero_of_le (by omega)]
    rfl
  · rw [r.items_push_full x room, holds, List.tail_drop, List.drop_append_of_le_length (by omega)]
    congr 2
    omega

end Circular
end Hfdl
