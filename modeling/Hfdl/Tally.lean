import Mathlib.Algebra.BigOperators.Group.Finset.Piecewise

/-! Counting the members of an indexed family that have a property, and how the count
changes when one member is replaced. -/
namespace Hfdl

/-- How many of `f 0 .. f (n - 1)` satisfy `p`. -/
def tally (p : α → Prop) [DecidablePred p] (n : Nat) (f : Nat → α) : Nat :=
  ((Finset.range n).filter fun k => p (f k)).card

section
variable {p : α → Prop} [DecidablePred p] {f : Nat → α} {n : Nat}

theorem tally_eq_zero : tally p n f = 0 ↔ ∀ k < n, ¬ p (f k) := by
  simp [tally, Finset.filter_eq_empty_iff]

theorem tally_pos : 0 < tally p n f ↔ ∃ k < n, p (f k) := by
  rw [Nat.pos_iff_ne_zero, ne_eq, tally_eq_zero]
  push Not
  rfl

theorem tally_congr (same : ∀ k < n, p (f k) ↔ p (g k)) : tally p n f = tally p n g := by
  refine congrArg Finset.card (Finset.filter_congr fun k inside => ?_)
  exact same k (Finset.mem_range.mp inside)

/-- Replacing one member moves the count by what the old and the new member contribute. -/
theorem tally_update (inside : i < n) :
    tally p n (Function.update f i a) + (if p (f i) then 1 else 0) = tally p n f + if p a then 1 else 0 := by
  have member : i ∈ Finset.range n := Finset.mem_range.mpr inside
  have others : ∀ k ∈ (Finset.range n).erase i,
      (if p (Function.update f i a k) then 1 else 0) = if p (f k) then 1 else 0 := fun k away => by
    rw [Function.update_of_ne (Finset.ne_of_mem_erase away)]
  simp only [tally, Finset.card_filter]
  rw [← Finset.add_sum_erase _ _ member, ← Finset.add_sum_erase _ (fun k => if p (f k) then 1 else 0) member,
    Finset.sum_congr rfl others, Function.update_self]
  omega

end
end Hfdl
