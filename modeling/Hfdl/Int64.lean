import Mathlib.Algebra.Group.Int.Defs
import Mathlib.Algebra.Group.Nat.Defs

/-! Machine integers of 64 bits: the bounds, and the sums and products that wrap around. Durations
are such integers, in nanoseconds. -/
namespace Hfdl

def second : Nat := 10 ^ 9

def minInt64 : Int := -2 ^ 63

def maxInt64 : Int := 2 ^ 63 - 1

def wrapInt64 (x : Int) : Int := x.bmod (2 ^ 64)

theorem wrapInt64_of_fits (low : minInt64 ≤ x) (high : x ≤ maxInt64) : wrapInt64 x = x := by
  simp only [minInt64, maxInt64] at low high
  simp only [wrapInt64, Int.bmod]
  split <;> omega

theorem wrapInt64_eq (low : 0 ≤ x) (high : x ≤ maxInt64) : wrapInt64 x = x :=
  wrapInt64_of_fits (by simp only [minInt64]; omega) high

theorem wrapInt64_of_over (beyond : maxInt64 < x) (once : x ≤ maxInt64 + maxInt64) : wrapInt64 x = x - 2 ^ 64 := by
  simp only [maxInt64] at beyond once
  simp only [wrapInt64, Int.bmod]
  split <;> omega

theorem wrapInt64_bounds (x : Int) : minInt64 ≤ wrapInt64 x ∧ wrapInt64 x ≤ maxInt64 := by
  simp only [minInt64, maxInt64, wrapInt64, Int.bmod]
  split <;> omega

theorem wrapInt64_wrap_add (x y : Int) : wrapInt64 (wrapInt64 x + y) = wrapInt64 (x + y) := Int.bmod_add_bmod

end Hfdl
