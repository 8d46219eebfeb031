import Hfdl.Store.Files
import Hfdl.Xet.Boundaries
import Mathlib.Algebra.Group.Nat.Defs

/-! The cut of a file's missing ranges into blocks. Offsets are 64-bit integers that
wrap around, so a huge block size can send the loop back below its start; it still
covers what it was given when it ends. -/
namespace Hfdl

def Interval.Machine (v : Interval) : Prop := minInt64 ≤ v.start ∧ v.stop ≤ maxInt64

def BlockSpec.Has (b : BlockSpec) (x : Int) : Prop := b.offset ≤ x ∧ x < b.offset + b.length

/-- The cut of one range from `start` on; `none` when the fuel does not reach its end. -/
def chunkRange (blockSize stop : Int) : Nat → Int → Int → Option (List BlockSpec × Int)
  | 0, start, idx => if start < stop then none else some ([], idx)
  | fuel + 1, start, idx =>
    if start < stop then
      let last := min (wrapInt64 (start + blockSize)) stop
      (chunkRange blockSize stop fuel last (wrapInt64 (idx + 1))).map fun (rest, idx') =>
        (⟨idx, start, wrapInt64 (last - start)⟩ :: rest, idx')
    else some ([], idx)

def chunkBlocks (fuel : Nat) (blockSize : Int) : List Interval → Int → Option (List BlockSpec)
  | [], _ => some []
  | v :: bounds, idx => do
    let (blocks, idx) ← chunkRange blockSize v.stop fuel v.start idx
    let rest ← chunkBlocks fuel blockSize bounds idx
    some (blocks ++ rest)

theorem chunkRange_covers (positive : 0 < blockSize) (machine : blockSize ≤ maxInt64) (low : minInt64 ≤ start)
    (high : stop ≤ maxInt64) (cut : chunkRange blockSize stop fuel start idx = some (blocks, idx'))
    (left : start ≤ x) (right : x < stop) : ∃ b ∈ blocks, b.Has x := by
  induction fuel generalizing start idx blocks idx' with
  | zero =>
    rw [chunkRange, if_pos (by omega)] at cut
    cases cut
  | succ fuel ih =>
    rw [chunkRange, if_pos (by omega)] at cut
    obtain ⟨⟨rest, idx''⟩, tail, same⟩ := Option.map_eq_some_iff.mp cut
    cases same
    by_cases inside : x < min (wrapInt64 (start + blockSize)) stop
    · -- a block that reaches past its start has not wrapped
      have unwrapped : wrapInt64 (start + blockSize) = start + blockSize := by
        by_cases fits : start + blockSize ≤ maxInt64
        · exact wrapInt64_of_fits (by omega) fits
        · have wrapped := wrapInt64_of_over (Int.not_le.mp fits) (by omega)
          simp only [maxInt64] at machine
          omega
      have length : wrapInt64 (min (start + blockSize) stop - start) = min (start + blockSize) stop - start :=
        wrapInt64_eq (by omega) (by omega)
      rw [unwrapped] at inside
      refine ⟨_, List.mem_cons_self, left, ?_⟩
      simp only [unwrapped, length]
      omega
    · have bounded : minInt64 ≤ wrapInt64 (start + blockSize) := by
        simp only [minInt64, wrapInt64, Int.bmod]
        split <;> omega
      have onward : minInt64 ≤ min (wrapInt64 (start + blockSize)) stop := by
        simp only [minInt64] at low bounded ⊢
        omega
      obtain ⟨b, member, has⟩ := ih onward tail (by omega)
      exact ⟨b, List.mem_cons_of_mem _ member, has⟩

theorem chunkBlocks_covers (positive : 0 < blockSize) (machine : blockSize ≤ maxInt64) (bounded : ∀ v ∈ bounds, v.Machine)
    (cut : chunkBlocks fuel blockSize bounds idx = some blocks) (covered : Covered bounds x) : ∃ b ∈ blocks, b.Has x := by
  induction bounds generalizing idx blocks with
  | nil => exact absurd covered (covered_nil x)
  | cons v bounds ih =>
    simp only [chunkBlocks, Option.bind_eq_bind, Option.bind_eq_some_iff] at cut
    obtain ⟨⟨first, idx'⟩, head, rest, tail, same⟩ := cut
    cases same
    rcases covered_cons.mp covered with ⟨left, right⟩ | later
    · obtain ⟨low, high⟩ := bounded v List.mem_cons_self
      obtain ⟨b, member, has⟩ := chunkRange_covers positive machine low high head left right
      exact ⟨b, List.mem_append_left _ member, has⟩
    · obtain ⟨b, member, has⟩ := ih (fun w inside => bounded w (List.mem_cons_of_mem _ inside)) tail later
      exact ⟨b, List.mem_append_right _ member, has⟩

/-- Where the blocks of a file come from: ranged http requests, or a reconstruction of xet terms if it is there yet. -/
inductive BlockSource where
  | http
  | xet (recon : Option Xet.Reconstruction)

/-- Where the blocks of a file may be cut: anywhere over http, and at the edges of terms over xet, which widens the
missing ranges to them. -/
def BlockSource.boundaries (size : Int) (missing : List Interval) (blockSize : Int) : BlockSource → List Interval
  | .http => missing
  | .xet recon => Xet.boundaries recon size missing blockSize

theorem BlockSource.covers (src : BlockSource) (blockSize : Int) (ranges : Ranges size missing) (missed : Covered missing x) :
    Covered (src.boundaries size missing blockSize) x := by
  cases src with
  | http => exact missed
  | xet recon => exact Xet.boundaries_covers recon blockSize ranges missed

theorem BlockSource.within (src : BlockSource) (ranges : Ranges size missing)
    (member : v ∈ src.boundaries size missing blockSize) :
    0 ≤ v.start ∧ v.stop ≤ size := by
  cases src with
  | http => exact (ranges.nonempty v member).2
  | xet recon => exact Xet.boundaries_within ranges member

/-- The blocks of one pass over the ranges that its progress leaves missing. -/
theorem chunkBlocks_missing {seed : IntervalSet} {src : BlockSource} (positive : 0 < blockSize)
    (machine : blockSize ≤ maxInt64) (fits : size ≤ maxInt64)
    (cut : chunkBlocks fuel blockSize (src.boundaries size (seed.missing size) blockSize) idx = some blocks)
    (left : 0 ≤ x) (right : x < size) : seed.Covers x ∨ ∃ b ∈ blocks, b.Has x := by
  have ranges := seed.missing_ranges (show 0 < size by omega)
  refine (seed.covers_or_missing left right).imp_right fun missing => ?_
  refine chunkBlocks_covers positive machine (fun v inside => ?_) cut (src.covers blockSize ranges missing)
  obtain ⟨low, high⟩ := src.within ranges inside
  exact ⟨by simp only [minInt64]; omega, by omega⟩

end Hfdl
