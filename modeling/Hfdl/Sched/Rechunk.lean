import Hfdl.Sched.Chunk
import Hfdl.Transfer.IntervalUnion
import Mathlib.Algebra.Group.Int.Defs
import Mathlib.Algebra.Group.Nat.Defs
import Mathlib.Algebra.Order.BigOperators.Group.List
import Mathlib.Algebra.Order.Ring.Int
import Mathlib.Order.Bounds.Basic

/-! The block size of a pass, configured or adapted to the file, and the cut of the missing ranges
when no sum leaves the machine range. -/
namespace Hfdl

inductive SizeError where
  | empty
  | invalid (s : String)
  | overflows (s : String)
deriving DecidableEq, Repr

/-- The nearest double to a natural number, ties to even. -/
def nearestDouble (n : Nat) : Nat :=
  let ulp := 2 ^ (n.log2 - 52)
  let q := n / ulp
  if ulp < 2 * (n % ulp) ∨ 2 * (n % ulp) = ulp ∧ q % 2 = 1 then (q + 1) * ulp else q * ulp

/-- `humanize.ParseBytes` on a plain byte count, which it reads as a double. Units and fractions are left out. -/
def parseBytes (digits : List Char) : Option Nat :=
  if digits.all Char.isDigit then
    let n := nearestDouble (digits.foldl (fun n c => 10 * n + (c.toNat - '0'.toNat)) 0)
    if 2 ^ 64 ≤ n then none else some n
  else none

def isSpace (c : Char) : Bool :=
  c ∈ ['\t', '\n', '\x0b', '\x0c', '\r', ' ', '\u0085', '\u00a0', '\u1680', '\u2028', '\u2029', '\u202f', '\u205f', '\u3000'] ||
    '\u2000' ≤ c && c ≤ '\u200a'

def trimSpace (s : List Char) : List Char := ((s.dropWhile isSpace).reverse.dropWhile isSpace).reverse

def parseSize (s : String) : Except SizeError Int :=
  let v := trimSpace s.toList
  if v = [] then .error .empty
  else
    match parseBytes v with
    | none => .error (.invalid s)
    | some n => if maxInt64 < n then .error (.overflows s) else .ok n

def minBlockSize : Int := 4 * 2 ^ 20

def maxBlockSize : Int := 64 * 2 ^ 20

/-- Doubles up to the share of a connection; `fuel` bounds the doublings. -/
def growBlock (v : Int) : Nat → Int → Int
  | 0, p => p
  | fuel + 1, p => if p < v ∧ p < maxBlockSize then growBlock v fuel (2 * p) else p

def adaptiveBlockSize (size conns : Int) : Int :=
  let conns := if conns < 1 then 1 else conns
  let v := size.tdiv conns
  if v < minBlockSize then minBlockSize else min (growBlock v 4 minBlockSize) maxBlockSize

/-- Non-empty blocks of at most the block size inside `[lo, hi)`, one after another and numbered from `idx`. -/
structure Laid (blockSize lo hi idx : Int) (blocks : List BlockSpec) : Prop where
  numbered : ∀ (k : Nat) b, blocks[k]? = some b → b.idx = idx + k
  sized : ∀ b ∈ blocks, 0 < b.length ∧ b.length ≤ blockSize
  within : ∀ b ∈ blocks, lo ≤ b.offset ∧ b.offset + b.length ≤ hi
  ordered : blocks.Pairwise fun a b => a.offset + a.length ≤ b.offset

namespace Laid

theorem nil : Laid blockSize lo hi idx [] where
  numbered _ _ never := by cases never
  sized _ never := by cases never
  within _ never := by cases never
  ordered := .nil

theorem cons (positive : 0 < n) (small : n ≤ blockSize) (rest : Laid blockSize (lo + n) hi (idx + 1) blocks)
    (inside : lo + n ≤ hi) : Laid blockSize lo hi idx (⟨idx, lo, n⟩ :: blocks) where
  numbered k b found := by
    cases k with
    | zero =>
      cases found
      simp
    | succ k =>
      rw [rest.numbered k b found]
      push_cast
      omega
  sized b member := by
    cases member with
    | head => exact ⟨positive, small⟩
    | tail _ later => exact rest.sized b later
  within b member := by
    cases member with
    | head => exact ⟨Int.le_refl _, inside⟩
    | tail _ later =>
      obtain ⟨low, high⟩ := rest.within b later
      exact ⟨by omega, high⟩
  ordered := List.pairwise_cons.mpr ⟨fun b later => (rest.within b later).1, rest.ordered⟩

theorem append (first : Laid blockSize lo mid idx blocks) (rest : Laid blockSize mid hi (idx + blocks.length) later)
    (low : lo ≤ mid) (high : mid ≤ hi) : Laid blockSize lo hi idx (blocks ++ later) where
  numbered k b found := by
    by_cases inside : k < blocks.length
    · rw [List.getElem?_append_left inside] at found
      exact first.numbered k b found
    · rw [List.getElem?_append_right (Nat.le_of_not_lt inside)] at found
      rw [rest.numbered _ b found]
      omega
  sized b member := by
    cases List.mem_append.mp member with
    | inl early => exact first.sized b early
    | inr late => exact rest.sized b late
  within b member := by
    cases List.mem_append.mp member with
    | inl early =>
      obtain ⟨left, right⟩ := first.within b early
      exact ⟨left, by omega⟩
    | inr late =>
      obtain ⟨left, right⟩ := rest.within b late
      exact ⟨by omega, right⟩
  ordered := by
    apply List.pairwise_append.mpr
    refine ⟨first.ordered, rest.ordered, fun a early b late => ?_⟩
    exact Int.le_trans (first.within a early).2 (rest.within b late).1

end Laid

theorem chunkRange_done (done : stop ≤ start) : chunkRange blockSize stop fuel start idx = some ([], idx) := by
  cases fuel with
  | zero => rw [chunkRange, if_neg (by omega)]
  | succ fuel => rw [chunkRange, if_neg (by omega)]

/-- Where the last block of a range starts. -/
def lastStart (blockSize : Int) (v : Interval) : Int := v.start + blockSize * ((v.stop - v.start - 1) / blockSize)

def blockCount (blockSize : Int) (v : Interval) : Int := (v.stop - v.start - 1) / blockSize + 1

theorem lastStart_empty (positive : 0 < blockSize) (stop : Int) :
    lastStart blockSize ⟨stop, stop⟩ + blockSize = stop ∧ blockCount blockSize ⟨stop, stop⟩ = 0 := by
  have minus : (stop - stop - 1) / blockSize = -1 := by
    rw [show stop - stop - 1 = -1 by omega]
    exact Int.ediv_eq_neg_one_of_neg_of_le (by omega) (by omega)
  simp only [lastStart, blockCount, minus]
  omega

theorem blockCount_nonneg (positive : 0 < blockSize) (ordered : v.start ≤ v.stop) : 0 ≤ blockCount blockSize v := by
  have quotient := Int.le_ediv_of_mul_le positive (show -1 * blockSize ≤ v.stop - v.start - 1 by omega)
  rw [blockCount]
  omega

theorem lastStart_next (positive : 0 < blockSize) (more : start < stop) :
    start ≤ lastStart blockSize ⟨start, stop⟩ ∧
      blockCount blockSize ⟨start, stop⟩ = blockCount blockSize ⟨min (start + blockSize) stop, stop⟩ + 1 ∧
      (lastStart blockSize ⟨min (start + blockSize) stop, stop⟩ = lastStart blockSize ⟨start, stop⟩ ∨
        lastStart blockSize ⟨start, stop⟩ = start ∧ min (start + blockSize) stop = stop) := by
  have nonneg : 0 ≤ (stop - start - 1) / blockSize := Int.ediv_nonneg (by omega) (by omega)
  have product : 0 ≤ blockSize * ((stop - start - 1) / blockSize) := Int.mul_nonneg (by omega) nonneg
  by_cases far : start + blockSize < stop
  · have step : (stop - (start + blockSize) - 1) / blockSize = (stop - start - 1) / blockSize - 1 := by
      rw [show stop - (start + blockSize) - 1 = stop - start - 1 + -1 * blockSize by omega, Int.add_mul_ediv_right _ _ (by omega)]
      omega
    rw [Int.min_eq_left (Int.le_of_lt far)]
    simp only [lastStart, blockCount, step, Int.mul_sub]
    omega
  · have one : (stop - start - 1) / blockSize = 0 := Int.ediv_eq_zero_of_lt (by omega) (by omega)
    have here : lastStart blockSize ⟨start, stop⟩ = start := by simp only [lastStart, one, Int.mul_zero, Int.add_zero]
    rw [Int.min_eq_right (Int.not_lt.mp far), (lastStart_empty positive stop).2, here]
    exact ⟨Int.le_refl _, by simp only [blockCount, one], .inr ⟨rfl, rfl⟩⟩

theorem chunkRange_next (positive : 0 < blockSize) (low : 0 ≤ start) (more : start < stop)
    (room : start + blockSize ≤ maxInt64) (first : minInt64 ≤ idx) (last : idx < maxInt64) :
    chunkRange blockSize stop (fuel + 1) start idx = (chunkRange blockSize stop fuel (min (start + blockSize) stop) (idx + 1)).map
      fun (rest, idx') => (⟨idx, start, min (start + blockSize) stop - start⟩ :: rest, idx') := by
  have unwrapped : wrapInt64 (start + blockSize) = start + blockSize := wrapInt64_eq (by omega) room
  have length : wrapInt64 (min (start + blockSize) stop - start) = min (start + blockSize) stop - start :=
    wrapInt64_eq (by omega) (by omega)
  have number : wrapInt64 (idx + 1) = idx + 1 := wrapInt64_of_fits (by omega) (by omega)
  rw [chunkRange, if_pos more]
  simp only [unwrapped, length, number]

theorem chunkRange_laid (start stop idx : Int) (positive : 0 < blockSize) (low : 0 ≤ start) (ordered : start ≤ stop)
    (high : stop ≤ maxInt64)
    (fits : lastStart blockSize ⟨start, stop⟩ + blockSize ≤ maxInt64) (first : minInt64 ≤ idx)
    (room : idx + blockCount blockSize ⟨start, stop⟩ ≤ maxInt64) (enough : (stop - start).toNat ≤ n) :
    ∃ blocks,
    (∀ fuel, n ≤ fuel → chunkRange blockSize stop fuel start idx = some (blocks, idx + blockCount blockSize ⟨start, stop⟩)) ∧
      blocks.length = blockCount blockSize ⟨start, stop⟩ ∧ (∀ b ∈ blocks, b.offset + blockSize ≤ maxInt64) ∧
      Laid blockSize start stop idx blocks ∧ ∀ x, (∃ b ∈ blocks, b.Has x) ↔ start ≤ x ∧ x < stop := by
  by_cases more : start < stop
  · obtain ⟨n, rfl⟩ : ∃ k, n = k + 1 := ⟨n - 1, by omega⟩
    obtain ⟨ahead, count, next⟩ := lastStart_next positive more
    have rest : 0 ≤ blockCount blockSize ⟨min (start + blockSize) stop, stop⟩ := blockCount_nonneg positive (Int.min_le_right ..)
    have fits' : lastStart blockSize ⟨min (start + blockSize) stop, stop⟩ + blockSize ≤ maxInt64 := by
      rcases next with same | ⟨-, done⟩
      · omega
      · rw [done, (lastStart_empty positive stop).1]
        exact high
    obtain ⟨blocks, cut, length, safe, laid, covers⟩ :=
      chunkRange_laid (min (start + blockSize) stop) stop (idx + 1) positive (by omega)
      (by omega) high fits' (by omega) (by omega) (show _ ≤ n by omega)
    refine ⟨⟨idx, start, min (start + blockSize) stop - start⟩ :: blocks, fun fuel enough => ?_, ?_, ?_, ?_, fun x => ?_⟩
    · obtain ⟨fuel, rfl⟩ := Nat.exists_eq_add_of_le' enough
      rw [← Nat.add_assoc, chunkRange_next positive low more (by omega) first (by omega), cut (fuel + n) (by omega), count]
      simp only [Option.map_some, Option.some.injEq, Prod.mk.injEq, true_and]
      omega
    · rw [List.length_cons]
      omega
    · exact List.forall_mem_cons.mpr ⟨show start + blockSize ≤ maxInt64 by omega, safe⟩
    · refine .cons (by omega) (by omega) ?_ (by omega)
      rw [show start + (min (start + blockSize) stop - start) = min (start + blockSize) stop by omega]
      exact laid
    · simp only [List.mem_cons, exists_eq_or_imp, covers]
      simp only [BlockSpec.Has]
      omega
  · obtain rfl : start = stop := by omega
    rw [(lastStart_empty positive start).2]
    refine ⟨[], fun fuel _ => ?_, rfl, fun _ never => absurd never List.not_mem_nil, .nil, fun x => ?_⟩
    · rw [chunkRange_done (Int.le_refl _), Int.add_zero]
    · simp
termination_by n

theorem chunkBlocks_laid (lo idx : Int) (positive : 0 < blockSize) (low : 0 ≤ lo) (order : lo ≤ hi) (high : hi ≤ maxInt64)
    (ranges : ∀ v ∈ bounds, v.start ≤ v.stop ∧ lo ≤ v.start ∧ v.stop ≤ hi)
    (apart : bounds.Pairwise fun v w => v.stop ≤ w.start) (fits : ∀ v ∈ bounds, lastStart blockSize v + blockSize ≤ maxInt64)
    (first : minInt64 ≤ idx) (room : idx + (bounds.map (blockCount blockSize)).sum ≤ maxInt64) :
    ∃ blocks, (∀ fuel, hi.toNat ≤ fuel → chunkBlocks fuel blockSize bounds idx = some blocks) ∧
      blocks.length = (bounds.map (blockCount blockSize)).sum ∧ (∀ b ∈ blocks, b.offset + blockSize ≤ maxInt64) ∧
      Laid blockSize lo hi idx blocks ∧ ∀ x, (∃ b ∈ blocks, b.Has x) ↔ Covered bounds x := by
  induction bounds generalizing lo idx with
  | nil => exact ⟨[], fun _ _ => rfl, rfl, fun _ never => absurd never List.not_mem_nil, .nil, fun x => by simp⟩
  | cons v bounds ih =>
    rw [List.map_cons, List.sum_cons] at room ⊢
    obtain ⟨ordered, left, right⟩ := ranges v List.mem_cons_self
    obtain ⟨after, rest⟩ := List.pairwise_cons.mp apart
    have later : ∀ w ∈ bounds, w.start ≤ w.stop ∧ v.stop ≤ w.start ∧ w.stop ≤ hi := by
      intro w member
      obtain ⟨ordered', -, right'⟩ := ranges w (List.mem_cons_of_mem _ member)
      exact ⟨ordered', after w member, right'⟩
    have counts : 0 ≤ (bounds.map (blockCount blockSize)).sum := by
      refine List.sum_nonneg fun n member => ?_
      obtain ⟨w, member', rfl⟩ := List.mem_map.mp member
      exact blockCount_nonneg positive (later w member').1
    have count := blockCount_nonneg positive ordered
    obtain ⟨blocks, cut, length, safe, laid, covers⟩ :=
      chunkRange_laid v.start v.stop idx positive (Int.le_trans low left) ordered
      (by omega) (fits v List.mem_cons_self) first (show idx + blockCount blockSize v ≤ maxInt64 by omega)
      (show (v.stop - v.start).toNat ≤ hi.toNat by omega)
    obtain ⟨more, cut', length', safe', laid', covers'⟩ := ih v.stop (idx + blockCount blockSize v) (by omega) right later rest
      (fun w member => fits w (List.mem_cons_of_mem _ member)) (by omega) (by omega)
    refine ⟨blocks ++ more, fun fuel enough => ?_, ?_, ?_, ?_, fun x => ?_⟩
    · simp only [chunkBlocks, cut fuel enough, cut' fuel enough, Option.bind_eq_bind, Option.bind_some]
    · rw [List.length_append, Nat.cast_add, length, length']
    · exact fun b member => (List.mem_append.mp member).elim (safe b) (safe' b)
    · have lowered : Laid blockSize lo v.stop idx blocks :=
        { laid with within := fun b member => ⟨Int.le_trans left (laid.within b member).1, (laid.within b member).2⟩ }
      rw [show blockCount blockSize v = blocks.length from length.symm] at laid'
      exact lowered.append laid' (by omega) right
    · rw [covered_cons, ← covers']
      simp only [List.mem_append, or_and_right, exists_or, covers, Interval.Has]

/-- A cut without a wrap-around has gone through the last start of its range. -/
theorem chunkRange_room (positive : 0 < blockSize) (low : 0 ≤ start) (ordered : start ≤ stop) (high : stop ≤ maxInt64)
    (first : minInt64 ≤ idx) (last : idx ≤ maxInt64) (cut : chunkRange blockSize stop fuel start idx = some (blocks, idx'))
    (safe : ∀ b ∈ blocks, b.offset + blockSize ≤ maxInt64 ∧ b.idx < maxInt64) :
    lastStart blockSize ⟨start, stop⟩ + blockSize ≤ maxInt64 ∧ idx' = idx + blockCount blockSize ⟨start, stop⟩ ∧ idx ≤ idx' ∧
      idx' ≤ maxInt64 := by
  have done (idx : Int) (last : idx ≤ maxInt64) : lastStart blockSize ⟨stop, stop⟩ + blockSize ≤ maxInt64 ∧
      idx = idx + blockCount blockSize ⟨stop, stop⟩ ∧ idx ≤ idx ∧ idx ≤ maxInt64 := by
    obtain ⟨same, none_⟩ := lastStart_empty positive stop
    omega
  induction fuel generalizing start idx blocks with
  | zero =>
    rw [chunkRange] at cut
    split at cut <;> cases cut
    obtain rfl : start = stop := by omega
    exact done _ last
  | succ fuel ih =>
    by_cases more : start < stop
    · -- the first block of the cut is at the start, so a block size further on is still in range
      obtain ⟨room, number⟩ : start + blockSize ≤ maxInt64 ∧ idx < maxInt64 := by
        rw [chunkRange, if_pos more] at cut
        obtain ⟨_, -, same⟩ := Option.map_eq_some_iff.mp cut
        exact safe ⟨idx, start, _⟩ ((Prod.mk.inj same).1 ▸ List.mem_cons_self)
      rw [chunkRange_next positive low more room first number] at cut
      obtain ⟨⟨rest, _⟩, tail, same⟩ := Option.map_eq_some_iff.mp cut
      cases same
      obtain ⟨fits, counted, before, after⟩ := ih (by omega) (by omega) (by omega) (by omega) tail
        fun b member => safe b (List.mem_cons_of_mem _ member)
      obtain ⟨-, count, next⟩ := lastStart_next positive more
      refine ⟨?_, by omega, by omega, after⟩
      rcases next with same | ⟨same, -⟩ <;> omega
    · obtain rfl : start = stop := by omega
      rw [chunkRange_done (Int.le_refl _)] at cut
      cases cut
      exact done _ last

theorem chunkBlocks_room (positive : 0 < blockSize) (ranges : ∀ v ∈ bounds, v.start ≤ v.stop ∧ 0 ≤ v.start ∧ v.stop ≤ maxInt64)
    (first : minInt64 ≤ idx) (last : idx ≤ maxInt64) (cut : chunkBlocks fuel blockSize bounds idx = some blocks)
    (safe : ∀ b ∈ blocks, b.offset + blockSize ≤ maxInt64 ∧ b.idx < maxInt64) :
    (∀ v ∈ bounds, lastStart blockSize v + blockSize ≤ maxInt64) ∧ idx + (bounds.map (blockCount blockSize)).sum ≤ maxInt64 := by
  induction bounds generalizing idx blocks with
  | nil => exact ⟨fun _ never => absurd never List.not_mem_nil, by simpa using last⟩
  | cons v bounds ih =>
    simp only [chunkBlocks, Option.bind_eq_bind, Option.bind_eq_some_iff] at cut
    obtain ⟨⟨blocks', idx'⟩, head, rest, tail, same⟩ := cut
    cases same
    obtain ⟨ordered, low, high⟩ := ranges v List.mem_cons_self
    obtain ⟨fits, counted, before, after⟩ : lastStart blockSize v + blockSize ≤ maxInt64 ∧
      idx' = idx + blockCount blockSize v ∧ _ :=
      chunkRange_room positive low ordered high first last head fun b member => safe b (List.mem_append_left _ member)
    obtain ⟨fits', room⟩ := ih (fun w member => ranges w (List.mem_cons_of_mem _ member)) (by omega) after tail
      fun b member => safe b (List.mem_append_right _ member)
    rw [List.map_cons, List.sum_cons]
    exact ⟨List.forall_mem_cons.mpr ⟨fits, fits'⟩, by omega⟩

section
variable {v p : Int} {k : Nat}

theorem isLeast_two_pow (reaches : v ≤ 2 ^ (k + 1)) (half : 2 ^ k < v) :
    IsLeast {p : Int | (∃ n : Nat, p = 2 ^ n) ∧ v ≤ p} (2 ^ (k + 1)) := by
  refine ⟨⟨⟨k + 1, rfl⟩, reaches⟩, ?_⟩
  rintro _ ⟨⟨n, rfl⟩, large⟩
  by_contra less
  have smaller : n ≤ k := by
    by_contra more
    exact less (pow_le_pow_right₀ (by decide) (by omega))
  have bound : (2 : Int) ^ n ≤ 2 ^ k := pow_le_pow_right₀ (by decide) smaller
  omega

theorem exists_least_two_pow (v : Int) : ∃ p, IsLeast {p : Int | (∃ n : Nat, p = 2 ^ n) ∧ v ≤ p} p := by
  have some_ : ∃ n : Nat, v ≤ 2 ^ n := by
    refine ⟨v.toNat, ?_⟩
    have bound : v.toNat < 2 ^ v.toNat := Nat.lt_two_pow_self
    have cast : ((2 ^ v.toNat : Nat) : Int) = 2 ^ v.toNat := by push_cast; rfl
    omega
  refine ⟨2 ^ Nat.find some_, ⟨⟨_, rfl⟩, Nat.find_spec some_⟩, ?_⟩
  rintro _ ⟨⟨n, rfl⟩, large⟩
  exact pow_le_pow_right₀ (by decide) (Nat.find_min' some_ large)

/-- The loop ends at the least power of two that is large enough, or at the upper bound. -/
theorem growBlock_spec (fuel : Nat) (bound : k + 1 + fuel = 26) (half : 2 ^ k < v) :
    (v ≤ maxBlockSize → IsLeast {p : Int | (∃ n : Nat, p = 2 ^ n) ∧ v ≤ p} (growBlock v fuel (2 ^ (k + 1)))) ∧
      (maxBlockSize < v → growBlock v fuel (2 ^ (k + 1)) = maxBlockSize) := by
  have top : maxBlockSize = 2 ^ 26 := rfl
  induction fuel generalizing k with
  | zero =>
    obtain rfl : k = 25 := by omega
    exact ⟨fun reaches => isLeast_two_pow reaches half, fun _ => rfl⟩
  | succ fuel ih =>
    have below : (2 : Int) ^ (k + 1) < maxBlockSize := by
      rw [top]
      exact pow_lt_pow_right₀ (by decide) (by omega)
    rw [growBlock]
    by_cases short : (2 : Int) ^ (k + 1) < v
    · rw [if_pos ⟨short, below⟩, ← pow_succ']
      exact ih (by omega) short
    · rw [if_neg fun both => short both.1]
      exact ⟨fun _ => isLeast_two_pow (Int.not_lt.mp short) half, fun beyond => by omega⟩

theorem adaptiveBlockSize_spec (nonneg : 0 ≤ size) (some_ : 1 ≤ conns) :
    ∃ p, IsLeast {p : Int | (∃ n : Nat, p = 2 ^ n) ∧ size / conns ≤ p} p ∧
      adaptiveBlockSize size conns = max minBlockSize (min p maxBlockSize) := by
  obtain ⟨p, least⟩ := exists_least_two_pow (size / conns)
  refine ⟨p, least, ?_⟩
  have ordered : minBlockSize ≤ maxBlockSize := by decide
  rw [adaptiveBlockSize, if_neg (Int.not_lt.mpr some_), Int.tdiv_eq_ediv_of_nonneg nonneg]
  by_cases small : size / conns < minBlockSize
  · have at_most : p ≤ minBlockSize := least.2 ⟨⟨22, rfl⟩, Int.le_of_lt small⟩
    simp only [if_pos small]
    omega
  · have half : (2 : Int) ^ 21 < size / conns := Int.lt_of_lt_of_le (by decide) (Int.not_lt.mp small)
    have first : minBlockSize = 2 ^ (21 + 1) := rfl
    obtain ⟨reached, capped⟩ := growBlock_spec 4 rfl half
    simp only [if_neg small]
    rw [← first] at reached capped
    have large := least.1.2
    by_cases beyond : maxBlockSize < size / conns
    · rw [capped beyond]
      omega
    · rw [(reached (Int.not_lt.mp beyond)).unique least]
      omega

end

theorem IntervalSet.missing_zero (s : IntervalSet) : s.missing 0 = [] ∨ s.missing 0 = [⟨0, 0⟩] := by
  rw [missing]
  cases s.iv with
  | nil => exact .inl rfl
  | cons v vs =>
    rw [missingFrom, if_pos (by omega)]
    split
    · exact .inr (by rw [Int.min_eq_right (by omega)])
    · exact .inl rfl

theorem IntervalSet.missing_ordered (s : IntervalSet) {size : Int} (nonneg : 0 ≤ size) :
    ∀ v ∈ s.missing size, v.start ≤ v.stop := by
  intro v member
  cases Int.lt_or_eq_of_le nonneg with
  | inl positive => exact Int.le_of_lt ((missingFrom_canonical s.canonical positive).nonempty v member)
  | inr zero =>
    subst zero
    cases s.missing_zero with
    | inl none_ =>
      rw [none_] at member
      cases member
    | inr single =>
      rw [single] at member
      cases List.mem_singleton.mp member
      exact Int.le_refl 0

theorem IntervalSet.missing_pairwise (s : IntervalSet) {size : Int} (nonneg : 0 ≤ size) :
    (s.missing size).Pairwise fun v w => v.stop ≤ w.start := by
  cases Int.lt_or_eq_of_le nonneg with
  | inl positive => exact (missingFrom_canonical s.canonical positive).apart.imp Int.le_of_lt
  | inr zero =>
    subst zero
    cases s.missing_zero with
    | inl none_ =>
      rw [none_]
      exact .nil
    | inr single =>
      rw [single]
      exact List.pairwise_singleton _ _

/-- The blocks of a pass are non-empty, at most the block size long, in order and apart, numbered on from the start index,
and cover just what is missing, with no sum beyond the machine range, exactly when a block size past the last start of
each missing range and the start index past all blocks stay in it; the adaptive size is the least power of two that
reaches the share of a connection, within its bounds. -/
theorem rechunk_exact (seed : IntervalSet) (size blockSize idx : Int) (nonneg : 0 ≤ size) (high : size ≤ maxInt64)
    (positive : 0 < blockSize)
    (first : minInt64 ≤ idx) (last : idx ≤ maxInt64) :
    ((∃ blocks, (∀ fuel, size.toNat ≤ fuel → chunkBlocks fuel blockSize (seed.missing size) idx = some blocks) ∧
      Laid blockSize 0 size idx blocks ∧
      (∀ x, (∃ b ∈ blocks, b.Has x) ↔ (0 ≤ x ∧ x < size) ∧ ¬ seed.Covers x) ∧
      ∀ b ∈ blocks, b.offset + blockSize ≤ maxInt64 ∧ b.idx < maxInt64) ↔
      (∀ v ∈ seed.missing size, lastStart blockSize v + blockSize ≤ maxInt64) ∧
        idx + ((seed.missing size).map (blockCount blockSize)).sum ≤ maxInt64) ∧
    ∀ total conns, 0 ≤ total → 1 ≤ conns →
      ∃ p, IsLeast {p : Int | (∃ n : Nat, p = 2 ^ n) ∧ total / conns ≤ p} p ∧
        adaptiveBlockSize total conns = max minBlockSize (min p maxBlockSize) := by
  have ranges : ∀ v ∈ seed.missing size, v.start ≤ v.stop ∧ 0 ≤ v.start ∧ v.stop ≤ size :=
    fun v member => ⟨seed.missing_ordered nonneg v member, missingFrom_within v member⟩
  refine ⟨⟨?_, ?_⟩, fun total conns large some_ => adaptiveBlockSize_spec large some_⟩
  · rintro ⟨blocks, cut, -, -, safe⟩
    refine chunkBlocks_room positive (fun v member => ?_) first last (cut _ (Nat.le_refl _)) safe
    obtain ⟨ordered, low, inside⟩ := ranges v member
    exact ⟨ordered, low, Int.le_trans inside high⟩
  · rintro ⟨fits, room⟩
    obtain ⟨blocks, cut, length, safe, laid, covers⟩ := chunkBlocks_laid 0 idx positive (Int.le_refl 0) nonneg high ranges
      (seed.missing_pairwise nonneg) fits first room
    refine ⟨blocks, cut, laid, fun x => ?_, fun b member => ⟨safe b member, ?_⟩⟩
    · rw [covers, IntervalSet.covered_missing_iff]
    · obtain ⟨k, found⟩ := List.mem_iff_getElem?.mp member
      obtain ⟨inside, -⟩ := List.getElem?_eq_some_iff.mp found
      have number := laid.numbered k b found
      omega

def halfDone : IntervalSet := (IntervalSet.empty 4096 (by decide)).add 0 2048

theorem rechunk_exact_half : ∃ blocks, chunkBlocks 4096 1536 (halfDone.missing 4096) 7 = some blocks ∧
    (∀ x, (∃ b ∈ blocks, b.Has x) ↔ (0 ≤ x ∧ x < 4096) ∧ ¬ halfDone.Covers x) ∧
    adaptiveBlockSize (9 * 2 ^ 23) 8 = 2 ^ 24 := by
  obtain ⟨blocks, cut, -, covers, -⟩ := (rechunk_exact halfDone 4096 1536 7 (by decide) (by decide) (by decide) (by decide)
    (by decide)).1.mpr (by decide)
  exact ⟨blocks, cut 4096 (by decide), covers, by decide⟩

/-- A block size that the configuration admits sends the loop back below its start: the first block reaches over the end
of the file, the second begins before it, and the third covers bytes that are there. -/
theorem huge_block_wraps : ∃ blockSize, parseSize "9223372036854774784" = .ok blockSize ∧
    chunkBlocks 3 blockSize (halfDone.missing 4096) 0 =
      some [⟨0, 2048, blockSize⟩, ⟨1, -blockSize, blockSize⟩, ⟨2, 0, 4096⟩] :=
  ⟨9223372036854774784, by decide, by decide⟩

end Hfdl
