import Hfdl.Transfer.Interval

/-! One streamed attempt of a block. The body is copied through a slab and flushed
in aligned pieces; an attempt that is cut short flushes its fragment and pads with
zeros up to the next alignment boundary. The attempt is modelled as the flushes it
issues in order, since a flush that fails ends it. -/
namespace Hfdl.Transfer

structure Block where
  id : Nat
  offset : Int
  length : Int
deriving DecidableEq, Repr

def Block.stop (b : Block) : Int := b.offset + b.length

def Block.range (b : Block) : Interval := ⟨b.offset, b.stop⟩

def writeAlign : Int := 4096

theorem writeAlign_le : writeAlign ≤ (4096 : Nat) := by decide

def alignUp (off : Int) : Int := wrapInt64 ((wrapInt64 (off + writeAlign - 1)).tdiv writeAlign * writeAlign)

/-- The boundary that `alignUp` is to find. -/
def boundary (off : Int) : Int := (off + writeAlign - 1) / writeAlign * writeAlign

theorem boundary_bounds (off : Int) : off ≤ boundary off ∧ boundary off - off < 4096 ∧ boundary off % 4096 = 0 := by
  simp only [boundary, writeAlign]
  omega

theorem alignUp_eq (low : 0 ≤ off) (fits : off + 4095 ≤ maxInt64) : alignUp off = boundary off := by
  have sum : wrapInt64 (off + writeAlign - 1) = off + writeAlign - 1 := by
    rw [writeAlign]
    exact wrapInt64_eq (by omega) (by omega)
  rw [alignUp, sum, Int.tdiv_eq_ediv_of_nonneg (by rw [writeAlign]; omega), boundary, writeAlign]
  exact wrapInt64_eq (by omega) (by omega)

/-- Near the largest offset the boundary wraps around, and the padding before it passes its check. -/
theorem padding_wraps (high : stop ≤ maxInt64) (past : maxInt64 < stop + 4095) :
    0 < wrapInt64 (alignUp stop - stop) ∧ wrapInt64 (stop + wrapInt64 (alignUp stop - stop)) ≤ 0 := by
  have sum : wrapInt64 (stop + writeAlign - 1) = -(2 ^ 64 - 4095 - stop) := by
    rw [writeAlign, wrapInt64_of_over (by omega) (by simp only [maxInt64] at *; omega)]
    omega
  have wrapped : alignUp stop = -((2 ^ 64 - 4095 - stop) / 4096) * 4096 := by
    rw [alignUp, sum, writeAlign, Int.neg_tdiv, Int.tdiv_eq_ediv_of_nonneg (by simp only [maxInt64] at high; omega)]
    exact wrapInt64_of_fits (by simp only [minInt64, maxInt64] at *; omega) (by simp only [maxInt64] at *; omega)
  simp only [maxInt64] at high past
  simp only [wrapped, wrapInt64, Int.bmod]
  constructor
  · split <;> omega
  · split <;> split <;> omega

structure Flush where
  off : Int
  bytes : List UInt8
deriving DecidableEq, Repr

def Flush.stop (f : Flush) : Int := f.off + f.bytes.length

/-- How a body ends once its bytes are delivered. -/
inductive BodyEnd where
  | eof | failed
deriving DecidableEq, Repr

inductive Outcome where
  | complete | tooLong | shortBody | readError | waiting
deriving DecidableEq, Repr

/-- What an attempt does when all its writes succeed; `read` counts the consumed bytes. -/
structure Streamed where
  flushes : List Flush
  pad : Option Interval
  outcome : Outcome
  read : Nat
deriving DecidableEq, Repr

def Streamed.after (first : List Flush) (s : Streamed) : Streamed := { s with flushes := first ++ s.flushes }

/-- An aligned slab is flushed whole; otherwise its head fragment goes first, so that the rest realigns. -/
def flushFullSlab (base : Int) (buf : List UInt8) : Flush × Int × List UInt8 :=
  if base % writeAlign = 0 then (⟨base, buf⟩, wrapInt64 (base + buf.length), [])
  else
    let head := wrapInt64 (alignUp base - base)
    (⟨base, buf.take head.toNat⟩, wrapInt64 (base + head), buf.drop head.toNat)

/-- The buffered fragment, then zeros up to alignment unless they would leave the block. Where the check wraps around, the
write of the zeros would end past the largest offset and is refused. -/
def flushAbort (b : Block) (base : Int) (buf : List UInt8) : List Flush × Option Interval :=
  if buf = [] then ([], none)
  else
    let stop := wrapInt64 (base + buf.length)
    let pad := wrapInt64 (alignUp stop - stop)
    ([⟨base, buf⟩],
      if (0 < pad ∧ wrapInt64 (stop + pad) ≤ b.stop) ∧ stop + pad ≤ maxInt64 then some ⟨stop, stop + pad⟩ else none)

/-- The flush at the top of the read loop, when the slab is full. -/
def flushIfFull (slab : Nat) (base : Int) (buf : List UInt8) : List Flush × Int × List UInt8 :=
  if buf.length = slab then
    let (flush, base, buf) := flushFullSlab base buf
    ([flush], base, buf)
  else ([], base, buf)

/-- The read loop. An entry `(n, last)` of the script is one `Read` of at most `n` bytes; the end of
the body is reported with or after its final bytes, when `last` is set. With the script exhausted
the attempt waits for its next read. `buf` holds the file range from `base`. -/
def streamLoop (slab : Nat) (b : Block) (expect : Int) (fin : BodyEnd) :
    List (Nat × Bool) → List UInt8 → Int → List UInt8 → Nat → Streamed
  | [], _, base, buf, read => ⟨(flushIfFull slab base buf).1, none, .waiting, read⟩
  | (n, last) :: script, body, base, buf, read =>
    let (flushed, base, buf) := flushIfFull slab base buf
    let got := body.take (min n (slab - buf.length))
    let rest := body.drop (min n (slab - buf.length))
    let buf := buf ++ got
    let read := read + got.length
    if got ≠ [] ∧ b.stop < wrapInt64 (base + buf.length) then ⟨flushed, none, .tooLong, read⟩
    else if rest = [] ∧ last then
      match fin with
      | .failed =>
        let (aborted, pad) := flushAbort b base buf
        ⟨flushed ++ aborted, pad, .readError, read⟩
      | .eof =>
        if (read : Int) ≠ expect then
          let (aborted, pad) := flushAbort b base buf
          ⟨flushed ++ aborted, pad, .shortBody, read⟩
        else ⟨flushed ++ if buf = [] then [] else [⟨base, buf⟩], none, .complete, read⟩
    else (streamLoop slab b expect fin script rest base buf read).after flushed

/-- An attempt of the part of the block from `base` on; the bytes before it are already on disk. -/
def streamBlock (slab : Nat) (b : Block) (base : Int) (body : List UInt8) (fin : BodyEnd)
    (script : List (Nat × Bool)) : Streamed :=
  streamLoop slab b (b.stop - base) fin script body base [] 0

def TrueAt (truth : Int → UInt8) : Int → List UInt8 → Prop
  | _, [] => True
  | off, x :: xs => x = truth off ∧ TrueAt truth (off + 1) xs

/-- The flushes follow each other without a gap from `base` to `stop`. -/
def Consecutive : Int → List Flush → Int → Prop
  | base, [], stop => base = stop
  | base, f :: fs, stop => f.off = base ∧ f.bytes ≠ [] ∧ Consecutive f.stop fs stop

section
variable {truth : Int → UInt8}

theorem trueAt_append : TrueAt truth off (xs ++ ys) ↔ TrueAt truth off xs ∧ TrueAt truth (off + xs.length) ys := by
  induction xs generalizing off with
  | nil => simp [TrueAt]
  | cons x xs ih =>
    have shifted : off + 1 + xs.length = off + (x :: xs).length := by
      simp only [List.length_cons, Int.natCast_add, Int.natCast_one]
      omega
    simp only [List.cons_append, TrueAt, ih, shifted, and_assoc]

theorem TrueAt.get (true_bytes : TrueAt truth off xs) (inside : off ≤ x ∧ x < off + xs.length) :
    xs.getD (x - off).toNat 0 = truth x := by
  induction xs generalizing off with
  | nil => simp only [List.length_nil, Int.natCast_zero] at inside; omega
  | cons y ys ih =>
    simp only [List.length_cons, Int.natCast_add, Int.natCast_one] at inside
    rcases Int.lt_or_eq_of_le inside.1 with later | rfl
    · have index : (x - off).toNat = (x - (off + 1)).toNat + 1 := by omega
      rw [index, List.getD_cons_succ]
      exact ih true_bytes.2 ⟨by omega, by omega⟩
    · simpa using true_bytes.1

theorem Consecutive.append (first : Consecutive base fs middle) (second : Consecutive middle gs stop) :
    Consecutive base (fs ++ gs) stop := by
  induction fs generalizing base with
  | nil =>
    cases first
    exact second
  | cons f fs ih => exact ⟨first.1, first.2.1, ih first.2.2⟩

theorem Consecutive.le (chain : Consecutive base fs stop) : base ≤ stop := by
  induction fs generalizing base with
  | nil =>
    cases chain
    exact Int.le_refl _
  | cons f fs ih =>
    have := ih chain.2.2
    have := chain.1
    simp only [Flush.stop] at *
    omega

theorem Consecutive.inside (chain : Consecutive base fs stop) (member : f ∈ fs) : base ≤ f.off ∧ f.stop ≤ stop := by
  induction fs generalizing base with
  | nil => cases member
  | cons g fs ih =>
    have rest := chain.2.2.le
    have here := chain.1
    rcases List.mem_cons.mp member with rfl | member
    · exact ⟨by omega, rest⟩
    · have later := ih chain.2.2 member
      simp only [Flush.stop] at *
      omega

theorem TrueAt.drop (true_bytes : TrueAt truth off xs) (within : k ≤ xs.length) : TrueAt truth (off + k) (xs.drop k) := by
  rw [← List.take_append_drop k xs, trueAt_append, List.length_take_of_le within] at true_bytes
  exact true_bytes.2

theorem flushFullSlab_spec (large : writeAlign ≤ buf.length) (low : 0 ≤ base) (fits : base + buf.length ≤ maxInt64)
    (shed : flushFullSlab base buf = (f, base', buf')) :
    f.off = base ∧ f.bytes ≠ [] ∧ f.stop = base' ∧ f.bytes ++ buf' = buf := by
  have positive : 0 < buf.length := by
    simp only [writeAlign] at large
    omega
  simp only [flushFullSlab] at shed
  split at shed
  · cases shed
    exact ⟨rfl, List.length_pos_iff.mp positive, (wrapInt64_eq (by omega) fits).symm, List.append_nil _⟩
  · rename_i unaligned
    obtain ⟨above, near, next⟩ := boundary_bounds base
    rw [writeAlign] at unaligned large
    obtain ⟨head, same⟩ := Int.eq_ofNat_of_zero_le (show 0 ≤ boundary base - base by omega)
    rw [alignUp_eq low (by omega), same, wrapInt64_eq (by omega) (by omega), wrapInt64_eq (by omega) (by omega)] at shed
    cases shed
    have taken : (buf.take head).length = head := by
      rw [List.length_take]
      omega
    refine ⟨rfl, ?_, ?_, List.take_append_drop _ _⟩
    · rw [← List.length_pos_iff, Int.toNat_natCast, taken]
      omega
    · simp only [Flush.stop, Int.toNat_natCast, taken]

theorem flushIfFull_spec {slab : Nat} (large : writeAlign ≤ slab) (low : 0 ≤ base) (fits : base + buf.length ≤ maxInt64)
    (true_bytes : TrueAt truth base buf) (shed : flushIfFull slab base buf = (fs, base', buf')) :
    Consecutive base fs base' ∧ (∀ f ∈ fs, TrueAt truth f.off f.bytes) ∧ TrueAt truth base' buf' ∧
      base' + buf'.length = base + buf.length := by
  simp only [flushIfFull] at shed
  split at shed
  · rename_i full
    obtain ⟨f, base'', buf'', slab_shed⟩ : ∃ f base' buf', flushFullSlab base buf = (f, base', buf') := ⟨_, _, _, rfl⟩
    obtain ⟨here, nonempty, stop, whole⟩ := flushFullSlab_spec (by omega) low fits slab_shed
    simp only [slab_shed] at shed
    cases shed
    rw [← whole, trueAt_append] at true_bytes
    have total := congrArg List.length whole
    rw [List.length_append] at total
    refine ⟨⟨here, nonempty, stop⟩, fun f member => ?_, ?_, ?_⟩
    · rw [List.mem_singleton.mp member, here]
      exact true_bytes.1
    · rw [← stop, Flush.stop, here]
      exact true_bytes.2
    · rw [← stop, Flush.stop, here]
      omega
  · cases shed
    exact ⟨rfl, fun _ member => (List.not_mem_nil member).elim, true_bytes, rfl⟩

/-- What an attempt whose body holds the file's bytes up to `cut` does, started at `base`. -/
structure Streamed.Spec (truth : Int → UInt8) (b : Block) (base cut : Int) (s : Streamed) : Prop where
  reached : ∃ stop, Consecutive base s.flushes stop ∧ stop ≤ cut ∧ stop ≤ b.stop ∧
    (s.outcome ≠ .waiting → s.outcome ≠ .tooLong → stop = cut)
  bytes : ∀ f ∈ s.flushes, TrueAt truth f.off f.bytes
  pad : ∀ v, s.pad = some v → v = ⟨cut, alignUp cut⟩ ∧ alignUp cut ≤ b.stop

/-- Padding that is not refused ends at the boundary, inside the block. -/
theorem flushAbort_pad (low : 0 ≤ stop) (high : stop ≤ maxInt64) (pads : 0 < wrapInt64 (alignUp stop - stop))
    (checked : wrapInt64 (stop + wrapInt64 (alignUp stop - stop)) ≤ limit)
    (within : stop + wrapInt64 (alignUp stop - stop) ≤ maxInt64) :
    (⟨stop, stop + wrapInt64 (alignUp stop - stop)⟩ : Interval) = ⟨stop, alignUp stop⟩ ∧ alignUp stop ≤ limit := by
  have unwrapped := wrapInt64_eq (by omega) within
  by_cases fits : stop + 4095 ≤ maxInt64
  · obtain ⟨above, near, -⟩ := boundary_bounds stop
    have pad : wrapInt64 (alignUp stop - stop) = boundary stop - stop := by
      rw [alignUp_eq low fits]
      exact wrapInt64_eq (by omega) (by omega)
    rw [pad] at unwrapped checked ⊢
    rw [alignUp_eq low fits]
    exact ⟨congrArg _ (by omega), by omega⟩
  · obtain ⟨-, negative⟩ := padding_wraps high (by omega)
    omega

theorem flushAbort_spec (low : 0 ≤ base) (fits : base + buf.length ≤ maxInt64) (true_bytes : TrueAt truth base buf)
    (aborted : flushAbort b base buf = (fs, pad)) :
    Consecutive base fs (base + buf.length) ∧ (∀ f ∈ fs, TrueAt truth f.off f.bytes) ∧
      ∀ v, pad = some v → v = ⟨base + buf.length, alignUp (base + buf.length)⟩ ∧ alignUp (base + buf.length) ≤ b.stop := by
  simp only [flushAbort] at aborted
  split at aborted
  · rename_i nothing
    cases aborted
    subst nothing
    exact ⟨by simp [Consecutive], fun _ member => (List.not_mem_nil member).elim, fun _ none_ => nomatch none_⟩
  · rename_i something
    rw [wrapInt64_eq (by omega) fits] at aborted
    cases aborted
    refine ⟨⟨rfl, something, rfl⟩, fun f member => ?_, fun v padded => ?_⟩
    · rw [List.mem_singleton.mp member]
      exact true_bytes
    · split at padded
      · rename_i passes
        cases padded
        exact flushAbort_pad (by omega) fits passes.1.1 passes.1.2 passes.2
      · cases padded

theorem Streamed.Spec.after {s : Streamed} (spec : s.Spec truth b middle cut) (first : Consecutive base fs middle)
    (bytes : ∀ f ∈ fs, TrueAt truth f.off f.bytes) : (s.after fs).Spec truth b base cut where
  reached := by
    obtain ⟨stop, chain, ends⟩ := spec.reached
    exact ⟨stop, first.append chain, ends⟩
  bytes f member := (List.mem_append.mp member).elim (bytes f) (spec.bytes f)
  pad := spec.pad

/-- An aborted attempt: everything buffered is flushed and the padding starts at the cut. -/
theorem spec_of_abort (low : 0 ≤ base) (fits : base + buf.length ≤ maxInt64) (true_bytes : TrueAt truth base buf)
    (aborted : flushAbort b base buf = (fs, pad)) (cut : base + buf.length = stop) (inside : stop ≤ b.stop) :
    Streamed.Spec truth b base stop ⟨fs, pad, outcome, count⟩ := by
  obtain ⟨chain, bytes, padded⟩ := flushAbort_spec low fits true_bytes aborted
  rw [cut] at chain padded
  exact ⟨⟨stop, chain, Int.le_refl _, inside, fun _ _ => rfl⟩, bytes, padded⟩

/-- A complete attempt: what is left in the buffer is its last flush. -/
theorem spec_of_tail (true_bytes : TrueAt truth base buf) (cut : base + buf.length = stop) (inside : stop ≤ b.stop) :
    Streamed.Spec truth b base stop ⟨if buf = [] then [] else [⟨base, buf⟩], none, outcome, count⟩ := by
  subst cut
  refine ⟨⟨_, ?_, Int.le_refl _, inside, fun _ _ => rfl⟩, fun f member => ?_, fun _ none_ => nomatch none_⟩
  · split
    · rename_i nothing
      simp [nothing, Consecutive]
    · exact ⟨rfl, ‹_›, rfl⟩
  · split at member
    · cases member
    · rw [List.mem_singleton.mp member]
      exact true_bytes

theorem streamLoop_spec {slab : Nat} (large : writeAlign ≤ slab) (low : 0 ≤ base)
    (fits : base + buf.length + body.length ≤ maxInt64) (inside : base + buf.length ≤ b.stop)
    (buffered : TrueAt truth base buf) (coming : TrueAt truth (base + buf.length) body) :
    (streamLoop slab b expect fin script body base buf count).Spec truth b base (base + buf.length + body.length) := by
  induction script generalizing body base buf count with
  | nil =>
    obtain ⟨chain, bytes, -, total⟩ := flushIfFull_spec large low (by omega) buffered rfl
    simp only [streamLoop]
    exact ⟨⟨_, chain, by omega, by omega, fun waits => absurd rfl waits⟩, bytes, fun _ none_ => nomatch none_⟩
  | cons entry script ih =>
    obtain ⟨n, last⟩ := entry
    obtain ⟨fs, base', buf', shed⟩ : ∃ fs base' buf', flushIfFull slab base buf = (fs, base', buf') := ⟨_, _, _, rfl⟩
    obtain ⟨chain, bytes, buffered', total⟩ := flushIfFull_spec large low (by omega) buffered shed
    have low' := Int.le_trans low chain.le
    simp only [streamLoop, shed]
    have whole : body.take (min n (slab - buf'.length)) ++ body.drop (min n (slab - buf'.length)) = body :=
      List.take_append_drop _ _
    generalize body.take (min n (slab - buf'.length)) = got at whole ⊢
    generalize body.drop (min n (slab - buf'.length)) = rest at whole ⊢
    subst whole
    rw [← total, trueAt_append] at coming
    have grown : TrueAt truth base' (buf' ++ got) := trueAt_append.mpr ⟨buffered', coming.1⟩
    have lengths : base' + (buf' ++ got).length + rest.length = base + buf.length + (got ++ rest).length := by
      simp only [List.length_append, Int.natCast_add]
      omega
    rw [← lengths] at fits ⊢
    rw [wrapInt64_eq (by omega) (by omega)]
    split
    · exact ⟨⟨base', by simpa using chain, by omega, by omega, fun _ never => absurd rfl never⟩, bytes,
        fun _ none_ => nomatch none_⟩
    rename_i within
    have inside' : base' + (buf' ++ got).length ≤ b.stop := by
      by_cases nothing : got = []
      · simpa [nothing, total] using inside
      · have := not_and.mp within nothing
        omega
    split
    · rename_i ended
      have cut : base' + (buf' ++ got).length = base' + (buf' ++ got).length + rest.length := by simp [ended.1]
      cases fin with
      | failed => exact (spec_of_abort low' (by omega) grown rfl cut (cut ▸ inside')).after chain bytes
      | eof =>
        simp only
        split
        · exact (spec_of_abort low' (by omega) grown rfl cut (cut ▸ inside')).after chain bytes
        · exact (spec_of_tail grown cut (cut ▸ inside')).after chain bytes
    · have next : TrueAt truth (base' + (buf' ++ got).length) rest := by
        rw [List.length_append, Int.natCast_add, ← Int.add_assoc]
        exact coming.2
      exact (ih low' fits inside' grown next).after chain bytes

/-- Completion means that the body held every byte asked for. -/
theorem streamLoop_complete
    (done : (streamLoop slab b expect fin script body base buf count).outcome = .complete) :
    (count : Int) + body.length = expect := by
  induction script generalizing body base buf count with
  | nil => cases done
  | cons entry script ih =>
    obtain ⟨n, last⟩ := entry
    obtain ⟨fs, base', buf', shed⟩ : ∃ fs base' buf', flushIfFull slab base buf = (fs, base', buf') := ⟨_, _, _, rfl⟩
    simp only [streamLoop, shed] at done
    have whole : body.take (min n (slab - buf'.length)) ++ body.drop (min n (slab - buf'.length)) = body :=
      List.take_append_drop _ _
    generalize body.take (min n (slab - buf'.length)) = got at whole done
    generalize body.drop (min n (slab - buf'.length)) = rest at whole done
    subst whole
    simp only [List.length_append, Int.natCast_add]
    split at done
    · cases done
    split at done
    · rename_i ended
      rw [ended.1]
      cases fin with
      | failed => cases done
      | eof =>
        simp only at done
        split at done
        · cases done
        · rename_i exact_length
          simp only [Int.natCast_add, ne_eq, Decidable.not_not] at exact_length
          simpa [Int.add_assoc] using exact_length
    · have rest_length := ih done
      simp only [Int.natCast_add] at rest_length
      omega

/-- The whole attempt: consecutive flushes of true bytes up to the cut, and padding only from there. -/
theorem streamBlock_spec {slab : Nat} (large : writeAlign ≤ slab) (low : 0 ≤ base) (fits : base + body.length ≤ maxInt64)
    (starts : base ≤ b.stop) (coming : TrueAt truth base body) :
    (streamBlock slab b base body fin script).Spec truth b base (base + body.length) := by
  have spec : (streamLoop slab b (b.stop - base) fin script body base [] 0).Spec truth b base
      (base + ([] : List UInt8).length + body.length) :=
    streamLoop_spec large low (by simpa using fits) (by simpa using starts) trivial (by simpa using coming)
  simpa [streamBlock] using spec

end
end Hfdl.Transfer
