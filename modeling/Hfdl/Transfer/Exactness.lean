import Hfdl.Transfer.Writing
import Mathlib.Data.List.GetD

/-! What the two streaming attempts hand to the sink, call by call. `streamBlock` and
`fallbackStream` share their read loop: the body is read into a slab that is flushed when it
is full. They differ in how they flush, in their length check and in what follows the body. -/
namespace Hfdl.Transfer

def Flush.range (f : Flush) : Interval := ⟨f.off, f.stop⟩

theorem Consecutive.length_eq (chain : Consecutive base fs stop) : base + (fs.flatMap Flush.bytes).length = stop := by
  induction fs generalizing base with
  | nil => simpa [Consecutive] using chain
  | cons f fs ih =>
    have later := ih chain.2.2
    have here := chain.1
    simp only [List.flatMap_cons, List.length_append, Flush.stop] at later ⊢
    omega

theorem Consecutive.nonempty (chain : Consecutive base fs stop) (member : f ∈ fs) : f.bytes ≠ [] := by
  induction fs generalizing base with
  | nil => cases member
  | cons g fs ih =>
    rcases List.mem_cons.mp member with rfl | later
    · exact chain.2.1
    · exact ih chain.2.2 later

/-- The ranges follow each other without a gap from `lo` to `hi`. -/
def Tile : Int → List Interval → Int → Prop
  | lo, [], hi => lo = hi
  | lo, v :: vs, hi => v.start = lo ∧ v.start < v.stop ∧ Tile v.stop vs hi

theorem Consecutive.tile (chain : Consecutive base fs stop) : Tile base (fs.map Flush.range) stop := by
  induction fs generalizing base with
  | nil => exact chain
  | cons f fs ih =>
    refine ⟨chain.1, ?_, ih chain.2.2⟩
    have := List.length_pos_iff.mpr chain.2.1
    simp only [Flush.range, Flush.stop]
    omega

def Disk.writeAll (disk : Disk) (fs : List Flush) : Disk := fs.foldl (fun disk f => disk.write f fun _ => true) disk

theorem Consecutive.writeAll (chain : Consecutive base fs stop) (disk : Disk) (x : Int) :
    disk.writeAll fs x = if base ≤ x ∧ x < stop then (fs.flatMap Flush.bytes).getD (x - base).toNat 0 else disk x := by
  induction fs generalizing base disk with
  | nil =>
    have same : base = stop := chain
    rw [if_neg (by omega)]
    rfl
  | cons f fs ih =>
    obtain ⟨rfl, -, later⟩ := chain
    have ordered := later.le
    have start : f.off ≤ f.stop := by simp only [Flush.stop]; omega
    have step : disk.writeAll (f :: fs) = (disk.write f fun _ => true).writeAll fs := rfl
    rw [step, ih later]
    by_cases after : f.stop ≤ x ∧ x < stop
    · rw [if_pos after, if_pos (by omega), List.flatMap_cons,
        List.getD_append_right _ _ _ _ (by simp only [Flush.stop] at after; omega)]
      congr 1
      simp only [Flush.stop]
      omega
    · rw [if_neg after, Disk.write]
      by_cases here : f.off ≤ x ∧ x < f.stop
      · rw [if_pos ⟨here, rfl⟩, if_pos (by omega), List.flatMap_cons,
          List.getD_append _ _ _ _ (by simp only [Flush.stop] at here; omega)]
      · rw [if_neg (fun both => here both.1), if_neg (by omega)]

namespace Calls

inductive WriteKind where
  | writeAt | writeUnaligned
deriving DecidableEq, Repr

structure Call extends Flush where
  kind : WriteKind
deriving DecidableEq, Repr

/-- The calls of an attempt in order, the ranges it recorded as flushed, and whether a slice beyond a slab has stopped it. -/
structure Record where
  calls : List Call
  committed : List Interval
  panicked : Bool
deriving DecidableEq, Repr

def Record.empty : Record := ⟨[], [], false⟩

def Record.panic (r : Record) : Record := { r with panicked := true }

/-- Whether `seqWait` and the sink return nil, by the number of calls made before. -/
structure Sink where
  seqWait : Nat → Bool
  write : Nat → Bool

def Record.write (sink : Sink) (r : Record) (kind : WriteKind) (bytes : List UInt8) (off : Int) : Except Record Record :=
  let called := { r with calls := r.calls ++ [⟨⟨off, bytes⟩, kind⟩] }
  if sink.write r.calls.length then .ok called else .error called

def Record.commit (r : Record) (off : Int) (n : Nat) : Record :=
  { r with committed := r.committed ++ [⟨off, wrapInt64 (off + n)⟩] }

def Record.gated (sink : Sink) (r : Record) (kind : WriteKind) (bytes : List UInt8) (off : Int) : Except Record Record :=
  if sink.seqWait r.calls.length then do
    let r ← r.write sink kind bytes off
    .ok (r.commit off bytes.length)
  else .error r

def gatedWriteBuf (sink : Sink) (r : Record) (bytes : List UInt8) (off : Int) : Except Record Record :=
  r.gated sink .writeAt bytes off

def gatedWrite (sink : Sink) (r : Record) (bytes : List UInt8) (off : Int) : Except Record Record :=
  if bytes = [] then .ok r else r.gated sink .writeUnaligned bytes off

/-- An attempt in its read loop: `buf` holds the file range from `base`, `read` counts the consumed bytes. -/
structure Pending where
  base : Int
  buf : List UInt8
  read : Int
  record : Record
deriving DecidableEq, Repr

def Pending.take (p : Pending) (got : List UInt8) : Pending :=
  { p with buf := p.buf ++ got, read := wrapInt64 (p.read + got.length) }

/-- How an attempt ended: with a verdict on its body, or at a write that failed. -/
inductive Ended where
  | streamed (outcome : Outcome)
  | writeError
deriving DecidableEq, Repr

structure Attempt where
  record : Record
  ended : Ended
  read : Int
deriving DecidableEq, Repr

/-- The read loop, with the script of `streamLoop`. -/
def readLoop (slab : Nat) (flush : Pending → Except Record Pending) (overlong : Pending → Bool) (finish : Pending → Attempt) :
    List (Nat × Bool) → List UInt8 → Pending → Attempt
  | [], _, p =>
    match if p.buf.length = slab then flush p else .ok p with
    | .error r => ⟨r, .writeError, p.read⟩
    | .ok p => ⟨p.record, .streamed .waiting, p.read⟩
  | (n, last) :: script, body, p =>
    match if p.buf.length = slab then flush p else .ok p with
    | .error r => ⟨r, .writeError, p.read⟩
    | .ok p =>
      let got := body.take (min n (slab - p.buf.length))
      let rest := body.drop (min n (slab - p.buf.length))
      let p := p.take got
      if got ≠ [] ∧ overlong p then ⟨p.record, .streamed .tooLong, p.read⟩
      else if rest = [] ∧ last then finish p
      else readLoop slab flush overlong finish script rest p

def flushFullSlab (sink : Sink) (slab : Nat) (p : Pending) : Except Record Pending :=
  if p.base % writeAlign = 0 then do
    let r ← gatedWriteBuf sink p.record p.buf p.base
    .ok { p with base := wrapInt64 (p.base + p.buf.length), buf := [], record := r }
  else
    let head := wrapInt64 (alignUp p.base - p.base)
    if 0 ≤ head ∧ head ≤ slab then do
      let r ← gatedWrite sink p.record (p.buf.take head.toNat) p.base
      .ok { p with base := wrapInt64 (p.base + head), buf := p.buf.drop head.toNat, record := r }
    else .error p.record.panic

/-- Failures here are logged and the attempt returns its own cause. -/
def flushAbort (sink : Sink) (slab : Nat) (b : Block) (p : Pending) : Record :=
  if p.buf = [] then p.record
  else
    match gatedWrite sink p.record p.buf p.base with
    | .error r => r
    | .ok r =>
      let stop := wrapInt64 (p.base + p.buf.length)
      let pad := wrapInt64 (alignUp stop - stop)
      if 0 < pad ∧ wrapInt64 (stop + pad) ≤ b.stop then
        if slab < pad then r.panic
        else
          match r.write sink .writeUnaligned (List.replicate pad.toNat 0) stop with
          | .error r => r
          | .ok r => r
      else r

/-- What follows the body: the length check and the tail fragment, or the flush of an aborted body. -/
def finishBlock (sink : Sink) (slab : Nat) (b : Block) (expect : Int) (fin : BodyEnd) (p : Pending) : Attempt :=
  match fin with
  | .failed => ⟨flushAbort sink slab b p, .streamed .readError, p.read⟩
  | .eof =>
    if p.read ≠ expect then ⟨flushAbort sink slab b p, .streamed .shortBody, p.read⟩
    else
      match if 0 < p.buf.length then gatedWrite sink p.record p.buf p.base else .ok p.record with
      | .error r => ⟨r, .writeError, p.read⟩
      | .ok r => ⟨r, .streamed .complete, p.read⟩

def streamFrom (sink : Sink) (slab : Nat) (b : Block) (base : Int) (fin : BodyEnd) (script : List (Nat × Bool))
    (body : List UInt8) : Attempt :=
  readLoop slab (flushFullSlab sink slab) (fun p => b.stop < wrapInt64 (p.base + p.buf.length))
    (finishBlock sink slab b (b.stop - base) fin) script body ⟨base, [], 0, .empty⟩

/-- A block that is attempted again in a sequential run discards its committed part from the body. -/
def streamBlock (sink : Sink) (slab : Nat) (sequential : Bool) (set : IntervalSet) (b : Block) (fin : BodyEnd)
    (script : List (Nat × Bool)) (body : List UInt8) : Attempt :=
  let skip := if sequential then set.prefixCovered b.offset b.stop else 0
  if 0 < skip then
    if b.length ≤ skip then ⟨.empty, .streamed .complete, b.length⟩
    else if body.length < skip then ⟨.empty, .streamed .readError, 0⟩
    else streamFrom sink slab b (b.offset + skip) fin script (body.drop skip.toNat)
  else streamFrom sink slab b b.offset fin script body

/-- The flush of the fallback, which records nothing. -/
def flush (sink : Sink) (slab : Nat) (final : Bool) (p : Pending) : Except Record Pending :=
  if p.buf = [] then .ok p
  else do
    let kind := if ¬ final ∧ p.base % writeAlign = 0 ∧ p.buf.length = slab then WriteKind.writeAt else .writeUnaligned
    let r ← p.record.write sink kind p.buf p.base
    .ok { p with base := wrapInt64 (p.base + p.buf.length), buf := [], record := r }

def finishFallback (sink : Sink) (slab : Nat) (size : Int) (fin : BodyEnd) (p : Pending) : Attempt :=
  match fin with
  | .failed => ⟨p.record, .streamed .readError, p.read⟩
  | .eof =>
    match flush sink slab true p with
    | .error r => ⟨r, .writeError, p.read⟩
    | .ok flushed => ⟨flushed.record, .streamed (if p.read ≠ size then .shortBody else .complete), p.read⟩

def fallbackStream (sink : Sink) (slab : Nat) (size : Int) (fin : BodyEnd) (script : List (Nat × Bool)) (body : List UInt8) :
    Attempt :=
  readLoop slab (flush sink slab false) (fun p => size < p.read) (finishFallback sink slab size fin)
    script body ⟨0, [], 0, .empty⟩

/-- A computation whose result satisfies `ok`, or that stops with a record that satisfies `stopped`. -/
def Yields (ok : α → Prop) (stopped : Record → Prop) : Except Record α → Prop
  | .ok a => ok a
  | .error r => stopped r

theorem Yields.bind {x : Except Record α} {f : α → Except Record β} (first : Yields ok stopped x)
    (second : ∀ a, ok a → Yields ok' stopped (f a)) : Yields ok' stopped (x >>= f) := by
  cases x with
  | error r => exact first
  | ok a => exact second a first

theorem Yields.imp {x : Except Record α} (yields : Yields ok stopped x) (result : ∀ a, ok a → ok' a)
    (stop : ∀ r, stopped r → stopped' r) : Yields ok' stopped' x := by
  cases x with
  | error r => exact stop r yields
  | ok a => exact result a yields

/-- A whole slab goes to an aligned offset. -/
def Call.Full (slab : Nat) (c : Call) : Prop := c.kind = .writeAt → c.off % writeAlign = 0 ∧ c.bytes.length = slab

/-- Every call stays in the range, `WriteAt` is called with whole slabs at aligned offsets only, and no slice fails. -/
def Record.Within (slab : Nat) (start limit : Int) (r : Record) : Prop :=
  r.panicked = false ∧ ∀ c ∈ r.calls, start ≤ c.off ∧ c.stop ≤ limit ∧ c.Full slab

/-- Where the buffer of an attempt at the range can start. -/
def Reach (slab : Nat) (start limit base : Int) : Prop :=
  base = start ∨ base % writeAlign = 0 ∧ start + slab ≤ limit ∧ boundary start ≤ base ∧ base ≤ limit ∧
    (slab : Int) ∣ base - boundary start

/-- The last of these places. -/
def lastBase (slab : Nat) (start limit : Int) : Int :=
  if start + slab ≤ limit then boundary start + slab * ((limit - boundary start) / slab) else start

/-- A range of a file, and slabs of whole pages. -/
structure Valid (slab : Nat) (start limit : Int) : Prop where
  positive : 0 < slab
  multiple : slab % 4096 = 0
  low : 0 ≤ start
  machine : limit ≤ maxInt64

theorem Valid.large (valid : Valid slab start limit) : 4096 ≤ slab := by
  have := valid.positive
  have := valid.multiple
  omega

theorem Reach.le_lastBase (valid : Valid slab start limit) (reach : Reach slab start limit base) :
    base ≤ lastBase slab start limit := by
  have positive : (0 : Int) < slab := by exact_mod_cast valid.positive
  have large := valid.large
  obtain ⟨above, near, -⟩ := boundary_bounds start
  unfold lastBase
  split
  · rename_i long
    have quotient : 0 ≤ (limit - boundary start) / slab := Int.ediv_nonneg (by omega) (Int.le_of_lt positive)
    have product : 0 ≤ slab * ((limit - boundary start) / slab) := Int.mul_nonneg (Int.le_of_lt positive) quotient
    rcases reach with rfl | ⟨-, -, -, inside, k, steps⟩
    · omega
    · have fewer : k ≤ (limit - boundary start) / slab :=
        Int.le_ediv_of_mul_le positive (by rw [Int.mul_comm, ← steps]; omega)
      have := Int.mul_le_mul_of_nonneg_left fewer (Int.le_of_lt positive)
      omega
  · rename_i short
    rcases reach with rfl | ⟨-, long, -⟩
    · exact Int.le_refl _
    · exact absurd long short

/-- The loop invariant: what was consumed is on disk from `start` on, up to the buffer. -/
structure Laid (slab : Nat) (start limit : Int) (seen : List UInt8) (p : Pending) : Prop where
  chain : Consecutive start (p.record.calls.map Call.toFlush) p.base
  whole : p.record.calls.flatMap (fun c => c.bytes) ++ p.buf = seen
  read : p.read = seen.length
  bound : seen ≠ [] → start + seen.length ≤ limit
  full : ∀ c ∈ p.record.calls, c.Full slab
  sound : p.record.panicked = false

/-- The attempt is in its loop: its buffer is in place and no larger than a slab. -/
structure Held (slab : Nat) (start limit : Int) (p : Pending) : Prop where
  reach : Reach slab start limit p.base
  filled : p.buf.length ≤ slab

section
variable {slab : Nat} {start limit : Int} {seen : List UInt8} {p : Pending}

theorem laid_start (start limit : Int) : Laid slab start limit [] ⟨start, [], 0, .empty⟩ where
  chain := rfl
  whole := rfl
  read := rfl
  bound never := absurd rfl never
  full _ member := absurd member (by simp [Record.empty])
  sound := rfl

theorem Laid.reached (laid : Laid slab start limit seen p) : p.base + p.buf.length = start + seen.length := by
  have stop := laid.chain.length_eq
  rw [List.flatMap_map] at stop
  rw [← laid.whole, List.length_append]
  omega

theorem Laid.seen_some (laid : Laid slab start limit seen p) (nonempty : p.buf ≠ []) : seen ≠ [] := by
  rw [← laid.whole]
  exact fun nothing => nonempty (List.append_eq_nil_iff.mp nothing).2

theorem Laid.fits (laid : Laid slab start limit seen p) (held : Held slab start limit p) (valid : Valid slab start limit)
    (room : lastBase slab start limit + slab ≤ maxInt64)
    {n : Int} (low : 0 ≤ n) (high : n ≤ slab) : wrapInt64 (p.base + n) = p.base + n := by
  have before := held.reach.le_lastBase valid
  have from_ := laid.chain.le
  have start_ := valid.low
  exact wrapInt64_eq (by omega) (by omega)

theorem Laid.within (laid : Laid slab start limit seen p) : p.record.Within slab start limit := by
  refine ⟨laid.sound, fun c member => ?_⟩
  have inside := laid.chain.inside (List.mem_map_of_mem member)
  have some_ : seen ≠ [] := by
    have nonempty : c.bytes ≠ [] := laid.chain.nonempty (List.mem_map_of_mem member)
    intro nothing
    have parts := laid.whole
    rw [nothing, List.append_eq_nil_iff, List.flatMap_eq_nil_iff] at parts
    exact nonempty (parts.1 c member)
  have reached := laid.reached
  have bound := laid.bound some_
  exact ⟨inside.1, by omega, laid.full c member⟩

theorem Laid.push (laid : Laid slab start limit seen p) (split : bytes ++ rest = p.buf) (nonempty : bytes ≠ [])
    (full : kind = .writeAt → p.base % writeAlign = 0 ∧ bytes.length = slab)
    (called : r.calls = p.record.calls ++ [⟨⟨p.base, bytes⟩, kind⟩]) (sound : r.panicked = false) :
    Laid slab start limit seen { p with base := p.base + bytes.length, buf := rest, record := r } where
  chain := by
    rw [called, List.map_append]
    exact laid.chain.append ⟨rfl, nonempty, rfl⟩
  whole := by
    simp only [called, List.flatMap_append, List.flatMap_singleton, List.append_assoc, split]
    exact laid.whole
  read := laid.read
  bound := laid.bound
  full c member := by
    rw [called] at member
    rcases List.mem_append.mp member with before | here
    · exact laid.full c before
    · rw [List.mem_singleton.mp here]
      exact full
  sound := sound

theorem Laid.take (laid : Laid slab start limit seen p) (valid : Valid slab start limit) (got : List UInt8)
    (fits : got ≠ [] → start + (seen ++ got).length ≤ limit) : Laid slab start limit (seen ++ got) (p.take got) := by
  have bound : seen ++ got ≠ [] → start + (seen ++ got).length ≤ limit := by
    intro some_
    by_cases nothing : got = []
    · subst nothing
      rw [List.append_nil] at some_ ⊢
      exact laid.bound some_
    · exact fits nothing
  have short : ((seen ++ got).length : Int) ≤ maxInt64 := by
    have low := valid.low
    have machine := valid.machine
    by_cases nothing : seen ++ got = []
    · simp only [nothing, List.length_nil, maxInt64]
      omega
    · have := bound nothing
      omega
  refine ⟨laid.chain, ?_, ?_, bound, laid.full, laid.sound⟩
  · rw [Pending.take, ← List.append_assoc, laid.whole]
  · show wrapInt64 (p.read + got.length) = _
    rw [laid.read, ← Int.natCast_add, ← List.length_append, wrapInt64_eq (by omega) short]

/-- The rule of the read loop: what holds between two reads, and what the ends make of it. -/
theorem readLoop_rule {flush : Pending → Except Record Pending} {overlong : Pending → Bool} {finish : Pending → Attempt}
    {I : List UInt8 → Pending → Prop} {Q : Attempt → Prop} {whole : List UInt8}
    (flushes : ∀ seen p, I seen p → p.buf.length = slab → Yields (I seen) (fun r => Q ⟨r, .writeError, p.read⟩) (flush p))
    (grows : ∀ seen p got, I seen p → got.length ≤ slab - p.buf.length → (got ≠ [] → overlong (p.take got) = false) →
      I (seen ++ got) (p.take got))
    (stops : ∀ seen p got outcome, I seen p → outcome = .tooLong ∨ outcome = .waiting →
      Q ⟨p.record, .streamed outcome, (p.take got).read⟩ ∧ Q ⟨p.record, .streamed outcome, p.read⟩)
    (finishes : ∀ p, I whole p → Q (finish p)) {body : List UInt8} (script : List (Nat × Bool)) (inv : I seen p)
    (parts : seen ++ body = whole) :
    Q (readLoop slab flush overlong finish script body p) := by
  have top (seen p) (inv : I seen p) :
      Yields (I seen) (fun r => Q ⟨r, .writeError, p.read⟩) (if p.buf.length = slab then flush p else .ok p) := by
    split
    · exact flushes seen p inv ‹_›
    · exact inv
  induction script generalizing seen body p with
  | nil =>
    have begun := top seen p inv
    rw [readLoop]
    split <;> rename_i same <;> rw [same] at begun
    · exact begun
    · exact (stops seen _ [] .waiting begun (.inr rfl)).2
  | cons entry script ih =>
    obtain ⟨n, last⟩ := entry
    have begun := top seen p inv
    rw [readLoop]
    split <;> rename_i same <;> rw [same] at begun
    · exact begun
    rename_i p
    have cut : body.take (min n (slab - p.buf.length)) ++ body.drop (min n (slab - p.buf.length)) = body :=
      List.take_append_drop _ _
    have room : (body.take (min n (slab - p.buf.length))).length ≤ slab - p.buf.length := by
      rw [List.length_take]
      omega
    simp only
    generalize body.take (min n (slab - p.buf.length)) = got at cut room ⊢
    generalize body.drop (min n (slab - p.buf.length)) = rest at cut ⊢
    subst cut
    rw [← List.append_assoc] at parts
    split
    · exact (stops seen p got .tooLong begun (.inl rfl)).1
    rename_i within
    have grown : I (seen ++ got) (p.take got) := by
      apply grows seen p got begun room
      intro some_
      exact Bool.eq_false_iff.mpr fun long => within ⟨some_, long⟩
    split
    · rename_i ended
      rw [ended.1, List.append_nil] at parts
      exact finishes _ (parts ▸ grown)
    · exact ih grown parts

/-- The pending attempt after a write of the first part of its buffer. -/
def Pending.shed (p : Pending) (bytes rest : List UInt8) (r : Record) : Pending :=
  { p with base := p.base + bytes.length, buf := rest, record := r }

theorem write_yields (sink : Sink) (laid : Laid slab start limit seen p) (split : bytes ++ rest = p.buf) (nonempty : bytes ≠ [])
    (full : kind = .writeAt → p.base % writeAlign = 0 ∧ bytes.length = slab) :
    Yields (fun r => Laid slab start limit seen (p.shed bytes rest r) ∧ r.committed = p.record.committed ∧
        r.calls = p.record.calls ++ [⟨⟨p.base, bytes⟩, kind⟩])
      (Record.Within slab start limit) (p.record.write sink kind bytes p.base) := by
  have pushed : Laid slab start limit seen
      (p.shed bytes rest { p.record with calls := p.record.calls ++ [⟨⟨p.base, bytes⟩, kind⟩] }) :=
    laid.push split nonempty full rfl laid.sound
  simp only [Record.write]
  split
  · exact ⟨pushed, rfl, rfl⟩
  · exact pushed.within

/-- The invariant of a block's attempt, which records every range it writes. -/
structure Kept (slab : Nat) (start limit : Int) (seen : List UInt8) (p : Pending) : Prop where
  laid : Laid slab start limit seen p
  recorded : p.record.committed = p.record.calls.map fun c => c.range

section
variable (valid : Valid slab start limit) (room : lastBase slab start limit + slab ≤ maxInt64)
include valid room

theorem gated_yields (sink : Sink) (kept : Kept slab start limit seen p) (held : Held slab start limit p)
    (split : bytes ++ rest = p.buf)
    (nonempty : bytes ≠ []) (full : kind = .writeAt → p.base % writeAlign = 0 ∧ bytes.length = slab) :
    Yields (fun r => Kept slab start limit seen (p.shed bytes rest r)) (Record.Within slab start limit)
      (p.record.gated sink kind bytes p.base) := by
  have short : (bytes.length : Int) ≤ slab := by
    have := held.filled
    rw [← split, List.length_append] at this
    omega
  simp only [Record.gated]
  split
  · apply (write_yields sink kept.laid split nonempty full).bind
    rintro r ⟨laid, committed, called⟩
    refine ⟨⟨laid.chain, laid.whole, laid.read, laid.bound, laid.full, laid.sound⟩, ?_⟩
    simp only [Pending.shed, Record.commit, committed, called, kept.recorded, List.map_append,
      kept.laid.fits held valid room (Int.natCast_nonneg _) short]
    rfl
  · exact kept.laid.within

theorem gatedWrite_yields (sink : Sink) (kept : Kept slab start limit seen p) (held : Held slab start limit p)
    (split : bytes ++ rest = p.buf)
    (nonempty : bytes ≠ []) :
    Yields (fun r => Kept slab start limit seen (p.shed bytes rest r)) (Record.Within slab start limit)
      (gatedWrite sink p.record bytes p.base) := by
  rw [gatedWrite, if_neg nonempty]
  exact gated_yields valid room sink kept held split nonempty (by simp)

theorem Held.next (laid : Laid slab start limit seen p) (held : Held slab start limit p) (filled : p.buf.length = slab)
    (aligned : p.base % writeAlign = 0) : Reach slab start limit (p.base + slab) := by
  have large := valid.large
  have multiple := valid.multiple
  have some_ := laid.seen_some (List.length_pos_iff.mp (by omega))
  have bound := laid.bound some_
  have reached := laid.reached
  have from_ := laid.chain.le
  rw [filled] at reached
  rw [writeAlign] at aligned
  rcases held.reach with rfl | ⟨-, long, above, inside, k, steps⟩
  · have same : boundary p.base = p.base := by
      simp only [boundary, writeAlign]
      omega
    rw [Reach, same, writeAlign]
    exact .inr ⟨by omega, by omega, by omega, by omega, 1, by omega⟩
  · refine .inr ⟨by rw [writeAlign]; omega, long, by omega, by omega, k + 1, ?_⟩
    rw [Int.mul_add, Int.mul_one, ← steps]
    omega

end

section
variable (valid : Valid slab start limit) (room : lastBase slab start limit + slab ≤ maxInt64)
include valid room

theorem flushFullSlab_yields (sink : Sink) (kept : Kept slab start limit seen p) (held : Held slab start limit p)
    (filled : p.buf.length = slab) :
    Yields (fun q => Kept slab start limit seen q ∧ Held slab start limit q) (Record.Within slab start limit)
    (flushFullSlab sink slab p) := by
  have large := valid.large
  have some_ : p.buf ≠ [] := List.length_pos_iff.mp (by omega)
  rw [flushFullSlab]
  split
  · rename_i aligned
    apply (gated_yields valid room sink kept held (List.append_nil _) some_ fun _ => ⟨aligned, filled⟩).bind
    intro r kept'
    rw [Pending.shed, filled] at kept'
    simp only [Yields, filled, kept.laid.fits held valid room (Int.natCast_nonneg _) (Int.le_refl _)]
    exact ⟨kept', held.next valid room kept.laid filled aligned, Nat.zero_le _⟩
  · rename_i unaligned
    have low := valid.low
    have machine := valid.machine
    have bound := kept.laid.bound (kept.laid.seen_some some_)
    have reached := kept.laid.reached
    rw [filled] at reached
    -- only the place at the start of the range is unaligned
    have first : p.base = start := held.reach.resolve_right fun other => unaligned other.1
    rw [writeAlign] at unaligned
    rw [first, alignUp_eq low (by omega)]
    obtain ⟨above, near, even⟩ := boundary_bounds start
    obtain ⟨head, same⟩ := Int.eq_ofNat_of_zero_le (show 0 ≤ boundary start - start by omega)
    have step : wrapInt64 (boundary start - start) = head := by
      rw [same]
      exact wrapInt64_eq (by omega) (by simp only [maxInt64]; omega)
    simp only [step, Int.toNat_natCast]
    rw [if_pos (by omega)]
    have length : (p.buf.take head).length = head := by
      rw [List.length_take]
      omega
    have nonempty : p.buf.take head ≠ [] := List.length_pos_iff.mp (by omega)
    have onward := gatedWrite_yields valid room sink kept held (List.take_append_drop head _) nonempty
    rw [first] at onward
    apply onward.bind
    intro r kept'
    have moved := kept.laid.fits held valid room (Int.natCast_nonneg head) (by omega)
    rw [first] at moved
    rw [Pending.shed, length, first] at kept'
    simp only [Yields, moved]
    have reach : Reach slab start limit (start + head) := by
      rw [show start + head = boundary start by omega]
      exact .inr ⟨even, by omega, Int.le_refl _, by omega, 0, by omega⟩
    refine ⟨kept', reach, ?_⟩
    rw [List.length_drop]
    omega

theorem flushAbort_within (sink : Sink) (b : Block) (ends : limit = b.stop) (pads : start < limit → limit + 4095 ≤ maxInt64)
    (kept : Kept slab start limit seen p) (held : Held slab start limit p) :
    (flushAbort sink slab b p).Within slab start limit := by
  rw [flushAbort]
  split
  · exact kept.laid.within
  rename_i nonempty
  have flushed := gatedWrite_yields valid room sink kept held (List.append_nil _) nonempty
  split <;> rename_i r same <;> rw [same] at flushed
  · exact flushed
  have before := flushed.laid.within
  have reached := kept.laid.reached
  have bound := kept.laid.bound (kept.laid.seen_some nonempty)
  have from_ := kept.laid.chain.le
  have low := valid.low
  have large := valid.large
  have some_ := List.length_pos_iff.mpr nonempty
  have fits := pads (by omega)
  have sum : wrapInt64 (p.base + p.buf.length) = p.base + p.buf.length :=
    kept.laid.fits held valid room (Int.natCast_nonneg _) (by exact_mod_cast held.filled)
  generalize stop_eq : p.base + p.buf.length = stop at sum reached
  obtain ⟨above, near, -⟩ := boundary_bounds stop
  have step : wrapInt64 (boundary stop - stop) = boundary stop - stop :=
    wrapInt64_eq (by omega) (by simp only [maxInt64]; omega)
  have last : wrapInt64 (stop + (boundary stop - stop)) = stop + (boundary stop - stop) :=
    wrapInt64_eq (by omega) (by omega)
  simp only [sum, alignUp_eq (show 0 ≤ stop by omega) (by omega), step, last]
  split
  · rename_i inside
    rw [if_neg (by omega)]
    have padded : Record.Within slab start limit { r with calls := r.calls ++ [⟨⟨stop,
        List.replicate (boundary stop - stop).toNat 0⟩, .writeUnaligned⟩] } := by
      refine ⟨before.1, fun c member => ?_⟩
      rcases List.mem_append.mp member with earlier | here
      · exact before.2 c earlier
      · rw [List.mem_singleton.mp here]
        refine ⟨by show start ≤ stop; omega, ?_, by simp [Call.Full]⟩
        simp only [Flush.stop, List.length_replicate]
        omega
    simp only [Record.write]
    split <;> rename_i written <;> split at written <;> cases written <;> exact padded
  · exact before

end

/-- What an attempt at the range does: its calls stay inside, and when it returns nil they lay the body over the range. -/
structure Attempt.Exact (slab : Nat) (start limit : Int) (body : List UInt8) (a : Attempt) : Prop where
  within : a.record.Within slab start limit
  laid : a.ended = .streamed .complete →
    Consecutive start (a.record.calls.map Call.toFlush) limit ∧ a.record.calls.flatMap (fun c => c.bytes) = body

structure Attempt.Recorded (slab : Nat) (start limit : Int) (body : List UInt8) (a : Attempt) : Prop
    extends a.Exact slab start limit body where
  recorded : a.ended = .streamed .complete → a.record.committed = a.record.calls.map fun c => c.range

theorem Attempt.Recorded.of_unfinished {e : Ended} (within : r.Within slab start limit) (unfinished : e ≠ .streamed .complete) :
    Attempt.Recorded slab start limit body ⟨r, e, count⟩ :=
  ⟨⟨within, fun done => absurd done unfinished⟩, fun done => absurd done unfinished⟩

theorem Laid.done (laid : Laid slab start limit seen p) (flushed : p.buf = []) (length : p.read = limit - start) :
    Consecutive start (p.record.calls.map Call.toFlush) limit ∧ p.record.calls.flatMap (fun c => c.bytes) = seen := by
  have reached := laid.reached
  have chain := laid.chain
  have whole := laid.whole
  have read := laid.read
  rw [flushed] at reached whole
  have stop : p.base = limit := by
    rw [List.length_nil] at reached
    omega
  rw [stop] at chain
  rw [List.append_nil] at whole
  exact ⟨chain, whole⟩

section
variable {b : Block} (valid : Valid slab start b.stop) (room : lastBase slab start b.stop + slab ≤ maxInt64)
  (pads : start < b.stop → b.stop + 4095 ≤ maxInt64)
include valid room pads

theorem finishBlock_recorded (sink : Sink) (fin : BodyEnd) (kept : Kept slab start b.stop seen p)
    (held : Held slab start b.stop p) :
    (finishBlock sink slab b (b.stop - start) fin p).Recorded slab start b.stop seen := by
  cases fin with
  | failed => exact .of_unfinished (flushAbort_within valid room sink b rfl pads kept held) (by simp)
  | eof =>
    rw [finishBlock]
    split
    · exact .of_unfinished (flushAbort_within valid room sink b rfl pads kept held) (by simp)
    rename_i length
    have tail : Yields (fun r => Kept slab start b.stop seen (p.shed p.buf [] r)) (Record.Within slab start b.stop)
        (if 0 < p.buf.length then gatedWrite sink p.record p.buf p.base else .ok p.record) := by
      split
      · exact gatedWrite_yields valid room sink kept held (List.append_nil _) (List.length_pos_iff.mp ‹_›)
      · rename_i empty
        have nothing : p.buf = [] := List.length_eq_zero_iff.mp (by omega)
        have same : p.shed p.buf [] p.record = p := by
          cases p
          simp_all [Pending.shed]
        rw [Yields, same]
        exact kept
    split <;> rename_i same <;> rw [same] at tail
    · exact .of_unfinished tail (by simp)
    · have done := tail.laid.done rfl (not_not.mp length)
      exact ⟨⟨tail.laid.within, fun _ => done⟩, fun _ => tail.recorded⟩

theorem streamFrom_recorded (sink : Sink) (fin : BodyEnd) (script : List (Nat × Bool)) (body : List UInt8) :
    (streamFrom sink slab b start fin script body).Recorded slab start b.stop body := by
  have flushes (seen : List UInt8) (p : Pending) (inv : Kept slab start b.stop seen p ∧ Held slab start b.stop p)
    (filled : p.buf.length = slab) :
      Yields (fun q => Kept slab start b.stop seen q ∧ Held slab start b.stop q)
        (fun r => Attempt.Recorded slab start b.stop body ⟨r, .writeError, p.read⟩) (flushFullSlab sink slab p) :=
    (flushFullSlab_yields valid room sink inv.1 inv.2 filled).imp (fun _ kept => kept) fun r within =>
      .of_unfinished within (by simp)
  apply readLoop_rule flushes _ _ (fun p inv => finishBlock_recorded valid room pads sink fin inv.1 inv.2) script
    ⟨⟨laid_start start b.stop, rfl⟩, .inl rfl, Nat.zero_le _⟩ (List.nil_append body)
  · rintro seen p got ⟨kept, held⟩ less short
    have filled := held.filled
    have long : ((p.buf ++ got).length : Int) ≤ slab := by
      rw [List.length_append]
      omega
    have sum := kept.laid.fits held valid room (Int.natCast_nonneg _) long
    refine ⟨⟨kept.laid.take valid got fun some_ => ?_, kept.recorded⟩, held.reach, by exact_mod_cast long⟩
    have within := of_decide_eq_false (short some_)
    have reached := kept.laid.reached
    simp only [Pending.take, List.length_append, Int.natCast_add] at *
    omega
  · rintro seen p got outcome ⟨kept, -⟩ unfinished
    constructor <;> refine Attempt.Recorded.of_unfinished kept.laid.within ?_ <;> rintro ⟨⟩ <;> simp at unfinished

end

section
variable (valid : Valid slab 0 size) (room : lastBase slab 0 size + slab ≤ maxInt64)
include valid room

theorem flush_yields (sink : Sink) (final : Bool) (laid : Laid slab 0 size seen p) (held : Held slab 0 size p) :
    Yields (fun q => Laid slab 0 size seen q ∧ q.buf = [] ∧ q.read = p.read ∧ (q.base = p.base ∨ q.base = p.base + p.buf.length))
      (Record.Within slab 0 size) (flush sink slab final p) := by
  have sum : wrapInt64 (p.base + p.buf.length) = p.base + p.buf.length :=
    laid.fits held valid room (Int.natCast_nonneg _) (by exact_mod_cast held.filled)
  rw [flush, sum]
  split
  · exact ⟨laid, ‹_›, rfl, .inl rfl⟩
  · rename_i nonempty
    apply (write_yields sink laid (List.append_nil _) nonempty _).bind
    · rintro r ⟨laid, -, -⟩
      exact ⟨laid, rfl, rfl, .inr rfl⟩
    · intro whole
      split at whole
      · rename_i full
        exact full.2
      · cases whole

theorem finishFallback_exact (sink : Sink) (fin : BodyEnd) (laid : Laid slab 0 size seen p) (held : Held slab 0 size p) :
    (finishFallback sink slab size fin p).Exact slab 0 size seen := by
  cases fin with
  | failed => exact ⟨laid.within, by simp [finishFallback]⟩
  | eof =>
    have flushed := flush_yields valid room sink true laid held
    rw [finishFallback]
    split <;> rename_i same <;> rw [same] at flushed
    · exact ⟨flushed, by simp⟩
    · obtain ⟨laid, empty, read, -⟩ := flushed
      refine ⟨laid.within, fun done => laid.done empty ?_⟩
      rw [read]
      split at done
      · cases done
      · rename_i length
        simpa using length

theorem fallbackStream_exact (sink : Sink) (fin : BodyEnd) (script : List (Nat × Bool)) (body : List UInt8) :
    (fallbackStream sink slab size fin script body).Exact slab 0 size body := by
  have flushes (seen : List UInt8) (p : Pending) (inv : Laid slab 0 size seen p ∧ Held slab 0 size p ∧ p.base % writeAlign = 0)
      (filled : p.buf.length = slab) :
      Yields (fun q => Laid slab 0 size seen q ∧ Held slab 0 size q ∧ q.base % writeAlign = 0)
        (fun r => Attempt.Exact slab 0 size body ⟨r, .writeError, p.read⟩) (flush sink slab false p) := by
    obtain ⟨laid, held, aligned⟩ := inv
    have large := valid.large
    have multiple := valid.multiple
    have next := held.next valid room laid filled aligned
    refine (flush_yields valid room sink false laid held).imp ?_ fun r within => ⟨within, by simp⟩
    rintro q ⟨laid', empty, -, same | moved⟩
    · -- a full buffer was flushed
      have before := laid.reached
      have after := laid'.reached
      rw [empty, List.length_nil] at after
      omega
    · rw [filled] at moved
      rw [writeAlign] at aligned ⊢
      exact ⟨laid', ⟨moved ▸ next, by rw [empty]; exact Nat.zero_le _⟩, by omega⟩
  apply readLoop_rule flushes _ _ (fun p inv => finishFallback_exact valid room sink fin inv.1 inv.2.1) script
    ⟨laid_start 0 size, ⟨.inl rfl, Nat.zero_le _⟩, rfl⟩ (List.nil_append body)
  · rintro seen p got ⟨laid, held, aligned⟩ less short
    have filled := held.filled
    have long : ((p.buf ++ got).length : Int) ≤ slab := by
      rw [List.length_append]
      omega
    have sum := laid.fits held valid room (Int.natCast_nonneg _) long
    have reached := laid.reached
    have read := laid.read
    refine ⟨laid.take valid got fun some_ => ?_, ⟨held.reach, by exact_mod_cast long⟩, aligned⟩
    have within := of_decide_eq_false (short some_)
    rw [List.length_append] at sum
    have counted : wrapInt64 (p.read + got.length) = p.read + got.length := by
      rw [read, show (seen.length : Int) + got.length = p.base + (p.buf.length + got.length : Nat) by omega, sum]
    simp only [Pending.take, counted, List.length_append] at within ⊢
    omega
  · rintro seen p got outcome ⟨laid, -⟩ unfinished
    constructor <;> refine ⟨laid.within, ?_⟩ <;> rintro ⟨⟩ <;> simp at unfinished

end

section
variable {flush : Pending → Except Record Pending} {overlong : Pending → Bool} {finish : Pending → Attempt}

theorem readLoop_flushed {q : Pending} (filled : p.buf.length = slab) (flushed : flush p = .ok q) (room : q.buf.length ≠ slab)
    (script : List (Nat × Bool)) (body : List UInt8) :
    readLoop slab flush overlong finish script body p = readLoop slab flush overlong finish script body q := by
  cases script <;> simp only [readLoop, if_pos filled, flushed, if_neg room]

theorem readLoop_fill (less : p.buf.length < slab) {j : Nat} (low : p.buf.length ≤ j) (high : j ≤ slab) (last : Bool)
    (script : List (Nat × Bool))
    (body : List UInt8) (ends : last = true → body = [])
    (short : overlong (p.take (List.replicate (j - p.buf.length) 0)) = false) (whole : last = true ∨ j = slab) :
    readLoop slab flush overlong finish ((slab, last) :: script) (List.replicate (j - p.buf.length) 0 ++ body) p =
      if last then finish (p.take (List.replicate (j - p.buf.length) 0))
      else readLoop slab flush overlong finish script body (p.take (List.replicate (j - p.buf.length) 0)) := by
  have cut : (List.replicate (j - p.buf.length) (0 : UInt8) ++ body).take (min slab (slab - p.buf.length)) =
        List.replicate (j - p.buf.length) 0 ∧
      (List.replicate (j - p.buf.length) (0 : UInt8) ++ body).drop (min slab (slab - p.buf.length)) = body := by
    rcases whole with final | rfl
    · rw [ends final, List.append_nil, List.take_of_length_le (by rw [List.length_replicate]; omega),
        List.drop_of_length_le (by rw [List.length_replicate]; omega)]
      exact ⟨rfl, rfl⟩
    · have same : min j (j - p.buf.length) = (List.replicate (j - p.buf.length) (0 : UInt8)).length := by
        rw [List.length_replicate]
        omega
      rw [same, List.take_left, List.drop_left]
      exact ⟨rfl, rfl⟩
  rw [readLoop, if_neg (by omega)]
  simp only [cut.1, cut.2, short]
  cases last with
  | true => simp [ends rfl]
  | false => simp

theorem taken (counted : p.read = p.base + p.buf.length - start) {n : Nat} (more : p.buf.length ≤ n) :
    (p.take (List.replicate (n - p.buf.length) 0)).buf.length = n ∧
      (p.take (List.replicate (n - p.buf.length) 0)).read = wrapInt64 (p.base + n - start) := by
  simp only [Pending.take, List.length_append, List.length_replicate, counted]
  exact ⟨by omega, by congr 1; omega⟩

/-- Whole slabs are read and flushed from an aligned place on, and then a last read fills the buffer as far as wanted. -/
theorem exists_run (machine : limit ≤ maxInt64) (low : 0 ≤ start)
    (flushes : ∀ p, p.base % writeAlign = 0 → p.buf.length = slab → 0 ≤ p.base → p.base + slab ≤ limit →
      ∃ r, flush p = .ok ⟨p.base + slab, [], p.read, r⟩)
    (short : ∀ p, start ≤ p.base → p.base + p.buf.length ≤ limit ∧ p.read = p.base + p.buf.length - start ∨
      p.base + p.buf.length = maxInt64 + 1 ∧ p.read = wrapInt64 (maxInt64 + 1 - start) → overlong p = false)
    (positive : 0 < slab) (multiple : slab % 4096 = 0) {j : Nat} (small : j ≤ slab) (k : Nat) (p : Pending)
    (after : start ≤ p.base)
    (aligned : 0 < k → p.base % writeAlign = 0) (counted : p.read = p.base + p.buf.length - start) (less : p.buf.length < slab)
    (inside : p.base + slab * k ≤ limit) (target : p.base + slab * k + j ≤ limit ∨ p.base + slab * k + j = maxInt64 + 1)
    (first : k = 0 → p.buf.length ≤ j) :
    ∃ script body q, readLoop slab flush overlong finish script body p = finish q ∧ q.base = p.base + slab * k ∧
      q.buf.length = j := by
  induction k generalizing p with
  | zero =>
    have most := first rfl
    obtain ⟨length, read⟩ := taken counted most
    refine ⟨[(slab, true)], List.replicate (j - p.buf.length) 0 ++ [], p.take (List.replicate (j - p.buf.length) 0), ?_,
      ?_, length⟩
    · rw [readLoop_fill less most small true [] [] (fun _ => rfl) (short _ after ?_) (.inl rfl), if_pos rfl]
      rw [length, read]
      simp only [Pending.take]
      rcases target with within | beyond
      · refine .inl ⟨by omega, wrapInt64_eq (by omega) (by omega)⟩
      · exact .inr ⟨by omega, by congr 1; omega⟩
    · simp [Pending.take]
  | succ k ih =>
    have more : p.base + slab ≤ limit := by
      have : (slab : Int) * (k + 1 : Nat) = slab * k + slab := by push_cast; rw [Int.mul_add, Int.mul_one]
      have : (0 : Int) ≤ slab * k := Int.mul_nonneg (by omega) (by omega)
      omega
    have ahead : p.base + slab + slab * k = p.base + slab * (k + 1 : Nat) := by
      push_cast
      rw [Int.mul_add, Int.mul_one]
      omega
    obtain ⟨length, read⟩ := taken counted (Nat.le_of_lt less)
    rw [wrapInt64_eq (by omega) (by omega)] at read
    obtain ⟨r, flushed⟩ := flushes (p.take (List.replicate (slab - p.buf.length) 0)) (aligned (Nat.succ_pos k)) length
      (show 0 ≤ p.base by omega) more
    have align := aligned (Nat.succ_pos k)
    rw [writeAlign] at align
    obtain ⟨script, body, q, ran, there, fill⟩ := ih ⟨p.base + slab, [], p.base + slab - start, r⟩ (by simp only; omega)
      (fun _ => by rw [writeAlign]; simp only; omega) (by simp) positive (by simp only; omega) (by simp only; omega)
        (fun _ => Nat.zero_le _)
    refine ⟨(slab, false) :: script, List.replicate (slab - p.buf.length) 0 ++ body, q, ?_, by simp only at there; omega, fill⟩
    rw [readLoop_fill less (Nat.le_of_lt less) (Nat.le_refl _) false script body (by simp) (short _ after ?_) (.inr rfl),
      if_neg (by simp),
      readLoop_flushed length flushed (by simp only [List.length_nil]; omega), read]
    · exact ran
    · rw [length, read]
      exact .inl ⟨more, rfl⟩

end

def Sink.sound : Sink := ⟨fun _ => true, fun _ => true⟩

theorem flushFullSlab_aligned (aligned : p.base % writeAlign = 0) (filled : p.buf.length = slab) (low : 0 ≤ p.base)
    (fits : p.base + slab ≤ maxInt64) : ∃ r, flushFullSlab .sound slab p = .ok ⟨p.base + slab, [], p.read, r⟩ := by
  have sum : wrapInt64 (p.base + p.buf.length) = p.base + slab := by
    rw [filled]
    exact wrapInt64_eq (by omega) fits
  simp only [flushFullSlab, if_pos aligned, sum]
  exact ⟨_, rfl⟩

theorem flushFullSlab_head (unaligned : p.base % writeAlign ≠ 0) (low : 0 ≤ p.base) (large : 4096 ≤ slab)
    (fits : p.base + slab ≤ maxInt64) :
    ∃ r, flushFullSlab .sound slab p =
      .ok ⟨boundary p.base, p.buf.drop (boundary p.base - p.base).toNat, p.read, r⟩ := by
  obtain ⟨above, near, -⟩ := boundary_bounds p.base
  have step : wrapInt64 (boundary p.base - p.base) = boundary p.base - p.base :=
    wrapInt64_eq (by omega) (by simp only [maxInt64]; omega)
  have sum : wrapInt64 (p.base + (boundary p.base - p.base)) = boundary p.base := by
    rw [wrapInt64_eq (by omega) (by omega)]
    omega
  simp only [flushFullSlab, if_neg unaligned, alignUp_eq low (by omega), step, sum]
  rw [if_pos (by omega)]
  unfold gatedWrite
  split <;> exact ⟨_, rfl⟩

/-- The machine's check of an over-long body passes a buffer that ends in the range, and one that ends just beyond the
largest offset. -/
theorem not_overlong {b : Block} (low : 0 ≤ b.stop) (machine : b.stop ≤ maxInt64) (from_ : 0 ≤ p.base)
    (target : p.base + p.buf.length ≤ b.stop ∨ p.base + p.buf.length = maxInt64 + 1) :
    decide (b.stop < wrapInt64 (p.base + p.buf.length)) = false := by
  apply decide_eq_false
  rcases target with inside | beyond
  · rw [wrapInt64_eq (by omega) (by omega)]
    omega
  · rw [wrapInt64_of_over (by omega) (by simp only [maxInt64] at *; omega), beyond, maxInt64]
    omega

theorem streamFrom_head {b : Block} (valid : Valid slab start b.stop) (long : start + slab ≤ b.stop) (fin : BodyEnd)
    (unaligned : start % writeAlign ≠ 0) :
    ∃ p : Pending, p.base = boundary start ∧ p.buf.length + (boundary start - start) = slab ∧
      start < p.base ∧ p.read = slab ∧
      ∀ script body, streamFrom .sound slab b start fin ((slab, false) :: script) (List.replicate slab 0 ++ body) =
        readLoop slab (flushFullSlab .sound slab) (fun p => b.stop < wrapInt64 (p.base + p.buf.length))
          (finishBlock .sound slab b (b.stop - start) fin) script body p := by
  obtain ⟨positive, -, low, machine⟩ := id valid
  have large := valid.large
  obtain ⟨above, near, even⟩ := boundary_bounds start
  have strict : start < boundary start := by
    rw [writeAlign] at unaligned
    omega
  have counted : wrapInt64 (0 + (List.replicate slab (0 : UInt8)).length) = slab := by
    rw [List.length_replicate, Int.zero_add]
    exact wrapInt64_eq (by omega) (by omega)
  have first : Pending.take ⟨start, [], 0, .empty⟩ (List.replicate slab 0) = ⟨start, List.replicate slab 0, slab, .empty⟩ := by
    rw [Pending.take, counted, List.nil_append]
  obtain ⟨r, flushed⟩ := @flushFullSlab_head slab ⟨start, List.replicate slab 0, slab, .empty⟩ unaligned low large
    (by simp only; omega)
  have left : ((List.replicate slab (0 : UInt8)).drop (boundary start - start).toNat).length +
    (boundary start - start) = slab := by
    rw [List.length_drop, List.length_replicate]
    omega
  refine ⟨⟨_, _, _, r⟩, rfl, left, strict, rfl, fun script body => ?_⟩
  refine (readLoop_fill (p := ⟨start, [], 0, .empty⟩) positive (Nat.zero_le _) (Nat.le_refl _) false script body (by simp)
    ?_ (.inr rfl)).trans ?_
  · refine not_overlong (by omega) machine low (.inl ?_)
    simpa [Pending.take] using long
  · rw [if_neg (by simp), List.length_nil, Nat.sub_zero, first]
    refine readLoop_flushed List.length_replicate flushed ?_ script body
    simp only at left ⊢
    omega

section
variable {b : Block} (valid : Valid slab start b.stop) (ordered : start ≤ b.stop)
include valid ordered

/-- Some body brings the attempt to its last place, with a buffer that ends with the range or just beyond the largest offset. -/
theorem streamFrom_reaches (fin : BodyEnd) {j : Nat} (small : j ≤ slab)
    (target : lastBase slab start b.stop + j = b.stop ∨ lastBase slab start b.stop + j = maxInt64 + 1) :
    ∃ script body q, streamFrom .sound slab b start fin script body = finishBlock .sound slab b (b.stop - start) fin q ∧
      q.base = lastBase slab start b.stop ∧ q.buf.length = j := by
  obtain ⟨positive, multiple, low, machine⟩ := id valid
  have large := valid.large
  obtain ⟨above, near, even⟩ := boundary_bounds start
  have run (k : Nat) (p : Pending) (after : start ≤ p.base) (aligned : 0 < k → p.base % writeAlign = 0) :=
    @exists_run slab start b.stop (flushFullSlab .sound slab) (fun p => b.stop < wrapInt64 (p.base + p.buf.length))
      (finishBlock .sound slab b (b.stop - start) fin) machine low
      (fun p aligned filled low inside => flushFullSlab_aligned aligned filled low (Int.le_trans inside machine))
      (fun p from_ target => not_overlong (Int.le_trans low ordered) machine (Int.le_trans low from_)
        (target.imp And.left And.left))
      positive multiple j small k p after aligned
  by_cases long : start + slab ≤ b.stop
  · rw [lastBase, if_pos long] at target ⊢
    obtain ⟨k, slabs⟩ := Int.eq_ofNat_of_zero_le
      (Int.ediv_nonneg (show 0 ≤ b.stop - boundary start by omega) (show 0 ≤ (slab : Int) by omega))
    have inside : slab * ((b.stop - boundary start) / slab) ≤ b.stop - boundary start :=
      Int.mul_ediv_self_le (by omega)
    have beyond := Int.lt_mul_ediv_self_add (show 0 < (slab : Int) by omega) (x := b.stop - boundary start)
    rw [slabs] at target inside beyond ⊢
    by_cases aligned : start % writeAlign = 0
    · have same : boundary start = start := by
        simp only [boundary, writeAlign] at aligned ⊢
        omega
      rw [same] at target inside ⊢
      refine run k ⟨start, [], 0, .empty⟩ (Int.le_refl _) (fun _ => aligned) (by simp) positive (by simp only; omega) ?_
        (fun _ => Nat.zero_le _)
      exact target.imp Int.le_of_eq id
    · -- the head up to the boundary goes first
      obtain ⟨p, base, rest, after, read, first⟩ := streamFrom_head valid long fin aligned
      obtain ⟨script, body, q, ran, there, fill⟩ := run k p (by omega) (fun _ => base ▸ even) (by omega) (by omega) (by omega)
        (by rw [base]; exact target.imp Int.le_of_eq id) (fun none_ => by subst none_; omega)
      exact ⟨_, _, q, (first script body).trans ran, by rw [there, base], fill⟩
  · rw [lastBase, if_neg long] at target ⊢
    obtain ⟨script, body, q, ran, there, fill⟩ := run 0 ⟨start, [], 0, .empty⟩ (Int.le_refl _) (by simp) (by simp) positive
      (by simpa using ordered) (by simpa using target.imp Int.le_of_eq id) (fun _ => Nat.zero_le _)
    exact ⟨script, body, q, ran, by simpa using there, fill⟩

end

theorem write_sound (r : Record) (kind : WriteKind) (bytes : List UInt8) (off : Int) :
    r.write .sound kind bytes off = .ok { r with calls := r.calls ++ [⟨⟨off, bytes⟩, kind⟩] } := rfl

theorem gatedWrite_sound (r : Record) (some_ : bytes ≠ []) (off : Int) : gatedWrite .sound r bytes off =
    .ok (Record.commit { r with calls := r.calls ++ [⟨⟨off, bytes⟩, .writeUnaligned⟩] } off bytes.length) := by
  rw [gatedWrite, if_neg some_]
  rfl

theorem flushAbort_written (slab : Nat) (b : Block) (some_ : p.buf ≠ []) :
    ⟨⟨p.base, p.buf⟩, .writeUnaligned⟩ ∈ (flushAbort .sound slab b p).calls := by
  simp only [flushAbort, if_neg some_, gatedWrite_sound _ some_, write_sound, Record.commit, Record.panic]
  split
  · split <;> simp
  · simp

/-- The padding that passes the wrapped check leaves the block, or its slice fails. -/
theorem flushAbort_padded {b : Block} (some_ : p.buf ≠ []) (ends : p.base + p.buf.length = b.stop) (low : 0 ≤ b.stop)
    (high : b.stop ≤ maxInt64) (past : maxInt64 < b.stop + 4095) : ¬ (flushAbort .sound slab b p).Within slab start b.stop := by
  obtain ⟨pads, fits⟩ := padding_wraps high past
  have sum : wrapInt64 (p.base + p.buf.length) = b.stop := by
    rw [ends]
    exact wrapInt64_eq (by omega) high
  rintro ⟨sound, inside⟩
  simp only [flushAbort, if_neg some_, gatedWrite_sound _ some_, write_sound, sum,
    if_pos (And.intro pads (Int.le_trans fits low))] at sound inside
  split at sound
  · simp [Record.panic] at sound
  · rename_i room
    rw [if_neg room] at inside
    have last := (inside _ (List.mem_append_right _ (List.mem_singleton_self _))).2.1
    simp only [Flush.stop, List.length_replicate] at last
    omega

theorem lastBase_bounds (valid : Valid slab start limit) (ordered : start ≤ limit) :
    start ≤ lastBase slab start limit ∧ lastBase slab start limit ≤ limit ∧ limit < lastBase slab start limit + slab := by
  have positive : (0 : Int) < slab := by exact_mod_cast valid.positive
  have large := valid.large
  obtain ⟨above, near, -⟩ := boundary_bounds start
  unfold lastBase
  split
  · have whole := Int.mul_ediv_add_emod (limit - boundary start) slab
    have rest := Int.emod_nonneg (limit - boundary start) (Int.ne_of_gt positive)
    have less := Int.emod_lt_of_pos (limit - boundary start) positive
    have : 0 ≤ slab * ((limit - boundary start) / slab) :=
      Int.mul_nonneg (Int.le_of_lt positive) (Int.ediv_nonneg (by omega) (Int.le_of_lt positive))
    omega
  · omega

section
variable {b : Block} (valid : Valid slab start b.stop) (ordered : start ≤ b.stop)
include valid ordered

/-- An attempt that stays in the range whatever body is cut has room for its last slab, and for the padding. -/
theorem streamFrom_room (within : ∀ script body,
    (streamFrom .sound slab b start .failed script body).record.Within slab start b.stop) :
    lastBase slab start b.stop + slab ≤ maxInt64 ∧ (start < b.stop → b.stop + 4095 ≤ maxInt64) := by
  obtain ⟨-, -, low, machine⟩ := id valid
  have large := valid.large
  obtain ⟨from_, inside, beyond⟩ := lastBase_bounds valid ordered
  have room : lastBase slab start b.stop + slab ≤ maxInt64 := by
    by_contra past
    obtain ⟨j, length⟩ := Int.eq_ofNat_of_zero_le (show 0 ≤ maxInt64 + 1 - lastBase slab start b.stop by omega)
    obtain ⟨script, body, q, ran, base, fill⟩ :=
      streamFrom_reaches valid ordered .failed (show j ≤ slab by omega) (.inr (by omega))
    have stays := within script body
    rw [ran] at stays
    have last := (stays.2 _ (flushAbort_written slab b (List.length_pos_iff.mp (by omega)))).2.1
    simp only [Flush.stop] at last
    omega
  refine ⟨room, fun some_ => ?_⟩
  by_contra past
  obtain ⟨j, length⟩ := Int.eq_ofNat_of_zero_le (show 0 ≤ b.stop - lastBase slab start b.stop by omega)
  obtain ⟨script, body, q, ran, base, fill⟩ := streamFrom_reaches valid ordered .failed (show j ≤ slab by omega) (.inl (by omega))
  have stays := within script body
  rw [ran] at stays
  exact flushAbort_padded (List.length_pos_iff.mp (by omega)) (by omega) (by omega) machine (by omega) stays

end

section
variable (valid : Valid slab 0 size) (nonneg : 0 ≤ size)
include valid nonneg

theorem fallbackStream_reaches (fin : BodyEnd) {j : Nat} (small : j ≤ slab) (target : lastBase slab 0 size + j = maxInt64 + 1) :
    ∃ script body q, fallbackStream .sound slab size fin script body = finishFallback .sound slab size fin q ∧
      q.base = lastBase slab 0 size ∧ q.buf.length = j := by
  obtain ⟨positive, multiple, low, machine⟩ := id valid
  have last : lastBase slab 0 size = 0 + slab * (size / slab) := by
    unfold lastBase
    split
    · simp [boundary, writeAlign]
    · rw [Int.ediv_eq_zero_of_lt nonneg (by omega)]
      simp
  obtain ⟨k, slabs⟩ := Int.eq_ofNat_of_zero_le (Int.ediv_nonneg nonneg (show 0 ≤ (slab : Int) by omega))
  have inside : slab * (size / slab) ≤ size := Int.mul_ediv_self_le (by omega)
  rw [slabs] at last inside
  rw [last] at target ⊢
  refine @exists_run slab 0 size (flush .sound slab false) (fun p => size < p.read)
    (finishFallback .sound slab size fin) machine low
    ?_ ?_ positive multiple j small k ⟨0, [], 0, .empty⟩ low (fun _ => rfl) (by simp) positive (by simpa using inside)
      (.inr target)
    (fun _ => Nat.zero_le _)
  · intro p aligned filled low inside
    have sum : wrapInt64 (p.base + slab) = p.base + slab := wrapInt64_eq (by omega) (by omega)
    have some_ : p.buf ≠ [] := List.length_pos_iff.mp (by omega)
    simp only [flush, if_neg some_, write_sound, filled]
    exact ⟨_, congrArg (fun base => Except.ok (Pending.mk base [] p.read _)) sum⟩
  · intro p _ counted
    apply decide_eq_false
    rcases counted with ⟨_, read⟩ | ⟨_, read⟩
    · omega
    · rw [read, wrapInt64_of_over (by simp only [maxInt64]; omega) (by simp only [maxInt64]; omega), maxInt64]
      omega

theorem fallbackStream_room (within : ∀ script body,
    (fallbackStream .sound slab size .eof script body).record.Within slab 0 size) :
    lastBase slab 0 size + slab ≤ maxInt64 := by
  have machine := valid.machine
  obtain ⟨from_, inside, -⟩ := lastBase_bounds valid nonneg
  by_contra past
  obtain ⟨j, length⟩ := Int.eq_ofNat_of_zero_le (show 0 ≤ maxInt64 + 1 - lastBase slab 0 size by omega)
  obtain ⟨script, body, q, ran, base, fill⟩ := fallbackStream_reaches valid nonneg .eof (show j ≤ slab by omega) (by omega)
  have stays := within script body
  have some_ : q.buf ≠ [] := List.length_pos_iff.mp (by omega)
  rw [ran] at stays
  simp only [finishFallback, flush, if_neg some_, write_sound] at stays
  have last := (stays.2 _ (List.mem_append_right _ (List.mem_singleton_self _))).2.1
  simp only [Flush.stop] at last
  omega

end

/-- The part of the block that a sequential attempt finds committed. -/
def skipped (sequential : Bool) (set : IntervalSet) (b : Block) : Int :=
  max 0 (if sequential then set.prefixCovered b.offset b.stop else 0)

def Attempt.disk (a : Attempt) (disk : Disk) : Disk := disk.writeAll (a.record.calls.map Call.toFlush)

theorem Attempt.Exact.disk_eq {a : Attempt} (exact_ : a.Exact slab start limit body) (done : a.ended = .streamed .complete)
    (disk : Disk) (x : Int) :
    a.disk disk x = if start ≤ x ∧ x < limit then body.getD (x - start).toNat 0 else disk x := by
  obtain ⟨chain, whole⟩ := exact_.laid done
  rw [Attempt.disk, chain.writeAll, List.flatMap_map, whole]

theorem Attempt.Exact.length_eq {a : Attempt} (exact_ : a.Exact slab start limit body) (done : a.ended = .streamed .complete) :
    start + body.length = limit := by
  obtain ⟨chain, whole⟩ := exact_.laid done
  rw [← chain.length_eq, List.flatMap_map, whole]

theorem Attempt.Recorded.tile {a : Attempt} (recorded : a.Recorded slab start limit body) (done : a.ended = .streamed .complete) :
    Tile start a.record.committed limit := by
  have ranges := (recorded.laid done).1.tile
  rw [List.map_map] at ranges
  rw [recorded.recorded done]
  exact ranges

structure Attempt.Covers (slab : Nat) (b : Block) (skip : Int) (body : List UInt8) (a : Attempt) : Prop where
  within : a.record.Within slab (b.offset + skip) b.stop
  disk : a.ended = .streamed .complete → ∀ disk x,
    a.disk disk x = if b.offset + skip ≤ x ∧ x < b.stop then body.getD (x - b.offset).toNat 0 else disk x
  tile : a.ended = .streamed .complete → Tile (b.offset + skip) a.record.committed (max (b.offset + skip) b.stop)
  length : a.ended = .streamed .complete → ¬ (0 < skip ∧ b.length ≤ skip) → body.length = b.length

theorem Attempt.Covers.of_recorded {a : Attempt} {k : Nat} (recorded : a.Recorded slab (b.offset + k) b.stop (body.drop k))
    (enough : k ≤ body.length) : a.Covers slab b k body where
  within := recorded.within
  disk done disk x := by
    rw [recorded.disk_eq done disk x]
    split
    · rename_i inside
      rw [List.getD_eq_getElem?_getD, List.getElem?_drop, List.getD_eq_getElem?_getD]
      congr 2
      omega
    · rfl
  tile done := by
    have tile := recorded.tile done
    have length := recorded.length_eq done
    rwa [max_eq_right (by omega)]
  length done _ := by
    have length := recorded.length_eq done
    rw [List.length_drop, Block.stop] at length
    omega

section
variable {sequential : Bool} {set : IntervalSet} {b : Block}

theorem streamBlock_covers (valid : Valid slab (b.offset + skipped sequential set b) b.stop)
    (fits : 0 < skipped sequential set b ∧ b.length ≤ skipped sequential set b ∨
      lastBase slab (b.offset + skipped sequential set b) b.stop + slab ≤ maxInt64 ∧
        (b.offset + skipped sequential set b < b.stop → b.stop + 4095 ≤ maxInt64))
    (sink : Sink) (fin : BodyEnd) (script : List (Nat × Bool)) (body : List UInt8) :
    (streamBlock sink slab sequential set b fin script body).Covers slab b (skipped sequential set b) body := by
  simp only [streamBlock, skipped] at valid fits ⊢
  generalize (if sequential = true then set.prefixCovered b.offset b.stop else 0) = skip at valid fits ⊢
  have nothing : Record.empty.Within slab (b.offset + max 0 skip) b.stop :=
    ⟨rfl, fun c member => absurd member (by simp [Record.empty])⟩
  split
  · rename_i some_
    rw [max_eq_right (by omega)] at valid fits nothing ⊢
    split
    · rename_i all
      have empty : b.stop ≤ b.offset + skip := by
        rw [Block.stop]
        omega
      refine ⟨nothing, fun _ disk x => ?_, fun _ => ?_, fun _ part => absurd ⟨some_, all⟩ part⟩
      · rw [if_neg (by omega)]
        rfl
      · rw [max_eq_left empty]
        rfl
    rename_i part
    obtain ⟨room, pads⟩ := fits.resolve_left fun all => part all.2
    split
    · exact ⟨nothing, by simp, by simp, by simp⟩
    · obtain ⟨k, rfl⟩ := Int.eq_ofNat_of_zero_le (Int.le_of_lt some_)
      exact .of_recorded (streamFrom_recorded valid room pads sink fin script _) (by omega)
  · rename_i none_
    rw [max_eq_left (by omega), Int.add_zero] at valid fits
    rw [max_eq_left (by omega)]
    obtain ⟨room, pads⟩ := fits.resolve_left fun all => absurd all.1 (Int.lt_irrefl 0)
    apply Attempt.Covers.of_recorded (k := 0) _ (Nat.zero_le _)
    simpa using streamFrom_recorded valid room pads sink fin script body

theorem streamBlock_from (low : 0 ≤ b.length)
    (part : ¬ (0 < skipped sequential set b ∧ b.length ≤ skipped sequential set b)) (sink : Sink)
    (fin : BodyEnd) (script : List (Nat × Bool)) (body : List UInt8) :
    b.offset + skipped sequential set b ≤ b.stop ∧
      streamBlock sink slab sequential set b fin script (List.replicate (skipped sequential set b).toNat 0 ++ body) =
        streamFrom sink slab b (b.offset + skipped sequential set b) fin script body := by
  obtain ⟨skip, same⟩ : ∃ skip, (if sequential then set.prefixCovered b.offset b.stop else 0) = skip := ⟨_, rfl⟩
  simp only [streamBlock, skipped, same] at part ⊢
  refine ⟨by rw [Block.stop]; omega, ?_⟩
  split
  · rename_i some_
    rw [max_eq_right (by omega)] at part ⊢
    rw [if_neg (by omega), if_neg (by rw [List.length_append, List.length_replicate]; omega)]
    congr 1
    exact List.drop_left' List.length_replicate
  · rw [max_eq_left (by omega)]
    simp

end

/-- Where offsets do not wrap, an attempt writes the body's bytes to their place and nothing else whatever the reads and
the failures, and when it returns nil they are all there; where the last slab or the padding wraps, some body is written
beyond the block. -/
theorem writes_exact (positive : 0 < slab) (multiple : slab % 4096 = 0) :
    (∀ sequential set b, 0 ≤ b.offset → 0 ≤ b.length → b.stop ≤ maxInt64 →
      ((∀ sink fin script body,
        (streamBlock sink slab sequential set b fin script body).Covers slab b (skipped sequential set b) body ∧
        ∀ sink' fin' script', (streamBlock sink slab sequential set b fin script body).ended = .streamed .complete →
          (streamBlock sink' slab sequential set b fin' script' body).ended = .streamed .complete →
          (streamBlock sink slab sequential set b fin script body).disk =
            (streamBlock sink' slab sequential set b fin' script' body).disk) ↔
      0 < skipped sequential set b ∧ b.length ≤ skipped sequential set b ∨
      lastBase slab (b.offset + skipped sequential set b) b.stop + slab ≤ maxInt64 ∧
        (b.offset + skipped sequential set b < b.stop → b.stop + 4095 ≤ maxInt64))) ∧
    ∀ size, 0 ≤ size → size ≤ maxInt64 →
      ((∀ sink fin script body, (fallbackStream sink slab size fin script body).record.Within slab 0 size ∧
        ((fallbackStream sink slab size fin script body).ended = .streamed .complete → body.length = size ∧
          ∀ disk x, (fallbackStream sink slab size fin script body).disk disk x =
            if 0 ≤ x ∧ x < size then body.getD x.toNat 0 else disk x) ∧
        ∀ sink' fin' script', (fallbackStream sink slab size fin script body).ended = .streamed .complete →
          (fallbackStream sink' slab size fin' script' body).ended = .streamed .complete →
          (fallbackStream sink slab size fin script body).disk = (fallbackStream sink' slab size fin' script' body).disk) ↔
      lastBase slab 0 size + slab ≤ maxInt64) := by
  constructor
  · intro sequential set b low nonneg machine
    have valid : Valid slab (b.offset + skipped sequential set b) b.stop :=
      ⟨positive, multiple, Int.add_nonneg low (le_max_left _ _), machine⟩
    constructor
    · intro covers
      refine or_iff_not_imp_left.mpr fun part => ?_
      have from_ := @streamBlock_from slab sequential set b nonneg part .sound .failed
      refine streamFrom_room valid (from_ [] []).1 fun script body => ?_
      rw [← (from_ script body).2]
      exact (covers ..).1.within
    · intro fits sink fin script body
      refine ⟨streamBlock_covers valid fits sink fin script body, ?_⟩
      intro sink' fin' script' done done'
      funext disk x
      rw [(streamBlock_covers valid fits ..).disk done, (streamBlock_covers valid fits ..).disk done']
  · intro size nonneg machine
    have valid : Valid slab 0 size := ⟨positive, multiple, Int.le_refl 0, machine⟩
    constructor
    · intro exact_
      exact fallbackStream_room valid nonneg fun script body => (exact_ .sound .eof script body).1
    · intro room sink fin script body
      have here := fallbackStream_exact valid room sink fin script body
      refine ⟨here.within, fun done => ⟨?_, fun disk x => ?_⟩, ?_⟩
      · have length := here.length_eq done
        omega
      · rw [here.disk_eq done, Int.sub_zero]
      · intro sink' fin' script' done done'
        funext disk x
        rw [here.disk_eq done, (fallbackStream_exact valid room sink' fin' script' body).disk_eq done']

/-- An unaligned block of ten bytes, three of them committed, whose body arrives in two reads around an empty one. -/
def resumed (script : List (Nat × Bool)) : Attempt :=
  streamBlock .sound 4096 true ((IntervalSet.empty 5000 (by decide)).add 4090 4093) ⟨0, 4090, 10⟩ .eof script
    [1, 2, 3, 4, 5, 6, 7, 8, 9, 10]

theorem writes_exact_resumed :
    (resumed [(3, false), (0, false), (9, true)]).ended = .streamed .complete ∧
      (resumed [(3, false), (0, false), (9, true)]).record.committed = [⟨4093, 4100⟩] ∧
      (resumed [(3, false), (0, false), (9, true)]).disk = (resumed [(9, true)]).disk ∧
      (∀ disk, (resumed [(3, false), (0, false), (9, true)]).disk disk 4095 = 6) ∧
      ∀ disk, (fallbackStream .sound 4096 2 .eof [(1, false), (5, true)] [7, 8]).disk disk 1 = 8 := by
  obtain ⟨block, fallback⟩ := writes_exact (by decide : 0 < 4096) (by decide)
  obtain ⟨covers, same⟩ := (block true ((IntervalSet.empty 5000 (by decide)).add 4090 4093) ⟨0, 4090, 10⟩ (by decide) (by decide)
    (by decide)).mpr (.inr (by decide)) Sink.sound .eof [(3, false), (0, false), (9, true)] [1, 2, 3, 4, 5, 6, 7, 8, 9, 10]
  obtain ⟨-, exact_, -⟩ := (fallback 2 (by decide) (by decide)).mpr (by decide) Sink.sound .eof [(1, false), (5, true)] [7, 8]
  have done : (resumed [(3, false), (0, false), (9, true)]).ended = .streamed .complete := by decide
  refine ⟨done, by decide, same _ _ [(9, true)] done (by decide), fun disk => ?_, fun disk => ?_⟩
  · exact covers.disk done disk 4095
  · exact (exact_ (by decide)).2 disk 1

/-- The body of a block at the end of the offsets breaks off in the middle: the boundary after the hundred bytes wraps
around, and zeros are written beyond the block. -/
theorem padding_leaves_block :
    ∃ c ∈ (streamBlock .sound 8192 false (.empty maxInt64 (by decide)) ⟨0, 2 ^ 63 - 200, 199⟩ .failed [(100, true)]
    (List.replicate 100 1)).record.calls, (2 ^ 63 - 200 : Int) + 199 < c.stop := by
  refine ⟨⟨⟨2 ^ 63 - 100, List.replicate 4196 0⟩, .writeUnaligned⟩, List.mem_of_getElem? (i := 1) (by rfl), ?_⟩
  simp only [Flush.stop, List.length_replicate]
  decide

end
end Calls
end Hfdl.Transfer
