import Hfdl.Transfer.Interval
import Mathlib.Algebra.Ring.Int.Defs

/-! The walk that gives a sparse file its blocks: the gaps between the data extents are written with zeros from a shared
slab, in chunks that the duty limiter may shorten from one write to the next. -/
namespace Hfdl.Verify

inductive Method where
  | fallocate
  | walk
deriving DecidableEq, Repr

inductive DeSparseError where
  | densify
  | fallocate
  | noPool
  | extents
  | write (off : Int)
  | checkpoint
deriving DecidableEq, Repr

/-- What a zero write meets; one that misses the alignment of the direct tier is repeated through the buffered handle. -/
inductive ZeroWrite where
  | done
  | unaligned (buffered : Bool)
  | failed
deriving DecidableEq, Repr

def ZeroWrite.lands : ZeroWrite → Bool
  | .done | .unaligned true => true
  | .unaligned false | .failed => false

/-- One round of a fill: the limit the duty limiter sets, the outcome of the write, and whether the checkpoint lets it go on. -/
structure Round where
  limit : Int
  positive : 0 < limit
  write : ZeroWrite
  proceeds : Bool

/-- A checker with a pool: its slabs, whether it has a limiter, and what its rounds meet. -/
structure Checker where
  slab : Int
  positive : 0 < slab
  limited : Bool
  round : Nat → Round

/-- The rounds so far, the ranges written in them, and the count of bytes. -/
structure Filled where
  rounds : Nat
  writes : List Interval
  holeBytes : Int
deriving DecidableEq, Repr

/-- The length of a fresh view of the zero slab. -/
def zeroSlice (slab n : Int) : Int :=
  let n := if n < 0 then 0 else n
  if slab < n then slab else n

namespace Checker

def chunk (c : Checker) (n : Nat) : Int := if c.limited then min c.slab (c.round n).limit else c.slab

theorem chunk_pos (c : Checker) (n : Nat) : 0 < c.chunk n := by
  have slab := c.positive
  have limit := (c.round n).positive
  unfold chunk
  split <;> omega

theorem chunk_le (c : Checker) (n : Nat) : c.chunk n ≤ c.slab := by
  unfold chunk
  split <;> omega

/-- The loop over one gap; the range of a write that fails is recorded too. -/
def fill (c : Checker) (stop : Int) (st : Filled) (off : Int) : Filled × Option DeSparseError :=
  if _more : off < stop then
    let n := min (c.chunk st.rounds) (stop - off)
    let writes := st.writes ++ [⟨off, off + zeroSlice c.slab n⟩]
    if (c.round st.rounds).write.lands then
      let st' : Filled := ⟨st.rounds + 1, writes, st.holeBytes + n⟩
      if c.limited && !(c.round st.rounds).proceeds then (st', some .checkpoint)
      else fill c stop st' (off + n)
    else ({ st with writes }, some (.write off))
  else (st, none)
termination_by (stop - off).toNat
decreasing_by
  have positive := c.chunk_pos st.rounds
  omega

/-- The loop over the extents, up to the one that reaches the size. -/
def walk (c : Checker) (size : Int) : List Interval → Filled → Int → Filled × Int × Option DeSparseError
  | [], st, pos => (st, pos, none)
  | ex :: extents, st, pos =>
    if size ≤ pos then (st, pos, none)
    else
      let filled := if pos < ex.start then c.fill (min ex.start size) st pos else (st, none)
      match filled.2 with
      | some e => (filled.1, pos, some e)
      | none => c.walk size extents filled.1 (if pos < ex.stop then ex.stop else pos)

/-- The walk and the gap behind the last extent. -/
def walkAll (c : Checker) (size : Int) (extents : List Interval) : Filled × Option DeSparseError :=
  match c.walk size extents ⟨0, [], 0⟩ 0 with
  | (st, _, some e) => (st, some e)
  | (st, pos, none) => if pos < size then c.fill size st pos else (st, none)

end Checker

inductive Fallocate where
  | done
  | unsupported
  | failed
deriving DecidableEq, Repr

/-- The method and the byte count that are returned, and the ranges written. -/
structure DeSparsed where
  result : Except DeSparseError (Method × Int)
  writes : List Interval

/-- `DeSparse` with what its calls meet; `none` extents stand for a failed extent walk. -/
def deSparse (fallocate : Fallocate) (pool : Option Checker) (extents : Option (List Interval)) (densifies : Bool) (size : Int) :
    DeSparsed :=
  match fallocate with
  | .done => ⟨if densifies then .ok (.fallocate, 0) else .error .densify, []⟩
  | .failed => ⟨.error .fallocate, []⟩
  | .unsupported =>
    match pool, extents with
    | none, _ => ⟨.error .noPool, []⟩
    | some _, none => ⟨.error .extents, []⟩
    | some c, some extents =>
      match c.walkAll size extents with
      | (st, some e) => ⟨.error e, st.writes⟩
      | (st, none) => ⟨if densifies then .ok (.walk, st.holeBytes) else .error .densify, st.writes⟩

def hits (vs : List Interval) (x : Int) : Nat := vs.countP fun v => decide (v.Has x)

def totalLength (vs : List Interval) : Int := (vs.map fun v => v.stop - v.start).sum

/-- The writes added between two states hit the offsets of a region and nothing else: at most once each, and just once when
there was no error; they are non-empty, at most a slab long, and counted. -/
structure Adds (slab : Int) (st st' : Filled) (region : Int → Prop) [DecidablePred region] (err : Option DeSparseError) :
    Prop where
  within : ∀ x, hits st'.writes x ≤ hits st.writes x + if region x then 1 else 0
  once : err = none → ∀ x, hits st'.writes x = hits st.writes x + if region x then 1 else 0
  sized : ∀ v ∈ st'.writes, v ∈ st.writes ∨ v.start < v.stop ∧ v.stop - v.start ≤ slab
  counted : err = none → totalLength st'.writes - st'.holeBytes = totalLength st.writes - st.holeBytes

namespace Adds
variable {slab : Int} {st st' st'' : Filled} {err : Option DeSparseError} {R S T : Int → Prop}
  [DecidablePred R] [DecidablePred S] [DecidablePred T]

theorem none_ (empty : ∀ x, ¬ R x) : Adds slab st st R err where
  within x := Nat.le_add_right _ _
  once _ x := by rw [if_neg (empty x), Nat.add_zero]
  sized _ member := .inl member
  counted _ := rfl

theorem of_error (adds : Adds slab st st' R err) (wider : ∀ x, R x → S x) : Adds slab st st' S (some e) where
  within x := by
    have bound := adds.within x
    by_cases inside : R x
    · rw [if_pos inside] at bound
      rw [if_pos (wider x inside)]
      exact bound
    · rw [if_neg inside] at bound
      omega
  once never := by cases never
  sized := adds.sized
  counted never := by cases never

theorem congr (adds : Adds slab st st' R err) (same : ∀ x, R x ↔ S x) : Adds slab st st' S err where
  within x := by simpa only [same] using adds.within x
  once clean x := by simpa only [same] using adds.once clean x
  sized := adds.sized
  counted := adds.counted

theorem trans (first : Adds slab st st' R none) (second : Adds slab st' st'' S err) (union : ∀ x, T x ↔ R x ∨ S x)
    (apart : ∀ x, R x → ¬ S x) : Adds slab st st'' T err := by
  have joined (x : Int) : (if R x then 1 else 0) + (if S x then 1 else 0) = if T x then 1 else 0 := by
    by_cases left : R x
    · rw [if_pos left, if_neg (apart x left), if_pos ((union x).mpr (.inl left))]
    · by_cases right : S x
      · rw [if_neg left, if_pos right, if_pos ((union x).mpr (.inr right))]
      · rw [if_neg left, if_neg right, if_neg fun both => ((union x).mp both).elim left right]
  constructor
  · intro x
    rw [← joined, ← Nat.add_assoc, ← first.once rfl]
    exact second.within x
  · intro clean x
    rw [← joined, ← Nat.add_assoc, ← first.once rfl]
    exact second.once clean x
  · intro v member
    cases second.sized v member with
    | inl earlier => exact first.sized v earlier
    | inr sized => exact .inr sized
  · intro clean
    exact (second.counted clean).trans (first.counted rfl)

end Adds

theorem adds_write {st : Filled} (rounds : Nat) (positive : 0 < n) (small : n ≤ slab) :
    Adds slab st ⟨rounds, st.writes ++ [⟨off, off + zeroSlice slab n⟩], st.holeBytes + n⟩
      (fun x => off ≤ x ∧ x < off + n) none := by
  have whole : zeroSlice slab n = n := by
    unfold zeroSlice
    rw [if_neg (by omega), if_neg (by omega)]
  have counted (x : Int) : hits (st.writes ++ [⟨off, off + n⟩]) x =
      hits st.writes x + if off ≤ x ∧ x < off + n then 1 else 0 := by
    rw [hits, List.countP_append, List.countP_singleton, ← hits]
    by_cases inside : Interval.Has ⟨off, off + n⟩ x
    · rw [if_pos (decide_eq_true inside), if_pos (show off ≤ x ∧ x < off + n from inside)]
    · rw [if_neg (by simpa using inside), if_neg (show ¬ (off ≤ x ∧ x < off + n) from inside)]
  rw [whole]
  constructor
  · exact fun x => Nat.le_of_eq (counted x)
  · exact fun _ x => counted x
  · intro v member
    cases List.mem_append.mp member with
    | inl earlier => exact .inl earlier
    | inr new =>
      cases List.mem_singleton.mp new
      exact .inr ⟨by show off < off + n; omega, by show off + n - off ≤ slab; omega⟩
  · intro _
    simp only [totalLength, List.map_append, List.map_cons, List.map_nil, List.sum_append, List.sum_cons, List.sum_nil]
    omega

namespace Checker
variable {c : Checker} {st : Filled}

theorem fill_adds (c : Checker) (stop : Int) (st : Filled) (off : Int) :
    Adds c.slab st (c.fill stop st off).1 (fun x => off ≤ x ∧ x < stop) (c.fill stop st off).2 := by
  fun_induction fill c stop st off with
  | case1 st off more n writes lands st' halted =>
    have positive := c.chunk_pos st.rounds
    have small := c.chunk_le st.rounds
    have first : Adds c.slab st st' (fun x => off ≤ x ∧ x < off + n) none := adds_write _ (by omega) (by omega)
    exact first.of_error fun x inside => ⟨inside.1, by omega⟩
  | case2 st off more n writes lands st' goes ih =>
    have positive := c.chunk_pos st.rounds
    have small := c.chunk_le st.rounds
    have first : Adds c.slab st st' (fun x => off ≤ x ∧ x < off + n) none := adds_write _ (by omega) (by omega)
    exact first.trans ih (fun x => by omega) (fun x => by omega)
  | case3 st off more n writes fails =>
    have positive := c.chunk_pos st.rounds
    have small := c.chunk_le st.rounds
    have first : Adds c.slab st ⟨st.rounds, writes, st.holeBytes + n⟩ (fun x => off ≤ x ∧ x < off + n) none :=
      adds_write _ (by omega) (by omega)
    have partly := first.of_error (S := fun x => off ≤ x ∧ x < stop) (e := .write off) fun x inside => ⟨inside.1, by omega⟩
    exact { partly with counted := fun never => by cases never }
  | case4 st off done => exact .none_ fun x inside => by omega

/-- The offsets from a position on that lie in the file and in no extent. -/
abbrev Hole (size : Int) (extents : List Interval) (pos x : Int) : Prop := (pos ≤ x ∧ x < size) ∧ ¬ Covered extents x

theorem hole_cons {size pos : Int} {ex : Interval} {extents : List Interval} (x : Int) :
    Hole size (ex :: extents) pos x ↔ Hole size (ex :: extents) pos x ∧ x < ex.start ∨ Hole size extents (max pos ex.stop) x := by
  constructor
  · rintro ⟨⟨left, right⟩, uncovered⟩
    rw [covered_cons, not_or] at uncovered
    by_cases before : x < ex.start
    · exact .inl ⟨⟨⟨left, right⟩, by rw [covered_cons, not_or]; exact uncovered⟩, before⟩
    · have behind : ex.stop ≤ x := Int.not_lt.mp fun inside => uncovered.1 ⟨Int.not_lt.mp before, inside⟩
      exact .inr ⟨⟨by omega, right⟩, uncovered.2⟩
  · rintro (⟨hole, -⟩ | ⟨⟨left, right⟩, uncovered⟩)
    · exact hole
    · refine ⟨⟨by omega, right⟩, ?_⟩
      rw [covered_cons, not_or]
      exact ⟨fun has => by have := has.2; omega, uncovered⟩

theorem walk_adds {size : Int} {extents : List Interval} (ranges : ∀ ex ∈ extents, ex.start ≤ ex.stop)
    (apart : extents.Pairwise fun a b => a.stop ≤ b.start) (walked : c.walk size extents st pos = (st', pos', err)) :
    (err = none → pos ≤ pos' ∧ (size ≤ pos' ∨ ∀ ex ∈ extents, ex.stop ≤ pos') ∧
        Adds c.slab st st' (fun x => Hole size extents pos x ∧ x < pos') none) ∧
      ∀ e, err = some e → Adds c.slab st st' (Hole size extents pos) (some e) := by
  induction extents generalizing st pos with
  | nil =>
    cases walked
    refine ⟨fun _ => ⟨Int.le_refl _, .inr fun _ never => (by cases never), .none_ fun x inside => ?_⟩,
      fun e never => by cases never⟩
    have := inside.1.1.1
    omega
  | cons ex extents ih =>
    obtain ⟨after, rest⟩ := List.pairwise_cons.mp apart
    have ordered := ranges ex List.mem_cons_self
    rw [walk] at walked
    split at walked
    · case isTrue full =>
      cases walked
      refine ⟨fun _ => ⟨Int.le_refl _, .inl full, .none_ fun x inside => ?_⟩, fun e never => by cases never⟩
      have := inside.1.1
      omega
    · case isFalse short =>
      -- the gap before the extent holds no byte of a later one
      have uncovered : ∀ x < ex.start, ¬ Covered (ex :: extents) x := by
        rintro x before ⟨v, member, left, -⟩
        cases member with
        | head => omega
        | tail _ later =>
          have := after v later
          omega
      have gap : Adds c.slab st (if pos < ex.start then c.fill (min ex.start size) st pos else (st, none)).1
          (fun x => Hole size (ex :: extents) pos x ∧ x < ex.start)
          (if pos < ex.start then c.fill (min ex.start size) st pos else (st, none)).2 := by
        split
        · refine (c.fill_adds (min ex.start size) st pos).congr fun x => ?_
          constructor
          · intro inside
            exact ⟨⟨⟨inside.1, by omega⟩, uncovered x (by omega)⟩, by omega⟩
          · intro inside
            have := inside.1.1
            omega
        · exact .none_ fun x inside => by have := inside.1.1.1; omega
      simp only at walked
      cases failed : (if pos < ex.start then c.fill (min ex.start size) st pos else (st, none)).2 with
      | some e =>
        rw [failed] at walked gap
        cases walked
        exact ⟨fun never => (by cases never), fun e same => by cases same; exact gap.of_error fun x inside => inside.1⟩
      | none =>
        rw [failed] at walked gap
        have later := ih (fun v member => ranges v (List.mem_cons_of_mem _ member)) rest walked
        have reached : (if pos < ex.stop then ex.stop else pos) = max pos ex.stop := by
          split <;> omega
        rw [reached] at later
        have apart' : ∀ x, Hole size (ex :: extents) pos x ∧ x < ex.start → ¬ Hole size extents (max pos ex.stop) x := by
          intro x before behind
          have := behind.1.1
          omega
        refine ⟨fun clean => ?_, fun e same => ?_⟩
        · obtain ⟨onward, ended, adds⟩ := later.1 clean
          refine ⟨by omega, ended.imp_right fun short v member => ?_, ?_⟩
          · cases member with
            | head => omega
            | tail _ member => exact short v member
          · refine gap.trans adds (fun x => ?_) fun x before behind => apart' x before behind.1
            constructor
            · rintro ⟨hole, high⟩
              cases (hole_cons x).mp hole with
              | inl before => exact .inl before
              | inr behind => exact .inr ⟨behind, high⟩
            · rintro (before | ⟨behind, high⟩)
              · exact ⟨before.1, by omega⟩
              · exact ⟨(hole_cons x).mpr (.inr behind), high⟩
        · exact gap.trans (later.2 e same) hole_cons apart'

theorem walkAll_adds {size : Int} {extents : List Interval} (ranges : ∀ ex ∈ extents, ex.start ≤ ex.stop)
    (apart : extents.Pairwise fun a b => a.stop ≤ b.start) :
    Adds c.slab ⟨0, [], 0⟩ (c.walkAll size extents).1 (Hole size extents 0) (c.walkAll size extents).2 := by
  rw [walkAll]
  split
  · case h_1 st pos e walked => exact (walk_adds ranges apart walked).2 e rfl
  · case h_2 st pos walked =>
    obtain ⟨onward, ended, adds⟩ := (walk_adds ranges apart walked).1 rfl
    split
    · case isTrue short =>
      have last : ∀ ex ∈ extents, ex.stop ≤ pos := ended.resolve_left (Int.not_le.mpr short)
      refine adds.trans (c.fill_adds size st pos) (fun x => ?_) fun x before behind => by omega
      constructor
      · intro hole
        have := hole.1
        by_cases before : x < pos
        · exact .inl ⟨hole, before⟩
        · exact .inr (by omega)
      · rintro (before | behind)
        · exact before.1
        · refine ⟨by omega, ?_⟩
          rintro ⟨ex, member, -, right⟩
          have := last ex member
          omega
    · case isFalse full =>
      refine adds.congr fun x => ⟨And.left, fun hole => ⟨hole, ?_⟩⟩
      have := hole.1
      omega

end Checker

/-- A walk writes only bytes of the file outside the extents, each at most once and in pieces of at most a slab; when it
succeeds it has written all of them, and reports their number. -/
theorem hole_fill_exact (c : Checker) {size : Int} {extents : List Interval} (ranges : ∀ ex ∈ extents, ex.start ≤ ex.stop)
    (apart : extents.Pairwise fun a b => a.stop ≤ b.start) (densifies : Bool) :
    (∀ x, hits (deSparse .unsupported (some c) (some extents) densifies size).writes x ≤
        if (0 ≤ x ∧ x < size) ∧ ¬ Covered extents x then 1 else 0) ∧
      (∀ v ∈ (deSparse .unsupported (some c) (some extents) densifies size).writes,
          v.start < v.stop ∧ v.stop - v.start ≤ c.slab) ∧
      ∀ method holeBytes, (deSparse .unsupported (some c) (some extents) densifies size).result = .ok (method, holeBytes) →
        (∀ x, hits (deSparse .unsupported (some c) (some extents) densifies size).writes x =
          if (0 ≤ x ∧ x < size) ∧ ¬ Covered extents x then 1 else 0) ∧
        holeBytes = totalLength (deSparse .unsupported (some c) (some extents) densifies size).writes := by
  have adds : Adds c.slab ⟨0, [], 0⟩ _ (Checker.Hole size extents 0) _ := Checker.walkAll_adds ranges apart
  simp only [deSparse]
  rcases walked : c.walkAll size extents with ⟨st, err⟩
  rw [walked] at adds
  have sized : ∀ v ∈ st.writes, v.start < v.stop ∧ v.stop - v.start ≤ c.slab := fun v member =>
    (adds.sized v member).resolve_left List.not_mem_nil
  have within : ∀ x, hits st.writes x ≤ if (0 ≤ x ∧ x < size) ∧ ¬ Covered extents x then 1 else 0 := fun x =>
    (adds.within x).trans_eq (Nat.zero_add _)
  cases err with
  | some e => exact ⟨within, sized, fun method holeBytes never => by cases never⟩
  | none =>
    refine ⟨within, sized, fun method holeBytes succeeded => ⟨fun x => ?_, ?_⟩⟩
    · exact (adds.once rfl x).trans (Nat.zero_add _)
    · have counted := adds.counted rfl
      simp only at succeeded
      split at succeeded
      · cases succeeded
        simp only [totalLength, List.map_nil, List.sum_nil] at counted ⊢
        omega
      · cases succeeded

/-- A limiter that halves the slab in every second round. -/
def dutyChecker : Checker where
  slab := 8
  positive := by decide
  limited := true
  round n := ⟨if n % 2 = 0 then 4 else 20, by split <;> decide, if n = 1 then .unaligned true else .done, true⟩

theorem hole_fill_exact_limited :
    (deSparse .unsupported (some dutyChecker) (some [⟨0, 3⟩, ⟨10, 12⟩, ⟨14, 50⟩]) true 16).result = .ok (.walk, 9) ∧
      totalLength (deSparse .unsupported (some dutyChecker) (some [⟨0, 3⟩, ⟨10, 12⟩, ⟨14, 50⟩]) true 16).writes = 9 := by
  have succeeded : (deSparse .unsupported (some dutyChecker) (some [⟨0, 3⟩, ⟨10, 12⟩, ⟨14, 50⟩]) true 16).result =
      .ok (.walk, 9) := by
    simp [deSparse, Checker.walkAll, Checker.walk, Checker.fill, Checker.chunk, dutyChecker, zeroSlice, ZeroWrite.lands]
  have counted := ((hole_fill_exact dutyChecker (by decide) (by decide) true).2.2 .walk 9 succeeded).2
  exact ⟨succeeded, counted.symm⟩

end Hfdl.Verify
