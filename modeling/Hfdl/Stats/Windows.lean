import Hfdl.Int64
import Hfdl.Timeline
import Mathlib.Algebra.Ring.Int.Defs
import Mathlib.Data.List.Pairwise

/-! The two sliding windows of the last ten seconds: the byte rates keep a bucket for each second and clear the buckets
that fall out when the time moves on, the throttle tags each slot with the second it counts. -/
namespace Hfdl.Windows
open Timeline

def windowSeconds : Nat := 10

def slot (sec : Nat) : Fin windowSeconds := ⟨sec % windowSeconds, Nat.mod_lt _ (by decide)⟩

structure RateRing where
  buckets : Fin windowSeconds → Int
  curSec : Nat

def RateRing.zero : RateRing := ⟨fun _ => 0, 0⟩

/-- A time that is not later rotates nothing. -/
def RateRing.rotate (r : RateRing) (nowSec : Nat) : RateRing :=
  if nowSec ≤ r.curSec then r
  else
    let delta := min (nowSec - r.curSec) windowSeconds
    ⟨(List.range delta).foldl (fun b k => Function.update b (slot (r.curSec + (k + 1))) 0) r.buckets, nowSec⟩

def RateRing.add (r : RateRing) (nowSec : Nat) (n : Int) : RateRing :=
  let r := r.rotate nowSec
  { r with buckets := Function.update r.buckets (slot r.curSec) (r.buckets (slot r.curSec) + n) }

/-- The sum that `Rate` divides by the length of the window. -/
def RateRing.bucketSum (r : RateRing) (nowSec : Nat) : Int := ∑ i, (r.rotate nowSec).buckets i

structure Slot where
  epoch : Int
  vals : List Int

structure WindowRing where
  slots : Fin windowSeconds → Slot

def newWindowRing (counters : Nat) : WindowRing := ⟨fun _ => ⟨minInt64, List.replicate counters 0⟩⟩

def Slot.at (s : Slot) (ep : Nat) : Slot := if s.epoch ≠ ep then ⟨ep, s.vals.map fun _ => 0⟩ else s

def WindowRing.add (r : WindowRing) (ep idx : Nat) (v : Int) : WindowRing :=
  let s := (r.slots (slot ep)).at ep
  ⟨Function.update r.slots (slot ep) { s with vals := s.vals.set idx (s.vals.getD idx 0 + v) }⟩

def WindowRing.sum (r : WindowRing) (now idx : Nat) : Int :=
  ∑ i, if (r.slots i).epoch ≤ now ∧ (now : Int) - windowSeconds < (r.slots i).epoch then (r.slots i).vals.getD idx 0 else 0

/-! ### Operations and what they amount to -/

inductive Op where
  | add (sec : Nat) (v : Int)
  | query (sec : Nat)
deriving DecidableEq

def Op.sec : Op → Nat
  | add sec _ => sec
  | query sec => sec

def Op.added : Op → Option (Nat × Int)
  | add sec v => some (sec, v)
  | query _ => none

def adds (ops : List Op) : List (Nat × Int) := ops.filterMap Op.added

/-- What was added in the seconds of `(now - 10, now]`. -/
def windowSum (ops : List Op) (now : Nat) : Int := amount (fun sec => now < sec + windowSeconds ∧ sec ≤ now) (adds ops)

/-- A query of a rate rotates too. -/
def RateRing.apply (r : RateRing) : Op → RateRing
  | .add sec v => r.add sec v
  | .query sec => r.rotate sec

def WindowRing.apply (idx : Nat) (r : WindowRing) : Op → WindowRing
  | .add sec v => r.add sec idx v
  | .query _ => r

def rateRun (ops : List Op) : RateRing := ops.foldl RateRing.apply .zero

def windowRun (counters idx : Nat) (ops : List Op) : WindowRing := ops.foldl (WindowRing.apply idx) (newWindowRing counters)

/-! ### Buckets cleared as the time moves on -/

/-- Each bucket holds what its second in the window has got. -/
structure RateRing.Counts (r : RateRing) (records : List (Nat × Int)) : Prop where
  past : ∀ e ∈ records, e.1 ≤ r.curSec
  bucket : ∀ i, r.buckets i = amount (fun sec => sec % windowSeconds = i ∧ r.curSec < sec + windowSeconds) records

theorem clear_apply (b : Fin windowSeconds → Int) (cur n : Nat) (i : Fin windowSeconds) :
    (List.range n).foldl (fun b k => Function.update b (slot (cur + (k + 1))) 0) b i =
      if ∃ k < n, slot (cur + (k + 1)) = i then 0 else b i := by
  induction n with
  | zero => simp
  | succ n ih =>
    rw [List.range_succ, List.foldl_append, List.foldl_cons, List.foldl_nil, Function.update_apply, ih]
    simp only [Nat.lt_succ_iff_lt_or_eq, or_and_right, exists_or, exists_eq_left]
    by_cases here : slot (cur + (n + 1)) = i
    · simp [here]
    · simp [here, Ne.symm here]

theorem RateRing.Counts.rotate (counts : Counts r records) : (r.rotate now).Counts records := by
  unfold RateRing.rotate
  split
  · exact counts
  next later =>
    refine ⟨fun e member => (counts.past e member).trans (Nat.le_of_not_le later), fun i => ?_⟩
    dsimp only
    rw [clear_apply]
    split
    next cleared =>
      -- a second of the new window in this bucket would lie after the old time
      obtain ⟨k, small, rfl⟩ := cleared
      symm
      apply amount_none
      rintro e member ⟨same, recent⟩
      have past := counts.past e member
      simp only [slot, windowSeconds] at *
      omega
    next kept =>
      rw [counts.bucket]
      apply amount_congr
      intro e member
      have past := counts.past e member
      refine and_congr_right fun same => ⟨fun recent => ?_, fun recent => by omega⟩
      -- a second that falls out of the window has its bucket cleared
      by_contra out
      apply kept
      refine ⟨e.1 + windowSeconds - r.curSec - 1, by simp only [windowSeconds] at *; omega, ?_⟩
      apply Fin.ext
      simp only [slot, windowSeconds] at *
      omega

theorem RateRing.rotate_curSec (r : RateRing) (later : r.curSec ≤ now) : (r.rotate now).curSec = now := by
  unfold RateRing.rotate
  split
  · omega
  · rfl

theorem RateRing.rotate_curSec_le (r : RateRing) (late : r.curSec ≤ now) (asked : sec ≤ now) : (r.rotate sec).curSec ≤ now := by
  unfold RateRing.rotate
  split
  · exact late
  · exact asked

theorem RateRing.Counts.add (counts : Counts r records) (later : r.curSec ≤ now) :
    (r.add now n).Counts (records ++ [(now, n)]) := by
  have rotated : (r.rotate now).Counts records := counts.rotate
  have time := r.rotate_curSec later
  refine ⟨?_, fun i => ?_⟩
  · intro e member
    rcases List.mem_append.mp member with old | new
    · exact rotated.past e old
    · rw [List.mem_singleton.mp new]
      exact time.ge
  · simp only [RateRing.add, Function.update_apply, time, amount_snoc]
    have bucket := rotated.bucket i
    rw [time] at bucket
    by_cases here : i = slot now
    · rw [if_pos here, if_pos ⟨by rw [here]; rfl, by simp only [windowSeconds]; omega⟩, ← here, bucket]
    · have other : ¬ (now % windowSeconds = i ∧ now < now + windowSeconds) :=
        fun both => here (Fin.ext both.1.symm)
      rw [if_neg here, if_neg other, add_zero, bucket]

theorem RateRing.Counts.sum (counts : Counts r records) (later : r.curSec ≤ now) :
    r.bucketSum now = amount (fun sec => now < sec + windowSeconds ∧ sec ≤ now) records := by
  have rotated : (r.rotate now).Counts records := counts.rotate
  have time := r.rotate_curSec later
  simp only [RateRing.bucketSum, rotated.bucket, time]
  rw [sum_amount_mod windowSeconds (by decide)]
  apply amount_congr
  intro e member
  have past := rotated.past e member
  rw [time] at past
  exact ⟨fun recent => ⟨recent, past⟩, And.left⟩

/-! ### Slots tagged with their second -/

/-- Each slot counts the latest of its seconds. -/
structure WindowRing.Counts (r : WindowRing) (idx : Nat) (records : List (Nat × Int)) : Prop where
  sized : ∀ i, idx < (r.slots i).vals.length
  latest : ∀ e ∈ records, (e.1 : Int) ≤ (r.slots (slot e.1)).epoch
  counted : ∀ i, (r.slots i).epoch = minInt64 ∨ ∃ e ∈ records, slot e.1 = i ∧ (r.slots i).epoch = e.1
  value : ∀ i, (r.slots i).vals.getD idx 0 = amount (fun sec => (sec : Int) = (r.slots i).epoch) records

theorem newWindowRing_counts (counter : idx < counters) : (newWindowRing counters).Counts idx [] where
  sized _ := by rw [newWindowRing, List.length_replicate]; exact counter
  latest _ member := absurd member List.not_mem_nil
  counted _ := .inl rfl
  value _ := by
    rw [amount_nil, newWindowRing, List.getD_eq_getElem?_getD, List.getElem?_replicate_of_lt counter, Option.getD_some]

theorem WindowRing.Counts.at (counts : Counts r idx records) (later : ∀ e ∈ records, e.1 ≤ ep) :
    ((r.slots (slot ep)).at ep).epoch = ep ∧ idx < ((r.slots (slot ep)).at ep).vals.length ∧
      ((r.slots (slot ep)).at ep).vals.getD idx 0 = amount (fun sec => sec = ep) records := by
  unfold Slot.at
  have sized := counts.sized (slot ep)
  split
  next other =>
    refine ⟨rfl, by rw [List.length_map]; exact sized, ?_⟩
    rw [amount_none, List.getD_eq_getElem?_getD, List.getElem?_map, List.getElem?_eq_getElem sized]
    · rfl
    · rintro e member rfl
      have low := counts.latest e member
      rcases counts.counted (slot e.1) with never | ⟨e', member', -, same⟩
      · rw [never, minInt64] at low
        omega
      · have high := later e' member'
        omega
  next same =>
    refine ⟨not_not.mp same, sized, ?_⟩
    rw [counts.value, not_not.mp same]
    simp only [Nat.cast_inj]

theorem WindowRing.Counts.add (counts : Counts r idx records) (later : ∀ e ∈ records, e.1 ≤ ep) :
    (r.add ep idx v).Counts idx (records ++ [(ep, v)]) := by
  obtain ⟨epoch, sized, value⟩ := counts.at later
  refine ⟨fun i => ?_, ?_, fun i => ?_, fun i => ?_⟩
  · simp only [WindowRing.add, Function.update_apply]
    split
    · rw [List.length_set]
      exact sized
    · exact counts.sized i
  · intro e member
    simp only [WindowRing.add, Function.update_apply]
    split
    next here =>
      rw [epoch]
      rcases List.mem_append.mp member with old | new
      · exact_mod_cast later e old
      · rw [List.mem_singleton.mp new]
    next away =>
      rcases List.mem_append.mp member with old | new
      · exact counts.latest e old
      · exact absurd (by rw [List.mem_singleton.mp new]) away
  · simp only [WindowRing.add, Function.update_apply]
    split
    next here => exact .inr ⟨(ep, v), by simp, here.symm, epoch⟩
    next away =>
      rcases counts.counted i with never | ⟨e, member, there, same⟩
      · exact .inl never
      · exact .inr ⟨e, List.mem_append_left _ member, there, same⟩
  · simp only [WindowRing.add, Function.update_apply, amount_snoc]
    split
    next here =>
      rw [List.getD_eq_getElem?_getD, List.getElem?_set_self sized, Option.getD_some, value, epoch]
      simp only [Nat.cast_inj, if_true]
    next away =>
      -- the slot of another second does not count this one
      have other : (ep : Int) ≠ (r.slots i).epoch := by
        intro same
        rcases counts.counted i with never | ⟨e, member, there, counted⟩
        · rw [never, minInt64] at same
          omega
        · rw [counted, Nat.cast_inj] at same
          exact away (by rw [same, there])
      rw [counts.value, if_neg other, add_zero]

theorem WindowRing.Counts.sum (counts : Counts r idx records) (later : ∀ e ∈ records, e.1 ≤ now) :
    r.sum now idx = amount (fun sec => now < sec + windowSeconds ∧ sec ≤ now) records := by
  rw [WindowRing.sum, ← sum_amount_mod windowSeconds (by decide)]
  refine Finset.sum_congr rfl fun i _ => ?_
  have bounded : (r.slots i).epoch ≤ now := by
    rcases counts.counted i with never | ⟨e, member, -, same⟩
    · rw [never, minInt64]
      omega
    · rw [same]
      exact_mod_cast later e member
  split
  next inside =>
    rw [counts.value]
    apply amount_congr
    intro e member
    rcases counts.counted i with never | ⟨e', member', rfl, same⟩
    · rw [never, minInt64, windowSeconds] at inside
      omega
    · rw [same] at inside ⊢
      simp only [slot, windowSeconds] at inside ⊢
      constructor
      · omega
      · rintro ⟨here, recent, -⟩
        -- two seconds of one slot within one window are the same
        have latest := counts.latest e member
        rw [show slot e.1 = slot e'.1 from Fin.ext here, same] at latest
        omega
  next outside =>
    symm
    apply amount_none
    rintro e member ⟨here, recent, -⟩
    have latest := counts.latest e member
    rw [show slot e.1 = i from Fin.ext here] at latest
    exact outside ⟨bounded, by omega⟩

/-! ### Whole runs -/

theorem adds_snoc : adds (ops ++ [op]) = adds ops ++ (Op.added op).toList := by
  rw [adds, List.filterMap_append]
  cases op <;> rfl

theorem rateRun_snoc : rateRun (ops ++ [op]) = (rateRun ops).apply op := by
  rw [rateRun, List.foldl_append]
  rfl

theorem windowRun_snoc : windowRun counters idx (ops ++ [op]) = (windowRun counters idx ops).apply idx op := by
  rw [windowRun, List.foldl_append]
  rfl

/-- No add is at an earlier second than an operation before it. -/
def Forward (ops : List Op) : Prop := ops.Pairwise fun before op => op.added ≠ none → before.sec ≤ op.sec
deriving Decidable

/-- The clock of a ring is not ahead of all operations. A query of an earlier second changes nothing. -/
theorem rateRun_counts (forward : Forward ops) :
    (rateRun ops).Counts (adds ops) ∧ ∀ now, (∀ op ∈ ops, op.sec ≤ now) → (rateRun ops).curSec ≤ now := by
  induction ops using List.reverseRecOn with
  | nil => exact ⟨⟨by simp [adds], fun _ => rfl⟩, fun _ _ => Nat.zero_le _⟩
  | append_singleton ops op ih =>
    obtain ⟨before, -, last⟩ := List.pairwise_append.mp forward
    obtain ⟨counts, clock⟩ := ih before
    rw [rateRun_snoc, adds_snoc]
    have rotated (now : Nat) (bounds : ∀ o ∈ ops ++ [op], o.sec ≤ now) : ((rateRun ops).rotate op.sec).curSec ≤ now :=
      RateRing.rotate_curSec_le _ (clock now fun o member => bounds o (List.mem_append_left _ member)) (bounds op (by simp))
    cases op with
    | add sec v =>
      have later : (rateRun ops).curSec ≤ sec := clock sec fun o member =>
        last o member (.add sec v) (by simp) (by simp [Op.added])
      exact ⟨counts.add later, rotated⟩
    | query sec =>
      refine ⟨?_, rotated⟩
      rw [Op.added, Option.toList_none, List.append_nil]
      exact counts.rotate

/-- Queries leave the tagged slots alone, so only the adds need their order. -/
theorem windowRun_counts (counter : idx < counters) (ordered : ((adds ops).map Prod.fst).Pairwise (· ≤ ·)) :
    (windowRun counters idx ops).Counts idx (adds ops) := by
  induction ops using List.reverseRecOn with
  | nil => exact newWindowRing_counts counter
  | append_singleton ops op ih =>
    rw [adds_snoc, List.map_append, List.pairwise_append] at ordered
    have counts := ih ordered.1
    rw [windowRun_snoc, adds_snoc]
    cases op with
    | add sec v =>
      exact counts.add fun e member => ordered.2.2 _ (List.mem_map_of_mem member) _ (by simp [Op.added])
    | query sec =>
      rw [Op.added, Option.toList_none, List.append_nil]
      exact counts

/-- The tagged slots hold what was added in the last ten seconds, whatever is asked between the adds; the buckets do where
no add is at an earlier second than an operation before it. -/
theorem windows_agree (ordered : ((adds ops).map Prod.fst).Pairwise (· ≤ ·)) (counter : idx < counters) :
    (∀ now, (∀ e ∈ adds ops, e.1 ≤ now) → (windowRun counters idx ops).sum now idx = windowSum ops now) ∧
      (Forward ops → ∀ now, (∀ op ∈ ops, op.sec ≤ now) → (rateRun ops).bucketSum now = windowSum ops now) := by
  refine ⟨fun now late => (windowRun_counts counter ordered).sum late, fun forward now late => ?_⟩
  obtain ⟨counts, clock⟩ := rateRun_counts forward
  exact counts.sum (clock now late)

/-- Seconds that reuse a bucket, queries between them, one of an earlier second, and a gap. -/
def busy : List Op := [.add 3 5, .query 4, .add 12 7, .query 9, .add 13 (-2), .query 14, .add 22 1]

theorem windows_agree_busy :
    (rateRun busy).bucketSum 22 = -1 ∧ (windowRun 2 1 busy).sum 22 1 = -1 ∧ windowSum busy 22 = -1 := by
  obtain ⟨window, rate⟩ := windows_agree (by decide : ((adds busy).map Prod.fst).Pairwise (· ≤ ·)) (by decide : 1 < 2)
  have sum : windowSum busy 22 = -1 := by decide
  exact ⟨(rate (by decide) 22 (by decide)).trans sum, (window 22 (by decide)).trans sum, sum⟩

/-- An add at a second before that of an earlier query goes to the bucket of the query in the one window, and out of the
other. -/
theorem windows_disagree :
    ((adds [.query 100, .add 50 5]).map Prod.fst).Pairwise (· ≤ ·) ∧
      (rateRun [.query 100, .add 50 5]).bucketSum 100 = 5 ∧ (windowRun 1 0 [.query 100, .add 50 5]).sum 100 0 = 0 ∧
      windowSum [.query 100, .add 50 5] 100 = 0 := by
  decide +kernel

end Hfdl.Windows
