import Hfdl.Int64
import Mathlib.Algebra.Group.Int.Defs
import Mathlib.Order.Interval.Set.Basic
import Mathlib.Tactic.Common

/-! The durable record of which bytes are on disk: a sorted, coalesced set of
half-open ranges, independent of how blocks are cut. The stored list carries
its normal form, so a set that overlaps itself cannot be built. -/
namespace Hfdl

/-- A half-open byte range `[start, stop)` inside a file. -/
structure Interval where
  start : Int
  stop : Int
deriving DecidableEq, Repr

def Interval.Has (v : Interval) (x : Int) : Prop := v.start ≤ x ∧ x < v.stop
deriving Decidable

def Covered (iv : List Interval) (x : Int) : Prop := ∃ v ∈ iv, v.Has x
deriving Decidable

/-- Sorted, disjoint, non-adjacent and non-empty. -/
structure Canonical (iv : List Interval) : Prop where
  nonempty : ∀ v ∈ iv, v.start < v.stop
  apart : iv.Pairwise fun a b => a.stop < b.start

/-- `size` is the length of the file, a machine integer, carried for the codec. -/
structure IntervalSet where
  iv : List Interval
  size : Int
  canonical : Canonical iv
  fits : size ≤ maxInt64

@[simp] theorem covered_nil (x : Int) : ¬ Covered [] x := fun ⟨_, inside, _⟩ => List.not_mem_nil inside

theorem covered_cons : Covered (v :: vs) x ↔ v.Has x ∨ Covered vs x := by
  simp only [Covered, List.mem_cons, exists_eq_or_imp]

theorem covered_append : Covered (vs ++ ws) x ↔ Covered vs x ∨ Covered ws x := by
  simp only [Covered, List.mem_append, or_and_right, exists_or]

theorem Canonical.nil : Canonical [] := ⟨fun _ inside => (List.not_mem_nil inside).elim, .nil⟩

theorem Canonical.tail (sorted : Canonical (v :: vs)) : Canonical vs :=
  ⟨fun w inside => sorted.nonempty w (List.mem_cons_of_mem _ inside), sorted.apart.of_cons⟩

theorem Canonical.head (sorted : Canonical (v :: vs)) : v.start < v.stop :=
  sorted.nonempty v List.mem_cons_self

theorem Canonical.head_apart (sorted : Canonical (v :: vs)) (inside : w ∈ vs) : v.stop < w.start :=
  List.rel_of_pairwise_cons sorted.apart inside

theorem Canonical.cons (ordered : v.start < v.stop) (apart : ∀ w ∈ vs, v.stop < w.start) (rest : Canonical vs) :
    Canonical (v :: vs) := by
  refine ⟨fun w inside => ?_, List.pairwise_cons.mpr ⟨apart, rest.apart⟩⟩
  rcases List.mem_cons.mp inside with rfl | inside
  · exact ordered
  · exact rest.nonempty w inside

/-- The merge loop of `Add`: `stop` is the end of the added range, `ns` and `ne` the bounds merged so far. -/
def absorb (stop : Int) : List Interval → Int → Int → List Interval
  | [], ns, ne => [⟨ns, ne⟩]
  | v :: vs, ns, ne =>
    if v.start ≤ stop then absorb stop vs (min v.start ns) (max v.stop ne) else ⟨ns, ne⟩ :: v :: vs

/-- Ranges strictly to the left of the new one stay; the first that reaches it starts the merge. -/
def addRange (start stop : Int) : List Interval → List Interval
  | [] => [⟨start, stop⟩]
  | v :: vs => if v.stop < start then v :: addRange start stop vs else absorb stop (v :: vs) start stop

theorem absorb_covered (ends : stop ≤ ne) (reaches : ∀ v ∈ vs, ns ≤ v.stop) :
    Covered (absorb stop vs ns ne) x ↔ (ns ≤ x ∧ x < ne) ∨ Covered vs x := by
  induction vs generalizing ns ne with
  | nil => simp [absorb, covered_cons, Interval.Has]
  | cons v vs ih =>
    simp only [absorb]
    split
    · have here := reaches v List.mem_cons_self
      have later : ∀ w ∈ vs, min v.start ns ≤ w.stop := fun w inside => by
        have := reaches w (List.mem_cons_of_mem _ inside)
        omega
      rw [ih (by omega) later, covered_cons, ← or_assoc]
      refine or_congr_left ?_
      simp only [Interval.Has]
      omega
    · rw [covered_cons]
      rfl

theorem absorb_canonical (sorted : Canonical vs) (ordered : ns < ne)
    (clear : ∀ v ∈ vs, stop < v.start → ne < v.start) : Canonical (absorb stop vs ns ne) := by
  induction vs generalizing ns ne with
  | nil => exact Canonical.cons ordered (fun _ inside => (List.not_mem_nil inside).elim) Canonical.nil
  | cons v vs ih =>
    simp only [absorb]
    split
    · refine ih sorted.tail (by omega) fun w inside beyond => ?_
      have := sorted.head_apart inside
      have := clear w (List.mem_cons_of_mem _ inside) beyond
      omega
    · rename_i beyond
      have here := clear v List.mem_cons_self (by omega)
      refine Canonical.cons ordered (fun w inside => ?_) sorted
      rcases List.mem_cons.mp inside with rfl | inside
      · exact here
      · have := sorted.head_apart inside
        have := sorted.head
        show ne < w.start
        omega

theorem absorb_after (left : p < ns) (starts : ∀ v ∈ vs, p < v.start) : ∀ w ∈ absorb stop vs ns ne, p < w.start := by
  induction vs generalizing ns ne with
  | nil =>
    intro w inside
    rw [List.mem_singleton.mp inside]
    exact left
  | cons v vs ih =>
    simp only [absorb]
    split
    · have here := starts v List.mem_cons_self
      exact ih (by omega) fun w inside => starts w (List.mem_cons_of_mem _ inside)
    · intro w inside
      rcases List.mem_cons.mp inside with rfl | inside
      · exact left
      · exact starts w inside

theorem addRange_covered (sorted : Canonical vs) :
    Covered (addRange start stop vs) x ↔ (start ≤ x ∧ x < stop) ∨ Covered vs x := by
  induction vs with
  | nil => simp [addRange, covered_cons, Interval.Has]
  | cons v vs ih =>
    simp only [addRange]
    split
    · rw [covered_cons, ih sorted.tail, covered_cons]
      tauto
    · rename_i reached
      refine absorb_covered (Int.le_refl _) fun w inside => ?_
      rcases List.mem_cons.mp inside with rfl | inside
      · omega
      · have := sorted.head_apart inside
        have := sorted.tail.nonempty w inside
        omega

theorem addRange_after (left : p < start) (starts : ∀ v ∈ vs, p < v.start) :
    ∀ w ∈ addRange start stop vs, p < w.start := by
  induction vs with
  | nil =>
    intro w inside
    rw [List.mem_singleton.mp inside]
    exact left
  | cons v vs ih =>
    simp only [addRange]
    split
    · intro w inside
      rcases List.mem_cons.mp inside with rfl | inside
      · exact starts w List.mem_cons_self
      · exact ih (fun u member => starts u (List.mem_cons_of_mem _ member)) w inside
    · exact absorb_after left starts

theorem addRange_canonical (sorted : Canonical vs) (ordered : start < stop) : Canonical (addRange start stop vs) := by
  induction vs with
  | nil => exact Canonical.cons ordered (fun _ inside => (List.not_mem_nil inside).elim) Canonical.nil
  | cons v vs ih =>
    simp only [addRange]
    split
    · rename_i left
      exact Canonical.cons sorted.head (addRange_after left fun w inside => sorted.head_apart inside) (ih sorted.tail)
    · exact absorb_canonical sorted ordered fun _ _ beyond => beyond

theorem addRange_append (right : ∀ v ∈ vs, v.stop < start) : addRange start stop vs = vs ++ [⟨start, stop⟩] := by
  induction vs with
  | nil => rfl
  | cons v vs ih =>
    rw [addRange, if_pos (right v List.mem_cons_self), ih fun w inside => right w (List.mem_cons_of_mem _ inside)]
    rfl

/-- The loop of `prefixCovered`: how far the ranges reach on from `pos`; the walk ends past `stop`. -/
def reach (stop : Int) : List Interval → Int → Int
  | [], pos => pos
  | v :: vs, pos =>
    if v.stop ≤ pos then reach stop vs pos
    else if pos < v.start then pos
    else if stop ≤ v.stop then v.stop
    else reach stop vs v.stop

theorem le_reach (stop : Int) (vs : List Interval) (pos : Int) : pos ≤ reach stop vs pos := by
  induction vs generalizing pos with
  | nil => exact Int.le_refl _
  | cons v vs ih =>
    simp only [reach]
    split
    · exact ih pos
    split
    · exact Int.le_refl _
    split
    · omega
    · have := ih v.stop
      omega

theorem covered_of_reach {stop : Int} (left : pos ≤ x) (right : x < reach stop vs pos) : Covered vs x := by
  induction vs generalizing pos with
  | nil =>
    simp only [reach] at right
    omega
  | cons v vs ih =>
    rw [covered_cons]
    simp only [reach] at right
    split at right
    · exact .inr (ih left right)
    split at right
    · omega
    -- the range holds `pos` and ends right of it
    by_cases inside : x < v.stop
    · exact .inl ⟨by omega, inside⟩
    split at right
    · exact absurd right inside
    · exact .inr (ih (by omega) right)

/-- The loop of `Missing`: the gaps of the ranges from `next` on. -/
def missingFrom (total : Int) : List Interval → Int → List Interval
  | [], next => if next < total then [⟨next, total⟩] else []
  | v :: vs, next =>
    let gap := if next < v.start then [⟨next, min v.start total⟩] else []
    let next := max next v.stop
    if total ≤ next then gap else gap ++ missingFrom total vs next

theorem covered_missingFrom (left : next ≤ x) (right : x < total) (uncovered : ¬ Covered vs x) :
    Covered (missingFrom total vs next) x := by
  induction vs generalizing next with
  | nil =>
    have open_ : next < total := by omega
    simp only [missingFrom, if_pos open_, covered_cons]
    exact .inl ⟨left, right⟩
  | cons v vs ih =>
    rw [covered_cons, not_or] at uncovered
    simp only [missingFrom]
    by_cases before : x < v.start
    · -- the offset lies in the gap before this range
      have gap : Covered (if next < v.start then [⟨next, min v.start total⟩] else []) x := by
        rw [if_pos (by omega), covered_cons]
        exact .inl ⟨left, by show x < min v.start total; omega⟩
      split
      · exact gap
      · exact covered_append.mpr (.inl gap)
    · have after : v.stop ≤ x := by
        by_contra inside
        exact uncovered.1 ⟨by omega, by omega⟩
      rw [if_neg (by omega)]
      exact covered_append.mpr (.inr (ih (by omega) uncovered.2))

theorem missingFrom_within : ∀ v ∈ missingFrom total vs next, next ≤ v.start ∧ v.stop ≤ total := by
  induction vs generalizing next with
  | nil =>
    intro v inside
    simp only [missingFrom] at inside
    split at inside
    · rw [List.mem_singleton.mp inside]
      exact ⟨Int.le_refl _, Int.le_refl _⟩
    · cases inside
  | cons w vs ih =>
    have gap : ∀ v ∈ (if next < w.start then [⟨next, min w.start total⟩] else [] : List Interval),
        next ≤ v.start ∧ v.stop ≤ total := by
      intro v inside
      split at inside
      · rw [List.mem_singleton.mp inside]
        exact ⟨Int.le_refl _, Int.min_le_right ..⟩
      · cases inside
    intro v inside
    simp only [missingFrom] at inside
    split at inside
    · exact gap v inside
    · rcases List.mem_append.mp inside with inside | inside
      · exact gap v inside
      · have := ih v inside
        omega

theorem missingFrom_canonical (sorted : Canonical vs) (open_ : next < total) : Canonical (missingFrom total vs next) := by
  induction vs generalizing next with
  | nil =>
    rw [missingFrom, if_pos open_]
    exact .cons open_ (fun _ never => absurd never List.not_mem_nil) .nil
  | cons v vs ih =>
    have single (ordered : next < v.start) : Interval.start ⟨next, min v.start total⟩ <
      Interval.stop ⟨next, min v.start total⟩ := by
      show next < min v.start total
      omega
    rw [missingFrom]
    split
    · split
      · exact .cons (single ‹_›) (fun _ never => absurd never List.not_mem_nil) .nil
      · exact .nil
    rename_i more
    have rest := ih sorted.tail (Int.not_le.mp more)
    split
    · apply Canonical.cons (single ‹_›)
      · intro w member
        have := (missingFrom_within w member).1
        have := sorted.head
        show min v.start total < w.start
        omega
      · exact rest
    · exact rest

/-- Sorted non-empty ranges inside the file. -/
structure Ranges (size : Int) (missing : List Interval) : Prop where
  nonempty : ∀ m ∈ missing, m.start < m.stop ∧ 0 ≤ m.start ∧ m.stop ≤ size
  apart : missing.Pairwise fun m n => m.stop ≤ n.start

theorem Ranges.tail (ranges : Ranges size (m :: missing)) : Ranges size missing :=
  ⟨fun n member => ranges.nonempty n (List.mem_cons_of_mem _ member), ranges.apart.of_cons⟩

namespace IntervalSet

def empty (size : Int) (fits : size ≤ maxInt64) : IntervalSet := ⟨[], size, .nil, fits⟩

/-- Empty or inverted ranges are ignored. -/
def add (s : IntervalSet) (start stop : Int) : IntervalSet :=
  if ordered : start < stop then
    { s with iv := addRange start stop s.iv, canonical := addRange_canonical s.canonical ordered }
  else s

def Covers (s : IntervalSet) (x : Int) : Prop := Covered s.iv x
deriving Decidable

@[ext] theorem ext {a b : IntervalSet} (ranges : a.iv = b.iv) (sizes : a.size = b.size) : a = b := by
  cases a
  cases b
  simp only at ranges sizes
  subst ranges sizes
  rfl

instance : DecidableEq IntervalSet := fun a b =>
  decidable_of_iff (a.iv = b.iv ∧ a.size = b.size) ⟨fun same => ext same.1 same.2, fun same => same ▸ ⟨rfl, rfl⟩⟩

@[simp] theorem covers_empty {size : Int} {fits : size ≤ maxInt64} : ¬ (empty size fits).Covers x := covered_nil x

@[simp] theorem add_size (s : IntervalSet) : (s.add start stop).size = s.size := by
  simp only [add]
  split <;> rfl

@[simp] theorem covers_add {s : IntervalSet} : (s.add start stop).Covers x ↔ (start ≤ x ∧ x < stop) ∨ s.Covers x := by
  simp only [add]
  split
  · exact addRange_covered s.canonical
  · have : ¬ (start ≤ x ∧ x < stop) := by omega
    simp [this]

/-- The complement of the set within `[0, total)`. -/
def missing (s : IntervalSet) (total : Int) : List Interval := missingFrom total s.iv 0

theorem missing_ranges (s : IntervalSet) (positive : 0 < total) : Ranges total (s.missing total) := by
  have sorted := missingFrom_canonical s.canonical positive
  exact ⟨fun v member => ⟨sorted.nonempty v member, missingFrom_within v member⟩, sorted.apart.imp Int.le_of_lt⟩

theorem covers_or_missing (s : IntervalSet) (left : 0 ≤ x) (right : x < total) : s.Covers x ∨ Covered (s.missing total) x := by
  by_cases covered : s.Covers x
  · exact .inl covered
  · exact .inr (covered_missingFrom left right covered)

/-- The length of the longest covered prefix of `[start, stop)`; it may run on past `stop`. -/
def prefixCovered (s : IntervalSet) (start stop : Int) : Int := reach stop s.iv start - start

theorem prefixCovered_nonneg (s : IntervalSet) (start stop : Int) : 0 ≤ s.prefixCovered start stop := by
  have := le_reach stop s.iv start
  simp only [prefixCovered]
  omega

theorem covers_of_prefixCovered {s : IntervalSet} (left : start ≤ x) (right : x < start + s.prefixCovered start stop) :
    s.Covers x := by
  simp only [prefixCovered] at right
  exact covered_of_reach left (by omega : x < reach stop s.iv start)

end IntervalSet
end Hfdl
