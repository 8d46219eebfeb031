import Hfdl.Indexed
import Hfdl.Transfer.ProgressBlob
import Mathlib.Data.Int.Interval
import Mathlib.Data.Set.Card

/-! The interval set as a set of offsets. A normal form is determined by what it covers, since its ranges are the maximal
covered runs; every query of the set is a statement about the covered offsets. -/
namespace Hfdl
open Indexed

section
variable {v w : Interval} {vs iv : List Interval} {start stop total next pos : Int}

/-- The index of the first stored range that reaches the new one, found by binary search. -/
def reachedFrom (start : Int) (iv : List Interval) : Nat := search iv.length fun i => iv[i]?.any fun v => start ≤ v.stop

/-- The ranges left of the new one stay in place, and the merged range is spliced in behind them. -/
def splice (start stop : Int) (iv : List Interval) : List Interval :=
  iv.take (reachedFrom start iv) ++ absorb stop (iv.drop (reachedFrom start iv)) start stop

theorem Canonical.stop_le {i j : Nat} (sorted : Canonical iv) (first : iv[i]? = some v) (later : iv[j]? = some w)
    (order : i ≤ j) :
    v.stop ≤ w.stop := by
  obtain ⟨inside, rfl⟩ := List.getElem?_eq_some_iff.mp first
  obtain ⟨inside', rfl⟩ := List.getElem?_eq_some_iff.mp later
  rcases Nat.lt_or_eq_of_le order with order | rfl
  · have apart := List.pairwise_iff_getElem.mp sorted.apart i j inside inside' order
    have ordered := sorted.nonempty _ (List.getElem_mem inside')
    omega
  · exact Int.le_refl _

/-- The linear walk and the binary search find the same place. -/
theorem addRange_of_index (k : Nat) (left : ∀ i < k, ∀ v, iv[i]? = some v → v.stop < start)
    (reached : ∀ v, iv[k]? = some v → start ≤ v.stop) :
    addRange start stop iv = iv.take k ++ absorb stop (iv.drop k) start stop := by
  induction k generalizing iv with
  | zero =>
    cases iv with
    | nil => rfl
    | cons v vs => rw [addRange, if_neg (Int.not_lt.mpr (reached v rfl)), List.take_zero, List.drop_zero, List.nil_append]
  | succ k ih =>
    cases iv with
    | nil => rfl
    | cons v vs =>
      have here : v.stop < start := left 0 (Nat.succ_pos k) v rfl
      rw [addRange, if_pos here, ih (fun i below => left (i + 1) (Nat.succ_lt_succ below)) reached]
      rfl

theorem addRange_eq_splice (sorted : Canonical iv) : addRange start stop iv = splice start stop iv := by
  have mono : ∀ i j, i ≤ j → j < iv.length → (iv[i]?.any fun v => decide (start ≤ v.stop)) = true →
      (iv[j]?.any fun v => decide (start ≤ v.stop)) = true := by
    intro i j order inside reached
    have later := List.getElem?_eq_getElem inside
    cases first : iv[i]? with
    | none =>
      rw [first] at reached
      cases reached
    | some v =>
      rw [first] at reached
      rw [later]
      exact decide_eq_true ((of_decide_eq_true reached).trans (sorted.stop_le first later order))
  apply addRange_of_index
  · intro i below v stored
    have missed := search_before mono i below
    rw [stored] at missed
    exact Int.not_le.mp (of_decide_eq_false missed)
  · intro v stored
    obtain ⟨inside, -⟩ := List.getElem?_eq_some_iff.mp stored
    have found : iv[reachedFrom start iv]?.any (fun v => decide (start ≤ v.stop)) = true := search_spec inside
    rw [stored] at found
    exact of_decide_eq_true found

theorem Canonical.uncovered_before (sorted : Canonical (v :: vs)) (before : x < v.start) : ¬ Covered (v :: vs) x := by
  rw [covered_cons]
  rintro (here | ⟨w, member, has⟩)
  · exact absurd here.1 (Int.not_le.mpr before)
  · have := sorted.head_apart member
    have := sorted.head
    have := has.1
    omega

theorem Canonical.apart_or_eq (sorted : Canonical iv) (member : v ∈ iv) (member' : w ∈ iv) :
    v = w ∨ v.stop < w.start ∨ w.stop < v.start := by
  have apart := List.pairwise_iff_getElem.mp sorted.apart
  obtain ⟨i, inside, rfl⟩ := List.getElem_of_mem member
  obtain ⟨j, inside', rfl⟩ := List.getElem_of_mem member'
  rcases Nat.lt_trichotomy i j with order | rfl | order
  · exact .inr (.inl (apart i j inside inside' order))
  · exact .inl rfl
  · exact .inr (.inr (apart j i inside' inside order))

theorem Canonical.eq_of_touch (sorted : Canonical iv) (member : v ∈ iv) (member' : w ∈ iv) (low : w.start ≤ v.stop)
    (high : v.start ≤ w.stop) : v = w := by
  rcases sorted.apart_or_eq member member' with same | apart | apart
  · exact same
  · omega
  · omega

/-- The ranges of a normal form are the maximal covered runs. -/
theorem Canonical.mem_iff (sorted : Canonical iv) :
    v ∈ iv ↔ v.start < v.stop ∧ (∀ x, v.Has x → Covered iv x) ∧ ¬ Covered iv (v.start - 1) ∧ ¬ Covered iv v.stop := by
  constructor
  · intro member
    have ordered := sorted.nonempty v member
    refine ⟨ordered, fun x has => ⟨v, member, has⟩, ?_, ?_⟩
    · rintro ⟨w, member', low, high⟩
      obtain rfl := sorted.eq_of_touch member member' (by omega) (by omega)
      omega
    · rintro ⟨w, member', low, high⟩
      obtain rfl := sorted.eq_of_touch member member' (by omega) (by omega)
      omega
  · rintro ⟨ordered, covered, left, right⟩
    obtain ⟨w, member, low, high⟩ := covered v.start ⟨Int.le_refl _, ordered⟩
    have start_eq : w.start = v.start := by
      by_contra other
      exact left ⟨w, member, by omega, by omega⟩
    have stop_eq : w.stop = v.stop := by
      by_contra other
      rcases Int.lt_or_gt_of_ne other with short | long
      · obtain ⟨u, member', low', high'⟩ := covered w.stop ⟨by omega, short⟩
        obtain rfl := sorted.eq_of_touch member member' (by omega) (by omega)
        omega
      · exact right ⟨w, member, by omega, long⟩
    cases w
    cases v
    cases start_eq
    cases stop_eq
    exact member

theorem Canonical.pairwise_start (sorted : Canonical iv) : iv.Pairwise fun a b => a.start < b.start :=
  sorted.apart.imp_of_mem fun first _ apart => (sorted.nonempty _ first).trans apart

/-- The covered offsets determine a normal form. -/
theorem Canonical.unique (sorted : Canonical vs) (sorted' : Canonical ws) (same : ∀ x, Covered vs x ↔ Covered ws x) :
    vs = ws := by
  have irrefl : Std.Irrefl fun a b : Interval => a.start < b.start := ⟨fun _ => Int.lt_irrefl _⟩
  have antisymm : Std.Antisymm fun a b : Interval => a.start < b.start :=
    ⟨fun _ _ first second => absurd first (Int.lt_asymm second)⟩
  apply List.Pairwise.eq_of_mem_iff sorted.pairwise_start sorted'.pairwise_start
  intro v
  rw [sorted.mem_iff, sorted'.mem_iff]
  simp only [same]

/-- The loop of `contains`. -/
def containsFrom (stop : Int) : List Interval → Int → Bool
  | [], start => stop ≤ start
  | v :: vs, start =>
    if start < v.start then false
    else if stop ≤ v.stop then true
    else containsFrom stop vs (max start v.stop)

theorem containsFrom_iff (sorted : Canonical vs) (ordered : start < stop) :
    containsFrom stop vs start = true ↔ ∀ x, start ≤ x → x < stop → Covered vs x := by
  induction vs generalizing start with
  | nil =>
    constructor
    · intro done
      exact absurd (of_decide_eq_true done) (Int.not_le.mpr ordered)
    · intro covered
      exact absurd (covered start (Int.le_refl _) ordered) (covered_nil _)
  | cons v vs ih =>
    rw [containsFrom]
    split
    · rename_i before
      constructor
      · intro never
        cases never
      · intro covered
        exact absurd (covered start (Int.le_refl _) ordered) (sorted.uncovered_before before)
    split
    · rename_i reaches
      refine ⟨fun _ x low high => covered_cons.mpr (.inl ⟨by omega, by omega⟩), fun _ => rfl⟩
    · rw [ih sorted.tail (by omega)]
      constructor
      · intro covered x low high
        rw [covered_cons]
        by_cases inside : x < v.stop
        · exact .inl ⟨by omega, inside⟩
        · exact .inr (covered x (by omega) high)
      · intro covered x low high
        rcases covered_cons.mp (covered x (by omega) high) with here | later
        · exact absurd here.2 (by omega)
        · exact later

theorem reach_uncovered (sorted : Canonical vs) (short : reach stop vs pos < stop) : ¬ Covered vs (reach stop vs pos) := by
  induction vs generalizing pos with
  | nil => exact covered_nil _
  | cons v vs ih =>
    rw [reach] at short ⊢
    split at short
    · rename_i behind
      have forward := le_reach stop vs pos
      rw [if_pos behind, covered_cons]
      rintro (here | later)
      · exact absurd here.2 (by omega)
      · exact ih sorted.tail short later
    rename_i ahead
    rw [if_neg ahead]
    split at short
    · rename_i before
      rw [if_pos before]
      exact sorted.uncovered_before before
    rename_i holds
    rw [if_neg holds]
    split at short
    · omega
    rename_i more
    have forward := le_reach stop vs v.stop
    rw [if_neg more, covered_cons]
    rintro (here | later)
    · exact absurd here.2 (by omega)
    · exact ih sorted.tail short later

/-- The gaps of a normal form lie before, between and behind its ranges. -/
theorem missingFrom_uncovered (sorted : Canonical vs) (gap : Covered (missingFrom total vs next) x) : ¬ Covered vs x := by
  induction vs generalizing next with
  | nil => exact covered_nil _
  | cons v vs ih =>
    have before : Covered (if next < v.start then [⟨next, min v.start total⟩] else []) x → ¬ Covered (v :: vs) x := by
      intro here
      split at here
      · rcases covered_cons.mp here with has | none_
        · exact sorted.uncovered_before (Int.lt_of_lt_of_le has.2 (Int.min_le_left ..))
        · exact absurd none_ (covered_nil _)
      · exact absurd here (covered_nil _)
    rw [missingFrom] at gap
    split at gap
    · exact before gap
    rcases covered_append.mp gap with here | later
    · exact before here
    have rest := ih sorted.tail later
    obtain ⟨w, member, low, -⟩ := later
    have within := (missingFrom_within w member).1
    rw [covered_cons]
    rintro (here | covered)
    · exact absurd here.2 (by omega)
    · exact rest covered

theorem Canonical.ncard (sorted : Canonical vs) :
    {x | Covered vs x}.Finite ∧ ({x | Covered vs x}.ncard : Int) = (vs.map fun v => v.stop - v.start).sum := by
  induction vs with
  | nil =>
    have none_ : {x | Covered [] x} = ∅ := Set.eq_empty_of_forall_notMem covered_nil
    rw [none_]
    exact ⟨Set.finite_empty, by simp⟩
  | cons v vs ih =>
    obtain ⟨finite, count⟩ := ih sorted.tail
    have parts : {x | Covered (v :: vs) x} = Set.Ico v.start v.stop ∪ {x | Covered vs x} := Set.ext fun _ => covered_cons
    have disjoint : Disjoint (Set.Ico v.start v.stop) {x | Covered vs x} := by
      rw [Set.disjoint_left]
      rintro x here ⟨w, member, low, -⟩
      have := sorted.head_apart member
      have := here.2
      omega
    have size : ((Set.Ico v.start v.stop).ncard : Int) = v.stop - v.start := by
      rw [← Finset.coe_Ico, Set.ncard_coe_finset, Int.card_Ico_of_le _ _ (Int.le_of_lt sorted.head)]
    rw [parts, Set.ncard_union_eq disjoint (Set.finite_Ico ..) finite, List.map_cons, List.sum_cons, ← count, ← size]
    exact ⟨(Set.finite_Ico ..).union finite, by simp⟩

end

namespace IntervalSet
variable {s : IntervalSet} {start stop : Int}

def contains (s : IntervalSet) (start stop : Int) : Bool := if stop ≤ start then true else containsFrom stop s.iv start

def total (s : IntervalSet) : Int := s.iv.foldl (fun n v => n + (v.stop - v.start)) 0

theorem total_eq_sum (s : IntervalSet) : s.total = (s.iv.map fun v => v.stop - v.start).sum := by
  rw [total, ← List.foldl_map (f := fun v : Interval => v.stop - v.start) (g := fun n k => n + k), List.sum_eq_foldl]

theorem contains_iff (ordered : start < stop) :
    s.contains start stop = true ↔ ∀ x, start ≤ x → x < stop → s.Covers x := by
  rw [contains, if_neg (Int.not_le.mpr ordered)]
  exact containsFrom_iff s.canonical ordered

theorem prefixCovered_greatest (ordered : start ≤ stop) :
    IsGreatest {n | 0 ≤ n ∧ n ≤ stop - start ∧ ∀ x, start ≤ x → x < start + n → s.Covers x}
      (min (s.prefixCovered start stop) (stop - start)) := by
  have forward := s.prefixCovered_nonneg start stop
  constructor
  · refine ⟨by omega, Int.min_le_right .., ?_⟩
    intro x low high
    exact covers_of_prefixCovered low (high.trans_le (Int.add_le_add_left (min_le_left ..) _))
  · rintro n ⟨nonneg, inside, covered⟩
    by_contra longer
    have short : reach stop s.iv start < stop := by
      simp only [prefixCovered] at longer forward
      omega
    apply reach_uncovered s.canonical short
    apply covered
    · exact le_reach ..
    · simp only [prefixCovered] at longer
      omega

theorem covered_missing_iff {total : Int} :
    Covered (s.missing total) x ↔ (0 ≤ x ∧ x < total) ∧ ¬ s.Covers x := by
  constructor
  · intro gap
    constructor
    · obtain ⟨v, member, low, high⟩ := gap
      obtain ⟨first, last⟩ := missingFrom_within v member
      omega
    · exact missingFrom_uncovered s.canonical gap
  · rintro ⟨⟨low, high⟩, uncovered⟩
    exact covered_missingFrom low high uncovered

/-- A maximal uncovered run of the first `total` bytes. -/
structure Gap (s : IntervalSet) (total : Int) (v : Interval) : Prop where
  ordered : v.start < v.stop
  uncovered : ∀ x, v.Has x → (0 ≤ x ∧ x < total) ∧ ¬ s.Covers x
  left : v.start = 0 ∨ s.Covers (v.start - 1)
  right : v.stop = total ∨ s.Covers v.stop

theorem mem_missing_iff {total : Int} (positive : 0 < total) : v ∈ s.missing total ↔ s.Gap total v := by
  have ordered : Canonical (s.missing total) := missingFrom_canonical s.canonical positive
  rw [ordered.mem_iff]
  simp only [covered_missing_iff]
  constructor
  · rintro ⟨ordered, uncovered, left, right⟩
    have first := (uncovered v.start ⟨Int.le_refl _, ordered⟩).1
    have last := (uncovered (v.stop - 1) ⟨by omega, by omega⟩).1
    refine ⟨ordered, uncovered, ?_, ?_⟩
    · by_contra neither
      exact left ⟨by omega, fun covered => neither (.inr covered)⟩
    · by_contra neither
      exact right ⟨by omega, fun covered => neither (.inr covered)⟩
  · rintro ⟨ordered, uncovered, left, right⟩
    refine ⟨ordered, uncovered, ?_, ?_⟩
    · rintro ⟨inside, free⟩
      rcases left with zero | covered
      · omega
      · exact free covered
    · rintro ⟨inside, free⟩
      rcases right with whole | covered
      · omega
      · exact free covered

theorem total_le {limit : Int} (nonneg : 0 ≤ limit) (within : ∀ x, s.Covers x → 0 ≤ x ∧ x < limit) : s.total ≤ limit := by
  have inside : {x | s.Covers x} ⊆ Set.Ico 0 limit := within
  have fewer := Set.ncard_le_ncard inside (Set.finite_Ico ..)
  rw [← Finset.coe_Ico, Set.ncard_coe_finset, Int.card_Ico] at fewer
  rw [total_eq_sum, ← s.canonical.ncard.2]
  have same : {x | s.Covers x} = {x | Covered s.iv x} := rfl
  rw [same] at fewer
  omega

/-- Whatever was added, the set is a normal form of the union, and every query answers for the union. -/
theorem denotes_union {size : Int} {fits : size ≤ maxInt64} (built : ofRanges size fits adds = s) :
    Canonical s.iv ∧ (∀ x, s.Covers x ↔ ∃ v ∈ adds, v.Has x) ∧
      (∀ start stop, start < stop → (s.add start stop).iv = splice start stop s.iv) ∧
      (∀ total, 0 < total → Canonical (s.missing total) ∧
        (∀ x, Covered (s.missing total) x ↔ (0 ≤ x ∧ x < total) ∧ ¬ s.Covers x) ∧ ∀ v, v ∈ s.missing total ↔ s.Gap total v) ∧
      (∀ start stop, start < stop → (s.contains start stop = true ↔ ∀ x, start ≤ x → x < stop → s.Covers x)) ∧
      (∀ start stop, start ≤ stop →
        IsGreatest {n | 0 ≤ n ∧ n ≤ stop - start ∧ ∀ x, start ≤ x → x < start + n → s.Covers x}
          (min (s.prefixCovered start stop) (stop - start))) ∧
      s.total = {x | s.Covers x}.ncard ∧
      ((∀ v ∈ adds, 0 ≤ v.start ∧ v.stop ≤ maxInt64) → s.total ≤ maxInt64) := by
  have union (x : Int) : s.Covers x ↔ ∃ v ∈ adds, v.Has x := built ▸ covers_ofRanges
  refine ⟨s.canonical, union, ?_, ?_, ?_, ?_, ?_, ?_⟩
  · intro start stop ordered
    rw [add, dif_pos ordered]
    exact addRange_eq_splice s.canonical
  · intro total positive
    exact ⟨missingFrom_canonical s.canonical positive, fun x => covered_missing_iff, fun v => mem_missing_iff positive⟩
  · intro start stop ordered
    exact contains_iff ordered
  · intro start stop ordered
    exact prefixCovered_greatest ordered
  · rw [total_eq_sum]
    exact s.canonical.ncard.2.symm
  · intro within
    apply total_le (by decide)
    intro x covered
    obtain ⟨v, member, low, high⟩ := (union x).mp covered
    have := within v member
    omega

/-- Ranges that touch, overlap, are empty or inverted. -/
def scattered : List Interval := [⟨8, 10⟩, ⟨4, 4⟩, ⟨0, 3⟩, ⟨9, 2⟩, ⟨3, 5⟩, ⟨12, 14⟩, ⟨9, 11⟩]

theorem denotes_union_scattered :
    ∃ s, ofRanges 16 (by decide) scattered = s ∧ s.iv = [⟨0, 5⟩, ⟨8, 11⟩, ⟨12, 14⟩] ∧
      s.missing 16 = [⟨5, 8⟩, ⟨11, 12⟩, ⟨14, 16⟩] ∧
      s.Gap 16 ⟨5, 8⟩ ∧ (∀ x, 8 ≤ x → x < 11 → s.Covers x) ∧ s.total = 10 ∧ s.total = {x | s.Covers x}.ncard := by
  obtain ⟨-, -, -, gaps, inside, -, count, -⟩ := denotes_union (rfl : ofRanges 16 (by decide) scattered = _)
  refine ⟨_, rfl, by decide, by decide, ((gaps 16 (by decide)).2.2 _).mp (by decide),
    (inside 8 11 (by decide)).mp (by decide), by decide, count⟩

theorem covers_full {size : Int} {fits : size ≤ maxInt64} : ((empty size fits).add 0 size).Covers x ↔ 0 ≤ x ∧ x < size := by
  simp only [covers_add, covers_empty, or_false]

/-- The record of a salvaged file is the encoding of the set that covers it, and says that nothing is missing. -/
theorem fullIntervalBlob_whole {size : Int} (positive : 0 < size) (fits : size ≤ maxInt64) :
    ∃ s, unmarshalBinary (fullIntervalBlob size) = .ok s ∧ s.size = size ∧ s.missing size = [] ∧
      ∀ t : IntervalSet, t.size = size → (∀ x, t.Covers x ↔ 0 ≤ x ∧ x < size) →
        t.marshalBinary = .ok (fullIntervalBlob size) := by
  have encoded := marshal_full positive fits
  refine ⟨_, unmarshal_marshal encoded, add_size _, ?_, ?_⟩
  · apply List.eq_nil_iff_forall_not_mem.mpr
    intro v member
    have gap := (mem_missing_iff positive).mp member
    obtain ⟨inside, free⟩ := gap.uncovered v.start ⟨Int.le_refl _, gap.ordered⟩
    exact free (covers_full.mpr inside)
  · intro t total whole
    have same : t = (empty size fits).add 0 size := by
      apply ext
      · exact t.canonical.unique (IntervalSet.canonical _) fun x => (whole x).trans covers_full.symm
      · rw [total, add_size]
        rfl
    rw [same, encoded]

theorem fullIntervalBlob_whole_largest :
    ∃ s, unmarshalBinary (fullIntervalBlob maxInt64) = .ok s ∧ s.size = maxInt64 ∧ s.missing maxInt64 = [] := by
  obtain ⟨s, decoded, total, missing, -⟩ := fullIntervalBlob_whole (by decide : 0 < maxInt64) (Int.le_refl _)
  exact ⟨s, decoded, total, missing⟩

/-- The record of an empty file holds a range of no bytes: its own decoder refuses it, and the set of an empty file has
another encoding. -/
theorem fullIntervalBlob_empty_file :
    unmarshalBinary (fullIntervalBlob 0) = .error (.zeroLength 0) ∧
      (empty 0 (by decide)).marshalBinary ≠ .ok (fullIntervalBlob 0) := by
  refine ⟨rfl, ?_⟩
  have encoded : (empty 0 (by decide)).marshalBinary = .ok [72, 70, 68, 80, 1, 0, 0] := rfl
  rw [encoded]
  decide

end IntervalSet
end Hfdl
