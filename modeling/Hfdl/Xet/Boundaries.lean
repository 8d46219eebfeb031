import Hfdl.Transfer.Interval
import Hfdl.Xet.Streaming
import Mathlib.Algebra.Group.Int.Defs
import Mathlib.Algebra.GroupWithZero.Nat
import Mathlib.Order.Basic

/-! The edges at which a pass over a xet file is cut: each missing range is widened to the terms at its two ends and cut
at the edges of terms and at the multiples of the block size. File offsets may wrap around, and then the binary search
does not see every term. -/
namespace Hfdl.Xet
open Indexed

def termEndAt (terms : List ReconTerm) (pos : Int) : Int :=
  if pos ≤ 0 then pos
  else
    match searchTerm terms fun t => pos ≤ t.fileEnd with
    | none => pos
    | some t => if pos ≤ t.fileStart then pos else t.fileEnd

def nextTermEdge (terms : List ReconTerm) (pos : Int) : Int :=
  match searchTerm terms fun t => pos < t.fileEnd with
  | none => -1
  | some t => if pos < t.fileStart then t.fileStart else t.fileEnd

def termStartAt (terms : List ReconTerm) (pos : Int) : Int :=
  match searchTerm terms fun t => pos < t.fileEnd with
  | none => pos
  | some t => if pos < t.fileStart then pos else t.fileStart

/-- The next multiple of the block size, which may wrap around. -/
def gridEdge (blockSize p : Int) : Int := wrapInt64 (wrapInt64 (p.tdiv blockSize + 1) * blockSize)

/-- The next candidate is taken when it lies strictly between. -/
def cutBefore (p edge candidate : Int) : Int := if p < candidate ∧ candidate < edge then candidate else edge

/-- Where the piece that starts at `p` ends. -/
def nextEdge (terms : List ReconTerm) (blockSize stop p : Int) : Int :=
  let edge := cutBefore p stop (nextTermEdge terms p)
  if 0 < blockSize then cutBefore p edge (gridEdge blockSize p) else edge

theorem cutBefore_bounds (open_ : p < edge) : p < cutBefore p edge c ∧ cutBefore p edge c ≤ edge := by
  unfold cutBefore
  split <;> omega

theorem nextEdge_bounds (open_ : p < stop) : p < nextEdge terms blockSize stop p ∧ nextEdge terms blockSize stop p ≤ stop := by
  have first : p < cutBefore p stop (nextTermEdge terms p) ∧ _ := cutBefore_bounds open_
  unfold nextEdge
  split
  · have second := cutBefore_bounds first.1 (c := gridEdge blockSize p)
    exact ⟨second.1, Int.le_trans second.2 first.2⟩
  · exact first

/-- The loop over one widened range. -/
def cutPieces (terms : List ReconTerm) (blockSize stop p : Int) : List Interval :=
  if _more : p < stop then
    ⟨p, nextEdge terms blockSize stop p⟩ :: cutPieces terms blockSize stop (nextEdge terms blockSize stop p)
  else []
termination_by (stop - p).toNat
decreasing_by
  have bounds : p < nextEdge terms blockSize stop p ∧ _ := nextEdge_bounds _more
  omega

/-- The loop over the missing ranges; `prevEnd` is the end of the range before. -/
def snapRanges (terms : List ReconTerm) (size blockSize : Int) : List Interval → Int → List Interval
  | [], _ => []
  | m :: missing, prevEnd =>
    let start := max (termStartAt terms m.start) prevEnd
    let stop := min (termEndAt terms m.stop) size
    cutPieces terms blockSize stop start ++ snapRanges terms size blockSize missing stop

def boundaries (recon : Option Reconstruction) (size : Int) (missing : List Interval) (blockSize : Int) : List Interval :=
  match recon with
  | none => missing
  | some r => if r.terms = [] then missing else snapRanges r.terms size blockSize missing 0

def ReconTerm.Has (t : ReconTerm) (x : Int) : Prop := t.fileStart ≤ x ∧ x < t.fileEnd

/-- Non-empty terms inside the file, one after another. -/
structure OrderedTerms (terms : List ReconTerm) : Prop where
  nonempty : ∀ t ∈ terms, t.fileStart < t.fileEnd
  inside : ∀ t ∈ terms, 0 ≤ t.fileStart
  apart : terms.Pairwise fun t u => t.fileEnd ≤ u.fileStart

namespace OrderedTerms
variable {terms : List ReconTerm} {t u : ReconTerm} {pos pos' : Int} {p : ReconTerm → Bool}

theorem first (ordered : OrderedTerms terms) (found : terms.find? p = some t) :
    t ∈ terms ∧ p t = true ∧ ∀ u ∈ terms, p u = true → u = t ∨ t.fileEnd ≤ u.fileStart := by
  obtain ⟨holds, before, after, rfl, missed⟩ := List.find?_eq_some_iff_append.mp found
  refine ⟨List.mem_append_right _ List.mem_cons_self, holds, fun u member has => ?_⟩
  rcases List.mem_append.mp member with early | late
  · have never := missed u early
    rw [has] at never
    cases never
  · cases late with
    | head => exact .inl rfl
    | tail _ later => exact .inr (List.rel_of_pairwise_cons (List.pairwise_append.mp ordered.apart).2.1 later)

theorem unique (ordered : OrderedTerms terms) (member : t ∈ terms) (member' : u ∈ terms) (has : t.Has pos) (has' : u.Has pos) :
    t = u := by
  obtain ⟨left, right⟩ := has
  obtain ⟨left', right'⟩ := has'
  rcases pairwise_or_eq ordered.apart member member' with same | apart | apart
  · exact same
  · omega
  · omega

end OrderedTerms

theorem termStartAt_le (terms : List ReconTerm) (pos : Int) : termStartAt terms pos ≤ pos := by
  unfold termStartAt
  split
  · exact Int.le_refl _
  · split <;> omega

theorem le_termEndAt (terms : List ReconTerm) (pos : Int) : pos ≤ termEndAt terms pos := by
  unfold termEndAt
  split
  · exact Int.le_refl _
  · split
    · exact Int.le_refl _
    · rename_i t found
      have reaches := of_decide_eq_true (searchTerm_some found).2
      split <;> omega

/-- The search sees these of the terms, and they are in order. -/
structure Sees (terms seen : List ReconTerm) : Prop where
  ordered : OrderedTerms seen
  found : ∀ pos, 0 ≤ pos → searchTerm terms (fun t => pos < t.fileEnd) = seen.find? fun t => pos < t.fileEnd

namespace Sees
variable {terms seen : List ReconTerm} {t u : ReconTerm} {pos pos' : Int}

theorem termStartAt_spec (sees : Sees terms seen) (low : 0 ≤ pos) :
    (∃ t ∈ seen, t.Has pos ∧ termStartAt terms pos = t.fileStart) ∨
      (∀ t ∈ seen, ¬ t.Has pos) ∧ termStartAt terms pos = pos := by
  rw [termStartAt, sees.found pos low]
  cases found : seen.find? fun t => pos < t.fileEnd with
  | none =>
    refine .inr ⟨fun t member has => ?_, rfl⟩
    exact List.find?_eq_none.mp found t member (decide_eq_true has.2)
  | some t =>
    obtain ⟨member, ahead, before⟩ := sees.ordered.first found
    have ahead := of_decide_eq_true ahead
    by_cases gap : pos < t.fileStart
    · refine .inr ⟨fun u member' has => ?_, if_pos gap⟩
      obtain ⟨left, right⟩ := has
      rcases before u member' (decide_eq_true right) with rfl | later
      · omega
      · omega
    · exact .inl ⟨t, member, ⟨Int.not_lt.mp gap, ahead⟩, if_neg gap⟩

theorem termEndAt_spec (sees : Sees terms seen) (positive : 0 < pos) :
    (∃ t ∈ seen, t.Has (pos - 1) ∧ termEndAt terms pos = t.fileEnd) ∨
      (∀ t ∈ seen, ¬ t.Has (pos - 1)) ∧ termEndAt terms pos = pos := by
  have same : (fun t : ReconTerm => decide (pos ≤ t.fileEnd)) = fun t => decide (pos - 1 < t.fileEnd) := by
    funext t
    rw [decide_eq_decide]
    omega
  rw [termEndAt, if_neg (Int.not_le.mpr positive), same, sees.found (pos - 1) (by omega)]
  cases found : seen.find? fun t => pos - 1 < t.fileEnd with
  | none =>
    refine .inr ⟨fun t member has => ?_, rfl⟩
    exact List.find?_eq_none.mp found t member (decide_eq_true has.2)
  | some t =>
    obtain ⟨member, reaches, before⟩ := sees.ordered.first found
    have reaches := of_decide_eq_true reaches
    have nonempty := sees.ordered.nonempty t member
    by_cases gap : pos ≤ t.fileStart
    · refine .inr ⟨fun u member' has => ?_, if_pos gap⟩
      obtain ⟨left, right⟩ := has
      rcases before u member' (decide_eq_true (by omega)) with rfl | later
      · omega
      · omega
    · exact .inl ⟨t, member, ⟨by omega, by omega⟩, if_neg gap⟩

theorem nextTermEdge_le (sees : Sees terms seen) (low : 0 ≤ pos) (member : t ∈ seen) {edge : Int}
    (is_edge : edge = t.fileStart ∨ edge = t.fileEnd) (beyond : pos < edge) :
    pos < nextTermEdge terms pos ∧ nextTermEdge terms pos ≤ edge := by
  have nonempty := sees.ordered.nonempty t member
  have ahead : pos < t.fileEnd := by omega
  rw [nextTermEdge, sees.found pos low]
  cases found : seen.find? fun t => pos < t.fileEnd with
  | none => exact absurd (decide_eq_true ahead) (List.find?_eq_none.mp found t member)
  | some u =>
    obtain ⟨member', ahead', before⟩ := sees.ordered.first found
    have ahead' := of_decide_eq_true ahead'
    have nonempty' := sees.ordered.nonempty u member'
    simp only
    rcases before t member (decide_eq_true ahead) with rfl | later
    · split <;> omega
    · split <;> omega

theorem termStartAt_eq (sees : Sees terms seen) (low : 0 ≤ pos) (member : t ∈ seen) (has : t.Has pos) :
    termStartAt terms pos = t.fileStart := by
  rcases sees.termStartAt_spec low with ⟨u, member', has', same⟩ | ⟨none_, -⟩
  · rw [same, sees.ordered.unique member' member has' has]
  · exact absurd has (none_ t member)

theorem termEndAt_eq (sees : Sees terms seen) (positive : 0 < pos) (member : t ∈ seen) (has : t.Has (pos - 1)) :
    termEndAt terms pos = t.fileEnd := by
  rcases sees.termEndAt_spec positive with ⟨u, member', has', same⟩ | ⟨none_, -⟩
  · rw [same, sees.ordered.unique member' member has' has]
  · exact absurd has (none_ t member)

theorem termStartAt_mono (sees : Sees terms seen) (low : 0 ≤ pos) (order : pos ≤ pos') :
    termStartAt terms pos ≤ termStartAt terms pos' := by
  have below := termStartAt_le terms pos
  rcases sees.termStartAt_spec (show 0 ≤ pos' by omega) with ⟨t, member, has, same⟩ | ⟨-, same⟩
  · rw [same]
    by_cases early : pos < t.fileStart
    · omega
    · have has' : t.Has pos := ⟨Int.not_lt.mp early, Int.lt_of_le_of_lt order has.2⟩
      exact Int.le_of_eq (sees.termStartAt_eq low member has')
  · omega

theorem termEndAt_mono (sees : Sees terms seen) (positive : 0 < pos) (order : pos ≤ pos') :
    termEndAt terms pos ≤ termEndAt terms pos' := by
  have positive' : 0 < pos' := by omega
  have above := le_termEndAt terms pos'
  rcases sees.termEndAt_spec positive with ⟨t, member, has, same⟩ | ⟨-, same⟩
  · rw [same]
    by_cases late : t.fileEnd < pos'
    · omega
    · obtain ⟨left, right⟩ := has
      have has' : t.Has (pos' - 1) := ⟨by omega, by omega⟩
      exact Int.le_of_eq (sees.termEndAt_eq positive' member has').symm
  · omega

end Sees

theorem Sees.widened_iff {m : Interval} (sees : Sees terms seen) (nonempty : m.start < m.stop) (low : 0 ≤ m.start)
    (high : m.stop ≤ size) :
    (termStartAt terms m.start ≤ x ∧ x < min (termEndAt terms m.stop) size) ↔
      m.Has x ∨ x < size ∧ ∃ t ∈ seen, t.Has x ∧ ∃ y, t.Has y ∧ m.Has y := by
  have positive : 0 < m.stop := by omega
  have below := termStartAt_le terms m.start
  have above := le_termEndAt terms m.stop
  constructor
  · rintro ⟨left, right⟩
    by_cases early : x < m.start
    · rcases sees.termStartAt_spec low with ⟨t, member, has, same⟩ | ⟨-, same⟩
      · rw [same] at left
        refine .inr ⟨by omega, t, member, ⟨left, Int.lt_trans early has.2⟩, m.start, has, Int.le_refl _, nonempty⟩
      · omega
    · by_cases late : m.stop ≤ x
      · rcases sees.termEndAt_spec positive with ⟨t, member, has, same⟩ | ⟨-, same⟩
        · rw [same] at right
          obtain ⟨first, last⟩ := has
          exact .inr ⟨by omega, t, member, ⟨by omega, by omega⟩, m.stop - 1, ⟨first, last⟩, by omega, by omega⟩
        · omega
      · exact .inl ⟨Int.not_lt.mp early, Int.not_le.mp late⟩
  · rintro (⟨left, right⟩ | ⟨inside, t, member, ⟨left, right⟩, y, ⟨left', right'⟩, from_, to_⟩)
    · omega
    · -- the term that meets the range holds its first byte when it starts before, its last one when it ends after
      have starts : x < m.start → termStartAt terms m.start = t.fileStart := fun early =>
        sees.termStartAt_eq low member ⟨by omega, by omega⟩
      have ends : m.stop ≤ x → termEndAt terms m.stop = t.fileEnd := fun late =>
        sees.termEndAt_eq positive member ⟨by omega, by omega⟩
      by_cases early : x < m.start
      · rw [starts early]
        omega
      · by_cases late : m.stop ≤ x
        · rw [ends late]
          omega
        · omega

/-- Pieces of `[lo, hi)` in order and apart, none longer than the block size and none with an edge of a term inside. -/
structure Pieces (terms : List ReconTerm) (blockSize lo hi : Int) (vs : List Interval) : Prop where
  nonempty : ∀ v ∈ vs, v.start < v.stop
  within : ∀ v ∈ vs, lo ≤ v.start ∧ v.stop ≤ hi
  sized : ∀ v ∈ vs, v.stop - v.start ≤ blockSize
  smooth : ∀ v ∈ vs, ∀ t ∈ terms, ∀ edge, edge = t.fileStart ∨ edge = t.fileEnd → ¬ (v.start < edge ∧ edge < v.stop)
  ordered : vs.Pairwise fun v w => v.stop ≤ w.start

namespace Pieces
variable {terms : List ReconTerm} {vs ws : List Interval} {v : Interval}

theorem nil : Pieces terms blockSize lo hi [] where
  nonempty _ never := by cases never
  within _ never := by cases never
  sized _ never := by cases never
  smooth _ never := by cases never
  ordered := .nil

theorem append (first : Pieces terms blockSize lo mid vs) (rest : Pieces terms blockSize mid hi ws) (left : lo ≤ mid)
    (right : mid ≤ hi) :
    Pieces terms blockSize lo hi (vs ++ ws) where
  nonempty v member := (List.mem_append.mp member).elim (first.nonempty v) (rest.nonempty v)
  within v member := by
    cases List.mem_append.mp member with
    | inl early =>
      obtain ⟨low, high⟩ := first.within v early
      omega
    | inr late =>
      obtain ⟨low, high⟩ := rest.within v late
      omega
  sized v member := (List.mem_append.mp member).elim (first.sized v) (rest.sized v)
  smooth v member := (List.mem_append.mp member).elim (first.smooth v) (rest.smooth v)
  ordered := by
    refine List.pairwise_append.mpr ⟨first.ordered, rest.ordered, fun v early w late => ?_⟩
    exact Int.le_trans (first.within v early).2 (rest.within w late).1

theorem single (nonempty : lo < hi) (sized : hi - lo ≤ blockSize)
    (smooth : ∀ t ∈ terms, ∀ edge, edge = t.fileStart ∨ edge = t.fileEnd → ¬ (lo < edge ∧ edge < hi)) :
    Pieces terms blockSize lo hi [⟨lo, hi⟩] where
  nonempty w member := by rwa [List.mem_singleton.mp member]
  within w member := by
    rw [List.mem_singleton.mp member]
    exact ⟨Int.le_refl _, Int.le_refl _⟩
  sized w member := by rwa [List.mem_singleton.mp member]
  smooth w member := by rwa [List.mem_singleton.mp member]
  ordered := List.pairwise_singleton _ _

theorem lower (pieces : Pieces terms blockSize lo hi vs) (before : lo' ≤ lo) : Pieces terms blockSize lo' hi vs :=
  { pieces with
    within := fun v member => by
      obtain ⟨left, right⟩ := pieces.within v member
      omega }

end Pieces

/-- The next multiple of the block size either is what it should be or lies beyond the machine range and reads as negative. -/
theorem gridEdge_spec (positive : 0 < blockSize) (machine : blockSize ≤ maxInt64) (low : 0 ≤ p) (high : p < maxInt64) :
    ∃ edge, p < edge ∧ edge ≤ p + blockSize ∧ blockSize ∣ edge ∧ (∀ e, blockSize ∣ e → p < e → edge ≤ e) ∧
      (gridEdge blockSize p = edge ∨ maxInt64 < edge ∧ gridEdge blockSize p < 0) := by
  have quotient : p.tdiv blockSize = p / blockSize := Int.tdiv_eq_ediv_of_nonneg low
  have parts := Int.mul_ediv_add_emod p blockSize
  have remainder := Int.emod_lt_of_pos p positive
  have remainder' := Int.emod_nonneg p (Int.ne_of_gt positive)
  have nonneg : 0 ≤ p / blockSize := Int.ediv_nonneg low (Int.le_of_lt positive)
  have small : p / blockSize ≤ p := Int.ediv_le_self blockSize low
  have inner : wrapInt64 (p / blockSize + 1) = p / blockSize + 1 :=
    wrapInt64_eq (by omega) (by omega)
  have whole : (p / blockSize + 1) * blockSize = p - p % blockSize + blockSize := by
    rw [Int.add_mul, Int.one_mul, Int.mul_comm]
    omega
  have least : ∀ e, blockSize ∣ e → p < e → (p / blockSize + 1) * blockSize ≤ e := by
    rintro e ⟨c, rfl⟩ beyond
    rw [Int.mul_comm]
    exact Int.mul_le_mul_of_nonneg_left (Int.ediv_lt_of_lt_mul positive (Int.mul_comm .. ▸ beyond)) (Int.le_of_lt positive)
  refine ⟨(p / blockSize + 1) * blockSize, by omega, by omega, Int.dvd_mul_left .., least, ?_⟩
  rw [gridEdge, quotient, inner]
  by_cases fits : (p / blockSize + 1) * blockSize ≤ maxInt64
  · exact .inl (wrapInt64_eq (by omega) fits)
  · refine .inr ⟨Int.not_le.mp fits, ?_⟩
    rw [wrapInt64_of_over (Int.not_le.mp fits) (by omega)]
    simp only [maxInt64] at machine high
    omega

theorem nextEdge_sized (positive : 0 < blockSize) (machine : blockSize ≤ maxInt64) (low : 0 ≤ p) (open_ : p < stop)
    (high : stop ≤ maxInt64) : nextEdge terms blockSize stop p - p ≤ blockSize := by
  obtain ⟨edge, ahead, near, -, -, grid⟩ := gridEdge_spec positive machine low (by omega : p < maxInt64)
  have bounds : p < cutBefore p stop (nextTermEdge terms p) ∧ _ := cutBefore_bounds open_
  rw [nextEdge, if_pos positive]
  generalize cutBefore p stop (nextTermEdge terms p) = inner at bounds
  unfold cutBefore
  split <;> omega

theorem nextEdge_le_multiple (positive : 0 < blockSize) (machine : blockSize ≤ maxInt64) (low : 0 ≤ p)
    (multiple : blockSize ∣ e) (beyond : p < e) (short : e ≤ maxInt64) : nextEdge terms blockSize stop p ≤ e := by
  obtain ⟨edge, ahead, -, -, least, grid⟩ := gridEdge_spec positive machine low (by omega : p < maxInt64)
  have near := least e multiple beyond
  rw [nextEdge, if_pos positive]
  generalize cutBefore p stop (nextTermEdge terms p) = inner
  unfold cutBefore
  split <;> omega

/-- A piece ends with its range, at a multiple of the block size or at an edge of a term that the search sees. -/
theorem nextEdge_cases (sees : Sees terms seen) (positive : 0 < blockSize) (machine : blockSize ≤ maxInt64) (low : 0 ≤ p)
    (open_ : p < stop)
    (high : stop ≤ maxInt64) :
    nextEdge terms blockSize stop p = stop ∨ blockSize ∣ nextEdge terms blockSize stop p ∨
      ∃ t ∈ seen, nextEdge terms blockSize stop p = t.fileStart ∨ nextEdge terms blockSize stop p = t.fileEnd := by
  obtain ⟨edge, ahead, -, multiple, -, grid⟩ := gridEdge_spec positive machine low (by omega : p < maxInt64)
  have inner : cutBefore p stop (nextTermEdge terms p) = stop ∨ ∃ t ∈ seen,
      cutBefore p stop (nextTermEdge terms p) = t.fileStart ∨ cutBefore p stop (nextTermEdge terms p) = t.fileEnd := by
    rw [nextTermEdge, sees.found p low]
    cases found : seen.find? fun t => p < t.fileEnd with
    | none =>
      refine .inl (if_neg ?_)
      show ¬ (p < -1 ∧ _)
      omega
    | some t =>
      have member := (sees.ordered.first found).1
      by_cases gap : p < t.fileStart
      · simp only [if_pos gap, cutBefore]
        split
        · exact .inr ⟨t, member, .inl rfl⟩
        · exact .inl rfl
      · simp only [if_neg gap, cutBefore]
        split
        · exact .inr ⟨t, member, .inr rfl⟩
        · exact .inl rfl
  rw [nextEdge, if_pos positive]
  generalize cutBefore p stop (nextTermEdge terms p) = inner_ at inner
  unfold cutBefore
  split
  · rename_i taken
    have same : gridEdge blockSize p = edge := grid.resolve_right fun beyond => by omega
    exact .inr (.inl (same ▸ multiple))
  · exact inner.imp_right .inr

theorem nextEdge_smooth (blockSize : Int) (sees : Sees terms seen) (low : 0 ≤ p) (open_ : p < stop) (member : t ∈ seen)
    (is_edge : edge = t.fileStart ∨ edge = t.fileEnd) (beyond : p < edge) :
    nextEdge terms blockSize stop p ≤ edge ∨ stop ≤ edge := by
  obtain ⟨ahead, near⟩ := sees.nextTermEdge_le low member is_edge beyond
  have outer : nextEdge terms blockSize stop p ≤ cutBefore p stop (nextTermEdge terms p) := by
    unfold nextEdge
    split
    · exact (cutBefore_bounds (cutBefore_bounds open_).1).2
    · exact Int.le_refl _
  unfold cutBefore at outer
  split at outer <;> omega

theorem covered_cutPieces (terms : List ReconTerm) (blockSize stop p : Int) :
    Covered (cutPieces terms blockSize stop p) x ↔ p ≤ x ∧ x < stop := by
  fun_induction cutPieces terms blockSize stop p with
  | case1 p more ih =>
    obtain ⟨ahead, near⟩ : p < nextEdge terms blockSize stop p ∧ _ := nextEdge_bounds more
    rw [covered_cons, ih]
    simp only [Interval.Has]
    omega
  | case2 p done =>
    simp only [covered_nil, false_iff]
    omega

theorem mem_cutPieces (member : v ∈ cutPieces terms blockSize stop p) :
    p ≤ v.start ∧ v.start < stop ∧ v.stop = nextEdge terms blockSize stop v.start := by
  fun_induction cutPieces terms blockSize stop p with
  | case1 p more ih =>
    obtain ⟨ahead, near⟩ : p < nextEdge terms blockSize stop p ∧ _ := nextEdge_bounds more
    cases member with
    | head => exact ⟨Int.le_refl _, more, rfl⟩
    | tail _ later =>
      obtain ⟨left, right, same⟩ := ih later
      exact ⟨by omega, right, same⟩
  | case2 p done => cases member

theorem cutPieces_pieces (stop : Int) (sees : Sees terms seen) (positive : 0 < blockSize) (machine : blockSize ≤ maxInt64)
    (high : stop ≤ maxInt64) (low : 0 ≤ p) : Pieces seen blockSize p (max p stop) (cutPieces terms blockSize stop p) := by
  fun_induction cutPieces terms blockSize stop p with
  | case1 p more ih =>
    obtain ⟨ahead, near⟩ : p < nextEdge terms blockSize stop p ∧ _ := nextEdge_bounds more
    have rest := ih (by omega)
    have head : Pieces seen blockSize p (nextEdge terms blockSize stop p) [⟨p, nextEdge terms blockSize stop p⟩] := by
      apply Pieces.single ahead (nextEdge_sized positive machine low more high)
      rintro t member edge is_edge ⟨left, right⟩
      cases nextEdge_smooth blockSize sees low more member is_edge left with
      | inl reached => exact absurd right (Int.not_lt.mpr reached)
      | inr beyond => exact absurd right (Int.not_lt.mpr (Int.le_trans near beyond))
    rw [show max p stop = max (nextEdge terms blockSize stop p) stop by omega]
    exact head.append rest (by omega) (by omega)
  | case2 p done => exact .nil

theorem mem_snapRanges (member : v ∈ snapRanges terms size blockSize missing prevEnd) :
    ∃ m ∈ missing, termStartAt terms m.start ≤ v.start ∧ v.start < min (termEndAt terms m.stop) size ∧
      v.stop = nextEdge terms blockSize (min (termEndAt terms m.stop) size) v.start := by
  induction missing generalizing prevEnd with
  | nil => cases member
  | cons m missing ih =>
    rw [snapRanges] at member
    cases List.mem_append.mp member with
    | inl here =>
      obtain ⟨left, right, same⟩ := mem_cutPieces here
      exact ⟨m, List.mem_cons_self, by omega, right, same⟩
    | inr later =>
      obtain ⟨n, member', rest⟩ := ih later
      exact ⟨n, List.mem_cons_of_mem _ member', rest⟩

/-- Whatever the search sees of the terms, no missing byte is lost. -/
theorem snapRanges_covers (terms : List ReconTerm) (blockSize : Int) (ranges : Ranges size missing) (ahead : prevEnd ≤ x)
    (missed : Covered missing x) : Covered (snapRanges terms size blockSize missing prevEnd) x := by
  induction missing generalizing prevEnd with
  | nil => exact absurd missed (covered_nil x)
  | cons m missing ih =>
    have starts := termStartAt_le terms m.start
    have ends := le_termEndAt terms m.stop
    obtain ⟨nonempty, -, to_size⟩ := ranges.nonempty m List.mem_cons_self
    rw [snapRanges, covered_append, covered_cutPieces]
    by_cases near : x < min (termEndAt terms m.stop) size
    · rcases covered_cons.mp missed with ⟨left, right⟩ | later
      · exact .inl ⟨by omega, near⟩
      · obtain ⟨n, member, left, right⟩ := later
        have apart := List.rel_of_pairwise_cons ranges.apart member
        exact .inl ⟨by omega, near⟩
    · rcases covered_cons.mp missed with ⟨left, right⟩ | later
      · omega
      · exact .inr (ih ranges.tail (by omega) later)

theorem snapRanges_within (ranges : Ranges size missing) (low : 0 ≤ prevEnd)
    (member : v ∈ snapRanges terms size blockSize missing prevEnd) : 0 ≤ v.start ∧ v.stop ≤ size := by
  induction missing generalizing prevEnd with
  | nil => cases member
  | cons m missing ih =>
    obtain ⟨nonempty, from_zero, to_size⟩ := ranges.nonempty m List.mem_cons_self
    have ends := le_termEndAt terms m.stop
    rw [snapRanges] at member
    cases List.mem_append.mp member with
    | inl here =>
      obtain ⟨left, open_, cut⟩ := mem_cutPieces here
      have near : nextEdge terms blockSize (min (termEndAt terms m.stop) size) v.start ≤ min (termEndAt terms m.stop) size :=
        (nextEdge_bounds open_).2
      omega
    | inr later => exact ih ranges.tail (by omega) later

/-- Whatever the terms, the boundaries hold every missing byte and stay inside the file. -/
theorem boundaries_covers (recon : Option Reconstruction) (blockSize : Int) (ranges : Ranges size missing)
    (missed : Covered missing x) :
    Covered (boundaries recon size missing blockSize) x := by
  obtain ⟨m, member, left, -⟩ := id missed
  have from_zero := (ranges.nonempty m member).2.1
  unfold boundaries
  split
  · exact missed
  · split
    · exact missed
    · exact snapRanges_covers _ blockSize ranges (by omega) missed

theorem boundaries_within (ranges : Ranges size missing) (member : v ∈ boundaries recon size missing blockSize) :
    0 ≤ v.start ∧ v.stop ≤ size := by
  unfold boundaries at member
  split at member
  · exact (ranges.nonempty v member).2
  · split at member
    · exact (ranges.nonempty v member).2
    · exact snapRanges_within ranges (Int.le_refl 0) member

theorem snapRanges_spec (sees : Sees terms seen) (positive : 0 < blockSize) (machine : blockSize ≤ maxInt64)
    (high : size ≤ maxInt64) (ranges : Ranges size missing) (low : 0 ≤ prevEnd) (inside : prevEnd ≤ size)
    (before : ∀ m ∈ missing, prevEnd ≤ min (termEndAt terms m.stop) size) :
    Pieces seen blockSize prevEnd size (snapRanges terms size blockSize missing prevEnd) ∧
      ∀ x, Covered (snapRanges terms size blockSize missing prevEnd) x ↔
        prevEnd ≤ x ∧ ∃ m ∈ missing, termStartAt terms m.start ≤ x ∧ x < min (termEndAt terms m.stop) size := by
  induction missing generalizing prevEnd with
  | nil => exact ⟨.nil, fun x => by simp [snapRanges]⟩
  | cons m missing ih =>
    obtain ⟨nonempty, from_zero, to_size⟩ := ranges.nonempty m List.mem_cons_self
    have after : ∀ n ∈ missing, m.stop ≤ n.start := fun n => List.rel_of_pairwise_cons ranges.apart
    have reached := before m List.mem_cons_self
    have starts := termStartAt_le terms m.start
    have ends := le_termEndAt terms m.stop
    have later : ∀ n ∈ missing, min (termEndAt terms m.stop) size ≤ min (termEndAt terms n.stop) size := by
      intro n member
      have apart := after n member
      have nonempty' := (ranges.nonempty n (List.mem_cons_of_mem _ member)).1
      have grows := sees.termEndAt_mono (show 0 < m.stop by omega) (show m.stop ≤ n.stop by omega)
      omega
    obtain ⟨tail, covers'⟩ := ih ranges.tail (by omega) (by omega) later
    have pieces := cutPieces_pieces (min (termEndAt terms m.stop) size) sees positive machine (by omega)
      (show 0 ≤ max (termStartAt terms m.start) prevEnd by omega)
    rw [snapRanges]
    constructor
    · have reaches : max (max (termStartAt terms m.start) prevEnd) (min (termEndAt terms m.stop) size) =
          min (termEndAt terms m.stop) size := by omega
      rw [reaches] at pieces
      exact (pieces.lower (by omega)).append tail reached (by omega)
    · intro x
      rw [covered_append, covered_cutPieces, covers']
      simp only [List.mem_cons, exists_eq_or_imp]
      constructor
      · rintro (here | ⟨ahead, n, member, there⟩)
        · exact ⟨by omega, .inl (by omega)⟩
        · exact ⟨by omega, .inr ⟨n, member, there⟩⟩
      · rintro ⟨ahead, here | ⟨n, member, there⟩⟩
        · exact .inl (by omega)
        · by_cases short : x < min (termEndAt terms m.stop) size
          · -- the later range starts no earlier
            have apart := after n member
            have grows := sees.termStartAt_mono from_zero (show m.start ≤ n.start by omega)
            exact .inl (by omega)
          · exact .inr ⟨by omega, n, member, there⟩

def ends (t : ReconTerm) : Bool := t.fileStart < t.fileEnd

/-- The terms before the first one whose end wraps around. -/
def beforeWrap (terms : List ReconTerm) : List ReconTerm := terms.takeWhile ends

def fromWrap (terms : List ReconTerm) : List ReconTerm := terms.dropWhile ends

def seenCount (terms : List ReconTerm) : Nat := climb terms.length (beforeWrap terms).length

/-- The terms that the binary search finds: it goes through these before it looks at one whose end has wrapped around. -/
def seenTerms (terms : List ReconTerm) : List ReconTerm := terms.take (seenCount terms)

def unseenTerms (terms : List ReconTerm) : List ReconTerm := terms.drop (seenCount terms)

/-- The bytes that a term decodes to, also where its end does not fit. -/
def ReconTerm.Holds (t : ReconTerm) (x : Int) : Prop := t.fileStart ≤ x ∧ x < t.fileStart + t.unpackedLength

theorem placeTerms_negative (low : minInt64 ≤ cur) (short : cur + (terms.map TermJSON.unpackedLength).sum ≤ 0)
    (placed : placeTerms i cur terms = .ok located) : ∀ t ∈ located, t.fileEnd ≤ 0 ∧ t.fileStart + t.unpackedLength ≤ 0 := by
  induction terms generalizing i cur located with
  | nil =>
    cases placed
    exact fun _ never => absurd never List.not_mem_nil
  | cons t rest ih =>
    rw [List.map_cons, List.sum_cons] at short
    obtain ⟨-, tail, later, rfl⟩ := placeTerms_cons placed
    have unwrapped : wrapInt64 (cur + t.unpackedLength) = cur + t.unpackedLength :=
      wrapInt64_of_fits (by omega) (by simp only [maxInt64]; omega)
    rw [unwrapped] at later ⊢
    have here : cur + t.unpackedLength ≤ 0 := by omega
    exact List.forall_mem_cons.mpr ⟨⟨here, here⟩, ih (by omega) (by omega) later⟩

/-- The terms are in order up to the first that wraps around; from that one on none ends in the file. -/
structure Placed (cur : Int) (located : List ReconTerm) : Prop where
  ordered : OrderedTerms (beforeWrap located)
  exact_ : ∀ t ∈ beforeWrap located, t.fileEnd = t.fileStart + t.unpackedLength
  after : ∀ t ∈ beforeWrap located, cur ≤ t.fileStart
  wrapped : ∀ t ∈ fromWrap located, t.fileEnd ≤ 0 ∧
    (t.fileStart + t.unpackedLength ≤ 0 ∨ cur ≤ t.fileStart ∧ ∀ u ∈ beforeWrap located, u.fileEnd ≤ t.fileStart)

/-- A term that wraps around is the first of those that do not end in the file. -/
theorem Placed.wrap {t : ReconTerm} {located : List ReconTerm} (low : 0 ≤ t.fileStart) (negative : t.fileEnd ≤ 0)
    (tail : ∀ u ∈ located, u.fileEnd ≤ 0 ∧ u.fileStart + u.unpackedLength ≤ 0) : Placed t.fileStart (t :: located) := by
  have turned : ¬ ends t = true := by
    rw [ends, decide_eq_true_eq]
    omega
  have none_ : beforeWrap (t :: located) = [] := List.takeWhile_cons_of_neg turned
  have all : fromWrap (t :: located) = t :: located := List.dropWhile_cons_of_neg turned
  refine ⟨?_, ?_, ?_, ?_⟩
  · rw [none_]
    exact ⟨fun _ never => (by cases never), fun _ never => (by cases never), .nil⟩
  · rw [none_]
    exact fun _ never => absurd never List.not_mem_nil
  · rw [none_]
    exact fun _ never => absurd never List.not_mem_nil
  · rw [none_, all, List.forall_mem_cons]
    exact ⟨⟨negative, .inr ⟨Int.le_refl _, fun _ never => absurd never List.not_mem_nil⟩⟩,
      fun u member => ⟨(tail u member).1, .inl (tail u member).2⟩⟩

theorem Placed.cons {t : ReconTerm} (low : 0 ≤ t.fileStart) (nonempty : t.fileStart < t.fileEnd)
    (same : t.fileEnd = t.fileStart + t.unpackedLength)
    (rest : Placed t.fileEnd located) : Placed t.fileStart (t :: located) := by
  have goes : beforeWrap (t :: located) = t :: beforeWrap located := List.takeWhile_cons_of_pos (decide_eq_true nonempty)
  have on : fromWrap (t :: located) = fromWrap located := List.dropWhile_cons_of_pos (decide_eq_true nonempty)
  refine ⟨?_, ?_, ?_, ?_⟩
  · rw [goes]
    exact ⟨List.forall_mem_cons.mpr ⟨nonempty, rest.ordered.nonempty⟩, List.forall_mem_cons.mpr ⟨low, rest.ordered.inside⟩,
      List.pairwise_cons.mpr ⟨rest.after, rest.ordered.apart⟩⟩
  · rw [goes]
    exact List.forall_mem_cons.mpr ⟨same, rest.exact_⟩
  · rw [goes, List.forall_mem_cons]
    exact ⟨Int.le_refl _, fun u member => Int.le_trans (Int.le_of_lt nonempty) (rest.after u member)⟩
  · rw [goes, on]
    intro u member
    obtain ⟨negative, place⟩ := rest.wrapped u member
    refine ⟨negative, place.imp_right fun ⟨behind, apart⟩ => ⟨by omega, List.forall_mem_cons.mpr ⟨behind, apart⟩⟩⟩

theorem placeTerms_placed (low : 0 ≤ cur) (machine : cur ≤ maxInt64)
    (fits : cur + (terms.map TermJSON.unpackedLength).sum ≤ 2 ^ 64)
    (placed : placeTerms i cur terms = .ok located) : Placed cur located := by
  induction terms generalizing i cur located with
  | nil =>
    cases placed
    exact ⟨⟨fun _ never => (by cases never), fun _ never => (by cases never), .nil⟩, fun _ never => (by cases never),
      fun _ never => (by cases never), fun _ never => (by cases never)⟩
  | cons t rest ih =>
    rw [List.map_cons, List.sum_cons] at fits
    obtain ⟨⟨-, nonempty⟩, tail, later, rfl⟩ := placeTerms_cons placed
    by_cases stays : cur + t.unpackedLength ≤ maxInt64
    · have unwrapped : wrapInt64 (cur + t.unpackedLength) = cur + t.unpackedLength :=
        wrapInt64_eq (by omega) stays
      rw [unwrapped] at later ⊢
      have longer : cur < cur + t.unpackedLength := by omega
      have tail_placed := ih (by omega) stays (by omega) later
      exact Placed.cons (t := ⟨t.hash, t.unpackedLength, t.start, t.stop, cur, _⟩) low longer rfl tail_placed
    · have wrapped : wrapInt64 (cur + t.unpackedLength) = cur + t.unpackedLength - 2 ^ 64 := by
        simp only [maxInt64] at machine stays
        simp only [wrapInt64, Int.bmod]
        split <;> omega
      rw [wrapped] at later ⊢
      have negative : cur + t.unpackedLength - 2 ^ 64 ≤ 0 := by omega
      refine Placed.wrap (t := ⟨t.hash, t.unpackedLength, t.start, t.stop, cur, _⟩) low negative
        (placeTerms_negative ?_ (by omega) later)
      simp only [minInt64, maxInt64] at stays ⊢
      omega

theorem beforeWrap_append (terms : List ReconTerm) : beforeWrap terms ++ fromWrap terms = terms := List.takeWhile_append_dropWhile

theorem seenTerms_eq (terms : List ReconTerm) : seenTerms terms = (beforeWrap terms).take (seenCount terms) := by
  have short : seenCount terms ≤ (beforeWrap terms).length := (climbLoop_bounds _ (Nat.zero_le _) (Nat.zero_le _)).2.2
  rw [seenTerms, ← congrArg (List.take (seenCount terms)) (beforeWrap_append terms), List.take_append_of_le_length short]

theorem unseenTerms_eq (terms : List ReconTerm) :
    unseenTerms terms = (beforeWrap terms).drop (seenCount terms) ++ fromWrap terms := by
  have short : seenCount terms ≤ (beforeWrap terms).length := (climbLoop_bounds _ (Nat.zero_le _) (Nat.zero_le _)).2.2
  rw [unseenTerms, ← congrArg (List.drop (seenCount terms)) (beforeWrap_append terms), List.drop_append_of_le_length short]

namespace Placed
variable {terms : List ReconTerm} {t u : ReconTerm}

theorem seen_before (member : t ∈ seenTerms terms) : t ∈ beforeWrap terms := by
  rw [seenTerms_eq] at member
  exact List.mem_of_mem_take member

theorem sees (placed : Placed cur terms) : Sees terms (seenTerms terms) := by
  have whole : terms.take (beforeWrap terms).length = beforeWrap terms := by
    rw [← congrArg (List.take (beforeWrap terms).length) (beforeWrap_append terms), List.take_left]
  have rest : terms.drop (beforeWrap terms).length = fromWrap terms := by
    rw [← congrArg (List.drop (beforeWrap terms).length) (beforeWrap_append terms), List.drop_left]
  refine ⟨⟨fun t member => placed.ordered.nonempty t (seen_before member),
    fun t member => placed.ordered.inside t (seen_before member), ?_⟩, ?_⟩
  · rw [seenTerms_eq]
    exact placed.ordered.apart.take
  · intro pos low
    refine getElem?_search (List.takeWhile_prefix ends).length_le ?_ ?_
    · rw [whole]
      refine placed.ordered.apart.imp_of_mem fun {t u} _ member apart ahead => decide_eq_true ?_
      have nonempty := placed.ordered.nonempty u member
      have ahead := of_decide_eq_true ahead
      omega
    · rw [rest]
      intro t member
      have negative := (placed.wrapped t member).1
      exact decide_eq_false (by omega)

/-- The terms that the search does not see come after those that it sees. -/
theorem far (placed : Placed cur terms) (unseen : t ∈ unseenTerms terms) :
    t.fileStart + t.unpackedLength ≤ 0 ∧ t.fileEnd ≤ 0 ∨
      (∀ u ∈ seenTerms terms, u.fileEnd ≤ t.fileStart) ∧ (t.fileEnd ≤ 0 ∨ t.fileStart < t.fileEnd) := by
  rw [unseenTerms_eq] at unseen
  cases List.mem_append.mp unseen with
  | inl early =>
    have nonempty := placed.ordered.nonempty t (List.mem_of_mem_drop early)
    refine .inr ⟨fun u member => ?_, .inr nonempty⟩
    have apart := placed.ordered.apart
    rw [← List.take_append_drop (seenCount terms) (beforeWrap terms), ← seenTerms_eq] at apart
    exact (List.pairwise_append.mp apart).2.2 u member t early
  | inr late =>
    obtain ⟨negative, here | ⟨-, behind⟩⟩ := placed.wrapped t late
    · exact .inl ⟨here, negative⟩
    · exact .inr ⟨fun u member => behind u (seen_before member), .inl negative⟩

theorem far_edge (placed : Placed cur terms) (unseen : t ∈ unseenTerms terms) (is_edge : edge = t.fileStart ∨ edge = t.fileEnd) :
    edge ≤ 0 ∨ ∀ u ∈ seenTerms terms, u.fileEnd ≤ edge := by
  rcases placed.far unseen with ⟨before, negative⟩ | ⟨behind, place⟩
  · omega
  · rcases is_edge with rfl | rfl
    · exact .inr behind
    · rcases place with negative | nonempty
      · exact .inl negative
      · exact .inr fun u member => Int.le_trans (behind u member) (Int.le_of_lt nonempty)

theorem far_byte (placed : Placed cur terms) (unseen : t ∈ unseenTerms terms) (holds : t.Holds x) :
    x < 0 ∨ ∀ u ∈ seenTerms terms, u.fileEnd ≤ x := by
  obtain ⟨left, right⟩ := holds
  rcases placed.far unseen with ⟨before, -⟩ | ⟨behind, -⟩
  · omega
  · exact .inr fun u member => Int.le_trans (behind u member) left

theorem holds_iff (placed : Placed cur terms) (member : t ∈ seenTerms terms) : t.Holds x ↔ t.Has x := by
  rw [ReconTerm.Holds, ReconTerm.Has, placed.exact_ t (seen_before member)]

theorem split (terms : List ReconTerm) : t ∈ terms ↔ t ∈ seenTerms terms ∨ t ∈ unseenTerms terms := by
  rw [← List.mem_append, seenTerms, unseenTerms, List.take_append_drop]

end Placed

structure Snapped (terms : List ReconTerm) (size blockSize : Int) (missing vs : List Interval) : Prop where
  pieces : Pieces terms blockSize 0 size vs
  covers : ∀ x, Covered vs x ↔ Covered missing x ∨ x < size ∧ ∃ t ∈ terms, t.Holds x ∧ ∃ y, t.Holds y ∧ Covered missing y

/-- A term that the search does not see is no loss: no byte of it is called for that is not missing itself, and where an
edge of it lies inside a missing range there is a cut anyway. -/
structure Spared (seen : List ReconTerm) (size blockSize : Int) (missing : List Interval) (t : ReconTerm) : Prop where
  bytes : ∀ y, t.Holds y → Covered missing y → ∀ x, t.Holds x → x < size → Covered missing x
  edges : ∀ m ∈ missing, ∀ edge, edge = t.fileStart ∨ edge = t.fileEnd → m.start < edge → edge < m.stop →
    blockSize ∣ edge ∨ ∃ u ∈ seen, edge = u.fileStart ∨ edge = u.fileEnd

section
variable {terms seen : List ReconTerm} {missing : List Interval} {size blockSize : Int}

theorem Sees.snapped (sees : Sees terms seen) (nonneg : 0 ≤ size) (high : size ≤ maxInt64) (positive : 0 < blockSize)
    (machine : blockSize ≤ maxInt64) (ranges : Ranges size missing) :
    Pieces seen blockSize 0 size (snapRanges terms size blockSize missing 0) ∧
      ∀ x, Covered (snapRanges terms size blockSize missing 0) x ↔
        Covered missing x ∨ x < size ∧ ∃ t ∈ seen, t.Has x ∧ ∃ y, t.Has y ∧ Covered missing y := by
  have before : ∀ m ∈ missing, 0 ≤ min (termEndAt terms m.stop) size := by
    intro m member
    obtain ⟨nonempty, from_zero, -⟩ := ranges.nonempty m member
    have ends := le_termEndAt terms m.stop
    omega
  obtain ⟨pieces, covers⟩ := snapRanges_spec sees positive machine high ranges (Int.le_refl 0) nonneg before
  refine ⟨pieces, fun x => ?_⟩
  have widened : ∀ m ∈ missing, (termStartAt terms m.start ≤ x ∧ x < min (termEndAt terms m.stop) size ↔
      m.Has x ∨ x < size ∧ ∃ t ∈ seen, t.Has x ∧ ∃ y, t.Has y ∧ m.Has y) := by
    intro m member
    obtain ⟨nonempty, from_zero, to_size⟩ := ranges.nonempty m member
    exact sees.widened_iff nonempty from_zero to_size
  rw [covers]
  constructor
  · rintro ⟨-, m, member, here⟩
    rcases (widened m member).mp here with has | ⟨short, t, placed, has, y, has', met⟩
    · exact .inl ⟨m, member, has⟩
    · exact .inr ⟨short, t, placed, has, y, has', m, member, met⟩
  · rintro (⟨m, member, has⟩ | ⟨short, t, placed, has, y, has', m, member, met⟩)
    · exact ⟨Int.le_trans (ranges.nonempty m member).2.1 has.1, m, member, (widened m member).mpr (.inl has)⟩
    · exact ⟨Int.le_trans (sees.ordered.inside t placed) has.1, m, member,
        (widened m member).mpr (.inr ⟨short, t, placed, has, y, has', met⟩)⟩

theorem Sees.cut_inside (sees : Sees terms seen) (high : size ≤ maxInt64) (positive : 0 < blockSize)
    (machine : blockSize ≤ maxInt64)
    (ranges : Ranges size missing) (pieces : Pieces seen blockSize 0 size (snapRanges terms size blockSize missing 0))
    (piece : v ∈ snapRanges terms size blockSize missing 0) (member : m ∈ missing) (left : m.start < v.stop)
    (right : v.stop < m.stop) :
    blockSize ∣ v.stop ∨ ∃ u ∈ seen, v.stop = u.fileStart ∨ v.stop = u.fileEnd := by
  obtain ⟨n, member', -, open_, cut⟩ := mem_snapRanges piece
  obtain ⟨nonempty', from_zero', -⟩ := ranges.nonempty n member'
  have to_size := (ranges.nonempty m member).2.2
  have low := (pieces.within v piece).1
  rcases nextEdge_cases sees positive machine low open_ (by omega) with last | rest
  · rcases sees.termEndAt_spec (show 0 < n.stop by omega) with ⟨u, seen_, -, same⟩ | ⟨-, same⟩
    · exact .inr ⟨u, seen_, .inr (by omega)⟩
    · -- a range that ends at its own end ends inside no other
      rcases pairwise_or_eq ranges.apart member member' with rfl | apart | apart
      · omega
      · omega
      · omega
  · rwa [← cut] at rest

end

theorem Placed.edge_inside (placed : Placed cur terms) (unseen : t ∈ unseenTerms terms)
    (is_edge : edge = t.fileStart ∨ edge = t.fileEnd)
    {m : Interval} (nonempty : m.start < m.stop) (from_zero : 0 ≤ m.start) (low : 0 ≤ p) (starts : termStartAt terms m.start ≤ p)
    (left : p < edge) (right : edge < termEndAt terms m.stop) : m.start < edge ∧ edge < m.stop := by
  have far := (placed.far_edge unseen is_edge).resolve_left (by omega)
  constructor
  · by_contra early
    rcases placed.sees.termStartAt_spec from_zero with ⟨u, member, ⟨-, reaches⟩, same⟩ | ⟨-, same⟩
    · have behind := far u member
      omega
    · omega
  · by_contra late
    rcases placed.sees.termEndAt_spec (show 0 < m.stop by omega) with ⟨u, member, -, same⟩ | ⟨-, same⟩
    · have behind := far u member
      omega
    · omega

theorem Placed.snapped_iff (placed : Placed cur terms) (nonneg : 0 ≤ size) (high : size ≤ maxInt64) (positive : 0 < blockSize)
    (machine : blockSize ≤ maxInt64) (ranges : Ranges size missing) :
    Snapped terms size blockSize missing (snapRanges terms size blockSize missing 0) ↔
      ∀ t ∈ unseenTerms terms, Spared (seenTerms terms) size blockSize missing t := by
  obtain ⟨pieces, covers⟩ := placed.sees.snapped nonneg high positive machine ranges
  constructor
  · intro snapped t unseen
    have known : t ∈ terms := (Placed.split terms).mpr (.inr unseen)
    constructor
    · intro y holds missed x holds' short
      rcases (covers x).mp ((snapped.covers x).mpr (.inr ⟨short, t, known, holds', y, holds, missed⟩)) with here |
        ⟨-, u, member, has, -⟩
      · exact here
      · have inside := placed.sees.ordered.inside u member
        obtain ⟨left, right⟩ := has
        have behind := (placed.far_byte unseen holds').resolve_left (by omega) u member
        omega
    · intro m member edge is_edge left right
      obtain ⟨v, piece, has⟩ := (snapped.covers (edge - 1)).mpr (.inl ⟨m, member, ⟨by omega, by omega⟩⟩)
      obtain ⟨first, last⟩ := has
      have smooth := snapped.pieces.smooth v piece t known edge is_edge
      obtain rfl : edge = v.stop := by omega
      exact placed.sees.cut_inside high positive machine ranges pieces piece member left right
  · intro spared
    constructor
    · refine { pieces with smooth := ?_ }
      intro v piece t member edge is_edge
      rcases (Placed.split terms).mp member with seen | unseen
      · exact pieces.smooth v piece t seen edge is_edge
      rintro ⟨left, right⟩
      obtain ⟨m, member', starts, open_, cut⟩ := mem_snapRanges piece
      obtain ⟨nonempty, from_zero, to_size⟩ := ranges.nonempty m member'
      obtain ⟨low, -⟩ := pieces.within v piece
      have near : nextEdge terms blockSize (min (termEndAt terms m.stop) size) v.start ≤ min (termEndAt terms m.stop) size :=
        (nextEdge_bounds open_).2
      obtain ⟨inside, inside'⟩ := placed.edge_inside unseen is_edge nonempty from_zero low starts left (by omega)
      rcases (spared t unseen).edges m member' edge is_edge inside inside' with multiple | ⟨u, seen, is_edge'⟩
      · have reached : nextEdge terms blockSize (min (termEndAt terms m.stop) size) v.start ≤ edge :=
          nextEdge_le_multiple positive machine low multiple left (by omega)
        omega
      · rcases nextEdge_smooth blockSize placed.sees low open_ seen is_edge' left with reached | beyond
        · omega
        · omega
    · intro x
      rw [covers]
      refine or_congr_right' fun apart => and_congr_right fun short => ⟨?_, ?_⟩
      · rintro ⟨t, member, has, y, has', missed⟩
        exact ⟨t, (Placed.split terms).mpr (.inl member), (placed.holds_iff member).mpr has, y,
          (placed.holds_iff member).mpr has', missed⟩
      · rintro ⟨t, member, holds, y, holds', missed⟩
        rcases (Placed.split terms).mp member with seen | unseen
        · exact ⟨t, seen, (placed.holds_iff seen).mp holds, y, (placed.holds_iff seen).mp holds', missed⟩
        · exact absurd ((spared t unseen).bytes y holds' missed x holds short) apart

/-- The boundaries are right just when the terms that the search does not see are no loss. -/
theorem boundaries_exact (accepted : normalize version base offsetFirst terms fetch = .ok r) (some_ : r.terms ≠ [])
    (once : wrapInt64 (base - offsetFirst) + (terms.map TermJSON.unpackedLength).sum ≤ 2 ^ 64)
    (nonneg : 0 ≤ size) (high : size ≤ maxInt64) (positive : 0 < blockSize) (machine : blockSize ≤ maxInt64)
    (ranges : Ranges size missing) :
    Snapped r.terms size blockSize missing (boundaries (some r) size missing blockSize) ↔
      ∀ t ∈ unseenTerms r.terms, Spared (seenTerms r.terms) size blockSize missing t := by
  obtain ⟨low, placed, -⟩ := normalize_ok accepted
  rw [boundaries, if_neg some_]
  exact (placeTerms_placed low (wrapInt64_bounds _).2 once placed).snapped_iff nonneg high positive machine ranges

/-- Three terms in a file that ends inside the last of them. -/
def threeTerms : List TermJSON := [⟨"x", 10, 0, 1⟩, ⟨"x", 20, 0, 1⟩, ⟨"x", 30, 0, 1⟩]

theorem boundaries_exact_three : ∃ r, normalize 1 0 0 threeTerms (fun _ => [oneRange]) = .ok r ∧
    Snapped r.terms 50 16 [⟨4, 6⟩, ⟨8, 40⟩] (boundaries (some r) 50 [⟨4, 6⟩, ⟨8, 40⟩] 16) := by
  have accepted : normalize 1 0 0 threeTerms (fun _ => [oneRange]) =
      .ok ⟨1, 0, [⟨"x", 10, 0, 1, 0, 10⟩, ⟨"x", 20, 0, 1, 10, 30⟩, ⟨"x", 30, 0, 1, 30, 60⟩], fun _ => [oneRange]⟩ := by
    simp only [normalize, List.mergeSort_singleton]
    rfl
  refine ⟨_, accepted, (boundaries_exact accepted (by decide) (by decide) (by decide) (by decide) (by decide) (by decide)
    ⟨by decide, by decide⟩).mpr fun t unseen => ?_⟩
  exact absurd unseen List.not_mem_nil

/-- The second term ends beyond the machine range and reads as ending before the file, which misleads the search: the end
of the first term, which holds the missing bytes, is not found. -/
theorem wrapped_term_hides_edge : ∃ r, normalize 1 0 (100 - maxInt64) [⟨"x", 10, 0, 1⟩, ⟨"x", 200, 0, 1⟩]
    (fun _ => [oneRange]) = .ok r ∧
    boundaries (some r) maxInt64 [⟨maxInt64 - 100, maxInt64 - 95⟩] (2 ^ 26) = [⟨maxInt64 - 100, maxInt64 - 95⟩] ∧
    ∃ t ∈ r.terms, t.fileStart = maxInt64 - 100 ∧ t.fileEnd = maxInt64 - 90 := by
  refine ⟨⟨1, 100 - maxInt64, [⟨"x", 10, 0, 1, maxInt64 - 100, maxInt64 - 90⟩, ⟨"x", 200, 0, 1, maxInt64 - 90, 109 + minInt64⟩],
    fun _ => [oneRange]⟩, ?_, ?_, _, List.mem_cons_self, rfl, rfl⟩
  · simp only [normalize, List.mergeSort_singleton]
    rfl
  rw [boundaries, if_neg (by decide), snapRanges, cutPieces, dif_pos (by decide), cutPieces, dif_neg (by decide)]
  rfl

end Hfdl.Xet
