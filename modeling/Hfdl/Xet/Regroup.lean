import Hfdl.Indexed
import Hfdl.Interleave
import Hfdl.Xet.Reconstruct

/-! The byte grouping before the compression of a chunk, and the loop that undoes it. -/
namespace Hfdl.Xet
open Indexed Interleave

/-- The bytes of a chunk in four groups by their position. -/
def bg4Split (data : Bytes) : Bytes := deinterleave 4 data

/-- One round of the loop: the next byte of each group. -/
def regroupRound (g0 g1 g2 g3 : Bytes) (out : Bytes) (i : Nat) : Bytes :=
  (((out.set (4 * i) (g0.getD i 0)).set (4 * i + 1) (g1.getD i 0)).set (4 * i + 2) (g2.getD i 0)).set
    (4 * i + 3) (g3.getD i 0)

def bg4Regroup (g : Bytes) : Bytes :=
  let n := g.length
  let split := n / 4
  let rem := n % 4
  let s0 := split + min rem 1
  let s1 := split + min (rem - 1) 1
  let s2 := split + min (rem - 2) 1
  let g0 := slice g 0 s0
  let g1 := slice g s0 (s0 + s1)
  let g2 := slice g (s0 + s1) (s0 + s1 + s2)
  let g3 := g.drop (s0 + s1 + s2)
  let out := (List.range split).foldl (regroupRound g0 g1 g2 g3) (List.replicate n 0)
  match rem with
  | 1 => out.set (4 * split) (g0.getD split 0)
  | 2 => (out.set (4 * split) (g0.getD split 0)).set (4 * split + 1) (g1.getD split 0)
  | 3 => ((out.set (4 * split) (g0.getD split 0)).set (4 * split + 1) (g1.getD split 0)).set
      (4 * split + 2) (g2.getD split 0)
  | _ => out

structure Filled (g out : Bytes) (m : Nat) : Prop where
  length : out.length = g.length
  bytes : ∀ p < m, out[p]? = g[place 4 g.length p]?

theorem Filled.set (filled : Filled g out m) (room : m < g.length) (read : v = g.getD (place 4 g.length m) 0) :
    Filled g (out.set m v) (m + 1) where
  length := by rw [List.length_set, filled.length]
  bytes p before := by
    by_cases here : p = m
    · have stored := place_lt room (by decide : 0 < 4)
      rw [here, List.getElem?_set_self (by rw [filled.length]; exact room), read, List.getD_eq_getElem?_getD,
        List.getElem?_eq_getElem stored, Option.getD_some]
    · rw [List.getElem?_set_ne (by omega)]
      exact filled.bytes p (by omega)

/-- What the four groups of the source hold, in terms of the places of the bytes. -/
structure Groups (g g0 g1 g2 g3 : Bytes) : Prop where
  first : ∀ i, 4 * i < g.length → g0.getD i 0 = g.getD (place 4 g.length (4 * i)) 0
  second : ∀ i, 4 * i + 1 < g.length → g1.getD i 0 = g.getD (place 4 g.length (4 * i + 1)) 0
  third : ∀ i, 4 * i + 2 < g.length → g2.getD i 0 = g.getD (place 4 g.length (4 * i + 2)) 0
  fourth : ∀ i, 4 * i + 3 < g.length → g3.getD i 0 = g.getD (place 4 g.length (4 * i + 3)) 0

theorem place_four (low : k < 4) : place 4 n (4 * i + k) = k * (n / 4) + min k (n % 4) + i := by
  have remainder : (4 * i + k) % 4 = k := by omega
  have quotient : (4 * i + k) / 4 = i := by omega
  rw [place, groupStart, remainder, quotient]

theorem getD_slice (inside : i + k < j) (here : i + k = p) : (slice l i j).getD k 0 = (l : Bytes).getD p 0 := by
  rw [List.getD_eq_getElem?_getD, List.getD_eq_getElem?_getD, getElem?_slice, if_pos inside, here]

theorem groups_slices {g : Bytes} {s0 s1 s2 : Nat} (h0 : s0 = g.length / 4 + min (g.length % 4) 1)
    (h1 : s1 = g.length / 4 + min (g.length % 4 - 1) 1) (h2 : s2 = g.length / 4 + min (g.length % 4 - 2) 1) :
    Groups g (slice g 0 s0) (slice g s0 (s0 + s1)) (slice g (s0 + s1) (s0 + s1 + s2)) (g.drop (s0 + s1 + s2)) where
  first i inside := by
    have there : place 4 g.length (4 * i) = _ := place_four (by decide : 0 < 4)
    exact getD_slice (by omega) (by omega)
  second i inside := by
    have there : place 4 g.length (4 * i + 1) = _ := place_four (by decide : 1 < 4)
    exact getD_slice (by omega) (by omega)
  third i inside := by
    have there : place 4 g.length (4 * i + 2) = _ := place_four (by decide : 2 < 4)
    exact getD_slice (by omega) (by omega)
  fourth i inside := by
    have there : place 4 g.length (4 * i + 3) = _ := place_four (by decide : 3 < 4)
    rw [List.getD_eq_getElem?_getD, List.getD_eq_getElem?_getD, List.getElem?_drop]
    congr 2
    omega

theorem Filled.round (filled : Filled g out (4 * i)) (groups : Groups g g0 g1 g2 g3) (whole : i < g.length / 4) :
    Filled g (regroupRound g0 g1 g2 g3 out i) (4 * (i + 1)) :=
  (((filled.set (by omega) (groups.first i (by omega))).set (by omega) (groups.second i (by omega))).set (by omega)
    (groups.third i (by omega))).set (by omega) (groups.fourth i (by omega))

theorem Filled.rounds (groups : Groups g g0 g1 g2 g3) (whole : k ≤ g.length / 4) :
    Filled g ((List.range k).foldl (regroupRound g0 g1 g2 g3) (List.replicate g.length 0)) (4 * k) := by
  induction k with
  | zero => exact ⟨List.length_replicate, by simp⟩
  | succ k ih =>
    rw [List.range_succ, List.foldl_append, List.foldl_cons, List.foldl_nil]
    exact (ih (Nat.le_of_lt whole)).round groups whole

theorem bg4Regroup_filled (g : Bytes) : Filled g (bg4Regroup g) g.length := by
  have groups := groups_slices (g := g) rfl rfl rfl
  have looped := Filled.rounds groups (Nat.le_refl _)
  have whole := Nat.div_add_mod g.length 4
  simp only [bg4Regroup]
  -- the bytes after the last full round
  split
  next rem =>
    have last := looped.set (by omega) (groups.first _ (by omega))
    rwa [show 4 * (g.length / 4) + 1 = g.length by omega] at last
  next rem =>
    have last := (looped.set (by omega) (groups.first _ (by omega))).set (by omega) (groups.second _ (by omega))
    rwa [show 4 * (g.length / 4) + 1 + 1 = g.length by omega] at last
  next rem =>
    have last := ((looped.set (by omega) (groups.first _ (by omega))).set (by omega) (groups.second _ (by omega))).set
      (by omega) (groups.third _ (by omega))
    rwa [show 4 * (g.length / 4) + 1 + 1 + 1 = g.length by omega] at last
  next one two three =>
    change ¬_ at one two three
    rwa [show 4 * (g.length / 4) = g.length by omega] at looped

theorem length_bg4Regroup (g : Bytes) : (bg4Regroup g).length = g.length := (bg4Regroup_filled g).length

theorem bg4Regroup_bg4Split (x : Bytes) : bg4Regroup (bg4Split x) = x := by
  have length : (bg4Split x).length = x.length := length_deinterleave (by decide)
  have filled := bg4Regroup_filled (bg4Split x)
  apply List.ext_getElem?
  intro p
  by_cases inside : p < x.length
  · rw [filled.bytes p (by omega), length, bg4Split, getElem?_deinterleave (by decide) inside]
  · rw [List.getElem?_eq_none (by rw [filled.length]; omega), List.getElem?_eq_none (by omega)]

theorem bg4Split_bg4Regroup (g : Bytes) : bg4Split (bg4Regroup g) = g := by
  have filled := bg4Regroup_filled g
  have length : (bg4Split (bg4Regroup g)).length = g.length :=
    (length_deinterleave (by decide)).trans filled.length
  apply ext_place (by decide : 0 < 4) length rfl
  intro p inside
  rw [← filled.length, bg4Split, getElem?_deinterleave (by decide) (by rw [filled.length]; exact inside),
    filled.bytes p inside, filled.length]

/-- Regrouping and splitting undo each other, and regrouping moves the bytes of a length by one permutation. -/
theorem bg4Regroup_bijection :
    (∀ x, bg4Regroup (bg4Split x) = x) ∧ (∀ g, bg4Split (bg4Regroup g) = g) ∧
      ∀ n, ∃ σ : Equiv.Perm (Fin n), ∀ f : Fin n → UInt8, bg4Regroup (List.ofFn f) = List.ofFn (f ∘ σ) := by
  refine ⟨bg4Regroup_bg4Split, bg4Split_bg4Regroup, fun n => ⟨placement 4 n (by decide), fun f => ?_⟩⟩
  have filled := bg4Regroup_filled (List.ofFn f)
  have length : (bg4Regroup (List.ofFn f)).length = n := filled.length.trans List.length_ofFn
  apply List.ext_getElem (by rw [length, List.length_ofFn])
  intro p first second
  have inside : p < n := length ▸ first
  have read := filled.bytes p (by rw [List.length_ofFn]; exact inside)
  have stored : place 4 n p < n := place_lt inside (by decide)
  rw [List.length_ofFn, List.getElem?_eq_getElem first, List.getElem?_ofFn, dif_pos stored, Option.some.injEq] at read
  rw [read, List.getElem_ofFn]
  rfl

end Hfdl.Xet
