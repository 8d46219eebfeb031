import Mathlib.Data.List.Basic
import Mathlib.Data.Fintype.EquivFin

/-! Lists cut into groups by the remainder of the position, the groups written one after the other. -/
namespace Hfdl.Interleave
variable {α : Type u}

/-- The elements at the multiples of `m`. -/
def every (m : Nat) : List α → List α
  | [] => []
  | a :: rest => a :: every m (rest.drop (m - 1))
termination_by l => l.length
decreasing_by simp only [List.length_drop, List.length_cons]; omega

theorem getElem?_every (positive : 0 < m) {l : List α} : (every m l)[i]? = l[m * i]? := by
  induction i generalizing l with
  | zero => cases l <;> simp [every]
  | succ i ih =>
    cases l with
    | nil => simp [every]
    | cons a rest =>
      have next : m * (i + 1) = m - 1 + m * i + 1 := by rw [Nat.mul_succ]; omega
      rw [every, List.getElem?_cons_succ, ih, List.getElem?_drop, next, List.getElem?_cons_succ]

/-- The elements whose position leaves the remainder `k`. -/
def group (m : Nat) (l : List α) (k : Nat) : List α := every m (l.drop k)

/-- The groups in the order of their remainders. -/
def deinterleave (m : Nat) (l : List α) : List α := (List.range m).flatMap (group m l)

/-- One element more in the first groups when the length is no multiple of `m`. -/
def groupSize (m n k : Nat) : Nat := n / m + if k < n % m then 1 else 0

def groupStart (m n k : Nat) : Nat := k * (n / m) + min k (n % m)

/-- Where the element at a position goes. -/
def place (m n p : Nat) : Nat := groupStart m n (p % m) + p / m

theorem getElem?_group (positive : 0 < m) {l : List α} : (group m l k)[i]? = l[m * i + k]? := by
  rw [group, getElem?_every positive, List.getElem?_drop, Nat.add_comm]

theorem lt_groupSize (low : k < m) : i < groupSize m n k ↔ m * i + k < n := by
  have whole := Nat.div_add_mod n m
  have part := Nat.mod_lt n (Nat.zero_lt_of_lt low)
  obtain early | rfl | late := Nat.lt_trichotomy i (n / m)
  · have room : m * (i + 1) ≤ m * (n / m) := Nat.mul_le_mul_left m early
    rw [Nat.mul_succ] at room
    exact ⟨fun _ => by omega, fun _ => by rw [groupSize]; omega⟩
  · rw [groupSize]
    split <;> omega
  · have room : m * (n / m + 1) ≤ m * i := Nat.mul_le_mul_left m late
    rw [Nat.mul_succ] at room
    constructor
    · intro inside
      rw [groupSize] at inside
      split at inside <;> omega
    · omega

theorem length_group (low : k < m) {l : List α} : (group m l k).length = groupSize m l.length k := by
  have same (i : Nat) : i < (group m l k).length ↔ i < groupSize m l.length k := by
    rw [lt_groupSize low, ← Nat.not_le, ← Nat.not_le, ← List.getElem?_eq_none_iff, ← List.getElem?_eq_none_iff,
      getElem?_group (Nat.zero_lt_of_lt low)]
  exact Nat.le_antisymm (Nat.le_of_not_lt fun h => Nat.lt_irrefl _ ((same _).mp h))
    (Nat.le_of_not_lt fun h => Nat.lt_irrefl _ ((same _).mpr h))

@[simp] theorem groupStart_zero : groupStart m n 0 = 0 := by simp [groupStart]

theorem groupStart_succ : groupStart m n (k + 1) = groupStart m n k + groupSize m n k := by
  rw [groupStart, groupStart, groupSize, Nat.succ_mul]
  split <;> omega

theorem groupStart_top (positive : 0 < m) : groupStart m n m = n := by
  have part := Nat.mod_lt n positive
  rw [groupStart, Nat.min_eq_right (Nat.le_of_lt part), Nat.div_add_mod]

theorem groupStart_mono (le : j ≤ k) : groupStart m n j ≤ groupStart m n k := by
  induction le with
  | refl => exact Nat.le_refl _
  | step _ ih => rw [groupStart_succ]; exact Nat.le_add_right_of_le ih

theorem place_bounds (inside : p < n) (positive : 0 < m) :
    groupStart m n (p % m) ≤ place m n p ∧ place m n p < groupStart m n (p % m + 1) := by
  have member : p / m < groupSize m n (p % m) := by
    rw [lt_groupSize (Nat.mod_lt p positive), Nat.div_add_mod]
    exact inside
  rw [groupStart_succ, place]
  exact ⟨Nat.le_add_right .., Nat.add_lt_add_left member _⟩

theorem place_lt (inside : p < n) (positive : 0 < m) : place m n p < n :=
  calc place m n p
    _ < groupStart m n (p % m + 1) := (place_bounds inside positive).2
    _ ≤ groupStart m n m := groupStart_mono (Nat.mod_lt p positive)
    _ = n := groupStart_top positive

theorem place_inj (first : p < n) (second : q < n) (positive : 0 < m) (same : place m n p = place m n q) : p = q := by
  -- places of different groups are apart
  have apart {p q : Nat} (first : p < n) (second : q < n) (before : p % m < q % m) : place m n p < place m n q :=
    calc place m n p
      _ < groupStart m n (p % m + 1) := (place_bounds first positive).2
      _ ≤ groupStart m n (q % m) := groupStart_mono before
      _ ≤ place m n q := (place_bounds second positive).1
  have remainder : p % m = q % m := by
    obtain before | here | after := Nat.lt_trichotomy (p % m) (q % m)
    · have := apart first second before; omega
    · exact here
    · have := apart second first after; omega
  have quotient : p / m = q / m := by
    rw [place, place, remainder] at same
    exact Nat.add_left_cancel same
  rw [← Nat.div_add_mod p m, ← Nat.div_add_mod q m, remainder, quotient]

/-- The places of a list of a length permute its positions. -/
noncomputable def placement (m n : Nat) (positive : 0 < m) : Equiv.Perm (Fin n) :=
  .ofBijective (fun p => ⟨place m n p, place_lt p.2 positive⟩) <| Finite.injective_iff_bijective.mp fun p q same =>
    Fin.ext <| place_inj p.2 q.2 positive (congrArg Fin.val same)

theorem exists_place (positive : 0 < m) (inside : q < n) : ∃ p < n, place m n p = q := by
  obtain ⟨p, there⟩ := (placement m n positive).surjective ⟨q, inside⟩
  exact ⟨p, p.2, congrArg Fin.val there⟩

theorem length_groups {l : List α} (le : k ≤ m) :
    ((List.range k).flatMap (group m l)).length = groupStart m l.length k := by
  induction k with
  | zero => simp
  | succ k ih =>
    rw [List.range_succ, List.flatMap_append, List.length_append, ih (Nat.le_of_lt le), groupStart_succ,
      List.flatMap_singleton, length_group le]

theorem getElem?_groups {l : List α} (le : k ≤ m) (low : j < k) (member : i < groupSize m l.length j) :
    ((List.range k).flatMap (group m l))[groupStart m l.length j + i]? = l[m * i + j]? := by
  induction k with
  | zero => omega
  | succ k ih =>
    rw [List.range_succ, List.flatMap_append, List.flatMap_singleton]
    by_cases last : j = k
    · subst last
      rw [← length_groups (Nat.le_of_lt le), List.getElem?_append_right (Nat.le_add_right ..), Nat.add_sub_cancel_left,
        getElem?_group (by omega)]
    · have before : groupStart m l.length (j + 1) ≤ groupStart m l.length k := groupStart_mono (by omega)
      rw [groupStart_succ] at before
      rw [List.getElem?_append_left (by rw [length_groups (Nat.le_of_lt le)]; omega), ih (by omega) (by omega)]

theorem length_deinterleave (positive : 0 < m) {l : List α} : (deinterleave m l).length = l.length := by
  rw [deinterleave, length_groups (Nat.le_refl m), groupStart_top positive]

theorem getElem?_deinterleave (positive : 0 < m) {l : List α} (inside : p < l.length) :
    (deinterleave m l)[place m l.length p]? = l[p]? := by
  have low := Nat.mod_lt p positive
  rw [deinterleave, place, getElem?_groups (Nat.le_refl m) low, Nat.div_add_mod]
  rw [lt_groupSize low, Nat.div_add_mod]
  exact inside

theorem ext_place (positive : 0 < m) {l l' : List α} (first : l.length = n) (second : l'.length = n)
    (agree : ∀ p < n, l[place m n p]? = l'[place m n p]?) : l = l' := by
  apply List.ext_getElem?
  intro q
  by_cases inside : q < n
  · obtain ⟨p, small, rfl⟩ := exists_place positive inside
    exact agree p small
  · rw [List.getElem?_eq_none (by omega), List.getElem?_eq_none (by omega)]

end Hfdl.Interleave
