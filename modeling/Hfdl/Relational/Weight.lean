import Hfdl.Relational.Table
import Mathlib.Algebra.BigOperators.Group.List.Basic
import Mathlib.Algebra.GroupWithZero.Nat

/-! The sum of a value over the rows of a table, and how it changes when a row comes or goes. -/
namespace Hfdl.Relational.Table
variable {α : Type u} {κ : Type v} {key : α → κ} {t : Table α key} {f : α → Nat} {r : α}

def weight (f : α → Nat) (t : Table α key) : Nat := (t.rows.map f).sum

section
variable {M : Type w} [AddCommMonoid M] {g : α → M}

def total (g : α → M) (t : Table α key) : M := (t.rows.map g).sum

theorem sum_filter_not (keep : List α) (sel : α → Prop) [DecidablePred sel] :
    ((keep.filter fun r => ¬ sel r).map g).sum + ((keep.filter fun r => sel r).map g).sum = (keep.map g).sum := by
  induction keep with
  | nil => exact add_zero _
  | cons r keep ih =>
    by_cases selected : sel r
    · simp only [selected, not_true_eq_false, decide_false, decide_true, List.filter_cons, ite_true, List.map_cons, List.sum_cons,
        Bool.false_eq_true, ite_false]
      rw [add_left_comm, ih]
    · simp only [selected, not_false_eq_true, decide_false, decide_true, List.filter_cons, ite_true, List.map_cons, List.sum_cons,
        Bool.false_eq_true, ite_false]
      rw [add_assoc, ih]

end

section
variable [DecidableEq κ] {M : Type w} [AddCommMonoid M] {g : α → M}

theorem filter_key (stored : r ∈ t) : t.rows.filter (fun r' => key r' = key r) = [r] := by
  have nodup : (t.rows.filter fun r' => key r' = key r).Nodup := t.distinct.of_map.filter _
  have all : ∀ r' ∈ t.rows.filter fun r' => key r' = key r, r' = r := by
    intro r' member
    obtain ⟨inside, same⟩ := List.mem_filter.mp member
    exact eq_of_key inside stored (of_decide_eq_true same)
  have member : r ∈ t.rows.filter fun r' => key r' = key r := List.mem_filter.mpr ⟨stored, decide_eq_true rfl⟩
  cases rows : t.rows.filter fun r' => key r' = key r with
  | nil =>
    rw [rows] at member
    cases member
  | cons a rest =>
    rw [rows] at all nodup
    obtain rfl := all a List.mem_cons_self
    cases rest with
    | nil => rfl
    | cons b rest =>
      obtain rfl := all b (List.mem_cons_of_mem _ List.mem_cons_self)
      exact absurd List.mem_cons_self (List.nodup_cons.mp nodup).1

theorem total_delete (stored : r ∈ t) : total g (t.delete fun r' => key r' = key r) + g r = total g t := by
  have parts := sum_filter_not (g := g) t.rows fun r' => key r' = key r
  rw [filter_key stored] at parts
  simpa only [total, delete, List.map_cons, List.map_nil, List.sum_cons, List.sum_nil, add_zero] using parts

theorem delete_absent {k : κ} (absent : t.get k = none) : t.delete (fun r => key r = k) = t := by
  apply ext
  rw [delete, List.filter_eq_self]
  intro r member
  simpa using get_eq_none.mp absent r member

theorem total_insert (fresh : t.get (key r) = none) : total g (t.insert r) = total g t + g r := by
  have absent : key r ∉ t.rows.map key := by
    intro taken
    obtain ⟨old, stored, same⟩ := List.mem_map.mp taken
    exact get_eq_none.mp fresh old stored same
  simp only [total, insert, dif_neg absent, List.map_append, List.map_cons, List.map_nil, List.sum_append, List.sum_cons,
    List.sum_nil,
    add_zero]

theorem get_delete (k k' : κ) : (t.delete fun r => key r = k).get k' = if k' = k then none else t.get k' := by
  by_cases same : k' = k
  · rw [if_pos same, get_eq_none]
    intro r member
    rw [same]
    exact (mem_delete.mp member).2
  · rw [if_neg same]
    cases found : t.get k' with
    | none =>
      rw [get_eq_none] at found ⊢
      exact fun r member => found r (mem_delete.mp member).1
    | some r =>
      obtain ⟨stored, here⟩ := get_eq_some.mp found
      exact get_eq_some.mpr ⟨mem_delete.mpr ⟨stored, fun other => same (here.symm.trans other)⟩, here⟩

def assign (t : Table α key) (r : α) : Table α key := (t.delete fun r' => key r' = key r).insert r

theorem mem_assign : r' ∈ t.assign r ↔ r' ∈ t ∧ key r' ≠ key r ∨ r' = r := by
  rw [assign, mem_insert, mem_delete]
  constructor
  · rintro (kept | ⟨same, _⟩)
    · exact Or.inl kept
    · exact Or.inr same
  · rintro (kept | same)
    · exact Or.inl kept
    · exact Or.inr ⟨same, fun old inside => (mem_delete.mp inside).2⟩

theorem get_assign (k : κ) : (t.assign r).get k = if k = key r then some r else t.get k := by
  by_cases same : k = key r
  · rw [if_pos same]
    exact get_eq_some.mpr ⟨mem_assign.mpr (Or.inr rfl), same.symm⟩
  · rw [if_neg same]
    cases found : t.get k with
    | none =>
      rw [get_eq_none] at found ⊢
      intro r' member here
      rcases mem_assign.mp member with ⟨inside, _⟩ | rfl
      · exact found r' inside here
      · exact same here.symm
    | some r' =>
      obtain ⟨inside, here⟩ := get_eq_some.mp found
      exact get_eq_some.mpr ⟨mem_assign.mpr (Or.inl ⟨inside, fun other => same (here.symm.trans other)⟩), here⟩

theorem total_assign : total g (t.assign r) + (t.get (key r)).elim 0 g = total g t + g r := by
  have gone : (t.delete fun r' => key r' = key r).get (key r) = none := by rw [get_delete, if_pos rfl]
  rw [assign, total_insert gone]
  cases found : t.get (key r) with
  | none =>
    rw [delete_absent found, Option.elim_none, add_zero]
  | some old =>
    obtain ⟨stored, same⟩ := get_eq_some.mp found
    have removed := total_delete (g := g) stored
    rw [same] at removed
    rw [Option.elim_some, add_right_comm, removed]

theorem weight_delete (stored : r ∈ t) : weight f (t.delete fun r' => key r' = key r) + f r = weight f t :=
  total_delete stored

theorem weight_assign : weight f (t.assign r) + (t.get (key r)).elim 0 f = weight f t + f r := total_assign

end
end Hfdl.Relational.Table
