import Mathlib.Algebra.BigOperators.Fin
import Mathlib.Algebra.BigOperators.Group.Finset.Piecewise

/-! Amounts recorded at points of time, and their sums over sets of times. -/
namespace Hfdl.Timeline
variable {β : Type v} [AddCommMonoid β]

def amount (p : Nat → Prop) [DecidablePred p] (records : List (Nat × β)) : β :=
  (records.map fun e => if p e.1 then e.2 else 0).sum

section
variable {p q : Nat → Prop} [DecidablePred p] [DecidablePred q] {records : List (Nat × β)}

@[simp] theorem amount_nil : amount p ([] : List (Nat × β)) = 0 := rfl

theorem amount_snoc : amount p (records ++ [(t, x)]) = amount p records + if p t then x else 0 := by
  simp [amount]

theorem amount_congr (same : ∀ e ∈ records, p e.1 ↔ q e.1) : amount p records = amount q records := by
  refine congrArg List.sum (List.map_congr_left fun e member => ?_)
  simp only [same e member]

theorem amount_none (absent : ∀ e ∈ records, ¬ p e.1) : amount p records = 0 := by
  rw [amount_congr (q := fun _ => False) (by simpa using absent)]
  simp [amount]

theorem sum_amount_mod (m : Nat) (positive : 0 < m) :
    ∑ i : Fin m, amount (fun t => t % m = i ∧ p t) records = amount p records := by
  induction records with
  | nil => simp
  | cons e rest ih =>
    have one : ∑ i : Fin m, (if e.1 % m = i ∧ p e.1 then e.2 else 0) = if p e.1 then e.2 else 0 := by
      have here (i : Fin m) : e.1 % m = i ↔ (⟨e.1 % m, Nat.mod_lt _ positive⟩ : Fin m) = i := by
        rw [Fin.ext_iff]
      simp only [here, ite_and, Finset.sum_ite_eq, Finset.mem_univ, if_true]
    simp only [amount, List.map_cons, List.sum_cons, Finset.sum_add_distrib] at ih ⊢
    rw [one, ih]

end
end Hfdl.Timeline
