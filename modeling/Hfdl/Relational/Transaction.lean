import Hfdl.Relational.Table

/-! Transactions as fallible functions: an error carries no state, so it is a
rollback. These facts take a committed transaction apart into its statements. -/
namespace Hfdl.Relational
variable {ε : Type u}

theorem map_eq_ok {α : Type v} {β : Type w} {b : β} {x : Except ε α} {f : α → β} :
    x.map f = .ok b ↔ ∃ a, x = .ok a ∧ f a = b := by
  cases x <;> simp [Except.map]

theorem map_eq_error {α : Type v} {β : Type w} {x : Except ε α} {f : α → β} : x.map f = .error e ↔ x = .error e := by
  cases x <;> simp [Except.map]

variable {α β : Type v}

theorem bind_eq_ok {x : Except ε α} {f : α → Except ε β} :
    (x >>= f) = .ok b ↔ ∃ a, x = .ok a ∧ f a = .ok b := by
  cases x <;> simp [bind, Except.bind]

theorem bind_eq_error {x : Except ε α} {f : α → Except ε β} (failed : x = .error e) :
    (x >>= f) = .error e := by
  subst failed
  rfl

theorem foldl_invariant {as : List α} {f : β → α → β} {P : β → Prop} (preserves : ∀ {b a}, a ∈ as → P b → P (f b a))
    (initial : P b) : P (as.foldl f b) := by
  induction as generalizing b with
  | nil => exact initial
  | cons a as ih =>
    exact ih (fun inside => preserves (List.mem_cons_of_mem _ inside)) (preserves List.mem_cons_self initial)

end Hfdl.Relational
