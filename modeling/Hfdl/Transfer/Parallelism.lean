import Hfdl.Transfer.Workers
import Mathlib.Data.List.Perm.Basic

/-! How many workers of a run are left unmarked by changes of its parallelism, as long as only marked workers leave. -/
namespace Hfdl.Workers
open Transition
variable {d d' : Workers}

def live (d : Workers) : Nat := d.workers.countP fun w => !w.drain

/-- Calls ask for a worker at least, and only marked workers leave. -/
def Churn (d : Workers) : Event → Prop
  | .setParallelism n _ => 1 ≤ n
  | .leave i => ∀ w ∈ d.workers[i]?, w.drain = true
  | _ => True

instance : Decidable (Churn d e) := by
  unfold Churn
  split <;> infer_instance

/-! ### Marking -/

def liveAmong (order : List Nat) (ws : List WorkerState) : Nat := order.countP fun i => ws[i]?.any fun w => !w.drain

theorem countP_range (p : α → Bool) (l : List α) : (List.range l.length).countP (fun i => l[i]?.any p) = l.countP p := by
  induction l with
  | nil => rfl
  | cons a l ih =>
    rw [List.length_cons, List.range_succ_eq_map, List.countP_cons, List.countP_map, List.countP_cons, ← ih]
    rfl

theorem countP_mark {ws : List WorkerState} (here : ws[i]? = some w) (unmarked : w.drain = false) :
    (ws.set i { w with drain := true }).countP (fun w => !w.drain) + 1 = ws.countP fun w => !w.drain := by
  obtain ⟨inside, rfl⟩ := List.getElem?_eq_some_iff.mp here
  have some_live : 0 < ws.countP fun w => !w.drain := List.countP_pos_iff.mpr ⟨ws[i], List.getElem_mem inside, by simp [unmarked]⟩
  rw [List.countP_set inside]
  simp [unmarked]
  omega

theorem liveAmong_set {order : List Nat} (away : i ∉ order) : liveAmong order (ws.set i w) = liveAmong order ws := by
  refine List.countP_congr fun j member => ?_
  have other : i ≠ j := fun same => away (same ▸ member)
  rw [List.getElem?_set_ne other]

/-- Each round of the loop marks the next unmarked worker of the iteration. -/
theorem live_drainFirst {order : List Nat} (k : Nat) (ws : List WorkerState) (distinct : order.Nodup) :
    (drainFirst k order ws).countP (fun w => !w.drain) + min k (liveAmong order ws) = ws.countP fun w => !w.drain := by
  induction order generalizing k ws with
  | nil => cases k <;> simp [drainFirst, liveAmong]
  | cons i order ih =>
    obtain ⟨away, distinct⟩ := List.nodup_cons.mp distinct
    cases k with
    | zero => simp [drainFirst]
    | succ k =>
      have among : liveAmong (i :: order) ws = liveAmong order ws + if ws[i]?.any fun w => !w.drain then 1 else 0 :=
        List.countP_cons
      rw [drainFirst, among]
      cases here : ws[i]? with
      | none =>
        simp only [Option.any_none, Bool.false_eq_true, if_false, Nat.add_zero]
        exact ih _ ws distinct
      | some w =>
        cases marked : w.drain with
        | true =>
          simp only [marked, if_true, Option.any_some, Bool.not_true, Bool.false_eq_true, if_false, Nat.add_zero]
          exact ih _ ws distinct
        | false =>
          simp only [marked, Bool.false_eq_true, if_false, Option.any_some, Bool.not_false, if_true]
          have rest := ih k (ws.set i { w with drain := true }) distinct
          rw [liveAmong_set away] at rest
          have one := countP_mark here marked
          omega

theorem live_setParallelism (running : d.draining = false) (iteration : order.Perm (List.range d.workers.length)) :
    (d.setParallelism n order).live =
      if n < d.workers.length then min d.live n else d.live + (n - d.workers.length) := by
  have all : liveAmong order d.workers = d.live := (iteration.countP_eq _).trans (countP_range _ _)
  have distinct : order.Nodup := iteration.nodup_iff.mpr List.nodup_range
  have counted : d.workers.countP (·.drain) + d.live = d.workers.length := by
    rw [List.length_eq_countP_add_countP fun w : WorkerState => w.drain, live]
    simp only [Bool.not_eq_true, Bool.decide_eq_false]
  rw [setParallelism, running, if_neg Bool.false_ne_true]
  split
  next fewer =>
    have marked := live_drainFirst (d.workers.length - n - d.workers.countP (·.drain)) d.workers distinct
    rw [all] at marked
    simp only [live] at *
    omega
  next more =>
    simp only [live, List.countP_append, List.countP_replicate, Bool.not_false, if_true]

/-! ### Whole runs -/

theorem live_set (here : d.workers[i]? = some ⟨drain, phase⟩) : (d.set i ⟨drain, phase'⟩).live = d.live := by
  obtain ⟨inside, found⟩ := List.getElem?_eq_some_iff.mp here
  calc (d.set i ⟨drain, phase'⟩).live
    _ = (⟨drain, phase'⟩ :: d.workers.eraseIdx i).countP fun w => !w.drain :=
      (List.set_perm_cons_eraseIdx inside _).countP_eq _
    _ = (d.workers[i] :: d.workers.eraseIdx i).countP fun w => !w.drain := by
      rw [found, List.countP_cons, List.countP_cons]
    _ = d.live := (List.getElem_cons_eraseIdx_perm inside).countP_eq _

theorem live_erase (here : d.workers[i]? = some w) (marked : w.drain = true) :
    (d.workers.eraseIdx i).countP (fun w => !w.drain) = d.live := by
  obtain ⟨inside, rfl⟩ := List.getElem?_eq_some_iff.mp here
  rw [live, ← (List.getElem_cons_eraseIdx_perm inside).countP_eq, List.countP_cons_of_neg (by simp [marked])]

theorem settle_workers (d : Workers) : (d.settle block outcome lost).workers = d.workers ∧
    (d.settle block outcome lost).draining = d.draining := by
  unfold settle
  split
  · split <;> exact ⟨rfl, rfl⟩
  · exact ⟨rfl, rfl⟩
  · exact ⟨rfl, rfl⟩

theorem live_step (held : 0 < d.live ∧ d.draining = false) (churn : Churn d e) (stepped : next d e = some d') :
    0 < d'.live ∧ d'.draining = false := by
  obtain ⟨some_live, running⟩ := held
  cases next_step stepped with
  | setParallelism =>
    rename_i n order
    obtain ⟨iteration, -⟩ := Option.ite_none_right_eq_some.mp stepped
    have asked : 1 ≤ n := churn
    refine ⟨?_, ?_⟩
    · rw [live_setParallelism running iteration]
      split <;> omega
    · rw [setParallelism, running, if_neg Bool.false_ne_true]
      split <;> rfl
  | enter here | lease here | leaseNone here | leaseFails here | count here | discount here | check here | wake here =>
    exact ⟨some_live.trans_eq (live_set here).symm, running⟩
  | settle here =>
    obtain ⟨workers, draining⟩ := settle_workers (d.set _ _)
    refine ⟨?_, draining.trans running⟩
    rw [live, workers]
    exact some_live.trans_eq (live_set here).symm
  | leave here =>
    have left := live_erase here (churn _ here)
    refine ⟨some_live.trans_eq left.symm, ?_⟩
    rw [running, Bool.false_or, List.isEmpty_eq_false_iff]
    -- an unmarked worker is among those left
    intro none_left
    rw [none_left, List.countP_nil] at left
    omega
  | fail | cancel => exact ⟨some_live, running⟩

/-- After any churn an unmarked worker is left and the run is not latched, and the next call leaves the unmarked workers
it asks for, up to those that were marked before and still count. -/
theorem parallelism_survives_churn (some_live : 0 < d.live) (running : d.draining = false) (ran : run next d es = some d')
    (churn : Meets next Churn d es) :
    0 < d'.live ∧ d'.draining = false ∧
      ∀ n order, 1 ≤ n → order.Perm (List.range d'.workers.length) →
        (n < d'.workers.length → (d'.setParallelism n order).live = min d'.live n) ∧
        (d'.workers.length ≤ n → (d'.setParallelism n order).live = d'.live + (n - d'.workers.length)) ∧
        ((∀ w ∈ d'.workers, w.drain = false) → (d'.setParallelism n order).live = n) := by
  obtain ⟨left, open_⟩ :=
    invariant_meeting (I := fun d => 0 < d.live ∧ d.draining = false) live_step ⟨some_live, running⟩ ran churn
  refine ⟨left, open_, fun n order asked iteration => ?_⟩
  rw [live_setParallelism open_ iteration]
  refine ⟨fun fewer => if_pos fewer, fun more => if_neg (by omega), fun unmarked => ?_⟩
  have all : d'.live = d'.workers.length := by
    rw [live, List.countP_eq_length]
    simpa using unmarked
  rw [all]
  split <;> omega

/-- Four workers, two reductions, the marked workers leave, then a raise. -/
def churning : List Event :=
  [.enter 0, .lease 0 1, .setParallelism 2 [3, 0, 1, 2], .setParallelism 1 [0, 1, 2, 3], .setParallelism 1 [2, 0, 1, 3],
    .enter 3, .leave 3,
    .count 0, .settle 0 .streamed false, .discount 0, .enter 0, .leave 0, .enter 0, .leave 0]

theorem parallelism_survives_churn_raised :
    ∃ d, run next (start [1] 4) churning = some d ∧ d.workers.length = 1 ∧ d.draining = false ∧
      (d.setParallelism 3 [0]).live = 3 := by
  have ran : ∃ d, run next (start [1] 4) churning = some d ∧ d.workers = [⟨false, .top⟩] := ⟨_, rfl, rfl⟩
  obtain ⟨d, ran, workers⟩ := ran
  obtain ⟨-, running, calls⟩ := parallelism_survives_churn (by decide) rfl ran (by decide)
  obtain ⟨-, -, exact_⟩ := calls 3 [0] (by decide) (by rw [workers]; decide)
  exact ⟨d, ran, by rw [workers]; rfl, running, exact_ (by simp [workers])⟩

end Hfdl.Workers
