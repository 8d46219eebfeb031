import Hfdl.Sched.Runs

/-! The workers of one run. A worker leases a block, counts it as in flight, tries it and gives it back; it leaves when
the leaser has no block for it and none is in flight, or at the top of its loop when it is drained. -/
namespace Hfdl
open Transition

inductive WorkerPhase where
  | top
  | leasing
  | leased (block : BlockId)
  | executing (block : BlockId)
  | settled
  | empty
  | parked
  | leaving
deriving DecidableEq

def WorkerPhase.block : WorkerPhase → Option BlockId
  | .leased block | .executing block => some block
  | .top | .leasing | .settled | .empty | .parked | .leaving => none

/-- A worker that is not on its way out comes back to the leaser. -/
def WorkerPhase.stays : WorkerPhase → Bool
  | .empty | .leaving => false
  | .top | .leasing | .leased _ | .executing _ | .settled | .parked => true

structure WorkerState where
  drain : Bool
  phase : WorkerPhase
deriving DecidableEq

/-- `pending` and `done` are the blocks of the leaser; the flags are the ways a run ends before its blocks do. -/
structure Workers where
  workers : List WorkerState
  inflight : Int
  draining : Bool
  pending : List BlockId
  done : List BlockId
  failed : Bool
  fallback : Bool
  cancelled : Bool
deriving DecidableEq

namespace Workers

inductive Event where
  | setParallelism (n : Nat) (order : List Nat)
  | enter (i : Nat)
  | lease (i : Nat) (block : BlockId)
  | leaseNone (i : Nat)
  | leaseFails (i : Nat)
  | count (i : Nat)
  | settle (i : Nat) (outcome : Outcome) (failed : Bool)
  | discount (i : Nat)
  | check (i : Nat)
  | wake (i : Nat)
  | leave (i : Nat)
  | fail
  | cancel

def ended (d : Workers) : Bool := d.failed || d.fallback || d.cancelled

def set (d : Workers) (i : Nat) (w : WorkerState) : Workers := { d with workers := d.workers.set i w }

/-- Marks the first `k` workers that are not marked yet, in the order of an iteration over the set. -/
def drainFirst : Nat → List Nat → List WorkerState → List WorkerState
  | 0, _, workers => workers
  | _, [], workers => workers
  | k + 1, i :: order, workers =>
    match workers[i]? with
    | some w => if w.drain then drainFirst (k + 1) order workers else drainFirst k order (workers.set i { w with drain := true })
    | none => drainFirst (k + 1) order workers

/-- Both directions count the whole set, and the workers that are drained already count towards a reduction. -/
def setParallelism (d : Workers) (n : Nat) (order : List Nat) : Workers :=
  if d.draining then d
  else if n < d.workers.length then
    { d with workers := drainFirst (d.workers.length - n - d.workers.countP (·.drain)) order d.workers }
  else { d with workers := d.workers ++ List.replicate (n - d.workers.length) ⟨false, .top⟩ }

/-- The end of a block attempt at the leaser. A failed completion fails the run, a failed requeue is only logged. -/
def settle (d : Workers) (block : BlockId) (outcome : Outcome) (failed : Bool) : Workers :=
  match executeBlock outcome with
  | .completed => if failed then { d with failed := true } else { d with done := block :: d.done }
  | .requeued =>
    { d with
      pending := if failed then d.pending else block :: d.pending
      fallback := d.fallback || outcome = .openFailed .allRangeless }
  | .dropped _ => { d with failed := true }

def next (d : Workers) : Event → Option Workers
  | .setParallelism n order => if order.Perm (List.range d.workers.length) then some (d.setParallelism n order) else none
  | .enter i =>
    match d.workers[i]? with
    | some ⟨drain, .top⟩ => some (d.set i ⟨drain, if d.ended || drain then .leaving else .leasing⟩)
    | _ => none
  | .lease i block =>
    match d.workers[i]? with
    | some ⟨drain, .leasing⟩ =>
      if block ∈ d.pending then some { d.set i ⟨drain, .leased block⟩ with pending := d.pending.erase block } else none
    | _ => none
  | .leaseNone i =>
    match d.workers[i]? with
    | some ⟨drain, .leasing⟩ => if d.pending = [] then some (d.set i ⟨drain, .empty⟩) else none
    | _ => none
  | .leaseFails i =>
    match d.workers[i]? with
    | some ⟨drain, .leasing⟩ => some { d.set i ⟨drain, .leaving⟩ with failed := d.failed || !d.ended }
    | _ => none
  | .count i =>
    match d.workers[i]? with
    | some ⟨drain, .leased block⟩ => some { d.set i ⟨drain, .executing block⟩ with inflight := d.inflight + 1 }
    | _ => none
  | .settle i outcome failed =>
    match d.workers[i]? with
    | some ⟨drain, .executing block⟩ => some ((d.set i ⟨drain, .settled⟩).settle block outcome failed)
    | _ => none
  | .discount i =>
    match d.workers[i]? with
    | some ⟨drain, .settled⟩ => some { d.set i ⟨drain, .top⟩ with inflight := d.inflight - 1 }
    | _ => none
  | .check i =>
    match d.workers[i]? with
    | some ⟨drain, .empty⟩ => some (d.set i ⟨drain, if d.inflight = 0 then .leaving else .parked⟩)
    | _ => none
  | .wake i =>
    match d.workers[i]? with
    | some ⟨drain, .parked⟩ => some (d.set i ⟨drain, .top⟩)
    | _ => none
  | .leave i =>
    match d.workers[i]? with
    | some ⟨_, .leaving⟩ =>
      some { d with workers := d.workers.eraseIdx i, draining := d.draining || (d.workers.eraseIdx i).isEmpty }
    | _ => none
  | .fail => some { d with failed := true }
  | .cancel => some { d with cancelled := true }

inductive Step (d : Workers) : Event → Workers → Prop where
  | setParallelism : Step d (.setParallelism n order) (d.setParallelism n order)
  | enter (here : d.workers[i]? = some ⟨drain, .top⟩) :
      Step d (.enter i) (d.set i ⟨drain, if d.ended || drain then .leaving else .leasing⟩)
  | lease (here : d.workers[i]? = some ⟨drain, .leasing⟩) :
      Step d (.lease i block) { d.set i ⟨drain, .leased block⟩ with pending := d.pending.erase block }
  | leaseNone (here : d.workers[i]? = some ⟨drain, .leasing⟩) (none : d.pending = []) :
      Step d (.leaseNone i) (d.set i ⟨drain, .empty⟩)
  | leaseFails (here : d.workers[i]? = some ⟨drain, .leasing⟩) :
      Step d (.leaseFails i) { d.set i ⟨drain, .leaving⟩ with failed := d.failed || !d.ended }
  | count (here : d.workers[i]? = some ⟨drain, .leased block⟩) :
      Step d (.count i) { d.set i ⟨drain, .executing block⟩ with inflight := d.inflight + 1 }
  | settle (here : d.workers[i]? = some ⟨drain, .executing block⟩) :
      Step d (.settle i outcome lost) ((d.set i ⟨drain, .settled⟩).settle block outcome lost)
  | discount (here : d.workers[i]? = some ⟨drain, .settled⟩) :
      Step d (.discount i) { d.set i ⟨drain, .top⟩ with inflight := d.inflight - 1 }
  | check (here : d.workers[i]? = some ⟨drain, .empty⟩) :
      Step d (.check i) (d.set i ⟨drain, if d.inflight = 0 then .leaving else .parked⟩)
  | wake (here : d.workers[i]? = some ⟨drain, .parked⟩) : Step d (.wake i) (d.set i ⟨drain, .top⟩)
  | leave (here : d.workers[i]? = some ⟨drain, .leaving⟩) :
      Step d (.leave i) { d with workers := d.workers.eraseIdx i, draining := d.draining || (d.workers.eraseIdx i).isEmpty }
  | fail : Step d .fail { d with failed := true }
  | cancel : Step d .cancel { d with cancelled := true }

theorem next_step {d d' : Workers} (stepped : next d e = some d') : Step d e d' := by
  unfold next at stepped
  grind [Step]

/-- A run starts with its connections, four by default. -/
def start (blocks : List BlockId) (conns : Int) : Workers :=
  ⟨List.replicate (if conns ≤ 0 then 4 else conns.toNat) ⟨false, .top⟩, 0, false, blocks, [], false, false, false⟩

/-- Requeues succeed, and a drained worker leaves when no block is pending or another worker comes back to the leaser. -/
def Relieved (d : Workers) : Event → Prop
  | .settle _ outcome failed => executeBlock outcome = .requeued → failed = false
  | .enter i => (∃ w ∈ d.workers[i]?, w.drain = true) → d.pending = [] ∨ ∃ w ∈ d.workers.eraseIdx i, w.phase.stays = true
  | _ => True

instance : Decidable (Relieved d e) := by
  unfold Relieved
  split <;> infer_instance

/-- Every block is done, with the leaser or with a worker, and as long as the leaser has one a worker comes back to it. -/
structure Covered (blocks : List BlockId) (d : Workers) : Prop where
  kept : ∀ b ∈ blocks, b ∈ d.done ∨ b ∈ d.pending ∨ ∃ w ∈ d.workers, w.phase.block = some b
  tended : d.pending ≠ [] → ∃ w ∈ d.workers, w.phase.stays = true

section
variable {d d' : Workers} {blocks : List BlockId}

theorem mem_set_or {l : List α} (found : l[i]? = some a) (member : x ∈ l) : x ∈ l.set i b ∨ x = a := by
  obtain ⟨j, here⟩ := List.mem_iff_getElem?.mp member
  by_cases same : i = j
  · subst same
    exact .inr (Option.some.inj (here.symm.trans found))
  · exact .inl (List.mem_iff_getElem?.mpr ⟨j, by rw [List.getElem?_set_ne same, here]⟩)

theorem mem_set_self {l : List α} (found : l[i]? = some a) : b ∈ l.set i b := by
  obtain ⟨bound, -⟩ := List.getElem?_eq_some_iff.mp found
  exact List.mem_set bound b

theorem mem_set_of_eraseIdx {l : List α} (member : x ∈ l.eraseIdx i) : x ∈ l.set i b := by
  rw [List.mem_eraseIdx_iff_getElem?] at member
  obtain ⟨j, other, here⟩ := member
  exact List.mem_iff_getElem?.mpr ⟨j, by rw [List.getElem?_set_ne other.symm, here]⟩

theorem Covered.step (covered : Covered blocks d) (found : d.workers[i]? = some w) (workers : d'.workers = d.workers.set i w')
    (kept : ∀ b, b ∈ d.done ∨ b ∈ d.pending ∨ w.phase.block = some b → b ∈ d'.done ∨ b ∈ d'.pending ∨ w'.phase.block = some b)
    (tended : d'.pending ≠ [] → w'.phase.stays = true ∨ ∃ w ∈ d.workers.eraseIdx i, w.phase.stays = true) :
    Covered blocks d' where
  kept b known := by
    rw [workers]
    have mine (after : b ∈ d'.done ∨ b ∈ d'.pending ∨ w'.phase.block = some b) :
        b ∈ d'.done ∨ b ∈ d'.pending ∨ ∃ w ∈ d.workers.set i w', w.phase.block = some b :=
      after.imp_right (.imp_right fun holds => ⟨w', mem_set_self found, holds⟩)
    rcases covered.kept b known with done | pending | ⟨v, member, holds⟩
    · exact mine (kept b (.inl done))
    · exact mine (kept b (.inr (.inl pending)))
    · rcases mem_set_or found member with other | rfl
      · exact .inr (.inr ⟨v, other, holds⟩)
      · exact mine (kept b (.inr (.inr holds)))
  tended waits := by
    rw [workers]
    rcases tended waits with stays | ⟨v, other, stays⟩
    · exact ⟨w', mem_set_self found, stays⟩
    · exact ⟨v, mem_set_of_eraseIdx other, stays⟩

theorem Covered.idle (covered : Covered blocks d) (found : d.workers[i]? = some w) (workers : d'.workers = d.workers.set i w')
    (free : w.phase.block = none) (done : d'.done = d.done) (pending : d'.pending = d.pending)
    (tended : d.pending ≠ [] → w'.phase.stays = true ∨ ∃ w ∈ d.workers.eraseIdx i, w.phase.stays = true) : Covered blocks d' := by
  refine covered.step found workers (fun b known => ?_) (pending ▸ tended)
  rw [done, pending]
  rcases known with done | pending | held
  · exact .inl done
  · exact .inr (.inl pending)
  · cases free.symm.trans held

/-- A worker that is on its way out is not the one that tends the leaser. -/
theorem Covered.others (covered : Covered blocks d) (found : d.workers[i]? = some w) (out : w.phase.stays = false)
    (waits : d.pending ≠ []) :
    ∃ v ∈ d.workers.eraseIdx i, v.phase.stays = true := by
  obtain ⟨v, member, stays⟩ := covered.tended waits
  obtain ⟨j, here⟩ := List.mem_iff_getElem?.mp member
  refine ⟨v, List.mem_eraseIdx_iff_getElem?.mpr ⟨j, ?_, here⟩, stays⟩
  rintro rfl
  cases found.symm.trans here
  cases out.symm.trans stays

theorem phases_drainFirst {ws : List WorkerState} : (drainFirst k order ws).map (·.phase) = ws.map (·.phase) := by
  induction order generalizing k ws with
  | nil => cases k <;> rfl
  | cons i order ih =>
    cases k with
    | zero => rfl
    | succ k =>
      simp only [drainFirst]
      split
      · rename_i w found
        split
        · exact ih
        · rw [ih, List.map_set]
          refine List.ext_getElem? fun j => ?_
          by_cases same : i = j
          · subst same
            rw [List.getElem?_set_self', List.getElem?_map, found]
            rfl
          · rw [List.getElem?_set_ne same]
      · exact ih

theorem Covered.phases (covered : Covered blocks d) (pending : d'.pending = d.pending) (done : d'.done = d.done)
    (kept : ∀ w ∈ d.workers, ∃ w' ∈ d'.workers, w'.phase = w.phase) : Covered blocks d' where
  kept b known := by
    rw [pending, done]
    refine (covered.kept b known).imp_right (.imp_right fun ⟨w, member, holds⟩ => ?_)
    obtain ⟨w', member', same⟩ := kept w member
    exact ⟨w', member', same ▸ holds⟩
  tended waits := by
    rw [pending] at waits
    obtain ⟨w, member, stays⟩ := covered.tended waits
    obtain ⟨w', member', same⟩ := kept w member
    exact ⟨w', member', same ▸ stays⟩

theorem covered_setParallelism (covered : Covered blocks d) : Covered blocks (d.setParallelism n order) := by
  simp only [setParallelism]
  split
  · exact covered
  split
  · refine covered.phases rfl rfl fun w member => ?_
    have phase : w.phase ∈ d.workers.map (·.phase) := List.mem_map_of_mem member
    rw [← phases_drainFirst] at phase
    obtain ⟨w', member', same⟩ := List.mem_map.mp phase
    exact ⟨w', member', same⟩
  · exact covered.phases rfl rfl fun w member => ⟨w, List.mem_append_left _ member, rfl⟩

theorem covered_settle (covered : Covered blocks d) (found : d.workers[i]? = some ⟨drain, .executing block⟩)
    (relieved : executeBlock outcome = .requeued → lost = false)
    (running : ((d.set i ⟨drain, .settled⟩).settle block outcome lost).ended = false) :
    Covered blocks ((d.set i ⟨drain, .settled⟩).settle block outcome lost) := by
  simp only [settle] at running ⊢
  split at running
  · split at running
    · simp [ended] at running
    · rename_i completed kept
      rw [if_neg kept]
      refine covered.step found rfl ?_ fun _ => .inl rfl
      rintro b (done | pending | held)
      · exact .inl (List.mem_cons_of_mem _ done)
      · exact .inr (.inl pending)
      · cases held
        exact .inl (List.mem_cons_self ..)
  · rename_i requeued
    refine covered.step found rfl ?_ fun _ => .inl rfl
    simp only [relieved requeued, Bool.false_eq_true, if_false]
    rintro b (done | pending | held)
    · exact .inl done
    · exact .inr (.inl (List.mem_cons_of_mem _ pending))
    · cases held
      exact .inr (.inl (List.mem_cons_self ..))
  · simp [ended] at running

theorem covered_next (covered : Covered blocks d) (relieved : Relieved d e) (stepped : next d e = some d')
    (before : d.ended = false)
    (running : d'.ended = false) : Covered blocks d' := by
  cases next_step stepped with
  | setParallelism => exact covered_setParallelism covered
  | @enter i drain here =>
    refine covered.idle here rfl rfl rfl rfl fun waits => ?_
    cases drain with
    | false => exact .inl (by simp [before, WorkerPhase.stays])
    | true => exact .inr ((relieved ⟨_, here, rfl⟩).resolve_left waits)
  | @lease i block drain here =>
    refine covered.step here rfl (fun b known => ?_) fun _ => .inl rfl
    rcases known with done | pending | held
    · exact .inl done
    · by_cases same : b = block
      · exact .inr (.inr (congrArg some same.symm))
      · exact .inr (.inl ((List.mem_erase_of_ne same).mpr pending))
    · cases held
  | leaseNone here none => exact covered.idle here rfl rfl rfl rfl fun waits => absurd none waits
  | leaseFails =>
    simp [ended] at running before
    simp [before] at running
  | count here => exact covered.step here rfl (fun _ known => known) fun _ => .inl rfl
  | settle here => exact covered_settle covered here relieved running
  | discount here | wake here => exact covered.idle here rfl rfl rfl rfl fun _ => .inl rfl
  | check here => exact covered.idle here rfl rfl rfl rfl fun waits => .inr (covered.others here rfl waits)
  | leave here =>
    refine ⟨fun b known => ?_, fun waits => covered.others here rfl waits⟩
    refine (covered.kept b known).imp_right (.imp_right fun ⟨w, member, holds⟩ => ?_)
    obtain ⟨j, place⟩ := List.mem_iff_getElem?.mp member
    refine ⟨w, List.mem_eraseIdx_iff_getElem?.mpr ⟨j, ?_, place⟩, holds⟩
    rintro rfl
    cases here.symm.trans place
    cases holds
  | fail | cancel => simp [ended] at running

theorem ended_next (stepped : next d e = some d') (running : d'.ended = false) : d.ended = false := by
  cases next_step stepped with
  | setParallelism =>
    simp only [setParallelism] at running
    split at running
    · exact running
    split at running <;> exact running
  | enter | lease | leaseNone | count | discount | check | wake | leave => exact running
  | leaseFails =>
    simp only [ended, Bool.or_eq_false_iff] at running ⊢
    exact ⟨⟨running.1.1.1, running.1.2⟩, running.2⟩
  | settle =>
    simp only [settle] at running
    split at running
    · split at running
      · cases running
      · exact running
    · simp only [ended, Bool.or_eq_false_iff] at running ⊢
      exact ⟨⟨running.1.1, running.1.2.1⟩, running.2⟩
    · cases running
  | fail => cases running
  | cancel => simp [ended] at running

theorem covered_start : Covered blocks (start blocks conns) where
  kept _ known := .inr (.inl known)
  tended _ := by
    refine ⟨⟨false, .top⟩, List.mem_replicate.mpr ⟨?_, rfl⟩, rfl⟩
    split <;> omega

/-- A run that ends on its own, without an error, the fallback or a cancellation, has no block left. -/
theorem nil_run_completes (ran : run next (start blocks conns) es = some d)
    (relieved : Meets next Relieved (start blocks conns) es)
    (left : d.workers = []) (running : d.ended = false) : d.pending = [] ∧ ∀ b ∈ blocks, b ∈ d.done := by
  have held : d.ended = false → Covered blocks d :=
    invariant_meeting (I := fun d => d.ended = false → Covered blocks d)
      (fun held relieved stepped running =>
        have before := ended_next stepped running
        covered_next (held before) relieved stepped before running)
      (fun _ => covered_start) ran relieved
  have covered := held running
  have idle : ∀ w, w ∉ d.workers := by simp [left]
  have none : d.pending = [] := by
    by_contra waits
    obtain ⟨w, member, -⟩ := covered.tended waits
    exact idle w member
  refine ⟨none, fun b known => ?_⟩
  rcases covered.kept b known with done | pending | ⟨w, member, -⟩
  · exact done
  · exact absurd pending (none ▸ List.not_mem_nil)
  · exact absurd member (idle w)

def relief : List Event :=
  [.enter 0, .lease 0 1, .count 0, .enter 1, .lease 1 2, .count 1, .setParallelism 1 [0, 1],
    .settle 0 .streamFailed false, .discount 0,
    .enter 0, .leave 0, .settle 0 .streamed false, .discount 0, .enter 0, .lease 0 1, .count 0, .settle 0 .streamed false,
      .discount 0,
    .enter 0, .leaseNone 0, .check 0, .leave 0]

/-- A drained worker makes way for one that is still at work, which finishes the block. -/
theorem nil_run_completes_drained :
    ∃ d, run next (start [1, 2] 2) relief = some d ∧ d.pending = [] ∧ ∀ b ∈ [1, 2], b ∈ d.done := by
  have ran : ∃ d, run next (start [1, 2] 2) relief = some d ∧ d.workers = [] ∧ d.ended = false := ⟨_, rfl, rfl, rfl⟩
  obtain ⟨d, ran, left, running⟩ := ran
  exact ⟨d, ran, nil_run_completes ran (by decide) left running⟩

/-- The drained worker of a block that is not counted yet is the last to leave, and a failed requeue goes unnoticed. -/
theorem nil_run_leaves_block :
    (∃ d, run next (start [1] 2)
        [.enter 0, .lease 0 1, .setParallelism 1 [0, 1], .enter 1, .leaseNone 1, .check 1, .leave 1, .count 0,
          .settle 0 .streamFailed false, .discount 0, .enter 0, .leave 0] = some d ∧
      d.workers = [] ∧ d.ended = false ∧ d.pending = [1] ∧ d.done = []) ∧
    ∃ d, run next (start [1] 1)
        [.enter 0, .lease 0 1, .count 0, .settle 0 .streamFailed true, .discount 0, .enter 0, .leaseNone 0, .check 0,
            .leave 0] = some d ∧
      d.workers = [] ∧ d.ended = false ∧ d.done = [] :=
  ⟨⟨_, rfl, rfl, rfl, rfl, rfl⟩, _, rfl, rfl, rfl, rfl⟩

end

end Workers
end Hfdl
