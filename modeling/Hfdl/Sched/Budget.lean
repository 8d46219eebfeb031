import Hfdl.Sched.Runs

/-! What the retry counter of a block counts. Every hand-back of a block raises the counter, whatever the reason, and
the leaser gives the file up at the bound. Next to the counter of the row, the failed attempts of a block in the current
pass over its file are counted apart from what else it has been charged since its cut: its other hand-backs, and the
failed attempts of earlier passes that a re-chunking left it with. -/
namespace Hfdl
open Relational Transition

/-- A failure to open a block body that hands the block back. -/
inductive OpenFailure where
  | allRangeless
  | rangeless
  | noHealthy
  | attempt
deriving DecidableEq

/-- How an attempt fails, with the flags that the handlers look at. -/
inductive Failure where
  | opening (runEnded : Bool) (err : OpenFailure)
  | streaming (drain stalled runEnded unwritten : Bool)
deriving DecidableEq

/-- Why a block is handed back. -/
inductive Reason where
  | runEnded
  | fallback
  | noHealthy
  | drain
  | unwritten
  | failed
deriving DecidableEq

/-- The handlers test for the end of the run before the error of an open, and for a drain before a stall. A write that
fails here is handled as a transport failure; it is none of the attempt on the block's body. -/
def Failure.reason : Failure → Reason
  | .opening true _ => .runEnded
  | .opening false .allRangeless => .fallback
  | .opening false .noHealthy => .noHealthy
  | .opening false .rangeless | .opening false .attempt => .failed
  | .streaming true _ _ _ => .drain
  | .streaming false true _ _ => .failed
  | .streaming false false true _ => .runEnded
  | .streaming false false false true => .unwritten
  | .streaming false false false false => .failed

def Failure.outcome : Failure → Outcome
  | .opening true _ => .openFailed .runEnded
  | .opening false .allRangeless => .openFailed .allRangeless
  | .opening false .noHealthy | .opening false .rangeless | .opening false .attempt => .openFailed .attempt
  | .streaming true _ _ _ => .drained
  | .streaming false _ _ _ => .streamFailed

theorem Failure.requeued (failure : Failure) : executeBlock failure.outcome = .requeued := by
  rcases failure with ⟨_ | _, _ | _ | _ | _⟩ | ⟨_ | _, _, _, _⟩ <;> rfl

def Run.exhausts (r : Run) (s : Store) (block : BlockId) (availableAt : Time) (cause : Option String) (lost : Bool) : Prop :=
  lost = false ∧ ∃ n s', s.requeueBlock block (r.token block) availableAt cause = .ok (n, s') ∧ maxBlockRetries ≤ n

instance : Decidable (Run.exhausts r s block availableAt cause lost) :=
  match result : s.requeueBlock block (r.token block) availableAt cause with
  | .ok (n, s') => decidable_of_iff (lost = false ∧ maxBlockRetries ≤ n) <| by
      simp only [Run.exhausts, result]
      exact ⟨fun both => ⟨both.1, n, s', rfl, both.2⟩, fun ⟨kept, _, _, same, bound⟩ => by cases same; exact ⟨kept, bound⟩⟩
  | .error _ => isFalse fun ⟨_, _, _, same, _⟩ => by cases result.symm.trans same

/-- A block whose counter has reached the bound, with its failed attempts in the pass. -/
structure Exhaustion where
  file : FileId
  block : BlockId
  failures : Nat
deriving DecidableEq

structure Budget where
  runs : Runs
  failures : BlockId → Nat
  others : BlockId → Nat
  exhaustions : List Exhaustion

namespace Budget

/-- A block is handed back through the leaser only. -/
inductive Event where
  | run (e : Runs.Event)
  | requeue (file : FileId) (block : BlockId) (failure : Failure) (availableAt : Time) (cause : Option String) (lost : Bool)
  | failJobs (file : FileId) (block : BlockId) (cause : Option String)

def requeues : Runs.Event → Bool
  | .execute _ _ outcome _ _ _ => executeBlock outcome = .requeued
  | .call (.requeueBlock ..) => true
  | _ => false

/-- The counts of blocks that a re-chunking has replaced start again. -/
def recount (s : Store) (count : BlockId → Nat) : Runs.Event → BlockId → Nat
  | .call (.replacePendingBlocks file tok specs), block =>
    match s.replacePendingBlocks file tok specs with
    | .ok _ => if ∃ b ∈ s.blocks, b.id = block ∧ ¬ (b.fileId = file ∧ b.status = .pending) then count block else 0
    | .error _ => count block
  | _, block => count block

/-- The failed attempts of the current passes: a new pass over a file has none yet. -/
def passFailures (d : Budget) : Runs.Event → BlockId → Nat
  | .start file _ _, block => if ∃ b ∈ d.runs.store.blocks, b.id = block ∧ b.fileId = file then 0 else d.failures block
  | e, block => recount d.runs.store d.failures e block

/-- What else was charged: a new pass adds the failed attempts of the one before. -/
def passOthers (d : Budget) : Runs.Event → BlockId → Nat
  | .start file _ _, block =>
    if ∃ b ∈ d.runs.store.blocks, b.id = block ∧ b.fileId = file then d.failures block + d.others block else d.others block
  | e, block => recount d.runs.store d.others e block

def tally (count : BlockId → Nat) (block : BlockId) (counts : Bool) : BlockId → Nat :=
  if counts then Function.update count block (count block + 1) else count

def next (d : Budget) : Event → Option Budget
  | .run e =>
    if requeues e then none
    else (d.runs.next e).map fun runs =>
      { d with runs, failures := d.passFailures e, others := d.passOthers e }
  | .requeue file block failure availableAt cause lost =>
    match d.runs.active file with
    | some ⟨_, .running r⟩ =>
      (d.runs.next (.execute file block failure.outcome availableAt cause lost)).map fun runs =>
        let failures := tally d.failures block (failure.reason = .failed)
        { runs, failures
          others := tally d.others block (failure.reason ≠ .failed)
          exhaustions :=
            if r.exhausts d.runs.store block availableAt cause lost then ⟨file, block, failures block⟩ :: d.exhaustions
            else d.exhaustions }
    | _ => none
  | .failJobs file block cause =>
    if ∃ x ∈ d.exhaustions, x.file = file ∧ x.block = block then
      some { d with runs := { d.runs with store := d.runs.store.failJobFilesForFile file cause } }
    else none

def initial (owner : String) : Budget := ⟨.initial owner, fun _ => 0, fun _ => 0, []⟩

inductive Step (d : Budget) : Event → Budget → Prop where
  | run (plain : requeues e = false) (stepped : d.runs.next e = some after) : Step d (.run e)
      { d with runs := after, failures := d.passFailures e, others := d.passOthers e }
  | requeue {failure : Failure} (here : d.runs.active file = some ⟨tok, .running r⟩)
      (settled : r.settle d.runs.store block availableAt cause lost .requeued = (after, r')) :
      Step d (.requeue file block failure availableAt cause lost)
        { runs := { d.runs with store := after }.assign file (some ⟨tok, .running r'⟩)
          failures := tally d.failures block (failure.reason = .failed)
          others := tally d.others block (failure.reason ≠ .failed)
          exhaustions := if r.exhausts d.runs.store block availableAt cause lost then
            ⟨file, block, tally d.failures block (failure.reason = .failed) block⟩ :: d.exhaustions else d.exhaustions }
  | failJobs (known : ∃ x ∈ d.exhaustions, x.file = file ∧ x.block = block) : Step d (.failJobs file block cause)
      { d with runs := { d.runs with store := d.runs.store.failJobFilesForFile file cause } }

theorem next_step {d d' : Budget} (stepped : next d e = some d') : Step d e d' := by
  cases e with
  | run e =>
    simp only [next] at stepped
    split at stepped
    · cases stepped
    rename_i plain
    obtain ⟨after, ran, rfl⟩ := Option.map_eq_some_iff.mp stepped
    exact .run (by simpa using plain) ran
  | requeue file block failure availableAt cause lost =>
    simp only [next] at stepped
    split at stepped
    · rename_i tok r here
      obtain ⟨runs, executed, rfl⟩ := Option.map_eq_some_iff.mp stepped
      simp only [Runs.next, here, failure.requeued] at executed
      split at executed <;> cases executed
      exact .requeue here rfl
    · cases stepped
  | failJobs =>
    simp only [next] at stepped
    split at stepped <;> cases stepped
    exact .failJobs ‹_›

end Budget

/-- Only a hand-back raises the counter of a block, and only a re-chunking adds blocks. -/
theorem Operation.exec_retries {s s' : Store} {op : Operation} (done : op.exec s = .ok s')
    (others : ∀ block tok availableAt cause, op ≠ .requeueBlock block tok availableAt cause)
    (kept : ∀ file tok specs, op ≠ .replacePendingBlocks file tok specs) (stored' : b' ∈ s'.blocks) :
    ∃ b ∈ s.blocks, b.id = b'.id ∧ b.retries = b'.retries := by
  rcases (Operation.exec_evolution done).blocks.origin b' stored' with ⟨b, stored, changed⟩ | ⟨file, tok, specs, rfl, -⟩
  · cases changed with
    | requeued => exact (others _ _ _ _ rfl).elim
    | kept | leased | claimed | completed | reset | renewed | swept => exact ⟨_, stored, rfl, rfl⟩
  · exact (kept file tok specs rfl).elim

namespace Runs
variable {d d' : Runs}

theorem Step.writes (step : Step d e d') (plain : Budget.requeues e = false) :
    d'.store = d.store ∨ ∃ op : Operation, op.exec d.store = .ok d'.store ∧
      (∀ block tok availableAt cause, op ≠ .requeueBlock block tok availableAt cause) ∧
        ((∀ file tok specs, op ≠ .replacePendingBlocks file tok specs) ∨ e = .call op) := by
  have moves : ∀ {file tok target cause now failed}, move d.store file tok target cause now failed = d.store ∨
      (Operation.transitionFile file tok .downloading target cause now).exec d.store =
        .ok (move d.store file tok target cause now failed) := by
    intro file tok target cause now failed
    simp only [move]
    split
    · exact .inl rfl
    · exact Operation.commit_cases ..
  cases step with
  | @call op free =>
    refine (Operation.commit_cases d.store op).imp_right fun done => ⟨op, done, ?_, .inr rfl⟩
    rintro _ _ _ _ rfl
    cases plain
  | start idle leased => exact .inr ⟨.leaseFileForDownload .., leased, by simp, .inl (by simp)⟩
  | withdraw here moved => exact .inr ⟨.transitionFile .., moved, by simp, .inl (by simp)⟩
  | @lease _ _ _ block _ new now _ after here found claimed =>
    have done : (Operation.claimBlock block new now).exec d.store = .ok after := by
      simp only [Operation.exec, claimed, Option.elim]
    exact .inr ⟨_, done, by simp, .inl (by simp)⟩
  | @execute file tok r block availableAt cause failed outcome after r' here settled =>
    simp only [Budget.requeues, decide_eq_false_iff_not] at plain
    generalize executeBlock outcome = exit at settled plain
    cases exit with
    | requeued => exact absurd rfl plain
    | dropped =>
      cases settled
      exact .inl rfl
    | completed =>
      simp only [Run.settle] at settled
      split at settled
      · cases settled
        exact .inl rfl
      split at settled <;> cases settled
      · exact .inl rfl
      · rename_i completed
        have done : (Operation.completeBlock block (r.token block)).exec d.store = .ok after := Operation.map_snd_ok completed
        exact .inr ⟨_, done, by simp, .inl (by simp)⟩
  | giveUp => exact moves.imp_right fun done => ⟨.transitionFile .., done, by simp, .inl (by simp)⟩
  | @conclude _ _ r =>
    simp only [assign]
    cases RunError.target r.err with
    | none => exact .inl rfl
    | some target => exact moves.imp_right fun done => ⟨.transitionFile .., done, by simp, .inl (by simp)⟩
  | undiverted | unmoved | leave | launch | fail | crash => exact .inl rfl

theorem active_assign (here : (d.assign file a).active file' = some a') :
    file' = file ∧ a = some a' ∨ d.active file' = some a' := by
  exact (update_eq_some.mp here).imp_right And.right

theorem Step.exhausted (step : Step d e d') (plain : Budget.requeues e = false)
    (here' : d'.active file = some ⟨tok', .running r'⟩) (member : block ∈ r'.exhausted) :
    ∃ tok r, d.active file = some ⟨tok, .running r⟩ ∧ block ∈ r.exhausted := by
  cases step with
  | call | undiverted => exact ⟨_, _, here', member⟩
  | start | withdraw | unmoved | leave | conclude =>
    rcases active_assign here' with ⟨-, same⟩ | before
    · cases same
    · exact ⟨_, _, before, member⟩
  | launch =>
    rcases active_assign here' with ⟨-, same⟩ | before
    · cases same
      cases member
    · exact ⟨_, _, before, member⟩
  | lease here | fail here =>
    rcases active_assign here' with ⟨rfl, same⟩ | before
    · cases same
      exact ⟨_, _, here, member⟩
    · exact ⟨_, _, before, member⟩
  | giveUp here =>
    rcases active_assign here' with ⟨rfl, same⟩ | before
    · cases same
      exact ⟨_, _, here, List.mem_of_mem_erase member⟩
    · exact ⟨_, _, before, member⟩
  | @execute _ _ r block' _ _ _ outcome _ _ here settled =>
    rcases active_assign here' with ⟨rfl, same⟩ | before
    · cases same
      refine ⟨_, _, here, ?_⟩
      simp only [Budget.requeues, decide_eq_false_iff_not] at plain
      generalize executeBlock outcome = exit at settled plain
      cases exit with
      | requeued => exact absurd rfl plain
      | dropped =>
        cases settled
        exact member
      | completed =>
        simp only [Run.settle] at settled
        split at settled
        · cases settled
          exact member
        split at settled <;> cases settled <;> exact member
    · exact ⟨_, _, before, member⟩
  | crash => cases here'

end Runs

namespace Budget
variable {d d' : Budget} {failure : Failure}

structure Inv (d : Budget) : Prop where
  counted : ∀ b ∈ d.runs.store.blocks, b.retries ≤ d.failures b.id + d.others b.id
  recorded : ∀ file tok r, d.runs.active file = some ⟨tok, .running r⟩ → ∀ block ∈ r.exhausted,
    ∃ x ∈ d.exhaustions, x.file = file ∧ x.block = block
  charged : ∀ x ∈ d.exhaustions, maxBlockRetries ≤ x.failures

theorem recount_of_kept (kept : ∀ file tok specs, e ≠ .call (.replacePendingBlocks file tok specs)) :
    recount s count e block = count block := by
  unfold recount
  split
  · exact (kept _ _ _ rfl).elim
  · rfl

theorem pass_add : d.passFailures e block + d.passOthers e block =
    recount d.runs.store d.failures e block + recount d.runs.store d.others e block := by
  unfold passFailures passOthers
  split
  · simp only [recount]
    split
    · exact Nat.zero_add _
    · rfl
  · rfl

/-- Blocks that a re-chunking keeps keep their counts, and the new ones have not been handed back yet. -/
theorem Inv.counted_run (inv : Inv d) (plain : requeues e = false) (step : Runs.Step d.runs e after) :
    ∀ b ∈ after.store.blocks, b.retries ≤ d.passFailures e b.id + d.passOthers e b.id := by
  intro b stored
  rw [pass_add]
  by_cases recut : ∃ file tok specs, e = .call (.replacePendingBlocks file tok specs)
  · obtain ⟨file, tok, specs, rfl⟩ := recut
    cases step with
    | call free =>
      simp only [recount]
      cases result : d.runs.store.replacePendingBlocks file tok specs with
      | error =>
        simp only [Operation.commit, Operation.exec, result] at stored
        exact inv.counted b stored
      | ok s' =>
        simp only [Operation.commit, Operation.exec, result] at stored
        obtain ⟨-, blocks, cut, rfl⟩ := Store.replacePendingBlocks_ok result
        rcases cut.only b stored with kept | ⟨spec, -, id, -, rfl⟩
        · obtain ⟨before, survives⟩ := Table.mem_delete.mp kept
          have row : ∃ old ∈ d.runs.store.blocks, old.id = b.id ∧ ¬ (old.fileId = file ∧ old.status = .pending) :=
            ⟨b, before, rfl, survives⟩
          simp only [if_pos row]
          exact inv.counted b before
        · exact Nat.zero_le _
  · have kept : ∀ file tok specs, e ≠ .call (.replacePendingBlocks file tok specs) := fun file tok specs same =>
      recut ⟨file, tok, specs, same⟩
    rw [recount_of_kept kept, recount_of_kept kept]
    rcases step.writes plain with same | ⟨op, done, others, call⟩
    · exact inv.counted b (same ▸ stored)
    · have cuts : ∀ file tok specs, op ≠ .replacePendingBlocks file tok specs := by
        rintro file tok specs rfl
        exact call.elim (fun never => never file tok specs rfl) (kept file tok specs)
      obtain ⟨old, before, id, retries⟩ := Operation.exec_retries done others cuts stored
      have := inv.counted old before
      rwa [id, retries] at this

theorem tally_add (failure : Failure) :
    tally d.failures block (failure.reason = .failed) b + tally d.others block (failure.reason ≠ .failed) b =
      d.failures b + d.others b + if b = block then 1 else 0 := by
  unfold tally
  by_cases failed : failure.reason = .failed <;> by_cases same : b = block
  · subst same
    simp [failed]
    omega
  · simp [failed, same]
  · subst same
    simp [failed]
    omega
  · simp [failed, same]

/-- A block is handed back without a failed attempt only while its counter is below the last retry, and a block that was
charged for anything but a failed attempt of the current pass is not handed back before it is cut anew. -/
def Sparing (d : Budget) : Event → Prop
  | .requeue _ block failure _ _ _ => d.others block = 0 ∧
      (failure.reason ≠ .failed → ∀ b ∈ d.runs.store.blocks, b.id = block → b.retries + 1 < maxBlockRetries)
  | _ => True

instance (d : Budget) : DecidablePred d.Sparing := fun e => by
  unfold Sparing
  split <;> infer_instance

theorem Inv.exhausts (inv : Inv d) (unspent : d.others block = 0)
    (spared : failure.reason ≠ .failed → ∀ b ∈ d.runs.store.blocks, b.id = block → b.retries + 1 < maxBlockRetries)
    (bound : Run.exhausts r d.runs.store block availableAt cause lost) :
    maxBlockRetries ≤ tally d.failures block (failure.reason = .failed) block := by
  obtain ⟨-, n, s', done, reached⟩ := bound
  obtain ⟨⟨b, stored, held, rfl⟩, -⟩ := Store.requeueBlock_ok done
  have counted := inv.counted b stored
  rw [held.1, unspent] at counted
  have failed : failure.reason = .failed := by
    by_contra other
    have := spared other b stored held.1
    omega
  simp only [tally, failed, decide_true, if_true, Function.update_self]
  omega

theorem Inv.counted_requeue (inv : Inv d)
    (settled : Run.settle r d.runs.store block availableAt cause lost .requeued = (after, r')) :
    ∀ b ∈ after.blocks, b.retries ≤ tally d.failures block (failure.reason = .failed) b.id +
      tally d.others block (failure.reason ≠ .failed) b.id := by
  intro b stored
  rw [tally_add]
  have old : b ∈ d.runs.store.blocks → b.retries ≤ d.failures b.id + d.others b.id + if b.id = block then 1 else 0 :=
    fun before => Nat.le_trans (inv.counted b before) (Nat.le_add_right ..)
  simp only [Run.settle] at settled
  split at settled
  · cases settled
    exact old stored
  split at settled <;> cases settled
  · exact old stored
  · rename_i done
    rcases (Store.requeueBlock_ok done).2 b stored with before | ⟨b₀, before, held, id, retries⟩
    · exact old before
    · have := inv.counted b₀ before
      rw [held.1] at this
      rw [if_pos id, retries, id]
      omega

theorem exhausted_requeue {s : Store} (settled : Run.settle r s block availableAt cause lost .requeued = (after, r'))
    (member : block' ∈ r'.exhausted) : block' ∈ r.exhausted ∨ block' = block ∧ r.exhausts s block availableAt cause lost := by
  simp only [Run.settle] at settled
  split at settled
  · cases settled
    exact .inl member
  rename_i kept
  split at settled <;> cases settled
  · exact .inl member
  · rename_i done
    split at member
    · exact .inl member
    · rename_i reached
      rcases List.mem_cons.mp member with rfl | before
      · exact .inr ⟨rfl, by simpa using kept, _, _, done, by omega⟩
      · exact .inl before

theorem inv_next (inv : Inv d) (sparing : d.Sparing e) (stepped : next d e = some d') : Inv d' := by
  cases next_step stepped with
  | run plain ran =>
    have step := Runs.next_step ran
    refine ⟨inv.counted_run plain step, fun file tok r here block member => ?_, inv.charged⟩
    obtain ⟨_, _, before, old⟩ := step.exhausted plain here member
    exact inv.recorded file _ _ before block old
  | @requeue file tok r block availableAt cause lost after r' failure here settled =>
    refine ⟨inv.counted_requeue settled, fun file' tok' r₁ here' block' member => ?_, ?_⟩
    · have known : block' ∈ r₁.exhausted → (∃ x ∈ d.exhaustions, x.file = file' ∧ x.block = block') ∨
          file' = file ∧ block' = block ∧ r.exhausts d.runs.store block availableAt cause lost := by
        intro member
        rcases Runs.active_assign here' with ⟨rfl, same⟩ | before
        · cases same
          rcases exhausted_requeue settled member with old | ⟨rfl, bound⟩
          · exact .inl (inv.recorded _ _ _ here _ old)
          · exact .inr ⟨rfl, rfl, bound⟩
        · exact .inl (inv.recorded _ _ _ before _ member)
      rcases known member with ⟨x, old, same⟩ | ⟨rfl, rfl, bound⟩
      · refine ⟨x, ?_, same⟩
        split
        · exact List.mem_cons_of_mem _ old
        · exact old
      · rw [if_pos bound]
        exact ⟨_, List.mem_cons_self, rfl, rfl⟩
    · intro x member
      split at member
      · rename_i bound
        rcases List.mem_cons.mp member with rfl | old
        · exact inv.exhausts sparing.1 sparing.2 bound
        · exact inv.charged x old
      · exact inv.charged x member
  | failJobs => exact ⟨inv.counted, inv.recorded, inv.charged⟩

theorem inv_initial : Inv (initial owner) where
  counted := fun _ stored => (Table.not_mem_empty _ stored).elim
  recorded := nofun
  charged := nofun

/-- In a sparing run the leaser gives a file up, and fails its jobs, only for a block with as many failed attempts in the
current pass as its budget has retries. -/
theorem given_up_after_failures (ran : run next (initial owner) events = some d)
    (sparing : Meets next Sparing (initial owner) events) :
    (∀ x ∈ d.exhaustions, maxBlockRetries ≤ x.failures) ∧
    (∀ file block cause now lost d', next d (.run (.giveUp file block cause now lost)) = some d' →
      ∃ x ∈ d.exhaustions, x.file = file ∧ x.block = block) ∧
    ∀ file block cause d', next d (.failJobs file block cause) = some d' → ∃ x ∈ d.exhaustions, x.file = file ∧
      x.block = block := by
  have inv : Inv d := invariant_meeting inv_next inv_initial ran sparing
  refine ⟨inv.charged, fun file block cause now lost d' stepped => ?_, fun file block cause d' stepped => ?_⟩
  · cases next_step stepped with
    | run plain gaveUp =>
      simp only [Runs.next] at gaveUp
      split at gaveUp
      · rename_i here
        split at gaveUp
        · exact inv.recorded _ _ _ here _ ‹_›
        · cases gaveUp
      · cases gaveUp
  · cases next_step stepped with
    | failJobs known => exact known

/-- A block fails seven times, then the process is shut down while the block is tried again. -/
def shutDown : List Event :=
  Runs.launched.map .run ++ (List.range 7).flatMap (fun n =>
      [.run (.lease 1 1 "block" n), .requeue 1 1 (.streaming false false false false) n none false]) ++
    [.run (.lease 1 1 "block" 7), .requeue 1 1 (.opening true .attempt) 7 none false, .run (.giveUp 1 1 none 7 false),
      .failJobs 1 1 none]

/-- The shutdown is charged as the eighth failure: the file and its job are given up. -/
theorem shutdown_gives_up : ∃ d, run next (initial "process") shutDown = some d ∧
    (∀ f ∈ d.runs.store.files, f.status = .error) ∧ (∀ j ∈ d.runs.store.jobs, j.status = .error) ∧
      d.exhaustions = [⟨1, 1, 7⟩] :=
  ⟨_, rfl, by decide, by decide, rfl⟩

/-- A drained stream, a second pass after the restart, and eight failures in it. -/
def chargedPass : List Event :=
  Runs.launched.map .run ++ [.run (.lease 1 1 "block" 0), .requeue 1 1 (.streaming true false false false) 0 none false,
      .run (.fail 1 .cancelled), .run (.conclude 1 none 0 false), .run (.start 1 "again" 1),
      .run (.call (.replacePendingBlocks 1 "again" [⟨0, 0, 4⟩])), .run (.launch 1)] ++
    (List.range maxBlockRetries).flatMap (fun n =>
      [.run (.lease 1 1 "block" n), .requeue 1 1 (.streaming false true false false) n none false])

def charged : Budget := (run next (initial "process") chargedPass).getD (initial "process")

theorem given_up_after_failures_pass :
    charged.exhaustions = [⟨1, 1, 8⟩] ∧ ∀ x ∈ charged.exhaustions, maxBlockRetries ≤ x.failures := by
  have ran : run next (initial "process") chargedPass = some charged := rfl
  have sparing : Meets next Sparing (initial "process") chargedPass := by decide
  exact ⟨rfl, (given_up_after_failures ran sparing).1⟩

end Budget
end Hfdl
