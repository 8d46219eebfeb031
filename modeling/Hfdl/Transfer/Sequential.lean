import Hfdl.Tally
import Hfdl.Transfer.CommitGate
import Hfdl.Transfer.Writing
import Mathlib.Data.Nat.Find

/-! A sequential download run. Blocks are leased in offset order, but a flush waits in
`seqWait` until the watermark reaches its offset; the watermark starts at the first
leased block and follows the committed flushes. -/
namespace Hfdl.Transfer
open Transition

/-- The blocks of a run in offset order, cut from the ranges missing at its start. -/
structure Schedule extends Layout where
  nonempty : ∀ b ∈ blocks, 0 < b.length
  sorted : blocks.Pairwise fun a b => a.stop ≤ b.offset

/-- A requeued block stays hidden from the leaser while its backoff runs. -/
inductive BlockState where
  | pending (delayed : Bool)
  | active
  | done
deriving DecidableEq, Repr

def BlockState.IsPending : BlockState → Prop
  | .pending _ => True
  | _ => False

instance : DecidablePred BlockState.IsPending
  | .pending _ => isTrue trivial
  | .active => isFalse id
  | .done => isFalse id

/-- Where a worker stands: at the top of its loop, after a `Lease` that found nothing, with a leased
block, or between `executeBlock` and the decrement of `inflight`. A worker that is flushing has the
rest of its flushes before it and knows whether they complete the block; `recording` and
`advancing` are the two steps of `committed`. -/
inductive Worker where
  | looping
  | dry
  | leased (i : Nat)
  | opening (i : Nat)
  | flushing (i : Nat) (flushes : List Flush) (complete : Bool)
  | recording (i : Nat) (f : Flush) (flushes : List Flush) (complete : Bool)
  | advancing (i : Nat) (f : Flush) (flushes : List Flush) (complete : Bool)
  | leaving
  | exited
deriving DecidableEq, Repr

namespace Worker

def holds : Worker → Option Nat
  | .leased i | .opening i | .flushing i _ _ | .recording i _ _ _ | .advancing i _ _ _ => some i
  | .looping | .dry | .leaving | .exited => none

def gate : Worker → Option Int
  | .flushing _ (f :: _) _ => some f.off
  | _ => none

/-- The worker is on its way to another `Lease`. -/
def Returning (worker : Worker) : Prop := worker = .looping ∨ worker = .leaving
deriving Decidable

/-- The moves in which no lease changes hands and no block is recorded. -/
inductive GoesOn : Worker → Worker → Prop where
  | enter : GoesOn (.leased i) (.opening i)
  | fetch : GoesOn (.opening i) (.flushing i flushes complete)
  | wrote : GoesOn (.flushing i (f :: rest) complete) (.recording i f rest complete)
  | failed : GoesOn (.flushing i (f :: rest) complete) (.flushing i [] false)
  | leave : GoesOn .leaving .looping

namespace GoesOn
variable {a b : Worker}

theorem holds (goes : GoesOn b a) : a.holds = b.holds := by cases goes <;> rfl

theorem working (goes : GoesOn b a) : b ≠ .exited := by cases goes <;> simp

theorem resumes (goes : GoesOn b a) : ¬ (a = .dry ∨ a = .exited) := by cases goes <;> simp

theorem returning (goes : GoesOn b a) (returns : b.Returning) : a.Returning := by
  cases goes with
  | leave => exact .inl rfl
  | enter | fetch | wrote | failed => simp [Returning] at returns

theorem calm (goes : GoesOn b a) (i : Nat) (f : Flush) (rest : List Flush) (c : Bool) : b ≠ .advancing i f rest c := by
  cases goes <;> simp

end GoesOn

end Worker

structure Sequential extends SeqGate where
  live : Bool
  blocks : Nat → BlockState
  workers : Nat → Worker
  inflight : Int
  set : IntervalSet

namespace Sequential

inductive Event where
  | lease (w i : Nat)
  | runDry (w : Nat)
  | poll (w : Nat)
  | enter (w : Nat)
  | openFailed (w : Nat)
  /-- The body serves `m` bytes of the requested range. -/
  | stream (w m : Nat) (fin : BodyEnd) (script : List (Nat × Bool))
  | write (w : Nat) (ok : Bool)
  | record (w : Nat)
  | advance (w : Nat)
  | complete (w : Nat)
  /-- A failed `Requeue` call is only logged; the block keeps its lease. -/
  | requeue (w : Nat) (delayed delivered : Bool)
  | leave (w : Nat)
  | elapse (i : Nat)
  | cancel
deriving DecidableEq, Repr

def assign (s : Sequential) (w : Nat) (worker : Worker) : Sequential :=
  { s with workers := Function.update s.workers w worker }

def mark (s : Sequential) (i : Nat) (state : BlockState) : Sequential :=
  { s with blocks := Function.update s.blocks i state }

@[simp] theorem assign_same {s : Sequential} : (s.assign w a).workers w = a := Function.update_self ..
theorem assign_other {s : Sequential} (other : v ≠ w) : (s.assign w a).workers v = s.workers v := Function.update_of_ne other ..
@[simp] theorem mark_same {s : Sequential} : (s.mark i state).blocks i = state := Function.update_self ..
theorem mark_other {s : Sequential} (other : j ≠ i) : (s.mark i state).blocks j = s.blocks j := Function.update_of_ne other ..

/-- The flushes of an attempt and whether they complete the block, `none` while its body is read.
The committed prefix of a block that is attempted again is discarded from the body. A body that runs on past
the largest offset is left out. -/
def attempt (l : Layout) (set : IntervalSet) (b : Block) (m : Nat) (fin : BodyEnd) (script : List (Nat × Bool)) :
    Option (List Flush × Bool) :=
  let skip := set.prefixCovered b.offset b.stop
  if 0 < skip ∧ b.length ≤ skip then some ([], true)
  else if (m : Int) < skip then some ([], false)
  else if maxInt64 < b.offset + m then none
  else
    let body := (trueBytes l.truth b.offset m).drop skip.toNat
    let streamed := streamBlock l.slab b (b.offset + skip) body fin script
    if streamed.outcome = .waiting then none else some (streamed.flushes, streamed.outcome = .complete)

/-- The leaser hands out the first pending block whose backoff has passed; it waits while every
pending block is delayed and reports that it is dry only when none is pending. -/
def next (l : Schedule) (s : Sequential) (e : Event) : Option Sequential :=
  if s.live = false then none
  else match e with
  | .lease w i =>
    match l.blocks[i]? with
    | none => none
    | some b =>
      if s.workers w = .looping ∧ s.blocks i = .pending false ∧ ∀ j < i, s.blocks j ≠ .pending false then
        some ({ s.mark i .active with toSeqGate := s.seqBaseline b.offset }.assign w (.leased i))
      else none
  | .runDry w =>
    if s.workers w = .looping ∧ ∀ i < l.blocks.length, ¬ (s.blocks i).IsPending then some (s.assign w .dry) else none
  | .poll w =>
    if s.workers w = .dry then some (s.assign w (if s.inflight = 0 then .exited else .looping)) else none
  | .enter w =>
    match s.workers w with
    | .leased i => some ({ s with inflight := s.inflight + 1 }.assign w (.opening i))
    | _ => none
  | .openFailed w =>
    match s.workers w with
    | .opening i => some (s.assign w (.flushing i [] false))
    | _ => none
  | .stream w m fin script =>
    match s.workers w with
    | .opening i =>
      match l.blocks[i]? with
      | none => none
      | some b => (attempt l.toLayout s.set b m fin script).map fun (flushes, complete) =>
          s.assign w (.flushing i flushes complete)
    | _ => none
  | .write w ok =>
    match s.workers w with
    | .flushing i (f :: rest) complete =>
      if f.off ≤ s.seqCommit then
        some (s.assign w (if ok then .recording i f rest complete else .flushing i [] false))
      else none
    | _ => none
  | .record w =>
    match s.workers w with
    | .recording i f rest complete =>
      some ({ s with set := s.set.add f.off f.stop }.assign w (.advancing i f rest complete))
    | _ => none
  | .advance w =>
    match s.workers w with
    | .advancing i f rest complete => some ({ s with toSeqGate := s.seqAdvance f.stop }.assign w (.flushing i rest complete))
    | _ => none
  | .complete w =>
    match s.workers w with
    | .flushing i [] true => some ((s.mark i .done).assign w .leaving)
    | _ => none
  | .requeue w delayed delivered =>
    match s.workers w with
    | .flushing i [] false => some ((if delivered then s.mark i (.pending delayed) else s).assign w .leaving)
    | _ => none
  | .leave w =>
    if s.workers w = .leaving then some ({ s with inflight := s.inflight - 1 }.assign w .looping) else none
  | .elapse i => if s.blocks i = .pending true then some (s.mark i (.pending false)) else none
  | .cancel => some { s with live := false }

inductive Step (l : Schedule) (s : Sequential) : Event → Sequential → Prop where
  | lease (found : l.blocks[i]? = some b) (free : s.workers w = .looping) (ready : s.blocks i = .pending false) :
      Step l s (.lease w i) ({ s.mark i .active with toSeqGate := s.seqBaseline b.offset }.assign w (.leased i))
  | runDry (free : s.workers w = .looping) (nothing : ∀ i < l.blocks.length, ¬ (s.blocks i).IsPending) :
      Step l s (.runDry w) (s.assign w .dry)
  | poll (dry : s.workers w = .dry) : Step l s (.poll w) (s.assign w (if s.inflight = 0 then .exited else .looping))
  | enter (held : s.workers w = .leased i) :
      Step l s (.enter w) ({ s with inflight := s.inflight + 1 }.assign w (.opening i))
  | openFailed (held : s.workers w = .opening i) : Step l s (.openFailed w) (s.assign w (.flushing i [] false))
  | stream (held : s.workers w = .opening i) (found : l.blocks[i]? = some b)
      (attempted : attempt l.toLayout s.set b m fin script = some (flushes, complete)) :
      Step l s (.stream w m fin script) (s.assign w (.flushing i flushes complete))
  | wrote (held : s.workers w = .flushing i (f :: rest) complete) (passes : f.off ≤ s.seqCommit) :
      Step l s (.write w true) (s.assign w (.recording i f rest complete))
  | failed (held : s.workers w = .flushing i (f :: rest) complete) (passes : f.off ≤ s.seqCommit) :
      Step l s (.write w false) (s.assign w (.flushing i [] false))
  | record (held : s.workers w = .recording i f rest complete) :
      Step l s (.record w) ({ s with set := s.set.add f.off f.stop }.assign w (.advancing i f rest complete))
  | advance (held : s.workers w = .advancing i f rest complete) :
      Step l s (.advance w) ({ s with toSeqGate := s.seqAdvance f.stop }.assign w (.flushing i rest complete))
  | complete (held : s.workers w = .flushing i [] true) : Step l s (.complete w) ((s.mark i .done).assign w .leaving)
  | requeue (held : s.workers w = .flushing i [] false) :
      Step l s (.requeue w delayed true) ((s.mark i (.pending delayed)).assign w .leaving)
  | lost (held : s.workers w = .flushing i [] false) : Step l s (.requeue w delayed false) (s.assign w .leaving)
  | leave (leaves : s.workers w = .leaving) :
      Step l s (.leave w) ({ s with inflight := s.inflight - 1 }.assign w .looping)
  | elapse (waits : s.blocks i = .pending true) : Step l s (.elapse i) (s.mark i (.pending false))
  | cancel : Step l s .cancel { s with live := false }

theorem next_step (stepped : next l s e = some t) : Step l s e t := by
  unfold next at stepped
  repeat' split at stepped
  all_goals first | (cases stepped; exact .cancel) | grind [Step, Option.map_eq_some_iff]

/-- The worker waits in `seqWait`, above the watermark. -/
def Parked (s : Sequential) (w : Nat) : Prop := ∃ off ∈ (s.workers w).gate, s.seqCommit < off

/-- A live run with an unfinished block in which no worker gets on: each one is parked, has found
nothing to lease, or is gone. -/
structure Stuck (l : Schedule) (n : Nat) (s : Sequential) : Prop where
  live : s.live = true
  unfinished : ∃ i < l.blocks.length, s.blocks i ≠ .done
  waiting : ∀ w < n, s.Parked w ∨ s.workers w = .dry ∨ s.workers w = .exited

/-- No complete bytes lie between two blocks. -/
def Contiguous (l : Schedule) : Prop :=
  ∀ i a b, l.blocks[i]? = some a → l.blocks[i + 1]? = some b → b.offset = a.stop

/-- A lease passes over no pending block, so none below it sits out a backoff, and no `Requeue` is lost. -/
def HeadFirst (s : Sequential) : Event → Prop
  | .lease _ i => ∀ j < i, ¬ (s.blocks j).IsPending
  | .requeue _ _ delivered => delivered = true
  | _ => True

instance (s : Sequential) : DecidablePred (HeadFirst s) := fun e => by
  unfold HeadFirst
  split <;> infer_instance

/-- A run of `n` workers before its first lease. The blocks are missing ranges. -/
structure Initial (l : Schedule) (n : Nat) (s : Sequential) : Prop where
  positive : 0 < n
  workers : ∀ w, s.workers w = if w < n then .looping else .exited
  blocks : ∀ i < l.blocks.length, (s.blocks i).IsPending
  outside : ∀ i, s.blocks i ≠ .active
  missing : ∀ b ∈ l.blocks, ∀ x, b.range.Has x → ¬ s.set.Covers x
  unpinned : s.seqStarted = false

/-- Active blocks and the workers that hold them correspond. -/
structure Held (n : Nat) (blocks : Nat → BlockState) (workers : Nat → Worker) : Prop where
  active : ∀ w i, (workers w).holds = some i → blocks i = .active
  unique : ∀ v w i, (workers v).holds = some i → (workers w).holds = some i → v = w
  holder : ∀ i, blocks i = .active → ∃ w < n, (workers w).holds = some i
  outside : ∀ w, n ≤ w → workers w = .exited

/-- Blocks from `high` on have never been leased, and for every block below it that was
requeued some worker is on its way to another lease. -/
structure Counted (count n high : Nat) (blocks : Nat → BlockState) (workers : Nat → Worker) : Prop where
  bound : high ≤ count
  fresh : ∀ i, high ≤ i → i < count → (blocks i).IsPending
  requeued : tally BlockState.IsPending high blocks ≤ tally Worker.Returning n workers
  dry : ∀ w < n, workers w = .dry ∨ workers w = .exited → high = count

/-- What a worker that holds a block may rely on, with the watermark at `commit`: the flushes before
it continue the committed ones, or start the block. -/
def WorkerOk (l : Schedule) (commit : Int) : Worker → Prop
  | .leased i | .opening i => ∃ b, l.blocks[i]? = some b
  | .flushing i flushes complete => ∃ b pos stop, l.blocks[i]? = some b ∧ Consecutive pos flushes stop ∧
      (pos = b.offset ∨ pos ≤ commit) ∧ b.offset ≤ pos ∧ stop ≤ b.stop ∧ (complete = true → stop = b.stop)
  | .recording i f flushes complete | .advancing i f flushes complete => ∃ b stop, l.blocks[i]? = some b ∧
      Consecutive f.stop flushes stop ∧ b.offset ≤ f.off ∧ f.off ≤ f.stop ∧ stop ≤ b.stop ∧ (complete = true → stop = b.stop)
  | _ => True

/-- Once pinned, the watermark lies above everything committed. -/
structure Watermark (l : Schedule) (s : Sequential) : Prop where
  head : s.seqStarted = true → ∀ b, l.blocks[0]? = some b → b.offset ≤ s.seqCommit
  done : ∀ i b, l.blocks[i]? = some b → s.blocks i = .done → b.stop ≤ s.seqCommit
  covered : ∀ i b x, l.blocks[i]? = some b → b.range.Has x → s.set.Covers x →
    (s.seqStarted = true ∧ x < s.seqCommit) ∨
      ∃ w f rest complete, s.workers w = .advancing i f rest complete ∧ f.off ≤ x ∧ x < f.stop
  workers : ∀ w, WorkerOk l s.seqCommit (s.workers w)

structure Inv (l : Schedule) (n high : Nat) (s : Sequential) : Prop where
  held : Held n s.blocks s.workers
  counted : Counted l.blocks.length n high s.blocks s.workers
  started : s.seqStarted = true ↔ 0 < high
  watermark : Watermark l s

section
variable {blocks : Nat → BlockState} {workers : Nat → Worker} {w : Nat}

theorem Held.lt (held : Held n blocks workers) (works : workers w ≠ .exited) : w < n :=
  Nat.lt_of_not_le fun beyond => works (held.outside w beyond)

theorem Held.outside_update (held : Held n blocks workers) (works : workers w ≠ .exited) :
    ∀ v, n ≤ v → Function.update workers w a v = .exited := by
  intro v beyond
  rw [Function.update_of_ne]
  · exact held.outside v beyond
  · rintro rfl
    exact works (held.outside v beyond)

theorem Held.move (held : Held n blocks workers) (works : workers w ≠ .exited) (same : a.holds = (workers w).holds) :
    Held n blocks (Function.update workers w a) := by
  have all : ∀ v, (Function.update workers w a v).holds = (workers v).holds := fun v => by
    by_cases here : v = w
    · subst here
      rw [Function.update_self, same]
    · rw [Function.update_of_ne here]
  refine ⟨fun v i => ?_, fun u v i => ?_, fun i active => ?_, held.outside_update works⟩
  · rw [all]
    exact held.active v i
  · rw [all, all]
    exact held.unique u v i
  · obtain ⟨v, inside, holds⟩ := held.holder i active
    exact ⟨v, inside, (all v).trans holds⟩

theorem Held.lease (held : Held n blocks workers) (free : workers w = .looping) (ready : blocks i = .pending delayed) :
    Held n (Function.update blocks i .active) (Function.update workers w (.leased i)) := by
  have works : workers w ≠ .exited := by simp [free]
  -- nobody holds the block yet, and the worker holds no other
  have unheld : ∀ v, (workers v).holds ≠ some i := fun v holds => by
    have := held.active v i holds
    simp [ready] at this
  refine ⟨fun v j holds => ?_, fun u v j first second => ?_, fun j active => ?_, held.outside_update works⟩
  · by_cases here : v = w
    · subst here
      rw [Function.update_self] at holds
      cases holds
      exact Function.update_self ..
    · rw [Function.update_of_ne here] at holds
      have other : j ≠ i := fun same => unheld v (same ▸ holds)
      rw [Function.update_of_ne other]
      exact held.active v j holds
  · by_cases hu : u = w <;> by_cases hv : v = w
    · exact hu.trans hv.symm
    · subst hu
      rw [Function.update_self] at first
      cases first
      rw [Function.update_of_ne hv] at second
      exact absurd second (unheld v)
    · subst hv
      rw [Function.update_self] at second
      cases second
      rw [Function.update_of_ne hu] at first
      exact absurd first (unheld u)
    · rw [Function.update_of_ne hu] at first
      rw [Function.update_of_ne hv] at second
      exact held.unique u v j first second
  · by_cases here : j = i
    · subst here
      exact ⟨w, held.lt works, by rw [Function.update_self]; rfl⟩
    · rw [Function.update_of_ne here] at active
      obtain ⟨v, inside, holds⟩ := held.holder j active
      have other : v ≠ w := by
        rintro rfl
        simp [free, Worker.holds] at holds
      exact ⟨v, inside, by rwa [Function.update_of_ne other]⟩

theorem Held.release (held : Held n blocks workers) (holds : (workers w).holds = some i) (gone : a.holds = none)
    (inactive : state ≠ .active) : Held n (Function.update blocks i state) (Function.update workers w a) := by
  have works : workers w ≠ .exited := by
    intro exited
    simp [exited, Worker.holds] at holds
  have kept : ∀ v j, (Function.update workers w a v).holds = some j → v ≠ w ∧ (workers v).holds = some j := by
    intro v j still
    by_cases here : v = w
    · subst here
      simp [gone] at still
    · rw [Function.update_of_ne here] at still
      exact ⟨here, still⟩
  refine ⟨fun v j still => ?_, fun u v j first second => ?_, fun j active => ?_, held.outside_update works⟩
  · obtain ⟨other, still⟩ := kept v j still
    have away : j ≠ i := by
      rintro rfl
      exact other (held.unique v w j still holds)
    rw [Function.update_of_ne away]
    exact held.active v j still
  · exact held.unique u v j (kept u j first).2 (kept v j second).2
  · have away : j ≠ i := by
      rintro rfl
      rw [Function.update_self] at active
      exact inactive active
    rw [Function.update_of_ne away] at active
    obtain ⟨v, inside, still⟩ := held.holder j active
    have other : v ≠ w := by
      rintro rfl
      exact away (Option.some.inj (still.symm.trans holds))
    exact ⟨v, inside, by rwa [Function.update_of_ne other]⟩

theorem Held.elapse (held : Held n blocks workers) (waits : blocks i = .pending true) :
    Held n (Function.update blocks i (.pending false)) workers := by
  refine ⟨fun v j holds => ?_, held.unique, fun j active => ?_, held.outside⟩
  · have active := held.active v j holds
    have away : j ≠ i := by
      rintro rfl
      simp [waits] at active
    rwa [Function.update_of_ne away]
  · have away : j ≠ i := by
      rintro rfl
      simp at active
    rw [Function.update_of_ne away] at active
    exact held.holder j active

theorem Counted.lt_of_active (counted : Counted count n high blocks workers) (inside : i < count)
    (active : blocks i = .active) : i < high := by
  refine Nat.lt_of_not_le fun beyond => ?_
  have := counted.fresh i beyond inside
  simp [active, BlockState.IsPending] at this

theorem Counted.move (counted : Counted count n high blocks workers) (inside : w < n)
    (returns : Worker.Returning (workers w) → a.Returning) (stays : a = .dry ∨ a = .exited → high = count) :
    Counted count n high blocks (Function.update workers w a) := by
  refine ⟨counted.bound, counted.fresh, ?_, fun v less idle => ?_⟩
  · have total := tally_update (p := Worker.Returning) (f := workers) (a := a) inside
    have before := counted.requeued
    split at total
    · rw [if_pos (returns ‹_›)] at total
      omega
    · omega
  · by_cases here : v = w
    · subst here
      rw [Function.update_self] at idle
      exact stays idle
    · rw [Function.update_of_ne here] at idle
      exact counted.dry v less idle

theorem Counted.runDry (counted : Counted count n high blocks workers) (nothing : ∀ i < count, ¬ (blocks i).IsPending) :
    Counted count n high blocks (Function.update workers w .dry) := by
  have all : high = count := by
    refine Nat.le_antisymm counted.bound (Nat.le_of_not_lt fun less => ?_)
    exact nothing high less (counted.fresh high (Nat.le_refl _) less)
  have none_pending : tally BlockState.IsPending high blocks = 0 :=
    tally_eq_zero.mpr fun k less => nothing k (all ▸ less)
  exact ⟨counted.bound, counted.fresh, by omega, fun _ _ _ => all⟩

theorem Counted.elapse (counted : Counted count n high blocks workers) (waits : blocks i = .pending true) :
    Counted count n high (Function.update blocks i (.pending false)) workers := by
  have same : ∀ k, (Function.update blocks i (.pending false) k).IsPending ↔ (blocks k).IsPending := fun k => by
    by_cases here : k = i
    · subst here
      simp [waits, BlockState.IsPending]
    · rw [Function.update_of_ne here]
  refine ⟨counted.bound, fun k beyond inside => (same k).mpr (counted.fresh k beyond inside), ?_, counted.dry⟩
  rw [tally_congr fun k _ => same k]
  exact counted.requeued

theorem Counted.release (counted : Counted count n high blocks workers) (inside : w < n) (below : i < high)
    (active : blocks i = .active) (busy : ¬ (workers w).Returning) :
    Counted count n high (Function.update blocks i state) (Function.update workers w .leaving) := by
  refine ⟨counted.bound, fun k beyond less => ?_, ?_, fun v less idle => ?_⟩
  · rw [Function.update_of_ne (by omega)]
    exact counted.fresh k beyond less
  · have pending := tally_update (p := BlockState.IsPending) (f := blocks) (a := state) below
    have returning := tally_update (p := Worker.Returning) (f := workers) (a := .leaving) inside
    rw [if_neg (by simp [active, BlockState.IsPending])] at pending
    rw [if_neg busy, if_pos (.inr rfl)] at returning
    have before := counted.requeued
    split at pending <;> omega
  · have other : v ≠ w := by
      rintro rfl
      simp at idle
    rw [Function.update_of_ne other] at idle
    exact counted.dry v less idle

/-- The first pending block is either one that was requeued, whose waiting worker takes it, or the
lowest one never leased. -/
theorem Counted.lease (counted : Counted count n high blocks workers) (inside : w < n) (within : i < count)
    (free : workers w = .looping) (ready : blocks i = .pending delayed) (lowest : ∀ j < i, ¬ (blocks j).IsPending) :
    Counted count n (max high (i + 1)) (Function.update blocks i .active) (Function.update workers w (.leased i)) := by
  have idle : ∀ v < n, Function.update workers w (.leased i) v = .dry ∨ Function.update workers w (.leased i) v = .exited →
      high = count := fun v less idle => by
    have other : v ≠ w := by
      rintro rfl
      simp at idle
    rw [Function.update_of_ne other] at idle
    exact counted.dry v less idle
  have fresh : ∀ k, max high (i + 1) ≤ k → k < count → (Function.update blocks i .active k).IsPending := fun k beyond less => by
    rw [Function.update_of_ne (by omega)]
    exact counted.fresh k (by omega) less
  have before := counted.bound
  refine ⟨by omega, fresh, ?_, fun v less stopped => ?_⟩
  · by_cases below : i < high
    · rw [Nat.max_eq_left below]
      have pending := tally_update (p := BlockState.IsPending) (f := blocks) (a := .active) below
      have returning := tally_update (p := Worker.Returning) (f := workers) (a := .leased i) inside
      rw [if_pos (by simp [ready, BlockState.IsPending]), if_neg (show ¬ BlockState.active.IsPending from id)] at pending
      rw [if_pos (.inl free), if_neg (by simp [Worker.Returning])] at returning
      have := counted.requeued
      omega
    · -- nothing at or below the new block is pending any more
      have newest : i = high := by
        refine Nat.le_antisymm (Nat.le_of_not_lt fun above => ?_) (Nat.le_of_not_lt below)
        exact lowest high above (counted.fresh high (Nat.le_refl _) (by omega))
      have none_pending : tally BlockState.IsPending (max high (i + 1)) (Function.update blocks i .active) = 0 := by
        refine tally_eq_zero.mpr fun k less => ?_
        by_cases here : k = i
        · subst here
          rw [Function.update_self]
          exact id
        · rw [Function.update_of_ne here]
          exact lowest k (by omega)
      omega
  · have := idle v less stopped
    omega

end

section
variable {l : Schedule} {s t : Sequential}

theorem WorkerOk.mono (ok : WorkerOk l low worker) (raised : low ≤ high) : WorkerOk l high worker := by
  cases worker with
  | flushing i flushes complete =>
    obtain ⟨b, pos, stop, found, chain, position, rest⟩ := ok
    exact ⟨b, pos, stop, found, chain, position.imp_right fun below => Int.le_trans below raised, rest⟩
  | recording | advancing | looping | dry | leased | opening | leaving | exited => exact ok

theorem WorkerOk.found (ok : WorkerOk l commit worker) (holds : worker.holds = some i) : ∃ b, l.blocks[i]? = some b := by
  cases worker with
  | looping | dry | leaving | exited => cases holds
  | leased | opening =>
    cases holds
    exact ok
  | flushing =>
    cases holds
    obtain ⟨b, -, -, found, -⟩ := ok
    exact ⟨b, found⟩
  | recording | advancing =>
    cases holds
    obtain ⟨b, -, found, -⟩ := ok
    exact ⟨b, found⟩

theorem WorkerOk.ended (found : l.blocks[i]? = some b) : WorkerOk l commit (.flushing i [] false) := by
  have positive := l.nonempty b (List.mem_of_getElem? found)
  refine ⟨b, b.offset, b.offset, found, rfl, .inl rfl, Int.le_refl _, ?_, fun never => nomatch never⟩
  simp only [Block.stop]
  omega

theorem Watermark.move (above : Watermark l s) (calm : ∀ i f rest c, s.workers w ≠ .advancing i f rest c)
    (ok : WorkerOk l s.seqCommit a) : Watermark l (s.assign w a) where
  head := above.head
  done := above.done
  covered i b x found has covers := by
    refine (above.covered i b x found has covers).imp_right ?_
    rintro ⟨v, f, rest, c, advances, inside⟩
    have other : v ≠ w := by
      rintro rfl
      exact calm i f rest c advances
    exact ⟨v, f, rest, c, by rwa [assign_other other], inside⟩
  workers v := by
    by_cases here : v = w
    · subst here
      rwa [assign_same]
    · rw [assign_other here]
      exact above.workers v

theorem Watermark.mark_block (above : Watermark l s)
    (done : state = .done → ∀ b, l.blocks[i]? = some b → b.stop ≤ s.seqCommit) : Watermark l (s.mark i state) where
  head := above.head
  done j b found finished := by
    by_cases here : j = i
    · subst here
      rw [mark_same] at finished
      exact done finished b found
    · rw [mark_other here] at finished
      exact above.done j b found finished
  covered := above.covered
  workers := above.workers

theorem Watermark.record (above : Watermark l s) (held : s.workers w = .recording i f rest complete) :
    Watermark l ({ s with set := s.set.add f.off f.stop }.assign w (.advancing i f rest complete)) := by
  have own := above.workers w
  rw [held] at own
  obtain ⟨a, stop, here, chain, starts, -, stops, whole⟩ := own
  have moved : Watermark l (s.assign w (.advancing i f rest complete)) := by
    refine above.move (fun j g gs c => by simp [held]) ?_
    have own := above.workers w
    rwa [held] at own
  refine ⟨moved.head, moved.done, fun j b x found has covers => ?_, moved.workers⟩
  rcases IntervalSet.covers_add.mp covers with added | before
  · -- the recorded range lies in the worker's own block
    have same : i = j := by
      by_contra other
      have below : x < a.stop := by
        have := chain.le
        omega
      exact l.apart other here found ⟨Int.le_trans starts added.1, below⟩ has
    subst same
    exact .inr ⟨w, f, rest, complete, assign_same, added⟩
  · exact moved.covered j b x found has before

theorem Watermark.advance (above : Watermark l s) (started : s.seqStarted = true)
    (held : s.workers w = .advancing i f rest complete) :
    Watermark l ({ s with toSeqGate := s.seqAdvance f.stop }.assign w (.flushing i rest complete)) := by
  have raised : s.seqCommit ≤ max s.seqCommit f.stop := Int.le_max_left ..
  refine ⟨fun pinned b found => ?_, fun j b found finished => ?_, fun j b x found has covers => ?_, fun v => ?_⟩
  · exact Int.le_trans (above.head pinned b found) raised
  · exact Int.le_trans (above.done j b found finished) raised
  · rcases above.covered j b x found has covers with ⟨-, below⟩ | ⟨v, g, gs, c, advances, inside⟩
    · exact .inl ⟨started, Int.lt_of_lt_of_le below raised⟩
    · by_cases here : v = w
      · subst here
        rw [held] at advances
        cases advances
        exact .inl ⟨started, Int.lt_of_lt_of_le inside.2 (Int.le_max_right ..)⟩
      · exact .inr ⟨v, g, gs, c, by rwa [assign_other here], inside⟩
  · have own := above.workers v
    by_cases here : v = w
    · subst here
      rw [held] at own
      obtain ⟨b, stop, found, chain, starts, forward, stops, whole⟩ := own
      rw [assign_same]
      exact ⟨b, f.stop, stop, found, chain, .inr (Int.le_max_right ..), by omega, stops, whole⟩
    · rw [assign_other here]
      exact own.mono raised

/-- Where the attempt of a block starts, and that it completes the block when it says so. -/
theorem WorkerOk.of_attempt {set : IntervalSet} (found : l.blocks[i]? = some b)
    (committed : ∀ x, b.range.Has x → set.Covers x → x < commit)
    (attempted : attempt l.toLayout set b m fin script = some (flushes, complete)) :
    WorkerOk l commit (.flushing i flushes complete) := by
  have positive := l.nonempty b (List.mem_of_getElem? found)
  have ends : b.stop = b.offset + b.length := rfl
  have forward := set.prefixCovered_nonneg b.offset b.stop
  -- the last byte of a discarded prefix is committed
  have discarded : ∀ pos, b.offset < pos → pos ≤ b.stop → pos ≤ b.offset + set.prefixCovered b.offset b.stop → pos ≤ commit := by
    intro pos after inside reached
    have last : pos - 1 < b.offset + set.prefixCovered b.offset b.stop := by omega
    have covers : set.Covers (pos - 1) := IntervalSet.covers_of_prefixCovered (by omega) last
    have := committed (pos - 1) ⟨by show b.offset ≤ pos - 1; omega, by show pos - 1 < b.stop; omega⟩ covers
    omega
  simp only [attempt] at attempted
  generalize set.prefixCovered b.offset b.stop = skip at attempted forward discarded
  split at attempted
  · cases attempted
    rename_i whole
    exact ⟨b, b.stop, b.stop, found, rfl, .inr (discarded b.stop (by omega) (Int.le_refl _) (by omega)), by omega,
      Int.le_refl _, fun _ => rfl⟩
  rename_i part
  split at attempted
  · cases attempted
    exact .ended found
  rename_i served
  split at attempted
  · cases attempted
  rename_i fits
  split at attempted
  · cases attempted
  rename_i finished
  cases attempted
  have natural : ((skip.toNat : Nat) : Int) = skip := Int.toNat_of_nonneg forward
  have coming : TrueAt l.truth (b.offset + skip) ((trueBytes l.truth b.offset m).drop skip.toNat) := by
    have served : skip.toNat ≤ (trueBytes l.truth b.offset m).length := by
      rw [Writing.length_trueBytes]
      omega
    have rest := (Writing.trueAt_trueBytes l.truth b.offset m).drop served
    rwa [natural] at rest
  have starts : b.offset + skip ≤ b.stop := by omega
  have low : 0 ≤ b.offset + skip := Int.add_nonneg (l.machine b (List.mem_of_getElem? found)).1 forward
  have fits' : b.offset + skip + ((trueBytes l.truth b.offset m).drop skip.toNat).length ≤ maxInt64 := by
    rw [List.length_drop, Writing.length_trueBytes]
    omega
  have spec : (streamBlock l.slab b (b.offset + skip) _ fin script).Spec l.truth b _ _ :=
    streamBlock_spec l.large low fits' starts coming
  obtain ⟨stop, chain, -, within, reached⟩ := spec.reached
  refine ⟨b, b.offset + skip, stop, found, chain, ?_, by omega, within, fun complete => ?_⟩
  · by_cases nothing : skip = 0
    · exact .inl (by omega)
    · exact .inr (discarded _ (by omega) starts (Int.le_refl _))
  · have outcome := of_decide_eq_true complete
    have all := reached finished (by simp [outcome])
    have length := streamLoop_complete outcome
    omega

/-- A lease leaves the watermark alone or, as the first one, pins it to the first block. -/
theorem Watermark.lease (above : Watermark l s) (found : l.blocks[i]? = some b) (free : s.workers w = .looping)
    (first : s.seqStarted = false → i = 0 ∧ (∀ j b, l.blocks[j]? = some b → s.blocks j ≠ .done) ∧
      ∀ v, (s.workers v).holds = none) :
    Watermark l ({ s.mark i .active with toSeqGate := s.seqBaseline b.offset }.assign w (.leased i)) := by
  have marked : Watermark l (s.mark i .active) := above.mark_block fun never => nomatch never
  cases started : s.seqStarted with
  | true =>
    rw [show s.seqBaseline b.offset = s.toSeqGate from if_pos started]
    exact marked.move (fun j f rest c => by simp [Sequential.mark, free]) ⟨b, found⟩
  | false =>
    obtain ⟨rfl, undone, unheld⟩ := first started
    rw [show s.seqBaseline b.offset = ⟨true, b.offset⟩ from if_neg (by simp [started])]
    refine Watermark.move (s := { s.mark 0 .active with toSeqGate := ⟨true, b.offset⟩ }) ⟨?_, ?_, ?_, ?_⟩
      (fun j f rest c => by simp [Sequential.mark, free]) ⟨b, found⟩
    · intro _ b' found'
      rw [found] at found'
      cases found'
      exact Int.le_refl _
    · intro j b' found' finished
      by_cases here : j = 0
      · subst here
        simp at finished
      · exact absurd ((mark_other here).symm.trans finished) (undone j b' found')
    · intro j b' x found' has covers
      rcases above.covered j b' x found' has covers with ⟨pinned, -⟩ | ⟨v, f, rest, c, advances, -⟩
      · rw [started] at pinned
        cases pinned
      · have := unheld v
        simp [advances, Worker.holds] at this
    · intro v
      have idle := unheld v
      show WorkerOk l b.offset (s.workers v)
      generalize s.workers v = worker at idle
      cases worker with
      | looping | dry | leaving | exited => trivial
      | leased | opening | flushing | recording | advancing => cases idle

theorem Inv.started_of_active (inv : Inv l n high s) (found : l.blocks[i]? = some b) (active : s.blocks i = .active) :
    i < high ∧ s.seqStarted = true := by
  obtain ⟨within, -⟩ := List.getElem?_eq_some_iff.mp found
  have below := inv.counted.lt_of_active within active
  exact ⟨below, inv.started.mpr (by omega)⟩

theorem Inv.move (inv : Inv l n high s) (before : s.workers w = b) (goes : b.GoesOn a) (ok : WorkerOk l s.seqCommit a) :
    Inv l n high (s.assign w a) := by
  subst before
  exact {
    held := inv.held.move goes.working goes.holds
    counted := inv.counted.move (inv.held.lt goes.working) goes.returning fun idle => absurd idle goes.resumes
    started := inv.started
    watermark := inv.watermark.move goes.calm ok }

theorem Inv.inflight (inv : Inv l n high s) (count : Int) : Inv l n high { s with inflight := count } where
  held := inv.held
  counted := inv.counted
  started := inv.started
  watermark := { inv.watermark with }

theorem Inv.release (inv : Inv l n high s) (held : s.workers w = .flushing i [] c) (inactive : state ≠ .active)
    (done : state = .done → ∀ b, l.blocks[i]? = some b → b.stop ≤ s.seqCommit) :
    Inv l n high ((s.mark i state).assign w .leaving) := by
  have holds : (s.workers w).holds = some i := by rw [held]; rfl
  have active := inv.held.active w i holds
  obtain ⟨b, -, -, found, -⟩ : WorkerOk l s.seqCommit (.flushing i [] c) := held ▸ inv.watermark.workers w
  obtain ⟨below, -⟩ := inv.started_of_active found active
  refine ⟨inv.held.release holds rfl inactive, ?_, inv.started, ?_⟩
  · exact inv.counted.release (inv.held.lt (by simp [held])) below active (by simp [held, Worker.Returning])
  · exact (inv.watermark.mark_block done).move (fun j f rest c => by simp [mark, held]) trivial

theorem Inv.lease (inv : Inv l n high s) (found : l.blocks[i]? = some b) (free : s.workers w = .looping)
    (ready : s.blocks i = .pending delayed) (lowest : ∀ j < i, ¬ (s.blocks j).IsPending) :
    Inv l n (max high (i + 1)) ({ s.mark i .active with toSeqGate := s.seqBaseline b.offset }.assign w (.leased i)) := by
  have within := (List.getElem?_eq_some_iff.mp found).1
  have inside := inv.held.lt (w := w) (by simp [free])
  refine ⟨?_, ?_, ?_, inv.watermark.lease found free fun unpinned => ?_⟩
  · simpa [assign, mark] using inv.held.lease free ready
  · simpa [assign, mark] using inv.counted.lease inside within free ready lowest
  · simp [assign]
  · -- before the first lease every block is pending and no worker holds one
    have none_leased : high = 0 := by
      by_contra some_leased
      have pinned := inv.started.mpr (Nat.pos_of_ne_zero some_leased)
      rw [unpinned] at pinned
      cases pinned
    have pending : ∀ j b, l.blocks[j]? = some b → (s.blocks j).IsPending := fun j b found =>
      inv.counted.fresh j (by omega) (List.getElem?_eq_some_iff.mp found).1
    refine ⟨?_, fun j b found finished => ?_, fun v => ?_⟩
    · by_contra later
      have below : 0 < i := Nat.pos_of_ne_zero later
      exact lowest 0 below (inv.counted.fresh 0 (by omega) (by omega))
    · have := pending j b found
      simp [finished, BlockState.IsPending] at this
    · cases holds : (s.workers v).holds with
      | none => rfl
      | some j =>
        obtain ⟨b, found⟩ := (inv.watermark.workers v).found holds
        have := pending j b found
        simp [inv.held.active v j holds, BlockState.IsPending] at this

theorem inv_next (inv : Inv l n high s) (clear : HeadFirst s e) (stepped : next l s e = some t) :
    ∃ high, Inv l n high t := by
  cases next_step stepped with
  | lease found free ready => exact ⟨_, inv.lease found free ready clear⟩
  | runDry free nothing =>
    refine ⟨high, inv.held.move (by simp [free]) (by simp [free, Worker.holds]), inv.counted.runDry nothing, inv.started, ?_⟩
    exact inv.watermark.move (fun j f rest c => by simp [free]) trivial
  | @poll w dry =>
    have inside := inv.held.lt (w := w) (by simp [dry])
    have all := inv.counted.dry w inside (.inl dry)
    refine ⟨high, inv.held.move (by simp [dry]) ?_, inv.counted.move inside (by simp [dry, Worker.Returning]) fun _ => all,
      inv.started, inv.watermark.move (fun j f rest c => by simp [dry]) ?_⟩
    · rw [dry]
      split <;> rfl
    · split <;> trivial
  | @enter w i held =>
    have own : WorkerOk l s.seqCommit (.leased i) := held ▸ inv.watermark.workers w
    exact ⟨high, (inv.inflight _).move held .enter own⟩
  | @openFailed w i held =>
    obtain ⟨b, found⟩ : WorkerOk l s.seqCommit (.opening i) := held ▸ inv.watermark.workers w
    exact ⟨high, inv.move held .fetch (.ended found)⟩
  | @stream w i b m fin script flushes complete held found attempted =>
    have holds : (s.workers w).holds = some i := by rw [held]; rfl
    -- another worker that advances over this block would hold it too
    have committed : ∀ x, b.range.Has x → s.set.Covers x → x < s.seqCommit := fun x has covers => by
      rcases inv.watermark.covered i b x found has covers with ⟨-, below⟩ | ⟨v, f, rest, c, advances, -⟩
      · exact below
      · have same := inv.held.unique v w i (by rw [advances]; rfl) holds
        rw [same, held] at advances
        cases advances
    exact ⟨high, inv.move held .fetch (.of_attempt found committed attempted)⟩
  | @wrote w i f rest complete held passes =>
    obtain ⟨b, pos, stop, found, chain, -, starts, stops, whole⟩ : WorkerOk l s.seqCommit (.flushing i (f :: rest) complete) :=
      held ▸ inv.watermark.workers w
    refine ⟨high, inv.move held .wrote ⟨b, stop, found, chain.2.2, ?_, ?_, stops, whole⟩⟩
    · rw [chain.1]
      exact starts
    · simp only [Flush.stop]
      omega
  | @failed w i f rest complete held passes =>
    have holds : (s.workers w).holds = some i := by rw [held]; rfl
    obtain ⟨b, found⟩ := (inv.watermark.workers w).found holds
    exact ⟨high, inv.move held .failed (.ended found)⟩
  | record held =>
    refine ⟨high, inv.held.move (by simp [held]) (by simp [held, Worker.holds]), ?_, inv.started, inv.watermark.record held⟩
    exact inv.counted.move (inv.held.lt (by simp [held])) (by simp [held, Worker.Returning]) (by simp)
  | @advance w i f rest complete held =>
    have holds : (s.workers w).holds = some i := by rw [held]; rfl
    obtain ⟨b, found⟩ := (inv.watermark.workers w).found holds
    obtain ⟨-, started⟩ := inv.started_of_active found (inv.held.active w i holds)
    refine ⟨high, inv.held.move (by simp [held]) holds.symm, ?_, inv.started, inv.watermark.advance started held⟩
    exact inv.counted.move (inv.held.lt (by simp [held])) (by simp [held, Worker.Returning]) (by simp)
  | @complete w i held =>
    refine ⟨high, inv.release held (by simp) fun _ b found => ?_⟩
    obtain ⟨b', pos, stop, found', chain, position, starts, stops, whole⟩ : WorkerOk l s.seqCommit (.flushing i [] true) :=
      held ▸ inv.watermark.workers w
    rw [found] at found'
    cases found'
    have positive := l.nonempty b (List.mem_of_getElem? found)
    have reached := whole rfl
    have ends : b.stop = b.offset + b.length := rfl
    have : pos = stop := chain
    omega
  | requeue held => exact ⟨high, inv.release held (by simp) fun never => by cases never⟩
  | lost held => cases clear
  | leave leaves =>
    exact ⟨high, (inv.inflight _).move leaves .leave trivial⟩
  | elapse waits =>
    exact ⟨high, inv.held.elapse waits, inv.counted.elapse waits, inv.started,
      inv.watermark.mark_block fun never => by cases never⟩
  | cancel => exact ⟨high, inv.held, inv.counted, inv.started, { inv.watermark with }⟩

theorem Initial.inv (initial : Initial l n s) : Inv l n 0 s where
  held := by
    have idle : ∀ w, (s.workers w).holds = none := fun w => by
      rw [initial.workers]
      split <;> rfl
    refine ⟨fun w i holds => ?_, fun v w i holds => ?_, fun i active => absurd active (initial.outside i), fun w beyond => ?_⟩
    · simp [idle] at holds
    · simp [idle] at holds
    · rw [initial.workers, if_neg (by omega)]
  counted := by
    refine ⟨Nat.zero_le _, fun i _ within => initial.blocks i within, Nat.zero_le _, fun w inside stopped => ?_⟩
    rw [initial.workers, if_pos inside] at stopped
    simp at stopped
  started := by simp [initial.unpinned]
  watermark := by
    refine ⟨fun pinned => ?_, fun i b found finished => ?_, fun i b x found has covers => ?_, fun w => ?_⟩
    · simp [initial.unpinned] at pinned
    · have := initial.blocks i (List.getElem?_eq_some_iff.mp found).1
      simp [finished, BlockState.IsPending] at this
    · exact absurd covers (initial.missing b (List.mem_of_getElem? found) x has)
    · rw [initial.workers]
      split <;> trivial

theorem Inv.head_reached (inv : Inv l n high s) (contiguous : Contiguous l) (found : l.blocks[k]? = some b)
    (started : s.seqStarted = true) (lower : ∀ j < k, s.blocks j = .done) : b.offset ≤ s.seqCommit := by
  cases k with
  | zero => exact inv.watermark.head started b found
  | succ j =>
    have within := (List.getElem?_eq_some_iff.mp found).1
    have previous : l.blocks[j]? = some l.blocks[j] := List.getElem?_eq_getElem (by omega)
    rw [contiguous j _ b previous found]
    exact inv.watermark.done j _ previous (lower j (Nat.lt_succ_self j))

theorem Inv.not_stuck (inv : Inv l n high s) (contiguous : Contiguous l) (positive : 0 < n) : ¬ Stuck l n s := by
  rintro ⟨-, unfinished, waiting⟩
  have spec := Nat.find_spec unfinished
  have least : ∀ j < Nat.find unfinished, s.blocks j = .done := fun j less => by
    have before := Nat.find_min unfinished less
    have within := spec.1
    by_contra other
    exact before ⟨by omega, other⟩
  generalize Nat.find unfinished = k at spec least
  obtain ⟨within, open_⟩ := spec
  have found : l.blocks[k]? = some l.blocks[k] := List.getElem?_eq_getElem within
  have parked_holds : ∀ w, s.Parked w → ∃ i f rest c, s.workers w = .flushing i (f :: rest) c ∧ s.seqCommit < f.off := by
    rintro w ⟨off, gated, above⟩
    generalize s.workers w = worker at gated
    unfold Worker.gate at gated
    split at gated
    · cases gated
      exact ⟨_, _, _, _, rfl, above⟩
    · cases gated
  cases state : s.blocks k with
  | done => exact open_ state
  | active =>
    -- its holder is not parked: the watermark has reached the block
    obtain ⟨w, inside, holds⟩ := inv.held.holder k state
    have reached := inv.head_reached contiguous found (inv.started_of_active found state).2 least
    rcases waiting w inside with parked | idle | gone
    · obtain ⟨i, f, rest, c, flushing, above⟩ := parked_holds w parked
      rw [flushing] at holds
      cases holds
      obtain ⟨b, pos, stop, found', chain, position, -⟩ : WorkerOk l s.seqCommit (.flushing k (f :: rest) c) :=
        flushing ▸ inv.watermark.workers w
      rw [found] at found'
      cases found'
      have := chain.1
      omega
    · simp [idle, Worker.holds] at holds
    · simp [gone, Worker.holds] at holds
  | pending delayed =>
    have pending : (s.blocks k).IsPending := by simp [state, BlockState.IsPending]
    by_cases below : k < high
    · -- the block was requeued, so a worker is on its way to lease it
      have counted : 0 < tally BlockState.IsPending high s.blocks := tally_pos.mpr ⟨k, below, pending⟩
      obtain ⟨w, inside, returning⟩ := tally_pos.mp (Nat.lt_of_lt_of_le counted inv.counted.requeued)
      rcases waiting w inside with parked | stopped | gone
      · obtain ⟨i, f, rest, c, flushing, -⟩ := parked_holds w parked
        simp [flushing, Worker.Returning] at returning
      · simp [stopped, Worker.Returning] at returning
      · simp [gone, Worker.Returning] at returning
    · -- all leased blocks are done, so no worker holds one
      rcases waiting 0 positive with parked | idle
      · obtain ⟨i, f, rest, c, flushing, -⟩ := parked_holds 0 parked
        have holds : (s.workers 0).holds = some i := by rw [flushing]; rfl
        have active := inv.held.active 0 i holds
        obtain ⟨b, found'⟩ := (inv.watermark.workers 0).found holds
        have := (inv.started_of_active found' active).1
        rw [least i (by omega)] at active
        cases active
      · have := inv.counted.dry 0 positive idle
        omega

/-- Without complete bytes between the blocks, and with every lease taking the lowest pending block,
some worker of a live run can always go on. -/
theorem sequential_never_stuck (contiguous : Contiguous l) (initial : Initial l n s)
    (ran : run (next l) s events = some t) (meets : Meets (next l) HeadFirst s events) : ¬ Stuck l n t := by
  have reached : ∃ high, Inv l n high t :=
    invariant_meeting (I := fun s => ∃ high, Inv l n high s) (fun ⟨_, inv⟩ clear stepped => inv_next inv clear stepped)
      ⟨0, initial.inv⟩ ran meets
  obtain ⟨high, inv⟩ := reached
  exact inv.not_stuck contiguous initial.positive

end

/-- Two missing ranges of ten bytes with ten complete bytes between them. -/
def split : Schedule where
  truth _ := 1
  slab := 4096
  blocks := [⟨1, 0, 10⟩, ⟨2, 20, 10⟩]
  large := writeAlign_le
  machine := by decide
  disjoint := by
    refine .cons (fun b member x left right => ?_) (List.pairwise_singleton _ _)
    rw [List.mem_singleton.mp member] at right
    have : x < 10 := left.2
    have : 20 ≤ x := right.1
    omega
  nonempty := by decide
  sorted := by decide

def fresh (set : IntervalSet) : Sequential where
  live := true
  blocks _ := .pending false
  workers w := if w < 1 then .looping else .exited
  inflight := 0
  set := set
  seqStarted := false
  seqCommit := 0

theorem initial_fresh {l : Schedule} {set : IntervalSet} (missing : ∀ b ∈ l.blocks, ∀ x, b.range.Has x → ¬ set.Covers x) :
    Initial l 1 (fresh set) :=
  ⟨Nat.one_pos, fun _ => rfl, fun _ _ => trivial, fun _ => nofun, missing, rfl⟩

def fetch (i : Nat) : List Event :=
  [.lease 0 i, .enter 0, .stream 0 10 .eof [(10, true)]]

def commitTen : List Event :=
  [.write 0 true, .record 0, .advance 0, .complete 0, .leave 0]

def resumed : Sequential := fresh (.add (.empty 30 (by decide)) 10 20)

theorem initial_resumed : Initial split 1 resumed := by
  refine initial_fresh fun b member x has covers => ?_
  simp only [IntervalSet.covers_add, IntervalSet.covers_empty, or_false] at covers
  rcases List.mem_cons.mp member with rfl | member
  · have : x < 10 := has.2
    omega
  · rw [List.mem_singleton.mp member] at has
    have : 20 ≤ x := has.1
    omega

/-- The state after the first range is committed and the body of the second is read. -/
def gapReached : Sequential :=
  (run (next split) resumed (fetch 0 ++ commitTen ++ fetch 1)).getD resumed

theorem gapReached_workers (w : Nat) :
    gapReached.workers w = if w = 0 then .flushing 1 [⟨20, List.replicate 10 1⟩] true else .exited := by
  cases w <;> rfl

theorem seqCommit_unmoved (stepped : next l s e = some t) (unleasing : ∀ w, s.workers w ≠ .looping)
    (calm : ∀ w i f rest c, s.workers w ≠ .advancing i f rest c) : t.seqCommit = s.seqCommit := by
  cases next_step stepped with
  | lease found free => exact absurd free (unleasing _)
  | advance held => exact absurd held (calm _ _ _ _ _)
  | runDry | poll | enter | openFailed | stream | wrote | failed | record | complete | requeue | lost | leave | elapse
  | cancel => rfl

/-- The worker commits the first range, leases the second, and waits for a watermark that nothing moves. -/
theorem complete_gap_parks_every_worker :
    Initial split 1 resumed ∧ run (next split) resumed (fetch 0 ++ commitTen ++ fetch 1) = some gapReached ∧
      (∀ w < 1, gapReached.Parked w) ∧ Stuck split 1 gapReached ∧
      ∀ e u, next split gapReached e = some u → u.seqCommit = gapReached.seqCommit := by
  have parked : ∀ w < 1, gapReached.Parked w := fun w first => by
    obtain rfl : w = 0 := by omega
    exact ⟨20, rfl, by decide⟩
  refine ⟨initial_resumed, rfl, parked, ⟨rfl, ⟨1, by decide, by decide⟩, fun w first => .inl (parked w first)⟩, ?_⟩
  refine fun e u stepped => seqCommit_unmoved stepped (fun w => ?_) fun w i f rest c => ?_
  all_goals
    rw [gapReached_workers]
    split <;> simp

/-- One missing range in two blocks. -/
def joined : Schedule where
  truth _ := 1
  slab := 4096
  blocks := [⟨1, 0, 10⟩, ⟨2, 10, 10⟩]
  large := writeAlign_le
  machine := by decide
  disjoint := by
    refine .cons (fun b member x left right => ?_) (List.pairwise_singleton _ _)
    rw [List.mem_singleton.mp member] at right
    have : x < 10 := left.2
    have : 10 ≤ x := right.1
    omega
  nonempty := by decide
  sorted := by decide

theorem contiguous_joined : Contiguous joined := by
  intro i a b first second
  match i with
  | 0 =>
    cases first
    cases second
    rfl
  | _ + 1 => cases second

/-- The first attempt of the head block fails and is sat out before anything else is leased. -/
def retriedHead : List Event :=
  [.lease 0 0, .enter 0, .openFailed 0, .requeue 0 true true, .leave 0, .elapse 0] ++ fetch 0 ++ commitTen ++ fetch 1

/-- The second block is about to be flushed. -/
def headCommitted : Sequential :=
  (run (next joined) (fresh (.empty 20 (by decide))) retriedHead).getD (fresh (.empty 20 (by decide)))

theorem sequential_never_stuck_retried_head :
    run (next joined) (fresh (.empty 20 (by decide))) retriedHead = some headCommitted ∧
      headCommitted.blocks 1 = .active ∧ ¬ Stuck joined 1 headCommitted := by
  have initial : Initial joined 1 (fresh (.empty 20 (by decide))) :=
    initial_fresh fun _ _ _ _ => IntervalSet.covers_empty
  have ran : run (next joined) (fresh (.empty 20 (by decide))) retriedHead = some headCommitted := rfl
  exact ⟨ran, rfl, sequential_never_stuck contiguous_joined initial ran (by decide)⟩

end Sequential
end Hfdl.Transfer
