import Hfdl.Store.Progress
import Hfdl.Transfer.Checkpoint

/-! The single-stream fallback of a run. Once the workers and the checkpoint ticker are joined it drops the recorded
ranges and fetches the whole file from byte 0, as often as it takes; the run ends with its final checkpoint. -/
namespace Hfdl
open Relational Transition

def maxFallbackTries : Nat := 8

/-- The set a run starts from. It returns at once on a blob that does not decode or is of another size. -/
def runSeed (size : Int) (fits : size ≤ maxInt64) : Option Blob → Option IntervalSet
  | none | some [] => some (.empty size fits)
  | some (x :: blob) =>
    match IntervalSet.unmarshalBinary (x :: blob) with
    | .ok seed => if seed.size = size then some seed else none
    | .error _ => none

/-- In `streaming` the attempt has flushed the bytes below `base` and holds `fill` more in its slab. -/
inductive FallbackPhase where
  | ranged
  | waiting (attempt : Nat)
  | streaming (attempt : Nat) (base fill : Int)
  | closing
deriving DecidableEq

/-- The checkpoint steps a phase takes: of the ticker and the drained workers, and of the forced final checkpoint. -/
def FallbackPhase.takes : FallbackPhase → Checkpointing.Event → Bool
  | .ranged, .write _ | .ranged, .record _ | .ranged, .snapshot false | .ranged, .fsync _ => true
  | .closing, .snapshot true | .closing, .fsync _ => true
  | _, _ => false

/-- A failed attempt. -/
def FallbackPhase.retry (attempt : Nat) : FallbackPhase :=
  if attempt < maxFallbackTries then .waiting (attempt + 1) else .closing

/-- `progress` is the blob of the file row. -/
structure Fallback where
  ckpt : Checkpointing
  progress : Option Blob
  phase : FallbackPhase
deriving DecidableEq

namespace Fallback

inductive Event where
  | step (e : Checkpointing.Event)
  | persist (reported saved : Bool)
  | join (fallback : Bool)
  | openStream
  | read (n : Nat)
  | flush
  | finish
  | fault
  | abort
  | crash
deriving DecidableEq

def size (d : Fallback) : Int := d.ckpt.tracker.set.size

def outgoing (d : Fallback) : Option Blob :=
  match d.ckpt.flight with
  | some ⟨snap, _, true⟩ =>
    match snap.marshalBinary with
    | .ok blob => some blob
    | .error _ => none
  | _ => none

def write (d : Fallback) (v : Interval) : Fallback := { d with ckpt := { d.ckpt with history := .wrote v :: d.ckpt.history } }

def start (seed : IntervalSet) (progress : Option Blob) : Fallback := ⟨Checkpointing.start seed, progress, .ranged⟩

/-- A persist that is fenced off reports success without saving, and one that fails may still have saved. Nothing is
persisted while the stream runs. After a crash the next run starts from the blob of the row. -/
def next (slab : Int) (d : Fallback) : Event → Option Fallback
  | .step e => if d.phase.takes e then (Checkpointing.next d.ckpt e).map fun ckpt => { d with ckpt } else none
  | .persist reported saved =>
    if d.phase = .ranged ∨ d.phase = .closing then
      (Checkpointing.next d.ckpt (.persist reported)).map fun ckpt =>
        { d with ckpt, progress := if saved then d.outgoing.or d.progress else d.progress }
    else none
  | .join fallback =>
    if d.phase = .ranged ∧ d.ckpt.flight = none then
      if fallback then (Checkpointing.next d.ckpt .reset).map fun ckpt => { d with ckpt, phase := .waiting 1 }
      else some { d with phase := .closing }
    else none
  | .openStream =>
    match d.phase with
    | .waiting attempt => some { d with phase := .streaming attempt 0 0 }
    | _ => none
  | .read n =>
    match d.phase with
    | .streaming attempt base fill =>
      if fill + n ≤ slab then
        some { d with phase := if d.size < base + fill + n then .retry attempt else .streaming attempt base (fill + n) }
      else none
    | _ => none
  | .flush =>
    match d.phase with
    | .streaming attempt base fill =>
      if fill = slab then some { d.write ⟨base, base + fill⟩ with phase := .streaming attempt (base + fill) 0 } else none
    | _ => none
  | .finish =>
    match d.phase with
    | .streaming attempt base fill =>
      let flushed := if fill = 0 then d else d.write ⟨base, base + fill⟩
      if base + fill = d.size then
        some { flushed with ckpt := { flushed.ckpt with tracker := flushed.ckpt.tracker.add 0 d.size }, phase := .closing }
      else some { flushed with phase := .retry attempt }
    | _ => none
  | .fault =>
    match d.phase with
    | .waiting attempt | .streaming attempt _ _ => some { d with phase := .retry attempt }
    | _ => none
  | .abort =>
    match d.phase with
    | .waiting _ | .streaming .. => some { d with phase := .closing }
    | _ => none
  | .crash => (runSeed d.size d.ckpt.tracker.set.fits d.progress).map fun seed => start seed d.progress

/-- The history of the stream: what came after the set was reset for it. -/
def streamMarks : List Mark → Option (List Mark)
  | [] => none
  | .reset :: _ => some []
  | mark :: earlier => (streamMarks earlier).map (mark :: ·)

def Synced (own : List Mark) (x : Int) : Prop := ∃ after before, own = after ++ .synced :: before ∧ Checkpointing.Wrote before x

/-- Since the fallback began the blob of the row claims only bytes that its stream has written and fsynced. -/
def Isolated (d : Fallback) : Prop := ∀ own ∈ streamMarks d.ckpt.history, ∀ x, BlobCovers d.progress x → Synced own x

/-- The row claims nothing when the run turns to the fallback. -/
def Unclaimed (d : Fallback) : Event → Prop
  | .join true => claimless d.progress = true
  | _ => True

instance : Decidable (Unclaimed d e) := by
  unfold Unclaimed
  split <;> infer_instance

/-- While the stream runs, what is recorded, in flight or persisted is its own. -/
structure Own (own : List Mark) (d : Fallback) : Prop where
  tracked : ∀ x, d.ckpt.tracker.set.Covers x → Checkpointing.Wrote own x
  flown : ∀ f ∈ d.ckpt.flight, ∀ x, f.snap.Covers x → Checkpointing.Wrote own x ∧ (f.synced = true → Synced own x)
  stored : ∀ x, BlobCovers d.progress x → Synced own x
  streamed : ∀ attempt base fill, d.phase = .streaming attempt base fill → ∀ x, 0 ≤ x → x < base → Checkpointing.Wrote own x

structure Inv (d : Fallback) : Prop where
  ranged : d.phase = .ranged → streamMarks d.ckpt.history = none
  own : ∀ own ∈ streamMarks d.ckpt.history, Own own d

section
variable {d d' : Fallback} {own : List Mark} {blob : Option Blob} {s t : Checkpointing}

theorem Synced.cons (synced : Synced own x) : Synced (mark :: own) x := by
  obtain ⟨after, before, rfl, wrote⟩ := synced
  exact ⟨mark :: after, before, rfl, wrote⟩

theorem streamMarks_start (seed : IntervalSet) : streamMarks (Checkpointing.start seed).history = none := by
  have none : ∀ ranges : List Interval, streamMarks (ranges.map .wrote) = none := by
    intro ranges
    induction ranges with
    | nil => rfl
    | cons v ranges ih => simp [streamMarks, ih]
  simp [Checkpointing.start, streamMarks, none]

/-- Before the reset the stream has no history. -/
theorem streamMarks_step (stepped : Checkpointing.Step s e t) (further : e ≠ .reset) (unset : streamMarks s.history = none) :
    streamMarks t.history = none := by
  cases stepped with
  | reset => exact absurd rfl further
  | write | skip | synced | persisted => simp [streamMarks, unset]
  | record | snapshot | failed => exact unset

theorem retry_ne_streaming : FallbackPhase.retry attempt ≠ .streaming n base fill := by
  unfold FallbackPhase.retry
  split <;> nofun

theorem retry_ne_ranged : FallbackPhase.retry attempt ≠ .ranged := by
  unfold FallbackPhase.retry
  split <;> nofun

theorem inv_start (seed : IntervalSet) (blob : Option Blob) : Inv (start seed blob) where
  ranged _ := streamMarks_start seed
  own own member := by
    rw [start, streamMarks_start] at member
    cases member

theorem Inv.pass (inv : Inv d) (left : stage ≠ .ranged) (streamed : ∀ own ∈ streamMarks d.ckpt.history, ∀ attempt base fill,
      stage = .streaming attempt base fill → ∀ x, 0 ≤ x → x < base → Checkpointing.Wrote own x) :
    Inv { d with phase := stage } where
  ranged same := absurd same left
  own own member := { inv.own own member with streamed := streamed own member }

theorem Inv.write (inv : Inv d) (here : d.phase = .streaming attempt base fill) (left : stage ≠ .ranged)
    (reached : ∀ n stop more, stage = .streaming n stop more → stop = base + fill) :
    Inv { d.write ⟨base, base + fill⟩ with phase := stage } where
  ranged same := absurd same left
  own own member := by
    obtain ⟨own, earlier, rfl⟩ := Option.map_eq_some_iff.mp member
    have held := inv.own own earlier
    refine ⟨fun x covers => (held.tracked x covers).cons, fun f flying x covers => ?_,
      fun x covers => (held.stored x covers).cons, ?_⟩
    · obtain ⟨wrote, synced⟩ := held.flown f flying x covers
      exact ⟨wrote.cons, fun done => (synced done).cons⟩
    · intro n stop more same x low high
      rw [reached n stop more same] at high
      by_cases old : x < base
      · exact (held.streamed _ _ _ here x low old).cons
      · exact ⟨_, List.mem_cons_self, by constructor <;> simp only <;> omega⟩

theorem Inv.complete (inv : Inv d) (here : d.phase = .streaming attempt total fill) :
    Inv { d with ckpt := { d.ckpt with tracker := d.ckpt.tracker.add 0 total }, phase := .closing } where
  ranged := nofun
  own own member := by
    have held := inv.own own member
    refine ⟨fun x covers => ?_, held.flown, held.stored, nofun⟩
    rcases IntervalSet.covers_add.mp covers with inside | old
    · exact held.streamed _ _ _ here x inside.1 inside.2
    · exact held.tracked x old

theorem Inv.close (inv : Inv d) (closing : d.phase = .closing) (takes : d.phase.takes e = true)
    (stepped : Checkpointing.next d.ckpt e = some s) :
    Inv { d with ckpt := s } where
  ranged same := by cases closing.symm.trans same
  own own member := by
    rw [closing] at takes
    cases Checkpointing.next_step stepped with
    | write | record | reset | skip | persisted => cases takes
    | snapshot =>
      have held := inv.own own member
      refine ⟨held.tracked, fun f flying x covers => ?_, held.stored, held.streamed⟩
      cases flying
      exact ⟨held.tracked x covers, nofun⟩
    | synced flying =>
      obtain ⟨own, earlier, rfl⟩ := Option.map_eq_some_iff.mp member
      have held := inv.own own earlier
      refine ⟨fun x covers => (held.tracked x covers).cons, fun f landed x covers => ?_,
        fun x covers => (held.stored x covers).cons,
        fun n base fill same => by cases closing.symm.trans same⟩
      cases landed
      have wrote := (held.flown _ flying x covers).1
      exact ⟨wrote.cons, fun _ => ⟨[], own, rfl, wrote⟩⟩
    | failed =>
      have held := inv.own own member
      exact ⟨held.tracked, nofun, held.stored, held.streamed⟩

theorem Own.outgoing (held : Own own d) (out : d.outgoing = some bytes) (covers : BlobCovers (some bytes) x) : Synced own x := by
  unfold Fallback.outgoing at out
  split at out
  · rename_i flying
    split at out <;> cases out
    rename_i encoded
    rw [BlobCovers, decodeProgress_marshal encoded] at covers
    exact (held.flown _ flying x covers).2 rfl
  · cases out

theorem Own.saved (held : Own own d) (covers : BlobCovers (d.outgoing.or d.progress) x) : Synced own x := by
  cases out : d.outgoing with
  | none =>
    rw [out] at covers
    exact held.stored x covers
  | some bytes =>
    rw [out] at covers
    exact held.outgoing out covers

/-- Before the fallback a step only has to keep off the reset. -/
theorem inv_ranged (unset : streamMarks d.ckpt.history = none) : Inv d where
  ranged _ := unset
  own own member := by
    rw [unset] at member
    cases member

theorem Inv.persist (inv : Inv d) (closing : d.phase = .closing)
    (stepped : Checkpointing.next d.ckpt (.persist reported) = some s)
    (saved : ∀ own ∈ streamMarks d.ckpt.history, ∀ x, BlobCovers blob x → Synced own x) :
    Inv { d with ckpt := s, progress := blob } where
  ranged same := by cases closing.symm.trans same
  own own member := by
    cases Checkpointing.next_step stepped with
    | failed =>
      have held := inv.own own member
      exact ⟨held.tracked, nofun, saved own member, held.streamed⟩
    | persisted =>
      obtain ⟨own, earlier, rfl⟩ := Option.map_eq_some_iff.mp member
      have held := inv.own own earlier
      exact ⟨fun x covers => (held.tracked x covers).cons, nofun, fun x covers => (saved own earlier x covers).cons,
        fun n base fill same => by cases closing.symm.trans same⟩

theorem inv_reset (idle : d.ckpt.flight = none) (nothing : claimless d.progress = true)
    (stepped : Checkpointing.next d.ckpt .reset = some s) : Inv { d with ckpt := s, phase := .waiting 1 } where
  ranged := nofun
  own own member := by
    cases Checkpointing.next_step stepped with
    | failed =>
      simp only [Checkpointing.next, if_pos idle, Option.some.injEq] at stepped
      have := congrArg (·.tracker.changes) stepped
      simp [IntervalTracker.reset] at this
    | reset =>
      cases member
      refine ⟨fun x covers => absurd covers IntervalSet.covers_empty, fun f flying => ?_, fun x covers => ?_, by simp⟩
      · cases idle.symm.trans flying
      · exact absurd covers (not_blobCovers_claimless nothing)

theorem Inv.checkpoint (inv : Inv d) (takes : d.phase.takes e = true) (stepped : Checkpointing.next d.ckpt e = some s) :
    Inv { d with ckpt := s } := by
  cases here : d.phase with
  | ranged =>
    refine inv_ranged (streamMarks_step (Checkpointing.next_step stepped) ?_ (inv.ranged here))
    rintro rfl
    rw [here] at takes
    cases takes
  | closing => exact here ▸ inv.close here takes stepped
  | waiting _ | streaming _ _ _ =>
    rw [here] at takes
    cases takes

theorem Inv.drain (inv : Inv d) (here : d.phase = .streaming attempt base fill) :
    Inv { (if fill = 0 then d else d.write ⟨base, base + fill⟩) with phase := .streaming attempt (base + fill) 0 } := by
  split
  · rename_i empty
    refine inv.pass nofun fun own member n stop more same => ?_
    cases same
    simpa [empty] using (inv.own own member).streamed _ _ _ here
  · refine inv.write here nofun fun n stop more same => ?_
    cases same
    rfl

/-- A failed attempt leaves the bytes it flushed to no stream. -/
theorem Inv.retry (inv : Inv d) (attempt : Nat) : Inv { d with phase := .retry attempt } :=
  inv.pass retry_ne_ranged fun _ _ _ _ _ same => absurd same retry_ne_streaming

theorem inv_next (inv : Inv d) (unclaimed : Unclaimed d e) (stepped : next slab d e = some d') : Inv d' := by
  cases e
  case crash =>
    obtain ⟨seed, -, rfl⟩ := Option.map_eq_some_iff.mp stepped
    exact inv_start seed _
  all_goals
    simp only [next] at stepped
    split at stepped
  all_goals try cases stepped
  · obtain ⟨s, taken, rfl⟩ := Option.map_eq_some_iff.mp stepped
    exact inv.checkpoint ‹_› taken
  · case persist.isTrue reported saved phase =>
    obtain ⟨s, taken, rfl⟩ := Option.map_eq_some_iff.mp stepped
    rcases phase with here | closing
    · exact inv_ranged (streamMarks_step (Checkpointing.next_step taken) (by simp) (inv.ranged here))
    · refine inv.persist closing taken fun own member x covers => ?_
      cases saved with
      | true => exact (inv.own own member).saved covers
      | false => exact (inv.own own member).stored x covers
  · case join.isTrue fallback joined =>
    cases fallback with
    | true =>
      obtain ⟨s, taken, rfl⟩ := Option.map_eq_some_iff.mp stepped
      exact inv_reset joined.2 unclaimed taken
    | false =>
      cases stepped
      exact inv_ranged (inv.ranged joined.1)
  · refine inv.pass nofun fun own _ n base fill same x low high => ?_
    cases same
    omega
  · case h_1 attempt base fill here =>
    split at stepped <;> cases stepped
    split
    · exact inv.retry attempt
    · refine inv.pass nofun fun own member n base fill same => ?_
      cases same
      exact (inv.own own member).streamed _ _ _ here
  · split at stepped <;> cases stepped
    refine inv.write ‹_› nofun fun n stop more same => ?_
    cases same
    rfl
  · case h_1 attempt base fill here =>
    have flushed := inv.drain here
    split at stepped <;> cases stepped
    · case isTrue.refl whole =>
      rw [← whole]
      exact flushed.complete rfl
    · exact flushed.retry attempt
  · exact inv.retry _
  · exact inv.retry _
  · exact inv.pass nofun nofun
  · exact inv.pass nofun nofun

/-- From the start of the stream to the end of the run, through every attempt and a crash anywhere, as long as the row
claimed nothing when the stream began. -/
theorem fallback_isolated (ran : run (next slab) (start seed blob) es = some d)
    (unclaimed : Meets (next slab) Unclaimed (start seed blob) es) :
    d.Isolated := by
  have inv : Inv d := invariant_meeting inv_next (inv_start seed blob) ran unclaimed
  exact fun own member => (inv.own own member).stored

/-- Ranged work that was never persisted, an attempt that fails after its first flush, and one that goes through. -/
def retried : List Event :=
  [.step (.write ⟨4, 8⟩), .step (.record ⟨4, 8⟩), .join true, .openStream, .read 4, .flush, .fault, .openStream, .read 4, .flush,
    .read 4, .finish, .step (.snapshot true), .step (.fsync true), .persist true true]

theorem fallback_isolated_retried :
    ∃ d, run (next 4) (start (.empty 8 (by decide)) none) retried = some d ∧ BlobCovers d.progress 7 ∧ d.Isolated := by
  have ran : ∃ d, run (next 4) (start (.empty 8 (by decide)) none) retried = some d ∧ BlobCovers d.progress 7 :=
    ⟨_, rfl, by decide⟩
  obtain ⟨d, ran, covers⟩ := ran
  exact ⟨d, ran, covers, fallback_isolated ran (by decide)⟩

theorem not_isolated (marks : streamMarks d.ckpt.history = some own) (unsynced : .synced ∉ own)
    (covers : BlobCovers d.progress x) :
    ¬ d.Isolated := by
  intro isolated
  obtain ⟨after, before, split, -⟩ := isolated own marks x covers
  exact unsynced (by simp [split])

/-- The persisted ranges of the blocks stay claimed under the stream, here with its first flush done: the row still claims
a byte of which the stream has written nothing, whether the blob is of this run or of an earlier one. -/
theorem fallback_over_claims :
    (∃ d, run (next 4) (start (.empty 8 (by decide)) none)
        [.step (.write ⟨4, 8⟩), .step (.record ⟨4, 8⟩), .step (.snapshot false), .step (.fsync true), .persist true true,
          .join true, .openStream, .read 4, .flush] = some d ∧
      d.phase = .streaming 1 4 0 ∧ BlobCovers d.progress 7 ∧ ¬ d.Isolated) ∧
    ∃ d, run (next 4) (start ((IntervalSet.empty 8 (by decide)).add 4 8) (some [72, 70, 68, 80, 1, 8, 1, 4, 4]))
        [.join true, .openStream, .read 4, .flush] = some d ∧
      d.phase = .streaming 1 4 0 ∧ BlobCovers d.progress 7 ∧ ¬ d.Isolated := by
  have unsynced : Mark.synced ∉ [Mark.wrote ⟨0, 4⟩] := by decide
  refine ⟨⟨_, rfl, rfl, by decide, not_isolated (x := 7) rfl unsynced (by decide)⟩, _, rfl, rfl, by decide, ?_⟩
  exact not_isolated (x := 7) rfl unsynced (by decide)

end

end Fallback
end Hfdl
