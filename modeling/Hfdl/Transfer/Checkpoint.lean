import Hfdl.Transfer.IntervalSerde
import Hfdl.Transition

/-! Checkpoints of a running download. Any number of workers write and record while
a checkpoint call, serialised by its mutex, goes through its separate steps:
snapshot, fsync, persist. The machine keeps the history of these steps, newest
first, so that durability can be read off it. -/
namespace Hfdl
open Relational Transition

/-- The in-memory set of flushed ranges; `changes` counts its mutations. -/
structure IntervalTracker where
  set : IntervalSet
  changes : Nat
deriving DecidableEq

namespace IntervalTracker

def add (t : IntervalTracker) (start stop : Int) : IntervalTracker := ⟨t.set.add start stop, t.changes + 1⟩

def reset (t : IntervalTracker) : IntervalTracker := ⟨.empty t.set.size t.set.fits, t.changes + 1⟩

end IntervalTracker

/-- One entry of the history. -/
inductive Mark where
  | wrote (range : Interval)
  | synced
  | persisted (blob : Blob)
  | skipped (set : IntervalSet)
  | reset
deriving DecidableEq

structure Flight where
  snap : IntervalSet
  changes : Nat
  synced : Bool
deriving DecidableEq

structure Checkpointing where
  tracker : IntervalTracker
  lastChanges : Nat
  haveLast : Bool
  flight : Option Flight
  history : List Mark
deriving DecidableEq

namespace Checkpointing

inductive Event where
  | write (range : Interval)
  | record (range : Interval)
  | reset
  | snapshot (force : Bool)
  | fsync (ok : Bool)
  | persist (ok : Bool)
deriving DecidableEq

def Wrote (history : List Mark) (x : Int) : Prop := ∃ v, .wrote v ∈ history ∧ v.Has x

def writtenRanges : List Mark → List Interval
  | [] => []
  | .wrote v :: rest => v :: writtenRanges rest
  | _ :: rest => writtenRanges rest

/-- A run starts from the set of the last persisted blob, whose bytes an earlier run
wrote and fsynced. -/
def start (seed : IntervalSet) : Checkpointing :=
  ⟨⟨seed, 0⟩, 0, false, none, .synced :: seed.iv.map .wrote⟩

/-- Only ranges whose write returned are recorded. The set is reset for the fallback
after the workers and the checkpoint ticker are joined, so no checkpoint is in flight. -/
def next (s : Checkpointing) : Event → Option Checkpointing
  | .write v => some { s with history := .wrote v :: s.history }
  | .record v =>
    if ∀ i < (v.stop - v.start).toNat, Covered (writtenRanges s.history) (v.start + i) then
      some { s with tracker := s.tracker.add v.start v.stop }
    else none
  | .reset =>
    if s.flight = none then some { s with tracker := s.tracker.reset, history := .reset :: s.history } else none
  | .snapshot force =>
    if s.flight = none then
      if force = false ∧ s.haveLast ∧ s.tracker.changes = s.lastChanges then
        some { s with history := .skipped s.tracker.set :: s.history }
      else some { s with flight := some ⟨s.tracker.set, s.tracker.changes, false⟩ }
    else none
  | .fsync ok =>
    match s.flight with
    | some ⟨snap, changes, false⟩ =>
      if ok then some { s with flight := some ⟨snap, changes, true⟩, history := .synced :: s.history }
      else some { s with flight := none }
    | _ => none
  | .persist ok =>
    match s.flight with
    | some ⟨snap, changes, true⟩ =>
      match snap.marshalBinary, ok with
      | .ok blob, true =>
        some { s with
          flight := none, lastChanges := changes, haveLast := true, history := .persisted blob :: s.history }
      | _, _ => some { s with flight := none }
    | _ => none

inductive Step (s : Checkpointing) : Event → Checkpointing → Prop where
  | write : Step s (.write v) { s with history := .wrote v :: s.history }
  | record (written : ∀ x, v.Has x → Wrote s.history x) :
      Step s (.record v) { s with tracker := s.tracker.add v.start v.stop }
  | reset (idle : s.flight = none) :
      Step s .reset { s with tracker := s.tracker.reset, history := .reset :: s.history }
  | skip (idle : s.flight = none) (persisted : s.haveLast = true) (clean : s.tracker.changes = s.lastChanges) :
      Step s (.snapshot false) { s with history := .skipped s.tracker.set :: s.history }
  | snapshot (idle : s.flight = none) :
      Step s (.snapshot force) { s with flight := some ⟨s.tracker.set, s.tracker.changes, false⟩ }
  | synced (flying : s.flight = some ⟨snap, changes, false⟩) :
      Step s (.fsync true) { s with flight := some ⟨snap, changes, true⟩, history := .synced :: s.history }
  | failed : Step s e { s with flight := none }
  | persisted (flying : s.flight = some ⟨snap, changes, true⟩) (encoded : snap.marshalBinary = .ok blob) :
      Step s (.persist true) { s with
        flight := none, lastChanges := changes, haveLast := true, history := .persisted blob :: s.history }

theorem mem_writtenRanges {history : List Mark} : v ∈ writtenRanges history ↔ .wrote v ∈ history := by
  induction history with
  | nil => simp [writtenRanges]
  | cons mark rest ih => cases mark <;> simp [writtenRanges, ih]

theorem next_step (stepped : next s e = some t) : Step s e t := by
  cases e
  all_goals
    simp only [next] at stepped
    repeat' split at stepped
  all_goals cases stepped
  · exact .write
  · case isTrue.refl v covered =>
    refine .record fun x has => ?_
    have inside : (x - v.start).toNat < (v.stop - v.start).toNat := by
      have := has.1
      have := has.2
      omega
    obtain ⟨w, member, holds⟩ := covered _ inside
    have same : v.start + ((x - v.start).toNat : Int) = x := by
      have := has.1
      omega
    rw [same] at holds
    exact ⟨w, mem_writtenRanges.mp member, holds⟩
  · exact .reset ‹_›
  · case isTrue.refl idle clean =>
    obtain ⟨rfl, persisted, same⟩ := clean
    exact .skip idle persisted same
  · exact .snapshot ‹_›
  · case isTrue.refl flying done =>
    subst done
    exact .synced flying
  · exact .failed
  · exact .persisted ‹_› ‹_›
  · exact .failed

def lastPersisted : List Mark → Option Blob
  | [] => none
  | .persisted blob :: _ => some blob
  | _ :: earlier => lastPersisted earlier

def sinceReset : List Mark → List Blob
  | [] => []
  | .reset :: _ => []
  | .persisted blob :: earlier => blob :: sinceReset earlier
  | _ :: earlier => sinceReset earlier

/-- What a persist needs from the history before it: the blob decodes to bytes that were
all written before some successful fsync. -/
def Backed (blob : Blob) (earlier : List Mark) : Prop :=
  ∃ set, IntervalSet.unmarshalBinary blob = .ok set ∧
    ∃ after before, earlier = after ++ .synced :: before ∧ ∀ x, set.Covers x → Wrote before x

def Durable (history : List Mark) : Prop :=
  ∀ later blob earlier, history = later ++ .persisted blob :: earlier → Backed blob earlier

/-- What a skipped checkpoint relies on: the set is the one persisted last. -/
def SkipsClean (history : List Mark) : Prop :=
  ∀ later set earlier, history = later ++ .skipped set :: earlier →
    ∃ blob, lastPersisted earlier = some blob ∧ IntervalSet.unmarshalBinary blob = .ok set

/-- Two persisted sets with no reset between them: the newer one covers the older. -/
def Grows (history : List Mark) : Prop :=
  ∀ later newer middle older earlier,
    history = later ++ .persisted newer :: (middle ++ .persisted older :: earlier) → .reset ∉ middle →
      ∀ small large, IntervalSet.unmarshalBinary older = .ok small → IntervalSet.unmarshalBinary newer = .ok large →
        ∀ x, small.Covers x → large.Covers x

section
variable {history : List Mark}

theorem Wrote.cons (wrote : Wrote history x) : Wrote (mark :: history) x := by
  obtain ⟨v, member, has⟩ := wrote
  exact ⟨v, List.mem_cons_of_mem _ member, has⟩

theorem Durable.cons (durable : Durable history) (newest : ∀ blob, mark = .persisted blob → Backed blob history) :
    Durable (mark :: history) := by
  intro later blob earlier split
  cases later with
  | nil =>
    obtain ⟨rfl, rfl⟩ := List.cons.inj split
    exact newest blob rfl
  | cons first later => exact durable later blob earlier (List.cons.inj split).2

theorem SkipsClean.cons (skips : SkipsClean history)
    (newest : ∀ set, mark = .skipped set →
      ∃ blob, lastPersisted history = some blob ∧ IntervalSet.unmarshalBinary blob = .ok set) :
    SkipsClean (mark :: history) := by
  intro later set earlier split
  cases later with
  | nil =>
    obtain ⟨rfl, rfl⟩ := List.cons.inj split
    exact newest set rfl
  | cons first later => exact skips later set earlier (List.cons.inj split).2

theorem mem_sinceReset (unreset : .reset ∉ middle) :
    blob ∈ sinceReset (middle ++ .persisted blob :: earlier) := by
  induction middle with
  | nil => exact List.mem_cons_self
  | cons mark middle ih =>
    have rest := ih fun member => unreset (List.mem_cons_of_mem _ member)
    cases mark with
    | reset => exact absurd List.mem_cons_self unreset
    | persisted other => exact List.mem_cons_of_mem _ rest
    | wrote _ => exact rest
    | synced => exact rest
    | skipped _ => exact rest

theorem Grows.cons (grows : Grows history)
    (newest : ∀ newer, mark = .persisted newer → ∀ older ∈ sinceReset history, ∀ small large,
      IntervalSet.unmarshalBinary older = .ok small → IntervalSet.unmarshalBinary newer = .ok large →
        ∀ x, small.Covers x → large.Covers x) :
    Grows (mark :: history) := by
  intro later newer middle older earlier split unreset
  cases later with
  | nil =>
    obtain ⟨rfl, rfl⟩ := List.cons.inj split
    exact newest newer rfl older (mem_sinceReset unreset)
  | cons first later => exact grows later newer middle older earlier (List.cons.inj split).2 unreset

end

structure Flight.Sound (s : Checkpointing) (f : Flight) : Prop where
  written : ∀ x, f.snap.Covers x → Wrote s.history x
  older : f.changes ≤ s.tracker.changes
  exact_ : f.changes = s.tracker.changes → f.snap = s.tracker.set
  below : ∀ x, f.snap.Covers x → s.tracker.set.Covers x
  synced : f.synced = true → ∃ after before, s.history = after ++ .synced :: before ∧ ∀ x, f.snap.Covers x → Wrote before x
  recent : ∀ blob ∈ sinceReset s.history, ∀ set, IntervalSet.unmarshalBinary blob = .ok set →
    ∀ x, set.Covers x → f.snap.Covers x

structure Inv (s : Checkpointing) : Prop where
  tracked : ∀ x, s.tracker.set.Covers x → Wrote s.history x
  flown : ∀ f, s.flight = some f → Flight.Sound s f
  last : s.haveLast = true → s.lastChanges ≤ s.tracker.changes ∧ ∃ blob set,
    lastPersisted s.history = some blob ∧ IntervalSet.unmarshalBinary blob = .ok set ∧
      (s.lastChanges = s.tracker.changes → set = s.tracker.set)
  recent : ∀ blob ∈ sinceReset s.history, ∀ set, IntervalSet.unmarshalBinary blob = .ok set →
    ∀ x, set.Covers x → s.tracker.set.Covers x
  durable : Durable s.history
  skips : SkipsClean s.history
  grows : Grows s.history

theorem inv_start (seed : IntervalSet) : Inv (start seed) := by
  have written : ∀ x, seed.Covers x → Wrote (.synced :: seed.iv.map .wrote) x := by
    rintro x ⟨v, member, has⟩
    exact ⟨v, by simp [member], has⟩
  have no_marks : ∀ mark ∈ (start seed).history, mark = .synced ∨ ∃ v, mark = .wrote v := by
    intro mark member
    rcases List.mem_cons.mp member with rfl | member
    · exact .inl rfl
    · obtain ⟨v, -, rfl⟩ := List.mem_map.mp member
      exact .inr ⟨v, rfl⟩
  have no_blobs : ∀ ranges : List Interval, sinceReset (ranges.map .wrote) = [] := by
    intro ranges
    induction ranges with
    | nil => rfl
    | cons v ranges ih => exact ih
  refine ⟨written, fun f flying => (nomatch flying), fun never => Bool.noConfusion never, ?_, ?_, ?_, ?_⟩
  · intro blob member
    have empty : sinceReset (start seed).history = [] := no_blobs seed.iv
    rw [empty] at member
    exact absurd member List.not_mem_nil
  · intro later blob earlier split
    have member : .persisted blob ∈ (start seed).history := by rw [split]; simp
    rcases no_marks _ member with same | ⟨v, same⟩ <;> cases same
  · intro later set earlier split
    have member : .skipped set ∈ (start seed).history := by rw [split]; simp
    rcases no_marks _ member with same | ⟨v, same⟩ <;> cases same
  · intro later newer middle older earlier split
    have member : .persisted newer ∈ (start seed).history := by rw [split]; simp
    rcases no_marks _ member with same | ⟨v, same⟩ <;> cases same

theorem Inv.mark {mark : Mark} (inv : Inv s) (since : sinceReset (mark :: s.history) = sinceReset s.history)
    (last : lastPersisted (mark :: s.history) = lastPersisted s.history)
    (quiet : ∀ blob, mark ≠ .persisted blob)
    (clean : ∀ set, mark = .skipped set →
      ∃ blob, lastPersisted s.history = some blob ∧ IntervalSet.unmarshalBinary blob = .ok set) :
    Inv { s with history := mark :: s.history } where
  tracked x covers := (inv.tracked x covers).cons
  flown f flying := by
    have sound := inv.flown f flying
    refine ⟨fun x covers => (sound.written x covers).cons, sound.older, sound.exact_, sound.below, ?_, ?_⟩
    · intro synced
      obtain ⟨after, before, split, wrote⟩ := sound.synced synced
      exact ⟨mark :: after, before, by simp [split], wrote⟩
    · rw [since]
      exact sound.recent
  last persisted := by
    rw [last]
    exact inv.last persisted
  recent := by
    rw [since]
    exact inv.recent
  durable := inv.durable.cons fun blob same => absurd same (quiet blob)
  skips := inv.skips.cons clean
  grows := inv.grows.cons fun blob same => absurd same (quiet blob)

theorem Inv.land (inv : Inv s) : Inv { s with flight := none } where
  tracked := inv.tracked
  flown _ flying := nomatch flying
  last := inv.last
  recent := inv.recent
  durable := inv.durable
  skips := inv.skips
  grows := inv.grows

theorem Inv.record {v : Interval} (inv : Inv s) (written : ∀ x, v.Has x → Wrote s.history x) :
    Inv { s with tracker := s.tracker.add v.start v.stop } where
  tracked x covers := (IntervalSet.covers_add.mp covers).elim (written x) (inv.tracked x)
  flown f flying := by
    have sound := inv.flown f flying
    have older := sound.older
    refine ⟨sound.written, ?_, fun same => ?_, fun x covers => ?_, sound.synced, sound.recent⟩
    · exact Nat.le_succ_of_le older
    · simp only [IntervalTracker.add] at same
      omega
    · exact IntervalSet.covers_add.mpr (.inr (sound.below x covers))
  last persisted := by
    obtain ⟨older, blob, set, newest, decoded, -⟩ := inv.last persisted
    refine ⟨Nat.le_succ_of_le older, blob, set, newest, decoded, fun same => ?_⟩
    simp only [IntervalTracker.add] at same
    omega
  recent blob member set decoded x covers := IntervalSet.covers_add.mpr (.inr (inv.recent blob member set decoded x covers))
  durable := inv.durable
  skips := inv.skips
  grows := inv.grows

theorem Inv.reset (inv : Inv s) (idle : s.flight = none) :
    Inv { s with tracker := s.tracker.reset, history := .reset :: s.history } where
  tracked x covers := absurd covers IntervalSet.covers_empty
  flown f flying := by
    rw [idle] at flying
    cases flying
  last persisted := by
    obtain ⟨older, blob, set, newest, decoded, -⟩ := inv.last persisted
    refine ⟨Nat.le_succ_of_le older, blob, set, newest, decoded, fun same => ?_⟩
    simp only [IntervalTracker.reset] at same
    omega
  recent blob member := absurd member List.not_mem_nil
  durable := inv.durable.cons fun blob same => nomatch same
  skips := inv.skips.cons fun set same => nomatch same
  grows := inv.grows.cons fun blob same => nomatch same

theorem Inv.snapshot (inv : Inv s) : Inv { s with flight := some ⟨s.tracker.set, s.tracker.changes, false⟩ } where
  tracked := inv.tracked
  flown f flying := by
    cases flying
    exact ⟨inv.tracked, Nat.le_refl _, fun _ => rfl, fun _ covers => covers, fun never => Bool.noConfusion never, inv.recent⟩
  last := inv.last
  recent := inv.recent
  durable := inv.durable
  skips := inv.skips
  grows := inv.grows

/-- The fsync covers everything the snapshot holds, since it was written before. -/
theorem Inv.sync (inv : Inv s) (flying : s.flight = some ⟨snap, changes, false⟩) :
    Inv { s with flight := some ⟨snap, changes, true⟩, history := .synced :: s.history } := by
  have marked : Inv { s with history := .synced :: s.history } :=
    inv.mark rfl rfl (fun _ same => nomatch same) fun _ same => nomatch same
  have sound := marked.flown _ flying
  have written := (inv.flown _ flying).written
  refine { marked with flown := fun f landed => ?_ }
  cases landed
  exact ⟨sound.written, sound.older, sound.exact_, sound.below, fun _ => ⟨[], s.history, rfl, written⟩, sound.recent⟩

theorem Inv.persist (inv : Inv s) (flying : s.flight = some ⟨snap, changes, true⟩)
    (encoded : snap.marshalBinary = .ok blob) :
    Inv { s with
      flight := none, lastChanges := changes, haveLast := true, history := .persisted blob :: s.history } := by
  have sound := inv.flown _ flying
  have decoded := IntervalSet.unmarshal_marshal encoded
  have same_set : ∀ set, IntervalSet.unmarshalBinary blob = .ok set → set = snap := by
    intro set again
    rw [decoded] at again
    cases again
    rfl
  obtain ⟨after, before, split, wrote⟩ := sound.synced rfl
  exact {
    tracked := fun x covers => (inv.tracked x covers).cons
    flown := fun _ landed => nomatch landed
    last := fun _ => ⟨sound.older, blob, snap, rfl, decoded, sound.exact_⟩
    recent := by
      intro other member set again x covers
      rcases List.mem_cons.mp member with rfl | member
      · rw [same_set set again] at covers
        exact sound.below x covers
      · exact inv.recent other member set again x covers
    durable := inv.durable.cons fun _ same => by
      cases same
      exact ⟨snap, decoded, after, before, split, wrote⟩
    skips := inv.skips.cons fun set same => nomatch same
    grows := inv.grows.cons fun _ same => by
      cases same
      intro older member small large decodedOld decodedNew x covers
      rw [same_set large decodedNew]
      exact sound.recent older member small decodedOld x covers }

theorem inv_next (inv : Inv s) (stepped : next s e = some t) : Inv t := by
  cases next_step stepped with
  | write => exact inv.mark rfl rfl (fun _ same => nomatch same) fun _ same => nomatch same
  | record written => exact inv.record written
  | reset idle => exact inv.reset idle
  | skip idle persisted clean =>
    obtain ⟨-, blob, set, newest, decoded, current⟩ := inv.last persisted
    refine inv.mark rfl rfl (fun _ same => nomatch same) fun skipped same => ?_
    cases same
    rw [current clean.symm] at decoded
    exact ⟨blob, newest, decoded⟩
  | snapshot idle => exact inv.snapshot
  | synced flying => exact inv.sync flying
  | failed => exact inv.land
  | persisted flying encoded => exact inv.persist flying encoded

/-- Whatever the interleaving and whichever steps fail: every persisted blob decodes to
bytes written before a successful fsync that preceded the persist, a skipped checkpoint
finds the current set already persisted, and between resets persisted sets only grow. -/
theorem checkpoint_durability (ran : run next (start seed) events = some s) :
    Durable s.history ∧ SkipsClean s.history ∧ Grows s.history := by
  have inv : Inv s := Transition.invariant inv_next (inv_start seed) ran
  exact ⟨inv.durable, inv.skips, inv.grows⟩

/-- A range recorded while a call is in flight, an fsync that fails, and a skip once all is persisted. -/
def lateRecord : List Event :=
  [.write ⟨0, 4⟩, .record ⟨0, 4⟩, .snapshot false, .write ⟨4, 8⟩, .record ⟨4, 8⟩, .fsync true, .persist true,
    .snapshot false, .fsync false, .snapshot true, .fsync true, .persist true, .snapshot false]

theorem checkpoint_durability_late_record :
    ∃ s, run next (start (.empty 8 (by decide))) lateRecord = some s ∧ s.history.head? = some (.skipped s.tracker.set) ∧
      Durable s.history ∧ SkipsClean s.history ∧ Grows s.history := by
  have ends : (run next (start (.empty 8 (by decide))) lateRecord).map (fun s => (s.history.head?, s.tracker.set)) =
      some (some (.skipped (IntervalSet.add (.empty 8 (by decide)) 0 8)), IntervalSet.add (.empty 8 (by decide)) 0 8) := by
    rfl
  obtain ⟨s, ran, same⟩ := Option.map_eq_some_iff.mp ends
  obtain ⟨newest, whole⟩ := Prod.mk.inj same
  exact ⟨s, ran, by rw [newest, whole], checkpoint_durability ran⟩

end Checkpointing
end Hfdl
