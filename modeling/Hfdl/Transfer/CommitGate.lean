import Hfdl.Transfer.Interval
import Hfdl.Transition

/-! The commit gate of sequential runs. Any number of workers lease blocks and flush at any offsets, also again after a
failed attempt; which blocks the leaser hands out, and in which order, is left open. A cancelled wait is a write that
does not happen. -/
namespace Hfdl
open Transition

/-- Where a worker stands in a gated write: the gate is passed before the write, so others move in between. -/
inductive GatedWrite where
  | idle
  | leased
  | passed (off : Int) (n : Nat)
  | written (off : Int) (n : Nat)
  | recorded (off : Int) (n : Nat)
deriving DecidableEq

structure SeqGate where
  seqStarted : Bool
  seqCommit : Int
deriving DecidableEq, Repr

/-- The first lease pins the watermark. -/
def SeqGate.seqBaseline (g : SeqGate) (off : Int) : SeqGate := if g.seqStarted then g else ⟨true, off⟩

def SeqGate.seqAdvance (g : SeqGate) (stop : Int) : SeqGate := { g with seqCommit := max g.seqCommit stop }

@[simp] theorem SeqGate.seqBaseline_started {g : SeqGate} : (g.seqBaseline off).seqStarted = true := by
  simp only [seqBaseline]
  split
  · assumption
  · rfl

/-- `baseline` is no field of the source; it keeps what the first lease pinned. -/
structure CommitGate extends SeqGate where
  intervals : IntervalSet
  baseline : Int
  workers : Nat → GatedWrite

namespace CommitGate

inductive Event where
  | lease (w : Nat) (off : Int)
  | wait (w : Nat) (off : Int) (n : Nat)
  | write (w : Nat) (ok : Bool)
  | record (w : Nat)
  | advance (w : Nat)
  | release (w : Nat)
deriving DecidableEq

def start (seed : IntervalSet) : CommitGate := ⟨⟨false, 0⟩, seed, 0, fun _ => .idle⟩

def assign (s : CommitGate) (w : Nat) (phase : GatedWrite) : CommitGate :=
  { s with workers := Function.update s.workers w phase }

@[simp] theorem assign_same {s : CommitGate} : (s.assign w phase).workers w = phase := Function.update_self ..
theorem assign_other {s : CommitGate} (other : v ≠ w) : (s.assign w phase).workers v = s.workers v :=
  Function.update_of_ne other ..

def pin (s : CommitGate) (off : Int) : CommitGate :=
  { s with toSeqGate := s.seqBaseline off, baseline := if s.seqStarted then s.baseline else off }

/-- The lease and its baseline are one step, since both happen under `leaseMu`. The wait ends when the watermark has
reached the offset. -/
def next (s : CommitGate) : Event → Option CommitGate
  | .lease w off =>
    match s.workers w with
    | .idle => some ((s.pin off).assign w .leased)
    | _ => none
  | .wait w off n =>
    match s.workers w with
    | .leased => if off ≤ s.seqCommit then some (s.assign w (.passed off n)) else none
    | _ => none
  | .write w ok =>
    match s.workers w with
    | .passed off n => some (s.assign w (if ok then .written off n else .leased))
    | _ => none
  | .record w =>
    match s.workers w with
    | .written off n => some ({ s with intervals := s.intervals.add off (off + n) }.assign w (.recorded off n))
    | _ => none
  | .advance w =>
    match s.workers w with
    | .recorded off n => some ({ s with toSeqGate := s.seqAdvance (off + n) }.assign w .leased)
    | _ => none
  | .release w =>
    match s.workers w with
    | .leased => some (s.assign w .idle)
    | _ => none

/-- Everything a step can do, with its guard. -/
inductive Step (s : CommitGate) : Event → CommitGate → Prop where
  | lease (free : s.workers w = .idle) : Step s (.lease w off) ((s.pin off).assign w .leased)
  | wait (held : s.workers w = .leased) (reached : off ≤ s.seqCommit) : Step s (.wait w off n) (s.assign w (.passed off n))
  | wrote (held : s.workers w = .passed off n) : Step s (.write w true) (s.assign w (.written off n))
  | failed (held : s.workers w = .passed off n) : Step s (.write w false) (s.assign w .leased)
  | record (held : s.workers w = .written off n) :
      Step s (.record w) ({ s with intervals := s.intervals.add off (off + n) }.assign w (.recorded off n))
  | advance (held : s.workers w = .recorded off n) :
      Step s (.advance w) ({ s with toSeqGate := s.seqAdvance (off + n) }.assign w .leased)
  | release (held : s.workers w = .leased) : Step s (.release w) (s.assign w .idle)

theorem next_step {s t : CommitGate} (stepped : next s e = some t) : Step s e t := by
  unfold next at stepped
  grind [Step]

/-- A write from the gate to the advance is at or below the watermark, and what is recorded stays covered. -/
def Gated (s : CommitGate) : GatedWrite → Prop
  | .idle => True
  | .leased => s.seqStarted = true
  | .passed off _ | .written off _ => s.seqStarted = true ∧ off ≤ s.seqCommit
  | .recorded off n => (s.seqStarted = true ∧ off ≤ s.seqCommit) ∧ ∀ x, off ≤ x → x < off + n → s.intervals.Covers x

structure Ordered (s : CommitGate) : Prop where
  gated : ∀ w, Gated s (s.workers w)
  covered : s.seqStarted = true → ∀ x, s.baseline ≤ x → x < s.seqCommit → s.intervals.Covers x

structure Grows (s t : CommitGate) : Prop where
  started : s.seqStarted = true → t.seqStarted = true ∧ t.baseline = s.baseline ∧ s.seqCommit ≤ t.seqCommit
  covers : ∀ x, s.intervals.Covers x → t.intervals.Covers x

variable {s t u : CommitGate}

theorem Grows.refl (s : CommitGate) : Grows s s := ⟨fun begun => ⟨begun, rfl, Int.le_refl _⟩, fun _ covered => covered⟩

theorem Grows.assign (s : CommitGate) : Grows s (s.assign w phase) :=
  ⟨fun begun => ⟨begun, rfl, Int.le_refl _⟩, fun _ covered => covered⟩

theorem Grows.trans (first : Grows s t) (second : Grows t u) : Grows s u where
  started begun := by
    obtain ⟨begun', same, up⟩ := first.started begun
    obtain ⟨begun'', same', up'⟩ := second.started begun'
    exact ⟨begun'', same'.trans same, up.trans up'⟩
  covers x covered := second.covers x (first.covers x covered)

theorem Gated.grows (grows : Grows s t) (gated : Gated s phase) : Gated t phase := by
  cases phase with
  | idle => trivial
  | leased => exact (grows.started gated).1
  | passed off n =>
    obtain ⟨begun, -, up⟩ := grows.started gated.1
    exact ⟨begun, gated.2.trans up⟩
  | written off n =>
    obtain ⟨begun, -, up⟩ := grows.started gated.1
    exact ⟨begun, gated.2.trans up⟩
  | recorded off n =>
    obtain ⟨⟨begun, low⟩, covered⟩ := gated
    obtain ⟨begun', -, up⟩ := grows.started begun
    exact ⟨⟨begun', low.trans up⟩, fun x left right => grows.covers x (covered x left right)⟩

theorem grows_step (step : Step s e t) : Grows s t := by
  cases step with
  | lease free =>
    refine ⟨fun begun => ?_, fun _ covered => covered⟩
    simp [pin, SeqGate.seqBaseline, assign, begun]
  | wait | wrote | failed | release => exact .assign s
  | record held => exact ⟨fun begun => ⟨begun, rfl, Int.le_refl _⟩, fun x covered => IntervalSet.covers_add.mpr (.inr covered)⟩
  | advance held => exact ⟨fun begun => ⟨begun, rfl, Int.le_max_left ..⟩, fun x covered => covered⟩

/-- A step leaves the other workers gated, so only the worker that moves is left to check. -/
theorem gated_assign (held : ∀ w, Gated s (s.workers w)) (grows : Grows s (t.assign w phase)) (others : t.workers = s.workers)
    (here : Gated (t.assign w phase) phase) : ∀ v, Gated (t.assign w phase) ((t.assign w phase).workers v) := by
  intro v
  by_cases same : v = w
  · rw [same, assign_same]
    exact here
  · rw [assign_other same, others]
    exact (held v).grows grows

theorem Ordered.at (held : Ordered s) (here : s.workers w = phase) : Gated s phase := here ▸ held.gated w

theorem ordered_step (held : Ordered s) (step : Step s e t) : Ordered t := by
  have grows := grows_step step
  cases step with
  | lease free =>
    refine ⟨gated_assign held.gated grows rfl SeqGate.seqBaseline_started, ?_⟩
    simp only [pin, SeqGate.seqBaseline, assign]
    split
    · exact held.covered
    · -- nothing lies between the baseline and the watermark it pins
      intro _ x low high
      exact absurd low (Int.not_le.mpr high)
  | wait leased reached => exact ⟨gated_assign held.gated grows rfl ⟨held.at leased, reached⟩, held.covered⟩
  | wrote passed => exact ⟨gated_assign held.gated grows rfl (held.at passed), held.covered⟩
  | failed passed => exact ⟨gated_assign held.gated grows rfl (held.at passed).1, held.covered⟩
  | record written =>
    refine ⟨gated_assign held.gated grows rfl ⟨held.at written, fun x low high => ?_⟩, fun begun x low high => ?_⟩
    · exact IntervalSet.covers_add.mpr (.inl ⟨low, high⟩)
    · exact grows.covers x (held.covered begun x low high)
  | advance recorded =>
    rename_i w off n
    obtain ⟨⟨begun, low⟩, flushed⟩ := held.at recorded
    refine ⟨gated_assign held.gated grows rfl begun, fun _ x left right => ?_⟩
    -- the flush begins at or below the old watermark, so the two ranges leave no hole
    by_cases old : x < s.seqCommit
    · exact held.covered begun x left old
    · change x < max s.seqCommit (off + n) at right
      exact flushed x (by omega) (by omega)
  | release leased => exact ⟨gated_assign held.gated grows rfl trivial, held.covered⟩

theorem ordered_start : Ordered (start seed) := ⟨fun _ => trivial, fun begun => absurd begun Bool.false_ne_true⟩

theorem ordered_run (ran : run next (start seed) es = some s) : Ordered s :=
  invariant (fun held stepped => ordered_step held (next_step stepped)) ordered_start ran

theorem grows_run (ran : run next s es = some t) : Grows s t :=
  invariant (fun held stepped => held.trans (grows_step (next_step stepped))) (.refl s) ran

/-- In every state of every run: a write that happens is at or below the watermark, whatever follows keeps the baseline and
does not lower the watermark, and there is no hole between the two. -/
theorem commits_in_order (ran : run next (start seed) es = some s) :
    (∀ w ok t, next s (.write w ok) = some t → ∃ off n, s.workers w = .passed off n ∧ off ≤ s.seqCommit) ∧
      (s.seqStarted = true → ∀ es t, run next s es = some t → t.baseline = s.baseline ∧ s.seqCommit ≤ t.seqCommit) ∧
      (s.seqStarted = true → ∀ x, s.baseline ≤ x → x < s.seqCommit → s.intervals.Covers x) := by
  have held := ordered_run ran
  refine ⟨fun w ok t stepped => ?_, fun begun es t rest => ((grows_run rest).started begun).2, held.covered⟩
  cases next_step stepped with
  | wrote passed => exact ⟨_, _, passed, (held.at passed).2⟩
  | failed passed => exact ⟨_, _, passed, (held.at passed).2⟩

/-- Two workers: the later block waits for the earlier one, whose second attempt overlaps what it has flushed. -/
def overtaking : List Event :=
  [.lease 0 10, .lease 1 20, .wait 0 10 4, .write 0 true, .record 0, .advance 0, .wait 0 14 6, .write 0 false, .release 0,
    .lease 0 10,
    .wait 0 12 8, .write 0 true, .record 0, .advance 0, .wait 1 20 5, .write 1 true, .record 1, .advance 1]

theorem commits_in_order_overtaking :
    ∃ s, run next (start (.empty 32 (by decide))) overtaking = some s ∧ s.baseline = 10 ∧ s.seqCommit = 25 ∧
      ∀ x, 10 ≤ x → x < 25 → s.intervals.Covers x := by
  have ran : ∃ s, run next (start (.empty 32 (by decide))) overtaking = some s ∧ s.seqStarted = true ∧ s.baseline = 10 ∧
    s.seqCommit = 25 :=
    ⟨_, rfl, rfl, rfl, rfl⟩
  obtain ⟨s, ran, begun, baseline, commit⟩ := ran
  have covered := (commits_in_order ran).2.2 begun
  rw [baseline, commit] at covered
  exact ⟨s, ran, baseline, commit, covered⟩

end CommitGate
end Hfdl
