import Hfdl.Transition
import Mathlib.Algebra.Group.Int.Defs
import Mathlib.Data.List.Basic
import Mathlib.Order.Basic
import Mathlib.Data.Int.Order.Basic

/-! The pause of the queues while the disk is full. A failed write starts an episode with a watcher, or raises the demand
of the one under way; the watcher polls the directory of the first failure, on the context of the caller that noted it. -/
namespace Hfdl
open Transition

def enospcResumeBytes : Int := 256 * 2 ^ 20

def probeMinBytes : Int := 4 * 2 ^ 20

def probeGiveUpDefault : Nat := 100

def probeGiveUp (limit : Int) : Nat := if limit ≤ 0 then probeGiveUpDefault else limit.toNat

structure Note where
  dir : String
  demand : Int
deriving DecidableEq

structure Probe where
  dir : String
  size : Int
deriving DecidableEq

/-- The demand that the watcher has read goes with the phases up to the end of its round. -/
inductive WatcherPhase where
  | starting
  | sleeping
  | polled (demand : Int)
  | probing (demand : Int)
  | proven (demand : Int)
  | exhausted
  | cancelled
deriving DecidableEq

def WatcherPhase.read : WatcherPhase → Option Int
  | .polled demand | .probing demand | .proven demand => some demand
  | .starting | .sleeping | .exhausted | .cancelled => none

def WatcherPhase.ends : WatcherPhase → Bool
  | .proven _ | .exhausted | .cancelled => true
  | .starting | .sleeping | .polled _ | .probing _ => false

structure Watcher where
  ctx : Nat
  dir : String
  failures : Nat
  phase : WatcherPhase
deriving DecidableEq

/-- A lifted pause: what was recorded in its episode, and the run at that time. -/
structure Lift where
  notes : List Note
  probes : List Probe
  failures : Nat
  shutdown : Bool
deriving DecidableEq

inductive FreeSpace where
  | unsupported
  | error
  | free (bytes : Int)
deriving DecidableEq

/-- `notes` and `probes` are those of the current episode. -/
structure Pausing where
  on : Bool
  demand : Int
  dir : String
  watchers : List Watcher
  ended : List Nat
  shutdown : Bool
  notes : List Note
  probes : List Probe
  lifts : List Lift
deriving DecidableEq

namespace Pausing

inductive Event where
  | noteIOErrorAt (dir : String) (demand : Int) (ctx : Nat)
  | endContext (ctx : Nat)
  | shutDown
  | begin (i : Nat)
  | notice (i : Nat)
  | poll (i : Nat)
  | statfs (i : Nat) (result : FreeSpace)
  | probe (i : Nat) (succeeds : Bool)
  | endEpisode (i : Nat)

/-- The directory and the demand of a failure default to the cache and the watermark. -/
def recorded (root dir : String) (demand : Int) : Note := ⟨if dir = "" then root else dir, max demand enospcResumeBytes⟩

def set (d : Pausing) (i : Nat) (w : Watcher) : Pausing := { d with watchers := d.watchers.set i w }

section
variable (root : String) (limit : Int)

/-- A round without a proof ends in the next sleep, or in giving up. -/
def unproven (w : Watcher) : Watcher := { w with phase := if probeGiveUp limit ≤ w.failures then .exhausted else .sleeping }

def next (d : Pausing) : Event → Option Pausing
  | .noteIOErrorAt dir demand ctx =>
    let note := recorded root dir demand
    if d.on then some { d with demand := max d.demand note.demand, notes := note :: d.notes }
    else some { d with
      on := true, demand := note.demand, dir := note.dir, watchers := d.watchers ++ [⟨ctx, "", 0, .starting⟩]
      notes := [note], probes := [] }
  | .endContext ctx => some { d with ended := ctx :: d.ended }
  | .shutDown => some { d with shutdown := true }
  | .begin i =>
    match d.watchers[i]? with
    | some ⟨ctx, _, failures, .starting⟩ => some (d.set i ⟨ctx, d.dir, failures, .sleeping⟩)
    | _ => none
  | .notice i =>
    match d.watchers[i]? with
    | some ⟨ctx, dir, failures, .sleeping⟩ => if ctx ∈ d.ended then some (d.set i ⟨ctx, dir, failures, .cancelled⟩) else none
    | _ => none
  | .poll i =>
    match d.watchers[i]? with
    | some ⟨ctx, dir, failures, .sleeping⟩ => some (d.set i ⟨ctx, dir, failures, .polled d.demand⟩)
    | _ => none
  | .statfs i result =>
    match d.watchers[i]? with
    | some ⟨ctx, dir, failures, .polled demand⟩ =>
      match result with
      | .unsupported => some (d.set i ⟨ctx, dir, failures, .probing demand⟩)
      | .error => some (d.set i (unproven limit ⟨ctx, dir, failures, .polled demand⟩))
      | .free bytes =>
        if bytes < demand then some (d.set i (unproven limit ⟨ctx, dir, failures, .polled demand⟩))
        else some (d.set i ⟨ctx, dir, failures, .probing demand⟩)
    | _ => none
  | .probe i succeeds =>
    match d.watchers[i]? with
    | some ⟨ctx, dir, failures, .probing demand⟩ =>
      if succeeds then
        some { d.set i ⟨ctx, dir, failures, .proven demand⟩ with probes := ⟨dir, max demand probeMinBytes⟩ :: d.probes }
      else some (d.set i (unproven limit ⟨ctx, dir, failures + 1, .probing demand⟩))
    | _ => none
  | .endEpisode i =>
    match d.watchers[i]? with
    | some w =>
      if w.phase.ends then
        some { d with
          on := false, watchers := d.watchers.eraseIdx i
          lifts := ⟨d.notes, d.probes, w.failures, d.shutdown⟩ :: d.lifts }
      else none
    | none => none

end

def initial : Pausing := ⟨false, 0, "", [], [], false, [], [], []⟩

/-- In every directory that failed a probe has succeeded with every demand; or the probes have reached the bound; or
the run ends. -/
def Justified (limit : Int) (l : Lift) : Prop :=
  (∀ n ∈ l.notes, ∃ p ∈ l.probes, p.dir = n.dir ∧ ∀ n' ∈ l.notes, n'.demand ≤ p.size) ∨ probeGiveUp limit ≤ l.failures ∨
    l.shutdown = true
deriving Decidable

/-- A failure during an episode is in its directory and does not raise a demand that the watcher has read, and the
context of a watcher lives as long as the run. -/
def Steady (root : String) (d : Pausing) : Event → Prop
  | .noteIOErrorAt dir demand ctx =>
    if d.on then (recorded root dir demand).dir = d.dir ∧ ∀ w ∈ d.watchers, ∀ x ∈ w.phase.read,
      (recorded root dir demand).demand ≤ x
    else ctx ∈ d.ended → d.shutdown = true
  | .endContext ctx => ∀ w ∈ d.watchers, w.ctx = ctx → d.shutdown = true
  | _ => True

instance : Decidable (Steady root d e) := by
  unfold Steady
  split <;> infer_instance

structure Watch (limit : Int) (d : Pausing) (w : Watcher) : Prop where
  place : w.phase ≠ .starting → w.dir = d.dir
  notes : ∀ n ∈ d.notes, n.dir = d.dir ∧ n.demand ≤ d.demand
  read : ∀ x ∈ w.phase.read, ∀ n ∈ d.notes, n.demand ≤ x
  proven : ∀ x, w.phase = .proven x → ∃ p ∈ d.probes, p.dir = d.dir ∧ x ≤ p.size
  exhausted : w.phase = .exhausted → probeGiveUp limit ≤ w.failures
  alive : w.ctx ∈ d.ended → d.shutdown = true
  cancelled : w.phase = .cancelled → d.shutdown = true

/-- An episode has one watcher, and there is none between the episodes. -/
inductive Attended (limit : Int) (d : Pausing) : Prop where
  | off (paused : d.on = false) (none : d.watchers = [])
  | on (w : Watcher) (paused : d.on = true) (one : d.watchers = [w]) (watch : Watch limit d w)

section
variable {d d' : Pausing} {root : String} {limit : Int} {w w' : Watcher}

theorem Attended.found (attended : Attended limit d) (found : d.watchers[i]? = some w) :
    d.on = true ∧ d.watchers = [w] ∧ i = 0 ∧ Watch limit d w := by
  cases attended with
  | off _ none => simp [none] at found
  | on w paused one watch =>
    rw [one, List.getElem?_singleton] at found
    split at found <;> cases found
    exact ⟨paused, one, ‹_›, watch⟩

theorem Attended.move (attended : Attended limit d) (found : d.watchers[i]? = some w)
    (watch : Watch limit d w → Watch limit (d.set i w') w') :
    Attended limit (d.set i w') := by
  obtain ⟨paused, one, rfl, before⟩ := attended.found found
  exact .on w' paused (by rw [set, one]; rfl) (watch before)

theorem Watch.unproven (watch : Watch limit d w) (began : w.phase ≠ .starting) :
    Watch limit (d.set i (unproven limit w)) (Pausing.unproven limit w) := by
  by_cases gives : probeGiveUp limit ≤ w.failures
  · have phase : (Pausing.unproven limit w).phase = .exhausted := if_pos gives
    refine ⟨fun _ => watch.place began, watch.notes, ?_, ?_, fun _ => gives, watch.alive, ?_⟩ <;> rw [phase] <;> exact nofun
  · have phase : (Pausing.unproven limit w).phase = .sleeping := if_neg gives
    refine ⟨fun _ => watch.place began, watch.notes, ?_, ?_, ?_, watch.alive, ?_⟩ <;> rw [phase] <;> exact nofun

theorem Watch.failed {dir : String} {demand : Int} (watch : Watch limit d ⟨ctx, dir, failures, .probing demand⟩) :
    Watch limit d ⟨ctx, dir, failures + 1, .probing demand⟩ :=
  ⟨fun _ => watch.place nofun, watch.notes, watch.read, nofun, nofun, watch.alive, nofun⟩

theorem Attended.note {dir : String} {demand : Int} (attended : Attended limit d)
    (steady : Steady root d (.noteIOErrorAt dir demand ctx))
    (stepped : next root limit d (.noteIOErrorAt dir demand ctx) = some d') : Attended limit d' := by
  simp only [next] at stepped
  cases attended with
  | off paused none =>
    simp only [paused, Bool.false_eq_true, if_false] at stepped
    cases stepped
    simp only [Steady, paused, Bool.false_eq_true, if_false] at steady
    refine .on ⟨ctx, "", 0, .starting⟩ rfl (by rw [none]; rfl) ⟨nofun, ?_, nofun, nofun, nofun, steady, nofun⟩
    intro n member
    rw [List.mem_singleton.mp member]
    exact ⟨rfl, le_rfl⟩
  | on w paused one watch =>
    simp only [paused, if_true] at stepped
    cases stepped
    simp only [Steady, paused, if_true] at steady
    refine .on w rfl one ⟨watch.place, ?_, ?_, watch.proven, watch.exhausted, watch.alive, watch.cancelled⟩
    · intro n member
      rcases List.mem_cons.mp member with rfl | before
      · exact ⟨steady.1, le_max_right ..⟩
      · exact ⟨(watch.notes n before).1, (watch.notes n before).2.trans (le_max_left ..)⟩
    · intro x told n member
      rcases List.mem_cons.mp member with rfl | before
      · exact steady.2 w (one ▸ List.mem_singleton_self w) x told
      · exact watch.read x told n before

theorem Attended.statfs (attended : Attended limit d) (stepped : next root limit d (.statfs i result) = some d') :
    Attended limit d' := by
  simp only [next] at stepped
  split at stepped
  · rename_i ctx dir failures demand found
    have probing : Attended limit (d.set i ⟨ctx, dir, failures, .probing demand⟩) :=
      attended.move found fun watch => ⟨fun _ => watch.place nofun, watch.notes, watch.read, nofun, nofun, watch.alive, nofun⟩
    have sleeping : Attended limit (d.set i (unproven limit ⟨ctx, dir, failures, .polled demand⟩)) :=
      attended.move found fun watch => watch.unproven nofun
    split at stepped
    · cases stepped
      exact probing
    · cases stepped
      exact sleeping
    · split at stepped <;> cases stepped
      · exact sleeping
      · exact probing
  · cases stepped

theorem Attended.probe {succeeds : Bool} (attended : Attended limit d)
    (stepped : next root limit d (.probe i succeeds) = some d') :
    Attended limit d' := by
  simp only [next] at stepped
  split at stepped
  · rename_i ctx dir failures demand found
    obtain ⟨paused, one, rfl, watch⟩ := attended.found found
    split at stepped <;> cases stepped
    · refine .on ⟨ctx, dir, failures, .proven demand⟩ paused (by simp only [set, one]; rfl)
        ⟨fun _ => watch.place nofun, watch.notes, watch.read, ?_, nofun, watch.alive, nofun⟩
      rintro x ⟨⟩
      exact ⟨_, List.mem_cons_self .., watch.place nofun, le_max_left ..⟩
    · exact .on _ paused (by rw [set, one]; rfl) (watch.failed.unproven nofun)
  · cases stepped

theorem attended_next (attended : Attended limit d) (steady : Steady root d e) (stepped : next root limit d e = some d') :
    Attended limit d' := by
  cases e with
  | noteIOErrorAt dir demand ctx => exact attended.note steady stepped
  | endContext ctx =>
    cases stepped
    cases attended with
    | off paused none => exact .off paused none
    | on w paused one watch =>
      refine .on w paused one { watch with alive := fun ended => ?_ }
      rcases List.mem_cons.mp ended with same | before
      · exact steady w (one ▸ List.mem_singleton_self w) same
      · exact watch.alive before
  | shutDown =>
    cases stepped
    cases attended with
    | off paused none => exact .off paused none
    | on w paused one watch => exact .on w paused one { watch with alive := fun _ => rfl, cancelled := fun _ => rfl }
  | begin i =>
    simp only [next] at stepped
    split at stepped <;> cases stepped
    rename_i found
    exact attended.move found fun watch => ⟨fun _ => rfl, watch.notes, nofun, nofun, nofun, watch.alive, nofun⟩
  | notice i =>
    simp only [next] at stepped
    split at stepped
    · split at stepped <;> cases stepped
      rename_i found ended
      exact attended.move found fun watch =>
        ⟨fun _ => watch.place nofun, watch.notes, nofun, nofun, nofun, watch.alive, fun _ => watch.alive ended⟩
    · cases stepped
  | poll i =>
    simp only [next] at stepped
    split at stepped <;> cases stepped
    rename_i found
    refine attended.move found fun watch => ⟨fun _ => watch.place nofun, watch.notes, ?_, nofun, nofun, watch.alive, nofun⟩
    rintro x ⟨⟩ n member
    exact (watch.notes n member).2
  | statfs i result => exact attended.statfs stepped
  | probe i succeeds => exact attended.probe stepped
  | endEpisode i =>
    simp only [next] at stepped
    split at stepped
    · rename_i w found
      split at stepped <;> cases stepped
      obtain ⟨-, one, rfl, -⟩ := attended.found found
      exact .off rfl (by rw [one]; rfl)
    · cases stepped

/-- The end of an episode is justified by what its watcher knows. -/
theorem Watch.justified (watch : Watch limit d w) (ends : w.phase.ends = true) :
    Justified limit ⟨d.notes, d.probes, w.failures, d.shutdown⟩ := by
  cases phase : w.phase with
  | starting | sleeping | polled | probing => simp [phase, WatcherPhase.ends] at ends
  | exhausted => exact .inr (.inl (watch.exhausted phase))
  | cancelled => exact .inr (.inr (watch.cancelled phase))
  | proven x =>
    obtain ⟨p, member, place, size⟩ := watch.proven x phase
    refine .inl fun n noted => ⟨p, member, place.trans (watch.notes n noted).1.symm, fun n' noted' => ?_⟩
    exact (watch.read x (by rw [phase]; rfl) n' noted').trans size

theorem lifts_next (attended : Attended limit d) (justified : ∀ l ∈ d.lifts, Justified limit l)
    (stepped : next root limit d e = some d') :
    ∀ l ∈ d'.lifts, Justified limit l := by
  cases e with
  | endEpisode i =>
    simp only [next] at stepped
    split at stepped
    · split at stepped <;> cases stepped
      rename_i w found ends
      intro l member
      rcases List.mem_cons.mp member with rfl | before
      · exact (attended.found found).2.2.2.justified ends
      · exact justified l before
    · cases stepped
  | noteIOErrorAt | endContext | shutDown | begin | notice | poll | statfs | probe =>
    simp only [next] at stepped
    repeat' split at stepped
    all_goals cases stepped
    all_goals exact justified

/-- A pause is lifted on proof, at the bound of the probes or at the end of the run, and never by a second watcher. -/
theorem pause_lifted (ran : run (next root limit) initial es = some d)
    (steady : Meets (next root limit) (Steady root) initial es) :
    d.watchers.length ≤ 1 ∧ (d.watchers ≠ [] ↔ d.on = true) ∧ ∀ l ∈ d.lifts, Justified limit l := by
  have start : Attended limit initial ∧ ∀ l ∈ initial.lifts, Justified limit l := ⟨.off rfl rfl, by simp [initial]⟩
  obtain ⟨attended, justified⟩ := invariant_meeting (I := fun d => Attended limit d ∧ ∀ l ∈ d.lifts, Justified limit l)
    (fun held cond stepped => ⟨attended_next held.1 cond stepped, lifts_next held.1 held.2 stepped⟩) start ran steady
  cases attended with
  | off paused none => exact ⟨by simp [none], by simp [paused, none], justified⟩
  | on w paused one _ => exact ⟨by simp [one], by simp [paused, one], justified⟩

end

/-- The first episode ends with the context of its caller, the second without a probe in its other directory, and the
third with a probe that is smaller than the demand recorded meanwhile. -/
def liftedEarly : List Event :=
  [.noteIOErrorAt "" 0 1, .begin 0, .endContext 1, .notice 0, .endEpisode 0,
    .noteIOErrorAt "models" 0 2, .begin 0, .noteIOErrorAt "cache" 0 3, .poll 0, .statfs 0 .unsupported, .probe 0 true,
      .endEpisode 0,
    .noteIOErrorAt "models" 0 2, .begin 0, .poll 0, .statfs 0 .unsupported, .probe 0 true, .noteIOErrorAt "models"
      (2 ^ 40) 3, .endEpisode 0]

theorem pause_lifted_early : ∃ d, run (next "cache" 0) initial liftedEarly = some d ∧ d.lifts.length = 3 ∧
    ∀ l ∈ d.lifts, ¬ Justified 0 l :=
  ⟨_, rfl, by decide, by decide⟩

/-- A demand is raised before the watcher reads it, and the probe covers it. -/
def liftedProven : List Event :=
  [.noteIOErrorAt "" 0 1, .begin 0, .noteIOErrorAt "cache" (2 ^ 30) 2, .endContext 2, .poll 0, .statfs 0 (.free (2 ^ 31)),
    .probe 0 false,
    .poll 0, .statfs 0 (.free (2 ^ 31)), .probe 0 true, .endEpisode 0]

theorem pause_lifted_proven : ∃ d, run (next "cache" 0) initial liftedProven = some d ∧
    (∃ l ∈ d.lifts, l.failures = 1 ∧ l.shutdown = false) ∧ ∀ l ∈ d.lifts, Justified 0 l := by
  obtain ⟨d, ran, found⟩ : ∃ d, run (next "cache" 0) initial liftedProven = some d ∧ ∃ l ∈ d.lifts, l.failures = 1 ∧
    l.shutdown = false :=
    ⟨_, rfl, by decide⟩
  exact ⟨d, ran, found, (pause_lifted ran (by decide)).2.2⟩

end Pausing
end Hfdl
