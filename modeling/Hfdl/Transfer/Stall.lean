import Hfdl.Transition
import Hfdl.Relational.Table
import Mathlib.Algebra.GroupWithZero.Nat
import Mathlib.Order.Basic
import Mathlib.Data.Int.Order.Basic

/-! The stall monitor of a file. A sweep closes every window that has elapsed and then judges the connections it belongs
to, by three layers of the stall policy. A sweep is one step at the instant it reads the counters: it runs under the
lock of the monitor, and a byte that arrives meanwhile counts after it. -/
namespace Hfdl
open Relational

def hardStallFactor : Nat := 10

inductive StallReason where
  | none
  | idle
  | hardCeiling
  | softFloor
deriving DecidableEq

abbrev ConnId := Nat

structure ConnTrack where
  id : ConnId
  windowStart : Int
  lastFloor : Int
  sinceFloorBytes : Nat
  above : Bool
  killed : Bool
  reason : StallReason
  windowBytes : Nat
deriving DecidableEq

structure StallMonitor where
  window : Int
  floor : Int
  armed : Bool
  conns : Table ConnTrack (·.id)
  /-- A ticker refuses any other interval. -/
  positive : 0 < window

namespace StallMonitor

def connStart (m : StallMonitor) (id : ConnId) (now : Int) : StallMonitor :=
  { m with conns := m.conns.insert ⟨id, now, now, 0, false, false, .none, 0⟩ }

def connEnd (m : StallMonitor) (id : ConnId) : StallMonitor := { m with conns := m.conns.delete (·.id = id) }

def addBytes (m : StallMonitor) (id : ConnId) (n : Nat) : StallMonitor :=
  { m with conns := m.conns.update (·.id = id) ⟨fun c => { c with windowBytes := c.windowBytes + n }, fun _ => rfl⟩ }

def Due (m : StallMonitor) (now : Int) (c : ConnTrack) : Prop := c.killed = false ∧ m.window ≤ now - c.windowStart
deriving Decidable

def FloorMet (m : StallMonitor) (bytes : Nat) : Prop := m.floor ≤ 0 ∨ m.floor ≤ bytes
deriving Decidable

def roll (m : StallMonitor) (now : Int) (c : ConnTrack) : ConnTrack :=
  if m.FloorMet c.windowBytes then
    { c with windowBytes := 0, windowStart := c.windowStart + m.window, lastFloor := now, sinceFloorBytes := 0, above := true }
  else
    { c with
      windowBytes := 0
      windowStart := c.windowStart + m.window
      sinceFloorBytes := c.sinceFloorBytes + c.windowBytes
      above := false }

theorem roll_id (m : StallMonitor) (now : Int) (c : ConnTrack) : (m.roll now c).id = c.id := by
  rw [roll]
  split <;> rfl

def rolled (m : StallMonitor) (now : Int) : StallMonitor :=
  { m with
    conns := m.conns.update (m.Due now) ⟨m.roll now, m.roll_id now⟩
    armed := m.armed || decide (∃ c ∈ m.conns, m.Due now c ∧ m.FloorMet c.windowBytes) }

def anyAboveFloor (m : StallMonitor) : Prop := ∃ c ∈ m.conns, c.killed = false ∧ c.above = true
deriving Decidable

def kill (c : ConnTrack) (reason : StallReason) : ConnTrack := { c with killed := true, reason }

/-- True no-progress since the last window that met the floor. -/
def Hung (m : StallMonitor) (now : Int) (c : ConnTrack) : Prop :=
  hardStallFactor * m.window ≤ now - c.lastFloor ∧ (c.sinceFloorBytes : Int) < m.floor
deriving Decidable

/-- The kill layers, on a connection whose closed window had so many bytes; the gate answers at most once. -/
def judge (m : StallMonitor) (now : Int) (bytes : Nat) (granted : Bool) (c : ConnTrack) : ConnTrack :=
  if c.killed then c
  else if bytes = 0 then kill c .idle
  else if m.Hung now c then if granted then kill c .hardCeiling else c
  else if m.armed = true ∧ ¬ m.FloorMet bytes ∧ m.anyAboveFloor ∧ granted = true then kill c .softFloor
  else c

theorem judge_id (m : StallMonitor) (now : Int) (bytes : Nat) (granted : Bool) (c : ConnTrack) :
    (m.judge now bytes granted c).id = c.id := by
  rw [judge]
  split
  · rfl
  split
  · rfl
  split
  · split <;> rfl
  split <;> rfl

def evaluate (m : StallMonitor) (now : Int) (granted : List ConnId) (c : ConnTrack) : ConnTrack :=
  (m.rolled now).judge now c.windowBytes (decide (c.id ∈ granted)) (m.roll now c)

/-- The verdicts of all connections come before the first kill; the gate grants the kills of the listed connections. -/
def sweep (m : StallMonitor) (now : Int) (granted : List ConnId) : StallMonitor :=
  { m.rolled now with
    conns := m.conns.update (m.Due now) ⟨m.evaluate now granted, fun c => (judge_id ..).trans (m.roll_id now c)⟩ }

end StallMonitor

/-- A window that a sweep has closed: when the sweep ran, and the bytes it found. -/
structure ClosedWindow where
  time : Int
  bytes : Nat
deriving DecidableEq

/-- The monitor, the time, when bytes arrived on each connection and which of its windows are closed, newest first. -/
structure Stalling where
  mon : StallMonitor
  clock : Int
  arrivals : ConnId → List Int
  closed : ConnId → List ClosedWindow

namespace Stalling

/-- The clock is read before the lock is taken, so a step can run later than the time it works with. -/
inductive Event where
  | connStart (id : ConnId) (now time : Int)
  | connEnd (id : ConnId) (time : Int)
  | addBytes (id : ConnId) (n : Nat) (time : Int)
  | sweep (now time : Int) (granted : List ConnId)

def Event.time : Event → Int
  | .connStart _ _ time | .connEnd _ time | .addBytes _ _ time | .sweep _ time _ => time

def start (window floor clock : Int) (positive : 0 < window) : Stalling :=
  ⟨⟨window, floor, false, .empty, positive⟩, clock, fun _ => [], fun _ => []⟩

def close (d : Stalling) (now time : Int) (id : ConnId) : List ClosedWindow :=
  match d.mon.conns.get id with
  | some c => if d.mon.Due now c then ⟨time, c.windowBytes⟩ :: d.closed id else d.closed id
  | none => d.closed id

def next (d : Stalling) (e : Event) : Option Stalling :=
  if e.time < d.clock then none
  else match e with
    | .connStart id now time =>
      if now ≤ time ∧ ∀ c ∈ d.mon.conns, c.id ≠ id then
        some ⟨d.mon.connStart id now, time, Function.update d.arrivals id [], Function.update d.closed id []⟩
      else none
    | .connEnd id time => some { d with mon := d.mon.connEnd id, clock := time }
    | .addBytes id n time =>
      some ⟨d.mon.addBytes id n, time,
        if 0 < n then Function.update d.arrivals id (time :: d.arrivals id) else d.arrivals, d.closed⟩
    | .sweep now time granted =>
      if now ≤ time then some ⟨d.mon.sweep now granted, time, d.arrivals, d.close now time⟩ else none

/-- Where a connection of the next state comes from. -/
inductive Origin (d : Stalling) : Event → Stalling → ConnTrack → Prop where
  | started (fresh : c.windowBytes = 0 ∧ c.killed = false ∧ c.sinceFloorBytes = 0 ∧ c.lastFloor = c.windowStart)
      (unseen : d'.arrivals c.id = [] ∧ d'.closed c.id = []) : Origin d e d' c
  | kept (stored : c ∈ d.mon.conns) (arrivals : d'.arrivals c.id = d.arrivals c.id) (closed : d'.closed c.id = d.closed c.id) :
      Origin d e d' c
  | counted (stored : c ∈ d.mon.conns) (arrivals : 0 < n ∨ d'.arrivals c.id = d.arrivals c.id)
      (known : ∀ s ∈ d'.arrivals c.id, s = d'.clock ∨ s ∈ d.arrivals c.id) (closed : d'.closed c.id = d.closed c.id) :
      Origin d e d' { c with windowBytes := c.windowBytes + n }
  | swept (stored : c ∈ d.mon.conns) (due : d.mon.Due now c) (arrivals : d'.arrivals c.id = d.arrivals c.id)
      (closed : d'.closed c.id = ⟨time, c.windowBytes⟩ :: d.closed c.id) (clock : d'.clock = time) :
      Origin d (.sweep now time granted) d' (d.mon.evaluate now granted c)

section
variable {d d' : Stalling} {c c' : ConnTrack}

theorem clock_next (stepped : next d e = some d') : d.clock ≤ d'.clock ∧ d'.clock = e.time := by
  simp only [next] at stepped
  split at stepped
  · cases stepped
  rename_i ordered
  have later : d.clock ≤ e.time := not_lt.mp ordered
  cases e with
  | connStart id now time =>
    simp only at stepped
    split at stepped <;> cases stepped
    exact ⟨later, rfl⟩
  | connEnd id time =>
    cases stepped
    exact ⟨later, rfl⟩
  | addBytes id n time =>
    cases stepped
    exact ⟨later, rfl⟩
  | sweep now time granted =>
    simp only at stepped
    split at stepped <;> cases stepped
    exact ⟨later, rfl⟩

theorem config_next (stepped : next d e = some d') : d'.mon.window = d.mon.window ∧ d'.mon.floor = d.mon.floor := by
  simp only [next] at stepped
  split at stepped
  · cases stepped
  cases e with
  | connStart | sweep =>
    simp only at stepped
    split at stepped <;> cases stepped
    exact ⟨rfl, rfl⟩
  | connEnd | addBytes =>
    cases stepped
    exact ⟨rfl, rfl⟩

theorem close_of_mem (stored : c ∈ d.mon.conns) :
    d.close now time c.id = if d.mon.Due now c then ⟨time, c.windowBytes⟩ :: d.closed c.id else d.closed c.id := by
  have found : d.mon.conns.get c.id = some c := Table.get_eq_some.mpr ⟨stored, rfl⟩
  rw [close, found]

/-- The one account of what a step does to the connections. -/
theorem origin_next (stepped : next d e = some d') (stored : c' ∈ d'.mon.conns) : Origin d e d' c' := by
  simp only [next] at stepped
  split at stepped
  · cases stepped
  cases e with
  | connStart id now time =>
    simp only at stepped
    split at stepped <;> cases stepped
    rename_i guard
    rcases Table.mem_insert.mp stored with old | ⟨rfl, -⟩
    · have other : c'.id ≠ id := guard.2 c' old
      exact .kept old (Function.update_of_ne other ..) (Function.update_of_ne other ..)
    · exact .started ⟨rfl, rfl, rfl, rfl⟩ ⟨Function.update_self .., Function.update_self ..⟩
  | connEnd id time =>
    cases stepped
    exact .kept (Table.mem_delete.mp stored).1 rfl rfl
  | addBytes id n time =>
    cases stepped
    obtain ⟨c, old, rfl⟩ := Table.mem_update.mp stored
    by_cases here : c.id = id
    · rw [if_pos here]
      subst here
      apply Origin.counted old
      · by_cases some_bytes : 0 < n
        · exact .inl some_bytes
        · right
          simp only [if_neg some_bytes]
      · intro s member
        split at member
        · simp only [Function.update_self] at member
          exact List.mem_cons.mp member
        · exact .inr member
      · rfl
    · rw [if_neg here]
      apply Origin.kept old
      · split
        · exact Function.update_of_ne here ..
        · rfl
      · rfl
  | sweep now time granted =>
    simp only at stepped
    split at stepped <;> cases stepped
    obtain ⟨c, old, rfl⟩ := Table.mem_update.mp stored
    by_cases due : d.mon.Due now c
    · rw [if_pos due]
      exact .swept old due rfl ((close_of_mem old).trans (if_pos due)) rfl
    · rw [if_neg due]
      exact .kept old rfl ((close_of_mem old).trans (if_neg due))

theorem evaluate_id : (d.mon.evaluate now granted c).id = c.id := (StallMonitor.judge_id ..).trans (StallMonitor.roll_id ..)

theorem swept_of_killed (stepped : next d e = some d') (stored : c ∈ d.mon.conns) (alive : c.killed = false)
    (stored' : c' ∈ d'.mon.conns) (same : c'.id = c.id) (killed : c'.killed = true) :
    ∃ now time granted, e = .sweep now time granted ∧ d.mon.Due now c ∧ c' = d.mon.evaluate now granted c := by
  cases origin_next stepped stored' with
  | started fresh => cases fresh.2.1.symm.trans killed
  | kept old =>
    obtain rfl := Table.eq_of_key old stored same
    cases alive.symm.trans killed
  | counted old =>
    obtain rfl := Table.eq_of_key old stored same
    cases alive.symm.trans killed
  | swept old due =>
    obtain rfl := Table.eq_of_key old stored (evaluate_id.symm.trans same)
    exact ⟨_, _, _, rfl, due, rfl⟩

theorem killed_roll (m : StallMonitor) : (m.roll now c).killed = c.killed := by
  rw [StallMonitor.roll]
  split <;> rfl

/-- What each kill layer has found. -/
theorem layer_of_killed {m : StallMonitor} {granted : Bool} (alive : c.killed = false)
    (killed : (m.judge now bytes granted c).killed = true) :
    match (m.judge now bytes granted c).reason with
    | .idle => bytes = 0
    | .hardCeiling => m.Hung now c
    | .softFloor => ¬ m.FloorMet bytes ∧ m.anyAboveFloor
    | .none => False := by
  simp only [StallMonitor.judge, alive] at killed ⊢
  by_cases idle : bytes = 0
  · simp [idle, StallMonitor.kill]
  by_cases hung : m.Hung now c
  · cases granted with
    | true => simp [idle, hung, StallMonitor.kill]
    | false => simp [idle, hung, alive] at killed
  by_cases soft : m.armed = true ∧ ¬ m.FloorMet bytes ∧ m.anyAboveFloor ∧ granted = true
  · simp only [Bool.false_eq_true, if_false, if_neg idle, if_neg hung, if_pos soft]
    exact ⟨soft.2.1, soft.2.2.1⟩
  · simp only [Bool.false_eq_true, if_false, if_neg idle, if_neg hung, if_neg soft] at killed
    cases alive.symm.trans killed

/-- Bytes that are no longer counted arrived before the last sweep that closed a window. -/
structure Inv (d : Stalling) : Prop where
  past : ∀ c ∈ d.mon.conns, ∀ s ∈ d.arrivals c.id, s ≤ d.clock
  counted : ∀ c ∈ d.mon.conns, c.windowBytes = 0 → ∀ s ∈ d.arrivals c.id, ∃ w ∈ (d.closed c.id).head?, s ≤ w.time

theorem inv_start (positive : 0 < window) : Inv (start window floor t₀ positive) := by
  constructor
  · intro c stored
    exact absurd stored (Table.not_mem_empty c)
  · intro c stored
    exact absurd stored (Table.not_mem_empty c)

theorem inv_next (inv : Inv d) (stepped : next d e = some d') : Inv d' := by
  have later := (clock_next stepped).1
  constructor
  · intro c' stored s member
    cases origin_next stepped stored with
    | started _ unseen =>
      rw [unseen.1] at member
      cases member
    | kept old arrivals =>
      rw [arrivals] at member
      exact (inv.past _ old s member).trans later
    | counted old _ known =>
      rcases known s member with rfl | member
      · exact le_rfl
      · exact (inv.past _ old s member).trans later
    | swept old _ arrivals =>
      rw [evaluate_id, arrivals] at member
      exact (inv.past _ old s member).trans later
  · intro c' stored empty s member
    cases origin_next stepped stored with
    | started _ unseen =>
      rw [unseen.1] at member
      cases member
    | kept old arrivals closed =>
      rw [arrivals] at member
      rw [closed]
      exact inv.counted _ old empty s member
    | counted old arrivals _ closed =>
      obtain ⟨empty, rfl⟩ := Nat.add_eq_zero_iff.mp empty
      rw [arrivals.resolve_left (Nat.lt_irrefl 0)] at member
      rw [closed]
      exact inv.counted _ old empty s member
    | swept old _ arrivals closed clock =>
      rw [evaluate_id, arrivals] at member
      rw [evaluate_id, closed]
      exact ⟨_, rfl, (inv.past _ old s member).trans (clock ▸ later)⟩

/-- The sweep comes a whole window after the sweep that closed the last window of each connection it finds due. -/
def Spaced (d : Stalling) : Event → Prop
  | .sweep now time _ => ∀ c ∈ d.mon.conns, d.mon.Due now c → ∀ w ∈ (d.closed c.id).head?, w.time + d.mon.window ≤ time
  | .connStart .. | .connEnd .. | .addBytes .. => True

/-- In any state of any run, a sweep that keeps its distance kills a connection as idle only if no byte has arrived on
it during the window before. -/
theorem idle_kill_quiet (positive : 0 < window) (ran : Transition.run next (start window floor t₀ positive) events = some d)
    (spaced : d.Spaced e) (stepped : next d e = some d') (stored : c ∈ d.mon.conns) (alive : c.killed = false)
    (stored' : c' ∈ d'.mon.conns) (same : c'.id = c.id) (killed : c'.killed = true) (idle : c'.reason = .idle) :
    ∀ s ∈ d.arrivals c.id, s ≤ d'.clock - d.mon.window := by
  have inv : Inv d := Transition.invariant inv_next (inv_start positive) ran
  obtain ⟨now, time, granted, rfl, due, rfl⟩ := swept_of_killed stepped stored alive stored' same killed
  have layer := layer_of_killed ((killed_roll d.mon).trans alive) killed
  rw [show (StallMonitor.judge _ _ _ _ _).reason = .idle from idle] at layer
  intro s member
  obtain ⟨w, last, before⟩ := inv.counted c stored layer s member
  have distance := spaced c stored due w last
  have clock : d'.clock = time := (clock_next stepped).2
  omega

/-- A byte before a sweep that is five late; its window is the one before last. -/
def bunched : List Event := [.connStart 0 0 0, .addBytes 0 5 24, .sweep 25 25 []]

/-- A second sweep at the same time finds the next window elapsed too, and no byte in it. -/
theorem late_sweeps_kill_busy :
    ∃ d d' c c', Transition.run next (start 10 100 0 (by decide)) bunched = some d ∧ next d (.sweep 25 25 []) = some d' ∧
      (c ∈ d.mon.conns ∧ c.killed = false) ∧ (c' ∈ d'.mon.conns ∧ c'.id = c.id ∧ c'.killed = true ∧ c'.reason = .idle) ∧
      ∃ s ∈ d.arrivals c.id, d'.clock - d.mon.window < s := by
  refine ⟨_, _, _, _, rfl, rfl, ⟨.head _, rfl⟩, ⟨.head _, rfl, rfl, rfl⟩, 24, .head _, ?_⟩
  decide

/-- The connection falls silent after its first window. -/
def silent : List Event := [.connStart 0 0 0, .addBytes 0 5 4, .sweep 10 10 []]

theorem idle_kill_quiet_silent :
    ∃ d d' c c', Transition.run next (start 10 100 0 (by decide)) silent = some d ∧ next d (.sweep 20 21 []) = some d' ∧
      (c ∈ d.mon.conns ∧ c.killed = false) ∧ (c' ∈ d'.mon.conns ∧ c'.id = c.id ∧ c'.killed = true ∧ c'.reason = .idle) ∧
      ∀ s ∈ d.arrivals c.id, s ≤ d'.clock - d.mon.window := by
  have meets : ∃ d d' c c', Transition.run next (start 10 100 0 (by decide)) silent = some d ∧ d.Spaced (.sweep 20 21 []) ∧
      next d (.sweep 20 21 []) = some d' ∧ (c ∈ d.mon.conns ∧ c.killed = false) ∧
      (c' ∈ d'.mon.conns ∧ c'.id = c.id ∧ c'.killed = true ∧ c'.reason = .idle) := by
    refine ⟨_, _, _, _, rfl, ?_, rfl, ⟨.head _, rfl⟩, ⟨.head _, rfl, rfl, rfl⟩⟩
    intro c stored _ w last
    cases List.mem_singleton.mp stored
    cases last
    decide
  obtain ⟨d, d', c, c', ran, spaced, stepped, ⟨stored, alive⟩, stored', same, killed, idle⟩ := meets
  exact ⟨d, d', c, c', ran, stepped, ⟨stored, alive⟩, ⟨stored', same, killed, idle⟩,
    idle_kill_quiet (by decide) ran spaced stepped stored alive stored' same killed idle⟩

/-- Every live connection whose last verdict was above the floor is due in the sweep. -/
def Refreshed (d : Stalling) : Event → Prop
  | .sweep now _ _ => ∀ p ∈ d.mon.conns, p.killed = false → p.above = true → d.mon.Due now p
  | .connStart .. | .connEnd .. | .addBytes .. => True

theorem above_of_rolled {m : StallMonitor} (fresh : ∀ p ∈ m.conns, p.killed = false → p.above = true → m.Due now p)
    (above : (m.rolled now).anyAboveFloor) : ∃ p ∈ m.conns, m.Due now p ∧ m.FloorMet p.windowBytes := by
  obtain ⟨p', stored', alive, high⟩ := above
  obtain ⟨p, stored, rfl⟩ := Table.mem_update.mp stored'
  by_cases due : m.Due now p
  · apply Exists.intro p
    rw [if_pos due] at high
    simp only [StallMonitor.roll] at high
    split at high
    · exact ⟨stored, due, ‹_›⟩
    · cases high
  · rw [if_neg due] at alive high
    exact absurd (fresh p stored alive high) due

/-- A soft kill in a sweep that refreshes the verdicts above the floor rests on a verdict of that sweep. -/
theorem soft_kill_fresh (fresh : d.Refreshed e) (stepped : next d e = some d') (stored : c ∈ d.mon.conns)
    (alive : c.killed = false) (stored' : c' ∈ d'.mon.conns) (same : c'.id = c.id) (killed : c'.killed = true)
    (soft : c'.reason = .softFloor) :
    ∃ now time granted, e = .sweep now time granted ∧
      ∃ p ∈ d.mon.conns, d.mon.Due now p ∧ d.mon.FloorMet p.windowBytes := by
  obtain ⟨now, time, granted, rfl, due, rfl⟩ := swept_of_killed stepped stored alive stored' same killed
  have layer := layer_of_killed ((killed_roll d.mon).trans alive) killed
  rw [show (StallMonitor.judge _ _ _ _ _).reason = .softFloor from soft] at layer
  exact ⟨now, time, granted, rfl, above_of_rolled fresh layer.2⟩

/-- The second connection starts half a window after the first. -/
def staggered : List Event := [.connStart 0 0 0, .addBytes 0 200 3, .connStart 1 5 5, .addBytes 1 1 6, .sweep 10 10 []]

/-- The verdict on the first connection is five old when it justifies the kill of the second. -/
theorem stale_verdict_kills :
    ∃ d d' c c', Transition.run next (start 10 100 0 (by decide)) staggered = some d ∧ next d (.sweep 15 15 [1]) = some d' ∧
      (c ∈ d.mon.conns ∧ c.killed = false) ∧ (c' ∈ d'.mon.conns ∧ c'.id = c.id ∧ c'.killed = true ∧ c'.reason = .softFloor) ∧
      ∀ p ∈ d.mon.conns, d.mon.Due 15 p → ¬ d.mon.FloorMet p.windowBytes := by
  refine ⟨_, _, _, _, rfl, rfl, ⟨.tail _ (.head _), rfl⟩, ⟨.tail _ (.head _), rfl, rfl, rfl⟩, ?_⟩
  decide

/-- Both connections start together, and the first stays above the floor. -/
def together : List Event :=
  [.connStart 0 0 0, .connStart 1 0 0, .addBytes 0 200 3, .addBytes 1 1 6, .sweep 10 10 [], .addBytes 0 200 13, .addBytes 1 1 16]

theorem soft_kill_fresh_together :
    ∃ d d' c c', Transition.run next (start 10 100 0 (by decide)) together = some d ∧ next d (.sweep 20 20 [1]) = some d' ∧
      (c ∈ d.mon.conns ∧ c.killed = false) ∧ (c' ∈ d'.mon.conns ∧ c'.id = c.id ∧ c'.reason = .softFloor) ∧
      ∃ now time granted, Event.sweep 20 20 [1] = .sweep now time granted ∧
        ∃ p ∈ d.mon.conns, d.mon.Due now p ∧ d.mon.FloorMet p.windowBytes := by
  have fresh : ∀ d, Transition.run next (start 10 100 0 (by decide)) together = some d → d.Refreshed (.sweep 20 20 [1]) := by
    rintro d ran
    cases ran
    simp only [Refreshed]
    decide
  refine ⟨_, _, _, _, rfl, rfl, ⟨.tail _ (.head _), rfl⟩, ⟨.tail _ (.head _), rfl, rfl⟩, ?_⟩
  exact soft_kill_fresh (fresh _ rfl) rfl (.tail _ (.head _)) rfl (.tail _ (.head _)) rfl rfl rfl

/-- The windows since the last one that met the floor. -/
def sinceFloor (floor : Int) (windows : List ClosedWindow) : List ClosedWindow :=
  windows.takeWhile fun w => ¬ (floor ≤ 0 ∨ floor ≤ w.bytes)

def total (windows : List ClosedWindow) : Nat := (windows.map (·.bytes)).sum

@[simp] theorem total_cons : total (w :: windows) = w.bytes + total windows := rfl

theorem sinceFloor_met (met : floor ≤ 0 ∨ floor ≤ w.bytes) : sinceFloor floor (w :: windows) = [] := by
  simp only [sinceFloor, List.takeWhile_cons, met, not_true, decide_false, Bool.false_eq_true, if_false]

theorem sinceFloor_missed (missed : ¬ (floor ≤ 0 ∨ floor ≤ w.bytes)) :
    sinceFloor floor (w :: windows) = w :: sinceFloor floor windows := by
  simp only [sinceFloor, List.takeWhile_cons, missed, not_false_iff, decide_true, if_true]

theorem length_sinceFloor (enough : n ≤ windows.length) (little : (total (windows.take n) : Int) < floor) :
    n ≤ (sinceFloor floor windows).length := by
  induction n generalizing windows with
  | zero => exact Nat.zero_le _
  | succ n ih =>
    cases windows with
    | nil => cases enough
    | cons w windows =>
      simp only [List.take_succ_cons, total_cons] at little
      rw [sinceFloor_missed (by omega)]
      apply Nat.succ_le_succ
      apply ih
      · exact Nat.le_of_succ_le_succ enough
      · omega

/-- The sweep comes at the end of each window that it closes. -/
def OnTime (d : Stalling) : Event → Prop
  | .sweep now _ _ => ∀ c ∈ d.mon.conns, c.killed = false → now - c.windowStart ≤ d.mon.window
  | .connStart .. | .connEnd .. | .addBytes .. => True

instance (d : Stalling) : DecidablePred d.OnTime := fun e => by
  unfold OnTime
  split <;> infer_instance

/-- The counters of a live connection measure the windows since the last one that met the floor. -/
def Paced (d : Stalling) : Prop :=
  ∀ c ∈ d.mon.conns, c.killed = false →
    c.sinceFloorBytes = total (sinceFloor d.mon.floor (d.closed c.id)) ∧
      c.lastFloor + d.mon.window * (sinceFloor d.mon.floor (d.closed c.id)).length = c.windowStart

theorem judge_of_alive {m : StallMonitor} {granted : Bool} (alive : (m.judge now bytes granted c).killed = false) :
    m.judge now bytes granted c = c := by
  simp only [StallMonitor.judge] at alive ⊢
  split at alive
  · rw [if_pos ‹_›]
  rw [if_neg ‹_›]
  split at alive
  · cases alive
  rw [if_neg ‹_›]
  split at alive
  · rw [if_pos ‹_›]
    split at alive
    · cases alive
    · rw [if_neg ‹_›]
  rw [if_neg ‹_›]
  split at alive
  · cases alive
  · rw [if_neg ‹_›]

theorem paced_roll (paced : Paced d) (onTime : d.OnTime (.sweep now time granted)) (stored : c ∈ d.mon.conns)
    (due : d.mon.Due now c) :
    (d.mon.roll now c).sinceFloorBytes = total (sinceFloor d.mon.floor (⟨time, c.windowBytes⟩ :: d.closed c.id)) ∧
      (d.mon.roll now c).lastFloor + d.mon.window * (sinceFloor d.mon.floor (⟨time, c.windowBytes⟩ :: d.closed c.id)).length =
        (d.mon.roll now c).windowStart := by
  obtain ⟨bytes, pace⟩ := paced c stored due.1
  have elapsed := due.2
  have prompt := onTime c stored due.1
  rw [StallMonitor.roll]
  split
  · rename_i met
    rw [sinceFloor_met (show d.mon.floor ≤ 0 ∨ d.mon.floor ≤ _ from met) (w := ⟨time, c.windowBytes⟩)]
    constructor
    · rfl
    · simp only [List.length_nil, Int.natCast_zero, Int.mul_zero]
      omega
  · rename_i missed
    rw [sinceFloor_missed (show ¬ (d.mon.floor ≤ 0 ∨ d.mon.floor ≤ _) from missed) (w := ⟨time, c.windowBytes⟩)]
    constructor
    · rw [total_cons, bytes, Nat.add_comm]
    · simp only [List.length_cons, Int.natCast_succ, Int.mul_add, Int.mul_one]
      omega

theorem paced_next (paced : Paced d) (onTime : d.OnTime e) (stepped : next d e = some d') : Paced d' := by
  obtain ⟨window_eq, floor_eq⟩ := config_next stepped
  intro c' stored alive
  rw [window_eq, floor_eq]
  cases origin_next stepped stored with
  | started fresh unseen =>
    rw [unseen.2, fresh.2.2.1, fresh.2.2.2]
    exact ⟨rfl, by simp [sinceFloor]⟩
  | kept old _ closed =>
    rw [closed]
    exact paced _ old alive
  | @counted c _ _ _ old _ _ closed =>
    rw [closed]
    exact paced c old alive
  | swept old due _ closed =>
    rw [evaluate_id, closed, StallMonitor.evaluate, judge_of_alive alive]
    exact paced_roll paced onTime old due

/-- In a run of sweeps on time, a sweep kills a connection whose last ten windows delivered less than the floor, if the
gate allows it and the windows before them back to the last one that met the floor do not make up for it. -/
theorem trickle_killed (positive : 0 < window) (ran : Transition.run next (start window floor t₀ positive) events = some d)
    (onTime : Transition.Meets next OnTime (start window floor t₀ positive) events)
    (prompt : d.OnTime (.sweep now time granted)) (stepped : next d (.sweep now time granted) = some d')
    (stored : c ∈ d.mon.conns) (due : d.mon.Due now c) (allowed : c.id ∈ granted)
    (ten : hardStallFactor ≤ (d'.closed c.id).length)
    (trickle : (total ((d'.closed c.id).take hardStallFactor) : Int) < d.mon.floor)
    (since : (total (sinceFloor d.mon.floor (d'.closed c.id)) : Int) < d.mon.floor) :
    ∃ c' ∈ d'.mon.conns, c'.id = c.id ∧ c'.killed = true := by
  have empty : Paced (start window floor t₀ positive) := fun c stored => absurd stored (Table.not_mem_empty c)
  have paced : Paced d := Transition.invariant_meeting paced_next empty ran onTime
  have closed : d'.closed c.id = ⟨time, c.windowBytes⟩ :: d.closed c.id ∧ d'.mon = d.mon.sweep now granted := by
    simp only [next] at stepped
    split at stepped
    · cases stepped
    split at stepped <;> cases stepped
    exact ⟨(close_of_mem stored).trans (if_pos due), rfl⟩
  rw [closed.1] at ten trickle since
  obtain ⟨bytes, pace⟩ := paced_roll paced prompt stored due
  have long := length_sinceFloor ten trickle
  have prompt := prompt c stored due.1
  have elapsed := due.2
  have moved : (d.mon.roll now c).windowStart = c.windowStart + d.mon.window := by
    rw [StallMonitor.roll]
    split <;> rfl
  have hung : (d.mon.rolled now).Hung now (d.mon.roll now c) := by
    constructor
    · have many := Int.mul_le_mul_of_nonneg_left (Int.ofNat_le.mpr long) d.mon.positive.le
      change hardStallFactor * d.mon.window ≤ _
      rw [Int.mul_comm]
      omega
    · rw [bytes]
      exact since
  refine ⟨d.mon.evaluate now granted c, ?_, evaluate_id, ?_⟩
  · rw [closed.2]
    exact Table.mem_update.mpr ⟨c, stored, (if_pos due).symm⟩
  · have alive : (d.mon.roll now c).killed = false := (killed_roll d.mon).trans due.1
    simp only [StallMonitor.evaluate, StallMonitor.judge, alive, Bool.false_eq_true, if_false, if_pos hung, allowed, decide_true,
      if_true]
    split <;> rfl

end

/-- A first window just below the floor, then a byte a window. -/
def burst : List Event :=
  .connStart 0 0 0 :: .addBytes 0 99 1 :: .sweep 10 10 [0] ::
    ((List.range 10).flatMap fun k : Nat => [.addBytes 0 1 (11 + 10 * k), .sweep (20 + 10 * k) (20 + 10 * k) [0]]) ++
      [.addBytes 0 1 111]

/-- The first window keeps the trickle alive. -/
theorem trickle_survives :
    ∃ d d' c, Transition.run next (start 10 100 0 (by decide)) burst = some d ∧
      Transition.Meets next OnTime (start 10 100 0 (by decide)) burst ∧ d.OnTime (.sweep 120 120 [0]) ∧
      next d (.sweep 120 120 [0]) = some d' ∧ (c ∈ d.mon.conns ∧ d.mon.Due 120 c ∧ c.id ∈ [0]) ∧
      hardStallFactor ≤ (d'.closed c.id).length ∧ (total ((d'.closed c.id).take hardStallFactor) : Int) < d.mon.floor ∧
      ∀ c' ∈ d'.mon.conns, c'.killed = false := by
  refine ⟨_, _, _, rfl, ?_, ?_, rfl, ⟨.head _, ?_, .head _⟩, ?_, ?_, ?_⟩ <;> decide

/-- A byte a window from the start. -/
def hung : List Event :=
  .connStart 0 0 0 ::
    ((List.range 9).flatMap fun k : Nat => [.addBytes 0 1 (1 + 10 * k), .sweep (10 + 10 * k) (10 + 10 * k) [0]]) ++
    [.addBytes 0 1 91]

theorem trickle_killed_hung :
    ∃ d d' c, Transition.run next (start 10 100 0 (by decide)) hung = some d ∧ next d (.sweep 100 100 [0]) = some d' ∧
      (c ∈ d.mon.conns ∧ c.killed = false) ∧ ∃ c' ∈ d'.mon.conns, c'.id = c.id ∧ c'.killed = true := by
  have meets : ∃ d d' c, Transition.run next (start 10 100 0 (by decide)) hung = some d ∧
      Transition.Meets next OnTime (start 10 100 0 (by decide)) hung ∧ d.OnTime (.sweep 100 100 [0]) ∧
      next d (.sweep 100 100 [0]) = some d' ∧ c ∈ d.mon.conns ∧ d.mon.Due 100 c ∧ c.id ∈ [0] ∧
      hardStallFactor ≤ (d'.closed c.id).length ∧ (total ((d'.closed c.id).take hardStallFactor) : Int) < d.mon.floor ∧
      (total (sinceFloor d.mon.floor (d'.closed c.id)) : Int) < d.mon.floor := by
    refine ⟨_, _, _, rfl, ?_, ?_, rfl, .head _, ?_, .head _, ?_, ?_, ?_⟩ <;> decide
  obtain ⟨d, d', c, ran, onTime, prompt, stepped, stored, due, allowed, ten, trickle, since⟩ := meets
  exact ⟨d, d', c, ran, stepped, ⟨stored, due.1⟩,
    trickle_killed (by decide) ran onTime prompt stepped stored due allowed ten trickle since⟩

end Stalling
end Hfdl
