import Hfdl.Transition
import Hfdl.Tune.Controller

/-! The process-wide gate of the throughput kills. A kill opens a window after which its effect on the download rate is
judged, and kills without effect are followed by holds of growing length. -/
namespace Hfdl
open Transition

def killVerifyWindow : Int := 30 * second

def killSuppressMin : Int := 30 * second

def killSuppressMax : Int := 300 * second

def killUtilCeiling : ℚ := 9 / 10

def killGain : ℚ := 1 / 20

structure KillGate where
  verifying : Bool
  verifyUntil : Int
  baseRate : ℚ
  suppressUntil : Int
  suppress : Int
deriving DecidableEq

namespace KillGate

def new : KillGate := ⟨false, 0, 0, 0, 0⟩

/-- What a call reads: the clock before it takes the lock, the rate that closes a verify window, the utilization, and
the rate that opens the next one. -/
structure Reading where
  now : Int
  closing : ℚ
  util : ℚ
  opening : ℚ

/-- The hold that follows the current one. -/
def nextSuppress (g : KillGate) : Int :=
  if g.suppress = 0 then killSuppressMin else min (g.suppress * 2) killSuppressMax

/-- Closes an elapsed verify window. -/
def resolve (g : KillGate) (now : Int) (rate : ℚ) : KillGate :=
  if g.verifying = false ∨ now < g.verifyUntil then g
  else if g.baseRate * (1 + killGain) ≤ rate then { g with verifying := false, suppress := 0 }
  else { g with verifying := false, suppress := g.nextSuppress, suppressUntil := now + g.nextSuppress }

/-- Whether the kill is granted, and the gate after the call. -/
def tryKill (g : KillGate) (r : Reading) : Bool × KillGate :=
  let g := g.resolve r.now r.closing
  if g.verifying = true ∨ r.now < g.suppressUntil then (false, g)
  else if killUtilCeiling ≤ r.util then (false, g)
  else (true, { g with verifying := true, verifyUntil := r.now + killVerifyWindow, baseRate := r.opening })

end KillGate

/-- A granted kill, with the rate that closed its verify window once one has. -/
structure Kill where
  time : Int
  util : ℚ
  baseline : ℚ
  after : Option ℚ
deriving DecidableEq

namespace Kill

def flat (k : Kill) : Bool := k.after.any fun rate => rate < k.baseline * (1 + killGain)

/-- The kills without effect at the head of a list, newest first. -/
def streak (kills : List Kill) : Nat := (kills.takeWhile flat).length

def closeLast (rate : ℚ) : List Kill → List Kill
  | [] => []
  | k :: older => { k with after := some rate } :: older

def hold : Nat → Int
  | 0 => 0
  | k + 1 => min (killSuppressMin * 2 ^ k) killSuppressMax

/-- Each kill keeps its distance from the one before. -/
def Spaced : List Kill → Prop
  | later :: k :: older => k.time + killVerifyWindow ≤ later.time ∧
      (k.flat = true → k.time + killVerifyWindow + hold (streak (k :: older)) ≤ later.time) ∧ Spaced (k :: older)
  | _ => True

section
variable {k later : Kill} {older kills : List Kill}

theorem hold_pos (k : Nat) : 0 < hold (k + 1) := by
  apply lt_min
  · apply Int.mul_pos
    · decide
    · exact Int.pow_pos (by decide)
  · decide

theorem streak_flat (flat : k.flat = true) : streak (k :: older) = streak older + 1 := by
  simp [streak, flat]

theorem streak_of_not (lively : k.flat = false) : streak (k :: older) = 0 := by
  simp [streak, lively]

theorem Spaced.close (spaced : Spaced (k :: older)) : Spaced ({ k with after := some rate } :: older) := by
  cases older with
  | nil => trivial
  | cons k' older => exact spaced

theorem Spaced.pairwise (spaced : Spaced kills) :
    kills.Pairwise fun later earlier => earlier.time + killVerifyWindow ≤ later.time := by
  induction kills with
  | nil => exact .nil
  | cons later older ih =>
    cases older with
    | nil => exact List.pairwise_singleton _ _
    | cons k older =>
      obtain ⟨apart, -, rest⟩ := spaced
      have ordered := ih rest
      apply List.Pairwise.cons
      · intro k' member
        cases member with
        | head => exact apart
        | tail _ member =>
          have before := List.rel_of_pairwise_cons ordered member
          have positive : 0 ≤ killVerifyWindow := by decide
          omega
      · exact ordered

theorem Spaced.split (spaced : Spaced (newer ++ later :: k :: older)) : Spaced (later :: k :: older) := by
  induction newer with
  | nil => exact spaced
  | cons k' newer ih =>
    apply ih
    cases newer with
    | nil => exact spaced.2.2
    | cons k'' newer => exact spaced.2.2

end

end Kill

/-- The gate, the clock of the last call, and the kills it granted, newest first. -/
structure Killing where
  gate : KillGate
  clock : Int
  kills : List Kill

namespace Killing
open Kill KillGate

def start (clock : Int) : Killing := ⟨.new, clock, []⟩

/-- A call that enters the lock, from any monitor. -/
def next (d : Killing) (r : Reading) : Option Killing :=
  if r.now < d.clock then none
  else
    let kills := if d.gate.verifying = true ∧ d.gate.verifyUntil ≤ r.now then closeLast r.closing d.kills else d.kills
    match d.gate.tryKill r with
    | (true, gate) => some ⟨gate, r.now, ⟨r.now, r.util, r.opening, none⟩ :: kills⟩
    | (false, gate) => some ⟨gate, r.now, kills⟩

structure Inv (d : Killing) : Prop where
  opened : d.gate.verifying = true → ∃ k older, d.kills = k :: older ∧ k.after = none ∧
    d.gate.verifyUntil = k.time + killVerifyWindow ∧ d.gate.baseRate = k.baseline ∧ d.gate.suppress = hold (streak older)
  closed : d.gate.verifying = false → d.gate.suppress = hold (streak d.kills) ∧
    ∀ k older, d.kills = k :: older → k.time + killVerifyWindow ≤ d.clock ∧
      (k.flat = true → k.time + killVerifyWindow + hold (streak (k :: older)) ≤ d.gate.suppressUntil)
  spaced : Spaced d.kills
  free : ∀ k ∈ d.kills, k.util < killUtilCeiling

section
variable {d d' : Killing} {g : KillGate} {kills : List Kill}

theorem nextSuppress_hold (held : g.suppress = hold k) : g.nextSuppress = hold (k + 1) := by
  rw [nextSuppress, held]
  cases k with
  | zero => rfl
  | succ k =>
    rw [if_neg (hold_pos k).ne']
    have doubled : killSuppressMax ≤ killSuppressMax * 2 := by decide
    have power : killSuppressMin * 2 ^ (k + 1) = killSuppressMin * 2 ^ k * 2 := by rw [pow_succ, mul_assoc]
    simp only [hold, power]
    omega

theorem Inv.later (inv : Inv d) (later : d.clock ≤ now) : Inv { d with clock := now } := by
  constructor
  · exact inv.opened
  · intro idle
    obtain ⟨held, last⟩ := inv.closed idle
    constructor
    · exact held
    · intro k older here
      obtain ⟨ended, waits⟩ := last k older here
      exact ⟨ended.trans later, waits⟩
  · exact inv.spaced
  · exact inv.free

theorem Inv.settle (spaced : Spaced (k :: older)) (free : ∀ k' ∈ k :: older, k'.util < killUtilCeiling)
    (ended : k.time + killVerifyWindow ≤ now) (idle : g.verifying = false)
    (held : g.suppress = hold (streak ({ k with after := some rate } :: older)))
    (waits : Kill.flat { k with after := some rate } = true → now + g.suppress ≤ g.suppressUntil) :
    Inv ⟨g, now, closeLast rate (k :: older)⟩ := by
  constructor
  · intro verifying
    cases idle.symm.trans verifying
  · intro _
    constructor
    · exact held
    · intro k' older' same
      cases same
      constructor
      · exact ended
      · intro flat
        have suppressed := waits flat
        rw [held] at suppressed
        exact (Int.add_le_add_right ended _).trans suppressed
  · exact spaced.close
  · intro k' member
    cases member with
    | head => exact free k (.head _)
    | tail _ member => exact free k' (.tail _ member)

/-- The first part of a call: a verify window that has elapsed is closed, whether or not a kill follows. -/
theorem Inv.resolve (inv : Inv d) (later : d.clock ≤ now) (rate : ℚ) :
    Inv ⟨d.gate.resolve now rate, now,
      if d.gate.verifying = true ∧ d.gate.verifyUntil ≤ now then closeLast rate d.kills else d.kills⟩ := by
  by_cases elapsed : d.gate.verifying = true ∧ d.gate.verifyUntil ≤ now
  · obtain ⟨verifying, ended⟩ := elapsed
    have goes : ¬ (d.gate.verifying = false ∨ now < d.gate.verifyUntil) := by simp [verifying, ended]
    obtain ⟨k, older, here, pending, until_eq, base, held⟩ := inv.opened verifying
    have spaced := inv.spaced
    have free := inv.free
    rw [here] at spaced free
    rw [if_pos ⟨verifying, ended⟩, here, KillGate.resolve, if_neg goes, base]
    rw [until_eq] at ended
    split
    · rename_i gained
      have lively : Kill.flat { k with after := some rate } = false := by simpa [Kill.flat] using gained
      apply Inv.settle spaced free ended rfl
      · exact (congrArg hold (streak_of_not lively)).symm
      · intro flat
        cases lively.symm.trans flat
    · rename_i missed
      have flat : Kill.flat { k with after := some rate } = true := by simpa [Kill.flat] using missed
      apply Inv.settle spaced free ended rfl
      · rw [streak_flat flat]
        exact nextSuppress_hold held
      · intro _
        exact le_refl _
  · have stays : d.gate.verifying = false ∨ now < d.gate.verifyUntil := by
      rw [not_and_or, not_le] at elapsed
      simpa using elapsed
    rw [if_neg elapsed, KillGate.resolve, if_pos stays]
    exact inv.later later

theorem Inv.claim (inv : Inv ⟨g, now, kills⟩) (idle : g.verifying = false) (due : g.suppressUntil ≤ now)
    (slack : used < killUtilCeiling) :
    Inv ⟨{ g with verifying := true, verifyUntil := now + killVerifyWindow, baseRate := rate }, now,
        ⟨now, used, rate, none⟩ :: kills⟩ := by
  obtain ⟨held, last⟩ := inv.closed idle
  constructor
  · intro _
    exact ⟨_, _, rfl, rfl, rfl, rfl, held⟩
  · nofun
  · cases kills with
    | nil => trivial
    | cons k older =>
      obtain ⟨ended, waits⟩ := last k older rfl
      constructor
      · exact ended
      · constructor
        · intro flat
          exact (waits flat).trans due
        · exact inv.spaced
  · intro k member
    cases member with
    | head => exact slack
    | tail _ member => exact inv.free k member

theorem inv_next (inv : Inv d) (stepped : next d r = some d') : Inv d' := by
  simp only [next] at stepped
  split at stepped
  · cases stepped
  rename_i ordered
  have resolved := inv.resolve (not_lt.mp ordered) r.closing
  simp only [tryKill] at stepped
  by_cases busy : (d.gate.resolve r.now r.closing).verifying = true ∨ r.now < (d.gate.resolve r.now r.closing).suppressUntil
  · rw [if_pos busy] at stepped
    cases stepped
    exact resolved
  rw [if_neg busy] at stepped
  by_cases limited : killUtilCeiling ≤ r.util
  · rw [if_pos limited] at stepped
    cases stepped
    exact resolved
  rw [if_neg limited] at stepped
  cases stepped
  rw [not_or, not_lt] at busy
  exact resolved.claim (by simpa using busy.1) busy.2 (not_le.mp limited)

/-- In every run the granted kills lie a verify window apart, none is granted at the utilization ceiling, and a kill that
ends a row of kills without effect is followed by the hold of that row. -/
theorem kills_spaced (ran : run next (start t₀) readings = some d) :
    (d.kills.Pairwise fun later earlier => earlier.time + killVerifyWindow ≤ later.time) ∧
      (∀ k ∈ d.kills, k.util < killUtilCeiling) ∧
      ∀ newer later k older, d.kills = newer ++ later :: k :: older → k.flat = true →
        k.time + killVerifyWindow + min (killSuppressMin * 2 ^ (streak (k :: older) - 1)) killSuppressMax ≤ later.time := by
  have initial : Inv (start t₀) := by
    constructor
    · nofun
    · intro _
      exact ⟨rfl, nofun⟩
    · trivial
    · nofun
  have inv := Transition.invariant inv_next initial ran
  constructor
  · exact Spaced.pairwise inv.spaced
  constructor
  · exact inv.free
  · intro newer later k older here flat
    have spaced := inv.spaced
    rw [here] at spaced
    have waits := (Spaced.split spaced).2.1 flat
    rw [streak_flat flat] at waits ⊢
    exact waits

end

/-- Two kills without effect, then one that frees capacity. -/
def suppressed : List Reading :=
  [⟨0, 0, 0, 100⟩, ⟨30 * second, 100, 0, 0⟩, ⟨60 * second, 100, 0, 100⟩, ⟨90 * second, 100, 0, 0⟩, ⟨149 * second, 100, 0, 0⟩,
    ⟨150 * second, 100, 1 / 2, 100⟩, ⟨180 * second, 105, 0, 100⟩]

theorem kills_spaced_suppressed :
    ∃ d, run next (start 0) suppressed = some d ∧
      d.kills.map (fun k => (k.time, k.flat)) =
        ([(180 * second, false), (150 * second, false), (60 * second, true), (0, true)] : List (Int × Bool)) ∧
      ∀ newer later k older, d.kills = newer ++ later :: k :: older → k.flat = true →
        k.time + killVerifyWindow + min (killSuppressMin * 2 ^ (streak (k :: older) - 1)) killSuppressMax ≤ later.time := by
  have evaluated : (run next (start 0) suppressed).map (fun d => d.kills.map fun k => (k.time, k.flat)) =
      some ([(180 * second, false), (150 * second, false), (60 * second, true), (0, true)] : List (Int × Bool)) := by
        decide +kernel
  obtain ⟨d, ran, same⟩ := Option.map_eq_some_iff.mp evaluated
  exact ⟨d, ran, same, (kills_spaced ran).2.2⟩

end Killing
end Hfdl
