import Hfdl.Int64
import Mathlib.Algebra.Order.Field.Rat

/-! The hill-climbing controller of the connection budget: it raises the budget for a while, compares the download
rates, and keeps or reverts the step. Rates are rationals, times are nanoseconds after the zero time. -/
namespace Hfdl

structure Sample where
  rate : ℚ
  utilization : ℚ
  assigned : Int
  kills : Int

structure TuneConfig where
  settle : Int
  probeInterval : Int
  backoffStart : Int
  backoffMax : Int
  killFreeze : Int
  gain : ℚ
  utilCeiling : ℚ
deriving DecidableEq

def TuneConfig.withDefaults (c : TuneConfig) : TuneConfig where
  settle := if c.settle ≤ 0 then 24 * second else c.settle
  probeInterval := if c.probeInterval ≤ 0 then 5 * second else c.probeInterval
  backoffStart := if c.backoffStart ≤ 0 then 30 * second else c.backoffStart
  backoffMax := if c.backoffMax ≤ 0 then 300 * second else c.backoffMax
  killFreeze := if c.killFreeze ≤ 0 then 30 * second else c.killFreeze
  gain := if c.gain ≤ 0 then 1 / 20 else c.gain
  utilCeiling := if c.utilCeiling ≤ 0 then 9 / 10 else c.utilCeiling

def doubleBelow : Int := 8

def saturationNum : Int := 3

def saturationDen : Int := 4

structure Controller where
  cfg : TuneConfig
  budget : Int
  prevBudget : Int
  probing : Bool
  seeded : Bool
  baseRate : ℚ
  settleUntil : Int
  nextProbeAt : Int
  backoff : Int
  freezeUntil : Int
  lastKills : Int
  killsSeeded : Bool
deriving DecidableEq

structure Observation where
  now : Int
  maxBudget : Int
  sample : Sample

/-- No product of the call leaves the machine integers. -/
def Observation.Fits (o : Observation) : Prop :=
  o.maxBudget * saturationNum ≤ maxInt64 ∧ minInt64 ≤ o.sample.assigned * saturationDen ∧
    o.sample.assigned * saturationDen ≤ maxInt64
deriving Decidable

namespace Controller

def new (cfg : TuneConfig) : Controller := ⟨cfg.withDefaults, 1, 0, false, false, 0, 0, 0, 0, 0, 0, false⟩

def committed (c : Controller) : Int := if c.probing then c.prevBudget else c.budget

def nextStep (budget : Int) : Int :=
  if budget < doubleBelow then wrapInt64 (budget * 2) else wrapInt64 (budget + max 1 (budget.tdiv 4))

def seed (c : Controller) (maxBudget : Int) : Controller :=
  if c.seeded then c else { c with seeded := true, budget := max 1 (maxBudget.tdiv 2) }

/-- A lowered ceiling abandons a probe. -/
def clamp (c : Controller) (maxBudget : Int) : Controller :=
  if maxBudget < c.budget then { c with budget := maxBudget, probing := false } else c

/-- A stall kill freezes the controller and drops a probe; the kills before the first call do not count. -/
def noteKills (c : Controller) (now kills : Int) : Controller :=
  if c.killsSeeded then
    if c.lastKills < kills then
      { c with
        lastKills := kills
        freezeUntil := now + c.cfg.killFreeze
        budget := c.committed
        probing := false }
    else c
  else { c with lastKills := kills, killsSeeded := true }

def nextBackoff (c : Controller) : Int :=
  if c.backoff = 0 then c.cfg.backoffStart else min (wrapInt64 (c.backoff * 2)) c.cfg.backoffMax

/-- The probe in flight is kept or reverted once it has settled. -/
def evaluate (c : Controller) (now : Int) (rate : ℚ) : Controller :=
  if now < c.settleUntil then c
  else if c.baseRate * (1 + c.cfg.gain) ≤ rate then
    { c with probing := false, backoff := 0, nextProbeAt := now + c.cfg.probeInterval }
  else
    { c with probing := false, budget := c.prevBudget, backoff := c.nextBackoff, nextProbeAt := now + c.nextBackoff }

def probe (c : Controller) (now maxBudget : Int) (s : Sample) : Controller :=
  if now < c.nextProbeAt ∨ now < c.freezeUntil then c
  else if maxBudget ≤ c.budget then c
  else if c.cfg.utilCeiling ≤ s.utilization then { c with nextProbeAt := now + c.cfg.probeInterval }
  else if wrapInt64 (s.assigned * saturationDen) < wrapInt64 (c.budget * saturationNum) then c
  else if s.rate ≤ 0 then c
  else { c with
    prevBudget := c.budget
    baseRate := s.rate
    budget := min (nextStep c.budget) maxBudget
    probing := true
    settleUntil := now + c.cfg.settle }

/-- The first part of a call: the ceiling and the kills. -/
def prepare (c : Controller) (o : Observation) : Controller :=
  ((c.seed (max o.maxBudget 1)).clamp (max o.maxBudget 1)).noteKills o.now o.sample.kills

def observe (c : Controller) (o : Observation) : Controller :=
  let c := c.prepare o
  if c.probing then c.evaluate o.now o.sample.rate else c.probe o.now (max o.maxBudget 1) o.sample

structure Continues (c c' : Controller) : Prop where
  probing : c.probing = true
  budget : c'.budget = c.budget
  prevBudget : c'.prevBudget = c.prevBudget
  baseRate : c'.baseRate = c.baseRate
  settleUntil : c'.settleUntil = c.settleUntil

structure Starts (c c' : Controller) (o : Observation) : Prop where
  unfrozen : c'.freezeUntil ≤ o.now
  due : c.nextProbeAt ≤ o.now
  unlimited : o.sample.utilization < c.cfg.utilCeiling
  saturated : saturationNum * c'.committed ≤ saturationDen * o.sample.assigned
  moving : 0 < o.sample.rate

section
variable {c : Controller}

/-- What holds between calls, whatever the ceilings were: the first call sets a budget of its own. -/
structure Sane (c : Controller) : Prop where
  freezes : 0 < c.cfg.killFreeze
  idle : c.seeded = false → c.probing = false
  positive : 1 ≤ c.committed
  probed : c.committed ≤ c.budget

theorem sane_new {cfg : TuneConfig} : (new cfg).Sane := by
  refine ⟨?_, fun _ => rfl, le_rfl, le_rfl⟩
  simp only [new, TuneConfig.withDefaults]
  split
  · decide
  · omega

theorem Sane.seed (sane : c.Sane) : (c.seed maxBudget).Sane ∧ (c.seed maxBudget).seeded = true := by
  simp only [Controller.seed]
  split
  · exact ⟨sane, ‹_›⟩
  · rename_i unseeded
    have idle := sane.idle (by simpa using unseeded)
    refine ⟨⟨sane.freezes, nofun, ?_, ?_⟩, rfl⟩
    · simp only [committed, idle]
      exact le_max_left ..
    · simp only [committed, idle]
      exact le_rfl

theorem Sane.clamp (sane : c.Sane) (top : 1 ≤ maxBudget) : (c.clamp maxBudget).Sane ∧ (c.clamp maxBudget).budget ≤ maxBudget := by
  simp only [Controller.clamp]
  split
  · exact ⟨⟨sane.freezes, fun _ => rfl, top, le_rfl⟩, le_rfl⟩
  · exact ⟨sane, by omega⟩

theorem Sane.noteKills (sane : c.Sane) (ceiling : c.budget ≤ top) :
    (c.noteKills now kills).Sane ∧ (c.noteKills now kills).budget ≤ top := by
  simp only [Controller.noteKills]
  split
  · split
    · exact ⟨⟨sane.freezes, fun _ => rfl, sane.positive, le_rfl⟩, sane.probed.trans ceiling⟩
    · exact ⟨sane, ceiling⟩
  · exact ⟨⟨sane.freezes, sane.idle, sane.positive, sane.probed⟩, ceiling⟩

theorem Sane.evaluate (sane : c.Sane) (probing : c.probing = true) (ceiling : c.budget ≤ top) :
    (c.evaluate now rate).Sane ∧ (c.evaluate now rate).budget ≤ top := by
  have reverts : c.committed = c.prevBudget := if_pos probing
  have positive := sane.positive
  have probed := sane.probed
  rw [reverts] at positive probed
  simp only [Controller.evaluate]
  split
  · exact ⟨sane, ceiling⟩
  · split
    · exact ⟨⟨sane.freezes, fun _ => rfl, positive.trans probed, le_rfl⟩, ceiling⟩
    · exact ⟨⟨sane.freezes, fun _ => rfl, positive, le_rfl⟩, probed.trans ceiling⟩

theorem le_nextStep {x : Int} (positive : 1 ≤ x) (fits : x * saturationNum ≤ maxInt64) : x ≤ nextStep x := by
  have quarter : x.tdiv 4 ≤ x := Int.tdiv_le_self 4 (by omega)
  simp only [saturationNum, maxInt64] at fits
  simp only [nextStep]
  split
  · rw [wrapInt64_eq (by omega) (by simp only [maxInt64]; omega)]
    omega
  · rw [wrapInt64_eq (by omega) (by simp only [maxInt64]; omega)]
    omega

theorem Sane.probe (sane : c.Sane) (idle : c.probing = false) (seeded : c.seeded = true) (ceiling : c.budget ≤ maxBudget)
    (fits : maxBudget * saturationNum ≤ maxInt64) :
    (c.probe now maxBudget s).Sane ∧ (c.probe now maxBudget s).budget ≤ maxBudget := by
  have positive := sane.positive
  rw [committed, if_neg (by simp [idle])] at positive
  simp only [Controller.probe]
  split
  · exact ⟨sane, ceiling⟩
  split
  · exact ⟨sane, ceiling⟩
  split
  · exact ⟨⟨sane.freezes, sane.idle, sane.positive, sane.probed⟩, ceiling⟩
  split
  · exact ⟨sane, ceiling⟩
  split
  · exact ⟨sane, ceiling⟩
  have step : c.budget ≤ nextStep c.budget := le_nextStep positive (by simp only [saturationNum] at fits ⊢; omega)
  exact ⟨⟨sane.freezes, fun unseeded => by simp [seeded] at unseeded, positive, le_min step ceiling⟩, min_le_right ..⟩

theorem seeded_clamp : (c.clamp maxBudget).seeded = c.seeded := by
  simp only [clamp]
  split <;> rfl

theorem seeded_noteKills : (c.noteKills now kills).seeded = c.seeded := by
  simp only [noteKills]
  split <;> (try split) <;> rfl

theorem Sane.prepare (sane : c.Sane) :
    (c.prepare o).Sane ∧ (c.prepare o).budget ≤ max o.maxBudget 1 ∧ (c.prepare o).seeded = true := by
  obtain ⟨seeded, once⟩ := sane.seed
  obtain ⟨clamped, ceiling⟩ := seeded.clamp (le_max_right o.maxBudget 1)
  obtain ⟨noted, lower⟩ := clamped.noteKills ceiling
  exact ⟨noted, lower, seeded_noteKills.trans (seeded_clamp.trans once)⟩

theorem Sane.observe (sane : c.Sane) (narrow : o.maxBudget * saturationNum ≤ maxInt64) :
    (c.observe o).Sane ∧ (c.observe o).budget ≤ max o.maxBudget 1 := by
  obtain ⟨prepared, ceiling, seeded⟩ := sane.prepare
  simp only [Controller.observe]
  split
  · exact prepared.evaluate ‹_› ceiling
  · refine prepared.probe (Bool.eq_false_iff.mpr ‹_›) seeded ceiling ?_
    simp only [saturationNum, maxInt64] at narrow ⊢
    omega

theorem seed_of_probing (sane : c.Sane) (probing : c.probing = true) : c.seed maxBudget = c := by
  refine if_pos ?_
  by_contra unseeded
  cases (sane.idle (Bool.eq_false_iff.mpr unseeded)).symm.trans probing

theorem probing_seed : (c.seed maxBudget).probing = c.probing := by
  simp only [seed]
  split <;> rfl

theorem clamp_of_probing (probing : (c.clamp maxBudget).probing = true) : c.clamp maxBudget = c := by
  simp only [clamp] at probing ⊢
  split at probing
  · cases probing
  · exact if_neg ‹_›

theorem continues_noteKills (probing : (c.noteKills now kills).probing = true) : c.Continues (c.noteKills now kills) := by
  simp only [noteKills] at probing ⊢
  split at probing
  · split at probing
    · cases probing
    · rw [if_pos ‹_›, if_neg ‹_›]
      exact ⟨probing, rfl, rfl, rfl, rfl⟩
  · rw [if_neg ‹_›]
    exact ⟨probing, rfl, rfl, rfl, rfl⟩

/-- A probe that is in flight after the first part of a call was in flight before. -/
theorem continues_prepare (sane : c.Sane) (probing : (c.prepare o).probing = true) : c.Continues (c.prepare o) := by
  have noted := continues_noteKills probing
  have clamped := clamp_of_probing noted.probing
  have seeded := probing_seed.symm.trans (clamped ▸ noted.probing)
  rw [clamped, seed_of_probing sane seeded] at noted
  rwa [prepare, clamped, seed_of_probing sane seeded]

theorem prepare_rest : (c.prepare o).nextProbeAt = c.nextProbeAt ∧ (c.prepare o).cfg = c.cfg := by
  have noted {c : Controller} {now kills : Int} :
      (c.noteKills now kills).nextProbeAt = c.nextProbeAt ∧ (c.noteKills now kills).cfg = c.cfg := by
    simp only [noteKills]
    split <;> (try split) <;> exact ⟨rfl, rfl⟩
  have clamped {c : Controller} {maxBudget : Int} :
      (c.clamp maxBudget).nextProbeAt = c.nextProbeAt ∧ (c.clamp maxBudget).cfg = c.cfg := by
    simp only [clamp]
    split <;> exact ⟨rfl, rfl⟩
  have seeded {maxBudget : Int} : (c.seed maxBudget).nextProbeAt = c.nextProbeAt ∧ (c.seed maxBudget).cfg = c.cfg := by
    simp only [seed]
    split <;> exact ⟨rfl, rfl⟩
  exact ⟨noted.1.trans (clamped.1.trans seeded.1), noted.2.trans (clamped.2.trans seeded.2)⟩

theorem starts_probe (fits : o.Fits) (positive : 1 ≤ c.budget) (idle : c.probing = false)
    (probing : (c.probe o.now (max o.maxBudget 1) o.sample).probing = true) :
    c.Starts (c.probe o.now (max o.maxBudget 1) o.sample) o := by
  simp only [probe] at probing ⊢
  split at probing
  · simp [idle] at probing
  split at probing
  · simp [idle] at probing
  split at probing
  · simp [idle] at probing
  split at probing
  · simp [idle] at probing
  split at probing
  · simp [idle] at probing
  rename_i waits below limited sparse still
  rw [if_neg waits, if_neg below, if_neg limited, if_neg sparse, if_neg still]
  obtain ⟨narrow, low, high⟩ := fits
  have tripled : c.budget * saturationNum ≤ maxInt64 ∧ minInt64 ≤ c.budget * saturationNum := by
    simp only [saturationNum, maxInt64, minInt64] at narrow ⊢
    omega
  rw [wrapInt64_of_fits low high, wrapInt64_of_fits tripled.2 tripled.1] at sparse
  refine ⟨not_lt.mp fun frozen => waits (.inr frozen), not_lt.mp fun early => waits (.inl early), not_le.mp limited, ?_,
    not_le.mp still⟩
  change saturationNum * c.budget ≤ _
  rw [mul_comm, mul_comm saturationDen]
  exact not_lt.mp sparse

theorem probing_observe (sane : c.Sane) (fits : o.Fits) (probing : (c.observe o).probing = true) :
    c.Continues (c.observe o) ∨ c.Starts (c.observe o) o := by
  simp only [observe] at probing ⊢
  split at probing
  · rename_i flying
    rw [if_pos flying]
    simp only [evaluate] at probing ⊢
    split at probing
    · rw [if_pos ‹_›]
      exact .inl (continues_prepare sane flying)
    · split at probing <;> cases probing
  · rename_i grounded
    rw [if_neg grounded]
    obtain ⟨prepared, -⟩ := sane.prepare
    have idle := Bool.eq_false_iff.mpr grounded
    have positive := prepared.positive
    rw [committed, if_neg grounded] at positive
    have starts := starts_probe fits positive idle probing
    obtain ⟨due, config⟩ := prepare_rest (c := c) (o := o)
    exact .inr ⟨starts.unfrozen, due ▸ starts.due, config ▸ starts.unlimited, starts.saturated, starts.moving⟩

/-- After every call the budget lies within its bounds, and a probe in flight was in flight before or meets the
conditions of a start. -/
theorem observe_bounds (cfg : TuneConfig) (before : List Observation) (o : Observation) (fits : ∀ o ∈ before, o.Fits)
    (now : o.Fits) :
    let c := before.foldl observe (new cfg)
    1 ≤ (c.observe o).committed ∧ (c.observe o).committed ≤ (c.observe o).budget ∧ (c.observe o).budget ≤ max o.maxBudget 1 ∧
      ((c.observe o).probing = true → c.Continues (c.observe o) ∨ c.Starts (c.observe o) o) := by
  intro c
  have sane : c.Sane := by
    refine List.foldlRecOn before observe sane_new fun c sane o called => ?_
    exact (sane.observe (fits o called).1).1
  obtain ⟨kept, ceiling⟩ := sane.observe now.1
  exact ⟨kept.positive, kept.probed, ceiling, probing_observe sane now⟩

end

def wholeInt64 (n assigned : Int) : Observation := ⟨n * second, maxInt64, ⟨2 ^ n.toNat, 0, assigned, 0⟩⟩

/-- With the largest ceiling a probe starts on one connection in use, and accepted probes make the budget negative. -/
theorem budget_wraps :
    let c := (new ⟨0, 0, 0, 0, 0, 0, 0⟩).observe (wholeInt64 0 1)
    c.probing = true ∧ saturationDen * 1 < saturationNum * c.committed ∧
      (((List.range 7).map fun n : Nat => wholeInt64 (30 * n) (2 ^ 61 - 1)).foldl observe
        (new ⟨0, 0, 0, 0, 0, 0, 0⟩)).budget < 0 := by
  decide +kernel

/-- A probe up to a ceiling of four, which is kept. -/
def climb : List Observation := [⟨0, 4, ⟨10, 0, 2, 0⟩⟩, ⟨24 * second, 4, ⟨20, 0, 4, 0⟩⟩]

def raised : Observation := ⟨30 * second, 7, ⟨20, 1 / 2, 3, 0⟩⟩

theorem observe_bounds_raised :
    let c := climb.foldl observe (new ⟨0, 0, 0, 0, 0, 0, 0⟩)
    c.budget = 4 ∧ (c.observe raised).probing = true ∧ (c.observe raised).budget ≤ 7 ∧
      (c.Continues (c.observe raised) ∨ c.Starts (c.observe raised) raised) := by
  have bounds := observe_bounds ⟨0, 0, 0, 0, 0, 0, 0⟩ climb raised (by decide) (by decide)
  have probing : ((climb.foldl observe (new ⟨0, 0, 0, 0, 0, 0, 0⟩)).observe raised).probing = true := by decide +kernel
  exact ⟨by decide +kernel, probing, bounds.2.2.1, bounds.2.2.2 probing⟩

/-- The ceiling falls between the committed budget and the budget of the probe in flight. -/
def Cuts (c : Controller) (o : Observation) : Prop :=
  c.probing = true ∧ c.committed < max o.maxBudget 1 ∧ max o.maxBudget 1 < c.budget
deriving Decidable

/-- The probe in flight before the call has settled and paid off, and the call brought neither a kill nor a lower ceiling. -/
structure Proven (c : Controller) (o : Observation) : Prop where
  probing : c.probing = true
  settled : c.settleUntil ≤ o.now
  gained : c.baseRate * (1 + c.cfg.gain) ≤ o.sample.rate
  unkilled : o.sample.kills ≤ c.lastKills
  uncut : c.budget ≤ max o.maxBudget 1

section
variable {c : Controller}

theorem committed_clamp (uncut : ¬ (c.probing = true ∧ c.committed < maxBudget ∧ maxBudget < c.budget)) :
    (c.clamp maxBudget).committed ≤ c.committed := by
  simp only [clamp]
  split
  · rename_i lowered
    change maxBudget ≤ c.committed
    cases flying : c.probing with
    | true => exact not_lt.mp fun between => uncut ⟨flying, between, lowered⟩
    | false =>
      rw [committed, if_neg (by simp [flying])]
      exact lowered.le
  · exact le_rfl

theorem committed_noteKills : (c.noteKills now kills).committed = c.committed := by
  simp only [noteKills]
  split
  · split <;> rfl
  · rfl

theorem committed_probe (idle : c.probing = false) : (c.probe now maxBudget s).committed = c.committed := by
  have before : c.committed = c.budget := if_neg (by simp [idle])
  simp only [probe]
  split
  · rfl
  split
  · rfl
  split
  · rfl
  split
  · rfl
  split
  · rfl
  · exact before.symm

theorem committed_evaluate (probing : c.probing = true) (raised : c.committed < (c.evaluate now rate).committed) :
    c.settleUntil ≤ now ∧ c.baseRate * (1 + c.cfg.gain) ≤ rate := by
  have before : c.committed = c.prevBudget := if_pos probing
  simp only [evaluate] at raised
  split at raised
  · exact absurd raised (lt_irrefl _)
  · rename_i settled
    split at raised
    · exact ⟨not_lt.mp settled, ‹_›⟩
    · rw [before] at raised
      exact absurd raised (lt_irrefl c.prevBudget)

structure Begun (c : Controller) : Prop where
  seeded : c.seeded = true
  killsSeeded : c.killsSeeded = true

theorem begun_evaluate (begun : c.Begun) : (c.evaluate now rate).Begun := by
  simp only [evaluate]
  split
  · exact begun
  · split <;> exact ⟨begun.seeded, begun.killsSeeded⟩

theorem begun_probe (begun : c.Begun) : (c.probe now maxBudget s).Begun := by
  simp only [probe]
  split
  · exact begun
  split
  · exact begun
  split
  · exact ⟨begun.seeded, begun.killsSeeded⟩
  split
  · exact begun
  split
  · exact begun
  · exact ⟨begun.seeded, begun.killsSeeded⟩

theorem begun_prepare : (c.prepare o).Begun := by
  constructor
  · rw [prepare, seeded_noteKills, seeded_clamp]
    simp only [seed]
    split
    · assumption
    · rfl
  · simp only [prepare, noteKills]
    split
    · split <;> assumption
    · rfl

theorem begun_observe : (c.observe o).Begun := by
  simp only [observe]
  split
  · exact begun_evaluate begun_prepare
  · exact begun_probe begun_prepare

theorem begun_foldl (before : List Observation) (begun : c.Begun) : (before.foldl observe c).Begun := by
  induction before generalizing c with
  | nil => exact begun
  | cons o rest ih => exact ih begun_observe

theorem unkilled_of_probing (begun : c.Begun) (probing : (c.noteKills now kills).probing = true) : kills ≤ c.lastKills := by
  simp only [noteKills, if_pos begun.killsSeeded] at probing
  split at probing
  · cases probing
  · exact not_lt.mp ‹_›

theorem uncut_of_probing (probing : (c.clamp maxBudget).probing = true) : c.budget ≤ maxBudget := by
  simp only [clamp] at probing
  split at probing
  · cases probing
  · exact not_lt.mp ‹_›

theorem proven_of_rise (begun : c.Begun) (uncut : ¬ c.Cuts o) (raised : c.committed < (c.observe o).committed) : c.Proven o := by
  have seeded : c.seed (max o.maxBudget 1) = c := if_pos begun.seeded
  have lower : (c.prepare o).committed ≤ c.committed := by
    rw [prepare, committed_noteKills, seeded]
    exact committed_clamp uncut
  have raised := lower.trans_lt raised
  simp only [observe] at raised
  split at raised
  · rename_i flying
    -- a probe that survives the first part of the call is the one the caller left
    have noted := continues_noteKills flying
    have clamped := clamp_of_probing noted.probing
    have capped := uncut_of_probing noted.probing
    rw [seeded] at clamped capped
    have same : c.prepare o = c.noteKills o.now o.sample.kills := by rw [prepare, seeded, clamped]
    rw [same] at raised flying
    have noted := continues_noteKills flying
    obtain ⟨settled, gained⟩ := committed_evaluate flying raised
    obtain ⟨-, config⟩ := prepare_rest (c := c) (o := o)
    rw [same] at config
    constructor
    · exact noted.probing
    · exact noted.settleUntil ▸ settled
    · rw [noted.baseRate, config] at gained
      exact gained
    · exact unkilled_of_probing begun flying
    · exact capped
  · rename_i grounded
    rw [committed_probe (Bool.eq_false_iff.mpr grounded)] at raised
    exact absurd raised (lt_irrefl _)

/-- After the first call the committed budget rises only on a proven probe, unless the ceiling cuts one. -/
theorem committed_rises_on_evidence (cfg : TuneConfig) (first : Observation) (before : List Observation) (o : Observation) :
    let c := (first :: before).foldl observe (new cfg)
    ¬ c.Cuts o → c.committed < (c.observe o).committed → c.Proven o := by
  intro c
  have begun : c.Begun := begun_foldl before begun_observe
  exact proven_of_rise begun

end

/-- A probe from eight connections to ten. -/
def probed : Observation := ⟨0, 16, ⟨10, 0, 8, 0⟩⟩

/-- The ceiling comes down to nine a second later, with the rate unchanged. -/
def lowered : Observation := ⟨second, 9, ⟨10, 0, 8, 0⟩⟩

theorem lowered_ceiling_commits :
    let c := (new ⟨0, 0, 0, 0, 0, 0, 0⟩).observe probed
    c.committed = 8 ∧ (c.observe lowered).committed = 9 ∧ lowered.now < c.settleUntil ∧
      lowered.sample.rate < c.baseRate * (1 + c.cfg.gain) := by
  decide +kernel

theorem committed_rises_climbed :
    let c := (new ⟨0, 0, 0, 0, 0, 0, 0⟩).observe ⟨0, 4, ⟨10, 0, 2, 0⟩⟩
    ¬ c.Cuts ⟨24 * second, 4, ⟨20, 0, 4, 0⟩⟩ ∧ c.Proven ⟨24 * second, 4, ⟨20, 0, 4, 0⟩⟩ := by
  have uncut : ¬ ((new ⟨0, 0, 0, 0, 0, 0, 0⟩).observe ⟨0, 4, ⟨10, 0, 2, 0⟩⟩).Cuts ⟨24 * second, 4, ⟨20, 0, 4, 0⟩⟩ := by
    decide +kernel
  refine ⟨uncut, ?_⟩
  exact committed_rises_on_evidence ⟨0, 0, 0, 0, 0, 0, 0⟩ ⟨0, 4, ⟨10, 0, 2, 0⟩⟩ [] ⟨24 * second, 4, ⟨20, 0, 4, 0⟩⟩ uncut
    (by decide +kernel)

end Controller
end Hfdl
