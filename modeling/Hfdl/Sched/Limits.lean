import Hfdl.Sched.Autotune
import Hfdl.Throttle.Bucket

/-! `SetLimits` against everything that runs beside it. A call is not one step: the limits are stored first, then the
buckets, the duty level, the budgets and the pause follow, and the tune loop, the files and the callers of the buckets
can come in between. `calls` lists the calls that were made; no operation reads it. -/
namespace Hfdl
open Transition Throttle

/-- The fields that `SetLimits` and `Validate` read. -/
structure Limits where
  maxBandwidthBps : Int
  apiIOPS : Int
  apiBurst : Int
  diskActivePct : Int
  diskWorkers : Int
  maxWorkers : Int
  stallTimeout : Int
  checkpointInterval : Int
deriving DecidableEq, Repr

namespace Limits

def validate (l : Limits) : Except String Unit :=
  if l.apiIOPS < 1 then .error ("api-iops must be >= 1, got " ++ toString l.apiIOPS)
  else if l.diskActivePct < 1 ∨ 100 < l.diskActivePct then .error ("disk-active must be 1-100, got " ++ toString l.diskActivePct)
  else if l.diskWorkers < 0 then .error ("disk-workers must be >= 0 (0 = auto), got " ++ toString l.diskWorkers)
  else if l.maxWorkers < 1 then .error ("max-workers must be >= 1, got " ++ toString l.maxWorkers)
  else if l.stallTimeout ≤ 0 then .error "stall-timeout must be positive"
  else if l.checkpointInterval ≤ 0 then .error "checkpoint-interval must be positive"
  else .ok ()

def paused (l : Limits) : Bool := l.maxBandwidthBps = 0 && l.diskActivePct = 0

def defaultLimits : Limits := ⟨0, 5, 1, 100, 0, 16, 15000000000, 30000000000⟩

theorem validate_default : defaultLimits.validate = .ok () := rfl

def Valid (l : Limits) : Prop := l.validate = .ok ()

instance {l : Limits} : Decidable l.Valid :=
  match h : l.validate with
  | .ok () => isTrue h
  | .error _ => isFalse fun valid => by rw [Valid, h] at valid; cases valid

theorem Valid.ranges {l : Limits} (valid : l.Valid) :
    1 ≤ l.apiIOPS ∧ 1 ≤ l.diskActivePct ∧ l.diskActivePct ≤ 100 ∧ 1 ≤ l.maxWorkers := by
  simp only [Valid, validate] at valid
  split at valid
  · cases valid
  split at valid
  · cases valid
  split at valid
  · cases valid
  split at valid
  · cases valid
  · omega

end Limits

def bandwidthMinBurst : Int := 1048576

def bandwidthBurst (limit : Int) : Int :=
  if limit ≤ 0 then 0 else if bandwidthMinBurst < limit / 8 then limit / 8 else bandwidthMinBurst

theorem bandwidthBurst_pos (limited : 0 < limit) : 1 ≤ bandwidthBurst limit := by
  unfold bandwidthBurst
  split
  · omega
  · split
    · unfold bandwidthMinBurst at *
      omega
    · decide

def clampLevel (l : Int) : Int := if l < 0 then 0 else if 100 < l then 100 else l

/-- What a call of `SetLimits` does next. -/
inductive LimitPart where
  | bandwidth
  | api
  | duty
  | budgets
  | pause
deriving DecidableEq, Repr

def LimitPart.rank : LimitPart → Nat
  | .bandwidth => 0
  | .api => 1
  | .duty => 2
  | .budgets => 3
  | .pause => 4

structure Wired where
  limits : Limits
  bandwidth : Option Bucket
  api : Option Bucket
  duty : Option Int

structure Limiting where
  limits : Limits
  running : Option (Limits × LimitPart)
  bandwidth : Option Bucket
  api : Option Bucket
  duty : Option Int
  alloc : Allocator
  paused : Bool
  calls : List Limits

namespace Limiting

inductive Event where
  | setLimits (l : Limits)
  /-- The running call goes on. -/
  | part (now : Nat)
  | tuneTick (now : Int) (rate utilization : ℚ) (kills : Int)
  | admitFile (file : FileId) (blockSize remaining : Int)
  | noteBlockDone (file : FileId) (n : Nat)
  | finish (file : FileId)
  | bandwidthWait (now : Nat) (n : Int)
  | apiWait (now : Nat) (n : Int)

def initial (w : Wired) : Limiting := ⟨w.limits, none, w.bandwidth, w.api, w.duty, .initial w.limits.maxWorkers, false, []⟩

/-- One part of a call; a limiter that is not wired is skipped. -/
def part (s : Limiting) (l : Limits) (now : Nat) : LimitPart → Limiting
  | .bandwidth =>
    { s with
      running := some (l, .api)
      bandwidth :=
        if 0 < l.maxBandwidthBps then s.bandwidth.map (·.setRate l.maxBandwidthBps (bandwidthBurst l.maxBandwidthBps) now)
        else s.bandwidth }
  | .api =>
    { s with
      running := some (l, .duty)
      api := if 0 < l.apiIOPS then s.api.map (·.setRate l.apiIOPS (max l.apiBurst 1) now) else s.api }
  | .duty =>
    { s with
      running := some (l, .budgets)
      duty := if 0 < l.diskActivePct then s.duty.map fun _ => clampLevel l.diskActivePct else s.duty }
  | .budgets => { s with running := some (l, .pause), alloc := s.alloc.setLimits l.maxWorkers }
  | .pause => { s with running := none, paused := l.paused }

def next (s : Limiting) : Event → Option Limiting
  | .setLimits l =>
    match s.running with
    | none =>
      some { s with
        limits := l, running := some (l, .bandwidth), alloc := { s.alloc with maxWorkers := l.maxWorkers }
        calls := s.calls ++ [l] }
    | some _ => none
  | .part now => s.running.map fun call => s.part call.1 now call.2
  | .tuneTick now rate utilization kills => some { s with alloc := s.alloc.tuneTick now rate utilization kills }
  | .admitFile file blockSize remaining => some { s with alloc := (s.alloc.admitFile file blockSize remaining).getD s.alloc }
  | .noteBlockDone file n => some { s with alloc := s.alloc.noteBlockDone file n }
  | .finish file => some { s with alloc := s.alloc.finish file }
  | .bandwidthWait now n => some { s with bandwidth := s.bandwidth.map fun b => (b.attempt now n).2 }
  | .apiWait now n => some { s with api := s.api.map fun b => (b.attempt now n).2 }

def done (s : Limiting) (p : LimitPart) : Prop :=
  s.calls ≠ [] ∧ ∀ call ∈ s.running, p.rank < call.2.rank

end Limiting

def Throttle.Bucket.terms (b : Bucket) : Int × Int := (b.rate, b.burst)

/-- The terms of a bandwidth bucket after calls: those of the last call with a limit. -/
def inForce (terms : Int × Int) (calls : List Limits) : Int × Int :=
  calls.foldl (fun t l => if 0 < l.maxBandwidthBps then (l.maxBandwidthBps, bandwidthBurst l.maxBandwidthBps) else t) terms

theorem inForce_concat : inForce terms (calls ++ [l]) =
    if 0 < l.maxBandwidthBps then (l.maxBandwidthBps, bandwidthBurst l.maxBandwidthBps) else inForce terms calls := by
  rw [inForce, List.foldl_append]
  rfl

theorem terms_attempt (b : Bucket) (now : Nat) (n : Int) : (b.attempt now n).2.terms = b.terms := by
  have filled : ∀ rate, (b.refill now rate).terms = b.terms := by
    intro rate
    unfold Bucket.refill
    split
    · rfl
    · split <;> rfl
  unfold Bucket.attempt
  split
  · rfl
  · simp only
    split
    · exact filled b.rate
    · exact filled b.rate

theorem terms_setRate (b : Bucket) (now : Nat) (limited : 0 < perSec) (some_ : 1 ≤ size) :
    (b.setRate perSec size now).terms = (perSec, size) := by
  have rate : max perSec 0 = perSec := max_eq_left limited.le
  have burst : normalBurst perSec size = size := if_neg fun small => by omega
  exact Prod.ext rate burst

theorem clampLevel_of_range (low : 1 ≤ level) (high : level ≤ 100) : clampLevel level = level := by
  unfold clampLevel
  rw [if_neg (by omega), if_neg (by omega)]

theorem map_const_of_isSome {a : Option α} {b : Option β} (same : a.isSome = b.isSome) (c : γ) :
    a.map (fun _ => c) = b.map (fun _ => c) := by
  cases a <;> cases b <;> first | rfl | cases same

namespace Limiting
open Allocator
variable {w : Wired} {s t : Limiting} {l : Limits} {a : Allocator}

def reached (s : Limiting) : List Limits :=
  match s.running with
  | some (_, .bandwidth) => s.calls.dropLast
  | _ => s.calls

def Within (a : Allocator) (maxWorkers : Int) : Prop := a.budget ≤ max maxWorkers 1 ∧ a.committed ≤ max maxWorkers 1

/-- Every limit so far is one that the controller computes with. -/
def NarrowCalls (w : Wired) (calls : List Limits) : Prop := Narrow w.limits.maxWorkers ∧ ∀ l ∈ calls, Narrow l.maxWorkers

/-- Each limiter is as the latest call says, once that call has got to it. -/
structure Inv (w : Wired) (s : Limiting) : Prop where
  latest : s.calls = [] ∧ s.running = none ∧ s.limits = w.limits ∨ s.calls.getLast? = some s.limits
  running : ∀ call ∈ s.running, call.1 = s.limits
  workers : s.alloc.maxWorkers = s.limits.maxWorkers
  bandwidth : s.bandwidth.map Bucket.terms = w.bandwidth.map fun b => inForce b.terms s.reached
  wired : s.api.isSome = w.api.isSome ∧ s.duty.isSome = w.duty.isSome
  api : s.done .api → 0 < s.limits.apiIOPS →
    s.api.map Bucket.terms = w.api.map fun _ => (s.limits.apiIOPS, max s.limits.apiBurst 1)
  duty : s.done .duty → 0 < s.limits.diskActivePct → s.duty = w.duty.map fun _ => clampLevel s.limits.diskActivePct
  paused : s.done .pause → s.paused = s.limits.paused
  sane : NarrowCalls w s.calls → s.alloc.ctrl.Sane
  budgets : NarrowCalls w s.calls → s.done .budgets → Within s.alloc s.limits.maxWorkers

theorem NarrowCalls.limits (narrow : NarrowCalls w s.calls) (inv : Inv w s) : Narrow s.limits.maxWorkers := by
  rcases inv.latest with ⟨_, _, same⟩ | last
  · rw [same]
    exact narrow.1
  · exact narrow.2 _ (List.mem_of_getLast? last)

theorem inv_initial : Inv w (initial w) where
  latest := .inl ⟨rfl, rfl, rfl⟩
  running := by simp [initial]
  workers := rfl
  bandwidth := rfl
  wired := ⟨rfl, rfl⟩
  api done := absurd rfl done.1
  duty done := absurd rfl done.1
  paused done := absurd rfl done.1
  sane _ := Controller.sane_new
  budgets _ done := absurd rfl done.1

theorem Inv.alloc (inv : Inv w s) (workers : a.maxWorkers = s.alloc.maxWorkers)
    (sane : NarrowCalls w s.calls → a.ctrl.Sane)
    (budgets : NarrowCalls w s.calls → s.done .budgets → Within a s.limits.maxWorkers) :
    Inv w { s with alloc := a } :=
  { inv with workers := workers.trans inv.workers, sane, budgets }

theorem Inv.allocKept (inv : Inv w s) (workers : a.maxWorkers = s.alloc.maxWorkers) (budget : a.budget = s.alloc.budget)
    (committed : a.committed = s.alloc.committed) (ctrl : a.ctrl = s.alloc.ctrl) : Inv w { s with alloc := a } := by
  refine inv.alloc workers ?_ ?_
  · intro narrow
    rw [ctrl]
    exact inv.sane narrow
  · intro narrow done
    rw [Within, budget, committed]
    exact inv.budgets narrow done

/-- A tick observes the limit that is stored, so what it publishes is within it. -/
theorem Inv.tuneTick (inv : Inv w s) : Inv w { s with alloc := s.alloc.tuneTick now rate utilization kills } := by
  have observed : NarrowCalls w s.calls → (s.alloc.tuneTick now rate utilization kills).ctrl.Sane ∧
      (s.alloc.tuneTick now rate utilization kills).budget ≤ max s.limits.maxWorkers 1 := by
    intro narrow
    have limit := narrow.limits inv
    have top : max s.alloc.maxWorkers 1 * saturationNum ≤ maxInt64 := by
      rw [inv.workers]
      simp only [Narrow, saturationNum, maxInt64] at limit ⊢
      omega
    obtain ⟨sane, ceiling⟩ :=
      (inv.sane narrow).observe (o := ⟨now, max s.alloc.maxWorkers 1, ⟨rate, utilization, s.alloc.assignedConns, kills⟩⟩) top
    refine ⟨sane, ceiling.trans ?_⟩
    rw [inv.workers]
    exact max_le (le_refl _) (le_max_right _ _)
  refine inv.alloc rfl (fun narrow => (observed narrow).1) ?_
  intro narrow _
  obtain ⟨sane, budget⟩ := observed narrow
  exact ⟨budget, sane.probed.trans budget⟩

theorem map_terms_attempt (b : Option Bucket) (now : Nat) (n : Int) :
    (b.map fun b => (b.attempt now n).2).map Bucket.terms = b.map Bucket.terms := by
  rw [Option.map_map]
  exact congrArg (b.map ·) (funext fun b => terms_attempt b now n)

theorem Inv.setLimits (inv : Inv w s) (idle : s.running = none) (l : Limits) :
    Inv w { s with
        limits := l, running := some (l, .bandwidth), alloc := { s.alloc with maxWorkers := l.maxWorkers }
        calls := s.calls ++ [l] } := by
  have fresh : ∀ p : LimitPart, ¬ (s.calls ++ [l] ≠ [] ∧ ∀ call ∈ some (l, LimitPart.bandwidth), p.rank < call.2.rank) :=
    fun p done => Nat.not_lt_zero _ (done.2 _ rfl)
  refine
    { latest := .inr List.getLast?_concat
      running := ?_
      workers := rfl
      bandwidth := ?_
      wired := inv.wired
      api := fun done => absurd done (fresh _)
      duty := fun done => absurd done (fresh _)
      paused := fun done => absurd done (fresh _)
      sane := ?_
      budgets := fun _ done => absurd done (fresh _) }
  · rintro call ⟨⟩
    rfl
  · have before := inv.bandwidth
    simp only [reached, idle] at before
    simpa only [reached, List.dropLast_concat] using before
  · exact fun narrow => inv.sane ⟨narrow.1, fun l' known => narrow.2 l' (List.mem_append_left _ known)⟩

theorem done_part (at_ : s.running = some (l, p)) (other : q ≠ p) (done : (s.part l now p).done q) : s.done q := by
  have calls : (s.part l now p).calls = s.calls := by cases p <;> rfl
  refine ⟨calls ▸ done.1, ?_⟩
  intro call member
  rw [at_] at member
  cases member
  have behind : q.rank ≤ p.rank := by
    cases p with
    | pause => cases q <;> decide
    | _ => exact Nat.le_of_lt_succ (done.2 _ rfl)
  refine Nat.lt_of_le_of_ne behind fun same => other ?_
  cases p <;> cases q <;> first | rfl | cases same

theorem Inv.last (inv : Inv w s) (at_ : s.running = some (l, p)) : s.calls.getLast? = some s.limits := by
  rcases inv.latest with ⟨_, never, _⟩ | last
  · rw [at_] at never
    cases never
  · exact last

theorem Inv.partBandwidth (inv : Inv w s) (at_ : s.running = some (s.limits, p)) :
    (s.part s.limits now p).bandwidth.map Bucket.terms = w.bandwidth.map fun b => inForce b.terms
    (s.part s.limits now p).reached := by
  have before := inv.bandwidth
  cases p with
  | bandwidth =>
    have whole : s.calls.dropLast ++ [s.limits] = s.calls := List.dropLast_append_getLast? _ (inv.last at_)
    simp only [reached, at_] at before
    simp only [part, reached]
    rw [← whole]
    simp only [inForce_concat]
    split
    · rename_i limited
      have present : s.bandwidth.isSome = w.bandwidth.isSome := by simpa using congrArg Option.isSome before
      rw [Option.map_map]
      refine Eq.trans ?_ (map_const_of_isSome present _)
      exact congrArg (s.bandwidth.map ·) (funext fun b => terms_setRate b now limited (bandwidthBurst_pos limited))
    · exact before
  | api | duty | budgets | pause => simpa only [reached, at_, part] using before

theorem Inv.partApi (inv : Inv w s) (at_ : s.running = some (s.limits, p)) (done : (s.part s.limits now p).done .api)
    (limited : 0 < s.limits.apiIOPS) :
    (s.part s.limits now p).api.map Bucket.terms = w.api.map fun _ => (s.limits.apiIOPS, max s.limits.apiBurst 1) := by
  cases p with
  | api =>
    simp only [part]
    rw [if_pos limited, Option.map_map]
    refine Eq.trans ?_ (map_const_of_isSome inv.wired.1 _)
    exact congrArg (s.api.map ·) (funext fun b => terms_setRate b now limited (le_max_right _ _))
  | bandwidth | duty | budgets | pause => exact inv.api (done_part at_ (by decide) done) limited

theorem Inv.partDuty (inv : Inv w s) (at_ : s.running = some (s.limits, p)) (done : (s.part s.limits now p).done .duty)
    (active : 0 < s.limits.diskActivePct) :
    (s.part s.limits now p).duty = w.duty.map fun _ => clampLevel s.limits.diskActivePct := by
  cases p with
  | duty =>
    simp only [part]
    rw [if_pos active]
    exact map_const_of_isSome inv.wired.2 _
  | bandwidth | api | budgets | pause => exact inv.duty (done_part at_ (by decide) done) active

theorem within_setLimits (a : Allocator) (maxWorkers : Int) : Within (a.setLimits maxWorkers) maxWorkers := by
  simp only [Allocator.setLimits, Within]
  split
  · exact ⟨min_le_right _ _, min_le_right _ _⟩
  · exact ⟨min_le_right _ _, min_le_right _ _⟩

theorem Inv.partWired (inv : Inv w s) :
    (s.part l now p).api.isSome = w.api.isSome ∧ (s.part l now p).duty.isSome = w.duty.isSome := by
  obtain ⟨api, duty⟩ := inv.wired
  cases p with
  | api =>
    refine ⟨?_, duty⟩
    simp only [part]
    split
    · rw [Option.isSome_map, api]
    · exact api
  | duty =>
    refine ⟨api, ?_⟩
    simp only [part]
    split
    · rw [Option.isSome_map, duty]
    · exact duty
  | bandwidth | budgets | pause => exact ⟨api, duty⟩

theorem ctrl_setLimits (a : Allocator) (maxWorkers : Int) :
    (a.setLimits maxWorkers).ctrl = a.ctrl ∧ (a.setLimits maxWorkers).maxWorkers = maxWorkers := by
  simp only [Allocator.setLimits]
  split <;> exact ⟨rfl, rfl⟩

theorem Inv.part (inv : Inv w s) (at_ : s.running = some (s.limits, p)) (now : Nat) : Inv w (s.part s.limits now p) := by
  have limits : (s.part s.limits now p).limits = s.limits := by cases p <;> rfl
  have calls : (s.part s.limits now p).calls = s.calls := by cases p <;> rfl
  refine
    { latest := ?latest
      running := ?running
      workers := ?workers
      bandwidth := inv.partBandwidth at_
      wired := inv.partWired
      api := by rw [limits]; exact inv.partApi at_
      duty := by rw [limits]; exact inv.partDuty at_
      paused := ?paused
      sane := ?sane
      budgets := ?within }
  case latest =>
    rw [limits, calls]
    exact .inr (inv.last at_)
  case running =>
    rw [limits]
    cases p <;> (rintro call ⟨⟩; try rfl)
  case workers =>
    cases p with
    | budgets => exact (ctrl_setLimits _ _).2
    | _ => exact inv.workers
  case paused =>
    intro done
    cases p with
    | pause => rfl
    | _ => exact inv.paused (done_part at_ (by decide) done)
  case sane =>
    rw [calls]
    intro narrow
    cases p with
    | budgets => exact (ctrl_setLimits s.alloc s.limits.maxWorkers).1 ▸ inv.sane narrow
    | _ => exact inv.sane narrow
  case within =>
    rw [limits, calls]
    intro narrow done
    cases p with
    | budgets => exact within_setLimits _ _
    | _ => exact inv.budgets narrow (done_part at_ (by decide) done)

theorem Inv.admitFile (inv : Inv w s) : Inv w { s with alloc := (s.alloc.admitFile file blockSize remaining).getD s.alloc } := by
  cases admitted : s.alloc.admitFile file blockSize remaining with
  | none => exact inv.allocKept rfl rfl rfl rfl
  | some a =>
    simp only [Allocator.admitFile] at admitted
    split at admitted <;> cases admitted
    exact inv.allocKept rfl rfl rfl rfl

theorem inv_next (inv : Inv w s) (stepped : s.next e = some t) : Inv w t := by
  cases e with
  | setLimits l =>
    simp only [next] at stepped
    split at stepped <;> cases stepped
    exact inv.setLimits ‹_› l
  | part now =>
    obtain ⟨⟨l, p⟩, at_, rfl⟩ := Option.map_eq_some_iff.mp stepped
    obtain rfl : l = s.limits := inv.running _ at_
    exact inv.part at_ now
  | tuneTick now rate utilization kills =>
    cases stepped
    exact inv.tuneTick
  | admitFile file blockSize remaining =>
    cases stepped
    exact inv.admitFile
  | noteBlockDone file n =>
    cases stepped
    exact inv.allocKept rfl rfl rfl rfl
  | finish file =>
    cases stepped
    exact inv.allocKept rfl rfl rfl rfl
  | bandwidthWait now n =>
    cases stepped
    exact { inv with bandwidth := (map_terms_attempt s.bandwidth now n).trans inv.bandwidth }
  | apiWait now n =>
    cases stepped
    refine { inv with wired := ⟨?_, inv.wired.2⟩, api := fun done limited => ?_ }
    · rw [Option.isSome_map, inv.wired.1]
    · exact (map_terms_attempt s.api now n).trans (inv.api done limited)

theorem Inv.made (inv : Inv w s) (made : s.calls = earlier ++ [l]) : s.limits = l := by
  rcases inv.latest with ⟨none, _, _⟩ | last
  · rw [none] at made
    cases earlier <;> cases made
  · rw [made, List.getLast?_concat] at last
    exact (Option.some.inj last).symm

/-- After a validated call the API bucket, the duty level and the pause are what it says and the budgets are within its
limit, whatever came before; the bandwidth bucket has its rate exactly when the call limits the bandwidth or the bucket
already had that rate. -/
theorem limits_as_last_set (w : Wired) (ran : run next (initial w) es = some s) (idle : s.running = none)
    (made : s.calls = earlier ++ [l]) (valid : l.Valid) :
    (s.bandwidth.map Bucket.rate = (w.bandwidth.map fun _ => l.maxBandwidthBps) ↔
        0 < l.maxBandwidthBps ∨ ∀ b ∈ w.bandwidth, (inForce b.terms earlier).1 = l.maxBandwidthBps) ∧
      s.api.map Bucket.terms = (w.api.map fun _ => (l.apiIOPS, max l.apiBurst 1)) ∧
      s.duty = (w.duty.map fun _ => l.diskActivePct) ∧
      s.paused = false ∧
      s.alloc.connBudget ≤ l.maxWorkers ∧ s.alloc.committedBudget ≤ l.maxWorkers ∧
      (NarrowCalls w s.calls → s.alloc.budget ≤ l.maxWorkers ∧ s.alloc.committed ≤ l.maxWorkers) := by
  have inv : Inv w s := invariant inv_next inv_initial ran
  obtain rfl := inv.made made
  obtain ⟨iops, low, high, workers⟩ := valid.ranges
  have done : ∀ p, s.done p := fun p => ⟨by rw [made]; simp, by simp [idle]⟩
  have top : max s.limits.maxWorkers 1 = s.limits.maxWorkers := max_eq_left workers
  refine ⟨?_, inv.api (done _) iops, ?_, ?_, ?_, ?_, ?_⟩
  · have bandwidth := congrArg (Option.map Prod.fst) inv.bandwidth
    simp only [reached, idle, made, inForce_concat, Option.map_map] at bandwidth
    rw [show s.bandwidth.map Bucket.rate = s.bandwidth.map (Prod.fst ∘ Bucket.terms) from rfl, bandwidth]
    cases w.bandwidth with
    | none => simp
    | some b => by_cases limited : 0 < s.limits.maxBandwidthBps <;> simp [limited]
  · rw [inv.duty (done _) low, clampLevel_of_range low high]
  · rw [inv.paused (done _), Limits.paused]
    simp only [Bool.and_eq_false_iff, decide_eq_false_iff_not]
    exact .inr (by omega)
  · rw [Allocator.connBudget, inv.workers, top]
    exact min_le_right _ _
  · rw [Allocator.committedBudget, inv.workers, top]
    exact min_le_right _ _
  · intro narrow
    have within := inv.budgets narrow (done _)
    rwa [Within, top] at within

/-- The command's own wiring: both buckets and the duty limiter, from one set of limits. -/
def wire (l : Limits) (now : Nat) : Wired where
  limits := l
  bandwidth := some (.newBucket l.maxBandwidthBps (bandwidthBurst l.maxBandwidthBps) (bandwidthBurst l.maxBandwidthBps) now)
  api := some (.newBucket l.apiIOPS l.apiBurst 1 now)
  duty := some (clampLevel l.diskActivePct)

def call (l : Limits) (now : Nat) : List Event := [.setLimits l, .part now, .part now, .part now, .part now, .part now]

def tenMegabytes : Limits := { Limits.defaultLimits with maxBandwidthBps := 10000000, maxWorkers := 8 }

/-- The limit is taken back, and the bucket keeps it. -/
theorem unlimited_keeps_rate :
    Limits.Valid tenMegabytes ∧ Limits.Valid .defaultLimits ∧
      ∃ s, run next (initial (wire .defaultLimits 0)) (call tenMegabytes 0 ++ call .defaultLimits 0) = some s ∧
        s.running = none ∧ s.calls = [tenMegabytes, .defaultLimits] ∧
        s.bandwidth.map Bucket.rate = some 10000000 ∧ Limits.defaultLimits.maxBandwidthBps = 0 := by
  have ran : (run next (initial (wire .defaultLimits 0)) (call tenMegabytes 0 ++ call .defaultLimits 0)).map
      (fun s => (s.running, s.calls, s.bandwidth.map Bucket.rate)) =
      some (none, [tenMegabytes, .defaultLimits], some 10000000) := by
    decide +kernel
  obtain ⟨s, ran, seen⟩ := Option.map_eq_some_iff.mp ran
  simp only [Prod.mk.injEq] at seen
  exact ⟨rfl, rfl, s, ran, seen.1, seen.2.1, seen.2.2, rfl⟩

/-- The pause key and back, with a tick inside the call that resumes. -/
def resumed : List Event :=
  call tenMegabytes 0 ++ [.tuneTick 0 10 0 0] ++ call { tenMegabytes with maxBandwidthBps := 0, diskActivePct := 0 } 0 ++
    [.setLimits tenMegabytes, .part 0, .tuneTick 1000000000 10 0 0, .part 0, .part 0, .part 0, .part 0]

theorem limits_as_last_set_resumed :
    ∃ s, run next (initial (wire .defaultLimits 0)) resumed = some s ∧
      s.bandwidth.map Bucket.rate = some 10000000 ∧ s.api.map Bucket.terms = some (5, 1) ∧ s.duty = some 100 ∧
      s.paused = false ∧ s.alloc.budget ≤ 8 ∧ s.alloc.committed ≤ 8 := by
  have ran : (run next (initial (wire .defaultLimits 0)) resumed).map (fun s => (s.running, s.calls)) =
      some (none, [tenMegabytes, { tenMegabytes with maxBandwidthBps := 0, diskActivePct := 0 }] ++ [tenMegabytes]) := by
    decide +kernel
  obtain ⟨s, ran, seen⟩ := Option.map_eq_some_iff.mp ran
  simp only [Prod.mk.injEq] at seen
  obtain ⟨idle, made⟩ := seen
  obtain ⟨bandwidth, api, duty, paused, _, _, budgets⟩ := limits_as_last_set (wire .defaultLimits 0) ran idle made rfl
  have narrow : NarrowCalls (wire .defaultLimits 0) s.calls := by
    rw [made]
    exact ⟨by decide, by decide⟩
  exact ⟨s, ran, bandwidth.mpr (.inl (by decide)), api, duty, paused, budgets narrow⟩

end Limiting
end Hfdl
