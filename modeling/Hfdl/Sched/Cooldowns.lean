import Hfdl.Relational.Table
import Hfdl.Store.Model
import Hfdl.Transition
import Mathlib.Algebra.Order.Field.Rat

/-! The persisted cooldown gates. A worker that was turned away computes until when its
endpoint or upstream is closed and writes that time a moment later, so the writes of
several workers reach the database in any order. -/
namespace Hfdl
open Relational Transition

inductive CooldownKind where
  | api | cas
deriving DecidableEq, Repr

structure EndpointCooldown where
  endpoint : String
  kind : CooldownKind
  until_ : Time
  reason : String
deriving DecidableEq, Repr

def EndpointCooldown.key (c : EndpointCooldown) : String × CooldownKind := (c.endpoint, c.kind)

structure UpstreamStats where
  endpoint : String
  emaBps : ℚ
  successes : Nat
  errors : Nat
  cooldownUntil : Option Time
  blacklistUntil : Option Time
deriving DecidableEq, Repr

structure Gates where
  cooldowns : Table EndpointCooldown EndpointCooldown.key
  upstreams : Table UpstreamStats UpstreamStats.endpoint

namespace Gates

/-- A later write replaces the time of an earlier one. -/
def setCooldown (g : Gates) (endpoint : String) (kind : CooldownKind) (until_ : Time) (reason : String) : Gates :=
  { g with cooldowns := g.cooldowns.upsert ⟨endpoint, kind, until_, reason⟩ ⟨fun c => { c with until_, reason }, fun _ => rfl⟩ }

/-- The gate of `(endpoint, kind)`, none without a row. -/
def cooldownUntil (g : Gates) (endpoint : String) (kind : CooldownKind) : Option Time :=
  (g.cooldowns.get (endpoint, kind)).map (·.until_)

def upsertUpstream (g : Gates) (endpoint : String) : Gates :=
  { g with upstreams := g.upstreams.upsert ⟨endpoint, 0, 0, 0, none, none⟩ ⟨id, fun _ => rfl⟩ }

/-- `COALESCE` keeps a stored gate only when the call brings none. -/
def updateUpstream (g : Gates) (endpoint : String) (emaBps : ℚ) (ok : Bool) (cooldownUntil blacklistUntil : Option Time) :
    Gates :=
  let successes := if ok then 1 else 0
  let errors := if ok then 0 else 1
  let set : Setter UpstreamStats.endpoint :=
    ⟨fun u => { u with
      emaBps, successes := u.successes + successes, errors := u.errors + errors
      cooldownUntil := cooldownUntil.or u.cooldownUntil, blacklistUntil := blacklistUntil.or u.blacklistUntil }, fun _ => rfl⟩
  { g with upstreams := g.upstreams.upsert ⟨endpoint, emaBps, successes, errors, cooldownUntil, blacklistUntil⟩ set }

end Gates

/-- What a gate closes. -/
inductive Gate where
  | endpoint (endpoint : String) (kind : CooldownKind)
  | upstream (endpoint : String)
deriving DecidableEq, Repr

def Gates.until_ (g : Gates) : Gate → Option Time
  | .endpoint endpoint kind => g.cooldownUntil endpoint kind
  | .upstream endpoint => (g.upstreams.get endpoint).bind (·.cooldownUntil)

def upstreamCooldown : Nat := 30 * second

/-- The ladder without its jitter: 1s doubling up to 5m. -/
def cooldownLadder (attempt : Nat) : Nat := min (second <<< min attempt 9) (300 * second)

/-- The jitter adds or takes away up to a fifth. -/
def Jittered (d d' : Nat) : Prop := 4 * d ≤ 5 * d' ∧ 5 * d' ≤ 6 * d
deriving Decidable

/-- A statement that a worker is about to execute. -/
inductive GateWrite where
  | setCooldown (endpoint : String) (kind : CooldownKind) (until_ : Time) (reason : String)
  | updateUpstream (endpoint : String) (emaBps : ℚ) (ok : Bool) (cooldownUntil blacklistUntil : Option Time)
deriving DecidableEq, Repr

namespace GateWrite

def exec (g : Gates) : GateWrite → Gates
  | setCooldown endpoint kind until_ reason => g.setCooldown endpoint kind until_ reason
  | updateUpstream endpoint emaBps ok cooldownUntil blacklistUntil =>
    g.updateUpstream endpoint emaBps ok cooldownUntil blacklistUntil

def record : GateWrite → Option (Gate × Time)
  | setCooldown endpoint kind until_ _ => some (.endpoint endpoint kind, until_)
  | updateUpstream endpoint _ _ cooldownUntil _ => cooldownUntil.map fun t => (.upstream endpoint, t)

end GateWrite

/-- The tables, the clock, the statement each worker is about to execute and, per gate, the times recorded so far. -/
structure Cooling where
  now : Time
  gates : Gates
  pending : Nat → Option GateWrite
  recorded : Gate → List Time

namespace Cooling

inductive Event where
  | advance (d : Nat)
  /-- `setCooldown` of the manager, with the jittered backoff that stands in for a missing `Retry-After`. -/
  | rateLimited (w : Nat) (endpoint : String) (kind : CooldownKind) (retryAfter : Int) (attempt backoff : Nat) (reason : String)
  /-- `maybeCooldownUpstream` on a failed attempt with a status code. -/
  | attemptFailed (w : Nat) (upstream : String) (statusCode : Nat) (retryAfter : Int)
  | persistEMA (w : Nat) (upstream : String) (emaBps : ℚ)
  | register (upstream : String)
  /-- The statement of a worker is executed, or fails. -/
  | write (w : Nat)
  | writeFailed (w : Nat)

def assign (c : Cooling) (w : Nat) (write : Option GateWrite) : Cooling :=
  { c with pending := fun v => if v = w then write else c.pending v }

def note (c : Cooling) : Option (Gate × Time) → Cooling
  | none => c
  | some (gate, t) => { c with recorded := fun g => if g = gate then t :: c.recorded g else c.recorded g }

def next (c : Cooling) : Event → Option Cooling
  | .advance d => some { c with now := c.now + d }
  | .rateLimited w endpoint kind retryAfter attempt backoff reason =>
    if c.pending w = none ∧ Jittered (cooldownLadder attempt) backoff then
      let d := if retryAfter ≤ 0 then backoff else retryAfter.toNat
      some (c.assign w (some (.setCooldown endpoint kind (c.now + d) reason)))
    else none
  | .attemptFailed w upstream statusCode retryAfter =>
    if c.pending w = none then
      if upstream = "" ∨ (statusCode ≠ 429 ∧ statusCode ≠ 503) then some c
      else
        let d := if retryAfter ≤ 0 then upstreamCooldown else retryAfter.toNat
        some (c.assign w (some (.updateUpstream upstream 0 false (some (c.now + d)) none)))
    else none
  | .persistEMA w upstream emaBps =>
    if c.pending w = none then some (c.assign w (some (.updateUpstream upstream emaBps true none none))) else none
  | .register upstream => some { c with gates := c.gates.upsertUpstream upstream }
  | .write w =>
    match c.pending w with
    | none => none
    | some write => some ({ c with gates := write.exec c.gates }.assign w none |>.note write.record)
  | .writeFailed w => if c.pending w = none then none else some (c.assign w none)

/-- A database as it is found: the stored times are what was recorded. -/
def start (now : Time) (gates : Gates) : Cooling := ⟨now, gates, fun _ => none, fun g => (gates.until_ g).toList⟩

theorem until_exec (g : Gates) (write : GateWrite) (gate : Gate) :
    (write.exec g).until_ gate = match write.record with
      | none => g.until_ gate
      | some (mine, t) => if gate = mine then some t else g.until_ gate := by
  cases write with
  | setCooldown endpoint kind t reason =>
    cases gate with
    | endpoint e k =>
      simp only [GateWrite.exec, GateWrite.record, Gates.until_, Gates.cooldownUntil, Gates.setCooldown, Table.get_upsert,
        EndpointCooldown.key, Prod.mk.injEq, Gate.endpoint.injEq]
      split
      · cases g.cooldowns.get (e, k) <;> rfl
      · rfl
    | upstream e => simp [GateWrite.exec, GateWrite.record, Gates.until_, Gates.setCooldown]
  | updateUpstream endpoint ema ok cooldown blacklist =>
    cases gate with
    | endpoint e k =>
      cases cooldown <;> simp [GateWrite.exec, GateWrite.record, Gates.until_, Gates.cooldownUntil, Gates.updateUpstream]
    | upstream e =>
      simp only [GateWrite.exec, GateWrite.record, Gates.until_, Gates.updateUpstream, Table.get_upsert]
      by_cases here : e = endpoint
      · subst here
        cases cooldown <;> cases g.upstreams.get e <;> simp
      · cases cooldown <;> simp [here]

theorem until_register (g : Gates) (upstream : String) (gate : Gate) :
    (g.upsertUpstream upstream).until_ gate = g.until_ gate := by
  cases gate with
  | endpoint e k => rfl
  | upstream e =>
    simp only [Gates.until_, Gates.upsertUpstream, Table.get_upsert]
    split
    · cases g.upstreams.get e <;> rfl
    · rfl

/-- A statement does not bring a time before the stored one. -/
def Ordered (c : Cooling) : Event → Prop
  | .write w => ∀ write ∈ c.pending w, ∀ r ∈ write.record, ∀ stored ∈ c.gates.until_ r.1, stored ≤ r.2
  | _ => True

instance : Decidable (Ordered c e) := by
  unfold Ordered
  split <;> infer_instance

/-- Of several times the latest is stored, without any none. -/
def IsLatest (times : List Time) : Option Time → Prop
  | none => times = []
  | some t => IsGreatest {t | t ∈ times} t

theorem IsLatest.of_mem_iff (latest : IsLatest times stored) (latest' : IsLatest times' stored')
    (same : ∀ t, t ∈ times ↔ t ∈ times') : stored = stored' := by
  have sets : {t | t ∈ times} = {t | t ∈ times'} := Set.ext same
  cases stored with
  | none =>
    cases stored' with
    | none => rfl
    | some t =>
      have empty : times = [] := latest
      have member : t ∈ times' := latest'.1
      rw [← same, empty] at member
      cases member
  | some t =>
    cases stored' with
    | none =>
      have empty : times' = [] := latest'
      have member : t ∈ times := latest.1
      rw [same, empty] at member
      cases member
    | some t' =>
      have greatest : IsGreatest {t | t ∈ times} t' := sets ▸ latest'
      rw [IsGreatest.unique latest greatest]

theorem IsLatest.cons (latest : IsLatest times stored) (later : ∀ t ∈ stored, t ≤ new) : IsLatest (new :: times) (some new) := by
  refine ⟨List.mem_cons_self, fun t member => ?_⟩
  rcases List.mem_cons.mp member with rfl | before
  · exact Nat.le_refl _
  · cases stored with
    | none =>
      have empty : times = [] := latest
      rw [empty] at before
      cases before
    | some old => exact Nat.le_trans (latest.2 before) (later old rfl)

def Latest (c : Cooling) : Prop := ∀ gate, IsLatest (c.recorded gate) (c.gates.until_ gate)

theorem latest_note {c : Cooling} {write : GateWrite} (latest : Latest c)
    (ordered : ∀ r ∈ write.record, ∀ stored ∈ c.gates.until_ r.1, stored ≤ r.2) :
    Latest ({ c with gates := write.exec c.gates }.assign w none |>.note write.record) := by
  intro gate
  have stored := until_exec c.gates write gate
  cases recorded : write.record with
  | none =>
    simp only [recorded] at stored
    simp only [note, assign, stored]
    exact latest gate
  | some r =>
    obtain ⟨mine, t⟩ := r
    simp only [recorded] at stored
    simp only [note, assign, stored]
    by_cases here : gate = mine
    · subst here
      rw [if_pos rfl, if_pos rfl]
      exact (latest gate).cons (ordered (gate, t) recorded)
    · rw [if_neg here, if_neg here]
      exact latest gate

theorem latest_next {c c' : Cooling} (latest : Latest c) (ordered : Ordered c e) (stepped : next c e = some c') : Latest c' := by
  cases e with
  | advance d =>
    cases stepped
    exact latest
  | rateLimited | persistEMA | writeFailed =>
    simp only [next] at stepped
    split at stepped <;> cases stepped
    exact latest
  | attemptFailed =>
    simp only [next] at stepped
    split at stepped
    · split at stepped <;> cases stepped <;> exact latest
    · cases stepped
  | register upstream =>
    cases stepped
    intro gate
    simp only [until_register]
    exact latest gate
  | write w =>
    simp only [next] at stepped
    split at stepped
    · cases stepped
    · rename_i write pending
      cases stepped
      exact latest_note latest (ordered write pending)

theorem latest_start (now : Time) (gates : Gates) : Latest (start now gates) := by
  intro gate
  cases stored : gates.until_ gate <;> simp [start, stored, IsLatest]

def Closed (c : Cooling) (gate : Gate) (t : Time) : Prop := ∃ until_ ∈ c.gates.until_ gate, t < until_

/-- When no write brings a time before the stored one, every gate holds the latest time recorded for it: it is closed up to
each of them, and what was recorded decides it whatever the order. -/
theorem cooldown_latest {begin_ : Time} {found : Gates} (ran : run next (start begin_ found) es = some c)
    (ordered : Meets next Ordered (start begin_ found) es) :
    (∀ gate, IsLatest (c.recorded gate) (c.gates.until_ gate)) ∧
      (∀ gate, ∀ recorded ∈ c.recorded gate, ∀ t < recorded, c.Closed gate t) ∧
      ∀ es' c', run next (start begin_ found) es' = some c' → Meets next Ordered (start begin_ found) es' →
        ∀ gate, (c.recorded gate).Perm (c'.recorded gate) → c.gates.until_ gate = c'.gates.until_ gate := by
  have latest : Latest c := invariant_meeting latest_next (latest_start begin_ found) ran ordered
  refine ⟨latest, ?_, ?_⟩
  · intro gate recorded member t before
    have here := latest gate
    cases stored : c.gates.until_ gate with
    | none =>
      rw [stored] at here
      have empty : c.recorded gate = [] := here
      rw [empty] at member
      cases member
    | some u =>
      rw [stored] at here
      exact ⟨u, stored, Nat.lt_of_lt_of_le before (here.2 member)⟩
  · intro es' c' ran' ordered' gate same
    have latest' : Latest c' := invariant_meeting latest_next (latest_start begin_ found) ran' ordered'
    exact (latest gate).of_mem_iff (latest' gate) fun t => same.mem_iff

/-- Two workers are turned away, the first for longer; `order` says whose write comes first. -/
def twoReports (order : List Nat) : List Event :=
  [.rateLimited 0 "hub" .api 60 0 second "hub api 429", .attemptFailed 1 "mirror" 429 60, .advance 1,
    .rateLimited 2 "hub" .api 5 0 second "resolve 429", .attemptFailed 3 "mirror" 503 5] ++ order.map .write

/-- The later report is shorter and its write comes last: both gates open at 6 although 60 was recorded. -/
theorem late_write_reopens :
    ∃ c, run next (start 0 ⟨.empty, .empty⟩) (twoReports [0, 1, 2, 3]) = some c ∧
      ∀ gate ∈ [Gate.endpoint "hub" .api, .upstream "mirror"], 60 ∈ c.recorded gate ∧ c.gates.until_ gate = some 6 ∧
        ¬ IsLatest (c.recorded gate) (c.gates.until_ gate) ∧ ¬ c.Closed gate 30 := by
  have ran : ∃ c, run next (start 0 ⟨.empty, .empty⟩) (twoReports [0, 1, 2, 3]) = some c ∧
      ∀ gate ∈ [Gate.endpoint "hub" .api, .upstream "mirror"], 60 ∈ c.recorded gate ∧ c.gates.until_ gate = some 6 :=
    ⟨_, rfl, by decide⟩
  obtain ⟨c, ran, each⟩ := ran
  refine ⟨c, ran, fun gate listed => ?_⟩
  obtain ⟨recorded, stored⟩ := each gate listed
  refine ⟨recorded, stored, fun latest => ?_, ?_⟩
  · rw [stored] at latest
    have bound : 60 ≤ 6 := latest.2 recorded
    omega
  · rintro ⟨u, found, later⟩
    rw [stored] at found
    cases found
    exact absurd later (by decide)

theorem cooldown_latest_ordered :
    ∃ c, run next (start 0 ⟨.empty, .empty⟩) (twoReports [2, 3, 1, 0]) = some c ∧
      c.gates.until_ (.endpoint "hub" .api) = some 60 ∧ IsLatest (c.recorded (.upstream "mirror")) (some 60) ∧
      c.Closed (.endpoint "hub" .api) 59 := by
  have ran : ∃ c, run next (start 0 ⟨.empty, .empty⟩) (twoReports [2, 3, 1, 0]) = some c ∧
      c.gates.until_ (.endpoint "hub" .api) = some 60 ∧ c.gates.until_ (.upstream "mirror") = some 60 ∧
      60 ∈ c.recorded (.endpoint "hub" .api) := ⟨_, rfl, by decide, by decide, by decide⟩
  obtain ⟨c, ran, hub, mirror, recorded⟩ := ran
  obtain ⟨latest, closed, -⟩ := cooldown_latest ran (by decide)
  refine ⟨c, ran, hub, mirror ▸ latest (.upstream "mirror"), closed _ 60 recorded 59 (by decide)⟩

end Cooling
end Hfdl
