import Hfdl.Int64
import Hfdl.Transition
import Mathlib.Algebra.Order.Field.Rat
import Mathlib.Data.Rat.Floor
import Mathlib.Tactic.Linarith
import Mathlib.Tactic.Positivity
import Mathlib.Tactic.Ring

/-! The token bucket of the API and bandwidth limits. Tokens are rationals and times
are nanoseconds. `consumed` sums what the calls took and `accrued` the rate in force
over the time that passed, piece by piece; no operation reads either. -/
namespace Hfdl.Throttle
open Transition

structure Bucket where
  rate : Int
  burst : Int
  tokens : ℚ
  last : Nat
  /-- Which wake channel is the current one. -/
  wake : Nat

def seconds (ns : Nat) : ℚ := ns / second

/-- A rate below zero is no limit; a limited bucket holds at least one token. -/
def normalBurst (perSec burst : Int) : Int := if 0 < perSec ∧ burst < 1 then 1 else burst

namespace Bucket

def newBucket (perSec burst start : Int) (now : Nat) : Bucket :=
  ⟨max perSec 0, normalBurst perSec burst, (max start 0 : Int), now, 0⟩

/-- Tokens for the time since the last refill, up to the burst. -/
def refill (b : Bucket) (now : Nat) (rate : Int) : Bucket :=
  if rate ≤ 0 then { b with last := now }
  else if now ≤ b.last then b
  else { b with last := now, tokens := min (b.tokens + rate * seconds (now - b.last)) b.burst }

def setRate (b : Bucket) (perSec burst : Int) (now : Nat) : Bucket :=
  let tokens := (b.refill now b.rate).tokens
  { rate := max perSec 0
    burst := normalBurst perSec burst
    tokens := if 0 < perSec then max (min tokens (normalBurst perSec burst)) 0 else tokens
    last := (b.refill now b.rate).last
    wake := b.wake + 1 }

/-- What one pass of the loop in `Wait` finds. -/
inductive Grant where
  | unlimited
  | took (n : Int)
  | short (delay : Nat)

/-- A deficit that rounds to no time waits a millisecond. -/
def delay (deficit : ℚ) (rate : Int) : Nat :=
  if ⌊deficit / rate * second⌋ ≤ 0 then 1000000 else ⌊deficit / rate * second⌋.toNat

def attempt (b : Bucket) (now : Nat) (remaining : Int) : Grant × Bucket :=
  if b.rate = 0 then (.unlimited, b)
  else
    let filled := b.refill now b.rate
    let take := min remaining filled.burst
    if (take : ℚ) ≤ filled.tokens then (.took take, { filled with tokens := filled.tokens - take })
    else (.short (delay (take - filled.tokens) b.rate), filled)

end Bucket

/-- A call of `Wait`: what it still needs, and until when or on which channel it sleeps. -/
structure Waiter where
  remaining : Int
  asleep : Option (Nat × Nat)

structure Paced where
  now : Nat
  bucket : Bucket
  waiting : Nat → Option Waiter
  consumed : ℚ
  accrued : ℚ

namespace Paced

inductive Event where
  | tick (d : Nat)
  | wait (w : Nat) (n : Int)
  /-- The critical section of the loop. -/
  | attempt (w : Nat)
  | timer (w : Nat)
  | woken (w : Nat)
  | cancel (w : Nat)
  | setRate (perSec burst : Int)

def assign (s : Paced) (w : Nat) (x : Option Waiter) : Paced := { s with waiting := Function.update s.waiting w x }

def receive (s : Paced) (w : Nat) (remaining : Int) : Bucket.Grant × Bucket → Paced
  | (.unlimited, b) => { s with bucket := b, consumed := s.consumed + remaining }.assign w none
  | (.took n, b) =>
    { s with bucket := b, consumed := s.consumed + n }.assign w (if remaining - n ≤ 0 then none else some ⟨remaining - n, none⟩)
  | (.short d, b) => { s with bucket := b }.assign w (some ⟨remaining, some (s.now + d, b.wake)⟩)

def next (s : Paced) : Event → Option Paced
  | .tick d => some { s with now := s.now + d, accrued := s.accrued + s.bucket.rate * seconds d }
  | .wait w n =>
    match s.waiting w with
    | some _ => none
    | none => some (if n ≤ 0 then s else s.assign w (some ⟨n, none⟩))
  | .attempt w =>
    match s.waiting w with
    | some ⟨remaining, none⟩ => some (s.receive w remaining (s.bucket.attempt s.now remaining))
    | _ => none
  | .timer w =>
    match s.waiting w with
    | some ⟨remaining, some (deadline, _)⟩ => if deadline ≤ s.now then some (s.assign w (some ⟨remaining, none⟩)) else none
    | _ => none
  | .woken w =>
    match s.waiting w with
    | some ⟨remaining, some (_, channel)⟩ => if channel < s.bucket.wake then some (s.assign w (some ⟨remaining, none⟩)) else none
    | _ => none
  | .cancel w =>
    match s.waiting w with
    | none => none
    | some _ => some (s.assign w none)
  | .setRate perSec burst => some { s with bucket := s.bucket.setRate perSec burst s.now }

def start (b : Bucket) (now : Nat) : Paced := ⟨now, b, fun _ => none, 0, 0⟩

end Paced

namespace Bucket
variable {b : Bucket} {now : Nat} {perSec size : Int}

theorem seconds_nonneg (ns : Nat) : 0 ≤ seconds ns := by
  unfold seconds
  positivity

theorem seconds_zero : seconds 0 = 0 := by simp [seconds]

theorem seconds_add (a c : Nat) : seconds (a + c) = seconds a + seconds c := by
  simp only [seconds, Nat.cast_add]
  ring

/-- A limited bucket holds between no token and its burst; its clock is not ahead. -/
structure Sound (b : Bucket) (now : Nat) : Prop where
  rate : 0 ≤ b.rate
  past : b.last ≤ now
  limited : 0 < b.rate → 1 ≤ b.burst ∧ 0 ≤ b.tokens ∧ b.tokens ≤ b.burst

def level (b : Bucket) (now : Nat) : ℚ := min (b.tokens + b.rate * seconds (now - b.last)) b.burst

theorem Sound.level_bounds (sound : Sound b now) (limited : 0 < b.rate) : 0 ≤ b.level now ∧ b.level now ≤ b.burst := by
  obtain ⟨one, low, high⟩ := sound.limited limited
  have rate : (0 : ℚ) ≤ b.rate := by exact_mod_cast sound.rate
  have burst : (0 : ℚ) ≤ b.burst := low.trans high
  have more : 0 ≤ (b.rate : ℚ) * seconds (now - b.last) := mul_nonneg rate (seconds_nonneg _)
  exact ⟨le_min (by linarith) burst, min_le_right _ _⟩

theorem Sound.refill_tokens (sound : Sound b now) (limited : 0 < b.rate) :
    b.refill now b.rate = { b with last := now, tokens := b.level now } := by
  obtain ⟨_, _, high⟩ := sound.limited limited
  rw [refill, if_neg (not_le.mpr limited)]
  split
  · case isTrue still =>
    have same : b.last = now := le_antisymm sound.past still
    have level : b.level now = b.tokens := by
      simp only [Bucket.level, same, Nat.sub_self, seconds_zero, mul_zero, add_zero]
      exact min_eq_left high
    rw [level, ← same]
  · rfl

theorem level_fresh (fresh : b.last = now) (high : b.tokens ≤ b.burst) : b.level now = b.tokens := by
  simp only [level, fresh, Nat.sub_self, seconds_zero, mul_zero, add_zero]
  exact min_eq_left high

theorem level_later (sound : Sound b now) (d : Nat) :
    b.level (now + d) ≤ b.level now + b.rate * seconds d := by
  have rate : (0 : ℚ) ≤ b.rate := by exact_mod_cast sound.rate
  have past := sound.past
  have split : seconds (now + d - b.last) = seconds (now - b.last) + seconds d := by
    rw [← seconds_add, Nat.sub_add_comm past]
  have gained : 0 ≤ (b.rate : ℚ) * seconds d := mul_nonneg rate (seconds_nonneg d)
  unfold level
  rw [split]
  rcases min_cases (b.tokens + b.rate * seconds (now - b.last)) (b.burst : ℚ) with ⟨same, _⟩ | ⟨same, _⟩
  · rw [same]
    exact (min_le_left _ _).trans (by linarith)
  · rw [same]
    exact (min_le_right _ _).trans (by linarith)

theorem normalBurst_pos (limited : 0 < perSec) : 1 ≤ normalBurst perSec size := by
  unfold normalBurst
  split <;> omega

theorem sound_newBucket (perSec burst start : Int) (within : start ≤ burst) (now : Nat) :
    Sound (newBucket perSec burst start now) now := by
  refine ⟨le_max_right _ _, le_refl _, ?_⟩
  intro limited
  have positive : 0 < perSec := by
    simp only [newBucket] at limited
    omega
  have floor : max start 0 ≤ normalBurst perSec burst := by
    unfold normalBurst
    split <;> omega
  refine ⟨normalBurst_pos positive, ?_, ?_⟩
  · show (0 : ℚ) ≤ ((max start 0 : Int) : ℚ)
    exact_mod_cast le_max_right start 0
  · show ((max start 0 : Int) : ℚ) ≤ (normalBurst perSec burst : ℚ)
    exact_mod_cast floor

theorem Sound.setRate (sound : Sound b now) (perSec burst : Int) : Sound (b.setRate perSec burst now) now := by
  refine ⟨le_max_right _ _, ?_, ?_⟩
  · show (b.refill now b.rate).last ≤ now
    rcases lt_or_ge 0 b.rate with limited | free
    · rw [sound.refill_tokens limited]
    · rw [refill, if_pos free]
  · intro limited
    have positive : 0 < perSec := by
      simp only [Bucket.setRate] at limited
      omega
    have one : 1 ≤ normalBurst perSec burst := normalBurst_pos positive
    have burst' : (0 : ℚ) ≤ normalBurst perSec burst := by exact_mod_cast (by omega : (0 : Int) ≤ normalBurst perSec burst)
    refine ⟨one, ?_, ?_⟩
    · simp only [Bucket.setRate, if_pos positive]
      exact le_max_right _ _
    · simp only [Bucket.setRate, if_pos positive]
      exact max_le (min_le_right _ _) burst'

theorem Sound.level_setRate (sound : Sound b now) (limited : 0 < b.rate) (positive : 0 < perSec) :
    (b.setRate perSec size now).level now ≤ b.level now := by
  have after := (sound.setRate perSec size).limited (by simp only [Bucket.setRate]; omega)
  have fresh : (b.setRate perSec size now).last = now := by
    show (b.refill now b.rate).last = now
    rw [sound.refill_tokens limited]
  rw [level_fresh fresh after.2.2]
  simp only [Bucket.setRate, if_pos positive, sound.refill_tokens limited]
  exact max_le (min_le_left _ _) (sound.level_bounds limited).1

/-- One pass of the loop over a limited bucket: the tokens it takes come out of the level. -/
theorem Sound.attempt (sound : Sound b now) (limited : 0 < b.rate) (needed : 0 < remaining) :
    ∃ taken : Int, 0 ≤ taken ∧ (b.attempt now remaining).2.rate = b.rate ∧ (b.attempt now remaining).2.burst = b.burst ∧
      Sound (b.attempt now remaining).2 now ∧ (b.attempt now remaining).2.level now = b.level now - taken ∧
      ((b.attempt now remaining).1 = .took taken ∨ taken = 0 ∧ ∃ d, (b.attempt now remaining).1 = .short d) := by
  obtain ⟨one, low, high⟩ := sound.limited limited
  obtain ⟨bottom, top⟩ := sound.level_bounds limited
  have other : b.rate ≠ 0 := by omega
  simp only [Bucket.attempt, if_neg other, sound.refill_tokens limited]
  split
  · case isTrue enough =>
    have left : 0 ≤ b.level now - (min remaining b.burst : Int) := sub_nonneg.mpr enough
    have taken : (0 : ℚ) ≤ (min remaining b.burst : Int) := by exact_mod_cast (by omega : (0 : Int) ≤ min remaining b.burst)
    have kept : b.level now - (min remaining b.burst : Int) ≤ b.burst := by linarith
    refine ⟨min remaining b.burst, by omega, rfl, rfl, ⟨sound.rate, le_refl _, fun _ => ⟨one, left, kept⟩⟩, ?_, Or.inl rfl⟩
    exact level_fresh rfl kept
  · refine ⟨0, le_refl _, rfl, rfl, ⟨sound.rate, le_refl _, fun _ => ⟨one, bottom, top⟩⟩, ?_, Or.inr ⟨rfl, _, rfl⟩⟩
    rw [level_fresh rfl top]
    simp

end Bucket

namespace Paced
variable {s t : Paced}

/-- Every reachable state: a sound bucket, and waiters that need something. -/
structure Steady (s : Paced) : Prop where
  bucket : s.bucket.Sound s.now
  needs : ∀ w, ∀ x ∈ s.waiting w, 0 < x.remaining

/-- The tokens at hand: those of a limited bucket with the refill that is due. -/
def atHand (s : Paced) : ℚ := if 0 < s.bucket.rate then s.bucket.level s.now else 0

/-- What was taken and is at hand, without what accrued. -/
def balance (s : Paced) : ℚ := s.consumed + s.atHand - s.accrued

theorem needs_assign (needs : ∀ w, ∀ x ∈ s.waiting w, 0 < x.remaining) (fresh : ∀ x ∈ new, 0 < x.remaining) (w : Nat) :
    ∀ v, ∀ x ∈ (s.assign w new).waiting v, 0 < x.remaining := by
  intro v x member
  simp only [assign] at member
  by_cases same : v = w
  · rw [same, Function.update_self] at member
    exact fresh x member
  · rw [Function.update_of_ne same] at member
    exact needs v x member

theorem Steady.assign (steady : Steady s) (fresh : ∀ x ∈ new, 0 < x.remaining) (w : Nat) : Steady (s.assign w new) :=
  ⟨steady.bucket, needs_assign steady.needs fresh w⟩

/-- A waiter changes neither the bucket nor the sums by going to sleep, waking up or leaving. -/
theorem balance_assign (s : Paced) (w : Nat) (x : Option Waiter) : (s.assign w x).balance = s.balance := rfl

/-- What a step keeps, and that it gains nothing over what accrues while the bucket is limited. -/
def Gains (s t : Paced) : Prop := Steady t ∧ (0 < s.bucket.rate → t.balance ≤ s.balance)

theorem Steady.assigned (steady : Steady s) (fresh : ∀ x ∈ new, 0 < x.remaining) (w : Nat) : Gains s (s.assign w new) :=
  ⟨steady.assign fresh w, fun _ => le_of_eq (balance_assign s w new)⟩

theorem Steady.tick (steady : Steady s) (d : Nat) :
    Gains s { s with now := s.now + d, accrued := s.accrued + s.bucket.rate * seconds d } := by
  have sound := steady.bucket
  refine ⟨⟨⟨sound.rate, Nat.le_add_right_of_le sound.past, sound.limited⟩, steady.needs⟩, ?_⟩
  intro limited
  have later := Bucket.level_later sound d
  simp only [balance, atHand, if_pos limited]
  linarith

theorem Steady.setRate (steady : Steady s) (perSec burst : Int) :
    Gains s { s with bucket := s.bucket.setRate perSec burst s.now } := by
  have sound := steady.bucket
  refine ⟨⟨sound.setRate perSec burst, steady.needs⟩, ?_⟩
  intro limited
  have bottom := (sound.level_bounds limited).1
  simp only [balance, atHand, if_pos limited]
  split
  · case isTrue still =>
    have positive : 0 < perSec := by
      simp only [Bucket.setRate] at still
      omega
    have less : (s.bucket.setRate perSec burst s.now).level s.now ≤ s.bucket.level s.now := sound.level_setRate limited positive
    linarith
  · linarith

theorem Steady.attempt (steady : Steady s) (awake : s.waiting w = some ⟨remaining, none⟩) :
    Gains s (s.receive w remaining (s.bucket.attempt s.now remaining)) := by
  have needed : 0 < remaining := steady.needs w _ awake
  rcases lt_or_eq_of_le steady.bucket.rate with limited | free
  · obtain ⟨taken, positive, rate, burst, sound, level, outcome⟩ := steady.bucket.attempt limited needed
    have still : 0 < (s.bucket.attempt s.now remaining).2.rate := by rw [rate]; exact limited
    generalize s.bucket.attempt s.now remaining = result at *
    obtain ⟨grant, after⟩ := result
    rcases outcome with rfl | ⟨rfl, d, rfl⟩
    · refine ⟨⟨sound, needs_assign (s := { s with bucket := after, consumed := s.consumed + taken }) steady.needs ?_ w⟩, ?_⟩
      · intro x member
        split at member
        · cases member
        · cases member
          simp only
          omega
      · intro _
        show s.consumed + taken + (if 0 < after.rate then after.level s.now else 0) - s.accrued ≤ s.balance
        simp only [balance, atHand, if_pos limited, if_pos still] at level ⊢
        linarith
    · refine ⟨⟨sound, needs_assign (s := { s with bucket := after }) steady.needs ?_ w⟩, ?_⟩
      · intro x member
        cases member
        exact needed
      · intro _
        show s.consumed + (if 0 < after.rate then after.level s.now else 0) - s.accrued ≤ s.balance
        simp only [balance, atHand, if_pos limited, if_pos still, Int.cast_zero, sub_zero] at level ⊢
        linarith
  · have result : s.bucket.attempt s.now remaining = (.unlimited, s.bucket) := by rw [Bucket.attempt, if_pos free.symm]
    rw [result]
    refine ⟨⟨steady.bucket, needs_assign (s := { s with consumed := s.consumed + remaining }) steady.needs (by simp) w⟩, ?_⟩
    intro limited
    omega

theorem next_gains (steady : Steady s) (stepped : s.next e = some t) : Gains s t := by
  cases e with
  | tick d =>
    cases stepped
    exact steady.tick d
  | wait w n =>
    simp only [next] at stepped
    split at stepped
    · cases stepped
    · cases stepped
      split
      · exact ⟨steady, fun _ => le_refl _⟩
      · apply steady.assigned
        intro x member
        cases member
        simp only
        omega
  | attempt w =>
    simp only [next] at stepped
    split at stepped
    · case h_1 awake =>
      cases stepped
      exact steady.attempt awake
    · cases stepped
  | timer w =>
    simp only [next] at stepped
    split at stepped
    · case h_1 asleep =>
      have needed := steady.needs w _ asleep
      split at stepped
      · cases stepped
        exact steady.assigned (by intro x member; cases member; exact needed) w
      · cases stepped
    · cases stepped
  | woken w =>
    simp only [next] at stepped
    split at stepped
    · case h_1 asleep =>
      have needed := steady.needs w _ asleep
      split at stepped
      · cases stepped
        exact steady.assigned (by intro x member; cases member; exact needed) w
      · cases stepped
    · cases stepped
  | cancel w =>
    simp only [next] at stepped
    split at stepped
    · cases stepped
    · cases stepped
      exact steady.assigned (by simp) w
  | setRate perSec burst =>
    cases stepped
    exact steady.setRate perSec burst

def Limited (s : Paced) (_ : Event) : Prop := 0 < s.bucket.rate
deriving Decidable

/-- From every state that a bucket with `start ≤ burst` comes to, by any interleaving of
waits, cancellations, rate changes and time: a limited bucket holds between no token and
its burst, and while it stays limited what is consumed is at most the burst it starts
with and the rate in force over the time that passes. -/
theorem bucket_rate_bound (perSec burst start : Int) (within : start ≤ burst) (now : Nat) (before after : List Event)
    (s t : Paced)
    (reached : run next (Paced.start (Bucket.newBucket perSec burst start now) now) before = some s)
    (ran : run next s after = some t) (limited : 0 < s.bucket.rate) (throughout : Meets next Limited s after) :
    0 ≤ s.bucket.tokens ∧ s.bucket.tokens ≤ s.bucket.burst ∧
      t.consumed - s.consumed ≤ s.bucket.burst + (t.accrued - s.accrued) := by
  have initial : Steady (Paced.start (Bucket.newBucket perSec burst start now) now) :=
    ⟨Bucket.sound_newBucket perSec burst start within now, (fun _ _ never => by cases never)⟩
  have steady : Steady s := invariant (fun held step => (next_gains held step).1) initial reached
  obtain ⟨_, low, high⟩ := steady.bucket.limited limited
  refine ⟨low, high, ?_⟩
  have rest : Steady t ∧ t.balance ≤ s.balance := by
    apply invariant_meeting (I := fun u => Steady u ∧ u.balance ≤ s.balance) _ ⟨steady, le_refl _⟩ ran throughout
    intro u e v held still step
    obtain ⟨after, less⟩ := next_gains held.1 step
    exact ⟨after, (less still).trans held.2⟩
  have top := (steady.bucket.level_bounds limited).2
  have bottom : 0 ≤ t.atHand := by
    unfold atHand
    split
    · case isTrue still => exact (rest.1.bucket.level_bounds still).1
    · exact le_refl _
  have less := rest.2
  simp only [balance] at less
  have hand : s.atHand = s.bucket.level s.now := if_pos limited
  linarith

/-- A call for three tokens of a bucket of two, in installments, with a change of the rate. -/
def installments : List Event :=
  [.wait 0 3, .attempt 0, .attempt 0, .tick second, .setRate 1 2, .woken 0, .attempt 0, .wait 1 1, .attempt 1, .cancel 1]

theorem bucket_rate_bound_installments :
    ∃ t, run next (Paced.start (Bucket.newBucket 1 2 2 0) 0) installments = some t ∧ t.consumed ≤ 2 + t.accrued := by
  have ended : (run next (Paced.start (Bucket.newBucket 1 2 2 0) 0) installments).isSome = true := by decide +kernel
  have throughout : Meets next Limited (Paced.start (Bucket.newBucket 1 2 2 0) 0) installments := by decide +kernel
  obtain ⟨t, ran⟩ := Option.isSome_iff_exists.mp ended
  have bound := (bucket_rate_bound 1 2 2 (by decide) 0 [] installments _ t rfl ran (by decide) throughout).2.2
  refine ⟨t, ran, ?_⟩
  simpa [Paced.start, Bucket.newBucket, normalBurst] using bound

end Paced
end Hfdl.Throttle
