import Hfdl.Store.Change
import Hfdl.Sched.Cooldowns
import Hfdl.Sched.Runs

/-! The meta workers: how the listing of a leased repository ends, what the store is
told and when the workers give a repository up. `transients` counts the transient
failures of each repository's listings over all processes on one database, and
`gaveUp` lists the repositories the transient branch failed. -/
namespace Hfdl
open Relational Transition

/-- An error of a Hub call, as the retry table tells them apart. -/
inductive MetaError where
  | rateLimit (retryAfter : Int)
  | terminal (cause : String)
  | other (cause : String)
  deriving DecidableEq

def MetaError.message : MetaError → String
  | rateLimit _ => "hub api 429"
  | terminal cause => cause
  | other cause => cause

/-- The transient branch gives up on the count it read when it leased the row. -/
def Repo.Exhausted (repo : Repo) : Prop := maxBlockRetries ≤ repo.retries + 1
deriving Decidable

/-- What `handleMetaError` asks of the store. -/
def handleMetaError (repo : Repo) (tok : LeaseToken) (now : Time) (backoff : Nat) (err : MetaError) : Operation :=
  match err with
  | .rateLimit _ => .releaseMeta repo.id tok none (some err.message)
  | .terminal cause => .failRepo repo.id tok (some cause)
  | .other cause =>
    if repo.Exhausted then .failRepo repo.id tok (some cause)
    else .releaseMeta repo.id tok (some (now + backoff)) (some cause)

/-- How the processing of a leased repository ends. -/
inductive ListingEnd where
  | listed (entries : List FileEntry)
  | rateLimited (retryAfter : Int) (backoff : Nat)
  | terminal (cause : String)
  /-- A server or network error of a Hub call. -/
  | transient (cause : String) (backoff : Nat)
  /-- A Hub call that returns because its context was cancelled; the retry table has no row for it. -/
  | cancelled (backoff : Nat)
  /-- A gate that was left on cancellation, or a store read that failed: the row is put back. -/
  | released (cause : String)

structure Relisting where
  now : Time
  store : Store
  gates : Gates
  held : Nat → Option (Repo × LeaseToken)
  transients : RepoId → Nat
  gaveUp : List RepoId

namespace Relisting

inductive Event where
  | advance (d : Nat)
  /-- Any other call of the store. -/
  | call (op : Operation)
  | lease (w : Nat) (tok : LeaseToken)
  /-- The endpoint's gate is closed: the row is deferred until it opens. -/
  | deferred (w : Nat)
  | ends (w : Nat) (how : ListingEnd) (committed : Bool)
  /-- The worker returns without a word to the store: it was fenced, or could not pin the revision. -/
  | abandoned (w : Nat)
  /-- The process is gone; its leases stay until `recover`. -/
  | crash

/-- The calls that only a meta worker makes. -/
def Own : Operation → Bool
  | .leaseMeta .. | .releaseMeta .. | .deferMeta .. | .failRepo .. | .completeListing .. => true
  | _ => false

def closing (repo : Repo) (tok : LeaseToken) (now : Time) : ListingEnd → Operation
  | .listed entries => .completeListing repo.id tok entries
  | .rateLimited retryAfter backoff => handleMetaError repo tok now backoff (.rateLimit retryAfter)
  | .terminal cause => handleMetaError repo tok now 0 (.terminal cause)
  | .transient cause backoff => handleMetaError repo tok now backoff (.other cause)
  | .cancelled backoff => handleMetaError repo tok now backoff (.other "context canceled")
  | .released cause => .releaseMeta repo.id tok none (some cause)

def Drawn (repo : Repo) : ListingEnd → Prop
  | .rateLimited _ backoff | .transient _ backoff | .cancelled backoff => Jittered (cooldownLadder repo.retries) backoff
  | _ => True

instance (repo : Repo) : DecidablePred (Drawn repo) := fun e => by
  unfold Drawn
  split <;> infer_instance

/-- A rate limit closes the endpoint's gate, for the time asked or the backoff. -/
def cool (s : Relisting) (repo : Repo) : ListingEnd → Gates
  | .rateLimited retryAfter backoff =>
    s.gates.setCooldown repo.endpoint .api (s.now + if retryAfter ≤ 0 then backoff else retryAfter.toNat) "hub api 429"
  | _ => s.gates

def count (s : Relisting) (repo : Repo) : ListingEnd → RepoId → Nat
  | .transient _ _ => Function.update s.transients repo.id (s.transients repo.id + 1)
  | _ => s.transients

def givenUp (s : Relisting) (repo : Repo) : ListingEnd → List RepoId
  | .transient _ _ | .cancelled _ => if repo.Exhausted then repo.id :: s.gaveUp else s.gaveUp
  | _ => s.gaveUp

def next (s : Relisting) : Event → Option Relisting
  | .advance d => some { s with now := s.now + d }
  | .call op => if Own op then none else some { s with store := op.commit s.store }
  | .lease w tok =>
    match s.held w, s.store.leaseMeta tok s.now with
    | none, .ok (repo, store) => some { s with store, held := Function.update s.held w (some (repo, tok)) }
    | _, _ => none
  | .deferred w =>
    match s.held w with
    | none => none
    | some (repo, tok) =>
      match s.gates.cooldownUntil repo.endpoint .api with
      | none => none
      | some t =>
        if s.now < t then
          some { s with
            store := (Operation.deferMeta repo.id tok t).commit s.store
            held := Function.update s.held w none }
        else none
  | .ends w how committed =>
    match s.held w with
    | none => none
    | some (repo, tok) =>
      if Drawn repo how then
        some { s with
          store := if committed then (closing repo tok s.now how).commit s.store else s.store
          gates := s.cool repo how
          held := Function.update s.held w none
          transients := s.count repo how
          gaveUp := s.givenUp repo how }
      else none
  | .abandoned w => if s.held w = none then none else some { s with held := Function.update s.held w none }
  | .crash => some { s with held := fun _ => none }

def start (owner : String) (now : Time) (gates : Gates) : Relisting :=
  ⟨now, Store.empty owner, gates, fun _ => none, fun _ => 0, []⟩

section Budget
variable {s t : Relisting} {id : RepoId} {op : Operation}

theorem retries_of_change (changed : Repo.Change op r r') :
    r'.id = r.id ∧ (r'.retries = r.retries ∨
      r'.retries = r.retries + 1 ∧ ∃ tok availableAt cause, op = .releaseMeta r.id tok availableAt cause) := by
  cases changed with
  | released held => exact ⟨rfl, Or.inr ⟨rfl, _, _, _, by rw [held.1]⟩⟩
  | kept => exact ⟨rfl, Or.inl rfl⟩
  | leased => exact ⟨rfl, Or.inl rfl⟩
  | pinned => exact ⟨rfl, Or.inl rfl⟩
  | listed => exact ⟨rfl, Or.inl rfl⟩
  | failed => exact ⟨rfl, Or.inl rfl⟩
  | deferred => exact ⟨rfl, Or.inl rfl⟩
  | renewed => exact ⟨rfl, Or.inl rfl⟩
  | lapsed => exact ⟨rfl, Or.inl rfl⟩

def Within (store : Store) (id : RepoId) (n : Nat) : Prop := ∀ r ∈ store.repos, r.id = id → r.retries ≤ n

theorem Within.commit {before : Store} (within : Within before id n) (more : n ≤ m)
    (counted : ∀ tok availableAt cause, op = .releaseMeta id tok availableAt cause → n + 1 ≤ m) :
    Within (op.commit before) id m := by
  rcases Operation.commit_cases before op with same | done
  · rw [same]
    exact fun r stored here => (within r stored here).trans more
  · intro r' stored here
    rcases (Operation.exec_evolution done).repos.origin r' stored with ⟨r, stored, changed⟩ | ⟨spec, _, fresh, rfl⟩
    · obtain ⟨same, kept | ⟨once, tok, availableAt, cause, released⟩⟩ := retries_of_change changed
      · rw [kept]
        exact (within r stored (same.symm.trans here)).trans more
      · have mine : r.id = id := same.symm.trans here
        have bound := within r stored mine
        rw [mine] at released
        have one := counted tok availableAt cause released
        omega
    · exact Nat.zero_le _

theorem leaseMeta_retries {before after : Store} (leased : before.leaseMeta tok at_ = .ok (repo, after)) :
    ∃ r ∈ before.repos, r.id = repo.id ∧ r.retries = repo.retries := by
  simp only [Store.leaseMeta] at leased
  split at leased
  · cases leased
  · case h_2 r found =>
    cases leased
    exact ⟨r, (Table.mem_of_first found).1, rfl, rfl⟩

/-- No listing of the repository ends in a release that is not for a transient failure. -/
def OnlyTransient (id : RepoId) (s : Relisting) : Event → Prop
  | .ends w (.rateLimited ..) _ | .ends w (.cancelled ..) _ | .ends w (.released ..) _ => ∀ h ∈ s.held w, h.1.id ≠ id
  | _ => True

instance (id : RepoId) (s : Relisting) : DecidablePred (OnlyTransient id s) := fun e => by
  unfold OnlyTransient
  split <;> infer_instance

/-- The counts of the row and of every worker's copy are within the transient failures,
and the repository is given up only at the bound. -/
structure Charged (id : RepoId) (s : Relisting) : Prop where
  row : Within s.store id (s.transients id)
  copies : ∀ w, ∀ h ∈ s.held w, h.1.id = id → h.1.retries ≤ s.transients id
  bound : id ∈ s.gaveUp → maxBlockRetries ≤ s.transients id

theorem copies_update (copies : ∀ w, ∀ h ∈ s.held w, h.1.id = id → h.1.retries ≤ n) (w : Nat) :
    ∀ v, ∀ h ∈ Function.update s.held w none v, h.1.id = id → h.1.retries ≤ n := by
  intro v h member
  by_cases same : v = w
  · rw [same, Function.update_self] at member
    cases member
  · rw [Function.update_of_ne same] at member
    exact copies v h member

theorem count_cases (s : Relisting) (repo : Repo) (how : ListingEnd) (id : RepoId) :
    s.transients id ≤ s.count repo how id ∧
      (repo.id = id → ∀ cause backoff, how = .transient cause backoff → s.count repo how id = s.transients id + 1) := by
  cases how with
  | transient cause backoff =>
    simp only [count]
    by_cases same : id = repo.id
    · subst same
      rw [Function.update_self]
      exact ⟨Nat.le_succ _, fun _ _ _ _ => rfl⟩
    · rw [Function.update_of_ne same]
      exact ⟨Nat.le_refl _, fun here => absurd here.symm same⟩
  | listed => exact ⟨Nat.le_refl _, (fun _ _ _ never => by cases never)⟩
  | rateLimited => exact ⟨Nat.le_refl _, (fun _ _ _ never => by cases never)⟩
  | terminal => exact ⟨Nat.le_refl _, (fun _ _ _ never => by cases never)⟩
  | cancelled => exact ⟨Nat.le_refl _, (fun _ _ _ never => by cases never)⟩
  | released => exact ⟨Nat.le_refl _, (fun _ _ _ never => by cases never)⟩

theorem closing_releases (released : closing repo tok at_ how = .releaseMeta id tok' availableAt cause) :
    repo.id = id ∧
      ((∃ cause backoff, how = .transient cause backoff) ∨ (∃ retryAfter backoff, how = .rateLimited retryAfter backoff) ∨
      (∃ backoff, how = .cancelled backoff) ∨ ∃ cause, how = .released cause) := by
  cases how with
  | listed => cases released
  | terminal => cases released
  | rateLimited retryAfter backoff =>
    cases released
    exact ⟨rfl, Or.inr (Or.inl ⟨_, _, rfl⟩)⟩
  | transient cause backoff =>
    simp only [closing, handleMetaError] at released
    split at released
    · cases released
    · cases released
      exact ⟨rfl, Or.inl ⟨_, _, rfl⟩⟩
  | cancelled backoff =>
    simp only [closing, handleMetaError] at released
    split at released
    · cases released
    · cases released
      exact ⟨rfl, Or.inr (Or.inr (Or.inl ⟨_, rfl⟩))⟩
  | released cause =>
    cases released
    exact ⟨rfl, Or.inr (Or.inr (Or.inr ⟨_, rfl⟩))⟩

/-- When only transient failures are released, the call that puts the row back counts one. -/
theorem closing_counts (only : OnlyTransient id s (.ends w how committed)) (held : s.held w = some (repo, tok))
    (released : closing repo tok s.now how = .releaseMeta id tok' availableAt cause) :
    s.transients id + 1 ≤ s.count repo how id := by
  obtain ⟨mine, ⟨cause, backoff, rfl⟩ | ⟨_, _, rfl⟩ | ⟨_, rfl⟩ | ⟨_, rfl⟩⟩ := closing_releases released
  · exact Nat.le_of_eq ((count_cases s repo _ id).2 mine cause backoff rfl).symm
  · exact absurd mine (only (repo, tok) held)
  · exact absurd mine (only (repo, tok) held)
  · exact absurd mine (only (repo, tok) held)

theorem mem_givenUp (listed : id ∈ s.givenUp repo how) :
    id ∈ s.gaveUp ∨ repo.id = id ∧ repo.Exhausted ∧
      ((∃ cause backoff, how = .transient cause backoff) ∨ ∃ backoff, how = .cancelled backoff) := by
  have decided : ∀ (end_ : (∃ cause backoff, how = .transient cause backoff) ∨ ∃ backoff, how = .cancelled backoff),
      id ∈ (if repo.Exhausted then repo.id :: s.gaveUp else s.gaveUp) →
      id ∈ s.gaveUp ∨ repo.id = id ∧ repo.Exhausted ∧
        ((∃ cause backoff, how = .transient cause backoff) ∨ ∃ backoff, how = .cancelled backoff) := by
    intro end_ member
    split at member
    · case isTrue spent =>
      rcases List.mem_cons.mp member with same | before
      · exact Or.inr ⟨same.symm, spent, end_⟩
      · exact Or.inl before
    · exact Or.inl member
  cases how with
  | transient cause backoff => exact decided (Or.inl ⟨_, _, rfl⟩) listed
  | cancelled backoff => exact decided (Or.inr ⟨_, rfl⟩) listed
  | listed => exact Or.inl listed
  | rateLimited => exact Or.inl listed
  | terminal => exact Or.inl listed
  | released => exact Or.inl listed

theorem Charged.ends (charged : Charged id s) (only : OnlyTransient id s (.ends w how committed))
    (held : s.held w = some (repo, tok)) :
    Charged id { s with
      store := if committed then (closing repo tok s.now how).commit s.store else s.store
      gates := s.cool repo how
      held := Function.update s.held w none
      transients := s.count repo how
      gaveUp := s.givenUp repo how } := by
  obtain ⟨more, one⟩ := count_cases s repo how id
  constructor
  · simp only
    split
    · exact charged.row.commit more fun tok' availableAt cause released => closing_counts only held released
    · exact fun r stored here => (charged.row r stored here).trans more
  · exact copies_update (fun w h member here => (charged.copies w h member here).trans more) w
  · intro listed
    rcases mem_givenUp listed with before | ⟨mine, spent, ⟨cause, backoff, rfl⟩ | ⟨backoff, rfl⟩⟩
    · exact (charged.bound before).trans more
    · have copy := charged.copies w (repo, tok) held mine
      have counted := one mine cause backoff rfl
      have reached : maxBlockRetries ≤ s.count repo (.transient cause backoff) id := by
        rw [counted]
        exact Nat.le_trans spent (Nat.succ_le_succ copy)
      exact reached
    · exact absurd mine (only (repo, tok) held)

theorem next_charged (charged : Charged id s) (only : OnlyTransient id s e) (stepped : s.next e = some t) : Charged id t := by
  cases e
  case ends =>
    simp only [next] at stepped
    split at stepped
    · cases stepped
    split at stepped <;> cases stepped
    exact charged.ends only ‹_›
  all_goals
    simp only [next] at stepped
    repeat' split at stepped
  all_goals cases stepped
  · exact { charged with }
  · case call.isFalse.refl foreign =>
    refine { charged with row := charged.row.commit (Nat.le_refl _) ?_ }
    rintro tok availableAt cause rfl
    exact absurd rfl foreign
  · case h_1.refl w tok _ _ repo store free leased =>
    have committed : (Operation.leaseMeta tok s.now).commit s.store = store :=
      Operation.commit_of_exec (Operation.map_snd_ok leased)
    have row : Within store id (s.transients id) := by
      rw [← committed]
      exact charged.row.commit (Nat.le_refl _) (fun _ _ _ never => by cases never)
    refine { charged with row := row, copies := ?_ }
    intro v h member here
    simp only at member
    by_cases same : v = w
    · rw [same, Function.update_self] at member
      cases member
      obtain ⟨r, stored, mine, count⟩ := leaseMeta_retries leased
      have bound := charged.row r stored (mine.trans here)
      rwa [count] at bound
    · rw [Function.update_of_ne same] at member
      exact charged.copies v h member here
  · refine { charged with row := charged.row.commit (Nat.le_refl _) ?_, copies := copies_update charged.copies _ }
    rintro _ _ _ never
    cases never
  · exact { charged with copies := copies_update charged.copies _ }
  · exact { charged with copies := (fun _ _ never => by cases never) }

/-- Over every sequence of listings, gates, crashes and sweeps of one database in which
no listing of a repository ends in a release that is not for a transient failure: the
transient branch fails the repository only at the bound of its transient failures. -/
theorem give_up_budget (owner : String) (now : Time) (gates : Gates) (id : RepoId) (events : List Event) (s : Relisting)
    (ran : run next (start owner now gates) events = some s)
    (only : Meets next (OnlyTransient id) (start owner now gates) events) (failed : id ∈ s.gaveUp) :
    maxBlockRetries ≤ s.transients id := by
  have initial : Charged id (start owner now gates) :=
    ⟨fun r stored => absurd stored (Table.not_mem_empty r), (fun _ _ never => by cases never), (fun never => by cases never)⟩
  exact (invariant_meeting next_charged initial ran only).bound failed

/-- One lease and the end of its listing, after the backoff or the gate. -/
def round (tok : LeaseToken) (how : ListingEnd) : List Event :=
  [.advance (600 * second), .lease 0 tok, .ends 0 how true]

def oneJob : Event := .call (.enqueueJob wholeRepo)

def noGates : Gates := ⟨.empty, .empty⟩

/-- Eight transient failures with a crash between them. -/
def failures : List Event :=
  oneJob :: (List.range 4).flatMap (fun n => round "first" (.transient "503" (cooldownLadder n))) ++
    [.advance (600 * second), .lease 0 "lost", .crash, .advance leaseDuration, .call (.recover (10000 * second))] ++
    (List.range 4).flatMap fun n => round "second" (.transient "503" (cooldownLadder (4 + n)))

theorem give_up_budget_eight :
    ∃ s, run next (start "process" 0 noGates) failures = some s ∧ 1 ∈ s.gaveUp ∧ maxBlockRetries ≤ s.transients 1 := by
  have ran : ∃ s, run next (start "process" 0 noGates) failures = some s ∧ 1 ∈ s.gaveUp := ⟨_, rfl, by decide⟩
  obtain ⟨s, ran, failed⟩ := ran
  exact ⟨s, ran, failed, give_up_budget _ _ _ _ _ s ran (by decide) failed⟩

/-- Four rate limits and three releases at a shutdown use the budget up: the first
transient failure after them fails the repository. -/
theorem rate_limits_spend_budget :
    ∃ s, run next (start "process" 0 noGates)
        (oneJob :: (List.range 4).flatMap (fun n => round "limited" (.rateLimited second (cooldownLadder n))) ++
          (List.range 3).flatMap (fun _ => round "shutdown" (.released "context canceled")) ++
          round "last" (.transient "503" (cooldownLadder 7))) = some s ∧
      1 ∈ s.gaveUp ∧ s.transients 1 = 1 ∧ ∃ r ∈ s.store.repos, r.id = 1 ∧ r.status = .error := by
  exact ⟨_, rfl, by decide, by decide, by decide⟩

end Budget
end Relisting
end Hfdl
