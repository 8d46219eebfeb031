import Hfdl.Store.Change

/-! What lasts in the database. Whoever calls the store in whatever order, rows of
repositories, jobs, files and installs are only added to, their counters only rise, and what
has come to an end stays as it ended. -/
namespace Hfdl
open Relational Transition

/-- A repository that is listed or has failed is not touched again. -/
structure Repo.Later (r r' : Repo) : Prop where
  id : r'.id = r.id
  retries : r.retries ≤ r'.retries
  settled : r.status = .listed ∨ r.status = .error → r' = r

/-- An ended job is not touched again. -/
structure Job.Later (j j' : Job) : Prop where
  id : j'.id = j.id ∧ j'.repoId = j.repoId
  settled : ¬ j.Open → j' = j

/-- The version tells two progress records of a file apart, and a file in error stays there. -/
structure File.Later (f f' : File) : Prop where
  id : f'.id = f.id ∧ f'.repoId = f.repoId ∧ f'.path = f.path
  version : f.progressVer ≤ f'.progressVer ∧ (f'.progressVer = f.progressVer → f'.progress = f.progress)
  failures : f.retries ≤ f'.retries ∧ f.verifyFails ≤ f'.verifyFails
  settled : f.status = .error → f'.status = .error

structure JobFile.Later (jf jf' : JobFile) : Prop where
  key : jf'.key = jf.key
  settled : jf.status = .done ∨ jf.status = .error → jf'.status = jf.status ∧ jf'.lastError = jf.lastError

theorem Repo.Change.later {r r' : Repo} (changed : r.Change op r') : r.Later r' := by
  have retries : r.retries ≤ r'.retries := by
    cases changed with
    | released => exact Nat.le_succ _
    | _ => exact Nat.le_refl _
  refine ⟨by cases changed <;> rfl, retries, fun settled => ?_⟩
  cases changed with
  | kept => rfl
  | leased status | lapsed status => simp [status] at settled
  | pinned held | listed held | failed held | deferred held | released held | renewed held =>
    have status := held.2.1
    simp [status] at settled

theorem Job.Change.later {j j' : Job} (changed : j.Change s op j') : j.Later j' := by
  refine ⟨by cases changed <;> exact ⟨rfl, rfl⟩, fun closed => ?_⟩
  cases changed with
  | kept => rfl
  | started queued => exact absurd (.inl queued) closed
  | installed _ unfinished | finished _ unfinished | repoFailed _ unfinished | fileFailed _ unfinished =>
    exact absurd unfinished closed

theorem JobFile.Change.later {jf jf' : JobFile} (changed : jf.Change s op jf') : jf.Later jf' := by
  refine ⟨by cases changed <;> rfl, fun settled => ?_⟩
  cases changed with
  | kept | placed => exact ⟨rfl, rfl⟩
  | claimed installable =>
    have pending := installable.1
    simp [pending] at settled
  | installed held =>
    have installing := held.2.2.1
    simp [installing] at settled
  | finished _ status | failed _ status | lapsed status => simp [status] at settled

theorem File.Change.later {f f' : File} (changed : f.Change op f') (issued : op.Issued) : f.Later f' := by
  refine ⟨⟨changed.id, changed.repoId, ?_⟩, ?_, ?_, fun failed => ?_⟩
  · cases changed with
    | relisted _ _ path => exact path.symm
    | _ => rfl
  · cases changed with
    | saved | refetched => exact ⟨Nat.le_succ _, fun same => absurd same (Nat.succ_ne_self _)⟩
    | _ => exact ⟨Nat.le_refl _, fun _ => rfl⟩
  · cases changed with
    | retried => exact ⟨Nat.le_succ _, Nat.le_refl _⟩
    | rejected | refetched => exact ⟨Nat.le_refl _, Nat.le_succ _⟩
    | _ => exact ⟨Nat.le_refl _, Nat.le_refl _⟩
  · cases changed with
    | kept | relisted => exact failed
    | rejected => rfl
    | moved owned =>
      -- none of the edges that are issued starts in error
      have edge := issued.edge
      rw [← owned.2.1, failed] at edge
      simp [leasedEdges] at edge
    | lapsed _ edge =>
      rw [failed] at edge
      simp [lapsedEdges] at edge
    | leased waits | reused waits | diverted waits => simp [File.In, failed] at waits
    | finished held | saved held | retried held | verified held | refetched held | renewed held =>
      simp [File.Held, failed] at held
    | verifying status | salvaged status => simp [status] at failed

def Lasts {key : α → κ} (later : α → α → Prop) (t t' : Table α key) : Prop := ∀ r ∈ t, ∃ r' ∈ t', later r r'

theorem Lasts.of_evolves {key : α → κ} {later change : α → α → Prop} {t t' : Table α key}
    (evolves : Evolves change added (fun _ => False) t t') (moves : ∀ {r r'}, change r r' → later r r') : Lasts later t t' := by
  intro r stored
  rcases evolves.kept r stored with ⟨r', stored', changed⟩ | never
  · exact ⟨r', stored', moves changed⟩
  · exact never.elim

theorem Lasts.trans {key : α → κ} {later : α → α → Prop} {t t' t'' : Table α key} (first : Lasts later t t')
    (second : Lasts later t' t'')
    (both : ∀ {a b c}, later a b → later b c → later a c) : Lasts later t t'' := by
  intro r stored
  obtain ⟨r', stored', earlier⟩ := first r stored
  obtain ⟨r'', stored'', afterwards⟩ := second r' stored'
  exact ⟨r'', stored'', both earlier afterwards⟩

theorem Repo.Later.trans {a b c : Repo} (first : a.Later b) (second : b.Later c) : a.Later c := by
  refine ⟨second.id.trans first.id, first.retries.trans second.retries, fun settled => ?_⟩
  have same := first.settled settled
  rw [← same] at settled
  rw [second.settled settled, same]

theorem Job.Later.trans {a b c : Job} (first : a.Later b) (second : b.Later c) : a.Later c := by
  refine ⟨⟨second.id.1.trans first.id.1, second.id.2.trans first.id.2⟩, fun settled => ?_⟩
  have same := first.settled settled
  rw [← same] at settled
  rw [second.settled settled, same]

theorem JobFile.Later.trans {a b c : JobFile} (first : a.Later b) (second : b.Later c) : a.Later c := by
  refine ⟨second.key.trans first.key, fun settled => ?_⟩
  obtain ⟨status, cause⟩ := first.settled settled
  rw [← status] at settled
  obtain ⟨status', cause'⟩ := second.settled settled
  exact ⟨status'.trans status, cause'.trans cause⟩

theorem File.Later.trans {a b c : File} (first : a.Later b) (second : b.Later c) : a.Later c where
  id := ⟨second.id.1.trans first.id.1, second.id.2.1.trans first.id.2.1, second.id.2.2.trans first.id.2.2⟩
  version := by
    refine ⟨first.version.1.trans second.version.1, fun same => ?_⟩
    have between : b.progressVer = a.progressVer := Nat.le_antisymm (same ▸ second.version.1) first.version.1
    exact (second.version.2 (same.trans between.symm)).trans (first.version.2 between)
  failures := ⟨first.failures.1.trans second.failures.1, first.failures.2.trans second.failures.2⟩
  settled failed := second.settled (first.settled failed)

structure Store.Later (s s' : Store) : Prop where
  repos : Lasts Repo.Later s.repos s'.repos
  jobs : Lasts Job.Later s.jobs s'.jobs
  files : Lasts File.Later s.files s'.files
  jobFiles : Lasts JobFile.Later s.jobFiles s'.jobFiles

theorem Store.Later.of_evolution {s s' : Store} (issued : op.Issued) (evolution : Operation.Evolution op s s') : s.Later s' where
  repos := .of_evolves evolution.repos Repo.Change.later
  jobs := .of_evolves evolution.jobs Job.Change.later
  files := .of_evolves evolution.files fun changed => changed.later issued
  jobFiles := .of_evolves evolution.jobFiles JobFile.Change.later

theorem Store.Later.refl (s : Store) : s.Later s := .of_evolution (show (Operation.reopen s.owner).Issued from trivial) .refl

theorem Store.Later.trans {s s' s'' : Store} (first : s.Later s') (second : s'.Later s'') : s.Later s'' where
  repos := first.repos.trans second.repos Repo.Later.trans
  jobs := first.jobs.trans second.jobs Job.Later.trans
  files := first.files.trans second.files File.Later.trans
  jobFiles := first.jobFiles.trans second.jobFiles JobFile.Later.trans

theorem Operation.next_later {s s' : Store} (stepped : next s op = some s') : s.Later s' := by
  obtain ⟨issued, rfl⟩ := next_some.mp stepped
  rcases commit_cases s op with same | done
  · rw [same]
    exact .refl s
  · exact .of_evolution issued (exec_evolution done)

/-- Over every run of calls, by whatever callers and with restarts and sweeps in between: no
row of a repository, a job, a file or an install is lost or takes another one's place;
counters and progress versions never go back, and a progress record is not replaced under its
version; a listed or failed repository and an ended job keep their rows as they are, and a
failed file and an ended install their status. -/
theorem Operation.rows_last {s s' : Store} (ran : run next s ops = some s') : s.Later s' :=
  invariant (I := s.Later) (fun held stepped => held.trans (next_later stepped)) (.refl s) ran

def Operation.listing : List Operation :=
  [enqueueJob wholeRepo, leaseMeta "first" 0, recover leaseDuration,
    leaseMeta "second" leaseDuration, completeListing 1 "second" [⟨"config.json", 4, "oid", "", "", false⟩]]

def Operation.rejection (tok : LeaseToken) : List Operation :=
  [leaseFileForDownload 1 tok 0, finishDownloaded 1 tok, leaseVerify tok 0, failVerify 1 tok (some "mismatch")]

theorem Operation.rows_last_rejected :
    ∃ s s', run next (Store.empty "host") listing = some s ∧ s'.files.rows.map (·.verifyFails) = [1] ∧ s.Later s' :=
  ⟨_, _, rfl, rfl, rows_last (show run next _ (rejection "third") = some _ from rfl)⟩

/-- A file whose content was rejected too often is in error. -/
def File.Budgeted (f : File) : Prop := f.verifyFails < maxVerifyFails ∨ f.verifyFails = maxVerifyFails ∧ f.status = .error

theorem File.Change.budgeted {f f' : File} (changed : f.Change op f') (issued : op.Issued) (budgeted : f.Budgeted) :
    f'.Budgeted := by
  have settled := (changed.later issued).settled
  cases changed with
  | rejected held bound =>
    have verifying := held.2.1
    rcases budgeted with few | ⟨-, failed⟩
    · exact .inr ⟨Nat.le_antisymm few bound, rfl⟩
    · simp [failed] at verifying
  | refetched _ bound => exact .inl bound
  | _ => exact budgeted.imp_right fun ⟨all, failed⟩ => ⟨all, settled failed⟩

/-- In every store that calls come to from the empty one, a file was rejected fewer than
`maxVerifyFails` times, or that often and is in error for good; no restart, sweep, reuse or
new download in between gives it another chance. -/
theorem Operation.rejections_bounded (ran : run next (Store.empty owner) ops = some s) : ∀ f ∈ s.files, f.Budgeted := by
  refine invariant (I := fun s : Store => ∀ f ∈ s.files, f.Budgeted) (fun {s op s'} held stepped => ?_)
    (fun _ stored => (Table.not_mem_empty _ stored).elim) ran
  obtain ⟨issued, rfl⟩ := next_some.mp stepped
  refine commit_preserves (P := fun s : Store => ∀ f ∈ s.files, f.Budgeted) held fun s' done f' stored' => ?_
  rcases (exec_evolution done).files.origin f' stored' with ⟨f, stored, changed⟩ | ⟨repo, tok, entries, -, entry, -, id, rfl⟩
  · exact changed.budgeted issued (held f stored)
  · exact .inl Nat.zero_lt_two

theorem Operation.rejections_bounded_twice :
    ∃ s : Store, s.files.rows.map (fun f => (f.verifyFails, f.status)) = [(2, .error)] ∧ ∀ f ∈ s.files, f.Budgeted :=
  ⟨_, rfl,
    rejections_bounded (show run next (Store.empty "host") (listing ++ rejection "third" ++ rejection "fourth") = some _
      from rfl)⟩

end Hfdl
