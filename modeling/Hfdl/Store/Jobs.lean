import Hfdl.Store.Model

/-! Repository and job methods of the store: enqueueing, the listing lease, the
persisted listing, the install lease and the terminal resolutions. -/
namespace Hfdl
open Relational

/-- The `WHERE` clause of a repository mutation fenced by the listing lease. -/
def Repo.Held (id : RepoId) (tok : LeaseToken) (r : Repo) : Prop :=
  r.id = id ∧ r.status = .listing ∧ r.leaseToken = some tok
deriving Decidable

/-- The `WHERE` clause of the one mutation fenced by an install lease. -/
def JobFile.Held (job : JobId) (file : FileId) (tok : LeaseToken) (jf : JobFile) : Prop :=
  jf.jobId = job ∧ jf.fileId = file ∧ jf.status = .installing ∧ jf.leaseToken = some tok
deriving Decidable

/-- `status IN ('queued', 'running')`. -/
def Job.Open (j : Job) : Prop := j.status = .queued ∨ j.status = .running
deriving Decidable

def RepoKey.withDefaults (k : RepoKey) : RepoKey :=
  { k with
    type := if k.type = "" then "model" else k.type
    revision := if k.revision = "" then "main" else k.revision }

/-- The job row a submission asks for; its status defaults to queued. -/
structure JobSpec extends Selection where
  repo : RepoKey
  destMode : DestMode
  destDir : String
deriving DecidableEq, Repr

/-- A submission for all files of a repository. -/
def wholeRepo : JobSpec := ⟨⟨[], [], []⟩, ⟨"model", "org/repo", "main", "hub"⟩, .cache, "cache"⟩

def Repo.fresh (id : RepoId) (k : RepoKey) : Repo :=
  { k, Lease.cleared with
    id, commitSHA := none, status := .pending, retries := 0, lastError := none, availableAt := none }

def Job.fresh (id : JobId) (repo : RepoId) (spec : JobSpec) : Job :=
  { spec.toSelection with
    id, repoId := repo, destMode := spec.destMode, destDir := spec.destDir, status := .queued, lastError := none }

def File.fresh (id : FileId) (repo : RepoId) (e : FileEntry) : File :=
  { e, Lease.cleared with
    id, repoId := repo, status := .queued, cachePath := none, blockSize := 0, conns := 8, progress := none
    progressVer := 1, retries := 0, verifyFails := 0, lastError := none }

def JobFile.fresh (job : JobId) (file : FileId) : JobFile :=
  { Lease.cleared with jobId := job, fileId := file, destPath := none, status := .pending, lastError := none }

/-- `ORDER BY job_id, file_id`. -/
def JobFile.before (a b : JobFile) : Bool := a.jobId < b.jobId ∨ a.jobId = b.jobId ∧ a.fileId < b.fileId

namespace Store

def guardRepo (s : Store) (op : String) (id : RepoId) (tok : LeaseToken) (set : Setter Repo.id) : Except StoreError Store :=
  (execGuarded op id s.repos (Repo.Held id tok) set).map fun repos => { s with repos }

section
variable {s s' : Store} {id : RepoId} {set : Setter Repo.id}

theorem guardRepo_ok : s.guardRepo op id tok set = .ok s' ↔
    (∃ r ∈ s.repos, r.Held id tok) ∧ s' = { s with repos := s.repos.update (Repo.Held id tok) set } :=
  execGuarded_committed fun _ held => held.1

theorem guardRepo_fenced (unheld : ∀ r ∈ s.repos, ¬ r.Held id tok) :
    s.guardRepo op id tok set = .error (.fenced op id) :=
  map_eq_error.mpr (execGuarded_fenced unheld)

end

/-- Insert the repository unless its key is stored, then the job; both ids are returned. -/
def enqueueJob (s : Store) (spec : JobSpec) : (RepoId × JobId) × Store :=
  let k := spec.repo.withDefaults
  let job := s.jobs.nextKey
  match s.repos.rows.find? fun r => r.toRepoKey = k with
  | some r => ((r.id, job), { s with jobs := s.jobs.insert (.fresh job r.id spec) })
  | none =>
    let repo := s.repos.nextKey
    ((repo, job), { s with
      repos := s.repos.insert (.fresh repo k)
      jobs := s.jobs.insert (.fresh job repo spec) })

def leaseMeta (s : Store) (tok : LeaseToken) (now : Time) : Except StoreError (Repo × Store) :=
  match s.repos.first (fun r => r.status = .pending ∧ Available now r.availableAt) (·.id < ·.id) with
  | none => .error (.noWork "lease meta")
  | some r =>
    let set : Setter Repo.id := ⟨fun r => { r with toLease := .claim s.owner tok now, status := .listing }, fun _ => rfl⟩
    .ok (set r, { s with repos := s.repos.update (·.id = r.id) set })

def setCommitSHA (s : Store) (repo : RepoId) (tok : LeaseToken) (sha : String) : Except StoreError Store :=
  s.guardRepo "set commit sha" repo tok ⟨fun r => { r with commitSHA := some sha }, fun _ => rfl⟩

/-- `INSERT ... ON CONFLICT (repo_id, path) DO UPDATE`: download state of a stored row is kept. -/
def upsertFile (files : Table File File.id) (repo : RepoId) (e : FileEntry) : FileId × Table File File.id :=
  match files.rows.find? fun f => f.repoId = repo ∧ f.path = e.path with
  | some f => (f.id, files.update (·.id = f.id) ⟨fun f => { f with toFileEntry := e }, fun _ => rfl⟩)
  | none => (files.nextKey, files.insert (.fresh files.nextKey repo e))

/-- One listed entry: its file row and a pending association for every job of the repository. -/
def persistEntry (repo : RepoId) (s : Store) (e : FileEntry) : Store :=
  let (file, files) := upsertFile s.files repo e
  { s with
    files
    jobFiles := (s.jobs.rows.filter (·.repoId = repo)).foldl (fun t j => t.insert (.fresh j.id file)) s.jobFiles }

def completeListing (s : Store) (repo : RepoId) (tok : LeaseToken) (entries : List FileEntry) :
    Except StoreError Store :=
  (s.guardRepo "complete listing" repo tok ⟨fun r => { r with toLease := .cleared, status := .listed }, fun _ => rfl⟩).map
    fun s => entries.foldl (persistEntry repo) s

/-- The rows `leaseInstall` may claim; without a destination mode any job qualifies. -/
def Installable (s : Store) (destMode : Option DestMode) (jf : JobFile) : Prop :=
  jf.status = .pending ∧ (∃ f ∈ s.files, f.id = jf.fileId ∧ f.status = .cached) ∧
    ∃ j ∈ s.jobs, j.id = jf.jobId ∧ ∀ mode ∈ destMode, j.destMode = mode
deriving Decidable

def leaseInstall (s : Store) (tok : LeaseToken) (now : Time) (destMode : Option DestMode) :
    Except StoreError (JobFile × Store) :=
  match s.jobFiles.first (s.Installable destMode) JobFile.before with
  | none => .error (.noWork "lease install")
  | some jf =>
    let set : Setter JobFile.key := ⟨fun jf => { jf with toLease := .claim s.owner tok now, status := .installing }, fun _ => rfl⟩
    .ok (set jf, { s with
      jobFiles := s.jobFiles.update (·.key = jf.key) set
      jobs := s.jobs.update (fun j => j.id = jf.jobId ∧ j.status = .queued)
        ⟨fun j => { j with status := .running }, fun _ => rfl⟩ })

/-- The last row to be done also closes its job. -/
def completeInstall (s : Store) (job : JobId) (file : FileId) (tok : LeaseToken) (err : Option String) :
    Except StoreError Store :=
  let status : JobFileStatus := if err.isSome then .error else .done
  (execGuarded "complete install" file s.jobFiles (JobFile.Held job file tok)
    ⟨fun jf => { jf with toLease := .cleared, status, lastError := err }, fun _ => rfl⟩).map fun jobFiles =>
      { s with
        jobFiles
        jobs := if status = .done ∧ jobFiles.count (fun jf => jf.jobId = job ∧ jf.status ≠ .done) = 0 then
            s.jobs.update (fun j => j.id = job ∧ j.Open) ⟨fun j => { j with status := .done }, fun _ => rfl⟩
          else s.jobs }

/-- Foreign keys reject an association with an unknown job or file. -/
def ensureJobFiles (s : Store) (job : JobId) (files : List FileId) : Except StoreError Store :=
  match files.find? fun file => ¬ ((∃ j ∈ s.jobs, j.id = job) ∧ ∃ f ∈ s.files, f.id = file) with
  | some file => .error (.constraint "ensure job files" file)
  | none => .ok { s with jobFiles := files.foldl (fun t file => t.insert (.fresh job file)) s.jobFiles }

def setJobFileDests (s : Store) (job : JobId) (dests : List (FileId × String)) : Except StoreError Store :=
  match dests.find? fun d => ¬ ∃ jf ∈ s.jobFiles, jf.key = (job, d.1) with
  | some d => .error (.noJobFile job d.1)
  | none => .ok { s with
      jobFiles := dests.foldl (fun t d => t.update (·.key = (job, d.1)) ⟨fun jf => { jf with destPath := some d.2 },
        fun _ => rfl⟩) s.jobFiles }

def finishJob (s : Store) (job : JobId) (cause : Option String) : Except StoreError Store :=
  let status : JobStatus := if cause.isSome then .error else .done
  let rowStatus : JobFileStatus := if cause.isSome then .error else .done
  if s.jobs.count (fun j => j.id = job ∧ j.Open) = 1 then
    .ok { s with
      jobs := s.jobs.update (fun j => j.id = job ∧ j.Open)
        ⟨fun j => { j with status, lastError := cause.or j.lastError }, fun _ => rfl⟩
      jobFiles := s.jobFiles.update (fun jf => jf.jobId = job ∧ jf.status = .pending)
        ⟨fun jf => { jf with status := rowStatus, lastError := cause.or jf.lastError }, fun _ => rfl⟩ }
  else .error (.jobNotLive job)

def failRepo (s : Store) (repo : RepoId) (tok : LeaseToken) (cause : Option String) : Except StoreError Store :=
  (s.guardRepo "fail repo" repo tok
    ⟨fun r => { r with toLease := .cleared, status := .error, lastError := cause }, fun _ => rfl⟩).map fun s =>
      { s with
        jobs := s.jobs.update (fun j => j.repoId = repo ∧ j.Open)
          ⟨fun j => { j with status := .error, lastError := cause }, fun _ => rfl⟩ }

/-- Only the jobs that owned a pending row of the file are failed with it. -/
def failJobFilesForFile (s : Store) (file : FileId) (cause : Option String) : Store :=
  { s with
    jobFiles := s.jobFiles.update (fun jf => jf.fileId = file ∧ jf.status = .pending)
      ⟨fun jf => { jf with status := .error, lastError := cause }, fun _ => rfl⟩
    jobs := s.jobs.update
      (fun j => (∃ jf ∈ s.jobFiles, jf.fileId = file ∧ jf.status = .pending ∧ jf.jobId = j.id) ∧ j.Open)
      ⟨fun j => { j with status := .error, lastError := cause }, fun _ => rfl⟩ }

def deferMeta (s : Store) (repo : RepoId) (tok : LeaseToken) (availableAt : Time) : Except StoreError Store :=
  s.guardRepo "defer meta" repo tok
    ⟨fun r => { r with toLease := .cleared, status := .pending, availableAt := some availableAt }, fun _ => rfl⟩

/-- No `availableAt` requeues at once. -/
def releaseMeta (s : Store) (repo : RepoId) (tok : LeaseToken) (availableAt : Option Time) (cause : Option String) :
    Except StoreError Store :=
  s.guardRepo "release meta" repo tok
    ⟨fun r => { r with
      toLease := .cleared, status := .pending, retries := r.retries + 1, lastError := cause, availableAt }, fun _ => rfl⟩

section
variable {s s' : Store} {j : Job} {jf : JobFile}

theorem leaseMeta_ok (leased : s.leaseMeta tok now = .ok (r, s')) : ∃ r' ∈ s.repos, r'.id = r.id := by
  simp only [leaseMeta] at leased
  split at leased <;> cases leased
  rename_i found
  obtain ⟨stored, -⟩ := Table.mem_of_first found
  exact ⟨_, stored, rfl⟩

theorem enqueueJob_spec (spec : JobSpec) :
    (s.enqueueJob spec).1.2 = s.jobs.nextKey ∧
      (∃ r ∈ (s.enqueueJob spec).2.repos, r.id = (s.enqueueJob spec).1.1 ∧ r.toRepoKey = spec.repo.withDefaults) ∧
      (∀ r ∈ (s.enqueueJob spec).2.repos, r ∈ s.repos ∨ r.id = (s.enqueueJob spec).1.1 ∧ r.status = .pending) ∧
      (s.enqueueJob spec).2 = { s with
        repos := (s.enqueueJob spec).2.repos
        jobs := s.jobs.insert (.fresh (s.enqueueJob spec).1.2 (s.enqueueJob spec).1.1 spec) } := by
  simp only [enqueueJob]
  split
  · rename_i r found
    have key : r.toRepoKey = spec.repo.withDefaults := by simpa using List.find?_some found
    exact ⟨rfl, ⟨r, List.mem_of_find?_eq_some found, rfl, key⟩, fun _ => .inl, rfl⟩
  · have inserted : ∀ r, r ∈ s.repos.insert (.fresh s.repos.nextKey spec.repo.withDefaults) ↔
        r ∈ s.repos ∨ r = .fresh s.repos.nextKey spec.repo.withDefaults := fun r => Table.mem_insert_fresh rfl
    refine ⟨rfl, ⟨_, (inserted _).mpr (.inr rfl), rfl, rfl⟩, fun r stored => ?_, rfl⟩
    rcases (inserted r).mp stored with old | rfl
    · exact .inl old
    · exact .inr ⟨rfl, rfl⟩

theorem mem_enqueueJob_jobs {spec : JobSpec} : j ∈ (s.enqueueJob spec).2.jobs ↔
    j ∈ s.jobs ∨ j = .fresh (s.enqueueJob spec).1.2 (s.enqueueJob spec).1.1 spec := by
  obtain ⟨fresh, -, -, same⟩ := enqueueJob_spec (s := s) spec
  rw [same]
  exact Table.mem_insert_fresh fresh

theorem ensureJobFiles_ok {ids : List FileId} (done : s.ensureJobFiles job ids = .ok s') :
    (∀ file ∈ ids, (∃ j ∈ s.jobs, j.id = job) ∧ ∃ f ∈ s.files, f.id = file) ∧
      s' = { s with jobFiles := s.jobFiles.insertAll (.fresh job) ids } := by
  simp only [ensureJobFiles] at done
  split at done <;> cases done
  rename_i accepted
  refine ⟨fun file member => ?_, rfl⟩
  simpa only [decide_eq_true_eq, not_not] using List.find?_eq_none.mp accepted file member

theorem ensureJobFiles_row {ids : List FileId} (done : s.ensureJobFiles job ids = .ok s') (member : file ∈ ids) :
    ∃ jf ∈ s'.jobFiles, jf.jobId = job ∧ jf.fileId = file := by
  obtain ⟨-, rfl⟩ := ensureJobFiles_ok done
  obtain ⟨jf, row, key⟩ : ∃ jf ∈ s.jobFiles.insertAll (.fresh job) ids, jf.key = (JobFile.fresh job file).key :=
    Table.exists_key_insertAll member
  exact ⟨jf, row, congrArg Prod.fst key, congrArg Prod.snd key⟩

theorem ensureJobFiles_stored {ids : List FileId} (known : ∃ j ∈ s.jobs, j.id = job)
    (stored : ∀ file ∈ ids, ∃ f ∈ s.files, f.id = file) :
    ∃ s', s.ensureJobFiles job ids = .ok s' := by
  have accepted : ids.find? (fun file => ¬ ((∃ j ∈ s.jobs, j.id = job) ∧ ∃ f ∈ s.files, f.id = file)) = none := by
    simp only [List.find?_eq_none, decide_eq_true_eq, not_not]
    exact fun file member => ⟨known, stored file member⟩
  simp only [ensureJobFiles, accepted]
  exact ⟨_, rfl⟩

theorem finishJob_ok (done : s.finishJob job cause = .ok s') : (∃ j ∈ s.jobs, j.id = job ∧ j.Open) ∧
    s' = { s with
      jobs := s.jobs.update (fun j => j.id = job ∧ j.Open)
        ⟨fun j => { j with status := if cause.isSome then .error else .done, lastError := cause.or j.lastError }, fun _ => rfl⟩
      jobFiles := s.jobFiles.update (fun jf => jf.jobId = job ∧ jf.status = .pending)
        ⟨fun jf => { jf with status := if cause.isSome then .error else .done, lastError := cause.or jf.lastError },
          fun _ => rfl⟩ } := by
  simp only [finishJob] at done
  split at done <;> cases done
  rename_i one
  exact ⟨(Table.count_eq_one fun _ found => found.1).mp one, rfl⟩

theorem finishJob_closed (known : j ∈ s'.jobs) (here : j.id = job)
    (finished : s.finishJob job cause = .ok s' ∨ s' = s ∧ ∃ err, s.finishJob job cause = .error err) : ¬ j.Open := by
  rcases finished with done | ⟨rfl, err, refused⟩
  · obtain ⟨-, rfl⟩ := finishJob_ok done
    obtain ⟨old, -, rfl⟩ := Table.mem_update.mp known
    split
    · simp only [Job.Open]
      split <;> simp
    · rename_i other
      rw [if_neg other] at here
      exact fun unfinished => other ⟨here, unfinished⟩
  · intro unfinished
    have one : s'.jobs.count (fun j => j.id = job ∧ j.Open) = 1 :=
      (Table.count_eq_one fun _ found => found.1).mpr ⟨j, known, here, unfinished⟩
    simp [finishJob, one] at refused

theorem failRepo_closed (done : s.failRepo repo tok cause = .ok s') (known : j ∈ s'.jobs) (here : j.repoId = repo) :
    ¬ j.Open := by
  obtain ⟨after, guarded, rfl⟩ := map_eq_ok.mp done
  obtain ⟨old, -, rfl⟩ := Table.mem_update.mp known
  split
  · simp [Job.Open]
  · rename_i other
    rw [if_neg other] at here
    exact fun unfinished => other ⟨here, unfinished⟩

theorem failJobFilesForFile_rows (stored : jf ∈ (s.failJobFilesForFile file cause).jobFiles) (here : jf.fileId = file) :
    jf.status ≠ .pending := by
  obtain ⟨old, -, rfl⟩ := Table.mem_update.mp stored
  split
  · nofun
  · rename_i other
    rw [if_neg other] at here
    exact fun pending => other ⟨here, pending⟩

/-- The jobs left open own no row that the failure of the file closes. -/
theorem failJobFilesForFile_jobs (known : j ∈ (s.failJobFilesForFile file cause).jobs) (unfinished : j.Open)
    (stored : jf ∈ s.jobFiles) (mine : jf.jobId = j.id) : ¬ (jf.fileId = file ∧ jf.status = .pending) := by
  rintro ⟨here, pending⟩
  obtain ⟨old, -, rfl⟩ := Table.mem_update.mp known
  split at unfinished
  · simp [Job.Open] at unfinished
  · rename_i other
    rw [if_neg other] at mine
    exact other ⟨⟨jf, stored, here, pending, mine⟩, unfinished⟩

theorem completeInstall_ok (done : s.completeInstall job file tok err = .ok s') :
    (∃ jf ∈ s.jobFiles, jf.Held job file tok) ∧ s'.files = s.files ∧
      s'.jobFiles = s.jobFiles.update (JobFile.Held job file tok)
        ⟨fun jf => { jf with toLease := .cleared, status := if err.isSome then .error else .done, lastError := err },
            fun _ => rfl⟩ ∧
      s'.jobs = if err = none ∧ ∀ jf ∈ s'.jobFiles, jf.jobId = job → jf.status = .done then
        s.jobs.update (fun j => j.id = job ∧ j.Open) ⟨fun j => { j with status := .done }, fun _ => rfl⟩ else s.jobs := by
  simp only [completeInstall] at done
  rw [execGuarded_committed (k := (job, file)) fun jf held => Prod.ext held.1 held.2.1] at done
  obtain ⟨held, rfl⟩ := done
  refine ⟨held, rfl, rfl, ?_⟩
  cases err with
  | some cause => simp
  | none =>
    refine if_congr ?_ rfl rfl
    simp only [Option.isSome_none, Bool.false_eq_true, if_false, true_and, Table.count, List.countP_eq_zero, decide_eq_true_eq]
    exact ⟨fun none_left jf stored mine => by_contra fun waits => none_left jf stored ⟨mine, waits⟩,
      fun all jf stored waits => waits.2 (all jf stored waits.1)⟩

end
end Store
end Hfdl
