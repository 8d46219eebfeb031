import Mathlib.Data.List.Dedup
import Mathlib.Data.List.Sort
import Hfdl.Store.Listing

/-! The scheduler functions that open, wire and close jobs: submission, listing, installation and the failure of a
file. A function is cut at its database accesses and what it still has to do is a task. The tasks of any number of
concurrent calls take their next step in any order, and a stopped process drops all of them. -/
namespace Hfdl
open Relational Transition

/-- Explicit filenames win over the globs. -/
def Selection.matchesPath (fnmatch : String → String → Bool) (sel : Selection) (path : String) : Bool :=
  if sel.filenames = [] then
    (sel.include_.isEmpty || sel.include_.any (fnmatch path)) && !sel.exclude.any (fnmatch path)
  else sel.filenames.contains path

def unionMatches (fnmatch : String → String → Bool) (sels : List Selection) (path : String) : Bool :=
  sels.isEmpty || sels.any (·.matchesPath fnmatch path)

def missingNames (names paths : List String) : List String :=
  (names.filter fun name => !paths.contains name).insertionSort (· ≤ ·)

def notInRepoError (paths : List String) : String :=
  "sched: file not found in repository: " ++ ", ".intercalate paths

def offlineError (path : String) : String :=
  "sched: offline mode: network access disabled: cannot serve " ++ path ++ ": not in offline cache"

namespace Store

def filesForRepo (s : Store) (repo : RepoId) : List File := s.files.rows.filter (·.repoId = repo)

def jobsForRepo (s : Store) (repo : RepoId) : List Job := s.jobs.rows.filter (·.repoId = repo)

/-- The paths of a repository whose hashes an earlier discovery has not stored. -/
def hashBackfillPaths (s : Store) (repo : RepoId) (entries : List FileEntry) : List String :=
  ((s.filesForRepo repo).filter fun f => f.gitOID = "" ∧ f.path ∉ entries.map (·.path)).map (·.path)

end Store

/-- The flags of a process that decide which calls it makes. -/
structure Config where
  forceDownload : Bool
  offline : Bool
  dryRun : Bool
deriving DecidableEq, Repr

/-- The rest of a scheduler function. Rows in it are as the function has read them. -/
inductive Routine where
  | enqueued (job : Job)
  | wiring (job : Job)
  | forcing (job : Job) (files todo : List File)
  | ensuring (job : Job) (matched : List File)
  | serving (job : Job) (todo matched : List File)
  | placing (job : Job) (matched : List File)
  | closing (job : Job) (cause : Option String)
  | leased (repo : Repo) (tok : LeaseToken)
  | pinned (repo : RepoId) (tok : LeaseToken)
  | discovering (repo : RepoId) (tok : LeaseToken) (jobs : List Job)
  | layout (repo : RepoId) (tok : LeaseToken) (jobs : List Job)
  | layoutPinned (repo : RepoId) (tok : LeaseToken) (entries : List FileEntry)
  | persisted (repo : RepoId) (jobs : List Job)
  | resolving (repo : RepoId) (jobs : List Job) (files : List File)
  | settling (job : Job) (cause : Option String) (jobs : List Job) (files : List File)
  | installing (job : Job) (file : File) (tok : LeaseToken)
  | installFailed (job : JobId) (cause : String)
  | verifyFailed (file : FileId)
  | fileFailed (file : FileId) (cause : String)
deriving DecidableEq

/-- What the network, the disk and the caller answer to a step. -/
inductive Input where
  | none
  | served (found : Bool)
  | dests (paths : Except String (List String))
  | revision (sha : String)
  | tree (entries : List FileEntry)
  | found (sha : String) (entries : List FileEntry)
  | outcome (err : Option String)
  | released (availableAt : Option Time) (cause : Option String)
  | deferred (availableAt : Time)
  | refused (cause : Option String)

/-- A missing explicit filename, as it is recorded for the result of the run. -/
inductive Report where
  | listing (repo : RepoId) (paths : List String)
  | submission (repo : RepoId) (paths : List String)
deriving DecidableEq, Repr

/-- One step: the call it makes, if any, and how the function goes on when the call commits or fails. -/
structure Action where
  op : Option Operation
  done : List Routine
  failed : List Routine
  report : Option Report

namespace Routine

def read (rest : List Routine) : Option Action := some ⟨none, rest, [], none⟩

def call (op : Operation) (done failed : List Routine) : Option Action := some ⟨some op, done, failed, none⟩

/-- The listing gives its lease back: for a retry, until a cooldown ends, or for good. -/
def giveBack (repo : RepoId) (tok : LeaseToken) : Input → Option Action
  | .released availableAt cause => call (.releaseMeta repo tok availableAt cause) [] []
  | .deferred availableAt => call (.deferMeta repo tok availableAt) [] []
  | .refused cause => call (.failRepo repo tok cause) [] []
  | _ => none

section
variable (fnmatch : String → String → Bool)

def matched (sel : Selection) (files : List File) : List File := files.filter fun f => sel.matchesPath fnmatch f.path

def select (job : Job) (files : List File) : Option Action :=
  let found := matched fnmatch job.toSelection files
  let missing := missingNames job.filenames.dedup (found.map (·.path))
  if missing = [] then read [.ensuring job found]
  else some ⟨none, [.closing job (some (notInRepoError missing))], [], some (.submission job.repoId missing)⟩

def resume (repo : RepoId) (jobs : List Job) (files : List File) : List Routine :=
  if jobs = [] then [] else [.resolving repo jobs files]

def serve (job : Job) (todo found : List File) : List Routine :=
  if todo = [] then [.placing job found] else [.serving job todo found]

def listing (jobs : List Job) (tree : List FileEntry) : List FileEntry :=
  tree.filter fun e => unionMatches fnmatch (jobs.map (·.toSelection)) e.path

/-- Explicit filenames must be in the discovered tree, and what any job selects is persisted. -/
def discover (s : Store) (repo : RepoId) (tok : LeaseToken) (jobs : List Job) (tree : List FileEntry) : Option Action :=
  let missing := missingNames (jobs.flatMap fun j => j.filenames.dedup) (tree.map (·.path))
  if missing = [] then
    let entries := listing fnmatch jobs tree
    let backfill := s.hashBackfillPaths repo entries
    call (.completeListing repo tok (entries ++ tree.filter fun e => e.path ∈ backfill)) [.persisted repo jobs] []
  else some ⟨some (.failRepo repo tok (some (notInRepoError missing))), [], [], some (.listing repo missing)⟩

/-- The listing of the cache layout. Every explicit filename must be found. Files at the destinations of
local-dir jobs are the listing of these jobs, which needs explicit filenames and pins no commit. -/
def discoverLayout (repo : RepoId) (tok : LeaseToken) (jobs : List Job) (sha : String) (entries : List FileEntry) :
    Option Action :=
  let names := (jobs.flatMap (·.filenames)).dedup
  let localDir := jobs.any (·.destMode = .localDir)
  if entries ≠ [] ∧ (names ≠ [] → entries.map (·.path) = names) ∧ (localDir → names ≠ []) then
    if localDir then call (.completeListing repo tok entries) [] []
    else call (.setCommitSHA repo tok sha) [.layoutPinned repo tok entries] []
  else none

def act (config : Config) (s : Store) : Routine → Input → Option Action
  | .enqueued job, .none =>
    match s.repos.get job.repoId with
    | some r => read (if r.status = .listed ∧ r.commitSHA.getD "" ≠ "" then [.wiring job] else [])
    | none => read []
  | .wiring job, .none =>
    let files := s.filesForRepo job.repoId
    let todo := files.filter (·.status = .cached)
    if config.forceDownload ∧ todo ≠ [] then read [.forcing job files todo] else select fnmatch job files
  | .forcing job files (f :: todo), .none =>
    call (.transitionFile f.id "" .cached .queued none 0) [.forcing job
      (files.map fun g => if g.id = f.id then { g with status := .queued } else g) todo] []
  | .forcing job files [], .none => select fnmatch job files
  | .ensuring job found, .none =>
    call (.ensureJobFiles job.id (found.map (·.id)))
      (if found = [] then [.closing job none]
        else serve job (if config.offline then found.filter (·.status = .queued) else []) found) []
  | .serving job (_ :: todo) found, .served true => read (serve job todo found)
  | .serving job (f :: todo) found, .served false =>
    call (.failJobFilesForFile f.id (some (offlineError f.path))) (serve job todo found) []
  | .placing _ _, .dests (.error _) => read []
  | .placing job found, .dests (.ok paths) =>
    call (.setJobFileDests job.id ((found.map (·.id)).zip paths)) (if config.dryRun then [.closing job none] else []) []
  | .closing job cause, .none => call (.finishJob job.id cause) [] []
  | .leased r tok, .revision sha =>
    if config.offline then none
    else if r.commitSHA.getD "" = "" then call (.setCommitSHA r.id tok sha) [.pinned r.id tok] []
    else read [.pinned r.id tok]
  | .leased r tok, .none => if config.offline then read [.layout r.id tok (s.jobsForRepo r.id)] else none
  | .leased r tok, input => giveBack r.id tok input
  | .pinned repo tok, .none => read [.discovering repo tok (s.jobsForRepo repo)]
  | .pinned repo tok, input => giveBack repo tok input
  | .discovering repo tok jobs, .tree tree => discover fnmatch s repo tok jobs tree
  | .discovering repo tok _, input => giveBack repo tok input
  | .layout repo tok jobs, .found sha entries => discoverLayout repo tok jobs sha entries
  | .layout repo tok _, .refused cause => call (.failRepo repo tok cause) [] []
  | .layoutPinned repo tok entries, .none => call (.completeListing repo tok entries) [] []
  | .persisted repo jobs, .none => read (resume repo jobs (s.filesForRepo repo))
  | .resolving repo (j :: jobs) files, input =>
    let found := matched fnmatch j.toSelection files
    if found = [] then call (.finishJob j.id none) (resume repo jobs files) (resume repo jobs files)
    else match input with
      | .dests (.error err) => read [.settling j (some err) jobs files]
      | .dests (.ok paths) =>
        call (.setJobFileDests j.id ((found.map (·.id)).zip paths))
          (if config.dryRun then [.settling j none jobs files] else resume repo jobs files)
          [.settling j (some "sched: store dest paths") jobs files]
      | _ => none
  | .settling job cause jobs files, .none =>
    call (.finishJob job.id cause) (resume job.repoId jobs files) (resume job.repoId jobs files)
  | .installing job file tok, .outcome err =>
    match if job.matchesPath fnmatch file.path then err else none with
    | none => call (.completeInstall job.id file.id tok none) [] []
    | some cause =>
      call (.completeInstall job.id file.id tok (some cause)) [.installFailed job.id cause] [.installFailed job.id cause]
  | .installFailed job cause, .none => call (.finishJob job (some cause)) [] []
  | .verifyFailed file, .none =>
    read (if ∃ f ∈ s.files, f.id = file ∧ f.status = .error then [.fileFailed file "verify failed"] else [])
  | .fileFailed file cause, .none => call (.failJobFilesForFile file (some cause)) [] []
  | _, _ => none

/-- The step between the files of the repository and the selection of the job. -/
inductive Selects (s : Store) (job : Job) : Routine → List File → Prop where
  | wiring : Selects s job (.wiring job) (s.filesForRepo job.repoId)
  | forced : Selects s job (.forcing job files []) files

/-- The tasks of a listing that still holds its lease. -/
inductive Lists (repo : RepoId) (tok : LeaseToken) : Routine → Prop where
  | leased (here : r.id = repo) : Lists repo tok (.leased r tok)
  | pinned : Lists repo tok (.pinned repo tok)
  | discovering : Lists repo tok (.discovering repo tok jobs)
  | layout : Lists repo tok (.layout repo tok jobs)

/-- Everything a step of a task can do. -/
inductive Acts (config : Config) (s : Store) : Routine → Input → Action → Prop where
  | unlisted (unlisted : ∀ r ∈ s.repos, r.id = job.repoId → ¬ (r.status = .listed ∧ r.commitSHA.getD "" ≠ "")) :
      Acts config s (.enqueued job) .none ⟨none, [], [], none⟩
  | wire (known : r ∈ s.repos) (here : r.id = job.repoId) (listed : r.status = .listed) :
      Acts config s (.enqueued job) .none ⟨none, [.wiring job], [], none⟩
  | force : Acts config s (.wiring job) .none ⟨none, [.forcing job (s.filesForRepo job.repoId) todo], [], none⟩
  | forced : Acts config s (.forcing job files (f :: todo)) .none ⟨some (.transitionFile f.id "" .cached .queued none 0),
      [.forcing job (files.map fun g => if g.id = f.id then { g with status := .queued } else g) todo], [], none⟩
  | select (selects : Selects s job t files) :
      Acts config s t .none ⟨none, [.ensuring job (matched fnmatch job.toSelection files)], [], none⟩
  | reject (selects : Selects s job t files) :
      Acts config s t .none ⟨none, [.closing job (some cause)], [], some (.submission job.repoId
        (missingNames job.filenames.dedup ((matched fnmatch job.toSelection files).map (·.path))))⟩
  | ensure (nonempty : found ≠ []) : Acts config s (.ensuring job found) .none
      ⟨some (.ensureJobFiles job.id (found.map (·.id))), serve job todo found, [], none⟩
  | ensureNone : Acts config s (.ensuring job []) .none ⟨some (.ensureJobFiles job.id []), [.closing job none], [], none⟩
  | served : Acts config s (.serving job (f :: todo) found) (.served true) ⟨none, serve job todo found, [], none⟩
  | unserved : Acts config s (.serving job (f :: todo) found) (.served false)
      ⟨some (.failJobFilesForFile f.id cause), serve job todo found, [], none⟩
  | unplaced : Acts config s (.placing job found) (.dests (.error err)) ⟨none, [], [], none⟩
  | place : Acts config s (.placing job found) (.dests (.ok paths))
      ⟨some (.setJobFileDests job.id dests), if config.dryRun then [.closing job none] else [], [], none⟩
  | close : Acts config s (.closing job cause) .none ⟨some (.finishJob job.id cause), [], [], none⟩
  | pin : Acts config s (.leased r tok) (.revision sha) ⟨some (.setCommitSHA r.id tok sha), [.pinned r.id tok], [], none⟩
  | pinned : Acts config s (.leased r tok) (.revision sha) ⟨none, [.pinned r.id tok], [], none⟩
  | offline : Acts config s (.leased r tok) .none ⟨none, [.layout r.id tok (s.jobsForRepo r.id)], [], none⟩
  | release (lists : Lists repo tok t) :
      Acts config s t (.released availableAt cause) ⟨some (.releaseMeta repo tok availableAt cause), [], [], none⟩
  | defer (lists : Lists repo tok t) : Acts config s t (.deferred until_) ⟨some (.deferMeta repo tok until_), [], [], none⟩
  | refuse (lists : Lists repo tok t) : Acts config s t (.refused cause) ⟨some (.failRepo repo tok cause), [], [], none⟩
  | read : Acts config s (.pinned repo tok) .none ⟨none, [.discovering repo tok (s.jobsForRepo repo)], [], none⟩
  | list : Acts config s (.discovering repo tok jobs) (.tree tree) ⟨some (.completeListing repo tok
      (listing fnmatch jobs tree ++ tree.filter fun e => e.path ∈ s.hashBackfillPaths repo (listing fnmatch jobs tree))),
      [.persisted repo jobs], [], none⟩
  | incomplete : Acts config s (.discovering repo tok jobs) (.tree tree) ⟨some (.failRepo repo tok cause), [], [],
      some (.listing repo (missingNames (jobs.flatMap fun j => j.filenames.dedup) (tree.map (·.path))))⟩
  | listLocalDir (nonempty : entries ≠ []) :
      Acts config s (.layout repo tok jobs) (.found sha entries) ⟨some (.completeListing repo tok entries), [], [], none⟩
  | pinLayout (nonempty : entries ≠ []) : Acts config s (.layout repo tok jobs) (.found sha entries)
      ⟨some (.setCommitSHA repo tok sha), [.layoutPinned repo tok entries], [], none⟩
  | listLayout : Acts config s (.layoutPinned repo tok entries) .none ⟨some (.completeListing repo tok entries), [], [], none⟩
  | resolve : Acts config s (.persisted repo jobs) .none ⟨none, resume repo jobs (s.filesForRepo repo), [], none⟩
  | sweep (unmatched : matched fnmatch j.toSelection files = []) : Acts config s (.resolving repo (j :: jobs) files) input
      ⟨some (.finishJob j.id none), resume repo jobs files, resume repo jobs files, none⟩
  | unresolved (nonempty : matched fnmatch j.toSelection files ≠ []) :
      Acts config s (.resolving repo (j :: jobs) files) (.dests (.error err))
      ⟨none, [.settling j (some err) jobs files], [], none⟩
  | resolved (nonempty : matched fnmatch j.toSelection files ≠ []) :
      Acts config s (.resolving repo (j :: jobs) files) (.dests (.ok paths)) ⟨some (.setJobFileDests j.id dests),
      if config.dryRun then [.settling j none jobs files] else resume repo jobs files,
        [.settling j (some cause) jobs files], none⟩
  | settle : Acts config s (.settling j cause jobs files) .none
      ⟨some (.finishJob j.id cause), resume j.repoId jobs files, resume j.repoId jobs files, none⟩
  | install : Acts config s (.installing job file tok) (.outcome err)
      ⟨some (.completeInstall job.id file.id tok none), [], [], none⟩
  | installFails : Acts config s (.installing job file tok) (.outcome err)
      ⟨some (.completeInstall job.id file.id tok (some cause)), [.installFailed job.id cause],
        [.installFailed job.id cause], none⟩
  | failJob : Acts config s (.installFailed job cause) .none ⟨some (.finishJob job (some cause)), [], [], none⟩
  | verifyFails (failed : f ∈ s.files) (here : f.id = file) (status : f.status = .error) :
      Acts config s (.verifyFailed file) .none ⟨none, [.fileFailed file cause], [], none⟩
  | refetched (others : ∀ f ∈ s.files, f.id = file → f.status ≠ .error) :
      Acts config s (.verifyFailed file) .none ⟨none, [], [], none⟩
  | failRows : Acts config s (.fileFailed file cause) .none ⟨some (.failJobFilesForFile file (some cause)), [], [], none⟩

variable {fnmatch}

theorem forall_serve {P : Routine → Prop} (placing : P (.placing job found)) (serving : P (.serving job todo found)) :
    ∀ t ∈ serve job todo found, P t := by
  unfold serve
  split
  · exact List.forall_mem_singleton.mpr placing
  · exact List.forall_mem_singleton.mpr serving

theorem forall_resume {P : Routine → Prop} (resolving : P (.resolving repo jobs files)) : ∀ t ∈ resume repo jobs files, P t := by
  unfold resume
  split
  · exact List.forall_mem_nil _
  · exact List.forall_mem_singleton.mpr resolving

theorem acts_giveBack (lists : Lists repo tok t) (gives : giveBack repo tok input = some a) :
    Acts fnmatch config s t input a := by
  cases input <;> cases gives
  · exact .release lists
  · exact .defer lists
  · exact .refuse lists

theorem acts_select (selects : Selects s job t files) (acts : select fnmatch job files = some a) :
    Acts fnmatch config s t .none a := by
  simp only [select] at acts
  split at acts
  · cases acts
    exact .select selects
  · cases acts
    exact .reject selects

theorem acts_enqueued (found : s.repos.get job.repoId = some r) : Acts fnmatch config s (.enqueued job) .none
    ⟨none, if r.status = .listed ∧ r.commitSHA.getD "" ≠ "" then [.wiring job] else [], [], none⟩ := by
  obtain ⟨known, here⟩ := Table.get_eq_some.mp found
  split
  · case isTrue listed => exact .wire known here listed.1
  · case isFalse unlisted => exact .unlisted fun r known' here' => Table.eq_of_key known' known (here'.trans here.symm) ▸ unlisted

theorem acts_ensuring : Acts fnmatch config s (.ensuring job found) .none ⟨some (.ensureJobFiles job.id (found.map (·.id))),
    if found = [] then [.closing job none] else serve job todo found, [], none⟩ := by
  cases found with
  | nil => exact .ensureNone
  | cons => exact .ensure (List.cons_ne_nil _ _)

theorem acts_verifyFailed : Acts fnmatch config s (.verifyFailed file) .none ⟨none,
    if ∃ f ∈ s.files, f.id = file ∧ f.status = .error then [.fileFailed file cause] else [], [], none⟩ := by
  split
  · case isTrue failed =>
    obtain ⟨f, stored, here, status⟩ := failed
    exact .verifyFails stored here status
  · case isFalse others => exact .refetched fun f stored here status => others ⟨f, stored, here, status⟩

theorem acts_discover (acted : discover fnmatch s repo tok jobs tree = some a) :
    Acts fnmatch config s (.discovering repo tok jobs) (.tree tree) a := by
  simp only [discover] at acted
  split at acted <;> cases acted
  · exact .list
  · exact .incomplete

theorem acts_discoverLayout (acted : discoverLayout repo tok jobs sha entries = some a) :
    Acts fnmatch config s (.layout repo tok jobs) (.found sha entries) a := by
  simp only [discoverLayout] at acted
  split at acted
  · rename_i complete
    split at acted <;> cases acted
    · exact .listLocalDir complete.1
    · exact .pinLayout complete.1
  · cases acted

theorem acts_of_act (acted : act fnmatch config s t input = some a) : Acts fnmatch config s t input a := by
  revert acted
  -- a branch of the function names its action, or leaves it to one of the functions above
  fun_cases act fnmatch config s t input <;> intro acted
  all_goals first
    | exact acts_select .wiring acted
    | exact acts_select .forced acted
    | exact acts_discover acted
    | exact acts_discoverLayout acted
    | exact acts_giveBack (.leased rfl) acted
    | exact acts_giveBack .pinned acted
    | exact acts_giveBack .discovering acted
    | (cases acted; done)
    | cases acted
      first
      | exact acts_enqueued ‹_›
      | exact acts_ensuring
      | exact acts_verifyFailed
      | exact .unlisted fun r known here => absurd here (Table.get_eq_none.mp ‹_› r known)
      | constructor <;> first | assumption | exact .layout

end
end Routine

/-- `considered` are the jobs that the listing of a repository has read. -/
structure Manager where
  store : Store
  config : Config
  tasks : List Routine
  reports : List Report
  considered : RepoId → List JobId

namespace Manager

inductive Event where
  | call (op : Operation)
  | submit (spec : JobSpec)
  | list (tok : LeaseToken) (now : Time)
  | install (tok : LeaseToken) (now : Time) (mode : Option DestMode)
  | failFile (file : FileId) (tok : LeaseToken) (cause : String) (now : Time)
  | failVerify (file : FileId) (tok : LeaseToken) (cause : String)
  | step (t : Routine) (input : Input)
  | quit (t : Routine)
  | crash (owner : String) (config : Config)

/-- The calls that the tasks and the events of their own make. Anyone may fail a job: the watcher of a full disk does. -/
def own : Operation → Bool
  | .reopen _ | .enqueueJob _ | .leaseMeta .. | .setCommitSHA .. | .completeListing .. | .leaseInstall .. | .completeInstall ..
  | .ensureJobFiles .. | .setJobFileDests .. | .finishJob _ none | .failRepo .. | .failJobFilesForFile .. | .deferMeta ..
  | .releaseMeta .. | .failVerify .. | .transitionFile _ _ _ .error _ _ | .transitionFile _ _ .cached .queued _ _ => true
  | _ => false

/-- A listing that has just been persisted is remembered with the jobs it has read. -/
def consider (considered : RepoId → List JobId) : Routine → RepoId → List JobId
  | .persisted repo jobs => Function.update considered repo (jobs.map (·.id))
  | _ => considered

def goOn (d : Manager) (t : Routine) (rest : List Routine) (report : Option Report) (store : Store) : Manager :=
  { d with
    store
    tasks := d.tasks.erase t ++ rest
    reports := report.toList ++ d.reports
    considered := rest.foldl consider d.considered }

def perform (d : Manager) (t : Routine) (a : Action) : Manager :=
  match a.op with
  | none => d.goOn t a.done a.report d.store
  | some op =>
    match op.exec d.store with
    | .ok store => d.goOn t a.done a.report store
    | .error _ => d.goOn t a.failed a.report d.store

def next (fnmatch : String → String → Bool) (d : Manager) : Event → Option Manager
  | .call op => if own op = false ∧ op.Issued then some { d with store := op.commit d.store } else none
  | .submit spec =>
    let ((repo, job), store) := d.store.enqueueJob spec
    some { d with store, tasks := d.tasks ++ [.enqueued (.fresh job repo spec)] }
  | .list tok now =>
    match d.store.leaseMeta tok now with
    | .ok (r, store) => some { d with store, tasks := d.tasks ++ [.leased r tok] }
    | .error _ => none
  | .install tok now mode =>
    if d.config.dryRun then none
    else match d.store.leaseInstall tok now mode with
      | .ok (jf, store) =>
        match store.jobs.get jf.jobId, store.files.get jf.fileId with
        | some job, some file => some { d with store, tasks := d.tasks ++ [.installing job file tok] }
        | _, _ => none
      | .error _ => none
  | .failFile file tok cause now =>
    if tok = "" then none
    else some { d with
      store := (Operation.transitionFile file tok .downloading .error (some cause) now).commit d.store
      tasks := d.tasks ++ [.fileFailed file cause] }
  | .failVerify file tok cause =>
    match d.store.failVerify file tok (some cause) with
    | .ok store => some { d with store, tasks := d.tasks ++ [.verifyFailed file] }
    | .error _ => none
  | .step t input => if t ∈ d.tasks then (t.act fnmatch d.config d.store input).map (d.perform t) else none
  | .quit t => if t ∈ d.tasks then some { d with tasks := d.tasks.erase t } else none
  | .crash owner config => some { d with store := { d.store with owner }, config, tasks := [], reports := [] }

def initial (owner : String) (config : Config) : Manager := ⟨.empty owner, config, [], [], fun _ => []⟩

inductive Step (fnmatch : String → String → Bool) (d : Manager) : Event → Manager → Prop where
  | call (foreign : own op = false) (issued : op.Issued) : Step fnmatch d (.call op) { d with store := op.commit d.store }
  | submit : Step fnmatch d (.submit spec) { d with
      store := (d.store.enqueueJob spec).2
      tasks := d.tasks ++ [.enqueued (.fresh (d.store.enqueueJob spec).1.2 (d.store.enqueueJob spec).1.1 spec)] }
  | list (leased : d.store.leaseMeta tok now = .ok (r, store')) :
      Step fnmatch d (.list tok now) { d with store := store', tasks := d.tasks ++ [.leased r tok] }
  | install (wet : d.config.dryRun = false) (leased : d.store.leaseInstall tok now mode = .ok (jf, store'))
      (known : job ∈ store'.jobs) (here : job.id = jf.jobId) (file : File) :
      Step fnmatch d (.install tok now mode) { d with store := store', tasks := d.tasks ++ [.installing job file tok] }
  | failFile (leased : tok ≠ "") : Step fnmatch d (.failFile file tok cause now) { d with
      store := (Operation.transitionFile file tok .downloading .error (some cause) now).commit d.store
      tasks := d.tasks ++ [.fileFailed file cause] }
  | failVerify (failed : d.store.failVerify file tok (some cause) = .ok store') :
      Step fnmatch d (.failVerify file tok cause) { d with store := store', tasks := d.tasks ++ [.verifyFailed file] }
  | read (here : t ∈ d.tasks) (acts : t.Acts fnmatch d.config d.store input ⟨none, rest, failed, report⟩) :
      Step fnmatch d (.step t input) (d.goOn t rest report d.store)
  | commit (here : t ∈ d.tasks) (acts : t.Acts fnmatch d.config d.store input ⟨some op, rest, failed, report⟩)
      (done : op.exec d.store = .ok store') : Step fnmatch d (.step t input) (d.goOn t rest report store')
  | refuse (here : t ∈ d.tasks) (acts : t.Acts fnmatch d.config d.store input ⟨some op, rest, failed, report⟩)
      (refused : op.exec d.store = .error err) : Step fnmatch d (.step t input) (d.goOn t failed report d.store)
  | quit (here : t ∈ d.tasks) : Step fnmatch d (.quit t) { d with tasks := d.tasks.erase t }
  | crash {owner : String} {flags : Config} : Step fnmatch d (.crash owner flags)
      { d with store := { d.store with owner }, config := flags, tasks := [], reports := [] }

theorem step_perform {d : Manager} (here : t ∈ d.tasks) (acts : t.Acts fnmatch d.config d.store input a) :
    Step fnmatch d (.step t input) (d.perform t a) := by
  obtain ⟨_ | op, rest, failed, report⟩ := a
  · exact .read here acts
  · simp only [perform]
    split
    · exact .commit here acts ‹_›
    · exact .refuse here acts ‹_›

theorem next_step {d d' : Manager} (stepped : next fnmatch d e = some d') : Step fnmatch d e d' := by
  unfold next at stepped
  repeat' split at stepped
  all_goals first
    | cases stepped; grind [Step, Table.get_eq_some]
    | grind [Option.map_eq_some_iff, Routine.acts_of_act, step_perform]

end Manager
end Hfdl
