import Hfdl.Sched.Wiring

/-! Which rows a finished job has. A listing persists what the jobs it has read select, every job gets a row for all of
that, and the rows of a job are done when the job is. -/
namespace Hfdl
open Relational Transition Operation

theorem JobFile.Change.done {jf jf' : JobFile} (changed : jf.Change s op jf') (before : jf.status = .done) :
    jf'.status = .done := by
  cases changed with
  | kept | placed => exact before
  | claimed installable => cases before.symm.trans installable.1
  | installed held => cases before.symm.trans held.2.2.1
  | finished _ pending | failed _ pending => cases before.symm.trans pending
  | lapsed installing => cases before.symm.trans installing

theorem Job.Change.closed {j j' : Job} (changed : j.Change s op j') (closed : ¬ j.Open) : j' = j := by
  cases changed with
  | kept => rfl
  | started queued => exact absurd (.inl queued) closed
  | installed _ unfinished | finished _ unfinished | repoFailed _ unfinished | fileFailed _ unfinished =>
    exact absurd unfinished closed

theorem Job.Change.done {j j' : Job} (changed : j.Change s op j') (later : j'.status = .done) :
    j.status = .done ∨ j.Open ∧ ((∃ file tok, op = .completeInstall j.id file tok none) ∨ op = .finishJob j.id none) := by
  cases changed with
  | kept => exact .inl later
  | started | repoFailed | fileFailed => cases later
  | installed here unfinished => exact .inr ⟨unfinished, .inl ⟨_, _, by rw [here]⟩⟩
  | finished here unfinished =>
    rename_i cause
    cases cause with
    | none => exact .inr ⟨unfinished, .inr (by rw [here])⟩
    | some => cases later

namespace Store
variable {fnmatch : String → String → Bool} {s s' : Store} {op : Operation} {job : Job}

theorem exists_row (stored : jf ∈ s.jobFiles) (done : op.exec s = .ok s') : ∃ jf' ∈ s'.jobFiles, jf.Change s op jf' := by
  rcases (exec_evolution done).jobFiles.kept jf stored with kept | gone
  · exact kept
  · exact gone.elim

/-- The job has a row for every file of its repository that it selects. -/
def Wired (fnmatch : String → String → Bool) (s : Store) (job : Job) : Prop :=
  ∀ f ∈ s.files, f.repoId = job.repoId → job.matchesPath fnmatch f.path = true →
    ∃ jf ∈ s.jobFiles, jf.jobId = job.id ∧ jf.fileId = f.id

/-- No row of the job is being installed, and none has failed unless the job has. -/
def Quiet (s : Store) (job : JobId) : Prop :=
  ∀ jf ∈ s.jobFiles, jf.jobId = job → jf.status ≠ .installing ∧ (jf.status = .error → ∀ j ∈ s.jobs, j.id = job → ¬ j.Open)

/-- Every file of the repository that the job selects has a row that is done. -/
def Finished (fnmatch : String → String → Bool) (s : Store) (job : Job) : Prop :=
  ∀ f ∈ s.files, f.repoId = job.repoId → job.matchesPath fnmatch f.path = true →
    ∃ jf ∈ s.jobFiles, jf.jobId = job.id ∧ jf.fileId = f.id ∧ jf.status = .done

theorem Wired.exec (wired : Wired fnmatch s job) (catalogued : s.Catalogued) (listed : s.Listed job.repoId)
    (done : op.exec s = .ok s') : Wired fnmatch s' job := by
  intro f' stored' mine' selected
  obtain ⟨f, stored, id, path, mine⟩ := catalogued.frozen listed done stored' mine'
  obtain ⟨jf, row, here, there⟩ := wired f stored mine (path ▸ selected)
  obtain ⟨jf', row', changed⟩ := exists_row row done
  exact ⟨jf', row', changed.key.1.trans here, changed.key.2.trans (there.trans id)⟩

theorem Finished.exec (finished : Finished fnmatch s job) (catalogued : s.Catalogued) (listed : s.Listed job.repoId)
    (done : op.exec s = .ok s') : Finished fnmatch s' job := by
  intro f' stored' mine' selected
  obtain ⟨f, stored, id, path, mine⟩ := catalogued.frozen listed done stored' mine'
  obtain ⟨jf, row, here, there, status⟩ := finished f stored mine (path ▸ selected)
  obtain ⟨jf', row', changed⟩ := exists_row row done
  exact ⟨jf', row', changed.key.1.trans here, changed.key.2.trans (there.trans id), changed.done status⟩

theorem Sound.listed_of_row (sound : s.Sound) (known : j ∈ s.jobs) (row : jf ∈ s.jobFiles) (mine : jf.jobId = j.id) :
    s.Listed j.repoId := by
  obtain ⟨j', known', here, f, stored, -, same⟩ := sound.associated jf row
  obtain rfl := Table.eq_of_key known' known (here.trans mine)
  exact same ▸ sound.catalogued f stored

theorem closed_exec (done : op.exec s = .ok s') (known : ∃ j ∈ s.jobs, j.id = job')
    (closed : ∀ j ∈ s.jobs, j.id = job' → ¬ j.Open) :
    ∀ j ∈ s'.jobs, j.id = job' → ¬ j.Open := by
  obtain ⟨j, stored, rfl⟩ := known
  obtain ⟨j', stored', changed⟩ := ((exec_evolution done).jobs.kept j stored).resolve_right id
  obtain rfl := changed.closed (closed j stored rfl)
  intro j'' stored'' same
  rw [Table.eq_of_key stored'' stored' same]
  exact closed _ stored rfl

theorem Quiet.exec (quiet : s.Quiet job') (known : ∃ j ∈ s.jobs, j.id = job') (done : op.exec s = .ok s')
    (dry : ∀ tok now mode, op ≠ .leaseInstall tok now mode) : s'.Quiet job' := by
  intro jf' row' mine'
  rcases (exec_evolution done).jobFiles.origin jf' row' with ⟨jf, row, changed⟩ | added
  · have mine : jf.jobId = job' := changed.key.1.symm.trans mine'
    obtain ⟨idle, failed⟩ := quiet jf row mine
    have kept : jf.status = .error → ∀ j ∈ s'.jobs, j.id = job' → ¬ j.Open := fun error => closed_exec done known (failed error)
    cases changed with
    | kept | placed => exact ⟨idle, kept⟩
    | claimed => exact absurd rfl (dry _ _ _)
    | installed held => exact absurd held.2.2.1 idle
    | finished here =>
      refine ⟨by split <;> nofun, fun _ j stored same => finishJob_closed stored (same.trans (mine.symm.trans here)) (.inl done)⟩
    | failed here pending =>
      refine ⟨nofun, fun _ j stored same unfinished => ?_⟩
      cases done
      exact failJobFilesForFile_jobs stored unfinished row (mine.trans same.symm) ⟨here, pending⟩
    | lapsed installing => exact absurd installing idle
  · rcases added with ⟨_, _, _, -, _, -, -, _, rfl⟩ | ⟨_, _, -, _, -, rfl⟩ <;> exact ⟨nofun, nofun⟩

theorem Wired.congr (wired : Wired fnmatch s job) (id : job'.id = job.id) (repo : job'.repoId = job.repoId)
    (selection : job'.toSelection = job.toSelection) : Wired fnmatch s job' := by
  intro f stored mine selected
  obtain ⟨jf, row, here, there⟩ := wired f stored (mine.trans repo) (selection ▸ selected)
  exact ⟨jf, row, here.trans id.symm, there⟩

theorem Finished.congr (finished : Finished fnmatch s job) (id : job'.id = job.id) (repo : job'.repoId = job.repoId)
    (selection : job'.toSelection = job.toSelection) : Finished fnmatch s job' := by
  intro f stored mine selected
  obtain ⟨jf, row, here, there, status⟩ := finished f stored (mine.trans repo) (selection ▸ selected)
  exact ⟨jf, row, here.trans id.symm, there, status⟩

/-- A job with a row has all rows it needs. -/
def Complete (fnmatch : String → String → Bool) (s : Store) : Prop :=
  ∀ j ∈ s.jobs, (∃ jf ∈ s.jobFiles, jf.jobId = j.id) → Wired fnmatch s j

/-- The association of a job goes to everything it selects. -/
def Ensures (fnmatch : String → String → Bool) (s : Store) (op : Operation) : Prop :=
  ∀ job ids, op = .ensureJobFiles job ids → ∃ j : Job, j.id = job ∧ s.Knows j ∧
    ∀ f ∈ s.files, f.repoId = j.repoId → j.matchesPath fnmatch f.path = true → f.id ∈ ids

theorem Complete.exec (complete : Complete fnmatch s) (sound : s.Sound) (done : op.exec s = .ok s')
    (ensures : Ensures fnmatch s op) : Complete fnmatch s' := by
  rintro j' known' ⟨jf', row', mine'⟩
  rcases (exec_evolution done).jobFiles.origin jf' row' with ⟨jf, row, changed⟩ | added
  · obtain ⟨j, known, here, -⟩ := sound.associated jf row
    have wired := (complete j known ⟨jf, row, here.symm⟩).exec sound.catalogued (sound.listed_of_row known row here.symm) done
    obtain ⟨j'', known'', id, repo, selection⟩ := exists_job known done
    obtain rfl := Table.eq_of_key known'' known' (id.trans (here.trans (changed.key.1.symm.trans mine')))
    exact wired.congr id repo selection
  · rcases added with ⟨repo, tok, entries, rfl, j, known, belongs, file, rfl⟩ | ⟨job, ids, rfl, file, member, rfl⟩
    · have persisted := completeListing_persisted sound.catalogued done
      obtain rfl := Table.eq_of_key (persisted.jobs ▸ known) known' mine'
      intro f stored mine _
      obtain ⟨jf, row, key⟩ := persisted.paired f stored (mine.trans belongs) _ known' belongs
      exact ⟨jf, row, congrArg Prod.fst key, congrArg Prod.snd key⟩
    · obtain ⟨j, rfl, ⟨j₀, known, id, repo, selection⟩, all⟩ := ensures job ids rfl
      have row : ∀ file ∈ ids, ∃ jf ∈ s'.jobFiles, jf.jobId = j.id ∧ jf.fileId = file := fun _ => ensureJobFiles_row done
      obtain ⟨-, rfl⟩ := ensureJobFiles_ok done
      obtain rfl := Table.eq_of_key known known' (id.trans mine')
      intro f stored mine selected
      have listed : f.id ∈ ids := all f stored (mine.trans repo) (selection ▸ selected)
      obtain ⟨jf, row, belongs, there⟩ := row f.id listed
      exact ⟨jf, row, belongs.trans id.symm, there⟩

/-- A job that is finished without a cause has a pending or a finished row for everything it selects. -/
def Closes (fnmatch : String → String → Bool) (s : Store) (op : Operation) : Prop :=
  ∀ job, op = .finishJob job none → ∀ j ∈ s.jobs, j.id = job → j.Open → s.Listed j.repoId ∧
    ∀ f ∈ s.files, f.repoId = j.repoId → j.matchesPath fnmatch f.path = true →
      ∃ jf ∈ s.jobFiles, jf.jobId = j.id ∧ jf.fileId = f.id ∧ (jf.status = .pending ∨ jf.status = .done)

/-- The rows of a job that its last installation closes. -/
theorem finished_of_install (complete : Complete fnmatch s) (sound : s.Sound)
    (done : s.completeInstall j.id file tok none = .ok s') (known : j ∈ s.jobs) (unfinished : j.Open)
    (known' : j' ∈ s'.jobs) (same : j'.id = j.id) (later : j'.status = .done) : s.Listed j.repoId ∧ Finished fnmatch s' j := by
  obtain ⟨⟨jf, row, held⟩, files, rows, jobs⟩ := completeInstall_ok done
  have exec : (Operation.completeInstall j.id file tok none).exec s = .ok s' := done
  have listed := sound.listed_of_row known row held.1
  refine ⟨listed, ?_⟩
  have all : ∀ jf ∈ s'.jobFiles, jf.jobId = j.id → jf.status = .done := by
    rw [jobs] at known'
    split at known'
    · rename_i last
      exact last.2
    · rw [Table.eq_of_key known' known same] at later
      cases unfinished with
      | inl queued => cases queued.symm.trans later
      | inr running => cases running.symm.trans later
  have wired := (complete j known ⟨jf, row, held.1⟩).exec sound.catalogued listed exec
  intro f stored mine selected
  obtain ⟨jf, row, here, there⟩ := wired f stored mine selected
  exact ⟨jf, row, here, there, all jf row here⟩

theorem finished_of_close (closes : Closes fnmatch s (.finishJob j.id none)) (done : s.finishJob j.id none = .ok s')
    (known : j ∈ s.jobs) (unfinished : j.Open) : s.Listed j.repoId ∧ Finished fnmatch s' j := by
  obtain ⟨listed, ready⟩ := closes j.id rfl j known rfl unfinished
  refine ⟨listed, fun f stored mine selected => ?_⟩
  obtain ⟨-, rfl⟩ := finishJob_ok done
  obtain ⟨jf, row, owner, there, status⟩ := ready f stored mine selected
  refine ⟨_, Table.mem_update.mpr ⟨jf, row, rfl⟩, ?_⟩
  split
  · exact ⟨owner, there, rfl⟩
  · rename_i unswept
    exact ⟨owner, there, status.resolve_left fun pending => unswept ⟨owner, pending⟩⟩

def Closed (fnmatch : String → String → Bool) (s : Store) : Prop :=
  ∀ j ∈ s.jobs, j.status = .done → s.Listed j.repoId ∧ Finished fnmatch s j

theorem Closed.exec (closed : Closed fnmatch s) (complete : Complete fnmatch s) (sound : s.Sound) (done : op.exec s = .ok s')
    (closes : Closes fnmatch s op) : Closed fnmatch s' := by
  intro j' known' later
  rcases (exec_evolution done).jobs.origin j' known' with ⟨j, known, changed⟩ | ⟨_, -, _, _, rfl⟩
  · obtain ⟨id, repo, selection⟩ := changed.identity
    have result : s.Listed j.repoId ∧ Finished fnmatch s' j := by
      rcases changed.done later with before | ⟨unfinished, ⟨file, tok, rfl⟩ | rfl⟩
      · obtain ⟨listed, finished⟩ := closed j known before
        exact ⟨listed, finished.exec sound.catalogued listed done⟩
      · exact finished_of_install complete sound done known unfinished known' id later
      · exact finished_of_close closes done known unfinished
    exact ⟨repo ▸ result.1.exec done, result.2.congr id repo selection⟩
  · cases later

end Store

namespace Routine

def closers : Routine → List Job
  | .enqueued job | .wiring job | .forcing job _ _ | .ensuring job _ | .serving job _ _ | .placing job _ | .closing job _ => [job]
  | .persisted _ jobs | .resolving _ jobs _ => jobs
  | .settling job _ jobs _ => job :: jobs
  | .leased .. | .pinned .. | .discovering .. | .layout .. | .layoutPinned .. | .installing .. | .installFailed ..
  | .verifyFailed _ | .fileFailed .. => []

/-- A job is finished without a cause when it selects nothing, and with all of its rows in a dry run. -/
def Closing (fnmatch : String → String → Bool) (s : Store) (dry : Bool) : Routine → Prop
  | .serving job _ _ | .placing job _ => Store.Wired fnmatch s job
  | .closing job cause => cause = none → Store.Wired fnmatch s job ∧
      (dry = true ∨ ∀ f ∈ s.files, f.repoId = job.repoId → job.matchesPath fnmatch f.path = false)
  | .persisted _ jobs | .resolving _ jobs _ => ∀ j ∈ jobs, Store.Wired fnmatch s j
  | .settling job cause jobs _ =>
    Store.Wired fnmatch s job ∧ (cause = none → dry = true) ∧ ∀ j ∈ jobs, Store.Wired fnmatch s j
  | _ => True

variable {s s' : Store} {op : Operation} {t : Routine}

theorem Closing.exec (closing : t.Closing fnmatch s dry) (ok : t.Ok fnmatch s) (catalogued : s.Catalogued)
    (done : op.exec s = .ok s') : t.Closing fnmatch s' dry := by
  have all : ∀ {repo : RepoId} {jobs : List Job}, s.Listed repo → (∀ j ∈ jobs, s.Knows j ∧ j.repoId = repo) →
      (∀ j ∈ jobs, Store.Wired fnmatch s j) → ∀ j ∈ jobs, Store.Wired fnmatch s' j := by
    intro repo jobs listed known wired j member
    obtain ⟨-, rfl⟩ := known j member
    exact (wired j member).exec catalogued listed done
  cases t with
  | serving | placing => exact Store.Wired.exec closing catalogued ok.2.1 done
  | closing job cause =>
    intro uncaused
    obtain ⟨wired, unmatched⟩ := closing uncaused
    refine ⟨wired.exec catalogued ok.2 done, unmatched.imp_right fun unmatched f' stored' mine' => ?_⟩
    obtain ⟨f, stored, -, path, mine⟩ := catalogued.frozen ok.2 done stored' mine'
    exact path ▸ unmatched f stored mine
  | persisted => exact all ok.1 ok.2 closing
  | resolving => exact all ok.1 ok.2.1 closing
  | settling => exact ⟨closing.1.exec catalogued ok.2.1 done, closing.2.1, all ok.2.1 ok.2.2.1 closing.2.2⟩
  | _ => trivial

theorem mem_missingNames : name ∈ missingNames names paths ↔ name ∈ names ∧ name ∉ paths := by
  simp [missingNames, List.mem_insertionSort]

theorem Selects.missing (selects : Selects s job t files) (ok : t.Ok fnmatch s)
    (missing : name ∈ missingNames job.filenames.dedup ((matched fnmatch job.toSelection files).map (·.path)))
    (stored : f ∈ s.files) (mine : f.repoId = job.repoId) : f.path ≠ name := by
  rintro rfl
  obtain ⟨-, -, depicts⟩ := selects.depicts ok
  obtain ⟨named, unmatched⟩ := mem_missingNames.mp missing
  have named : f.path ∈ job.filenames := List.mem_dedup.mp named
  obtain ⟨g, member, -, path⟩ := depicts.all f stored mine
  have selected : job.matchesPath fnmatch g.path = true := by
    rw [Selection.matchesPath, if_neg (List.ne_nil_of_mem named), path]
    simpa using named
  exact unmatched (List.mem_map.mpr ⟨g, List.mem_filter.mpr ⟨member, selected⟩, path⟩)

theorem Acts.listing_failed (acts : t.Acts fnmatch config s input a) (lists : a.op = some (.completeListing repo tok entries)) :
    a.failed = [] := by
  cases acts <;> first | rfl | cases lists

theorem Acts.unleased (acts : t.Acts fnmatch config s input ⟨some op, rest, failed, report⟩) :
    ∀ tok now mode, op ≠ .leaseInstall tok now mode := by
  cases acts <;> exact nofun

/-- The rest of a function is not the end of a listing, and finishes only jobs that the function is there for. -/
def Inherits (t t' : Routine) : Prop := (∀ repo jobs, t' ≠ .persisted repo jobs) ∧ ∀ job ∈ t'.closers, job ∈ t.closers

/-- What the rest of a function relies on to finish its jobs; the rows of a job that is associated just now are yet to come. -/
theorem Acts.inherits (acts : t.Acts fnmatch config s input a) (ok : t.Ok fnmatch s)
    (closing : t.Closing fnmatch s config.dryRun) :
    ∀ t' ∈ a.done ++ a.failed, t.Inherits t' ∧ (t'.Closing fnmatch s config.dryRun ∨
        ∃ job, ∃ found : List File,
          found ≠ [] ∧ s.Knows job ∧ a.op = some (.ensureJobFiles job.id (found.map (·.id))) ∧ a.failed = [] ∧
          ∀ s', Store.Wired fnmatch s' job → t'.Closing fnmatch s' config.dryRun) ∨
      ∃ repo tok entries, a.op = some (.completeListing repo tok entries) := by
  cases acts with
  | wire | force | forced | pin | pinned | offline | read | pinLayout | verifyFails =>
    exact List.forall_mem_singleton.mpr (.inl ⟨⟨nofun, fun _ => id⟩, .inl trivial⟩)
  | select selects => cases selects <;> exact List.forall_mem_singleton.mpr (.inl ⟨⟨nofun, fun _ => id⟩, .inl trivial⟩)
  | reject selects => cases selects <;> exact List.forall_mem_singleton.mpr (.inl ⟨⟨nofun, fun _ => id⟩, .inl nofun⟩)
  | ensure nonempty =>
    rw [List.append_nil]
    refine forall_serve ?_ ?_ <;>
      exact .inl ⟨⟨nofun, fun _ => id⟩, .inr ⟨_, _, nonempty, ok.1, rfl, rfl, fun _ => id⟩⟩
  | ensureNone =>
    have unmatched : ∀ f ∈ s.files, f.repoId = _ → _ ≠ true := fun f stored mine selected => by
      obtain ⟨g, never, -⟩ := ok.2.2.all f stored mine selected
      cases never
    refine List.forall_mem_singleton.mpr (.inl ⟨⟨nofun, fun _ => id⟩, .inl fun _ => ⟨?_, .inr ?_⟩⟩)
    · exact fun f stored mine selected => absurd selected (unmatched f stored mine)
    · exact fun f stored mine => Bool.eq_false_iff.mpr (unmatched f stored mine)
  | served | unserved =>
    rw [List.append_nil]
    refine forall_serve ?_ ?_ <;> exact .inl ⟨⟨nofun, fun _ => id⟩, .inl closing⟩
  | place =>
    split
    · case isTrue dry =>
      exact List.forall_mem_singleton.mpr (.inl ⟨⟨nofun, fun _ => id⟩, .inl fun _ => ⟨closing, .inl dry⟩⟩)
    · exact List.forall_mem_nil _
  | list => exact List.forall_mem_singleton.mpr (.inr ⟨_, _, _, rfl⟩)
  | resolve =>
    rw [List.append_nil]
    exact forall_resume (.inl ⟨⟨nofun, fun _ => id⟩, .inl closing⟩)
  | sweep =>
    refine List.forall_mem_append.mpr
      (and_self_iff.mpr (forall_resume (.inl ⟨⟨nofun, fun _ => List.mem_cons_of_mem _⟩, .inl ?_⟩)))
    exact fun j later => closing j (List.mem_cons_of_mem _ later)
  | unresolved =>
    refine List.forall_mem_singleton.mpr (.inl ⟨⟨nofun, fun _ => id⟩, .inl ?_⟩)
    exact ⟨closing _ List.mem_cons_self, nofun, fun j later => closing j (List.mem_cons_of_mem _ later)⟩
  | resolved =>
    have first := closing _ List.mem_cons_self
    have rest := fun j later => closing j (List.mem_cons_of_mem _ later)
    refine List.forall_mem_append.mpr ⟨?_, List.forall_mem_singleton.mpr (.inl ⟨⟨nofun, fun _ => id⟩, .inl ⟨first, nofun, rest⟩⟩)⟩
    split
    · case isTrue dry => exact List.forall_mem_singleton.mpr (.inl ⟨⟨nofun, fun _ => id⟩, .inl ⟨first, fun _ => dry, rest⟩⟩)
    · exact forall_resume (.inl ⟨⟨nofun, fun _ => List.mem_cons_of_mem _⟩, .inl rest⟩)
  | settle =>
    exact List.forall_mem_append.mpr
      (and_self_iff.mpr (forall_resume (.inl ⟨⟨nofun, fun _ => List.mem_cons_of_mem _⟩, .inl closing.2.2⟩)))
  | installFails =>
    exact List.forall_mem_append.mpr
      (and_self_iff.mpr (List.forall_mem_singleton.mpr (.inl ⟨⟨nofun, fun _ => id⟩, .inl trivial⟩)))
  | unlisted | unplaced | close | release | defer | refuse | incomplete | listLocalDir | listLayout | install | failJob
  | refetched | failRows => exact List.forall_mem_nil _

theorem closes_dry (knows : s.Knows job) (listed : s.Listed job.repoId) (wired : Store.Wired fnmatch s job)
    (quiet : s.Quiet job.id) : Store.Closes fnmatch s (.finishJob job.id none) := by
  rintro _ ⟨⟩ j known here unfinished
  obtain ⟨j', known', id, repo, selection⟩ := knows
  obtain rfl := Table.eq_of_key known' known (id.trans here.symm)
  refine ⟨repo ▸ listed, fun f stored mine selected => ?_⟩
  obtain ⟨jf, row, owner, there⟩ := wired f stored (mine.trans repo) (selection ▸ selected)
  obtain ⟨idle, failed⟩ := quiet jf row owner
  refine ⟨jf, row, owner.trans id.symm, there, ?_⟩
  cases status : jf.status with
  | pending => exact .inl rfl
  | installing => exact absurd status idle
  | done => exact .inr rfl
  | error => exact absurd unfinished (failed status _ known id)

theorem closes_unmatched (knows : s.Knows job) (listed : s.Listed job.repoId)
    (unmatched : ∀ f ∈ s.files, f.repoId = job.repoId → job.matchesPath fnmatch f.path = false) :
    Store.Closes fnmatch s (.finishJob job.id none) := by
  rintro _ ⟨⟩ j known here unfinished
  obtain ⟨j', known', id, repo, selection⟩ := knows
  obtain rfl := Table.eq_of_key known' known (id.trans here.symm)
  refine ⟨repo ▸ listed, fun f stored mine selected => ?_⟩
  rw [selection, unmatched f stored (mine.trans repo)] at selected
  cases selected

theorem Acts.closes (acts : t.Acts fnmatch config s input ⟨some op, rest, failed, report⟩) (ok : t.Ok fnmatch s)
    (closing : t.Closing fnmatch s config.dryRun) (quiet : config.dryRun = true → ∀ job ∈ t.closers, s.Quiet job.id) :
    Store.Closes fnmatch s op := by
  cases acts with
  | @close job cause =>
    cases cause with
    | some => exact nofun
    | none =>
      obtain ⟨wired, dry | unmatched⟩ := closing rfl
      · exact closes_dry ok.1 ok.2 wired (quiet dry job List.mem_cons_self)
      · exact closes_unmatched ok.1 ok.2 unmatched
  | @sweep files repo j jobs _ none_matched =>
    obtain ⟨listed, known, depicts⟩ := ok
    obtain ⟨knows, rfl⟩ := known j List.mem_cons_self
    refine closes_unmatched knows listed fun f stored mine => Bool.eq_false_iff.mpr fun selected => ?_
    obtain ⟨g, member, -, path⟩ := depicts.all f stored mine
    have found : g ∈ matched fnmatch j.toSelection files := List.mem_filter.mpr ⟨member, path ▸ selected⟩
    rw [none_matched] at found
    cases found
  | @settle j cause =>
    cases cause with
    | some => exact nofun
    | none => exact closes_dry ok.1 ok.2.1 closing.1 (quiet (closing.2.1 rfl) j List.mem_cons_self)
  | _ => exact nofun

theorem Acts.ensures (acts : t.Acts fnmatch config s input ⟨some op, rest, failed, report⟩) (ok : t.Ok fnmatch s) :
    Store.Ensures fnmatch s op := by
  cases acts with
  | ensure | ensureNone =>
    rintro _ _ ⟨⟩
    refine ⟨_, rfl, ok.1, fun f stored mine selected => ?_⟩
    obtain ⟨g, member, id⟩ := ok.2.2.all f stored mine selected
    exact List.mem_map.mpr ⟨g, member, id⟩
  | _ => exact nofun

end Routine

namespace Manager

/-- The tree that a listing is about to persist; none when it is taken from the cache layout. -/
def Event.listing : Event → Option (RepoId × Option (List FileEntry))
  | .step (.discovering repo _ _) (.tree entries) => some (repo, some entries)
  | .step (.layout repo _ _) (.found ..) | .step (.layoutPinned repo _ _) _ => some (repo, none)
  | _ => none

/-- The hub answers every listing of a repository with the same tree. -/
def Hub (tree : RepoId → List FileEntry) (_ : Manager) (e : Event) : Prop := ∀ p ∈ e.listing, p.2 = some (tree p.1)
deriving Decidable

theorem Hub.tree_eq {d : Manager} (hub : Hub tree d (.step (.discovering repo tok jobs) (.tree entries))) : entries = tree repo :=
  Option.some.inj (hub _ rfl)

/-- A listing reports names that are not in the tree, a submission names that are not stored. -/
def Warranted (tree : RepoId → List FileEntry) (s : Store) : Report → Prop
  | .listing repo paths => ∀ name ∈ paths, ∀ e ∈ tree repo, e.path ≠ name
  | .submission repo paths => s.Listed repo ∧ ∀ name ∈ paths, ∀ f ∈ s.files, f.repoId = repo → f.path ≠ name

structure Selected (fnmatch : String → String → Bool) (tree : RepoId → List FileEntry) (d : Manager) : Prop where
  base : Base fnmatch d
  complete : Store.Complete fnmatch d.store
  closed : Store.Closed fnmatch d.store
  files : ∀ f ∈ d.store.files, (∃ e ∈ tree f.repoId, e.path = f.path) ∧ ∃ j ∈ d.store.jobs,
    j.repoId = f.repoId ∧ j.id ∈ d.considered f.repoId ∧ j.matchesPath fnmatch f.path = true
  considered : ∀ j ∈ d.store.jobs, j.id ∈ d.considered j.repoId → d.store.Listed j.repoId ∧
    ∀ e ∈ tree j.repoId, j.matchesPath fnmatch e.path = true → ∃ f ∈ d.store.files, f.repoId = j.repoId ∧ f.path = e.path
  past : ∀ repo, ∀ id ∈ d.considered repo, ∃ j ∈ d.store.jobs, j.id = id
  tasks : ∀ t ∈ d.tasks, t.Closing fnmatch d.store d.config.dryRun
  quiet : d.config.dryRun = true → ∀ t ∈ d.tasks, ∀ job ∈ t.closers, d.store.Quiet job.id
  reports : ∀ report ∈ d.reports, Warranted tree d.store report

variable {fnmatch : String → String → Bool} {tree : RepoId → List FileEntry} {d d' : Manager} {op : Operation} {s' : Store}

theorem Warranted.exec (warranted : Warranted tree s report) (catalogued : s.Catalogued) (done : op.exec s = .ok s') :
    Warranted tree s' report := by
  cases report with
  | listing => exact warranted
  | submission repo paths =>
    refine ⟨warranted.1.exec done, fun name member f' stored' mine' => ?_⟩
    obtain ⟨f, stored, -, path, mine⟩ := catalogued.frozen warranted.1 done stored' mine'
    exact path ▸ warranted.2 name member f stored mine

theorem Base.knows_closer (base : Base fnmatch d) (member : t ∈ d.tasks) (closes : job ∈ t.closers) : d.store.Knows job := by
  have ok := base.tasks t member
  cases t with
  | enqueued =>
    obtain rfl := List.mem_singleton.mp closes
    exact ok
  | wiring | forcing | ensuring | serving | placing | closing =>
    obtain rfl := List.mem_singleton.mp closes
    exact ok.1
  | persisted => exact (ok.2 job closes).1
  | resolving => exact (ok.2.1 job closes).1
  | settling =>
    rcases List.mem_cons.mp closes with rfl | later
    · exact ok.1
    · exact (ok.2.2.1 job later).1
  | _ => cases closes

/-- A call other than a listing: everything but what its own task relies on is carried over. -/
theorem Selected.exec (inv : Selected fnmatch tree d) (base : Base fnmatch d') (done : op.exec d.store = .ok d'.store)
    (foreign : ∀ repo tok entries, op ≠ .completeListing repo tok entries) (ensures : Store.Ensures fnmatch d.store op)
    (closes : Store.Closes fnmatch d.store op) (considered : d'.considered = d.considered)
    (tasks : ∀ t ∈ d'.tasks, t ∈ d.tasks ∧ d'.config = d.config ∨
      (Store.Complete fnmatch d'.store → t.Closing fnmatch d'.store d'.config.dryRun))
    (quiet : d'.config.dryRun = true → ∀ t ∈ d'.tasks, ∀ job ∈ t.closers, d'.store.Quiet job.id ∨
      (∃ t ∈ d.tasks, job ∈ t.closers) ∧ d'.config = d.config ∧ ∀ tok now mode, op ≠ .leaseInstall tok now mode)
    (reports : ∀ report ∈ d'.reports, report ∈ d.reports ∨ Warranted tree d'.store report) : Selected fnmatch tree d' := by
  have sound := inv.base.sound
  have complete := inv.complete.exec sound done ensures
  refine ⟨base, complete, inv.closed.exec inv.complete sound done closes, fun f' stored' => ?_, fun j' known' member => ?_,
    fun repo id member => ?_, fun t member => ?_, fun dry t member job closer => ?_, fun report member => ?_⟩
  · rcases (exec_evolution done).files.origin f' stored' with ⟨f, stored, changed⟩ | ⟨_, _, _, equal, -⟩
    · obtain ⟨⟨e, listed, path⟩, j, known, mine, read, selected⟩ := inv.files f stored
      obtain ⟨j', known', id, repo, selection⟩ := Store.exists_job known done
      have same := congrArg FileEntry.path (sound.catalogued.entry done stored changed)
      rw [changed.repoId, same, considered]
      exact ⟨⟨e, listed, path⟩, j', known', repo.trans mine, id ▸ read, selection ▸ selected⟩
    · exact absurd equal (foreign _ _ _)
  · rw [considered] at member
    obtain ⟨j, known, same⟩ := inv.past _ _ member
    obtain ⟨j'', known'', id, repo, selection⟩ := Store.exists_job known done
    obtain rfl := Table.eq_of_key known'' known' (id.trans same)
    rw [id, repo] at member
    obtain ⟨listed, all⟩ := inv.considered j known member
    rw [repo]
    refine ⟨listed.exec done, fun e there selected => ?_⟩
    obtain ⟨f, stored, mine, path⟩ := all e there (selection ▸ selected)
    obtain ⟨f', stored', -, path', mine'⟩ := sound.catalogued.exists_file stored done
    exact ⟨f', stored', mine'.trans mine, path'.trans path⟩
  · rw [considered] at member
    obtain ⟨j, known, same⟩ := inv.past repo id member
    obtain ⟨j', known', id', -⟩ := Store.exists_job known done
    exact ⟨j', known', id'.trans same⟩
  · rcases tasks t member with ⟨old, same⟩ | new
    · exact same ▸ (inv.tasks t old).exec (inv.base.tasks t old) sound.catalogued done
    · exact new complete
  · rcases quiet dry t member job closer with quiet | ⟨⟨t, old, closer⟩, same, unleased⟩
    · exact quiet
    · obtain ⟨j, known, id, -⟩ := inv.base.knows_closer old closer
      exact (inv.quiet (same ▸ dry) t old job closer).exec ⟨j, known, id⟩ done unleased
  · rcases reports report member with old | new
    · exact (inv.reports report old).exec sound.catalogued done
    · exact new

theorem foldl_consider {rest : List Routine} (plain : ∀ t ∈ rest, ∀ repo jobs, t ≠ .persisted repo jobs)
    (c : RepoId → List JobId) :
    rest.foldl consider c = c := by
  induction rest with
  | nil => rfl
  | cons t rest ih =>
    have here : consider c t = c := by
      cases t with
      | persisted => exact absurd rfl (plain _ List.mem_cons_self _ _)
      | _ => rfl
    rw [List.foldl_cons, here]
    exact ih fun t' member => plain t' (List.mem_cons_of_mem _ member)

theorem hashBackfillPaths_unlisted {s : Store} (unlisted : ∀ f ∈ s.files, f.repoId ≠ repo) :
    s.hashBackfillPaths repo entries = [] := by
  have none_there : s.filesForRepo repo = [] := List.filter_eq_nil_iff.mpr fun f stored => by simpa using unlisted f stored
  simp [Store.hashBackfillPaths, none_there]

theorem mem_listing (nonempty : jobs ≠ []) :
    e ∈ Routine.listing fnmatch jobs entries ↔ e ∈ entries ∧ ∃ j ∈ jobs, j.matchesPath fnmatch e.path = true := by
  simp [Routine.listing, unionMatches, nonempty]

/-- The tree of the hub is persisted as far as a job selects it, and the jobs that were read are remembered. -/
theorem Selected.list (inv : Selected fnmatch tree d) (here : .discovering repo tok jobs ∈ d.tasks)
    (done : d.store.completeListing repo tok (Routine.listing fnmatch jobs (tree repo) ++
      (tree repo).filter fun e => e.path ∈ d.store.hashBackfillPaths repo (Routine.listing fnmatch jobs (tree repo))) = .ok s')
    (base : Base fnmatch (d.goOn (.discovering repo tok jobs) [.persisted repo jobs] none s')) :
    Selected fnmatch tree (d.goOn (.discovering repo tok jobs) [.persisted repo jobs] none s') := by
  have sound := inv.base.sound
  obtain ⟨nonempty, known⟩ := inv.base.tasks _ here
  obtain ⟨⟨r, there, held⟩, listed⟩ := Store.completeListing_repo done
  have unlisted : ∀ f ∈ d.store.files, f.repoId ≠ repo := by
    have listing : r.status ≠ .listed := by simp [held.2.1]
    exact held.1 ▸ sound.catalogued.unlisted there listing
  rw [hashBackfillPaths_unlisted unlisted] at done
  simp only [List.not_mem_nil, decide_false, List.filter_false, List.append_nil] at done
  have persisted := Store.completeListing_persisted sound.catalogued done
  have exec : (Operation.completeListing repo tok (Routine.listing fnmatch jobs (tree repo))).exec d.store = .ok s' := done
  have complete : Store.Complete fnmatch s' := inv.complete.exec sound exec nofun
  refine ⟨base, complete, inv.closed.exec inv.complete sound exec nofun, fun f stored => ?_, fun j known' member => ?_,
    fun repo' id member => ?_, fun t member => ?_, fun dry t member job closer => ?_, fun report member => ?_⟩
  · simp only [goOn, List.foldl_cons, List.foldl_nil, consider]
    rcases persisted.files f stored with old | ⟨e, member, id, rfl⟩
    · obtain ⟨inTree, j, known, mine, read, selected⟩ := inv.files f old
      rw [Function.update_of_ne (unlisted f old)]
      exact ⟨inTree, j, persisted.jobs ▸ known, mine, read, selected⟩
    · obtain ⟨inTree, j₀, read, selected⟩ := (mem_listing nonempty).mp member
      obtain ⟨⟨j, knows, same, mine, selection⟩, rfl⟩ := known j₀ read
      refine ⟨⟨e, inTree, rfl⟩, j, persisted.jobs ▸ knows, mine, ?_, selection ▸ selected⟩
      simp only [File.fresh, Function.update_self]
      exact List.mem_map.mpr ⟨j₀, read, same.symm⟩
  · simp only [goOn, List.foldl_cons, List.foldl_nil, consider] at member known' ⊢
    rw [persisted.jobs] at known'
    by_cases mine : j.repoId = repo
    · subst mine
      refine ⟨listed, fun e inTree selected => persisted.listed e ((mem_listing nonempty).mpr ⟨inTree, ?_⟩)⟩
      rw [Function.update_self] at member
      obtain ⟨j₀, read, same⟩ := List.mem_map.mp member
      obtain ⟨⟨j', stored, same', -, selection⟩, -⟩ := known j₀ read
      obtain rfl := Table.eq_of_key stored known' (same'.trans same)
      exact ⟨j₀, read, selection ▸ selected⟩
    · rw [Function.update_of_ne mine] at member
      obtain ⟨listed, all⟩ := inv.considered j known' member
      refine ⟨listed.exec exec, fun e inTree selected => ?_⟩
      obtain ⟨f, stored, mine, path⟩ := all e inTree selected
      exact ⟨f, persisted.kept f stored, mine, path⟩
  · simp only [goOn, List.foldl_cons, List.foldl_nil, consider, persisted.jobs] at member ⊢
    by_cases mine : repo' = repo
    · subst mine
      rw [Function.update_self] at member
      obtain ⟨j₀, read, rfl⟩ := List.mem_map.mp member
      obtain ⟨⟨j, stored, same, -⟩, -⟩ := known j₀ read
      exact ⟨j, stored, same⟩
    · rw [Function.update_of_ne mine] at member
      exact inv.past repo' id member
  · rcases mem_goOn member with old | new
    · exact (inv.tasks t old).exec (inv.base.tasks t old) sound.catalogued exec
    · obtain rfl := List.mem_singleton.mp new
      rintro j₀ read f stored mine -
      obtain ⟨⟨j, stored', same, mine', -⟩, rfl⟩ := known j₀ read
      obtain ⟨jf, row, key⟩ := persisted.paired f stored mine j (persisted.jobs ▸ stored') mine'
      exact ⟨jf, row, (congrArg Prod.fst key).trans same, congrArg Prod.snd key⟩
  · rcases mem_goOn member with old | new
    · obtain ⟨j, known, id, -⟩ := inv.base.knows_closer old closer
      exact (inv.quiet dry t old job closer).exec ⟨j, known, id⟩ exec nofun
    · obtain rfl := List.mem_singleton.mp new
      obtain ⟨⟨j, stored, same, mine', -⟩, rfl⟩ := known job closer
      intro jf row mine
      rcases persisted.rows jf row with old | ⟨_, -, -, _, -, -, rfl⟩
      · -- a row of the job would need a file of the repository
        obtain ⟨j', stored', here', f, file, -, home⟩ := sound.associated jf old
        obtain rfl := Table.eq_of_key stored stored' (same.trans (mine.symm.trans here'.symm))
        exact absurd (home.trans mine') (unlisted f file)
      · exact ⟨nofun, nofun⟩
  · exact (inv.reports report member).exec sound.catalogued exec

theorem Selected.goOn (inv : Selected fnmatch tree d) (here : t ∈ d.tasks) (base : Base fnmatch (d.goOn t rest report s'))
    (done : op.exec d.store = .ok s') (foreign : ∀ repo tok entries, op ≠ .completeListing repo tok entries)
    (unleased : ∀ tok now mode, op ≠ .leaseInstall tok now mode) (ensures : Store.Ensures fnmatch d.store op)
    (closes : Store.Closes fnmatch d.store op) (inherits : ∀ t' ∈ rest, t.Inherits t')
    (closing : ∀ t ∈ rest, Store.Complete fnmatch s' → t.Closing fnmatch s' d.config.dryRun)
    (reports : ∀ r ∈ report, Warranted tree s' r) : Selected fnmatch tree (d.goOn t rest report s') := by
  refine inv.exec base done foreign ensures closes (foldl_consider (fun t' new => (inherits t' new).1) _) (fun t' member => ?_)
    (fun _ t' member job closer => .inr ⟨?_, rfl, unleased⟩) fun r member => ?_
  · exact (mem_goOn member).imp (fun old => ⟨old, rfl⟩) (closing t')
  · rcases mem_goOn member with old | new
    · exact ⟨t', old, closer⟩
    · exact ⟨t, here, (inherits t' new).2 job closer⟩
  · rcases List.mem_append.mp member with new | old
    · exact .inr (reports r (Option.mem_toList.mp new))
    · exact .inl old

theorem exec_nothing (s : Store) : (Operation.reopen s.owner).exec s = .ok s := rfl

theorem Selected.warranted (inv : Selected fnmatch tree d) (here : t ∈ d.tasks)
    (acts : t.Acts fnmatch d.config d.store input a) (hub : Hub tree d (.step t input)) :
    ∀ r ∈ a.report, Warranted tree d.store r := by
  cases acts with
  | reject selects =>
    rintro _ ⟨⟩
    have ok := inv.base.tasks _ here
    exact ⟨(selects.depicts ok).2.1, fun name missing f stored mine => selects.missing ok missing stored mine⟩
  | incomplete =>
    rintro _ ⟨⟩ name missing e inTree path
    obtain rfl := hub.tree_eq
    exact (Routine.mem_missingNames.mp missing).2 (List.mem_map.mpr ⟨e, inTree, path⟩)
  | _ => exact nofun

theorem Selected.idle (inv : Selected fnmatch tree d) (here : t ∈ d.tasks) (base : Base fnmatch (d.goOn t rest report d.store))
    (inherits : ∀ t' ∈ rest, t.Inherits t') (closing : ∀ t ∈ rest, t.Closing fnmatch d.store d.config.dryRun)
    (reports : ∀ r ∈ report, Warranted tree d.store r) : Selected fnmatch tree (d.goOn t rest report d.store) :=
  inv.goOn here base (exec_nothing d.store) nofun nofun nofun nofun inherits (fun t member _ => closing t member) reports

theorem Selected.commit (inv : Selected fnmatch tree d) (here : t ∈ d.tasks)
    (acts : t.Acts fnmatch d.config d.store input ⟨some op, rest, failed, report⟩) (hub : Hub tree d (.step t input))
    (done : op.exec d.store = .ok s') (base : Base fnmatch (d.goOn t rest report s'))
    (foreign : ∀ repo tok entries, op ≠ .completeListing repo tok entries) : Selected fnmatch tree (d.goOn t rest report s') := by
  have sound := inv.base.sound
  have ok := inv.base.tasks t here
  have not_listing : ¬ ∃ repo tok entries, some op = some (Operation.completeListing repo tok entries) := by
    rintro ⟨repo, tok, entries, equal⟩
    exact foreign repo tok entries (Option.some.inj equal)
  have rests t' (new : t' ∈ rest) :=
    (acts.inherits ok (inv.tasks t here) t' (List.mem_append_left _ new)).resolve_right not_listing
  refine inv.goOn here base done foreign acts.unleased (acts.ensures ok)
    (acts.closes ok (inv.tasks t here) fun dry job closer => inv.quiet dry t here job closer)
    (fun t' new => (rests t' new).1) (fun t' new complete => ?_)
    fun r member => (inv.warranted here acts hub r member).exec sound.catalogued done
  rcases (rests t' new).2 with closing | ⟨job, found, nonempty, knows, call, -, closing⟩
  · have ok' := (acts.ok sound ok t' (List.mem_append_left _ new)).resolve_right fun ⟨repo, tok, jobs, entries, _, call, _⟩ =>
      not_listing ⟨repo, tok, entries, call⟩
    exact closing.exec ok' sound.catalogued done
  · -- the job has a row now
    obtain rfl := Option.some.inj call
    obtain ⟨g, member⟩ := List.exists_mem_of_ne_nil found nonempty
    obtain ⟨jf, row, belongs, -⟩ := Store.ensureJobFiles_row done (List.mem_map.mpr ⟨g, member, rfl⟩)
    obtain ⟨-, rfl⟩ := Store.ensureJobFiles_ok done
    obtain ⟨j, known, id, repo, selection⟩ := knows
    have wired := complete j known ⟨jf, row, belongs.trans id.symm⟩
    exact closing _ (wired.congr id.symm repo.symm selection.symm)

def Inert (op : Operation) : Prop :=
  (∀ repo tok entries, op ≠ .completeListing repo tok entries) ∧ (∀ job ids, op ≠ .ensureJobFiles job ids) ∧
    ∀ job, op ≠ .finishJob job none

theorem inert_of_foreign (foreign : own op = false) : Inert op := by
  refine ⟨fun _ _ _ equal => ?_, fun _ _ equal => ?_, fun _ equal => ?_⟩
  all_goals
    subst equal
    cases foreign

theorem Selected.event (inv : Selected fnmatch tree d) (base : Base fnmatch d') (done : op.exec d.store = .ok d'.store)
    (inert : Inert op) (unleased : d.config.dryRun = true → ∀ tok now mode, op ≠ .leaseInstall tok now mode)
    (config : d'.config = d.config) (considered : d'.considered = d.considered) (reports : d'.reports = d.reports)
    (tasks : ∀ t ∈ d'.tasks, t ∈ d.tasks ∨ (∀ s dry, t.Closing fnmatch s dry) ∧ ∀ job ∈ t.closers, d'.store.Quiet job.id) :
    Selected fnmatch tree d' := by
  refine inv.exec base done inert.1 (fun job ids equal => absurd equal (inert.2.1 job ids))
    (fun job equal => absurd equal (inert.2.2 job)) considered (fun t member => ?_) (fun dry t member job closer => ?_)
    fun r member => .inl (reports ▸ member)
  · exact (tasks t member).imp (fun old => ⟨old, config⟩) fun new _ => new.1 _ _
  · rcases tasks t member with old | new
    · exact .inr ⟨⟨t, old, closer⟩, config, unleased (config ▸ dry)⟩
    · exact .inl (new.2 job closer)

/-- The same for a call whose failure is ignored. -/
theorem Selected.attempt (inv : Selected fnmatch tree d) (base : Base fnmatch d') (store : d'.store = op.commit d.store)
    (inert : Inert op) (unleased : ∀ tok now mode, op ≠ .leaseInstall tok now mode)
    (config : d'.config = d.config) (considered : d'.considered = d.considered) (reports : d'.reports = d.reports)
    (tasks : ∀ t ∈ d'.tasks, t ∈ d.tasks ∨ (∀ s dry, t.Closing fnmatch s dry) ∧ ∀ job ∈ t.closers, d'.store.Quiet job.id) :
    Selected fnmatch tree d' := by
  rcases commit_cases d.store op with same | done
  · have nothing : (Operation.reopen d.store.owner).exec d.store = .ok d'.store := by
      rw [store, same]
      exact exec_nothing d.store
    exact inv.event base nothing ⟨nofun, nofun, nofun⟩ nofun config considered reports tasks
  · exact inv.event base (store ▸ done) inert (fun _ => unleased) config considered reports tasks

theorem started {s : Store} {t new : Routine} (member : t ∈ d.tasks ++ [new]) (closing : ∀ s dry, new.Closing fnmatch s dry)
    (none_closed : new.closers = []) :
    t ∈ d.tasks ∨ (∀ s dry, t.Closing fnmatch s dry) ∧ ∀ job ∈ t.closers, s.Quiet job.id := by
  refine (List.mem_append.mp member).imp_right fun last => ?_
  obtain rfl := List.mem_singleton.mp last
  exact ⟨closing, fun job closer => by simp [none_closed] at closer⟩

theorem Selected.quiet_submitted (inv : Selected fnmatch tree d) (spec : JobSpec) :
    (d.store.enqueueJob spec).2.Quiet (d.store.enqueueJob spec).1.2 := by
  intro jf row mine
  obtain ⟨fresh, -, -, same⟩ := Store.enqueueJob_spec (s := d.store) spec
  have rows : (d.store.enqueueJob spec).2.jobFiles = d.store.jobFiles := by rw [same]
  obtain ⟨j, known, here, -⟩ := inv.base.sound.associated jf (rows ▸ row)
  have small := Table.key_lt_nextKey known
  rw [here, mine] at small
  exact absurd small (by simp [fresh])

theorem selected_next (inv : Selected fnmatch tree d) (hub : Hub tree d e) (stepped : next fnmatch d e = some d') :
    Selected fnmatch tree d' := by
  have base := inv.base.next stepped
  cases next_step stepped with
  | call foreign issued =>
    refine inv.attempt base rfl (inert_of_foreign foreign) (fun _ _ _ equal => ?_) rfl rfl rfl fun t => .inl
    subst equal
    cases foreign
  | @submit spec =>
    have done : (Operation.enqueueJob spec).exec d.store = .ok (d.store.enqueueJob spec).2 := rfl
    refine inv.event base done ⟨nofun, nofun, nofun⟩ nofun rfl rfl rfl fun t member => ?_
    refine (List.mem_append.mp member).imp_right fun last => ?_
    obtain rfl := List.mem_singleton.mp last
    refine ⟨fun _ _ => trivial, fun job closer => ?_⟩
    obtain rfl := List.mem_singleton.mp closer
    exact inv.quiet_submitted spec
  | @list tok now r store' leased =>
    have done : (Operation.leaseMeta tok now).exec d.store = .ok store' := Operation.map_snd_ok leased
    exact inv.event base done ⟨nofun, nofun, nofun⟩ nofun rfl rfl rfl fun t member => started member (fun _ _ => trivial) rfl
  | @install tok now mode jf store' job wet leased known here file =>
    have done : (Operation.leaseInstall tok now mode).exec d.store = .ok store' := Operation.map_snd_ok leased
    refine inv.event base done ⟨nofun, nofun, nofun⟩ (fun dry => ?_) rfl rfl rfl fun t member =>
      started member (fun _ _ => trivial) rfl
    cases wet.symm.trans dry
  | failFile =>
    exact inv.attempt base rfl ⟨nofun, nofun, nofun⟩ nofun rfl rfl rfl fun t member => started member (fun _ _ => trivial) rfl
  | @failVerify file tok cause store' failed =>
    have done : (Operation.failVerify file tok (some cause)).exec d.store = .ok store' := failed
    exact inv.event base done ⟨nofun, nofun, nofun⟩ nofun rfl rfl rfl fun t member => started member (fun _ _ => trivial) rfl
  | read here acts =>
    have ok := inv.base.tasks _ here
    have rests t' (new : t' ∈ _) := (acts.inherits ok (inv.tasks _ here) t' (List.mem_append_left _ new)).resolve_right nofun
    refine inv.idle here base (fun t' new => (rests t' new).1) (fun t' new => ?_) (inv.warranted here acts hub)
    exact (rests t' new).2.resolve_right nofun
  | @commit t input op rest failed report store' here acts done =>
    by_cases listing : ∃ repo tok entries, op = .completeListing repo tok entries
    · obtain ⟨repo, tok, entries, rfl⟩ := listing
      cases acts with
      | list =>
        obtain rfl := hub.tree_eq
        exact inv.list here done base
      | listLocalDir | listLayout => cases hub _ rfl
    · exact inv.commit here acts hub done base fun repo tok entries equal => listing ⟨repo, tok, entries, equal⟩
  | @refuse t input op rest failed report err here acts refused =>
    have ok := inv.base.tasks _ here
    have rests t' (new : t' ∈ failed) :=
      (acts.inherits ok (inv.tasks _ here) t' (List.mem_append_right _ new)).resolve_right fun ⟨repo, tok, entries, call⟩ =>
        List.ne_nil_of_mem new (acts.listing_failed call)
    refine inv.idle here base (fun t' new => (rests t' new).1) (fun t' new => ?_) (inv.warranted here acts hub)
    exact (rests t' new).2.resolve_right fun ⟨_, _, _, _, _, none_left, _⟩ => List.ne_nil_of_mem new none_left
  | quit =>
    refine inv.event base (exec_nothing d.store) ⟨nofun, nofun, nofun⟩ nofun rfl rfl rfl fun t member => ?_
    exact .inl (List.mem_of_mem_erase member)
  | @crash owner flags =>
    have done : (Operation.reopen owner).exec d.store = .ok { d.store with owner } := rfl
    exact inv.exec base done nofun nofun nofun rfl (fun t member => (List.not_mem_nil member).elim)
      (fun _ t member => (List.not_mem_nil member).elim) fun r member => (List.not_mem_nil member).elim

theorem selected_initial {flags : Config} : Selected fnmatch tree (initial owner flags) where
  base := base_initial
  complete := fun _ stored => (Table.not_mem_empty _ stored).elim
  closed := fun _ stored => (Table.not_mem_empty _ stored).elim
  files := fun _ stored => (Table.not_mem_empty _ stored).elim
  considered := fun _ stored => (Table.not_mem_empty _ stored).elim
  past := fun _ _ member => (List.not_mem_nil member).elim
  tasks := fun _ member => (List.not_mem_nil member).elim
  quiet := fun _ _ member => (List.not_mem_nil member).elim
  reports := fun _ member => (List.not_mem_nil member).elim

/-- A done job has a done row for every persisted path it selects, and for every path of the tree it selects when the
listing has read the job. Any other row is for a path that another job of the listing selects. -/
theorem done_jobs_complete {flags : Config} (ran : run (next fnmatch) (initial owner flags) events = some d)
    (hub : Meets (next fnmatch) (Hub tree) (initial owner flags) events) :
    (∀ j ∈ d.store.jobs, j.status = .done →
      (∀ f ∈ d.store.files, f.repoId = j.repoId → j.matchesPath fnmatch f.path = true →
        ∃ jf ∈ d.store.jobFiles, jf.jobId = j.id ∧ jf.fileId = f.id ∧ jf.status = .done) ∧
      (j.id ∈ d.considered j.repoId → ∀ e ∈ tree j.repoId, j.matchesPath fnmatch e.path = true →
        ∃ f ∈ d.store.files, f.repoId = j.repoId ∧ f.path = e.path ∧
          ∃ jf ∈ d.store.jobFiles, jf.jobId = j.id ∧ jf.fileId = f.id ∧ jf.status = .done) ∧
      ∀ jf ∈ d.store.jobFiles, jf.jobId = j.id → ∃ f ∈ d.store.files, f.id = jf.fileId ∧ f.repoId = j.repoId ∧
        (∃ e ∈ tree j.repoId, e.path = f.path) ∧
        ∃ other ∈ d.store.jobs, other.repoId = j.repoId ∧ other.id ∈ d.considered j.repoId ∧
          other.matchesPath fnmatch f.path = true) ∧
    ∀ report ∈ d.reports, Warranted tree d.store report := by
  have inv : Selected fnmatch tree d := invariant_meeting selected_next selected_initial ran hub
  refine ⟨fun j known done => ⟨?_, fun read e inTree selected => ?_, fun jf row mine => ?_⟩, inv.reports⟩
  · exact (inv.closed j known done).2
  · obtain ⟨f, stored, home, path⟩ := (inv.considered j known read).2 e inTree selected
    exact ⟨f, stored, home, path, (inv.closed j known done).2 f stored home (path ▸ selected)⟩
  · obtain ⟨j', known', here, f, stored, there, home⟩ := inv.base.sound.associated jf row
    obtain rfl := Table.eq_of_key known' known (here.trans mine)
    obtain ⟨inTree, other, knows, home', read, selected⟩ := inv.files f stored
    rw [home] at inTree home' read
    exact ⟨f, stored, there, home, inTree, other, knows, home', read, selected⟩

def specOf (name : String) : JobSpec := { wholeRepo with filenames := [name] }

def jobOf (id : JobId) (name : String) : Job := .fresh id 1 (specOf name)

def entryOf (name : String) : FileEntry := ⟨name, 5, name, "", "", false⟩

def bothFiles : RepoId → List FileEntry := fun _ => [entryOf "a", entryOf "b"]

def leasedRepo : Repo := { Repo.fresh 1 (specOf "").repo with toLease := .claim "process" "list" 0, status := .listing }

/-- Two jobs are submitted, each for one of two files, and one listing serves both. -/
def unionListing : List Event :=
  [.submit (specOf "a"), .step (.enqueued (jobOf 1 "a")) .none, .submit (specOf "b"), .step (.enqueued (jobOf 2 "b")) .none,
    .list "list" 0, .step (.leased leasedRepo "list") (.revision "sha"), .step (.pinned 1 "list") .none,
    .step (.discovering 1 "list" [jobOf 1 "a", jobOf 2 "b"]) (.tree (bothFiles 1))]

/-- Both files turn up in the cache. The first job installs its file and skips the other one. -/
def firstInstalled : List Event :=
  [.call (.markCachedFromBlob 1 "a"), .call (.markCachedFromBlob 2 "b")] ++
    [(1, "a"), (2, "b")].flatMap fun (file, name) => [.install "install" 0 none, .step (.installing
      { jobOf 1 "a" with status := .running }
      { File.fresh file 1 (entryOf name) with status := .cached, cachePath := some name } "install") (.outcome none)]

def noGlob : String → String → Bool := fun _ _ => false

def wet : Config := ⟨false, false, false⟩

def afterUnion : Manager := (run (next noGlob) (initial "process" wet) (unionListing ++ firstInstalled)).getD (initial "" wet)

/-- The first job is done with a row for the file of the second one. -/
theorem done_row_of_other_job :
    run (next noGlob) (initial "process" wet) (unionListing ++ firstInstalled) = some afterUnion ∧
      Meets (next noGlob) (Hub bothFiles) (initial "process" wet) (unionListing ++ firstInstalled) ∧
      ∃ j ∈ afterUnion.store.jobs, j.status = .done ∧ ∃ jf ∈ afterUnion.store.jobFiles, jf.jobId = j.id ∧ jf.status = .done ∧
        ∃ f ∈ afterUnion.store.files, f.id = jf.fileId ∧ j.matchesPath noGlob f.path = false :=
  ⟨rfl, by decide, by decide⟩

/-- The process is restarted between the listing and the installation. -/
def restarted : List Event := unionListing ++ [.crash "second" wet, .call (.recover 0)] ++ firstInstalled

def afterRestart : Manager := (run (next noGlob) (initial "process" wet) restarted).getD (initial "" wet)

theorem done_jobs_complete_restarted :
    ∃ j ∈ afterRestart.store.jobs, j.filenames = ["a"] ∧ ∃ f ∈ afterRestart.store.files, f.path = "a" ∧
      ∃ jf ∈ afterRestart.store.jobFiles, jf.jobId = j.id ∧ jf.fileId = f.id ∧ jf.status = .done := by
  have ran : run (next noGlob) (initial "process" wet) restarted = some afterRestart := rfl
  have hub : Meets (next noGlob) (Hub bothFiles) (initial "process" wet) restarted := by decide
  obtain ⟨j, known, done, names, id, home⟩ : ∃ j ∈ afterRestart.store.jobs, j.status = .done ∧ j.filenames = ["a"] ∧
      j.id = 1 ∧ j.repoId = 1 := by decide
  have considered : afterRestart.considered 1 = [1, 2] := rfl
  have read : j.id ∈ afterRestart.considered j.repoId := by
    rw [id, home, considered]
    decide
  have selected : j.matchesPath noGlob (entryOf "a").path = true := by
    rw [Selection.matchesPath, if_neg (by simp [names]), names]
    decide
  obtain ⟨f, stored, -, path, row⟩ :=
    ((done_jobs_complete ran hub).1 j known done).2.1 read (entryOf "a") List.mem_cons_self selected
  exact ⟨j, known, names, f, stored, path, row⟩

end Manager
end Hfdl
