import Hfdl.Sched.Manager

/-! What the tasks have read stays true. The files of a listed repository are fixed, jobs keep their repository and
their selection, and every row of a job belongs to a file of its repository. -/
namespace Hfdl
open Relational Transition Operation

theorem Job.Change.identity {j j' : Job} (changed : j.Change s op j') :
    j'.id = j.id ∧ j'.repoId = j.repoId ∧ j'.toSelection = j.toSelection := by
  cases changed <;> exact ⟨rfl, rfl, rfl⟩

theorem Repo.Change.id {r r' : Repo} (changed : r.Change op r') : r'.id = r.id := by
  cases changed <;> rfl

theorem JobFile.Change.key {jf jf' : JobFile} (changed : jf.Change s op jf') : jf'.jobId = jf.jobId ∧ jf'.fileId = jf.fileId := by
  cases changed <;> exact ⟨rfl, rfl⟩

namespace Store

def Listed (s : Store) (repo : RepoId) : Prop := ∃ r ∈ s.repos, r.id = repo ∧ r.status = .listed

def Knows (s : Store) (job : Job) : Prop :=
  ∃ j ∈ s.jobs, j.id = job.id ∧ j.repoId = job.repoId ∧ j.toSelection = job.toSelection

structure Depicts (s : Store) (repo : RepoId) (files : List File) : Prop where
  stored : ∀ g ∈ files, ∃ f ∈ s.files, f.id = g.id ∧ f.path = g.path ∧ f.repoId = repo
  all : ∀ f ∈ s.files, f.repoId = repo → ∃ g ∈ files, g.id = f.id ∧ g.path = f.path

/-- The database between two calls: files are of listed repositories, rows connect a job and a file of its repository,
and repositories are there for a job. -/
structure Sound (s : Store) : Prop where
  catalogued : s.Catalogued
  associated : s.Associated
  homed : ∀ j ∈ s.jobs, ∃ r ∈ s.repos, r.id = j.repoId
  asked : ∀ r ∈ s.repos, ∃ j ∈ s.jobs, j.repoId = r.id

variable {s s' : Store} {op : Operation} {found : List File}

theorem Listed.exec (listed : s.Listed repo) (done : op.exec s = .ok s') : s'.Listed repo := by
  obtain ⟨r, known, here, status⟩ := listed
  rcases (exec_evolution done).repos.kept r known with ⟨r', known', changed⟩ | gone
  · obtain rfl := changed.of_listed status
    exact ⟨_, known', here, status⟩
  · exact gone.elim

theorem exists_job (known : j ∈ s.jobs) (done : op.exec s = .ok s') :
    ∃ j' ∈ s'.jobs, j'.id = j.id ∧ j'.repoId = j.repoId ∧ j'.toSelection = j.toSelection := by
  rcases (exec_evolution done).jobs.kept j known with ⟨j', known', changed⟩ | gone
  · exact ⟨j', known', changed.identity⟩
  · exact gone.elim

theorem exists_repo (known : r ∈ s.repos) (done : op.exec s = .ok s') : ∃ r' ∈ s'.repos, r'.id = r.id := by
  rcases (exec_evolution done).repos.kept r known with ⟨r', known', changed⟩ | gone
  · exact ⟨r', known', changed.id⟩
  · exact gone.elim

theorem Knows.exec (knows : s.Knows job) (done : op.exec s = .ok s') : s'.Knows job := by
  obtain ⟨j, known, id, repo, selection⟩ := knows
  obtain ⟨j', known', id', repo', selection'⟩ := exists_job known done
  exact ⟨j', known', id'.trans id, repo'.trans repo, selection'.trans selection⟩

theorem Catalogued.exists_file (catalogued : s.Catalogued) (stored : f ∈ s.files) (done : op.exec s = .ok s') :
    ∃ f' ∈ s'.files, f'.id = f.id ∧ f'.path = f.path ∧ f'.repoId = f.repoId := by
  rcases (exec_evolution done).files.kept f stored with ⟨f', stored', changed⟩ | gone
  · exact ⟨f', stored', changed.id, congrArg FileEntry.path (catalogued.entry done stored changed), changed.repoId⟩
  · exact gone.elim

theorem Catalogued.frozen (catalogued : s.Catalogued) (listed : s.Listed repo) (done : op.exec s = .ok s')
    (stored' : f' ∈ s'.files) (mine : f'.repoId = repo) : ∃ f ∈ s.files, f.id = f'.id ∧ f.path = f'.path ∧ f.repoId = repo := by
  rcases (exec_evolution done).files.origin f' stored' with ⟨f, stored, changed⟩ | ⟨_, _, _, rfl, _, -, _, rfl⟩
  · have path := congrArg FileEntry.path (catalogued.entry done stored changed)
    exact ⟨f, stored, changed.id.symm, path.symm, changed.repoId.symm.trans mine⟩
  · obtain ⟨r, known, here, status⟩ := listed
    obtain ⟨r', known', held⟩ := (completeListing_repo done).1
    have same := Table.eq_of_key known known' (here.trans (mine.symm.trans held.1.symm))
    have listing := held.2.1
    rw [← same, status] at listing
    cases listing

theorem Depicts.exec (depicts : s.Depicts repo found) (catalogued : s.Catalogued) (listed : s.Listed repo)
    (done : op.exec s = .ok s') : s'.Depicts repo found := by
  constructor
  · intro g member
    obtain ⟨f, stored, id, path, mine⟩ := depicts.stored g member
    obtain ⟨f', stored', id', path', mine'⟩ := catalogued.exists_file stored done
    exact ⟨f', stored', id'.trans id, path'.trans path, mine'.trans mine⟩
  · intro f' stored' mine'
    obtain ⟨f, stored, id, path, mine⟩ := catalogued.frozen listed done stored' mine'
    obtain ⟨g, member, id', path'⟩ := depicts.all f stored mine
    exact ⟨g, member, id'.trans id, path'.trans path⟩

theorem depicts_filesForRepo : s.Depicts repo (s.filesForRepo repo) := by
  constructor
  · intro g member
    obtain ⟨stored, mine⟩ := List.mem_filter.mp member
    exact ⟨g, stored, rfl, rfl, of_decide_eq_true mine⟩
  · intro f stored mine
    exact ⟨f, List.mem_filter.mpr ⟨stored, decide_eq_true mine⟩, rfl, rfl⟩

theorem Associated.exec (sound : s.Sound) (done : op.exec s = .ok s')
    (ensures : ∀ job ids, op = .ensureJobFiles job ids → ∀ j ∈ s.jobs, j.id = job →
      ∀ file ∈ ids, ∀ f ∈ s.files, f.id = file → f.repoId = j.repoId) : s'.Associated := by
  have carried : ∀ {j f jobId fileId}, j ∈ s.jobs → j.id = jobId → f ∈ s.files → f.id = fileId → f.repoId = j.repoId →
      ∃ j' ∈ s'.jobs, j'.id = jobId ∧ ∃ f' ∈ s'.files, f'.id = fileId ∧ f'.repoId = j'.repoId := by
    intro j f jobId fileId known here stored there same
    obtain ⟨j', known', id', repo', -⟩ := exists_job known done
    obtain ⟨f', stored', file', -, mine'⟩ := sound.catalogued.exists_file stored done
    exact ⟨j', known', id'.trans here, f', stored', file'.trans there, by rw [mine', repo', same]⟩
  intro jf' row'
  rcases (exec_evolution done).jobFiles.origin jf' row' with ⟨jf, row, changed⟩ | added
  · obtain ⟨j, known, here, f, stored, there, same⟩ := sound.associated jf row
    exact carried known (here.trans changed.key.1.symm) stored (there.trans changed.key.2.symm) same
  · rcases added with ⟨repo, tok, entries, rfl, -⟩ | ⟨job, ids, rfl, file, member, rfl⟩
    · have persisted := completeListing_persisted sound.catalogued done
      rcases persisted.rows jf' row' with old | ⟨j, known, belongs, f, stored, mine, rfl⟩
      · obtain ⟨j, known, here, f, stored, there, same⟩ := sound.associated jf' old
        exact carried known here stored there same
      · exact ⟨j, known, rfl, f, stored, rfl, mine.trans belongs.symm⟩
    · obtain ⟨⟨j, known, here⟩, f, stored, there⟩ := (ensureJobFiles_ok done).1 file member
      exact carried known here stored there (ensures job ids rfl j known here file member f stored there)

theorem Sound.exec (sound : s.Sound) (done : op.exec s = .ok s')
    (ensures : ∀ job ids, op = .ensureJobFiles job ids → ∀ j ∈ s.jobs, j.id = job →
      ∀ file ∈ ids, ∀ f ∈ s.files, f.id = file → f.repoId = j.repoId) : s'.Sound := by
  have housed : ∀ {j}, j ∈ s.jobs → ∃ r ∈ s'.repos, r.id = j.repoId := by
    intro j known
    obtain ⟨r, there, here⟩ := sound.homed j known
    obtain ⟨r', there', id'⟩ := exists_repo there done
    exact ⟨r', there', id'.trans here⟩
  have wanted : ∀ {r}, r ∈ s.repos → ∃ j ∈ s'.jobs, j.repoId = r.id := by
    intro r there
    obtain ⟨j, known, mine⟩ := sound.asked r there
    obtain ⟨j', known', -, repo', -⟩ := exists_job known done
    exact ⟨j', known', repo'.trans mine⟩
  refine ⟨exec_catalogued sound.catalogued done, Associated.exec sound done ensures, fun j' known' => ?_, fun r' there' => ?_⟩
  · rcases (exec_evolution done).jobs.origin j' known' with ⟨j, known, changed⟩ | ⟨spec, rfl, -⟩
    · exact changed.identity.2.1 ▸ housed known
    · cases done
      rcases mem_enqueueJob_jobs.mp known' with old | rfl
      · exact housed old
      · obtain ⟨-, ⟨r, there, here, -⟩, -⟩ := enqueueJob_spec (s := s) spec
        exact ⟨r, there, here⟩
  · rcases (exec_evolution done).repos.origin r' there' with ⟨r, there, changed⟩ | ⟨spec, rfl, -⟩
    · exact changed.id ▸ wanted there
    · cases done
      obtain ⟨-, -, only, -⟩ := enqueueJob_spec (s := s) spec
      rcases only r' there' with old | ⟨new, -⟩
      · exact wanted old
      · exact ⟨_, mem_enqueueJob_jobs.mpr (.inr rfl), new.symm⟩

/-- The matched files are files of the job's repository, and all that its selection matches. -/
structure Covers (fnmatch : String → String → Bool) (s : Store) (job : Job) (found : List File) : Prop where
  stored : ∀ g ∈ found, ∃ f ∈ s.files, f.id = g.id ∧ f.repoId = job.repoId
  all : ∀ f ∈ s.files, f.repoId = job.repoId → job.matchesPath fnmatch f.path = true → ∃ g ∈ found, g.id = f.id

theorem Covers.exec (covers : Covers fnmatch s job found) (catalogued : s.Catalogued) (listed : s.Listed job.repoId)
    (done : op.exec s = .ok s') : Covers fnmatch s' job found := by
  constructor
  · intro g member
    obtain ⟨f, stored, id, mine⟩ := covers.stored g member
    obtain ⟨f', stored', id', -, mine'⟩ := catalogued.exists_file stored done
    exact ⟨f', stored', id'.trans id, mine'.trans mine⟩
  · intro f' stored' mine' selected
    obtain ⟨f, stored, id, path, mine⟩ := catalogued.frozen listed done stored' mine'
    obtain ⟨g, member, id'⟩ := covers.all f stored mine (path ▸ selected)
    exact ⟨g, member, id'.trans id⟩

theorem Depicts.covers (depicts : s.Depicts job.repoId found) :
    Covers fnmatch s job (Routine.matched fnmatch job.toSelection found) := by
  constructor
  · intro g member
    obtain ⟨f, stored, id, -, mine⟩ := depicts.stored g (List.mem_filter.mp member).1
    exact ⟨f, stored, id, mine⟩
  · intro f stored mine selected
    obtain ⟨g, member, id, path⟩ := depicts.all f stored mine
    exact ⟨g, List.mem_filter.mpr ⟨member, path ▸ selected⟩, id⟩

end Store

namespace Routine
variable {s s' : Store} {op : Operation} {t : Routine}

def Ok (fnmatch : String → String → Bool) (s : Store) : Routine → Prop
  | .enqueued job | .installing job _ _ => s.Knows job
  | .wiring job | .closing job _ => s.Knows job ∧ s.Listed job.repoId
  | .forcing job files _ => s.Knows job ∧ s.Listed job.repoId ∧ s.Depicts job.repoId files
  | .ensuring job found | .serving job _ found | .placing job found =>
    s.Knows job ∧ s.Listed job.repoId ∧ Store.Covers fnmatch s job found
  | .leased repo _ => ∃ r ∈ s.repos, r.id = repo.id
  | .pinned repo _ => ∃ r ∈ s.repos, r.id = repo
  | .discovering repo _ jobs => jobs ≠ [] ∧ ∀ j ∈ jobs, s.Knows j ∧ j.repoId = repo
  | .layoutPinned _ _ entries => entries ≠ []
  | .persisted repo jobs => s.Listed repo ∧ ∀ j ∈ jobs, s.Knows j ∧ j.repoId = repo
  | .resolving repo jobs files => s.Listed repo ∧ (∀ j ∈ jobs, s.Knows j ∧ j.repoId = repo) ∧ s.Depicts repo files
  | .settling job _ jobs files =>
    s.Knows job ∧ s.Listed job.repoId ∧ (∀ j ∈ jobs, s.Knows j ∧ j.repoId = job.repoId) ∧ s.Depicts job.repoId files
  | .layout .. | .installFailed .. | .verifyFailed _ | .fileFailed .. => True

theorem Ok.exec (ok : t.Ok fnmatch s) (catalogued : s.Catalogued) (done : op.exec s = .ok s') : t.Ok fnmatch s' := by
  have known : ∀ {repo : RepoId} {jobs : List Job}, (∀ j ∈ jobs, s.Knows j ∧ j.repoId = repo) →
      ∀ j ∈ jobs, s'.Knows j ∧ j.repoId = repo := fun all j member => ⟨(all j member).1.exec done, (all j member).2⟩
  have there : ∀ {repo}, (∃ r ∈ s.repos, r.id = repo) → ∃ r ∈ s'.repos, r.id = repo := by
    rintro _ ⟨r, stored, rfl⟩
    exact Store.exists_repo stored done
  cases t with
  | enqueued | installing => exact Store.Knows.exec ok done
  | wiring | closing => exact ⟨ok.1.exec done, ok.2.exec done⟩
  | forcing => exact ⟨ok.1.exec done, ok.2.1.exec done, ok.2.2.exec catalogued ok.2.1 done⟩
  | ensuring | serving | placing => exact ⟨ok.1.exec done, ok.2.1.exec done, ok.2.2.exec catalogued ok.2.1 done⟩
  | leased | pinned => exact there ok
  | discovering => exact ⟨ok.1, known ok.2⟩
  | persisted => exact ⟨ok.1.exec done, known ok.2⟩
  | resolving => exact ⟨ok.1.exec done, known ok.2.1, ok.2.2.exec catalogued ok.1 done⟩
  | settling =>
    exact ⟨ok.1.exec done, ok.2.1.exec done, known ok.2.2.1, ok.2.2.2.exec catalogued ok.2.1 done⟩
  | layout | installFailed | verifyFailed | fileFailed => trivial
  | layoutPinned => exact ok

theorem knows_jobsForRepo (member : j ∈ s.jobsForRepo repo) : s.Knows j ∧ j.repoId = repo := by
  obtain ⟨known, mine⟩ := List.mem_filter.mp member
  exact ⟨⟨j, known, rfl, rfl, rfl⟩, of_decide_eq_true mine⟩

theorem jobsForRepo_ne_nil (sound : s.Sound) (there : ∃ r ∈ s.repos, r.id = repo) : s.jobsForRepo repo ≠ [] := by
  obtain ⟨r, stored, rfl⟩ := there
  obtain ⟨j, known, mine⟩ := sound.asked r stored
  exact List.ne_nil_of_mem (List.mem_filter.mpr ⟨known, decide_eq_true mine⟩)

theorem Selects.depicts (selects : Selects s job t files) (ok : t.Ok fnmatch s) :
    s.Knows job ∧ s.Listed job.repoId ∧ s.Depicts job.repoId files := by
  cases selects with
  | wiring => exact ⟨ok.1, ok.2, Store.depicts_filesForRepo⟩
  | forced => exact ok

theorem settling_ok (ok : (Routine.resolving repo (j :: jobs) found).Ok fnmatch s) :
    (Routine.settling j cause jobs found).Ok fnmatch s := by
  obtain ⟨listed, known, depicts⟩ := ok
  obtain ⟨knows, rfl⟩ := known j List.mem_cons_self
  exact ⟨knows, listed, fun j' later => known j' (List.mem_cons_of_mem _ later), depicts⟩

theorem depicts_requeued (depicts : s.Depicts repo found) :
    s.Depicts repo (found.map fun g => if g.id = file then { g with status := .queued } else g) := by
  have same : ∀ g : File, (if g.id = file then { g with status := .queued } else g).id = g.id ∧
      (if g.id = file then { g with status := .queued } else g).path = g.path := by
    intro g
    split <;> exact ⟨rfl, rfl⟩
  constructor
  · intro g' member'
    obtain ⟨g, member, rfl⟩ := List.mem_map.mp member'
    obtain ⟨f, stored, id, path, mine⟩ := depicts.stored g member
    exact ⟨f, stored, id.trans (same g).1.symm, path.trans (same g).2.symm, mine⟩
  · intro f stored mine
    obtain ⟨g, member, id, path⟩ := depicts.all f stored mine
    exact ⟨_, List.mem_map.mpr ⟨g, member, rfl⟩, (same g).1.trans id, (same g).2.trans path⟩

/-- The rest of a function relies on nothing that its step has not found, the outcome of a listing apart. -/
theorem Acts.ok (acts : t.Acts fnmatch config s input a) (sound : s.Sound) (ok : t.Ok fnmatch s) :
    ∀ t' ∈ a.done ++ a.failed, t'.Ok fnmatch s ∨ ∃ repo tok jobs entries,
      t' = .persisted repo jobs ∧ a.op = some (.completeListing repo tok entries) ∧ a.failed = [] ∧
        ∀ j ∈ jobs, s.Knows j ∧ j.repoId = repo := by
  cases acts with
  | wire known here listed => exact List.forall_mem_singleton.mpr (.inl ⟨ok, _, known, here, listed⟩)
  | force => exact List.forall_mem_singleton.mpr (.inl ⟨ok.1, ok.2, Store.depicts_filesForRepo⟩)
  | forced => exact List.forall_mem_singleton.mpr (.inl ⟨ok.1, ok.2.1, depicts_requeued ok.2.2⟩)
  | select selects =>
    obtain ⟨knows, listed, depicts⟩ := selects.depicts ok
    exact List.forall_mem_singleton.mpr (.inl ⟨knows, listed, depicts.covers⟩)
  | reject selects =>
    obtain ⟨knows, listed, -⟩ := selects.depicts ok
    exact List.forall_mem_singleton.mpr (.inl ⟨knows, listed⟩)
  | ensure | served | unserved =>
    rw [List.append_nil]
    exact forall_serve (.inl ok) (.inl ok)
  | ensureNone => exact List.forall_mem_singleton.mpr (.inl ⟨ok.1, ok.2.1⟩)
  | place =>
    split
    · exact List.forall_mem_singleton.mpr (.inl ⟨ok.1, ok.2.1⟩)
    · exact List.forall_mem_nil _
  | pin | pinned => exact List.forall_mem_singleton.mpr (.inl ok)
  | offline | verifyFails => exact List.forall_mem_singleton.mpr (.inl trivial)
  | read => exact List.forall_mem_singleton.mpr (.inl ⟨jobsForRepo_ne_nil sound ok, fun j => knows_jobsForRepo⟩)
  | list => exact List.forall_mem_singleton.mpr (.inr ⟨_, _, _, _, rfl, rfl, rfl, ok.2⟩)
  | pinLayout nonempty => exact List.forall_mem_singleton.mpr (.inl nonempty)
  | resolve =>
    rw [List.append_nil]
    exact forall_resume (.inl ⟨ok.1, ok.2, Store.depicts_filesForRepo⟩)
  | sweep =>
    refine List.forall_mem_append.mpr (and_self_iff.mpr (forall_resume (.inl ?_)))
    exact ⟨ok.1, fun j later => ok.2.1 j (List.mem_cons_of_mem _ later), ok.2.2⟩
  | unresolved => exact List.forall_mem_singleton.mpr (.inl (settling_ok ok))
  | resolved =>
    refine List.forall_mem_append.mpr ⟨?_, List.forall_mem_singleton.mpr (.inl (settling_ok ok))⟩
    split
    · exact List.forall_mem_singleton.mpr (.inl (settling_ok ok))
    · exact forall_resume (.inl ⟨ok.1, fun j later => ok.2.1 j (List.mem_cons_of_mem _ later), ok.2.2⟩)
  | settle => exact List.forall_mem_append.mpr (and_self_iff.mpr (forall_resume (.inl ok.2)))
  | installFails => exact List.forall_mem_append.mpr (and_self_iff.mpr (List.forall_mem_singleton.mpr (.inl trivial)))
  | unlisted | unplaced | close | release | defer | refuse | incomplete | listLocalDir | listLayout | install | failJob
  | refetched | failRows => exact List.forall_mem_nil _

end Routine

namespace Manager
variable {fnmatch : String → String → Bool} {d d' : Manager} {op : Operation} {s' : Store}

structure Base (fnmatch : String → String → Bool) (d : Manager) : Prop where
  sound : d.store.Sound
  tasks : ∀ t ∈ d.tasks, t.Ok fnmatch d.store

theorem Base.exec (base : Base fnmatch d) (done : op.exec d.store = .ok s')
    (ensures : ∀ job ids, op = .ensureJobFiles job ids → ∀ j ∈ d.store.jobs, j.id = job →
      ∀ file ∈ ids, ∀ f ∈ d.store.files, f.id = file → f.repoId = j.repoId)
    (tasks : ∀ t ∈ d'.tasks, t ∈ d.tasks ∨ t.Ok fnmatch s') (store : d'.store = s') : Base fnmatch d' := by
  subst store
  refine ⟨base.sound.exec done ensures, fun t member => ?_⟩
  rcases tasks t member with old | new
  · exact (base.tasks t old).exec base.sound.catalogued done
  · exact new

theorem Base.commit (base : Base fnmatch d) (store : d'.store = op.commit d.store)
    (free : ∀ job ids, op ≠ .ensureJobFiles job ids)
    (tasks : ∀ t ∈ d'.tasks, t ∈ d.tasks ∨ t.Ok fnmatch d'.store) : Base fnmatch d' := by
  rcases Operation.commit_cases d.store op with same | done
  · rw [same] at store
    refine ⟨store ▸ base.sound, fun t member => ?_⟩
    exact (tasks t member).elim (fun old => store ▸ base.tasks t old) id
  · exact base.exec done (fun job ids equal => absurd equal (free job ids)) (store ▸ tasks) store

theorem Base.ensures (base : Base fnmatch d) (here : t ∈ d.tasks)
    (acts : t.Acts fnmatch d.config d.store input ⟨some op, rest, failed, report⟩) :
    ∀ job ids, op = .ensureJobFiles job ids → ∀ j ∈ d.store.jobs, j.id = job →
      ∀ file ∈ ids, ∀ f ∈ d.store.files, f.id = file → f.repoId = j.repoId := by
  rintro job ids rfl j known id file member f stored there
  have ok := base.tasks t here
  have mine : ∀ {job' : Job} {found : List File}, d.store.Knows job' → Store.Covers fnmatch d.store job' found →
      j.id = job'.id → file ∈ found.map (·.id) → f.repoId = j.repoId := by
    rintro job' found ⟨j', known', id', repo', -⟩ covers same listed
    obtain ⟨g, chosen, rfl⟩ := List.mem_map.mp listed
    obtain ⟨f', stored', file', repo⟩ := covers.stored g chosen
    rw [Table.eq_of_key stored stored' (there.trans file'.symm), repo,
      Table.eq_of_key known known' (same.trans id'.symm), repo']
  cases acts with
  | ensure => exact mine ok.1 ok.2.2 id member
  | ensureNone => cases member

theorem mem_goOn (member : t' ∈ (d.goOn t rest report s').tasks) : t' ∈ d.tasks ∨ t' ∈ rest :=
  (List.mem_append.mp member).imp_left List.mem_of_mem_erase

theorem Base.next (base : Base fnmatch d) (stepped : next fnmatch d e = some d') : Base fnmatch d' := by
  cases next_step stepped with
  | call foreign issued =>
    refine base.commit rfl (fun job ids equal => ?_) fun t => .inl
    subst equal
    cases foreign
  | @submit spec =>
    have done : (Operation.enqueueJob spec).exec d.store = .ok (d.store.enqueueJob spec).2 := rfl
    refine base.exec done nofun (fun t member => ?_) rfl
    refine (List.mem_append.mp member).imp_right fun new => ?_
    obtain rfl := List.mem_singleton.mp new
    exact ⟨_, Store.mem_enqueueJob_jobs.mpr (.inr rfl), rfl, rfl, rfl⟩
  | @list tok now r store' leased =>
    have done : (Operation.leaseMeta tok now).exec d.store = .ok store' := Operation.map_snd_ok leased
    refine base.exec done nofun (fun t member => ?_) rfl
    refine (List.mem_append.mp member).imp_right fun new => ?_
    obtain rfl := List.mem_singleton.mp new
    obtain ⟨r', stored, here⟩ := Store.leaseMeta_ok leased
    obtain ⟨r'', stored', id⟩ := Store.exists_repo stored done
    exact ⟨r'', stored', id.trans here⟩
  | @install tok now mode jf store' job wet leased known here file =>
    have done : (Operation.leaseInstall tok now mode).exec d.store = .ok store' := Operation.map_snd_ok leased
    refine base.exec done nofun (fun t member => ?_) rfl
    refine (List.mem_append.mp member).imp_right fun new => ?_
    obtain rfl := List.mem_singleton.mp new
    exact ⟨job, known, rfl, rfl, rfl⟩
  | failFile =>
    refine base.commit rfl nofun fun t member => ?_
    refine (List.mem_append.mp member).imp_right fun new => ?_
    obtain rfl := List.mem_singleton.mp new
    trivial
  | @failVerify file tok cause store' failed =>
    have done : (Operation.failVerify file tok (some cause)).exec d.store = .ok store' := failed
    refine base.exec done nofun (fun t member => ?_) rfl
    refine (List.mem_append.mp member).imp_right fun new => ?_
    obtain rfl := List.mem_singleton.mp new
    trivial
  | read here acts =>
    refine ⟨base.sound, fun t member => ?_⟩
    rcases mem_goOn member with old | new
    · exact base.tasks t old
    · rcases acts.ok base.sound (base.tasks _ here) _ (List.mem_append_left _ new) with ok | ⟨_, _, _, _, -, never, -⟩
      · exact ok
      · cases never
  | commit here acts done =>
    refine base.exec done (base.ensures here acts) (fun t member => ?_) rfl
    refine (mem_goOn member).imp_right fun new => ?_
    rcases acts.ok base.sound (base.tasks _ here) _ (List.mem_append_left _ new) with ok |
      ⟨repo, tok, jobs, entries, rfl, call, -, known⟩
    · exact ok.exec base.sound.catalogued done
    · obtain rfl := Option.some.inj call
      exact ⟨(Store.completeListing_repo done).2, fun j member => ⟨(known j member).1.exec done, (known j member).2⟩⟩
  | refuse here acts =>
    refine ⟨base.sound, fun t member => ?_⟩
    rcases mem_goOn member with old | new
    · exact base.tasks t old
    · rcases acts.ok base.sound (base.tasks _ here) _ (List.mem_append_right _ new) with ok |
        ⟨_, _, _, _, -, -, (rfl : _ = []), -⟩
      · exact ok
      · cases new
  | quit => exact ⟨base.sound, fun t member => base.tasks t (List.mem_of_mem_erase member)⟩
  | @crash owner =>
    have done : (Operation.reopen owner).exec d.store = .ok { d.store with owner } := rfl
    exact base.exec done nofun (fun t member => (List.not_mem_nil member).elim) rfl

theorem base_initial {flags : Config} : Base fnmatch (initial owner flags) where
  sound := ⟨.empty, fun _ stored => (Table.not_mem_empty _ stored).elim, fun _ stored => (Table.not_mem_empty _ stored).elim,
    fun _ stored => (Table.not_mem_empty _ stored).elim⟩
  tasks := fun _ member => (List.not_mem_nil member).elim

end Manager
end Hfdl
