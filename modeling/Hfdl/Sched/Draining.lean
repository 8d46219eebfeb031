import Hfdl.Sched.Selecting

/-! What is left to do for an open job. An open job waits for the listing of its repository or has a row that an
installation can finish, or one of the running functions still owes it a row or its end. -/
namespace Hfdl
open Relational Transition Operation

theorem Job.Change.open_before {j j' : Job} (changed : j.Change s op j') (unfinished : j'.Open) : j.Open := by
  by_contra closed
  exact closed (changed.closed closed ▸ unfinished)

namespace File.Change
variable {f f' : File}

theorem of_cached (changed : f.Change op f') (issued : op.Issued) (before : f.status = .cached) :
    f'.status = .cached ∨ ∃ tok cause now, op = .transitionFile f.id tok .cached .queued cause now := by
  cases changed with
  | kept | saved | retried | renewed | relisted | salvaged => exact .inl before
  | verified | reused => exact .inl rfl
  | moved owned =>
    rename_i target _ _
    obtain ⟨rfl, same, -⟩ := owned
    obtain rfl := same.symm.trans before
    have queued : target = .queued := by simpa [leasedEdges] using issued.edge
    exact .inr ⟨_, _, _, by rw [queued]⟩
  | leased waits | diverted waits =>
    have idle := waits.2
    simp [before] at idle
  | finished held | rejected held | refetched held =>
    have leased := held.2.1
    simp [before] at leased
  | verifying downloaded => cases downloaded.symm.trans before
  | lapsed expired edge =>
    rw [before] at edge
    simp [lapsedEdges] at edge

theorem failed (changed : f.Change op f') (issued : op.Issued) (later : f'.status = .error) :
    f.status = .error ∨ (∃ tok cause now, op = .transitionFile f.id tok .downloading .error cause now) ∨
      ∃ tok cause, op = .failVerify f.id tok cause := by
  cases changed with
  | kept | saved | retried | renewed | relisted | salvaged => exact .inl later
  | moved owned =>
    obtain ⟨rfl, rfl, -⟩ := owned
    obtain rfl := later
    have downloading : f.status = .downloading := by simpa [leasedEdges] using issued.edge
    exact .inr (.inl ⟨_, _, _, by rw [downloading]⟩)
  | rejected held => exact .inr (.inr ⟨_, _, by rw [held.1]⟩)
  | lapsed expired edge =>
    obtain rfl := later
    simp [lapsedEdges] at edge
  | leased | finished | verifying | verified | refetched | reused | diverted => cases later

end File.Change

theorem JobFile.Change.installing {jf jf' : JobFile} (changed : jf.Change s op jf') (later : jf'.status = .installing) :
    jf.status = .installing ∨ ∃ tok now mode, op = .leaseInstall tok now mode ∧ s.Installable mode jf := by
  cases changed with
  | kept | placed => exact .inl later
  | claimed installable => exact .inr ⟨_, _, _, rfl, installable⟩
  | installed | finished =>
    simp only at later
    split at later <;> cases later
  | failed | lapsed => cases later

theorem JobFile.Change.errored {jf jf' : JobFile} (changed : jf.Change s op jf') (later : jf'.status = .error) :
    jf.status = .error ∨ (∃ file tok cause, op = .completeInstall jf.jobId file tok (some cause)) ∨
      (∃ cause, op = .finishJob jf.jobId cause) ∨
        jf.status = .pending ∧ ∃ cause, op = .failJobFilesForFile jf.fileId cause := by
  cases changed with
  | kept | placed => exact .inl later
  | installed held =>
    rename_i cause
    cases cause with
    | none => cases later
    | some cause => exact .inr (.inl ⟨_, _, _, by rw [held.1]⟩)
  | finished here => exact .inr (.inr (.inl ⟨_, by rw [here]⟩))
  | failed here pending => exact .inr (.inr (.inr ⟨pending, _, by rw [here]⟩))
  | claimed | lapsed => cases later

theorem JobFile.Change.pending {jf jf' : JobFile} (changed : jf.Change s op jf') (later : jf'.status = .pending) :
    jf.status = .pending ∨ jf.status = .installing := by
  cases changed with
  | kept | placed => exact .inl later
  | lapsed installing => exact .inr installing
  | installed | finished =>
    simp only at later
    split at later <;> cases later
  | claimed | failed => cases later

theorem JobFile.Change.completed {jf jf' : JobFile} (changed : jf.Change s op jf') (later : jf'.status = .done) :
    jf.status = .done ∨ (∃ file tok, op = .completeInstall jf.jobId file tok none) ∨ ∃ cause, op = .finishJob jf.jobId cause := by
  cases changed with
  | kept | placed => exact .inl later
  | installed held =>
    rename_i cause
    cases cause with
    | none => exact .inr (.inl ⟨_, _, by rw [held.1]⟩)
    | some => cases later
  | finished here => exact .inr (.inr ⟨_, by rw [here]⟩)
  | claimed | failed | lapsed => cases later

namespace Store
variable {s s' : Store} {op : Operation}

/-- Only rows of cached files are being installed. -/
def Installs (s : Store) : Prop :=
  ∀ jf ∈ s.jobFiles, jf.status = .installing → ∃ f ∈ s.files, f.id = jf.fileId ∧ f.status = .cached

def Rows (s : Store) (job : JobId) : Prop := ∃ jf ∈ s.jobFiles, jf.jobId = job
deriving Decidable

def Ended (s : Store) (job : JobId) : Prop := ∀ j ∈ s.jobs, j.id = job → ¬ j.Open
deriving Decidable

theorem Rows.exec (rows : s.Rows job) (done : op.exec s = .ok s') : s'.Rows job := by
  obtain ⟨jf, row, mine⟩ := rows
  obtain ⟨jf', row', changed⟩ := exists_row row done
  exact ⟨jf', row', changed.key.1.trans mine⟩

theorem exists_cached (stored : f ∈ s.files) (cached : f.status = .cached) (done : op.exec s = .ok s') (issued : op.Issued) :
    (∃ f' ∈ s'.files, f'.id = f.id ∧ f'.status = .cached) ∨
      ∃ tok cause now, op = .transitionFile f.id tok .cached .queued cause now := by
  rcases (exec_evolution done).files.kept f stored with ⟨f', stored', changed⟩ | gone
  · exact (changed.of_cached issued cached).imp_left fun status => ⟨f', stored', changed.id, status⟩
  · exact gone.elim

theorem Installs.exec (installs : s.Installs) (done : op.exec s = .ok s') (issued : op.Issued)
    (unforced : ∀ file tok cause now, op = .transitionFile file tok .cached .queued cause now →
      ∀ jf ∈ s.jobFiles, jf.fileId = file → jf.status ≠ .installing) : s'.Installs := by
  intro jf' row' later
  rcases (exec_evolution done).jobFiles.origin jf' row' with ⟨jf, row, changed⟩ | added
  · rw [changed.key.2]
    rcases changed.installing later with before | ⟨tok, now, mode, rfl, -, ⟨f, stored, here, cached⟩, -⟩
    · obtain ⟨f, stored, here, cached⟩ := installs jf row before
      rcases exists_cached stored cached done issued with ⟨f', stored', id, cached'⟩ | ⟨tok, cause, now, rfl⟩
      · exact ⟨f', stored', id.trans here, cached'⟩
      · exact absurd before (unforced f.id tok cause now rfl jf row here.symm)
    · rcases exists_cached stored cached done issued with ⟨f', stored', id, cached'⟩ | ⟨_, _, _, other⟩
      · exact ⟨f', stored', id.trans here, cached'⟩
      · cases other
  · rcases added with ⟨_, _, _, -, _, -, -, _, rfl⟩ | ⟨_, _, -, _, -, rfl⟩ <;> cases later

theorem job_change (known : j ∈ s.jobs) (known' : j' ∈ s'.jobs) (same : j'.id = j.id) (done : op.exec s = .ok s') :
    j.Change s op j' := by
  rcases (exec_evolution done).jobs.kept j known with ⟨j'', known'', changed⟩ | gone
  · exact Table.eq_of_key known'' known' (changed.identity.1.trans same.symm) ▸ changed
  · exact gone.elim

theorem Associated.open_before (associated : s.Associated) (row : jf ∈ s.jobFiles) (known' : j' ∈ s'.jobs)
    (mine : jf.jobId = j'.id) (unfinished : j'.Open) (done : op.exec s = .ok s') : ∃ j ∈ s.jobs, j.id = j'.id ∧ j.Open := by
  obtain ⟨j, known, here, -⟩ := associated jf row
  have same := here.trans mine
  exact ⟨j, known, same, (job_change known known' same.symm done).open_before unfinished⟩

/-- A row that is in error although its job is open has just been failed by an installation. -/
theorem errored_exec (associated : s.Associated) (done : op.exec s = .ok s') (row' : jf' ∈ s'.jobFiles)
    (later : jf'.status = .error) (known' : j' ∈ s'.jobs) (mine' : jf'.jobId = j'.id) (unfinished : j'.Open) :
    (∃ jf ∈ s.jobFiles, jf.status = .error ∧ jf.jobId = j'.id ∧ ∃ j ∈ s.jobs, j.id = j'.id ∧ j.Open) ∨
      ∃ file tok cause, op = .completeInstall j'.id file tok (some cause) := by
  rcases (exec_evolution done).jobFiles.origin jf' row' with ⟨jf, row, changed⟩ | added
  · have mine := changed.key.1.symm.trans mine'
    rcases changed.errored later with before | install | ⟨cause, rfl⟩ | ⟨pending, cause, rfl⟩
    · exact .inl ⟨jf, row, before, mine, associated.open_before row known' mine unfinished done⟩
    · exact .inr (mine ▸ install)
    · exact absurd unfinished (finishJob_closed known' mine.symm (.inl done))
    · cases done
      exact absurd ⟨rfl, pending⟩ (failJobFilesForFile_jobs known' unfinished row mine)
  · rcases added with ⟨_, _, _, -, _, -, -, _, rfl⟩ | ⟨_, _, -, _, -, rfl⟩ <;> cases later

/-- The calls that give a file up while rows wait for it. -/
inductive Strands (s : Store) (file : FileId) : Operation → Prop where
  | download : Strands s file (.transitionFile file tok .downloading .error cause now)
  | verify : Strands s file (.failVerify file tok cause)
  | ensure (member : file ∈ ids) (stored : f ∈ s.files) (here : f.id = file) (failed : f.status = .error) :
      Strands s file (.ensureJobFiles job ids)

theorem stranded_exec (sound : s.Sound) (installs : s.Installs) (done : op.exec s = .ok s') (issued : op.Issued)
    (row' : jf' ∈ s'.jobFiles) (pending : jf'.status = .pending) (stored' : f' ∈ s'.files) (there' : f'.id = jf'.fileId)
    (failed : f'.status = .error) :
    (∃ jf ∈ s.jobFiles, jf.status = .pending ∧ jf.fileId = jf'.fileId ∧ ∃ f ∈ s.files, f.id = jf.fileId ∧ f.status = .error) ∨
      s.Strands jf'.fileId op := by
  rcases (exec_evolution done).files.origin f' stored' with ⟨f, stored, changed⟩ | ⟨_, _, _, -, _, -, _, rfl⟩
  · have there := changed.id.symm.trans there'
    rcases changed.failed issued failed with before | ⟨_, _, _, rfl⟩ | ⟨_, _, rfl⟩
    · rcases (exec_evolution done).jobFiles.origin jf' row' with ⟨jf, row, changed'⟩ | added
      · have same := changed'.key.2
        rcases changed'.pending pending with waits | installing
        · exact .inl ⟨jf, row, waits, same.symm, f, stored, there.trans same, before⟩
        · obtain ⟨g, stored'', here, cached⟩ := installs jf row installing
          have equal := Table.eq_of_key stored stored'' (there.trans (same.trans here.symm))
          cases before.symm.trans (equal ▸ cached)
      · rcases added with ⟨repo, tok, entries, rfl, _, -, -, file, rfl⟩ | ⟨job, ids, rfl, file, member, rfl⟩
        · -- the files of a listing are fresh
          have persisted := completeListing_persisted sound.catalogued done
          rcases persisted.rows _ row' with old | ⟨_, -, -, g, stored'', mine, equal⟩
          · exact .inl ⟨_, old, rfl, rfl, f, stored, there, before⟩
          · have same := Table.eq_of_key stored' stored'' (there'.trans (congrArg JobFile.fileId equal))
            obtain ⟨⟨r, known, held⟩, -⟩ := completeListing_repo done
            have unlisted := sound.catalogued.unlisted known (by rw [held.2.1]; nofun) f stored
            exact absurd (changed.repoId.symm.trans ((same ▸ mine).trans held.1.symm)) unlisted
        · exact .inr (.ensure member stored there before)
    · exact .inr (there ▸ .download)
    · exact .inr (there ▸ .verify)
  · cases failed

theorem completeInstall_closed (done : s.completeInstall job file tok none = .ok s')
    (all : ∀ jf ∈ s'.jobFiles, jf.jobId = job → jf.status = .done) (known : j ∈ s'.jobs) (here : j.id = job) : ¬ j.Open := by
  obtain ⟨-, -, -, jobs⟩ := completeInstall_ok done
  rw [if_pos ⟨rfl, all⟩] at jobs
  rw [jobs] at known
  obtain ⟨old, -, rfl⟩ := Table.mem_update.mp known
  split
  · simp [Job.Open]
  · rename_i other
    rw [if_neg other] at here
    exact fun unfinished => other ⟨here, unfinished⟩

def Unfinished (s : Store) : Prop :=
  ∀ j ∈ s.jobs, j.Open → s.Rows j.id → ∃ jf ∈ s.jobFiles, jf.jobId = j.id ∧ jf.status ≠ .done

theorem Unfinished.exec (left : s.Unfinished) (associated : s.Associated) (done : op.exec s = .ok s') : s'.Unfinished := by
  rintro j' known' unfinished ⟨jf', row', mine'⟩
  rcases (exec_evolution done).jobFiles.origin jf' row' with ⟨jf, row, changed⟩ | added
  · have mine := changed.key.1.symm.trans mine'
    obtain ⟨j, known, same, before⟩ := associated.open_before row known' mine unfinished done
    obtain ⟨jf₀, row₀, mine₀, waits⟩ := left j known before ⟨jf, row, mine.trans same.symm⟩
    obtain ⟨jf₁, row₁, changed₁⟩ := exists_row row₀ done
    have mine₁ := changed₁.key.1.trans (mine₀.trans same)
    by_cases finished : jf₁.status = .done
    · rcases changed₁.completed finished with old | ⟨file, tok, rfl⟩ | ⟨cause, rfl⟩
      · exact absurd old waits
      · -- the job would have been closed with its last row
        by_contra none_left
        refine completeInstall_closed done (fun jf stored belongs => ?_) known' (mine₀.trans same).symm unfinished
        by_contra open_row
        exact none_left ⟨jf, stored, belongs.trans (mine₀.trans same), open_row⟩
      · exact absurd unfinished (finishJob_closed known' (mine₀.trans same).symm (.inl done))
    · exact ⟨jf₁, row₁, mine₁, finished⟩
  · refine ⟨jf', row', mine', ?_⟩
    rcases added with ⟨_, _, _, -, _, -, -, _, rfl⟩ | ⟨_, _, -, _, -, rfl⟩ <;> nofun

/-- A repository that waits for its listing waits on, gets listed or fails with its jobs. -/
theorem waits_exec (known : r ∈ s.repos) (waits : r.status = .pending ∨ r.status = .listing) (done : op.exec s = .ok s') :
    (∃ r' ∈ s'.repos, r'.id = r.id ∧ (r'.status = .pending ∨ r'.status = .listing)) ∨
      (∃ tok entries, op = .completeListing r.id tok entries) ∨ ∃ tok cause, op = .failRepo r.id tok cause := by
  rcases (exec_evolution done).repos.kept r known with ⟨r', known', changed⟩ | gone
  · cases changed with
    | kept | pinned | renewed => exact .inl ⟨_, known', rfl, waits⟩
    | leased => exact .inl ⟨_, known', rfl, .inr rfl⟩
    | deferred | released | lapsed => exact .inl ⟨_, known', rfl, .inl rfl⟩
    | listed held => exact .inr (.inl ⟨_, _, by rw [held.1]⟩)
    | failed held => exact .inr (.inr ⟨_, _, by rw [held.1]⟩)
  · exact gone.elim

theorem completeListing_rows (catalogued : s.Catalogued) (done : s.completeListing repo tok entries = .ok s')
    (known : j ∈ s'.jobs) (mine : j.repoId = repo) :
    s'.Rows j.id ∨ entries = [] ∧ ∀ f ∈ s'.files, f.repoId ≠ repo := by
  have persisted := completeListing_persisted catalogued done
  obtain ⟨⟨r, there, held⟩, -⟩ := completeListing_repo done
  cases entries with
  | nil =>
    refine .inr ⟨rfl, fun f stored same => ?_⟩
    rcases persisted.files f stored with old | ⟨_, never, -⟩
    · exact catalogued.unlisted there (by rw [held.2.1]; nofun) f old (same.trans held.1.symm)
    · cases never
  | cons e entries =>
    obtain ⟨f, stored, same, -⟩ := persisted.listed e List.mem_cons_self
    obtain ⟨jf, row, key⟩ := persisted.paired f stored same j known mine
    exact .inl ⟨jf, row, congrArg Prod.fst key⟩

theorem transitionFile_cached (stored : f ∈ s.files) (owned : f.Owned file "" .cached) :
    ∃ s', s.transitionFile file "" .cached .queued cause now = .ok s' := by
  have found : ∃ f ∈ s.files, f.Owned file "" .cached := ⟨f, stored, owned⟩
  simp only [transitionFile, tokenlessEdgeAllowed, found, reduceCtorEq, false_and, and_false, not_true_eq_false, if_false]
  exact ⟨_, (execGuarded_committed fun _ held => held.1).mpr ⟨found, rfl⟩⟩

end Store

/-- What a running function still owes: the end of a job whose installation failed, the rows of a file that was given
up, the rows or the end of a submitted job, the end of a job of an empty listing. -/
inductive Debt where
  | close (job : JobId)
  | fail (file : FileId)
  | wire (job : JobId)
  | sweep (job : JobId)

namespace Debt

def Paid (s : Store) : Debt → Prop
  | .close job => s.Ended job
  | .fail file => (∀ jf ∈ s.jobFiles, jf.fileId = file → jf.status ≠ .pending) ∨ ∀ f ∈ s.files, f.id = file → f.status ≠ .error
  | .wire job => s.Rows job ∨ s.Ended job ∨ ∀ j ∈ s.jobs, j.id = job → ∀ r ∈ s.repos, r.id = j.repoId →
      ¬ (r.status = .listed ∧ r.commitSHA.getD "" ≠ "")
  | .sweep job => s.Ended job ∨ ∃ j ∈ s.jobs, j.id = job ∧ ∃ f ∈ s.files, f.repoId = j.repoId

instance : DecidablePred (Paid s) := fun e => by
  unfold Paid
  split <;> infer_instance

end Debt

namespace Routine

def debts : Routine → List Debt
  | .enqueued job | .wiring job | .forcing job .. | .ensuring job _ | .closing job _ => [.wire job.id]
  | .persisted _ jobs => jobs.map (.sweep ·.id)
  | .resolving _ jobs files | .settling _ _ jobs files => if files = [] then jobs.map (.sweep ·.id) else []
  | .installFailed job _ => [.close job]
  | .verifyFailed file | .fileFailed file _ => [.fail file]
  | .serving .. | .placing .. | .leased .. | .pinned .. | .discovering .. | .layout .. | .layoutPinned .. | .installing .. => []

/-- The store and the rest of the function after a step. -/
inductive Outcome (s : Store) : Action → List Routine → Store → Prop where
  | read : Outcome s ⟨none, rest, failed, report⟩ rest s
  | commit (done : op.exec s = .ok s') : Outcome s ⟨some op, rest, failed, report⟩ rest s'
  | refuse (refused : op.exec s = .error err) : Outcome s ⟨some op, rest, failed, report⟩ failed s

/-- The loops that can end a function early. -/
def Smooth (s : Store) : Routine → Prop
  | .forcing _ _ (f :: _) =>
    (∃ g ∈ s.files, g.Owned f.id "" .cached) ∧ ∀ jf ∈ s.jobFiles, jf.fileId = f.id → jf.status ≠ .installing
  | .ensuring _ found => ∀ g ∈ found, ∀ f ∈ s.files, f.id = g.id → f.status ≠ .error
  | _ => True

variable {s s' : Store} {t : Routine}

theorem mem_debts_resume (member : j ∈ jobs) (empty : files = []) :
    ∃ t' ∈ resume repo jobs files, Debt.sweep j.id ∈ t'.debts := by
  refine ⟨.resolving repo jobs files, ?_, ?_⟩
  · rw [resume, if_neg (List.ne_nil_of_mem member)]
    exact List.mem_singleton_self _
  · rw [debts, if_pos empty]
    exact List.mem_map.mpr ⟨j, member, rfl⟩

theorem of_mem_sweeps {jobs : List Job} {files : List File}
    (owed : debt ∈ if files = [] then jobs.map (Debt.sweep ·.id) else []) :
    files = [] ∧ ∃ j ∈ jobs, debt = .sweep j.id := by
  split at owed
  · case isTrue empty =>
    obtain ⟨j, member, rfl⟩ := List.mem_map.mp owed
    exact ⟨empty, j, member, rfl⟩
  · cases owed

theorem Outcome.ended (outcome : Outcome s ⟨some (.finishJob job cause), rest, failed, report⟩ left s') : s'.Ended job := by
  intro j known here
  cases outcome with
  | commit done => exact Store.finishJob_closed known here (.inl done)
  | refuse refused => exact Store.finishJob_closed known here (.inr ⟨rfl, _, refused⟩)

theorem Selects.debts (selects : Selects s job t files) (owed : debt ∈ t.debts) : debt = .wire job.id := by
  cases selects <;> exact List.mem_singleton.mp owed

/-- A step pays what its function owes or leaves it to the rest of the function. -/
theorem Acts.pays (acts : t.Acts fnmatch config s input a) (outcome : Outcome s a rest s') (ok : t.Ok fnmatch s)
    (smooth : t.Smooth s) (owed : debt ∈ t.debts) : (∃ t' ∈ rest, debt ∈ t'.debts) ∨ debt.Paid s' := by
  cases acts with
  | @unlisted job unlisted =>
    cases outcome
    obtain rfl := List.mem_singleton.mp owed
    obtain ⟨j₀, known₀, here₀, mine₀, -⟩ := ok
    refine .inr (.inr (.inr fun j known here r stored mine => unlisted r stored ?_))
    rw [mine, Table.eq_of_key known known₀ (here.trans here₀.symm), mine₀]
  | wire | force =>
    cases outcome
    exact .inl ⟨_, List.mem_singleton_self _, owed⟩
  | select selects | reject selects =>
    cases outcome
    obtain rfl := selects.debts owed
    exact .inl ⟨_, List.mem_singleton_self _, List.mem_singleton_self _⟩
  | forced =>
    cases outcome with
    | commit => exact .inl ⟨_, List.mem_singleton_self _, owed⟩
    | refuse refused =>
      obtain ⟨⟨g, stored, owned⟩, -⟩ := smooth
      obtain ⟨s', done⟩ := Store.transitionFile_cached stored owned
      cases refused.symm.trans done
  | @ensure found job todo nonempty =>
    obtain rfl := List.mem_singleton.mp owed
    cases outcome with
    | commit done =>
      obtain ⟨g, member⟩ := List.exists_mem_of_ne_nil found nonempty
      obtain ⟨jf, row, mine, -⟩ := Store.ensureJobFiles_row done (List.mem_map.mpr ⟨g, member, rfl⟩)
      exact .inr (.inl ⟨jf, row, mine⟩)
    | refuse refused =>
      obtain ⟨⟨j, known, here, -⟩, -, covers⟩ := ok
      obtain ⟨s', done⟩ : ∃ s', s.ensureJobFiles job.id (found.map (·.id)) = .ok s' := by
        refine Store.ensureJobFiles_stored ⟨j, known, here⟩ fun file member => ?_
        obtain ⟨g, chosen, rfl⟩ := List.mem_map.mp member
        obtain ⟨f, stored, same, -⟩ := covers.stored g chosen
        exact ⟨f, stored, same⟩
      cases refused.symm.trans done
  | ensureNone =>
    cases outcome with
    | commit => exact .inl ⟨_, List.mem_singleton_self _, owed⟩
    | refuse refused => cases refused
  | close =>
    obtain rfl := List.mem_singleton.mp owed
    exact .inr (.inr (.inl outcome.ended))
  | @resolve repo jobs =>
    cases outcome
    obtain ⟨j, member, rfl⟩ := List.mem_map.mp owed
    by_cases empty : s.filesForRepo repo = []
    · exact .inl (mem_debts_resume member empty)
    · obtain ⟨f, found⟩ := List.exists_mem_of_ne_nil _ empty
      obtain ⟨stored, mine⟩ := List.mem_filter.mp found
      obtain ⟨⟨j', known, here, same, -⟩, belongs⟩ := ok.2 j member
      exact .inr (.inr ⟨j', known, here, f, stored, (of_decide_eq_true mine).trans (same.trans belongs).symm⟩)
  | sweep =>
    obtain ⟨empty, j', member, rfl⟩ := of_mem_sweeps owed
    cases List.mem_cons.mp member with
    | inl first =>
      subst first
      exact .inr (.inl outcome.ended)
    | inr later => cases outcome <;> exact .inl (mem_debts_resume later empty)
  | unresolved nonempty | resolved nonempty =>
    obtain ⟨empty, -⟩ := of_mem_sweeps owed
    exact absurd (by rw [empty]; rfl) nonempty
  | settle =>
    obtain ⟨empty, j', member, rfl⟩ := of_mem_sweeps owed
    cases outcome <;> exact .inl (mem_debts_resume member empty)
  | failJob =>
    obtain rfl := List.mem_singleton.mp owed
    exact .inr outcome.ended
  | verifyFails =>
    cases outcome
    exact .inl ⟨_, List.mem_singleton_self _, owed⟩
  | refetched others =>
    cases outcome
    obtain rfl := List.mem_singleton.mp owed
    exact .inr (.inr others)
  | failRows =>
    obtain rfl := List.mem_singleton.mp owed
    cases outcome with
    | commit done =>
      cases done
      exact .inr (.inl fun jf row here => Store.failJobFilesForFile_rows row here)
    | refuse refused => cases refused
  | release lists | defer lists | refuse lists => cases lists <;> cases owed
  | served | unserved | unplaced | place | pin | pinned | offline | read | list | incomplete | listLocalDir | pinLayout
  | listLayout | install | installFails => cases owed

end Routine
namespace Manager
variable {fnmatch : String → String → Bool} {d d' : Manager} {op : Operation}

def Owes (d : Manager) (debt : Debt) : Prop := ∃ t ∈ d.tasks, debt ∈ t.debts

/-- What keeps a job without rows alive: the listing of its repository, or the function that wires or ends it. -/
def Awaits (d : Manager) (j : Job) : Prop :=
  ∃ r ∈ d.store.repos, r.id = j.repoId ∧ ((r.status = .pending ∨ r.status = .listing) ∨ r.status = .listed ∧
    (r.commitSHA.getD "" ≠ "" ∧ d.Owes (.wire j.id) ∨ (∀ f ∈ d.store.files, f.repoId ≠ r.id) ∧ d.Owes (.sweep j.id)))

structure Live (fnmatch : String → String → Bool) (d : Manager) : Prop where
  base : Base fnmatch d
  installs : d.store.Installs
  unfinished : d.store.Unfinished
  failed : ∀ jf ∈ d.store.jobFiles, jf.status = .error → ∀ j ∈ d.store.jobs, jf.jobId = j.id → j.Open → d.Owes (.close j.id)
  stranded : ∀ jf ∈ d.store.jobFiles, jf.status = .pending → ∀ f ∈ d.store.files, f.id = jf.fileId → f.status = .error →
    d.Owes (.fail jf.fileId)
  awaits : ∀ j ∈ d.store.jobs, j.Open → d.store.Rows j.id ∨ d.Awaits j

structure Incurs (d : Manager) (op : Operation) (d' : Manager) : Prop where
  unforced : ∀ file tok cause now, op = .transitionFile file tok .cached .queued cause now →
    ∀ jf ∈ d.store.jobFiles, jf.fileId = file → jf.status ≠ .installing
  strands : ∀ file, d.store.Strands file op → d'.Owes (.fail file)
  installed : ∀ job file tok cause, op = .completeInstall job file tok (some cause) → d'.Owes (.close job)
  lists : ∀ repo tok, op = .completeListing repo tok [] → ∀ j ∈ d.store.jobs, j.repoId = repo → j.Open → d'.Owes (.sweep j.id)
  enqueues : ∀ spec, op = .enqueueJob spec → ∀ j ∈ d'.store.jobs, j ∈ d.store.jobs ∨ d'.Awaits j

theorem Live.awaits_exec (live : Live fnmatch d) (done : op.exec d.store = .ok d'.store) (incurs : Incurs d op d')
    (pays : ∀ debt, d.Owes debt → d'.Owes debt ∨ debt.Paid d'.store) (known : j ∈ d.store.jobs) (known' : j' ∈ d'.store.jobs)
    (changed : j.Change d.store op j') (unfinished : j'.Open) : d'.store.Rows j'.id ∨ d'.Awaits j' := by
  have catalogued := live.base.sound.catalogued
  obtain ⟨same, repo, -⟩ := changed.identity
  rcases live.awaits j known (changed.open_before unfinished) with rows | ⟨r, there, here, waits⟩
  · exact .inl (same ▸ rows.exec done)
  rcases waits with waits | ⟨listed, debt⟩
  · rcases Store.waits_exec there waits done with ⟨r', there', id, waits'⟩ | ⟨tok, entries, rfl⟩ | ⟨tok, cause, rfl⟩
    · exact .inr ⟨r', there', id.trans (here.trans repo.symm), .inl waits'⟩
    · rcases Store.completeListing_rows catalogued done known' (repo.trans here.symm) with rows | ⟨rfl, empty⟩
      · exact .inl rows
      · obtain ⟨-, r', there', id, listed⟩ := Store.completeListing_repo done
        have owed := incurs.lists r.id tok rfl j known here.symm (changed.open_before unfinished)
        exact .inr ⟨r', there', id.trans (here.trans repo.symm), .inr ⟨listed, .inr ⟨id ▸ empty, same ▸ owed⟩⟩⟩
    · exact absurd unfinished (Store.failRepo_closed done known' (repo.trans here.symm))
  · have there' : r ∈ d'.store.repos := by
      rcases (exec_evolution done).repos.kept r there with ⟨r', there', moved⟩ | gone
      · exact moved.of_listed listed ▸ there'
      · exact gone.elim
    have here' := here.trans repo.symm
    have frozen : (∀ f ∈ d.store.files, f.repoId ≠ r.id) → ∀ f ∈ d'.store.files, f.repoId ≠ r.id := by
      intro empty f stored mine
      obtain ⟨f', stored', -, -, mine'⟩ := catalogued.frozen ⟨r, there, rfl, listed⟩ done stored mine
      exact empty f' stored' mine'
    rw [← same] at debt
    rcases debt with ⟨pinned, owed⟩ | ⟨empty, owed⟩
    · rcases pays _ owed with still | rows | ended | unlisted
      · exact .inr ⟨r, there', here', .inr ⟨listed, .inl ⟨pinned, still⟩⟩⟩
      · exact .inl rows
      · exact absurd unfinished (ended j' known' rfl)
      · exact absurd ⟨listed, pinned⟩ (unlisted j' known' rfl r there' here')
    · rcases pays _ owed with still | ended | ⟨j'', known'', same', f, stored, mine⟩
      · exact .inr ⟨r, there', here', .inr ⟨listed, .inr ⟨frozen empty, still⟩⟩⟩
      · exact absurd unfinished (ended j' known' rfl)
      · rw [Table.eq_of_key known'' known' same'] at mine
        exact absurd (mine.trans here'.symm) (frozen empty f stored)

theorem Live.exec (live : Live fnmatch d) (base : Base fnmatch d') (done : op.exec d.store = .ok d'.store) (issued : op.Issued)
    (incurs : Incurs d op d') (pays : ∀ debt, d.Owes debt → d'.Owes debt ∨ debt.Paid d'.store) : Live fnmatch d' := by
  have sound := live.base.sound
  refine ⟨base, live.installs.exec done issued incurs.unforced, live.unfinished.exec sound.associated done,
    fun jf' row' failed j' known' mine' unfinished => ?_, fun jf' row' pending f' stored' there' failed => ?_,
    fun j' known' unfinished => ?_⟩
  · rcases Store.errored_exec sound.associated done row' failed known' mine' unfinished with
      ⟨jf, row, before, mine, j, known, same, was_open⟩ | ⟨file, tok, cause, rfl⟩
    · have owed := same ▸ live.failed jf row before j known (mine.trans same.symm) was_open
      exact (pays _ owed).resolve_right fun ended => ended j' known' rfl unfinished
    · exact incurs.installed _ file tok cause rfl
  · rcases Store.stranded_exec sound live.installs done issued row' pending stored' there' failed with
      ⟨jf, row, before, same, f, stored, there, lost⟩ | strands
    · have owed := same ▸ live.stranded jf row before f stored there lost
      rcases pays _ owed with still | no_rows | no_file
      · exact still
      · exact absurd pending (no_rows jf' row' rfl)
      · exact absurd failed (no_file f' stored' there')
    · exact incurs.strands _ strands
  · rcases (exec_evolution done).jobs.origin j' known' with ⟨j, known, changed⟩ | ⟨spec, rfl, -⟩
    · exact live.awaits_exec done incurs pays known known' changed unfinished
    · rcases incurs.enqueues spec rfl j' known' with old | awaits
      · exact live.awaits_exec done incurs pays old known' .kept unfinished
      · exact .inr awaits

/-- The steps that strand no job. A job is not submitted to a repository that has failed or was listed without a
commit, an empty listing has read every open job of its repository, the loops of a submission are not cut short, and
a function that stops early owes nothing. -/
def Steady (fnmatch : String → String → Bool) (d : Manager) : Event → Prop
  | .submit spec => ∀ r ∈ d.store.repos, r.toRepoKey = spec.repo.withDefaults →
      r.status ≠ .error ∧ (r.status = .listed → r.commitSHA.getD "" ≠ "")
  | .step (.discovering repo _ jobs) (.tree tree) => Routine.listing fnmatch jobs tree = [] →
      ∀ j ∈ d.store.jobs, j.repoId = repo → j.Open → j.id ∈ jobs.map (·.id)
  | .step t _ => t.Smooth d.store
  | .quit t => ∀ debt ∈ t.debts, debt.Paid d.store
  | .crash .. => ∀ t ∈ d.tasks, ∀ debt ∈ t.debts, debt.Paid d.store
  | _ => True

theorem Steady.smooth (steady : Steady fnmatch d (.step t input)) : t.Smooth d.store := by
  cases t with
  | discovering => trivial
  | _ => exact steady

theorem Owes.mono (kept : ∀ t ∈ d.tasks, t ∈ d'.tasks) (owed : d.Owes debt) : d'.Owes debt := by
  obtain ⟨t, member, owed⟩ := owed
  exact ⟨t, kept t member, owed⟩

theorem pays_goOn (steps : ∀ debt ∈ t.debts, (∃ t' ∈ rest, debt ∈ t'.debts) ∨ debt.Paid s') (debt : Debt) (owed : d.Owes debt) :
    (d.goOn t rest report s').Owes debt ∨ debt.Paid s' := by
  obtain ⟨t', member, owed⟩ := owed
  by_cases same : t' = t
  · subst same
    rcases steps debt owed with ⟨later, listed, still⟩ | paid
    · exact .inl ⟨later, List.mem_append_right _ listed, still⟩
    · exact .inr paid
  · exact .inl ⟨t', List.mem_append_left _ ((List.mem_erase_of_ne same).mpr member), owed⟩

theorem Incurs.acts (acts : t.Acts fnmatch d.config d.store input ⟨some op, rest, failed, report⟩) (ok : t.Ok fnmatch d.store)
    (steady : Steady fnmatch d (.step t input)) : Incurs d op (d.goOn t rest report s') := by
  cases acts with
  | forced =>
    refine ⟨fun file tok cause now same => ?_, nofun, nofun, nofun, nofun⟩
    cases same
    exact steady.2
  | ensure =>
    refine ⟨nofun, fun file strands => ?_, nofun, nofun, nofun⟩
    cases strands with
    | ensure member stored here lost =>
      obtain ⟨g, chosen, rfl⟩ := List.mem_map.mp member
      exact absurd lost (steady g chosen _ stored here)
  | ensureNone =>
    refine ⟨nofun, fun file strands => ?_, nofun, nofun, nofun⟩
    cases strands with
    | ensure member => cases member
  | @list repo tok jobs tree =>
    refine ⟨nofun, nofun, nofun, fun repo tok same j known mine unfinished => ?_, nofun⟩
    obtain ⟨rfl, rfl, empty⟩ := Operation.completeListing.inj same
    obtain ⟨j', member, id⟩ := List.mem_map.mp (steady (List.append_eq_nil_iff.mp empty).1 j known mine unfinished)
    exact ⟨_, List.mem_append_right _ (List.mem_singleton_self _), List.mem_map.mpr ⟨j', member, by rw [id]⟩⟩
  | listLocalDir nonempty =>
    refine ⟨nofun, nofun, nofun, fun repo tok same => ?_, nofun⟩
    exact absurd (Operation.completeListing.inj same).2.2 nonempty
  | listLayout =>
    refine ⟨nofun, nofun, nofun, fun repo tok same => ?_, nofun⟩
    exact absurd (Operation.completeListing.inj same).2.2 ok
  | installFails =>
    refine ⟨nofun, nofun, fun job file tok cause same => ?_, nofun, nofun⟩
    obtain ⟨rfl, -⟩ := Operation.completeInstall.inj same
    exact ⟨_, List.mem_append_right _ (List.mem_singleton_self _), List.mem_singleton_self _⟩
  | unserved | place | close | pin | release | defer | refuse | incomplete | pinLayout | sweep | resolved | settle | install
  | failJob | failRows => exact ⟨nofun, nofun, nofun, nofun, nofun⟩

end Manager

theorem Routine.Acts.issued {t : Routine} (acts : t.Acts fnmatch config s input ⟨some op, rest, failed, report⟩) : op.Issued := by
  cases acts <;> trivial

namespace Manager
variable {fnmatch : String → String → Bool} {d d' : Manager} {op : Operation}

theorem Live.event (live : Live fnmatch d) (base : Base fnmatch d') (done : op.exec d.store = .ok d'.store) (issued : op.Issued)
    (incurs : Incurs d op d') (tasks : d'.tasks = d.tasks ++ new) : Live fnmatch d' :=
  live.exec base done issued incurs fun _ owed => .inl (owed.mono fun _ member => tasks ▸ List.mem_append_left _ member)

theorem Live.idle (live : Live fnmatch d) (base : Base fnmatch d') (same : d'.store = d.store)
    (tasks : d'.tasks = d.tasks ++ new) :
    Live fnmatch d' := by
  have done : (Operation.reopen d.store.owner).exec d.store = .ok d'.store := by rw [same]; rfl
  exact live.event base done trivial ⟨nofun, nofun, nofun, nofun, nofun⟩ tasks

theorem Steady.enqueues (steady : Steady fnmatch d (.submit spec)) (store : d'.store = (d.store.enqueueJob spec).2)
    (owed : d'.Owes (.wire (d.store.enqueueJob spec).1.2)) (known : j ∈ d'.store.jobs) : j ∈ d.store.jobs ∨ d'.Awaits j := by
  rw [store] at known
  rcases Store.mem_enqueueJob_jobs.mp known with old | rfl
  · exact .inl old
  obtain ⟨-, ⟨r, there, here, key⟩, only, -⟩ := Store.enqueueJob_spec (s := d.store) spec
  refine .inr ⟨r, store ▸ there, here, ?_⟩
  rcases only r there with old | ⟨-, pending⟩
  · obtain ⟨unfailed, pinned⟩ := steady r old key
    cases status : r.status with
    | pending => exact .inl (.inl rfl)
    | listing => exact .inl (.inr rfl)
    | listed => exact .inr ⟨rfl, .inl ⟨pinned status, owed⟩⟩
    | error => exact absurd status unfailed
  · exact .inl (.inl pending)

theorem issued_failFile (leased : tok ≠ "") : (Operation.transitionFile file tok .downloading .error cause now).Issued := by
  simp [Operation.Issued, leased, leasedEdges]

theorem live_next (live : Live fnmatch d) (steady : Steady fnmatch d e) (stepped : next fnmatch d e = some d') :
    Live fnmatch d' := by
  have base := live.base.next stepped
  cases next_step stepped with
  | @call op foreign issued =>
    rcases Operation.commit_cases d.store op with same | done
    · exact live.idle base same (List.append_nil _).symm
    · refine live.event base done issued ⟨?_, ?_, ?_, ?_, ?_⟩ (List.append_nil _).symm
      · rintro file tok cause now rfl
        cases foreign
      · intro file strands
        cases strands <;> cases foreign
      · rintro job file tok cause rfl
        cases foreign
      · rintro repo tok rfl
        cases foreign
      · rintro spec rfl
        cases foreign
  | @submit spec =>
    have done : (Operation.enqueueJob spec).exec d.store = .ok (d.store.enqueueJob spec).2 := rfl
    refine live.event base done trivial ⟨nofun, nofun, nofun, nofun, fun spec' same j known => ?_⟩ rfl
    cases same
    exact steady.enqueues rfl ⟨_, List.mem_append_right _ (List.mem_singleton_self _), List.mem_singleton_self _⟩ known
  | @list tok now r store' leased =>
    have done : (Operation.leaseMeta tok now).exec d.store = .ok store' := Operation.map_snd_ok leased
    exact live.event base done trivial ⟨nofun, nofun, nofun, nofun, nofun⟩ rfl
  | @install tok now mode jf store' job wet leased =>
    have done : (Operation.leaseInstall tok now mode).exec d.store = .ok store' := Operation.map_snd_ok leased
    exact live.event base done trivial ⟨nofun, nofun, nofun, nofun, nofun⟩ rfl
  | @failFile tok file cause now leased =>
    rcases Operation.commit_cases d.store (.transitionFile file tok .downloading .error (some cause) now) with same | done
    · exact live.idle base same rfl
    · refine live.event base done (issued_failFile leased) ⟨nofun, fun file' strands => ?_, nofun, nofun, nofun⟩ rfl
      cases strands
      exact ⟨_, List.mem_append_right _ (List.mem_singleton_self _), List.mem_singleton_self _⟩
  | @failVerify file tok cause store' failed =>
    have done : (Operation.failVerify file tok (some cause)).exec d.store = .ok store' := failed
    refine live.event base done trivial ⟨nofun, fun file' strands => ?_, nofun, nofun, nofun⟩ rfl
    cases strands
    exact ⟨_, List.mem_append_right _ (List.mem_singleton_self _), List.mem_singleton_self _⟩
  | read here acts =>
    refine live.exec base (exec_nothing d.store) trivial ⟨nofun, nofun, nofun, nofun, nofun⟩ ?_
    exact pays_goOn fun debt => acts.pays .read (live.base.tasks _ here) steady.smooth
  | commit here acts done =>
    refine live.exec base done acts.issued (.acts acts (live.base.tasks _ here) steady) ?_
    exact pays_goOn fun debt => acts.pays (.commit done) (live.base.tasks _ here) steady.smooth
  | refuse here acts refused =>
    refine live.exec base (exec_nothing d.store) trivial ⟨nofun, nofun, nofun, nofun, nofun⟩ ?_
    exact pays_goOn fun debt => acts.pays (.refuse refused) (live.base.tasks _ here) steady.smooth
  | @quit t here =>
    refine live.exec base (exec_nothing d.store) trivial ⟨nofun, nofun, nofun, nofun, nofun⟩ fun debt owed => ?_
    obtain ⟨t', member, owed⟩ := owed
    by_cases same : t' = t
    · exact .inr (steady debt (same ▸ owed))
    · exact .inl ⟨t', (List.mem_erase_of_ne same).mpr member, owed⟩
  | @crash owner =>
    have done : (Operation.reopen owner).exec d.store = .ok { d.store with owner } := rfl
    refine live.exec base done trivial ⟨nofun, nofun, nofun, nofun, nofun⟩ fun debt owed => .inr ?_
    obtain ⟨t, member, owed⟩ := owed
    have paid := steady t member debt owed
    cases debt <;> exact paid

theorem live_initial {flags : Config} : Live fnmatch (initial owner flags) where
  base := base_initial
  installs := fun _ stored => (Table.not_mem_empty _ stored).elim
  unfinished := fun _ stored => (Table.not_mem_empty _ stored).elim
  failed := fun _ stored => (Table.not_mem_empty _ stored).elim
  stranded := fun _ stored => (Table.not_mem_empty _ stored).elim
  awaits := fun _ stored => (Table.not_mem_empty _ stored).elim

theorem open_jobs_have_work {flags : Config} (ran : run (next fnmatch) (initial owner flags) events = some d)
    (steady : Meets (next fnmatch) (Steady fnmatch) (initial owner flags) events) (idle : d.tasks = [])
    (known : j ∈ d.store.jobs) (unfinished : j.Open) :
    (∃ r ∈ d.store.repos, r.id = j.repoId ∧ (r.status = .pending ∨ r.status = .listing)) ∨
      ∃ jf ∈ d.store.jobFiles, jf.jobId = j.id ∧ (jf.status = .pending ∨ jf.status = .installing) ∧
        ∃ f ∈ d.store.files, f.id = jf.fileId ∧ f.status ≠ .error := by
  have live : Live fnmatch d :=
    invariant_meeting (fun live steady stepped => live_next live steady stepped) live_initial ran steady
  have nothing : ∀ {debt}, ¬ d.Owes debt := by
    rintro debt ⟨t, member, -⟩
    rw [idle] at member
    cases member
  rcases live.awaits j known unfinished with rows | ⟨r, there, here, waits | ⟨-, ⟨-, owed⟩ | ⟨-, owed⟩⟩⟩
  · obtain ⟨jf, row, mine, waits⟩ := live.unfinished j known unfinished rows
    obtain ⟨-, -, -, f, stored, there, -⟩ := live.base.sound.associated jf row
    refine .inr ⟨jf, row, mine, ?_⟩
    cases status : jf.status with
    | pending => exact ⟨.inl rfl, f, stored, there, fun failed => nothing (live.stranded jf row status f stored there failed)⟩
    | installing =>
      obtain ⟨g, stored', there', cached⟩ := live.installs jf row status
      exact ⟨.inr rfl, g, stored', there', by rw [cached]; nofun⟩
    | done => exact absurd status waits
    | error => exact absurd (live.failed jf row status j known mine unfinished) nothing
  · exact .inl ⟨r, there, here, waits⟩
  · exact absurd owed nothing
  · exact absurd owed nothing

/-- A listing is refused for good, and a second job is submitted to the repository afterwards. -/
def resubmitted : List Event :=
  [.submit (specOf "a"), .step (.enqueued (jobOf 1 "a")) .none, .list "list" 0,
    .step (.leased leasedRepo "list") (.refused (some "gone")), .submit (specOf "b"), .step (.enqueued (jobOf 2 "b")) .none]

def afterResubmission : Manager := (run (next noGlob) (initial "process" wet) resubmitted).getD (initial "" wet)

theorem resubmitted_job_stuck :
    run (next noGlob) (initial "process" wet) resubmitted = some afterResubmission ∧ afterResubmission.tasks = [] ∧
      ∃ j ∈ afterResubmission.store.jobs, j.Open ∧
        (∀ r ∈ afterResubmission.store.repos, r.id = j.repoId → r.status = .error) ∧
        ∀ jf ∈ afterResubmission.store.jobFiles, jf.jobId ≠ j.id :=
  ⟨rfl, rfl, by decide⟩

/-- The process is stopped after a listing has been persisted, and the next one recovers. -/
def recovered : List Event := unionListing ++ [.crash "second" wet, .call (.recover 0)]

def afterRecovery : Manager := (run (next noGlob) (initial "process" wet) recovered).getD (initial "" wet)

theorem open_jobs_have_work_recovered :
    ∃ j ∈ afterRecovery.store.jobs, j.Open ∧ ∃ jf ∈ afterRecovery.store.jobFiles, jf.jobId = j.id ∧
    (jf.status = .pending ∨ jf.status = .installing) ∧ ∃ f ∈ afterRecovery.store.files, f.id = jf.fileId ∧ f.status ≠ .error := by
  have ran : run (next noGlob) (initial "process" wet) recovered = some afterRecovery := rfl
  have steady : Meets (next noGlob) (Steady noGlob) (initial "process" wet) recovered := by
    refine ⟨?_, trivial, ?_, trivial, trivial, trivial, trivial, ?_, ?_, trivial, trivial⟩
    · unfold Steady
      decide
    · unfold Steady
      decide
    · unfold Steady
      decide
    · unfold Steady
      decide
  obtain ⟨j, known, unfinished, listed⟩ : ∃ j ∈ afterRecovery.store.jobs, j.Open ∧
      ∀ r ∈ afterRecovery.store.repos, r.id = j.repoId → r.status = .listed := by decide
  refine ⟨j, known, unfinished, (open_jobs_have_work ran steady rfl known unfinished).resolve_left ?_⟩
  rintro ⟨r, there, here, waits⟩
  simp [listed r there here] at waits

end Manager
end Hfdl
