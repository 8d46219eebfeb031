import Hfdl.Store.Catalogue

/-! What a listing leaves in the database. The repository had no files before, so afterwards it has the listed paths
and nothing else, and every job of the repository has a row for every one of its files. -/
namespace Hfdl
open Relational Operation

/-- Every row associates a job with a file of the job's own repository. -/
def Store.Associated (s : Store) : Prop :=
  ∀ jf ∈ s.jobFiles, ∃ j ∈ s.jobs, j.id = jf.jobId ∧ ∃ f ∈ s.files, f.id = jf.fileId ∧ f.repoId = j.repoId

/-- The store after the entries of a listing have been persisted, compared with the one before. -/
structure Store.Persisted (start : Store) (repo : RepoId) (entries : List FileEntry) (s : Store) : Prop where
  jobs : s.jobs = start.jobs
  kept : ∀ f ∈ start.files, f ∈ s.files
  files : ∀ f ∈ s.files, f ∈ start.files ∨ ∃ e ∈ entries, ∃ id, f = .fresh id repo e
  listed : ∀ e ∈ entries, ∃ f ∈ s.files, f.repoId = repo ∧ f.path = e.path
  rowsKept : ∀ jf ∈ start.jobFiles, jf ∈ s.jobFiles
  rows : ∀ jf ∈ s.jobFiles, jf ∈ start.jobFiles ∨
    ∃ j ∈ s.jobs, j.repoId = repo ∧ ∃ f ∈ s.files, f.repoId = repo ∧ jf = .fresh j.id f.id
  paired : ∀ f ∈ s.files, f.repoId = repo → ∀ j ∈ s.jobs, j.repoId = repo → ∃ jf ∈ s.jobFiles, jf.key = (j.id, f.id)

namespace Store
variable {s s' start : Store} {repo : RepoId} {e : FileEntry} {entries before : List FileEntry}

theorem upsertFile_spec {files : Table File File.id} (unlisted : ∀ f ∈ start.files, f.repoId ≠ repo)
    (kept : ∀ f ∈ start.files, f ∈ files) (only : ∀ f ∈ files, f ∈ start.files ∨ ∃ e ∈ entries, ∃ id, f = .fresh id repo e) :
    (∀ f ∈ start.files, f ∈ (upsertFile files repo e).2) ∧
      (∀ f' ∈ (upsertFile files repo e).2, (f'.id = (upsertFile files repo e).1 ∧ f' = .fresh f'.id repo e) ∨ f' ∈ files) ∧
      (∀ f ∈ files, ∃ f' ∈ (upsertFile files repo e).2, f'.id = f.id ∧ f'.repoId = f.repoId ∧ f'.path = f.path) ∧
      ∃ f ∈ (upsertFile files repo e).2, f.id = (upsertFile files repo e).1 ∧ f.repoId = repo ∧ f.path = e.path := by
  simp only [upsertFile]
  split
  · rename_i f found
    obtain ⟨mine, path⟩ : f.repoId = repo ∧ f.path = e.path := by simpa using List.find?_some found
    have stored : f ∈ files := List.mem_of_find?_eq_some found
    -- the row found is one this listing has added, so that its other columns are fresh
    obtain ⟨e', -, id, rfl⟩ : ∃ e' ∈ entries, ∃ id, f = .fresh id repo e' :=
      (only f stored).resolve_left fun old => unlisted f old mine
    refine ⟨fun f' old => ?_, fun f' stored' => ?_, fun f' stored' => ?_, ?_⟩
    · refine Table.mem_update.mpr ⟨f', kept f' old, (if_neg fun same => ?_).symm⟩
      exact unlisted f' old (Table.eq_of_key (kept f' old) stored same ▸ rfl)
    · obtain ⟨old, before, rfl⟩ := Table.mem_update.mp stored'
      split
      · rename_i same
        rw [Table.eq_of_key before stored same]
        exact .inl ⟨rfl, rfl⟩
      · exact .inr before
    · refine ⟨_, Table.mem_update.mpr ⟨f', stored', rfl⟩, ?_⟩
      split
      · rename_i same
        rw [Table.eq_of_key stored' stored same]
        exact ⟨rfl, rfl, path.symm⟩
      · exact ⟨rfl, rfl, rfl⟩
    · exact ⟨_, Table.mem_update.mpr ⟨_, stored, (if_pos rfl).symm⟩, rfl, rfl, rfl⟩
  · have inserted : ∀ f', f' ∈ files.insert (.fresh files.nextKey repo e) ↔ f' ∈ files ∨ f' = .fresh files.nextKey repo e :=
      fun f' => Table.mem_insert_fresh rfl
    refine ⟨fun f' old => (inserted f').mpr (.inl (kept f' old)), fun f' stored' => ?_, fun f' stored' => ?_, ?_⟩
    · rcases (inserted f').mp stored' with old | rfl
      · exact .inr old
      · exact .inl ⟨rfl, rfl⟩
    · exact ⟨f', (inserted f').mpr (.inl stored'), rfl, rfl, rfl⟩
    · exact ⟨_, (inserted _).mpr (.inr rfl), rfl, rfl, rfl⟩

theorem Persisted.entry (unlisted : ∀ f ∈ start.files, f.repoId ≠ repo) (persisted : start.Persisted repo entries s) :
    start.Persisted repo (entries ++ [e]) (persistEntry repo s e) := by
  obtain ⟨kept, only, moved, f, here, same, mine, path⟩ := upsertFile_spec (e := e) unlisted persisted.kept persisted.files
  have pairs : (persistEntry repo s e).jobFiles =
      s.jobFiles.insertAll (fun j : Job => .fresh j.id (upsertFile s.files repo e).1)
        (s.jobs.rows.filter (·.repoId = repo)) := rfl
  refine ⟨persisted.jobs, kept, fun f' stored => ?_, fun e' member => ?_, fun jf old => ?_, fun jf stored => ?_,
    fun f' stored mine' j known belongs => ?_⟩
  · rcases only f' stored with ⟨-, new⟩ | old
    · exact .inr ⟨e, by simp, _, new⟩
    · exact (persisted.files f' old).imp_right fun ⟨e', member, new⟩ => ⟨e', List.mem_append_left _ member, new⟩
  · rcases List.mem_append.mp member with before | last
    · obtain ⟨g, stored, mine', path'⟩ := persisted.listed e' before
      obtain ⟨g', stored', -, repo', path''⟩ := moved g stored
      exact ⟨g', stored', repo'.trans mine', path''.trans path'⟩
    · obtain rfl := List.mem_singleton.mp last
      exact ⟨f, here, mine, path⟩
  · rw [pairs]
    exact Table.mem_insertAll_of_mem (persisted.rowsKept jf old)
  · rw [pairs] at stored
    rcases Table.of_mem_insertAll stored with old | ⟨j, member, rfl⟩
    · refine (persisted.rows jf old).imp_right fun ⟨j, known, belongs, g, listed, mine', new⟩ => ?_
      obtain ⟨g', listed', id', repo', -⟩ := moved g listed
      exact ⟨j, known, belongs, g', listed', repo'.trans mine', id' ▸ new⟩
    · obtain ⟨known, belongs⟩ := List.mem_filter.mp member
      exact .inr ⟨j, known, of_decide_eq_true belongs, f, here, mine, by rw [same]⟩
  · rw [pairs]
    rcases only f' stored with ⟨new, -⟩ | old
    · rw [new]
      exact Table.exists_key_insertAll (List.mem_filter.mpr ⟨known, decide_eq_true belongs⟩)
    · obtain ⟨jf, paired, key⟩ := persisted.paired f' old mine' j known belongs
      exact ⟨jf, Table.mem_insertAll_of_mem paired, key⟩

theorem Persisted.fold (unlisted : ∀ f ∈ start.files, f.repoId ≠ repo) (persisted : start.Persisted repo before s) :
    start.Persisted repo (before ++ entries) (entries.foldl (persistEntry repo) s) := by
  induction entries generalizing before s with
  | nil => simpa using persisted
  | cons e entries ih => simpa using ih (persisted.entry unlisted (e := e))

theorem Catalogued.unlisted (catalogued : s.Catalogued) (known : r ∈ s.repos) (unlisted : r.status ≠ .listed) :
    ∀ f ∈ s.files, f.repoId ≠ r.id := by
  intro f stored mine
  obtain ⟨r', known', here, listed⟩ := catalogued f stored
  exact unlisted (Table.eq_of_key known known' (mine.symm.trans here.symm) ▸ listed)

theorem completeListing_persisted (catalogued : s.Catalogued) (done : s.completeListing repo tok entries = .ok s') :
    s.Persisted repo entries s' := by
  obtain ⟨after, guarded, rfl⟩ := map_eq_ok.mp done
  obtain ⟨⟨r, known, held⟩, rfl⟩ := guardRepo_ok.mp guarded
  have unlisted : ∀ f ∈ s.files, f.repoId ≠ repo := by
    have listing : r.status ≠ .listed := by simp [held.2.1]
    exact held.1 ▸ catalogued.unlisted known listing
  refine Persisted.fold unlisted (?_ : s.Persisted repo [] _)
  exact ⟨rfl, fun _ => id, fun _ => .inl, nofun, fun _ => id, fun _ => .inl, fun f stored mine => absurd mine (unlisted f stored)⟩

end Store
end Hfdl
