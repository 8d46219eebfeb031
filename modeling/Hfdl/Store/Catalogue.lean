import Hfdl.Store.Change

/-! A repository is listed once. Its files appear with that listing, so the facts a
listing states about a file never change afterwards. -/
namespace Hfdl
open Relational Operation

/-- Every file belongs to a repository whose listing is complete. -/
def Store.Catalogued (s : Store) : Prop := ∀ f ∈ s.files, ∃ r ∈ s.repos, r.id = f.repoId ∧ r.status = .listed

variable {s s' : Store}

theorem Repo.Change.of_listed {r r' : Repo} (changed : r.Change op r') (listed : r.status = .listed) : r' = r := by
  cases changed with
  | kept => rfl
  | leased pending => simp [listed] at pending
  | lapsed listing => simp [listed] at listing
  | pinned held | listed held | failed held | deferred held | released held | renewed held =>
    have := held.2.1
    simp [listed] at this

theorem Store.completeListing_repo (done : s.completeListing repo tok entries = .ok s') :
    (∃ r ∈ s.repos, r.Held repo tok) ∧ ∃ r ∈ s'.repos, r.id = repo ∧ r.status = .listed := by
  obtain ⟨after, guarded, rfl⟩ := map_eq_ok.mp done
  obtain ⟨⟨r, stored, held⟩, rfl⟩ := guardRepo_ok.mp guarded
  refine ⟨⟨r, stored, held⟩, { r with toLease := .cleared, status := .listed }, ?_, held.1, rfl⟩
  refine foldl_invariant (P := fun after : Store => _ ∈ after.repos) (fun _ kept => kept) ?_
  exact Table.mem_update.mpr ⟨r, stored, (if_pos held).symm⟩

theorem Operation.exec_catalogued (catalogued : s.Catalogued) (done : exec s op = .ok s') : s'.Catalogued := by
  have evolution := exec_evolution done
  intro f' stored'
  rcases evolution.files.origin f' stored' with ⟨f, stored, changed⟩ | ⟨repo, tok, entries, rfl, entry, -, id, rfl⟩
  · obtain ⟨r, known, member, listed⟩ := catalogued f stored
    rcases evolution.repos.kept r known with ⟨r', known', kept⟩ | gone
    · rw [kept.of_listed listed] at known'
      exact ⟨r, known', member.trans changed.repoId.symm, listed⟩
    · exact gone.elim
  · exact (Store.completeListing_repo done).2

/-- What a listing says about a file is fixed once the file is stored. -/
theorem Store.Catalogued.entry (catalogued : s.Catalogued) (done : exec s op = .ok s') (stored : f ∈ s.files)
    (changed : f.Change op f') : f'.toFileEntry = f.toFileEntry := by
  cases changed with
  | relisted member =>
    obtain ⟨r, known, mine, listed⟩ := catalogued f stored
    obtain ⟨r', known', held⟩ := (completeListing_repo done).1
    have same := Table.eq_of_key known known' (mine.trans (member.trans held.1.symm))
    have := held.2.1
    simp [← same, listed] at this
  | _ => rfl

theorem Store.Catalogued.empty {owner : String} : (Store.empty owner).Catalogued :=
  fun _ stored => (Table.not_mem_empty _ stored).elim

end Hfdl
