import Hfdl.Store.Change

/-! Block leases against the status of their file: which store calls can leave an
active block behind when its file stops downloading. -/
namespace Hfdl
open Relational

def Store.Attended (s : Store) : Prop := ∀ b ∈ s.blocks, b.status = .active → s.Downloading b.fileId
deriving Decidable

def Store.Unleased (s : Store) (file : FileId) : Prop := ∀ b ∈ s.blocks, b.fileId = file → b.status ≠ .active
deriving Decidable

theorem File.Change.ended {f f' : File} (changed : f.Change op f') (before : f.status = .downloading) :
    f'.status = .downloading ∨ (∃ tok target cause now, op = .transitionFile f.id tok .downloading target cause now) ∨
      (∃ tok, op = .finishDownloaded f.id tok) ∨ ∃ now, op = .recover now ∧ f.Expired now := by
  cases changed with
  | kept | saved | retried | renewed | relisted => exact .inl before
  | leased => exact .inl rfl
  | moved owned =>
    obtain ⟨rfl, status, -⟩ := owned
    exact .inr (.inl ⟨_, _, _, _, by rw [← status, before]⟩)
  | finished held =>
    obtain ⟨rfl, -⟩ := held
    exact .inr (.inr (.inl ⟨_, rfl⟩))
  | lapsed expired => exact .inr (.inr (.inr ⟨_, rfl, expired⟩))
  | verifying downloaded => simp [downloaded] at before
  | verified held | rejected held | refetched held => simp [File.Held, before] at held
  | reused waits | diverted waits => simp [File.In, before] at waits
  | salvaged waits => simp [waits] at before

theorem Block.Change.active {b b' : Block} (changed : b.Change s op b') (after : b'.status = .active) :
    b'.id = b.id ∧ (b.status = .active ∧ b'.leaseToken = b.leaseToken ∨
      s.Downloading b.fileId ∧
        ((∃ n filter toks now, op = .leaseBlocks n filter toks now) ∨ ∃ tok now, op = .claimBlock b.id tok now)) := by
  cases changed with
  | kept => exact ⟨rfl, .inl ⟨after, rfl⟩⟩
  | renewed held => exact ⟨rfl, .inl ⟨held.2.1, rfl⟩⟩
  | leased pending downloading => exact ⟨rfl, .inr ⟨downloading, .inl ⟨_, _, _, _, rfl⟩⟩⟩
  | claimed here pending downloading =>
    obtain rfl := here
    exact ⟨rfl, .inr ⟨downloading, .inr ⟨_, _, rfl⟩⟩⟩
  | requeued | completed | reset | swept => cases after

namespace Store
variable {s s' : Store}

theorem finishDownloaded_unleased (done : s.finishDownloaded file tok = .ok s') : s'.Unleased file := by
  obtain ⟨-, rfl⟩ := finishDownloaded_ok done
  intro b stored mine active
  refine (Table.mem_delete.mp stored).2 ⟨mine, ?_⟩
  rw [active]
  decide

theorem transitionFile_blocks (done : s.transitionFile file tok source target cause now = .ok s') : s'.blocks = s.blocks := by
  obtain ⟨-, -, -, rfl⟩ := transitionFile_ok done
  rfl

theorem recover_unleased (lapsed : s.Lapsed now file) : (s.recover now).2.Unleased file := by
  intro b stored mine active
  obtain ⟨b, stored, rfl⟩ := Table.mem_update.mp stored
  split at active
  · cases active
  · rename_i unswept
    rw [if_neg unswept] at mine
    exact unswept ⟨active, .inr (mine ▸ lapsed)⟩

end Store

namespace Operation
variable {s s' : Store} {op : Operation}

/-- A call that does not send a download with leased blocks elsewhere leaves every leased block attended. -/
theorem exec_attended (attended : s.Attended) (done : op.exec s = .ok s')
    (released : ∀ file tok target cause now, op = .transitionFile file tok .downloading target cause now →
      target ≠ .downloaded → s.Unleased file) : s'.Attended := by
  have evolves := exec_evolution done
  intro b' stored' active'
  rcases evolves.blocks.origin b' stored' with ⟨b, stored, changed⟩ | ⟨_, _, _, -, _, -, _, rfl⟩
  · have known : s.Downloading b.fileId := by
      rcases changed.active active' with ⟨-, ⟨active, -⟩ | ⟨downloading, -⟩⟩
      · exact attended b stored active
      · exact downloading
    obtain ⟨f, present, here, downloading⟩ := known
    have mine : b'.fileId = f.id := changed.place.1.trans here.symm
    rcases evolves.files.kept f present with ⟨f', present', moved⟩ | gone
    · rcases moved.ended downloading with still | ⟨tok, target, cause, now, rfl⟩ | ⟨tok, rfl⟩ | ⟨now, rfl, expired⟩
      · exact ⟨f', present', moved.id.trans mine.symm, still⟩
      · have same : b' ∈ s.blocks := Store.transitionFile_blocks done ▸ stored'
        by_cases finishing : target = .downloaded
        · subst finishing
          have all := (Store.transitionFile_ok done).2.2.1 rfl rfl b' same mine
          simp [active'] at all
        · exact absurd active' (released _ _ _ _ _ rfl finishing b' same mine)
      · exact absurd active' (Store.finishDownloaded_unleased done b' stored' mine)
      · cases done
        exact absurd active' (Store.recover_unleased ⟨f, present, rfl, downloading, expired⟩ b' stored' mine)
    · exact gone.elim
  · cases active'

theorem exec_active (done : op.exec s = .ok s') (batch : ∀ n filter toks now, op ≠ .leaseBlocks n filter toks now)
    (single : ∀ block tok now, op ≠ .claimBlock block tok now) (stored' : b' ∈ s'.blocks) (active' : b'.status = .active) :
    ∃ b ∈ s.blocks, b.status = .active ∧ b'.id = b.id ∧ b'.fileId = b.fileId ∧ b'.leaseToken = b.leaseToken := by
  rcases (exec_evolution done).blocks.origin b' stored' with ⟨b, stored, changed⟩ | ⟨_, _, _, -, _, -, _, rfl⟩
  · obtain ⟨id, ⟨active, lease⟩ | ⟨-, ⟨_, _, _, _, same⟩ | ⟨_, _, same⟩⟩⟩ := changed.active active'
    · exact ⟨b, stored, active, id, changed.place.1, lease⟩
    · exact absurd same (batch _ _ _ _)
    · exact absurd same (single _ _ _)
  · cases active'

end Operation

namespace Store
variable {s s' : Store} {set : Setter Block.id}

/-- A call that ends the lease it presents leaves no block under it, whether it commits or is fenced. -/
theorem guardBlock_released (ends : ∀ b, (set b).status ≠ .active) (done : s.guardBlock op block tok set = .ok s') :
    ∀ b ∈ s'.blocks, ¬ b.Held block tok := by
  obtain ⟨-, rfl⟩ := guardBlock_ok.mp done
  intro b stored held
  obtain ⟨b₀, -, rfl⟩ := Table.mem_update.mp stored
  split at held
  · exact ends b₀ held.2.1
  · rename_i unheld
    exact unheld held

theorem guardBlock_refused (failed : s.guardBlock op block tok set = .error e) : ∀ b ∈ s.blocks, ¬ b.Held block tok := by
  intro b stored held
  rw [guardBlock_ok.mpr ⟨⟨b, stored, held⟩, rfl⟩] at failed
  cases failed

theorem mem_of_claimBlock (found : s.blocks.get block = some b) (claimed : s.claimBlock block tok now = some (taken, s'))
    (stored' : b' ∈ s'.blocks) :
    b'.id = block ∧ b'.fileId = b.fileId ∧ b'.leaseToken = some tok ∨ b' ∈ s.blocks ∧ b'.id ≠ block := by
  simp only [claimBlock, found] at claimed
  split at claimed <;> cases claimed
  obtain ⟨known, here⟩ := Table.get_eq_some.mp found
  obtain ⟨b₀, stored, rfl⟩ := Table.mem_update.mp stored'
  split
  · rename_i same
    obtain rfl := Table.eq_of_key stored known (same.trans here.symm)
    exact .inl ⟨here, rfl, rfl⟩
  · exact .inr ⟨stored, ‹_›⟩

end Store
end Hfdl
