import Hfdl.Store.Change
import Hfdl.Store.Fencing
import Hfdl.Transfer.IntervalSerde

/-! The progress blob of a file row: which calls change it, and from which statuses a
download takes it up again. -/
namespace Hfdl
open Relational

/-- The offset is complete according to the blob; a corrupt one is dropped before it is used. -/
def BlobCovers (blob : Option Blob) (x : Int) : Prop :=
  match decodeProgress blob with
  | .ok seed => seed.Covers x
  | .error _ => False

instance : Decidable (BlobCovers blob x) :=
  match decoded : decodeProgress blob with
  | .ok seed => decidable_of_iff (seed.Covers x) (by rw [BlobCovers, decoded])
  | .error _ => isFalse (by rw [BlobCovers, decoded]; exact id)

theorem not_blobCovers_none : ¬ BlobCovers none x := IntervalSet.covers_empty

theorem not_blobCovers_empty (empty : blob.getD [] = []) : ¬ BlobCovers blob x := by
  cases blob with
  | none => exact not_blobCovers_none
  | some bytes =>
    obtain rfl : bytes = [] := empty
    exact IntervalSet.covers_empty

theorem blobCovers_iff : BlobCovers blob x ↔ ∃ seed, decodeProgress blob = .ok seed ∧ seed.Covers x := by
  rw [BlobCovers]
  split
  · rename_i decoded
    simp [decoded]
  · rename_i failed
    simp [failed]

def claimless (blob : Option Blob) : Bool :=
  match decodeProgress blob with
  | .ok seed => seed.iv.isEmpty
  | .error _ => true

theorem not_blobCovers_claimless (nothing : claimless blob = true) : ¬ BlobCovers blob x := by
  rw [blobCovers_iff]
  rintro ⟨seed, decoded, covers⟩
  simp only [claimless, decoded, List.isEmpty_iff] at nothing
  obtain ⟨v, member, -⟩ := covers
  rw [nothing] at member
  exact absurd member List.not_mem_nil

/-- The statuses in which a file keeps its progress for the next download pass. -/
def FileStatus.Resumable : FileStatus → Prop
  | .discovered | .queued | .downloading | .salvaging => True
  | _ => False

def Operation.granted : Operation → Option LeaseToken
  | .leaseFileForDownload _ tok _ | .leaseSalvage tok _ | .leaseVerify tok _ => some tok
  | _ => none

theorem Operation.Issued.resumable (issued : (Operation.transitionFile file tok source target cause now).Issued)
    (later : target.Resumable) : source.Resumable ∨ source = .cached ∧ target = .queued := by
  have edge := issued.edge
  revert edge later
  cases source <;> cases target <;> simp [leasedEdges, FileStatus.Resumable]

namespace File.Change
variable {f f' : File} {op : Operation}

theorem held (changed : f.Change op f') (ok : f.LeaseOk) (token : f'.leaseToken = some tok) (other : op.granted ≠ some tok) :
    f.leaseToken = some tok ∧ f'.status = f.status := by
  cases changed with
  | kept | saved | retried | renewed | relisted => exact ⟨token, rfl⟩
  | leased | salvaged | verifying => exact absurd token other
  | reused waits | diverted waits =>
    have idle := waits.2
    have free : f.leaseToken = none := ok.2.1 (by revert idle; cases f.status <;> simp)
    cases free.symm.trans token
  | moved | finished | verified | rejected | refetched | lapsed => cases token

/-- Progress comes from a save only; a failed verification drops it. -/
theorem progress (changed : f.Change op f') : f'.progress = f.progress ∨ f'.progress = none ∨
    ∃ file tok blob, op = .saveProgress file tok (some blob) ∧ f.Held file [.downloading, .salvaging] tok ∧
      f'.progress = some blob := by
  cases changed with
  | saved held =>
    rename_i blob
    cases blob with
    | none => exact .inr (.inl rfl)
    | some blob => exact .inr (.inr ⟨_, _, _, rfl, held, rfl⟩)
  | refetched => exact .inr (.inl rfl)
  | kept | leased | moved | finished | retried | verifying | verified | rejected | reused | salvaged | diverted | renewed | lapsed
  | relisted => exact .inl rfl

/-- The origin of the progress that a resumable row carries. -/
theorem resumable (changed : f.Change op f') (issued : op.Issued) (later : f'.status.Resumable) :
    f.status.Resumable ∧ f'.progress = f.progress ∨ f'.progress = none ∨
      (∃ file tok blob, op = .saveProgress file tok (some blob) ∧ f.Held file [.downloading, .salvaging] tok ∧
          f'.progress = some blob) ∨
      ∃ tok cause now, op = .transitionFile f.id tok .cached .queued cause now ∧ f'.progress = f.progress := by
  cases changed with
  | kept | retried | renewed | relisted => exact .inl ⟨later, rfl⟩
  | saved held =>
    rename_i blob
    cases blob with
    | none => exact .inr (.inl rfl)
    | some blob => exact .inr (.inr (.inl ⟨_, _, _, rfl, held, rfl⟩))
  | leased waits | diverted waits =>
    have idle := waits.2
    refine .inl ⟨?_, rfl⟩
    revert idle
    cases f.status <;> simp [FileStatus.Resumable]
  | salvaged waits => exact .inl ⟨later, rfl⟩
  | refetched => exact .inr (.inl rfl)
  | lapsed expired edge =>
    rename_i target _
    refine .inl ⟨?_, rfl⟩
    revert edge later
    cases f.status <;> cases target <;> simp [lapsedEdges, FileStatus.Resumable]
  | moved owned =>
    obtain ⟨rfl, rfl, -⟩ := owned
    rcases issued.resumable later with before | ⟨cached, queued⟩
    · exact .inl ⟨before, rfl⟩
    · exact .inr (.inr (.inr ⟨_, _, _, by rw [cached, queued], rfl⟩))
  | finished | verifying | verified | rejected | reused => exact later.elim

theorem landed (changed : f.Change op f') (issued : op.Issued) (later : f'.status = .downloaded ∨ f'.status = .verifying) :
    (f.status = .downloaded ∨ f.status = .verifying) ∨ (f.status = .downloading ∧ f'.status = .downloaded) ∨
      f.status = .salvaging ∨ ∃ tok cause now, op = .transitionFile f.id tok .queued .downloaded cause now := by
  cases changed with
  | kept | saved | retried | renewed | relisted => exact .inl later
  | moved owned =>
    rename_i target _ _
    obtain ⟨rfl, rfl, -⟩ := owned
    have edge := issued.edge
    revert edge later
    cases f.status <;> cases target <;> simp [leasedEdges]
  | finished held => exact .inr (.inl ⟨List.mem_singleton.mp held.2.1, rfl⟩)
  | verifying downloaded => exact .inl (.inl downloaded)
  | salvaged waits => exact .inr (.inr (.inl waits))
  | lapsed expired edge =>
    rename_i target _
    revert edge later
    cases f.status <;> cases target <;> simp [lapsedEdges]
  | leased | verified | rejected | refetched | reused | diverted => simp at later

theorem salvaging (changed : f.Change op f') (issued : op.Issued) (later : f'.status = .salvaging) :
    f.status = .salvaging ∨ op = .markSalvaging f.id ∨
      ∃ tok cause now, op = .transitionFile f.id tok .downloading .salvaging cause now := by
  cases changed with
  | kept | saved | retried | renewed | relisted | salvaged => exact .inl later
  | moved owned =>
    rename_i target _ _
    obtain ⟨rfl, rfl, -⟩ := owned
    have edge := issued.edge
    revert edge later
    cases f.status <;> cases target <;> simp [leasedEdges]
  | diverted waits => exact .inr (.inl (by rw [waits.1]))
  | lapsed expired edge =>
    rename_i target _
    revert edge later
    cases f.status <;> cases target <;> simp [lapsedEdges]
  | leased | finished | verifying | verified | rejected | refetched | reused => cases later

/-- No transition makes a file cached: it is verified or taken from its blob. -/
theorem cached (changed : f.Change op f') (issued : op.Issued) (before : f.status ≠ .cached) (later : f'.status = .cached) :
    (f.status = .verifying ∧ ∃ tok blobPath, op = .completeVerify f.id tok blobPath) ∨
      f.status = .queued ∧ ∃ blobPath, op = .markCachedFromBlob f.id blobPath := by
  cases changed with
  | kept | saved | retried | renewed | relisted | salvaged => exact absurd later before
  | moved owned =>
    rename_i target _ _
    obtain ⟨rfl, rfl, -⟩ := owned
    have edge := issued.edge
    revert edge later
    cases f.status <;> cases target <;> simp [leasedEdges]
  | verified held =>
    obtain ⟨rfl, status, -⟩ := held
    exact .inl ⟨List.mem_singleton.mp status, _, _, rfl⟩
  | reused waits => exact .inr ⟨List.mem_singleton.mp waits.2, _, by rw [waits.1]⟩
  | lapsed expired edge =>
    rename_i target _
    revert edge later
    cases f.status <;> cases target <;> simp [lapsedEdges]
  | leased | finished | verifying | rejected | refetched | diverted => cases later

end File.Change
end Hfdl
