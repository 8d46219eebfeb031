import Hfdl.Store.Recover
import Hfdl.Transition

/-! Every store method as one atomic operation of the database, and the machine
whose runs are the interleavings of operations by any number of callers. A label
carries the arguments of the call together with the wall clock and the tokens
generated inside it. -/
namespace Hfdl
open Relational Transition

/-- The edges the call sites of `TransitionFile` drive under a lease. The lease
methods are the only way into `downloading` and `verifying`. -/
def leasedEdges : List (FileStatus × FileStatus) :=
  [(.downloading, .downloaded), (.downloading, .error), (.downloading, .salvaging), (.downloading, .queued),
    (.salvaging, .queued), (.salvaging, .downloaded), (.verifying, .downloaded)]

inductive Operation where
  | reopen (owner : String)
  | enqueueJob (spec : JobSpec)
  | leaseMeta (tok : LeaseToken) (now : Time)
  | setCommitSHA (repo : RepoId) (tok : LeaseToken) (sha : String)
  | completeListing (repo : RepoId) (tok : LeaseToken) (entries : List FileEntry)
  | leaseInstall (tok : LeaseToken) (now : Time) (destMode : Option DestMode)
  | completeInstall (job : JobId) (file : FileId) (tok : LeaseToken) (err : Option String)
  | ensureJobFiles (job : JobId) (files : List FileId)
  | setJobFileDests (job : JobId) (dests : List (FileId × String))
  | finishJob (job : JobId) (cause : Option String)
  | failRepo (repo : RepoId) (tok : LeaseToken) (cause : Option String)
  | failJobFilesForFile (file : FileId) (cause : Option String)
  | deferMeta (repo : RepoId) (tok : LeaseToken) (availableAt : Time)
  | releaseMeta (repo : RepoId) (tok : LeaseToken) (availableAt : Option Time) (cause : Option String)
  | leaseFileForDownload (file : FileId) (tok : LeaseToken) (now : Time)
  | transitionFile (file : FileId) (tok : LeaseToken) (source target : FileStatus) (cause : Option String) (now : Time)
  | finishDownloaded (file : FileId) (tok : LeaseToken)
  | saveProgress (file : FileId) (tok : LeaseToken) (blob : Option Blob)
  | incrFileRetries (file : FileId) (tok : LeaseToken)
  | leaseVerify (tok : LeaseToken) (now : Time)
  | completeVerify (file : FileId) (tok : LeaseToken) (cachePath : String)
  | failVerify (file : FileId) (tok : LeaseToken) (cause : Option String)
  | markCachedFromBlob (file : FileId) (cachePath : String)
  | leaseSalvage (tok : LeaseToken) (now : Time)
  | markSalvaging (file : FileId)
  | replacePendingBlocks (file : FileId) (tok : LeaseToken) (blocks : List BlockSpec)
  | leaseBlocks (n : Nat) (filter : BlockFilter) (toks : Nat → LeaseToken) (now : Time)
  | claimBlock (block : BlockId) (tok : LeaseToken) (now : Time)
  | requeueBlock (block : BlockId) (tok : LeaseToken) (availableAt : Time) (cause : Option String)
  | completeBlock (block : BlockId) (tok : LeaseToken)
  | renewLease (kind : LeaseKind) (id : Nat) (tok : LeaseToken) (expiry now : Time)
  | recover (now : Time)
  | addReferenceFiles (stats : List ReferenceStat)
  | invalidateReference (id : ReferenceId)
  | leaseReferenceHash (tok : LeaseToken) (now : Time)
  | completeReferenceHash (id : ReferenceId) (tok : LeaseToken) (sha256 : String) (cause : Option String)

namespace Operation

/-- The effect on the database, with the returned rows dropped. A claim that
finds its block taken changes nothing and is no error. -/
def exec (s : Store) : Operation → Except StoreError Store
  | reopen owner => .ok { s with owner }
  | enqueueJob spec => .ok (s.enqueueJob spec).2
  | leaseMeta tok now => (s.leaseMeta tok now).map (·.2)
  | setCommitSHA repo tok sha => s.setCommitSHA repo tok sha
  | completeListing repo tok entries => s.completeListing repo tok entries
  | leaseInstall tok now destMode => (s.leaseInstall tok now destMode).map (·.2)
  | completeInstall job file tok err => s.completeInstall job file tok err
  | ensureJobFiles job files => s.ensureJobFiles job files
  | setJobFileDests job dests => s.setJobFileDests job dests
  | finishJob job cause => s.finishJob job cause
  | failRepo repo tok cause => s.failRepo repo tok cause
  | failJobFilesForFile file cause => .ok (s.failJobFilesForFile file cause)
  | deferMeta repo tok availableAt => s.deferMeta repo tok availableAt
  | releaseMeta repo tok availableAt cause => s.releaseMeta repo tok availableAt cause
  | leaseFileForDownload file tok now => s.leaseFileForDownload file tok now
  | transitionFile file tok source target cause now => s.transitionFile file tok source target cause now
  | finishDownloaded file tok => s.finishDownloaded file tok
  | saveProgress file tok blob => s.saveProgress file tok blob
  | incrFileRetries file tok => (s.incrFileRetries file tok).map (·.2)
  | leaseVerify tok now => (s.leaseVerify tok now).map (·.2)
  | completeVerify file tok cachePath => s.completeVerify file tok cachePath
  | failVerify file tok cause => s.failVerify file tok cause
  | markCachedFromBlob file cachePath => s.markCachedFromBlob file cachePath
  | leaseSalvage tok now => (s.leaseSalvage tok now).map (·.2)
  | markSalvaging file => s.markSalvaging file
  | replacePendingBlocks file tok blocks => s.replacePendingBlocks file tok blocks
  | leaseBlocks n filter toks now => .ok (s.leaseBlocks n filter toks now).2
  | claimBlock block tok now => .ok ((s.claimBlock block tok now).elim s (·.2))
  | requeueBlock block tok availableAt cause => (s.requeueBlock block tok availableAt cause).map (·.2)
  | completeBlock block tok => (s.completeBlock block tok).map (·.2)
  | renewLease kind id tok expiry now => s.renewLease kind id tok expiry now
  | recover now => .ok (s.recover now).2
  | addReferenceFiles stats => .ok (s.addReferenceFiles stats)
  | invalidateReference id => s.invalidateReference id
  | leaseReferenceHash tok now => (s.leaseReferenceHash tok now).map (·.2)
  | completeReferenceHash id tok sha256 cause => s.completeReferenceHash id tok sha256 cause

theorem map_snd_ok {x : Except StoreError (α × Store)} (done : x = .ok (a, s')) : x.map (·.2) = .ok s' := by
  rw [done]
  rfl

/-- A call the scheduler can make: file transitions follow the edges of its call
sites, without a token exactly where the store allows that. -/
def Issued : Operation → Prop
  | transitionFile _ tok source target _ _ =>
    if tok = "" then tokenlessEdgeAllowed source target = true else (source, target) ∈ leasedEdges
  | _ => True

instance : DecidablePred Issued := fun op => by
  unfold Issued
  split <;> infer_instance

theorem Issued.edge (issued : (transitionFile file tok source target cause now).Issued) :
    (source, target) ∈ (.queued, .downloaded) :: (.cached, .queued) :: leasedEdges := by
  simp only [Issued] at issued
  split at issued
  · revert issued
    cases source <;> cases target <;> simp [tokenlessEdgeAllowed]
  · exact List.mem_cons_of_mem _ (List.mem_cons_of_mem _ issued)

/-- No transition leads into a status that only a lease method enters. -/
theorem Issued.target_free (issued : (transitionFile file tok source target cause now).Issued) :
    target ≠ .downloading ∧ target ≠ .verifying := by
  have edge := issued.edge
  revert edge
  cases source <;> cases target <;> simp [leasedEdges]

/-- The database after a call: an error rolls the transaction back. -/
def commit (s : Store) (op : Operation) : Store :=
  match op.exec s with
  | .ok s' => s'
  | .error _ => s

theorem commit_of_exec {s s' : Store} {op : Operation} (done : op.exec s = .ok s') : op.commit s = s' := by
  rw [commit, done]

theorem commit_cases (s : Store) (op : Operation) : op.commit s = s ∨ op.exec s = .ok (op.commit s) := by
  rw [commit]
  split
  · exact .inr ‹_›
  · exact .inl rfl

def next (s : Store) (op : Operation) : Option Store := if op.Issued then some (op.commit s) else none

theorem next_some : next s op = some s' ↔ op.Issued ∧ s' = op.commit s := by
  simp only [next]
  split <;> simp_all [eq_comm]

/-- A transition along an edge of a lease holder commits only as it is issued. -/
theorem issued_of_exec (listed : (source, target) ∈ leasedEdges)
    (done : (transitionFile file tok source target cause now).exec s = .ok s') :
    (transitionFile file tok source target cause now).Issued := by
  obtain ⟨edge, -⟩ := Store.transitionFile_ok done
  by_cases tokenless : tok = ""
  · simp [Issued, tokenless, edge]
  · simp [Issued, tokenless, listed]

/-- A property that every committed call keeps holds whatever the call returns. -/
theorem commit_preserves {P : Store → Prop} (held : P s) (kept : ∀ s', exec s op = .ok s' → P s') :
    P (op.commit s) := by
  simp only [commit]
  split
  · exact kept _ ‹_›
  · exact held

end Operation
end Hfdl
