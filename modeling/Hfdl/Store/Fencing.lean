import Hfdl.Store.Change

/-! Lease discipline of the state database. A row carries a token exactly while
its status says it is worked on, and a caller presenting any other token than
the row's own is turned away without a change. -/
namespace Hfdl
open Relational Transition

/-- `lease_token` is `NULL` exactly when `lease_until` is. -/
def Lease.Paired (l : Lease) : Prop := l.leaseToken = none ↔ l.leaseUntil = none

@[simp] theorem Lease.paired_cleared : Lease.cleared.Paired := by simp [Lease.Paired, Lease.cleared]
@[simp] theorem Lease.paired_claim : (Lease.claim owner tok now).Paired := by simp [Lease.Paired, Lease.claim]
@[simp] theorem Lease.cleared_token : Lease.cleared.leaseToken = none := rfl
@[simp] theorem Lease.claim_token : (Lease.claim owner tok now).leaseToken = some tok := rfl

theorem Lease.paired_renewed {l : Lease} (held : l.leaseToken = some tok) :
    { l with leaseUntil := some expiry }.Paired := by
  simp [Lease.Paired, held]

def File.LeaseOk (f : File) : Prop :=
  f.Paired ∧ (f.status ∈ [FileStatus.discovered, .queued, .downloaded, .cached, .error] → f.leaseToken = none) ∧
    (f.status ∈ [FileStatus.downloading, .verifying] → f.leaseToken ≠ none)

def Block.LeaseOk (b : Block) : Prop := b.Paired ∧ (b.status = .active ↔ b.leaseToken ≠ none)

def JobFile.LeaseOk (jf : JobFile) : Prop := jf.Paired ∧ (jf.status ≠ .installing → jf.leaseToken = none)

def Repo.LeaseOk (r : Repo) : Prop := r.Paired ∧ (r.status ≠ .listing → r.leaseToken = none)

def ReferenceFile.LeaseOk (r : ReferenceFile) : Prop := r.Paired ∧ (r.status ≠ .hashing → r.leaseToken = none)

/-- The lease columns of all five leasable tables agree with the statuses. -/
structure Store.Leased (s : Store) : Prop where
  files : ∀ f ∈ s.files, f.LeaseOk
  blocks : ∀ b ∈ s.blocks, b.LeaseOk
  jobFiles : ∀ jf ∈ s.jobFiles, jf.LeaseOk
  repos : ∀ r ∈ s.repos, r.LeaseOk
  references : ∀ r ∈ s.references, r.LeaseOk

theorem Store.Leased.empty {owner : String} : (Store.empty owner).Leased := by
  constructor <;> exact fun _ stored => (Table.not_mem_empty _ stored).elim

/-- Only the lease methods enter a status that carries a lease. -/
def Operation.TargetFree : Operation → Prop
  | transitionFile _ _ _ target _ _ => target ≠ .downloading ∧ target ≠ .verifying
  | _ => True

theorem Operation.Issued.targetFree {op : Operation} (issued : op.Issued) : op.TargetFree := by
  cases op with
  | transitionFile => exact issued.target_free
  | _ => trivial

theorem File.Change.leaseOk {f f' : File} (changed : f.Change op f') (free : op.TargetFree) (ok : f.LeaseOk) : f'.LeaseOk := by
  cases changed with
  | kept | saved | retried | relisted => exact ok
  | moved => simp [File.LeaseOk, free.1, free.2]
  | reused queued => exact ⟨ok.1, fun _ => ok.2.1 (by simp [List.mem_singleton.mp queued.2]), by simp⟩
  | salvaged waits => simp [File.LeaseOk, waits]
  | diverted => exact ⟨ok.1, by simp, by simp⟩
  | renewed held => exact ⟨Lease.paired_renewed held.2.2, ok.2⟩
  | lapsed _ edge =>
    revert edge
    cases f.status <;> simp +contextual [lapsedEdges, File.LeaseOk]
  | leased | finished | verifying | verified | rejected | refetched => simp [File.LeaseOk]

theorem Block.Change.leaseOk {b b' : Block} (changed : b.Change s op b') (ok : b.LeaseOk) : b'.LeaseOk := by
  cases changed with
  | kept => exact ok
  | renewed held => exact ⟨Lease.paired_renewed held.2.2, ok.2⟩
  | _ => simp [Block.LeaseOk]

theorem JobFile.Change.leaseOk {jf jf' : JobFile} (changed : jf.Change s op jf') (ok : jf.LeaseOk) : jf'.LeaseOk := by
  cases changed with
  | kept | placed => exact ok
  | finished _ pending | failed _ pending => exact ⟨ok.1, fun _ => ok.2 (by simp [pending])⟩
  | _ => simp [JobFile.LeaseOk]

theorem Repo.Change.leaseOk {r r' : Repo} (changed : r.Change op r') (ok : r.LeaseOk) : r'.LeaseOk := by
  cases changed with
  | kept | pinned => exact ok
  | renewed held => exact ⟨Lease.paired_renewed held.2.2, ok.2⟩
  | _ => simp [Repo.LeaseOk]

theorem ReferenceFile.Change.leaseOk {r r' : ReferenceFile} (changed : r.Change op r') (ok : r.LeaseOk) : r'.LeaseOk := by
  cases changed with
  | kept | restated => exact ok
  | renewed held => exact ⟨Lease.paired_renewed held.2.2, ok.2⟩
  | _ => simp [ReferenceFile.LeaseOk]

theorem Operation.exec_leased {s s' : Store} (leased : s.Leased) (free : op.TargetFree) (done : exec s op = .ok s') :
    s'.Leased where
  files := (exec_evolution done).files.preserves leased.files (fun changed => changed.leaseOk free) fun new => by
    obtain ⟨_, _, _, _, _, _, _, rfl⟩ := new
    simp [File.LeaseOk, File.fresh]
  blocks := (exec_evolution done).blocks.preserves leased.blocks (fun changed => changed.leaseOk) fun new => by
    obtain ⟨_, _, _, _, _, _, _, rfl⟩ := new
    simp [Block.LeaseOk, Block.fresh]
  jobFiles := (exec_evolution done).jobFiles.preserves leased.jobFiles (fun changed => changed.leaseOk) fun new => by
    rcases new with ⟨_, _, _, _, _, _, _, _, rfl⟩ | ⟨_, _, _, _, _, rfl⟩ <;> simp [JobFile.LeaseOk, JobFile.fresh]
  repos := (exec_evolution done).repos.preserves leased.repos (fun changed => changed.leaseOk) fun new => by
    obtain ⟨_, _, _, rfl⟩ := new
    simp [Repo.LeaseOk, Repo.fresh]
  references := (exec_evolution done).references.preserves leased.references (fun changed => changed.leaseOk) fun new => by
    obtain ⟨_, _, _, _, _, rfl⟩ := new
    simp [ReferenceFile.LeaseOk, ReferenceFile.fresh]

namespace Operation
variable {s s' : Store}

/-- The `lease_token` a call's guard asks for; a transition without a token asks
for `NULL`. No value for the calls that take no token. -/
def presented : Operation → Option (Option LeaseToken)
  | setCommitSHA _ tok _ | completeListing _ tok _ | failRepo _ tok _ | deferMeta _ tok _ | releaseMeta _ tok _ _
  | completeInstall _ _ tok _ | finishDownloaded _ tok | saveProgress _ tok _ | incrFileRetries _ tok
  | completeVerify _ tok _ | failVerify _ tok _ | replacePendingBlocks _ tok _ | requeueBlock _ tok _ _
  | completeBlock _ tok | renewLease _ _ tok _ _ | completeReferenceHash _ tok _ _ => some (some tok)
  | transitionFile _ tok _ _ _ _ => some (guardToken tok)
  | _ => none

/-- The current `lease_token` of the row a call addresses. -/
def rowToken (s : Store) : Operation → Option LeaseToken
  | setCommitSHA repo _ _ | completeListing repo _ _ | failRepo repo _ _ | deferMeta repo _ _
  | releaseMeta repo _ _ _ | renewLease .repo repo _ _ _ => (s.repos.get repo).bind (·.leaseToken)
  | completeInstall job file _ _ => (s.jobFiles.get (job, file)).bind (·.leaseToken)
  | finishDownloaded file _ | saveProgress file _ _ | incrFileRetries file _ | completeVerify file _ _
  | failVerify file _ _ | replacePendingBlocks file _ _ | transitionFile file _ _ _ _ _
  | renewLease .file file _ _ _ => (s.files.get file).bind (·.leaseToken)
  | requeueBlock block _ _ _ | completeBlock block _ | renewLease .block block _ _ _ =>
    (s.blocks.get block).bind (·.leaseToken)
  | completeReferenceHash id _ _ _ | renewLease .reference id _ _ _ => (s.references.get id).bind (·.leaseToken)
  | _ => none

theorem unmatched_of_token [DecidableEq κ] {key : α → κ} {t : Table α key} {token : α → Option LeaseToken}
    {guard : α → Prop} (other : (t.get k).bind token ≠ expected) (pinned : ∀ r, guard r → key r = k)
    (asks : ∀ r, guard r → token r = expected) : ∀ r ∈ t, ¬ guard r := by
  intro r stored matched
  rw [Table.get_eq_some.mpr ⟨stored, pinned r matched⟩] at other
  exact other (asks r matched)

/-- A transition without a token follows an edge that needs none. -/
def EdgeAllowed : Operation → Prop
  | transitionFile _ tok source target _ _ => tok = "" → tokenlessEdgeAllowed source target = true
  | _ => True

/-- A caller whose token is not the row's own is fenced. -/
theorem exec_fenced (allowed : op.EdgeAllowed) (asks : op.presented = some expected) (other : op.rowToken s ≠ expected) :
    ∃ e, exec s op = .error e ∧ e.IsFenced := by
  cases op <;> cases asks
  case setCommitSHA | deferMeta | releaseMeta =>
    exact ⟨_, Store.guardRepo_fenced (unmatched_of_token other (fun _ held => held.1) fun _ held => held.2.2), trivial⟩
  case completeListing | failRepo =>
    exact ⟨_, map_eq_error.mpr (Store.guardRepo_fenced
      (unmatched_of_token other (fun _ held => held.1) fun _ held => held.2.2)), trivial⟩
  case completeInstall job file tok err =>
    have unheld : ∀ jf ∈ s.jobFiles, ¬ jf.Held job file tok :=
      unmatched_of_token other (fun _ held => Prod.ext held.1 held.2.1) fun _ held => held.2.2.2
    exact ⟨_, map_eq_error.mpr (execGuarded_fenced unheld), trivial⟩
  case saveProgress | completeVerify =>
    exact ⟨_, Store.guardFile_fenced (unmatched_of_token other (fun _ held => held.1) fun _ held => held.2.2), trivial⟩
  case failVerify =>
    exact ⟨_, bind_eq_error (Store.guardFile_fenced
      (unmatched_of_token other (fun _ held => held.1) fun _ held => held.2.2)), trivial⟩
  case incrFileRetries =>
    exact ⟨_, map_eq_error.mpr (map_eq_error.mpr (Store.guardFile_fenced
      (unmatched_of_token other (fun _ held => held.1) fun _ held => held.2.2))), trivial⟩
  case finishDownloaded file tok =>
    have unheld : ∀ f ∈ s.files, ¬ f.Held file [.downloading] tok :=
      unmatched_of_token other (fun _ held => held.1) fun _ held => held.2.2
    refine ⟨_, if_neg fun ⟨f, stored, held⟩ => unheld f stored held, trivial⟩
  case replacePendingBlocks file tok blocks =>
    have unheld : ∀ f ∈ s.files, ¬ f.Held file [.downloading] tok :=
      unmatched_of_token other (fun _ held => held.1) fun _ held => held.2.2
    refine ⟨_, if_neg fun ⟨f, stored, held⟩ => unheld f stored held, trivial⟩
  case transitionFile file tok source target cause now =>
    exact ⟨_, Store.transitionFile_fenced allowed
      (unmatched_of_token other (fun _ owned => owned.1) fun _ owned => owned.2.2), trivial⟩
  case requeueBlock | completeBlock =>
    exact ⟨_, map_eq_error.mpr (map_eq_error.mpr (Store.guardBlock_fenced
      (unmatched_of_token other (fun _ held => held.1) fun _ held => held.2.2))), trivial⟩
  case renewLease kind id tok expiry now =>
    cases kind <;> exact ⟨_, map_eq_error.mpr (execGuarded_fenced
      (unmatched_of_token other (fun _ held => held.1.1) fun _ held => held.1.2.2)), trivial⟩
  case completeReferenceHash =>
    exact ⟨_, map_eq_error.mpr (execGuarded_fenced
      (unmatched_of_token other (fun _ held => held.1) fun _ held => held.2.2)), trivial⟩

theorem exec_fenced_of_token (asks : op.presented = some (some tok)) (other : op.rowToken s ≠ some tok) :
    ∃ e, exec s op = .error e ∧ e.IsFenced := by
  refine exec_fenced ?_ asks other
  cases op with
  | transitionFile file tok' source target cause now =>
    intro empty
    have own : guardToken tok' = some tok := Option.some.inj asks
    simp [guardToken, empty] at own
  | _ => trivial

theorem commit_of_error (failed : exec s op = .error e) : op.commit s = s := by
  rw [commit, failed]

/-- In every state reached by store calls of which none puts a file into a leased status by a plain transition, the lease
columns agree with the statuses. A call with another token than the row's own returns `ErrFenced`; a transition without a
token is refused off the edges that need none, and on those it is fenced while the row has one. Neither changes the
database. -/
theorem lease_fencing {ops : List Operation} (free : ∀ op ∈ ops, op.TargetFree)
    (reached : s = ops.foldl commit (Store.empty owner)) :
    s.Leased ∧
      (∀ (op : Operation) (tok : LeaseToken), op.presented = some (some tok) → op.rowToken s ≠ some tok →
        (∃ e, op.exec s = .error e ∧ e.IsFenced) ∧ op.commit s = s) ∧
      ∀ file source target cause now,
        (tokenlessEdgeAllowed source target = false →
          (transitionFile file "" source target cause now).exec s = .error (.tokenlessEdge file source target)) ∧
        (tokenlessEdgeAllowed source target = true → (s.files.get file).bind (·.leaseToken) ≠ none →
          ∃ e, (transitionFile file "" source target cause now).exec s = .error e ∧ e.IsFenced) ∧
        ((∃ e, (transitionFile file "" source target cause now).exec s = .error e) →
          (transitionFile file "" source target cause now).commit s = s) := by
  refine ⟨?_, fun op tok asks other => ?_, fun file source target cause now => ⟨fun refused => ?_, fun allowed held => ?_, ?_⟩⟩
  · rw [reached]
    exact foldl_invariant (fun member leased => commit_preserves leased fun _ done => exec_leased leased (free _ member) done)
      Store.Leased.empty
  · obtain ⟨e, failed, fenced⟩ := exec_fenced_of_token asks other
    exact ⟨⟨e, failed, fenced⟩, commit_of_error failed⟩
  · exact if_pos ⟨rfl, refused⟩
  · exact exec_fenced (fun _ => allowed) rfl held
  · rintro ⟨e, failed⟩
    exact commit_of_error failed

/-- A listing lease that expired was swept and claimed again under a second token. -/
def reclaim : List Operation :=
  [enqueueJob wholeRepo, leaseMeta "first" 0,
    recover leaseDuration, leaseMeta "second" leaseDuration]

def reclaimedListing : Store := reclaim.foldl commit (Store.empty "process")

theorem lease_fencing_reclaimed :
    reclaimedListing.Leased ∧ (∃ e, (completeListing 1 "first" []).exec reclaimedListing = .error e ∧ e.IsFenced) ∧
      (completeListing 1 "first" []).commit reclaimedListing = reclaimedListing := by
  have free : ∀ op ∈ reclaim, TargetFree op := by simp [reclaim, TargetFree]
  have reached : reclaimedListing = reclaim.foldl commit (Store.empty "process") := rfl
  exact ⟨(lease_fencing free reached).1, (lease_fencing free reached).2.1 _ "first" rfl (by decide)⟩

def leasedFile : Store :=
  [enqueueJob wholeRepo, leaseMeta "list" 0,
    completeListing 1 "list" [⟨"a", 4, "oid", "", "", false⟩], leaseFileForDownload 1 "tok" 0].foldl commit
      (Store.empty "process")

/-- A plain transition leads into a leased status and leaves the row without a token, and a caller without a token is not
fenced where the edge needs one. -/
theorem transition_unfenced :
    (((transitionFile 1 "tok" .downloading .verifying none 0).commit leasedFile).files.get 1).map
      (fun f => (f.status, f.leaseToken)) =
        some (.verifying, none) ∧
      (leasedFile.files.get 1).bind (·.leaseToken) = some "tok" ∧
      (transitionFile 1 "" .downloading .queued none 0).exec leasedFile = .error (.tokenlessEdge 1 .downloading .queued) :=
  ⟨rfl, rfl, rfl⟩

end Operation
end Hfdl
