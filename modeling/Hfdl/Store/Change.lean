import Hfdl.Store.References

/-! What a committed operation can do to one row. Each
kind of row gets its changes listed once, with the guard the statement checked, and
invariants of the tables are proved by cases on them. -/
namespace Hfdl
open Relational

/-- The sweep sends an expired lease back to the requeue point of its status. -/
def lapsedEdges : List (FileStatus × FileStatus) :=
  [(.downloading, .queued), (.verifying, .downloaded), (.salvaging, .queued)]

inductive Repo.Change : Operation → Repo → Repo → Prop where
  | kept : Change op r r
  | leased (pending : r.status = .pending) :
      Change (.leaseMeta tok now) r { r with toLease := .claim owner tok now, status := .listing }
  | pinned (held : r.Held repo tok) : Change (.setCommitSHA repo tok sha) r { r with commitSHA := some sha }
  | listed (held : r.Held repo tok) :
      Change (.completeListing repo tok entries) r { r with toLease := .cleared, status := .listed }
  | failed (held : r.Held repo tok) :
      Change (.failRepo repo tok cause) r { r with toLease := .cleared, status := .error, lastError := cause }
  | deferred (held : r.Held repo tok) :
      Change (.deferMeta repo tok at_) r { r with toLease := .cleared, status := .pending, availableAt := some at_ }
  | released (held : r.Held repo tok) :
      Change (.releaseMeta repo tok at_ cause) r { r with
        toLease := .cleared, status := .pending, retries := r.retries + 1, lastError := cause, availableAt := at_ }
  | renewed (held : r.Held repo tok) : Change (.renewLease .repo repo tok expiry now) r { r with leaseUntil := some expiry }
  | lapsed (listing : r.status = .listing) (expired : r.Expired now) :
      Change (.recover now) r { r with toLease := .cleared, status := .pending }

inductive File.Change : Operation → File → File → Prop where
  | kept : Change op f f
  | leased (queued : f.In file [.queued]) :
      Change (.leaseFileForDownload file tok now) f { f with toLease := .claim owner tok now, status := .downloading }
  | moved (owned : f.Owned file tok source) :
      Change (.transitionFile file tok source target cause now) f
        { f with toLease := .cleared, status := target, lastError := cause }
  | finished (held : f.Held file [.downloading] tok) :
      Change (.finishDownloaded file tok) f { f with toLease := .cleared, status := .downloaded, lastError := none }
  | saved (held : f.Held file [.downloading, .salvaging] tok) :
      Change (.saveProgress file tok blob) f { f with progress := blob, progressVer := f.progressVer + 1 }
  | retried (held : f.Held file [.downloading] tok) : Change (.incrFileRetries file tok) f { f with retries := f.retries + 1 }
  | verifying (downloaded : f.status = .downloaded) :
      Change (.leaseVerify tok now) f { f with toLease := .claim owner tok now, status := .verifying }
  | verified (held : f.Held file [.verifying] tok) :
      Change (.completeVerify file tok blobPath) f { f with toLease := .cleared, status := .cached, cachePath := some blobPath }
  | rejected (held : f.Held file [.verifying] tok) (bound : maxVerifyFails ≤ f.verifyFails + 1) :
      Change (.failVerify file tok cause) f
        { f with toLease := .cleared, status := .error, verifyFails := f.verifyFails + 1, lastError := cause }
  | refetched (held : f.Held file [.verifying] tok) (bound : f.verifyFails + 1 < maxVerifyFails) :
      Change (.failVerify file tok cause) f { f with
        toLease := .cleared, status := .queued, progress := none, progressVer := f.progressVer + 1
        verifyFails := f.verifyFails + 1, lastError := cause }
  | reused (queued : f.In file [.queued]) :
      Change (.markCachedFromBlob file blobPath) f { f with status := .cached, cachePath := some blobPath }
  | salvaged (waits : f.status = .salvaging) (unleased : ¬ f.Live now) :
      Change (.leaseSalvage tok now) f { f with toLease := .claim owner tok now }
  | diverted (waits : f.In file [.discovered, .queued]) : Change (.markSalvaging file) f { f with status := .salvaging }
  | renewed (held : f.Held file [.downloading, .salvaging, .verifying] tok) :
      Change (.renewLease .file file tok expiry now) f { f with leaseUntil := some expiry }
  | lapsed (expired : f.Expired now) (edge : (f.status, target) ∈ lapsedEdges) :
      Change (.recover now) f { f with toLease := .cleared, status := target }
  | relisted (member : f.repoId = repo) (listed : entry ∈ entries) (path : f.path = entry.path) :
      Change (.completeListing repo tok entries) f { f with toFileEntry := entry }

def File.Added (op : Operation) (f : File) : Prop :=
  ∃ repo tok entries, op = .completeListing repo tok entries ∧ ∃ entry ∈ entries, ∃ id, f = .fresh id repo entry

/-- A claim needs the block's file to be downloading in the store before the operation. -/
inductive Block.Change (s : Store) : Operation → Block → Block → Prop where
  | kept : Change s op b b
  | leased (pending : b.status = .pending) (downloading : s.Downloading b.fileId) :
      Change s (.leaseBlocks n filter toks now) b { b with toLease := .claim owner tok now, status := .active }
  | claimed (here : b.id = block) (pending : b.status = .pending) (downloading : s.Downloading b.fileId) :
      Change s (.claimBlock block tok now) b { b with toLease := .claim owner tok now, status := .active }
  | requeued (held : b.Held block tok) :
      Change s (.requeueBlock block tok at_ cause) b { b with
        toLease := .cleared, status := .pending, availableAt := some at_, retries := b.retries + 1, lastError := cause }
  | completed (held : b.Held block tok) :
      Change s (.completeBlock block tok) b { b with toLease := .cleared, status := .done }
  | reset (here : b.fileId = file) :
      Change s (.failVerify file tok cause) b
        { b with toLease := .cleared, status := .pending, upstream := none, availableAt := none }
  | renewed (held : b.Held block tok) :
      Change s (.renewLease .block block tok expiry now) b { b with leaseUntil := some expiry }
  | swept (active : b.status = .active) (expired : b.Expired now ∨ s.Lapsed now b.fileId) :
      Change s (.recover now) b { b with toLease := .cleared, status := .pending, availableAt := none }

/-- Only a re-chunking adds block rows. -/
def Block.Added (op : Operation) (b : Block) : Prop :=
  ∃ file tok specs, op = .replacePendingBlocks file tok specs ∧ ∃ spec ∈ specs, ∃ id, b = .fresh id file spec

def Block.Removed (op : Operation) (b : Block) : Prop :=
  (∃ tok specs, op = .replacePendingBlocks b.fileId tok specs ∧ b.status = .pending) ∨
    (∃ tok, op = .finishDownloaded b.fileId tok ∧ b.status ≠ .done)

inductive Job.Change (s : Store) : Operation → Job → Job → Prop where
  | kept : Change s op j j
  | started (queued : j.status = .queued) : Change s (.leaseInstall tok now mode) j { j with status := .running }
  | installed (here : j.id = job) (unfinished : j.Open) :
      Change s (.completeInstall job file tok none) j { j with status := .done }
  | finished (here : j.id = job) (unfinished : j.Open) :
      Change s (.finishJob job cause) j
        { j with status := if cause.isSome then .error else .done, lastError := cause.or j.lastError }
  | repoFailed (member : j.repoId = repo) (unfinished : j.Open) :
      Change s (.failRepo repo tok cause) j { j with status := .error, lastError := cause }
  | fileFailed (row : ∃ jf ∈ s.jobFiles, jf.fileId = file ∧ jf.status = .pending ∧ jf.jobId = j.id) (unfinished : j.Open) :
      Change s (.failJobFilesForFile file cause) j { j with status := .error, lastError := cause }

def Job.Added (op : Operation) (j : Job) : Prop := ∃ spec, op = .enqueueJob spec ∧ ∃ id repo, j = .fresh id repo spec

def Repo.Added (op : Operation) (r : Repo) : Prop :=
  ∃ spec, op = .enqueueJob spec ∧ ∃ id, r = .fresh id spec.repo.withDefaults

inductive JobFile.Change (s : Store) : Operation → JobFile → JobFile → Prop where
  | kept : Change s op jf jf
  | claimed (installable : s.Installable mode jf) :
      Change s (.leaseInstall tok now mode) jf { jf with toLease := .claim owner tok now, status := .installing }
  | installed (held : jf.Held job file tok) :
      Change s (.completeInstall job file tok err) jf
        { jf with toLease := .cleared, status := if err.isSome then .error else .done, lastError := err }
  | placed (here : jf.jobId = job) : Change s (.setJobFileDests job dests) jf { jf with destPath := some dest }
  | finished (here : jf.jobId = job) (pending : jf.status = .pending) :
      Change s (.finishJob job cause) jf
        { jf with status := if cause.isSome then .error else .done, lastError := cause.or jf.lastError }
  | failed (here : jf.fileId = file) (pending : jf.status = .pending) :
      Change s (.failJobFilesForFile file cause) jf { jf with status := .error, lastError := cause }
  | lapsed (installing : jf.status = .installing) (expired : jf.Expired now) :
      Change s (.recover now) jf { jf with toLease := .cleared, status := .pending }

/-- A listing associates its files with every job of the repository, a submission with its own job. -/
def JobFile.Added (s : Store) (op : Operation) (jf : JobFile) : Prop :=
  (∃ repo tok entries, op = .completeListing repo tok entries ∧
      ∃ j ∈ s.jobs, j.repoId = repo ∧ ∃ file, jf = .fresh j.id file) ∨
    ∃ job files, op = .ensureJobFiles job files ∧ ∃ file ∈ files, jf = .fresh job file

theorem File.Change.id {f f' : File} (changed : f.Change op f') : f'.id = f.id := by
  cases changed <;> rfl

theorem File.Change.repoId {f f' : File} (changed : f.Change op f') : f'.repoId = f.repoId := by
  cases changed <;> rfl

theorem File.Change.downloading {f f' : File} (changed : f.Change op f') (issued : op.Issued)
    (later : f'.status = .downloading) :
    (f.status = .downloading ∧ f'.leaseToken = f.leaseToken) ∨
      ∃ file tok now, op = .leaseFileForDownload file tok now ∧ f'.leaseToken = some tok := by
  cases changed with
  | leased => exact .inr ⟨_, _, _, rfl, rfl⟩
  | kept | saved | retried | renewed | relisted => exact .inl ⟨later, rfl⟩
  | moved => exact absurd later issued.target_free.1
  | salvaged waits => simp [waits] at later
  | lapsed expired edge =>
    obtain rfl := later
    simp [lapsedEdges] at edge
  | finished | verifying | verified | rejected | refetched | reused | diverted => cases later

theorem File.Change.downloaded {f f' : File} (changed : f.Change op f') (before : f.status = .downloading)
    (after : f'.status = .downloaded) :
    (∃ file tok cause now, op = .transitionFile file tok .downloading .downloaded cause now ∧ f.Owned file tok .downloading) ∨
      ∃ file tok, op = .finishDownloaded file tok ∧ f.Held file [.downloading] tok := by
  cases changed with
  | moved owned =>
    obtain rfl := owned.2.1.symm.trans before
    obtain rfl := after
    exact .inl ⟨_, _, _, _, rfl, owned⟩
  | finished held => exact .inr ⟨_, _, rfl, held⟩
  | kept | saved | retried | renewed | relisted => simp [before] at after
  | lapsed expired edge =>
    simp only at after
    rw [before, after] at edge
    exact absurd edge (by decide)
  | salvaged waits => simp [waits] at before
  | leased | verifying | verified | rejected | refetched | reused | diverted => cases after

theorem Block.Change.id {b b' : Block} (changed : b.Change s op b') : b'.id = b.id := by
  cases changed <;> rfl

theorem Block.Change.place {b b' : Block} (changed : b.Change s op b') :
    b'.fileId = b.fileId ∧ b'.offset = b.offset ∧ b'.length = b.length := by
  cases changed <;> exact ⟨rfl, rfl, rfl⟩

theorem Block.Change.unfinished {b b' : Block} (changed : b.Change s op b') (waits : b.status ≠ .done) :
    b'.status ≠ .done ∨ ∃ block tok, op = .completeBlock block tok ∧ b.Held block tok := by
  cases changed with
  | kept | renewed => exact .inl waits
  | completed held => exact .inr ⟨_, _, rfl, held⟩
  | leased | claimed | requeued | reset | swept => exact .inl nofun

namespace Operation
variable {s s' : Store}

/-- File rows are never removed. -/
abbrev EvolveFiles (op : Operation) (t t' : Table File File.id) : Prop :=
  Evolves (File.Change op) (File.Added op) (fun _ => False) t t'

theorem EvolveFiles.refl {t : Table File File.id} : EvolveFiles op t t := Evolves.refl fun _ => .kept

theorem evolveFiles_requeue {t : Table File File.id} (edge : (source, target) ∈ lapsedEdges) :
    EvolveFiles (.recover now) t (Store.requeueFiles now source target t) :=
  .update (fun _ => .kept) fun _ _ found => .lapsed found.2 (found.1 ▸ edge)

theorem change_recover_trans {a b c : File} (first : a.Change (.recover now) b) (second : b.Change (.recover now) c) :
    a.Change (.recover now) c := by
  cases first with
  | kept => exact second
  | lapsed expired edge =>
    cases second with
    | kept => exact .lapsed expired edge
    | lapsed again => simp [Lease.Expired, Lease.cleared] at again

theorem evolveFiles_recover : EvolveFiles (.recover now) s.files (s.recover now).2.files := by
  have not_added : ∀ {f : File}, ¬ f.Added (.recover now) := fun ⟨_, _, _, same, _⟩ => nomatch same
  have step : ∀ {t t' t'' : Table File File.id}, EvolveFiles (.recover now) t t' → EvolveFiles (.recover now) t' t'' →
      EvolveFiles (.recover now) t t'' := fun first second =>
    first.trans second change_recover_trans (fun new => absurd new not_added) fun _ gone => gone.elim
  exact step (step (evolveFiles_requeue (by decide)) (evolveFiles_requeue (by decide))) (evolveFiles_requeue (by decide))

theorem change_listing_trans {a b c : File} (first : a.Change (.completeListing repo tok entries) b)
    (second : b.Change (.completeListing repo tok entries) c) : a.Change (.completeListing repo tok entries) c := by
  cases first with
  | kept => exact second
  | relisted member listed path =>
    cases second with
    | kept => exact .relisted member listed path
    | relisted _ again same => exact .relisted member again (path.trans same)

theorem evolveFiles_upsert {t : Table File File.id} (listed : entry ∈ entries) :
    EvolveFiles (.completeListing repo tok entries) t (Store.upsertFile t repo entry).2 := by
  simp only [Store.upsertFile]
  split
  · rename_i f found
    have here := List.find?_some found
    simp only [decide_eq_true_eq] at here
    refine .update (fun _ => .kept) fun r stored same => ?_
    rw [Table.eq_of_key stored (List.mem_of_find?_eq_some found) same]
    exact .relisted here.1 listed here.2
  · exact .insert (fun _ => .kept) ⟨repo, tok, entries, rfl, entry, listed, _, rfl⟩

theorem claimBlock_frame (claimed : s.claimBlock block tok now = some (b, s')) : s' = { s with blocks := s'.blocks } := by
  simp only [Store.claimBlock] at claimed
  split at claimed
  · cases claimed
  split at claimed <;> cases claimed
  rfl

theorem claimBlocks_frame : (Store.claimBlocks n filter now candidates s taken).2 =
    { s with blocks := (Store.claimBlocks n filter now candidates s taken).2.blocks } := by
  induction candidates generalizing s taken with
  | nil => rfl
  | cons candidate rest ih =>
    simp only [Store.claimBlocks]
    split
    · rfl
    split
    · exact ih
    split
    · exact ih
    · rename_i claimed
      rw [ih, claimBlock_frame claimed]

abbrev EvolveRepos (op : Operation) (t t' : Table Repo Repo.id) : Prop :=
  Evolves (Repo.Change op) (Repo.Added op) (fun _ => False) t t'

abbrev EvolveJobs (s : Store) (op : Operation) (t t' : Table Job Job.id) : Prop :=
  Evolves (Job.Change s op) (Job.Added op) (fun _ => False) t t'

abbrev EvolveJobFiles (s : Store) (op : Operation) (t t' : Table JobFile JobFile.key) : Prop :=
  Evolves (JobFile.Change s op) (JobFile.Added s op) (fun _ => False) t t'

abbrev EvolveBlocks (s : Store) (op : Operation) (t t' : Table Block Block.id) : Prop :=
  Evolves (Block.Change s op) (Block.Added op) (Block.Removed op) t t'

theorem EvolveBlocks.refl {t : Table Block Block.id} : EvolveBlocks s op t t := Evolves.refl fun _ => .kept

theorem evolveBlocks_claim {start : Store}
    (claims : ∀ b : Block, b.id = block → b.status = .pending → start.Downloading b.fileId →
      b.Change start op { b with toLease := .claim s.owner tok now, status := .active })
    (same : s.files = start.files) (claimed : s.claimBlock block tok now = some (taken, s')) :
    EvolveBlocks start op s.blocks s'.blocks := by
  simp only [Store.claimBlock] at claimed
  split at claimed
  · cases claimed
  rename_i b found
  split at claimed
  · rename_i guard
    cases claimed
    obtain ⟨stored, here⟩ := Table.get_eq_some.mp found
    refine .update (fun _ => .kept) fun r stored' here' => ?_
    rw [Table.eq_of_key stored' stored (here'.trans here.symm)]
    refine claims b here guard.1 ?_
    have downloading := guard.2
    simpa only [Store.Downloading, same] using downloading
  · cases claimed

theorem change_lease_trans {a b c : Block} (first : a.Change s (.leaseBlocks n filter toks now) b)
    (second : b.Change s (.leaseBlocks n filter toks now) c) : a.Change s (.leaseBlocks n filter toks now) c := by
  cases first with
  | kept => exact second
  | leased pending downloading =>
    cases second with
    | kept => exact .leased pending downloading
    | leased again => cases again

theorem evolveBlocks_claims {start : Store} (same : s.files = start.files)
    (evolved : EvolveBlocks start (.leaseBlocks m filter' toks now) start.blocks s.blocks) :
    EvolveBlocks start (.leaseBlocks m filter' toks now) start.blocks
      (Store.claimBlocks n filter now candidates s taken).2.blocks := by
  induction candidates generalizing s taken with
  | nil => exact evolved
  | cons candidate rest ih =>
    simp only [Store.claimBlocks]
    split
    · exact evolved
    split
    · exact ih same evolved
    split
    · exact ih same evolved
    · rename_i claimed
      refine ih ((congrArg Store.files (claimBlock_frame claimed)).trans same) ?_
      refine evolved.trans (evolveBlocks_claim (fun b _ => .leased) same claimed) change_lease_trans ?_ ?_
      · rintro _ _ ⟨_, _, _, never, _⟩
        cases never
      · rintro _ _ _ (⟨_, _, never, _⟩ | ⟨_, never, _⟩) <;> cases never

theorem evolveBlocks_replace (done : s.replacePendingBlocks file tok specs = .ok s') :
    EvolveBlocks s (.replacePendingBlocks file tok specs) s.blocks s'.blocks := by
  obtain ⟨-, blocks, recut, rfl⟩ := Store.replacePendingBlocks_ok done
  refine ⟨fun b stored => ?_, fun b stored => ?_⟩
  · rcases recut.only b stored with kept | ⟨spec, cut, id, -, rfl⟩
    · exact .inl ⟨b, (Table.mem_delete.mp kept).1, .kept⟩
    · exact .inr ⟨file, tok, specs, rfl, spec, cut, id, rfl⟩
  · by_cases dropped : b.fileId = file ∧ b.status = .pending
    · exact .inr (.inl ⟨tok, specs, dropped.1 ▸ rfl, dropped.2⟩)
    · exact .inl ⟨b, recut.keeps b (Table.mem_delete.mpr ⟨stored, dropped⟩), .kept⟩

/-- The row changes of one committed operation, table by table. -/
structure Evolution (op : Operation) (s s' : Store) : Prop where
  repos : EvolveRepos op s.repos s'.repos
  jobs : EvolveJobs s op s.jobs s'.jobs
  files : EvolveFiles op s.files s'.files
  jobFiles : EvolveJobFiles s op s.jobFiles s'.jobFiles
  blocks : EvolveBlocks s op s.blocks s'.blocks
  references : EvolveReferences op s.references s'.references

theorem Evolution.refl : Evolution op s s :=
  ⟨.refl fun _ => .kept, .refl fun _ => .kept, .refl, .refl fun _ => .kept, .refl, .refl fun _ => .kept⟩

namespace Evolution

theorem guardFile {set : Setter File.id} (changed : ∀ f : File, f.Held file statuses tok → f.Change op (set f))
    (done : s.guardFile name file statuses tok set = .ok s') : Evolution op s s' := by
  obtain ⟨-, rfl⟩ := Store.guardFile_ok.mp done
  exact { refl (s := s) with files := .update (fun _ => .kept) fun f _ held => changed f held }

theorem moveFile {set : Setter File.id} (changed : ∀ f : File, f.In file statuses → f.Change op (set f))
    (done : s.moveFile name file statuses set = .ok s') : Evolution op s s' := by
  obtain ⟨-, rfl⟩ := Store.moveFile_ok.mp done
  exact { refl (s := s) with files := .update (fun _ => .kept) fun f _ held => changed f held }

theorem claimFile {set : Setter File.id} {offered : File → Prop} [DecidablePred offered]
    (changed : ∀ f : File, offered f → f.Change op (set f))
    (done : (s.claimFile name offered set).map (·.2) = .ok s') : Evolution op s s' := by
  obtain ⟨⟨f', after⟩, claimed, rfl⟩ := map_eq_ok.mp done
  obtain ⟨f, stored, offer, -, rfl⟩ := Store.claimFile_ok claimed
  refine { refl (s := s) with files := .update (fun _ => .kept) fun r stored' same => ?_ }
  rw [Table.eq_of_key stored' stored same]
  exact changed f offer

theorem guardRepo {set : Setter Repo.id} (changed : ∀ r : Repo, r.Held repo tok → r.Change op (set r))
    (done : s.guardRepo name repo tok set = .ok s') : Evolution op s s' := by
  obtain ⟨-, rfl⟩ := Store.guardRepo_ok.mp done
  exact { refl (s := s) with repos := .update (fun _ => .kept) fun r _ held => changed r held }

theorem guardBlock {set : Setter Block.id} (changed : ∀ b : Block, b.Held block tok → b.Change s op (set b))
    (done : s.guardBlock name block tok set = .ok s') : Evolution op s s' := by
  obtain ⟨-, rfl⟩ := Store.guardBlock_ok.mp done
  exact { refl (s := s) with blocks := .update (fun _ => .kept) fun b _ held => changed b held }

theorem failVerify (done : s.failVerify file tok cause = .ok s') : Evolution (.failVerify file tok cause) s s' := by
  obtain ⟨f, stored, held, ⟨bound, rfl⟩ | ⟨bound, rfl⟩⟩ := Store.failVerify_ok done
  · refine { refl (s := s) with files := .update (fun _ => .kept) fun r stored' held' => ?_ }
    rw [Table.eq_of_key stored' stored (held'.1.trans held.1.symm)]
    exact .rejected held bound
  · refine { refl (s := s) with
      files := .update (fun _ => .kept) fun r stored' held' => ?_
      blocks := .update (fun _ => .kept) fun _ _ here => .reset here }
    rw [Table.eq_of_key stored' stored (held'.1.trans held.1.symm)]
    exact .refetched held bound

theorem enqueueJob : Evolution (.enqueueJob spec) s (s.enqueueJob spec).2 := by
  simp only [Store.enqueueJob]
  split
  · exact { refl (s := s) with jobs := .insert (fun _ => .kept) ⟨spec, rfl, _, _, rfl⟩ }
  · exact { refl (s := s) with
      repos := .insert (fun _ => .kept) ⟨spec, rfl, _, rfl⟩
      jobs := .insert (fun _ => .kept) ⟨spec, rfl, _, _, rfl⟩ }

theorem leaseMeta (done : (s.leaseMeta tok now).map (·.2) = .ok s') : Evolution (.leaseMeta tok now) s s' := by
  obtain ⟨⟨r, after⟩, claimed, rfl⟩ := map_eq_ok.mp done
  simp only [Store.leaseMeta] at claimed
  split at claimed <;> cases claimed
  rename_i found
  obtain ⟨stored, pending, -⟩ := Table.mem_of_first found
  refine { refl (s := s) with repos := .update (fun _ => .kept) fun r stored' same => ?_ }
  rw [Table.eq_of_key stored' stored same]
  exact .leased pending

theorem leaseInstall (done : (s.leaseInstall tok now mode).map (·.2) = .ok s') : Evolution (.leaseInstall tok now mode) s s' := by
  obtain ⟨⟨jf, after⟩, claimed, rfl⟩ := map_eq_ok.mp done
  simp only [Store.leaseInstall] at claimed
  split at claimed <;> cases claimed
  rename_i found
  obtain ⟨stored, installable⟩ := Table.mem_of_first found
  refine { refl (s := s) with
    jobs := .update (fun _ => .kept) fun _ _ found => .started found.2
    jobFiles := .update (fun _ => .kept) fun r stored' same => ?_ }
  rw [Table.eq_of_key stored' stored same]
  exact .claimed installable

theorem completeInstall (done : s.completeInstall job file tok err = .ok s') :
    Evolution (.completeInstall job file tok err) s s' := by
  simp only [Store.completeInstall] at done
  rw [execGuarded_committed (k := (job, file)) fun jf held => Prod.ext held.1 held.2.1] at done
  obtain ⟨-, rfl⟩ := done
  refine { refl (s := s) with
    jobs := .ite (fun last => ?_) fun _ => .refl fun _ => .kept
    jobFiles := .update (fun _ => .kept) fun _ _ held => .installed held }
  cases err with
  | none => exact .update (fun _ => .kept) fun _ _ found => .installed found.1 found.2
  | some cause => simp at last

theorem ensureJobFiles {ids : List FileId} (done : s.ensureJobFiles job ids = .ok s') :
    Evolution (.ensureJobFiles job ids) s s' := by
  simp only [Store.ensureJobFiles] at done
  split at done <;> cases done
  refine { refl (s := s) with
    jobFiles :=
      foldl_invariant (P := fun t : Table JobFile JobFile.key => EvolveJobFiles s (.ensureJobFiles job ids) s.jobFiles t)
      (fun listed evolved => ?_) (.refl fun _ => .kept) }
  refine evolved.trans (.insert (fun _ => .kept) (.inr ⟨_, _, rfl, _, listed, rfl⟩)) ?_ ?_ fun _ gone => gone.elim
  · intro a b c first second
    cases second
    exact first
  · intro a b new changed
    cases changed
    exact new

theorem setJobFileDests (done : s.setJobFileDests job dests = .ok s') : Evolution (.setJobFileDests job dests) s s' := by
  simp only [Store.setJobFileDests] at done
  split at done <;> cases done
  refine { refl (s := s) with
    jobFiles := foldl_invariant
      (P := fun t : Table JobFile JobFile.key => EvolveJobFiles s (.setJobFileDests job dests) s.jobFiles t)
      (fun _ evolved => ?_) (.refl fun _ => .kept) }
  refine evolved.trans (.update (fun _ => .kept) fun jf _ here => .placed (congrArg Prod.fst here)) ?_ ?_ fun _ gone => gone.elim
  · intro a b c first second
    cases first with
    | kept => exact second
    | placed here =>
      cases second with
      | kept => exact .placed here
      | placed _ => exact .placed here
  · rintro a b (⟨_, _, _, never, _⟩ | ⟨_, _, never, _⟩) <;> cases never

theorem claimBlock (claimed : s.claimBlock block tok now = some (b, s')) : Evolution (.claimBlock block tok now) s s' := by
  have blocks : EvolveBlocks s (.claimBlock block tok now) s.blocks s'.blocks :=
    evolveBlocks_claim (fun b here => .claimed here) rfl claimed
  rw [claimBlock_frame claimed]
  exact { refl (s := s) with blocks := blocks }

theorem leaseBlocks : Evolution (.leaseBlocks n filter toks now) s (s.leaseBlocks n filter toks now).2 := by
  have blocks : EvolveBlocks s (.leaseBlocks n filter toks now) s.blocks (s.leaseBlocks n filter toks now).2.blocks :=
    evolveBlocks_claims rfl .refl
  rw [Store.leaseBlocks, claimBlocks_frame]
  exact { refl (s := s) with blocks := blocks }

theorem finishJob (done : s.finishJob job cause = .ok s') : Evolution (.finishJob job cause) s s' := by
  simp only [Store.finishJob] at done
  split at done <;> cases done
  exact { refl (s := s) with
    jobs := .update (fun _ => .kept) fun _ _ found => .finished found.1 found.2
    jobFiles := .update (fun _ => .kept) fun _ _ found => .finished found.1 found.2 }

theorem failRepo (done : s.failRepo repo tok cause = .ok s') : Evolution (.failRepo repo tok cause) s s' := by
  obtain ⟨after, guarded, rfl⟩ := map_eq_ok.mp done
  obtain ⟨-, rfl⟩ := Store.guardRepo_ok.mp guarded
  exact { refl (s := s) with
    repos := .update (fun _ => .kept) fun _ _ held => .failed held
    jobs := .update (fun _ => .kept) fun _ _ found => .repoFailed found.1 found.2 }

/-- One entry: every change it makes is one of the whole listing. -/
theorem persistEntry {start : Store} (listed : entry ∈ entries) (sameJobs : s.jobs = start.jobs)
    (evolved : Evolution (.completeListing repo tok entries) start s) :
    Evolution (.completeListing repo tok entries) start (Store.persistEntry repo s entry) := by
  refine { evolved with files := ?_, jobFiles := ?_ }
  · refine evolved.files.trans (evolveFiles_upsert listed) change_listing_trans ?_ fun _ gone => gone.elim
    rintro a b ⟨_, _, _, same, entry, listed, id, rfl⟩ changed
    cases same
    cases changed with
    | kept => exact ⟨_, _, _, rfl, entry, listed, id, rfl⟩
    | relisted _ again _ => exact ⟨_, _, _, rfl, _, again, id, rfl⟩
  · refine foldl_invariant
      (P := fun t : Table JobFile JobFile.key => EvolveJobFiles start (.completeListing repo tok entries) start.jobFiles t)
      (fun member evolved => ?_) evolved.jobFiles
    obtain ⟨stored, mine⟩ := List.mem_filter.mp member
    have stored : _ ∈ start.jobs := sameJobs ▸ stored
    refine evolved.trans (.insert (fun _ => .kept)
      (.inl ⟨repo, tok, entries, rfl, _, stored, of_decide_eq_true mine, _, rfl⟩)) ?_ ?_ fun _ gone => gone.elim
    · intro a b c first second
      cases second
      exact first
    · intro a b new changed
      cases changed
      exact new

theorem completeListing (done : s.completeListing repo tok entries = .ok s') :
    Evolution (.completeListing repo tok entries) s s' := by
  obtain ⟨after, guarded, rfl⟩ := map_eq_ok.mp done
  obtain ⟨-, rfl⟩ := Store.guardRepo_ok.mp guarded
  have persisted : ∀ start : Store, Evolution (.completeListing repo tok entries) s start ∧ start.jobs = s.jobs →
      Evolution (.completeListing repo tok entries) s (entries.foldl (Store.persistEntry repo) start) := fun start initial =>
    (foldl_invariant (P := fun after : Store => Evolution (.completeListing repo tok entries) s after ∧ after.jobs = s.jobs)
      (fun listed evolved => ⟨persistEntry listed evolved.2 evolved.1, evolved.2⟩) initial).1
  refine persisted _ ⟨?_, rfl⟩
  exact { refl (s := s) with repos := .update (fun _ => .kept) fun _ _ held => .listed held }

theorem renewLease (done : s.renewLease kind row tok expiry now = .ok s') :
    Evolution (.renewLease kind row tok expiry now) s s' := by
  cases kind with
  | repo =>
    obtain ⟨-, rfl⟩ := (execGuarded_committed fun _ held => held.1.1).mp done
    exact { refl (s := s) with repos := .update (fun _ => .kept) fun _ _ held => .renewed held.1 }
  | file =>
    obtain ⟨-, rfl⟩ := (execGuarded_committed fun _ held => held.1.1).mp done
    exact { refl (s := s) with files := .update (fun _ => .kept) fun _ _ held => .renewed held.1 }
  | block =>
    obtain ⟨-, rfl⟩ := (execGuarded_committed fun _ held => held.1.1).mp done
    exact { refl (s := s) with blocks := .update (fun _ => .kept) fun _ _ held => .renewed held.1 }
  | reference =>
    obtain ⟨-, rfl⟩ := (execGuarded_committed fun _ held => held.1.1).mp done
    exact { refl (s := s) with references := .update (fun _ => .kept) fun _ _ held => .renewed held.1 }

theorem recover : Evolution (.recover now) s (s.recover now).2 where
  repos := .update (fun _ => .kept) fun _ _ found => .lapsed found.1 found.2
  jobs := .refl fun _ => .kept
  files := evolveFiles_recover
  jobFiles := .update (fun _ => .kept) fun _ _ found => .lapsed found.1 found.2
  blocks := .update (fun _ => .kept) fun _ _ found => .swept found.1 found.2
  references := .update (fun _ => .kept) fun _ _ found => .lapsed found.1 found.2

theorem leaseReferenceHash (done : (s.leaseReferenceHash tok now).map (·.2) = .ok s') :
    Evolution (.leaseReferenceHash tok now) s s' := by
  obtain ⟨⟨r, after⟩, claimed, rfl⟩ := map_eq_ok.mp done
  simp only [Store.leaseReferenceHash] at claimed
  split at claimed <;> cases claimed
  rename_i found
  obtain ⟨stored, pending, -⟩ := Table.mem_of_first found
  refine { refl (s := s) with references := .update (fun _ => .kept) fun r stored' same => ?_ }
  rw [Table.eq_of_key stored' stored same]
  exact .leased pending

end Evolution

/-- What one committed call does to the rows. -/
theorem exec_evolution (done : exec s op = .ok s') : Evolution op s s' := by
  cases op with
  | reopen => cases done; exact { Evolution.refl (s := s) with }
  | enqueueJob => cases done; exact .enqueueJob
  | leaseMeta => exact .leaseMeta done
  | setCommitSHA => exact .guardRepo (fun _ held => .pinned held) done
  | completeListing => exact .completeListing done
  | leaseInstall => exact .leaseInstall done
  | completeInstall => exact .completeInstall done
  | ensureJobFiles => exact .ensureJobFiles done
  | setJobFileDests => exact .setJobFileDests done
  | finishJob => exact .finishJob done
  | failRepo => exact .failRepo done
  | failJobFilesForFile =>
    cases done
    exact { Evolution.refl (s := s) with
      jobs := .update (fun _ => .kept) fun _ _ found => .fileFailed found.1 found.2
      jobFiles := .update (fun _ => .kept) fun _ _ found => .failed found.1 found.2 }
  | deferMeta => exact .guardRepo (fun _ held => .deferred held) done
  | releaseMeta => exact .guardRepo (fun _ held => .released held) done
  | leaseFileForDownload => exact .moveFile (fun _ queued => .leased queued) done
  | transitionFile =>
    obtain ⟨-, -, -, rfl⟩ := Store.transitionFile_ok done
    exact { Evolution.refl (s := s) with files := .update (fun _ => .kept) fun _ _ owned => .moved owned }
  | finishDownloaded =>
    obtain ⟨-, rfl⟩ := Store.finishDownloaded_ok done
    exact { Evolution.refl (s := s) with
      files := .update (fun _ => .kept) fun _ _ held => .finished held
      blocks := .delete (fun _ => .kept) fun b _ dropped => .inr ⟨_, by rw [dropped.1], dropped.2⟩ }
  | saveProgress => exact .guardFile (fun _ held => .saved held) done
  | incrFileRetries =>
    obtain ⟨_, counted, rfl⟩ := map_eq_ok.mp done
    obtain ⟨_, guarded, rfl⟩ := map_eq_ok.mp counted
    exact .guardFile (fun _ held => .retried held) guarded
  | leaseVerify => exact .claimFile (fun _ downloaded => .verifying downloaded) done
  | completeVerify => exact .guardFile (fun _ held => .verified held) done
  | failVerify => exact .failVerify done
  | markCachedFromBlob => exact .moveFile (fun _ queued => .reused queued) done
  | leaseSalvage => exact .claimFile (fun _ offer => .salvaged offer.1 offer.2) done
  | markSalvaging => exact .moveFile (fun _ waits => .diverted waits) done
  | replacePendingBlocks =>
    have blocks := evolveBlocks_replace done
    obtain ⟨-, _, -, rfl⟩ := Store.replacePendingBlocks_ok done
    exact { Evolution.refl (s := s) with blocks := blocks }
  | leaseBlocks => cases done; exact .leaseBlocks
  | claimBlock block tok now =>
    cases done
    cases claimed : s.claimBlock block tok now with
    | none => exact .refl
    | some taken => exact .claimBlock claimed
  | requeueBlock =>
    obtain ⟨_, counted, rfl⟩ := map_eq_ok.mp done
    obtain ⟨_, guarded, rfl⟩ := map_eq_ok.mp counted
    exact .guardBlock (fun _ held => .requeued held) guarded
  | completeBlock =>
    obtain ⟨_, counted, rfl⟩ := map_eq_ok.mp done
    obtain ⟨_, guarded, rfl⟩ := map_eq_ok.mp counted
    exact .guardBlock (fun _ held => .completed held) guarded
  | renewLease => exact .renewLease done
  | recover => cases done; exact .recover
  | addReferenceFiles stats =>
    cases done
    exact { Evolution.refl (s := s) with references := evolveReferences_add s stats }
  | invalidateReference =>
    obtain ⟨-, rfl⟩ := (execGuarded_committed fun _ same => same).mp done
    exact { Evolution.refl (s := s) with references := .update (fun _ => .kept) fun _ _ here => .invalidated here }
  | completeReferenceHash =>
    obtain ⟨-, rfl⟩ := (execGuarded_committed fun _ held => held.1).mp done
    exact { Evolution.refl (s := s) with references := .update (fun _ => .kept) fun _ _ held => .hashed held }
  | leaseReferenceHash => exact .leaseReferenceHash done

theorem commit_changed (stored : f ∈ s.files) (stored' : f' ∈ (op.commit s).files) (same : f'.id = f.id)
    (moved : f'.status ≠ f.status) : ∃ s', op.exec s = .ok s' ∧ op.commit s = s' ∧ f.Change op f' := by
  simp only [commit] at stored' ⊢
  split at stored'
  · rename_i s' done
    rcases (exec_evolution done).files.kept f stored with ⟨f'', stored'', changed⟩ | gone
    · obtain rfl := Table.eq_of_key stored'' stored' (changed.id.trans same.symm)
      exact ⟨s', done, rfl, changed⟩
    · exact gone.elim
  · exact absurd (congrArg File.status (Table.eq_of_key stored' stored same)) moved

end Operation
end Hfdl
