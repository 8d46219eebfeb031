import Hfdl.Store.Attended
import Hfdl.Store.Fencing

/-! The sweep of expired leases over the five leasable tables, seen row by row: a stale row
goes back to the requeue point of its machine, every other row stays as it is, and whoever
held a swept row is fenced from then on. -/
namespace Hfdl
open Relational Transition

/-- The rows that carry a lease. -/
inductive RowKey where
  | repo (id : RepoId)
  | file (id : FileId)
  | block (id : BlockId)
  | jobFile (job : JobId) (file : FileId)
  | reference (id : ReferenceId)
deriving DecidableEq, Repr

/-- Where a status stands in its machine. -/
inductive RowPhase where
  | waiting | leased | terminal
deriving DecidableEq, Repr

def RepoStatus.phase : RepoStatus → RowPhase
  | .pending => .waiting
  | .listing => .leased
  | .listed | .error => .terminal

def FileStatus.phase : FileStatus → RowPhase
  | .discovered | .queued | .downloaded => .waiting
  | .downloading | .verifying | .salvaging => .leased
  | .cached | .error => .terminal

def BlockStatus.phase : BlockStatus → RowPhase
  | .pending => .waiting
  | .active => .leased
  | .done => .terminal

def JobFileStatus.phase : JobFileStatus → RowPhase
  | .pending => .waiting
  | .installing => .leased
  | .done | .error => .terminal

def ReferenceStatus.phase : ReferenceStatus → RowPhase
  | .pending => .waiting
  | .hashing => .leased
  | .hashed | .error => .terminal

theorem RepoStatus.phase_eq_leased {p : RepoStatus} : p.phase = .leased ↔ p = .listing := by
  cases p <;> simp [RepoStatus.phase]

theorem FileStatus.phase_eq_leased {p : FileStatus} : p.phase = .leased ↔ p ∈ [.downloading, .verifying, .salvaging] := by
  cases p <;> simp [FileStatus.phase]

theorem BlockStatus.phase_eq_leased {p : BlockStatus} : p.phase = .leased ↔ p = .active := by
  cases p <;> simp [BlockStatus.phase]

theorem JobFileStatus.phase_eq_leased {p : JobFileStatus} : p.phase = .leased ↔ p = .installing := by
  cases p <;> simp [JobFileStatus.phase]

theorem ReferenceStatus.phase_eq_leased {p : ReferenceStatus} : p.phase = .leased ↔ p = .hashing := by
  cases p <;> simp [ReferenceStatus.phase]

structure Row extends Lease where
  phase : RowPhase
deriving DecidableEq, Repr

namespace Store

def row (s : Store) : RowKey → Option Row
  | .repo id => (s.repos.get id).map fun r => ⟨r.toLease, r.status.phase⟩
  | .file id => (s.files.get id).map fun f => ⟨f.toLease, f.status.phase⟩
  | .block id => (s.blocks.get id).map fun b => ⟨b.toLease, b.status.phase⟩
  | .jobFile job file => (s.jobFiles.get (job, file)).map fun jf => ⟨jf.toLease, jf.status.phase⟩
  | .reference id => (s.references.get id).map fun r => ⟨r.toLease, r.status.phase⟩

def SameRow (s s' : Store) : RowKey → Prop
  | .repo id => s'.repos.get id = s.repos.get id
  | .file id => s'.files.get id = s.files.get id
  | .block id => s'.blocks.get id = s.blocks.get id
  | .jobFile job file => s'.jobFiles.get (job, file) = s.jobFiles.get (job, file)
  | .reference id => s'.references.get id = s.references.get id

def Orphaned (s : Store) (now : Time) : RowKey → Prop
  | .block id => ∃ b ∈ s.blocks.get id, b.status = .active ∧ s.Lapsed now b.fileId
  | _ => False

/-- The rows the sweep takes: a lease that ran out, or a block that goes with its file. -/
def Stale (s : Store) (now : Time) (key : RowKey) : Prop :=
  (∃ row ∈ s.row key, row.phase = .leased ∧ row.Expired now) ∨ s.Orphaned now key

theorem SameRow.row {s s' : Store} (same : s.SameRow s' key) : s'.row key = s.row key := by
  cases key <;> simp only [Store.row] <;> rw [show _ = _ from same]

variable {s : Store} {now : Time}

theorem get_swept {κ : Type v} [DecidableEq κ] {key : α → κ} {t : Table α key} {sel : α → Prop} [DecidablePred sel]
    {set : Setter key}
    {view : α → Row} {stale : α → Prop} (k : κ) (selects : ∀ r, sel r ↔ stale r)
    (requeued : ∀ r, view (set r) = ⟨.cleared, .waiting⟩) :
    ((∃ r ∈ t.get k, stale r) ∧ ((t.update sel set).get k).map view = some ⟨.cleared, .waiting⟩) ∨
      ((¬ ∃ r ∈ t.get k, stale r) ∧ (t.update sel set).get k = t.get k) := by
  rw [Table.get_update_eq]
  cases t.get k with
  | none => simp
  | some r =>
    by_cases selected : stale r
    · simp [selected, selects, requeued]
    · simp [selected, selects]

theorem exists_view {x : Option α} {view : α → Row} {p : Row → Prop} : (∃ row ∈ x.map view, p row) ↔ ∃ r ∈ x, p (view r) := by
  cases x <;> simp

theorem get_swept_lease {κ : Type v} [DecidableEq κ] {key : α → κ} {t : Table α key} {sel : α → Prop} [DecidablePred sel]
    {set : Setter key}
    {view : α → Row} (k : κ) (selects : ∀ r, sel r ↔ (view r).phase = .leased ∧ (view r).Expired now)
    (requeued : ∀ r, view (set r) = ⟨.cleared, .waiting⟩) :
    ((∃ row ∈ (t.get k).map view, row.phase = .leased ∧ row.Expired now) ∧
        ((t.update sel set).get k).map view = some ⟨.cleared, .waiting⟩) ∨
      ((¬ ∃ row ∈ (t.get k).map view, row.phase = .leased ∧ row.Expired now) ∧ (t.update sel set).get k = t.get k) := by
  rw [exists_view]
  exact get_swept k selects requeued

theorem stale_block (s : Store) (now : Time) (id : BlockId) :
    s.Stale now (.block id) ↔ ∃ b ∈ s.blocks.get id, b.status = .active ∧ (b.Expired now ∨ s.Lapsed now b.fileId) := by
  simp only [Stale, Store.row, exists_view, Orphaned, BlockStatus.phase_eq_leased]
  constructor
  · rintro (⟨b, found, active, expired⟩ | ⟨b, found, active, lapsed⟩)
    · exact ⟨b, found, active, .inl expired⟩
    · exact ⟨b, found, active, .inr lapsed⟩
  · rintro ⟨b, found, active, expired | lapsed⟩
    · exact .inl ⟨b, found, active, expired⟩
    · exact .inr ⟨b, found, active, lapsed⟩

theorem recover_file (s : Store) (now : Time) (id : FileId) :
    (∃ f ∈ s.files.get id, f.status.phase = .leased ∧ f.Expired now ∧
        ∃ target : FileStatus, target.phase = .waiting ∧
          (s.recover now).2.files.get id = some { f with toLease := .cleared, status := target }) ∨
      ((∀ f ∈ s.files.get id, ¬ (f.status.phase = .leased ∧ f.Expired now)) ∧
        (s.recover now).2.files.get id = s.files.get id) := by
  simp only [recover, requeueFiles, Table.get_update_eq]
  cases s.files.get id with
  | none => simp
  | some f =>
    by_cases expired : f.Expired now
    · by_cases leased : f.status.phase = .leased
      · refine .inl ⟨f, rfl, leased, expired, ?_⟩
        rw [FileStatus.phase_eq_leased] at leased
        simp only [List.mem_cons, List.not_mem_nil, or_false] at leased
        rcases leased with status | status | status
        · exact ⟨.queued, rfl, by simp [status, expired]⟩
        · exact ⟨.downloaded, rfl, by simp [status, expired]⟩
        · exact ⟨.queued, rfl, by simp [status, expired]⟩
      · refine .inr ⟨by simp [leased], ?_⟩
        simp only [FileStatus.phase_eq_leased, List.mem_cons, List.not_mem_nil, or_false, not_or] at leased
        simp [leased]
    · exact .inr ⟨by simp [expired], by simp [expired]⟩

/-- Each row is swept, and then waits without a lease, or is left as it was. -/
theorem recover_row (s : Store) (now : Time) (key : RowKey) :
    (s.Stale now key ∧ (s.recover now).2.row key = some ⟨.cleared, .waiting⟩) ∨
      (¬ s.Stale now key ∧ s.SameRow (s.recover now).2 key) := by
  cases key with
  | repo id =>
    simp only [Stale, Orphaned, or_false]
    exact get_swept_lease id (fun r => by rw [RepoStatus.phase_eq_leased]) fun r => rfl
  | file id =>
    simp only [Stale, Orphaned, or_false, Store.row, exists_view]
    rcases recover_file s now id with ⟨f, found, leased, expired, target, waits, after⟩ | ⟨fresh, after⟩
    · refine .inl ⟨⟨f, found, leased, expired⟩, ?_⟩
      rw [after, Option.map_some, waits]
    · apply Or.inr
      constructor
      · rintro ⟨f, found, stale⟩
        exact fresh f found stale
      · exact after
  | block id =>
    rw [stale_block]
    exact get_swept id (fun b => Iff.rfl) fun b => rfl
  | jobFile job file =>
    simp only [Stale, Orphaned, or_false]
    exact get_swept_lease (job, file) (fun jf => by rw [JobFileStatus.phase_eq_leased]) fun jf => rfl
  | reference id =>
    simp only [Stale, Orphaned, or_false]
    exact get_swept_lease id (fun r => by rw [ReferenceStatus.phase_eq_leased]) fun r => rfl

theorem not_stale_recover (s : Store) (now : Time) (key : RowKey) : ¬ (s.recover now).2.Stale now key := by
  have unlapsed (file : FileId) : ¬ (s.recover now).2.Lapsed now file := by
    rintro ⟨f, stored, rfl, downloading, expired⟩
    have found := Table.get_eq_some.mpr ⟨stored, rfl⟩
    rcases recover_file s now f.id with ⟨g, -, -, -, target, waits, after⟩ | ⟨fresh, after⟩
    · rw [found] at after
      cases after
      cases downloading
      cases waits
    · rw [found] at after
      exact fresh f after.symm ⟨by rw [downloading]; rfl, expired⟩
  rintro (⟨row, found, leased, expired⟩ | orphaned)
  · rcases recover_row s now key with ⟨-, after⟩ | ⟨fresh, same⟩
    · rw [after] at found
      cases found
      cases leased
    · rw [same.row] at found
      exact fresh (.inl ⟨row, found, leased, expired⟩)
  · cases key with
    | block id =>
      obtain ⟨b, -, -, lapsed⟩ := orphaned
      exact unlapsed _ lapsed
    | _ => exact orphaned

theorem recover_of_fresh (fresh : ∀ key, ¬ s.Stale now key) : s.recover now = (⟨0, 0, 0, 0, 0, 0, 0⟩, s) := by
  have repos : ∀ r ∈ s.repos, ¬ (r.status = .listing ∧ r.Expired now) := fun r stored stale =>
    fresh (.repo r.id) (.inl ⟨_, Option.map_eq_some_iff.mpr ⟨r, Table.get_eq_some.mpr ⟨stored, rfl⟩, rfl⟩,
      RepoStatus.phase_eq_leased.mpr stale.1, stale.2⟩)
  have files : ∀ status ∈ [FileStatus.downloading, .verifying, .salvaging], ∀ f ∈ s.files,
    ¬ (f.status = status ∧ f.Expired now) :=
    fun status listed f stored stale =>
      fresh (.file f.id) (.inl ⟨_, Option.map_eq_some_iff.mpr ⟨f, Table.get_eq_some.mpr ⟨stored, rfl⟩, rfl⟩,
        FileStatus.phase_eq_leased.mpr (stale.1 ▸ listed), stale.2⟩)
  have blocks : ∀ b ∈ s.blocks, ¬ (b.status = .active ∧ (b.Expired now ∨ s.Lapsed now b.fileId)) := fun b stored stale =>
    fresh (.block b.id) ((stale_block s now b.id).mpr ⟨b, Table.get_eq_some.mpr ⟨stored, rfl⟩, stale⟩)
  have jobFiles : ∀ jf ∈ s.jobFiles, ¬ (jf.status = .installing ∧ jf.Expired now) := fun jf stored stale =>
    fresh (.jobFile jf.jobId jf.fileId) (.inl ⟨_, Option.map_eq_some_iff.mpr ⟨jf, Table.get_eq_some.mpr ⟨stored, rfl⟩, rfl⟩,
      JobFileStatus.phase_eq_leased.mpr stale.1, stale.2⟩)
  have references : ∀ r ∈ s.references, ¬ (r.status = .hashing ∧ r.Expired now) := fun r stored stale =>
    fresh (.reference r.id) (.inl ⟨_, Option.map_eq_some_iff.mpr ⟨r, Table.get_eq_some.mpr ⟨stored, rfl⟩, rfl⟩,
      ReferenceStatus.phase_eq_leased.mpr stale.1, stale.2⟩)
  have downloading := files .downloading (by simp)
  have verifying := files .verifying (by simp)
  have salvaging := files .salvaging (by simp)
  simp only [recover, requeueFiles, Table.update_eq_self downloading, Table.update_eq_self verifying,
    Table.update_eq_self salvaging, Table.update_eq_self repos, Table.update_eq_self blocks, Table.update_eq_self jobFiles,
    Table.update_eq_self references, Table.count_eq_zero.mpr downloading, Table.count_eq_zero.mpr verifying,
    Table.count_eq_zero.mpr salvaging, Table.count_eq_zero.mpr repos, Table.count_eq_zero.mpr blocks,
    Table.count_eq_zero.mpr jobFiles, Table.count_eq_zero.mpr references]

/-- Live leases and finished rows are not stale, unless a block goes with its file. -/
theorem not_stale {row : Row} (found : s.row key = some row) (safe : row.Live now ∨ row.phase = .terminal)
    (attended : ¬ s.Orphaned now key) :
    ¬ s.Stale now key := by
  rintro (⟨other, found', leased, expired⟩ | orphaned)
  · obtain rfl : other = row := Option.some.inj (found'.symm.trans found)
    rcases safe with ⟨until_, here, later⟩ | terminal
    · obtain ⟨until', here', earlier⟩ := expired
      obtain rfl : until' = until_ := Option.some.inj (here'.symm.trans here)
      exact absurd later (Nat.not_lt.mpr earlier)
    · rw [terminal] at leased
      cases leased
  · exact attended orphaned

def token (s : Store) : RowKey → Option LeaseToken
  | .repo id => (s.repos.get id).bind (·.leaseToken)
  | .file id => (s.files.get id).bind (·.leaseToken)
  | .block id => (s.blocks.get id).bind (·.leaseToken)
  | .jobFile job file => (s.jobFiles.get (job, file)).bind (·.leaseToken)
  | .reference id => (s.references.get id).bind (·.leaseToken)

theorem token_of_row {row : Row} (found : s.row key = some row) : s.token key = row.leaseToken := by
  cases key <;> obtain ⟨_, stored, rfl⟩ := Option.map_eq_some_iff.mp found <;> rw [token, stored] <;> rfl

end Store

def Operation.Grants (tok : LeaseToken) : Operation → Prop
  | leaseMeta tok' _ | leaseInstall tok' _ _ | leaseFileForDownload _ tok' _ | leaseVerify tok' _ | leaseSalvage tok' _
  | claimBlock _ tok' _ | leaseReferenceHash tok' _ => tok' = tok
  | leaseBlocks _ _ toks _ => ∃ i, toks i = tok
  | _ => False

section
variable {op : Operation} {tok : LeaseToken}

theorem Repo.Change.token {r r' : Repo} (changed : r.Change op r') (ungranted : ¬ op.Grants tok) :
    r'.id = r.id ∧ (r'.leaseToken = some tok → r.leaseToken = some tok) := by
  cases changed with
  | leased => exact ⟨rfl, fun same => absurd (Option.some.inj same) ungranted⟩
  | listed | failed | deferred | released | lapsed => exact ⟨rfl, fun never => by cases never⟩
  | kept | pinned | renewed => exact ⟨rfl, fun same => same⟩

theorem File.Change.token {f f' : File} (changed : f.Change op f') (ungranted : ¬ op.Grants tok) :
    f'.id = f.id ∧ (f'.leaseToken = some tok → f.leaseToken = some tok) := by
  cases changed with
  | leased | verifying | salvaged => exact ⟨rfl, fun same => absurd (Option.some.inj same) ungranted⟩
  | moved | finished | verified | rejected | refetched | lapsed => exact ⟨rfl, fun never => by cases never⟩
  | kept | saved | retried | reused | diverted | renewed | relisted => exact ⟨rfl, fun same => same⟩

theorem JobFile.Change.token {jf jf' : JobFile} (changed : jf.Change s op jf') (ungranted : ¬ op.Grants tok) :
    jf'.key = jf.key ∧ (jf'.leaseToken = some tok → jf.leaseToken = some tok) := by
  cases changed with
  | claimed => exact ⟨rfl, fun same => absurd (Option.some.inj same) ungranted⟩
  | installed | lapsed => exact ⟨rfl, fun never => by cases never⟩
  | kept | placed | finished | failed => exact ⟨rfl, fun same => same⟩

theorem ReferenceFile.Change.token {r r' : ReferenceFile} (changed : r.Change op r') (ungranted : ¬ op.Grants tok) :
    r'.id = r.id ∧ (r'.leaseToken = some tok → r.leaseToken = some tok) := by
  cases changed with
  | leased => exact ⟨rfl, fun same => absurd (Option.some.inj same) ungranted⟩
  | hashed | lapsed | invalidated => exact ⟨rfl, fun never => by cases never⟩
  | kept | renewed | restated => exact ⟨rfl, fun same => same⟩

/-- The claims of one `leaseBlocks` are accounted for by their candidates, not here. -/
theorem Block.Change.token {b b' : Block} (changed : b.Change s op b') (ungranted : ¬ op.Grants tok)
    (single : ∀ n filter toks now, op ≠ .leaseBlocks n filter toks now) :
    b'.id = b.id ∧ (b'.leaseToken = some tok → b.leaseToken = some tok) := by
  cases changed with
  | leased => exact absurd rfl (single _ _ _ _)
  | claimed => exact ⟨rfl, fun same => absurd (Option.some.inj same) ungranted⟩
  | requeued | completed | reset | swept => exact ⟨rfl, fun never => by cases never⟩
  | kept | renewed => exact ⟨rfl, fun same => same⟩

theorem claimBlocks_token {s : Store} {block : BlockId} (others : ∀ c ∈ candidates, c.2 ≠ tok)
    (before : ∀ b ∈ s.blocks, b.id = block → b.leaseToken ≠ some tok) :
    ∀ b ∈ (Store.claimBlocks n filter now candidates s taken).2.blocks, b.id = block → b.leaseToken ≠ some tok := by
  induction candidates generalizing s taken with
  | nil => exact before
  | cons candidate rest ih =>
    have later : ∀ c ∈ rest, c.2 ≠ tok := fun c member => others c (List.mem_cons_of_mem _ member)
    simp only [Store.claimBlocks]
    split
    · exact before
    split
    · exact ih later before
    split
    · exact ih later before
    · rename_i claimed
      apply ih later
      have own : ¬ (Operation.claimBlock candidate.1.id candidate.2 now).Grants tok := others _ List.mem_cons_self
      apply (Operation.Evolution.claimBlock claimed).blocks.absent (fun changed => changed.token own (by simp)) _ before
      rintro b ⟨_, _, _, never, -⟩
      cases never

end

namespace Operation
variable {s s' : Store} {op : Operation} {tok : LeaseToken}

theorem get_token {κ : Type v} [DecidableEq κ] {tableKey : α → κ} {t : Table α tableKey} {held : α → Option LeaseToken} {k : κ} :
    (t.get k).bind held ≠ some tok ↔ ∀ r ∈ t, tableKey r = k → held r ≠ some tok := by
  constructor
  · intro other r stored here holds
    rw [Table.get_eq_some.mpr ⟨stored, here⟩] at other
    exact other holds
  · intro none_ found
    obtain ⟨r, stored, holds⟩ := Option.bind_eq_some_iff.mp found
    obtain ⟨stored, here⟩ := Table.get_eq_some.mp stored
    exact none_ r stored here holds

/-- A token comes back to a row only by a call that hands it out. -/
theorem exec_token (done : exec s op = .ok s') (ungranted : ¬ op.Grants tok) (other : s.token key ≠ some tok) :
    s'.token key ≠ some tok := by
  have evolved := exec_evolution done
  cases key with
  | repo id =>
    rw [Store.token, get_token] at other ⊢
    apply evolved.repos.absent (fun changed => changed.token ungranted) _ other
    rintro r ⟨_, -, _, rfl⟩ never
    cases never
  | file id =>
    rw [Store.token, get_token] at other ⊢
    apply evolved.files.absent (fun changed => changed.token ungranted) _ other
    rintro f ⟨_, _, _, -, _, -, _, rfl⟩ never
    cases never
  | block id =>
    rw [Store.token, get_token] at other ⊢
    by_cases batch : ∃ n filter toks now, op = .leaseBlocks n filter toks now
    · obtain ⟨n, filter, toks, now, rfl⟩ := batch
      cases done
      apply claimBlocks_token _ other
      intro c member same
      obtain ⟨i, _, rfl⟩ := List.mem_mapIdx.mp member
      exact ungranted ⟨i, same⟩
    · have single (n filter toks now) : op ≠ .leaseBlocks n filter toks now := fun same => batch ⟨n, filter, toks, now, same⟩
      apply evolved.blocks.absent (fun changed => changed.token ungranted single) _ other
      rintro b ⟨_, _, _, -, _, -, _, rfl⟩ never
      cases never
  | jobFile job file =>
    rw [Store.token, get_token] at other ⊢
    apply evolved.jobFiles.absent (fun changed => changed.token ungranted) _ other
    rintro jf (⟨_, _, _, -, _, -, -, _, rfl⟩ | ⟨_, _, -, _, -, rfl⟩) never <;> cases never
  | reference id =>
    rw [Store.token, get_token] at other ⊢
    apply (exec_evolution done).references.absent (fun changed => changed.token ungranted) _ other
    rintro r ⟨_, -, _, -, _, rfl⟩ never
    cases never

theorem run_token (ran : run next s ops = some s') (ungranted : ∀ op ∈ ops, ¬ op.Grants tok) (other : s.token key ≠ some tok) :
    s'.token key ≠ some tok := by
  induction ops generalizing s with
  | nil =>
    cases ran
    exact other
  | cons op ops ih =>
    obtain ⟨middle, stepped, rest⟩ := run_cons_some.mp ran
    obtain ⟨-, rfl⟩ := next_some.mp stepped
    refine ih rest (fun op member => ungranted op (List.mem_cons_of_mem _ member)) ?_
    exact commit_preserves other fun _ done => exec_token done (ungranted op List.mem_cons_self) other

def target : Operation → Option RowKey
  | setCommitSHA repo _ _ | completeListing repo _ _ | failRepo repo _ _ | deferMeta repo _ _ | releaseMeta repo _ _ _
  | renewLease .repo repo _ _ _ => some (.repo repo)
  | completeInstall job file _ _ => some (.jobFile job file)
  | finishDownloaded file _ | saveProgress file _ _ | incrFileRetries file _ | completeVerify file _ _ | failVerify file _ _
  | replacePendingBlocks file _ _ | transitionFile file _ _ _ _ _ | renewLease .file file _ _ _ => some (.file file)
  | requeueBlock block _ _ _ | completeBlock block _ | renewLease .block block _ _ _ => some (.block block)
  | completeReferenceHash id _ _ _ | renewLease .reference id _ _ _ => some (.reference id)
  | _ => none

theorem rowToken_of_target (aims : op.target = some key) : op.rowToken s = s.token key := by
  cases op
  case renewLease kind id tok expiry now => cases kind <;> cases aims <;> rfl
  all_goals cases aims
  all_goals rfl

end Operation

/-- The sweep at any time over any database: it takes exactly the stale rows, a second one finds nothing, and the former
holder of a swept row is fenced in every later state in which its token was not handed out anew. -/
theorem recover_exact (s : Store) (now : Time) :
    (∀ key row, (s.recover now).2.row key = some row → row.phase = .leased → ¬ row.Expired now) ∧
      (∀ file, s.Lapsed now file → (s.recover now).2.Unleased file) ∧
      (∀ key row, s.row key = some row → row.Live now ∨ row.phase = .terminal → ¬ s.Orphaned now key →
        s.SameRow (s.recover now).2 key) ∧
      (s.recover now).2.jobs = s.jobs ∧
      (s.recover now).2.recover now = (⟨0, 0, 0, 0, 0, 0, 0⟩, (s.recover now).2) ∧
      ∀ key tok, s.Stale now key → s.token key = some tok →
        ∀ ops s', run Operation.next (s.recover now).2 ops = some s' → (∀ op ∈ ops, ¬ op.Grants tok) →
          ∀ op : Operation, op.target = some key → op.presented = some (some tok) → ∃ e, op.exec s' = .error e ∧ e.IsFenced := by
  refine ⟨?_, fun file => Store.recover_unleased, ?_, rfl, Store.recover_of_fresh (s.not_stale_recover now), ?_⟩
  · intro key row found leased expired
    exact s.not_stale_recover now key (.inl ⟨row, found, leased, expired⟩)
  · intro key row found safe attended
    rcases s.recover_row now key with ⟨stale, -⟩ | ⟨-, same⟩
    · exact absurd stale (Store.not_stale found safe attended)
    · exact same
  · intro key tok stale held ops s' ran ungranted op aims asks
    have cleared : (s.recover now).2.token key ≠ some tok := by
      rcases s.recover_row now key with ⟨-, after⟩ | ⟨fresh, -⟩
      · rw [Store.token_of_row after]
        simp
      · exact absurd stale fresh
    apply Operation.exec_fenced_of_token asks
    rw [Operation.rowToken_of_target aims]
    exact Operation.run_token ran ungranted cleared

def staleListing : Store :=
  [Operation.enqueueJob wholeRepo, .leaseMeta "first" 0].foldl
    Operation.commit (Store.empty "process")

theorem recover_exact_listing :
    staleListing.Stale leaseDuration (.repo 1) ∧ (staleListing.recover leaseDuration).1.repos = 1 ∧
      (staleListing.recover leaseDuration).2.recover leaseDuration =
        (⟨0, 0, 0, 0, 0, 0, 0⟩, (staleListing.recover leaseDuration).2) ∧
      ∃ s', run Operation.next (staleListing.recover leaseDuration).2 [.leaseMeta "second" leaseDuration] = some s' ∧
        ∃ e, (Operation.completeListing 1 "first" []).exec s' = .error e ∧ e.IsFenced := by
  obtain ⟨-, -, -, -, again, fenced⟩ := recover_exact staleListing leaseDuration
  have stale : staleListing.Stale leaseDuration (.repo 1) :=
    .inl ⟨⟨.claim "process" "first" 0, .leased⟩, by decide, rfl, by decide⟩
  refine ⟨stale, by decide, again, _, rfl, ?_⟩
  exact fenced (.repo 1) "first" stale (by decide) [.leaseMeta "second" leaseDuration] _ rfl
    (by simp [Operation.Grants]) _ rfl rfl

end Hfdl
