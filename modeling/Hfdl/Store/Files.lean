import Hfdl.Store.Model
import Mathlib.Data.List.Sort

/-! File methods of the store: the download, verify and salvage leases and every
transition of the file state machine. -/
namespace Hfdl
open Relational

/-- The `WHERE` clause of a file mutation fenced by a lease token. -/
def File.Held (id : FileId) (statuses : List FileStatus) (tok : LeaseToken) (f : File) : Prop :=
  f.id = id ∧ f.status ∈ statuses ∧ f.leaseToken = some tok
deriving Decidable

/-- The `WHERE` clause of an update that only checks the status. -/
def File.In (id : FileId) (statuses : List FileStatus) (f : File) : Prop := f.id = id ∧ f.status ∈ statuses
deriving Decidable

/-- A block as the scheduler cuts it, before it has a row. -/
structure BlockSpec where
  idx : Int
  offset : Int
  length : Int
deriving DecidableEq, Repr

def Block.fresh (id : BlockId) (file : FileId) (b : BlockSpec) : Block :=
  { Lease.cleared with
    id, fileId := file, idx := b.idx, offset := b.offset, length := b.length, status := .pending
    upstream := none, retries := 0, lastError := none, availableAt := none }

/-- The edges a `TransitionFile` call may drive without a token. -/
def tokenlessEdgeAllowed : FileStatus → FileStatus → Bool
  | .queued, .downloaded => true
  | .cached, .queued => true
  | _, _ => false

/-- The token column a transition's guard asks for: `NULL` for an empty token. -/
def guardToken (tok : LeaseToken) : Option LeaseToken := if tok = "" then none else some tok

/-- The `WHERE` clause of a file transition. -/
def File.Owned (id : FileId) (tok : LeaseToken) (source : FileStatus) (f : File) : Prop :=
  f.id = id ∧ f.status = source ∧ f.leaseToken = guardToken tok
deriving Decidable

namespace Store

/-- A file update fenced by a lease token. -/
def guardFile (s : Store) (op : String) (id : FileId) (statuses : List FileStatus) (tok : LeaseToken)
    (set : Setter File.id) : Except StoreError Store :=
  (execGuarded op id s.files (File.Held id statuses tok) set).map fun files => { s with files }

/-- A file update that only checks the status. -/
def moveFile (s : Store) (op : String) (id : FileId) (statuses : List FileStatus)
    (set : Setter File.id) : Except StoreError Store :=
  (execGuarded op id s.files (File.In id statuses) set).map fun files => { s with files }

/-- The claim of the oldest file that a `SELECT` offers. -/
def claimFile (s : Store) (op : String) (offered : File → Prop) [DecidablePred offered]
    (set : Setter File.id) : Except StoreError (File × Store) :=
  match s.files.first offered (·.id < ·.id) with
  | none => .error (.noWork op)
  | some f => .ok (set f, { s with files := s.files.update (·.id = f.id) set })

section
variable {s s' : Store} {id : FileId} {set : Setter File.id}

theorem guardFile_ok : s.guardFile op id statuses tok set = .ok s' ↔
    (∃ f ∈ s.files, f.Held id statuses tok) ∧
      s' = { s with files := s.files.update (File.Held id statuses tok) set } :=
  execGuarded_committed fun _ held => held.1

theorem guardFile_fenced (unheld : ∀ f ∈ s.files, ¬ f.Held id statuses tok) :
    s.guardFile op id statuses tok set = .error (.fenced op id) :=
  map_eq_error.mpr (execGuarded_fenced unheld)

theorem moveFile_ok : s.moveFile op id statuses set = .ok s' ↔
    (∃ f ∈ s.files, f.In id statuses) ∧ s' = { s with files := s.files.update (File.In id statuses) set } :=
  execGuarded_committed fun _ held => held.1

theorem claimFile_ok {offered : File → Prop} [DecidablePred offered]
    (claimed : s.claimFile op offered set = .ok (f', s')) :
    ∃ f ∈ s.files, offered f ∧ f' = set f ∧ s' = { s with files := s.files.update (·.id = f.id) set } := by
  simp only [claimFile] at claimed
  split at claimed
  · cases claimed
  · rename_i f found
    cases claimed
    obtain ⟨stored, offer⟩ := Table.mem_of_first found
    exact ⟨f, stored, offer, rfl, rfl⟩

end

def leaseFileForDownload (s : Store) (file : FileId) (tok : LeaseToken) (now : Time) : Except StoreError Store :=
  s.moveFile "lease file for download" file [.queued]
    ⟨fun f => { f with toLease := .claim s.owner tok now, status := .downloading }, fun _ => rfl⟩

theorem downloading_of_lease {s s' : Store} (leased : s.leaseFileForDownload file tok now = .ok s') (stored : f ∈ s'.files)
    (here : f.id = file) : f.status = .downloading := by
  obtain ⟨⟨f₁, known, queued⟩, rfl⟩ := moveFile_ok.mp leased
  obtain ⟨f₀, before, rfl⟩ := Table.mem_update.mp stored
  split
  · rfl
  · rename_i unmoved
    rw [if_neg unmoved] at here
    rw [Table.eq_of_key before known (here.trans queued.1.symm)] at unmoved
    exact absurd queued unmoved

def transitionFile (s : Store) (file : FileId) (tok : LeaseToken) (source target : FileStatus)
    (cause : Option String) (now : Time) : Except StoreError Store :=
  if tok = "" ∧ tokenlessEdgeAllowed source target = false then .error (.tokenlessEdge file source target)
  -- Ownership comes before the block checks: a fenced caller never learns the new owner's state.
  else if ¬ ∃ f ∈ s.files, f.Owned file tok source then .error (.fenced "transition file" file)
  else
    let live := s.blocks.count fun b => b.fileId = file ∧ b.status = .active ∧ b.Live now
    let notDone := s.blocks.count fun b => b.fileId = file ∧ b.status ≠ .done
    if (source = .downloading ∧ target = .downloaded) ∧ 0 < live then .error (.liveBlockLeases file live)
    else if (source = .downloading ∧ target = .downloaded) ∧ 0 < notDone then .error (.blocksPending file notDone)
    else
      (execGuarded "transition file" file s.files (File.Owned file tok source)
        ⟨fun f => { f with toLease := .cleared, status := target, lastError := cause }, fun _ => rfl⟩).map
        fun files => { s with files }

theorem transitionFile_ok {s s' : Store} (moved : s.transitionFile file tok source target cause now = .ok s') :
    (tok = "" → tokenlessEdgeAllowed source target = true) ∧ (∃ f ∈ s.files, f.Owned file tok source) ∧
      (source = .downloading → target = .downloaded → ∀ b ∈ s.blocks, b.fileId = file → b.status = .done) ∧
      s' = { s with
        files := s.files.update (File.Owned file tok source)
          ⟨fun f => { f with toLease := .cleared, status := target, lastError := cause }, fun _ => rfl⟩ } := by
  simp only [transitionFile] at moved
  split at moved
  · cases moved
  rename_i edge
  split at moved
  · cases moved
  split at moved
  · cases moved
  split at moved
  · cases moved
  rename_i finished
  rw [execGuarded_committed (fun _ owned => owned.1)] at moved
  refine ⟨fun empty => by simpa [empty] using edge, moved.1, ?_, moved.2⟩
  rintro rfl rfl b stored rfl
  have none_left : s.blocks.rows.countP (fun x => x.fileId = b.fileId ∧ x.status ≠ .done) = 0 := by
    simpa [Table.count] using finished
  simpa using List.countP_eq_zero.mp none_left b stored

theorem transitionFile_fenced {s : Store} (edge : tok = "" → tokenlessEdgeAllowed source target = true)
    (unowned : ∀ f ∈ s.files, ¬ f.Owned file tok source) :
    s.transitionFile file tok source target cause now = .error (.fenced "transition file" file) := by
  have allowed : ¬ (tok = "" ∧ tokenlessEdgeAllowed source target = false) := fun ⟨empty, refused⟩ => by
    rw [edge empty] at refused
    cases refused
  have absent : ¬ ∃ f ∈ s.files, f.Owned file tok source := fun ⟨f, stored, owned⟩ => unowned f stored owned
  rw [transitionFile, if_neg allowed, if_pos absent]

/-- The dropped rows carry no byte truth: the durable progress already covers the file. -/
def finishDownloaded (s : Store) (file : FileId) (tok : LeaseToken) : Except StoreError Store :=
  if ∃ f ∈ s.files, f.Held file [.downloading] tok then
    guardFile { s with blocks := s.blocks.delete fun b => b.fileId = file ∧ b.status ≠ .done }
      "finish downloaded" file [.downloading] tok
      ⟨fun f => { f with toLease := .cleared, status := .downloaded, lastError := none }, fun _ => rfl⟩
  else .error (.fenced "finish downloaded" file)

theorem finishDownloaded_ok {s s' : Store} (finished : s.finishDownloaded file tok = .ok s') :
    (∃ f ∈ s.files, f.Held file [.downloading] tok) ∧
      s' = { s with
        blocks := s.blocks.delete fun b => b.fileId = file ∧ b.status ≠ .done
        files := s.files.update (File.Held file [.downloading] tok)
          ⟨fun f => { f with toLease := .cleared, status := .downloaded, lastError := none }, fun _ => rfl⟩ } := by
  simp only [finishDownloaded] at finished
  split at finished
  · rename_i held
    exact ⟨held, (guardFile_ok.mp finished).2⟩
  · cases finished

def saveProgress (s : Store) (file : FileId) (tok : LeaseToken) (blob : Option Blob) : Except StoreError Store :=
  s.guardFile "save progress" file [.downloading, .salvaging] tok
    ⟨fun f => { f with progress := blob, progressVer := f.progressVer + 1 }, fun _ => rfl⟩

/-- No row is an error, a row without a blob is not. -/
def loadProgress (s : Store) (file : FileId) : Except StoreError (Option Blob) :=
  match s.files.get file with
  | none => .error (.noWork "load progress")
  | some f => .ok f.progress

def incrFileRetries (s : Store) (file : FileId) (tok : LeaseToken) : Except StoreError (Nat × Store) :=
  (s.guardFile "incr file retries" file [.downloading] tok ⟨fun f => { f with retries := f.retries + 1 }, fun _ => rfl⟩).map
    fun s => ((s.files.get file).elim 0 (·.retries), s)

/-- What a claim for verification writes. -/
def verifyClaim (s : Store) (tok : LeaseToken) (now : Time) : Setter File.id :=
  ⟨fun f => { f with toLease := .claim s.owner tok now, status := .verifying }, fun _ => rfl⟩

def leaseVerify (s : Store) (tok : LeaseToken) (now : Time) : Except StoreError (File × Store) :=
  s.claimFile "lease verify" (·.status = .downloaded) (s.verifyClaim tok now)

def completeVerify (s : Store) (file : FileId) (tok : LeaseToken) (cachePath : String) : Except StoreError Store :=
  s.guardFile "complete verify" file [.verifying] tok
    ⟨fun f => { f with toLease := .cleared, status := .cached, cachePath := some cachePath }, fun _ => rfl⟩

/-- Below the bound every block and the progress blob are dropped, since the failed bytes are untrusted. -/
def failVerify (s : Store) (file : FileId) (tok : LeaseToken) (cause : Option String) : Except StoreError Store := do
  let s ← s.guardFile "fail verify" file [.verifying] tok
    ⟨fun f => { f with verifyFails := f.verifyFails + 1, lastError := cause }, fun _ => rfl⟩
  if maxVerifyFails ≤ (s.files.get file).elim 0 (·.verifyFails) then
    s.guardFile "fail verify (terminal)" file [.verifying] tok
      ⟨fun f => { f with toLease := .cleared, status := .error }, fun _ => rfl⟩
  else
    guardFile { s with
      blocks := s.blocks.update (·.fileId = file)
        ⟨fun b => { b with toLease := .cleared, status := .pending, upstream := none, availableAt := none },
        fun _ => rfl⟩ }
      "fail verify (requeue)" file [.verifying] tok
      ⟨fun f => { f with
        toLease := .cleared, status := .queued, progress := none, progressVer := f.progressVer + 1 }, fun _ => rfl⟩

theorem failVerify_ok {s s' : Store} (failed : s.failVerify file tok cause = .ok s') :
    ∃ f ∈ s.files, f.Held file [.verifying] tok ∧
      (maxVerifyFails ≤ f.verifyFails + 1 ∧
          s' = { s with
            files := s.files.update (File.Held file [.verifying] tok)
              ⟨fun f => { f with
                toLease := .cleared, status := .error, verifyFails := f.verifyFails + 1, lastError := cause },
              fun _ => rfl⟩ } ∨
        f.verifyFails + 1 < maxVerifyFails ∧
          s' = { s with
            blocks := s.blocks.update (·.fileId = file)
              ⟨fun b => { b with toLease := .cleared, status := .pending, upstream := none, availableAt := none },
              fun _ => rfl⟩
            files := s.files.update (File.Held file [.verifying] tok)
              ⟨fun f => { f with
                toLease := .cleared, status := .queued, progress := none, progressVer := f.progressVer + 1
                verifyFails := f.verifyFails + 1, lastError := cause }, fun _ => rfl⟩ }) := by
  simp only [failVerify, bind_eq_ok, guardFile_ok] at failed
  obtain ⟨counted, ⟨⟨f, stored, held⟩, rfl⟩, rest⟩ := failed
  refine ⟨f, stored, held, ?_⟩
  have fails : (Table.get (s.files.update (File.Held file [.verifying] tok)
      ⟨fun f => { f with verifyFails := f.verifyFails + 1, lastError := cause }, fun _ => rfl⟩) file).elim 0
        (·.verifyFails) = f.verifyFails + 1 := by
    rw [Table.get_eq_some.mpr ⟨Table.mem_update.mpr ⟨f, stored, (if_pos held).symm⟩, held.1⟩]
    rfl
  have still_held : ∀ f : File, f.Held file [.verifying] tok →
      { f with verifyFails := f.verifyFails + 1, lastError := cause }.Held file [.verifying] tok := fun _ held => held
  rw [fails] at rest
  split at rest
  · rename_i terminal
    refine .inl ⟨terminal, ?_⟩
    rw [(guardFile_ok.mp rest).2, Table.update_update still_held]
    rfl
  · rename_i again
    refine .inr ⟨by omega, ?_⟩
    rw [(guardFile_ok.mp rest).2, Table.update_update still_held]
    rfl

def markCachedFromBlob (s : Store) (file : FileId) (cachePath : String) : Except StoreError Store :=
  s.moveFile "mark cached from blob" file [.queued]
    ⟨fun f => { f with status := .cached, cachePath := some cachePath }, fun _ => rfl⟩

/-- The status stays salvaging, so that completion still goes through the verifier. -/
def leaseSalvage (s : Store) (tok : LeaseToken) (now : Time) : Except StoreError (File × Store) :=
  s.claimFile "lease salvage" (fun f => f.status = .salvaging ∧ ¬ f.Live now)
    ⟨fun f => { f with toLease := .claim s.owner tok now }, fun _ => rfl⟩

def markSalvaging (s : Store) (file : FileId) : Except StoreError Store :=
  s.moveFile "mark salvaging" file [.discovered, .queued] ⟨fun f => { f with status := .salvaging }, fun _ => rfl⟩

/-- The insertion of one re-cut block; a taken index violates `UNIQUE (file_id, idx)`. -/
def insertBlock (file : FileId) (blocks : Table Block Block.id) (b : BlockSpec) :
    Except StoreError (Table Block Block.id) :=
  if ∃ old ∈ blocks, old.fileId = file ∧ old.idx = b.idx then .error (.constraint "replace pending blocks" file)
  else .ok (blocks.insert (.fresh blocks.nextKey file b))

def replacePendingBlocks (s : Store) (file : FileId) (tok : LeaseToken) (blocks : List BlockSpec) :
    Except StoreError Store :=
  if ∃ f ∈ s.files, f.Held file [.downloading] tok then
    (blocks.foldlM (insertBlock file) (s.blocks.delete fun b => b.fileId = file ∧ b.status = .pending)).map
      fun blocks => { s with blocks }
  else .error (.fenced "replace pending blocks" file)

/-- What a committed re-chunking leaves: the kept rows and a fresh pending row for every cut block. -/
structure Recut (file : FileId) (specs : List BlockSpec) (kept after : Table Block Block.id) : Prop where
  keeps : ∀ b ∈ kept, b ∈ after
  cut : ∀ spec ∈ specs, ∃ id, Block.fresh id file spec ∈ after
  only : ∀ b ∈ after, b ∈ kept ∨ ∃ spec ∈ specs, ∃ id, (∀ old ∈ kept, old.id ≠ id) ∧ b = .fresh id file spec

theorem insertBlocks_recut {specs : List BlockSpec} {blocks blocks' : Table Block Block.id}
    (inserted : specs.foldlM (insertBlock file) blocks = .ok blocks') :
    Recut file specs blocks blocks' := by
  induction specs generalizing blocks with
  | nil =>
    cases inserted
    exact ⟨fun _ stored => stored, fun _ absurd => (List.not_mem_nil absurd).elim, fun _ stored => .inl stored⟩
  | cons spec specs ih =>
    rw [List.foldlM_cons, bind_eq_ok] at inserted
    obtain ⟨middle, first, rest⟩ := inserted
    simp only [insertBlock] at first
    split at first
    · cases first
    cases first
    have tail := ih rest
    have added : ∀ b, b ∈ blocks.insert (.fresh blocks.nextKey file spec) ↔
        b ∈ blocks ∨ b = .fresh blocks.nextKey file spec := fun b => Table.mem_insert_fresh rfl
    refine ⟨fun b stored => tail.keeps b ((added b).mpr (.inl stored)), ?_, ?_⟩
    · intro spec' inside
      rcases List.mem_cons.mp inside with rfl | inside
      · exact ⟨_, tail.keeps _ ((added _).mpr (.inr rfl))⟩
      · exact tail.cut spec' inside
    · intro b stored
      rcases tail.only b stored with before | ⟨spec', inside, id, unused, rfl⟩
      · rcases (added b).mp before with before | rfl
        · exact .inl before
        · refine .inr ⟨spec, List.mem_cons_self, _, fun old stored => ?_, rfl⟩
          exact Nat.ne_of_lt (Table.key_lt_nextKey stored)
      · exact .inr ⟨spec', List.mem_cons_of_mem _ inside, id,
          fun old stored => unused old ((added old).mpr (.inl stored)), rfl⟩

theorem replacePendingBlocks_ok {s s' : Store} (replaced : s.replacePendingBlocks file tok specs = .ok s') :
    (∃ f ∈ s.files, f.Held file [.downloading] tok) ∧
      ∃ blocks, Recut file specs (s.blocks.delete fun b => b.fileId = file ∧ b.status = .pending) blocks ∧
        s' = { s with blocks } := by
  simp only [replacePendingBlocks] at replaced
  split at replaced
  · rename_i held
    obtain ⟨blocks, inserted, rfl⟩ := map_eq_ok.mp replaced
    exact ⟨held, blocks, insertBlocks_recut inserted, rfl⟩
  · cases replaced

end Store
end Hfdl
