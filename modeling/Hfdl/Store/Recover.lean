import Hfdl.Store.Blocks
import Hfdl.Store.Files
import Hfdl.Store.Jobs

/-! Lease heartbeats, the sweep that requeues expired leases, and the reference
files of whole-file salvage. -/
namespace Hfdl
open Relational

/-- The tables whose leases are heartbeated through a single id. -/
inductive LeaseKind where
  | repo | file | block | reference
deriving DecidableEq, Repr

/-- The `WHERE` clause of a reference mutation fenced by its hash lease. -/
def ReferenceFile.Held (id : ReferenceId) (tok : LeaseToken) (r : ReferenceFile) : Prop :=
  r.id = id ∧ r.status = .hashing ∧ r.leaseToken = some tok
deriving Decidable

/-- Rows requeued by `recover`, per queue. -/
structure RecoveryStats where
  repos : Nat
  files : Nat
  verifying : Nat
  salvaging : Nat
  blocks : Nat
  jobFiles : Nat
  references : Nat
deriving DecidableEq, Repr

structure ReferenceStat where
  path : String
  size : Int
  mtimeNs : Int
  dev : Nat
  ino : Nat
deriving DecidableEq, Repr

def ReferenceFile.fresh (id : ReferenceId) (stat : ReferenceStat) : ReferenceFile :=
  { Lease.cleared with
    id, path := stat.path, size := stat.size, mtimeNs := stat.mtimeNs, dev := stat.dev, ino := stat.ino
    status := .pending, sha256 := none, lastError := none }

namespace Store

/-- Only a live lease can be extended: `now` is the wall clock, `expiry` the requested end. -/
def renewLease (s : Store) (kind : LeaseKind) (id : Nat) (tok : LeaseToken) (expiry now : Time) :
    Except StoreError Store :=
  match kind with
  | .repo =>
    (execGuarded "renew lease" id s.repos (fun r => r.Held id tok ∧ r.Live now)
      ⟨fun r => { r with leaseUntil := some expiry }, fun _ => rfl⟩).map fun repos => { s with repos }
  | .file =>
    (execGuarded "renew lease" id s.files
      (fun f => f.Held id [.downloading, .salvaging, .verifying] tok ∧ f.Live now)
      ⟨fun f => { f with leaseUntil := some expiry }, fun _ => rfl⟩).map fun files => { s with files }
  | .block =>
    (execGuarded "renew lease" id s.blocks (fun b => b.Held id tok ∧ b.Live now)
      ⟨fun b => { b with leaseUntil := some expiry }, fun _ => rfl⟩).map fun blocks => { s with blocks }
  | .reference =>
    (execGuarded "renew lease" id s.references (fun r => r.Held id tok ∧ r.Live now)
      ⟨fun r => { r with leaseUntil := some expiry }, fun _ => rfl⟩).map fun references => { s with references }

def Lapsed (s : Store) (now : Time) (file : FileId) : Prop :=
  ∃ f ∈ s.files, f.id = file ∧ f.status = .downloading ∧ f.Expired now
deriving Decidable

/-- A file whose lease expired goes back to the requeue point of its status. -/
def requeueFiles (now : Time) (source target : FileStatus) (files : Table File File.id) : Table File File.id :=
  files.update (fun f => f.status = source ∧ f.Expired now)
    ⟨fun f => { f with toLease := .cleared, status := target }, fun _ => rfl⟩

/-- The block sweep comes first, while the lapsed files can still be seen as downloading. -/
def recover (s : Store) (now : Time) : RecoveryStats × Store :=
  let block := fun b : Block => b.status = .active ∧ (b.Expired now ∨ s.Lapsed now b.fileId)
  let repo := fun r : Repo => r.status = .listing ∧ r.Expired now
  let jobFile := fun jf : JobFile => jf.status = .installing ∧ jf.Expired now
  let reference := fun r : ReferenceFile => r.status = .hashing ∧ r.Expired now
  let verifying := requeueFiles now .downloading .queued s.files
  let salvaging := requeueFiles now .verifying .downloaded verifying
  ({ repos := s.repos.count repo
     files := s.files.count fun f => f.status = .downloading ∧ f.Expired now
     verifying := verifying.count fun f => f.status = .verifying ∧ f.Expired now
     salvaging := salvaging.count fun f => f.status = .salvaging ∧ f.Expired now
     blocks := s.blocks.count block
     jobFiles := s.jobFiles.count jobFile
     references := s.references.count reference },
   { s with
     blocks := s.blocks.update block
       ⟨fun b => { b with toLease := .cleared, status := .pending, availableAt := none }, fun _ => rfl⟩
     repos := s.repos.update repo ⟨fun r => { r with toLease := .cleared, status := .pending }, fun _ => rfl⟩
     files := requeueFiles now .salvaging .queued salvaging
     jobFiles := s.jobFiles.update jobFile ⟨fun jf => { jf with toLease := .cleared, status := .pending }, fun _ => rfl⟩
     references := s.references.update reference
       ⟨fun r => { r with toLease := .cleared, status := .pending }, fun _ => rfl⟩ })

/-- Upsert by path; the status and hash of a stored row are kept. -/
def addReference (references : Table ReferenceFile ReferenceFile.id) (stat : ReferenceStat) :
    Table ReferenceFile ReferenceFile.id :=
  if ∃ r ∈ references, r.path = stat.path then
    references.update (·.path = stat.path)
      ⟨fun r => { r with size := stat.size, mtimeNs := stat.mtimeNs, dev := stat.dev, ino := stat.ino }, fun _ => rfl⟩
  else references.insert (.fresh references.nextKey stat)

def addReferenceFiles (s : Store) (stats : List ReferenceStat) : Store :=
  { s with references := stats.foldl addReference s.references }

/-- Not fenced: the caller saw the file on disk change, whoever holds its lease. -/
def invalidateReference (s : Store) (id : ReferenceId) : Except StoreError Store :=
  (execGuarded "invalidate reference" id s.references (·.id = id)
    ⟨fun r => { r with toLease := .cleared, status := .pending, sha256 := none, lastError := none },
    fun _ => rfl⟩).map fun references => { s with references }

/-- A reference is read only when some file still to be fetched has its size. -/
def leaseReferenceHash (s : Store) (tok : LeaseToken) (now : Time) : Except StoreError (ReferenceFile × Store) :=
  match s.references.first (fun r => r.status = .pending ∧
      ∃ f ∈ s.files, f.size = r.size ∧ f.status ∈ [FileStatus.queued, .downloading, .salvaging]) (·.id < ·.id) with
  | none => .error (.noWork "lease reference hash")
  | some r =>
    let set : Setter ReferenceFile.id := ⟨fun r => { r with toLease := .claim s.owner tok now, status := .hashing }, fun _ => rfl⟩
    .ok (set r, { s with references := s.references.update (·.id = r.id) set })

def completeReferenceHash (s : Store) (id : ReferenceId) (tok : LeaseToken) (sha256 : String)
    (cause : Option String) : Except StoreError Store :=
  (execGuarded "complete reference hash" id s.references (ReferenceFile.Held id tok)
    ⟨fun r => { r with
      toLease := .cleared, status := if cause.isSome then .error else .hashed
      sha256 := if sha256 = "" then none else some sha256, lastError := cause }, fun _ => rfl⟩).map
    fun references => { s with references }

end Store
end Hfdl
