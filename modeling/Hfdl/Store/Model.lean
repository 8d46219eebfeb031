import Hfdl.Int64
import Hfdl.Relational.Transaction

/-! The state database: the rows of its leasable tables, the errors its methods
return and the guarded statement every fenced mutation goes through. A method
is a function from the store to either an error or the next store, so an error
rolls the whole transaction back. Column constraints live in the row types, key
distinctness in the tables. -/
namespace Hfdl
open Relational

abbrev RepoId := Nat
abbrev JobId := Nat
abbrev FileId := Nat
abbrev BlockId := Nat
abbrev ReferenceId := Nat

/-- Nanoseconds since the epoch. -/
abbrev Time := Nat

/-- Per-claim ULID; the empty string stands for a call without a token. -/
abbrev LeaseToken := String

abbrev Blob := List UInt8

inductive RepoStatus where
  | pending | listing | listed | error
deriving DecidableEq, Repr

inductive JobStatus where
  | queued | running | done | error
deriving DecidableEq, Repr

inductive FileStatus where
  | discovered | salvaging | queued | downloading | downloaded | verifying | cached | error
deriving DecidableEq, Repr

inductive JobFileStatus where
  | pending | installing | done | error
deriving DecidableEq, Repr

inductive BlockStatus where
  | pending | active | done
deriving DecidableEq, Repr

inductive ReferenceStatus where
  | pending | hashing | hashed | error
deriving DecidableEq, Repr

inductive DestMode where
  | cache | localDir
deriving DecidableEq, Repr

structure Lease where
  leaseOwner : Option String
  leaseToken : Option LeaseToken
  leaseUntil : Option Time
deriving DecidableEq, Repr

def leaseDuration : Time := 30 * second

def maxVerifyFails : Nat := 2

namespace Lease

def cleared : Lease := ⟨none, none, none⟩

def claim (owner : String) (tok : LeaseToken) (now : Time) : Lease :=
  ⟨some owner, some tok, some (now + leaseDuration)⟩

/-- `lease_until IS NOT NULL AND lease_until <= now`. -/
def Expired (now : Time) (l : Lease) : Prop := ∃ until_ ∈ l.leaseUntil, until_ ≤ now
deriving Decidable

/-- `lease_until IS NOT NULL AND lease_until > now`. -/
def Live (now : Time) (l : Lease) : Prop := ∃ until_ ∈ l.leaseUntil, now < until_
deriving Decidable

end Lease

/-- `available_at IS NULL OR available_at <= now`. -/
def Available (now : Time) (availableAt : Option Time) : Prop := ∀ t ∈ availableAt, t ≤ now
deriving Decidable

structure RepoKey where
  type : String
  name : String
  revision : String
  endpoint : String
deriving DecidableEq, Repr

structure Repo extends RepoKey, Lease where
  id : RepoId
  commitSHA : Option String
  status : RepoStatus
  retries : Nat
  lastError : Option String
  availableAt : Option Time
deriving DecidableEq, Repr

/-- A job's selection; no filenames means snapshot mode. -/
structure Selection where
  filenames : List String
  include_ : List String
  exclude : List String
deriving DecidableEq, Repr

structure Job extends Selection where
  id : JobId
  repoId : RepoId
  destMode : DestMode
  destDir : String
  status : JobStatus
  lastError : Option String
deriving DecidableEq, Repr

/-- The listing input persisted by `completeListing`. -/
structure FileEntry where
  path : String
  size : Int
  gitOID : String
  sha256 : String
  xetHash : String
  isLFS : Bool
deriving DecidableEq, Repr

structure File extends FileEntry, Lease where
  id : FileId
  repoId : RepoId
  status : FileStatus
  cachePath : Option String
  blockSize : Int
  conns : Nat
  progress : Option Blob
  progressVer : Nat
  retries : Nat
  verifyFails : Nat
  lastError : Option String
deriving DecidableEq, Repr

structure JobFile extends Lease where
  jobId : JobId
  fileId : FileId
  destPath : Option String
  status : JobFileStatus
  lastError : Option String
deriving DecidableEq, Repr

def JobFile.key (jf : JobFile) : JobId × FileId := (jf.jobId, jf.fileId)

structure Block extends Lease where
  id : BlockId
  fileId : FileId
  idx : Int
  offset : Int
  length : Int
  status : BlockStatus
  upstream : Option String
  retries : Nat
  lastError : Option String
  availableAt : Option Time
deriving DecidableEq, Repr

structure ReferenceFile extends Lease where
  id : ReferenceId
  path : String
  size : Int
  mtimeNs : Int
  dev : Nat
  ino : Nat
  status : ReferenceStatus
  sha256 : Option String
  lastError : Option String
deriving DecidableEq, Repr

/-- The open database: `owner` identifies the process that opened it. -/
structure Store where
  owner : String
  repos : Table Repo Repo.id
  jobs : Table Job Job.id
  files : Table File File.id
  jobFiles : Table JobFile JobFile.key
  blocks : Table Block Block.id
  references : Table ReferenceFile ReferenceFile.id
deriving DecidableEq

def Store.empty (owner : String) : Store := ⟨owner, .empty, .empty, .empty, .empty, .empty, .empty⟩

inductive StoreError where
  | fenced (op : String) (id : Nat)
  | noWork (op : String)
  | tokenlessEdge (id : FileId) (source target : FileStatus)
  | liveBlockLeases (id : FileId) (live : Nat)
  | blocksPending (id : FileId) (notDone : Nat)
  | jobNotLive (id : JobId)
  | noJobFile (job : JobId) (file : FileId)
  | constraint (op : String) (id : Nat)
deriving DecidableEq, Repr

/-- `errors.Is(err, ErrFenced)`. -/
def StoreError.IsFenced : StoreError → Prop
  | .fenced _ _ => True
  | _ => False

/-- A guarded `UPDATE`: it must change exactly one row. -/
def execGuarded {key : α → κ} (op : String) (id : Nat) (t : Table α key) (guard : α → Prop) [DecidablePred guard]
    (set : Setter key) : Except StoreError (Table α key) :=
  if t.count guard = 1 then .ok (t.update guard set) else .error (.fenced op id)

section
variable {key : α → κ} {t t' : Table α key} {guard : α → Prop} [DecidablePred guard] {set : Setter key} {id : Nat}

theorem execGuarded_ok :
    execGuarded op id t guard set = .ok t' ↔ t.count guard = 1 ∧ t' = t.update guard set := by
  simp only [execGuarded]
  split <;> simp_all [eq_comm]

/-- A guard that pins the key commits exactly when some row satisfies it. -/
theorem execGuarded_committed {commit : Table α key → β}
    (pinned : ∀ r, guard r → key r = k) :
    (execGuarded op id t guard set).map commit = .ok b ↔
      (∃ r ∈ t, guard r) ∧ b = commit (t.update guard set) := by
  rw [map_eq_ok]
  simp only [execGuarded_ok, Table.count_eq_one pinned, and_assoc, exists_and_left, exists_eq_left]
  rw [eq_comm]

theorem execGuarded_fenced (unmatched : ∀ r ∈ t, ¬ guard r) :
    execGuarded op id t guard set = .error (.fenced op id) := by
  simp [execGuarded, Table.count_eq_zero.mpr unmatched]

end
end Hfdl
