import Hfdl.Inode
import Hfdl.Sched.Forcing

/-! The verification of a downloaded file, with its staging path and the blob it is published as. Every fsync, the
hash, the link, the removal of the staging path and each store call is a step, and the process may stop between any
two of them. -/
namespace Hfdl
open Relational Transition

/-- The bytes of a file now and after a power loss. -/
structure StagedFile where
  current : List UInt8
  durable : List UInt8
deriving DecidableEq

namespace StagedFile

def empty : StagedFile := ⟨[], []⟩

/-- Allocation extends a file with zeros and never cuts it. -/
def allocate (i : StagedFile) (size : Int) : StagedFile :=
  { i with current := i.current ++ List.replicate (size.toNat - i.current.length) 0 }

def sync (i : StagedFile) : StagedFile := { i with durable := i.current }

/-- What the cache has not written back yet may reach the disk in any part. -/
def flush (i : StagedFile) (bytes : List UInt8) : StagedFile := if i.current = i.durable then i else { i with durable := bytes }

def lose (i : StagedFile) : StagedFile := { i with current := i.durable }

def Settled (i : StagedFile) (size : Int) : Prop := i.durable = i.current ∧ size.toNat ≤ i.current.length
deriving Decidable

variable {i : StagedFile}

theorem Settled.allocate (settled : i.Settled size) : i.allocate size = i := by
  have none_missing : size.toNat - i.current.length = 0 := Nat.sub_eq_zero_of_le settled.2
  simp only [StagedFile.allocate, none_missing, List.replicate_zero, List.append_nil]

theorem Settled.sync (settled : i.Settled size) : i.sync = i :=
  congrArg (StagedFile.mk i.current) settled.1.symm

theorem Settled.flush (settled : i.Settled size) : i.flush bytes = i := if_pos settled.1.symm

theorem Settled.lose (settled : i.Settled size) : i.lose = i :=
  congrArg (StagedFile.mk · i.durable) settled.1

theorem length_allocate : (i.allocate size).current.length = max i.current.length size.toNat := by
  simp only [allocate, List.length_append, List.length_replicate]
  omega

theorem length_flush : (i.flush bytes).current.length = i.current.length := by
  simp only [flush]
  split <;> rfl

end StagedFile

namespace File.Change
variable {f f' : File}

theorem under_verification (changed : f.Change op f') (issued : op.Issued) (later : f'.status = .verifying) :
    (f.status = .verifying ∧ f'.leaseToken = f.leaseToken) ∨
      ∃ tok now, op = .leaseVerify tok now ∧ f'.leaseToken = some tok := by
  cases changed with
  | kept | saved | retried | renewed | relisted => exact .inl ⟨later, rfl⟩
  | verifying => exact .inr ⟨_, _, rfl, rfl⟩
  | moved => exact absurd later issued.target_free.2
  | salvaged waits => simp [waits] at later
  | lapsed expired edge =>
    obtain rfl := later
    simp [lapsedEdges] at edge
  | leased | finished | verified | rejected | refetched | reused | diverted => cases later

theorem complete (changed : f.Change op f') (issued : op.Issued)
    (before : f.status = .downloaded ∨ f.status = .verifying ∨ f.status = .cached) :
    (∃ tok cause, op = .failVerify f.id tok cause ∧ f.status = .verifying ∧ f.leaseToken = some tok) ∨
      (∃ tok cause now, op = .transitionFile f.id tok .cached .queued cause now) ∨
      f'.verifyFails = f.verifyFails ∧
        (f'.status = f.status ∧ f'.leaseToken = f.leaseToken ∨
          f.status = .downloaded ∧ f'.status = .verifying ∨
          f.status = .verifying ∧ f'.status = .cached ∨
          f.status = .verifying ∧ f'.status = .downloaded ∧
            ((∃ now, op = .recover now ∧ f.Expired now) ∨
              ∃ tok cause now, op = .transitionFile f.id tok .verifying .downloaded cause now ∧ f.leaseToken = some tok)) := by
  cases changed with
  | kept | saved | retried | renewed | relisted => exact .inr (.inr ⟨rfl, .inl ⟨rfl, rfl⟩⟩)
  | verifying downloaded => exact .inr (.inr ⟨rfl, .inr (.inl ⟨downloaded, rfl⟩)⟩)
  | verified held => exact .inr (.inr ⟨rfl, .inr (.inr (.inl ⟨List.mem_singleton.mp held.2.1, rfl⟩))⟩)
  | rejected held | refetched held =>
    obtain ⟨rfl, status, token⟩ := held
    exact .inl ⟨_, _, rfl, List.mem_singleton.mp status, token⟩
  | @moved _ tok _ target cause now _ owned =>
    obtain ⟨rfl, rfl, token⟩ := owned
    rcases before with status | status | status <;> rw [status] at issued
    · have edge := issued.edge
      simp [leasedEdges] at edge
    · have named : tok ≠ "" := by
        rintro rfl
        simp [Operation.Issued, tokenlessEdgeAllowed] at issued
      obtain rfl : target = .downloaded := by simpa [leasedEdges] using issued.edge
      rw [status]
      exact .inr (.inr ⟨rfl, .inr (.inr (.inr ⟨rfl, rfl, .inr ⟨_, _, _, rfl, token.trans (if_neg named)⟩⟩))⟩)
    · obtain rfl : target = .queued := by simpa [leasedEdges] using issued.edge
      rw [status]
      exact .inr (.inl ⟨_, _, _, rfl⟩)
  | lapsed expired edge =>
    rename_i target now
    rcases before with status | status | status <;> rw [status] at edge
    · simp [lapsedEdges] at edge
    · obtain rfl : target = .downloaded := by simpa [lapsedEdges] using edge
      exact .inr (.inr ⟨rfl, .inr (.inr (.inr ⟨status, rfl, .inl ⟨_, rfl, expired⟩⟩))⟩)
    · simp [lapsedEdges] at edge
  | leased waits | finished waits | reused waits | diverted waits =>
    have idle := waits.2
    rcases before with status | status | status <;> simp [status] at idle
  | salvaged waits => rcases before with status | status | status <;> simp [status] at waits

end File.Change

/-- The rest of `tryVerify`; an opened staging file is known by its number. -/
inductive VerifyPhase where
  | leased
  | opened (number : Nat)
  | synced (number : Nat)
  | dense (number : Nat)
  | settled (number : Nat)
  | matched
  | mismatched
  | linked (duplicate : Bool)
  | removed
deriving DecidableEq

/-- The failures before the hash do not count against the file. -/
def VerifyPhase.Unhashed : VerifyPhase → Prop
  | .leased | .opened _ | .synced _ | .dense _ | .settled _ => True
  | .matched | .mismatched | .linked _ | .removed => False

instance : DecidablePred VerifyPhase.Unhashed
  | .leased | .opened _ | .synced _ | .dense _ | .settled _ => isTrue trivial
  | .matched | .mismatched | .linked _ | .removed => isFalse id

structure VerifyTask where
  file : File
  phase : VerifyPhase

structure Verifying extends Links FileId StagedFile where
  store : Store
  blobs : String → Option (FileId × Nat)
  tasks : LeaseToken → Option VerifyTask

namespace Verifying

/-- Downloads and salvages are the writers: they open the staging path and change what they have opened. -/
inductive Event where
  | call (op : Operation)
  | stage (file : FileId)
  | write (file : FileId) (number : Nat) (bytes : List UInt8)
  | flush (file : FileId) (number : Nat) (bytes : List UInt8)
  | lease (tok : LeaseToken) (now : Time)
  | openPath (tok : LeaseToken)
  | sync (tok : LeaseToken)
  | deSparse (tok : LeaseToken)
  | hash (tok : LeaseToken)
  | retry (tok : LeaseToken) (cause : Option String) (now : Time)
  | charge (tok : LeaseToken) (cause : Option String)
  | link (tok : LeaseToken)
  | remove (tok : LeaseToken)
  | complete (tok : LeaseToken) (cachePath : String)
  | leave (tok : LeaseToken)
  | crash (powerLoss : Bool)

/-- The calls that only a verification makes. -/
def Reserved : Operation → Bool
  | .leaseVerify .. | .completeVerify .. | .failVerify .. => true
  | .transitionFile _ _ source _ _ _ => source = .verifying
  | _ => false

def assign (d : Verifying) (tok : LeaseToken) (f : File) (phase : VerifyPhase) : Verifying :=
  { d with tasks := Function.update d.tasks tok (some ⟨f, phase⟩) }

def release (d : Verifying) (tok : LeaseToken) : Verifying := { d with tasks := Function.update d.tasks tok none }

def modify (d : Verifying) (file : FileId) (number : Nat) (change : StagedFile → StagedFile) : Verifying :=
  { d with toLinks := d.toLinks.modify file number change }

def openStaging (d : Verifying) (file : FileId) : Verifying × Nat :=
  let (links, number) := d.toLinks.openPath file .empty
  ({ d with toLinks := links }, number)

/-- The hash reads the whole file; `agrees` compares it with the blob id of the entry. -/
def next (agrees : FileEntry → List UInt8 → Bool) (d : Verifying) : Event → Option Verifying
  | .call op => if op.Issued ∧ ¬ Reserved op then some { d with store := op.commit d.store } else none
  | .stage file => some (d.openStaging file).1
  | .write file number bytes => some (d.modify file number fun i => { i with current := bytes })
  | .flush file number bytes => some (d.modify file number (·.flush bytes))
  | .lease tok now =>
    match d.tasks tok, d.store.leaseVerify tok now with
    | none, .ok (f, store) => some ({ d with store }.assign tok f .leased)
    | _, _ => none
  | .openPath tok =>
    match d.tasks tok with
    | some ⟨f, .leased⟩ => some ((d.openStaging f.id).1.assign tok f (.opened (d.openStaging f.id).2))
    | _ => none
  | .sync tok =>
    match d.tasks tok with
    | some ⟨f, .opened number⟩ => some ((d.modify f.id number StagedFile.sync).assign tok f (.synced number))
    | some ⟨f, .dense number⟩ => some ((d.modify f.id number StagedFile.sync).assign tok f (.settled number))
    | _ => none
  | .deSparse tok =>
    match d.tasks tok with
    | some ⟨f, .synced number⟩ => some ((d.modify f.id number (·.allocate f.size)).assign tok f (.dense number))
    | _ => none
  | .hash tok =>
    match d.tasks tok with
    | some ⟨f, .settled number⟩ =>
      some (d.assign tok f (if agrees f.toFileEntry (d.inodes f.id number).current then .matched else .mismatched))
    | _ => none
  | .retry tok cause now =>
    match d.tasks tok with
    | some ⟨f, phase⟩ =>
      if phase.Unhashed then
        some ({ d with store := (Operation.transitionFile f.id tok .verifying .downloaded cause now).commit d.store }.release tok)
      else none
    | none => none
  | .charge tok cause =>
    match d.tasks tok with
    | some ⟨f, .mismatched⟩ => some ({ d with store := (Operation.failVerify f.id tok cause).commit d.store }.release tok)
    | _ => none
  | .link tok =>
    match d.tasks tok with
    | some ⟨f, .matched⟩ =>
      match d.links f.id with
      | none => some (d.release tok)
      | some number =>
        match d.blobs f.blobID with
        | none => some ({ d with blobs := Function.update d.blobs f.blobID (some (f.id, number)) }.assign tok f (.linked false))
        -- a blob of another size is a conflict, one of the same size the same blob
        | some (g, published) =>
          if (d.inodes f.id number).current.length = (d.inodes g published).current.length
            then some (d.assign tok f (.linked true))
          else some (d.release tok)
    | _ => none
  | .remove tok =>
    match d.tasks tok with
    | some ⟨f, .linked duplicate⟩ =>
      if d.links f.id = none ∧ duplicate = false then some (d.release tok)
      else some ({ d with links := Function.update d.links f.id none }.assign tok f .removed)
    | _ => none
  | .complete tok cachePath =>
    match d.tasks tok with
    | some ⟨f, .removed⟩ => some ({ d with store := (Operation.completeVerify f.id tok cachePath).commit d.store }.release tok)
    | _ => none
  | .leave tok =>
    match d.tasks tok with
    | some _ => some (d.release tok)
    | none => none
  | .crash powerLoss => some { d with
      tasks := fun _ => none
      inodes := fun file number => if powerLoss then (d.inodes file number).lose else d.inodes file number }

def initial (owner : String) : Verifying :=
  ⟨⟨fun _ => none, fun _ _ => .empty, fun _ => 0⟩, .empty owner, fun _ => none, fun _ => none⟩

inductive Step (agrees : FileEntry → List UInt8 → Bool) (d : Verifying) : Event → Verifying → Prop where
  | call (issued : op.Issued) (free : ¬ Reserved op) : Step agrees d (.call op) { d with store := op.commit d.store }
  | stage : Step agrees d (.stage file) (d.openStaging file).1
  | write : Step agrees d (.write file number bytes) (d.modify file number fun i => { i with current := bytes })
  | flush : Step agrees d (.flush file number bytes) (d.modify file number (·.flush bytes))
  | lease (unused : d.tasks tok = none) (leased : d.store.leaseVerify tok now = .ok (f, after)) :
      Step agrees d (.lease tok now) ({ d with store := after }.assign tok f .leased)
  | openPath (task : d.tasks tok = some ⟨f, .leased⟩) :
      Step agrees d (.openPath tok) ((d.openStaging f.id).1.assign tok f (.opened (d.openStaging f.id).2))
  | sync (task : d.tasks tok = some ⟨f, .opened number⟩) :
      Step agrees d (.sync tok) ((d.modify f.id number StagedFile.sync).assign tok f (.synced number))
  | syncDense (task : d.tasks tok = some ⟨f, .dense number⟩) :
      Step agrees d (.sync tok) ((d.modify f.id number StagedFile.sync).assign tok f (.settled number))
  | deSparse (task : d.tasks tok = some ⟨f, .synced number⟩) :
      Step agrees d (.deSparse tok) ((d.modify f.id number (·.allocate f.size)).assign tok f (.dense number))
  | hash (task : d.tasks tok = some ⟨f, .settled number⟩) : Step agrees d (.hash tok)
      (d.assign tok f (if agrees f.toFileEntry (d.inodes f.id number).current then .matched else .mismatched))
  | retry (task : d.tasks tok = some ⟨f, phase⟩) (unhashed : phase.Unhashed) : Step agrees d (.retry tok cause now)
      ({ d with store := (Operation.transitionFile f.id tok .verifying .downloaded cause now).commit d.store }.release tok)
  | charge (task : d.tasks tok = some ⟨f, .mismatched⟩) : Step agrees d (.charge tok cause)
      ({ d with store := (Operation.failVerify f.id tok cause).commit d.store }.release tok)
  | link {b : String → Option (FileId × Nat)} (task : d.tasks tok = some ⟨f, .matched⟩) :
      Step agrees d (.link tok) ({ d with blobs := b }.assign tok f (.linked duplicate))
  | linkFailed (task : d.tasks tok = some ⟨f, .matched⟩) : Step agrees d (.link tok) (d.release tok)
  | remove (task : d.tasks tok = some ⟨f, .linked duplicate⟩) :
      Step agrees d (.remove tok) ({ d with links := Function.update d.links f.id none }.assign tok f .removed)
  | removeFailed (task : d.tasks tok = some ⟨f, .linked duplicate⟩) : Step agrees d (.remove tok) (d.release tok)
  | complete (task : d.tasks tok = some ⟨f, .removed⟩) : Step agrees d (.complete tok cachePath)
      ({ d with store := (Operation.completeVerify f.id tok cachePath).commit d.store }.release tok)
  | leave (task : d.tasks tok = some t) : Step agrees d (.leave tok) (d.release tok)
  | crash : Step agrees d (.crash powerLoss) { d with
      tasks := fun _ => none
      inodes := fun file number => if powerLoss then (d.inodes file number).lose else d.inodes file number }

theorem next_step {d d' : Verifying} (stepped : next agrees d e = some d') : Step agrees d e d' := by
  unfold next at stepped
  repeat' split at stepped
  all_goals (try cases stepped)
  all_goals first | (constructor <;> assumption) | grind [Step]

/-- The staging path names a file that is on disk in full length; `verdict` is what the hash of its first bytes says. -/
def Reads (agrees : FileEntry → List UInt8 → Bool) (d : Verifying) (file : FileId) (entry : FileEntry) (verdict : Bool) : Prop :=
  ∃ number, d.links file = some number ∧ (d.inodes file number).Settled entry.size ∧
    agrees entry ((d.inodes file number).current.take entry.size.toNat) = verdict

def Knows (agrees : FileEntry → List UInt8 → Bool) (d : Verifying) (file : FileId) (entry : FileEntry) : VerifyPhase → Prop
  | .leased | .removed => True
  | .opened number | .synced number => d.links file = some number
  | .dense number => d.links file = some number ∧ entry.size.toNat ≤ (d.inodes file number).current.length
  | .settled number => d.links file = some number ∧ (d.inodes file number).Settled entry.size
  | .matched | .linked _ => d.Reads agrees file entry true
  | .mismatched => d.Reads agrees file entry false

def At (d : Verifying) (f : File) (phase : VerifyPhase) : Prop :=
  ∃ tok t, f.leaseToken = some tok ∧ d.tasks tok = some t ∧ t.file.id = f.id ∧ t.phase = phase

structure Sound (agrees : FileEntry → List UInt8 → Bool) (d : Verifying) : Prop where
  catalogued : d.store.Catalogued
  entries : ∀ tok t, d.tasks tok = some t → ∃ f ∈ d.store.files, f.id = t.file.id ∧ f.toFileEntry = t.file.toFileEntry
  phases : ∀ f ∈ d.store.files, f.status = .verifying → ∀ phase, d.At f phase → d.Knows agrees f.id f.toFileEntry phase

/-- The staging path of a file stays, its file is not cut, and one that is on disk in full length is not changed. -/
structure Keeps (d d' : Verifying) (file : FileId) (entry : FileEntry) : Prop where
  link : d.links file = some number → d'.links file = some number
  bytes : d.links file = some number → (d.inodes file number).Settled entry.size → d'.inodes file number = d.inodes file number
  length : d.links file = some number → (d.inodes file number).current.length ≤ (d'.inodes file number).current.length

instance : Decidable (At d f phase) :=
  decidable_of_iff (∃ tok ∈ f.leaseToken, ∃ t ∈ d.tasks tok, t.file.id = f.id ∧ t.phase = phase) (by
    simp only [At, Option.mem_def, exists_and_left])

/-- The staging path of the file is gone and its row does not say so yet. -/
def Unrecorded (d : Verifying) (f : File) : Prop := f.status = .verifying ∧ d.At f .removed
deriving Decidable

def hashes (t : VerifyTask) : Option Nat :=
  match t.phase with
  | .settled number => some number
  | _ => none

def expires : Operation → Option Time
  | .recover now => some now
  | _ => none

def forces : Operation → Option FileId
  | .transitionFile file _ .cached .queued _ _ => some file
  | _ => none

/-- Only the writers of a file that is being fetched change its staging file, a file that is hashed is not longer than
its listed size, the staging path is removed under the lease on its file, and from there on the process keeps running and the
lease does not expire until the row is written. -/
def Careful (d : Verifying) : Event → Prop
  | .write file _ _ => ∀ f ∈ d.store.files, f.id = file → f.status = .downloading ∨ f.status = .salvaging
  | .hash tok => ∀ t ∈ d.tasks tok, ∀ number ∈ hashes t, (d.inodes t.file.id number).current.length ≤ t.file.size.toNat
  | .remove tok => ∀ t ∈ d.tasks tok, ∀ f ∈ d.store.files, f.id = t.file.id → f.Held t.file.id [.verifying] tok
  | .leave tok => ∀ f ∈ d.store.files, f.leaseToken = some tok → ¬ d.Unrecorded f
  | .crash _ => ∀ f ∈ d.store.files, ¬ d.Unrecorded f
  | .call op => ∀ now ∈ expires op, ∀ f ∈ d.store.files, f.Expired now → ¬ d.Unrecorded f
  | _ => True

def Requeues (file : FileId) : Event → Prop
  | .call op => forces op = some file
  | _ => False

instance : Decidable (Careful d e) := by
  unfold Careful
  split <;> infer_instance

instance : Decidable (Requeues file e) := by
  unfold Requeues
  split <;> infer_instance

/-- The file is cached, its staged bytes are right, or they are published and the row is about to say so. -/
def Safe (agrees : FileEntry → List UInt8 → Bool) (d : Verifying) (f : File) : Prop :=
  f.status = .cached ∨ (f.status = .downloaded ∨ f.status = .verifying) ∧ d.Reads agrees f.id f.toFileEntry true ∨ d.Unrecorded f

def Spared (agrees : FileEntry → List UInt8 → Bool) (file : FileId) (fails : Nat) (d : Verifying) : Prop :=
  ∃ f ∈ d.store.files, f.id = file ∧ f.verifyFails = fails ∧ d.Safe agrees f

/-- The calls after which the file is not safe. -/
inductive Harms (d : Verifying) (f : File) : Operation → Prop where
  | charge (here : f.id = file) (status : f.status = .verifying) (token : f.leaseToken = some tok) :
      Harms d f (.failVerify file tok cause)
  | force (here : f.id = file) : Harms d f (.transitionFile file tok .cached .queued cause now)
  | lapse (unrecorded : d.Unrecorded f) (expired : f.Expired now) : Harms d f (.recover now)
  | giveBack (here : f.id = file) (unrecorded : d.Unrecorded f) (token : f.leaseToken = some tok) :
      Harms d f (.transitionFile file tok .verifying .downloaded cause now)

/-- The staged bytes of a complete file are right, or its verification has just found them so. -/
def Hashed (agrees : FileEntry → List UInt8 → Bool) (d : Verifying) (f : File) : Prop :=
  (f.status = .downloaded ∨ f.status = .verifying) ∧ d.Reads agrees f.id f.toFileEntry true ∨ f.status = .verifying ∧
    d.At f .matched

section
variable {d d' : Verifying} {agrees : FileEntry → List UInt8 → Bool}

theorem Reads.unique (first : d.Reads agrees file entry a) (second : d.Reads agrees file entry b) : a = b := by
  obtain ⟨n, link, -, told⟩ := first
  obtain ⟨m, link', -, told'⟩ := second
  cases link.symm.trans link'
  exact told.symm.trans told'

theorem Reads.kept (reads : d.Reads agrees file entry verdict) (keeps : Keeps d d' file entry) :
    d'.Reads agrees file entry verdict := by
  obtain ⟨n, link, settled, told⟩ := reads
  have same := keeps.bytes link settled
  exact ⟨n, keeps.link link, same ▸ settled, same ▸ told⟩

theorem Knows.kept (knows : d.Knows agrees file entry phase) (keeps : Keeps d d' file entry) :
    d'.Knows agrees file entry phase := by
  cases phase with
  | leased | removed => trivial
  | opened | synced => exact keeps.link knows
  | dense => exact ⟨keeps.link knows.1, knows.2.trans (keeps.length knows.1)⟩
  | settled =>
    have same := keeps.bytes knows.1 knows.2
    exact ⟨keeps.link knows.1, same ▸ knows.2⟩
  | matched | linked | mismatched => exact Reads.kept knows keeps

theorem Keeps.of_eq (links : d'.links = d.links) (inodes : d'.inodes = d.inodes) : Keeps d d' file entry :=
  ⟨fun link => links ▸ link, fun _ _ => by rw [inodes], fun _ => by rw [inodes]⟩

theorem Keeps.assign (keeps : Keeps d d' file entry) : Keeps d (d'.assign tok g phase) file entry :=
  ⟨keeps.link, keeps.bytes, keeps.length⟩

theorem keeps_modify (fixed : file = changed →
      ((d.inodes file number).Settled entry.size → change (d.inodes file number) = d.inodes file number) ∧
      (d.inodes file number).current.length ≤ (change (d.inodes file number)).current.length) :
    Keeps d (d.modify changed number change) file entry := by
  refine ⟨id, fun {n} _ settled => ?_, fun {n} _ => ?_⟩
  all_goals
    by_cases here : file = changed ∧ n = number
    · obtain ⟨rfl, rfl⟩ := here
      rw [modify, Links.modify_self]
      first
        | exact (fixed rfl).1 settled
        | exact (fixed rfl).2
    · rw [modify, Links.modify_other (by tauto)]

theorem keeps_openStaging : Keeps d (d.openStaging opened).1 file entry :=
  ⟨fun link => (Links.openPath_kept link).1, fun link _ => (Links.openPath_kept link).2,
    fun link => (Links.openPath_kept link).2.symm ▸ le_rfl⟩

theorem At.of_tasks (tasks : ∀ tok t, d'.tasks tok = some t → d.tasks tok = some t) (reached : d'.At f phase) : d.At f phase := by
  obtain ⟨tok, t, token, task, here, reached⟩ := reached
  exact ⟨tok, t, token, tasks tok t task, here, reached⟩

theorem At.phase_eq (reached : d.At f phase) (token : f.leaseToken = some tok) (task : d.tasks tok = some ⟨g, p⟩) :
    phase = p := by
  obtain ⟨tok', t, token', task', -, rfl⟩ := reached
  cases token.symm.trans token'
  cases task.symm.trans task'
  rfl

theorem At.of_update (tasks : d'.tasks = Function.update d.tasks tok (some ⟨g, q⟩)) (reached : d'.At f phase) :
    f.leaseToken = some tok ∧ g.id = f.id ∧ phase = q ∨ f.leaseToken ≠ some tok ∧ d.At f phase := by
  obtain ⟨tok', t, token, task, here, rfl⟩ := reached
  rw [tasks] at task
  rcases update_eq_some.mp task with ⟨rfl, set⟩ | ⟨same, task⟩
  · cases set
    exact .inl ⟨token, here, rfl⟩
  · refine .inr ⟨fun other => same (Option.some.inj (token.symm.trans other)), tok', t, token, task, here, rfl⟩

theorem tasks_of_release (task : (Function.update d.tasks tok none) tok' = some t) : d.tasks tok' = some t := by
  exact ((update_eq_some.mp task).resolve_left nofun).2

namespace Sound

theorem restrict (sound : Sound agrees d) (store : d'.store = d.store)
    (tasks : ∀ tok t, d'.tasks tok = some t → d.tasks tok = some t)
    (keeps : ∀ f ∈ d.store.files, f.status = .verifying → Keeps d d' f.id f.toFileEntry) : Sound agrees d' where
  catalogued := store ▸ sound.catalogued
  entries tok t task := store ▸ sound.entries tok t (tasks tok t task)
  phases f stored status phase reached := by
    rw [store] at stored
    exact (sound.phases f stored status phase (reached.of_tasks tasks)).kept (keeps f stored status)

theorem entry (sound : Sound agrees d) (task : d.tasks tok = some ⟨g, p⟩) (stored : f ∈ d.store.files) (here : f.id = g.id) :
    f.toFileEntry = g.toFileEntry := by
  obtain ⟨f', stored', same, entry⟩ := sound.entries tok _ task
  rw [Table.eq_of_key stored stored' (here.trans same.symm)]
  exact entry

theorem advance (sound : Sound agrees d) (task : d.tasks tok = some ⟨g, p⟩) (store : d'.store = d.store)
    (tasks : d'.tasks = Function.update d.tasks tok (some ⟨g, q⟩))
    (keeps : ∀ f ∈ d.store.files, f.status = .verifying → ¬ (f.leaseToken = some tok ∧ f.id = g.id) →
        Keeps d d' f.id f.toFileEntry)
    (learns : ∀ f ∈ d.store.files, f.id = g.id → f.toFileEntry = g.toFileEntry → f.leaseToken = some tok →
      d.Knows agrees f.id f.toFileEntry p → d'.Knows agrees f.id f.toFileEntry q) : Sound agrees d' where
  catalogued := store ▸ sound.catalogued
  entries tok' t task' := by
    rw [tasks] at task'
    rcases update_eq_some.mp task' with ⟨-, set⟩ | ⟨-, task'⟩
    · cases set
      have known := sound.entries tok _ task
      exact store ▸ known
    · exact store ▸ sound.entries tok' t task'
  phases f stored status phase reached := by
    rw [store] at stored
    rcases reached.of_update tasks with ⟨token, here, rfl⟩ | ⟨other, before⟩
    · refine learns f stored here.symm (sound.entry task stored here.symm) token ?_
      exact sound.phases f stored status p ⟨tok, _, token, task, here, rfl⟩
    · exact (sound.phases f stored status phase before).kept (keeps f stored status fun both => other both.1)

theorem exec {o : Operation} (sound : Sound agrees d) (issued : o.Issued) (done : o.exec d.store = .ok d'.store)
    (links : d'.links = d.links) (inodes : d'.inodes = d.inodes)
    (unused : ∀ tok now, o = .leaseVerify tok now → d.tasks tok = none)
    (tasks : ∀ tok t, d'.tasks tok = some t → d.tasks tok = some t ∨
      t.phase = .leased ∧ ∃ f ∈ d'.store.files, f.id = t.file.id ∧ f.toFileEntry = t.file.toFileEntry) : Sound agrees d' where
  catalogued := Operation.exec_catalogued sound.catalogued done
  entries tok t task := by
    rcases tasks tok t task with before | ⟨-, fresh⟩
    · obtain ⟨f, stored, here, entry⟩ := sound.entries tok t before
      rcases (Operation.exec_evolution done).files.kept f stored with ⟨f', stored', changed⟩ | gone
      · exact ⟨f', stored', changed.id.trans here, (sound.catalogued.entry done stored changed).trans entry⟩
      · exact gone.elim
    · exact fresh
  phases f' stored' status phase reached := by
    obtain ⟨tok, t, token, task, here, rfl⟩ := reached
    rcases tasks tok t task with before | ⟨leased, -⟩
    · rcases (Operation.exec_evolution done).files.origin f' stored' with ⟨f, stored, changed⟩ | ⟨_, _, _, _, _, _, _, rfl⟩
      · rcases changed.under_verification issued status with ⟨was, same⟩ | ⟨tok', now, rfl, claimed⟩
        · rw [changed.id, sound.catalogued.entry done stored changed]
          have known := sound.phases f stored was t.phase ⟨tok, t, same ▸ token, before, here.trans changed.id, rfl⟩
          exact known.kept (.of_eq links inodes)
        · cases claimed.symm.trans token
          cases (unused tok now rfl).symm.trans before
      · cases status
    · rw [leased]
      trivial

theorem commit {o : Operation} (sound : Sound agrees d) (issued : ∀ s', o.exec d.store = .ok s' → o.Issued)
    (store : d'.store = o.commit d.store)
    (links : d'.links = d.links) (inodes : d'.inodes = d.inodes) (plain : ∀ tok now, o ≠ .leaseVerify tok now)
    (tasks : ∀ tok t, d'.tasks tok = some t → d.tasks tok = some t) : Sound agrees d' := by
  rcases Operation.commit_cases d.store o with same | done
  · exact sound.restrict (store.trans same) tasks fun _ _ _ => .of_eq links inodes
  · rw [← store] at done
    exact sound.exec (issued _ done) done links inodes (fun tok now leases => (plain tok now leases).elim)
      fun tok t task => .inl (tasks tok t task)

theorem initial : Sound agrees (initial owner) where
  catalogued := .empty
  entries _ _ task := by cases task
  phases _ stored := (Table.not_mem_empty _ stored).elim

end Sound

theorem hash_knows (knows : d.Knows agrees file entry (.settled number))
    (short : (d.inodes file number).current.length ≤ entry.size.toNat) :
    d.Knows agrees file entry (if agrees entry (d.inodes file number).current then .matched else .mismatched) := by
  have whole : (d.inodes file number).current.take entry.size.toNat = (d.inodes file number).current :=
    List.take_of_length_le short
  have reads : d.Reads agrees file entry (agrees entry (d.inodes file number).current) :=
    ⟨number, knows.1, knows.2, by rw [whole]⟩
  split
  · rename_i agreed
    rwa [agreed] at reads
  · rename_i agreed
    rwa [Bool.eq_false_iff.mpr agreed] at reads

theorem sound_next (sound : Sound agrees d) (careful : Careful d e) (stepped : next agrees d e = some d') : Sound agrees d' := by
  cases next_step stepped with
  | @call op issued free =>
    refine sound.commit (fun _ _ => issued) rfl rfl rfl ?_ fun _ _ task => task
    rintro tok now rfl
    exact free rfl
  | stage => exact sound.restrict rfl (fun _ _ task => task) fun _ _ _ => keeps_openStaging
  | @write file number bytes =>
    refine sound.restrict rfl (fun _ _ task => task) fun f stored status => keeps_modify fun here => ?_
    have fetching := careful f stored here
    simp [status] at fetching
  | flush =>
    exact sound.restrict rfl (fun _ _ task => task) fun f stored status =>
      keeps_modify fun _ => ⟨fun settled => settled.flush, StagedFile.length_flush.ge⟩
  | @lease tok now f after unused leased =>
    have done : Operation.exec d.store (.leaseVerify tok now) = .ok after := map_eq_ok.mpr ⟨_, leased, rfl⟩
    obtain ⟨g, stored, -, rfl, rfl⟩ := Store.claimFile_ok leased
    refine sound.exec (o := .leaseVerify tok now) trivial done rfl rfl ?_ fun tok' t task => ?_
    · rintro _ _ ⟨⟩
      exact unused
    · by_cases same : tok' = tok
      · subst same
        have here := (Function.update_self ..).symm.trans task
        cases here
        exact .inr ⟨rfl, _, Table.mem_update.mpr ⟨g, stored, (if_pos rfl).symm⟩, rfl, rfl⟩
      · exact .inl ((Function.update_of_ne same ..).symm.trans task)
  | @openPath tok g task =>
    refine sound.advance task rfl rfl (fun _ _ _ _ => keeps_openStaging.assign) ?_
    rintro f - here - - -
    rw [here]
    exact Links.links_openPath
  | @sync tok g number task =>
    exact sound.advance task rfl rfl (fun _ _ _ _ => (keeps_modify fun _ => ⟨fun settled => settled.sync, le_rfl⟩).assign)
      fun _ _ _ _ _ knows => knows
  | @syncDense tok g number task =>
    refine sound.advance task rfl rfl (fun _ _ _ _ => (keeps_modify fun _ => ⟨fun settled => settled.sync, le_rfl⟩).assign) ?_
    intro f stored here entry token knows
    refine ⟨knows.1, ?_⟩
    rw [here] at knows ⊢
    change ((d.modify g.id number StagedFile.sync).inodes g.id number).Settled _
    rw [modify, Links.modify_self]
    exact ⟨rfl, knows.2⟩
  | @deSparse tok g number task =>
    refine sound.advance task rfl rfl (fun f stored _ _ => (keeps_modify fun here => ⟨fun settled => ?_, ?_⟩).assign) ?_
    · rw [← sound.entry task stored here]
      exact settled.allocate
    · exact (le_max_left ..).trans_eq StagedFile.length_allocate.symm
    · intro f stored here entry token knows
      refine ⟨knows, ?_⟩
      rw [here, entry]
      change _ ≤ ((d.modify g.id number (·.allocate g.size)).inodes g.id number).current.length
      rw [modify, Links.modify_self, StagedFile.length_allocate]
      exact le_max_right ..
  | @hash tok g number task =>
    refine sound.advance task rfl rfl (fun _ _ _ _ => .of_eq rfl rfl) ?_
    intro f stored here entry token knows
    rw [here, entry] at knows ⊢
    exact hash_knows knows (careful _ task number rfl)
  | @retry tok g phase cause now task unhashed =>
    exact sound.commit (fun _ done => Operation.issued_of_exec (by decide) done) rfl rfl rfl nofun fun _ _ task =>
      tasks_of_release task
  | @charge tok g cause =>
    exact sound.commit (o := .failVerify g.id tok cause) (fun _ _ => trivial) rfl rfl rfl nofun fun _ _ task =>
      tasks_of_release task
  | link task => exact sound.advance task rfl rfl (fun _ _ _ _ => .of_eq rfl rfl) fun _ _ _ _ _ knows => knows
  | linkFailed | removeFailed | leave =>
    exact sound.restrict rfl (fun _ _ task => tasks_of_release task) fun _ _ _ => .of_eq rfl rfl
  | @remove tok g duplicate task =>
    refine sound.advance task rfl rfl (fun f stored _ other => ?_) fun _ _ _ _ _ _ => trivial
    have elsewhere : f.id ≠ g.id := fun here => other ⟨(careful _ task f stored here).2.2, here⟩
    exact ⟨fun link => (Function.update_of_ne elsewhere ..).trans link, fun _ _ => rfl, fun _ => le_rfl⟩
  | @complete tok g cachePath =>
    exact sound.commit (o := .completeVerify g.id tok cachePath) (fun _ _ => trivial) rfl rfl rfl nofun fun _ _ task =>
      tasks_of_release task
  | crash =>
    refine ⟨sound.catalogued, fun tok t task => ?_, ?_⟩
    · cases task
    · rintro f - - phase ⟨_, _, -, task, -⟩
      cases task

theorem Unrecorded.persists (unrecorded : d.Unrecorded f)
    (tasks : ∀ tok, f.leaseToken = some tok → ∀ t, d.tasks tok = some t → t.phase = .removed → d'.tasks tok = some t) :
    d'.Unrecorded f := by
  obtain ⟨status, tok, t, token, task, here, removed⟩ := unrecorded
  exact ⟨status, tok, t, token, tasks tok token t task removed, here, removed⟩

theorem removed_elsewhere (task : d.tasks tok = some ⟨g, p⟩) (early : p ≠ .removed)
    (tasks : ∀ other, other ≠ tok → d'.tasks other = d.tasks other)
    (task' : d.tasks tok' = some t) (removed : t.phase = .removed) : d'.tasks tok' = some t := by
  rw [tasks tok' ?_]
  · exact task'
  · rintro rfl
    cases task.symm.trans task'
    exact early removed

theorem Unrecorded.transfer (unrecorded : d.Unrecorded f) (here : f'.id = f.id) (status : f'.status = .verifying)
    (token : f'.leaseToken = f.leaseToken) : d.Unrecorded f' := by
  obtain ⟨-, tok, t, claim, task, mine, removed⟩ := unrecorded
  exact ⟨status, tok, t, token.trans claim, task, mine.trans here.symm, removed⟩

namespace Spared

theorem quiet (spared : Spared agrees file fails d) (store : d'.store = d.store)
    (reads : ∀ f ∈ d.store.files, f.status = .downloaded ∨ f.status = .verifying → d.Reads agrees f.id f.toFileEntry true →
      d'.Safe agrees f)
    (persists : ∀ f ∈ d.store.files, d.Unrecorded f → d'.Unrecorded f) : Spared agrees file fails d' := by
  obtain ⟨f, stored, here, same, safe⟩ := spared
  refine ⟨f, store ▸ stored, here, same, ?_⟩
  rcases safe with cached | ⟨status, right⟩ | unrecorded
  · exact .inl cached
  · exact reads f stored status right
  · exact .inr (.inr (persists f stored unrecorded))

theorem advance (spared : Spared agrees file fails d) (store : d'.store = d.store) (task : d.tasks tok = some ⟨g, p⟩)
    (early : p ≠ .removed) (tasks : ∀ other, other ≠ tok → d'.tasks other = d.tasks other)
    (keeps : ∀ f ∈ d.store.files, Keeps d d' f.id f.toFileEntry) : Spared agrees file fails d' :=
  spared.quiet store (fun f stored status right => .inr (.inl ⟨status, right.kept (keeps f stored)⟩))
    fun _ _ unrecorded => unrecorded.persists fun _ _ _ => removed_elsewhere task early tasks

/-- A committed call that neither charges the file nor takes it from where it is. -/
theorem commit {o : Operation} (sound : Sound agrees d) (spared : Spared agrees file fails d)
    (issued : ∀ s', o.exec d.store = .ok s' → o.Issued)
    (store : d'.store = o.commit d.store) (links : d'.links = d.links) (inodes : d'.inodes = d.inodes)
    (harmless : ∀ f ∈ d.store.files, f.id = file → d.Safe agrees f → ¬ d.Harms f o)
    (persists : ∀ f ∈ d.store.files, d.Unrecorded f → ∀ f' : File, f'.id = f.id → f'.status = .verifying →
      f'.leaseToken = f.leaseToken → f' ∈ d'.store.files → d'.Unrecorded f') : Spared agrees file fails d' := by
  have keeps {file entry} : Keeps d d' file entry := .of_eq links inodes
  rcases Operation.commit_cases d.store o with same | done
  · rw [same] at store
    refine spared.quiet store (fun f stored status right => .inr (.inl ⟨status, right.kept keeps⟩)) fun f stored unrecorded => ?_
    exact persists f stored unrecorded f rfl unrecorded.1 rfl (store ▸ stored)
  rw [← store] at done
  obtain ⟨f, stored, rfl, rfl, safe⟩ := spared
  have spares := harmless f stored rfl safe
  rcases (Operation.exec_evolution done).files.kept f stored with ⟨f', stored', changed⟩ | gone
  swap
  · exact gone.elim
  have before : f.status = .downloaded ∨ f.status = .verifying ∨ f.status = .cached := by
    rcases safe with cached | ⟨landed, -⟩ | unrecorded
    · exact .inr (.inr cached)
    · exact landed.imp_right .inl
    · exact .inr (.inl unrecorded.1)
  have entry := sound.catalogued.entry done stored changed
  rcases changed.complete (issued _ done) before with ⟨tok, cause, rfl, status, token⟩ | ⟨tok, cause, now, rfl⟩ | ⟨fails, moved⟩
  · exact (spares (.charge rfl status token)).elim
  · exact (spares (.force rfl)).elim
  refine ⟨f', stored', changed.id, fails, ?_⟩
  have reads (right : d.Reads agrees f.id f.toFileEntry true) : d'.Reads agrees f'.id f'.toFileEntry true := by
    rw [changed.id, entry]
    exact right.kept keeps
  rcases moved with ⟨status, token⟩ | ⟨was, status⟩ | ⟨-, status⟩ | ⟨was, status, cause⟩
  · rcases safe with cached | ⟨landed, right⟩ | unrecorded
    · exact .inl (status.trans cached)
    · exact .inr (.inl ⟨status ▸ landed, reads right⟩)
    · exact .inr (.inr (persists f stored unrecorded f' changed.id (status.trans unrecorded.1) token stored'))
  · rcases safe with cached | ⟨-, right⟩ | unrecorded
    · cases was.symm.trans cached
    · exact .inr (.inl ⟨.inr status, reads right⟩)
    · cases was.symm.trans unrecorded.1
  · exact .inl status
  · rcases safe with cached | ⟨-, right⟩ | unrecorded
    · cases was.symm.trans cached
    · exact .inr (.inl ⟨.inl status, reads right⟩)
    · rcases cause with ⟨now, rfl, expired⟩ | ⟨tok, cause, now, rfl, token⟩
      · exact (spares (.lapse unrecorded expired)).elim
      · exact (spares (.giveBack rfl unrecorded token)).elim

end Spared

theorem completeVerify_row (stored : f ∈ s.files) (held : f.Held file [.verifying] tok)
    (stored' : f' ∈ ((Operation.completeVerify file tok cachePath).commit s).files) (same : f'.id = f.id) :
    f'.status = .cached := by
  have done : Operation.exec s (.completeVerify file tok cachePath) = .ok _ := Store.guardFile_ok.mpr ⟨⟨f, stored, held⟩, rfl⟩
  rw [Operation.commit_of_exec done] at stored'
  obtain ⟨h, known, rfl⟩ := Table.mem_update.mp stored'
  have alike : h = f := by
    refine Table.eq_of_key known stored ?_
    split at same <;> exact same
  subst alike
  rw [if_pos held]

theorem spared_next (sound : Sound agrees d) (careful : Careful d e) (once : ¬ Requeues file e)
    (stepped : next agrees d e = some d')
    (spared : Spared agrees file fails d) : Spared agrees file fails d' := by
  cases next_step stepped with
  | @call op issued free =>
    refine spared.commit sound (fun _ _ => issued) rfl rfl rfl ?_ fun _ _ unrecorded _ here status token _ =>
      unrecorded.transfer here status token
    intro f stored here safe harm
    cases harm with
    | charge => exact free rfl
    | force target => exact once (congrArg some (target.symm.trans here))
    | lapse unrecorded expired => exact careful _ rfl f stored expired unrecorded
    | giveBack => exact free rfl
  | stage =>
    exact spared.quiet rfl (fun f stored status right => .inr (.inl ⟨status, right.kept keeps_openStaging⟩))
      fun _ _ unrecorded => unrecorded
  | @write file' number bytes =>
    refine spared.quiet rfl (fun f stored status right => .inr (.inl ⟨status, right.kept (keeps_modify fun here => ?_)⟩))
      fun _ _ unrecorded => unrecorded
    have fetching := careful f stored here
    rcases status with status | status <;> simp [status] at fetching
  | flush =>
    refine spared.quiet rfl (fun f stored status right => .inr (.inl ⟨status, right.kept (keeps_modify fun _ => ?_)⟩))
      fun _ _ unrecorded => unrecorded
    exact ⟨fun settled => settled.flush, StagedFile.length_flush.ge⟩
  | @lease tok now g after unused leased =>
    have done : Operation.exec d.store (.leaseVerify tok now) = .ok after := map_eq_ok.mpr ⟨_, leased, rfl⟩
    refine spared.commit sound (o := .leaseVerify tok now) (fun _ _ => trivial)
      (Operation.commit_of_exec done).symm rfl rfl (fun _ _ _ _ harm => by cases harm)
      fun f stored unrecorded f' here status token _ => (unrecorded.transfer here status token).persists fun tok' _ t task _ => ?_
    refine (Function.update_of_ne ?_ ..).trans task
    rintro rfl
    cases unused.symm.trans task
  | @openPath tok g task =>
    exact spared.advance rfl task nofun (fun _ elsewhere => Function.update_of_ne elsewhere ..) fun _ _ =>
      keeps_openStaging.assign
  | sync task | syncDense task =>
    exact spared.advance rfl task nofun (fun _ elsewhere => Function.update_of_ne elsewhere ..)
      fun _ _ => (keeps_modify fun _ => ⟨fun settled => settled.sync, le_rfl⟩).assign
  | @deSparse tok g number task =>
    refine spared.advance rfl task nofun (fun _ elsewhere => Function.update_of_ne elsewhere ..) fun f stored =>
      (keeps_modify fun here => ⟨fun settled => ?_, (le_max_left ..).trans_eq StagedFile.length_allocate.symm⟩).assign
    rw [← sound.entry task stored here]
    exact settled.allocate
  | hash task | link task | linkFailed task | removeFailed task =>
    exact spared.advance rfl task nofun (fun _ elsewhere => Function.update_of_ne elsewhere ..) fun _ _ => .of_eq rfl rfl
  | @retry tok g phase cause now task unhashed =>
    have early : phase ≠ .removed := by
      rintro rfl
      exact unhashed
    refine spared.commit sound (fun _ done => Operation.issued_of_exec (by decide) done) rfl rfl rfl ?_
      fun f stored unrecorded f' here status token _ =>
      (unrecorded.transfer here status token).persists fun _ _ _ =>
        removed_elsewhere task early fun _ elsewhere => Function.update_of_ne elsewhere ..
    intro f stored here safe harm
    cases harm with
    | giveBack _ unrecorded token => exact early (unrecorded.2.phase_eq token task).symm
  | @charge tok g cause task =>
    refine spared.commit sound (o := .failVerify g.id tok cause) (fun _ _ => trivial) rfl rfl rfl ?_
      fun f stored unrecorded f' here status token _ => (unrecorded.transfer here status token).persists fun _ _ _ =>
        removed_elsewhere task nofun fun _ elsewhere => Function.update_of_ne elsewhere ..
    intro f stored mine safe harm
    obtain ⟨here, status, token⟩ : g.id = f.id ∧ f.status = .verifying ∧ f.leaseToken = some tok := by
      cases harm with
      | charge here status token => exact ⟨here.symm, status, token⟩
    rcases safe with cached | ⟨-, right⟩ | unrecorded
    · cases status.symm.trans cached
    · have wrong := sound.phases f stored status .mismatched ⟨tok, _, token, task, here, rfl⟩
      cases right.unique wrong
    · cases unrecorded.2.phase_eq token task
  | @remove tok g duplicate task =>
    refine spared.quiet rfl (fun f stored status right => ?_) fun f stored unrecorded =>
      unrecorded.persists fun _ _ _ => removed_elsewhere task nofun fun _ elsewhere => Function.update_of_ne elsewhere ..
    by_cases here : f.id = g.id
    · have held := careful _ task f stored here
      exact .inr (.inr ⟨List.mem_singleton.mp held.2.1, tok, _, held.2.2, Function.update_self .., here.symm, rfl⟩)
    · refine .inr (.inl ⟨status, right.kept ⟨fun link => ?_, fun _ _ => rfl, fun _ => le_rfl⟩⟩)
      exact (Function.update_of_ne here ..).trans link
  | @complete tok g cachePath task =>
    refine spared.commit sound (o := .completeVerify g.id tok cachePath) (fun _ _ => trivial) rfl rfl rfl
      (fun _ _ _ _ harm => by cases harm)
      fun f stored unrecorded f' here status token stored' =>
        (unrecorded.transfer here status token).persists fun tok' token' t task' _ => ?_
    refine (Function.update_of_ne ?_ ..).trans task'
    rintro rfl
    obtain ⟨verifying, _, _, claim, known, mine, -⟩ := unrecorded
    cases token'.symm.trans (token.trans claim)
    cases task.symm.trans known
    have held : f.Held g.id [.verifying] tok' := ⟨mine.symm, List.mem_singleton.mpr verifying, claim⟩
    cases status.symm.trans (completeVerify_row stored held stored' here)
  | @leave tok t task =>
    refine spared.quiet rfl (fun f stored status right => .inr (.inl ⟨status, right.kept (.of_eq rfl rfl)⟩))
      fun f stored unrecorded => unrecorded.persists fun tok' token t' task' _ => ?_
    refine (Function.update_of_ne ?_ ..).trans task'
    rintro rfl
    exact careful f stored token unrecorded
  | crash =>
    refine spared.quiet rfl (fun f stored status right => .inr (.inl ⟨status, ?_⟩))
      fun f stored unrecorded => (careful f stored unrecorded).elim
    obtain ⟨number, link, settled, told⟩ := right
    refine ⟨number, link, ?_⟩
    simp only
    split
    · rw [settled.lose]
      exact ⟨settled, told⟩
    · exact ⟨settled, told⟩

theorem Hashed.safe (sound : Sound agrees d) (stored : f ∈ d.store.files) (hashed : d.Hashed agrees f) : d.Safe agrees f := by
  rcases hashed with right | ⟨status, matched⟩
  · exact .inr (.inl right)
  · exact .inr (.inl ⟨.inr status, sound.phases f stored status .matched matched⟩)

/-- A file whose staged bytes hashed to its blob id is not charged for them any more, and does not end in error, in any
further run in which a removed staging path is recorded before the process stops or the lease expires. -/
theorem hashed_file_spared (ran : run (next agrees) (initial owner) es = some d)
    (careful : Meets (next agrees) Careful (initial owner) es) (stored : f ∈ d.store.files) (hashed : d.Hashed agrees f)
    (went : run (next agrees) d later = some d')
    (sparing : Meets (next agrees) (fun d e => Careful d e ∧ ¬ Requeues f.id e) d later)
    (stored' : f' ∈ d'.store.files) (same : f'.id = f.id) : f'.verifyFails = f.verifyFails ∧ f'.status ≠ .error := by
  have sound : Sound agrees d := invariant_meeting sound_next .initial ran careful
  have start : Sound agrees d ∧ Spared agrees f.id f.verifyFails d := ⟨sound, f, stored, rfl, rfl, hashed.safe sound stored⟩
  have ends : Sound agrees d' ∧ Spared agrees f.id f.verifyFails d' := by
    refine invariant_meeting (I := fun d => Sound agrees d ∧ Spared agrees f.id f.verifyFails d) ?_ start went sparing
    intro d e d' held cond stepped
    exact ⟨sound_next held.1 cond.1 stepped, spared_next held.1 cond.1 cond.2 stepped held.2⟩
  obtain ⟨g, known, here, fails, safe⟩ := ends.2
  obtain rfl := Table.eq_of_key known stored' (here.trans same.symm)
  refine ⟨fails, fun failed => ?_⟩
  rcases safe with cached | ⟨landed | landed, -⟩ | ⟨verifying, -⟩
  · cases failed.symm.trans cached
  · cases failed.symm.trans landed
  · cases failed.symm.trans landed
  · cases failed.symm.trans verifying

end

/-- The blob of the one file of the runs below. -/
def holdsOneTwo (_ : FileEntry) (bytes : List UInt8) : Bool := bytes = [1, 2]

/-- A file of two bytes is downloaded, and its verification gets through the hash. -/
def hashedOnce : List Event :=
  [.call (.enqueueJob wholeRepo), .call (.leaseMeta "list" 0),
    .call (.setCommitSHA 1 "list" "sha"), .call (.completeListing 1 "list" [⟨"weights", 2, "oid", "", "", false⟩]),
    .call (.leaseFileForDownload 1 "file" 0), .stage 1, .write 1 0 [1, 2], .call (.finishDownloaded 1 "file"),
    .lease "verify" 0, .openPath "verify", .sync "verify", .deSparse "verify", .sync "verify", .hash "verify"]

def matching : Verifying := (run (next holdsOneTwo) (initial "process") hashedOnce).getD (initial "process")

/-- The process stops between the removal of the staging path and the last call, and the file is verified again. -/
def stoppedUnrecorded : List Event :=
  [.link "verify", .remove "verify", .crash false, .call (.recover leaseDuration), .lease "again" leaseDuration,
    .openPath "again",
    .sync "again", .deSparse "again", .sync "again", .hash "again", .charge "again" none]

def verifiedTwice : Verifying := (run (next holdsOneTwo) matching stoppedUnrecorded).getD matching

/-- The second verification hashes the zeros of a new staging file, and the file goes back to the queue with a failure. -/
theorem published_file_charged :
    run (next holdsOneTwo) (initial "process") hashedOnce = some matching ∧
      (∃ f ∈ matching.store.files, f.id = 1 ∧ f.verifyFails = 0 ∧ f.status = .verifying ∧ matching.At f .matched) ∧
      run (next holdsOneTwo) matching stoppedUnrecorded = some verifiedTwice ∧
      (∃ f ∈ verifiedTwice.store.files, f.id = 1 ∧ f.verifyFails = 1 ∧ f.status = .queued) :=
  ⟨rfl, by decide, rfl, by decide⟩

/-- The process stops after the link, and the second verification finds its blob published. -/
def stoppedLinked : List Event :=
  [.link "verify", .crash true, .call (.recover leaseDuration), .lease "again" leaseDuration, .openPath "again",
    .sync "again", .deSparse "again", .sync "again", .hash "again", .link "again", .remove "again", .complete "again" "blobs/oid"]

def recordedTwice : Verifying := (run (next holdsOneTwo) matching stoppedLinked).getD matching

theorem hashed_file_spared_linked :
    ∃ f ∈ recordedTwice.store.files, f.status = .cached ∧ f.verifyFails = 0 ∧ f.status ≠ .error := by
  have ran : run (next holdsOneTwo) (initial "process") hashedOnce = some matching := rfl
  have careful : Meets (next holdsOneTwo) Careful (initial "process") hashedOnce := by decide
  have went : run (next holdsOneTwo) matching stoppedLinked = some recordedTwice := rfl
  obtain ⟨f, stored, fails, status, matched, sparing, f', stored', same, cached⟩ : ∃ f ∈ matching.store.files, f.verifyFails = 0 ∧
      f.status = .verifying ∧ matching.At f .matched ∧
        Meets (next holdsOneTwo) (fun d e => Careful d e ∧ ¬ Requeues f.id e) matching stoppedLinked ∧
        ∃ f' ∈ recordedTwice.store.files, f'.id = f.id ∧ f'.status = .cached := by decide
  have spared := hashed_file_spared ran careful stored (.inr ⟨status, matched⟩) went sparing stored' same
  exact ⟨f', stored', cached, spared.1.trans fails, spared.2⟩

end Verifying
end Hfdl
