import Hfdl.Inode
import Hfdl.Store.Progress

/-! The staging files under the file state machine. Downloads write into them and
checkpoint, salvage copies a reference over them, and publication takes them away,
each under its own file lease and in steps of its own. -/
namespace Hfdl
open Relational Transition

/-- The work of the process under one file lease. A task that has opened the staging path goes
on with the file it opened then, whatever the path names later. -/
inductive Task where
  | download (file : FileId) (size : Int) (opened : Option Nat)
  | salvage (file : FileId) (size : Int) (opened : Option Nat) (copied : Nat) (synced : Bool)
  | verify (file : FileId) (opened : Option Nat)

structure Staging extends Links FileId Inode where
  store : Store
  tasks : LeaseToken → Option Task

namespace Staging

inductive Event where
  | call (op : Operation)
  | leaseDownload (file : FileId) (tok : LeaseToken) (now : Time)
  | leaseSalvage (tok : LeaseToken) (now : Time)
  | leaseVerify (tok : LeaseToken) (now : Time)
  | openPath (tok : LeaseToken)
  | fetch (tok : LeaseToken) (off : Int) (length : Nat)
  | pad (tok : LeaseToken) (off : Int) (length : Nat)
  | fill (tok : LeaseToken) (off : Int) (length : Nat)
  | sync (tok : LeaseToken)
  | checkpoint (tok : LeaseToken) (blob : Blob)
  | copy (tok : LeaseToken) (bytes : List UInt8)
  | record (tok : LeaseToken)
  | publish (tok : LeaseToken)
  | flush (file : FileId) (number : Nat) (picked : Int → Bool)
  | crash (powerLoss : Bool)

/-- The calls that only a task makes. -/
def Reserved : Operation → Bool
  | .leaseFileForDownload .. | .leaseSalvage .. | .leaseVerify .. | .saveProgress _ _ (some _) => true
  | _ => false

def assign (d : Staging) (tok : LeaseToken) (t : Task) : Staging := { d with tasks := Function.update d.tasks tok (some t) }

def modify (d : Staging) (file : FileId) (number : Nat) (change : Inode → Inode) : Staging :=
  { d with toLinks := d.toLinks.modify file number change }

/-- An allocation only ever extends the file. -/
def openStaging (d : Staging) (file : FileId) (size : Int) : Staging × Nat :=
  let (links, number) := d.toLinks.openPath file .empty
  ({ d with toLinks := links.modify file number (·.extend size) }, number)

def sourceBytes (truth : Int → UInt8) (off : Int) (length : Nat) : List UInt8 :=
  (List.range length).map fun n : Nat => truth (off + n)

section
variable (source : FileId → Int → UInt8)

/-- A fetch writes bytes of the source, a pad the zeros after a stream that was cut short, and the fill of
a verification zeros where it has found a hole. The copy of
a reference goes through the file from its start, and its record opens the path again to sync it.
Publication links the staging file to its blob and removes the staging path. -/
def next (d : Staging) : Event → Option Staging
  | .call op => if op.Issued ∧ ¬ Reserved op then some { d with store := op.commit d.store } else none
  | .leaseDownload file tok now =>
    match d.tasks tok, d.store.files.get file, d.store.leaseFileForDownload file tok now with
    | none, some f, .ok store => some ({ d with store }.assign tok (.download file f.size none))
    | _, _, _ => none
  | .leaseSalvage tok now =>
    match d.tasks tok, d.store.leaseSalvage tok now with
    | none, .ok (f, store) => some ({ d with store }.assign tok (.salvage f.id f.size none 0 false))
    | _, _ => none
  | .leaseVerify tok now =>
    match d.tasks tok, d.store.leaseVerify tok now with
    | none, .ok (f, store) => some ({ d with store }.assign tok (.verify f.id none))
    | _, _ => none
  | .openPath tok =>
    match d.tasks tok with
    | some (.download file size none) =>
      let (d, number) := d.openStaging file size
      some (d.assign tok (.download file size (some number)))
    | some (.salvage file size none _ _) =>
      let (d, number) := d.openStaging file size
      some (d.assign tok (.salvage file size (some number) 0 false))
    | some (.verify file none) =>
      let (d, number) := d.openStaging file (-1)
      some (d.assign tok (.verify file (some number)))
    | _ => none
  | .fetch tok off length =>
    match d.tasks tok with
    | some (.download file _ (some number)) => some (d.modify file number (·.write off (sourceBytes (source file) off length)))
    | _ => none
  | .pad tok off length =>
    match d.tasks tok with
    | some (.download file _ (some number)) => some (d.modify file number (·.write off (List.replicate length 0)))
    | _ => none
  | .fill tok off length =>
    match d.tasks tok with
    | some (.verify file (some number)) => some (d.modify file number (·.write off (List.replicate length 0)))
    | _ => none
  | .sync tok =>
    match d.tasks tok with
    | some (.download file _ (some number)) => some (d.modify file number Inode.sync)
    | some (.salvage file size (some _) copied false) =>
      if copied = size then
        let (d, number) := d.openStaging file (-1)
        some ((d.modify file number Inode.sync).assign tok (.salvage file size (some number) copied true))
      else none
    | _ => none
  | .checkpoint tok blob =>
    match d.tasks tok with
    | some (.download file _ (some _)) => some { d with store := (Operation.saveProgress file tok (some blob)).commit d.store }
    | _ => none
  | .copy tok bytes =>
    match d.tasks tok with
    | some (.salvage file size (some number) copied false) =>
      some ((d.modify file number (·.write copied bytes)).assign tok
        (.salvage file size (some number) (copied + bytes.length) false))
    | _ => none
  | .record tok =>
    match d.tasks tok with
    | some (.salvage file size _ _ true) =>
      if size ≤ maxInt64 then
        some { d with store := (Operation.saveProgress file tok (some (fullIntervalBlob size))).commit d.store }
      else none
    | _ => none
  | .publish tok =>
    match d.tasks tok with
    | some (.verify file _) => some { d with links := Function.update d.links file none }
    | _ => none
  | .flush file number picked => some (d.modify file number (·.flush picked))
  | .crash powerLoss => some { d with
      tasks := fun _ => none
      inodes := fun file number => if powerLoss then (d.inodes file number).lose else d.inodes file number }

inductive Step (d : Staging) : Event → Staging → Prop where
  | call (issued : op.Issued) (free : ¬ Reserved op) : Step d (.call op) { d with store := op.commit d.store }
  | leaseDownload (unused : d.tasks tok = none) (leased : d.store.leaseFileForDownload file tok now = .ok after) :
      Step d (.leaseDownload file tok now) ({ d with store := after }.assign tok (.download file size none))
  | leaseSalvage (unused : d.tasks tok = none) (leased : d.store.leaseSalvage tok now = .ok (f, after)) :
      Step d (.leaseSalvage tok now) ({ d with store := after }.assign tok (.salvage f.id f.size none 0 false))
  | leaseVerify (unused : d.tasks tok = none) (leased : d.store.leaseVerify tok now = .ok (f, after)) :
      Step d (.leaseVerify tok now) ({ d with store := after }.assign tok (.verify f.id none))
  | openDownload (here : d.tasks tok = some (.download file size none)) :
      Step d (.openPath tok) ((d.openStaging file size).1.assign tok (.download file size (some (d.openStaging file size).2)))
  | openSalvage (here : d.tasks tok = some (.salvage file size none copied synced)) :
      Step d (.openPath tok)
        ((d.openStaging file size).1.assign tok (.salvage file size (some (d.openStaging file size).2) 0 false))
  | openVerify (here : d.tasks tok = some (.verify file none)) :
      Step d (.openPath tok) ((d.openStaging file (-1)).1.assign tok (.verify file (some (d.openStaging file (-1)).2)))
  | fetch (here : d.tasks tok = some (.download file size (some number))) :
      Step d (.fetch tok off length) (d.modify file number (·.write off (sourceBytes (source file) off length)))
  | pad (here : d.tasks tok = some (.download file size (some number))) :
      Step d (.pad tok off length) (d.modify file number (·.write off (List.replicate length 0)))
  | fill (here : d.tasks tok = some (.verify file (some number))) :
      Step d (.fill tok off length) (d.modify file number (·.write off (List.replicate length 0)))
  | syncDownload (here : d.tasks tok = some (.download file size (some number))) :
      Step d (.sync tok) (d.modify file number Inode.sync)
  | syncSalvage (here : d.tasks tok = some (.salvage file size (some number) copied false)) (whole : copied = size) :
      Step d (.sync tok) (((d.openStaging file (-1)).1.modify file (d.openStaging file (-1)).2 Inode.sync).assign tok
        (.salvage file size (some (d.openStaging file (-1)).2) copied true))
  | checkpoint (here : d.tasks tok = some (.download file size (some number))) :
      Step d (.checkpoint tok blob) { d with store := (Operation.saveProgress file tok (some blob)).commit d.store }
  | copy (here : d.tasks tok = some (.salvage file size (some number) copied false)) :
      Step d (.copy tok bytes) ((d.modify file number (·.write copied bytes)).assign tok
        (.salvage file size (some number) (copied + bytes.length) false))
  | record (here : d.tasks tok = some (.salvage file size opened copied true)) (fits : size ≤ maxInt64) :
      Step d (.record tok)
        { d with store := (Operation.saveProgress file tok (some (fullIntervalBlob size))).commit d.store }
  | publish (here : d.tasks tok = some (.verify file opened)) :
      Step d (.publish tok) { d with links := Function.update d.links file none }
  | flush : Step d (.flush file number picked) (d.modify file number (·.flush picked))
  | crash : Step d (.crash powerLoss) { d with
      tasks := fun _ => none
      inodes := fun file number => if powerLoss then (d.inodes file number).lose else d.inodes file number }

variable {source} {d d' : Staging}

theorem next_step (stepped : next source d e = some d') : Step source d e d' := by
  unfold next at stepped
  grind [Step]

/-- Every byte of the ranges is a durable byte of the source. -/
def Backed (i : Inode) (truth : Int → UInt8) (iv : List Interval) : Prop :=
  ∀ v ∈ iv, ∀ n < (v.stop - v.start).toNat, i.Keeps (v.start + n) (truth (v.start + n))

instance {i : Inode} {truth : Int → UInt8} {iv : List Interval} : Decidable (Backed i truth iv) :=
  inferInstanceAs (Decidable (∀ v ∈ iv, ∀ n < (v.stop - v.start).toNat, i.Keeps (v.start + n) (truth (v.start + n))))

theorem Backed.keeps {iv : List Interval} (backed : Backed i truth iv) (covered : Covered iv x) : i.Keeps x (truth x) := by
  obtain ⟨v, member, left, right⟩ := covered
  have kept := backed v member (x - v.start).toNat (by omega)
  have here : v.start + ((x - v.start).toNat : Int) = x := by omega
  rwa [here] at kept

def sink (d : Staging) (tok : LeaseToken) : Option (FileId × Nat) :=
  match d.tasks tok with
  | some (.download file _ (some number)) => some (file, number)
  | _ => none

def copying (d : Staging) (tok : LeaseToken) : Option (FileId × Nat) :=
  match d.tasks tok with
  | some (.salvage file _ _ copied _) => some (file, copied)
  | _ => none

def verifying (d : Staging) (tok : LeaseToken) : Option FileId :=
  match d.tasks tok with
  | some (.verify file _) => some file
  | _ => none

/-- Checkpoints persist only written and synced source bytes. -/
def Checkpointed (source : FileId → Int → UInt8) (d : Staging) : Event → Prop
  | .checkpoint tok blob => ∀ seed ∈ (decodeProgress (some blob)).toOption, ∀ p ∈ d.sink tok,
      Backed (d.inodes p.1 p.2) (source p.1) seed.iv
  | _ => True

instance (d : Staging) : DecidablePred (d.Checkpointed source) := fun e => by
  unfold Checkpointed
  split <;> infer_instance

def requeued : Operation → Option FileId
  | .transitionFile file _ .cached .queued _ _ => some file
  | _ => none

/-- A cached file is re-queued only without progress, a reference has the bytes of the source, a pad
hits no byte that the progress covers, and a task whose lease was swept neither pads, fills nor publishes. -/
def Careful (source : FileId → Int → UInt8) (d : Staging) : Event → Prop
  | .call op => ∀ file ∈ requeued op, ∀ f ∈ d.store.files, f.id = file → f.progress.getD [] = []
  | .pad tok off length => ∀ p ∈ d.sink tok, ∃ f ∈ d.store.files, f.Held p.1 [.downloading] tok ∧
      ∀ n < length, ¬ BlobCovers f.progress (off + n)
  | .copy tok bytes => ∀ p ∈ d.copying tok, bytes = sourceBytes (source p.1) p.2 bytes.length
  | .fill tok _ _ | .publish tok => ∀ file ∈ d.verifying tok, ∃ f ∈ d.store.files, f.Held file [.verifying] tok
  | _ => True

instance (d : Staging) : DecidablePred (d.Careful source) := fun e => by
  unfold Careful
  split <;> infer_instance

/-- The staging file has a byte that a download may build on. -/
def Held (source : FileId → Int → UInt8) (d : Staging) (file : FileId) (x : Int) : Prop :=
  ∃ number, d.links file = some number ∧ (d.inodes file number).Keeps x (source file x)

/-- A task that still holds its lease works on the file its staging path names. What a salvage has copied
are bytes of the source. -/
def TaskOk (source : FileId → Int → UInt8) (d : Staging) (tok : LeaseToken) : Task → Prop
  | .download file _ opened => ∀ f ∈ d.store.files, f.id = file → f.leaseToken = some tok →
      f.status = .downloading ∧ ∀ number ∈ opened, d.links file = some number
  | .salvage file size opened copied synced => ∀ f ∈ d.store.files, f.id = file → f.leaseToken = some tok →
      f.status = .salvaging ∧
        (∀ number ∈ opened, d.links file = some number ∧
          ∀ x : Int, 0 ≤ x → x < copied → (d.inodes file number).Shows x (source file x)) ∧
        (synced = true → 0 ≤ size ∧ ∀ x : Int, 0 ≤ x → x < size → d.Held source file x)
  | .verify .. => True

structure Inv (source : FileId → Int → UInt8) (d : Staging) : Prop where
  leased : d.store.Leased
  backed : ∀ f ∈ d.store.files, f.status.Resumable → ∀ x, BlobCovers f.progress x → d.Held source f.id x
  tasks : ∀ tok t, d.tasks tok = some t → d.TaskOk source tok t

theorem TaskOk.rows {s' : Store} (ok : d.TaskOk source tok t)
    (origin : ∀ f' ∈ s'.files, f'.leaseToken = some tok → ∃ f ∈ d.store.files, f'.id = f.id ∧ f.leaseToken = some tok ∧
        f'.status = f.status) :
    { d with store := s' }.TaskOk source tok t := by
  cases t with
  | download file size opened =>
    intro f' stored' here token
    obtain ⟨f, stored, id, token', status⟩ := origin f' stored' token
    rw [status]
    exact ok f stored (id.symm.trans here) token'
  | salvage file size opened copied synced =>
    intro f' stored' here token
    obtain ⟨f, stored, id, token', status⟩ := origin f' stored' token
    rw [status]
    exact ok f stored (id.symm.trans here) token'
  | verify => trivial

/-- A committed call, given what it may save as progress and what it re-queues. -/
theorem Inv.exec {s' : Store} {op : Operation} (inv : Inv source d) (done : op.exec d.store = .ok s') (issued : op.Issued)
    (other : ∀ tok, d.tasks tok ≠ none → op.granted ≠ some tok)
    (saved : ∀ file tok blob, op = .saveProgress file tok (some blob) → ∀ f ∈ d.store.files,
      f.Held file [.downloading, .salvaging] tok → ∀ x, BlobCovers (some blob) x → d.Held source file x)
    (forced : ∀ file tok cause now, op = .transitionFile file tok .cached .queued cause now → ∀ f ∈ d.store.files,
      f.id = file → ∀ x, ¬ BlobCovers f.progress x) : Inv source { d with store := s' } := by
  have evolves := Operation.exec_evolution done
  refine ⟨Operation.exec_leased inv.leased issued.targetFree done, ?_, ?_⟩
  · intro f' stored' resumable x covered
    rcases evolves.files.origin f' stored' with ⟨f, stored, changed⟩ | ⟨_, _, _, -, _, -, _, rfl⟩
    · rw [changed.id]
      rcases changed.resumable issued resumable with ⟨before, same⟩ | cleared | ⟨file, tok, blob, rfl, held, same⟩ |
        ⟨tok, cause, now, rfl, same⟩
      · exact inv.backed f stored before x (same ▸ covered)
      · exact absurd (cleared ▸ covered) not_blobCovers_none
      · exact held.1 ▸ saved file tok blob rfl f stored held x (same ▸ covered)
      · exact absurd (same ▸ covered) (forced _ _ _ _ rfl f stored rfl x)
    · exact absurd covered not_blobCovers_none
  · intro tok t here
    refine (inv.tasks tok t here).rows fun f' stored' token => ?_
    rcases evolves.files.origin f' stored' with ⟨f, stored, changed⟩ | ⟨_, _, _, -, _, -, _, rfl⟩
    · have known : d.tasks tok ≠ none := by
        rw [here]
        nofun
      obtain ⟨token', status⟩ := changed.held (inv.leased.files f stored) token (other tok known)
      exact ⟨f, stored, changed.id, token', status⟩
    · cases token

theorem Inv.commit {op : Operation} (inv : Inv source d) (issued : op.Issued)
    (other : ∀ tok, d.tasks tok ≠ none → op.granted ≠ some tok)
    (saved : ∀ file tok blob, op = .saveProgress file tok (some blob) → ∀ f ∈ d.store.files,
      f.Held file [.downloading, .salvaging] tok → ∀ x, BlobCovers (some blob) x → d.Held source file x)
    (forced : ∀ file tok cause now, op = .transitionFile file tok .cached .queued cause now → ∀ f ∈ d.store.files,
      f.id = file → ∀ x, ¬ BlobCovers f.progress x) : Inv source { d with store := op.commit d.store } :=
  Operation.commit_preserves (P := fun s' => Inv source { d with store := s' }) inv fun _ done =>
    inv.exec done issued other saved forced

theorem Inv.assign (inv : Inv source d) (ok : d.TaskOk source tok t) : Inv source (d.assign tok t) := by
  refine ⟨inv.leased, inv.backed, fun tok' t' here => ?_⟩
  rcases update_eq_some.mp here with ⟨rfl, same⟩ | ⟨-, here⟩
  · cases same
    exact ok
  · exact inv.tasks tok' t' here

/-- Everything that keeps the linked files and the source bytes in them keeps the invariant. -/
structure Preserves (source : FileId → Int → UInt8) (d d' : Staging) : Prop where
  store : d'.store = d.store
  tasks : d'.tasks = d.tasks
  links : ∀ file number, d.links file = some number → d'.links file = some number
  shows : ∀ file number x, d.links file = some number → (d.inodes file number).Shows x (source file x) →
    (d'.inodes file number).Shows x (source file x)
  keeps : ∀ file number x, d.links file = some number → (d.inodes file number).Keeps x (source file x) →
    (d'.inodes file number).Keeps x (source file x)

theorem Preserves.trans (first : Preserves source d d') (second : Preserves source d' d'') : Preserves source d d'' :=
  ⟨second.store.trans first.store, second.tasks.trans first.tasks, fun _ _ linked => second.links _ _ (first.links _ _ linked),
    fun _ _ _ linked shown => second.shows _ _ _ (first.links _ _ linked) (first.shows _ _ _ linked shown),
    fun _ _ _ linked kept => second.keeps _ _ _ (first.links _ _ linked) (first.keeps _ _ _ linked kept)⟩

theorem Preserves.held (kept : Preserves source d d') (held : d.Held source file x) : d'.Held source file x := by
  obtain ⟨number, linked, keeps⟩ := held
  exact ⟨number, kept.links file number linked, kept.keeps file number x linked keeps⟩

theorem Preserves.taskOk (kept : Preserves source d d') (ok : d.TaskOk source tok t) : d'.TaskOk source tok t := by
  cases t with
  | download file size opened =>
    intro f stored here token
    obtain ⟨status, linked⟩ := ok f (kept.store ▸ stored) here token
    exact ⟨status, fun number member => kept.links file number (linked number member)⟩
  | salvage file size opened copied synced =>
    intro f stored here token
    obtain ⟨status, linked, whole⟩ := ok f (kept.store ▸ stored) here token
    refine ⟨status, fun number member => ?_, fun done => ?_⟩
    · obtain ⟨link, shown⟩ := linked number member
      exact ⟨kept.links file number link, fun x left right => kept.shows file number x link (shown x left right)⟩
    · obtain ⟨nonneg, held⟩ := whole done
      exact ⟨nonneg, fun x left right => kept.held (held x left right)⟩
  | verify => trivial

theorem Inv.preserved (inv : Inv source d) (kept : Preserves source d d') : Inv source d' := by
  constructor
  · exact kept.store ▸ inv.leased
  · intro f stored resumable x covered
    exact kept.held (inv.backed f (kept.store ▸ stored) resumable x covered)
  · intro tok t here
    exact kept.taskOk (inv.tasks tok t (kept.tasks ▸ here))

theorem preserves_modify
    (shows : ∀ x, (d.inodes file number).Shows x (source file x) → (change (d.inodes file number)).Shows x (source file x))
    (keeps : ∀ x, (d.inodes file number).Keeps x (source file x) → (change (d.inodes file number)).Keeps x (source file x)) :
    Preserves source d (d.modify file number change) := by
  refine ⟨rfl, rfl, fun _ _ linked => linked, fun file' number' x _ shown => ?_, fun file' number' x _ kept => ?_⟩
  · by_cases same : file' = file ∧ number' = number
    · obtain ⟨rfl, rfl⟩ := same
      rw [modify, Links.modify_self]
      exact shows x shown
    · rw [modify, Links.modify_other (by tauto)]
      exact shown
  · by_cases same : file' = file ∧ number' = number
    · obtain ⟨rfl, rfl⟩ := same
      rw [modify, Links.modify_self]
      exact keeps x kept
    · rw [modify, Links.modify_other (by tauto)]
      exact kept

theorem preserves_openStaging : Preserves source d (d.openStaging file size).1 := by
  have opened : Preserves source d { d with toLinks := (d.toLinks.openPath file .empty).1 } :=
    ⟨rfl, rfl, fun _ _ linked => (Links.openPath_kept linked).1,
      fun _ _ _ linked shown => (Links.openPath_kept linked).2.symm ▸ shown,
      fun _ _ _ linked kept => (Links.openPath_kept linked).2.symm ▸ kept⟩
  have extended : Preserves source { d with toLinks := (d.toLinks.openPath file .empty).1 } (d.openStaging file size).1 :=
    preserves_modify (fun _ shown => shown.extend) fun _ kept => kept.extend
  exact opened.trans extended

theorem sourceBytes_get (left : off ≤ x) (right : x < off + (sourceBytes truth off length).length) :
    (sourceBytes truth off length)[(x - off).toNat]? = some (truth x) := by
  have within : (x - off).toNat < length := by
    simp only [sourceBytes, List.length_map, List.length_range] at right
    omega
  have here : off + ((x - off).toNat : Int) = x := by omega
  simp only [sourceBytes, List.getElem?_map, List.getElem?_range within, Option.map_some, here]

/-- Zeros are written for the row of a download or a verification, not over what the row may be resumed from. -/
theorem Inv.zero {length : Nat} (inv : Inv source d) (stored : f ∈ d.store.files) (status : f.status ≠ .salvaging)
    (clear : f.status.Resumable → ∀ n < length, ¬ BlobCovers f.progress (off + n)) :
    Inv source (d.modify f.id number (·.write off (List.replicate length 0))) := by
  constructor
  · exact inv.leased
  · intro f₀ stored₀ resumable x covered
    obtain ⟨number₀, linked, kept⟩ := inv.backed f₀ stored₀ resumable x covered
    refine ⟨number₀, linked, ?_⟩
    by_cases same : f₀.id = f.id ∧ number₀ = number
    · -- the offset is covered, so the pad does not reach it
      obtain ⟨id, rfl⟩ := same
      obtain rfl := Table.eq_of_key stored₀ stored id
      rw [modify, Links.modify_self]
      refine kept.write fun left right => ?_
      rw [List.length_replicate] at right
      have outside := clear resumable (x - off).toNat (by omega)
      have here : off + ((x - off).toNat : Int) = x := by omega
      exact absurd covered (here ▸ outside)
    · rw [modify, Links.modify_other (by tauto)]
      exact kept
  · intro tok t here
    have ok := inv.tasks tok t here
    cases t with
    | download => exact ok
    | verify => trivial
    | salvage file size opened copied synced =>
      intro f₀ stored₀ id token
      obtain ⟨salvaging, rest⟩ := ok f₀ stored₀ id token
      have apart : file ≠ f.id := by
        rintro rfl
        exact status (Table.eq_of_key stored₀ stored id ▸ salvaging)
      refine ⟨salvaging, fun number' member => ?_, fun done => ?_⟩
      · rw [modify, Links.modify_other (.inl apart)]
        exact rest.1 number' member
      · obtain ⟨nonneg, whole⟩ := rest.2 done
        refine ⟨nonneg, fun x left right => ?_⟩
        obtain ⟨number', linked, kept⟩ := whole x left right
        exact ⟨number', linked, by rw [modify, Links.modify_other (.inl apart)]; exact kept⟩

theorem Inv.publish (inv : Inv source d) (stored : f ∈ d.store.files) (held : f.Held file [.verifying] tok) :
    Inv source { d with links := Function.update d.links file none } := by
  obtain ⟨rfl, verifying, -⟩ := held
  rw [List.mem_singleton] at verifying
  -- rows in another status are those of other files
  have apart : ∀ f₀ ∈ d.store.files, f₀.status ≠ .verifying → f₀.id ≠ f.id := fun f₀ stored₀ status id =>
    status (Table.eq_of_key stored₀ stored id ▸ verifying)
  constructor
  · exact inv.leased
  · intro f₀ stored₀ resumable x covered
    obtain ⟨number, linked, kept⟩ := inv.backed f₀ stored₀ resumable x covered
    refine ⟨number, (Function.update_of_ne (apart f₀ stored₀ fun same => ?_) ..).trans linked, kept⟩
    rw [same] at resumable
    exact resumable
  · intro tok t here
    have ok := inv.tasks tok t here
    cases t with
    | verify => trivial
    | download file size opened =>
      intro f₀ stored₀ id token
      obtain ⟨downloading, linked⟩ := ok f₀ stored₀ id token
      have other := id ▸ apart f₀ stored₀ (by rw [downloading]; nofun)
      exact ⟨downloading, fun number member => (Function.update_of_ne other ..).trans (linked number member)⟩
    | salvage file size opened copied synced =>
      intro f₀ stored₀ id token
      obtain ⟨salvaging, linked, whole⟩ := ok f₀ stored₀ id token
      have other := id ▸ apart f₀ stored₀ (by rw [salvaging]; nofun)
      refine ⟨salvaging, fun number member => ?_, fun done => ?_⟩
      · obtain ⟨link, shown⟩ := linked number member
        exact ⟨(Function.update_of_ne other ..).trans link, shown⟩
      · obtain ⟨nonneg, held⟩ := whole done
        refine ⟨nonneg, fun x left right => ?_⟩
        obtain ⟨number, link, kept⟩ := held x left right
        exact ⟨number, (Function.update_of_ne other ..).trans link, kept⟩

theorem Inv.crash {powerLoss : Bool} (inv : Inv source d) : Inv source { d with
    tasks := fun _ => none
    inodes := fun file number => if powerLoss then (d.inodes file number).lose else d.inodes file number } := by
  constructor
  · exact inv.leased
  · intro f stored resumable x covered
    obtain ⟨number, linked, kept⟩ := inv.backed f stored resumable x covered
    refine ⟨number, linked, ?_⟩
    simp only
    split
    · exact kept.lose
    · exact kept
  · exact fun _ _ never => nomatch never

theorem Inv.fetch (inv : Inv source d) :
    Inv source (d.modify file number (·.write off (sourceBytes (source file) off length))) :=
  inv.preserved (preserves_modify (fun _ shown => shown.write sourceBytes_get) fun _ kept => kept.write sourceBytes_get)

theorem Inv.copy (inv : Inv source d) (here : d.tasks tok = some (.salvage file size (some number) copied false))
    (faithful : bytes = sourceBytes (source file) copied bytes.length) :
    Inv source ((d.modify file number (·.write copied bytes)).assign tok
      (.salvage file size (some number) (copied + bytes.length) false)) := by
  have written : ∀ x, (copied : Int) ≤ x → x < copied + bytes.length →
      bytes[(x - copied).toNat]? = some (source file x) := by
    intro x left right
    rw [faithful] at right ⊢
    exact sourceBytes_get left right
  have kept : Preserves source d (d.modify file number (·.write copied bytes)) :=
    preserves_modify (fun x shown => shown.write (written x)) fun x kept => kept.write (written x)
  refine (inv.preserved kept).assign fun f stored id token => ?_
  obtain ⟨status, linked, -⟩ := (inv.preserved kept).tasks tok _ here f stored id token
  refine ⟨status, fun number' member => ?_, nofun⟩
  obtain ⟨link, shown⟩ := linked number' member
  refine ⟨link, fun x left right => ?_⟩
  by_cases before : x < copied
  · exact shown x left before
  · cases member
    rw [modify, Links.modify_self]
    exact Inode.shows_write_of_mem (by omega) (by omega) (written x (by omega) (by omega))

theorem Inv.syncSalvage (inv : Inv source d) (here : d.tasks tok = some (.salvage file size (some number) copied false))
    (whole : copied = size) :
    Inv source (((d.openStaging file (-1)).1.modify file (d.openStaging file (-1)).2 Inode.sync).assign tok
      (.salvage file size (some (d.openStaging file (-1)).2) copied true)) := by
  have opened : Preserves source d (d.openStaging file (-1)).1 := preserves_openStaging
  have inv' := inv.preserved opened
  have here' : (d.openStaging file (-1)).1.tasks tok = some (.salvage file size (some number) copied false) := opened.tasks ▸ here
  have linked' : (d.openStaging file (-1)).1.links file = some (d.openStaging file (-1)).2 := Links.links_openPath
  generalize (d.openStaging file (-1)).1 = d₁ at inv' here' linked' opened ⊢
  generalize (d.openStaging file (-1)).2 = number' at linked' ⊢
  have synced : Preserves source d₁ (d₁.modify file number' Inode.sync) :=
    preserves_modify (fun _ shown => shown) fun _ kept => kept.1.sync
  refine (inv'.preserved synced).assign fun f stored id token => ?_
  obtain ⟨status, linked, -⟩ := inv'.tasks tok _ here' f stored id token
  obtain ⟨link, shown⟩ := linked number rfl
  obtain rfl := Option.some.inj (link.symm.trans linked')
  refine ⟨status, fun _ member => ?_, fun _ => ⟨by omega, fun x left right => ?_⟩⟩
  · cases member
    exact ⟨link, fun x left right => synced.shows file number x link (shown x left right)⟩
  · exact ⟨number, link, by rw [modify, Links.modify_self]; exact (shown x left (by omega)).sync⟩

theorem Inv.grant {op : Operation} (inv : Inv source d) (done : op.exec d.store = .ok after) (unused : d.tasks tok = none)
    (grants : op.granted = some tok) (issued : op.Issued) (unsaved : ∀ file tok blob, op ≠ .saveProgress file tok (some blob))
    (unforced : ∀ file tok cause now, op ≠ .transitionFile file tok .cached .queued cause now) :
    Inv source { d with store := after } := by
  refine inv.exec done issued (fun tok' known same => ?_) (fun _ _ _ same => absurd same (unsaved _ _ _)) fun _ _ _ _ same =>
    absurd same (unforced _ _ _ _)
  obtain rfl := Option.some.inj (grants.symm.trans same)
  exact known unused

theorem Inv.leaseDownload (inv : Inv source d) (unused : d.tasks tok = none)
    (leased : d.store.leaseFileForDownload file tok now = .ok after) :
    Inv source ({ d with store := after }.assign tok (.download file size none)) := by
  have done : (Operation.leaseFileForDownload file tok now).exec d.store = .ok after := leased
  have inv' := inv.grant done unused rfl trivial nofun nofun
  exact inv'.assign fun f stored id _ => ⟨Store.downloading_of_lease leased stored id, nofun⟩

theorem Inv.leaseSalvage (inv : Inv source d) (unused : d.tasks tok = none)
    (leased : d.store.leaseSalvage tok now = .ok (f, after)) :
    Inv source ({ d with store := after }.assign tok (.salvage f.id f.size none 0 false)) := by
  have done : (Operation.leaseSalvage tok now).exec d.store = .ok after := Operation.map_snd_ok leased
  have inv' := inv.grant done unused rfl trivial nofun nofun
  refine inv'.assign fun f' stored id _ => ⟨?_, nofun, nofun⟩
  obtain ⟨f₁, known, offered, rfl, rfl⟩ := Store.claimFile_ok leased
  obtain ⟨f₀, before, rfl⟩ := Table.mem_update.mp stored
  split
  · rename_i same
    rw [Table.eq_of_key before known same]
    exact offered.1
  · rename_i other
    rw [if_neg other] at id
    exact absurd id other

theorem Inv.save (inv : Inv source d)
    (saved : ∀ f ∈ d.store.files, f.Held file [.downloading, .salvaging] tok → ∀ x,
        BlobCovers (some blob) x → d.Held source file x) :
    Inv source { d with store := (Operation.saveProgress file tok (some blob)).commit d.store } := by
  refine inv.commit trivial nofun ?_ nofun
  intro _ _ _ same
  cases same
  exact saved

theorem inv_next (inv : Inv source d) (meets : d.Checkpointed source e ∧ d.Careful source e)
    (stepped : next source d e = some d') : Inv source d' := by
  obtain ⟨checkpointed, careful⟩ := meets
  cases next_step stepped with
  | @call op issued free =>
    refine inv.commit issued (fun tok _ granted => ?_) ?_ ?_
    · cases op <;> first | exact free rfl | cases granted
    · rintro _ _ _ rfl
      exact absurd rfl free
    · rintro file tok cause now rfl f stored here x
      exact not_blobCovers_empty (careful file rfl f stored here)
  | leaseDownload unused leased => exact inv.leaseDownload unused leased
  | leaseSalvage unused leased => exact inv.leaseSalvage unused leased
  | @leaseVerify tok now f after unused leased =>
    have done : (Operation.leaseVerify tok now).exec d.store = .ok after := Operation.map_snd_ok leased
    exact (inv.grant done unused rfl trivial nofun nofun).assign trivial
  | openDownload here =>
    refine (inv.preserved preserves_openStaging).assign fun f stored id token => ?_
    obtain ⟨status, -⟩ := inv.tasks _ _ here f stored id token
    refine ⟨status, fun _ member => ?_⟩
    cases member
    exact Links.links_openPath
  | openSalvage here =>
    refine (inv.preserved preserves_openStaging).assign fun f stored id token => ?_
    obtain ⟨status, -⟩ := inv.tasks _ _ here f stored id token
    refine ⟨status, fun _ member => ?_, nofun⟩
    cases member
    exact ⟨Links.links_openPath, fun x left right => absurd right (by omega)⟩
  | openVerify => exact (inv.preserved preserves_openStaging).assign trivial
  | fetch => exact inv.fetch
  | pad here =>
    obtain ⟨f, stored, held, clear⟩ := careful (_, _) (by rw [sink, here]; rfl)
    obtain ⟨rfl, downloading, -⟩ := held
    exact inv.zero stored (by rw [List.mem_singleton.mp downloading]; nofun) fun _ => clear
  | fill here =>
    obtain ⟨f, stored, rfl, verifying, -⟩ := careful _ (by rw [verifying, here]; rfl)
    rw [List.mem_singleton] at verifying
    exact inv.zero stored (by rw [verifying]; nofun) fun resumable => by rw [verifying] at resumable; exact resumable.elim
  | syncDownload => exact inv.preserved (preserves_modify (fun _ shown => shown) fun _ kept => kept.1.sync)
  | syncSalvage here whole => exact inv.syncSalvage here whole
  | checkpoint here =>
    refine inv.save fun f stored held x covered => ?_
    obtain ⟨seed, decoded, covers⟩ := blobCovers_iff.mp covered
    have backed := checkpointed seed (by rw [decoded]; rfl) (_, _) (by rw [sink, here]; rfl)
    obtain ⟨-, linked⟩ := inv.tasks _ _ here f stored held.1 held.2.2
    exact ⟨_, linked _ rfl, backed.keeps covers⟩
  | copy here => exact inv.copy here (careful (_, _) (by rw [copying, here]; rfl))
  | record here fits =>
    refine inv.save fun f stored held x covered => ?_
    obtain ⟨seed, decoded, covers⟩ := blobCovers_iff.mp covered
    obtain ⟨-, -, whole⟩ := inv.tasks _ _ here f stored held.1 held.2.2
    obtain ⟨nonneg, kept⟩ := whole rfl
    obtain ⟨left, right⟩ := fullIntervalBlob_covers nonneg fits decoded covers
    exact kept x left right
  | publish here =>
    obtain ⟨f, stored, held⟩ := careful _ (by rw [verifying, here]; rfl)
    exact inv.publish stored held
  | flush => exact inv.preserved (preserves_modify (fun _ shown => shown) fun _ kept => kept.flush)
  | crash => exact inv.crash

end

def initial (owner : String) : Staging := ⟨⟨fun _ => none, fun _ _ => .empty, fun _ => 0⟩, .empty owner, fun _ => none⟩

theorem inv_initial : Inv source (initial owner) :=
  ⟨.empty, fun _ stored => (Table.not_mem_empty _ stored).elim, nofun⟩

/-- In a careful run every offset covered by the progress of a waiting or downloading file is a
byte of the source in its staging file. -/
theorem progress_never_overclaims (ran : run (next source) (initial owner) events = some d)
    (meets : Meets (next source) (fun d e => d.Checkpointed source e ∧ d.Careful source e) (initial owner) events)
    (stored : f ∈ d.store.files) (waiting : f.status = .queued ∨ f.status = .downloading) (covered : BlobCovers f.progress x) :
    ∃ number, d.links f.id = some number ∧ (d.inodes f.id number).Shows x (source f.id x) := by
  have inv : Inv source d := invariant_meeting inv_next inv_initial ran meets
  have resumable : f.status.Resumable := by
    rcases waiting with status | status <;> rw [status] <;> trivial
  obtain ⟨number, linked, kept⟩ := inv.backed f stored resumable x covered
  exact ⟨number, linked, kept.1⟩

/-- A download of four bytes in one block, checkpointed in full. -/
def fetched : List Event :=
  [.call (.enqueueJob wholeRepo), .call (.leaseMeta "list" 0),
    .call (.setCommitSHA 1 "list" "sha"), .call (.completeListing 1 "list" [⟨"weights", 4, "", "", "", false⟩]),
    .leaseDownload 1 "file" 0, .call (.replacePendingBlocks 1 "file" [⟨0, 0, 4⟩]), .openPath "file",
    .call (.leaseBlocks 1 ⟨[1], []⟩ (fun _ => "block") 0), .fetch "file" 0 4, .sync "file",
    .checkpoint "file" (fullIntervalBlob 4)]

/-- The download is verified and published, and the file is then submitted again with force. -/
def republished : List Event :=
  fetched ++ [.call (.completeBlock 1 "block"), .call (.transitionFile 1 "file" .downloading .downloaded none 0),
    .leaseVerify "verify" 0, .openPath "verify", .publish "verify", .call (.completeVerify 1 "verify" "blob"),
    .call (.transitionFile 1 "" .cached .queued none 0)]

theorem force_keeps_progress_of_published :
    ∃ d, run (next fun _ _ => 7) (initial "process") republished = some d ∧
      Meets (next fun _ _ => 7) (fun d e => d.Checkpointed (fun _ _ => 7) e) (initial "process") republished ∧
      ∃ f ∈ d.store.files, f.status = .queued ∧ BlobCovers f.progress 0 ∧ d.links f.id = none :=
  ⟨_, rfl, by decide, by decide⟩

/-- The power fails after the checkpoint, and the sweep of the next start re-queues the file. -/
def interrupted : List Event := fetched ++ [.pad "file" 4 2, .crash true, .call (.recover leaseDuration)]

def recovered : Staging := (run (next fun _ _ => 7) (initial "process") interrupted).getD (initial "process")

theorem progress_never_overclaims_power_loss :
    ∃ f ∈ recovered.store.files, f.status = .queued ∧ ∃ number, recovered.links f.id = some number ∧
      (recovered.inodes f.id number).Shows 0 7 := by
  have ran : run (next fun _ _ => 7) (initial "process") interrupted = some recovered := rfl
  obtain ⟨f, stored, queued, covered⟩ : ∃ f ∈ recovered.store.files, f.status = .queued ∧ BlobCovers f.progress 0 := by decide
  exact ⟨f, stored, queued, progress_never_overclaims ran (by decide) stored (.inl queued) covered⟩

end Staging
end Hfdl
