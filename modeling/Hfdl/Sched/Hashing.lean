import Hfdl.Store.Change
import Hfdl.Transition

/-! The hashing of reference files. A worker leases a pending row, compares the file with the
stat fields it read there, hashes the file and records the digest, or refreshes the row when the
file has changed; the upsert of a new submission, other calls and the file system go on beside
it. Every hash run is recorded with the versions of the file it went over. -/
namespace Hfdl
open Relational Transition

/-- What the file system reports about a file; some report no device and inode. -/
structure DiskStat where
  size : Int
  mtimeNs : Int
  identity : Option (Nat × Nat)
deriving DecidableEq, Repr

/-- The row's stat fields are those of the file, as far as the file system reports them. -/
def ReferenceFile.Matches (r : ReferenceFile) : Option DiskStat → Prop
  | none => False
  | some stat => stat.size = r.size ∧ stat.mtimeNs = r.mtimeNs ∧ ∀ identity ∈ stat.identity, identity = (r.dev, r.ino)

instance {r : ReferenceFile} : (version : Option DiskStat) → Decidable (r.Matches version)
  | none => isFalse id
  | some _ => inferInstanceAs (Decidable (_ ∧ _))

def ReferenceFile.HasStat (r : ReferenceFile) (stat : ReferenceStat) : Prop :=
  r.size = stat.size ∧ r.mtimeNs = stat.mtimeNs ∧ r.dev = stat.dev ∧ r.ino = stat.ino
deriving Decidable

/-- A finished hash run: the path, the digest, and every version of the file from its opening on. -/
structure HashRun where
  path : String
  sha : String
  seen : List (Option DiskStat)
deriving DecidableEq, Repr

/-- The rest of `tryReferenceHash`. -/
inductive HashPhase where
  | leased
  | missing
  | checked
  | reading (seen : List (Option DiskStat))
  | hashed (run : HashRun)
  | stale (info : DiskStat)
  | refreshing (info : DiskStat)
  | ended
deriving DecidableEq, Repr

/-- Between the comparison with the row and the end of the hash. -/
def HashPhase.Reads : HashPhase → Prop
  | checked | reading _ => True
  | leased | missing | hashed _ | stale _ | refreshing _ | ended => False

instance : DecidablePred HashPhase.Reads
  | .checked | .reading _ => isTrue trivial
  | .leased | .missing | .hashed _ | .stale _ | .refreshing _ | .ended => isFalse id

structure HashTask where
  ref : ReferenceFile
  tok : LeaseToken
  phase : HashPhase
deriving DecidableEq, Repr

structure Hashing where
  store : Store
  disk : String → Option DiskStat
  tasks : List HashTask
  runs : List HashRun

namespace Hashing

/-- A worker is known by its number. -/
inductive Event where
  | call (op : Operation)
  | change (path : String) (version : Option DiskStat)
  | lease (tok : LeaseToken) (now : Time)
  | check (i : Nat)
  | openRead (i : Nat) (created : DiskStat)
  | finish (i : Nat) (sha : String)
  | complete (i : Nat)
  | fail (i : Nat) (cause : String)
  | invalidate (i : Nat)
  | refresh (i : Nat)
  | leave (i : Nat)
  | crash

/-- The calls that only a hash worker makes. -/
def Reserved : Operation → Bool
  | .leaseReferenceHash .. | .completeReferenceHash .. => true
  | _ => false

def setPhase (d : Hashing) (i : Nat) (t : HashTask) (phase : HashPhase) : Hashing :=
  { d with tasks := d.tasks.set i { t with phase } }

def commit (d : Hashing) (op : Operation) : Hashing := { d with store := op.commit d.store }

def put (d : Hashing) (path : String) (version : Option DiskStat) : Hashing :=
  { d with
    disk := Function.update d.disk path version
    tasks := d.tasks.map fun t =>
      match t.phase with
      | .reading seen => if t.ref.path = path then { t with phase := .reading (seen ++ [version]) } else t
      | _ => t }

/-- The row as the refresh upserts it; without an identity the fields are zero. -/
def refreshed (path : String) (info : DiskStat) : ReferenceStat :=
  ⟨path, info.size, info.mtimeNs, (info.identity.getD (0, 0)).1, (info.identity.getD (0, 0)).2⟩

/-- Lease tokens are fresh, and a digest is not empty. -/
def next (d : Hashing) : Event → Option Hashing
  | .call op => if op.Issued ∧ ¬ Reserved op then some (d.commit op) else none
  | .change path version => some (d.put path version)
  | .lease tok now =>
    if ∀ t ∈ d.tasks, t.tok ≠ tok then
      match d.store.leaseReferenceHash tok now with
      | .ok (ref, store) => some { d with store, tasks := d.tasks ++ [⟨ref, tok, .leased⟩] }
      | .error _ => some d
    else none
  | .check i =>
    match d.tasks[i]? with
    | some ⟨ref, tok, .leased⟩ =>
      match d.disk ref.path with
      | none => some (d.setPhase i ⟨ref, tok, .leased⟩ .missing)
      | some info =>
        if ref.Matches (some info) then some (d.setPhase i ⟨ref, tok, .leased⟩ .checked)
        else some (d.setPhase i ⟨ref, tok, .leased⟩ (.stale info))
    | _ => none
  | .openRead i created =>
    match d.tasks[i]? with
    | some ⟨ref, tok, .checked⟩ =>
      match d.disk ref.path with
      | some info => some (d.setPhase i ⟨ref, tok, .checked⟩ (.reading [some info]))
      -- opening creates an absent file
      | none => some ((d.put ref.path (some created)).setPhase i ⟨ref, tok, .checked⟩ (.reading [some created]))
    | _ => none
  | .finish i sha =>
    match d.tasks[i]? with
    | some ⟨ref, tok, .reading seen⟩ =>
      if sha = "" then none
      else
        let d := d.setPhase i ⟨ref, tok, .reading seen⟩ (.hashed ⟨ref.path, sha, seen⟩)
        some { d with runs := d.runs ++ [⟨ref.path, sha, seen⟩] }
    | _ => none
  | .complete i =>
    match d.tasks[i]? with
    | some ⟨ref, tok, .hashed run⟩ =>
      some ((d.commit (.completeReferenceHash ref.id tok run.sha none)).setPhase i ⟨ref, tok, .hashed run⟩ .ended)
    | _ => none
  | .fail i cause =>
    match d.tasks[i]? with
    | some t =>
      if t.phase = .missing ∨ t.phase.Reads then
        some ((d.commit (.completeReferenceHash t.ref.id t.tok "" (some cause))).setPhase i t .ended)
      else none
    | none => none
  | .invalidate i =>
    match d.tasks[i]? with
    | some ⟨ref, tok, .stale info⟩ =>
      match (Operation.invalidateReference ref.id).exec d.store with
      | .ok store => some ({ d with store }.setPhase i ⟨ref, tok, .stale info⟩ (.refreshing info))
      | .error _ => some (d.setPhase i ⟨ref, tok, .stale info⟩ .ended)
    | _ => none
  | .refresh i =>
    match d.tasks[i]? with
    | some ⟨ref, tok, .refreshing info⟩ =>
      some ((d.commit (.addReferenceFiles [refreshed ref.path info])).setPhase i ⟨ref, tok, .refreshing info⟩ .ended)
    | _ => none
  | .leave i => d.tasks[i]?.map fun t => d.setPhase i t .ended
  | .crash => some { d with tasks := d.tasks.map fun t => { t with phase := .ended } }

def initial (owner : String) (disk : String → Option DiskStat) : Hashing := ⟨.empty owner, disk, [], []⟩

/-- The upsert restates no row that is being hashed or is hashed. -/
def Keeps (s : Store) (stats : List ReferenceStat) : Prop :=
  ∀ r ∈ s.references, r.status = .hashing ∨ r.status = .hashed → ∀ stat ∈ stats, r.path = stat.path → r.HasStat stat

instance : Decidable (Keeps s stats) := by unfold Keeps; exact inferInstance

/-- An upsert keeps the stat fields of every row that is being hashed or is hashed, and a file
does not change between the comparison with its row and the end of its hash. -/
def Steady (d : Hashing) : Event → Prop
  | .call (.addReferenceFiles stats) => Keeps d.store stats
  | .refresh i =>
    match d.tasks[i]? with
    | some ⟨ref, _, .refreshing info⟩ => Keeps d.store [refreshed ref.path info]
    | _ => True
  | .change path _ => ∀ t ∈ d.tasks, t.ref.path = path → ¬ t.phase.Reads
  | _ => True

instance (d : Hashing) (e : Event) : Decidable (Steady d e) := by
  unfold Steady
  repeat' split
  all_goals infer_instance

inductive Step (d : Hashing) : Event → Hashing → Prop where
  | call (free : ¬ Reserved op) : Step d (.call op) (d.commit op)
  | change : Step d (.change path version) (d.put path version)
  | leased (fresh : ∀ t ∈ d.tasks, t.tok ≠ tok) (leased : d.store.leaseReferenceHash tok now = .ok (ref, after)) :
      Step d (.lease tok now) { d with store := after, tasks := d.tasks ++ [⟨ref, tok, .leased⟩] }
  | idle : Step d (.lease tok now) d
  | missing (found : d.tasks[i]? = some ⟨ref, tok, .leased⟩) :
      Step d (.check i) (d.setPhase i ⟨ref, tok, .leased⟩ .missing)
  | checked (found : d.tasks[i]? = some ⟨ref, tok, .leased⟩) (matched : ref.Matches (d.disk ref.path)) :
      Step d (.check i) (d.setPhase i ⟨ref, tok, .leased⟩ .checked)
  | stale (found : d.tasks[i]? = some ⟨ref, tok, .leased⟩) :
      Step d (.check i) (d.setPhase i ⟨ref, tok, .leased⟩ (.stale info))
  | opened (found : d.tasks[i]? = some ⟨ref, tok, .checked⟩) (current : d.disk ref.path = some info) :
      Step d (.openRead i created) (d.setPhase i ⟨ref, tok, .checked⟩ (.reading [some info]))
  | created (found : d.tasks[i]? = some ⟨ref, tok, .checked⟩) (absent : d.disk ref.path = none) :
      Step d (.openRead i created)
        ((d.put ref.path (some created)).setPhase i ⟨ref, tok, .checked⟩ (.reading [some created]))
  | finish (found : d.tasks[i]? = some ⟨ref, tok, .reading seen⟩) (named : sha ≠ "") :
      Step d (.finish i sha)
        (setPhase { d with runs := d.runs ++ [⟨ref.path, sha, seen⟩] } i ⟨ref, tok, .reading seen⟩
          (.hashed ⟨ref.path, sha, seen⟩))
  | complete (found : d.tasks[i]? = some ⟨ref, tok, .hashed told⟩) :
      Step d (.complete i)
        ((d.commit (.completeReferenceHash ref.id tok told.sha none)).setPhase i ⟨ref, tok, .hashed told⟩ .ended)
  | fail (found : d.tasks[i]? = some t) :
      Step d (.fail i cause)
        ((d.commit (.completeReferenceHash t.ref.id t.tok "" (some cause))).setPhase i t .ended)
  | invalidate (found : d.tasks[i]? = some ⟨ref, tok, .stale info⟩)
      (done : (Operation.invalidateReference ref.id).exec d.store = .ok after) :
      Step d (.invalidate i) ({ d with store := after }.setPhase i ⟨ref, tok, .stale info⟩ (.refreshing info))
  | lost (found : d.tasks[i]? = some ⟨ref, tok, .stale info⟩) :
      Step d (.invalidate i) (d.setPhase i ⟨ref, tok, .stale info⟩ .ended)
  | refresh (found : d.tasks[i]? = some ⟨ref, tok, .refreshing info⟩) :
      Step d (.refresh i)
        ((d.commit (.addReferenceFiles [refreshed ref.path info])).setPhase i ⟨ref, tok, .refreshing info⟩ .ended)
  | leave (found : d.tasks[i]? = some t) : Step d (.leave i) (d.setPhase i t .ended)
  | crash : Step d .crash { d with tasks := d.tasks.map fun t => { t with phase := .ended } }

theorem next_step {d : Hashing} (stepped : d.next e = some d') : Step d e d' := by
  unfold next at stepped
  repeat' split at stepped
  all_goals (try cases stepped)
  all_goals first | (constructor <;> assumption) | grind [Step]

end Hashing

namespace ReferenceFile
variable {r r' : ReferenceFile} {version : Option DiskStat}

structure SameStat (r r' : ReferenceFile) : Prop where
  path : r'.path = r.path
  size : r'.size = r.size
  mtimeNs : r'.mtimeNs = r.mtimeNs
  dev : r'.dev = r.dev
  ino : r'.ino = r.ino

/-- The same row up to the end of its lease and its last error. -/
structure Alike (r r' : ReferenceFile) : Prop extends SameStat r r' where
  id : r'.id = r.id
  status : r'.status = r.status
  sha256 : r'.sha256 = r.sha256
  token : r'.leaseToken = r.leaseToken

theorem SameStat.refl (r : ReferenceFile) : r.SameStat r := ⟨rfl, rfl, rfl, rfl, rfl⟩

theorem Alike.refl (r : ReferenceFile) : r.Alike r := ⟨.refl r, rfl, rfl, rfl, rfl⟩

theorem SameStat.trans (first : r.SameStat r') (second : r'.SameStat r'') : r.SameStat r'' :=
  ⟨second.path.trans first.path, second.size.trans first.size, second.mtimeNs.trans first.mtimeNs,
    second.dev.trans first.dev, second.ino.trans first.ino⟩

theorem SameStat.matches (same : r.SameStat r') (matched : r.Matches version) : r'.Matches version := by
  cases version with
  | none => exact matched
  | some stat =>
    obtain ⟨size, mtime, identity⟩ := matched
    refine ⟨size.trans same.size.symm, mtime.trans same.mtimeNs.symm, ?_⟩
    rw [same.dev, same.ino]
    exact identity

theorem Alike.held (alike : r.Alike r') (held : r'.Held row tok) : r.Held row tok := by
  obtain ⟨here, hashing, token⟩ := held
  exact ⟨alike.id.symm.trans here, alike.status.symm.trans hashing, alike.token.symm.trans token⟩

/-- Apart from the workers' own calls, a row that is being hashed or is hashed was so before, with
the same stat fields if the upsert restates none of them. -/
theorem Change.alike (changed : r.Change op r') (free : ¬ Hashing.Reserved op)
    (keeps : ∀ stats, op = .addReferenceFiles stats → ∀ stat ∈ stats, r.path = stat.path →
      r.status = .hashing ∨ r.status = .hashed → r.HasStat stat)
    (active : r'.status = .hashing ∨ r'.status = .hashed) : r.Alike r' := by
  cases changed with
  | kept => exact .refl r
  | leased | hashed => exact absurd rfl free
  | renewed => exact ⟨⟨rfl, rfl, rfl, rfl, rfl⟩, rfl, rfl, rfl, rfl⟩
  | lapsed | invalidated =>
    rcases active with status | status
    · cases status
    · cases status
  | restated listed same =>
    obtain ⟨size, mtime, dev, ino⟩ := keeps _ rfl _ listed same active
    exact ⟨⟨rfl, size.symm, mtime.symm, dev.symm, ino.symm⟩, rfl, rfl, rfl, rfl⟩

end ReferenceFile

theorem Store.mem_of_leaseReferenceHash {s s' : Store} (leased : s.leaseReferenceHash tok now = .ok (r, s')) :
    r ∈ s'.references := by
  simp only [leaseReferenceHash] at leased
  split at leased
  · cases leased
  · case h_2 old found =>
    cases leased
    exact Table.mem_update.mpr ⟨old, (Table.mem_of_first found).1, (if_pos rfl).symm⟩

namespace Hashing
variable {d d' : Hashing} {t : HashTask} {i : Nat}

/-- The digest of a row comes from a run over versions of the file that the row's stat fields describe. -/
def Told (runs : List HashRun) (r : ReferenceFile) : Prop :=
  ∃ run ∈ runs, run.path = r.path ∧ r.sha256 = some run.sha ∧ run.seen ≠ [] ∧ ∀ version ∈ run.seen, r.Matches version

def Sound (d : Hashing) (t : HashTask) : Prop :=
  match t.phase with
  | .checked => t.ref.Matches (d.disk t.ref.path)
  | .reading seen => t.ref.Matches (d.disk t.ref.path) ∧ seen ≠ [] ∧ ∀ version ∈ seen, t.ref.Matches version
  | .hashed run =>
    run ∈ d.runs ∧ run.path = t.ref.path ∧ run.sha ≠ "" ∧ run.seen ≠ [] ∧ ∀ version ∈ run.seen, t.ref.Matches version
  | .leased | .missing | .stale _ | .refreshing _ | .ended => True

structure Inv (d : Hashing) : Prop where
  rows : ∀ r ∈ d.store.references, r.status = .hashed → Told d.runs r
  held : ∀ t ∈ d.tasks, ∀ r ∈ d.store.references, r.Held t.ref.id t.tok → t.ref.SameStat r
  sound : ∀ t ∈ d.tasks, d.Sound t

namespace Inv

theorem told_of_alike {runs : List HashRun} {r r' : ReferenceFile} (alike : r.Alike r') (told : Told runs r) :
    Told runs r' := by
  obtain ⟨run, inside, path, sha, some_seen, seen⟩ := told
  exact ⟨run, inside, path.trans alike.path.symm, alike.sha256.trans sha, some_seen,
    fun version met => alike.toSameStat.matches (seen version met)⟩

theorem exec (inv : Inv d) (free : ¬ Reserved op) (keeps : ∀ stats, op = .addReferenceFiles stats → Keeps d.store stats)
    (done : op.exec d.store = .ok s') : Inv { d with store := s' } := by
  have origin {r' : ReferenceFile} (stored : r' ∈ s'.references) (active : r'.status = .hashing ∨ r'.status = .hashed) :
      ∃ r ∈ d.store.references, r.Alike r' := by
    rcases (Operation.exec_evolution done).references.origin r' stored with ⟨r, before, changed⟩ | ⟨_, rfl, _, _, _, rfl⟩
    · exact ⟨r, before, changed.alike free (fun stats same stat listed path active' =>
        keeps stats same r before active' stat listed path) active⟩
    · rcases active with status | status
      · cases status
      · cases status
  exact {
    rows := by
      intro r' stored hashed
      obtain ⟨r, before, alike⟩ := origin stored (.inr hashed)
      exact told_of_alike alike (inv.rows r before (alike.status.symm.trans hashed))
    held := by
      intro t working r' stored held
      obtain ⟨r, before, alike⟩ := origin stored (.inl held.2.1)
      exact (inv.held t working r before (alike.held held)).trans alike.toSameStat
    sound := inv.sound }

theorem commit (inv : Inv d) (free : ¬ Reserved op)
    (keeps : ∀ stats, op = .addReferenceFiles stats → Keeps d.store stats) : Inv (d.commit op) := by
  rcases op.commit_cases d.store with same | done
  · unfold Hashing.commit
    rw [same]
    exact inv
  · exact inv.exec free keeps done

theorem setPhase (inv : Inv d) (found : d.tasks[i]? = some t) (sound : d.Sound { t with phase }) :
    Inv (d.setPhase i t phase) where
  rows := inv.rows
  held other working := by
    cases List.mem_or_eq_of_mem_set working with
    | inl old => exact inv.held other old
    | inr new =>
      subst new
      exact inv.held t (List.mem_of_getElem? found)
  sound other working := by
    cases List.mem_or_eq_of_mem_set working with
    | inl old => exact inv.sound other old
    | inr new =>
      subst new
      exact sound

theorem lease (inv : Inv d) (fresh : ∀ t ∈ d.tasks, t.tok ≠ tok)
    (leased : d.store.leaseReferenceHash tok now = .ok (ref, s')) :
    Inv { d with store := s', tasks := d.tasks ++ [⟨ref, tok, .leased⟩] } := by
  have done : (Operation.leaseReferenceHash tok now).exec d.store = .ok s' := Operation.map_snd_ok leased
  have origin {r' : ReferenceFile} (stored : r' ∈ s'.references) :
      r' ∈ d.store.references ∨ r'.status = .hashing ∧ r'.leaseToken = some tok := by
    rcases (Operation.exec_evolution done).references.origin r' stored with ⟨r, before, changed⟩ | ⟨_, never, _⟩
    · cases changed with
      | kept => exact .inl before
      | leased => exact .inr ⟨rfl, rfl⟩
    · cases never
  constructor
  · intro r' stored hashed
    rcases origin stored with before | ⟨hashing, -⟩
    · exact inv.rows r' before hashed
    · cases hashing.symm.trans hashed
  · intro t working r' stored held
    cases List.mem_append.mp working with
    | inl old =>
      rcases origin stored with before | ⟨-, token⟩
      · exact inv.held t old r' before held
      · cases held.2.2.symm.trans token
        exact absurd rfl (fresh t old)
    | inr new =>
      cases List.mem_singleton.mp new
      rw [Table.eq_of_key stored (Store.mem_of_leaseReferenceHash leased) held.1]
      exact .refl ref
  · intro t working
    cases List.mem_append.mp working with
    | inl old => exact inv.sound t old
    | inr new =>
      cases List.mem_singleton.mp new
      trivial

/-- The end of a worker's run: only a digest makes the row hashed, and the lease is over. -/
theorem complete (inv : Inv d) (working : t ∈ d.tasks)
    (digest : cause = none → ∃ run ∈ d.runs, run.path = t.ref.path ∧ run.sha = sha ∧ sha ≠ "" ∧ run.seen ≠ [] ∧
      ∀ version ∈ run.seen, t.ref.Matches version) :
    Inv (d.commit (.completeReferenceHash t.ref.id t.tok sha cause)) := by
  rcases (Operation.completeReferenceHash t.ref.id t.tok sha cause).commit_cases d.store with same | done
  · unfold Hashing.commit
    rw [same]
    exact inv
  have evolved := (Operation.exec_evolution done).references
  constructor
  · intro r' stored hashed
    rcases evolved.origin r' stored with ⟨r, before, changed⟩ | ⟨_, never, _⟩
    · cases changed with
      | kept => exact inv.rows r' before hashed
      | hashed held =>
        have same := inv.held t working r before held
        cases cause with
        | some message => cases hashed
        | none =>
          obtain ⟨run, inside, path, rfl, named, some_seen, seen⟩ := digest rfl
          refine ⟨run, inside, path.trans same.path.symm, if_neg named, some_seen, fun version met => ?_⟩
          exact same.matches (seen version met)
    · cases never
  · intro other busy r' stored held
    rcases evolved.origin r' stored with ⟨r, before, changed⟩ | ⟨_, never, _⟩
    · cases changed with
      | kept => exact inv.held other busy r' before held
      | hashed => cases held.2.2
    · cases never
  · exact inv.sound

theorem put (inv : Inv d) (unread : ∀ t ∈ d.tasks, t.ref.path = path → ¬ t.phase.Reads) :
    Inv (d.put path version) := by
  have same : (d.put path version).tasks = d.tasks := by
    refine (List.map_congr_left fun t working => ?_).trans (List.map_id _)
    split
    · case h_1 seen reading =>
      rw [if_neg fun here => unread t working here (by rw [reading]; trivial)]
      rfl
    · rfl
  constructor
  · exact inv.rows
  · rw [same]
    exact inv.held
  · rw [same]
    intro t working
    have sound := inv.sound t working
    have elsewhere (reads : t.phase.Reads) : (d.put path version).disk t.ref.path = d.disk t.ref.path :=
      Function.update_of_ne (fun here => unread t working here reads) _ _
    unfold Sound at sound ⊢
    cases phase : t.phase with
    | checked | reading =>
      simp only [phase] at sound ⊢
      rw [elsewhere (by rw [phase]; trivial)]
      exact sound
    | hashed =>
      simp only [phase] at sound ⊢
      exact sound
    | leased | missing | stale | refreshing | ended => trivial

theorem grow (inv : Inv d) (run : HashRun) : Inv { d with runs := d.runs ++ [run] } where
  rows r stored hashed := by
    obtain ⟨own, inside, told⟩ := inv.rows r stored hashed
    exact ⟨own, List.mem_append_left _ inside, told⟩
  held := inv.held
  sound t working := by
    have sound := inv.sound t working
    unfold Sound at sound ⊢
    cases phase : t.phase with
    | hashed own =>
      simp only [phase] at sound ⊢
      exact ⟨List.mem_append_left _ sound.1, sound.2⟩
    | checked | reading => simpa only [phase] using sound
    | leased | missing | stale | refreshing | ended => trivial

theorem crash (inv : Inv d) : Inv { d with tasks := d.tasks.map fun t => { t with phase := .ended } } where
  rows := inv.rows
  held t working := by
    obtain ⟨old, was, rfl⟩ := List.mem_map.mp working
    exact inv.held old was
  sound t working := by
    obtain ⟨old, was, rfl⟩ := List.mem_map.mp working
    trivial

theorem next (inv : Inv d) (steady : Steady d e) (stepped : d.next e = some d') : Inv d' := by
  cases next_step stepped with
  | call free =>
    apply inv.commit free
    intro stats same
    subst same
    exact steady
  | change => exact inv.put steady
  | leased fresh leased => exact inv.lease fresh leased
  | idle => exact inv
  | missing found | stale found | lost found | leave found => exact inv.setPhase found trivial
  | checked found matched => exact inv.setPhase found matched
  | opened found current =>
    have matched : _ := inv.sound _ (List.mem_of_getElem? found)
    apply inv.setPhase found
    refine ⟨matched, List.cons_ne_nil _ _, fun version met => ?_⟩
    cases List.mem_singleton.mp met
    rw [← current]
    exact matched
  | created found absent =>
    -- the row matched the file, and nothing removed it since
    have matched := inv.sound _ (List.mem_of_getElem? found)
    simp only [Sound, absent] at matched
    cases matched
  | finish found named =>
    obtain ⟨-, some_seen, seen⟩ := inv.sound _ (List.mem_of_getElem? found)
    exact (inv.grow _).setPhase found ⟨List.mem_append_right _ (List.mem_singleton.mpr rfl), rfl, named, some_seen, seen⟩
  | @complete _ _ _ run found =>
    have working := List.mem_of_getElem? found
    obtain ⟨inside, path, named, some_seen, seen⟩ := inv.sound _ working
    exact (inv.complete working fun _ => ⟨run, inside, path, rfl, named, some_seen, seen⟩).setPhase found trivial
  | fail found => exact (inv.complete (List.mem_of_getElem? found) (by simp)).setPhase found trivial
  | @invalidate _ _ ref _ _ found done =>
    have free : ¬ Reserved (.invalidateReference ref.id) := Bool.false_ne_true
    exact (inv.exec free (by simp) done).setPhase found trivial
  | @refresh _ info ref _ found =>
    have free : ¬ Reserved (.addReferenceFiles [refreshed ref.path info]) := Bool.false_ne_true
    refine (inv.commit free fun stats same => ?_).setPhase found trivial
    cases same
    simpa only [Steady, found] using steady
  | crash => exact inv.crash

theorem initial (owner : String) (disk : String → Option DiskStat) : Inv (initial owner disk) where
  rows := by intro r stored; cases stored
  held := by intro t working; cases working
  sound := by intro t working; cases working

end Inv

/-- In every run whose upserts restate no row that is being hashed or is hashed, and in which no
file changes between the comparison with its row and the end of its hash, a hashed row carries
the digest of a run over the file while the row's stat fields described it. -/
theorem hashed_truthful (owner : String) (disk : String → Option DiskStat) (es : List Event)
    (ran : run next (initial owner disk) es = some d) (meets : Meets next Steady (initial owner disk) es) :
    ∀ r ∈ d.store.references, r.status = .hashed →
      ∃ run ∈ d.runs, run.path = r.path ∧ r.sha256 = some run.sha ∧ run.seen ≠ [] ∧
        ∀ version ∈ run.seen, r.Matches version :=
  (invariant_meeting Inv.next (Inv.initial owner disk) ran meets).rows

def listed : List Event :=
  [.call (.enqueueJob wholeRepo), .call (.leaseMeta "list" 0),
    .call (.setCommitSHA 1 "list" "sha"), .call (.completeListing 1 "list" [⟨"weights", 8, "oid", "", "", false⟩])]

def onDisk (path : String) : Option DiskStat := if path = "/ref/weights" then some ⟨8, 100, some (1, 7)⟩ else none

/-- A reference that changed after it was listed is refreshed, and its hash is that of the new version. -/
theorem hashed_truthful_refreshed : ∃ d, run next (initial "worker" onDisk) (listed ++
      [.call (.addReferenceFiles [⟨"/ref/weights", 8, 99, 1, 7⟩]), .lease "first" 0, .check 0, .invalidate 0,
        .refresh 0, .lease "second" 0, .check 1, .openRead 1 ⟨0, 0, none⟩, .finish 1 "digest", .complete 1]) = some d ∧
    ∃ r ∈ d.store.references, r.status = .hashed ∧ r.mtimeNs = 100 ∧
      ∃ run ∈ d.runs, run.path = r.path ∧ r.sha256 = some run.sha ∧ run.seen ≠ [] ∧
        ∀ version ∈ run.seen, r.Matches version := by
  have ran : ∃ d, run next (initial "worker" onDisk) (listed ++
      [.call (.addReferenceFiles [⟨"/ref/weights", 8, 99, 1, 7⟩]), .lease "first" 0, .check 0, .invalidate 0,
        .refresh 0, .lease "second" 0, .check 1, .openRead 1 ⟨0, 0, none⟩, .finish 1 "digest", .complete 1]) = some d ∧
      ∃ r ∈ d.store.references, r.status = .hashed ∧ r.mtimeNs = 100 := ⟨_, rfl, by decide⟩
  obtain ⟨d, ran, r, stored, hashed, fresh⟩ := ran
  exact ⟨d, ran, r, stored, hashed, fresh, hashed_truthful "worker" onDisk _ ran (by decide) r stored hashed⟩

/-- The file is rewritten after it was hashed, and a new submission upserts its fresh stat fields:
the row stays hashed, with the digest of the old version. -/
theorem upsert_keeps_old_hash : ∃ d, run next (initial "worker" onDisk) (listed ++
      [.call (.addReferenceFiles [⟨"/ref/weights", 8, 100, 1, 7⟩]), .lease "first" 0, .check 0,
        .openRead 0 ⟨0, 0, none⟩, .finish 0 "digest", .complete 0,
        .change "/ref/weights" (some ⟨8, 200, some (1, 7)⟩),
        .call (.addReferenceFiles [⟨"/ref/weights", 8, 200, 1, 7⟩])]) = some d ∧
    d.disk "/ref/weights" = some ⟨8, 200, some (1, 7)⟩ ∧
    d.runs = [⟨"/ref/weights", "digest", [some ⟨8, 100, some (1, 7)⟩]⟩] ∧
    ∃ r ∈ d.store.references, r.path = "/ref/weights" ∧ r.status = .hashed ∧ r.sha256 = some "digest" ∧
      r.mtimeNs = 200 ∧ ¬ ∃ run ∈ d.runs, run.path = r.path ∧ r.sha256 = some run.sha ∧ run.seen ≠ [] ∧
        ∀ version ∈ run.seen, r.Matches version :=
  ⟨_, rfl, by decide, by decide, by decide⟩

end Hashing
end Hfdl
