import Hfdl.Transition
import Mathlib.Data.List.Count

/-! The occupancy table of the physical volumes. A job that only reads takes a read slot, a
job that reads and writes takes an RW slot on both of its volumes at once; the media class
that the caller passes decides which slots may overlap. -/
namespace Hfdl
open Transition

inductive FsType where
  | unknown | ssd | hdd | netFS
deriving DecidableEq, Repr

abbrev VolumeID := String

structure VolOccupancy where
  readers : Int
  rw : Bool
deriving DecidableEq, Repr

def VolOccupancy.free : VolOccupancy := ⟨0, false⟩

def VolOccupancy.without (o : VolOccupancy) (rw : Bool) : VolOccupancy :=
  if rw then { o with rw := false } else { o with readers := o.readers - 1 }

def grantRead (fs : FsType) (o : VolOccupancy) : Bool :=
  if fs = .ssd then decide (o.readers + (if o.rw then 1 else 0) < 2) else !o.rw

def grantWrite (fs : FsType) (o : VolOccupancy) : Bool :=
  if fs = .ssd then !o.rw && decide (o.readers < 2) else !o.rw && decide (o.readers = 0)

/-- What a granted acquisition still holds; the two volumes of an RW job are released one after the other. -/
inductive Holding where
  | read (id : VolumeID)
  | rw (read write : VolumeID)
  | releasing (write : VolumeID)
  | released
deriving DecidableEq, Repr

namespace Holding

def reads (id : VolumeID) : Holding → Bool
  | read own => own = id
  | _ => false

def writes (id : VolumeID) : Holding → Bool
  | rw r w => r = id ∨ w = id
  | releasing w => w = id
  | _ => false

end Holding

/-- The lock table with the granted acquisitions; a volume without an entry is free. -/
structure VolumeSet where
  vols : VolumeID → Option VolOccupancy
  jobs : List Holding

namespace VolumeSet

def empty : VolumeSet := ⟨fun _ => none, []⟩

def at_ (v : VolumeSet) (id : VolumeID) : VolOccupancy := (v.vols id).getD .free

def put (v : VolumeSet) (id : VolumeID) (o : Option VolOccupancy) : VolumeSet :=
  { v with vols := Function.update v.vols id o }

/-- Looking a volume up creates its entry. -/
def occupancy (v : VolumeSet) (id : VolumeID) : VolumeSet := v.put id (some (v.at_ id))

/-- The last holder that leaves takes the entry along. -/
def release (v : VolumeSet) (id : VolumeID) (rw : Bool) : VolumeSet :=
  match v.vols id with
  | none => v
  | some o =>
    let o := o.without rw
    v.put id (if o.readers = 0 ∧ o.rw = false then none else some o)

def setJob (v : VolumeSet) (j : Nat) (h : Holding) : VolumeSet := { v with jobs := v.jobs.set j h }

inductive Event where
  /-- `acquireRead` for a path on the volume; a failed probe of its class counts as unknown. -/
  | acquireRead (id : VolumeID) (probed : Bool)
  /-- `acquireRW` and the installer's copy: only the path to write is probed. -/
  | acquireRW (read write : VolumeID) (probed : Bool)
  /-- A call of the release function, effective once. -/
  | release (j : Nat)
  /-- The write volume of an RW job, in a lock section of its own. -/
  | releaseWrite (j : Nat)
deriving DecidableEq, Repr

/-- The class that the caller passes along. -/
def probe (media : VolumeID → FsType) (id : VolumeID) (probed : Bool) : FsType := if probed then media id else .unknown

/-- An acquisition that is not granted waits and tries again. -/
def next (media : VolumeID → FsType) (v : VolumeSet) : Event → Option VolumeSet
  | .acquireRead id probed =>
    let v := v.occupancy id
    if grantRead (probe media id probed) (v.at_ id) then
      let v := v.put id (some { v.at_ id with readers := (v.at_ id).readers + 1 })
      some { v with jobs := v.jobs ++ [.read id] }
    else some v
  | .acquireRW read write probed =>
    let fs := probe media write probed
    let v := (v.occupancy read).occupancy write
    if grantWrite fs (v.at_ write) ∧ (read = write ∨ grantWrite fs (v.at_ read)) then
      let v := v.put read (some { v.at_ read with rw := true })
      let v := if read = write then v else v.put write (some { v.at_ write with rw := true })
      some { v with jobs := v.jobs ++ [.rw read write] }
    else some v
  | .release j =>
    match v.jobs[j]? with
    | none => none
    | some (.read id) => some ((v.release id false).setJob j .released)
    | some (.rw read write) =>
      some ((v.release read true).setJob j (if read = write then .released else .releasing write))
    | some (.releasing _) | some .released => some v
  | .releaseWrite j =>
    match v.jobs[j]? with
    | some (.releasing write) => some ((v.release write true).setJob j .released)
    | _ => none

theorem at_put (v : VolumeSet) (id other : VolumeID) (o : Option VolOccupancy) :
    (v.put id o).at_ other = if other = id then o.getD .free else v.at_ other := by
  by_cases here : other = id
  · subst here
    simp [at_, put]
  · simp [at_, put, here]

theorem at_put_rw (v : VolumeSet) (id other : VolumeID) :
    (v.put id (some { v.at_ id with rw := true })).at_ other =
      { v.at_ other with rw := (v.at_ other).rw || decide (id = other) } := by
  rw [at_put]
  by_cases here : other = id
  · simp [here]
  · simp [here, Ne.symm here]

@[simp] theorem at_occupancy (v : VolumeSet) (id other : VolumeID) : (v.occupancy id).at_ other = v.at_ other := by
  rw [occupancy, at_put]
  split
  · rename_i here
    rw [here]
    rfl
  · rfl

theorem at_release {id : VolumeID} (v : VolumeSet) (rw : Bool) (other : VolumeID) (held : v.at_ id ≠ .free) :
    (v.release id rw).at_ other = if other = id then (v.at_ id).without rw else v.at_ other := by
  cases entry : v.vols id with
  | none => simp [at_, entry] at held
  | some o =>
    have here : v.at_ id = o := by rw [at_, entry, Option.getD_some]
    simp only [release, entry, at_put, here]
    split
    · generalize o.without rw = rest
      split
      · rename_i last
        cases rest
        cases last.1
        cases last.2
        rfl
      · rfl
    · rfl

@[simp] theorem jobs_release (v : VolumeSet) (id : VolumeID) (rw : Bool) : (v.release id rw).jobs = v.jobs := by
  rw [release]
  split <;> rfl

def readers (v : VolumeSet) (id : VolumeID) : Nat := v.jobs.countP (Holding.reads id)

def writers (v : VolumeSet) (id : VolumeID) : Nat := v.jobs.countP (Holding.writes id)

/-- The table says of every volume who holds it. -/
def Exact (v : VolumeSet) : Prop :=
  ∀ id, (v.at_ id).readers = v.readers id ∧ (if (v.at_ id).rw then 1 else 0) = v.writers id

theorem countP_set_add (p : Holding → Bool) {jobs : List Holding} (here : jobs[j]? = some h) (h' : Holding) :
    (jobs.set j h').countP p + (if p h then 1 else 0) = jobs.countP p + if p h' then 1 else 0 := by
  obtain ⟨inside, rfl⟩ := List.getElem?_eq_some_iff.mp here
  have member : p jobs[j] = true → 0 < jobs.countP p := fun holds => List.countP_pos_iff.mpr ⟨_, List.getElem_mem inside, holds⟩
  rw [List.countP_set inside]
  split
  · have := member ‹_›
    omega
  · omega

section
variable {v : VolumeSet} {id : VolumeID} {h h' : Holding} {j : Nat}

theorem Exact.held (exact_ : v.Exact) (here : v.jobs[j]? = some h) (mine : h.reads id ∨ h.writes id) : v.at_ id ≠ .free := by
  obtain ⟨readers, writers⟩ := exact_ id
  intro free
  rw [free] at readers writers
  have member := List.mem_of_getElem? here
  rcases mine with reads | writes
  · have some_ : 0 < v.readers id := List.countP_pos_iff.mpr ⟨h, member, reads⟩
    simp only [VolOccupancy.free] at readers
    omega
  · have some_ : 0 < v.writers id := List.countP_pos_iff.mpr ⟨h, member, writes⟩
    simp [VolOccupancy.free] at writers
    omega

theorem Exact.leave (exact_ : v.Exact) (rw : Bool) (here : v.jobs[j]? = some h) (mine : h.reads id ∨ h.writes id)
    (reads : ∀ other, (if h.reads other then 1 else 0) =
      (if h'.reads other then 1 else 0) + if other = id ∧ rw = false then 1 else 0)
    (writes : ∀ other, (if h.writes other then 1 else 0) =
      (if h'.writes other then 1 else 0) + if other = id ∧ rw = true then 1 else 0) :
    ((v.release id rw).setJob j h').Exact := by
  intro other
  have held := exact_.held here mine
  obtain ⟨readers, writers⟩ := exact_ other
  have moreReads := countP_set_add (Holding.reads other) here h'
  have moreWrites := countP_set_add (Holding.writes other) here h'
  rw [reads other] at moreReads
  rw [writes other] at moreWrites
  have after : ((v.release id rw).setJob j h').at_ other = if other = id then (v.at_ id).without rw else v.at_ other :=
    at_release v rw other held
  rw [after]
  simp only [VolumeSet.readers, VolumeSet.writers, setJob, jobs_release] at *
  by_cases same : other = id
  · subst same
    cases rw
    · simp [VolOccupancy.without] at *
      omega
    · simp [VolOccupancy.without] at *
      refine ⟨by omega, ?_⟩
      split at writers <;> omega
  · simp [same] at *
    omega

end

structure Granted (v : VolumeSet) (h : Holding) (v' : VolumeSet) : Prop where
  readers : ∀ id, (v'.at_ id).readers = (v.at_ id).readers + if h.reads id then 1 else 0
  rw : ∀ id, (v'.at_ id).rw = ((v.at_ id).rw || h.writes id)
  jobs : v'.jobs = v.jobs ++ [h]

/-- What a step can do: nothing that counts, a granted acquisition with the check it passed, or a slot given back. -/
inductive Step (media : VolumeID → FsType) (v : VolumeSet) : Event → VolumeSet → Prop where
  | idle (table : ∀ id, v'.at_ id = v.at_ id) (jobs : v'.jobs = v.jobs) : Step media v e v'
  | read {id : VolumeID} (check : grantRead (probe media id probed) (v.at_ id) = true) (granted : Granted v (.read id) v') :
      Step media v (.acquireRead id probed) v'
  | rw (write : grantWrite (probe media w probed) (v.at_ w) = true) (read : grantWrite (probe media w probed) (v.at_ r) = true)
      (granted : Granted v (.rw r w) v') : Step media v (.acquireRW r w probed) v'
  | leftRead {id : VolumeID} {j : Nat} (here : v.jobs[j]? = some (.read id)) :
      Step media v (.release j) ((v.release id false).setJob j .released)
  | leftRW {j : Nat} (here : v.jobs[j]? = some (.rw r w)) :
      Step media v (.release j) ((v.release r true).setJob j (if r = w then .released else .releasing w))
  | leftWrite {j : Nat} (here : v.jobs[j]? = some (.releasing w)) :
      Step media v (.releaseWrite j) ((v.release w true).setJob j .released)

theorem next_step {media : VolumeID → FsType} {v v' : VolumeSet} (stepped : next media v e = some v') : Step media v e v' := by
  cases e with
  | acquireRead id probed =>
    simp only [next, at_occupancy] at stepped
    split at stepped <;> cases stepped
    · rename_i check
      have table (other : VolumeID) := at_put (v.occupancy id) id other (some { v.at_ id with readers := (v.at_ id).readers + 1 })
      refine .read check ⟨fun other => ?_, fun other => ?_, rfl⟩
      · refine (congrArg VolOccupancy.readers (table other)).trans ?_
        by_cases here : other = id
        · simp [here, Holding.reads]
        · simp [here, Holding.reads, Ne.symm here]
      · refine (congrArg VolOccupancy.rw (table other)).trans ?_
        by_cases here : other = id <;> simp [here, Holding.writes]
    · exact .idle (fun other => at_occupancy v id other) rfl
  | acquireRW r w probed =>
    simp only [next, at_occupancy] at stepped
    split at stepped <;> cases stepped
    · rename_i check
      have read : grantWrite (probe media w probed) (v.at_ r) = true := check.2.elim (fun same => same ▸ check.1) fun read => read
      have table (u : VolumeSet) (other : VolumeID) :
          (if r = w then u.put r (some { u.at_ r with rw := true })
            else (u.put r (some { u.at_ r with rw := true })).put w
              (some { (u.put r (some { u.at_ r with rw := true })).at_ w with rw := true })).at_ other =
            { u.at_ other with rw := (u.at_ other).rw || Holding.writes other (.rw r w) } := by
        split
        · rename_i same
          subst same
          rw [at_put_rw]
          simp [Holding.writes]
        · rw [at_put_rw, at_put_rw]
          simp [Holding.writes, Bool.or_assoc]
      have after := table ((v.occupancy r).occupancy w)
      simp only [at_occupancy] at after
      refine .rw check.1 read ⟨fun other => ?_, fun other => ?_, ?_⟩
      · exact (congrArg VolOccupancy.readers (after other)).trans (by simp [Holding.reads])
      · exact congrArg VolOccupancy.rw (after other)
      · simp only
        split <;> rfl
    · refine .idle (fun other => ?_) rfl
      rw [at_occupancy, at_occupancy]
  | release j =>
    simp only [next] at stepped
    split at stepped <;> cases stepped
    · exact .leftRead ‹_›
    · exact .leftRW ‹_›
    · exact .idle (fun _ => rfl) rfl
    · exact .idle (fun _ => rfl) rfl
  | releaseWrite j =>
    simp only [next] at stepped
    split at stepped <;> cases stepped
    exact .leftWrite ‹_›

section
variable {media : VolumeID → FsType} {v v' : VolumeSet}

theorem readers_append (granted : Granted v h v') (id : VolumeID) :
    v'.readers id = v.readers id + if h.reads id then 1 else 0 := by
  simp only [readers, granted.jobs, List.countP_append, List.countP_singleton]

theorem writers_append (granted : Granted v h v') (id : VolumeID) :
    v'.writers id = v.writers id + if h.writes id then 1 else 0 := by
  simp only [writers, granted.jobs, List.countP_append, List.countP_singleton]

theorem Exact.grant (exact_ : v.Exact) (granted : Granted v h v') (free : ∀ id, h.writes id = true → (v.at_ id).rw = false) :
    v'.Exact := by
  intro id
  obtain ⟨readers, writers⟩ := exact_ id
  rw [granted.readers, granted.rw, readers_append granted, writers_append granted]
  refine ⟨by split <;> omega, ?_⟩
  cases writes : h.writes id with
  | false => simpa using writers
  | true =>
    rw [free id writes] at writers ⊢
    simpa using writers.symm

theorem grantWrite_free (granted : grantWrite fs o = true) : o.rw = false := by
  simp only [grantWrite] at granted
  split at granted <;> simp_all

theorem exact_step (exact_ : v.Exact) (step : Step media v e v') : v'.Exact := by
  cases step with
  | idle table jobs =>
    intro id
    rw [table, readers, writers, jobs]
    exact exact_ id
  | read check granted => exact exact_.grant granted (by simp [Holding.writes])
  | rw write read granted =>
    apply exact_.grant granted
    intro id mine
    simp only [Holding.writes, decide_eq_true_eq] at mine
    rcases mine with rfl | rfl
    · exact grantWrite_free read
    · exact grantWrite_free write
  | leftRead here =>
    apply exact_.leave false here (.inl (by simp [Holding.reads]))
    · intro other
      simp [Holding.reads, eq_comm]
    · simp [Holding.writes]
  | leftRW here =>
    rename_i r w j
    by_cases same : r = w
    · rw [if_pos same]
      apply exact_.leave true here (.inr (by simp [Holding.writes]))
      · simp [Holding.reads]
      · intro other
        simp [Holding.writes, ← same, eq_comm]
    · rw [if_neg same]
      apply exact_.leave true here (.inr (by simp [Holding.writes]))
      · simp [Holding.reads]
      · intro other
        by_cases mine : other = r
        · simp [Holding.writes, mine, Ne.symm same]
        · simp [Holding.writes, mine, Ne.symm mine]
  | leftWrite here =>
    apply exact_.leave true here (.inr (by simp [Holding.writes]))
    · simp [Holding.reads]
    · intro other
      simp [Holding.writes, eq_comm]

/-- The class passed along is that of every volume of the acquisition, as far as the rules tell classes apart: an SSD was
recognised, and the two volumes of an RW job are both SSDs or neither is. -/
def Matched (media : VolumeID → FsType) : Event → Prop
  | .acquireRead id probed => media id = .ssd → probed = true
  | .acquireRW r w probed => (media r = .ssd ↔ media w = .ssd) ∧ (media w = .ssd → probed = true)
  | _ => True

instance : DecidablePred (Matched media) := fun e => by
  unfold Matched
  split <;> infer_instance

/-- The occupancy rule of a volume, for its readers and RW holders. -/
def Allowed (fs : FsType) (readers writers : Nat) : Prop :=
  if fs = .ssd then readers + writers ≤ 2 else 0 < writers → readers = 0

theorem Allowed.fewer (allowed : Allowed fs r w) (reads : r' ≤ r) (writes : w' ≤ w) : Allowed fs r' w' := by
  simp only [Allowed] at allowed ⊢
  split at allowed
  · rw [if_pos ‹_›]
    omega
  · rw [if_neg ‹_›]
    omega

def Proper (media : VolumeID → FsType) (v : VolumeSet) : Prop := ∀ id, Allowed (media id) (v.readers id) (v.writers id)

theorem Proper.leave (proper : v.Proper media) (rw : Bool) (here : v.jobs[j]? = some h)
    (reads : ∀ id, h'.reads id = true → h.reads id = true) (writes : ∀ id, h'.writes id = true → h.writes id = true) :
    ((v.release own rw).setJob j h').Proper media := by
  intro id
  have fewer (p : Holding → Bool) (less : p h' = true → p h = true) : (v.jobs.set j h').countP p ≤ v.jobs.countP p := by
    have counted := countP_set_add p here h'
    cases now : p h' with
    | false =>
      simp only [now] at counted
      split at counted <;> simp at counted <;> omega
    | true =>
      simp only [now, less now] at counted
      omega
  apply (proper id).fewer
  · simp only [readers, setJob, jobs_release]
    exact fewer _ (reads id)
  · simp only [writers, setJob, jobs_release]
    exact fewer _ (writes id)

theorem probe_eq_ssd {id : VolumeID} (recognised : media id = .ssd → probed = true) :
    probe media id probed = .ssd ↔ media id = .ssd := by
  cases probed <;> simp_all [probe]

/-- The two checks leave room under the rule of the class they were made for. -/
theorem Exact.room_read {id : VolumeID} (exact_ : v.Exact) (check : grantRead fs (v.at_ id) = true)
    (same : fs = .ssd ↔ media id = .ssd) :
    Allowed (media id) (v.readers id + 1) (v.writers id) := by
  obtain ⟨readers, writers⟩ := exact_ id
  simp only [grantRead] at check
  simp only [Allowed]
  by_cases ssd : fs = .ssd
  · rw [if_pos ssd, decide_eq_true_eq] at check
    rw [if_pos (same.mp ssd)]
    split at check <;> simp_all <;> omega
  · rw [if_neg ssd] at check
    rw [if_neg (mt same.mpr ssd)]
    simp_all

theorem Exact.room_write {id : VolumeID} (exact_ : v.Exact) (check : grantWrite fs (v.at_ id) = true)
    (same : fs = .ssd ↔ media id = .ssd) :
    Allowed (media id) (v.readers id) (v.writers id + 1) := by
  obtain ⟨readers, writers⟩ := exact_ id
  have free := grantWrite_free check
  rw [free] at writers
  simp only [grantWrite, free] at check
  simp only [Allowed]
  by_cases ssd : fs = .ssd
  · rw [if_pos ssd] at check
    rw [if_pos (same.mp ssd)]
    simp at check writers
    omega
  · rw [if_neg ssd] at check
    rw [if_neg (mt same.mpr ssd)]
    simp at check
    omega

theorem proper_step (exact_ : v.Exact) (proper : v.Proper media) (matched : Matched media e) (step : Step media v e v') :
    v'.Proper media := by
  cases step with
  | idle table jobs =>
    intro id
    rw [readers, writers, jobs]
    exact proper id
  | read check granted =>
    rename_i own
    intro id
    rw [readers_append granted, writers_append granted]
    by_cases mine : Holding.reads id (.read own) = true
    · rw [if_pos mine]
      obtain rfl := of_decide_eq_true mine
      exact exact_.room_read check (probe_eq_ssd matched)
    · rw [if_neg mine]
      exact proper id
  | rw write read granted =>
    rename_i w _ r
    intro id
    rw [readers_append granted, writers_append granted]
    have class_ := probe_eq_ssd matched.2
    by_cases mine : Holding.writes id (.rw r w) = true
    · rw [if_pos mine]
      rcases of_decide_eq_true mine with rfl | rfl
      · exact exact_.room_write read (class_.trans matched.1.symm)
      · exact exact_.room_write write class_
    · rw [if_neg mine]
      exact proper id
  | leftRead here => exact proper.leave false here (by simp [Holding.reads]) (by simp [Holding.writes])
  | leftRW here =>
    rename_i r w j
    by_cases same : r = w
    · rw [if_pos same]
      exact proper.leave true here (by simp [Holding.reads]) (by simp [Holding.writes])
    · rw [if_neg same]
      apply proper.leave true here
      · simp [Holding.reads]
      · intro id mine
        simp only [Holding.writes, decide_eq_true_eq] at mine ⊢
        exact .inr mine
  | leftWrite here => exact proper.leave true here (by simp [Holding.reads]) (by simp [Holding.writes])

/-- Whatever the interleaving, the table names the holders of every volume and no volume has two RW holders; when every
class passed along fits its volumes, no volume holds more than its own class allows. -/
theorem occupancy_rule (ran : run (next media) empty es = some v) :
    (∀ id, (v.at_ id).readers = v.readers id ∧ ((v.at_ id).rw = true ↔ 0 < v.writers id) ∧ v.writers id ≤ 1) ∧
      (Meets (next media) (fun _ => Matched media) empty es → ∀ id,
        (media id ≠ .ssd → 0 < v.writers id → v.readers id = 0) ∧
          (media id = .ssd → v.readers id + v.writers id ≤ 2)) := by
  have start : empty.Exact := fun id => by simp [at_, empty, readers, writers, VolOccupancy.free]
  constructor
  · have exact_ : v.Exact := invariant (fun held stepped => exact_step held (next_step stepped)) start ran
    intro id
    obtain ⟨readers, writers⟩ := exact_ id
    refine ⟨readers, ?_⟩
    cases flag : (v.at_ id).rw <;> simp [flag] at writers <;> simp <;> omega
  · intro matched id
    have both : v.Exact ∧ v.Proper media := by
      refine invariant_meeting (I := fun v => v.Exact ∧ v.Proper media) (fun held fits stepped => ?_)
        ⟨start, fun id => ?_⟩ ran matched
      · exact ⟨exact_step held.1 (next_step stepped), proper_step held.1 held.2 fits (next_step stepped)⟩
      · simp [Allowed, empty, readers, writers]
    have allowed := both.2 id
    simp only [Allowed] at allowed
    constructor
    · intro other
      rwa [if_neg other] at allowed
    · intro ssd
      rwa [if_pos ssd] at allowed

/-- One spinning disk and one SSD. -/
def spindle : VolumeID → FsType
  | "sda" => .hdd
  | _ => .ssd

/-- A copy from the disk to the SSD runs under the rule of the SSD, beside a reader of the disk. -/
theorem copy_joins_reader :
    ∃ v, run (next spindle) empty [.acquireRead "sda" true, .acquireRW "sda" "nvme0n1" true] = some v ∧
      spindle "sda" = .hdd ∧ v.readers "sda" = 1 ∧ v.writers "sda" = 1 := ⟨_, rfl, by decide, by decide, by decide⟩

theorem occupancy_rule_copy :
    ∃ v, run (next spindle) empty [.acquireRead "sda" true, .acquireRW "sda" "sda" true, .acquireRead "nvme0n1" true, .release 0,
        .release 0, .acquireRW "sda" "sda" true, .acquireRW "nvme0n1" "nvme1n1" true] = some v ∧
      v.writers "sda" = 1 ∧ v.readers "sda" = 0 ∧ v.readers "nvme0n1" + v.writers "nvme0n1" = 2 ∧
      (v.at_ "nvme0n1").readers = 1 := by
  have ran : ∃ v, run (next spindle) empty [.acquireRead "sda" true, .acquireRW "sda" "sda" true, .acquireRead "nvme0n1" true,
      .release 0, .release 0, .acquireRW "sda" "sda" true, .acquireRW "nvme0n1" "nvme1n1" true] = some v ∧
      v.writers "sda" = 1 ∧ v.readers "nvme0n1" = 1 ∧ v.writers "nvme0n1" = 1 := ⟨_, rfl, by decide, by decide, by decide⟩
  obtain ⟨v, ran, writer, reader, copy⟩ := ran
  obtain ⟨table, rule⟩ := occupancy_rule ran
  have alone := (rule (by decide) "sda").1 (by decide) (by omega)
  exact ⟨v, ran, writer, alone, by omega, by rw [(table "nvme0n1").1, reader]; rfl⟩

end
end VolumeSet
end Hfdl
