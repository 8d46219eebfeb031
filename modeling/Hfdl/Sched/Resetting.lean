import Hfdl.Sched.Passes
import Hfdl.Sched.Staging

/-! Resets of a file. On a run that returns a reset error, or the rejection of its progress, `runFile` puts the file back
into the queue, where the next `startDownload` finds it. Salvage may come between the two. -/
namespace Hfdl
open Relational Transition

/-- The errors of a run as far as a reset goes. -/
inductive RunFailure where
  | resetFile
  | corruptProgress
  | other
deriving DecidableEq

/-- The work under one file lease; a download goes from `startDownload` to the end of `runFile`. -/
inductive LeaseTask where
  | download (file : FileId) (size : Int) (stage : Stage)
  | failed (file : FileId) (err : RunFailure)
  | requeueing (file : FileId)
  | ended
  | salvage (file : FileId) (size : Int)
  | verify (file : FileId)
deriving DecidableEq

def LeaseTask.saves : LeaseTask → Bool
  | .download .. | .salvage .. => true
  | .failed .. | .requeueing _ | .ended | .verify _ => false

/-- `resets` has the files that no pass has chunked since their last reset, with what salvages have recorded meanwhile. -/
structure Resetting where
  store : Store
  tasks : LeaseToken → Option LeaseTask
  resets : FileId → Option (List Blob)

namespace Resetting

inductive Event where
  | call (op : Operation)
  | leaseDownload (file : FileId) (tok : LeaseToken) (now : Time)
  | leaseSalvage (tok : LeaseToken) (now : Time)
  | leaseVerify (tok : LeaseToken) (now : Time)
  | load (tok : LeaseToken)
  | chunk (tok : LeaseToken) (src : BlockSource) (blockSize : Int) (fuel : Nat)
  | checkpoint (tok : LeaseToken) (blob : Blob)
  | record (tok : LeaseToken)
  | fail (tok : LeaseToken) (err : RunFailure)
  | clear (tok : LeaseToken) (ok : Bool)
  | requeue (tok : LeaseToken) (ok : Bool) (cause : Option String) (now : Time)
  | crash

def assign (d : Resetting) (tok : LeaseToken) (t : LeaseTask) : Resetting :=
  { d with tasks := Function.update d.tasks tok (some t) }

def requeues (d : Resetting) (tok : LeaseToken) : Option FileId :=
  match d.tasks tok with
  | some (.failed file .resetFile) | some (.requeueing file) => some file
  | _ => none

/-- Store calls that are not `ok` fail for reasons of their own; `runFile` only logs them. A rejected progress is cleared
before the file is requeued. -/
def next (d : Resetting) : Event → Option Resetting
  | .call op => if op.Issued ∧ ¬ Staging.Reserved op then some { d with store := op.commit d.store } else none
  | .leaseDownload file tok now =>
    match d.tasks tok, d.store.files.get file, d.store.leaseFileForDownload file tok now with
    | none, some f, .ok store => some ({ d with store }.assign tok (.download file f.size .leased))
    | _, _, _ => none
  | .leaseSalvage tok now =>
    match d.tasks tok, d.store.leaseSalvage tok now with
    | none, .ok (f, store) => some ({ d with store }.assign tok (.salvage f.id f.size))
    | _, _ => none
  | .leaseVerify tok now =>
    match d.tasks tok, d.store.leaseVerify tok now with
    | none, .ok (f, store) => some ({ d with store }.assign tok (.verify f.id))
    | _, _ => none
  | .load tok =>
    match d.tasks tok with
    | some (.download file size .leased) => some (d.assign tok (.download file size (Passes.loadedStage d.store file)))
    | _ => none
  | .chunk tok src blockSize fuel =>
    match d.tasks tok with
    | some (.download file size (.loaded seed)) =>
      if seed.missing size ≠ [] ∧ (0 < blockSize ∧ blockSize ≤ maxInt64) ∧ size ≤ maxInt64 then
        match chunkBlocks fuel blockSize (src.boundaries size (seed.missing size) blockSize)
          (wrapInt64 (Passes.maxBlockIdx d.store file + 1)) with
        | none => none
        | some blocks =>
          match d.store.replacePendingBlocks file tok blocks with
          | .error _ => some (d.assign tok .ended)
          | .ok store =>
            some ({ d with store, resets := Function.update d.resets file none }.assign tok (.download file size (.running seed)))
      else none
    | _ => none
  | .checkpoint tok blob =>
    match d.tasks tok with
    | some (.download file _ (.running _)) =>
      some { d with store := (Operation.saveProgress file tok (some blob)).commit d.store }
    | _ => none
  | .record tok =>
    match d.tasks tok with
    | some (.salvage file size) =>
      match (Operation.saveProgress file tok (some (fullIntervalBlob size))).exec d.store with
      | .ok store =>
        some { d with store, resets := Function.update d.resets file ((d.resets file).map (fullIntervalBlob size :: ·)) }
      | .error _ => some d
    | _ => none
  | .fail tok err =>
    match d.tasks tok with
    | some (.download file _ (.running _)) => some (d.assign tok (.failed file err))
    | _ => none
  | .clear tok ok =>
    match d.tasks tok with
    | some (.failed file .corruptProgress) =>
      some ({ d with store := if ok then (Operation.saveProgress file tok none).commit d.store else d.store }.assign tok
        (.requeueing file))
    | _ => none
  | .requeue tok ok cause now =>
    match d.requeues tok with
    | some file =>
      some ({ d with
        store := if ok then (Operation.transitionFile file tok .downloading .queued cause now).commit d.store else d.store
        resets := Function.update d.resets file (some []) }.assign tok .ended)
    | none => none
  | .crash => some { d with tasks := fun _ => none }

def Salvaged (salvaged : List Blob) (x : Int) : Prop := ∃ blob ∈ salvaged, BlobCovers (some blob) x

/-- A run that returns a reset error leaves no claim in its row, clearing a rejected progress succeeds, and a run that
requeues its file still holds it. -/
def Undone (d : Resetting) : Event → Prop
  | .fail tok .resetFile => ∀ f ∈ d.store.files, f.leaseToken = some tok → claimless f.progress = true
  | .clear _ ok => ok = true
  | .requeue tok .. => ∀ file ∈ d.requeues tok, ∃ f ∈ d.store.files, f.Held file [.downloading] tok
  | _ => True

instance : Decidable (Undone d e) := by
  unfold Undone
  split <;> infer_instance

/-- What a task that still holds its row relies on. A running download may save progress, so it is not one of a file that
waits to be chunked again. -/
def TaskOk (d : Resetting) (tok : LeaseToken) : LeaseTask → Prop
  | .download file _ stage => ∀ f ∈ d.store.files, f.id = file → f.leaseToken = some tok → f.status = .downloading ∧
      ∀ salvaged ∈ d.resets file, (∀ seed, stage ≠ .running seed) ∧ ∀ seed ∈ stage.seed, ∀ x, seed.Covers x → Salvaged salvaged x
  | .failed file err => ∀ f ∈ d.store.files, f.id = file → f.leaseToken = some tok → f.status = .downloading ∧
      (err = .resetFile → ∀ x, ¬ BlobCovers f.progress x)
  | .requeueing file => ∀ f ∈ d.store.files, f.id = file → f.leaseToken = some tok → f.status = .downloading ∧
      ∀ x, ¬ BlobCovers f.progress x
  | .ended | .salvage .. | .verify _ => True

structure Inv (d : Resetting) : Prop where
  leased : d.store.Leased
  tasks : ∀ tok t, d.tasks tok = some t → d.TaskOk tok t
  reset : ∀ f ∈ d.store.files, ∀ salvaged ∈ d.resets f.id, ∀ x, BlobCovers f.progress x → Salvaged salvaged x

section
variable {d d' : Resetting}

theorem TaskOk.rows {s' : Store} (ok : d.TaskOk tok t)
    (origin : ∀ f' ∈ s'.files, f'.leaseToken = some tok → ∃ f ∈ d.store.files, f'.id = f.id ∧ f.leaseToken = some tok ∧
      f'.status = f.status ∧ (t.saves = true ∨ f'.progress = f.progress ∨ f'.progress = none)) :
    { d with store := s' }.TaskOk tok t := by
  have clear {f f' : File} (same : f'.progress = f.progress ∨ f'.progress = none) (before : ∀ x, ¬ BlobCovers f.progress x) x :
      ¬ BlobCovers f'.progress x := by
    rcases same with same | none
    · exact same ▸ before x
    · exact none ▸ not_blobCovers_none
  cases t with
  | download file size stage =>
    intro f' stored' here token
    obtain ⟨f, stored, id, token', status, -⟩ := origin f' stored' token
    rw [status]
    exact ok f stored (id.symm.trans here) token'
  | failed file err =>
    intro f' stored' here token
    obtain ⟨f, stored, id, token', status, progress⟩ := origin f' stored' token
    obtain ⟨downloading, none⟩ := ok f stored (id.symm.trans here) token'
    exact ⟨status.trans downloading, fun reset => clear (progress.resolve_left nofun) (none reset)⟩
  | requeueing file =>
    intro f' stored' here token
    obtain ⟨f, stored, id, token', status, progress⟩ := origin f' stored' token
    obtain ⟨downloading, none⟩ := ok f stored (id.symm.trans here) token'
    exact ⟨status.trans downloading, clear (progress.resolve_left nofun) none⟩
  | ended | salvage _ _ | verify _ => trivial

/-- A committed call, given who may save progress and what. -/
theorem Inv.exec {s' : Store} {op : Operation} (inv : Inv d) (done : op.exec d.store = .ok s') (issued : op.Issued)
    (other : ∀ tok, d.tasks tok ≠ none → op.granted ≠ some tok)
    (saver : ∀ file tok blob, op = .saveProgress file tok (some blob) → ∀ t, d.tasks tok = some t → t.saves = true)
    (saved : ∀ file tok blob, op = .saveProgress file tok (some blob) → ∀ f ∈ d.store.files,
        f.Held file [.downloading, .salvaging] tok →
      ∀ salvaged ∈ d.resets file, ∀ x, BlobCovers (some blob) x → Salvaged salvaged x) : Inv { d with store := s' } := by
  have evolves := Operation.exec_evolution done
  refine ⟨Operation.exec_leased inv.leased issued.targetFree done, fun tok t here => ?_, ?_⟩
  · have known : d.tasks tok ≠ none := by
      rw [show d.tasks tok = some t from here]
      nofun
    refine (inv.tasks tok t here).rows fun f' stored' token => ?_
    rcases evolves.files.origin f' stored' with ⟨f, stored, changed⟩ | ⟨_, _, _, -, _, -, _, rfl⟩
    · obtain ⟨token', status⟩ := changed.held (inv.leased.files f stored) token (other tok known)
      refine ⟨f, stored, changed.id, token', status, ?_⟩
      rcases changed.progress with same | none | ⟨file, holder, blob, equal, held, -⟩
      · exact .inr (.inl same)
      · exact .inr (.inr none)
      · obtain rfl := Option.some.inj (token'.symm.trans held.2.2)
        exact .inl (saver file tok blob equal t here)
    · cases token
  · intro f' stored' salvaged pending x covered
    rcases evolves.files.origin f' stored' with ⟨f, stored, changed⟩ | ⟨_, _, _, -, _, -, _, rfl⟩
    · rw [changed.id] at pending
      rcases changed.progress with same | none | ⟨file, tok, blob, equal, held, same⟩
      · exact inv.reset f stored salvaged pending x (same ▸ covered)
      · exact absurd (none ▸ covered) not_blobCovers_none
      · exact saved file tok blob equal f stored held salvaged (held.1 ▸ pending) x (same ▸ covered)
    · exact absurd covered not_blobCovers_none

theorem Inv.quiet {op : Operation} (inv : Inv d) (issued : ∀ s', op.exec d.store = .ok s' → op.Issued)
    (other : ∀ tok, d.tasks tok ≠ none → op.granted ≠ some tok)
    (unsaved : ∀ file tok blob, op ≠ .saveProgress file tok (some blob)) : Inv { d with store := op.commit d.store } :=
  Operation.commit_preserves (P := fun s' => Inv { d with store := s' }) inv fun s' done =>
    inv.exec done (issued s' done) other (fun _ _ _ same => absurd same (unsaved _ _ _)) fun _ _ _ same =>
      absurd same (unsaved _ _ _)

theorem Inv.assign (inv : Inv d) (ok : d.TaskOk tok t) : Inv (d.assign tok t) := by
  refine ⟨inv.leased, fun tok' t' here => ?_, inv.reset⟩
  rcases update_eq_some.mp here with ⟨rfl, same⟩ | ⟨-, here⟩
  · cases same
    exact ok
  · exact inv.tasks tok' t' here

theorem Inv.grant {op : Operation} (inv : Inv d) (done : op.exec d.store = .ok after) (unused : d.tasks tok = none)
    (grants : op.granted = some tok) (issued : op.Issued) (unsaved : ∀ file tok blob, op ≠ .saveProgress file tok (some blob)) :
    Inv { d with store := after } := by
  refine inv.exec done issued (fun tok' known same => ?_) (fun _ _ _ same => absurd same (unsaved _ _ _))
    fun _ _ _ same => absurd same (unsaved _ _ _)
  obtain rfl := Option.some.inj (grants.symm.trans same)
  exact known unused

theorem Inv.leaseSalvage (inv : Inv d) (unused : d.tasks tok = none) (leased : d.store.leaseSalvage tok now = .ok (f, after)) :
    Inv ({ d with store := after }.assign tok (.salvage f.id f.size)) := by
  have done : (Operation.leaseSalvage tok now).exec d.store = .ok after := Operation.map_snd_ok leased
  exact (inv.grant done unused rfl trivial nofun).assign trivial

theorem Inv.leaseVerify (inv : Inv d) (unused : d.tasks tok = none) (leased : d.store.leaseVerify tok now = .ok (f, after)) :
    Inv ({ d with store := after }.assign tok (.verify f.id)) := by
  have done : (Operation.leaseVerify tok now).exec d.store = .ok after := Operation.map_snd_ok leased
  exact (inv.grant done unused rfl trivial nofun).assign trivial

theorem Inv.leaseDownload (inv : Inv d) (unused : d.tasks tok = none)
    (leased : d.store.leaseFileForDownload file tok now = .ok after) :
    Inv ({ d with store := after }.assign tok (.download file size .leased)) := by
  have done : (Operation.leaseFileForDownload file tok now).exec d.store = .ok after := leased
  have inv' := inv.grant done unused rfl trivial nofun
  exact inv'.assign fun f stored id _ => ⟨Store.downloading_of_lease leased stored id, fun _ _ => ⟨nofun, nofun⟩⟩

theorem Inv.load (inv : Inv d) (here : d.tasks tok = some (.download file size .leased)) :
    Inv (d.assign tok (.download file size (Passes.loadedStage d.store file))) := by
  refine inv.assign fun f stored id token => ⟨(inv.tasks tok _ here f stored id token).1, fun salvaged pending => ⟨?_, ?_⟩⟩
  · exact fun _ => Passes.loadedStage_idle
  · intro seed loaded x covers
    obtain ⟨f', stored', id', decoded⟩ := Passes.loadedStage_seed loaded
    exact inv.reset f' stored' salvaged (id' ▸ pending) x (blobCovers_iff.mpr ⟨seed, decoded, covers⟩)

theorem Inv.chunk (inv : Inv d) (here : d.tasks tok = some (.download file size stage))
    (replaced : d.store.replacePendingBlocks file tok blocks = .ok after) :
    Inv ({ d with store := after, resets := Function.update d.resets file none }.assign tok
      (.download file size (.running seed))) := by
  have done : (Operation.replacePendingBlocks file tok blocks).exec d.store = .ok after := replaced
  have inv' : Inv { d with store := after } := inv.exec done trivial nofun nofun nofun
  have kept : ∀ file' salvaged, salvaged ∈ Function.update d.resets file none file' → file' ≠ file ∧
    salvaged ∈ d.resets file' := by
    intro file' salvaged pending
    exact (update_eq_some.mp pending).resolve_left nofun
  have free : Inv { d with store := after, resets := Function.update d.resets file none } := by
    refine ⟨inv'.leased, fun tok' t here' => ?_,
      fun f stored salvaged pending => inv'.reset f stored salvaged (kept _ _ pending).2⟩
    have ok := inv'.tasks tok' t here'
    cases t with
    | download file' size' stage' =>
      intro f stored id token
      obtain ⟨status, waits⟩ := ok f stored id token
      exact ⟨status, fun salvaged pending => waits salvaged (kept _ _ pending).2⟩
    | failed | requeueing | ended | salvage | verify => exact ok
  refine free.assign fun f stored id token => ⟨(inv'.tasks tok _ here f stored id token).1, fun salvaged pending => ?_⟩
  exact absurd rfl (kept _ _ pending).1

/-- A running pass does not hold a file that waits to be chunked again. -/
theorem Inv.checkpoint (inv : Inv d) (here : d.tasks tok = some (.download file size (.running seed))) :
    Inv { d with store := (Operation.saveProgress file tok (some blob)).commit d.store } := by
  refine Operation.commit_preserves (P := fun s' => Inv { d with store := s' }) inv fun s' done => ?_
  refine inv.exec done trivial nofun (fun _ _ _ same t known => ?_) fun _ _ _ same f stored held salvaged pending => ?_
  · cases same
    cases here.symm.trans known
    rfl
  · cases same
    exact absurd rfl (((inv.tasks tok _ here f stored held.1 held.2.2).2 salvaged pending).1 seed)

theorem Salvaged.cons (known : Salvaged salvaged x) : Salvaged (blob :: salvaged) x := by
  obtain ⟨other, member, covers⟩ := known
  exact ⟨other, List.mem_cons_of_mem _ member, covers⟩

theorem Inv.extend (inv : Inv d) : Inv { d with resets := Function.update d.resets file ((d.resets file).map (blob :: ·)) } := by
  have grown : ∀ file' salvaged, salvaged ∈ Function.update d.resets file ((d.resets file).map (blob :: ·)) file' →
      ∃ salvaged' ∈ d.resets file', ∀ x, Salvaged salvaged' x → Salvaged salvaged x := by
    intro file' salvaged pending
    rcases update_eq_some.mp pending with ⟨rfl, extended⟩ | ⟨-, kept⟩
    · obtain ⟨salvaged', pending', rfl⟩ := Option.map_eq_some_iff.mp extended
      exact ⟨salvaged', pending', fun _ => Salvaged.cons⟩
    · exact ⟨salvaged, kept, fun _ => id⟩
  refine ⟨inv.leased, fun tok t here => ?_, fun f stored salvaged pending x covered => ?_⟩
  · have ok := inv.tasks tok t here
    cases t with
    | download file' size stage =>
      intro f stored id token
      obtain ⟨status, waits⟩ := ok f stored id token
      refine ⟨status, fun salvaged pending => ?_⟩
      obtain ⟨salvaged', pending', more⟩ := grown _ _ pending
      obtain ⟨idle, loaded⟩ := waits salvaged' pending'
      exact ⟨idle, fun seed member x covers => more x (loaded seed member x covers)⟩
    | failed | requeueing | ended | salvage | verify => exact ok
  · obtain ⟨salvaged', pending', more⟩ := grown _ _ pending
    exact more x (inv.reset f stored salvaged' pending' x covered)

theorem Inv.record (inv : Inv d) (here : d.tasks tok = some (.salvage file size))
    (done : (Operation.saveProgress file tok (some blob)).exec d.store = .ok after) :
    Inv { d with store := after, resets := Function.update d.resets file ((d.resets file).map (blob :: ·)) } := by
  have extended : Inv { d with resets := Function.update d.resets file ((d.resets file).map (blob :: ·)) } := inv.extend
  refine extended.exec done trivial nofun (fun _ _ _ same t known => ?_) ?_
  · cases same
    cases here.symm.trans known
    rfl
  · intro _ _ _ same f stored held salvaged pending x covers
    cases same
    simp only [Function.update_self] at pending
    obtain ⟨salvaged', -, rfl⟩ := Option.map_eq_some_iff.mp pending
    exact ⟨blob, List.mem_cons_self, covers⟩

theorem Inv.fail (inv : Inv d) (here : d.tasks tok = some (.download file size stage)) (undone : Undone d (.fail tok err)) :
    Inv (d.assign tok (.failed file err)) := by
  refine inv.assign fun f stored id token => ⟨(inv.tasks tok _ here f stored id token).1, fun reset x => ?_⟩
  subst reset
  exact not_blobCovers_claimless (undone f stored token)

theorem Inv.clear (inv : Inv d) (here : d.tasks tok = some (.failed file err)) :
    Inv ({ d with store := (Operation.saveProgress file tok none).commit d.store }.assign tok (.requeueing file)) := by
  have inv' : Inv { d with store := (Operation.saveProgress file tok none).commit d.store } :=
    inv.quiet (fun _ _ => trivial) nofun nofun
  refine inv'.assign fun f' stored' id token => ?_
  have downloading : f'.status = .downloading := (inv'.tasks tok _ here f' stored' id token).1
  refine ⟨downloading, fun x => ?_⟩
  have held : f'.Held file [.downloading, .salvaging] tok := ⟨id, by simp [downloading], token⟩
  have cleared : ∀ s', (Operation.saveProgress file tok none).exec d.store = .ok s' → f' ∈ s'.files → f'.progress = none := by
    intro s' done known
    obtain ⟨-, rfl⟩ := Store.guardFile_ok.mp done
    obtain ⟨f, before, rfl⟩ := Table.mem_update.mp known
    split
    · rfl
    · rename_i unheld
      rw [if_neg unheld] at held
      exact absurd held unheld
  rcases Operation.commit_cases d.store (.saveProgress file tok none) with same | done
  · have known : f' ∈ d.store.files := same ▸ stored'
    have done : (Operation.saveProgress file tok none).exec d.store = .ok _ := Store.guardFile_ok.mpr ⟨⟨f', known, held⟩, rfl⟩
    rw [cleared _ done (Operation.commit_of_exec done ▸ stored')]
    exact not_blobCovers_none
  · rw [cleared _ done stored']
    exact not_blobCovers_none

theorem Inv.clean (inv : Inv d) (here : d.requeues tok = some file) :
    (∀ f ∈ d.store.files, f.id = file → f.leaseToken = some tok → ∀ x, ¬ BlobCovers f.progress x) ∧
      ∀ file' size stage, d.tasks tok ≠ some (.download file' size stage) := by
  unfold requeues at here
  split at here <;> cases here
  all_goals
    rename_i task
    refine ⟨fun f stored id token => ?_, fun _ _ _ other => by cases task.symm.trans other⟩
    have ok := (inv.tasks tok _ task f stored id token).2
    simpa using ok

/-- The reset takes effect: its row is the one that the run holds. -/
theorem Inv.restart (inv : Inv d) (here : d.requeues tok = some file)
    (undone : ∃ f ∈ d.store.files, f.Held file [.downloading] tok) :
    Inv { d with resets := Function.update d.resets file (some []) } := by
  obtain ⟨clear, foreign⟩ := inv.clean here
  obtain ⟨f₀, known, held⟩ := undone
  have others : ∀ file' salvaged, salvaged ∈ Function.update d.resets file (some []) file' → file' ≠ file →
    salvaged ∈ d.resets file' := by
    intro file' salvaged pending differs
    rwa [Function.update_of_ne differs] at pending
  refine ⟨inv.leased, fun tok' t here => ?_, fun f stored salvaged pending x covered => ?_⟩
  · have ok := inv.tasks tok' t here
    cases t with
    | download file' size stage =>
      intro f stored id token
      obtain ⟨status, waits⟩ := ok f stored id token
      refine ⟨status, fun salvaged pending => ?_⟩
      by_cases same : file' = file
      · -- the row is held by the run that requeues it
        subst same
        rw [Table.eq_of_key stored known (id.trans held.1.symm)] at token
        obtain rfl := Option.some.inj (held.2.2.symm.trans token)
        exact absurd here (foreign _ size stage)
      · exact waits salvaged (others _ _ pending same)
    | failed | requeueing | ended | salvage | verify => exact ok
  · by_cases same : f.id = file
    · obtain rfl := Table.eq_of_key stored known (same.trans held.1.symm)
      exact absurd covered (clear f stored same held.2.2 x)
    · exact inv.reset f stored salvaged (others _ _ pending same) x covered

theorem Inv.requeue {ok : Bool} (inv : Inv d) (here : d.requeues tok = some file)
    (undone : ∃ f ∈ d.store.files, f.Held file [.downloading] tok) :
    Inv ({ d with
      store := if ok then (Operation.transitionFile file tok .downloading .queued cause now).commit d.store else d.store
      resets := Function.update d.resets file (some []) }.assign tok .ended) := by
  refine Inv.assign ?_ trivial
  split
  · exact (inv.restart here undone).quiet (fun _ done => Operation.issued_of_exec (by decide) done) nofun nofun
  · exact inv.restart here undone

theorem Inv.crash (inv : Inv d) : Inv { d with tasks := fun _ => none } := ⟨inv.leased, nofun, inv.reset⟩

theorem inv_next (inv : Inv d) (undone : Undone d e) (stepped : next d e = some d') : Inv d' := by
  cases e
  all_goals
    simp only [next] at stepped
    try split at stepped
  all_goals try cases stepped
  · case call op guard =>
    refine inv.quiet (fun _ _ => guard.1) (fun tok _ granted => ?_) fun file tok blob same => ?_
    · cases op <;> first | exact guard.2 rfl | cases granted
    · subst same
      exact guard.2 rfl
  · exact inv.leaseDownload ‹_› ‹_›
  · exact inv.leaseSalvage ‹_› ‹_›
  · exact inv.leaseVerify ‹_› ‹_›
  · exact inv.load ‹_›
  · -- the blocks are cut and put into the database
    repeat' split at stepped
    all_goals cases stepped
    · exact inv.assign trivial
    · exact inv.chunk ‹_› ‹_›
  · exact inv.checkpoint ‹_›
  · -- a salvage records the whole file
    split at stepped <;> cases stepped
    · exact inv.record ‹_› ‹_›
    · exact inv
  · exact inv.fail ‹_› undone
  · cases (show _ = true from undone)
    exact inv.clear ‹_›
  · exact inv.requeue ‹_› (undone _ ‹_›)
  · exact inv.crash

def initial (owner : String) : Resetting := ⟨.empty owner, fun _ => none, fun _ => none⟩

theorem inv_initial : Inv (initial owner) := ⟨.empty, nofun, fun _ stored => (Table.not_mem_empty _ stored).elim⟩

theorem chunked (here : d.tasks tok = some (.download file size (.loaded seed)))
    (stepped : next d (.chunk tok src blockSize fuel) = some d')
    (running : d'.tasks tok = some (.download file size (.running seed)))
    (left : 0 ≤ x) (right : x < size) :
    seed.Covers x ∨ ∃ b ∈ d'.store.blocks, b.fileId = file ∧ b.status = .pending ∧ b.Has x := by
  simp only [next, here] at stepped
  split at stepped
  · rename_i machine
    split at stepped
    · cases stepped
    rename_i blocks cut
    split at stepped <;> cases stepped
    · simp [assign] at running
    · rename_i replaced
      obtain ⟨-, rows, recut, rfl⟩ := Store.replacePendingBlocks_ok replaced
      rcases chunkBlocks_missing machine.2.1.1 machine.2.1.2 machine.2.2 cut left right with covered | ⟨spec, member, has⟩
      · exact .inl covered
      · obtain ⟨id, stored⟩ := recut.cut spec member
        exact .inr ⟨_, stored, rfl, rfl, has⟩
  · cases stepped

/-- The first pass after a reset takes nothing for present but what a salvage has recorded since, and chunks all the rest. -/
theorem reset_rechunks (ran : run next (initial owner) es = some d) (undone : Meets next Undone (initial owner) es)
    (reset : d.resets file = some salvaged) (here : d.tasks tok = some (.download file size (.loaded seed)))
    (held : ∃ f ∈ d.store.files, f.Held file [.downloading] tok) :
    (∀ x, 0 ≤ x → x < size → Covered (seed.missing size) x ∨ Salvaged salvaged x) ∧
      ∀ src blockSize fuel d', next d (.chunk tok src blockSize fuel) = some d' →
        d'.tasks tok = some (.download file size (.running seed)) → ∀ x, 0 ≤ x → x < size →
          (∃ b ∈ d'.store.blocks, b.fileId = file ∧ b.status = .pending ∧ b.Has x) ∨ Salvaged salvaged x := by
  have inv : Inv d := invariant_meeting inv_next inv_initial ran undone
  obtain ⟨f, stored, id, -, token⟩ := held
  have fresh : ∀ x, seed.Covers x → Salvaged salvaged x := ((inv.tasks tok _ here f stored id token).2 salvaged reset).2 seed rfl
  refine ⟨fun x left right => ?_, fun src blockSize fuel d' stepped running x left right => ?_⟩
  · exact (seed.covers_or_missing left right).symm.imp_right (fresh x)
  · exact (chunked here stepped running left right).symm.imp_right (fresh x)

end

def listed : List Event :=
  [.call (.enqueueJob wholeRepo), .call (.leaseMeta "list" 0),
    .call (.completeListing 1 "list" [⟨"weights", 5, "", "", "", false⟩])]

/-- A pass checkpoints four of five bytes, its progress is rejected and cleared, and the next pass takes over. -/
def rejected : List Event :=
  listed ++ [.leaseDownload 1 "first" 0, .load "first", .chunk "first" .http 4 8,
    .checkpoint "first" [72, 70, 68, 80, 1, 5, 1, 0, 4],
    .fail "first" .corruptProgress, .clear "first" true, .requeue "first" true none 0, .leaseDownload 1 "second" 0,
      .load "second"]

theorem reset_rechunks_rejected :
    ∃ d seed, run next (initial "process") rejected = some d ∧
      ∀ x, 0 ≤ x → x < 5 → Covered (IntervalSet.missing seed 5) x ∨ Salvaged [] x := by
  have ran : ∃ d, run next (initial "process") rejected = some d ∧ d.resets 1 = some [] ∧
      d.tasks "second" = some (.download 1 5 (.loaded (.empty 0 (by decide)))) ∧
      ∃ f ∈ d.store.files, f.Held 1 [.downloading] "second" := ⟨_, rfl, rfl, rfl, by decide⟩
  obtain ⟨d, ran, reset, here, held⟩ := ran
  exact ⟨d, _, ran, (reset_rechunks ran (by decide) reset here held).1⟩

/-- The same pass with a reset error: what it has checkpointed stays in the row, and the next pass leaves those bytes out. -/
theorem reset_keeps_progress :
    ∃ d d', run next (initial "process")
        (listed ++ [.leaseDownload 1 "first" 0, .load "first", .chunk "first" .http 4 8,
          .checkpoint "first" [72, 70, 68, 80, 1, 5, 1, 0, 4], .fail "first" .resetFile, .requeue "first" true none 0,
          .leaseDownload 1 "second" 0, .load "second"]) = some d ∧ d.resets 1 = some [] ∧
      next d (.chunk "second" .http 4 8) = some d' ∧ d'.store.blocks.rows.map (fun b => (b.offset, b.length)) = [(4, 1)] :=
  ⟨_, _, rfl, rfl, rfl, by decide⟩

end Resetting
end Hfdl
