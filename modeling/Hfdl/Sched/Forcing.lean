import Hfdl.Sched.Passes
import Hfdl.Store.Progress

/-! A forced download over the passes of its file: what is transferred after the
re-queue of a cached file, and which calls make the file cached again. -/
namespace Hfdl
open Relational Transition

/-- The id under which the cache keeps the content of a file. -/
def File.blobID (f : File) : String := if f.isLFS then f.sha256 else f.gitOID

/-- The interval set of a run, and what its checkpointer has taken of it. -/
structure Tracker where
  set : IntervalSet
  snapshot : IntervalSet

/-- `since` are the ranges transferred for a file after its last forced re-queue, `blobs` is the cache. -/
structure Forcing where
  base : Passes
  trackers : LeaseToken → Option Tracker
  since : FileId → Option (List Interval)
  blobs : List String

namespace Forcing

inductive Event where
  | pass (e : Passes.Event)
  | force (file : FileId) (now : Time)
  | reuse (file : FileId) (blobPath : String)
  | publish (blob : String)
  | evict (blob : String)
  | fetch (tok : LeaseToken) (off : Int) (length : Nat)
  | snapshot (tok : LeaseToken)
  | save (tok : LeaseToken)
  | complete (tok : LeaseToken) (block : BlockId) (blockTok : LeaseToken)

/-- The calls that appear as events of their own. -/
def own : Operation → Bool
  | .saveProgress _ _ (some _) | .markCachedFromBlob .. | .transitionFile _ _ .cached .queued _ _ => true
  | _ => false

def plain : Passes.Event → Bool
  | .complete .. => false
  | .call op => !own op
  | _ => true

def track (d : Forcing) (tok : LeaseToken) (t : Tracker) : Forcing :=
  { d with trackers := Function.update d.trackers tok (some t) }

def seeded (d : Forcing) : Passes.Event → Forcing
  | .load tok =>
    match (d.base.passes tok).bind (·.stage.seed) with
    | some seed => d.track tok ⟨seed, seed⟩
    | none => d
  | _ => d

def transfer (since : FileId → Option (List Interval)) (file : FileId) (v : Interval) : FileId → Option (List Interval) :=
  Function.update since file ((since file).map (v :: ·))

/-- The orchestrator takes a file from the cache whenever its blob is there. A worker completes its block
when the run has written every byte of it. -/
def next (d : Forcing) : Event → Option Forcing
  | .pass e => if plain e then (Passes.next d.base e).map fun base => { d with base }.seeded e else none
  | .force file now =>
    match d.base.store.transitionFile file "" .cached .queued none now with
    | .ok store => some { d with base := { d.base with store }, since := Function.update d.since file (some []) }
    | .error _ => none
  | .reuse file blobPath =>
    match d.base.store.files.get file with
    | some f =>
      if f.blobID ∈ d.blobs then
        some { d with base := { d.base with store := (Operation.markCachedFromBlob file blobPath).commit d.base.store } }
      else none
    | none => none
  | .publish blob => some { d with blobs := blob :: d.blobs }
  | .evict blob => some { d with blobs := d.blobs.filter (· ≠ blob) }
  | .fetch tok off length =>
    match d.base.passes tok, d.trackers tok with
    | some p, some t =>
      some { d.track tok { t with set := t.set.add off (off + length) } with
        since := transfer d.since p.file ⟨off, off + length⟩ }
    | _, _ => none
  | .snapshot tok => (d.trackers tok).map fun t => d.track tok { t with snapshot := t.set }
  | .save tok =>
    match d.base.passes tok, d.trackers tok with
    | some p, some t =>
      match t.snapshot.marshalBinary with
      | .ok blob =>
        some { d with base := { d.base with store := (Operation.saveProgress p.file tok (some blob)).commit d.base.store } }
      | .error _ => none
    | _, _ => none
  | .complete tok block blockTok =>
    match d.trackers tok, d.base.store.blocks.get block with
    | some t, some b =>
      if b.length ≤ t.set.prefixCovered b.offset (b.offset + b.length) then
        (Passes.next d.base (.complete block blockTok)).map fun base => { d with base }
      else none
    | _, _ => none

inductive Step (d : Forcing) : Event → Forcing → Prop where
  | pass (plain : plain e = true) (stepped : Passes.next d.base e = some after) :
      Step d (.pass e) ({ d with base := after }.seeded e)
  | force (moved : d.base.store.transitionFile file "" .cached .queued none now = .ok after) :
      Step d (.force file now)
        { d with base := { d.base with store := after }, since := Function.update d.since file (some []) }
  | reuse (found : d.base.store.files.get file = some f) (cached : f.blobID ∈ d.blobs) : Step d (.reuse file blobPath)
      { d with base := { d.base with store := (Operation.markCachedFromBlob file blobPath).commit d.base.store } }
  | publish : Step d (.publish blob) { d with blobs := blob :: d.blobs }
  | evict : Step d (.evict blob) { d with blobs := d.blobs.filter (· ≠ blob) }
  | fetch (here : d.base.passes tok = some p) (tracked : d.trackers tok = some t) :
      Step d (.fetch tok off length) { d.track tok { t with set := t.set.add off (off + length) } with
        since := transfer d.since p.file ⟨off, off + length⟩ }
  | snapshot (tracked : d.trackers tok = some t) : Step d (.snapshot tok) (d.track tok { t with snapshot := t.set })
  | save (here : d.base.passes tok = some p) (tracked : d.trackers tok = some t) (encoded : t.snapshot.marshalBinary = .ok blob) :
      Step d (.save tok)
        { d with base := { d.base with store := (Operation.saveProgress p.file tok (some blob)).commit d.base.store } }
  | complete (tracked : d.trackers tok = some t) (found : d.base.store.blocks.get block = some b)
      (whole : b.length ≤ t.set.prefixCovered b.offset (b.offset + b.length))
      (stepped : Passes.next d.base (.complete block blockTok) = some after) :
      Step d (.complete tok block blockTok) { d with base := after }

theorem next_step {d d' : Forcing} (stepped : next d e = some d') : Step d e d' := by
  unfold next at stepped
  repeat' split at stepped
  all_goals grind [Step, Option.map_eq_some_iff]

/-- The file that a call takes away from the network path: to a reference, or to the offline cache. -/
def diverted : Operation → Option FileId
  | .markSalvaging file | .transitionFile file _ .downloading .salvaging _ _ | .transitionFile file _ .queued .downloaded _ _ =>
    some file
  | _ => none

/-- A file is re-queued by force only without progress. From then on its blob is not in the cache when the
orchestrator looks at it, and it is neither salvaged nor served offline. A block is completed by the run
that holds the file. -/
def Direct (d : Forcing) : Event → Prop
  | .pass (.call op) => ∀ file ∈ diverted op, d.since file = none
  | .force file _ => ∀ f ∈ d.base.store.files, f.id = file → f.progress.getD [] = []
  | .reuse file _ => ∀ f ∈ d.base.store.files, f.id = file → f.status = .queued → d.since file ≠ none → f.blobID ∉ d.blobs
  | .complete tok block _ => ∀ b ∈ d.base.store.blocks, b.id = block →
      ∃ f ∈ d.base.store.files, f.Held b.fileId [.downloading] tok
  | _ => True

instance (d : Forcing) : DecidablePred d.Direct := fun e => by
  unfold Direct
  split <;> infer_instance

/-- What a pass counts as done has been transferred since. -/
structure PassOk (d : Forcing) (tok : LeaseToken) (rs : List Interval) : Prop where
  pass : ∀ p, d.base.passes tok = some p → ∀ x, p.Accounted x → Covered rs x
  tracker : ∀ t, d.trackers tok = some t → ∀ x, t.set.Covers x ∨ t.snapshot.Covers x → Covered rs x

/-- The row of a forced file. Its progress and its finished download rest on transfers after the re-queue. -/
structure RowOk (d : Forcing) (f : File) (rs : List Interval) : Prop where
  unsalvaged : f.status ≠ .salvaging
  progress : f.status.Resumable → ∀ x, BlobCovers f.progress x → Covered rs x
  landed : f.status = .downloaded ∨ f.status = .verifying → ∀ x, 0 ≤ x → x < f.size → Covered rs x
  led : f.status = .downloading → ∀ tok, f.leaseToken = some tok → PassOk d tok rs

structure Inv (d : Forcing) : Prop where
  base : Passes.Inv d.base
  tracked : ∀ tok t, d.trackers tok = some t → d.base.passes tok ≠ none
  rows : ∀ f ∈ d.base.store.files, ∀ rs, d.since f.id = some rs → RowOk d f rs

section
variable {d d' : Forcing} {op : Operation}

@[simp] theorem seeded_base : (d.seeded e).base = d.base := by
  unfold seeded
  split
  · split <;> rfl
  · rfl

@[simp] theorem seeded_since : (d.seeded e).since = d.since := by
  unfold seeded
  split
  · split <;> rfl
  · rfl

theorem seeded_trackers (tracked : (d.seeded e).trackers tok = some t) :
    d.trackers tok = some t ∨ e = .load tok ∧ ∃ p seed, d.base.passes tok = some p ∧ seed ∈ p.stage.seed ∧ t = ⟨seed, seed⟩ := by
  unfold seeded at tracked
  split at tracked
  · rename_i loaded
    split at tracked
    · rename_i seed found
      by_cases same : tok = loaded
      · subst same
        simp only [track, Function.update_self] at tracked
        obtain ⟨p, here, member⟩ := Option.bind_eq_some_iff.mp found
        exact .inr ⟨rfl, p, seed, here, member, (Option.some.inj tracked).symm⟩
      · simp only [track, Function.update_of_ne same] at tracked
        exact .inl tracked
    · exact .inl tracked
  · exact .inl tracked

theorem passes_assign {b : Passes} (here : (b.assign tok' p₀).passes tok = some p) :
    tok = tok' ∧ p = p₀ ∨ tok ≠ tok' ∧ b.passes tok = some p := by
  exact (update_eq_some.mp here).imp_left fun ⟨same, set⟩ => ⟨same, (Option.some.inj set).symm⟩

theorem PassOk.congr (ok : PassOk d tok rs)
    (passes : ∀ p', d'.base.passes tok = some p' → ∃ p, d.base.passes tok = some p ∧ ∀ x, p'.Accounted x → p.Accounted x)
    (trackers : d'.trackers tok = d.trackers tok) : PassOk d' tok rs := by
  constructor
  · intro p' here x accounted
    obtain ⟨p, before, counts⟩ := passes p' here
    exact ok.pass p before x (counts x accounted)
  · intro t here
    exact ok.tracker t (trackers ▸ here)

theorem RowOk.change (ok : RowOk d f rs) (changed : f.Change op f') (issued : op.Issued) (entry : f'.size = f.size)
    (plain : own op = false) (direct : diverted op ≠ some f.id)
    (finished : f.status = .downloading → f'.status = .downloaded → ∀ x, 0 ≤ x → x < f.size → Covered rs x)
    (led : f'.status = .downloading → ∀ tok, f'.leaseToken = some tok → PassOk d' tok rs) : RowOk d' f' rs := by
  refine ⟨fun salvaging => ?_, fun resumable x covered => ?_, fun landed => ?_, led⟩
  · rcases changed.salvaging issued salvaging with before | rfl | ⟨_, _, _, rfl⟩
    · exact ok.unsalvaged before
    · exact direct rfl
    · exact direct rfl
  · rcases changed.resumable issued resumable with ⟨before, same⟩ | cleared | ⟨_, _, _, rfl, -⟩ | ⟨_, _, _, rfl, -⟩
    · exact ok.progress before x (same ▸ covered)
    · exact absurd (cleared ▸ covered) not_blobCovers_none
    · cases plain
    · cases plain
  · rw [entry]
    rcases changed.landed issued landed with before | ⟨before, later⟩ | salvaging | ⟨_, _, _, rfl⟩
    · exact ok.landed before
    · exact finished before later
    · exact absurd salvaging ok.unsalvaged
    · exact absurd rfl direct

theorem rowOk_fresh : RowOk d (.fresh file repo entry) rs :=
  ⟨nofun, fun _ _ covered => absurd covered not_blobCovers_none, fun never => by simp [File.fresh] at never, nofun⟩

theorem Inv.passOk (inv : Inv d) (plain : plain e = true) (stepped : Passes.next d.base e = some after)
    (stored : f ∈ d.base.store.files) (forced : d.since f.id = some rs) (downloading : f.status = .downloading)
    (token : f.leaseToken = some tok) : PassOk ({ d with base := after }.seeded e) tok rs := by
  have row := inv.rows f stored rs forced
  have ok : PassOk d tok rs := row.led downloading tok token
  obtain ⟨_, p, token', here, file, -, -⟩ := inv.base.led f stored downloading
  obtain rfl := Option.some.inj (token.symm.trans token')
  have unchanged : ∀ {d' : Forcing}, d'.base.passes = d.base.passes → d'.trackers = d.trackers → PassOk d' tok rs :=
    fun passes trackers => ok.congr (fun p' here' => ⟨p', passes ▸ here', fun _ => id⟩) (by rw [trackers])
  cases Passes.next_step stepped with
  | call | finish | conclude => exact unchanged rfl rfl
  | lease unused found leased =>
    refine ok.congr (fun p' here' => ?_) rfl
    rcases passes_assign here' with ⟨rfl, -⟩ | ⟨-, before⟩
    · cases unused.symm.trans here
    · exact ⟨p', before, fun _ => id⟩
  | @load loaded file' size completed here' =>
    -- the seed is the progress of the row, which rests on later transfers
    have seeds : tok = loaded → ∀ seed ∈ (Passes.loadedStage d.base.store file').seed, ∀ x, seed.Covers x → Covered rs x := by
      rintro rfl seed member x covers
      obtain rfl := Option.some.inj (here.symm.trans here')
      obtain ⟨f₀, stored₀, id₀, decoded⟩ := Passes.loadedStage_seed member
      obtain rfl := Table.eq_of_key stored₀ stored (id₀.trans file)
      have resumable : f₀.status.Resumable := by
        rw [downloading]
        trivial
      exact row.progress resumable x (blobCovers_iff.mpr ⟨seed, decoded, covers⟩)
    constructor
    · intro p' now x accounted
      rw [seeded_base] at now
      rcases passes_assign now with ⟨rfl, rfl⟩ | ⟨-, before⟩
      · rcases accounted with ⟨seed, member, covers⟩ | done
        · exact seeds rfl seed member x covers
        · exact ok.pass _ here' x (.inr done)
      · exact ok.pass p' before x accounted
    · intro t tracked
      rcases seeded_trackers tracked with before | ⟨same, p', seed, now, member, rfl⟩
      · exact ok.tracker t before
      · cases same
        rcases passes_assign now with ⟨-, rfl⟩ | ⟨never, -⟩
        · exact fun x covers => seeds rfl seed member x (covers.elim id id)
        · exact absurd rfl never
  | chunk here' machine cut replaced =>
    refine ok.congr (fun p' now => ?_) rfl
    rcases passes_assign now with ⟨rfl, rfl⟩ | ⟨-, before⟩
    · exact ⟨_, here', fun _ => id⟩
    · exact ⟨p', before, fun _ => id⟩
  | refused here' =>
    refine ok.congr (fun p' now => ?_) rfl
    rcases passes_assign now with ⟨rfl, rfl⟩ | ⟨-, before⟩
    · exact ⟨_, here', fun _ accounted => .inr (accounted.resolve_left fun ⟨_, never, _⟩ => nomatch never)⟩
    · exact ⟨p', before, fun _ => id⟩
  | complete => cases plain

theorem passes_kept (stepped : Passes.next b e = some b') (known : b.passes tok ≠ none) : b'.passes tok ≠ none := by
  have assigned : ∀ {tok' p₀}, (b.assign tok' p₀).passes tok ≠ none := fun {tok' p₀} => by
    simp only [Passes.assign]
    by_cases same : tok = tok'
    · rw [same, Function.update_self]
      exact Option.some_ne_none _
    · rwa [Function.update_of_ne same]
  cases Passes.next_step stepped with
  | call | finish | conclude => exact known
  | lease | load | chunk | refused => exact assigned
  | complete =>
    simp only [Passes.recordCompleted]
    cases found : b.passes tok with
    | none => exact absurd found known
    | some p => exact Option.some_ne_none _

theorem Inv.tracked_seeded (inv : Inv d) (stepped : Passes.next d.base e = some after) :
    ∀ tok t, ({ d with base := after }.seeded e).trackers tok = some t →
      ({ d with base := after }.seeded e).base.passes tok ≠ none := by
  intro tok t tracked
  rw [seeded_base]
  rcases seeded_trackers tracked with before | ⟨-, p, _, here, -, -⟩
  · exact passes_kept stepped (inv.tracked tok t before)
  · intro absent
    cases here.symm.trans absent

/-- The calls of the passes are neither events of their own nor diversions of a forced file. -/
theorem performed (performs : Passes.Performs d.base e op) (isPlain : plain e = true) (direct : d.Direct (.pass e)) :
    own op = false ∧ ∀ file ∈ diverted op, d.since file = none := by
  cases performs with
  | call => exact ⟨by simpa [plain] using isPlain, direct⟩
  | lease | finish | chunk | conclude => exact ⟨rfl, nofun⟩
  | complete => cases isPlain

theorem Inv.passOk_leased (inv : Inv d) (performs : Passes.Performs d.base e (.leaseFileForDownload file tok now))
    (stepped : Passes.next d.base e = some after) : PassOk ({ d with base := after }.seeded e) tok rs := by
  cases performs with
  | call free => exact absurd rfl free
  | lease =>
    cases Passes.next_step stepped with
    | lease unused found leased =>
      constructor
      · intro p here x accounted
        rcases passes_assign here with ⟨-, rfl⟩ | ⟨other, -⟩
        · rcases accounted with ⟨_, never, _⟩ | ⟨_, never, _⟩ <;> cases never
        · exact absurd rfl other
      · intro t tracked
        rcases seeded_trackers tracked with before | ⟨never, -⟩
        · exact absurd unused (inv.tracked tok t before)
        · cases never

theorem Inv.pass (inv : Inv d) (isPlain : plain e = true) (direct : d.Direct (.pass e))
    (stepped : Passes.next d.base e = some after) : Inv ({ d with base := after }.seeded e) := by
  have base := Passes.inv_next inv.base stepped
  refine ⟨by rwa [seeded_base], inv.tracked_seeded stepped, ?_⟩
  intro f' stored' rs forced
  rw [seeded_base] at stored'
  rw [seeded_since] at forced
  rcases Passes.next_store stepped with same | ⟨op, performs, issued, done⟩
  · have stored : f' ∈ d.base.store.files := same ▸ stored'
    have row := inv.rows f' stored rs forced
    exact ⟨row.unsalvaged, row.progress, row.landed, fun downloading tok token =>
      inv.passOk isPlain stepped stored forced downloading token⟩
  · obtain ⟨plain, direct⟩ := performed performs isPlain direct
    rcases (Operation.exec_evolution done).files.origin f' stored' with ⟨f, stored, changed⟩ | ⟨_, _, _, -, _, -, _, rfl⟩
    · have forced : d.since f.id = some rs := changed.id ▸ forced
      have row := inv.rows f stored rs forced
      have entry : f'.size = f.size := congrArg FileEntry.size (inv.base.catalogued.entry done stored changed)
      refine row.change changed issued entry plain (fun same => ?_) (fun before later x left right => ?_)
        fun downloading tok token => ?_
      · cases (direct _ same).symm.trans forced
      · obtain ⟨tok, p, token, here, -, accounted⟩ := inv.base.finished stepped stored before stored' changed.id later
        exact (row.led before tok token).pass p here x (accounted x left right)
      · rcases changed.downloading issued downloading with ⟨before, lease⟩ | ⟨file, new, now, rfl, granted⟩
        · exact inv.passOk isPlain stepped stored forced before (lease ▸ token)
        · obtain rfl := Option.some.inj (token.symm.trans granted)
          exact inv.passOk_leased performs stepped
    · exact rowOk_fresh

theorem RowOk.frame (ok : RowOk d f rs) (passes : d'.base.passes = d.base.passes) (trackers : d'.trackers = d.trackers) :
    RowOk d' f rs :=
  ⟨ok.unsalvaged, ok.progress, ok.landed, fun downloading tok token =>
    (ok.led downloading tok token).congr (fun p here => ⟨p, passes ▸ here, fun _ => id⟩) (by rw [trackers])⟩

theorem Inv.force (inv : Inv d) (moved : d.base.store.transitionFile file "" .cached .queued none now = .ok after)
    (empty : ∀ f ∈ d.base.store.files, f.id = file → f.progress.getD [] = []) :
    Inv { d with base := { d.base with store := after }, since := Function.update d.since file (some []) } := by
  have done : (Operation.transitionFile file "" .cached .queued none now).exec d.base.store = .ok after := moved
  have base : Passes.Inv { d.base with store := after } := by
    rw [← Operation.commit_of_exec done]
    exact inv.base.call rfl (by simp [Passes.Reserved])
  obtain ⟨-, ⟨f₁, known, owned⟩, -, rfl⟩ := Store.transitionFile_ok moved
  refine ⟨base, inv.tracked, fun f' stored' rs forced => ?_⟩
  obtain ⟨f, stored, rfl⟩ := Table.mem_update.mp stored'
  split at forced
  · rename_i mine
    rw [if_pos mine]
    simp only [mine.1, Function.update_self, Option.some.injEq] at forced
    refine ⟨by simp, fun _ x covered => ?_, by simp, by simp⟩
    exact absurd covered (not_blobCovers_empty (empty f stored mine.1))
  · rename_i unmoved
    rw [if_neg unmoved]
    have other : f.id ≠ file := fun here => unmoved (Table.eq_of_key stored known (here.trans owned.1.symm) ▸ owned)
    simp only [Function.update_of_ne other] at forced
    exact (inv.rows f stored rs forced).frame rfl rfl

theorem Inv.reuse (inv : Inv d) (found : d.base.store.files.get file = some f) (cached : f.blobID ∈ d.blobs)
    (direct : d.Direct (.reuse file blobPath)) :
    Inv { d with base := { d.base with store := (Operation.markCachedFromBlob file blobPath).commit d.base.store } } := by
  obtain ⟨known, here⟩ := Table.get_eq_some.mp found
  refine ⟨inv.base.call trivial nofun, inv.tracked, fun g' stored' rs forced => ?_⟩
  rcases Operation.commit_cases d.base.store (.markCachedFromBlob file blobPath) with same | done
  · simp only [same] at stored'
    exact (inv.rows g' stored' rs forced).frame rfl rfl
  · obtain ⟨-, same⟩ := Store.moveFile_ok.mp done
    simp only [same] at stored'
    obtain ⟨g, stored, rfl⟩ := Table.mem_update.mp stored'
    split at forced
    · rename_i mine
      obtain rfl := Table.eq_of_key stored known (mine.1.trans here.symm)
      have forced : d.since file = some rs := mine.1 ▸ forced
      exact absurd cached (direct g stored mine.1 (List.mem_singleton.mp mine.2) (by simp [forced]))
    · rename_i unmoved
      rw [if_neg unmoved]
      exact (inv.rows g stored rs forced).frame rfl rfl

theorem Inv.save {p : Pass} (inv : Inv d) (tracked : d.trackers tok = some t)
    (encoded : t.snapshot.marshalBinary = .ok blob) :
    Inv { d with base := { d.base with store := (Operation.saveProgress p.file tok (some blob)).commit d.base.store } } := by
  refine ⟨inv.base.call trivial nofun, inv.tracked, fun f' stored' rs forced => ?_⟩
  rcases Operation.commit_cases d.base.store (.saveProgress p.file tok (some blob)) with same | done
  · simp only [same] at stored'
    exact (inv.rows f' stored' rs forced).frame rfl rfl
  · obtain ⟨-, same⟩ := Store.guardFile_ok.mp done
    simp only [same] at stored'
    obtain ⟨f, stored, rfl⟩ := Table.mem_update.mp stored'
    split at forced
    · rename_i held
      rw [if_pos held]
      have row := inv.rows f stored rs forced
      refine ⟨row.unsalvaged, fun _ x covered => ?_, row.landed, fun downloading tok token =>
        (row.led downloading tok token).congr (fun p here => ⟨p, here, fun _ => id⟩) rfl⟩
      have downloading : f.status = .downloading := by
        have status := held.2.1
        have unsalvaged := row.unsalvaged
        simpa [unsalvaged] using status
      obtain ⟨seed, decoded, covers⟩ := blobCovers_iff.mp covered
      obtain rfl := Except.ok.inj ((decodeProgress_marshal encoded).symm.trans decoded)
      exact (row.led downloading tok held.2.2).tracker t tracked x (.inr covers)
    · rename_i unmoved
      rw [if_neg unmoved]
      exact (inv.rows f stored rs forced).frame rfl rfl

theorem PassOk.mono (ok : PassOk d tok rs) (more : ∀ x, Covered rs x → Covered rs' x) : PassOk d tok rs' :=
  ⟨fun p here x accounted => more x (ok.pass p here x accounted),
    fun t tracked x covers => more x (ok.tracker t tracked x covers)⟩

theorem RowOk.more (ok : RowOk d f rs) (more : ∀ x, Covered rs x → Covered rs' x)
    (led : f.status = .downloading → ∀ tok, f.leaseToken = some tok → PassOk d' tok rs') : RowOk d' f rs' :=
  ⟨ok.unsalvaged, fun resumable x covered => more x (ok.progress resumable x covered),
    fun landed x left right => more x (ok.landed landed x left right), led⟩

theorem Inv.tracked_track (inv : Inv d) (tracked : d.trackers tok = some t) :
    ∀ tok' t', (d.track tok new).trackers tok' = some t' → d.base.passes tok' ≠ none := by
  intro tok' t' here
  by_cases same : tok' = tok
  · exact same ▸ inv.tracked tok t tracked
  · simp only [track, Function.update_of_ne same] at here
    exact inv.tracked tok' t' here

theorem PassOk.track (ok : PassOk d tok' rs) (new : tok' = tok → ∀ x, t.set.Covers x ∨ t.snapshot.Covers x → Covered rs x) :
    PassOk (d.track tok t) tok' rs := by
  refine ⟨ok.pass, fun t' here => ?_⟩
  by_cases same : tok' = tok
  · subst same
    simp only [Forcing.track, Function.update_self, Option.some.injEq] at here
    exact here ▸ new rfl
  · simp only [Forcing.track, Function.update_of_ne same] at here
    exact ok.tracker t' here

theorem Inv.fetch (inv : Inv d) (here : d.base.passes tok = some p) (tracked : d.trackers tok = some t) :
    Inv { d.track tok { t with set := t.set.add off stop } with since := transfer d.since p.file ⟨off, stop⟩ } := by
  refine ⟨inv.base, inv.tracked_track tracked, fun f stored rs' forced => ?_⟩
  by_cases mine : f.id = p.file
  · simp only [transfer, mine, Function.update_self, Option.map_eq_some_iff] at forced
    obtain ⟨rs, before, rfl⟩ := forced
    have row := inv.rows f stored rs (mine ▸ before)
    have more : ∀ x, Covered rs x → Covered (⟨off, stop⟩ :: rs) x := fun x covered => covered_cons.mpr (.inr covered)
    refine row.more more fun downloading tok' token => ?_
    have ok := row.led downloading tok' token
    have grown : PassOk (d.track tok { t with set := t.set.add off stop }) tok' (⟨off, stop⟩ :: rs) := by
      refine (ok.mono more).track ?_
      rintro rfl x (covers | covers)
      · rcases IntervalSet.covers_add.mp covers with inside | before
        · exact covered_cons.mpr (.inl inside)
        · exact more x (ok.tracker t tracked x (.inl before))
      · exact more x (ok.tracker t tracked x (.inr covers))
    exact grown.congr (fun p here => ⟨p, here, fun _ => id⟩) rfl
  · simp only [transfer, Function.update_of_ne mine] at forced
    have row := inv.rows f stored rs' forced
    refine row.more (fun _ => id) fun downloading tok' token => ?_
    obtain ⟨_, p', token', here', file, -⟩ := inv.base.led f stored downloading
    obtain rfl := Option.some.inj (token.symm.trans token')
    have other : tok' ≠ tok := by
      rintro rfl
      obtain rfl := Option.some.inj (here.symm.trans here')
      exact mine file.symm
    have kept : PassOk (d.track tok { t with set := t.set.add off stop }) tok' rs' :=
      (row.led downloading tok' token).track fun same => absurd same other
    exact kept.congr (fun p here => ⟨p, here, fun _ => id⟩) rfl

theorem Inv.snapshot (inv : Inv d) (tracked : d.trackers tok = some t) : Inv (d.track tok { t with snapshot := t.set }) := by
  refine ⟨inv.base, inv.tracked_track tracked, fun f stored rs forced => ?_⟩
  have row := inv.rows f stored rs forced
  refine row.more (fun _ => id) fun downloading tok' token => ?_
  have ok := row.led downloading tok' token
  refine ok.track ?_
  rintro rfl x covers
  exact ok.tracker t tracked x (.inl (covers.elim id id))

theorem Inv.complete (inv : Inv d) (tracked : d.trackers tok = some t) (found : d.base.store.blocks.get block = some b)
    (whole : b.length ≤ t.set.prefixCovered b.offset (b.offset + b.length))
    (stepped : Passes.next d.base (.complete block blockTok) = some after)
    (holder : ∃ f ∈ d.base.store.files, f.Held b.fileId [.downloading] tok) : Inv { d with base := after } := by
  have base := Passes.inv_next inv.base stepped
  refine ⟨base, fun tok t tracked => passes_kept stepped (inv.tracked tok t tracked), fun f stored' rs forced => ?_⟩
  cases Passes.next_step stepped with
  | complete found' done =>
    obtain rfl := Option.some.inj (found.symm.trans found')
    have stored : f ∈ d.base.store.files := Store.completeBlock_files done ▸ stored'
    have row := inv.rows f stored rs forced
    refine row.more (fun _ => id) fun downloading tok' token => ?_
    have ok := row.led downloading tok' token
    refine ⟨fun p' here' x accounted => ?_, ok.tracker⟩
    obtain ⟨p, here, rfl⟩ := Option.map_eq_some_iff.mp here'
    split at accounted
    · rename_i recorded
      rcases accounted with seeded | ⟨b', member, has⟩
      · exact ok.pass p here x (.inl seeded)
      rcases List.mem_append.mp member with before | now
      · exact ok.pass p here x (.inr ⟨b', before, has⟩)
      -- the block is the one just completed, by the run of this very pass
      obtain rfl := List.mem_singleton.mp now
      obtain ⟨f₁, known₁, id₁, downloading₁, token₁⟩ := recorded
      have mine : f₁ = f := inv.base.token_unique known₁ stored downloading₁ downloading token₁ token
      obtain ⟨f₂, known₂, id₂, -, token₂⟩ := holder
      obtain rfl := Table.eq_of_key known₂ stored (id₂.trans (id₁.symm.trans (mine ▸ rfl)))
      obtain rfl := Option.some.inj (token₂.symm.trans token)
      have inside : x < b'.offset + t.set.prefixCovered b'.offset (b'.offset + b'.length) := by
        have right := has.2
        omega
      exact ok.tracker t tracked x (.inl (IntervalSet.covers_of_prefixCovered has.1 inside))
    · exact ok.pass p here x accounted

theorem inv_next (inv : Inv d) (direct : d.Direct e) (stepped : next d e = some d') : Inv d' := by
  cases next_step stepped with
  | pass isPlain done => exact inv.pass isPlain direct done
  | force moved => exact inv.force moved direct
  | reuse found cached => exact inv.reuse found cached direct
  | publish | evict => exact ⟨inv.base, inv.tracked, fun f stored rs forced => (inv.rows f stored rs forced).frame rfl rfl⟩
  | fetch here tracked => exact inv.fetch here tracked
  | snapshot tracked => exact inv.snapshot tracked
  | save here tracked encoded => exact inv.save tracked encoded
  | complete tracked found whole done =>
    obtain ⟨known, id⟩ := Table.get_eq_some.mp found
    exact inv.complete tracked found whole done (direct _ known id)

def initial (owner : String) : Forcing := ⟨Passes.initial owner, fun _ => none, fun _ => none, []⟩

theorem inv_initial : Inv (initial owner) :=
  ⟨Passes.inv_initial, nofun, fun _ stored => (Table.not_mem_empty _ stored).elim⟩

theorem cached_by {s : Store} (stored : f ∈ s.files) (before : f.status ≠ .cached)
    (stored' : f' ∈ (op.commit s).files) (issued : op.Issued) (same : f'.id = f.id) (later : f'.status = .cached) :
    (f.status = .verifying ∧ ∃ tok blobPath, op = .completeVerify f.id tok blobPath) ∨
      f.status = .queued ∧ ∃ blobPath, op = .markCachedFromBlob f.id blobPath := by
  obtain ⟨_, -, -, changed⟩ := Operation.commit_changed stored stored' same (by rwa [later, ne_comm])
  exact changed.cached issued before later

/-- A step that makes a file cached is the end of its verification or the reuse of its blob. -/
theorem cached_step (stepped : next d e = some d') (stored : f ∈ d.base.store.files) (before : f.status ≠ .cached)
    (stored' : f' ∈ d'.base.store.files) (same : f'.id = f.id) (later : f'.status = .cached) :
    (f.status = .verifying ∧ ∃ tok blobPath, e = .pass (.call (.completeVerify f.id tok blobPath))) ∨
      f.status = .queued ∧ ∃ blobPath, e = .reuse f.id blobPath := by
  have unmoved : f' ∉ d.base.store.files := fun known => before (Table.eq_of_key known stored same ▸ later)
  have passed : ∀ {e after}, Passes.next d.base e = some after → f' ∈ after.store.files →
      (f.status = .verifying ∧ ∃ tok blobPath, e = .call (.completeVerify f.id tok blobPath)) ∨
        ∃ blobPath, e = .call (.markCachedFromBlob f.id blobPath) := by
    intro e after stepped stored'
    rcases Passes.next_store stepped with kept | ⟨op, performs, issued, done⟩
    · exact absurd (kept ▸ stored') unmoved
    rw [← Operation.commit_of_exec done] at stored'
    rcases cached_by stored before stored' issued same later with ⟨verifying, _, _, rfl⟩ | ⟨-, _, rfl⟩
    · cases performs
      exact .inl ⟨verifying, _, _, rfl⟩
    · cases performs
      exact .inr ⟨_, rfl⟩
  cases next_step stepped with
  | pass isPlain done =>
    rw [seeded_base] at stored'
    rcases passed done stored' with ⟨verifying, _, _, rfl⟩ | ⟨_, rfl⟩
    · exact .inl ⟨verifying, _, _, rfl⟩
    · cases isPlain
  | @force file now _ moved =>
    have done : (Operation.transitionFile file "" .cached .queued none now).exec d.base.store = _ := moved
    rw [← Operation.commit_of_exec done] at stored'
    rcases cached_by stored before stored' (by simp [Operation.Issued, tokenlessEdgeAllowed]) same later with
      ⟨-, _, _, equal⟩ | ⟨-, _, equal⟩ <;> cases equal
  | reuse =>
    rcases cached_by stored before stored' trivial same later with ⟨-, _, _, equal⟩ | ⟨queued, _, equal⟩ <;> cases equal
    exact .inr ⟨queued, _, rfl⟩
  | save =>
    rcases cached_by stored before stored' trivial same later with ⟨-, _, _, equal⟩ | ⟨-, _, equal⟩ <;> cases equal
  | complete tracked found whole done =>
    rcases passed done stored' with ⟨-, _, _, equal⟩ | ⟨_, equal⟩ <;> cases equal
  | publish | evict | fetch | snapshot => exact absurd stored' unmoved

/-- A file re-queued by force becomes cached again only at the end of a verification, and when every byte of it has
been transferred since. -/
theorem forced_file_transferred (ran : run next (initial owner) events = some d)
    (meets : Meets next Direct (initial owner) events) (direct : d.Direct e) (stepped : next d e = some d')
    (stored : f ∈ d.base.store.files) (forced : d.since f.id = some rs) (before : f.status ≠ .cached)
    (stored' : f' ∈ d'.base.store.files) (same : f'.id = f.id) (later : f'.status = .cached) :
    (∃ tok blobPath, e = .pass (.call (.completeVerify f.id tok blobPath))) ∧ ∀ x, 0 ≤ x → x < f.size → Covered rs x := by
  have inv : Inv d := invariant_meeting inv_next inv_initial ran meets
  rcases cached_step stepped stored before stored' same later with ⟨verifying, verified⟩ | ⟨queued, blobPath, rfl⟩
  · exact ⟨verified, (inv.rows f stored rs forced).landed (.inr verifying)⟩
  · cases next_step stepped with
    | reuse found cached =>
      obtain ⟨known, here⟩ := Table.get_eq_some.mp found
      obtain rfl := Table.eq_of_key known stored here
      exact absurd cached (direct _ stored rfl queued (by simp [forced]))

end

/-- One pass over a file of five bytes in one block, up to its verification. -/
def downloaded (tok blockTok verifyTok : LeaseToken) (block : BlockId) : List Event :=
  [.pass (.lease 1 tok 0), .pass (.load tok), .pass (.chunk tok .http 8 8),
    .pass (.call (.leaseBlocks 1 ⟨[1], []⟩ (fun _ => blockTok) 0)), .fetch tok 0 5, .complete tok block blockTok,
    .pass (.conclude tok 0), .pass (.call (.leaseVerify verifyTok 0)), .publish "oid"]

/-- A file is downloaded, becomes cached, and is then submitted again with force. -/
def resubmitted : List Event :=
  [.pass (.call (.enqueueJob wholeRepo)),
    .pass (.call (.leaseMeta "list" 0)), .pass (.call (.setCommitSHA 1 "list" "sha")),
    .pass (.call (.completeListing 1 "list" [⟨"weights", 5, "oid", "", "", false⟩]))] ++
  downloaded "file" "block" "verify" 1 ++
  [.pass (.call (.completeVerify 1 "verify" "blobs/oid")),
    .pass (.call (.enqueueJob wholeRepo)), .force 1 0]

def forcedAgain : Forcing := (run next (initial "process") resubmitted).getD (initial "process")

def reused : Forcing := (next forcedAgain (.reuse 1 "blobs/oid")).getD forcedAgain

/-- The orchestrator finds the old blob of the file, and nothing has been transferred. -/
theorem force_reuses_published_blob :
    run next (initial "process") resubmitted = some forcedAgain ∧ next forcedAgain (.reuse 1 "blobs/oid") = some reused ∧
      (∃ f ∈ forcedAgain.base.store.files, f.id = 1 ∧ f.size = 5 ∧ f.status = .queued) ∧
      (∃ f ∈ reused.base.store.files, f.id = 1 ∧ f.status = .cached) ∧ reused.since 1 = some [] :=
  ⟨rfl, rfl, by decide, by decide, rfl⟩

/-- The old blob was removed before the orchestrator looked, so the file is downloaded again. -/
def transferredAgain : List Event := resubmitted ++ .evict "oid" :: downloaded "again" "next" "check" 2

def verifiedAgain : Forcing := (run next (initial "process") transferredAgain).getD (initial "process")

def cachedAgain : Forcing := (next verifiedAgain (.pass (.call (.completeVerify 1 "check" "blobs/oid")))).getD verifiedAgain

theorem forced_file_transferred_evicted :
    ∃ f ∈ verifiedAgain.base.store.files, f.size = 5 ∧ ∃ rs, verifiedAgain.since f.id = some rs ∧
      ∀ x, 0 ≤ x → x < f.size → Covered rs x := by
  have ran : run next (initial "process") transferredAgain = some verifiedAgain := rfl
  have stepped : next verifiedAgain (.pass (.call (.completeVerify 1 "check" "blobs/oid"))) = some cachedAgain := rfl
  obtain ⟨f, stored, size, requeued, verifying, f', stored', same, cached⟩ : ∃ f ∈ verifiedAgain.base.store.files,
      f.size = 5 ∧ (verifiedAgain.since f.id).isSome ∧ f.status ≠ .cached ∧
        ∃ f' ∈ cachedAgain.base.store.files, f'.id = f.id ∧ f'.status = .cached := by decide
  obtain ⟨rs, forced⟩ := Option.isSome_iff_exists.mp requeued
  exact ⟨f, stored, size, rs, forced,
    (forced_file_transferred ran (by decide) (by decide) stepped stored forced verifying stored' same cached).2⟩

end Forcing
end Hfdl
