import Hfdl.Sched.Chunk
import Hfdl.Store.Catalogue
import Hfdl.Transfer.IntervalSerde

/-! The download passes of a file over the state database. A pass is one call of
`startDownload` with the run it launches, named by its file lease. Passes of earlier
leases go on acting with their tokens, and every other store call may come from
anywhere at any time. -/
namespace Hfdl
open Relational Transition

/-- Where a pass stands. The seed is the progress it started from. -/
inductive Stage where
  | leased
  | loaded (seed : IntervalSet)
  | running (seed : IntervalSet)
  | over
deriving DecidableEq

def Stage.seed : Stage → Option IntervalSet
  | .loaded seed | .running seed => some seed
  | .leased | .over => none

def Block.Has (b : Block) (x : Int) : Prop := b.offset ≤ x ∧ x < b.offset + b.length

/-- `completed` are the blocks completed by a token holder while the pass holds the file. -/
structure Pass where
  file : FileId
  size : Int
  stage : Stage
  completed : List Block
deriving DecidableEq

/-- The byte is in the progress the pass started from or in a block completed during the pass. -/
def Pass.Accounted (p : Pass) (x : Int) : Prop := (∃ seed ∈ p.stage.seed, seed.Covers x) ∨ ∃ b ∈ p.completed, b.Has x

structure Passes where
  store : Store
  passes : LeaseToken → Option Pass

namespace Passes

inductive Event where
  | call (op : Operation)
  | lease (file : FileId) (tok : LeaseToken) (now : Time)
  | load (tok : LeaseToken)
  | finish (tok : LeaseToken)
  | chunk (tok : LeaseToken) (src : BlockSource) (blockSize : Int) (fuel : Nat)
  | complete (block : BlockId) (tok : LeaseToken)
  | conclude (tok : LeaseToken) (now : Time)

/-- The calls that only a pass makes, with its own lease, and the completion of a block. -/
def Reserved : Operation → Bool
  | .leaseFileForDownload .. | .finishDownloaded .. | .replacePendingBlocks .. | .completeBlock .. => true
  | .transitionFile _ _ source target _ _ => source = .downloading ∧ target = .downloaded
  | _ => false

def maxBlockIdx (s : Store) (file : FileId) : Int :=
  (s.blocks.rows.filter (·.fileId = file)).foldl (fun m b => max m b.idx) (-1)

def assign (d : Passes) (tok : LeaseToken) (p : Pass) : Passes :=
  { d with passes := Function.update d.passes tok (some p) }

/-- The pass that holds the file of a block records its completion. -/
def recordCompleted (d : Passes) (b : Block) : LeaseToken → Option Pass := fun tok =>
  (d.passes tok).map fun p =>
    if ∃ f ∈ d.store.files, f.id = b.fileId ∧ f.status = .downloading ∧ f.leaseToken = some tok then
      { p with completed := p.completed ++ [b] }
    else p

/-- What `startDownload` makes of the progress it loads. -/
def loadedStage (s : Store) (file : FileId) : Stage :=
  match s.loadProgress file with
  | .error _ => .over
  | .ok blob =>
    match decodeProgress blob with
    | .error _ => .over
    | .ok seed => .loaded seed

/-- A file lease has a new token. A pass whose progress leaves nothing missing finishes at once,
any other replaces the pending blocks, and only then its block leaser can conclude the download.
Errors of the calls are rollbacks; they only end the pass. -/
def next (d : Passes) : Event → Option Passes
  | .call op => if op.Issued ∧ ¬ Reserved op then some { d with store := op.commit d.store } else none
  | .lease file tok now =>
    match d.passes tok, d.store.files.get file, d.store.leaseFileForDownload file tok now with
    | none, some f, .ok store => some ({ d with store }.assign tok ⟨file, f.size, .leased, []⟩)
    | _, _, _ => none
  | .load tok =>
    match d.passes tok with
    | some ⟨file, size, .leased, completed⟩ => some (d.assign tok ⟨file, size, loadedStage d.store file, completed⟩)
    | _ => none
  | .finish tok =>
    match d.passes tok with
    | some ⟨file, size, .loaded seed, _⟩ =>
      if seed.missing size = [] then some { d with store := (Operation.finishDownloaded file tok).commit d.store }
      else none
    | _ => none
  | .chunk tok src blockSize fuel =>
    match d.passes tok with
    | some ⟨file, size, .loaded seed, completed⟩ =>
      if seed.missing size ≠ [] ∧ (0 < blockSize ∧ blockSize ≤ maxInt64) ∧ size ≤ maxInt64 then
        match chunkBlocks fuel blockSize (src.boundaries size (seed.missing size) blockSize)
          (wrapInt64 (maxBlockIdx d.store file + 1)) with
        | none => none
        | some blocks =>
          match d.store.replacePendingBlocks file tok blocks with
          | .error _ => some (d.assign tok ⟨file, size, .over, completed⟩)
          | .ok store => some ({ d with store }.assign tok ⟨file, size, .running seed, completed⟩)
      else none
    | _ => none
  | .complete block tok =>
    match d.store.blocks.get block, d.store.completeBlock block tok with
    | some b, .ok (_, store) => some ⟨store, d.recordCompleted b⟩
    | _, _ => none
  | .conclude tok now =>
    match d.passes tok with
    | some ⟨file, _, .running _, _⟩ =>
      some { d with store := (Operation.transitionFile file tok .downloading .downloaded none now).commit d.store }
    | _ => none

inductive Step (d : Passes) : Event → Passes → Prop where
  | call (issued : op.Issued) (free : ¬ Reserved op) : Step d (.call op) { d with store := op.commit d.store }
  | lease (unused : d.passes tok = none) (found : d.store.files.get file = some f)
      (leased : d.store.leaseFileForDownload file tok now = .ok after) :
      Step d (.lease file tok now) ({ d with store := after }.assign tok ⟨file, f.size, .leased, []⟩)
  | load (here : d.passes tok = some ⟨file, size, .leased, completed⟩) :
      Step d (.load tok) (d.assign tok ⟨file, size, loadedStage d.store file, completed⟩)
  | finish (here : d.passes tok = some ⟨file, size, .loaded seed, completed⟩) (all : seed.missing size = []) :
      Step d (.finish tok) { d with store := (Operation.finishDownloaded file tok).commit d.store }
  | chunk (here : d.passes tok = some ⟨file, size, .loaded seed, completed⟩)
      (machine : (0 < blockSize ∧ blockSize ≤ maxInt64) ∧ size ≤ maxInt64)
      (cut : chunkBlocks fuel blockSize (src.boundaries size (seed.missing size) blockSize)
        (wrapInt64 (maxBlockIdx d.store file + 1)) =
        some blocks)
      (replaced : d.store.replacePendingBlocks file tok blocks = .ok after) :
      Step d (.chunk tok src blockSize fuel) ({ d with store := after }.assign tok ⟨file, size, .running seed, completed⟩)
  | refused (here : d.passes tok = some ⟨file, size, .loaded seed, completed⟩) :
      Step d (.chunk tok src blockSize fuel) (d.assign tok ⟨file, size, .over, completed⟩)
  | complete (found : d.store.blocks.get block = some b) (done : d.store.completeBlock block tok = .ok (last, after)) :
      Step d (.complete block tok) ⟨after, d.recordCompleted b⟩
  | conclude (here : d.passes tok = some ⟨file, size, .running seed, completed⟩) :
      Step d (.conclude tok now)
        { d with store := (Operation.transitionFile file tok .downloading .downloaded none now).commit d.store }

theorem next_step {d d' : Passes} (stepped : next d e = some d') : Step d e d' := by
  unfold next at stepped
  repeat' split at stepped
  all_goals cases stepped
  all_goals grind [Step]

/-- The store call that an event makes when it makes one. -/
inductive Performs (d : Passes) : Event → Operation → Prop where
  | call (free : ¬ Reserved op) : Performs d (.call op) op
  | lease : Performs d (.lease file tok now) (.leaseFileForDownload file tok now)
  | finish : Performs d (.finish tok) (.finishDownloaded file tok)
  | chunk : Performs d (.chunk tok src blockSize fuel) (.replacePendingBlocks file tok blocks)
  | complete : Performs d (.complete block tok) (.completeBlock block tok)
  | conclude : Performs d (.conclude tok now) (.transitionFile file tok .downloading .downloaded none now)

/-- The bytes a running pass has not accounted for are in unfinished blocks of its file. -/
def Remaining (s : Store) (p : Pass) : Prop :=
  ∀ seed, p.stage = .running seed → ∀ x, 0 ≤ x → x < p.size →
    p.Accounted x ∨ ∃ b ∈ s.blocks, b.fileId = p.file ∧ b.status ≠ .done ∧ b.Has x

/-- The lease of a downloading file names the pass that works on it. -/
def Led (d : Passes) (f : File) : Prop :=
  ∃ tok p, f.leaseToken = some tok ∧ d.passes tok = some p ∧ p.file = f.id ∧ p.size = f.size ∧ Remaining d.store p

structure Inv (d : Passes) : Prop where
  catalogued : d.store.Catalogued
  led : ∀ f ∈ d.store.files, f.status = .downloading → d.Led f

section
variable {d d' : Passes}

theorem Led.mono {f f' : File} (led : d.Led f) (id : f'.id = f.id) (lease : f'.leaseToken = f.leaseToken)
    (size : f'.size = f.size)
    (pass : ∀ tok p, f.leaseToken = some tok → d.passes tok = some p → p.file = f.id → Remaining d.store p →
      ∃ p', d'.passes tok = some p' ∧ p'.file = p.file ∧ p'.size = p.size ∧ Remaining d'.store p') : d'.Led f' := by
  obtain ⟨tok, p, held, here, file, sizes, remaining⟩ := led
  obtain ⟨p', here', file', sizes', remaining'⟩ := pass tok p held here file remaining
  exact ⟨tok, p', lease.trans held, here', (file'.trans file).trans id.symm, (sizes'.trans sizes).trans size.symm, remaining'⟩

theorem Remaining.mono {s s' : Store} (remaining : Remaining s p)
    (kept : ∀ b ∈ s.blocks, b.fileId = p.file → b.status ≠ .done → ∃ b' ∈ s'.blocks, b'.status ≠ .done ∧
      b'.fileId = b.fileId ∧ b'.offset = b.offset ∧ b'.length = b.length) : Remaining s' p := by
  intro seed running x left right
  rcases remaining seed running x left right with accounted | ⟨b, stored, mine, waits, has⟩
  · exact .inl accounted
  · obtain ⟨b', stored', waits', file, offset, length⟩ := kept b stored mine waits
    refine .inr ⟨b', stored', file.trans mine, waits', ?_⟩
    simpa only [Block.Has, offset, length] using has

theorem Inv.token_unique (inv : Inv d) (stored : f ∈ d.store.files) (stored' : f' ∈ d.store.files)
    (downloading : f.status = .downloading) (downloading' : f'.status = .downloading) (token : f.leaseToken = some tok)
    (token' : f'.leaseToken = some tok) : f = f' := by
  obtain ⟨_, p, lease, here, file, -⟩ := inv.led f stored downloading
  obtain ⟨_, p', lease', here', file', -⟩ := inv.led f' stored' downloading'
  obtain rfl := Option.some.inj (token.symm.trans lease)
  obtain rfl := Option.some.inj (token'.symm.trans lease')
  obtain rfl := Option.some.inj (here.symm.trans here')
  exact Table.eq_of_key stored stored' (file.symm.trans file')

theorem Inv.origin {s' : Store} (inv : Inv d) (issued : op.Issued) (done : op.exec d.store = .ok s')
    (other : ∀ file tok now, op ≠ .leaseFileForDownload file tok now) (stored' : f' ∈ s'.files)
    (downloading : f'.status = .downloading) :
    ∃ f ∈ d.store.files, f.Change op f' ∧ f.status = .downloading ∧ f'.leaseToken = f.leaseToken ∧ f'.size = f.size := by
  rcases (Operation.exec_evolution done).files.origin f' stored' with ⟨f, stored, changed⟩ | ⟨_, _, _, -, entry, -, id, rfl⟩
  · rcases changed.downloading issued downloading with ⟨before, lease⟩ | ⟨file, tok, now, same, -⟩
    · exact ⟨f, stored, changed, before, lease, congrArg FileEntry.size (inv.catalogued.entry done stored changed)⟩
    · exact absurd same (other file tok now)
  · cases downloading

/-- A call of a pass or of anybody else that completes no block and drops none of a file that goes on downloading. -/
theorem Inv.exec {s' : Store} (inv : Inv d) (issued : op.Issued) (done : op.exec d.store = .ok s')
    (other : ∀ file tok now, op ≠ .leaseFileForDownload file tok now) (incomplete : ∀ block tok, op ≠ .completeBlock block tok)
    (keeps : ∀ f ∈ s'.files, f.status = .downloading → ∀ b : Block, b.fileId = f.id → ¬ b.Removed op) :
    Inv { d with store := s' } := by
  refine ⟨Operation.exec_catalogued inv.catalogued done, fun f' stored' downloading => ?_⟩
  obtain ⟨f, stored, changed, before, lease, size⟩ := inv.origin issued done other stored' downloading
  refine (inv.led f stored before).mono changed.id lease size fun tok p held here file remaining => ⟨p, here, rfl, rfl, ?_⟩
  refine remaining.mono fun b known mine waits => ?_
  rcases (Operation.exec_evolution done).blocks.kept b known with ⟨b', known', moved⟩ | gone
  · rcases moved.unfinished waits with waits' | ⟨block, tok, same, -⟩
    · exact ⟨b', known', waits', moved.place⟩
    · exact absurd same (incomplete block tok)
  · exact absurd gone (keeps f' stored' downloading b (mine.trans (file.trans changed.id.symm)))

theorem Inv.commit (inv : Inv d) (issued : ∀ s', op.exec d.store = .ok s' → op.Issued)
    (other : ∀ file tok now, op ≠ .leaseFileForDownload file tok now) (incomplete : ∀ block tok, op ≠ .completeBlock block tok)
    (keeps : ∀ s', op.exec d.store = .ok s' → ∀ f ∈ s'.files, f.status = .downloading → ∀ b : Block, b.fileId = f.id →
      ¬ b.Removed op) : Inv { d with store := op.commit d.store } :=
  Operation.commit_preserves (P := fun s' => Inv { d with store := s' }) inv fun s' done =>
    inv.exec (issued s' done) done other incomplete (keeps s' done)

theorem Inv.call (inv : Inv d) (issued : op.Issued) (free : ¬ Reserved op) : Inv { d with store := op.commit d.store } := by
  refine inv.commit (fun _ _ => issued) ?_ ?_ ?_
  · rintro file tok now rfl
    exact free rfl
  · rintro block tok rfl
    exact free rfl
  · rintro s' - f - - b - (⟨tok, specs, rfl, -⟩ | ⟨tok, rfl, -⟩)
    · exact free rfl
    · exact free rfl

theorem Inv.finish (inv : Inv d) : Inv { d with store := (Operation.finishDownloaded file tok).commit d.store } := by
  refine inv.commit (fun _ _ => trivial) nofun nofun fun s' done f stored downloading b mine removed => ?_
  obtain ⟨⟨f₀, known, held⟩, rfl⟩ := Store.finishDownloaded_ok done
  rcases removed with ⟨_, _, same, _⟩ | ⟨_, same, _⟩ <;> cases same
  obtain ⟨f₁, known', rfl⟩ := Table.mem_update.mp stored
  split at downloading
  · cases downloading
  · rename_i unheld
    rw [if_neg unheld] at mine
    rw [Table.eq_of_key known' known (mine.symm.trans held.1.symm)] at unheld
    exact unheld held

theorem Inv.conclude (inv : Inv d) :
    Inv { d with store := (Operation.transitionFile file tok .downloading .downloaded none now).commit d.store } := by
  refine inv.commit (fun _ done => Operation.issued_of_exec (by decide) done) nofun nofun fun s' _ f _ _ b _ removed => ?_
  rcases removed with ⟨_, _, same, _⟩ | ⟨_, same, _⟩ <;> cases same

theorem Inv.lease (inv : Inv d) (unused : d.passes tok = none) (found : d.store.files.get file = some f)
    (leased : d.store.leaseFileForDownload file tok now = .ok after) :
    Inv ({ d with store := after }.assign tok ⟨file, f.size, .leased, []⟩) := by
  have committed : (Operation.leaseFileForDownload file tok now).exec d.store = .ok after := leased
  have catalogued := Operation.exec_catalogued inv.catalogued committed
  obtain ⟨-, rfl⟩ := Store.moveFile_ok.mp leased
  obtain ⟨known, here⟩ := Table.get_eq_some.mp found
  refine ⟨catalogued, fun f' stored' downloading => ?_⟩
  obtain ⟨f₀, known', rfl⟩ := Table.mem_update.mp stored'
  split at downloading
  · rename_i queued
    obtain rfl := Table.eq_of_key known' known (queued.1.trans here.symm)
    rw [if_pos queued]
    exact ⟨tok, _, rfl, Function.update_self .., here.symm, rfl, fun _ never => by cases never⟩
  · rename_i unmoved
    rw [if_neg unmoved]
    refine (inv.led f₀ known' downloading).mono rfl rfl rfl fun tok' p _ here' _ remaining => ⟨p, ?_, rfl, rfl, remaining⟩
    have other : tok' ≠ tok := by
      rintro rfl
      simp [unused] at here'
    exact (Function.update_of_ne other ..).trans here'

theorem Inv.enter (inv : Inv d) (here : d.passes tok = some ⟨file, size, stage, completed⟩)
    (idle : ∀ seed, stage' ≠ .running seed) : Inv (d.assign tok ⟨file, size, stage', completed⟩) := by
  refine ⟨inv.catalogued, fun f stored downloading => ?_⟩
  refine (inv.led f stored downloading).mono rfl rfl rfl fun tok' p _ here' _ remaining => ?_
  by_cases same : tok' = tok
  · subst same
    rw [here] at here'
    cases here'
    exact ⟨_, Function.update_self .., rfl, rfl, fun seed running => absurd running (idle seed)⟩
  · exact ⟨p, (Function.update_of_ne same ..).trans here', rfl, rfl, remaining⟩

theorem loadedStage_idle : loadedStage s file ≠ .running seed := by
  simp only [loadedStage]
  split
  · exact nofun
  · split <;> exact nofun

theorem loadedStage_seed (loaded : seed ∈ (loadedStage s file).seed) :
    ∃ f ∈ s.files, f.id = file ∧ decodeProgress f.progress = .ok seed := by
  simp only [loadedStage, Store.loadProgress] at loaded
  split at loaded
  · cases loaded
  · rename_i known
    split at known
    · cases known
    · rename_i f found
      cases known
      split at loaded
      · cases loaded
      · cases loaded
        obtain ⟨stored, here⟩ := Table.get_eq_some.mp found
        exact ⟨f, stored, here, ‹_›⟩

theorem remaining_of_chunk {s s' : Store} {src : BlockSource} (machine : (0 < blockSize ∧ blockSize ≤ maxInt64) ∧ size ≤ maxInt64)
    (cut : chunkBlocks fuel blockSize (src.boundaries size (seed.missing size) blockSize) idx = some blocks)
    (replaced : s.replacePendingBlocks file tok blocks = .ok s') :
    Remaining s' ⟨file, size, .running seed, completed⟩ := by
  obtain ⟨-, rows, recut, rfl⟩ := Store.replacePendingBlocks_ok replaced
  intro seed' running x left right
  rcases chunkBlocks_missing machine.1.1 machine.1.2 machine.2 cut left right with covered | ⟨spec, member, has⟩
  · exact .inl (.inl ⟨seed, rfl, covered⟩)
  · obtain ⟨id, stored⟩ := recut.cut spec member
    exact .inr ⟨_, stored, rfl, nofun, has⟩

theorem Inv.chunk {src : BlockSource} (inv : Inv d) (here : d.passes tok = some ⟨file, size, .loaded seed, completed⟩)
    (machine : (0 < blockSize ∧ blockSize ≤ maxInt64) ∧ size ≤ maxInt64)
    (cut : chunkBlocks fuel blockSize (src.boundaries size (seed.missing size) blockSize) idx = some blocks)
    (replaced : d.store.replacePendingBlocks file tok blocks = .ok after) :
    Inv ({ d with store := after }.assign tok ⟨file, size, .running seed, completed⟩) := by
  have mine : Remaining after ⟨file, size, .running seed, completed⟩ := remaining_of_chunk machine cut replaced
  have committed : (Operation.replacePendingBlocks file tok blocks).exec d.store = .ok after := replaced
  have catalogued := Operation.exec_catalogued inv.catalogued committed
  have evolves := Operation.evolveBlocks_replace replaced
  obtain ⟨⟨f₀, known, held⟩, rows, -, rfl⟩ := Store.replacePendingBlocks_ok replaced
  refine ⟨catalogued, fun f stored downloading => ?_⟩
  refine (inv.led f stored downloading).mono rfl rfl rfl fun tok' p lease here' owner remaining => ?_
  by_cases same : tok' = tok
  · subst same
    rw [here] at here'
    cases here'
    exact ⟨_, Function.update_self .., rfl, rfl, mine⟩
  · refine ⟨p, (Function.update_of_ne same ..).trans here', rfl, rfl, remaining.mono fun b stored' own waits => ?_⟩
    rcases evolves.kept b stored' with ⟨b', known', moved⟩ | ⟨_, _, equal, _⟩ | ⟨_, never, _⟩
    · cases moved
      exact ⟨b, known', waits, rfl, rfl, rfl⟩
    · -- the file would be held under two tokens
      cases equal
      have row := Table.eq_of_key stored known (owner.symm.trans (own.symm.trans held.1.symm))
      rw [row, held.2.2] at lease
      exact absurd (Option.some.inj lease).symm same
    · cases never

theorem exec_completeBlock {s : Store} (done : s.completeBlock block tok = .ok (last, s')) :
    (Operation.completeBlock block tok).exec s = .ok s' := Operation.map_snd_ok done

theorem Inv.complete (inv : Inv d) (found : d.store.blocks.get block = some b)
    (done : d.store.completeBlock block tok = .ok (last, after)) : Inv ⟨after, d.recordCompleted b⟩ := by
  have committed := exec_completeBlock done
  obtain ⟨known, here⟩ := Table.get_eq_some.mp found
  refine ⟨Operation.exec_catalogued inv.catalogued committed, fun f' stored' downloading => ?_⟩
  have issued : (Operation.completeBlock block tok).Issued := trivial
  obtain ⟨f, stored, changed, before, lease, size⟩ := inv.origin issued committed nofun stored' downloading
  refine (inv.led f stored before).mono changed.id lease size fun tok' p held pass owner remaining => ?_
  have recorded : d.recordCompleted b tok' = some (if ∃ f ∈ d.store.files, f.id = b.fileId ∧ f.status = .downloading ∧
      f.leaseToken = some tok' then { p with completed := p.completed ++ [b] } else p) := by
    rw [recordCompleted, pass]
    rfl
  refine ⟨_, recorded, by split <;> rfl, by split <;> rfl, ?_⟩
  intro seed running x left right
  have running' : p.stage = .running seed := by
    split at running <;> exact running
  rcases remaining seed running' x left (by split at right <;> exact right) with accounted | ⟨b₀, stored₀, own, waits, has⟩
  · refine .inl ?_
    split
    · exact accounted.imp_right fun ⟨b₁, member, has⟩ => ⟨b₁, List.mem_append_left _ member, has⟩
    · exact accounted
  · rcases (Operation.exec_evolution committed).blocks.kept b₀ stored₀ with ⟨b₁, stored₁, moved⟩ | ⟨_, _, never, _⟩ |
      ⟨_, never, _⟩
    · rcases moved.unfinished waits with waits' | ⟨_, _, same, finished⟩
      · obtain ⟨file, offset, length⟩ := moved.place
        refine .inr ⟨b₁, stored₁, ?_, waits', by simpa only [Block.Has, offset, length] using has⟩
        rw [file, own]
        split <;> rfl
      · -- this is the block that was completed, and the pass holds its file
        cases same
        obtain rfl := Table.eq_of_key stored₀ known (finished.1.trans here.symm)
        rw [if_pos ⟨f, stored, owner.symm.trans own.symm, before, held⟩]
        exact .inl (.inr ⟨b₀, List.mem_append_right _ List.mem_cons_self, has⟩)
    · cases never
    · cases never

theorem inv_next (inv : Inv d) (stepped : next d e = some d') : Inv d' := by
  cases next_step stepped with
  | call issued free => exact inv.call issued free
  | lease unused found leased => exact inv.lease unused found leased
  | load here => exact inv.enter here fun _ => loadedStage_idle
  | finish => exact inv.finish
  | chunk here machine cut replaced => exact inv.chunk here machine cut replaced
  | refused here => exact inv.enter here nofun
  | complete found done => exact inv.complete found done
  | conclude => exact inv.conclude

theorem next_store (stepped : next d e = some d') :
    d'.store = d.store ∨ ∃ op, Performs d e op ∧ op.Issued ∧ op.exec d.store = .ok d'.store := by
  cases next_step stepped with
  | @call op issued free => exact (Operation.commit_cases d.store op).imp_right fun done => ⟨op, .call free, issued, done⟩
  | lease unused found leased => exact .inr ⟨_, .lease, trivial, leased⟩
  | load | refused => exact .inl rfl
  | finish => exact (Operation.commit_cases d.store _).imp_right fun done => ⟨_, .finish, trivial, done⟩
  | chunk here machine cut replaced => exact .inr ⟨_, .chunk, trivial, replaced⟩
  | complete found done => exact .inr ⟨_, .complete, trivial, exec_completeBlock done⟩
  | conclude =>
    exact (Operation.commit_cases d.store _).imp_right fun done => ⟨_, .conclude, Operation.issued_of_exec (by decide) done, done⟩

def initial (owner : String) : Passes := ⟨.empty owner, fun _ => none⟩

theorem inv_initial : Inv (initial owner) :=
  ⟨.empty, fun _ stored => (Table.not_mem_empty _ stored).elim⟩

/-- What a call that finishes a download found in the store: the holder of the file made it,
and unless it is the shortcut of a complete progress, every block of the file is done. -/
theorem finishing_call {s : Store} (stored : f ∈ s.files) (downloading : f.status = .downloading)
    (stored' : f' ∈ (Operation.commit s op).files) (same : f'.id = f.id) (downloaded : f'.status = .downloaded) :
    (∃ tok cause now, op = .transitionFile f.id tok .downloading .downloaded cause now ∧ f.leaseToken = some tok ∧
        ∀ b ∈ s.blocks, b.fileId = f.id → b.status = .done) ∨
      ∃ tok, op = .finishDownloaded f.id tok ∧ f.leaseToken = some tok := by
  have moved : f'.status ≠ f.status := by
    rw [downloading, downloaded]
    decide
  obtain ⟨s', done, -, changed⟩ := Operation.commit_changed stored stored' same moved
  rcases changed.downloaded downloading downloaded with ⟨file, tok, cause, now, rfl, rfl, -, lease⟩ |
    ⟨file, tok, rfl, rfl, -, lease⟩
  · obtain ⟨edge, -, finished, -⟩ := Store.transitionFile_ok done
    by_cases tokenless : tok = ""
    · exact absurd (edge tokenless) (by decide)
    · rw [guardToken, if_neg tokenless] at lease
      exact .inl ⟨tok, cause, now, rfl, lease, finished rfl rfl⟩
  · exact .inr ⟨tok, rfl, lease⟩

/-- The step that finishes a download finds every byte accounted for. -/
theorem Inv.finished (inv : Inv d) (stepped : next d e = some d') (stored : f ∈ d.store.files)
    (downloading : f.status = .downloading) (stored' : f' ∈ d'.store.files) (same : f'.id = f.id)
    (downloaded : f'.status = .downloaded) :
    ∃ tok p, f.leaseToken = some tok ∧ d.passes tok = some p ∧ p.file = f.id ∧
      ∀ x, 0 ≤ x → x < f.size → p.Accounted x := by
  obtain ⟨tok, p, lease, here, file, size, remaining⟩ := inv.led f stored downloading
  refine ⟨tok, p, lease, here, file, fun x left right => ?_⟩
  have unmoved : f' ∉ d.store.files := fun known => by
    rw [Table.eq_of_key known stored same, downloading] at downloaded
    cases downloaded
  have finishing : ∀ {op}, f' ∈ (Operation.commit d.store op).files → _ := fun stored' =>
    finishing_call stored downloading stored' same downloaded
  have never : ∀ {op s'}, Operation.exec d.store op = .ok s' → (∀ file tok, op ≠ .finishDownloaded file tok) →
      (∀ file tok cause now, op ≠ .transitionFile file tok .downloading .downloaded cause now) → f' ∉ s'.files := by
    intro op s' done finish transition known
    rw [← Operation.commit_of_exec done] at known
    rcases finishing known with ⟨_, _, _, equal, -⟩ | ⟨_, equal, -⟩
    · exact transition _ _ _ _ equal
    · exact finish _ _ equal
  cases next_step stepped with
  | call issued free =>
    rcases finishing stored' with ⟨_, _, _, rfl, -⟩ | ⟨_, rfl, -⟩ <;> exact absurd rfl free
  | @lease tok file _ now _ unused found leased =>
    exact absurd stored' (never (show (Operation.leaseFileForDownload file tok now).exec d.store = _ from leased) nofun nofun)
  | load => exact absurd stored' unmoved
  | finish here' all =>
    rcases finishing stored' with ⟨_, _, _, equal, -⟩ | ⟨_, equal, held⟩ <;> obtain ⟨⟩ := equal
    -- the pass that finishes is the one that holds the file, and nothing was missing from its progress
    obtain rfl := Option.some.inj (lease.symm.trans held)
    obtain rfl := Option.some.inj (here.symm.trans here')
    rcases IntervalSet.covers_or_missing _ left (size ▸ right) with covered | ⟨gap, member, -⟩
    · exact .inl ⟨_, rfl, covered⟩
    · simp [all] at member
  | @chunk tok file _ _ _ _ _ blocks _ _ here machine cut replaced =>
    exact absurd stored'
      (never (show (Operation.replacePendingBlocks file tok blocks).exec d.store = _ from replaced) nofun nofun)
  | refused => exact absurd stored' unmoved
  | complete found done => exact absurd stored' (never (exec_completeBlock done) nofun nofun)
  | conclude here' =>
    rcases finishing stored' with ⟨_, _, _, equal, held, finished⟩ | ⟨_, equal, -⟩ <;> obtain ⟨⟩ := equal
    obtain rfl := Option.some.inj (lease.symm.trans held)
    obtain rfl := Option.some.inj (here.symm.trans here')
    rcases remaining _ rfl x left (size ▸ right) with accounted | ⟨b, known, own, waits, -⟩
    · exact accounted
    · exact absurd (finished b known own) waits

/-- Whenever a download is finished, the pass that holds the file accounts for every byte of it. -/
theorem finished_download_complete (ran : run next (initial owner) events = some d) (stepped : next d e = some d')
    (stored : f ∈ d.store.files) (downloading : f.status = .downloading) (stored' : f' ∈ d'.store.files)
    (same : f'.id = f.id) (downloaded : f'.status = .downloaded) :
    ∃ tok p, f.leaseToken = some tok ∧ d.passes tok = some p ∧ p.file = f.id ∧
      ∀ x, 0 ≤ x → x < f.size → p.Accounted x := by
  have inv : Inv d := invariant (fun inv stepped => inv_next inv stepped) inv_initial ran
  exact inv.finished stepped stored downloading stored' same downloaded

end

/-- The first pass completes one of its two blocks and checkpoints, the second takes up the rest. -/
def resumedDownload : List Event :=
  [.call (.enqueueJob wholeRepo), .call (.leaseMeta "list" 0),
    .call (.completeListing 1 "list" [⟨"weights", 5, "", "", "", false⟩]),
    .lease 1 "first" 0, .load "first", .chunk "first" .http 4 8,
    .call (.leaseBlocks 1 ⟨[1], []⟩ (fun _ => "head") 0), .complete 1 "head",
    .call (.saveProgress 1 "first" (some [72, 70, 68, 80, 1, 5, 1, 0, 4])),
    .call (.transitionFile 1 "first" .downloading .queued none 0),
    .lease 1 "second" 0, .load "second", .chunk "second" .http 4 8,
    .call (.leaseBlocks 1 ⟨[1], []⟩ (fun _ => "tail") 0), .complete 2 "tail"]

def resumed : Passes := (run next (initial "process") resumedDownload).getD (initial "process")

def concluded : Passes := (next resumed (.conclude "second" 0)).getD resumed

theorem finished_download_complete_resumed :
    ∃ f ∈ resumed.store.files, f.size = 5 ∧ ∃ tok p, f.leaseToken = some tok ∧ resumed.passes tok = some p ∧ p.file = f.id ∧
      ∀ x, 0 ≤ x → x < f.size → p.Accounted x := by
  have ran : run next (initial "process") resumedDownload = some resumed := rfl
  have stepped : next resumed (.conclude "second" 0) = some concluded := rfl
  obtain ⟨f, stored, size, downloading, f', stored', same, downloaded⟩ : ∃ f ∈ resumed.store.files, f.size = 5 ∧
      f.status = .downloading ∧ ∃ f' ∈ concluded.store.files, f'.id = f.id ∧ f'.status = .downloaded := by decide
  exact ⟨f, stored, size, finished_download_complete ran stepped stored downloading stored' same downloaded⟩

end Passes
end Hfdl
