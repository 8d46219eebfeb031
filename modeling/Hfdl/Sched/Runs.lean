import Hfdl.Store.Attended
import Mathlib.Logic.Function.Basic

/-! The block leases of a download run. One process works on a file at most once at
a time: `startDownload` prepares it, then the workers of its run lease blocks one by
one, and every exit of a block attempt has to give the lease back before the file
moves on. -/
namespace Hfdl
open Relational Transition

def maxBlockRetries : Nat := 8

/-- How a run fails, as `runFile` tells the causes apart. -/
inductive RunError where
  | resetFile
  | terminalHTTP
  | giveUp
  | fenced
  | cancelled
  | other
deriving DecidableEq

/-- Where `runFile` sends a file that is still downloading when its run has returned. -/
def RunError.target : Option RunError → Option FileStatus
  | some .giveUp | some .fenced => none
  | some .terminalHTTP => some .error
  | some .resetFile | some .cancelled | some .other | none => some .queued

/-- How opening the body of a block fails; a 416 may find the file complete already. -/
inductive OpenError where
  | runEnded
  | allRangeless
  | rangeNotSatisfiable (coversAll : Bool)
  | terminalHTTP
  | attempt
deriving DecidableEq

/-- What becomes of the block: a dropped one fails the run and stays leased. -/
inductive Exit where
  | completed
  | requeued
  | dropped (err : RunError)
deriving DecidableEq

def handleOpenError : OpenError → Exit
  | .runEnded | .allRangeless | .attempt => .requeued
  | .rangeNotSatisfiable coversAll => if coversAll then .completed else .dropped .resetFile
  | .terminalHTTP => .dropped .terminalHTTP

/-- The outcome of one block attempt. -/
inductive Outcome where
  | streamed
  | drained
  | streamFailed
  | openFailed (err : OpenError)
deriving DecidableEq

def executeBlock : Outcome → Exit
  | .streamed => .completed
  | .drained | .streamFailed => .requeued
  | .openFailed err => handleOpenError err

/-- `tokens` is the map of the block leaser, `inflight` are the blocks its workers execute. The
workers of the exhausted blocks still owe the move of the file to the error status. -/
structure Run where
  tokens : BlockId → Option LeaseToken
  inflight : List BlockId
  exhausted : List BlockId
  err : Option RunError

namespace Run

def fresh : Run := ⟨fun _ => none, [], [], none⟩

/-- Only the first failure of a run counts. -/
def fail (r : Run) (err : RunError) : Run := { r with err := r.err <|> some err }

def push (r : Run) (block : BlockId) (tok : LeaseToken) : Run :=
  { r with tokens := Function.update r.tokens block (some tok), inflight := block :: r.inflight }

/-- The leaser forgets the token of a block that its worker gives back. -/
def pop (r : Run) (block : BlockId) : Run :=
  { r with tokens := Function.update r.tokens block none, inflight := r.inflight.erase block }

/-- A token the map does not have is the empty one. -/
def token (r : Run) (block : BlockId) : LeaseToken := (r.tokens block).getD ""

/-- The end of a block attempt. A failed store call did not commit; the leaser has popped the
token before it, and a requeue that fails is only logged. -/
def settle (r : Run) (s : Store) (block : BlockId) (availableAt : Time) (cause : Option String) (failed : Bool) :
    Exit → Store × Run
  | .dropped err => (s, { r with inflight := r.inflight.erase block }.fail err)
  | .completed =>
    if failed then (s, (r.pop block).fail .other)
    else match s.completeBlock block (r.token block) with
      | .error _ => (s, (r.pop block).fail .fenced)
      | .ok (_, s') => (s', r.pop block)
  | .requeued =>
    if failed then (s, r.pop block)
    else match s.requeueBlock block (r.token block) availableAt cause with
      | .error _ => (s, r.pop block)
      | .ok (retries, s') =>
        (s', if retries < maxBlockRetries then r.pop block else { r.pop block with exhausted := block :: r.exhausted })

end Run

inductive Phase where
  | starting
  | running (r : Run)

structure Attempt where
  tok : LeaseToken
  phase : Phase

structure Runs where
  store : Store
  active : FileId → Option Attempt

namespace Runs

inductive Event where
  | call (op : Operation)
  | start (file : FileId) (tok : LeaseToken) (now : Time)
  | withdraw (file : FileId) (target : FileStatus) (cause : Option String) (now : Time)
  | leave (file : FileId)
  | launch (file : FileId)
  | lease (file : FileId) (block : BlockId) (tok : LeaseToken) (now : Time)
  | execute (file : FileId) (block : BlockId) (outcome : Outcome) (availableAt : Time) (cause : Option String) (failed : Bool)
  | giveUp (file : FileId) (block : BlockId) (cause : Option String) (now : Time) (failed : Bool)
  | fail (file : FileId) (err : RunError)
  | conclude (file : FileId) (cause : Option String) (now : Time) (failed : Bool)
  | crash

/-- The calls that only the attempt on a file makes. -/
def Reserved : Operation → Bool
  | .leaseFileForDownload .. | .leaseBlocks .. | .claimBlock .. => true
  | .transitionFile _ _ source target _ _ => source = .downloading ∧ target ≠ .downloaded
  | _ => false

def assign (d : Runs) (file : FileId) (a : Option Attempt) : Runs := { d with active := Function.update d.active file a }

/-- A transition of the file under the lease of the attempt, which goes on when it is fenced or fails. -/
def move (s : Store) (file : FileId) (tok : LeaseToken) (target : FileStatus) (cause : Option String) (now : Time)
    (failed : Bool) :
    Store :=
  if failed then s else (Operation.transitionFile file tok .downloading target cause now).commit s

/-- The claim of one block is a statement of its own, so that a run leases between any two other steps.
A run is concluded when all its workers have returned. -/
def next (d : Runs) : Event → Option Runs
  | .call op => if op.Issued ∧ ¬ Reserved op then some { d with store := op.commit d.store } else none
  | .start file tok now =>
    match d.active file, d.store.leaseFileForDownload file tok now with
    | none, .ok store => some ({ d with store }.assign file (some ⟨tok, .starting⟩))
    | _, _ => none
  | .withdraw file target cause now =>
    match d.active file with
    | some ⟨tok, .starting⟩ =>
      if target ∈ [.queued, .error, .salvaging] then
        match d.store.transitionFile file tok .downloading target cause now with
        | .ok store => some ({ d with store }.assign file none)
        -- a file that cannot be diverted to a reference is downloaded after all
        | .error _ => some (if target = .salvaging then d else d.assign file none)
      else none
    | _ => none
  | .leave file =>
    match d.active file with
    | some ⟨_, .starting⟩ => some (d.assign file none)
    | _ => none
  | .launch file =>
    match d.active file with
    | some ⟨tok, .starting⟩ => some (d.assign file (some ⟨tok, .running .fresh⟩))
    | _ => none
  | .lease file block new now =>
    match d.active file, d.store.blocks.get block, d.store.claimBlock block new now with
    | some ⟨tok, .running r⟩, some b, some (_, store) =>
      if b.fileId = file then some ({ d with store }.assign file (some ⟨tok, .running (r.push block new)⟩)) else none
    | _, _, _ => none
  | .execute file block outcome availableAt cause failed =>
    match d.active file with
    | some ⟨tok, .running r⟩ =>
      if block ∈ r.inflight then
        let (store, r) := r.settle d.store block availableAt cause failed (executeBlock outcome)
        some ({ d with store }.assign file (some ⟨tok, .running r⟩))
      else none
    | _ => none
  | .giveUp file block cause now failed =>
    match d.active file with
    | some ⟨tok, .running r⟩ =>
      if block ∈ r.exhausted then
        some ({ d with store := move d.store file tok .error cause now failed }.assign file
          (some ⟨tok, .running { r with exhausted := r.exhausted.erase block }⟩))
      else none
    | _ => none
  | .fail file err =>
    match d.active file with
    | some ⟨tok, .running r⟩ => some (d.assign file (some ⟨tok, .running (r.fail err)⟩))
    | _ => none
  | .conclude file cause now failed =>
    match d.active file with
    | some ⟨tok, .running r⟩ =>
      if r.inflight = [] ∧ r.exhausted = [] then
        some ({ d with
          store := (RunError.target r.err).elim d.store fun target =>
            move d.store file tok target cause now failed }.assign file none)
      else none
    | _ => none
  | .crash => some { d with active := fun _ => none }

inductive Step (d : Runs) : Event → Runs → Prop where
  | call (free : ¬ Reserved op) : Step d (.call op) { d with store := op.commit d.store }
  | start (idle : d.active file = none) (leased : d.store.leaseFileForDownload file tok now = .ok after) :
      Step d (.start file tok now) ({ d with store := after }.assign file (some ⟨tok, .starting⟩))
  | withdraw (here : d.active file = some ⟨tok, .starting⟩)
      (moved : d.store.transitionFile file tok .downloading target cause now = .ok after) :
      Step d (.withdraw file target cause now) ({ d with store := after }.assign file none)
  | undiverted : Step d (.withdraw file target cause now) d
  | unmoved : Step d (.withdraw file target cause now) (d.assign file none)
  | leave : Step d (.leave file) (d.assign file none)
  | launch (here : d.active file = some ⟨tok, .starting⟩) :
      Step d (.launch file) (d.assign file (some ⟨tok, .running .fresh⟩))
  | lease (here : d.active file = some ⟨tok, .running r⟩) (found : d.store.blocks.get block = some b)
      (claimed : d.store.claimBlock block new now = some (taken, after)) (mine : b.fileId = file) :
      Step d (.lease file block new now) ({ d with store := after }.assign file (some ⟨tok, .running (r.push block new)⟩))
  | execute (here : d.active file = some ⟨tok, .running r⟩)
      (settled : r.settle d.store block availableAt cause failed (executeBlock outcome) = (after, r')) :
      Step d (.execute file block outcome availableAt cause failed)
        ({ d with store := after }.assign file (some ⟨tok, .running r'⟩))
  | giveUp (here : d.active file = some ⟨tok, .running r⟩) :
      Step d (.giveUp file block cause now failed) ({ d with store := move d.store file tok .error cause now failed }.assign file
        (some ⟨tok, .running { r with exhausted := r.exhausted.erase block }⟩))
  | fail (here : d.active file = some ⟨tok, .running r⟩) :
      Step d (.fail file err) (d.assign file (some ⟨tok, .running (r.fail err)⟩))
  | conclude (here : d.active file = some ⟨tok, .running r⟩) (quiet : r.inflight = []) :
      Step d (.conclude file cause now failed) ({ d with
        store := (RunError.target r.err).elim d.store fun target =>
          move d.store file tok target cause now failed }.assign file none)
  | crash : Step d .crash { d with active := fun _ => none }

theorem next_step {d d' : Runs} (stepped : next d e = some d') : Step d e d' := by
  unfold next at stepped
  grind [Step]

/-- The workers of the attempt execute the block under the token of its lease. -/
def Holds (a : Attempt) (b : Block) : Prop :=
  ∃ r tok, a.phase = .running r ∧ b.id ∈ r.inflight ∧ r.tokens b.id = some tok ∧ b.leaseToken = some tok

/-- After a crash a leased block may belong to no attempt, but then nobody knows the lease of its file. -/
structure Inv (d : Runs) : Prop where
  attended : d.store.Attended
  held : ∀ b ∈ d.store.blocks, b.status = .active → ∀ a, d.active b.fileId = some a → Holds a b

section
variable {d d' : Runs} {op : Operation}

theorem Inv.unleased (inv : Inv d) (here : d.active file = some a) (empty : ∀ b, ¬ Holds a b) : d.store.Unleased file := by
  rintro b stored rfl active
  exact empty b (inv.held b stored active a here)

theorem Inv.exec {s' : Store} (inv : Inv d) (done : op.exec d.store = .ok s')
    (batch : ∀ n filter toks now, op ≠ .leaseBlocks n filter toks now) (single : ∀ block tok now, op ≠ .claimBlock block tok now)
    (released : ∀ file tok target cause now, op = .transitionFile file tok .downloading target cause now →
      target ≠ .downloaded → d.store.Unleased file) : Inv { d with store := s' } := by
  refine ⟨Operation.exec_attended inv.attended done released, fun b' stored' active' a here => ?_⟩
  obtain ⟨b, stored, active, id, file, lease⟩ := Operation.exec_active done batch single stored' active'
  simpa only [Holds, id, lease] using inv.held b stored active a (file ▸ here)

theorem Inv.assign (inv : Inv d) (holds : ∀ b ∈ d.store.blocks, b.status = .active → b.fileId = file → Holds a b) :
    Inv (d.assign file (some a)) := by
  refine ⟨inv.attended, fun b stored active a' here => ?_⟩
  rcases update_eq_some.mp here with ⟨mine, same⟩ | ⟨-, here⟩
  · exact Option.some.inj same ▸ holds b stored active mine
  · exact inv.held b stored active a' here

theorem Inv.keep (inv : Inv d) (here : d.active file = some ⟨tok, .running r⟩) (tokens : r'.tokens = r.tokens)
    (inflight : r'.inflight = r.inflight) : Inv (d.assign file (some ⟨tok, .running r'⟩)) := by
  refine inv.assign fun b stored active mine => ?_
  obtain ⟨_, t, running, member, known, lease⟩ := inv.held b stored active _ (mine ▸ here)
  cases running
  exact ⟨r', t, rfl, inflight ▸ member, tokens ▸ known, lease⟩

theorem Inv.release (inv : Inv d) : Inv (d.assign file none) := by
  refine ⟨inv.attended, fun b stored active a' here => ?_⟩
  obtain ⟨-, here⟩ := (update_eq_some.mp here).resolve_left nofun
  exact inv.held b stored active a' here

theorem not_holds_starting : ¬ Holds ⟨tok, .starting⟩ b := fun ⟨_, _, running, _⟩ => nomatch running

theorem not_holds_quiet (quiet : r.inflight = []) : ¬ Holds ⟨tok, .running r⟩ b := by
  rintro ⟨_, _, running, member, -⟩
  cases running
  simp [quiet] at member

/-- An attempt moves its file when no block of it is leased. -/
theorem Inv.move (inv : Inv d) (free : failed = false → d.store.Unleased file) :
    Inv { d with store := move d.store file tok target cause now failed } := by
  simp only [Runs.move]
  split
  · exact inv
  · rename_i committed
    refine Operation.commit_preserves (P := fun s' => Inv { d with store := s' }) inv fun s' done => ?_
    refine inv.exec done nofun nofun ?_
    rintro _ _ _ _ _ same -
    cases same
    exact free (by simpa using committed)

theorem settle_given_back {s s' : Store} (settled : Run.settle r s block availableAt cause false exit = (s', r'))
    (back : ∀ err, exit ≠ .dropped err) :
    (∃ op : Operation, s' = op.commit s ∧ (op = .completeBlock block (r.token block) ∨
        op = .requeueBlock block (r.token block) availableAt cause)) ∧
      (∀ b ∈ s'.blocks, ¬ b.Held block (r.token block)) ∧
      r'.tokens = (r.pop block).tokens ∧ r'.inflight = (r.pop block).inflight := by
  cases exit with
  | dropped err => exact absurd rfl (back err)
  | completed =>
    simp only [Run.settle] at settled
    split at settled
    · contradiction
    split at settled <;> cases settled
    · rename_i failed
      refine ⟨⟨_, ?_, .inl rfl⟩, Store.guardBlock_refused (map_eq_error.mp failed), rfl, rfl⟩
      simp only [Operation.commit, Operation.exec, failed, Except.map]
    · rename_i done
      refine ⟨⟨_, ?_, .inl rfl⟩, ?_, rfl, rfl⟩
      · simp only [Operation.commit, Operation.exec, done, Except.map]
      · obtain ⟨_, guarded, same⟩ := map_eq_ok.mp done
        cases same
        exact Store.guardBlock_released (fun _ status => by cases status) guarded
  | requeued =>
    simp only [Run.settle] at settled
    split at settled
    · contradiction
    split at settled <;> cases settled
    · rename_i failed
      refine ⟨⟨_, ?_, .inr rfl⟩, Store.guardBlock_refused (map_eq_error.mp failed), rfl, rfl⟩
      simp only [Operation.commit, Operation.exec, failed, Except.map]
    · rename_i done
      refine ⟨⟨_, ?_, .inr rfl⟩, ?_, by split <;> rfl, by split <;> rfl⟩
      · simp only [Operation.commit, Operation.exec, done, Except.map]
      · obtain ⟨_, guarded, same⟩ := map_eq_ok.mp done
        cases same
        exact Store.guardBlock_released (fun _ status => by cases status) guarded

theorem Inv.execute {after : Store} (inv : Inv d) (here : d.active file = some ⟨tok, .running r⟩)
    (settled : r.settle d.store block availableAt cause false exit = (after, r')) (back : ∀ err, exit ≠ .dropped err) :
    Inv ({ d with store := after }.assign file (some ⟨tok, .running r'⟩)) := by
  obtain ⟨⟨op, rfl, which⟩, ended, tokens, inflight⟩ := settle_given_back settled back
  have inv' : Inv { d with store := op.commit d.store } := by
    refine Operation.commit_preserves (P := fun s' => Inv { d with store := s' }) inv fun s' done => ?_
    rcases which with rfl | rfl <;> exact inv.exec done nofun nofun nofun
  refine inv'.assign fun b stored active mine => ?_
  obtain ⟨_, t, running, member, known, lease⟩ := inv'.held b stored active _ (mine ▸ here)
  cases running
  have other : b.id ≠ block := by
    -- its lease would have ended with the attempt
    rintro rfl
    exact ended b stored ⟨rfl, active, by rw [lease, Run.token, known]; rfl⟩
  refine ⟨r', t, rfl, ?_, ?_, lease⟩
  · rw [inflight]
    exact (List.mem_erase_of_ne other).mpr member
  · rw [tokens]
    exact (Function.update_of_ne other ..).trans known

theorem Inv.lease {after : Store} (inv : Inv d) (here : d.active file = some ⟨tok, .running r⟩)
    (found : d.store.blocks.get block = some b) (claimed : d.store.claimBlock block new now = some (taken, after))
    (mine : b.fileId = file) :
    Inv ({ d with store := after }.assign file (some ⟨tok, .running (r.push block new)⟩)) := by
  have done : (Operation.claimBlock block new now).exec d.store = .ok after := by
    simp only [Operation.exec, claimed, Option.elim]
  have attended := Operation.exec_attended inv.attended done nofun
  refine ⟨attended, fun b' stored' active' a here' => ?_⟩
  rcases update_eq_some.mp here' with ⟨own, same⟩ | ⟨own, here'⟩
  · cases same
    rcases Store.mem_of_claimBlock found claimed stored' with ⟨rfl, -, lease⟩ | ⟨stored, other⟩
    · exact ⟨_, new, rfl, List.mem_cons_self, Function.update_self .., lease⟩
    · obtain ⟨_, t, running, member, known, lease⟩ := inv.held b' stored active' _ (own ▸ here)
      cases running
      exact ⟨_, t, rfl, List.mem_cons_of_mem _ member, (Function.update_of_ne other ..).trans known, lease⟩
  · rcases Store.mem_of_claimBlock found claimed stored' with ⟨-, file', -⟩ | ⟨stored, -⟩
    · exact absurd (file'.trans mine) own
    · exact inv.held b' stored active' a here'

theorem Inv.start {after : Store} (inv : Inv d) (leased : d.store.leaseFileForDownload file tok now = .ok after) :
    Inv ({ d with store := after }.assign file (some ⟨tok, .starting⟩)) := by
  have done : (Operation.leaseFileForDownload file tok now).exec d.store = .ok after := leased
  refine (inv.exec done nofun nofun nofun).assign fun b stored active mine => ?_
  -- a queued file has no leased blocks
  obtain ⟨b₀, stored₀, active₀, -, file₀, -⟩ := Operation.exec_active done nofun nofun stored active
  obtain ⟨f, known, here, downloading⟩ := inv.attended b₀ stored₀ active₀
  obtain ⟨⟨f₁, known₁, queued⟩, -⟩ := Store.moveFile_ok.mp leased
  have same := Table.eq_of_key known₁ known (queued.1.trans (mine.symm.trans (file₀.trans here.symm)))
  simp [same, File.In, downloading] at queued

/-- No block is opened on a range the server finds unsatisfiable for an incomplete file or with a terminal
HTTP error, the calls that hand a block back commit, and a file is given up when no block of it is leased. -/
def Orderly (d : Runs) : Event → Prop
  | .execute _ _ outcome _ _ failed =>
    outcome ≠ .openFailed (.rangeNotSatisfiable false) ∧ outcome ≠ .openFailed .terminalHTTP ∧ failed = false
  | .giveUp file _ _ _ _ => d.store.Unleased file
  | _ => True

instance (d : Runs) : DecidablePred d.Orderly := fun e => by
  unfold Orderly
  split <;> infer_instance

theorem executeBlock_given_back (unsatisfiable : outcome ≠ .openFailed (.rangeNotSatisfiable false))
    (terminal : outcome ≠ .openFailed .terminalHTTP) : executeBlock outcome ≠ .dropped err := by
  cases outcome with
  | streamed | drained | streamFailed => nofun
  | openFailed err =>
    cases err with
    | runEnded | allRangeless | attempt => nofun
    | rangeNotSatisfiable coversAll =>
      cases coversAll with
      | false => exact absurd rfl unsatisfiable
      | true => nofun
    | terminalHTTP => exact absurd rfl terminal

theorem inv_next (inv : Inv d) (orderly : d.Orderly e) (stepped : next d e = some d') : Inv d' := by
  cases next_step stepped with
  | call free =>
    refine Operation.commit_preserves (P := fun s' => Inv { d with store := s' }) inv fun s' done => ?_
    refine inv.exec done ?_ ?_ ?_
    · rintro _ _ _ _ rfl
      exact free rfl
    · rintro _ _ _ rfl
      exact free rfl
    · rintro _ _ _ _ _ rfl other
      exact absurd (decide_eq_true ⟨rfl, other⟩) free
  | start idle leased => exact inv.start leased
  | withdraw here moved =>
    have free : d.store.Unleased _ := inv.unleased here fun _ => not_holds_starting
    have done : (Operation.transitionFile ..).exec d.store = .ok _ := moved
    refine (inv.exec done nofun nofun ?_).release
    rintro _ _ _ _ _ same -
    cases same
    exact free
  | undiverted => exact inv
  | unmoved | leave => exact inv.release
  | launch here =>
    exact inv.assign fun b stored active mine => (not_holds_starting (inv.held b stored active _ (mine ▸ here))).elim
  | lease here found claimed mine => exact inv.lease here found claimed mine
  | execute here settled =>
    obtain ⟨unsatisfiable, terminal, rfl⟩ := orderly
    exact inv.execute here settled fun _ => executeBlock_given_back unsatisfiable terminal
  | giveUp here => exact (inv.move fun _ => orderly).keep here rfl rfl
  | fail here => exact inv.keep here rfl rfl
  | @conclude file _ r _ _ _ here quiet =>
    cases RunError.target r.err with
    | none => exact inv.release
    | some target => exact (inv.move fun _ => inv.unleased here fun _ => not_holds_quiet quiet).release
  | crash => exact ⟨inv.attended, fun _ _ _ _ never => nomatch never⟩

def initial (owner : String) : Runs := ⟨.empty owner, fun _ => none⟩

theorem inv_initial : Inv (initial owner) :=
  ⟨fun _ stored => (Table.not_mem_empty _ stored).elim, fun _ stored => (Table.not_mem_empty _ stored).elim⟩

/-- In an orderly run no block lease outlives the download of its file. -/
theorem leased_blocks_attended (ran : run next (initial owner) events = some d)
    (orderly : Meets next Orderly (initial owner) events) : d.store.Attended :=
  (invariant_meeting inv_next inv_initial ran orderly).attended

end

/-- A run of one file with a single block, ready to be leased. -/
def launched : List Event :=
  [.call (.enqueueJob wholeRepo), .call (.leaseMeta "list" 0),
    .call (.completeListing 1 "list" [⟨"weights", 4, "", "", "", false⟩]), .start 1 "file" 0,
    .call (.replacePendingBlocks 1 "file" [⟨0, 0, 4⟩]), .launch 1]

/-- A terminal HTTP error fails the run without handing its block back, so that the file goes
to the error status under a leased block. -/
def strandedLease : List Event :=
  launched ++ [.lease 1 1 "block" 0, .execute 1 1 (.openFailed .terminalHTTP) 0 none false, .conclude 1 none 0 false]

theorem terminal_open_strands_lease :
    ∃ d, run next (initial "process") strandedLease = some d ∧ ¬ d.store.Attended ∧
      (∃ b ∈ d.store.blocks, b.status = .active) ∧ ∀ f ∈ d.store.files, f.status = .error :=
  ⟨_, rfl, by decide, by decide, by decide⟩

/-- Eight attempts fail on their stream, and the file is given up. -/
def givenUp : List Event :=
  launched ++ (List.range maxBlockRetries).flatMap (fun n =>
    [.lease 1 1 "block" n, .execute 1 1 .streamFailed n none false]) ++ [.giveUp 1 1 none 8 false, .fail 1 .giveUp,
      .conclude 1 none 8 false]

def exhausted : Runs := (run next (initial "process") givenUp).getD (initial "process")

theorem leased_blocks_attended_given_up :
    (∀ f ∈ exhausted.store.files, f.status = .error) ∧ exhausted.store.Attended := by
  have ran : run next (initial "process") givenUp = some exhausted := rfl
  exact ⟨by decide, leased_blocks_attended ran (by decide)⟩

end Runs
end Hfdl
