import Hfdl.Sched.Cooldowns
import Hfdl.Sched.Rechunk
import Hfdl.Sched.Runs
import Hfdl.Transfer.IntervalSerde
import Hfdl.Xet.Boundaries

/-! The source a file is downloaded from. The scheduler prepares a xet source or leaves the choice to the transfer
run, which falls back to the configured upstreams when the task carries no source. A source travels as an interface
value, and the two sides ask different questions of it: the tests ask for the value, a method call for its pointer. -/
namespace Hfdl

/-- An interface value: the dynamic type and the pointer stored in it. -/
structure Iface (κ τ : Type) where
  dynType : Option κ
  pointer : Option τ

namespace Iface
variable {κ τ α : Type}

protected def nil : Iface κ τ := ⟨none, none⟩

/-- The comparison with `nil` looks at both components. -/
def isNil (i : Iface κ τ) : Bool := i.dynType.isNone && i.pointer.isNone

/-- The assignment of a pointer to a variable of the interface type fixes the dynamic type, also for a nil pointer. -/
def ofPointer (kind : κ) (pointer : Option τ) : Iface κ τ := ⟨some kind, pointer⟩

/-- A method that reads its receiver; `none` is the panic of a nil dereference. -/
def invoke (i : Iface κ τ) (method : τ → α) : Option α := i.pointer.map method

@[simp] theorem isNil_nil : (Iface.nil : Iface κ τ).isNil = true := rfl

@[simp] theorem isNil_ofPointer (kind : κ) (pointer : Option τ) : (ofPointer kind pointer).isNil = false := rfl

end Iface

namespace SourceChoice

inductive ErrKind where
  | auth | gated | notFound | xetAuth | rateLimit (retryAfter : Int) | other
deriving DecidableEq, Repr

structure Failure where
  kind : ErrKind
  text : String
deriving DecidableEq, Repr

/-- `%w` keeps the chain. -/
def Failure.wrap (e : Failure) (context : String) : Failure := { e with text := context ++ ": " ++ e.text }

def ErrKind.terminal : ErrKind → Bool
  | auth | gated | notFound | xetAuth => true
  | rateLimit _ | other => false

structure XetFileData where
  hash : String
  refreshRoute : String
deriving DecidableEq, Repr

/-- `recon` is set by a successful `Prepare`. -/
structure XetSource where
  fileID : String
  size : Int
  refreshRoute : String
  recon : Option Xet.Reconstruction

inductive SourceType where
  | xet | http
deriving DecidableEq, Repr

/-- What a source pointer leads to; the http source draws on the upstreams of its task. -/
inductive Target where
  | xet (s : XetSource)
  | http (upstreams : List String)

abbrev BlockSource := Iface SourceType Target

/-- A cooldown set after a 429: no `Retry-After` leaves the backoff to the number of attempts. -/
structure CooldownCall where
  kind : CooldownKind
  retryAfter : Int
  attempt : Nat
  reason : String
deriving DecidableEq, Repr

inductive SourcePriority where
  | preferXet | preferCDN
deriving DecidableEq, Repr

structure Limits where
  sourcePriority : SourcePriority
  blockSize : Int
deriving DecidableEq, Repr

/-- What the calls of one pass come back with. `salvage` is the re-check under the lease, `xetClient` whether a xet
client is configured; an absent error is a success. -/
structure Env where
  limits : Limits
  xetClient : Bool
  repoFor : Option Failure
  leaseFileForDownload : Option Failure
  salvage : Bool
  loadProgress : Except Failure (Option Blob)
  finishDownloaded : Option Failure
  apiGate : Option Failure
  resolveXet : Except Failure XetFileData
  casGate : Option Failure
  prepare : Except Failure Xet.Reconstruction
  incrFileRetries : Except Failure Nat
  maxBlockIdx : Option Failure
  replacePendingBlocks : Option Failure
  openSink : Option Failure
  transferUpstreams : Except Failure (List String)
  admitted : Bool
  rng : Option Failure

structure Task where
  size : Int
  source : BlockSource
  upstreams : List String
  progress : Option Blob
  blockSize : Int
  bounds : List Interval

/-- How a pass over a file ends. A `launched` pass goes on in its transfer run, which ends in `runFailed` or comes to
read blocks from its source. -/
inductive Outcome where
  | failed (e : Failure)
  | salvaging
  | downloaded
  | errored (e : Failure)
  | requeued (e : Failure)
  | launched (task : Task)
  | runFailed (e : Failure)
  | transferring (source : BlockSource) (label : String)
  | panicked

/-- `receivers` are the pointers methods of a source were called on. -/
structure Pass where
  outcome : Outcome
  receivers : List (Option Target)
  cooldowns : List CooldownCall

structure Prepared where
  result : Except Failure (Option XetSource)
  receivers : List (Option Target)
  cooldowns : List CooldownCall

variable (env : Env) (f : File)

def cooldownAfter (kind : CooldownKind) (reason : String) (e : Failure) : List CooldownCall :=
  match e.kind with
  | .rateLimit retryAfter => [⟨kind, retryAfter, f.retries, reason⟩]
  | _ => []

def newSource (fileID : String) (size : Int) (refreshRoute : String) : XetSource := ⟨fileID, size, refreshRoute, none⟩

def prepareXetSource : Prepared :=
  match env.apiGate with
  | some e => ⟨.error e, [], []⟩
  | none =>
    match env.resolveXet with
    | .error e => ⟨.error (e.wrap ("sched: resolve xet " ++ f.path)), [], cooldownAfter f .api "resolve 429" e⟩
    | .ok xd =>
      -- the resolve endpoint disagrees with the tree
      if xd.hash = "" then ⟨.ok none, [], []⟩
      else
        match env.casGate with
        | some e => ⟨.error e, [], []⟩
        | none =>
          let src := newSource f.xetHash f.size xd.refreshRoute
          match env.prepare with
          | .error e => ⟨.error (e.wrap ("sched: prepare xet " ++ f.path)), [some (.xet src)], cooldownAfter f .cas "cas 429" e⟩
          | .ok recon => ⟨.ok (some { src with recon := some recon }), [some (.xet src)], []⟩

def handleXetPrepareError (e : Failure) : Outcome :=
  if e.kind.terminal then .errored e
  else
    match env.incrFileRetries with
    | .error ierr => .errored (ierr.wrap "sched: cannot persist xet prepare retry")
    | .ok n =>
      if maxBlockRetries ≤ n then .errored (e.wrap s!"sched: xet prepare gave up after {n} attempts")
      else .requeued e

/-- The file has a xet hash, a xet client is wired and the operator did not force the CDN. -/
def XetChosen : Prop := env.limits.sourcePriority = .preferXet ∧ f.xetHash ≠ "" ∧ env.xetClient = true
deriving Decidable

/-- The pass up to the choice of its source: the missing ranges and the blob they come from. -/
def resume : Except Outcome (Option Blob × List Interval) :=
  match env.repoFor with
  | some e => .error (.failed e)
  | none =>
    match env.leaseFileForDownload with
    | some e => .error (.failed e)
    | none =>
      if env.salvage then .error .salvaging
      else
        match env.loadProgress with
        | .error e => .error (.failed (e.wrap "load progress"))
        | .ok blob =>
          match decodeProgress blob with
          | .error corrupt => .error (.requeued ⟨.other, "transfer: corrupt progress blob: " ++ corrupt.reason⟩)
          | .ok seed =>
            let missing := seed.missing f.size
            if missing = [] then
              match env.finishDownloaded with
              | some e => .error (.failed (e.wrap "transition completed file"))
              | none => .error .downloaded
            else .ok (blob, missing)

/-- `src`, declared as a nil interface, and assigned the prepared pointer when xet is chosen. -/
def selectSource : Except Failure BlockSource × Prepared :=
  if XetChosen env f then
    let prepared := prepareXetSource env f
    (prepared.result.map fun xs => .ofPointer .xet (xs.map .xet), prepared)
  else (.ok .nil, ⟨.ok none, [], []⟩)

/-- `Boundaries` of the two kinds of source; the http source cuts nothing. -/
def Target.boundaries (missing : List Interval) (blockSize : Int) : Target → List Interval
  | .xet s => Xet.boundaries s.recon s.size missing blockSize
  | .http _ => missing

def blockPivotConns : Int := 8

def passBlockSize : Int :=
  if env.limits.blockSize ≤ 0 then adaptiveBlockSize f.size blockPivotConns else env.limits.blockSize

def errAdmissionDenied : Failure := ⟨.other, "sched: connection budget dropped during admission"⟩

/-- The rest of the pass once the ranges are cut; every failure sends the file back to the queue. -/
def launch (src : BlockSource) (blob : Option Blob) (bounds : List Interval) : Outcome :=
  match env.maxBlockIdx with
  | some e => .requeued e
  | none =>
    match env.replacePendingBlocks with
    | some e => .requeued e
    | none =>
      match env.openSink with
      | some e => .requeued e
      | none =>
        match env.transferUpstreams with
        | .error e => .requeued e
        | .ok upstreams =>
          if env.admitted then .launched ⟨f.size, src, upstreams, blob, passBlockSize env f, bounds⟩
          else .requeued errAdmissionDenied

def startDownload : Pass :=
  match resume env f with
  | .error outcome => ⟨outcome, [], []⟩
  | .ok (blob, missing) =>
    let (selected, prepared) := selectSource env f
    match selected with
    | .error e => ⟨handleXetPrepareError env e, prepared.receivers, prepared.cooldowns⟩
    | .ok src =>
      if src.isNil then ⟨launch env f src blob missing, prepared.receivers, prepared.cooldowns⟩
      else
        match src.invoke (·.boundaries missing (passBlockSize env f)) with
        | none => ⟨.panicked, prepared.receivers ++ [src.pointer], prepared.cooldowns⟩
        | some bounds => ⟨launch env f src blob bounds, prepared.receivers ++ [src.pointer], prepared.cooldowns⟩

/-- The blob a run resumes from has to be one of a file of the task's size. -/
def checkProgress (task : Task) : Option Failure :=
  match task.progress with
  | none | some [] => none
  | some (x :: blob) =>
    match IntervalSet.unmarshalBinary (x :: blob) with
    | .error corrupt => some ⟨.other, "transfer: corrupt progress blob: " ++ corrupt.reason⟩
    | .ok seed =>
      if seed.size = task.size then none
      else some ⟨.other, s!"transfer: corrupt progress blob: blob file size {seed.size} != task size {task.size}"⟩

/-- `Run` up to the source its workers open blocks from. -/
def runSource (task : Task) : Except Failure (BlockSource × String) :=
  if task.size < 0 then .error ⟨.other, s!"transfer: negative size {task.size}"⟩
  else if task.source.isNil && task.upstreams.isEmpty then .error ⟨.other, "transfer: no BlockSource and no upstreams"⟩
  else
    match checkProgress task with
    | some e => .error e
    | none =>
      if task.source.isNil then
        match env.rng with
        | some e => .error (e.wrap "transfer: seed rng")
        | none => .ok (.ofPointer .http (some (.http task.upstreams)), "http")
      else .ok (task.source, "xet")

/-- A pass with the run it launches, up to the first `Open` on its source. -/
def download : Pass :=
  let pass := startDownload env f
  match pass.outcome with
  | .launched task =>
    match runSource env task with
    | .error e => { pass with outcome := .runFailed e }
    | .ok (src, label) =>
      { pass with
        outcome := match src.invoke id with
          | none => .panicked
          | some _ => .transferring src label
        receivers := pass.receivers ++ [src.pointer] }
  | _ => pass

/-- The ends of a pass at an error or back in the queue. -/
inductive Outcome.Failed : Outcome → Prop
  | failed (e : Failure) : Failed (.failed e)
  | errored (e : Failure) : Failed (.errored e)
  | requeued (e : Failure) : Failed (.requeued e)
  | runFailed (e : Failure) : Failed (.runFailed e)

/-- The ends of a pass that has no bytes to fetch. -/
inductive Spared : Outcome → Prop
  | salvaging (matched : env.salvage = true) : Spared .salvaging
  | downloaded (loaded : env.loadProgress = .ok blob) (decoded : decodeProgress blob = .ok seed)
      (complete : seed.missing f.size = []) : Spared .downloaded

/-- A source the run may be handed. -/
inductive Usable : BlockSource → Prop
  | upstreams (plain : ¬ XetChosen env f) : Usable .nil
  | prepared (chosen : XetChosen env f) (ready : env.prepare = .ok recon) :
      Usable (.ofPointer .xet (some (.xet ⟨f.xetHash, f.size, route, some recon⟩)))

/-- The tree listed a xet hash and the resolve endpoint answers without one. -/
def Disagrees : Prop := XetChosen env f ∧ env.apiGate = none ∧ ∃ xd, env.resolveXet = .ok xd ∧ xd.hash = ""

variable {env f}

theorem prepareXetSource_receivers : ∀ r ∈ (prepareXetSource env f).receivers, r ≠ none := by
  simp only [prepareXetSource]
  repeat' split
  all_goals simp

theorem prepareXetSource_ok (prepared : (prepareXetSource env f).result = .ok xs) :
    (∃ xd, env.apiGate = none ∧ env.resolveXet = .ok xd ∧ xd.hash = "" ∧ xs = none) ∨
      ∃ route recon, env.prepare = .ok recon ∧ xs = some ⟨f.xetHash, f.size, route, some recon⟩ := by
  simp only [prepareXetSource] at prepared
  split at prepared
  · cases prepared
  · rename_i open_
    split at prepared
    · cases prepared
    · rename_i xd resolved
      split at prepared
      · rename_i unhashed
        cases prepared
        exact .inl ⟨xd, open_, resolved, unhashed, rfl⟩
      · split at prepared
        · cases prepared
        · split at prepared
          · cases prepared
          · rename_i recon ready
            cases prepared
            exact .inr ⟨xd.refreshRoute, recon, ready, rfl⟩

theorem selectSource_receivers : ∀ r ∈ (selectSource env f).2.receivers, r ≠ none := by
  simp only [selectSource]
  split
  · exact prepareXetSource_receivers
  · simp

/-- The pointer of an assigned source is absent exactly when the endpoint disagrees with the tree. -/
theorem selectSource_ok (selected : (selectSource env f).1 = .ok src) :
    Usable env f src ∨ Disagrees env f ∧ src = .ofPointer .xet none := by
  simp only [selectSource] at selected
  split at selected
  · rename_i chosen
    cases result : (prepareXetSource env f).result with
    | error e => rw [result] at selected; cases selected
    | ok xs =>
      rw [result] at selected
      cases selected
      obtain ⟨xd, open_, resolved, unhashed, rfl⟩ | ⟨route, recon, ready, rfl⟩ := prepareXetSource_ok result
      · exact .inr ⟨⟨chosen, open_, xd, resolved, unhashed⟩, rfl⟩
      · exact .inl (.prepared chosen ready)
  · rename_i plain
    cases selected
    exact .inl (.upstreams plain)

theorem handleXetPrepareError_failed (e : Failure) : (handleXetPrepareError env e).Failed := by
  simp only [handleXetPrepareError]
  repeat' split
  all_goals constructor

theorem resume_error (ended : resume env f = .error outcome) : outcome.Failed ∨ Spared env f outcome := by
  simp only [resume] at ended
  split at ended
  · cases ended
    exact .inl (.failed _)
  · split at ended
    · cases ended
      exact .inl (.failed _)
    · split at ended
      · rename_i matched
        cases ended
        exact .inr (.salvaging matched)
      · split at ended
        · cases ended
          exact .inl (.failed _)
        · rename_i blob loaded
          split at ended
          · cases ended
            exact .inl (.requeued _)
          · rename_i seed decoded
            split at ended
            · rename_i complete
              split at ended
              · cases ended
                exact .inl (.failed _)
              · cases ended
                exact .inr (.downloaded loaded decoded complete)
            · cases ended

theorem launch_cases (usable : Usable env f src) (blob : Option Blob) (bounds : List Interval) :
    (launch env f src blob bounds).Failed ∨
      ∃ task, launch env f src blob bounds = .launched task ∧ Usable env f task.source := by
  simp only [launch]
  repeat' split
  case isTrue => exact .inr ⟨_, rfl, usable⟩
  all_goals exact .inl (.requeued _)

theorem called_snoc {receivers : List (Option Target)} (called : ∀ r ∈ receivers, r ≠ none) (target : Target) :
    ∀ r ∈ receivers ++ [some target], r ≠ none := by
  intro r member
  rcases List.mem_append.mp member with early | last
  · exact called r early
  · rw [List.mem_singleton.mp last]
    exact Option.some_ne_none _

/-- A pass that launches hands on a usable source; the only other way on is the call through the absent pointer. -/
theorem startDownload_cases (env : Env) (f : File) :
    ((∀ r ∈ (startDownload env f).receivers, r ≠ none) ∧
      ((startDownload env f).outcome.Failed ∨ Spared env f (startDownload env f).outcome ∨
        ∃ task, (startDownload env f).outcome = .launched task ∧ Usable env f task.source)) ∨
      (∃ start, resume env f = .ok start) ∧ Disagrees env f := by
  have called : ∀ r ∈ (selectSource env f).2.receivers, r ≠ none := selectSource_receivers
  simp only [startDownload]
  split
  · rename_i outcome ended
    refine .inl ⟨by simp, ?_⟩
    exact (resume_error ended).imp_right .inl
  · rename_i blob missing resumed
    split
    · rename_i e selected
      exact .inl ⟨called, .inl (handleXetPrepareError_failed e)⟩
    · rename_i src selected
      obtain usable | ⟨disagrees, rfl⟩ := selectSource_ok selected
      · left
        have launched := launch_cases usable blob
        cases usable with
        | upstreams plain => exact ⟨called, (launched missing).imp_right .inr⟩
        | prepared chosen ready => exact ⟨called_snoc called _, (launched _).imp_right .inr⟩
      · exact .inr ⟨⟨_, resumed⟩, disagrees⟩

theorem runSource_ok (usable : Usable env f task.source) (ran : runSource env task = .ok (src, label)) :
    (XetChosen env f ∧ label = "xet" ∧
        ∃ s recon, src = .ofPointer .xet (some (.xet s)) ∧ env.prepare = .ok recon ∧ s.recon = some recon) ∨
      ¬ XetChosen env f ∧ label = "http" ∧ src = .ofPointer .http (some (.http task.upstreams)) := by
  simp only [runSource] at ran
  split at ran
  · cases ran
  · split at ran
    · cases ran
    · split at ran
      · cases ran
      · generalize task.source = source at usable ran
        cases usable with
        | upstreams plain =>
          simp only [Iface.isNil_nil, if_true] at ran
          split at ran
          · cases ran
          · cases ran
            exact .inr ⟨plain, rfl, rfl⟩
        | prepared chosen ready =>
          simp only [Iface.isNil_ofPointer, Bool.false_eq_true, if_false] at ran
          cases ran
          exact .inl ⟨chosen, rfl, _, _, rfl, ready, rfl⟩

/-- A pass that comes to choose its source while the endpoint disagrees with the tree calls `Boundaries` on an absent
source. -/
theorem download_disagreeing (resumed : resume env f = .ok start) (disagrees : Disagrees env f) :
    (download env f).outcome = .panicked ∧ (download env f).receivers = [none] := by
  obtain ⟨chosen, open_, xd, resolved, unhashed⟩ := disagrees
  have prepared : prepareXetSource env f = ⟨.ok none, [], []⟩ := by
    simp only [prepareXetSource, open_, resolved, if_pos unhashed]
  have selected : selectSource env f = (.ok (.ofPointer .xet none), ⟨.ok none, [], []⟩) := by
    simp only [selectSource, if_pos chosen, prepared, Except.map, Option.map_none]
  have started : startDownload env f = ⟨.panicked, [none], []⟩ := by
    simp only [startDownload, resumed, selected]
    rfl
  simp only [download, started, and_self]

/-- A pass over a file that needs its bytes ends at an error or in the queue, reads from a prepared xet source, or, when
xet is not chosen, from the upstreams, and every method call has a receiver, exactly if it is not one that asks the resolve
endpoint about a file the tree gave a hash and gets an answer without one. -/
theorem source_well_defined (env : Env) (f : File) :
    ((∀ r ∈ (download env f).receivers, r ≠ none) ∧
      ((download env f).outcome.Failed ∨ Spared env f (download env f).outcome ∨
        (XetChosen env f ∧ ∃ s recon, (download env f).outcome = .transferring (.ofPointer .xet (some (.xet s))) "xet" ∧
          env.prepare = .ok recon ∧ s.recon = some recon) ∨
        ¬ XetChosen env f ∧ ∃ upstreams,
          (download env f).outcome = .transferring (.ofPointer .http (some (.http upstreams))) "http")) ↔
      ¬ ((∃ start, resume env f = .ok start) ∧ Disagrees env f) := by
  constructor
  · rintro ⟨called, -⟩ ⟨⟨start, resumed⟩, disagrees⟩
    refine called none ?_ rfl
    rw [(download_disagreeing resumed disagrees).2]
    exact List.mem_singleton_self _
  intro agrees
  obtain ⟨called, ended⟩ := (startDownload_cases env f).resolve_right agrees
  simp only [download]
  split
  · rename_i task launched
    obtain failed | spared | ⟨task', launched', usable⟩ := ended
    · rw [launched] at failed
      cases failed
    · rw [launched] at spared
      cases spared
    · cases launched.symm.trans launched'
      split
      · exact ⟨called, .inl (.runFailed _)⟩
      · rename_i src label ran
        obtain ⟨chosen, rfl, s, recon, rfl, ready, prepared⟩ | ⟨plain, rfl, rfl⟩ := runSource_ok usable ran
        · exact ⟨called_snoc called _, .inr (.inr (.inl ⟨chosen, s, recon, rfl, ready, prepared⟩))⟩
        · exact ⟨called_snoc called _, .inr (.inr (.inr ⟨plain, _, rfl⟩))⟩
  · rename_i other
    obtain failed | spared | ⟨task, launched, usable⟩ := ended
    · exact ⟨called, .inl failed⟩
    · exact ⟨called, .inr (.inl spared)⟩
    · exact absurd launched (other task)

/-- A pass in which every call succeeds; the resolve endpoint answers `hash`. -/
def smoothPass (hash : String) : Env where
  limits := ⟨.preferXet, 0⟩
  xetClient := true
  repoFor := none
  leaseFileForDownload := none
  salvage := false
  loadProgress := .ok none
  finishDownloaded := none
  apiGate := none
  resolveXet := .ok ⟨hash, "route"⟩
  casGate := none
  prepare := .ok ⟨2, 0, [], fun _ => []⟩
  incrFileRetries := .ok 1
  maxBlockIdx := none
  replacePendingBlocks := none
  openSink := none
  transferUpstreams := .ok ["hub"]
  admitted := true
  rng := none

def xetBacked : File where
  path := "model.bin"
  size := 5
  gitOID := "oid"
  sha256 := "sha"
  xetHash := "x"
  isLFS := true
  leaseOwner := none
  leaseToken := none
  leaseUntil := none
  id := 1
  repoId := 1
  status := .downloading
  cachePath := none
  blockSize := 0
  conns := 0
  progress := none
  progressVer := 0
  retries := 0
  verifyFails := 0
  lastError := none

theorem source_well_defined_prepared :
    ¬ Disagrees (smoothPass "x") xetBacked ∧ (∀ r ∈ (download (smoothPass "x") xetBacked).receivers, r ≠ none) ∧
      (download (smoothPass "x") xetBacked).receivers.length = 3 := by
  have agrees : ¬ Disagrees (smoothPass "x") xetBacked := by
    rintro ⟨-, -, xd, ⟨⟩, unhashed⟩
    exact absurd unhashed (by decide)
  exact ⟨agrees, ((source_well_defined _ _).mpr fun both => agrees both.2).1, rfl⟩

/-- Every call succeeds and the resolve endpoint answers without a hash. The pass neither ends at an error nor in the
queue and does not come to read from the upstreams: it panics in `Boundaries`. -/
theorem unhashed_resolve_panics :
    XetChosen (smoothPass "") xetBacked ∧ (smoothPass "").resolveXet = .ok ⟨"", "route"⟩ ∧
      (download (smoothPass "") xetBacked).outcome = .panicked ∧ (download (smoothPass "") xetBacked).receivers = [none] := by
  have chosen : XetChosen (smoothPass "") xetBacked := by decide
  have resumed : resume (smoothPass "") xetBacked = .ok (none, [⟨0, 5⟩]) := rfl
  exact ⟨chosen, rfl, download_disagreeing resumed ⟨chosen, rfl, _, rfl, rfl⟩⟩

end SourceChoice
end Hfdl
