import Hfdl.Store.Catalogue
import Hfdl.Transition

/-! Calls of `LeaseBlocks` that run at the same time. The select and every guarded claim of a call are steps of their own,
and other calls and the other methods of the store run between them. -/
namespace Hfdl
open Relational Transition

inductive CallStatus where
  | running
  | returned
  | failed
deriving DecidableEq

/-- A call with the candidates it has not tried yet. -/
structure LeaseCall where
  n : Int
  filter : BlockFilter
  now : Time
  candidates : List Block
  perFile : FileId → Nat
  leased : List LeasedBlock
  status : CallStatus

/-- A file without an entry or with a non-positive cap is uncapped. -/
def LeaseCall.Capped (c : LeaseCall) (file : FileId) : Prop :=
  ∃ cap ∈ c.filter.maxPerFile.lookup file, 0 < cap ∧ cap ≤ c.perFile file
deriving Decidable

/-- A claim that succeeded: the row and the status of its file right before it, and the clock reading of its call. -/
structure Grant where
  token : LeaseToken
  row : Block
  fileStatus : Option FileStatus
  now : Time

structure Leasing where
  store : Store
  calls : List LeaseCall
  grants : List Grant

theorem Block.Change.available {b b' : Block} (changed : b.Change s op b') :
    b'.availableAt = b.availableAt ∨ b'.availableAt = none ∨
      ∃ tok availableAt cause, op = .requeueBlock b.id tok availableAt cause ∧ b'.availableAt = some availableAt := by
  cases changed with
  | requeued held => exact .inr (.inr ⟨_, _, _, by rw [held.1], rfl⟩)
  | reset | swept => exact .inr (.inl rfl)
  | kept | leased | claimed | completed | renewed => exact .inl rfl

/-- What a successful claim found, and what it leaves. -/
theorem Store.claimBlock_spec {s s' : Store} (claimed : s.claimBlock block tok now = some (leased, s')) :
    ∃ row ∈ s.blocks, row.id = block ∧ s.Downloading row.fileId ∧ leased.token = tok ∧ leased.id = block ∧
      leased.fileId = row.fileId ∧
      ∀ b' ∈ s'.blocks, ∃ b ∈ s.blocks, b'.id = b.id ∧ b'.fileId = b.fileId ∧ b'.availableAt = b.availableAt := by
  simp only [Store.claimBlock] at claimed
  split at claimed
  · cases claimed
  rename_i row found
  obtain ⟨stored, rfl⟩ := Table.get_eq_some.mp found
  split at claimed <;> cases claimed
  rename_i free
  refine ⟨row, stored, rfl, free.2, rfl, rfl, rfl, fun b' stored' => ?_⟩
  obtain ⟨b, before, rfl⟩ := Table.mem_update.mp stored'
  refine ⟨b, before, ?_⟩
  split <;> exact ⟨rfl, rfl, rfl⟩

namespace Leasing

inductive Event where
  | call (op : Operation)
  | select (n : Int) (filter : BlockFilter) (now : Time)
  | advance (i : Nat) (tok : LeaseToken)
  | finish (i : Nat)
  | fail (i : Nat)

/-- Blocks are leased through the calls only, and no block rows are added while they run. -/
def Reserved : Operation → Bool
  | .leaseBlocks .. | .claimBlock .. | .replacePendingBlocks .. => true
  | _ => false

def set (d : Leasing) (i : Nat) (c : LeaseCall) : Leasing := { d with calls := d.calls.set i c }

/-- A generated token is never one that was generated before. -/
def next (d : Leasing) : Event → Option Leasing
  | .call op => if op.Issued ∧ Reserved op = false then some { d with store := op.commit d.store } else none
  | .select n filter now =>
    let candidates := if n ≤ 0 then [] else d.store.blockCandidates filter now
    some { d with calls := d.calls ++ [⟨n, filter, now, candidates, fun _ => 0, [], .running⟩] }
  | .advance i tok =>
    match d.calls[i]? with
    | some c =>
      match c.candidates with
      | [] => none
      | b :: rest =>
        if c.status ≠ .running ∨ c.n ≤ c.leased.length ∨ ∃ g ∈ d.grants, g.token = tok then none
        else if c.Capped b.fileId then some (d.set i { c with candidates := rest })
        else
          match d.store.blocks.get b.id, d.store.claimBlock b.id tok c.now with
          | some row, some (leased, store) =>
            some { d.set i { c with
                candidates := rest
                perFile := Function.update c.perFile b.fileId (c.perFile b.fileId + 1)
                leased := c.leased ++ [leased] } with
              store, grants := ⟨tok, row, (d.store.files.get row.fileId).map (·.status), c.now⟩ :: d.grants }
          | _, _ => some (d.set i { c with candidates := rest })
    | none => none
  | .finish i =>
    match d.calls[i]? with
    | some c =>
      if c.status = .running ∧ (c.candidates = [] ∨ c.n ≤ c.leased.length) then
        some (d.set i { c with status := .returned })
      else none
    | none => none
  | .fail i =>
    match d.calls[i]? with
    | some c => if c.status = .running then some (d.set i { c with status := .failed }) else none
    | none => none

def initial (s : Store) : Leasing := ⟨s, [], []⟩

def Live (s : Store) (g : Grant) : Prop := ∃ b ∈ s.blocks, b.Held g.row.id g.token

inductive Step (d : Leasing) : Event → Leasing → Prop where
  | call (issued : op.Issued) (free : Reserved op = false) : Step d (.call op) { d with store := op.commit d.store }
  | select {candidates : List Block} (within : ∀ b ∈ candidates, b ∈ d.store.blockCandidates filter now) :
      Step d (.select n filter now)
      { d with calls := d.calls ++ [⟨n, filter, now, candidates, fun _ => 0, [], .running⟩] }
  | skip {c : LeaseCall} (here : d.calls[i]? = some c) (more : c.candidates = b :: rest) :
      Step d (.advance i tok) (d.set i { c with candidates := rest })
  | claim {c : LeaseCall} (here : d.calls[i]? = some c) (more : c.candidates = b :: rest) (running : c.status = .running)
      (room : c.leased.length < c.n)
      (fresh : ∀ g ∈ d.grants, g.token ≠ tok) (uncapped : ¬ c.Capped b.fileId)
      (found : d.store.blocks.get b.id = some row) (claimed : d.store.claimBlock b.id tok c.now = some (leased, after)) :
      Step d (.advance i tok) { d.set i { c with
          candidates := rest
          perFile := Function.update c.perFile b.fileId (c.perFile b.fileId + 1)
          leased := c.leased ++ [leased] } with
        store := after, grants := ⟨tok, row, (d.store.files.get row.fileId).map (·.status), c.now⟩ :: d.grants }
  | finish {c : LeaseCall} (here : d.calls[i]? = some c) (served : c.candidates = [] ∨ c.n ≤ c.leased.length) :
      Step d (.finish i) (d.set i { c with status := .returned })
  | fail {c : LeaseCall} (here : d.calls[i]? = some c) : Step d (.fail i) (d.set i { c with status := .failed })

theorem next_step {d d' : Leasing} (stepped : next d e = some d') : Step d e d' := by
  unfold next at stepped
  repeat' split at stepped
  all_goals cases stepped
  all_goals grind [Step]

/-- The rows of the candidates are of the same files as at the select, and still may be leased. -/
def Offered (s : Store) (c : LeaseCall) : Prop :=
  ∀ b ∈ c.candidates, ∀ row ∈ s.blocks, row.id = b.id → row.fileId = b.fileId ∧ Available c.now row.availableAt

structure Bounded (grants : List Grant) (c : LeaseCall) : Prop where
  room : c.leased.length ≤ c.n.toNat
  counts : ∀ file, c.leased.countP (·.fileId = file) = c.perFile file
  caps : ∀ file, ∀ cap ∈ c.filter.maxPerFile.lookup file, 0 < cap → c.perFile file ≤ cap
  granted : ∀ b ∈ c.leased, ∃ g ∈ grants, g.token = b.token ∧ g.row.id = b.id ∧ g.row.fileId = b.fileId

structure Inv (d : Leasing) : Prop where
  tokens : (d.grants.map (·.token)).Nodup
  facts : ∀ g ∈ d.grants, g.fileStatus = some .downloading ∧ Available g.now g.row.availableAt
  bounded : ∀ c ∈ d.calls, Bounded d.grants c
  offered : ∀ c ∈ d.calls, c.status = .running → Offered d.store c

def requeues : Operation → Option (BlockId × Time)
  | .requeueBlock block _ availableAt _ => some (block, availableAt)
  | _ => none

/-- No running call has a block among its candidates that is requeued for later than the clock reading of the call. -/
def Timely (d : Leasing) : Event → Prop
  | .call op => ∀ r ∈ requeues op, ∀ c ∈ d.calls, c.status = .running → ∀ b ∈ c.candidates, b.id = r.1 → r.2 ≤ c.now
  | _ => True

instance : Decidable (Timely d e) := by
  unfold Timely
  split <;> infer_instance

section
variable {d d' : Leasing}

theorem Offered.rows (offered : Offered s c)
    (rows : ∀ row' ∈ s'.blocks, ∃ row ∈ s.blocks, row'.id = row.id ∧ row'.fileId = row.fileId ∧
      (Available c.now row.availableAt → (∃ b ∈ c.candidates, b.id = row.id) → Available c.now row'.availableAt)) :
      Offered s' c := by
  intro b candidate row' stored' same
  obtain ⟨row, stored, id, file, available⟩ := rows row' stored'
  obtain ⟨place, ready⟩ := offered b candidate row stored (id.symm.trans same)
  exact ⟨file.trans place, available ready ⟨b, candidate, (id.symm.trans same).symm⟩⟩

theorem Offered.tail (offered : Offered s c) (more : c.candidates = b :: others) : Offered s { c with candidates := others } :=
  fun b' candidate => offered b' (more ▸ List.mem_cons_of_mem _ candidate)

theorem Bounded.cons (bounded : Bounded known c) : Bounded (g :: known) c where
  room := bounded.room
  counts := bounded.counts
  caps := bounded.caps
  granted b leased := by
    obtain ⟨g, member, same⟩ := bounded.granted b leased
    exact ⟨g, List.mem_cons_of_mem _ member, same⟩

theorem Inv.set (inv : Inv d) (bounded : Bounded d.grants c) (offered : c.status = .running → Offered d.store c) :
    Inv (d.set i c) where
  tokens := inv.tokens
  facts := inv.facts
  bounded c' member := by
    rcases List.mem_or_eq_of_mem_set member with before | rfl
    · exact inv.bounded c' before
    · exact bounded
  offered c' member := by
    rcases List.mem_or_eq_of_mem_set member with before | rfl
    · exact inv.offered c' before
    · exact offered

theorem inv_call {op : Operation} (inv : Inv d) (free : Reserved op = false) (timely : Timely d (.call op)) :
    Inv { d with store := op.commit d.store } := by
  refine { inv with offered := fun c member running => ?_ }
  have offered := inv.offered c member running
  rcases Operation.commit_cases d.store op with same | done
  · simp only [same]
    exact offered
  refine offered.rows fun row' stored' => ?_
  rcases (Operation.exec_evolution done).blocks.origin row' stored' with ⟨row, stored, changed⟩ | ⟨_, _, _, rfl, -⟩
  · refine ⟨row, stored, changed.id, changed.place.1, fun ready ⟨b, candidate, here⟩ => ?_⟩
    rcases changed.available with same | cleared | ⟨tok, availableAt, cause, rfl, later⟩
    · rwa [same]
    · rw [cleared]
      exact nofun
    · rw [later]
      rintro _ ⟨⟩
      exact timely _ rfl c member running b candidate here
  · cases free

theorem Bounded.claim (bounded : Bounded known c) (room : c.leased.length < c.n) (uncapped : ¬ c.Capped file)
    (place : leased.fileId = file)
    (granted : g.token = leased.token ∧ g.row.id = leased.id ∧ g.row.fileId = leased.fileId) :
    Bounded (g :: known) { c with
      candidates := others, perFile := Function.update c.perFile file (c.perFile file + 1), leased := c.leased ++ [leased] } where
  room := by
    simp only [List.length_append, List.length_singleton]
    omega
  counts other := by
    simp only [List.countP_append, List.countP_singleton, bounded.counts other]
    by_cases same : other = file
    · rw [same, Function.update_self, if_pos (by simpa using place)]
    · rw [Function.update_of_ne same, if_neg]
      · rfl
      · simpa [place] using fun here => same here.symm
  caps other cap limit positive := by
    simp only at limit ⊢
    by_cases same : other = file
    · subst same
      rw [Function.update_self]
      have below : ¬ cap ≤ c.perFile other := fun full => uncapped ⟨cap, limit, positive, full⟩
      omega
    · rw [Function.update_of_ne same]
      exact bounded.caps other cap limit positive
  granted b member := by
    rcases List.mem_append.mp member with before | new
    · exact bounded.cons.granted b before
    · rw [List.mem_singleton.mp new]
      exact ⟨g, List.mem_cons_self .., granted⟩

theorem inv_next (inv : Inv d) (timely : Timely d e) (stepped : next d e = some d') : Inv d' := by
  cases next_step stepped with
  | call issued free => exact inv_call inv free timely
  | @select filter now n candidates within =>
    refine { inv with bounded := fun c member => ?_, offered := fun c member running => ?_ }
    · rcases List.mem_append.mp member with before | new
      · exact inv.bounded c before
      · rw [List.mem_singleton.mp new]
        exact ⟨Nat.zero_le _, fun _ => rfl, fun _ cap _ positive => positive.le, fun _ leased => absurd leased List.not_mem_nil⟩
    · rcases List.mem_append.mp member with before | new
      · exact inv.offered c before running
      · rw [List.mem_singleton.mp new]
        intro b candidate row stored same
        obtain ⟨known, offer⟩ := List.mem_filter.mp ((List.mem_insertionSort _).mp (within b candidate))
        obtain rfl := Table.eq_of_key stored known same
        simp only [decide_eq_true_eq] at offer
        exact ⟨rfl, offer.2.1⟩
  | skip here more =>
    have member := List.mem_of_getElem? here
    have bounded := inv.bounded _ member
    exact inv.set ⟨bounded.room, bounded.counts, bounded.caps, bounded.granted⟩ fun running =>
      (inv.offered _ member running).tail more
  | @claim i b others tok row leased after c here more running room fresh uncapped found claimed =>
    have member := List.mem_of_getElem? here
    obtain ⟨stored, same⟩ := Table.get_eq_some.mp found
    obtain ⟨place, ready⟩ := inv.offered c member running b (more ▸ List.mem_cons_self ..) row stored same
    obtain ⟨row', stored', same', ⟨f, known, mine, downloading⟩, token, id, file, rows⟩ := Store.claimBlock_spec claimed
    obtain rfl := Table.eq_of_key stored stored' (same.trans same'.symm)
    have moved {call : LeaseCall} (offered : Offered d.store call) : Offered after call := by
      refine offered.rows fun b' stored' => ?_
      obtain ⟨b, before, id, file, at_⟩ := rows b' stored'
      exact ⟨b, before, id, file, fun ready _ => at_ ▸ ready⟩
    refine ⟨?_, ?_, ?_, ?_⟩
    · rw [List.map_cons, List.nodup_cons]
      refine ⟨fun used => ?_, inv.tokens⟩
      obtain ⟨g, known, equal⟩ := List.mem_map.mp used
      exact fresh g known equal
    · intro g granted
      rcases List.mem_cons.mp granted with rfl | before
      · refine ⟨?_, ready⟩
        rw [← mine, Table.get_eq_some.mpr ⟨known, rfl⟩, ← downloading]
        rfl
      · exact inv.facts g before
    · intro call listed
      rcases List.mem_or_eq_of_mem_set listed with before | rfl
      · exact (inv.bounded call before).cons
      · exact (inv.bounded c member).claim room uncapped (file.trans place) ⟨token.symm, same.trans id.symm, file.symm⟩
    · intro call listed runs
      rcases List.mem_or_eq_of_mem_set listed with before | rfl
      · exact moved (inv.offered call before runs)
      · exact moved ((inv.offered c member running).tail more)
  | finish here served =>
    have bounded := inv.bounded _ (List.mem_of_getElem? here)
    exact inv.set ⟨bounded.room, bounded.counts, bounded.caps, bounded.granted⟩ nofun
  | fail here =>
    have bounded := inv.bounded _ (List.mem_of_getElem? here)
    exact inv.set ⟨bounded.room, bounded.counts, bounded.caps, bounded.granted⟩ nofun

theorem inv_initial : Inv (initial s) :=
  ⟨List.nodup_nil, by simp [initial], by simp [initial], by simp [initial]⟩

/-- A block is under one live lease at most, a call returns no more than it may, and what it returns was claimed while
its file was being downloaded and the block was free to lease. -/
theorem leases_bounded (ran : run next (initial s) es = some d) (timely : Meets next Timely (initial s) es) :
    (∀ g ∈ d.grants, ∀ g' ∈ d.grants, g.row.id = g'.row.id → Live d.store g → Live d.store g' → g = g') ∧
    (∀ c ∈ d.calls, c.status = .returned → c.leased.length ≤ c.n.toNat ∧
      (∀ file, ∀ cap ∈ c.filter.maxPerFile.lookup file, 0 < cap → c.leased.countP (·.fileId = file) ≤ cap) ∧
      ∀ b ∈ c.leased, ∃ g ∈ d.grants, g.token = b.token ∧ g.row.id = b.id ∧ g.row.fileId = b.fileId) ∧
    ∀ g ∈ d.grants, g.fileStatus = some .downloading ∧ Available g.now g.row.availableAt := by
  have inv : Inv d := invariant_meeting inv_next inv_initial ran timely
  refine ⟨fun g known g' known' same live live' => ?_, fun c member _ => ?_, inv.facts⟩
  · obtain ⟨b, stored, held⟩ := live
    obtain ⟨b', stored', held'⟩ := live'
    obtain rfl := Table.eq_of_key stored stored' (held.1.trans (same.trans held'.1.symm))
    exact List.inj_on_of_nodup_map inv.tokens known known' (Option.some.inj (held.2.2.symm.trans held'.2.2))
  · have bounded := inv.bounded c member
    refine ⟨bounded.room, fun file cap limit positive => ?_, bounded.granted⟩
    rw [bounded.counts file]
    exact bounded.caps file cap limit positive

end

def twoBlocks : Store :=
  (run Operation.next (.empty "process")
    [.enqueueJob wholeRepo, .leaseMeta "list" 0, .setCommitSHA 1 "list" "sha",
      .completeListing 1 "list" [⟨"weights", 8, "oid", "", "", false⟩], .leaseFileForDownload 1 "file" 0,
      .replacePendingBlocks 1 "file" [⟨0, 0, 4⟩, ⟨1, 4, 4⟩]]).getD (.empty "process")

/-- Two calls select the same block; the second leases it, its worker hands it back with a backoff, and then the
first comes to it. -/
def overtaken : List Event :=
  [.select 1 ⟨[], []⟩ 0, .select 1 ⟨[], []⟩ 0, .advance 1 "second", .finish 1, .call (.requeueBlock 1 "second" 60 none),
    .advance 0 "first", .finish 0]

/-- The first call returns a block that is backed off. -/
theorem backoff_overtaken : ∃ d, run next (initial twoBlocks) overtaken = some d ∧
    (∃ c ∈ d.calls, c.status = .returned ∧ ∃ b ∈ c.leased, b.id = 1 ∧ b.token = "first" ∧ b.availableAt = some 60) ∧
      ∃ g ∈ d.grants, g.token = "first" ∧ g.row.id = 1 ∧ g.row.availableAt = some 60 ∧ g.now = 0 :=
  ⟨_, rfl, by decide +kernel, by decide +kernel⟩

/-- The second call takes the block that the first leaves to it. -/
def shared : List Event :=
  [.select 1 ⟨[], []⟩ 0, .select 3 ⟨[1], [(1, 1)]⟩ 0, .advance 0 "first", .advance 1 "second", .finish 0,
    .advance 1 "third", .finish 1]

def split : Leasing := (run next (initial twoBlocks) shared).getD (initial twoBlocks)

theorem leases_bounded_split : (∃ c ∈ split.calls, c.n = 3 ∧ c.leased.map (·.id) = [2]) ∧
    ∀ c ∈ split.calls, c.status = .returned → c.leased.length ≤ c.n.toNat := by
  have ran : run next (initial twoBlocks) shared = some split := rfl
  have timely : Meets next Timely (initial twoBlocks) shared := by decide +kernel
  exact ⟨by decide +kernel, fun c member returned => ((leases_bounded ran timely).2.1 c member returned).1⟩

end Leasing
end Hfdl
