import Hfdl.Store.Model
import Mathlib.Data.List.Sort

/-! Block methods of the store: the claim loop of `LeaseBlocks`, requeueing with a
durable backoff and completion. -/
namespace Hfdl
open Relational

/-- The `WHERE` clause of a block mutation fenced by its own token. -/
def Block.Held (id : BlockId) (tok : LeaseToken) (b : Block) : Prop :=
  b.id = id ∧ b.status = .active ∧ b.leaseToken = some tok
deriving Decidable

/-- No file ids means the whole download set; a missing or non-positive cap is no cap. -/
structure BlockFilter where
  fileIds : List FileId
  maxPerFile : List (FileId × Int)
deriving DecidableEq, Repr

structure LeasedBlock extends Block where
  token : LeaseToken
deriving DecidableEq, Repr

namespace Store

def Downloading (s : Store) (file : FileId) : Prop := ∃ f ∈ s.files, f.id = file ∧ f.status = .downloading
deriving Decidable

/-- The candidate `SELECT` of `LeaseBlocks`, `ORDER BY file_id, idx`. -/
def blockCandidates (s : Store) (filter : BlockFilter) (now : Time) : List Block :=
  (s.blocks.rows.filter fun b => b.status = .pending ∧ Available now b.availableAt ∧ s.Downloading b.fileId ∧
    (filter.fileIds = [] ∨ b.fileId ∈ filter.fileIds)).insertionSort
    fun a b => a.fileId < b.fileId ∨ a.fileId = b.fileId ∧ a.idx ≤ b.idx

/-- The self-guarding claim of one candidate; no result when a racer took it. -/
def claimBlock (s : Store) (block : BlockId) (tok : LeaseToken) (now : Time) : Option (LeasedBlock × Store) :=
  match s.blocks.get block with
  | none => none
  | some b =>
    if b.status = .pending ∧ s.Downloading b.fileId then
      let set : Setter Block.id := ⟨fun b => { b with toLease := .claim s.owner tok now, status := .active }, fun _ => rfl⟩
      some (⟨set b, tok⟩, { s with blocks := s.blocks.update (·.id = block) set })
    else none

/-- The file of the candidate has reached its cap within this call. -/
def Capped (filter : BlockFilter) (leased : List LeasedBlock) (file : FileId) : Prop :=
  ∃ cap ∈ filter.maxPerFile.lookup file, 0 < cap ∧ cap ≤ leased.countP fun b => b.fileId = file
deriving Decidable

/-- The claim loop; candidate number `i` is offered the `i`-th generated token. -/
def claimBlocks (n : Nat) (filter : BlockFilter) (now : Time) :
    List (Block × LeaseToken) → Store → List LeasedBlock → List LeasedBlock × Store
  | [], s, leased => (leased, s)
  | (c, tok) :: rest, s, leased =>
    if n ≤ leased.length then (leased, s)
    else if Capped filter leased c.fileId then claimBlocks n filter now rest s leased
    else match s.claimBlock c.id tok now with
      | none => claimBlocks n filter now rest s leased
      | some (b, s) => claimBlocks n filter now rest s (leased ++ [b])

def leaseBlocks (s : Store) (n : Nat) (filter : BlockFilter) (toks : Nat → LeaseToken) (now : Time) :
    List LeasedBlock × Store :=
  claimBlocks n filter now ((s.blockCandidates filter now).mapIdx fun i b => (b, toks i)) s []

/-- A block update fenced by its token. -/
def guardBlock (s : Store) (op : String) (id : BlockId) (tok : LeaseToken) (set : Setter Block.id) : Except StoreError Store :=
  (execGuarded op id s.blocks (Block.Held id tok) set).map fun blocks => { s with blocks }

theorem guardBlock_ok {s s' : Store} {id : BlockId} {set : Setter Block.id} :
    s.guardBlock op id tok set = .ok s' ↔
      (∃ b ∈ s.blocks, b.Held id tok) ∧ s' = { s with blocks := s.blocks.update (Block.Held id tok) set } :=
  execGuarded_committed fun _ held => held.1

theorem guardBlock_fenced {s : Store} {id : BlockId} {set : Setter Block.id}
    (unheld : ∀ b ∈ s.blocks, ¬ b.Held id tok) :
    s.guardBlock op id tok set = .error (.fenced op id) :=
  map_eq_error.mpr (execGuarded_fenced unheld)

/-- Returns the incremented retry count. -/
def requeueBlock (s : Store) (block : BlockId) (tok : LeaseToken) (availableAt : Time) (cause : Option String) :
    Except StoreError (Nat × Store) :=
  (s.guardBlock "requeue block" block tok
    ⟨fun b => { b with
      toLease := .cleared, status := .pending, availableAt := some availableAt, retries := b.retries + 1
      lastError := cause }, fun _ => rfl⟩).map
    fun s => ((s.blocks.get block).elim 0 (·.retries), s)

theorem requeueBlock_ok {s s' : Store} (done : s.requeueBlock block tok availableAt cause = .ok (n, s')) :
    (∃ b ∈ s.blocks, b.Held block tok ∧ n = b.retries + 1) ∧
      ∀ b' ∈ s'.blocks, b' ∈ s.blocks ∨ ∃ b ∈ s.blocks, b.Held block tok ∧ b'.id = block ∧ b'.retries = b.retries + 1 := by
  obtain ⟨after, guarded, same⟩ := map_eq_ok.mp done
  cases same
  obtain ⟨⟨b, stored, held⟩, rfl⟩ := guardBlock_ok.mp guarded
  constructor
  · refine ⟨b, stored, held, ?_⟩
    rw [← held.1, Table.get_update stored ⟨rfl, held.2⟩]
    rfl
  · intro b' stored'
    obtain ⟨old, before, rfl⟩ := Table.mem_update.mp stored'
    split
    · rename_i mine
      exact .inr ⟨old, before, mine, mine.1, rfl⟩
    · exact .inl before

/-- Also reports whether the last unfinished block of the file is now done. -/
def completeBlock (s : Store) (block : BlockId) (tok : LeaseToken) : Except StoreError (Bool × Store) :=
  (s.guardBlock "complete block" block tok ⟨fun b => { b with toLease := .cleared, status := .done }, fun _ => rfl⟩).map
    fun s => (s.blocks.count (fun b => (s.blocks.get block).map (·.fileId) = some b.fileId ∧ b.status ≠ .done) = 0, s)

theorem completeBlock_files {s s' : Store} (done : s.completeBlock block tok = .ok (last, s')) : s'.files = s.files := by
  obtain ⟨_, guarded, same⟩ := map_eq_ok.mp done
  cases same
  obtain ⟨-, rfl⟩ := guardBlock_ok.mp guarded
  rfl

end Store
end Hfdl
