import Hfdl.Fcio.Pool
import Hfdl.Indexed
import Mathlib.Data.List.Perm.Basic
import Mathlib.Data.List.Range

/-! The two readers of `ReadAll`: the loop over one buffer and the readahead pipeline
whose reads complete in any order. -/
namespace Hfdl
open Transition Indexed

structure ReadPlan (β : Type) where
  contents : List β
  media : FsType
  align : Nat
  slabs : Nat
  slabSize : Nat
  aligned : align ∣ 4096
  stocked : 0 < slabs
  whole : 4096 ∣ slabSize
  roomy : 0 < slabSize

namespace ReadPlan
variable {β : Type} (p : ReadPlan β)

def size : Nat := p.contents.length

def pipeline : Readahead := readAllDirect p.slabs p.slabSize (depthForFS p.media) p.align p.size

def bytes (off len : Nat) : List β := slice p.contents off (off + len)

def bufferSize : Nat := if p.slabSize < readChunkSize then p.slabSize else readChunkSize

end ReadPlan

structure BufferedReader (β : Type) where
  off : Nat
  phase : ReaderPhase (List β)
  delivered : List (Nat × List β)
  obtained : Nat
  released : List Nat

namespace BufferedReader
variable {β : Type}

inductive Event where
  | get
  | refused
  | cancelled
  | read (ok : Bool)
  | deliver (ok : Bool)
  | finish

def start : BufferedReader β := ⟨0, .running, [], 0, []⟩

def leave (s : BufferedReader β) (ok : Bool) : BufferedReader β :=
  { s with phase := .returned ok, released := s.released ++ [0] }

def step (p : ReadPlan β) (s : BufferedReader β) : Event → Option (BufferedReader β)
  | .get =>
    match s.phase with
    | .running => if s.obtained = 0 then some { s with obtained := 1 } else none
    | _ => none
  | .refused =>
    match s.phase with
    | .running => if s.obtained = 0 then some { s with phase := .returned false } else none
    | _ => none
  | .cancelled =>
    match s.phase with
    | .running => if s.obtained = 1 ∧ s.off < p.size then some (s.leave false) else none
    | _ => none
  | .read ok =>
    match s.phase with
    | .running =>
      if s.obtained = 1 ∧ s.off < p.size then
        match readChunk p.bytes s.off (min p.bufferSize (p.size - s.off)) ok with
        | none => some (s.leave false)
        | some bytes => some { s with phase := .delivering s.off bytes 0 }
      else none
    | _ => none
  | .deliver ok =>
    match s.phase with
    | .delivering off bytes _ =>
      let s' := { s with delivered := s.delivered ++ [(off, bytes)] }
      some (if ok then { s' with phase := .running, off := s.off + bytes.length } else s'.leave false)
    | _ => none
  | .finish =>
    match s.phase with
    | .running => if s.obtained = 1 ∧ p.size ≤ s.off then some (s.leave true) else none
    | _ => none

end BufferedReader

/-- Chunks that follow each other from an offset to another, each with the file's bytes. -/
def Tiles (contents : List β) : Nat → List (Nat × List β) → Nat → Prop
  | a, [], e => a = e
  | a, (off, bytes) :: rest, e =>
    off = a ∧ bytes ≠ [] ∧ bytes = slice contents a (a + bytes.length) ∧ a + bytes.length ≤ contents.length ∧
      Tiles contents (a + bytes.length) rest e

section Tiles
variable {β : Type} {contents : List β}

theorem tiles_concat (tiles : Tiles contents a chunks e) (filled : bytes ≠ [])
    (same : bytes = slice contents e (e + bytes.length))
    (fits : e + bytes.length ≤ contents.length) : Tiles contents a (chunks ++ [(e, bytes)]) (e + bytes.length) := by
  induction chunks generalizing a with
  | nil =>
    cases tiles
    exact ⟨rfl, filled, same, fits, rfl⟩
  | cons chunk chunks ih =>
    obtain ⟨here, some, bytes, inside, rest⟩ := tiles
    exact ⟨here, some, bytes, inside, ih rest⟩

theorem tiles_le (tiles : Tiles contents a chunks e) : a ≤ e := by
  induction chunks generalizing a with
  | nil => exact Nat.le_of_eq tiles
  | cons chunk chunks ih => exact Nat.le_trans (Nat.le_add_right _ _) (ih tiles.2.2.2.2)

theorem tiles_bytes (tiles : Tiles contents a chunks e) : (chunks.map Prod.snd).flatten = slice contents a e := by
  induction chunks generalizing a with
  | nil =>
    cases tiles
    exact (slice_empty (Nat.le_refl _)).symm
  | cons chunk chunks ih =>
    obtain ⟨_, _, same, _, rest⟩ := tiles
    rw [List.map_cons, List.flatten_cons, ih rest]
    have front := congrArg (· ++ slice contents (a + chunk.2.length) e) same
    exact front.trans (slice_append (Nat.le_add_right _ _) (tiles_le rest))

end Tiles

namespace ReadPlan
variable {β : Type} (p : ReadPlan β)

@[simp] theorem size_pipeline : p.pipeline.size = p.size := rfl

theorem align_pos : 0 < p.align := Nat.pos_of_dvd_of_pos p.aligned (by decide)

theorem chunk_aligned : p.align ∣ p.pipeline.chunk := by
  simp only [pipeline, readAllDirect]
  split <;> exact Nat.dvd_mul_left _ _

theorem chunk_pos : 0 < p.pipeline.chunk := by
  have positive := p.align_pos
  have small : p.align ≤ 4096 := Nat.le_of_dvd (by decide) p.aligned
  have slab : 4096 ≤ p.slabSize := Nat.le_of_dvd p.roomy p.whole
  simp only [pipeline, readAllDirect]
  split
  · exact Nat.mul_pos (Nat.div_pos (by omega) positive) positive
  · exact Nat.mul_pos (Nat.div_pos (by unfold readChunkSize; omega) positive) positive

theorem bufferSize_pos : 0 < p.bufferSize := by
  have roomy := p.roomy
  unfold bufferSize readChunkSize
  split <;> omega

end ReadPlan

theorem slice_full {contents : List β} (fits : off + len ≤ contents.length) : (slice contents off (off + len)).length = len := by
  rw [length_slice]
  omega

namespace DirectReader
variable {β : Type} {p : ReadPlan β} {s t : DirectReader (List β)}

def InRow : Nat → List (ChunkRead (List β)) → Nat → Prop
  | a, [], e => a = e
  | a, o :: rest, e => o.off = a ∧ InRow (a + o.len) rest e

theorem inRow_concat (row : InRow a os o.off) : InRow a (os ++ [o]) (o.off + o.len) := by
  induction os generalizing a with
  | nil =>
    cases row
    exact ⟨rfl, rfl⟩
  | cons first os ih => exact ⟨row.1, ih row.2⟩

theorem inRow_set (row : InRow a os e) (found : os[k]? = some o) (p : ReadPlan β) (ok : Bool) :
    InRow a (os.set k (complete p.bytes ok o)) e := by
  induction os generalizing a k with
  | nil => cases found
  | cons first os ih =>
    cases k with
    | zero =>
      cases found
      exact row
    | succ k => exact ⟨row.1, ih row.2 found⟩

/-- A read within the file that can only end with the file's bytes. -/
structure Issued (p : ReadPlan β) (o : ChunkRead (List β)) : Prop where
  filled : 0 < o.len
  fits : o.off + o.len ≤ p.size
  bytes : ∀ b, o.result = some (some b) → b = slice p.contents o.off (o.off + o.len)

/-- How far the chunks were delivered, against what is in flight. -/
def Ahead (p : ReadPlan β) (s : DirectReader (List β)) (a : Nat) : Prop :=
  match s.phase with
  | .running => InRow a s.inflight s.next
  | .delivering off bytes _ =>
    off = a ∧ bytes ≠ [] ∧ bytes = slice p.contents a (a + bytes.length) ∧ a + bytes.length ≤ p.size ∧
      InRow (a + bytes.length) s.inflight s.next
  | .draining => True
  | .returned ok => s.inflight = [] ∧ (ok = true → a = p.size)

def lent (s : DirectReader (List β)) : List Nat :=
  match s.phase with
  | .delivering _ _ slab => [slab]
  | _ => []

structure Inv (p : ReadPlan β) (s : DirectReader (List β)) : Prop where
  tiled : ∃ a, Tiles p.contents 0 s.delivered a ∧ s.Ahead p a
  issued : ∀ o ∈ s.inflight, Issued p o
  within : s.next ≤ p.size
  cursor : s.next < p.size → p.align ∣ s.next
  reads : ∀ o ∈ s.reads, o.direct = true → p.align ∣ o.off ∧ p.align ∣ o.len
  slabs : (s.released ++ s.lent ++ s.inflight.map ChunkRead.slab).Perm (List.range s.obtained)

theorem issued_issue (s : DirectReader (List β)) (wants : s.wants p.pipeline = true) : Issued p (s.issue p.pipeline) := by
  have more : s.next < p.size := by simp only [DirectReader.wants, Bool.and_eq_true, decide_eq_true_eq] at wants; exact wants.1
  have positive := p.chunk_pos
  refine ⟨?_, ?_, ?_⟩
  · simp only [issue, ReadPlan.size_pipeline]
    omega
  · simp only [issue, ReadPlan.size_pipeline]
    omega
  · intro b never
    cases never

theorem cursor_issue (cursor : p.align ∣ s.next) (more : s.next + (s.issue p.pipeline).len < p.size) :
    p.align ∣ s.next + (s.issue p.pipeline).len := by
  have len : (s.issue p.pipeline).len = p.pipeline.chunk := by
    simp only [issue, ReadPlan.size_pipeline] at more ⊢
    omega
  rw [len]
  exact Nat.dvd_add cursor p.chunk_aligned

theorem aligned_issue (cursor : p.align ∣ s.next) (more : s.next < p.size) (direct : (s.issue p.pipeline).direct = true) :
    p.align ∣ (s.issue p.pipeline).off ∧ p.align ∣ (s.issue p.pipeline).len := by
  refine ⟨cursor, ?_⟩
  simp only [issue, decide_eq_true_eq] at direct ⊢
  simp only [ReadPlan.size_pipeline] at direct ⊢
  rcases Nat.le_total p.pipeline.chunk (p.size - s.next) with whole | last
  · rw [Nat.min_eq_left whole]
    exact p.chunk_aligned
  · rw [Nat.min_eq_right last] at direct ⊢
    have end_ : s.next + (p.size - s.next) = p.size := by omega
    rw [end_] at direct
    have body : p.size / p.align * p.align = p.size := Nat.le_antisymm (Nat.div_mul_le_self _ _) direct
    have size : p.align ∣ p.size := body ▸ Nat.dvd_mul_left _ _
    exact Nat.dvd_sub size cursor

theorem Inv.get (inv : Inv p s) (running : s.phase = .running) (wants : s.wants p.pipeline = true) :
    Inv p { s with
      next := s.next + (s.issue p.pipeline).len, inflight := s.inflight ++ [s.issue p.pipeline]
      obtained := s.obtained + 1, reads := s.reads ++ [s.issue p.pipeline] } := by
  have more : s.next < p.size := by simp only [DirectReader.wants, Bool.and_eq_true, decide_eq_true_eq] at wants; exact wants.1
  have issued := issued_issue s wants
  obtain ⟨a, tiles, ahead⟩ := inv.tiled
  refine ⟨⟨a, tiles, ?_⟩, ?_, issued.fits, cursor_issue (inv.cursor more), ?_, ?_⟩
  · simp only [Ahead, running] at ahead ⊢
    exact inRow_concat (o := s.issue p.pipeline) ahead
  · intro o member
    rcases List.mem_append.mp member with before | new
    · exact inv.issued o before
    · rwa [List.mem_singleton.mp new]
  · intro o member direct
    rcases List.mem_append.mp member with before | new
    · exact inv.reads o before direct
    · rw [List.mem_singleton.mp new] at direct ⊢
      exact aligned_issue (inv.cursor more) more direct
  · have slabs := inv.slabs
    simp only [lent, running, List.append_nil, List.map_append, List.map_cons, List.map_nil, List.range_succ] at slabs ⊢
    rw [← List.append_assoc]
    exact slabs.append (List.Perm.refl _)

theorem Inv.stopped (inv : Inv p s) (running : s.phase = .running) : Inv p { s with phase := .draining } := by
  obtain ⟨a, tiles, _⟩ := inv.tiled
  refine { inv with tiled := ⟨a, tiles, trivial⟩, slabs := ?_ }
  have slabs := inv.slabs
  simpa only [lent, running] using slabs

theorem map_slab_set {os : List (ChunkRead (List β))} {k : Nat} (found : os[k]? = some o) (p : ReadPlan β) (ok : Bool) :
    (os.set k (complete p.bytes ok o)).map ChunkRead.slab = os.map ChunkRead.slab := by
  induction os generalizing k with
  | nil => rfl
  | cons first os ih =>
    cases k with
    | zero =>
      cases found
      rfl
    | succ k => exact congrArg (first.slab :: ·) (ih found)

theorem Inv.read (inv : Inv p s) (found : s.inflight[k]? = some o) :
    Inv p { s with inflight := s.inflight.set k (complete p.bytes ok o) } := by
  have before := inv.issued o (List.mem_of_getElem? found)
  obtain ⟨a, tiles, ahead⟩ := inv.tiled
  refine { inv with tiled := ⟨a, tiles, ?_⟩, issued := ?_, slabs := ?_ }
  · unfold Ahead at ahead ⊢
    cases phase : s.phase with
    | running =>
      simp only [phase] at ahead ⊢
      exact inRow_set ahead found p ok
    | delivering off bytes slab =>
      simp only [phase] at ahead ⊢
      obtain ⟨here, filled, same, fits, row⟩ := ahead
      exact ⟨here, filled, same, fits, inRow_set row found p ok⟩
    | draining => trivial
    | returned done =>
      simp only [phase] at ahead ⊢
      rw [ahead.1] at found
      cases found
  · intro o' member
    rcases List.mem_or_eq_of_mem_set member with old | rfl
    · exact inv.issued o' old
    · refine ⟨before.filled, before.fits, ?_⟩
      intro b result
      simp only [complete, readChunk, Option.some.injEq] at result
      split at result
      · cases result
        rfl
      · cases result
  · show (s.released ++ s.lent ++ (s.inflight.set k (complete p.bytes ok o)).map ChunkRead.slab).Perm _
    rw [map_slab_set found p ok]
    exact inv.slabs

theorem Inv.take (inv : Inv p s) (running : s.phase = .running) (first : s.inflight = o :: rest)
    (done : o.result = some (some bytes)) : Inv p { s with inflight := rest, phase := .delivering o.off bytes o.slab } := by
  have issued := inv.issued o (by rw [first]; exact List.mem_cons_self)
  have same := issued.bytes bytes done
  have length : bytes.length = o.len := by rw [same, slice_full issued.fits]
  obtain ⟨a, tiles, ahead⟩ := inv.tiled
  simp only [Ahead, running, first] at ahead
  obtain ⟨rfl, row⟩ := ahead
  refine { inv with tiled := ⟨o.off, tiles, rfl, ?_, ?_, ?_, ?_⟩, issued := ?_, slabs := ?_ }
  · exact List.ne_nil_of_length_pos (length ▸ issued.filled)
  · rw [length]
    exact same
  · rw [length]
    exact issued.fits
  · rw [length]
    exact row
  · exact fun o' member => inv.issued o' (by rw [first]; exact List.mem_cons_of_mem _ member)
  · have slabs := inv.slabs
    simpa only [lent, running, first, List.append_nil, List.map_cons, List.append_assoc, List.singleton_append] using slabs

theorem Inv.failed (inv : Inv p s) (running : s.phase = .running) (first : s.inflight = o :: rest) :
    Inv p { s with inflight := rest, phase := .draining, released := s.released ++ [o.slab] } := by
  obtain ⟨a, tiles, _⟩ := inv.tiled
  refine { inv with tiled := ⟨a, tiles, trivial⟩, issued := ?_, slabs := ?_ }
  · exact fun o' member => inv.issued o' (by rw [first]; exact List.mem_cons_of_mem _ member)
  · have slabs := inv.slabs
    simpa only [lent, running, first, List.append_nil, List.map_cons, List.append_assoc, List.singleton_append] using slabs

theorem Inv.deliver {ok : Bool} (inv : Inv p s) (delivering : s.phase = .delivering off bytes slab) :
    Inv p { s with
      phase := if ok then .running else .draining
      delivered := s.delivered ++ [(off, bytes)], released := s.released ++ [slab] } := by
  obtain ⟨a, tiles, ahead⟩ := inv.tiled
  simp only [Ahead, delivering] at ahead
  obtain ⟨rfl, filled, same, fits, row⟩ := ahead
  refine { inv with tiled := ⟨off + bytes.length, tiles_concat tiles filled same fits, ?_⟩, slabs := ?_ }
  · unfold Ahead
    cases ok with
    | true => exact row
    | false => trivial
  · have slabs := inv.slabs
    simp only [lent, delivering] at slabs
    cases ok with
    | true => simpa [lent] using slabs
    | false => simpa [lent] using slabs

theorem Inv.drain (inv : Inv p s) (draining : s.phase = .draining) (first : s.inflight = o :: rest) :
    Inv p { s with inflight := rest, released := s.released ++ [o.slab] } := by
  obtain ⟨a, tiles, _⟩ := inv.tiled
  refine { inv with tiled := ⟨a, tiles, by simp only [Ahead, draining]⟩, issued := ?_, slabs := ?_ }
  · exact fun o' member => inv.issued o' (by rw [first]; exact List.mem_cons_of_mem _ member)
  · have slabs := inv.slabs
    simpa only [lent, draining, first, List.append_nil, List.map_cons, List.append_assoc, List.singleton_append] using slabs

theorem inv_step (inv : Inv p s) (stepped : s.step p.pipeline p.bytes e = some t) : Inv p t := by
  cases step_cases stepped with
  | get running wants => exact inv.get running wants
  | stopped running => exact inv.stopped running
  | read found => exact inv.read found
  | take running first done => exact inv.take running first done
  | failed running first => exact inv.failed running first
  | deliver delivering => exact inv.deliver delivering
  | drain draining first => exact inv.drain draining first
  | ended draining none =>
    obtain ⟨a, tiles, _⟩ := inv.tiled
    refine { inv with tiled := ⟨a, tiles, none, fun never => by cases never⟩, slabs := ?_ }
    have slabs := inv.slabs
    simpa only [lent, draining] using slabs
  | finish running none past =>
    obtain ⟨a, tiles, ahead⟩ := inv.tiled
    simp only [Ahead, running, none] at ahead
    have end_ : a = p.size := ahead.trans (Nat.le_antisymm inv.within past)
    refine { inv with tiled := ⟨a, tiles, none, fun _ => end_⟩, slabs := ?_ }
    have slabs := inv.slabs
    simpa only [lent, running] using slabs

theorem inv_start : Inv p start where
  tiled := ⟨0, rfl, rfl⟩
  issued := by simp [start]
  within := Nat.zero_le _
  cursor := fun _ => Nat.dvd_zero _
  reads := by simp [start]
  slabs := by simp [start, lent]

theorem Inv.settled (inv : Inv p s) (returned : s.phase = .returned ok) : s.released.Perm (List.range s.obtained) := by
  obtain ⟨_, _, ahead⟩ := inv.tiled
  simp only [Ahead, returned] at ahead
  have slabs := inv.slabs
  simpa only [lent, returned, ahead.1, List.map_nil, List.append_nil] using slabs

theorem Inv.whole (inv : Inv p s) (returned : s.phase = .returned true) : Tiles p.contents 0 s.delivered p.size := by
  obtain ⟨a, tiles, ahead⟩ := inv.tiled
  simp only [Ahead, returned] at ahead
  rwa [ahead.2 trivial] at tiles

end DirectReader

namespace BufferedReader
variable {β : Type} {p : ReadPlan β} {s t : BufferedReader β}

/-- What one step of the loop can be. -/
inductive Step (p : ReadPlan β) (s : BufferedReader β) : BufferedReader β → Prop where
  | get (running : s.phase = .running) (none : s.obtained = 0) : Step p s { s with obtained := 1 }
  | refused (running : s.phase = .running) (none : s.obtained = 0) : Step p s { s with phase := .returned false }
  | stopped (running : s.phase = .running) (held : s.obtained = 1) : Step p s (s.leave false)
  | read (running : s.phase = .running) (held : s.obtained = 1) (more : s.off < p.size)
      (bytes : readChunk p.bytes s.off (min p.bufferSize (p.size - s.off)) ok = some b) :
      Step p s { s with phase := .delivering s.off b 0 }
  | deliver (delivering : s.phase = .delivering o b slab) :
      Step p s { s with delivered := s.delivered ++ [(o, b)], phase := .running, off := s.off + b.length }
  | rejected (delivering : s.phase = .delivering o b slab) :
      Step p s (leave { s with delivered := s.delivered ++ [(o, b)] } false)
  | finish (running : s.phase = .running) (held : s.obtained = 1) (past : p.size ≤ s.off) : Step p s (s.leave true)

theorem step_cases (stepped : s.step p e = some t) : Step p s t := by
  unfold step at stepped
  repeat' split at stepped
  all_goals grind [Step]

/-- How far the chunks were delivered, and the slab of the loop. -/
def At (p : ReadPlan β) (s : BufferedReader β) (a : Nat) : Prop :=
  match s.phase with
  | .running => s.off = a ∧ a ≤ p.size ∧ s.obtained ≤ 1 ∧ s.released = []
  | .delivering off b _ =>
    s.off = a ∧ off = a ∧ b ≠ [] ∧ b = slice p.contents a (a + b.length) ∧ a + b.length ≤ p.size ∧ s.obtained = 1 ∧
      s.released = []
  | .draining => False
  | .returned ok => (ok = true → a = p.size) ∧ s.released = List.range s.obtained

def Inv (p : ReadPlan β) (s : BufferedReader β) : Prop := ∃ a, Tiles p.contents 0 s.delivered a ∧ s.At p a

theorem at_leave (held : s.obtained = 1) (kept : s.released = []) (whole : ok = true → a = p.size) : (s.leave ok).At p a := by
  refine ⟨whole, ?_⟩
  show s.released ++ [0] = List.range s.obtained
  rw [kept, held]
  rfl

/-- A full read of the loop is a chunk of the file at the loop's offset. -/
theorem readChunk_some (more : a < p.size) (bytes : readChunk p.bytes a (min p.bufferSize (p.size - a)) ok = some b) :
    b ≠ [] ∧ b = slice p.contents a (a + b.length) ∧ a + b.length ≤ p.size := by
  have positive := p.bufferSize_pos
  have fits : a + min p.bufferSize (p.size - a) ≤ p.size := by omega
  simp only [readChunk, Option.ite_none_right_eq_some, Option.some.injEq] at bytes
  have length : b.length = min p.bufferSize (p.size - a) := by rw [← bytes.2, ReadPlan.bytes, slice_full fits]
  refine ⟨List.ne_nil_of_length_pos (by omega), ?_, by omega⟩
  rw [length]
  exact bytes.2.symm

theorem inv_step (inv : Inv p s) (stepped : s.step p e = some t) : Inv p t := by
  obtain ⟨a, tiles, at_⟩ := inv
  cases step_cases stepped with
  | get running none =>
    simp only [At, running] at at_
    refine ⟨a, tiles, ?_⟩
    simp only [At, running]
    exact ⟨at_.1, at_.2.1, Nat.le_refl _, at_.2.2.2⟩
  | refused running none =>
    simp only [At, running] at at_
    exact ⟨a, tiles, (fun never => by cases never), by rw [at_.2.2.2, none]; rfl⟩
  | stopped running held =>
    simp only [At, running] at at_
    exact ⟨a, tiles, at_leave held at_.2.2.2 (fun never => by cases never)⟩
  | read running held more bytes =>
    simp only [At, running] at at_
    obtain ⟨rfl, _, _, kept⟩ := at_
    obtain ⟨filled, same, fits⟩ := readChunk_some more bytes
    exact ⟨s.off, tiles, rfl, rfl, filled, same, fits, held, kept⟩
  | deliver delivering =>
    simp only [At, delivering] at at_
    obtain ⟨rfl, rfl, filled, same, fits, held, kept⟩ := at_
    exact ⟨_, tiles_concat tiles filled same fits, rfl, fits, Nat.le_of_eq held, kept⟩
  | rejected delivering =>
    simp only [At, delivering] at at_
    obtain ⟨rfl, rfl, filled, same, fits, held, kept⟩ := at_
    exact ⟨_, tiles_concat tiles filled same fits, at_leave held kept (fun never => by cases never)⟩
  | finish running held past =>
    simp only [At, running] at at_
    obtain ⟨rfl, within, _, kept⟩ := at_
    exact ⟨s.off, tiles, at_leave held kept (fun _ => Nat.le_antisymm within past)⟩

theorem inv_start : Inv p start := ⟨0, rfl, rfl, Nat.zero_le _, Nat.zero_le _, rfl⟩

theorem Inv.settled (inv : Inv p s) (returned : s.phase = .returned ok) : s.released.Perm (List.range s.obtained) := by
  obtain ⟨_, _, at_⟩ := inv
  simp only [At, returned] at at_
  rw [at_.2]

theorem Inv.whole (inv : Inv p s) (returned : s.phase = .returned true) : Tiles p.contents 0 s.delivered p.size := by
  obtain ⟨a, tiles, at_⟩ := inv
  simp only [At, returned] at at_
  rwa [at_.1 trivial] at tiles

end BufferedReader

def bytesOf (chunks : List (Nat × List β)) : List β := (chunks.map Prod.snd).flatten

theorem bytesOf_whole {p : ReadPlan β} (tiles : Tiles p.contents 0 chunks p.size) : bytesOf chunks = p.contents := by
  rw [bytesOf, tiles_bytes tiles]
  simp [slice, ReadPlan.size]

/-- The chunks a `ReadAll` that succeeds gives its callback. How far it reads is the length of the file itself. -/
inductive ReadsAll (contents : List β) : List (Nat × List β) → Prop
  | empty (nothing : contents = []) : ReadsAll contents []
  | direct (p : ReadPlan β) (same : p.contents = contents)
      (ran : run (DirectReader.step p.pipeline p.bytes) DirectReader.start es = some s)
      (returned : s.phase = .returned true) : ReadsAll contents s.delivered
  | buffered (p : ReadPlan β) (same : p.contents = contents) (ran : run (BufferedReader.step p) BufferedReader.start es = some s)
      (returned : s.phase = .returned true) : ReadsAll contents s.delivered

theorem ReadsAll.bytes (reads : ReadsAll contents chunks) : bytesOf chunks = contents := by
  cases reads with
  | empty nothing => exact nothing.symm
  | direct p same ran returned =>
    have inv : DirectReader.Inv p _ := invariant DirectReader.inv_step DirectReader.inv_start ran
    exact (bytesOf_whole (inv.whole returned)).trans same
  | buffered p same ran returned =>
    have inv : BufferedReader.Inv p _ := invariant BufferedReader.inv_step BufferedReader.inv_start ran
    exact (bytesOf_whole (inv.whole returned)).trans same

/-- Whatever order the reads complete in, a pipeline that succeeds gives its callback the file in chunks that follow each
other, and so does the loop; direct reads are aligned, and a reader that returns has released what it obtained, once. -/
theorem readAll_agree (p : ReadPlan β) (direct : run (DirectReader.step p.pipeline p.bytes) DirectReader.start ds = some d)
    (buffered : run (BufferedReader.step p) BufferedReader.start bs = some b) :
    (d.phase = .returned true → Tiles p.contents 0 d.delivered p.size) ∧
      (b.phase = .returned true → Tiles p.contents 0 b.delivered p.size) ∧
      (d.phase = .returned true → b.phase = .returned true →
        bytesOf d.delivered = p.contents ∧ bytesOf b.delivered = bytesOf d.delivered) ∧
      (∀ o ∈ d.reads, o.direct = true → p.align ∣ o.off ∧ p.align ∣ o.len) ∧
      (∀ ok, d.phase = .returned ok → d.released.Perm (List.range d.obtained)) ∧
      ∀ ok, b.phase = .returned ok → b.released.Perm (List.range b.obtained) := by
  have piped : DirectReader.Inv p d := invariant DirectReader.inv_step DirectReader.inv_start direct
  have looped : BufferedReader.Inv p b := invariant BufferedReader.inv_step BufferedReader.inv_start buffered
  refine ⟨piped.whole, looped.whole, ?_, piped.reads, fun _ => piped.settled, fun _ => looped.settled⟩
  intro returned returned'
  have bytes := bytesOf_whole (piped.whole returned)
  exact ⟨bytes, (bytesOf_whole (looped.whole returned')).trans bytes.symm⟩

def slabAndOne : ReadPlan Bool where
  contents := List.replicate 4096 false ++ [true]
  media := .ssd
  align := 512
  slabs := 2
  slabSize := 4096
  aligned := by decide
  stocked := by decide
  whole := by decide
  roomy := by decide

/-- The tail's read completes before the body's. -/
theorem readAll_agree_reordered :
    ∃ d b, run (DirectReader.step slabAndOne.pipeline slabAndOne.bytes) DirectReader.start
          [.get, .get, .read 1 true, .read 0 true, .take, .deliver true, .take, .deliver true, .finish] = some d ∧
        run (BufferedReader.step slabAndOne) BufferedReader.start
          [.get, .read true, .deliver true, .read true, .deliver true, .finish] = some b ∧
        bytesOf d.delivered = slabAndOne.contents ∧ bytesOf b.delivered = bytesOf d.delivered ∧
        d.released.Perm (List.range d.obtained) ∧ b.released.Perm (List.range b.obtained) := by
  have piped : (run (DirectReader.step slabAndOne.pipeline slabAndOne.bytes) DirectReader.start
      [.get, .get, .read 1 true, .read 0 true, .take, .deliver true, .take, .deliver true, .finish]).map DirectReader.phase =
      some (.returned true) := by decide +kernel
  have looped : (run (BufferedReader.step slabAndOne) BufferedReader.start
      [.get, .read true, .deliver true, .read true, .deliver true, .finish]).map BufferedReader.phase =
      some (.returned true) := by decide +kernel
  obtain ⟨d, direct, returned⟩ := Option.map_eq_some_iff.mp piped
  obtain ⟨b, buffered, returned'⟩ := Option.map_eq_some_iff.mp looped
  obtain ⟨_, _, bytes, _, slabs, slabs'⟩ := readAll_agree slabAndOne direct buffered
  exact ⟨d, b, direct, buffered, (bytes returned returned').1, (bytes returned returned').2, slabs _ returned, slabs' _ returned'⟩

end Hfdl
