import Hfdl.Fcio.Volume
import Mathlib.Algebra.GroupWithZero.Nat
import Mathlib.Algebra.Order.BigOperators.Group.List
import Mathlib.Algebra.Order.Group.Nat

/-! The readahead pipeline of `readAllDirect`, and pipelines that share one pool of slabs. A
pipeline takes one slab for every read it has in flight and asks for the next one while it
holds the others; a slab comes back when its chunk was delivered. `released` lists the slabs
given back and `reads` the reads that were issued; neither is read by the pipeline. -/
namespace Hfdl
open Transition

def readChunkSize : Nat := 1048576

def depthForFS : FsType → Nat
  | .ssd => 4
  | .hdd | .netFS | .unknown => 2

structure Readahead where
  depth : Nat
  chunk : Nat
  size : Nat
  bodyEnd : Nat
deriving DecidableEq, Repr

/-- The pool bounds the depth and the chunk. -/
def readAllDirect (slabs slabSize depth align size : Nat) : Readahead :=
  let chunk := (readChunkSize + align - 1) / align * align
  { depth := if slabs < depth then slabs else depth
    chunk := if slabSize < chunk then slabSize / align * align else chunk
    size, bodyEnd := size / align * align }

/-- A full read at an offset, or an error. -/
def readChunk (bytes : Nat → Nat → ρ) (off len : Nat) (ok : Bool) : Option ρ := if ok then some (bytes off len) else none

structure ChunkRead (ρ : Type) where
  off : Nat
  len : Nat
  direct : Bool
  slab : Nat
  /-- What the read ended with. -/
  result : Option (Option ρ)
deriving DecidableEq, Repr

inductive ReaderPhase (ρ : Type) where
  /-- In the loop: it asks for a slab, waits for its oldest read or ends. -/
  | running
  /-- In the callback, with the slab of the delivered chunk. -/
  | delivering (off : Nat) (bytes : ρ) (slab : Nat)
  | draining
  | returned (ok : Bool)
deriving DecidableEq, Repr

structure DirectReader (ρ : Type) where
  next : Nat
  inflight : List (ChunkRead ρ)
  phase : ReaderPhase ρ
  delivered : List (Nat × ρ)
  obtained : Nat
  released : List Nat
  reads : List (ChunkRead ρ)
deriving DecidableEq, Repr

namespace DirectReader
variable {ρ : Type}

inductive Event where
  | get
  /-- The context is done, or the pool gives no slab. -/
  | refused
  /-- The reading goroutine of the `k`-th read in flight ends. -/
  | read (k : Nat) (ok : Bool)
  /-- The oldest read is done: its chunk goes to the callback, its error ends the pipeline. -/
  | take
  /-- The context is done while the oldest read is awaited. -/
  | cancelled
  | deliver (ok : Bool)
  | drain
  | finish
deriving DecidableEq, Repr

def start : DirectReader ρ := ⟨0, [], .running, [], 0, [], []⟩

/-- The inner loop goes on. -/
def wants (r : Readahead) (s : DirectReader ρ) : Bool := s.next < r.size && s.inflight.length < r.depth

def issue (r : Readahead) (s : DirectReader ρ) : ChunkRead ρ :=
  let len := min r.chunk (r.size - s.next)
  ⟨s.next, len, s.next + len ≤ r.bodyEnd, s.obtained, none⟩

def complete (bytes : Nat → Nat → ρ) (ok : Bool) (o : ChunkRead ρ) : ChunkRead ρ :=
  { o with result := some (readChunk bytes o.off o.len ok) }

def step (r : Readahead) (bytes : Nat → Nat → ρ) (s : DirectReader ρ) : Event → Option (DirectReader ρ)
  | .get =>
    match s.phase, s.wants r with
    | .running, true =>
      some { s with
        next := s.next + (s.issue r).len, inflight := s.inflight ++ [s.issue r]
        obtained := s.obtained + 1, reads := s.reads ++ [s.issue r] }
    | _, _ => none
  | .refused =>
    match s.phase, s.wants r with
    | .running, true => some { s with phase := .draining }
    | _, _ => none
  | .read k ok =>
    match s.inflight[k]? with
    | some ⟨off, len, direct, slab, none⟩ =>
      some { s with inflight := s.inflight.set k (complete bytes ok ⟨off, len, direct, slab, none⟩) }
    | _ => none
  | .take =>
    match s.phase, s.wants r, s.inflight with
    | .running, false, ⟨off, _, _, slab, some (some bytes)⟩ :: rest =>
      some { s with inflight := rest, phase := .delivering off bytes slab }
    | .running, false, ⟨_, _, _, slab, some none⟩ :: rest =>
      some { s with inflight := rest, phase := .draining, released := s.released ++ [slab] }
    | _, _, _ => none
  | .cancelled =>
    match s.phase, s.wants r, s.inflight with
    | .running, false, _ :: _ => some { s with phase := .draining }
    | _, _, _ => none
  | .deliver ok =>
    match s.phase with
    | .delivering off bytes slab =>
      some { s with
        phase := if ok then .running else .draining
        delivered := s.delivered ++ [(off, bytes)], released := s.released ++ [slab] }
    | _ => none
  | .drain =>
    match s.phase, s.inflight with
    | .draining, ⟨_, _, _, slab, some _⟩ :: rest => some { s with inflight := rest, released := s.released ++ [slab] }
    | _, _ => none
  | .finish =>
    match s.phase, s.inflight with
    | .draining, [] => some { s with phase := .returned false }
    | .running, [] => if r.size ≤ s.next then some { s with phase := .returned true } else none
    | _, _ => none

/-- What one step of the pipeline can be. -/
inductive Step (r : Readahead) (bytes : Nat → Nat → ρ) (s : DirectReader ρ) : Event → DirectReader ρ → Prop where
  | get (running : s.phase = .running) (wants : s.wants r = true) :
      Step r bytes s .get { s with
        next := s.next + (s.issue r).len, inflight := s.inflight ++ [s.issue r]
        obtained := s.obtained + 1, reads := s.reads ++ [s.issue r] }
  | stopped (running : s.phase = .running) (done : e = .refused ∨ e = .cancelled) : Step r bytes s e { s with phase := .draining }
  | read (found : s.inflight[k]? = some o) :
      Step r bytes s (.read k ok) { s with inflight := s.inflight.set k (complete bytes ok o) }
  | take (running : s.phase = .running) (first : s.inflight = o :: rest) (done : o.result = some (some b)) :
      Step r bytes s .take { s with inflight := rest, phase := .delivering o.off b o.slab }
  | failed (running : s.phase = .running) (first : s.inflight = o :: rest) :
      Step r bytes s .take { s with inflight := rest, phase := .draining, released := s.released ++ [o.slab] }
  | deliver (delivering : s.phase = .delivering off b slab) :
      Step r bytes s (.deliver ok) { s with
        phase := if ok then .running else .draining
        delivered := s.delivered ++ [(off, b)], released := s.released ++ [slab] }
  | drain (draining : s.phase = .draining) (first : s.inflight = o :: rest) :
      Step r bytes s .drain { s with inflight := rest, released := s.released ++ [o.slab] }
  | ended (draining : s.phase = .draining) (none : s.inflight = []) : Step r bytes s .finish { s with phase := .returned false }
  | finish (running : s.phase = .running) (none : s.inflight = []) (past : r.size ≤ s.next) :
      Step r bytes s .finish { s with phase := .returned true }

theorem step_cases {s t : DirectReader ρ} (stepped : s.step r bytes e = some t) : Step r bytes s e t := by
  unfold step at stepped
  repeat' split at stepped
  all_goals first
    | (cases stepped; first | exact .take ‹_› ‹_› rfl | exact .failed ‹_› ‹_› | exact .drain ‹_› ‹_›)
    | grind [Step]

end DirectReader

/-- A file read through the pool, with what its reads return left out. -/
structure Pipeline where
  plan : Readahead
  reader : DirectReader Unit
deriving DecidableEq, Repr

namespace Pipeline

def Returned (p : Pipeline) : Prop := ∃ ok, p.reader.phase = .returned ok

/-- The loop is about to ask for a slab. -/
def Wants (p : Pipeline) : Prop := p.reader.phase = .running ∧ p.reader.wants p.plan = true

/-- Waiting in `Pool.Get`. -/
def Blocked (p : Pipeline) (free : Nat) : Prop := p.Wants ∧ free = 0

/-- One step of a pipeline with the number of free slabs, while no context is done. -/
def act (p : Pipeline) (free : Nat) (e : DirectReader.Event) : Option (Pipeline × Nat) :=
  match e with
  | .refused | .cancelled => none
  | .get => if free = 0 then none else (p.reader.step p.plan (fun _ _ => ()) e).map fun s => (⟨p.plan, s⟩, free - 1)
  | _ =>
    (p.reader.step p.plan (fun _ _ => ()) e).map fun s =>
      (⟨p.plan, s⟩, free + (s.released.length - p.reader.released.length))

def held (p : Pipeline) : Nat :=
  p.reader.inflight.length + match p.reader.phase with
    | .delivering .. => 1
    | _ => 0

/-- The chunks of the file, as far as they can be in flight together. -/
def window (p : Pipeline) : Nat :=
  if p.plan.chunk = 0 then p.plan.depth else min p.plan.depth ((p.plan.size + p.plan.chunk - 1) / p.plan.chunk)

structure Sound (p : Pipeline) : Prop where
  deep : 0 < p.plan.depth
  ended : p.Returned → p.reader.inflight = []
  ahead : p.reader.next < p.plan.size → p.reader.inflight.length * p.plan.chunk ≤ p.reader.next

section
variable {p p' : Pipeline}

theorem act_cases (acted : p.act free e = some (p', free')) :
    p'.plan = p.plan ∧ DirectReader.Step p.plan (fun _ _ => ()) p.reader e p'.reader ∧ e ≠ .refused ∧ e ≠ .cancelled ∧
      if e = .get then free' + 1 = free else free' = free + (p'.reader.released.length - p.reader.released.length) := by
  unfold act at acted
  split at acted
  · cases acted
  · cases acted
  · split at acted
    · cases acted
    · obtain ⟨s, stepped, ⟨⟩⟩ := Option.map_eq_some_iff.mp acted
      exact ⟨rfl, DirectReader.step_cases stepped, nofun, nofun, by simp only [if_pos]; omega⟩
  · rename_i refused cancelled get
    obtain ⟨s, stepped, ⟨⟩⟩ := Option.map_eq_some_iff.mp acted
    exact ⟨rfl, DirectReader.step_cases stepped, refused, cancelled, by rw [if_neg get]⟩

theorem Sound.behind (sound : p.Sound) (inflight : p.reader.inflight = o :: rest) (more : p.reader.next < p.plan.size) :
    rest.length * p.plan.chunk ≤ p.reader.next := by
  have ahead := sound.ahead more
  rw [inflight, List.length_cons, Nat.add_mul] at ahead
  omega

theorem act_spec (acted : p.act free e = some (p', free')) :
    free' + p'.held = free + p.held ∧ p'.window = p.window ∧ (p.Sound → p'.Sound) := by
  obtain ⟨plan, step, refused, cancelled, slabs⟩ := act_cases acted
  obtain ⟨plan', t⟩ := p'
  obtain rfl : plan' = p.plan := plan
  cases step with
  | get running wants =>
    have more : p.reader.next < p.plan.size := by
      simp only [DirectReader.wants, Bool.and_eq_true, decide_eq_true_eq] at wants
      exact wants.1
    simp only [if_pos] at slabs
    refine ⟨?_, rfl, fun sound => ⟨sound.deep, ?_, fun more' => ?_⟩⟩
    · simp only [held, running, List.length_append, List.length_singleton]
      omega
    · rintro ⟨ok, returned⟩
      cases running.symm.trans returned
    · have ahead := sound.ahead more
      simp only [DirectReader.issue, List.length_append, List.length_singleton, Nat.add_mul, Nat.one_mul] at more' ahead ⊢
      omega
  | stopped running done => exact absurd done (not_or.mpr ⟨refused, cancelled⟩)
  | read found =>
    refine ⟨?_, rfl, fun sound => ⟨sound.deep, ?_, ?_⟩⟩
    · simpa [held] using slabs
    · simpa [Returned] using sound.ended
    · simpa using sound.ahead
  | take running first done =>
    simp only [reduceCtorEq, if_false, Nat.sub_self, Nat.add_zero] at slabs
    exact ⟨by simp [held, first, running, slabs], rfl, fun sound => ⟨sound.deep, by simp [Returned], sound.behind first⟩⟩
  | failed running first =>
    simp at slabs
    exact ⟨by simp [held, first, running]; omega, rfl, fun sound => ⟨sound.deep, by simp [Returned], sound.behind first⟩⟩
  | @deliver _ _ _ ok delivering =>
    simp at slabs
    refine ⟨?_, rfl, fun sound => ⟨sound.deep, ?_, sound.ahead⟩⟩
    · cases ok <;> simp [held, delivering] <;> omega
    · cases ok <;> simp [Returned]
  | drain draining first =>
    simp at slabs
    exact ⟨by simp [held, first, draining]; omega, rfl, fun sound => ⟨sound.deep, by simp [Returned, draining],
      sound.behind first⟩⟩
  | ended draining none =>
    simp at slabs
    exact ⟨by simp [held, draining, slabs], rfl, fun sound => ⟨sound.deep, fun _ => none, sound.ahead⟩⟩
  | finish running none past =>
    simp at slabs
    exact ⟨by simp [held, running, slabs], rfl, fun sound => ⟨sound.deep, fun _ => none, sound.ahead⟩⟩

/-- A pipeline that waits for a slab leaves at least one of its window to come. -/
theorem held_lt_window (sound : p.Sound) (wants : p.Wants) : p.held + 1 ≤ p.window := by
  obtain ⟨running, wants⟩ := wants
  simp only [DirectReader.wants, Bool.and_eq_true, decide_eq_true_eq] at wants
  obtain ⟨more, room⟩ := wants
  have ahead := sound.ahead more
  have own : p.held = p.reader.inflight.length := by simp [held, running]
  rw [own, window]
  by_cases chunk : p.plan.chunk = 0
  · rw [if_pos chunk]
    exact room
  · rw [if_neg chunk]
    have part : p.reader.inflight.length + 1 ≤ (p.plan.size + p.plan.chunk - 1) / p.plan.chunk := by
      rw [Nat.le_div_iff_mul_le (Nat.pos_of_ne_zero chunk), Nat.add_mul, Nat.one_mul]
      omega
    exact Nat.le_min.mpr ⟨room, part⟩

/-- What is neither at its end nor waiting for a slab can take a step. -/
theorem act_enabled (sound : p.Sound) (unfinished : ¬ p.Returned) (unblocked : ¬ p.Blocked free) :
    ∃ e, (p.act free e).isSome := by
  cases phase : p.reader.phase with
  | returned ok => exact absurd ⟨ok, phase⟩ unfinished
  | delivering => exact ⟨.deliver false, by simp [act, DirectReader.step, phase]⟩
  | draining =>
    match inflight : p.reader.inflight with
    | [] => exact ⟨.finish, by simp [act, DirectReader.step, phase, inflight]⟩
    | ⟨_, _, _, _, none⟩ :: _ => exact ⟨.read 0 false, by simp [act, DirectReader.step, inflight]⟩
    | ⟨_, _, _, _, some _⟩ :: _ => exact ⟨.drain, by simp [act, DirectReader.step, phase, inflight]⟩
  | running =>
    cases wants : p.reader.wants p.plan with
    | true =>
      have some_ : free ≠ 0 := fun none_ => unblocked ⟨⟨phase, wants⟩, none_⟩
      exact ⟨.get, by simp [act, DirectReader.step, phase, wants, some_]⟩
    | false =>
      match inflight : p.reader.inflight with
      | [] =>
        have deep := sound.deep
        have past : p.plan.size ≤ p.reader.next := by
          simp only [DirectReader.wants, inflight, List.length_nil, Bool.and_eq_false_iff, decide_eq_false_iff_not] at wants
          omega
        exact ⟨.finish, by simp [act, DirectReader.step, phase, inflight, past]⟩
      | ⟨_, _, _, _, none⟩ :: _ => exact ⟨.read 0 false, by simp [act, DirectReader.step, inflight]⟩
      | ⟨_, _, _, _, some none⟩ :: _ => exact ⟨.take, by simp [act, DirectReader.step, phase, wants, inflight]⟩
      | ⟨_, _, _, _, some (some _)⟩ :: _ => exact ⟨.take, by simp [act, DirectReader.step, phase, wants, inflight]⟩

end
end Pipeline

structure Pool where
  free : Nat
  pipes : List Pipeline
deriving DecidableEq, Repr

structure DirectRead where
  depth : Nat
  align : Nat
  size : Nat
  deep : 0 < depth

namespace Pool

def start (slabs slabSize : Nat) (files : List DirectRead) : Pool :=
  ⟨slabs, files.map fun f => ⟨readAllDirect slabs slabSize f.depth f.align f.size, .start⟩⟩

/-- Pipeline `i` takes a step. -/
def next (d : Pool) (e : Nat × DirectReader.Event) : Option Pool :=
  match d.pipes[e.1]? with
  | none => none
  | some p => (p.act d.free e.2).map fun acted => ⟨acted.2, d.pipes.set e.1 acted.1⟩

theorem next_some {d d' : Pool} {e : Nat × DirectReader.Event} (stepped : next d e = some d') :
    ∃ p p' free, d.pipes[e.1]? = some p ∧ p.act d.free e.2 = some (p', free) ∧ d' = ⟨free, d.pipes.set e.1 p'⟩ := by
  simp only [next] at stepped
  split at stepped
  · cases stepped
  · rename_i p here
    obtain ⟨⟨p', free⟩, acted, rfl⟩ := Option.map_eq_some_iff.mp stepped
    exact ⟨p, p', free, here, acted, rfl⟩

theorem sum_map_set (f : Pipeline → Nat) {l : List Pipeline} (here : l[i]? = some p) (p' : Pipeline) :
    ((l.set i p').map f).sum + f p = (l.map f).sum + f p' := by
  induction l generalizing i with
  | nil => cases here
  | cons q l ih =>
    cases i with
    | zero =>
      cases here
      simp only [List.set_cons_zero, List.map_cons, List.sum_cons]
      omega
    | succ i =>
      have rest := ih here
      simp only [List.set_cons_succ, List.map_cons, List.sum_cons]
      omega

/-- Every slab is free or held, and no pipeline's window changes. -/
structure Inv (slabs : Nat) (windows : List Nat) (d : Pool) : Prop where
  slabs : d.free + (d.pipes.map Pipeline.held).sum = slabs
  windows : d.pipes.map Pipeline.window = windows
  sound : ∀ p ∈ d.pipes, p.Sound

theorem inv_next {d d' : Pool} {e : Nat × DirectReader.Event} (inv : Inv slabs windows d) (stepped : next d e = some d') :
    Inv slabs windows d' := by
  obtain ⟨p, p', free, here, acted, rfl⟩ := next_some stepped
  obtain ⟨held, window, sound⟩ := Pipeline.act_spec acted
  refine ⟨?_, ?_, ?_⟩
  · have total := inv.slabs
    have moved := sum_map_set Pipeline.held here p'
    simp only
    omega
  · obtain ⟨inside, rfl⟩ := List.getElem?_eq_some_iff.mp here
    rw [List.map_set, window, ← inv.windows, ← List.getElem_map Pipeline.window, List.set_getElem_self]
    simpa using inside
  · intro q member
    rcases List.mem_or_eq_of_mem_set member with before | rfl
    · exact inv.sound q before
    · exact sound (inv.sound p (List.mem_of_getElem? here))

theorem inv_start (slabs slabSize : Nat) (files : List DirectRead) (some_ : 0 < slabs) :
    Inv slabs ((start slabs slabSize files).pipes.map Pipeline.window) (start slabs slabSize files) where
  slabs := by
    have none_ : ∀ p ∈ (start slabs slabSize files).pipes, p.held = 0 := by
      simp [start, DirectReader.start, Pipeline.held]
    rw [List.sum_eq_zero (by simpa using none_)]
    rfl
  windows := rfl
  sound p member := by
    obtain ⟨f, listed, rfl⟩ := List.mem_map.mp member
    refine ⟨?_, fun _ => rfl, by simp [DirectReader.start]⟩
    have deep := f.deep
    simp only [readAllDirect]
    split <;> omega

/-- What the pipelines can hold while all of them wait. -/
def waiting (d : Pool) : Nat := (d.pipes.map fun p => p.window - 1).sum

/-- When the pipelines leave a slab over while each waits for its next one, some pipeline that has not returned is not
waiting for a slab and can take a step. -/
theorem pipelines_progress (enough : (start slabs slabSize files).waiting < slabs)
    (ran : run next (start slabs slabSize files) es = some d) (unfinished : ∃ p ∈ d.pipes, ¬ p.Returned) :
    (∃ p ∈ d.pipes, ¬ p.Returned ∧ ¬ p.Blocked d.free) ∧ ∃ e, (next d e).isSome := by
  have inv : Inv slabs ((start slabs slabSize files).pipes.map Pipeline.window) d :=
    invariant inv_next (inv_start slabs slabSize files (by omega)) ran
  have free_one : ∃ p ∈ d.pipes, ¬ p.Returned ∧ ¬ p.Blocked d.free := by
    by_contra stuck
    have waits (p) (member : p ∈ d.pipes) (running : ¬ p.Returned) : p.Blocked d.free := by
      by_contra unblocked
      exact stuck ⟨p, member, running, unblocked⟩
    have each : ∀ p ∈ d.pipes, p.held ≤ p.window - 1 := by
      intro p member
      by_cases returned : p.Returned
      · obtain ⟨ok, phase⟩ := returned
        simp [Pipeline.held, (inv.sound p member).ended ⟨ok, phase⟩, phase]
      · have := Pipeline.held_lt_window (inv.sound p member) (waits p member returned).1
        omega
    have held : (d.pipes.map Pipeline.held).sum ≤ (d.pipes.map fun p => p.window - 1).sum := List.sum_le_sum each
    have same : (d.pipes.map fun p => p.window - 1).sum = (start slabs slabSize files).waiting := by
      have windows := congrArg (List.map (· - 1)) inv.windows
      rw [List.map_map, List.map_map] at windows
      exact congrArg List.sum windows
    obtain ⟨p, member, running⟩ := unfinished
    have none_ := (waits p member running).2
    have total := inv.slabs
    omega
  refine ⟨free_one, ?_⟩
  obtain ⟨p, member, running, unblocked⟩ := free_one
  obtain ⟨a, acts⟩ := Pipeline.act_enabled (inv.sound p member) running unblocked
  obtain ⟨i, inside, rfl⟩ := List.mem_iff_getElem.mp member
  refine ⟨(i, a), ?_⟩
  rw [next, List.getElem?_eq_getElem inside, Option.isSome_map]
  exact acts

/-- Two files on spinning disks, of two chunks each. -/
def twoFiles : List DirectRead := [⟨depthForFS .hdd, 4096, 2097152, by decide⟩, ⟨depthForFS .hdd, 4096, 2097152, by decide⟩]

/-- The pipeline of such a file with its first read in flight. -/
def firstRead (result : Option (Option Unit)) : Pipeline :=
  ⟨⟨2, 1048576, 2097152, 2097152⟩,
    ⟨1048576, [⟨0, 1048576, true, 0, result⟩], .running, [], 1, [], [⟨0, 1048576, true, 0, none⟩]⟩⟩

/-- With two slabs each pipeline gets one and waits for its second, for ever. -/
theorem pipelines_deadlock :
    ∃ d, run next (start 2 8388608 twoFiles) [(0, .get), (1, .get), (0, .read 0 true), (1, .read 0 true)] = some d ∧
      (∀ p ∈ d.pipes, ¬ p.Returned ∧ p.Blocked d.free) ∧ ∀ e, next d e = none := by
  refine ⟨⟨0, [firstRead (some (some ())), firstRead (some (some ()))]⟩, by decide +kernel, ?_, ?_⟩
  · intro p member
    obtain rfl : p = firstRead (some (some ())) := by simpa using member
    exact ⟨by simp [firstRead, Pipeline.Returned], by simp [firstRead, Pipeline.Blocked, Pipeline.Wants, DirectReader.wants]⟩
  rintro ⟨i, a⟩
  match i with
  | 0 | 1 =>
    cases a with
    | read k failed =>
      match k with
      | 0 | _ + 1 => rfl
    | _ => rfl
  | _ + 2 => rfl

theorem pipelines_progress_three :
    ∃ d, run next (start 3 8388608 twoFiles) [(0, .get), (1, .get)] = some d ∧
      (∃ p ∈ d.pipes, ¬ p.Returned ∧ ¬ p.Blocked d.free) ∧ ∃ e, (next d e).isSome := by
  have ran : ∃ d, run next (start 3 8388608 twoFiles) [(0, .get), (1, .get)] = some d ∧ ∃ p ∈ d.pipes, ¬ p.Returned :=
    ⟨⟨1, [firstRead none, firstRead none]⟩, by decide +kernel, firstRead none, List.mem_cons_self,
      by simp [firstRead, Pipeline.Returned]⟩
  obtain ⟨d, ran, unfinished⟩ := ran
  exact ⟨d, ran, pipelines_progress (by decide +kernel) ran unfinished⟩

end Pool
end Hfdl
