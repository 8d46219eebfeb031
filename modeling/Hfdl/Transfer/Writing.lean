import Hfdl.Transfer.Stream
import Hfdl.Transition

/-! A non-sequential download run as a machine over the disk and the in-memory set.
Blocks are attempted any number of times by any number of workers, a body may be cut
at any byte, and a write and the record of its range are separate steps. -/
namespace Hfdl.Transfer
open Transition

abbrev Disk := Int → UInt8

/-- A write of which the bytes selected by `landed` reached the disk. -/
def Disk.write (disk : Disk) (f : Flush) (landed : Int → Bool) : Disk := fun x =>
  if (f.off ≤ x ∧ x < f.stop) ∧ landed x then f.bytes.getD (x - f.off).toNat 0 else disk x

/-- Zero padding of a range, again with the bytes that landed. -/
def Disk.zero (disk : Disk) (v : Interval) (landed : Int → Bool) : Disk := fun x =>
  if v.Has x ∧ landed x then 0 else disk x

def trueBytes (truth : Int → UInt8) (off : Int) (m : Nat) : List UInt8 :=
  (List.range m).map fun k : Nat => truth (off + k)

/-- What is fixed during a run: the file's bytes, the slab size and the disjoint blocks, whose offsets are those of a
machine word. -/
structure Layout where
  truth : Int → UInt8
  slab : Nat
  blocks : List Block
  large : writeAlign ≤ slab
  machine : ∀ b ∈ blocks, 0 ≤ b.offset ∧ b.stop ≤ maxInt64
  disjoint : blocks.Pairwise fun a b => ∀ x, a.range.Has x → ¬ b.range.Has x

theorem Layout.apart (l : Layout) {i j : Nat} {a b : Block} (other : i ≠ j) (first : l.blocks[i]? = some a)
    (second : l.blocks[j]? = some b) (has : a.range.Has x) : ¬ b.range.Has x := by
  obtain ⟨hi, rfl⟩ := List.getElem?_eq_some_iff.mp first
  obtain ⟨hj, rfl⟩ := List.getElem?_eq_some_iff.mp second
  have pairs := List.pairwise_iff_getElem.mp l.disjoint
  rcases Nat.lt_or_gt_of_ne other with less | more
  · exact pairs i j hi hj less x has
  · exact fun back => pairs j i hj hi more x back has

/-- The remaining steps of an attempt: the flush that is written and not yet recorded,
the flushes to come, and the padding after them. -/
structure Attempt where
  unrecorded : Option Flush
  flushes : List Flush
  pad : Option Interval
deriving DecidableEq, Repr

def Attempt.idle : Attempt := ⟨none, [], none⟩

/-- Attempts are indexed by the position of their block. -/
structure Writing where
  disk : Disk
  set : IntervalSet
  attempts : Nat → Attempt

namespace Writing

inductive Event where
  /-- An attempt whose body ends after `m` bytes, delivered by the reads of the script. -/
  | start (i m : Nat) (fin : BodyEnd) (script : List (Nat × Bool))
  | write (i : Nat) (ok : Bool) (landed : Int → Bool)
  | record (i : Nat)
  | pad (i : Nat) (ok : Bool) (landed : Int → Bool)

def assign (s : Writing) (i : Nat) (a : Attempt) : Writing :=
  { s with attempts := fun j => if j = i then a else s.attempts j }

/-- A write that returns nil is applied whole; one that fails ends the attempt and may have
reached the disk in part. A block is attempted again only after its attempt returned. -/
def next (l : Layout) (s : Writing) : Event → Option Writing
  | .start i m fin script =>
    match l.blocks[i]? with
    | none => none
    | some b =>
      if s.attempts i = .idle ∧ (m : Int) ≤ b.length then
        let streamed := streamBlock l.slab b b.offset (trueBytes l.truth b.offset m) fin script
        some (s.assign i ⟨none, streamed.flushes, streamed.pad⟩)
      else none
  | .write i ok landed =>
    match s.attempts i with
    | ⟨none, f :: rest, pad⟩ =>
      if ok then some ({ s with disk := s.disk.write f fun _ => true }.assign i ⟨some f, rest, pad⟩)
      else some ({ s with disk := s.disk.write f landed }.assign i .idle)
    | _ => none
  | .record i =>
    match s.attempts i with
    | ⟨some f, rest, pad⟩ => some ({ s with set := s.set.add f.off f.stop }.assign i ⟨none, rest, pad⟩)
    | _ => none
  | .pad i ok landed =>
    match s.attempts i with
    | ⟨none, [], some v⟩ =>
      some ({ s with disk := s.disk.zero v fun x => ok || landed x }.assign i .idle)
    | _ => none

inductive Step (l : Layout) (s : Writing) : Event → Writing → Prop where
  | start {m : Nat} (found : l.blocks[i]? = some b) (free : s.attempts i = .idle) (within : (m : Int) ≤ b.length)
      (streams : streamed = streamBlock l.slab b b.offset (trueBytes l.truth b.offset m) fin script) :
      Step l s (.start i m fin script) (s.assign i ⟨none, streamed.flushes, streamed.pad⟩)
  | wrote (ready : s.attempts i = ⟨none, f :: rest, pad⟩) :
      Step l s (.write i true landed) ({ s with disk := s.disk.write f fun _ => true }.assign i ⟨some f, rest, pad⟩)
  | failed (ready : s.attempts i = ⟨none, f :: rest, pad⟩) :
      Step l s (.write i false landed) ({ s with disk := s.disk.write f landed }.assign i .idle)
  | record (ready : s.attempts i = ⟨some f, rest, pad⟩) :
      Step l s (.record i) ({ s with set := s.set.add f.off f.stop }.assign i ⟨none, rest, pad⟩)
  | pad (ready : s.attempts i = ⟨none, [], some v⟩) :
      Step l s (.pad i ok landed) ({ s with disk := s.disk.zero v fun x => ok || landed x }.assign i .idle)

theorem next_step (stepped : next l s e = some t) : Step l s e t := by
  unfold next at stepped
  grind [Step]

/-- No recorded byte is wrong, and padding that is about to be written hits no recorded byte. -/
structure Faithful (l : Layout) (s : Writing) : Prop where
  bytes : ∀ x, s.set.Covers x → s.disk x = l.truth x
  padding : ∀ i v, s.attempts i = ⟨none, [], some v⟩ → ∀ x, v.Has x → ¬ s.set.Covers x

/-- The start of an attempt whose alignment gap holds no recorded byte. The gap lies between
the byte the body is cut at and the next alignment boundary inside the block. -/
def GapUnrecorded (l : Layout) (s : Writing) : Event → Prop
  | .start i m _ _ => ∀ b, l.blocks[i]? = some b → alignUp (b.offset + m) ≤ b.stop →
      ∀ x, b.offset + m ≤ x → x < alignUp (b.offset + m) → ¬ s.set.Covers x
  | _ => True

structure AttemptOk (l : Layout) (s : Writing) (b : Block) (a : Attempt) : Prop where
  flushes : ∀ f ∈ a.flushes, b.offset ≤ f.off ∧ f.stop ≤ b.stop ∧ TrueAt l.truth f.off f.bytes
  unrecorded : ∀ f, a.unrecorded = some f → b.offset ≤ f.off ∧ f.stop ≤ b.stop ∧
    ∀ x, f.off ≤ x → x < f.stop → s.disk x = l.truth x
  pad : ∀ v, a.pad = some v → b.offset ≤ v.start ∧ v.stop ≤ b.stop ∧ ∀ x, v.Has x → ¬ s.set.Covers x
  before_pad : ∀ v, a.pad = some v → (∀ f ∈ a.flushes, f.stop ≤ v.start) ∧
    ∀ f, a.unrecorded = some f → f.stop ≤ v.start

structure Inv (l : Layout) (s : Writing) : Prop where
  bytes : ∀ x, s.set.Covers x → s.disk x = l.truth x
  attempts : ∀ i b, l.blocks[i]? = some b → AttemptOk l s b (s.attempts i)
  outside : ∀ i, l.blocks[i]? = none → s.attempts i = .idle

section
variable {l : Layout} {s t : Writing} {b : Block}

@[simp] theorem assign_disk : (s.assign i a).disk = s.disk := rfl
@[simp] theorem assign_set : (s.assign i a).set = s.set := rfl
@[simp] theorem assign_same : (s.assign i a).attempts i = a := if_pos rfl
theorem assign_other (other : j ≠ i) : (s.assign i a).attempts j = s.attempts j := if_neg other

theorem trueAt_trueBytes (truth : Int → UInt8) (off : Int) (m : Nat) : TrueAt truth off (trueBytes truth off m) := by
  induction m with
  | zero => trivial
  | succ m ih =>
    rw [trueBytes, List.range_succ, List.map_append, trueAt_append]
    refine ⟨ih, ?_, trivial⟩
    simp

@[simp] theorem length_trueBytes : (trueBytes truth off m).length = m := by simp [trueBytes]

/-- A flush of true bytes never makes a byte wrong, whatever part of it lands. -/
theorem write_keeps_truth {disk : Disk} (true_bytes : TrueAt truth f.off f.bytes) (right : disk x = truth x) :
    disk.write f landed x = truth x := by
  simp only [Disk.write]
  split
  · rename_i inside
    exact true_bytes.get inside.1
  · exact right

theorem write_lands {disk : Disk} (true_bytes : TrueAt truth f.off f.bytes) (inside : f.off ≤ x ∧ x < f.stop) :
    disk.write f (fun _ => true) x = truth x := by
  rw [Disk.write, if_pos ⟨inside, rfl⟩]
  exact true_bytes.get inside

theorem zero_outside {disk : Disk} (outside : ¬ v.Has x) : disk.zero v landed x = disk x :=
  if_neg fun inside => outside inside.1

theorem attemptOk_idle : AttemptOk l s b .idle where
  flushes _ member := nomatch member
  unrecorded _ none_ := nomatch none_
  pad _ none_ := nomatch none_
  before_pad _ none_ := nomatch none_

/-- An attempt stays fine while the disk keeps true bytes inside its block and no byte of its block is recorded. -/
theorem AttemptOk.frame (ok : AttemptOk l s b a) (disk : ∀ x, b.range.Has x → s.disk x = l.truth x → t.disk x = l.truth x)
    (set : ∀ x, b.range.Has x → t.set.Covers x → s.set.Covers x) : AttemptOk l t b a where
  flushes := ok.flushes
  unrecorded f waiting := by
    obtain ⟨left, right, landed⟩ := ok.unrecorded f waiting
    refine ⟨left, right, fun x from_ to_ => disk x ⟨?_, ?_⟩ (landed x from_ to_)⟩
    · exact Int.le_trans left from_
    · exact Int.lt_of_lt_of_le to_ right
  pad v padded := by
    obtain ⟨left, right, clear⟩ := ok.pad v padded
    refine ⟨left, right, fun x has covers => clear x has (set x ⟨?_, ?_⟩ covers)⟩
    · exact Int.le_trans left has.1
    · exact Int.lt_of_lt_of_le has.2 right
  before_pad := ok.before_pad

theorem Inv.assign (inv : Inv l s) (found : l.blocks[i]? = some b) (own : AttemptOk l t b a)
    (bytes : ∀ x, t.set.Covers x → t.disk x = l.truth x) (attempts : t.attempts = s.attempts)
    (disk : ∀ x, ¬ b.range.Has x → s.disk x = l.truth x → t.disk x = l.truth x)
    (set : ∀ x, ¬ b.range.Has x → t.set.Covers x → s.set.Covers x) : Inv l (t.assign i a) where
  bytes := bytes
  attempts j c found' := by
    by_cases same : j = i
    · subst same
      rw [found] at found'
      cases found'
      rw [assign_same]
      exact own.frame (fun _ _ right => right) fun _ _ covers => covers
    · rw [assign_other same, attempts]
      have elsewhere : ∀ x, c.range.Has x → ¬ b.range.Has x := fun x => l.apart same found' found
      exact (inv.attempts j c found').frame (fun x has => disk x (elsewhere x has)) fun x has => set x (elsewhere x has)
  outside j missing := by
    have other : j ≠ i := by
      rintro rfl
      rw [found] at missing
      cases missing
    rw [assign_other other, attempts]
    exact inv.outside j missing

theorem Inv.block (inv : Inv l s) (busy : s.attempts i ≠ .idle) : ∃ b, l.blocks[i]? = some b := by
  cases found : l.blocks[i]? with
  | none => exact absurd (inv.outside i found) busy
  | some b => exact ⟨b, rfl⟩

theorem inv_start {m : Nat} (inv : Inv l s) (found : l.blocks[i]? = some b) (within : (m : Int) ≤ b.length)
    (clear : alignUp (b.offset + m) ≤ b.stop → ∀ x, b.offset + m ≤ x → x < alignUp (b.offset + m) → ¬ s.set.Covers x)
    (streams : streamed = streamBlock l.slab b b.offset (trueBytes l.truth b.offset m) fin script) :
    Inv l (s.assign i ⟨none, streamed.flushes, streamed.pad⟩) := by
  have spec : streamed.Spec l.truth b b.offset (b.offset + m) := by
    have whole : (streamBlock l.slab b b.offset (trueBytes l.truth b.offset m) fin script).Spec l.truth b b.offset
        (b.offset + (trueBytes l.truth b.offset m).length) := by
      obtain ⟨low, high⟩ := l.machine b (List.mem_of_getElem? found)
      have ends : b.stop = b.offset + b.length := rfl
      exact streamBlock_spec l.large low (by rw [length_trueBytes]; omega) (by omega) (trueAt_trueBytes _ _ _)
    rwa [length_trueBytes, ← streams] at whole
  obtain ⟨stop, chain, bound, -⟩ := spec.reached
  refine inv.assign found ?_ inv.bytes rfl (fun _ _ right => right) fun _ _ covers => covers
  refine ⟨fun f member => ?_, fun f none_ => (nomatch none_), fun v padded => ?_,
    fun v padded => ⟨fun f member => ?_, fun f none_ => nomatch none_⟩⟩
  · have inside := chain.inside member
    refine ⟨inside.1, ?_, spec.bytes f member⟩
    simp only [Block.stop]
    omega
  · obtain ⟨rfl, fits⟩ := spec.pad v padded
    exact ⟨by show b.offset ≤ b.offset + m; omega, fits, fun x has => clear fits x has.1 has.2⟩
  · obtain ⟨rfl, -⟩ := spec.pad v padded
    have inside := chain.inside member
    show f.stop ≤ b.offset + m
    omega

theorem inv_next (inv : Inv l s) (clear : GapUnrecorded l s e) (stepped : next l s e = some t) : Inv l t := by
  cases next_step stepped with
  | start found free within streams => exact inv_start inv found within (clear _ found) streams
  | wrote ready =>
    obtain ⟨b, found⟩ := inv.block (by rw [ready]; simp [Attempt.idle])
    have ok := inv.attempts _ b found
    rw [ready] at ok
    have first := ok.flushes _ List.mem_cons_self
    have kept : ∀ x, s.disk x = l.truth x → (s.disk.write _ fun _ => true) x = l.truth x :=
      fun x => write_keeps_truth first.2.2
    refine inv.assign found ⟨?_, ?_, ok.pad, ?_⟩ (fun x covers => kept x (inv.bytes x covers)) rfl (fun x _ => kept x)
      fun _ _ covers => covers
    · exact fun f member => ok.flushes f (List.mem_cons_of_mem _ member)
    · rintro f ⟨⟩
      exact ⟨first.1, first.2.1, fun x left right => write_lands first.2.2 ⟨left, right⟩⟩
    · intro v padded
      have earlier := (ok.before_pad v padded).1
      refine ⟨fun f member => earlier f (List.mem_cons_of_mem _ member), ?_⟩
      rintro f ⟨⟩
      exact earlier _ List.mem_cons_self
  | failed ready =>
    obtain ⟨b, found⟩ := inv.block (by rw [ready]; simp [Attempt.idle])
    have ok := inv.attempts _ b found
    rw [ready] at ok
    have first := (ok.flushes _ List.mem_cons_self).2.2
    exact inv.assign found attemptOk_idle (fun x covers => write_keeps_truth first (inv.bytes x covers)) rfl
      (fun x _ => write_keeps_truth first) fun _ _ covers => covers
  | record ready =>
    obtain ⟨b, found⟩ := inv.block (by rw [ready]; simp [Attempt.idle])
    have ok := inv.attempts _ b found
    rw [ready] at ok
    obtain ⟨left, right, landed⟩ := ok.unrecorded _ rfl
    have flushes_before := fun v padded => (ok.before_pad v padded).1
    refine inv.assign found
      ⟨ok.flushes, fun f none_ => (nomatch none_), ?_, fun v padded => ⟨flushes_before v padded, fun f none_ => nomatch none_⟩⟩
      ?_ rfl (fun _ _ right => right) ?_
    · intro v padded
      obtain ⟨from_, to_, clear⟩ := ok.pad v padded
      refine ⟨from_, to_, fun x has covers => ?_⟩
      rcases IntervalSet.covers_add.mp covers with inside | before
      · have := (ok.before_pad v padded).2 _ rfl
        have := has.1
        omega
      · exact clear x has before
    · intro x covers
      rcases IntervalSet.covers_add.mp covers with inside | before
      · exact landed x inside.1 inside.2
      · exact inv.bytes x before
    · intro x outside covers
      rcases IntervalSet.covers_add.mp covers with inside | before
      · exact absurd ⟨Int.le_trans left inside.1, Int.lt_of_lt_of_le inside.2 right⟩ outside
      · exact before
  | @pad i v done landed ready =>
    obtain ⟨b, found⟩ := inv.block (by rw [ready]; simp [Attempt.idle])
    have ok := inv.attempts _ b found
    rw [ready] at ok
    obtain ⟨from_, to_, clear⟩ := ok.pad _ rfl
    refine inv.assign found attemptOk_idle ?_ rfl ?_ fun _ _ covers => covers
    · intro x covers
      show s.disk.zero v (fun x => done || landed x) x = l.truth x
      rw [zero_outside fun has => clear x has covers]
      exact inv.bytes x covers
    · intro x elsewhere right
      show s.disk.zero v (fun x => done || landed x) x = l.truth x
      rw [zero_outside fun has => elsewhere ⟨Int.le_trans from_ has.1, Int.lt_of_lt_of_le has.2 to_⟩]
      exact right

theorem Inv.faithful (inv : Inv l s) : Faithful l s where
  bytes := inv.bytes
  padding i v ready := by
    obtain ⟨b, found⟩ := inv.block (by rw [ready]; simp [Attempt.idle])
    have ok := inv.attempts i b found
    rw [ready] at ok
    exact (ok.pad v rfl).2.2

structure Initial (l : Layout) (s : Writing) : Prop where
  idle : ∀ i, s.attempts i = .idle
  bytes : ∀ x, s.set.Covers x → s.disk x = l.truth x

/-- In every run whose attempts are never cut just before a recorded byte, no recorded byte
is wrong in any state, and no padding is about to overwrite one. -/
theorem recorded_bytes_true (initial : Initial l s) (ran : run (next l) s events = some t)
    (clear : Meets (next l) (GapUnrecorded l) s events) : Faithful l t := by
  have start : Inv l s := by
    refine ⟨initial.bytes, fun i b _ => ?_, fun i _ => initial.idle i⟩
    rw [initial.idle i]
    exact attemptOk_idle
  exact (Transition.invariant_meeting inv_next start ran clear).faithful

end

/-- The missing tail of a file of ones, resumed six bytes before an alignment boundary. -/
def tail : Layout where
  truth _ := 1
  slab := 4096
  blocks := [⟨1, 4090, 4102⟩]
  large := writeAlign_le
  machine := by decide
  disjoint := List.pairwise_singleton _ _

def blank : Writing := ⟨fun _ => 7, .empty 8192 (by decide), fun _ => .idle⟩

theorem initial_blank : Initial tail blank := ⟨fun _ => rfl, fun _ covers => absurd covers IntervalSet.covers_empty⟩

/-- One attempt of the block, cut by a read error after `m` bytes, with all its steps. -/
def cutAfter (m : Nat) : List Event :=
  [.start 0 m .failed [(m, true)], .write 0 true fun _ => true, .record 0, .pad 0 true fun _ => true]

/-- A re-attempt that is cut earlier than the attempt before it pads over bytes that one recorded. -/
theorem shorter_reattempt_zeroes_recorded :
    Initial tail blank ∧ ∃ t, run (next tail) blank (cutAfter 4 ++ cutAfter 2) = some t ∧ ¬ Faithful tail t := by
  have ends : (run (next tail) blank (cutAfter 4 ++ cutAfter 2)).map
      (fun t => (decide (t.set.Covers 4093), t.disk 4093)) = some (true, 0) := by decide
  obtain ⟨t, ran, same⟩ := Option.map_eq_some_iff.mp ends
  obtain ⟨covered, zeroed⟩ := Prod.mk.inj same
  refine ⟨initial_blank, t, ran, fun faithful => ?_⟩
  have right := faithful.bytes 4093 (of_decide_eq_true covered)
  rw [zeroed] at right
  exact absurd right (by decide)

/-- The state after an attempt cut at two bytes and a re-attempt cut at four. -/
def longerReattempt : Writing :=
  (run (next tail) blank (cutAfter 2 ++ cutAfter 4)).getD blank

theorem recorded_bytes_true_longer_reattempt :
    run (next tail) blank (cutAfter 2 ++ cutAfter 4) = some longerReattempt ∧ Faithful tail longerReattempt := by
  have ran : run (next tail) blank (cutAfter 2 ++ cutAfter 4) = some longerReattempt := rfl
  refine ⟨ran, recorded_bytes_true initial_blank ran ?_⟩
  refine .cons (fun b _ _ x _ _ => IntervalSet.covers_empty) rfl (.cons trivial rfl (.cons trivial rfl (.cons trivial rfl ?_)))
  refine .cons (fun b found _ x left _ covers => ?_) rfl (.cons trivial rfl (.cons trivial rfl (.cons trivial rfl trivial)))
  cases found
  have recorded : (IntervalSet.add (.empty 8192 (by decide)) 4090 4092).Covers x := covers
  simp only [IntervalSet.covers_add, IntervalSet.covers_empty, or_false] at recorded
  simp only at left
  omega

end Writing
end Hfdl.Transfer
