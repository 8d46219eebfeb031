import Hfdl.Filepath
import Hfdl.Transition
import Hfdl.Relational.Weight

/-! The on-disk cache of serialized xorb ranges: an index of the files in memory,
eviction of the least recently used entry, and the entries whose file could not be
removed. `lastPut` records what the last successful put of a key stored; no
operation reads it. -/
namespace Hfdl.Xet
open Relational Transition Filepath

structure CacheKey where
  xorb : PathText
  start : UInt32
  stop : UInt32
  deriving DecidableEq

structure CacheEntry where
  key : CacheKey
  size : Nat
  atime : Nat
  deriving DecidableEq

abbrev CacheIndex := Table CacheEntry CacheEntry.key

structure ChunkCache where
  dir : PathText
  maxBytes : Int
  entries : CacheIndex
  pending : CacheIndex
  total : Int
  clock : Nat
  files : PathText → Option (List UInt8)
  lastPut : CacheKey → Option (List UInt8)

def isHexDigit (c : Char) : Bool := ('0' ≤ c && c ≤ '9') || ('a' ≤ c && c ≤ 'f') || ('A' ≤ c && c ≤ 'F')

def isHexHash (s : PathText) : Bool := 0 < s.length && s.length ≤ 128 && s.all isHexDigit

def rangeFileName (key : CacheKey) : PathText :=
  Nat.toDigits 10 key.start.toNat ++ '-' :: Nat.toDigits 10 key.stop.toNat

def cachePath (dir : PathText) (key : CacheKey) : PathText := join [dir, key.xorb, rangeFileName key]

namespace ChunkCache

def path (c : ChunkCache) (key : CacheKey) : PathText := cachePath c.dir key

/-- The file of a key is gone, also when it was not there. -/
def unlink (c : ChunkCache) (key : CacheKey) : PathText → Option (List UInt8) :=
  Function.update c.files (c.path key) none

def reapOne (fails : CacheKey → Bool) (c : ChunkCache) (e : CacheEntry) : ChunkCache :=
  if fails e.key then c
  else { c with pending := c.pending.delete fun e' => e'.key = e.key, total := c.total - e.size, files := c.unlink e.key }

def reapPending (fails : CacheKey → Bool) (c : ChunkCache) : ChunkCache := c.pending.rows.foldl (reapOne fails) c

def oldest (c : ChunkCache) : Option CacheEntry := c.entries.first (fun _ => True) fun a b => a.atime < b.atime

def evictOne (fails : CacheKey → Bool) (c : ChunkCache) (e : CacheEntry) : ChunkCache :=
  if fails e.key then { c with entries := c.entries.delete fun e' => e'.key = e.key, pending := c.pending.assign e }
  else { c with entries := c.entries.delete fun e' => e'.key = e.key, total := c.total - e.size, files := c.unlink e.key }

/-- Each round takes one entry away, so as many rounds as there are entries are enough. -/
def evictRounds (fails : CacheKey → Bool) : Nat → ChunkCache → ChunkCache
  | 0, c => c
  | rounds + 1, c =>
    if c.total ≤ c.maxBytes then c
    else match c.oldest with
      | none => c
      | some e => evictRounds fails rounds (c.evictOne fails e)

/-- What can fail in one call: the removals tried again and those of the eviction. -/
structure Removals where
  reap : CacheKey → Bool
  evict : CacheKey → Bool

def evict (fails : Removals) (c : ChunkCache) : ChunkCache :=
  evictRounds fails.evict (c.reapPending fails.reap).entries.rows.length (c.reapPending fails.reap)

def store (c : ChunkCache) (key : CacheKey) (data : List UInt8) : ChunkCache :=
  { c with
    files := Function.update c.files (c.path key) (some data)
    total := c.total - (c.entries.get key).elim 0 (fun old => (old.size : Int)) + data.length
    clock := c.clock + 1
    entries := c.entries.assign ⟨key, data.length, c.clock + 1⟩
    lastPut := Function.update c.lastPut key (some data) }

/-- A put whose own writing fails leaves everything as it was. -/
def put (c : ChunkCache) (key : CacheKey) (data : List UInt8) (written : Bool) (fails : Removals) : ChunkCache :=
  if written then (c.store key data).evict fails else c

/-- A file that cannot be read in full is a miss and its entry is dropped. -/
def drop (c : ChunkCache) (e : CacheEntry) (removeFails : Bool) : ChunkCache :=
  { c with
    entries := c.entries.delete fun e' => e'.key = e.key
    total := c.total - e.size
    files := if removeFails then c.files else c.unlink e.key }

def touch (c : ChunkCache) (e : CacheEntry) : ChunkCache :=
  { c with clock := c.clock + 1, entries := c.entries.assign { e with atime := c.clock + 1 } }

def get (c : ChunkCache) (key : CacheKey) (readFails removeFails : Bool) : Option (List UInt8) × ChunkCache :=
  match c.entries.get key with
  | none => (none, c)
  | some e =>
    match if readFails then none else c.files (c.path key) with
    | none => (none, c.drop e removeFails)
    | some b => if b.length = e.size then (some b, c.touch e) else (none, c.drop e removeFails)

def scanOne (c : ChunkCache) (key : CacheKey) : ChunkCache :=
  match c.files (c.path key) with
  | none => c
  | some b =>
    { c with clock := c.clock + 1, total := c.total + b.length, entries := c.entries.assign ⟨key, b.length, c.clock + 1⟩ }

/-- The cache over a directory whose scan found some files, the oldest first. Directories
that are not named by a hash are skipped. -/
def openChunkCache (dir : PathText) (maxBytes : Int) (files : PathText → Option (List UInt8)) (found : List CacheKey)
    (fails : Removals) : ChunkCache :=
  evict fails <| (found.filter fun key => isHexHash key.xorb).foldl scanOne
    { dir, maxBytes, entries := .empty, pending := .empty, total := 0, clock := 0, files,
      lastPut := fun key => files (cachePath dir key) }

end ChunkCache

inductive CacheCall where
  | put (key : CacheKey) (data : List UInt8) (written : Bool) (fails : ChunkCache.Removals)
  | get (key : CacheKey) (readFails removeFails : Bool)

def ChunkCache.next (c : ChunkCache) : CacheCall → Option ChunkCache
  | .put key data written fails => some (c.put key data written fails)
  | .get key readFails removeFails => some (c.get key readFails removeFails).2

section Paths

theorem plain_hex (hex : isHexHash s = true) : Plain s := by
  simp only [isHexHash, Bool.and_eq_true, decide_eq_true_eq, List.all_eq_true] at hex
  obtain ⟨⟨some, _⟩, all⟩ := hex
  have dots : '.' ∉ s := fun held => absurd (all '.' held) (by decide)
  refine ⟨List.ne_nil_of_length_pos some, ?_, ?_, fun held => absurd (all '/' held) (by decide)⟩
  · rintro rfl
    exact dots (by decide)
  · rintro rfl
    exact dots (by decide)

theorem not_mem_digits (other : c.isDigit = false) (n : Nat) : c ∉ Nat.toDigits 10 n := by
  intro held
  have digit := Nat.isDigit_of_mem_toDigits (by decide) (by decide) held
  rw [other] at digit
  cases digit

theorem plain_rangeFileName (key : CacheKey) : Plain (rangeFileName key) := by
  have dash : '-' ∈ rangeFileName key := by simp [rangeFileName]
  refine ⟨List.ne_nil_of_mem dash, ?_, ?_, ?_⟩
  · intro same
    rw [same] at dash
    exact absurd dash (by decide)
  · intro same
    rw [same] at dash
    exact absurd dash (by decide)
  · simp only [rangeFileName, List.mem_append, List.mem_cons, not_or]
    exact ⟨not_mem_digits (by decide) _, by decide, not_mem_digits (by decide) _⟩

theorem toDigits_injective {m n : Nat} (same : Nat.toDigits 10 m = Nat.toDigits 10 n) : m = n := by
  rw [← Nat.ofDigitChars_ten_toDigits (n := m), same, Nat.ofDigitChars_ten_toDigits]

/-- Keys named by hashes have files of their own. -/
theorem cachePath_injective (dir : PathText) (hex : isHexHash k.xorb = true) (hex' : isHexHash k'.xorb = true)
    (same : cachePath dir k = cachePath dir k') : k = k' := by
  have plain : ∀ k : CacheKey, isHexHash k.xorb = true → ∀ d ∈ [k.xorb, rangeFileName k], Plain d := by
    intro k hex d member
    rcases List.mem_cons.mp member with rfl | member
    · exact plain_hex hex
    · rw [List.mem_singleton.mp member]
      exact plain_rangeFileName k
  have names := join_injective dir (plain k hex) (plain k' hex') (by simp) (by simp) same
  obtain ⟨xorbs, ranges⟩ : k.xorb = k'.xorb ∧ rangeFileName k = rangeFileName k' := by simpa using names
  have dash : '-'.isDigit = false := by decide
  obtain ⟨starts, _, stops⟩ := (List.append_cons_inj_of_notMem (not_mem_digits dash _) (not_mem_digits dash _)).mp ranges
  have start := UInt32.toNat_inj.mp (toDigits_injective starts)
  have stop := UInt32.toNat_inj.mp (toDigits_injective stops)
  cases k
  cases k'
  simp_all

end Paths

def weigh (index : CacheIndex) : Nat := index.weight CacheEntry.size

/-- What every call keeps: the accounting, that no key is both indexed and waiting for
its removal, and that an indexed key has the file of its last put. -/
structure ChunkCache.Kept (c : ChunkCache) : Prop where
  total : c.total = weigh c.entries + weigh c.pending
  apart : ∀ e ∈ c.entries, c.pending.get e.key = none
  named : ∀ e ∈ c.entries, isHexHash e.key.xorb = true
  waiting : ∀ e ∈ c.pending, isHexHash e.key.xorb = true
  stored : ∀ e ∈ c.entries, ∃ b, c.files (c.path e.key) = some b ∧ b.length = e.size ∧ c.lastPut e.key = some b

def ChunkCache.Bounded (c : ChunkCache) : Prop := c.total ≤ c.maxBytes ∨ c.entries.rows = []

namespace ChunkCache
variable {c : ChunkCache} {e e' : CacheEntry} {rows : List CacheEntry} {fails : CacheKey → Bool}

theorem unlink_other (hex : isHexHash k.xorb = true) (hex' : isHexHash k'.xorb = true) (other : k' ≠ k) :
    c.unlink k (c.path k') = c.files (c.path k') := by
  apply Function.update_of_ne
  intro same
  exact other (cachePath_injective c.dir hex' hex same)

theorem weigh_delete (stored : e ∈ index) : weigh (index.delete fun e' => e'.key = e.key) + e.size = weigh index :=
  Table.weight_delete stored

theorem Kept.evictOne (kept : Kept c) (stored : e ∈ c.entries) : Kept (c.evictOne fails e) := by
  have weight := weigh_delete stored
  have total := kept.total
  unfold ChunkCache.evictOne
  split
  · have absent := kept.apart e stored
    have moved : weigh (c.pending.assign e) = weigh c.pending + e.size := by
      have assigned := Table.weight_assign (t := c.pending) (f := CacheEntry.size) (r := e)
      rw [absent] at assigned
      exact assigned
    constructor
    · show c.total = _
      simp only
      rw [moved]
      omega
    · intro e' member
      obtain ⟨inside, other⟩ := Table.mem_delete.mp member
      rw [Table.get_assign, if_neg other]
      exact kept.apart e' inside
    · exact fun e' member => kept.named e' (Table.mem_delete.mp member).1
    · intro e' member
      rcases Table.mem_assign.mp member with ⟨inside, _⟩ | rfl
      · exact kept.waiting e' inside
      · exact kept.named e' stored
    · exact fun e' member => kept.stored e' (Table.mem_delete.mp member).1
  · constructor
    · simp only
      omega
    · exact fun e' member => kept.apart e' (Table.mem_delete.mp member).1
    · exact fun e' member => kept.named e' (Table.mem_delete.mp member).1
    · exact kept.waiting
    · intro e' member
      obtain ⟨inside, other⟩ := Table.mem_delete.mp member
      obtain ⟨b, here, size, last⟩ := kept.stored e' inside
      exact ⟨b, (unlink_other (kept.named e stored) (kept.named e' inside) other).trans here, size, last⟩

theorem Kept.reapOne (kept : Kept c) (waits : e ∈ c.pending) : Kept (c.reapOne fails e) := by
  have weight := weigh_delete waits
  have total := kept.total
  unfold ChunkCache.reapOne
  split
  · exact kept
  · constructor
    · simp only
      omega
    · intro e' member
      show (c.pending.delete _).get e'.key = none
      rw [Table.get_delete, kept.apart e' member, ite_self]
    · exact kept.named
    · exact fun e' member => kept.waiting e' (Table.mem_delete.mp member).1
    · intro e' member
      have other : e'.key ≠ e.key := fun same => Table.get_eq_none.mp (kept.apart e' member) e waits same.symm
      obtain ⟨b, here, size, last⟩ := kept.stored e' member
      exact ⟨b, (unlink_other (kept.waiting e waits) (kept.named e' member) other).trans here, size, last⟩

structure Spares (c d : ChunkCache) : Prop where
  entries : d.entries = c.entries
  dir : d.dir = c.dir
  files : ∀ e ∈ c.entries, d.files (d.path e.key) = c.files (c.path e.key)

theorem Spares.trans (first : Spares c d) (second : Spares d d') : Spares c d' := by
  refine ⟨second.entries.trans first.entries, second.dir.trans first.dir, ?_⟩
  intro e member
  rw [second.files e (by rwa [first.entries]), first.files e member]

theorem Kept.reapOne_spares (kept : Kept c) (waits : e ∈ c.pending) : Spares c (c.reapOne fails e) := by
  unfold ChunkCache.reapOne
  split
  · exact ⟨rfl, rfl, fun _ _ => rfl⟩
  · refine ⟨rfl, rfl, ?_⟩
    intro e' member
    have other : e'.key ≠ e.key := fun same => Table.get_eq_none.mp (kept.apart e' member) e waits same.symm
    show c.unlink e.key (c.path e'.key) = _
    exact unlink_other (kept.waiting e waits) (kept.named e' member) other

theorem mem_pending_reapOne (waits : e' ∈ c.pending) (other : e'.key ≠ e.key) : e' ∈ (c.reapOne fails e).pending := by
  unfold ChunkCache.reapOne
  split
  · exact waits
  · exact Table.mem_delete.mpr ⟨waits, other⟩

theorem Kept.reapRows (kept : Kept c) (waits : ∀ e ∈ rows, e ∈ c.pending) (distinct : (rows.map CacheEntry.key).Nodup) :
    Kept (rows.foldl (ChunkCache.reapOne fails) c) ∧ Spares c (rows.foldl (ChunkCache.reapOne fails) c) := by
  induction rows generalizing c with
  | nil => exact ⟨kept, rfl, rfl, fun _ _ => rfl⟩
  | cons e rows ih =>
    have here := waits e List.mem_cons_self
    obtain ⟨fresh, distinct⟩ := List.nodup_cons.mp distinct
    have still : ∀ e' ∈ rows, e' ∈ (c.reapOne fails e).pending := by
      intro e' member
      apply mem_pending_reapOne (waits e' (List.mem_cons_of_mem _ member))
      intro same
      exact fresh (same ▸ List.mem_map_of_mem member)
    obtain ⟨after, spares⟩ := ih (kept.reapOne here) still distinct
    exact ⟨after, (kept.reapOne_spares here).trans spares⟩

theorem Kept.reapPending (kept : Kept c) (fails : CacheKey → Bool) :
    Kept (c.reapPending fails) ∧ Spares c (c.reapPending fails) :=
  kept.reapRows (fun _ => id) c.pending.distinct

theorem mem_of_oldest (found : c.oldest = some e) : e ∈ c.entries := (Table.mem_of_first found).1

theorem Kept.evictRounds (kept : Kept c) : Kept (evictRounds fails rounds c) := by
  induction rounds generalizing c with
  | zero => exact kept
  | succ rounds ih =>
    unfold ChunkCache.evictRounds
    split
    · exact kept
    · split
      · exact kept
      · case h_2 found => exact ih (kept.evictOne (mem_of_oldest found))

theorem evictOne_length (fails : CacheKey → Bool) (stored : e ∈ c.entries) :
    (c.evictOne fails e).entries.rows.length < c.entries.rows.length := by
  have entries : (c.evictOne fails e).entries = c.entries.delete fun e' => e'.key = e.key := by
    unfold ChunkCache.evictOne
    split <;> rfl
  rw [entries]
  apply List.length_filter_lt_length_iff_exists.mpr
  exact ⟨e, stored, by simp⟩

theorem bounded_evictRounds (enough : c.entries.rows.length ≤ rounds) : Bounded (evictRounds fails rounds c) := by
  induction rounds generalizing c with
  | zero => exact Or.inr (List.eq_nil_of_length_eq_zero (Nat.le_zero.mp enough))
  | succ rounds ih =>
    unfold ChunkCache.evictRounds
    split
    · case isTrue within => exact Or.inl within
    · split
      · case h_1 none =>
        refine Or.inr (List.eq_nil_iff_forall_not_mem.mpr ?_)
        intro e member
        exact Table.first_eq_none.mp none e member trivial
      · case h_2 e found =>
        have fewer := evictOne_length fails (mem_of_oldest found)
        exact ih (by omega)

theorem Kept.evict (kept : Kept c) : Kept (c.evict removals) ∧ Bounded (c.evict removals) :=
  ⟨(kept.reapPending removals.reap).1.evictRounds, bounded_evictRounds (Nat.le_refl _)⟩

theorem Kept.store (kept : Kept c) (hex : isHexHash key.xorb = true) (fresh : c.pending.get key = none) :
    Kept (c.store key data) := by
  constructor
  · have total := kept.total
    have assigned : weigh (c.entries.assign ⟨key, data.length, c.clock + 1⟩) + (c.entries.get key).elim 0 CacheEntry.size =
        weigh c.entries + data.length := Table.weight_assign
    have size : (c.entries.get key).elim 0 (fun old => (old.size : Int)) =
      ((c.entries.get key).elim 0 CacheEntry.size : Nat) := by
      cases c.entries.get key <;> rfl
    simp only [ChunkCache.store, size]
    omega
  · intro e member
    rcases Table.mem_assign.mp member with ⟨inside, _⟩ | rfl
    · exact kept.apart e inside
    · exact fresh
  · intro e member
    rcases Table.mem_assign.mp member with ⟨inside, _⟩ | rfl
    · exact kept.named e inside
    · exact hex
  · exact kept.waiting
  · intro e member
    rcases Table.mem_assign.mp member with ⟨inside, other⟩ | rfl
    · obtain ⟨b, here, size, last⟩ := kept.stored e inside
      refine ⟨b, ?_, size, ?_⟩
      · show Function.update c.files (c.path key) (some data) (c.path e.key) = some b
        have apart : c.path e.key ≠ c.path key := fun same => other (cachePath_injective c.dir (kept.named e inside) hex same)
        rw [Function.update_of_ne apart, here]
      · show Function.update c.lastPut key (some data) e.key = some b
        rw [Function.update_of_ne other, last]
    · exact ⟨data, Function.update_self .., rfl, Function.update_self ..⟩

theorem Kept.drop (kept : Kept c) (stored : e ∈ c.entries) : Kept (c.drop e removeFails) := by
  have weight := weigh_delete stored
  have total := kept.total
  constructor
  · simp only [ChunkCache.drop]
    omega
  · exact fun e' member => kept.apart e' (Table.mem_delete.mp member).1
  · exact fun e' member => kept.named e' (Table.mem_delete.mp member).1
  · exact kept.waiting
  · intro e' member
    obtain ⟨inside, other⟩ := Table.mem_delete.mp member
    obtain ⟨b, here, size, last⟩ := kept.stored e' inside
    refine ⟨b, ?_, size, last⟩
    show (if removeFails = true then c.files else c.unlink e.key) (c.path e'.key) = some b
    split
    · exact here
    · exact (unlink_other (kept.named e stored) (kept.named e' inside) other).trans here

theorem Kept.touch (kept : Kept c) (stored : e ∈ c.entries) : Kept (c.touch e) := by
  constructor
  · have total := kept.total
    have assigned : weigh (c.entries.assign { e with atime := c.clock + 1 }) + (c.entries.get e.key).elim 0 CacheEntry.size =
        weigh c.entries + e.size := Table.weight_assign
    rw [Table.get_eq_some.mpr ⟨stored, rfl⟩, Option.elim_some] at assigned
    simp only [ChunkCache.touch]
    omega
  · intro e' member
    rcases Table.mem_assign.mp member with ⟨inside, _⟩ | rfl
    · exact kept.apart e' inside
    · exact kept.apart e stored
  · intro e' member
    rcases Table.mem_assign.mp member with ⟨inside, _⟩ | rfl
    · exact kept.named e' inside
    · exact kept.named e stored
  · exact kept.waiting
  · intro e' member
    rcases Table.mem_assign.mp member with ⟨inside, _⟩ | rfl
    · exact kept.stored e' inside
    · exact kept.stored e stored

theorem get_cases (c : ChunkCache) (key : CacheKey) (readFails removeFails : Bool) :
    c.get key readFails removeFails = (none, c) ∨
    ∃ e ∈ c.entries, e.key = key ∧ (c.get key readFails removeFails = (none, c.drop e removeFails) ∨
      ∃ b, c.files (c.path key) = some b ∧ b.length = e.size ∧ c.get key readFails removeFails = (some b, c.touch e)) := by
  unfold ChunkCache.get
  split
  · exact Or.inl rfl
  · case h_2 e found =>
    obtain ⟨stored, same⟩ := Table.get_eq_some.mp found
    refine Or.inr ⟨e, stored, same, ?_⟩
    split
    · exact Or.inl rfl
    · case h_2 b read =>
      split
      · case isTrue size =>
        split at read
        · cases read
        · exact Or.inr ⟨b, read, size, rfl⟩
      · exact Or.inl rfl

theorem Kept.get (kept : Kept c) : Kept (c.get key readFails removeFails).2 := by
  rcases c.get_cases key readFails removeFails with miss | ⟨e, stored, _, dropped | ⟨b, _, _, hit⟩⟩
  · rwa [miss]
  · rw [dropped]
    exact kept.drop stored
  · rw [hit]
    exact kept.touch stored

theorem Bounded.get (bounded : Bounded c) : Bounded (c.get key readFails removeFails).2 := by
  rcases c.get_cases key readFails removeFails with miss | ⟨e, stored, _, dropped | ⟨b, _, _, hit⟩⟩
  · rwa [miss]
  · rw [dropped]
    rcases bounded with within | none
    · refine Or.inl ?_
      show c.total - e.size ≤ c.maxBytes
      omega
    · exact absurd stored (by rw [Table.mem_def, none]; exact List.not_mem_nil)
  · rw [hit]
    rcases bounded with within | none
    · exact Or.inl within
    · exact absurd stored (by rw [Table.mem_def, none]; exact List.not_mem_nil)

theorem Kept.hit (kept : Kept c) (returned : (c.get key readFails removeFails).1 = some b) : c.lastPut key = some b := by
  rcases c.get_cases key readFails removeFails with miss | ⟨e, stored, rfl, dropped | ⟨b', here, _, hit⟩⟩
  · rw [miss] at returned
    cases returned
  · rw [dropped] at returned
    cases returned
  · rw [hit] at returned
    cases returned
    obtain ⟨b', there, _, last⟩ := kept.stored e stored
    rw [here] at there
    cases there
    exact last

/-- While the directory is scanned nothing waits for its removal and the last put of a
key is what its file holds. -/
structure Scanning (c : ChunkCache) : Prop where
  kept : Kept c
  unfailed : c.pending = .empty
  disk : ∀ key, c.lastPut key = c.files (c.path key)

theorem Scanning.scanOne (scanning : Scanning c) (hex : isHexHash key.xorb = true) (fresh : c.entries.get key = none) :
    Scanning (c.scanOne key) := by
  unfold ChunkCache.scanOne
  split
  · exact scanning
  · case h_2 b here =>
    have kept := scanning.kept
    refine ⟨?_, scanning.unfailed, scanning.disk⟩
    constructor
    · have total := kept.total
      have assigned : weigh (c.entries.assign ⟨key, b.length, c.clock + 1⟩) + (c.entries.get key).elim 0 CacheEntry.size =
          weigh c.entries + b.length := Table.weight_assign
      rw [fresh, Option.elim_none] at assigned
      simp only
      omega
    · intro e _
      show c.pending.get e.key = none
      rw [scanning.unfailed]
      rfl
    · intro e member
      rcases Table.mem_assign.mp member with ⟨inside, _⟩ | rfl
      · exact kept.named e inside
      · exact hex
    · exact kept.waiting
    · intro e member
      rcases Table.mem_assign.mp member with ⟨inside, _⟩ | rfl
      · exact kept.stored e inside
      · exact ⟨b, here, rfl, (scanning.disk key).trans here⟩

theorem get_scanOne (other : k ≠ key) : (c.scanOne key).entries.get k = c.entries.get k := by
  unfold ChunkCache.scanOne
  split
  · rfl
  · exact (Table.get_assign k).trans (if_neg other)

theorem Scanning.scan {keys : List CacheKey} (scanning : Scanning c) (hex : ∀ key ∈ keys, isHexHash key.xorb = true)
    (fresh : ∀ key ∈ keys, c.entries.get key = none) (distinct : keys.Nodup) : Scanning (keys.foldl ChunkCache.scanOne c) := by
  induction keys generalizing c with
  | nil => exact scanning
  | cons key keys ih =>
    obtain ⟨absent, distinct⟩ := List.nodup_cons.mp distinct
    apply ih
    · exact scanning.scanOne (hex key List.mem_cons_self) (fresh key List.mem_cons_self)
    · exact fun k member => hex k (List.mem_cons_of_mem _ member)
    · intro k member
      have other : k ≠ key := by
        rintro rfl
        exact absent member
      rw [get_scanOne other]
      exact fresh k (List.mem_cons_of_mem _ member)
    · exact distinct

theorem kept_openChunkCache (place : PathText) (cap : Int) (disk : PathText → Option (List UInt8)) {found : List CacheKey}
    (removals : Removals) (distinct : found.Nodup) :
    Kept (openChunkCache place cap disk found removals) ∧ Bounded (openChunkCache place cap disk found removals) := by
  apply Kept.evict
  refine Scanning.kept (Scanning.scan ⟨⟨rfl, ?_, ?_, ?_, ?_⟩, rfl, fun _ => rfl⟩ ?_ ?_ (distinct.filter _))
  · exact fun e member => absurd member (Table.not_mem_empty e)
  · exact fun e member => absurd member (Table.not_mem_empty e)
  · exact fun e member => absurd member (Table.not_mem_empty e)
  · exact fun e member => absurd member (Table.not_mem_empty e)
  · exact fun key member => (List.mem_filter.mp member).2
  · exact fun _ _ => rfl

/-- A put is of a key named by a hash that is not waiting for its removal. -/
def Admits (c : ChunkCache) : CacheCall → Prop
  | .put key _ written _ => written = true → isHexHash key.xorb = true ∧ c.pending.get key = none
  | .get .. => True

instance (c : ChunkCache) : DecidablePred c.Admits := fun e => by
  unfold Admits
  split <;> infer_instance

theorem next_kept (held : Kept c ∧ Bounded c) (admits : c.Admits call) (stepped : c.next call = some d) :
    Kept d ∧ Bounded d := by
  cases call with
  | put key data written removals =>
    cases stepped
    unfold ChunkCache.put
    split
    · case isTrue written =>
      obtain ⟨hex, fresh⟩ := admits written
      exact (held.1.store hex fresh).evict
    · exact held
  | get key readFails removeFails =>
    cases stepped
    exact ⟨held.1.get, held.2.get⟩

/-- From any scanned directory, over every sequence of calls that puts no key still
waiting for its removal: the total is the bytes of both indexes, the cap holds or the
index is empty, a hit returns the bytes of the last put, and the file of an indexed key
is that put's and survives every retried removal. -/
theorem chunk_cache_exact (dir : PathText) (maxBytes : Int) (files : PathText → Option (List UInt8)) (found : List CacheKey)
    (removals : Removals) (distinct : found.Nodup) (calls : List CacheCall) (c : ChunkCache)
    (ran : run ChunkCache.next (openChunkCache dir maxBytes files found removals) calls = some c)
    (admits : Meets ChunkCache.next Admits (openChunkCache dir maxBytes files found removals) calls) :
    c.total = weigh c.entries + weigh c.pending ∧ (c.total ≤ c.maxBytes ∨ c.entries.rows = []) ∧
      (∀ key readFails removeFails b, (c.get key readFails removeFails).1 = some b → c.lastPut key = some b) ∧
      ∀ e ∈ c.entries, c.files (c.path e.key) = c.lastPut e.key ∧ (c.files (c.path e.key)).isSome = true ∧
        ∀ fails, (c.reapPending fails).files (c.path e.key) = c.files (c.path e.key) := by
  obtain ⟨kept, bounded⟩ := invariant_meeting next_kept (kept_openChunkCache dir maxBytes files removals distinct) ran admits
  refine ⟨kept.total, bounded, fun key readFails removeFails b returned => kept.hit returned, ?_⟩
  intro e member
  obtain ⟨b, here, _, last⟩ := kept.stored e member
  refine ⟨here.trans last.symm, by rw [here]; rfl, ?_⟩
  intro fails
  obtain ⟨_, spares⟩ := kept.reapPending fails
  have same := spares.files e member
  rwa [path, spares.dir] at same

/-- Nothing can be removed, or everything. -/
def blocked : Removals := ⟨fun _ => true, fun _ => true⟩
def unblocked : Removals := ⟨fun _ => false, fun _ => false⟩

def sampleKey (n : UInt32) : CacheKey := ⟨['a'], n, n + 1⟩

/-- A directory with one file of two bytes under a cap of three. The put of a second key
evicts both, since a file that cannot be removed still counts; the next put removes them. -/
theorem chunk_cache_exact_retried :
    ∃ c, run ChunkCache.next
        (openChunkCache ['d'] 3 (fun p => if p = cachePath ['d'] (sampleKey 0) then some [7, 7] else none) [sampleKey 0] blocked)
        [.put (sampleKey 1) [1, 2] true blocked, .get (sampleKey 1) false false, .put (sampleKey 2) [3] true unblocked] = some c ∧
      c.total = weigh c.entries + weigh c.pending ∧ c.total = 1 ∧ c.lastPut (sampleKey 2) = some [3] := by
  have ran : ∃ c, run ChunkCache.next
        (openChunkCache ['d'] 3 (fun p => if p = cachePath ['d'] (sampleKey 0) then some [7, 7] else none) [sampleKey 0] blocked)
        [.put (sampleKey 1) [1, 2] true blocked, .get (sampleKey 1) false false, .put (sampleKey 2) [3] true unblocked] = some c ∧
      c.total = 1 ∧ c.lastPut (sampleKey 2) = some [3] := ⟨_, rfl, by decide, by decide⟩
  obtain ⟨c, ran, total, last⟩ := ran
  refine ⟨c, ran, ?_, total, last⟩
  exact (chunk_cache_exact _ _ _ _ _ (by decide) _ c ran (by decide)).1

/-- A key that is put again while its old file waits for removal: the retry deletes the
new file of the indexed key, and a second failed eviction leaves the total too large. -/
theorem reput_waiting_breaks :
    (∃ c, run ChunkCache.next (openChunkCache ['d'] 1 (fun _ => none) [] unblocked)
        [.put (sampleKey 0) [1, 2] true blocked, .put (sampleKey 0) [3] true unblocked] = some c ∧
      (c.entries.get (sampleKey 0)).isSome = true ∧ c.files (c.path (sampleKey 0)) = none ∧
      c.lastPut (sampleKey 0) = some [3]) ∧
    ∃ c, run ChunkCache.next (openChunkCache ['d'] 0 (fun _ => none) [] unblocked)
        [.put (sampleKey 0) [1] true blocked, .put (sampleKey 0) [2] true blocked] = some c ∧
      c.total = 2 ∧ weigh c.entries + weigh c.pending = 1 :=
  ⟨⟨_, rfl, by decide, by decide, by decide⟩, ⟨_, rfl, by decide, by decide⟩⟩

end ChunkCache
end Hfdl.Xet
