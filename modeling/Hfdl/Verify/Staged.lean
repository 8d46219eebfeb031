import Hfdl.Contents
import Hfdl.Fcio.ReadAll
import Hfdl.Transfer.Upstreams
import Hfdl.Verify.DeSparse

/-! The staging file of a download from its opening to its publication. The path may hold the bytes of an earlier use:
opening it allocates up to the size and cuts nothing off, and verification reads as far as the file goes. -/
namespace Hfdl.Verify
open Contents Indexed Transition

inductive OpenError where
  | fallocate
deriving DecidableEq, Repr

/-- `Open` on a staging path that may hold bytes; an allocation that is not supported is left out. -/
def openFile (prior : Option (List UInt8)) (size : Int) (fallocate : Fallocate) : Except OpenError (List UInt8) :=
  let contents := prior.getD []
  if size < 0 then .ok contents
  else
    match fallocate with
    | .done => .ok (extend 0 size.toNat contents)
    | .unsupported => .ok contents
    | .failed => .error .fallocate

structure Download (source : List UInt8) where
  prior : Option (List UInt8)
  fallocate : Fallocate
  opened : List UInt8
  opens : openFile prior source.length fallocate = .ok opened
  writes : List (Nat × List UInt8)
  inside : ∀ w ∈ writes, w.1 + w.2.length ≤ source.length
  sourced : ∀ w ∈ writes, w.2 = slice source w.1 (w.1 + w.2.length)
  written : ∀ x < source.length, ∃ w ∈ writes, w.1 ≤ x ∧ x < w.1 + w.2.length

def Download.staged (d : Download source) : List UInt8 := fill 0 d.opened d.writes

/-- What `DeSparse` meets on a file. The extents are sorted ranges, and the file reads as zeros outside them. -/
structure Disk (staged : List UInt8) where
  fallocate : Fallocate
  pool : Option Checker
  extents : Option (List Interval)
  densifies : Bool
  ranges : ∀ es ∈ extents, ∀ ex ∈ es, ex.start ≤ ex.stop
  apart : ∀ es ∈ extents, es.Pairwise fun a b => a.stop ≤ b.start
  holes : ∀ es ∈ extents, ∀ x < staged.length, ¬ Covered es x → staged[x]? = some 0

namespace Disk
variable {staged : List UInt8} (disk : Disk staged)

def deSparsed (size : Int) : DeSparsed := deSparse disk.fallocate disk.pool disk.extents disk.densifies size

def zeros (v : Interval) : Nat × List UInt8 := (v.start.toNat, List.replicate (v.stop - v.start).toNat 0)

/-- The file that `DeSparse` leaves. -/
def contents (size : Int) : List UInt8 :=
  let allocated := if disk.fallocate = .done then extend 0 size.toNat staged else staged
  fill 0 allocated ((disk.deSparsed size).writes.map zeros)

end Disk

structure Hashes where
  sha256 : List UInt8 → Text
  sha1 : List UInt8 → Text

def blobHeader (size : Int) : List UInt8 := s!"blob {size}".toList.map (fun c => c.toNat.toUInt8) ++ [0]

/-- The verify target of a file's bytes; the header names the size of the listing. -/
def Hashes.target (h : Hashes) (size : Int) (isLFS : Bool) (bytes : List UInt8) : Text :=
  if isLFS then h.sha256 bytes else h.sha1 (blobHeader size ++ bytes)

/-- A verification: whether its calls succeed, and what `ReadAll` gives the hash. -/
structure Verification (staged : List UInt8) (size : Int) extends Disk staged where
  opens : Bool
  syncs : Bool
  syncsAgain : Bool
  chunks : Option (List (Nat × List UInt8))
  reads : ∀ cs ∈ chunks, ReadsAll (toDisk.contents size) cs

inductive VerifyError where
  | open_
  | fsync
  | deSparse (e : DeSparseError)
  | read
  | mismatch (want got : Text)
deriving DecidableEq, Repr

structure Goal where
  isLFS : Bool
  want : Text
deriving DecidableEq, Repr

namespace Verification
variable {staged : List UInt8} {size : Int} (v : Verification staged size) (h : Hashes) (fold : Char → Char) (goal : Goal)

/-- `Verify` feeds the hash chunk after chunk. -/
def verify : Except VerifyError Unit :=
  match v.chunks with
  | none => .error .read
  | some cs =>
    let got := h.target size goal.isLFS (bytesOf cs)
    if equalFold fold got goal.want then .ok () else .error (.mismatch goal.want got)

def verifyFile : Except VerifyError Unit :=
  if !v.opens then .error .open_
  else if !v.syncs then .error .fsync
  else
    match (v.deSparsed size).result with
    | .error e => .error (.deSparse e)
    | .ok _ => if !v.syncsAgain then .error .fsync else v.verify h fold goal

def verdict : Option Bool :=
  match v.verifyFile h fold goal with
  | .ok () => some true
  | .error (.mismatch _ _) => some false
  | .error _ => none

def Succeeds : Prop :=
  v.opens = true ∧ v.syncs = true ∧ (∃ r, (v.deSparsed size).result = .ok r) ∧ v.syncsAgain = true ∧ v.chunks ≠ none

end Verification

/-- `Publish` links the staging file under the blob's name; a blob of that name and of the same size is kept instead. -/
def publish (existing : Option (List UInt8)) (contents : List UInt8) : Option (List UInt8) :=
  match existing with
  | none => some contents
  | some blob => if contents.length = blob.length then some blob else none

def Verification.published (v : Verification staged size) (h : Hashes) (fold : Char → Char) (goal : Goal)
    (existing : Option (List UInt8)) : Option (List UInt8) :=
  match v.verifyFile h fold goal with
  | .ok () => publish existing (v.contents size)
  | .error _ => none

theorem openFile_drop (opens : openFile prior size fallocate = .ok opened) :
    opened.drop size.toNat = (prior.getD []).drop size.toNat := by
  simp only [openFile] at opens
  split at opens
  · cases opens
    rfl
  · cases fallocate with
    | done =>
      cases opens
      exact drop_extend
    | unsupported =>
      cases opens
      rfl
    | failed => cases opens

theorem Download.staged_eq (d : Download source) : d.staged = source ++ (d.prior.getD []).drop source.length := by
  have sourced : ∀ w ∈ d.writes, ∀ k < w.2.length, w.2[k]? = source[w.1 + k]? := by
    intro w member k inside
    conv_lhs => rw [d.sourced w member]
    rw [getElem?_slice, if_pos (by omega)]
  have behind := openFile_drop d.opens
  rw [Int.toNat_natCast] at behind
  rw [staged, fill_covering sourced d.inside d.written, behind]

namespace Disk
variable {staged : List UInt8}

theorem deSparsed_hole (disk : Disk staged) (written : v ∈ (disk.deSparsed size).writes) :
    v.start < v.stop ∧ ∀ x, v.Has x → ∃ es ∈ disk.extents, (0 ≤ x ∧ x < size) ∧ ¬ Covered es x := by
  simp only [deSparsed, deSparse] at written
  split at written
  · cases written
  · cases written
  · split at written
    · cases written
    · cases written
    · rename_i c es pooled reported
      have adds : Adds c.slab ⟨0, [], 0⟩ _ (Checker.Hole size es 0) _ :=
        Checker.walkAll_adds (disk.ranges es reported) (disk.apart es reported)
      have member : v ∈ (c.walkAll size es).1.writes := by
        split at written <;> simp_all only
      constructor
      · exact ((adds.sized v member).resolve_left List.not_mem_nil).1
      · intro x has
        have hit : 0 < hits (c.walkAll size es).1.writes x :=
          List.countP_pos_iff.mpr ⟨v, member, decide_eq_true has⟩
        have within := adds.within x
        refine ⟨es, reported, ?_⟩
        by_contra none_
        rw [if_neg none_] at within
        exact absurd hit (Nat.not_lt.mpr within)

/-- On a file that reaches its size `DeSparse` changes no byte. -/
theorem contents_eq (disk : Disk staged) (long : size.toNat ≤ staged.length) : disk.contents size = staged := by
  have allocated : (if disk.fallocate = .done then extend 0 size.toNat staged else staged) = staged := by
    rw [extend_of_le long, ite_self]
  rw [contents, allocated]
  apply fill_same
  intro w member k inside
  obtain ⟨v, written, rfl⟩ := List.mem_map.mp member
  obtain ⟨filled, holes⟩ := disk.deSparsed_hole written
  simp only [zeros, List.length_replicate] at inside ⊢
  obtain ⟨_, _, start, -⟩ := holes v.start ⟨Int.le_refl _, filled⟩
  obtain ⟨es, reported, range, uncovered⟩ := holes (v.start + k) ⟨by omega, by omega⟩
  rw [List.getElem?_replicate_of_lt inside]
  refine disk.holes es reported _ (by omega) ?_
  rwa [show ((v.start.toNat + k : Nat) : Int) = v.start + k by omega]

end Disk

def VerifyError.Broken : VerifyError → Prop
  | .mismatch _ _ => False
  | _ => True

namespace Verification
variable {staged : List UInt8} {size : Int} (v : Verification staged size) (h : Hashes) (fold : Char → Char) (goal : Goal)

theorem verifyFile_cases (long : size.toNat ≤ staged.length) :
    (∃ e, v.verifyFile h fold goal = .error e ∧ e.Broken ∧ ¬ v.Succeeds) ∨
      v.verifyFile h fold goal =
        if equalFold fold (h.target size goal.isLFS staged) goal.want then .ok ()
        else .error (.mismatch goal.want (h.target size goal.isLFS staged)) := by
  have read : ∀ cs ∈ v.chunks, bytesOf cs = staged := fun cs member =>
    (v.reads cs member).bytes.trans (v.contents_eq long)
  simp only [verifyFile]
  split
  · rename_i closed
    exact .inl ⟨_, rfl, trivial, fun all => by simp [all.1] at closed⟩
  · split
    · rename_i unsynced
      exact .inl ⟨_, rfl, trivial, fun all => by simp [all.2.1] at unsynced⟩
    · split
      · rename_i e failed
        refine .inl ⟨_, rfl, trivial, fun all => ?_⟩
        obtain ⟨r, done⟩ := all.2.2.1
        cases failed.symm.trans done
      · split
        · rename_i unsynced
          exact .inl ⟨_, rfl, trivial, fun all => by simp [all.2.2.2.1] at unsynced⟩
        · simp only [verify]
          cases got : v.chunks with
          | none => exact .inl ⟨_, rfl, trivial, fun all => all.2.2.2.2 got⟩
          | some cs =>
            right
            simp only [read cs got]

theorem verdict_cases (long : size.toNat ≤ staged.length) :
    (v.verdict h fold goal = none ∧ ¬ v.Succeeds) ∨
      v.verdict h fold goal = some (decide (equalFold fold (h.target size goal.isLFS staged) goal.want)) := by
  obtain ⟨e, failed, broken, calls⟩ | result := v.verifyFile_cases h fold goal long
  · refine .inl ⟨?_, calls⟩
    rw [verdict, failed]
    cases e with
    | mismatch want got => cases broken
    | open_ | fsync | deSparse | read => rfl
  · right
    rw [verdict, result]
    by_cases same : equalFold fold (h.target size goal.isLFS staged) goal.want
    · rw [if_pos same, decide_eq_true same]
    · rw [if_neg same, decide_eq_false same]

/-- What is published is the whole file, or the blob of the same length that was there. -/
theorem published_eq (long : size.toNat ≤ staged.length) (out : v.published h fold goal existing = some blob) :
    existing = none ∧ blob = staged ∨ existing = some blob ∧ blob.length = staged.length := by
  rw [published] at out
  split at out
  · rw [v.contents_eq long] at out
    cases existing with
    | none =>
      cases out
      exact .inl ⟨rfl, rfl⟩
    | some there =>
      obtain ⟨same, ⟨⟩⟩ := Option.ite_none_right_eq_some.mp out
      exact .inr ⟨rfl, same.symm⟩
  · cases out

end Verification

theorem Download.reaches (d : Download source) : (source.length : Int).toNat ≤ d.staged.length := by
  rw [d.staged_eq, List.length_append, Int.toNat_natCast]
  exact Nat.le_add_right ..

theorem Download.staged_of_short (d : Download source) (short : (d.prior.getD []).length ≤ source.length) :
    d.staged = source := by
  rw [d.staged_eq, List.drop_eq_nil_of_le short, List.append_nil]

theorem Verification.verdict_of_short {d : Download source} (v : Verification d.staged source.length)
    (short : (d.prior.getD []).length ≤ source.length) (h : Hashes) (fold : Char → Char) (goal : Goal) :
    (v.verdict h fold goal = none ∧ ¬ v.Succeeds) ∨
      v.verdict h fold goal = some (decide (equalFold fold (h.target source.length goal.isLFS source) goal.want)) := by
  have target : h.target source.length goal.isLFS source = h.target source.length goal.isLFS d.staged := by
    rw [d.staged_of_short short]
  rw [target]
  exact v.verdict_cases h fold goal d.reaches

/-- As long as neither path held more bytes than the file has, two downloads of one source come to the same verdict: it
is success just when the source has the target, and what is linked as the blob is the source. -/
theorem verdict_ignores_stale_bytes (d₁ d₂ : Download source) (short₁ : (d₁.prior.getD []).length ≤ source.length)
    (short₂ : (d₂.prior.getD []).length ≤ source.length) (v₁ : Verification d₁.staged source.length)
    (v₂ : Verification d₂.staged source.length) (h : Hashes) (fold : Char → Char) (goal : Goal) :
    (∀ a b, v₁.verdict h fold goal = some a → v₂.verdict h fold goal = some b → a = b) ∧
      (∀ a, v₁.verdict h fold goal = some a →
        (a = true ↔ equalFold fold (h.target source.length goal.isLFS source) goal.want)) ∧
      (v₁.Succeeds → (v₁.verdict h fold goal).isSome) ∧
      ∀ existing blob, v₁.published h fold goal existing = some blob →
        existing = none ∧ blob = source ∨ existing = some blob ∧ blob.length = source.length := by
  have first := v₁.verdict_of_short short₁ h fold goal
  have second := v₂.verdict_of_short short₂ h fold goal
  refine ⟨?_, ?_, ?_, ?_⟩
  · intro a b reached reached'
    rw [reached] at first
    rw [reached'] at second
    obtain ⟨⟨⟩, -⟩ | same := first
    obtain ⟨⟨⟩, -⟩ | same' := second
    exact Option.some.inj (same.trans same'.symm)
  · intro a reached
    rw [reached] at first
    obtain ⟨⟨⟩, -⟩ | same := first
    rw [Option.some.inj same, decide_eq_true_iff]
  · intro all
    obtain ⟨-, failed⟩ | same := first
    · exact absurd all failed
    · rw [same]
      rfl
  · intro existing blob out
    obtain ⟨absent, linked⟩ | kept := v₁.published_eq h fold goal d₁.reaches out
    · exact .inl ⟨absent, linked.trans (d₁.staged_of_short short₁)⟩
    · rw [d₁.staged_of_short short₁] at kept
      exact .inr kept

/-- Two bytes downloaded over what the path held. -/
def restaged (prior : Option (List UInt8)) : Download [1, 2] where
  prior
  fallocate := .done
  opened := extend 0 2 (prior.getD [])
  opens := rfl
  writes := [(0, [1, 2])]
  inside := by decide
  sourced := by decide
  written := by decide

def pagePlan (contents : List UInt8) : ReadPlan UInt8 where
  contents
  media := .ssd
  align := 256
  slabs := 3
  slabSize := 8192
  aligned := by decide
  stocked := by decide
  whole := by decide
  roomy := by decide

theorem readsAll_page {contents : List UInt8} (filled : contents ≠ []) (small : contents.length ≤ 4096) :
    ReadsAll contents [(0, contents)] := by
  have positive := List.length_pos_iff.mpr filled
  have ran : run (BufferedReader.step (pagePlan contents)) BufferedReader.start [.get, .read true, .deliver true, .finish] =
      some ⟨contents.length, .returned true, [(0, contents)], 1, [0]⟩ := by
    have buffer : min 8192 contents.length = contents.length := Nat.min_eq_right (Nat.le_trans small (by decide))
    simp [run, BufferedReader.step, BufferedReader.start, BufferedReader.leave, readChunk, ReadPlan.size, ReadPlan.bytes,
      ReadPlan.bufferSize,
      pagePlan, readChunkSize, positive, buffer, slice]
  exact .buffered (pagePlan contents) rfl ran rfl

def recheck (prior : Option (List UInt8)) (small : (restaged prior).staged.length ≤ 4096) :
    Verification (restaged prior).staged ([1, 2] : List UInt8).length where
  fallocate := .done
  pool := none
  extents := none
  densifies := true
  ranges := by rintro es ⟨⟩
  apart := by rintro es ⟨⟩
  holes := by rintro es ⟨⟩
  opens := true
  syncs := true
  syncsAgain := true
  chunks := some [(0, (restaged prior).staged)]
  reads := by
    rintro cs ⟨⟩
    rw [Disk.contents_eq _ (restaged prior).reaches]
    refine readsAll_page ?_ small
    rw [(restaged prior).staged_eq]
    exact List.cons_ne_nil _ _

/-- A hash that keeps all bytes apart. -/
def plainHashes : Hashes := ⟨List.map fun b => Char.ofNat b.toNat, List.map fun b => Char.ofNat b.toNat⟩

/-- A path that held nothing and one that held as many bytes as the file has. -/
theorem verdict_ignores_stale_bytes_equal :
    ((restaged none).prior.getD []).length ≤ 2 ∧ ((restaged (some [7, 8])).prior.getD []).length ≤ 2 ∧
      (recheck none (by decide)).verdict plainHashes id ⟨true, plainHashes.sha256 [1, 2]⟩ = some true ∧
      (recheck (some [7, 8]) (by decide)).verdict plainHashes id ⟨true, plainHashes.sha256 [1, 2]⟩ = some true ∧
      equalFold id (plainHashes.target 2 true [1, 2]) (plainHashes.sha256 [1, 2]) := by
  have short₁ : ((restaged none).prior.getD []).length ≤ 2 := by decide
  have short₂ : ((restaged (some [7, 8])).prior.getD []).length ≤ 2 := by decide
  obtain ⟨-, hashed, -, -⟩ := verdict_ignores_stale_bytes (restaged none) (restaged (some [7, 8])) short₁ short₂
    (recheck none (by decide)) (recheck (some [7, 8]) (by decide)) plainHashes id ⟨true, plainHashes.sha256 [1, 2]⟩
  exact ⟨short₁, short₂, rfl, rfl, (hashed true rfl).mp rfl⟩

/-- The same two bytes downloaded over a path that held three. The byte behind the file's size is hashed with it: the
file with the right bytes fails, and a target of the three bytes passes and is linked as a blob of three bytes. -/
theorem stale_tail_decides :
    (recheck none (by decide)).verdict plainHashes id ⟨true, plainHashes.sha256 [1, 2]⟩ = some true ∧
      (recheck (some [7, 8, 9]) (by decide)).verdict plainHashes id ⟨true, plainHashes.sha256 [1, 2]⟩ = some false ∧
      (recheck (some [7, 8, 9]) (by decide)).published plainHashes id ⟨true, plainHashes.sha256 [1, 2, 9]⟩ none =
        some [1, 2, 9] :=
  ⟨rfl, rfl, rfl⟩

end Hfdl.Verify
