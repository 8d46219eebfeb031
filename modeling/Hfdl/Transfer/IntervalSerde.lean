import Hfdl.Codec.Uvarint
import Hfdl.Relational.Transaction
import Hfdl.Store.Model
import Hfdl.Transfer.Interval

/-! The progress blob: a magic word and version, the file size, and the ranges as
pairs of a distance from the previous end and a length. Both directions validate,
so a blob is only emitted for a set that decodes to itself. -/
namespace Hfdl
open Codec Relational

def serdeMagic : Blob := [72, 70, 68, 80]

def serdeVersion : UInt8 := 1

/-- Why a progress blob or an in-memory set is rejected. -/
inductive CorruptProgress where
  | negativeSize (size : Int)
  | emptyRange (i : Nat) (v : Interval)
  | overlap (i : Nat) (start prevEnd : Int)
  | beyondSize (i : Nat) (stop size : Int)
  | badMagic
  | unsupportedVersion (version : UInt8)
  | truncatedSize
  | sizeOutOfRange (size : Nat)
  | truncatedCount
  | countExceedsPayload
  | truncatedStart (i : Nat)
  | truncatedLength (i : Nat)
  | zeroLength (i : Nat)
  | rangeOutOfRange (i : Nat)
  | startOverflows (i : Nat)
  | endOverflows (i : Nat)
  | outOfBounds (i : Nat) (stop size : Int)
  | trailingGarbage
deriving DecidableEq, Repr

def CorruptProgress.reason : CorruptProgress → String
  | negativeSize size => s!"negative file size {size}"
  | emptyRange i v => s!"interval {i} empty or reversed [{v.start},{v.stop})"
  | overlap i start prevEnd => s!"interval {i} start {start} overlaps previous end {prevEnd}"
  | beyondSize i stop size => s!"interval {i} end {stop} exceeds size {size}"
  | badMagic => "bad magic"
  | unsupportedVersion version => s!"unsupported version {version}"
  | truncatedSize => "truncated file size"
  | sizeOutOfRange size => s!"file size {size} exceeds int64 range"
  | truncatedCount => "truncated interval count"
  | countExceedsPayload => "interval count exceeds payload"
  | truncatedStart i => s!"truncated interval {i} start"
  | truncatedLength i => s!"truncated interval {i} length"
  | zeroLength i => s!"interval {i} has zero length"
  | rangeOutOfRange i => s!"interval {i} delta/length exceeds int64 range"
  | startOverflows i => s!"interval {i} start overflows"
  | endOverflows i => s!"interval {i} end overflows"
  | outOfBounds i stop size => s!"interval {i} end {stop} out of bounds (size {size})"
  | trailingGarbage => "trailing garbage"

/-- The checks of the encoder on each range in turn. -/
def validateRanges (size : Int) : List Interval → Nat → Int → Except CorruptProgress Unit
  | [], _, _ => .ok ()
  | v :: vs, i, prevEnd =>
    if v.stop ≤ v.start then .error (.emptyRange i v)
    else if v.start < prevEnd then .error (.overlap i v.start prevEnd)
    else if size < v.stop then .error (.beyondSize i v.stop size)
    else validateRanges size vs (i + 1) v.stop

def encodeRanges : List Interval → Int → Blob
  | [], _ => []
  | v :: vs, prevEnd =>
    appendUvarint (v.start - prevEnd).toNat ++ (appendUvarint (v.stop - v.start).toNat ++ encodeRanges vs v.stop)

/-- The decoded ranges and the bytes after them. Every sum is checked against the machine
integers before it is formed. -/
def decodeRanges (size : Int) : Nat → Nat → Int → Blob → Except CorruptProgress (List Interval × Blob)
  | 0, _, _, rest => .ok ([], rest)
  | n + 1, i, prevEnd, rest =>
    match uvarint rest with
    | none => .error (.truncatedStart i)
    | some (delta, rest) =>
      match uvarint rest with
      | none => .error (.truncatedLength i)
      | some (length, rest) =>
        if length = 0 then .error (.zeroLength i)
        else if maxInt64 < delta ∨ maxInt64 < length then .error (.rangeOutOfRange i)
        else if maxInt64 - prevEnd < delta then .error (.startOverflows i)
        else
          let start := prevEnd + delta
          if maxInt64 - start < length then .error (.endOverflows i)
          else
            let stop := start + length
            if size < stop then .error (.outOfBounds i stop size)
            else (decodeRanges size n (i + 1) stop rest).map fun (iv, rest) => (⟨start, stop⟩ :: iv, rest)

namespace IntervalSet

def marshalBinary (s : IntervalSet) : Except CorruptProgress Blob :=
  if s.size < 0 then .error (.negativeSize s.size)
  else (validateRanges s.size s.iv 0 0).map fun _ =>
    serdeMagic ++ serdeVersion :: (appendUvarint s.size.toNat ++ (appendUvarint s.iv.length ++ encodeRanges s.iv 0))

/-- Decoded ranges are inserted one by one, which coalesces adjacent ones. -/
def ofRanges (size : Int) (fits : size ≤ maxInt64) (iv : List Interval) : IntervalSet :=
  iv.foldl (fun s v => s.add v.start v.stop) (empty size fits)

def unmarshalPayload (rest : Blob) : Except CorruptProgress IntervalSet :=
  match uvarint rest with
  | none => .error .truncatedSize
  | some (size, rest) =>
    if fits : (size : Int) ≤ maxInt64 then
      match uvarint rest with
      | none => .error .truncatedCount
      | some (count, rest) =>
        if rest.length + 1 < count then .error .countExceedsPayload
        else
          match decodeRanges size count 0 0 rest with
          | .error e => .error e
          | .ok (iv, []) => .ok (ofRanges size fits iv)
          | .ok (_, _ :: _) => .error .trailingGarbage
    else .error (.sizeOutOfRange size)

def unmarshalBinary (b : Blob) : Except CorruptProgress IntervalSet :=
  match b with
  | b0 :: b1 :: b2 :: b3 :: version :: rest =>
    if [b0, b1, b2, b3] ≠ serdeMagic then .error .badMagic
    else if version ≠ serdeVersion then .error (.unsupportedVersion version)
    else unmarshalPayload rest
  | _ => .error .badMagic

end IntervalSet

/-- What the encoder has checked of a list of ranges. -/
def Within (size : Int) : List Interval → Int → Prop
  | [], _ => True
  | v :: vs, prevEnd => prevEnd ≤ v.start ∧ v.start < v.stop ∧ v.stop ≤ size ∧ Within size vs v.stop

theorem validateRanges_ok (valid : validateRanges size vs i prevEnd = .ok ()) : Within size vs prevEnd := by
  induction vs generalizing i prevEnd with
  | nil => trivial
  | cons v vs ih =>
    simp only [validateRanges] at valid
    split at valid
    · cases valid
    split at valid
    · cases valid
    split at valid
    · cases valid
    exact ⟨by omega, by omega, by omega, ih valid⟩

theorem decodeRanges_encode (fits : size ≤ maxInt64) (within : Within size vs prevEnd) (from_zero : 0 ≤ prevEnd) :
    decodeRanges size vs.length i prevEnd (encodeRanges vs prevEnd ++ rest) = .ok (vs, rest) := by
  induction vs generalizing i prevEnd with
  | nil => rfl
  | cons v vs ih =>
    obtain ⟨after, ordered, bounded, later⟩ := within
    have largest : maxInt64 = 2 ^ 63 - 1 := rfl
    have delta : ((v.start - prevEnd).toNat : Int) = v.start - prevEnd := Int.toNat_of_nonneg (by omega)
    have length : ((v.stop - v.start).toNat : Int) = v.stop - v.start := Int.toNat_of_nonneg (by omega)
    have start : prevEnd + (v.start - prevEnd) = v.start := by omega
    have stop : v.start + (v.stop - v.start) = v.stop := by omega
    simp only [encodeRanges, List.length_cons, decodeRanges, List.append_assoc]
    rw [uvarint_append (by omega)]
    simp only
    rw [uvarint_append (by omega)]
    simp only [delta, length, start, stop]
    rw [if_neg (by omega), if_neg (by omega), if_neg (by omega), if_neg (by omega), if_neg (by omega),
      ih later (by omega)]
    rfl

theorem Within.length_le (within : Within size vs prevEnd) (room : prevEnd ≤ size) : prevEnd + vs.length ≤ size := by
  induction vs generalizing prevEnd with
  | nil => simpa using room
  | cons v vs ih =>
    obtain ⟨after, ordered, bounded, later⟩ := within
    have := ih later bounded
    simp only [List.length_cons, Int.natCast_add, Int.natCast_one]
    omega

theorem length_le_encodeRanges (vs : List Interval) (prevEnd : Int) :
    vs.length ≤ (encodeRanges vs prevEnd).length := by
  induction vs generalizing prevEnd with
  | nil => exact Nat.le_refl _
  | cons v vs ih =>
    have first := List.length_pos_iff.mpr (appendUvarint_ne_nil (v.start - prevEnd).toNat)
    have rest := ih v.stop
    simp only [encodeRanges, List.length_append, List.length_cons]
    omega

namespace IntervalSet

theorem foldl_add_canonical {s : IntervalSet} (sorted : Canonical (s.iv ++ vs)) :
    (vs.foldl (fun s v => s.add v.start v.stop) s).iv = s.iv ++ vs ∧
      (vs.foldl (fun s v => s.add v.start v.stop) s).size = s.size := by
  induction vs generalizing s with
  | nil => simp
  | cons v vs ih =>
    have ordered : v.start < v.stop := sorted.nonempty v (by simp)
    have right : ∀ w ∈ s.iv, w.stop < v.start := fun w inside =>
      (List.pairwise_append.mp sorted.apart).2.2 w inside v List.mem_cons_self
    have added : (s.add v.start v.stop).iv = s.iv ++ [v] := by
      rw [add, dif_pos ordered]
      exact addRange_append right
    have rest := ih (s := s.add v.start v.stop) (by rw [added]; simpa using sorted)
    rw [added, add_size] at rest
    exact ⟨by simpa using rest.1, rest.2⟩

theorem ofRanges_iv {s : IntervalSet} {total : Int} {fits : total ≤ maxInt64} (same : total = s.size) :
    ofRanges total fits s.iv = s := by
  subst same
  have sorted : Canonical ((empty s.size s.fits).iv ++ s.iv) := s.canonical
  have rebuilt := foldl_add_canonical sorted
  exact ext rebuilt.1 rebuilt.2

theorem unmarshalPayload_encode {s : IntervalSet} (nonneg : 0 ≤ s.size) (within : Within s.size s.iv 0) :
    unmarshalPayload (appendUvarint s.size.toNat ++ (appendUvarint s.iv.length ++ encodeRanges s.iv 0)) = .ok s := by
  have largest : maxInt64 = 2 ^ 63 - 1 := rfl
  have bounded := s.fits
  have few := within.length_le nonneg
  have enough := length_le_encodeRanges s.iv 0
  have size : (s.size.toNat : Int) = s.size := Int.toNat_of_nonneg nonneg
  have decoded : decodeRanges s.size.toNat s.iv.length 0 0 (encodeRanges s.iv 0) = .ok (s.iv, []) := by
    have whole : decodeRanges s.size s.iv.length 0 0 (encodeRanges s.iv 0 ++ []) = .ok (s.iv, []) :=
      decodeRanges_encode s.fits within (Int.le_refl 0)
    rwa [List.append_nil, ← size] at whole
  simp only [unmarshalPayload]
  rw [uvarint_append (by omega)]
  simp only
  rw [dif_pos (by omega), uvarint_append (by omega)]
  simp only
  rw [if_neg (by omega), decoded]
  simp only [ofRanges_iv size]

theorem unmarshal_marshal {s : IntervalSet} (encoded : s.marshalBinary = .ok blob) :
    unmarshalBinary blob = .ok s := by
  simp only [marshalBinary] at encoded
  split at encoded
  · cases encoded
  rename_i nonneg
  obtain ⟨⟨⟩, valid, rfl⟩ := map_eq_ok.mp encoded
  have payload := unmarshalPayload_encode (by omega) (validateRanges_ok valid)
  simpa [unmarshalBinary, serdeMagic] using payload

end IntervalSet
open IntervalSet

/-- The decoded progress of a row: nothing is complete without a blob. -/
def decodeProgress : Option Blob → Except CorruptProgress IntervalSet
  | none | some [] => .ok (.empty 0 (by decide))
  | some (x :: blob) => IntervalSet.unmarshalBinary (x :: blob)

theorem decodeProgress_marshal {s : IntervalSet} (encoded : s.marshalBinary = .ok blob) : decodeProgress (some blob) = .ok s := by
  have decoded := unmarshal_marshal encoded
  cases blob with
  | nil => cases decoded
  | cons x rest => exact decoded

/-- The record of a salvaged file, encoded inline: the whole file as one range. -/
def fullIntervalBlob (size : Int) : Blob :=
  serdeMagic ++ serdeVersion :: (appendUvarint size.toNat ++ (appendUvarint 1 ++ (appendUvarint 0 ++ appendUvarint size.toNat)))

theorem marshal_full {size : Int} (positive : 0 < size) (fits : size ≤ maxInt64) :
    ((IntervalSet.empty size fits).add 0 size).marshalBinary = .ok (fullIntervalBlob size) := by
  have ranges : ((IntervalSet.empty size fits).add 0 size).iv = [⟨0, size⟩] := by
    simp [IntervalSet.add, positive, IntervalSet.empty, addRange]
  have total : ((IntervalSet.empty size fits).add 0 size).size = size := add_size _
  have valid : validateRanges size [⟨0, size⟩] 0 0 = .ok () := by
    simp [validateRanges, positive]
  rw [marshalBinary, total, if_neg (by omega), ranges, valid]
  simp [Except.map, encodeRanges, fullIntervalBlob]

/-- A full record covers no more than its file; the one of an empty file is not even accepted. -/
theorem fullIntervalBlob_covers {size : Int} {seed : IntervalSet} (nonneg : 0 ≤ size) (fits : size ≤ maxInt64)
    (decoded : decodeProgress (some (fullIntervalBlob size)) = .ok seed) (covered : seed.Covers x) : 0 ≤ x ∧ x < size := by
  rcases Int.lt_or_eq_of_le nonneg with positive | rfl
  · have same := (unmarshal_marshal (marshal_full positive fits)).symm.trans decoded
    obtain rfl := Except.ok.inj same
    simpa using covered
  · have rejected : decodeProgress (some (fullIntervalBlob 0)) = .error (.zeroLength 0) := rfl
    rw [rejected] at decoded
    cases decoded

end Hfdl
