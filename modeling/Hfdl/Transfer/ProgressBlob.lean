import Hfdl.Transfer.IntervalSerde

/-! The language of progress blobs, stated without the decoder: which byte strings are accepted, what they denote and
what a rejected one leaves behind. -/
namespace Hfdl
open Codec Relational

/-- The ranges that pairs of a distance from the previous end and a length describe. -/
def rangesFrom : List (Nat × Nat) → Nat → List Interval
  | [], _ => []
  | (delta, length) :: pairs, prevEnd =>
    ⟨prevEnd + delta, prevEnd + delta + length⟩ :: rangesFrom pairs (prevEnd + delta + length)

/-- The encodings of pairs of which none is empty and none ends beyond the file. -/
inductive EncodesPairs (size : Nat) : Blob → List (Nat × Nat) → Nat → Prop where
  | nil : EncodesPairs size [] [] prevEnd
  | cons (distance : Uvarint d delta) (extent : Uvarint l length) (nonempty : 0 < length)
      (bounded : prevEnd + delta + length ≤ size) (rest : EncodesPairs size body pairs (prevEnd + delta + length)) :
      EncodesPairs size (d ++ (l ++ body)) ((delta, length) :: pairs) prevEnd

/-- Magic, version, size, count and as many pairs, with nothing after them. -/
def Encodes (blob : Blob) (size : Nat) (pairs : List (Nat × Nat)) : Prop :=
  ∃ total count body, blob = serdeMagic ++ serdeVersion :: (total ++ (count ++ body)) ∧ Uvarint total size ∧
    (size : Int) ≤ maxInt64 ∧ Uvarint count pairs.length ∧ EncodesPairs size body pairs 0

variable {size n i : Nat}

theorem EncodesPairs.length_le (encoded : EncodesPairs size body pairs prevEnd) : pairs.length ≤ body.length := by
  induction encoded with
  | nil => exact Nat.le_refl _
  | cons distance _ _ _ _ ih =>
    have := distance.encoding.length_pos
    simp only [List.length_cons, List.length_append]
    omega

theorem decodeRanges_sound {prevEnd : Nat} (decoded : decodeRanges size n i prevEnd bs = .ok (iv, rest)) :
    ∃ body pairs, bs = body ++ rest ∧ pairs.length = n ∧ EncodesPairs size body pairs prevEnd ∧
      iv = rangesFrom pairs prevEnd := by
  induction n generalizing i prevEnd bs iv with
  | zero =>
    cases decoded
    exact ⟨[], [], rfl, rfl, .nil, rfl⟩
  | succ n ih =>
    simp only [decodeRanges] at decoded
    split at decoded
    · cases decoded
    rename_i delta afterDelta first
    split at decoded
    · cases decoded
    rename_i length afterLength second
    split at decoded
    · cases decoded
    split at decoded
    · cases decoded
    split at decoded
    · cases decoded
    split at decoded
    · cases decoded
    split at decoded
    · cases decoded
    obtain ⟨⟨later, tail⟩, more, same⟩ := map_eq_ok.mp decoded
    cases same
    obtain ⟨d, rfl, distance⟩ := uvarint_eq_some.mp first
    obtain ⟨l, rfl, extent⟩ := uvarint_eq_some.mp second
    have more : decodeRanges size n (i + 1) ((prevEnd + delta + length : Nat) : Int) afterLength = .ok (later, tail) := by
      exact_mod_cast more
    obtain ⟨body, pairs, same, rfl, encoded, rfl⟩ := ih more
    subst same
    exact ⟨d ++ (l ++ body), (delta, length) :: pairs, by simp, rfl, .cons distance extent (by omega) (by omega) encoded, rfl⟩

theorem decodeRanges_complete (fits : (size : Int) ≤ maxInt64) (encoded : EncodesPairs size body pairs prevEnd) :
    decodeRanges size pairs.length i prevEnd (body ++ rest) = .ok (rangesFrom pairs prevEnd, rest) := by
  induction encoded generalizing i with
  | nil => rfl
  | @cons d delta l length prevEnd body pairs distance extent nonempty bounded encoded ih =>
    simp only [List.length_cons, decodeRanges, List.append_assoc]
    rw [uvarint_eq_some.mpr ⟨d, rfl, distance⟩]
    simp only
    rw [uvarint_eq_some.mpr ⟨l, rfl, extent⟩]
    simp only
    have later : decodeRanges size pairs.length (i + 1) (prevEnd + delta + length) (body ++ rest) =
        .ok (rangesFrom pairs (prevEnd + delta + length), rest) := by exact_mod_cast ih
    rw [if_neg (by omega), if_neg (by omega), if_neg (by omega), if_neg (by omega), if_neg (by omega), later]
    rfl

theorem EncodesPairs.inside (encoded : EncodesPairs size body pairs prevEnd) :
    ∀ v ∈ rangesFrom pairs prevEnd, 0 ≤ v.start ∧ v.stop ≤ size := by
  induction encoded with
  | nil => exact fun _ member => (List.not_mem_nil member).elim
  | cons _ _ _ bounded _ ih =>
    intro v member
    rcases List.mem_cons.mp member with rfl | later
    · simp only
      omega
    · exact ih v later

theorem validateRanges_within {size : Int} (within : Within size vs prevEnd) : validateRanges size vs i prevEnd = .ok () := by
  induction vs generalizing i prevEnd with
  | nil => rfl
  | cons v vs ih =>
    obtain ⟨after, ordered, bounded, later⟩ := within
    rw [validateRanges, if_neg (by omega), if_neg (by omega), if_neg (by omega)]
    exact ih later

theorem Canonical.within {size : Int} (sorted : Canonical vs) (starts : ∀ v ∈ vs, prevEnd ≤ v.start)
    (bounded : ∀ v ∈ vs, v.stop ≤ size) :
    Within size vs prevEnd := by
  induction vs generalizing prevEnd with
  | nil => trivial
  | cons v vs ih =>
    refine ⟨starts v List.mem_cons_self, sorted.head, bounded v List.mem_cons_self, ?_⟩
    apply ih sorted.tail
    · exact fun w member => Int.le_of_lt (sorted.head_apart member)
    · exact fun w member => bounded w (List.mem_cons_of_mem _ member)

namespace IntervalSet

theorem covers_foldl_add {s : IntervalSet} :
    (vs.foldl (fun s v => s.add v.start v.stop) s).Covers x ↔ s.Covers x ∨ Covered vs x := by
  induction vs generalizing s with
  | nil => simp
  | cons v vs ih =>
    rw [List.foldl_cons, ih, covers_add, covered_cons, Interval.Has]
    tauto

@[simp] theorem covers_ofRanges {size : Int} {fits : size ≤ maxInt64} : (ofRanges size fits vs).Covers x ↔ Covered vs x := by
  simp [ofRanges, covers_foldl_add]

@[simp] theorem ofRanges_size {size : Int} {fits : size ≤ maxInt64} : (ofRanges size fits vs).size = size := by
  have kept : ∀ s : IntervalSet, (vs.foldl (fun s v => s.add v.start v.stop) s).size = s.size := by
    induction vs with
    | nil => exact fun _ => rfl
    | cons v vs ih => exact fun s => (ih _).trans s.add_size
  exact kept _

theorem ofRanges_inside {size : Int} {fits : size ≤ maxInt64} (inside : ∀ v ∈ vs, 0 ≤ v.start ∧ v.stop ≤ size) :
    ∀ v ∈ (ofRanges size fits vs).iv, 0 ≤ v.start ∧ v.stop ≤ size := by
  intro v member
  have ordered := (ofRanges size fits vs).canonical.nonempty v member
  -- the first and the last offset of a range are covered by what was added
  have offset : ∀ x, v.Has x → 0 ≤ x ∧ x < size := by
    intro x has
    obtain ⟨w, added, left, right⟩ := covers_ofRanges.mp (⟨v, member, has⟩ : (ofRanges size fits vs).Covers x)
    have := inside w added
    omega
  have first := offset v.start ⟨Int.le_refl _, ordered⟩
  have last := offset (v.stop - 1) ⟨by omega, by omega⟩
  omega

theorem marshal_ofRanges {fits : (size : Int) ≤ maxInt64} (inside : ∀ v ∈ vs, 0 ≤ v.start ∧ v.stop ≤ (size : Int)) :
    ∃ blob, (ofRanges size fits vs).marshalBinary = .ok blob := by
  have bounds : ∀ v ∈ (ofRanges size fits vs).iv, 0 ≤ v.start ∧ v.stop ≤ size := ofRanges_inside inside
  have within : Within size (ofRanges size fits vs).iv 0 :=
    (ofRanges size fits vs).canonical.within (fun v member => (bounds v member).1) fun v member => (bounds v member).2
  simp only [marshalBinary, ofRanges_size, validateRanges_within within]
  rw [if_neg (by omega)]
  exact ⟨_, rfl⟩

theorem unmarshalPayload_ok : unmarshalPayload bs = .ok s ↔ ∃ total count body size pairs, bs = total ++ (count ++ body) ∧
    Uvarint total size ∧ Uvarint count pairs.length ∧ EncodesPairs size body pairs 0 ∧
      ∃ fits : (size : Int) ≤ maxInt64, s = ofRanges size fits (rangesFrom pairs 0) := by
  constructor
  · intro decoded
    simp only [unmarshalPayload] at decoded
    split at decoded
    · cases decoded
    rename_i size afterSize first
    split at decoded
    swap
    · cases decoded
    rename_i fits
    split at decoded
    · cases decoded
    rename_i count afterCount second
    split at decoded
    · cases decoded
    split at decoded
    · cases decoded
    · rename_i iv ranges
      cases decoded
      obtain ⟨total, rfl, sized⟩ := uvarint_eq_some.mp first
      obtain ⟨number, rfl, counted⟩ := uvarint_eq_some.mp second
      have ranges : decodeRanges size count 0 ((0 : Nat) : Int) afterCount = .ok (iv, []) := ranges
      obtain ⟨body, pairs, rfl, rfl, encoded, rfl⟩ := decodeRanges_sound ranges
      exact ⟨total, number, body, size, pairs, by simp, sized, counted, encoded, fits, rfl⟩
    · cases decoded
  · rintro ⟨total, count, body, size, pairs, rfl, sized, counted, encoded, fits, rfl⟩
    have enough := encoded.length_le
    have whole : decodeRanges size pairs.length 0 ((0 : Nat) : Int) (body ++ []) = .ok (rangesFrom pairs 0, []) :=
      decodeRanges_complete fits encoded
    rw [List.append_nil] at whole
    have decoded : decodeRanges size pairs.length 0 0 body = .ok (rangesFrom pairs 0, []) := whole
    simp only [unmarshalPayload]
    rw [uvarint_eq_some.mpr ⟨total, rfl, sized⟩]
    simp only
    rw [dif_pos fits, uvarint_eq_some.mpr ⟨count, rfl, counted⟩]
    simp only
    rw [if_neg (by omega), decoded]

theorem unmarshalBinary_ok : unmarshalBinary blob = .ok s ↔ ∃ size pairs, Encodes blob size pairs ∧
    ∃ fits : (size : Int) ≤ maxInt64, s = ofRanges size fits (rangesFrom pairs 0) := by
  constructor
  · intro decoded
    simp only [unmarshalBinary] at decoded
    split at decoded
    · split at decoded
      · cases decoded
      rename_i magic
      split at decoded
      · cases decoded
      rename_i version
      obtain ⟨total, count, body, size, pairs, rfl, sized, counted, encoded, fits, rfl⟩ := unmarshalPayload_ok.mp decoded
      refine ⟨size, pairs, ⟨total, count, body, ?_, sized, fits, counted, encoded⟩, fits, rfl⟩
      rw [not_not] at magic version
      rw [← magic, ← version]
      rfl
    · cases decoded
  · rintro ⟨size, pairs, ⟨total, count, body, rfl, sized, -, counted, encoded⟩, fits, rfl⟩
    have payload := unmarshalPayload_ok.mpr ⟨total, count, body, size, pairs, rfl, sized, counted, encoded, fits, rfl⟩
    simpa [unmarshalBinary, serdeMagic] using payload

/-- The method: the receiver is assigned when everything has been checked. -/
def unmarshalInto (receiver : IntervalSet) (blob : Blob) : Option CorruptProgress × IntervalSet :=
  match unmarshalBinary blob with
  | .ok s => (none, s)
  | .error corrupt => (some corrupt, receiver)

theorem unmarshalInto_none {receiver : IntervalSet} :
    (receiver.unmarshalInto blob).1 = none ↔ ∃ s, unmarshalBinary blob = .ok s := by
  simp only [unmarshalInto]
  split <;> simp_all

theorem progress_blob_codec :
    (∀ (size : Nat) (fits : (size : Int) ≤ maxInt64) (added : List Interval), (∀ v ∈ added, 0 ≤ v.start ∧ v.stop ≤ (size : Int)) →
      ∃ blob, (ofRanges size fits added).marshalBinary = .ok blob ∧
        ∀ receiver : IntervalSet, receiver.unmarshalInto blob = (none, ofRanges size fits added)) ∧
    ∀ (receiver : IntervalSet) (blob : Blob),
      ((receiver.unmarshalInto blob).1 = none ↔ ∃ size pairs, Encodes blob size pairs) ∧
      ((receiver.unmarshalInto blob).1 ≠ none → (receiver.unmarshalInto blob).2 = receiver) ∧
      ∀ size pairs, Encodes blob size pairs → (receiver.unmarshalInto blob).2.size = size ∧
        Canonical (receiver.unmarshalInto blob).2.iv ∧
        (∀ v ∈ (receiver.unmarshalInto blob).2.iv, 0 ≤ v.start ∧ v.stop ≤ (size : Int)) ∧
        ∀ x, (receiver.unmarshalInto blob).2.Covers x ↔ Covered (rangesFrom pairs 0) x := by
  refine ⟨fun size fits added inside => ?_, fun receiver blob => ⟨?_, fun rejected => ?_, fun size pairs encoded => ?_⟩⟩
  · obtain ⟨blob, emitted⟩ : ∃ blob, (ofRanges size fits added).marshalBinary = .ok blob := marshal_ofRanges inside
    refine ⟨blob, emitted, fun receiver => ?_⟩
    rw [unmarshalInto, unmarshal_marshal emitted]
  · rw [unmarshalInto_none]
    constructor
    · rintro ⟨s, decoded⟩
      obtain ⟨size, pairs, encoded, -⟩ := unmarshalBinary_ok.mp decoded
      exact ⟨size, pairs, encoded⟩
    · rintro ⟨size, pairs, encoded⟩
      have ⟨_, _, _, _, _, fits, _⟩ := encoded
      exact ⟨_, unmarshalBinary_ok.mpr ⟨size, pairs, encoded, fits, rfl⟩⟩
  · simp only [unmarshalInto] at rejected ⊢
    split <;> simp_all
  · have ⟨_, _, _, _, _, fits, _, inside⟩ := encoded
    have decoded := unmarshalBinary_ok.mpr ⟨size, pairs, encoded, fits, rfl⟩
    have same : (receiver.unmarshalInto blob).2 = ofRanges size fits (rangesFrom pairs 0) := by rw [unmarshalInto, decoded]
    rw [same]
    exact ⟨ofRanges_size, canonical _, ofRanges_inside inside.inside, fun x => covers_ofRanges⟩

/-- Two adjacent ranges in the blob are one range of the set, and two that were added are read back. -/
theorem progress_blob_codec_adjacent :
    (∃ blob, (ofRanges 9 (by decide) [⟨4, 6⟩, ⟨0, 4⟩]).marshalBinary = .ok blob ∧
      ∀ receiver : IntervalSet, receiver.unmarshalInto blob = (none, ofRanges 9 (by decide) [⟨4, 6⟩, ⟨0, 4⟩])) ∧
    ∃ blob : Blob, Encodes blob 9 [(0, 3), (0, 2)] ∧ ∀ receiver : IntervalSet, ∀ x,
      (receiver.unmarshalInto blob).2.Covers x ↔ 0 ≤ x ∧ x < 5 := by
  have one : ∀ n, n < 128 → Uvarint [.ofNat n] n := by
    intro n small
    have value : (UInt8.ofNat n).toNat = n := toNat_ofNat_of_lt (by omega)
    have encoding := Leb128.last (b := .ofNat n) (by omega)
    rw [value] at encoding
    exact ⟨encoding, by show 1 ≤ 10; decide, by omega⟩
  have encoded : Encodes [72, 70, 68, 80, 1, 9, 2, 0, 3, 0, 2] 9 [(0, 3), (0, 2)] := by
    refine ⟨[9], [2], [0, 3, 0, 2], rfl, one 9 (by decide), by decide, one 2 (by decide), ?_⟩
    exact .cons (one 0 (by decide)) (one 3 (by decide)) (by decide) (by decide)
      (.cons (one 0 (by decide)) (one 2 (by decide)) (by decide) (by decide) .nil)
  refine ⟨progress_blob_codec.1 9 (by decide) _ (by decide), _, encoded, fun receiver x => ?_⟩
  rw [((progress_blob_codec.2 receiver _).2.2 9 _ encoded).2.2.2 x]
  simp [rangesFrom, covered_cons, Interval.Has]
  omega

end IntervalSet
end Hfdl
