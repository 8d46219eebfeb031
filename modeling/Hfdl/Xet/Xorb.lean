import Hfdl.Xet.Regroup
import Mathlib.Algebra.Group.Nat.Defs

/-! The framing of the chunks of a xorb: the header of a chunk, its decompression, and the loop over the chunks of a
fetched range. The LZ4 decoder is any function from a payload to what its reader gives. -/
namespace Hfdl.Xet
open Indexed

structure DataError where
  xorb : XorbHash
  reason : String
  err : Option String
deriving DecidableEq

def chunkHeaderLen : Nat := 8

def maxChunkUnpacked : Nat := 128 <<< 10

def maxChunkPacked : Nat := 2 * maxChunkUnpacked

def chunkHeaderVersion : UInt8 := 0

def schemeNone : Nat := 0

def schemeLZ4 : Nat := 1

def schemeBG4LZ4 : Nat := 2

structure ChunkHeader where
  scheme : Nat
  packedLen : Nat
  unpackedLen : Nat
deriving DecidableEq

def u24 (low mid high : UInt8) : Nat := low.toNat ||| mid.toNat <<< 8 ||| high.toNat <<< 16

def parseChunkHeader (xorb : XorbHash) : Bytes → Except DataError ChunkHeader
  | b0 :: b1 :: b2 :: b3 :: b4 :: b5 :: b6 :: b7 :: _ =>
    if chunkHeaderVersion < b0 then .error ⟨xorb, s!"chunk header version {b0} too new", none⟩
    else
      let packedLen := u24 b1 b2 b3
      let unpackedLen := u24 b5 b6 b7
      if b4.toNat = schemeNone ∨ b4.toNat = schemeLZ4 ∨ b4.toNat = schemeBG4LZ4 then
        if maxChunkPacked < packedLen then
          .error ⟨xorb, s!"compressed chunk length {packedLen} exceeds max {maxChunkPacked}", none⟩
        else if maxChunkUnpacked < unpackedLen then
          .error ⟨xorb, s!"uncompressed chunk length {unpackedLen} exceeds max {maxChunkUnpacked}", none⟩
        else .ok ⟨b4.toNat, packedLen, unpackedLen⟩
      else .error ⟨xorb, s!"unknown compression scheme id {b4}", none⟩
  | _ => .error ⟨xorb, "truncated chunk header", none⟩

/-- What the reader of a frame gives: its bytes, and its error unless it ends after them. -/
structure FrameReader where
  produced : Bytes
  failure : Option String

/-- All that a limited reader gives. A failure is met only when the limit is not. -/
def FrameReader.readAll (r : FrameReader) (limit : Nat) : Except String Bytes :=
  if limit ≤ r.produced.length then .ok (r.produced.take limit)
  else match r.failure with
    | some err => .error err
    | none => .ok r.produced

def checkLength (xorb : XorbHash) (h : ChunkHeader) (out : Bytes) : Except DataError Bytes :=
  if out.length ≠ h.unpackedLen then
    .error ⟨xorb, s!"decoded chunk length {out.length} != header uncompressed_length {h.unpackedLen}", none⟩
  else .ok out

section
variable (lz4 : Bytes → FrameReader)

def decodeChunk (xorb : XorbHash) (h : ChunkHeader) (payload : Bytes) : Except DataError Bytes :=
  if h.scheme = schemeNone then checkLength xorb h payload
  else if h.scheme = schemeLZ4 ∨ h.scheme = schemeBG4LZ4 then
    -- one byte more than the header says, enough to see that a payload expands too far
    match (lz4 payload).readAll (h.unpackedLen + 1) with
    | .error err => .error ⟨xorb, "lz4 frame decode", some err⟩
    | .ok buf => checkLength xorb h (if h.scheme = schemeBG4LZ4 then bg4Regroup buf else buf)
  else .error ⟨xorb, s!"unknown compression scheme id {h.scheme}", none⟩

/-- The loop at an offset, with the chunks so far. -/
def decodeLoop (xorb : XorbHash) (data : Bytes) (off : Nat) (chunks : List Bytes) : Except DataError (List Bytes) :=
  if off < data.length then
    match parseChunkHeader xorb (data.drop off) with
    | .error err => .error err
    | .ok h =>
      let start := off + chunkHeaderLen
      if data.length - start < h.packedLen then
        .error ⟨xorb, s!"truncated chunk payload: want {h.packedLen}, have {data.length - start}", none⟩
      else
        match decodeChunk lz4 xorb h (slice data start (start + h.packedLen)) with
        | .error err => .error err
        | .ok dec => decodeLoop xorb data (start + h.packedLen) (chunks ++ [dec])
  else .ok chunks
termination_by data.length - off
decreasing_by simp only [chunkHeaderLen]; omega

def decodeXorbChunks (xorb : XorbHash) (data : Bytes) : Except DataError (List Bytes) :=
  decodeLoop lz4 xorb data 0 []

end

/-! ### Well-formed frames -/

inductive Scheme where
  | plain
  | compressed
  | grouped

def Scheme.id : Scheme → UInt8
  | plain => 0
  | compressed => 1
  | grouped => 2

/-- The partial function of a decoder: what a whole frame decompresses to. -/
def FrameReader.whole (r : FrameReader) : Option Bytes := if r.failure = none then some r.produced else none

def Scheme.decode (lz4 : Bytes → FrameReader) (payload : Bytes) : Scheme → Option Bytes
  | plain => some payload
  | compressed => (lz4 payload).whole
  | grouped => (lz4 payload).whole.map bg4Regroup

/-- A payload with the chunk it decodes to, both within the limits of the format. -/
structure Frame (lz4 : Bytes → FrameReader) where
  scheme : Scheme
  payload : Bytes
  chunk : Bytes
  packed : payload.length ≤ maxChunkPacked
  unpacked : chunk.length ≤ maxChunkUnpacked
  decodes : scheme.decode lz4 payload = some chunk

def u24Bytes (n : Nat) : Bytes := [.ofNat n, .ofNat (n / 256), .ofNat (n / 65536)]

def headerBytes (scheme : Scheme) (packedLen unpackedLen : Nat) : Bytes :=
  chunkHeaderVersion :: (u24Bytes packedLen ++ scheme.id :: u24Bytes unpackedLen)

def Frame.bytes {lz4 : Bytes → FrameReader} (f : Frame lz4) : Bytes :=
  headerBytes f.scheme f.payload.length f.chunk.length ++ f.payload

theorem length_headerBytes : (headerBytes scheme packedLen unpackedLen).length = chunkHeaderLen := rfl

/-! ### The header -/

theorem u24_eq (low mid high : UInt8) : u24 low mid high = low.toNat + 256 * mid.toNat + 65536 * high.toNat := by
  have bound0 := low.toNat_lt
  have bound1 := mid.toNat_lt
  have inner : low.toNat ||| mid.toNat <<< 8 = 256 * mid.toNat + low.toNat := by
    rw [Nat.or_comm, ← Nat.shiftLeft_add_eq_or_of_lt bound0, Nat.shiftLeft_eq, Nat.mul_comm]
  rw [u24, inner, Nat.or_comm, ← Nat.shiftLeft_add_eq_or_of_lt (by omega), Nat.shiftLeft_eq]
  omega

theorem u24Bytes_u24 (low mid high : UInt8) : u24Bytes (u24 low mid high) = [low, mid, high] := by
  have bound0 := low.toNat_lt
  have bound1 := mid.toNat_lt
  have bound2 := high.toNat_lt
  have byte {b : UInt8} {n : Nat} (same : n % 256 = b.toNat) : UInt8.ofNat n = b := by
    rw [← UInt8.toNat_inj, UInt8.toNat_ofNat', same]
  rw [u24Bytes, byte (b := low), byte (b := mid), byte (b := high)]
  all_goals rw [u24_eq]; omega

theorem u24_ofNat (small : n < 2 ^ 24) : u24 (.ofNat n) (.ofNat (n / 256)) (.ofNat (n / 65536)) = n := by
  rw [u24_eq]
  simp only [UInt8.toNat_ofNat']
  omega

theorem scheme_iff : b.toNat = schemeNone ∨ b.toNat = schemeLZ4 ∨ b.toNat = schemeBG4LZ4 ↔ ∃ s : Scheme, b = s.id := by
  simp only [← UInt8.toNat_inj]
  constructor
  · rintro (h | h | h)
    · exact ⟨.plain, h⟩
    · exact ⟨.compressed, h⟩
    · exact ⟨.grouped, h⟩
  · rintro ⟨s, h⟩
    cases s
    · exact .inl h
    · exact .inr (.inl h)
    · exact .inr (.inr h)

theorem parseChunkHeader_ok : parseChunkHeader xorb b = .ok h ↔ ∃ (s : Scheme) (rest : Bytes),
    b = headerBytes s h.packedLen h.unpackedLen ++ rest ∧ h.scheme = s.id.toNat ∧
      h.packedLen ≤ maxChunkPacked ∧ h.unpackedLen ≤ maxChunkUnpacked := by
  constructor
  · intro parsed
    unfold parseChunkHeader at parsed
    split at parsed
    next b0 b1 b2 b3 b4 b5 b6 b7 rest =>
      split at parsed
      · contradiction
      next current =>
      split at parsed
      next known =>
        dsimp only at parsed
        split at parsed
        · contradiction
        next packed =>
        split at parsed
        · contradiction
        next unpacked =>
        obtain rfl := Except.ok.inj parsed
        obtain ⟨s, rfl⟩ := scheme_iff.mp known
        have version : b0 = chunkHeaderVersion := UInt8.le_antisymm (UInt8.not_lt.mp current) (UInt8.zero_le)
        refine ⟨s, rest, ?_, rfl, Nat.le_of_not_lt packed, Nat.le_of_not_lt unpacked⟩
        rw [headerBytes, u24Bytes_u24, u24Bytes_u24, version]
        rfl
      · contradiction
    next => contradiction
  · rintro ⟨s, rest, rfl, scheme, packed, unpacked⟩
    have packed' : u24 _ _ _ = h.packedLen := u24_ofNat (Nat.lt_of_le_of_lt packed (by decide))
    have unpacked' : u24 _ _ _ = h.unpackedLen := u24_ofNat (Nat.lt_of_le_of_lt unpacked (by decide))
    simp only [headerBytes, u24Bytes, List.cons_append, List.nil_append, parseChunkHeader]
    rw [if_neg (by decide), if_pos (scheme_iff.mpr ⟨s, rfl⟩), packed', unpacked', if_neg (Nat.not_lt.mpr packed),
      if_neg (Nat.not_lt.mpr unpacked), ← scheme]

/-! ### The payload -/

/-- The limit is one past the length, so the reads of that length are those of whole frames. -/
theorem FrameReader.readAll_ok {r : FrameReader} (length : buf.length = len) :
    r.readAll (len + 1) = .ok buf ↔ r.whole = some buf := by
  unfold readAll whole
  split
  next long =>
    have cut : (r.produced.take (len + 1)).length = len + 1 := by rw [List.length_take]; omega
    constructor
    · rintro ⟨⟩
      omega
    · intro found
      obtain ⟨-, ⟨⟩⟩ := Option.ite_none_right_eq_some.mp found
      omega
  next =>
    cases failure : r.failure <;> simp

theorem checkLength_ok : checkLength xorb h out = .ok dec ↔ out = dec ∧ dec.length = h.unpackedLen := by
  unfold checkLength
  split
  next other => exact ⟨by simp, by rintro ⟨rfl, same⟩; exact absurd same other⟩
  next same => simp only [Except.ok.injEq]; exact ⟨by rintro rfl; exact ⟨rfl, not_not.mp same⟩, And.left⟩

theorem decodeChunk_ok {s : Scheme} (scheme : h.scheme = s.id.toNat) :
    decodeChunk lz4 xorb h payload = .ok dec ↔ s.decode lz4 payload = some dec ∧ dec.length = h.unpackedLen := by
  unfold decodeChunk
  cases s with
  | plain =>
    have plain : h.scheme = schemeNone := scheme
    rw [if_pos plain, checkLength_ok, Scheme.decode, Option.some.injEq]
  | compressed =>
    have compressed : h.scheme = schemeLZ4 := scheme
    have straight : h.scheme ≠ schemeBG4LZ4 := by rw [compressed]; decide
    rw [if_neg (by rw [compressed]; decide), if_pos (.inl compressed)]
    simp only [if_neg straight]
    constructor
    · intro decoded
      split at decoded
      · contradiction
      next buf read =>
      obtain ⟨rfl, length⟩ := checkLength_ok.mp decoded
      exact ⟨(FrameReader.readAll_ok length).mp read, length⟩
    · rintro ⟨whole, length⟩
      rw [(FrameReader.readAll_ok length).mpr whole]
      exact checkLength_ok.mpr ⟨rfl, length⟩
  | grouped =>
    have grouped : h.scheme = schemeBG4LZ4 := scheme
    rw [if_neg (by rw [grouped]; decide), if_pos (.inr grouped)]
    simp only [if_pos grouped]
    constructor
    · intro decoded
      split at decoded
      · contradiction
      next buf read =>
      obtain ⟨rfl, length⟩ := checkLength_ok.mp decoded
      rw [length_bg4Regroup] at length
      rw [Scheme.decode, (FrameReader.readAll_ok length).mp read]
      exact ⟨rfl, (length_bg4Regroup buf).trans length⟩
    · rintro ⟨whole, length⟩
      obtain ⟨buf, found, rfl⟩ := Option.map_eq_some_iff.mp whole
      rw [(FrameReader.readAll_ok ((length_bg4Regroup buf).symm.trans length)).mpr found]
      exact checkLength_ok.mpr ⟨rfl, length⟩

/-! ### The loop -/

section
variable {lz4 : Bytes → FrameReader}

theorem Frame.length_bytes (f : Frame lz4) : f.bytes.length = chunkHeaderLen + f.payload.length := by
  rw [bytes, List.length_append, length_headerBytes]

theorem slice_payload (here : data.drop off = headerBytes s p u ++ rest) :
    slice data (off + chunkHeaderLen) (off + chunkHeaderLen + n) = rest.take n := by
  have after : data.drop (off + chunkHeaderLen) = rest := by
    rw [← List.drop_drop, here, List.drop_left' length_headerBytes]
  rw [slice, List.drop_take, after, Nat.add_sub_cancel_left]

theorem decodeLoop_frame (f : Frame lz4) (here : data.drop off = f.bytes ++ rest) :
    decodeLoop lz4 xorb data off chunks = decodeLoop lz4 xorb data (off + f.bytes.length) (chunks ++ [f.chunk]) := by
  have long : data.length - off = f.bytes.length + rest.length := by
    rw [← List.length_drop, here, List.length_append]
  have size := f.length_bytes
  rw [Frame.bytes, List.append_assoc] at here
  have header : parseChunkHeader xorb (data.drop off) = .ok ⟨f.scheme.id.toNat, f.payload.length, f.chunk.length⟩ :=
    parseChunkHeader_ok.mpr ⟨f.scheme, f.payload ++ rest, here, rfl, f.packed, f.unpacked⟩
  have payload : slice data (off + chunkHeaderLen) (off + chunkHeaderLen + f.payload.length) = f.payload := by
    rw [slice_payload here, List.take_left]
  have chunk : decodeChunk lz4 xorb ⟨f.scheme.id.toNat, f.payload.length, f.chunk.length⟩ f.payload = .ok f.chunk :=
    (decodeChunk_ok rfl).mpr ⟨f.decodes, rfl⟩
  rw [decodeLoop, if_pos (by simp only [chunkHeaderLen] at size; omega)]
  simp only [header]
  rw [if_neg (by omega), payload, chunk, size, Nat.add_assoc]

theorem decodeLoop_ok (more : off < data.length) (accepted : decodeLoop lz4 xorb data off chunks = .ok out) :
    ∃ (f : Frame lz4) (rest : Bytes), data.drop off = f.bytes ++ rest := by
  rw [decodeLoop, if_pos more] at accepted
  split at accepted
  · contradiction
  next h parsed =>
  obtain ⟨s, rest, here, scheme, packed, unpacked⟩ := parseChunkHeader_ok.mp parsed
  have long : data.length - off = chunkHeaderLen + rest.length := by
    rw [← List.length_drop, here, List.length_append, length_headerBytes]
  dsimp only at accepted
  split at accepted
  · contradiction
  next present =>
  rw [slice_payload here] at accepted
  split at accepted
  · contradiction
  next dec decoded =>
  obtain ⟨decodes, length⟩ := (decodeChunk_ok scheme).mp decoded
  have whole : (rest.take h.packedLen).length = h.packedLen := by
    rw [List.length_take]
    omega
  refine ⟨⟨s, rest.take h.packedLen, dec, whole.trans_le packed, length.trans_le unpacked, decodes⟩,
    rest.drop h.packedLen, ?_⟩
  simp only [Frame.bytes]
  rw [whole, length, List.append_assoc, List.take_append_drop, here]

theorem decodeLoop_frames (frames : List (Frame lz4)) (here : data.drop off = frames.flatMap Frame.bytes) :
    decodeLoop lz4 xorb data off chunks = .ok (chunks ++ frames.map Frame.chunk) := by
  induction frames generalizing off chunks with
  | nil =>
    have last : data.length ≤ off := List.drop_eq_nil_iff.mp here
    rw [decodeLoop, if_neg (by omega), List.map_nil, List.append_nil]
  | cons f frames ih =>
    rw [List.flatMap_cons] at here
    rw [decodeLoop_frame f here, ih, List.map_cons, List.append_assoc, List.singleton_append]
    rw [← List.drop_drop, here, List.drop_left]

/-- By the bytes left: an accepted rest is a list of frames. -/
theorem frames_of_decodeLoop (accepted : decodeLoop lz4 xorb data off chunks = .ok out) :
    ∃ frames : List (Frame lz4), data.drop off = frames.flatMap Frame.bytes := by
  induction bound : data.length - off using Nat.strong_induction_on generalizing off chunks with
  | _ left ih =>
    by_cases more : off < data.length
    · obtain ⟨f, rest, here⟩ := decodeLoop_ok more accepted
      rw [decodeLoop_frame f here] at accepted
      have size := f.length_bytes
      have smaller : data.length - (off + f.bytes.length) < left := by
        simp only [chunkHeaderLen] at size
        omega
      obtain ⟨frames, there⟩ := ih _ smaller accepted rfl
      rw [← List.drop_drop, here, List.drop_left] at there
      exact ⟨f :: frames, by rw [List.flatMap_cons, ← there, here]⟩
    · exact ⟨[], List.drop_eq_nil_iff.mpr (by omega)⟩

theorem decodeXorbChunks_ok {chunks : List Bytes} : decodeXorbChunks lz4 xorb data = .ok chunks ↔
    ∃ frames : List (Frame lz4), data = frames.flatMap Frame.bytes ∧ chunks = frames.map Frame.chunk := by
  constructor
  · intro accepted
    obtain ⟨frames, here⟩ := frames_of_decodeLoop accepted
    rw [decodeXorbChunks, decodeLoop_frames frames here] at accepted
    exact ⟨frames, here, (Except.ok.inj accepted).symm⟩
  · rintro ⟨frames, rfl, rfl⟩
    exact decodeLoop_frames frames rfl

end

/-- For any decoder: the accepted byte strings are the lists of well-formed frames, decoded frame by frame, and accepted
strings are decoded side by side. Every input is answered, since the loop recurses on the bytes left. -/
theorem decodeXorbChunks_framing (lz4 : Bytes → FrameReader) (xorb : XorbHash) :
    (∀ data chunks, decodeXorbChunks lz4 xorb data = .ok chunks ↔
      ∃ frames : List (Frame lz4), data = frames.flatMap Frame.bytes ∧ chunks = frames.map Frame.chunk) ∧
    ∀ a b as bs, decodeXorbChunks lz4 xorb a = .ok as → decodeXorbChunks lz4 xorb b = .ok bs →
      decodeXorbChunks lz4 xorb (a ++ b) = .ok (as ++ bs) := by
  refine ⟨fun data chunks => decodeXorbChunks_ok, fun a b as bs first second => ?_⟩
  obtain ⟨frames, rfl, rfl⟩ := decodeXorbChunks_ok.mp first
  obtain ⟨frames', rfl, rfl⟩ := decodeXorbChunks_ok.mp second
  rw [decodeXorbChunks_ok]
  exact ⟨frames ++ frames', List.flatMap_append.symm, List.map_append.symm⟩

/-- A plain frame, and an empty compressed one. -/
example : decodeXorbChunks (fun _ => ⟨[], none⟩) "x" [0, 2, 0, 0, 0, 2, 0, 0, 7, 9, 0, 1, 0, 0, 1, 0, 0, 0, 5] =
    .ok [[7, 9], []] := by decide +kernel

end Hfdl.Xet
