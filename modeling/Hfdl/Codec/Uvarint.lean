import Mathlib.Algebra.Group.Nat.Defs
import Mathlib.Tactic.Common

/-! Unsigned LEB128 with the 64-bit limit of ten bytes: seven payload bits a byte,
lowest first, and the high bit set on every byte but the last. -/
namespace Hfdl.Codec

/-- Longest encoding of a 64-bit value. -/
def maxVarintLen64 : Nat := 10

def appendUvarintLoop : Nat → Nat → List UInt8
  | 0, _ => []
  | fuel + 1, x => if 128 ≤ x then .ofNat (x % 128 + 128) :: appendUvarintLoop fuel (x / 128) else [.ofNat x]

def appendUvarint (x : Nat) : List UInt8 := appendUvarintLoop maxVarintLen64 x

/-- `i` bytes are read and `x` is their value. The payloads occupy distinct bits, so the
bitwise or of the source is a sum. No result on truncation and on overflow. -/
def uvarintLoop : List UInt8 → Nat → Nat → Option (Nat × List UInt8)
  | [], _, _ => none
  | b :: bs, i, x =>
    if i = maxVarintLen64 then none
    else if b.toNat < 128 then
      if i = maxVarintLen64 - 1 ∧ 1 < b.toNat then none else some (x + b.toNat * 2 ^ (7 * i), bs)
    else uvarintLoop bs (i + 1) (x + b.toNat % 128 * 2 ^ (7 * i))

def uvarint (bs : List UInt8) : Option (Nat × List UInt8) := uvarintLoop bs 0 0

theorem toNat_ofNat_of_lt (small : n < 256) : (UInt8.ofNat n).toNat = n := by
  rw [UInt8.toNat_ofNat']
  omega

/-- The encodings of a number: the low seven bits first, and the high bit says that more bytes follow. Trailing zero
groups are allowed, so a number has more than one encoding. -/
inductive Leb128 : List UInt8 → Nat → Prop where
  | last (low : b.toNat < 128) : Leb128 [b] b.toNat
  | more (high : 128 ≤ b.toNat) (rest : Leb128 bs x) : Leb128 (b :: bs) (b.toNat % 128 + 128 * x)

/-- An encoding within the limits of ten bytes and 64 bits. -/
structure Uvarint (bs : List UInt8) (x : Nat) : Prop where
  encoding : Leb128 bs x
  short : bs.length ≤ maxVarintLen64
  fits : x < 2 ^ 64

theorem Leb128.length_pos (encoding : Leb128 bs x) : 0 < bs.length := by
  cases encoding <;> simp

theorem two_pow_group (i : Nat) : 2 ^ (7 * (i + 1)) = 128 * 2 ^ (7 * i) := by
  rw [Nat.mul_add, Nat.pow_add, Nat.mul_comm]

theorem group_shift (low x i : Nat) : (low + 128 * x) * 2 ^ (7 * i) = low * 2 ^ (7 * i) + x * 2 ^ (7 * (i + 1)) := by
  rw [Nat.add_mul, two_pow_group, Nat.mul_right_comm, Nat.mul_comm x, Nat.mul_right_comm 128]

theorem group_fits (room : i + 1 < maxVarintLen64) (low : b < 128) (fits : x * 2 ^ (7 * (i + 1)) < 2 ^ 64) :
    (b + 128 * x) * 2 ^ (7 * i) < 2 ^ 64 := by
  have ten : maxVarintLen64 = 10 := rfl
  have whole : 2 ^ 64 = 2 ^ (64 - 7 * (i + 1)) * 2 ^ (7 * (i + 1)) := by
    rw [← Nat.pow_add, Nat.sub_add_cancel (by omega)]
  have positive : 0 < 2 ^ (7 * i) := Nat.two_pow_pos _
  rw [whole] at fits ⊢
  have below : x + 1 ≤ 2 ^ (64 - 7 * (i + 1)) := Nat.lt_of_mul_lt_mul_right fits
  calc (b + 128 * x) * 2 ^ (7 * i) = b * 2 ^ (7 * i) + x * 2 ^ (7 * (i + 1)) := group_shift b x i
    _ < 128 * 2 ^ (7 * i) + x * 2 ^ (7 * (i + 1)) := Nat.add_lt_add_right (Nat.mul_lt_mul_of_pos_right low positive) _
    _ = (x + 1) * 2 ^ (7 * (i + 1)) := by rw [Nat.add_mul x 1, Nat.one_mul, Nat.add_comm, two_pow_group]
    _ ≤ 2 ^ (64 - 7 * (i + 1)) * 2 ^ (7 * (i + 1)) := Nat.mul_le_mul_right _ below

theorem last_fits (room : i < maxVarintLen64) (low : b < 128) :
    b * 2 ^ (7 * i) < 2 ^ 64 ↔ ¬ (i = maxVarintLen64 - 1 ∧ 1 < b) := by
  have ten : maxVarintLen64 = 10 := rfl
  by_cases tenth : i = 9
  · subst tenth
    simp only [ten, Nat.reduceMul, Nat.reducePow, Nat.reduceSub, true_and]
    omega
  · have small : 2 ^ (7 * i) ≤ 2 ^ 56 := Nat.pow_le_pow_right (by decide) (by omega)
    have := Nat.mul_le_mul (Nat.le_of_lt low) small
    have fits : b * 2 ^ (7 * i) < 2 ^ 64 := by omega
    exact iff_of_true fits fun last => tenth last.1

theorem uvarintLoop_sound (room : i ≤ maxVarintLen64) (decoded : uvarintLoop bs i acc = some (y, rest)) :
    ∃ enc x, bs = enc ++ rest ∧ Leb128 enc x ∧ i + enc.length ≤ maxVarintLen64 ∧ x * 2 ^ (7 * i) < 2 ^ 64 ∧
      y = acc + x * 2 ^ (7 * i) := by
  induction bs generalizing i acc with
  | nil => cases decoded
  | cons b bs ih =>
    simp only [uvarintLoop] at decoded
    split at decoded
    · cases decoded
    rename_i below
    have room : i < maxVarintLen64 := by omega
    split at decoded
    · rename_i low
      split at decoded
      · cases decoded
      · rename_i fits
        cases decoded
        exact ⟨[b], b.toNat, rfl, .last low, room, (last_fits room low).mpr fits, rfl⟩
    · rename_i high
      obtain ⟨enc, x, rfl, encoding, short, fits, rfl⟩ := ih (by omega) decoded
      have := encoding.length_pos
      have more : i + 1 < maxVarintLen64 := by omega
      refine ⟨b :: enc, b.toNat % 128 + 128 * x, rfl, .more (by omega) encoding, ?_, group_fits more (by omega) fits, ?_⟩
      · simp only [List.length_cons]
        omega
      · rw [group_shift, Nat.add_assoc]

theorem uvarintLoop_complete (encoding : Leb128 enc x) (short : i + enc.length ≤ maxVarintLen64)
    (fits : x * 2 ^ (7 * i) < 2 ^ 64) :
    uvarintLoop (enc ++ rest) i acc = some (acc + x * 2 ^ (7 * i), rest) := by
  induction encoding generalizing i acc with
  | @last b low =>
    simp only [List.length_singleton] at short
    have fits := (last_fits (by omega) low).mp fits
    simp only [List.singleton_append, uvarintLoop]
    rw [if_neg (by omega), if_pos low, if_neg fits]
  | @more b bs x high encoding ih =>
    have := encoding.length_pos
    simp only [List.length_cons] at short
    rw [group_shift] at fits
    simp only [List.cons_append, uvarintLoop]
    rw [if_neg (by omega), if_neg (by omega), ih (by omega) (by omega), group_shift, Nat.add_assoc]

/-- The decoder accepts exactly the encodings within the limits, and splits them off what follows. -/
theorem uvarint_eq_some : uvarint bs = some (x, rest) ↔ ∃ enc, bs = enc ++ rest ∧ Uvarint enc x := by
  constructor
  · intro decoded
    obtain ⟨enc, x', same, encoding, short, fits, rfl⟩ := uvarintLoop_sound (by decide) decoded
    have plain : 0 + x' * 2 ^ (7 * 0) = x' := by simp
    rw [plain]
    exact ⟨enc, same, encoding, by simpa using short, by simpa using fits⟩
  · rintro ⟨enc, rfl, encoding, short, fits⟩
    have decoded : uvarintLoop (enc ++ rest) 0 0 = some (0 + x * 2 ^ (7 * 0), rest) :=
      uvarintLoop_complete encoding (by simpa using short) (by simpa using fits)
    simpa [uvarint] using decoded

theorem appendUvarintLoop_encodes (fits : x < 128 ^ (fuel + 1)) :
    Leb128 (appendUvarintLoop (fuel + 1) x) x ∧ (appendUvarintLoop (fuel + 1) x).length ≤ fuel + 1 := by
  induction fuel generalizing x with
  | zero =>
    have low : (UInt8.ofNat x).toNat = x := toNat_ofNat_of_lt (by omega)
    have encoding := Leb128.last (b := .ofNat x) (by omega)
    rw [low] at encoding
    rw [appendUvarintLoop, if_neg (by omega)]
    exact ⟨encoding, Nat.le_refl _⟩
  | succ fuel ih =>
    rw [appendUvarintLoop]
    split
    · obtain ⟨rest, short⟩ := ih (x := x / 128) (Nat.div_lt_of_lt_mul (by rwa [Nat.pow_succ'] at fits))
      have byte : (UInt8.ofNat (x % 128 + 128)).toNat = x % 128 + 128 := toNat_ofNat_of_lt (by omega)
      have encoding := Leb128.more (b := .ofNat (x % 128 + 128)) (by omega) rest
      have value : (x % 128 + 128) % 128 + 128 * (x / 128) = x := by omega
      rw [byte, value] at encoding
      exact ⟨encoding, Nat.succ_le_succ short⟩
    · have low : (UInt8.ofNat x).toNat = x := toNat_ofNat_of_lt (by omega)
      have encoding := Leb128.last (b := .ofNat x) (by omega)
      rw [low] at encoding
      exact ⟨encoding, Nat.succ_le_succ (Nat.zero_le _)⟩

theorem appendUvarint_encodes (fits : x < 2 ^ 64) : Uvarint (appendUvarint x) x := by
  have wide : x < 128 ^ (9 + 1) := by omega
  obtain ⟨encoding, short⟩ := appendUvarintLoop_encodes wide
  exact ⟨encoding, short, fits⟩

theorem uvarint_append (fits : x < 2 ^ 64) : uvarint (appendUvarint x ++ rest) = some (x, rest) :=
  uvarint_eq_some.mpr ⟨_, rfl, appendUvarint_encodes fits⟩

theorem appendUvarint_ne_nil (x : Nat) : appendUvarint x ≠ [] := by
  simp only [appendUvarint, maxVarintLen64, appendUvarintLoop]
  split <;> simp

end Hfdl.Codec
