import Mathlib.Data.List.Basic

/-! Text as its UTF-8 bytes: a byte below 128 is an ASCII character by itself, and the bytes of every other character
are 128 or more, so a loop over bytes that looks for ASCII characters meets them where the text has them. -/
namespace Hfdl.Codec

def utf8 (text : List Char) : List UInt8 := text.flatMap String.utf8EncodeChar

def runes (bytes : List UInt8) : List Char :=
  match bytes.toByteArray.utf8Decode? with
  | some text => text.toList
  | none => []

def byte (c : Char) : UInt8 := UInt8.ofNat c.toNat

def latin (b : UInt8) : Char := Char.ofNat b.toNat

theorem runes_utf8 (text : List Char) : runes (utf8 text) = text := by
  have decoded : (utf8 text).toByteArray.utf8Decode? = some text.toArray := List.utf8Decode?_utf8Encode
  simp only [runes, decoded]

theorem utf8_cons (c : Char) (text : List Char) : utf8 (c :: text) = String.utf8EncodeChar c ++ utf8 text := rfl

theorem utf8_append (a b : List Char) : utf8 (a ++ b) = utf8 a ++ utf8 b := List.flatMap_append

def Ascii (c : Char) : Prop := c.toNat < 128
deriving Decidable

theorem encode_ascii (ascii : Ascii c) : String.utf8EncodeChar c = [byte c] := by
  have small : c.val.toNat ≤ 127 := Nat.le_of_lt_succ ascii
  simp only [String.utf8EncodeChar, if_pos small]
  rfl

theorem utf8_cons_ascii (ascii : Ascii c) (text : List Char) : utf8 (c :: text) = byte c :: utf8 text := by
  rw [utf8_cons, encode_ascii ascii]
  rfl

theorem toNat_byte (ascii : Ascii c) : (byte c).toNat = c.toNat := by
  have small : c.toNat < 128 := ascii
  simp only [byte, UInt8.toNat_ofNat']
  omega

theorem latin_byte (ascii : Ascii c) : latin (byte c) = c := by
  rw [latin, toNat_byte ascii]
  exact Char.ofNat_toNat c

theorem byte_inj (ascii : Ascii c) (ascii' : Ascii d) (same : byte c = byte d) : c = d := by
  rw [← latin_byte ascii, ← latin_byte ascii', same]

theorem high_encode (wide : ¬ Ascii c) (member : b ∈ String.utf8EncodeChar c) : 128 ≤ b.toNat := by
  have large : ¬ c.val.toNat ≤ 127 := fun small => wide (Nat.lt_succ_of_le small)
  simp only [String.utf8EncodeChar, if_neg large] at member
  split at member
  · simp only [List.mem_cons, List.not_mem_nil, or_false] at member
    rcases member with rfl | rfl <;> (simp only [UInt8.toNat_ofNat']; omega)
  · split at member
    · simp only [List.mem_cons, List.not_mem_nil, or_false] at member
      rcases member with rfl | rfl | rfl <;> (simp only [UInt8.toNat_ofNat']; omega)
    · simp only [List.mem_cons, List.not_mem_nil, or_false] at member
      rcases member with rfl | rfl | rfl | rfl <;> (simp only [UInt8.toNat_ofNat']; omega)

theorem ne_byte_of_high (wide : ¬ Ascii c) (member : b ∈ String.utf8EncodeChar c) (ascii : Ascii d) : b ≠ byte d := by
  rintro rfl
  have high := high_encode wide member
  rw [toNat_byte ascii] at high
  exact absurd ascii (Nat.not_lt.mpr high)

theorem byte_eq_iff (ascii : Ascii c) (ascii' : Ascii d) : byte c = byte d ↔ c = d :=
  ⟨byte_inj ascii ascii', congrArg byte⟩

theorem encode_cons (wide : ¬ Ascii c) :
    ∃ b bs, String.utf8EncodeChar c = b :: bs ∧ ∀ d, Ascii d → b ≠ byte d := by
  obtain ⟨b, bs, encoded⟩ := List.exists_cons_of_ne_nil (String.utf8EncodeChar_ne_nil (c := c))
  refine ⟨b, bs, encoded, fun d ascii => ne_byte_of_high wide ?_ ascii⟩
  rw [encoded]
  exact List.mem_cons_self

/-- A byte loop sees an ASCII character in front exactly when it is there. -/
theorem head_utf8 (ascii : Ascii d) (text : List Char) : (utf8 text).head? = some (byte d) ↔ text.head? = some d := by
  cases text with
  | nil => simp [utf8]
  | cons c text =>
    by_cases narrow : Ascii c
    · rw [utf8_cons_ascii narrow, List.head?_cons, List.head?_cons, Option.some.injEq, Option.some.injEq]
      exact byte_eq_iff narrow ascii
    · obtain ⟨b, bs, encoded, other⟩ := encode_cons narrow
      rw [utf8_cons, encoded, List.cons_append, List.head?_cons, List.head?_cons, Option.some.injEq, Option.some.injEq]
      refine ⟨fun same => absurd same (other d ascii), ?_⟩
      rintro rfl
      exact absurd ascii narrow

theorem all_ne_byte (wide : ¬ Ascii c) (ascii : Ascii d) : ∀ b ∈ String.utf8EncodeChar c, (b != byte d) = true := by
  intro b member
  exact bne_iff_ne.mpr (ne_byte_of_high wide member ascii)

theorem takeWhile_utf8 (ascii : Ascii d) (text : List Char) :
    (utf8 text).takeWhile (· != byte d) = utf8 (text.takeWhile (· != d)) := by
  induction text with
  | nil => rfl
  | cons c text ih =>
    by_cases same : c = d
    · subst same
      rw [utf8_cons_ascii ascii, List.takeWhile_cons_of_neg (by simp), List.takeWhile_cons_of_neg (by simp)]
      rfl
    · rw [List.takeWhile_cons_of_pos (by simpa using same), utf8_cons, utf8_cons, ← ih]
      refine List.takeWhile_append_of_pos ?_
      by_cases narrow : Ascii c
      · rw [encode_ascii narrow]
        simpa [byte_eq_iff narrow ascii] using same
      · exact all_ne_byte narrow ascii

theorem dropWhile_utf8 (ascii : Ascii d) (text : List Char) :
    (utf8 text).dropWhile (· != byte d) = utf8 (text.dropWhile (· != d)) := by
  have whole := List.takeWhile_append_dropWhile (p := (· != byte d)) (l := utf8 text)
  have parts : utf8 text = utf8 (text.takeWhile (· != d)) ++ utf8 (text.dropWhile (· != d)) := by
    rw [← utf8_append, List.takeWhile_append_dropWhile]
  rw [takeWhile_utf8 ascii] at whole
  exact List.append_cancel_left (whole.trans parts)

end Hfdl.Codec
