import ZipForensic.Cipher.Lfsr
import ZipForensic.Core.Crypto

/-!
# The CRC step is CRC-32

`crc32_byte` shifts the low byte of the register alone and combines the result with the
high bits moved down. That is the bit-serial CRC with the reflected polynomial, since a
shift is linear and only the low bits feed back (`Lfsr.iterate_step_split`).

- `toBitVec_crc32Byte`: eight shifts of the register with the byte in it.
- `toBitVec_foldl_crc32Byte`: the bits of a byte string, fed one after the other.
-/

namespace ZipForensic

/-- The polynomial of CRC-32, reflected. -/
def crc32Poly : BitVec 32 := 0xEDB88320

/-- The bits of a byte string, each byte from its lowest bit on. -/
def messageBits (bytes : Bytes) : List Bool := bytes.flatMap fun b => Lfsr.lowBits 8 b.toBitVec

/-- The bit-serial CRC-32: all bits of the message through the register, which starts with
ones everywhere and is complemented at the end. -/
def bitSerialCrc32 (bytes : Bytes) : BitVec 32 :=
  ~~~ (messageBits bytes).foldl (Lfsr.feedBit crc32Poly) 0xFFFFFFFF

theorem toBitVec_crc32Shift (n : Nat) (c : UInt32) :
    (crc32Shift n c).toBitVec = (Lfsr.step crc32Poly)^[n] c.toBitVec := by
  induction n generalizing c with
  | zero => rfl
  | succ n ih =>
    rw [crc32Shift, ih, Function.iterate_succ_apply]
    congr 1
    have hlow : c &&& 1 ≠ 0 ↔ c.toBitVec.getLsbD 0 = true := by
      rw [ne_eq, ← UInt32.toBitVec_inj, UInt32.toBitVec_and]
      show ¬ c.toBitVec &&& 1#32 = 0#32 ↔ _
      rw [BitVec.and_one_eq_setWidth_ofBool_getLsbD]
      cases c.toBitVec.getLsbD 0 <;> decide
    rw [Lfsr.step, Lfsr.feedback]
    by_cases hbit : c.toBitVec.getLsbD 0 = true
    · rw [if_pos (hlow.mpr hbit), if_pos hbit]
      rfl
    · rw [if_neg (mt hlow.mp hbit), if_neg hbit, BitVec.xor_zero]
      rfl

/-- A byte leaves nothing behind its eight bits. -/
theorem setWidth_byte_ushiftRight (b : BitVec 8) : b.setWidth 32 >>> 8 = 0#32 := by
  refine BitVec.eq_of_getLsbD_eq fun i _ => ?_
  rw [BitVec.getLsbD_ushiftRight, BitVec.getLsbD_setWidth,
    BitVec.getLsbD_of_ge b (8 + i) (Nat.le_add_right 8 i)]
  simp

theorem toBitVec_crc32Byte (reg : UInt32) (b : UInt8) :
    (crc32Byte reg b).toBitVec =
      (Lfsr.step crc32Poly)^[8] (reg.toBitVec ^^^ b.toBitVec.setWidth 32) := by
  -- `(c >> 8) ^ crc32_shift((c ^ b) & 0xff)`: the byte is only in the low bits
  have hhigh : (reg.toBitVec ^^^ b.toBitVec.setWidth 32) >>> 8 = reg.toBitVec >>> 8 := by
    rw [BitVec.ushiftRight_xor_distrib, setWidth_byte_ushiftRight, BitVec.xor_zero]
  rw [Lfsr.iterate_step_split, hhigh, crc32Byte, UInt32.toBitVec_xor, toBitVec_crc32Shift]
  rfl

/-- The step feeds the bits of the byte. -/
theorem toBitVec_crc32Byte_eq_feed (reg : UInt32) (b : UInt8) :
    (crc32Byte reg b).toBitVec =
      (Lfsr.lowBits 8 b.toBitVec).foldl (Lfsr.feedBit crc32Poly) reg.toBitVec := by
  have hfeed := Lfsr.foldl_feedBit crc32Poly 8 reg.toBitVec (b.toBitVec.setWidth 32)
  rw [setWidth_byte_ushiftRight, BitVec.xor_zero, Lfsr.lowBits_setWidth (by decide)] at hfeed
  rw [toBitVec_crc32Byte, hfeed]

theorem toBitVec_foldl_crc32Byte (bytes : Bytes) (reg : UInt32) :
    (bytes.foldl crc32Byte reg).toBitVec =
      (messageBits bytes).foldl (Lfsr.feedBit crc32Poly) reg.toBitVec := by
  induction bytes generalizing reg with
  | nil => rfl
  | cons b bytes ih =>
    rw [List.foldl_cons, ih, toBitVec_crc32Byte_eq_feed, messageBits, messageBits,
      List.flatMap_cons, List.foldl_append]

/-- The folded and complemented step is the bit-serial CRC-32 of every byte string, and one
step is eight shifts of the whole register with the byte in it. -/
theorem crc32_eq_bitSerial :
    (∀ bytes : Bytes,
      (~~~ bytes.foldl crc32Byte 0xFFFFFFFF).toBitVec = bitSerialCrc32 bytes) ∧
      ∀ (reg : UInt32) (b : UInt8),
        (crc32Byte reg b).toBitVec =
          (Lfsr.step crc32Poly)^[8] (reg.toBitVec ^^^ b.toBitVec.setWidth 32) := by
  refine ⟨fun bytes => ?_, toBitVec_crc32Byte⟩
  rw [UInt32.toBitVec_not, toBitVec_foldl_crc32Byte, bitSerialCrc32]
  rfl

/-- The check value of CRC-32. -/
example : crc32 [0x31, 0x32, 0x33, 0x34, 0x35, 0x36, 0x37, 0x38, 0x39] = 0xCBF43926 := by
  decide +kernel

end ZipForensic
