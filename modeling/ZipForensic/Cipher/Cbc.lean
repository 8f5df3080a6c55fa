import Mathlib.Logic.Equiv.Basic
import ZipForensic.Bytes.LittleEndian

/-!
# Cipher block chaining

CBC over an arbitrary block cipher (`BlockCipher`: a map of blocks and its inverse).
Each block is XORed with the ciphertext block before it, the first one with the IV.

- `cbcEncryptBlocks`, `cbcDecryptBlocks`: so many blocks, from a chaining value on.
- `cbcDecryptBlocks_cbcEncrypt`: decryption from the same chaining value undoes
  encryption, whatever that value is — so a message can be continued from the last
  ciphertext block of another one.
-/

namespace ZipForensic

/-- Bytewise XOR. -/
def xorBytes (a b : Bytes) : Bytes := a.zipWith (· ^^^ ·) b

@[simp] theorem length_xorBytes (a b : Bytes) :
    (xorBytes a b).length = min a.length b.length :=
  List.length_zipWith

/-- The same mask twice cancels. -/
theorem xorBytes_cancel {a b : Bytes} (h : a.length ≤ b.length) :
    xorBytes (xorBytes a b) b = a := by
  induction a generalizing b with
  | nil => rfl
  | cons x xs ih =>
    cases b with
    | nil => cases h
    | cons y ys =>
      have hbyte : x ^^^ y ^^^ y = x := by
        rw [UInt8.xor_assoc, UInt8.xor_self, UInt8.xor_zero]
      show (x ^^^ y ^^^ y) :: xorBytes (xorBytes xs ys) ys = x :: xs
      rw [hbyte, ih (Nat.le_of_succ_le_succ h)]

/-- A map of blocks of `w` bytes, and its inverse. -/
structure BlockCipher (w : Nat) (enc dec : Bytes → Bytes) : Prop where
  length_enc : ∀ b, b.length = w → (enc b).length = w
  length_dec : ∀ b, b.length = w → (dec b).length = w
  dec_enc : ∀ b, b.length = w → dec (enc b) = b

/-- Two ciphers one after the other. -/
theorem BlockCipher.comp {w : Nat} {enc dec enc' dec' : Bytes → Bytes}
    (h : BlockCipher w enc dec) (h' : BlockCipher w enc' dec') :
    BlockCipher w (enc' ∘ enc) (dec ∘ dec') where
  length_enc b hb := h'.length_enc _ (h.length_enc b hb)
  length_dec b hb := h.length_dec _ (h'.length_dec b hb)
  dec_enc b hb := by
    show dec (dec' (enc' (enc b))) = b
    rw [h'.dec_enc _ (h.length_enc b hb), h.dec_enc b hb]

/-- Exchanging two blocks. -/
theorem BlockCipher.swap {w : Nat} {x y : Bytes} (hx : x.length = w) (hy : y.length = w) :
    BlockCipher w (Equiv.swap x y) (Equiv.swap x y) := by
  have hlen : ∀ b : Bytes, b.length = w → (Equiv.swap x y b).length = w := by
    intro b hb
    rw [Equiv.swap_apply_def]
    split_ifs
    · exact hy
    · exact hx
    · exact hb
  exact ⟨hlen, hlen, fun b _ => Equiv.congr_fun (Equiv.swap_swap x y) b⟩

/-- Encrypt the first blocks of `data`, from the chaining value `prev` on. -/
def cbcEncryptBlocks (enc : Bytes → Bytes) (w : Nat) : Nat → Bytes → Bytes → Bytes
  | 0, _, _ => []
  | blocks + 1, prev, data =>
    let block := enc (xorBytes (data.take w) prev)
    block ++ cbcEncryptBlocks enc w blocks block (data.drop w)

/-- Decrypt the first blocks of `data`, from the chaining value `prev` on. -/
def cbcDecryptBlocks (dec : Bytes → Bytes) (w : Nat) : Nat → Bytes → Bytes → Bytes
  | 0, _, _ => []
  | blocks + 1, prev, data =>
    xorBytes (dec (data.take w)) prev ++ cbcDecryptBlocks dec w blocks (data.take w) (data.drop w)

/-- Encrypt a message of whole blocks. -/
def cbcEncrypt (enc : Bytes → Bytes) (w : Nat) (iv data : Bytes) : Bytes :=
  cbcEncryptBlocks enc w (data.length / w) iv data

section Blocks

variable {enc dec : Bytes → Bytes} {w : Nat} (h : BlockCipher w enc dec)
include h

theorem BlockCipher.length_block {block prev : Bytes} (hblock : block.length = w)
    (hprev : prev.length = w) : (enc (xorBytes block prev)).length = w :=
  h.length_enc _ (by rw [length_xorBytes, hblock, hprev, Nat.min_self])

theorem length_cbcEncryptBlocks {blocks : Nat} {prev data : Bytes} (hprev : prev.length = w)
    (hdata : blocks * w ≤ data.length) :
    (cbcEncryptBlocks enc w blocks prev data).length = blocks * w := by
  induction blocks generalizing prev data with
  | zero => exact (Nat.zero_mul w).symm
  | succ blocks ih =>
    rw [Nat.succ_mul] at hdata ⊢
    have hblock : (data.take w).length = w := by
      rw [List.length_take]
      omega
    have hlen := h.length_block hblock hprev
    rw [cbcEncryptBlocks, List.length_append, hlen, ih hlen (by rw [List.length_drop]; omega)]
    omega

/-- **Decryption undoes encryption**, block by block. -/
theorem cbcDecryptBlocks_cbcEncryptBlocks {blocks : Nat} {prev data : Bytes}
    (hprev : prev.length = w) (hdata : data.length = blocks * w) :
    cbcDecryptBlocks dec w blocks prev (cbcEncryptBlocks enc w blocks prev data) = data := by
  induction blocks generalizing prev data with
  | zero =>
    rw [Nat.zero_mul] at hdata
    exact (List.length_eq_zero_iff.1 hdata).symm
  | succ blocks ih =>
    rw [Nat.succ_mul] at hdata
    have hblock : (data.take w).length = w := by
      rw [List.length_take]
      omega
    have hlen := h.length_block hblock hprev
    have hmask : (data.take w).length ≤ prev.length := (hblock.trans hprev.symm).le
    have hxor : (xorBytes (data.take w) prev).length = w := by
      rw [length_xorBytes, hblock, hprev, Nat.min_self]
    rw [cbcEncryptBlocks, cbcDecryptBlocks, List.take_left' hlen, List.drop_left' hlen,
      h.dec_enc _ hxor, xorBytes_cancel hmask, ih hlen (by rw [List.length_drop]; omega),
      List.take_append_drop]

/-- The same for a message of whole blocks. -/
theorem cbcDecryptBlocks_cbcEncrypt {iv data : Bytes} (hiv : iv.length = w)
    (hdata : data.length % w = 0) :
    cbcDecryptBlocks dec w (data.length / w) iv (cbcEncrypt enc w iv data) = data :=
  cbcDecryptBlocks_cbcEncryptBlocks h hiv
    (Nat.div_mul_cancel (Nat.dvd_of_mod_eq_zero hdata)).symm

theorem length_cbcEncrypt {iv data : Bytes} (hiv : iv.length = w)
    (hdata : data.length % w = 0) : (cbcEncrypt enc w iv data).length = data.length := by
  have hblocks : data.length / w * w = data.length :=
    Nat.div_mul_cancel (Nat.dvd_of_mod_eq_zero hdata)
  rw [cbcEncrypt, length_cbcEncryptBlocks h hiv hblocks.le, hblocks]

end Blocks

end ZipForensic
