import ZipForensic.Cipher.Cbc
import ZipForensic.Core.StrongCrypto
import ZipForensic.Stream.Consumes
import ZipForensic.Stream.Received

/-!
# The strong-encryption primitives as streams

With AES taken as an arbitrary keyed block cipher (`Crates.StrongPrimitives`):

- `cbcDecryptBuffer_cbcEncrypt`: decrypting a buffer undoes CBC encryption.
- `of_readStrongIv_ok`, `of_readStrongRemainder_ok`: what the two parts of the decryption
  header take off a reader.
- `StrongAesReader.drains`: read in pieces of any sizes, the block-staging reader
  delivers the CBC decryption of its ciphertext, whole blocks at a time or not.
-/

namespace ZipForensic

variable {k : Crates}

/-- The key sizes of AES. -/
def AesKeySize (n : Nat) : Prop := n = 16 ∨ n = 24 ∨ n = 32

/-- AES under every key is a block cipher, with `encrypt` undoing the crate's decryption,
and SHA-1 digests have 20 bytes. -/
structure Crates.StrongPrimitives (k : Crates) (encrypt : Bytes → Bytes → Bytes) : Prop where
  aes : ∀ key, AesKeySize key.length →
    BlockCipher aesBlock (encrypt key) (k.aesDecryptBlock key)
  length_sha1 : ∀ message, (k.sha1 message).length = 20

/-! ## Keys and buffers -/

theorem length_cryptDeriveKey {encrypt : Bytes → Bytes → Bytes} (hk : k.StrongPrimitives encrypt)
    (digest : Bytes) {keySize : Nat} (hsize : AesKeySize keySize) :
    (cryptDeriveKey k digest keySize).length = keySize := by
  have hle : keySize ≤ 40 := by
    rcases hsize with rfl | rfl | rfl <;> decide
  rw [cryptDeriveKey, List.length_take, List.length_append, deriveKeyHalf, deriveKeyHalf,
    hk.length_sha1, hk.length_sha1]
  omega

namespace CbcDec

theorem new_eq {key iv : Bytes} (entry : String) (hkey : AesKeySize key.length) :
    new key iv entry = .ok ⟨key, iv⟩ := if_pos hkey

/-- The whole blocks are decrypted, the rest stays. -/
theorem decryptBlocks_eq (c : CbcDec) (blocks : Nat) (data : Bytes) :
    c.decryptBlocks k blocks data =
      cbcDecryptBlocks (k.aesDecryptBlock c.key) aesBlock blocks c.prev data ++
        data.drop (blocks * aesBlock) := by
  induction blocks generalizing c data with
  | zero => rw [Nat.zero_mul, List.drop_zero]; rfl
  | succ blocks ih =>
    rw [decryptBlocks, ih, cbcDecryptBlocks, List.append_assoc, List.drop_drop, Nat.succ_mul,
      Nat.add_comm aesBlock]
    rfl

end CbcDec

/-- Decrypting a buffer undoes encryption. -/
theorem cbcDecryptBuffer_cbcEncrypt {encrypt : Bytes → Bytes → Bytes}
    (hk : k.StrongPrimitives encrypt) {key iv data : Bytes} (entry : String)
    (hkey : AesKeySize key.length) (hiv : iv.length = aesBlock)
    (hdata : data.length % aesBlock = 0) :
    cbcDecryptBuffer k key iv (cbcEncrypt (encrypt key) aesBlock iv data) entry = .ok data := by
  have hblocks : data.length = data.length / aesBlock * aesBlock :=
    (Nat.div_mul_cancel (Nat.dvd_of_mod_eq_zero hdata)).symm
  have hlen := length_cbcEncrypt (hk.aes key hkey) hiv hdata
  have hround := cbcDecryptBlocks_cbcEncrypt (hk.aes key hkey) hiv hdata
  have hdrop : (cbcEncrypt (encrypt key) aesBlock iv data).drop
      (data.length / aesBlock * aesBlock) = [] :=
    List.drop_eq_nil_of_le (by rw [hlen]; exact hblocks.le)
  unfold cbcDecryptBuffer
  rw [CbcDec.new_eq entry hkey]
  show Except.ok (CbcDec.decryptBlocks k _ _ _) = Except.ok data
  rw [hlen, CbcDec.decryptBlocks_eq, hdrop, List.append_nil]
  exact congrArg Except.ok hround

/-! ## What the header takes off the reader -/

section HeaderReads

variable {ρ : Type} [Read IoError ρ] [LawfulRead IoError ρ] {entry : String} {r r' : ρ}

theorem of_readStrongIv_ok {crc : UInt32} {unpackSize ivUsed ivLen : Nat} {iv : Bytes}
    (h : ReadM.runOn (readStrongIv crc unpackSize entry) r = (.ok (iv, ivUsed, ivLen), r')) :
    iv.length = aesBlock ∧ ivUsed ≤ aesBlock ∧
      ∃ ivData, (ivData = [] ∨ ivData.length = aesBlock) ∧ ivLen = 2 + ivData.length ∧
        Consumes r (leBytes 2 ivData.length ++ ivData) r' := by
  obtain ⟨buf2, r₁, hbuf2, h⟩ := ReadM.of_runOn_bind_ok h
  obtain ⟨hlen2, hconsumes2⟩ := Consumes.of_runOn_readExact_ok hbuf2
  have hback := leBytes_leNat buf2
  rw [hlen2] at hback
  dsimp only at h
  split_ifs at h with hzero hsixteen
  · -- IVSize 0: the IV is derived, and only the size field is read
    cases h
    refine ⟨?_, show 12 ≤ 16 by decide, [], .inl rfl, rfl, ?_⟩
    · rw [List.length_append, List.length_append, length_leBytes, length_leBytes,
        List.length_replicate]
      rfl
    · rw [List.length_nil, ← hzero, hback, List.append_nil]
      exact hconsumes2
  · obtain ⟨buf, r₂, hbuf, h⟩ := ReadM.of_runOn_bind_ok h
    obtain ⟨hlen, hconsumes⟩ := Consumes.of_runOn_readExact_ok hbuf
    cases h
    refine ⟨hlen, Nat.le_refl _, _, .inr hlen, by rw [hlen], ?_⟩
    rw [hlen, ← hsixteen, hback]
    exact hconsumes2.trans hconsumes
  · cases h

theorem of_readStrongRemainder_ok {p : Bytes}
    (h : ReadM.runOn (readStrongRemainder entry) r = (.ok p, r')) :
    16 ≤ p.length ∧ p.length ≤ maxStrongRem ∧ Consumes r (leBytes 4 p.length ++ p) r' := by
  obtain ⟨buf4, r₁, hbuf4, h⟩ := ReadM.of_runOn_bind_ok h
  obtain ⟨hlen4, hconsumes4⟩ := Consumes.of_runOn_readExact_ok hbuf4
  have hback := leBytes_leNat buf4
  rw [hlen4] at hback
  dsimp only at h
  split_ifs at h with hrange
  · cases h
  · obtain ⟨hlen, hconsumes⟩ := Consumes.of_runOn_readExact_ok h
    rw [← hlen] at hrange hback
    refine ⟨by omega, by omega, ?_⟩
    rw [hback]
    exact hconsumes4.trans hconsumes

end HeaderReads

/-! ## The reader of the file data -/

namespace StrongAesReader

variable {encrypt : Bytes → Bytes → Bytes}

/-- Staged bytes that have not been handed out. -/
def staged {ρ : Type} (r : StrongAesReader k ρ) : Bytes :=
  slice r.block r.blockPos (r.blockLen - r.blockPos)

/-- What a reader over a window still delivers. -/
def rest (r : StrongAesReader k (Window IoError)) : Bytes :=
  r.staged ++ cbcDecryptBlocks (k.aesDecryptBlock r.cipher.key) aesBlock (r.remaining / aesBlock)
    r.cipher.prev r.inner.rest

/-- The reader stands between two blocks of its ciphertext, or inside a staged one. -/
structure Aligned (r : StrongAesReader k (Window IoError)) : Prop where
  key : AesKeySize r.cipher.key.length
  prev : r.cipher.prev.length = aesBlock
  whole : r.remaining % aesBlock = 0
  inner : r.remaining ≤ r.inner.rest.length
  blockLen : r.blockLen ≤ r.block.length

/-- Serving hands out the front of what is staged. -/
theorem serve_ok {ρ : Type} (n : Nat) (r : StrongAesReader k ρ) :
    (serve n r).1 = .ok (r.staged.take n) := by
  show Except.ok (slice r.block r.blockPos (min (r.blockLen - r.blockPos) n)) = _
  rw [staged, slice, slice, List.take_take, Nat.min_comm]

/-- A read delivers no more than it was asked for. -/
theorem read_le {ρ : Type} [Read IoError ρ] (n : Nat) (r : StrongAesReader k ρ) :
    delivered (read n r).1 ≤ n := by
  have hserve : ∀ r : StrongAesReader k ρ, delivered (serve n r).1 ≤ n := by
    intro r
    rw [serve_ok, delivered_ok]
    exact List.length_take_le ..
  show delivered (if _ then _ else _ : Except IoError Bytes × StrongAesReader k ρ).1 ≤ n
  by_cases hempty : r.blockLen ≤ r.blockPos
  · rw [if_pos hempty]
    by_cases hdone : r.remaining = 0
    · rw [if_pos hdone]
      exact Nat.zero_le n
    · rw [if_neg hdone]
      rcases readExact IoError.shortRead aesBlock r.inner with ⟨e | block, inner⟩
      · exact Nat.zero_le n
      · exact hserve _
  · rw [if_neg hempty]
    exact hserve r

theorem staged_serve {ρ : Type} (n : Nat) (r : StrongAesReader k ρ) :
    (serve n r).2.staged = r.staged.drop n := by
  show slice r.block (r.blockPos + min (r.blockLen - r.blockPos) n)
    (r.blockLen - (r.blockPos + min (r.blockLen - r.blockPos) n)) = _
  rw [staged, slice, slice, ← List.drop_drop, List.drop_take]
  rcases Nat.le_total (r.blockLen - r.blockPos) n with h | h
  · -- everything goes out
    rw [Nat.min_eq_left h, Nat.sub_eq_zero_of_le h, List.take_zero,
      Nat.sub_eq_zero_of_le (by omega), List.take_zero]
  · rw [Nat.min_eq_right h, Nat.sub_add_eq]

theorem length_staged {ρ : Type} {r : StrongAesReader k ρ} (h : r.blockLen ≤ r.block.length) :
    r.staged.length = r.blockLen - r.blockPos := by
  rw [staged, slice, List.length_take, List.length_drop]
  omega

theorem staged_eq_nil {ρ : Type} {r : StrongAesReader k ρ} (h : r.blockLen ≤ r.blockPos) :
    r.staged = [] := by
  rw [staged, slice, Nat.sub_eq_zero_of_le h, List.take_zero]

/-- A read of a reader with staged bytes. -/
theorem Aligned.serve {r : StrongAesReader k (Window IoError)} (h : r.Aligned) {n : Nat}
    (hn : 0 < n) (hstaged : r.blockPos < r.blockLen) :
    ∃ bs, (serve n r).1 = .ok bs ∧ bs ++ (serve n r).2.rest = r.rest ∧ (bs = [] → r.rest = []) ∧
      (serve n r).2.Aligned := by
  refine ⟨r.staged.take n, serve_ok n r, ?_, fun hnil => ?_,
    ⟨h.key, h.prev, h.whole, h.inner, h.blockLen⟩⟩
  · show r.staged.take n ++ ((StrongAesReader.serve n r).2.staged ++ _) = r.staged ++ _
    rw [staged_serve, ← List.append_assoc, List.take_append_drop]
    rfl
  · have hlen := length_staged h.blockLen
    rcases List.take_eq_nil_iff.1 hnil with hzero | hempty
    · omega
    · rw [hempty, List.length_nil] at hlen
      omega

/-- The reader with the next block decrypted and staged. -/
def refilled (r : StrongAesReader k (Window IoError)) : StrongAesReader k (Window IoError) :=
  { r with
    inner := ⟨r.inner.rest.drop aesBlock⟩
    cipher := (r.cipher.decryptBlock k (r.inner.rest.take aesBlock)).2
    block := (r.cipher.decryptBlock k (r.inner.rest.take aesBlock)).1
    blockPos := 0
    blockLen := aesBlock
    remaining := r.remaining - aesBlock }

/-! ### Single reads -/

section Reads

variable {r : StrongAesReader k (Window IoError)} {n : Nat}

theorem read_staged (h : r.blockPos < r.blockLen) : read n r = serve n r :=
  if_neg (Nat.not_le.2 h)

theorem read_spent (h : r.blockLen ≤ r.blockPos) (hrem : r.remaining = 0) :
    read n r = (.ok [], r) := by
  show (if _ then _ else _) = _
  rw [if_pos h, if_pos hrem]

theorem read_refill (h : r.blockLen ≤ r.blockPos) (hrem : r.remaining ≠ 0)
    (hblock : aesBlock ≤ r.inner.rest.length) : read n r = serve n r.refilled := by
  show (if _ then _ else _) = _
  rw [if_pos h, if_neg hrem, Window.readExact_eq, if_pos hblock]
  rfl

/-- The file ends within the block. -/
theorem read_cut (h : r.blockLen ≤ r.blockPos) (hrem : r.remaining ≠ 0)
    (hblock : ¬ aesBlock ≤ r.inner.rest.length) :
    read n r = (.error .shortRead, { r with inner := ⟨[]⟩ }) := by
  show (if _ then _ else _) = _
  rw [if_pos h, if_neg hrem, Window.readExact_eq, if_neg hblock]

end Reads

section Primitives

variable (hk : k.StrongPrimitives encrypt)
include hk

theorem Aligned.length_block {r : StrongAesReader k (Window IoError)} (h : r.Aligned)
    (hmore : aesBlock ≤ r.remaining) :
    (r.inner.rest.take aesBlock).length = aesBlock ∧ r.refilled.block.length = aesBlock := by
  have hinner := h.inner
  have hblock : (r.inner.rest.take aesBlock).length = aesBlock := by
    rw [List.length_take]
    omega
  refine ⟨hblock, ?_⟩
  show (xorBytes (k.aesDecryptBlock r.cipher.key _) r.cipher.prev).length = aesBlock
  rw [length_xorBytes, (hk.aes _ h.key).length_dec _ hblock, h.prev, Nat.min_self]

theorem Aligned.refilled {r : StrongAesReader k (Window IoError)} (h : r.Aligned)
    (hmore : aesBlock ≤ r.remaining) : r.refilled.Aligned := by
  have hinner := h.inner
  obtain ⟨hblock, hplain⟩ := h.length_block hk hmore
  refine ⟨h.key, hblock, ?_, ?_, hplain.ge⟩
  · show (r.remaining - aesBlock) % aesBlock = 0
    rw [← Nat.mod_eq_sub_mod hmore]
    exact h.whole
  · show r.remaining - aesBlock ≤ (r.inner.rest.drop aesBlock).length
    rw [List.length_drop]
    omega

theorem Aligned.rest_refilled {r : StrongAesReader k (Window IoError)} (h : r.Aligned)
    (hempty : r.blockLen ≤ r.blockPos) (hmore : aesBlock ≤ r.remaining) :
    r.refilled.rest = r.rest := by
  obtain ⟨-, hplain⟩ := h.length_block hk hmore
  have hblock : r.refilled.staged = r.refilled.block :=
    List.take_of_length_le hplain.le
  have hcount : r.remaining / aesBlock = (r.remaining - aesBlock) / aesBlock + 1 :=
    Nat.div_eq_sub_div (by decide) hmore
  rw [rest, hblock, rest, staged_eq_nil hempty, hcount, List.nil_append, cbcDecryptBlocks]
  rfl

/-- **Read in pieces of any sizes**, the reader delivers the decryption of its ciphertext. -/
theorem drains : Drains (rest (k := k)) Aligned where
  read_ok := by
    intro r n hr hn
    by_cases hempty : r.blockLen ≤ r.blockPos
    · by_cases hdone : r.remaining = 0
      · have hrest : r.rest = [] := by
          rw [rest, staged_eq_nil hempty, hdone]
          rfl
        rw [read_spent hempty hdone]
        exact ⟨[], rfl, rfl, fun _ => hrest, hr⟩
      · have hwhole := Nat.dvd_of_mod_eq_zero hr.whole
        have hmore : aesBlock ≤ r.remaining := Nat.le_of_dvd (Nat.pos_of_ne_zero hdone) hwhole
        rw [read_refill hempty hdone (hmore.trans hr.inner), ← hr.rest_refilled hk hempty hmore]
        exact (hr.refilled hk hmore).serve hn (show 0 < aesBlock by decide)
    · rw [read_staged (Nat.lt_of_not_le hempty)]
      exact hr.serve hn (Nat.lt_of_not_le hempty)

end Primitives

end StrongAesReader

end ZipForensic
