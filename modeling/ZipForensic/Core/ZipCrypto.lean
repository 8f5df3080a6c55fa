import ZipForensic.Cipher.Feedback
import ZipForensic.Core.Crc32
import ZipForensic.Stream.Serves

/-!
# ZipCrypto undoes the traditional PKWARE cipher

- `Pkware`: the traditional cipher, as the format describes it: three 32-bit keys updated
  with the plaintext through the bit-serial CRC-32, and a keystream byte from the third.
- `decrypt_toPkware`: the decryption of the reader is the one of that cipher.
- `ZipCryptoReader.serves`: the reader over one that serves a byte string serves its
  decryption, however that one cuts its bytes.
- `ZipCryptoReader.new_eq`: the constructor takes the twelve header bytes and compares the
  last one.
-/

namespace ZipForensic

/-! ## The reference cipher -/

namespace Pkware

/-- The three keys. -/
structure Keys where
  key0 : BitVec 32
  key1 : BitVec 32
  key2 : BitVec 32

/-- CRC-32 of one more byte. -/
def crc (c : BitVec 32) (b : BitVec 8) : BitVec 32 :=
  (Lfsr.lowBits 8 b).foldl (Lfsr.feedBit crc32Poly) c

/-- The update with a plaintext byte. -/
def Keys.update (k : Keys) (b : UInt8) : Keys :=
  let key0 := crc k.key0 b.toBitVec
  let key1 := (k.key1 + (key0.setWidth 8).setWidth 32) * 134775813#32 + 1#32
  { key0, key1, key2 := crc k.key2 ((key1 >>> 24).setWidth 8) }

/-- The keystream byte: bits 8 to 15 of a product of two 16-bit numbers. -/
def Keys.keystream (k : Keys) : UInt8 :=
  let temp : BitVec 16 := k.key2.setWidth 16 ||| 2#16
  ⟨((temp.setWidth 32 * (temp ^^^ 1#16).setWidth 32) >>> 8).setWidth 8⟩

theorem xor_cancel (b key : UInt8) : b ^^^ key ^^^ key = b := by
  rw [UInt8.xor_assoc, UInt8.xor_self, UInt8.xor_zero]

/-- Adding a keystream byte, which also takes it away again. -/
def xorPerm (key : UInt8) : Equiv.Perm UInt8 where
  toFun b := b ^^^ key
  invFun b := b ^^^ key
  left_inv b := xor_cancel b key
  right_inv b := xor_cancel b key

/-- The traditional cipher. -/
def cipher : FeedbackCipher Keys UInt8 where
  mask k := xorPerm k.keystream
  update := Keys.update

/-- The keys of a password. -/
def start (password : Bytes) : Keys :=
  password.foldl Keys.update ⟨0x12345678, 0x23456789, 0x34567890⟩

/-- The encryption of a header and what follows it under a password. -/
def encrypt (password plain : Bytes) : Bytes := (cipher.encrypt (start password) plain).1

/-- The decryption of a ciphertext under a password. -/
def decrypt (password data : Bytes) : Bytes := (cipher.decrypt (start password) data).1

end Pkware

/-! ## The keys of the reader -/

namespace ZipCryptoKeys

/-- The keys as those of the reference cipher. -/
def toPkware (keys : ZipCryptoKeys) : Pkware.Keys :=
  ⟨keys.key0.toBitVec, keys.key1.toBitVec, keys.key2.toBitVec⟩

theorem low_byte (x : BitVec 32) : x &&& 0xff#32 = (x.setWidth 8).setWidth 32 :=
  Lfsr.and_lowMask 8 x

theorem low_half (x : BitVec 32) : x &&& 0xffff#32 = (x.setWidth 16).setWidth 32 :=
  Lfsr.and_lowMask 16 x

theorem update_toPkware (keys : ZipCryptoKeys) (b : UInt8) :
    (keys.update b).toPkware = keys.toPkware.update b := by
  have hcrc : ∀ (c : UInt32) (b : UInt8), (crc32Byte c b).toBitVec =
      Pkware.crc c.toBitVec b.toBitVec := toBitVec_crc32Byte_eq_feed
  have hkey1 : ((keys.key1 + (crc32Byte keys.key0 b &&& 0xff)) * 134775813 + 1).toBitVec =
      (keys.toPkware.update b).key1 := by
    show (keys.key1.toBitVec + ((crc32Byte keys.key0 b).toBitVec &&& 0xff#32)) * 134775813#32 +
      1#32 = _
    rw [low_byte, hcrc]
    rfl
  have hkey2 : (((keys.key1 + (crc32Byte keys.key0 b &&& 0xff)) * 134775813 + 1) >>>
      24).toUInt8.toBitVec = ((keys.toPkware.update b).key1 >>> 24).setWidth 8 := by
    rw [UInt32.toBitVec_toUInt8, UInt32.toBitVec_shiftRight, hkey1]
    rfl
  unfold update toPkware
  dsimp only
  rw [hcrc, hcrc, hkey2, hkey1]
  rfl

theorem keystream_toPkware (keys : ZipCryptoKeys) :
    (((((keys.key2 ||| 2) &&& 0xffff) * (((keys.key2 ||| 2) &&& 0xffff) ^^^ 1)) >>> 8).toUInt8 :
      UInt8) = keys.toPkware.keystream := by
  have htemp : ((keys.key2 ||| 2) &&& 0xffff).toBitVec =
      (keys.key2.toBitVec.setWidth 16 ||| 2#16).setWidth 32 := by
    show (keys.key2.toBitVec ||| 2#32) &&& 0xffff#32 = _
    rw [low_half, BitVec.setWidth_or]
    rfl
  have hflip : (((keys.key2 ||| 2) &&& 0xffff) ^^^ 1).toBitVec =
      ((keys.key2.toBitVec.setWidth 16 ||| 2#16) ^^^ 1#16).setWidth 32 := by
    rw [UInt32.toBitVec_xor, htemp, BitVec.setWidth_xor]
    rfl
  rw [← UInt8.toBitVec_inj, UInt32.toBitVec_toUInt8, UInt32.toBitVec_shiftRight,
    UInt32.toBitVec_mul, htemp, hflip]
  rfl

theorem decryptByte_toPkware (keys : ZipCryptoKeys) (c : UInt8) :
    (keys.decryptByte c).1 = (Pkware.cipher.mask keys.toPkware).symm c ∧
      (keys.decryptByte c).2.toPkware =
        keys.toPkware.update ((Pkware.cipher.mask keys.toPkware).symm c) := by
  have hplain : (keys.decryptByte c).1 = (Pkware.cipher.mask keys.toPkware).symm c := by
    show c ^^^ _ = c ^^^ keys.toPkware.keystream
    rw [keystream_toPkware]
  refine ⟨hplain, ?_⟩
  rw [← hplain, ← update_toPkware]
  rfl

/-- A buffer is decrypted as the reference cipher decrypts it. -/
theorem decrypt_toPkware (keys : ZipCryptoKeys) (cs : Bytes) :
    (keys.decrypt cs).1 = (Pkware.cipher.decrypt keys.toPkware cs).1 ∧
      (keys.decrypt cs).2.toPkware = (Pkware.cipher.decrypt keys.toPkware cs).2 := by
  induction cs generalizing keys with
  | nil => exact ⟨rfl, rfl⟩
  | cons c cs ih =>
    obtain ⟨hplain, hkeys⟩ := decryptByte_toPkware keys c
    obtain ⟨hrest, hlast⟩ := ih (keys.decryptByte c).2
    rw [hkeys] at hrest hlast
    rw [FeedbackCipher.decrypt_cons]
    refine ⟨?_, hlast⟩
    show (keys.decryptByte c).1 :: ((keys.decryptByte c).2.decrypt cs).1 = _
    rw [hplain, hrest]
    rfl

theorem foldl_update_toPkware (password : Bytes) (keys : ZipCryptoKeys) :
    (password.foldl update keys).toPkware = password.foldl Pkware.Keys.update keys.toPkware := by
  induction password generalizing keys with
  | nil => rfl
  | cons b password ih => rw [List.foldl_cons, ih, update_toPkware, List.foldl_cons]

end ZipCryptoKeys

/-! ## The reader -/

namespace ZipCryptoReader

variable {ρ : Type} [Read IoError ρ] {rest : ρ → Bytes} {I : ρ → Prop}

/-- The plaintext that is still to come. -/
def plain (rest : ρ → Bytes) (r : ZipCryptoReader ρ) : Bytes :=
  (Pkware.cipher.decrypt r.keys.toPkware (rest r.inner)).1

/-- Over a reader that serves its bytes in pieces of any size, the plaintext is served in
the same pieces: the keys behind a piece are the keys the next one starts with. -/
theorem serves (h : Serves rest I) : Serves (plain rest) fun r => I r.inner where
  read_ok := by
    rintro ⟨inner, keys⟩ n hI
    obtain ⟨bs, hread, hle, hsplit, hend, hI'⟩ := h.read_ok (n := n) hI
    obtain ⟨hplain, hkeys⟩ := keys.decrypt_toPkware bs
    have hrun : read n (⟨inner, keys⟩ : ZipCryptoReader ρ) =
        (.ok (keys.decrypt bs).1, ⟨(read n inner).2, (keys.decrypt bs).2⟩) := by
      simp only [Read.read]
      rcases hraw : read n inner with ⟨x, inner'⟩
      rw [hraw] at hread
      dsimp only at hread
      subst hread
      rfl
    rw [hrun]
    refine ⟨_, rfl, ?_, ?_, ?_, hI'⟩
    · rw [ZipCryptoKeys.length_decrypt]
      exact hle
    · show (keys.decrypt bs).1 ++ (Pkware.cipher.decrypt (keys.decrypt bs).2.toPkware _).1 = _
      rw [plain, ← hsplit, FeedbackCipher.decrypt_append, hplain, hkeys]
    · intro hnil
      have hbs : bs = [] := List.length_eq_zero_iff.mp (by
        rw [← ZipCryptoKeys.length_decrypt keys bs, hnil, List.length_nil])
      refine (hend hbs).imp id fun hrest => ?_
      rw [plain, hrest]
      rfl

section New

variable {inner : ρ} (password : Bytes) (checkByte : UInt8) (entry : String)

/-- The keys a password sets up. -/
theorem toPkware_start :
    (password.foldl ZipCryptoKeys.update {}).toPkware = Pkware.start password :=
  ZipCryptoKeys.foldl_update_toPkware password {}

/-- The constructor on a stream that has the header. -/
theorem new_eq (h : Serves rest I) (hI : I inner) (hlen : 12 ≤ (rest inner).length) :
    ∃ inner' keys, rest inner' = (rest inner).drop 12 ∧ I inner' ∧
      keys.toPkware = (Pkware.cipher.decrypt (Pkware.start password) ((rest inner).take 12)).2 ∧
      new inner password checkByte entry =
        if (Pkware.decrypt password ((rest inner).take 12))[11]? = some checkByte then
          .ok ⟨inner', keys⟩
        else .error (.wrongPassword entry, inner') := by
  obtain ⟨inner', hread, hrest, hI'⟩ := h.readExact_ok IoError.shortRead hI hlen
  obtain ⟨hplain, hkeys⟩ :=
    (password.foldl ZipCryptoKeys.update {}).decrypt_toPkware ((rest inner).take 12)
  rw [toPkware_start] at hplain hkeys
  rcases hdecrypt : (password.foldl ZipCryptoKeys.update {}).decrypt ((rest inner).take 12) with
    ⟨plain, keys⟩
  rw [hdecrypt] at hplain hkeys
  refine ⟨inner', keys, hrest, hI', hkeys, ?_⟩
  -- the check byte is the last of the twelve
  have hheader : ReadM.runOn (readExactCore 12) inner = (.ok ((rest inner).take 12), inner') := by
    rw [readExactCore, ReadM.runOn_readExact, hread]
  rw [Pkware.decrypt, ← hplain, new, ReadM.build, header, ReadM.runOn_bind_ok _ hheader, hdecrypt]
  dsimp only
  by_cases hmatch : plain[11]? = some checkByte
  · rw [if_pos hmatch, if_pos hmatch]
    rfl
  · rw [if_neg hmatch, if_neg hmatch]
    rfl

end New

end ZipCryptoReader

/-- What runs of reads show of a reader: they fail nowhere, they deliver a front of the
bytes, and all of them once there were as many non-empty buffers as bytes. -/
def ReadsBack {ρ : Type} [Read IoError ρ] (r : ρ) (data : Bytes) : Prop :=
  ∀ ns : List Nat, (∀ x ∈ (reads ns r).1, ∃ bs, x = .ok bs) ∧ received (reads ns r).1 <+: data ∧
    (data.length ≤ ns.countP (0 < ·) → received (reads ns r).1 = data)

theorem Serves.readsBack {ρ : Type} [Read IoError ρ] {rest : ρ → Bytes} {I : ρ → Prop}
    (h : Serves rest I) {r : ρ} (hr : I r) : ReadsBack r (rest r) := by
  intro ns
  obtain ⟨-, hok, hrun⟩ := h.reads ns hr
  refine ⟨hok, ⟨_, hrun⟩, fun hns => ?_⟩
  rw [h.reads_all hr hns, List.append_nil] at hrun
  exact hrun

/-- Over every reader below, however it cuts its bytes: what the traditional cipher made of
a header with the check byte and a plaintext is accepted and read back, with any buffers;
and on any stream of at least twelve bytes the constructor says `WrongPassword` exactly
where the twelfth byte decrypts to another one than the check byte. -/
theorem zipCrypto_reads_back {ρ : Type} [Read IoError ρ] {rest : ρ → Bytes} {I : ρ → Prop}
    (h : Serves rest I) {inner : ρ} (hI : I inner) (password : Bytes) (checkByte : UInt8)
    (entry : String) :
    (∀ random plaintext : Bytes, random.length = 11 →
      rest inner = Pkware.encrypt password (random ++ [checkByte] ++ plaintext) →
        ∃ r, ZipCryptoReader.new inner password checkByte entry = .ok r ∧
          ReadsBack r plaintext) ∧
      (12 ≤ (rest inner).length →
        ((∃ inner', ZipCryptoReader.new inner password checkByte entry =
            .error (.wrongPassword entry, inner')) ↔
          (Pkware.decrypt password ((rest inner).take 12))[11]? ≠ some checkByte)) := by
  constructor
  · intro random plaintext hrandom hrest
    have hheader : (random ++ [checkByte]).length = 12 := by simp [hrandom]
    rw [Pkware.encrypt, FeedbackCipher.encrypt_append] at hrest
    have hlen := Pkware.cipher.length_encrypt (Pkware.start password) (random ++ [checkByte])
    have htake : (rest inner).take 12 =
        (Pkware.cipher.encrypt (Pkware.start password) (random ++ [checkByte])).1 := by
      rw [hrest]
      exact List.take_left' (hlen.trans hheader)
    have hdrop : (rest inner).drop 12 = (Pkware.cipher.encrypt (Pkware.cipher.encrypt
        (Pkware.start password) (random ++ [checkByte])).2 plaintext).1 := by
      rw [hrest]
      exact List.drop_left' (hlen.trans hheader)
    obtain ⟨inner', keys, hrest', hI', hkeys, hnew⟩ := ZipCryptoReader.new_eq password checkByte
      entry h hI (by rw [hrest, List.length_append, hlen, hheader]; exact Nat.le_add_right 12 _)
    -- both sides are in the same state behind the header, so the plaintext follows
    rw [htake, FeedbackCipher.decrypt_encrypt] at hkeys
    rw [htake, Pkware.decrypt, FeedbackCipher.decrypt_encrypt,
      if_pos (by rw [List.getElem?_append_right (by omega), hrandom]; rfl)] at hnew
    refine ⟨_, hnew, ?_⟩
    have hplain : ZipCryptoReader.plain rest ⟨inner', keys⟩ = plaintext := by
      rw [ZipCryptoReader.plain, hkeys, hrest', hdrop, FeedbackCipher.decrypt_encrypt]
    rw [← hplain]
    exact (ZipCryptoReader.serves h).readsBack hI'
  · intro hlen
    obtain ⟨inner', keys, -, -, -, hnew⟩ := ZipCryptoReader.new_eq password checkByte entry h hI hlen
    rw [hnew]
    by_cases hmatch : (Pkware.decrypt password ((rest inner).take 12))[11]? = some checkByte
    · simp [hmatch]
    · rw [if_neg hmatch]
      exact iff_of_true ⟨_, rfl⟩ hmatch

/-- A header and two bytes under the password `pw`, served three bytes at a time: read back
with the check byte they were written with, refused with another one. -/
theorem zipCrypto_reads_back_chopped :
    let inner : Chopped IoError := ⟨Pkware.encrypt [0x70, 0x77]
      ([1, 2, 3, 4, 5, 6, 7, 8, 9, 10, 11] ++ [0x5a] ++ [0x68, 0x69]), fun _ => 3⟩
    (∃ r, ZipCryptoReader.new inner [0x70, 0x77] 0x5a "a" = .ok r ∧ ReadsBack r [0x68, 0x69]) ∧
      ∃ inner', ZipCryptoReader.new inner [0x70, 0x77] 0x5b "a" =
        .error (.wrongPassword "a", inner') :=
  ⟨(zipCrypto_reads_back Chopped.serves trivial [0x70, 0x77] 0x5a "a").1
      [1, 2, 3, 4, 5, 6, 7, 8, 9, 10, 11] [0x68, 0x69] rfl rfl,
    ((zipCrypto_reads_back Chopped.serves trivial [0x70, 0x77] 0x5b "a").2
      (by decide +kernel)).mpr (by decide +kernel)⟩

end ZipForensic
