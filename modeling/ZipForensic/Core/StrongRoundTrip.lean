import ZipForensic.Core.Authentication
import ZipForensic.Core.CrcGate
import ZipForensic.Core.ParserBounds
import ZipForensic.Core.StrongStream

/-!
# Entries under PKWARE strong encryption, written and read back

- `StrongEntry`: what a writer chooses; `StrongEntry.data` is the entry's data by the
  documented layout, the decryption header and behind it the file ciphertext.
- `StrongEntry.runOn_readStrongHeader`: the header parses, the password passes both of its
  checks, and the file key and the chaining value are the writer's.
- `StrongEntry.byNameDecrypt_emits`: stored in an archive, the entry decrypts to its
  plaintext, however its reader is read.
-/

namespace ZipForensic

variable {k : Crates}

/-! ## Entries -/

/-- What is encrypted, and what the writer chooses. -/
structure StrongEntry where
  keySize : Nat
  /-- The explicit IV. Without one it is derived from the CRC and the size. -/
  iv : Option Bytes
  rd : Bytes
  validation : Bytes
  plaintext : Bytes
  pad : Bytes
  keySize_mem : AesKeySize keySize
  length_iv : ∀ b ∈ iv, b.length = aesBlock
  rd_whole : rd.length % aesBlock = 0
  length_rd : rd.length + aesBlock < 2 ^ 16
  validation_whole : validation.length % aesBlock = 12
  length_validation : validation.length + 4 < 2 ^ 16
  pad_whole : (plaintext.length + pad.length) % aesBlock = 0

namespace StrongEntry

section Write

variable (k : Crates) (encrypt : Bytes → Bytes → Bytes) (password : Bytes) (e : StrongEntry)

/-- The header IV. -/
def headerIv : Bytes :=
  e.iv.getD (leBytes 4 (k.crc32 e.plaintext).toNat ++ leBytes 8 e.plaintext.length ++
    List.replicate 4 0)

/-- How many of its bytes enter the file key. -/
def ivUsed : Nat := if e.iv.isSome then 16 else 12

/-- IVSize and IVData. -/
def ivField : Bytes :=
  match e.iv with
  | some iv => leBytes 2 16 ++ iv
  | none => leBytes 2 0

def masterKey : Bytes := cryptDeriveKey k (k.sha1 password) e.keySize

def erdPlain : Bytes := e.rd ++ List.replicate 16 0x10

def erd : Bytes := cbcEncrypt (encrypt (e.masterKey k password)) aesBlock (e.headerIv k) e.erdPlain

def fileKey : Bytes := cryptDeriveKey k (k.sha1 ((e.headerIv k).take e.ivUsed ++ e.rd)) e.keySize

def vdataPlain : Bytes := e.validation ++ leBytes 4 (k.crc32 e.validation).toNat

def vdata : Bytes := cbcEncrypt (encrypt (e.fileKey k)) aesBlock (e.headerIv k) (e.vdataPlain k)

/-- The file data is chained on from the last block of VData. -/
def fileIv : Bytes := slice (e.vdata k encrypt) ((e.vdata k encrypt).length - aesBlock) aesBlock

def fileCipher : Bytes :=
  cbcEncrypt (encrypt (e.fileKey k)) aesBlock (e.fileIv k encrypt) (e.plaintext ++ e.pad)

/-- Format, AlgID, Bitlen, Flags and ErdSize. -/
def fixedFields : Bytes :=
  leBytes 2 3 ++ (leBytes 2 (algAes128 + (e.keySize - 16) / 8) ++ (leBytes 2 (e.keySize * 8) ++
    (leBytes 2 1 ++ leBytes 2 (e.erd k encrypt password).length)))

/-- The remainder of the decryption header. -/
def remainder : Bytes :=
  e.fixedFields k encrypt password ++ (e.erd k encrypt password ++
    (leBytes 4 0 ++ (leBytes 2 (e.vdata k encrypt).length ++ e.vdata k encrypt)))

/-- The entry's data: the decryption header, and the file ciphertext. -/
def data : Bytes :=
  e.ivField ++ (leBytes 4 (e.remainder k encrypt password).length ++
    (e.remainder k encrypt password ++ e.fileCipher k encrypt))

end Write

/-! ### Lengths -/

theorem length_headerIv (e : StrongEntry) : (e.headerIv k).length = aesBlock := by
  unfold headerIv
  cases hiv : e.iv with
  | some iv => exact e.length_iv iv hiv
  | none =>
    rw [Option.getD_none, List.length_append, List.length_append, length_leBytes, length_leBytes,
      List.length_replicate]
    rfl

section Lengths

variable {encrypt : Bytes → Bytes → Bytes} (hk : k.StrongPrimitives encrypt) (password : Bytes)
  (e : StrongEntry)
include hk

theorem length_masterKey : AesKeySize (e.masterKey k password).length := by
  rw [masterKey, length_cryptDeriveKey hk _ e.keySize_mem]
  exact e.keySize_mem

theorem length_fileKey : AesKeySize (e.fileKey k).length := by
  rw [fileKey, length_cryptDeriveKey hk _ e.keySize_mem]
  exact e.keySize_mem

omit hk in
theorem length_erdPlain : e.erdPlain.length = e.rd.length + aesBlock := by
  rw [erdPlain, List.length_append, List.length_replicate]
  rfl

omit hk in
theorem length_vdataPlain : (e.vdataPlain k).length = e.validation.length + 4 := by
  rw [vdataPlain, List.length_append, length_leBytes]

omit hk in
theorem erdPlain_whole : e.erdPlain.length % aesBlock = 0 := by
  rw [length_erdPlain, Nat.add_mod_right]
  exact e.rd_whole

omit hk in
theorem vdataPlain_whole : (e.vdataPlain k).length % aesBlock = 0 := by
  have hwhole := e.validation_whole
  rw [length_vdataPlain]
  unfold aesBlock at hwhole ⊢
  omega

theorem length_erd : (e.erd k encrypt password).length = e.rd.length + aesBlock := by
  rw [erd, length_cbcEncrypt (hk.aes _ (e.length_masterKey hk password)) e.length_headerIv
    e.erdPlain_whole, length_erdPlain]

theorem length_vdata : (e.vdata k encrypt).length = e.validation.length + 4 := by
  rw [vdata, length_cbcEncrypt (hk.aes _ (e.length_fileKey hk)) e.length_headerIv
    e.vdataPlain_whole, length_vdataPlain]

omit hk in
theorem length_fixedFields : (e.fixedFields k encrypt password).length = 10 := by
  simp only [fixedFields, List.length_append, length_leBytes]

theorem length_remainder : (e.remainder k encrypt password).length =
    10 + (e.rd.length + aesBlock) + 6 + (e.validation.length + 4) := by
  simp only [remainder, List.length_append, length_leBytes, length_fixedFields, e.length_erd hk,
    e.length_vdata hk]
  omega

end Lengths

/-! ### The remainder of the header -/

section Remainder

variable {encrypt : Bytes → Bytes → Bytes} (password : Bytes) (e : StrongEntry)

/-- The fixed fields of the remainder. -/
theorem slice_fixedFields {off : Nat} (h : off + 2 ≤ 10) :
    slice (e.remainder k encrypt password) off 2 = slice (e.fixedFields k encrypt password) off 2 :=
  slice_append_left _ (by rw [length_fixedFields]; exact h)

/-- The remainder behind its fixed fields. -/
theorem slice_behind_fixed (off len : Nat) :
    slice (e.remainder k encrypt password) (10 + off) len =
      slice (e.erd k encrypt password ++ (leBytes 4 0 ++
        (leBytes 2 (e.vdata k encrypt).length ++ e.vdata k encrypt))) off len := by
  have hbehind := slice_append_right (e.fixedFields k encrypt password)
    (e.erd k encrypt password ++ (leBytes 4 0 ++
        (leBytes 2 (e.vdata k encrypt).length ++ e.vdata k encrypt))) off len
  rwa [length_fixedFields] at hbehind

/-- The remainder behind ERD. -/
theorem slice_behind_erd (off len : Nat) :
    slice (e.remainder k encrypt password) (10 + (e.erd k encrypt password).length + off) len =
      slice (leBytes 4 0 ++ (leBytes 2 (e.vdata k encrypt).length ++ e.vdata k encrypt)) off len := by
  rw [Nat.add_assoc, slice_behind_fixed, slice_append_right]

theorem slice_erd : slice (e.remainder k encrypt password) 10 (e.erd k encrypt password).length =
    e.erd k encrypt password :=
  (slice_behind_fixed password e 0 _).trans (slice_front _ _)

theorem slice_vdata :
    slice (e.remainder k encrypt password) (10 + (e.erd k encrypt password).length + 6)
      (e.vdata k encrypt).length = e.vdata k encrypt := by
  rw [slice_behind_erd, slice_field, slice_field]
  exact List.take_length

/-- The algorithm id of the key size. -/
theorem algId_keySize : algAes128 + (e.keySize - 16) / 8 ≤ algAes128 + 2 ∧
    16 + (algAes128 + (e.keySize - 16) / 8 - algAes128) * 8 = e.keySize ∧ e.keySize ≤ 32 := by
  rcases e.keySize_mem with h | h | h <;> rw [h] <;> decide

theorem format_remainder : leNat (slice (e.remainder k encrypt password) 0 2) = 3 := by
  rw [slice_fixedFields password e (by decide)]
  exact leNat_field (by decide) _

theorem algId_remainder : leNat (slice (e.remainder k encrypt password) 2 2) =
    algAes128 + (e.keySize - 16) / 8 := by
  have hid := e.algId_keySize.1
  unfold algAes128 at hid
  rw [slice_fixedFields password e (by decide), fixedFields, slice_field]
  exact leNat_field (by unfold algAes128; omega) _

theorem bitlen_remainder :
    leNat (slice (e.remainder k encrypt password) 4 2) = e.keySize * 8 := by
  have hsize := e.algId_keySize.2.2
  rw [slice_fixedFields password e (by decide), fixedFields, slice_field, slice_field]
  exact leNat_field (by omega) _

theorem flags_remainder : leNat (slice (e.remainder k encrypt password) 6 2) = 1 := by
  rw [slice_fixedFields password e (by decide), fixedFields, slice_field, slice_field, slice_field]
  exact leNat_field (by decide) _

theorem reserved_remainder : leNat (slice (e.remainder k encrypt password)
    (10 + (e.erd k encrypt password).length) 4) = 0 := by
  have hbehind : slice (e.remainder k encrypt password)
      (10 + (e.erd k encrypt password).length + 0) 4 = _ := slice_behind_erd password e 0 4
  rw [Nat.add_zero] at hbehind
  rw [hbehind]
  exact leNat_field (by decide) _

variable (hk : k.StrongPrimitives encrypt)
include hk

theorem erdSize_remainder : leNat (slice (e.remainder k encrypt password) 8 2) =
    (e.erd k encrypt password).length := by
  have hfits : (e.erd k encrypt password).length < 256 ^ 2 := by
    rw [e.length_erd hk]
    exact e.length_rd
  rw [slice_fixedFields password e (by decide), fixedFields, slice_field, slice_field, slice_field,
    slice_field]
  exact leNat_last_field hfits

theorem vsize_remainder : leNat (slice (e.remainder k encrypt password)
    (10 + (e.erd k encrypt password).length + 4) 2) = (e.vdata k encrypt).length := by
  have hfits : (e.vdata k encrypt).length < 256 ^ 2 := by
    rw [e.length_vdata hk]
    exact e.length_validation
  rw [slice_behind_erd, slice_field]
  exact leNat_field hfits _

theorem erdSize_in : ¬ ((e.erd k encrypt password).length < aesBlock ∨
    (e.erd k encrypt password).length % aesBlock ≠ 0) := by
  rw [e.length_erd hk]
  rintro (h | h)
  · exact absurd h (Nat.not_lt.2 (Nat.le_add_left _ _))
  · rw [Nat.add_mod_right] at h
    exact h e.rd_whole

theorem vsize_in : ¬ ((e.vdata k encrypt).length < 4 ∨ (e.vdata k encrypt).length % aesBlock ≠ 0 ∨
    10 + (e.erd k encrypt password).length + 4 + 2 + (e.vdata k encrypt).length ≠
      (e.remainder k encrypt password).length) := by
  rw [e.length_remainder hk, e.length_erd hk, e.length_vdata hk]
  rintro (h | h | h)
  · omega
  · rw [← length_vdataPlain (k := k)] at h
    exact h e.vdataPlain_whole
  · exact h rfl

/-- The layout is the writer's. -/
theorem parseStrongLayout_remainder (entry : String) :
    parseStrongLayout (e.remainder k encrypt password) entry =
      .ok ⟨e.keySize, (e.erd k encrypt password).length, 10 + (e.erd k encrypt password).length + 6,
        (e.vdata k encrypt).length⟩ := by
  obtain ⟨hid, hsize, -⟩ := e.algId_keySize
  have halg : ¬ (algAes128 + (e.keySize - 16) / 8 < algAes128 ∨
      algAes128 + 2 < algAes128 + (e.keySize - 16) / 8) := by
    omega
  have hroom : ¬ (e.remainder k encrypt password).length <
      (e.erd k encrypt password).length + 16 := by
    rw [e.length_remainder hk, e.length_erd hk]
    omega
  unfold parseStrongLayout
  simp only [format_remainder, algId_remainder, bitlen_remainder, flags_remainder,
    erdSize_remainder password e hk, reserved_remainder, vsize_remainder password e hk]
  rw [hsize, if_neg (not_not_intro rfl), if_neg halg, if_neg (not_not_intro rfl),
    if_neg (by decide), if_neg (by decide), if_neg (by decide), if_neg hroom,
    if_neg (erdSize_in password e hk), if_neg (not_not_intro rfl), if_neg (vsize_in password e hk)]
  rfl

end Remainder

/-! ### Unlocking -/

section Unlock

variable {encrypt : Bytes → Bytes → Bytes} (hk : k.StrongPrimitives encrypt) (password : Bytes)
  (e : StrongEntry)
include hk

theorem decrypt_erd (entry : String) :
    cbcDecryptBuffer k (e.masterKey k password) (e.headerIv k) (e.erd k encrypt password) entry =
      .ok e.erdPlain :=
  cbcDecryptBuffer_cbcEncrypt hk entry (e.length_masterKey hk password) e.length_headerIv
    e.erdPlain_whole

theorem decrypt_vdata (entry : String) :
    cbcDecryptBuffer k (e.fileKey k) (e.headerIv k) (e.vdata k encrypt) entry =
      .ok (e.vdataPlain k) :=
  cbcDecryptBuffer_cbcEncrypt hk entry (e.length_fileKey hk) e.length_headerIv e.vdataPlain_whole

/-- The last block of the remainder is the last block of VData. -/
theorem slice_fileIv :
    slice (e.remainder k encrypt password) ((e.remainder k encrypt password).length - aesBlock)
      aesBlock = e.fileIv k encrypt := by
  have hwhole := e.validation_whole
  have hle : aesBlock ≤ (e.vdata k encrypt).length := by
    rw [e.length_vdata hk]
    unfold aesBlock at hwhole ⊢
    omega
  have hoff : (e.remainder k encrypt password).length - aesBlock =
      10 + (e.erd k encrypt password).length + ((e.vdata k encrypt).length - aesBlock + 2 + 4) := by
    rw [e.length_remainder hk, e.length_erd hk]
    rw [e.length_vdata hk] at hle ⊢
    omega
  rw [hoff, slice_behind_erd, slice_field, slice_field]
  rfl

/-- The password passes both checks, and unlocks the writer's file key. -/
theorem unlockStrong_remainder (entry : String) :
    unlockStrong k (e.remainder k encrypt password) password (e.headerIv k) e.ivUsed entry =
      .ok (e.fileIv k encrypt, e.fileKey k) := by
  have hrd : (e.erd k encrypt password).length - aesBlock = e.rd.length := by
    rw [e.length_erd hk, Nat.add_sub_cancel]
  have hpad : ¬ (e.erdPlain.drop e.rd.length).any (fun b => decide (b.toNat ≠ aesBlock)) = true := by
    rw [erdPlain, List.drop_left]
    decide
  have hv : (e.vdata k encrypt).length - 4 = e.validation.length := by
    rw [e.length_vdata hk, Nat.add_sub_cancel]
  have hcrc : ¬ (k.crc32 ((e.vdataPlain k).take e.validation.length)).toNat ≠
      leNat (slice (e.vdataPlain k) e.validation.length 4) := by
    have hcode := slice_append_right e.validation (leBytes 4 (k.crc32 e.validation).toNat) 0 4
    rw [Nat.add_zero] at hcode
    rw [vdataPlain, List.take_left, hcode,
      leNat_last_field (k.crc32 e.validation).toNat_lt]
    exact not_not_intro rfl
  have herd : e.erdPlain.take e.rd.length = e.rd := List.take_left
  unfold unlockStrong
  rw [e.parseStrongLayout_remainder password hk]
  show (cbcDecryptBuffer k (e.masterKey k password) _ _ entry >>= _) = _
  rw [slice_erd, e.decrypt_erd hk]
  show (if (e.erdPlain.drop _).any _ = true then _ else _) = _
  rw [hrd, if_neg hpad, herd, slice_vdata]
  show (cbcDecryptBuffer k (e.fileKey k) _ _ entry >>= _) = _
  rw [e.decrypt_vdata hk]
  show (if (k.crc32 ((e.vdataPlain k).take _)).toNat ≠ _ then _ else _) = _
  rw [hv, if_neg hcrc, e.slice_fileIv hk]
  rfl

end Unlock

/-! ### The decryption header -/

/-- Reading what is in front. -/
theorem runOn_readExactCore_front (a b : Bytes) :
    ReadM.runOn (readExactCore a.length) (⟨a ++ b⟩ : Window IoError) = (.ok a, ⟨b⟩) := by
  rw [runOn_readExactCore, if_pos (by simp), List.take_left, List.drop_left]

/-- The IV comes back in either mode. -/
theorem runOn_readStrongIv (e : StrongEntry) (entry : String) (rest : Bytes) :
    ReadM.runOn (readStrongIv (k.crc32 e.plaintext) e.plaintext.length entry)
        (⟨e.ivField ++ rest⟩ : Window IoError) =
      (.ok (e.headerIv k, e.ivUsed, e.ivField.length), ⟨rest⟩) := by
  unfold readStrongIv headerIv ivUsed ivField
  cases hiv : e.iv with
  | none =>
    have hread := runOn_readExactCore_front (leBytes 2 0) rest
    rw [length_leBytes] at hread
    rw [ReadM.runOn_bind_ok _ hread]
    rfl
  | some iv =>
    have hlen : iv.length = 16 := e.length_iv iv hiv
    have hread := runOn_readExactCore_front (leBytes 2 16) (iv ++ rest)
    have hreadIv := runOn_readExactCore_front iv rest
    rw [length_leBytes] at hread
    rw [hlen] at hreadIv
    dsimp only
    rw [List.append_assoc _ iv rest, ReadM.runOn_bind_ok _ hread]
    show ReadM.runOn (readExactCore 16 >>= _) _ = _
    rw [ReadM.runOn_bind_ok _ hreadIv, List.length_append, length_leBytes, hlen]
    rfl

section Header

variable {encrypt : Bytes → Bytes → Bytes} (hk : k.StrongPrimitives encrypt) (password : Bytes)
  (e : StrongEntry)
include hk

theorem runOn_readStrongRemainder (entry : String) (rest : Bytes) :
    ReadM.runOn (readStrongRemainder entry)
        (⟨leBytes 4 (e.remainder k encrypt password).length ++
          (e.remainder k encrypt password ++ rest)⟩ : Window IoError) =
      (.ok (e.remainder k encrypt password), ⟨rest⟩) := by
  have hlen := e.length_remainder hk password
  have hrd := e.length_rd
  have hv := e.length_validation
  have hread := runOn_readExactCore_front (leBytes 4 (e.remainder k encrypt password).length)
    (e.remainder k encrypt password ++ rest)
  rw [length_leBytes] at hread
  have hfits : (e.remainder k encrypt password).length < 256 ^ 4 := by
    omega
  have hin : ¬ ((e.remainder k encrypt password).length < 16 ∨
      maxStrongRem < (e.remainder k encrypt password).length) := by
    unfold maxStrongRem
    omega
  unfold readStrongRemainder
  rw [ReadM.runOn_bind_ok _ hread]
  show ReadM.runOn (if leNat (leBytes 4 _) < 16 ∨ _ < leNat (leBytes 4 _) then _ else _) _ = _
  rw [leNat_leBytes hfits, if_neg hin]
  exact runOn_readExactCore_front _ rest

/-- **The decryption header** of a minted entry: it yields the writer's file key and chaining
value, and leaves the file ciphertext. -/
theorem runOn_readStrongHeader (entry : String) :
    ReadM.runOn (readStrongHeader k password (k.crc32 e.plaintext) e.plaintext.length entry)
        (⟨e.data k encrypt password⟩ : Window IoError) =
      (.ok ⟨e.fileIv k encrypt, e.fileKey k,
        e.ivField.length + 4 + (e.remainder k encrypt password).length⟩,
        ⟨e.fileCipher k encrypt⟩) := by
  unfold readStrongHeader data
  rw [ReadM.runOn_bind_ok _ (e.runOn_readStrongIv entry _)]
  dsimp only
  rw [ReadM.runOn_bind_ok _ (e.runOn_readStrongRemainder hk password entry _),
    ReadM.runOn_bind_ok _ ((ReadM.runOn_ofExcept _ _).trans
      (congrArg (·, _) (e.unlockStrong_remainder hk password entry)))]
  rfl

omit hk in
theorem length_data : (e.data k encrypt password).length =
    e.ivField.length + 4 + (e.remainder k encrypt password).length +
      (e.fileCipher k encrypt).length := by
  simp only [data, List.length_append, length_leBytes]
  omega

/-! ### The reader -/

/-- The reader of the file ciphertext, as it is set up. -/
def reader (k : Crates) (encrypt : Bytes → Bytes → Bytes) (e : StrongEntry) :
    StrongAesReader k (Window IoError) where
  inner := ⟨e.fileCipher k encrypt⟩
  cipher := ⟨e.fileKey k, e.fileIv k encrypt⟩
  block := List.replicate aesBlock 0
  blockPos := 0
  blockLen := 0
  remaining := (e.fileCipher k encrypt).length

/-- The entry's reader as it is set up. -/
def file (k : Crates) (encrypt : Bytes → Bytes → Bytes) (e : StrongEntry) (m : CentralEntry)
    (dataStart : Nat) : ZipFile k (Window IoError) :=
  .start m dataStart true (.stored (.strongTake ⟨e.reader k encrypt, e.plaintext.length⟩))

end Header

/-! ## In an archive -/

/-- The entry is the data of the member `m` of an archive of one segment: its flag bits 0 and 6
are set, its method is `Stored`, and its headers record the plaintext. -/
structure StoredIn (k : Crates) (encrypt : Bytes → Bytes → Bytes) (password : Bytes)
    (e : StrongEntry) (a : ZipArchive) (m : CentralEntry) : Prop where
  method : m.method = .stored
  encrypted : m.flags &&& 0x0001 ≠ 0
  strong : m.flags &&& 0x0040 ≠ 0
  unmasked : m.flags &&& 0x2000 = 0
  diskStart : m.diskStart = 0
  cdStartDisk : a.summary.cdStartDisk = 0
  diskNumber : a.summary.diskNumber = 0
  crc32 : m.crc32 = k.crc32 e.plaintext
  uncompressedSize : m.uncompressedSize = e.plaintext.length
  compressedSize : m.compressedSize = (e.data k encrypt password).length
  data : entryData a.reader.bytes m = e.data k encrypt password

section Archive

variable {encrypt : Bytes → Bytes → Bytes} (hk : k.StrongPrimitives encrypt) {password : Bytes}
  {e : StrongEntry} {a : ZipArchive} {m : CentralEntry}
include hk

theorem StoredIn.openStrong (h : e.StoredIn k encrypt password a m) (dataStart : Nat) :
    ZipFile.openStrong m password dataStart (⟨e.data k encrypt password⟩ : Window IoError) =
      .ok (e.file k encrypt m dataStart) := by
  have hheader := e.runOn_readStrongHeader hk password m.name
  have hsize : m.compressedSize -
      (e.ivField.length + 4 + (e.remainder k encrypt password).length) =
      (e.fileCipher k encrypt).length := by
    rw [h.compressedSize, length_data, Nat.add_sub_cancel_left]
  have hnew : (StrongAesReader.new ⟨e.fileCipher k encrypt⟩ (e.fileKey k) (e.fileIv k encrypt)
      (e.fileCipher k encrypt).length m.name :
        Except ZipCoreError (StrongAesReader k (Window IoError))) = .ok (e.reader k encrypt) := by
    unfold StrongAesReader.new
    rw [CbcDec.new_eq _ (e.length_fileKey hk)]
    rfl
  unfold ZipFile.openStrong
  rw [h.crc32, h.uncompressedSize, hheader]
  dsimp only
  rw [hsize, hnew]
  dsimp only
  rw [if_pos h.method, ZipFile.decode, h.method, h.uncompressedSize]
  rfl

omit hk in
theorem StoredIn.disk (h : e.StoredIn k encrypt password a m) :
    checkLocalDisk m a.summary.diskNumber a.summary.cdStartDisk = .ok () := by
  unfold checkLocalDisk
  rw [h.diskStart, h.cdStartDisk, h.diskNumber]
  rfl

theorem StoredIn.openedDecrypt (h : e.StoredIn k encrypt password a m) (haes : m.aes = none) :
    ∃ dataStart, (ZipForensic.openedDecrypt a.reader.bytes m a.summary.diskNumber
      a.summary.cdStartDisk password : Res ZipCoreError (ZipFile k (Window IoError))) =
        .ok (e.file k encrypt m dataStart) := by
  have hdata := h.data
  unfold entryData at hdata
  cases hlfh : lfhAt a.reader.bytes m.lfhOffset with
  | error err =>
    -- the data has its length fields, so it is somewhere
    have hlen : (e.data k encrypt password).length = _ := length_data password e
    rw [hlfh] at hdata
    rw [← hdata, List.length_nil] at hlen
    omega
  | ok found =>
    obtain ⟨fields, dataStart⟩ := found
    rw [hlfh] at hdata
    dsimp only at hdata
    refine ⟨dataStart, ?_⟩
    unfold ZipForensic.openedDecrypt openedAt
    rw [h.disk, hlfh]
    simp only [Res.lift, Res.bind_ok]
    rw [if_neg fun hplain => h.encrypted hplain.1, if_neg (not_not_intro h.unmasked),
      if_pos ⟨haes, h.strong⟩, hdata, h.openStrong hk dataStart]

end Archive

end StrongEntry

/-! ## An archive of one member -/

/-- The padded digest that a half of a derived key is hashed from. -/
def keyMask (digest : Bytes) (c : UInt8) : Bytes :=
  (List.replicate 64 c).mapIdx fun i b => b ^^^ digest.getD i 0

/-- The digest of the password `pw`. -/
def passwordDigest : Bytes :=
  [0x1A, 0x91, 0xD6, 0x2F, 0x7C, 0xA6, 0x73, 0x99, 0x62, 0x5A, 0x43, 0x68, 0xA6, 0xAB, 0x5D, 0x4A,
   0x3B, 0xAA, 0x60, 0x73]

/-- The derived IV of the member below, as far as it enters the file key. -/
def memberIv : Bytes := [0xC2, 0x41, 0x24, 0x35, 0x03, 0x00, 0x00, 0x00, 0x00, 0x00, 0x00, 0x00]

/-- Its digest. -/
def memberIvDigest : Bytes :=
  [0xE7, 0x27, 0xB5, 0xCA, 0xE3, 0x7A, 0x74, 0x96, 0x61, 0x77, 0x96, 0x70, 0xA0, 0x04, 0x99, 0xC0,
   0xA9, 0x7D, 0xAF, 0xA3]

/-- SHA-1 on the messages that are hashed for the member. -/
def sampleSha1 (message : Bytes) : Bytes :=
  if message = [0x70, 0x77] then passwordDigest
  else if message = keyMask passwordDigest 0x36 then
    [0x38, 0xB7, 0x67, 0xCD, 0x5C, 0x0E, 0x30, 0xC9, 0xE8, 0x06, 0xEB, 0x59, 0xD1, 0x42, 0xE8,
     0x9E, 0x4F, 0x34, 0xCB, 0x06]
  else if message = keyMask passwordDigest 0x5C then
    [0x0A, 0xD7, 0x23, 0x60, 0xCE, 0x20, 0xE7, 0xB4, 0xD2, 0x1B, 0x56, 0xE8, 0x9A, 0xA7, 0xA5,
     0xC2, 0x91, 0x50, 0x65, 0x34]
  else if message = memberIv then memberIvDigest
  else if message = keyMask memberIvDigest 0x36 then
    [0x9D, 0x94, 0x83, 0x46, 0x40, 0x4F, 0x7C, 0xF2, 0xE9, 0x8E, 0xAC, 0x41, 0xD5, 0x12, 0xDC,
     0x53, 0x76, 0x0C, 0xCE, 0x2F]
  else if message = keyMask memberIvDigest 0x5C then
    [0xF8, 0x82, 0xFA, 0x41, 0x92, 0xE3, 0xE8, 0xFF, 0x11, 0xB4, 0x7C, 0x45, 0x99, 0xB2, 0x51,
     0x0E, 0xDD, 0xA6, 0xA3, 0xE8]
  else List.replicate 20 0

/-- AES-128 on the block of ERD, under the master key. -/
def erdBlock : Equiv.Perm Bytes :=
  .swap
    [0xD2, 0x51, 0x34, 0x25, 0x13, 0x10, 0x10, 0x10, 0x10, 0x10, 0x10, 0x10, 0x10, 0x10, 0x10,
     0x10]
    [0xD0, 0x3C, 0x0E, 0xD7, 0x5C, 0x97, 0xAE, 0x28, 0x76, 0xDD, 0xDA, 0x67, 0x0D, 0x0A, 0xDC,
     0x73]

/-- AES-128 on the block of VData, under the file key. -/
def vdataBlock : Equiv.Perm Bytes :=
  .swap
    [0x0F, 0x8C, 0xE9, 0xF8, 0xCE, 0xCD, 0xCD, 0xCD, 0xCD, 0xCD, 0xCD, 0xCD, 0x83, 0xB6, 0x61,
     0x6D]
    [0x2A, 0xFA, 0xF5, 0xBB, 0x78, 0x4E, 0x56, 0x05, 0xBD, 0xEC, 0x86, 0xF4, 0xF8, 0x84, 0xB5,
     0xA6]

/-- AES-128 on the block of the file data, under the file key. -/
def fileBlock : Equiv.Perm Bytes :=
  .swap
    [0x4B, 0x98, 0x96, 0xBB, 0x78, 0x4E, 0x56, 0x05, 0xBD, 0xEC, 0x86, 0xF4, 0xF8, 0x84, 0xB5,
     0xA6]
    [0xD1, 0xD6, 0x17, 0x0F, 0xD1, 0x36, 0xD9, 0xFE, 0xB3, 0x7C, 0xA6, 0x82, 0x59, 0x48, 0x11,
     0x81]

/-- The master key of the password. -/
def sampleMasterKey : Bytes :=
  [0x38, 0xB7, 0x67, 0xCD, 0x5C, 0x0E, 0x30, 0xC9, 0xE8, 0x06, 0xEB, 0x59, 0xD1, 0x42, 0xE8, 0x9E]

def sampleEncrypt (key : Bytes) : Bytes → Bytes :=
  if key = sampleMasterKey then erdBlock else fileBlock ∘ vdataBlock

def sampleDecrypt (key : Bytes) : Bytes → Bytes :=
  if key = sampleMasterKey then erdBlock else vdataBlock ∘ fileBlock

/-- The values of the crates on the member. -/
def strongSample : Crates :=
  { Crates.plain with sha1 := sampleSha1, aesDecryptBlock := sampleDecrypt }

theorem strongSample_primitives : strongSample.StrongPrimitives sampleEncrypt where
  aes key _ := by
    have herd : BlockCipher aesBlock erdBlock erdBlock := .swap rfl rfl
    have hvdata : BlockCipher aesBlock vdataBlock vdataBlock := .swap rfl rfl
    have hfile : BlockCipher aesBlock fileBlock fileBlock := .swap rfl rfl
    show BlockCipher aesBlock (if _ then _ else _) (if _ then _ else _)
    split_ifs
    · exact herd
    · exact hvdata.comp hfile
  length_sha1 message := by
    show (sampleSha1 message).length = 20
    unfold sampleSha1
    split_ifs <;> rfl

/-- `abc`, under AES-128 and a derived IV, with no random data. -/
def sampleStrongEntry : StrongEntry where
  keySize := 16
  iv := none
  rd := []
  validation := List.replicate 12 0xCD
  plaintext := [0x61, 0x62, 0x63]
  pad := List.replicate 13 0
  keySize_mem := .inl rfl
  length_iv := nofun
  rd_whole := rfl
  length_rd := by decide
  validation_whole := rfl
  length_validation := by decide
  pad_whole := rfl

/-- The archive of the member `m` with that content. -/
def strongArchive : Bytes :=
  -- local header, name
  [0x50, 0x4B, 0x03, 0x04, 51, 0, 0x41, 0, 0, 0, 0, 0, 0, 0, 0xC2, 0x41, 0x24, 0x35, 70, 0, 0, 0,
    3, 0, 0, 0, 1, 0, 0, 0] ++ [0x6D] ++
  -- IVSize, Size, Format, AlgID, Bitlen, Flags, ErdSize, ERD
  [0, 0, 48, 0, 0, 0, 3, 0, 0x0E, 0x66, 128, 0, 1, 0, 16, 0] ++
  [0xD0, 0x3C, 0x0E, 0xD7, 0x5C, 0x97, 0xAE, 0x28, 0x76, 0xDD, 0xDA, 0x67, 0x0D, 0x0A, 0xDC, 0x73] ++
  -- Reserved1, VSize, VData
  [0, 0, 0, 0, 16, 0] ++
  [0x2A, 0xFA, 0xF5, 0xBB, 0x78, 0x4E, 0x56, 0x05, 0xBD, 0xEC, 0x86, 0xF4, 0xF8, 0x84, 0xB5, 0xA6] ++
  -- file ciphertext
  [0xD1, 0xD6, 0x17, 0x0F, 0xD1, 0x36, 0xD9, 0xFE, 0xB3, 0x7C, 0xA6, 0x82, 0x59, 0x48, 0x11, 0x81] ++
  -- central header, name
  [0x50, 0x4B, 0x01, 0x02, 51, 0, 51, 0, 0x41, 0, 0, 0, 0, 0, 0, 0, 0xC2, 0x41, 0x24, 0x35,
    70, 0, 0, 0, 3, 0, 0, 0, 1, 0, 0, 0, 0, 0, 0, 0, 0, 0, 0, 0, 0, 0, 0, 0, 0, 0] ++ [0x6D] ++
  -- EOCD
  [0x50, 0x4B, 0x05, 0x06, 0, 0, 0, 0, 1, 0, 1, 0, 47, 0, 0, 0, 101, 0, 0, 0, 0, 0]

/-- The member as parsed. -/
def strongMember : CentralEntry :=
  { name := "m", method := .stored, flags := 0x41, crc32 := 0x352441C2, compressedSize := 70,
    uncompressedSize := 3, lfhOffset := 0, lastModTime := 0, aes := none, diskStart := 0,
    extra := {} }

/-- What the parser makes of the archive. -/
def strongDirectory : List CentralEntry × ArchiveSummary :=
  ([strongMember],
    { fileLen := 170, centralDirOffset := 101, centralDirSize := 47, eocdEndOffset := 170,
      commentLen := 0, diskNumber := 0, cdStartDisk := 0, archiveSignatureLen := none })

theorem directoryOf_strongArchive : directoryOf strongArchive = .ok strongDirectory := by
  decide +kernel

/-- The member is the sample entry. -/
theorem storedIn_strongArchive (pos : Nat) :
    sampleStrongEntry.StoredIn strongSample sampleEncrypt [0x70, 0x77]
      ⟨⟨strongArchive, pos⟩, [strongMember], strongDirectory.2⟩ strongMember := by
  refine ⟨rfl, by decide, by decide, by decide, rfl, rfl, rfl, ?_, rfl, ?_, ?_⟩
  · decide +kernel
  · decide +kernel
  · show entryData strongArchive strongMember = _
    decide +kernel

end ZipForensic
