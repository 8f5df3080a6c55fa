import ZipForensic.Core.Crypto

/-!
# PKWARE strong encryption (crypto.rs)

The password branch of strong encryption: the decryption header in front of the
entry data, its layout checks, the key derivation with its two integrity gates,
and the block-wise CBC reader of the file data.
-/

namespace ZipForensic

variable {k : Crates} {ρ σ : Type}

/-- Lowest AES algorithm id: 0x660E/0F/10 = AES-128/192/256. -/
def algAes128 : Nat := 0x660E
/-- AES CBC block / PKCS#7 pad-block size. -/
def aesBlock : Nat := 16
/-- Upper bound on the decryption-header remainder. -/
def maxStrongRem : Nat := 2 ^ 18

/-- `{:#0width x}`: `0x` and lower-case hexadecimal digits, zero-padded. -/
def hexText (width n : Nat) : String :=
  let digits := Nat.toDigits 16 n
  "0x" ++ String.ofList (List.replicate (width - 2 - digits.length) '0' ++ digits)

/-- One half of the `CryptDeriveKey`(SHA1) construction. -/
def deriveKeyHalf (k : Crates) (digest : Bytes) (c : UInt8) : Bytes :=
  k.sha1 ((List.replicate 64 c).mapIdx fun i b => b ^^^ digest.getD i 0)

/-- Windows `CryptDeriveKey`(SHA1) for AES, truncated to `keySize`. -/
def cryptDeriveKey (k : Crates) (digest : Bytes) (keySize : Nat) : Bytes :=
  (deriveKeyHalf k digest 0x36 ++ deriveKeyHalf k digest 0x5C).take keySize

/-- AES-CBC decryptor over one message: the key and the previous ciphertext block. -/
structure CbcDec where
  key : Bytes
  prev : Bytes
deriving DecidableEq, Repr

namespace CbcDec

def new (key iv : Bytes) (entry : String) : Except ZipCoreError CbcDec :=
  if key.length = 16 ∨ key.length = 24 ∨ key.length = 32 then
    .ok ⟨key, iv⟩
  else
    .error (.unsupportedEncryption entry s!"invalid AES key length {key.length}")

def decryptBlock (k : Crates) (c : CbcDec) (block : Bytes) : Bytes × CbcDec :=
  ((k.aesDecryptBlock c.key block).zipWith (· ^^^ ·) c.prev, { c with prev := block })

/-- The whole blocks of `data`, decrypted in order; a partial last block stays. -/
def decryptBlocks (k : Crates) : Nat → CbcDec → Bytes → Bytes
  | 0, _, data => data
  | blocks + 1, c, data =>
    (c.decryptBlock k (data.take aesBlock)).1 ++
      decryptBlocks k blocks (c.decryptBlock k (data.take aesBlock)).2 (data.drop aesBlock)

end CbcDec

/-- CBC-decrypt `data`. -/
def cbcDecryptBuffer (k : Crates) (key iv data : Bytes) (entry : String) :
    Except ZipCoreError Bytes := do
  let dec ← CbcDec.new key iv entry
  return dec.decryptBlocks k (data.length / aesBlock) data

/-- Parsed strong-encryption decryption header. -/
structure StrongHeader where
  iv : Bytes
  fileKey : Bytes
  headerLen : Nat
deriving DecidableEq, Repr

/-- Validated layout of the decryption-header remainder buffer. -/
structure StrongLayout where
  keySize : Nat
  rdSize : Nat
  validOff : Nat
  validSize : Nat
deriving DecidableEq, Repr

/-- Validate the fixed fields and the layout of the remainder buffer `p`. -/
def parseStrongLayout (p : Bytes) (entry : String) : Except ZipCoreError StrongLayout := do
  let refuse {α : Type} (reason : String) : Except ZipCoreError α :=
    .error (.unsupportedEncryption entry reason)
  let remSize := p.length
  let format := leNat (slice p 0 2)
  if format ≠ 3 then
    refuse s!"strong-encryption format {format} (expected 3)"
  let alg := leNat (slice p 2 2)
  if alg < algAes128 ∨ algAes128 + 2 < alg then
    refuse s!"strong-encryption AlgID {hexText 6 alg} is not AES (0x660E/0F/10)"
  let algIdx := alg - algAes128
  let bitLen := leNat (slice p 4 2)
  let flags := leNat (slice p 6 2)
  let keySize := 16 + algIdx * 8
  if keySize * 8 ≠ bitLen then
    refuse s!"strong-encryption BitLen {bitLen} does not match AlgID key size {keySize}"
  if flags &&& 0x4000 ≠ 0 then
    refuse "strong-encryption uses 3DES for the ERD (unsupported)"
  if flags &&& 0x0002 ≠ 0 then
    refuse "strong-encryption is certificate-based (no private key)"
  if flags &&& 0x0001 = 0 then
    refuse "strong-encryption header sets neither the password nor certificate flag"
  let rdSize := leNat (slice p 8 2)
  if remSize < rdSize + 16 then
    refuse s!"strong-encryption ERD size {rdSize} overflows the {remSize}-byte header"
  if rdSize < aesBlock ∨ rdSize % aesBlock ≠ 0 then
    refuse s!"strong-encryption ERD size {rdSize} is not a positive multiple of {aesBlock}"
  -- [10 fixed][rdSize ERD][4 Reserved1][2 VSize][validSize VData]
  let reservedOff := 10 + rdSize
  let reserved := leNat (slice p reservedOff 4)
  if reserved ≠ 0 then
    refuse (s!"strong-encryption Reserved1 {hexText 0 reserved} " ++
      "(certificate recipient list, unsupported)")
  let vsizeOff := reservedOff + 4
  let validSize := leNat (slice p vsizeOff 2)
  let validOff := vsizeOff + 2
  if validSize < 4 ∨ validSize % aesBlock ≠ 0 ∨ validOff + validSize ≠ remSize then
    refuse s!"strong-encryption validation blob size {validSize} is inconsistent with the header"
  return { keySize, rdSize, validOff, validSize }

/-- What the password unlocks in the remainder buffer `p`, under the header's
`iv` of which `ivUsed` bytes enter the file key: the file IV and the file key. -/
def unlockStrong (k : Crates) (p password iv : Bytes) (ivUsed : Nat) (entry : String) :
    Except ZipCoreError (Bytes × Bytes) := do
  let layout ← parseStrongLayout p entry
  let masterKey := cryptDeriveKey k (k.sha1 password) layout.keySize
  -- a wrong password almost always fails at the trailing 0x10 pad block
  let erd ← cbcDecryptBuffer k masterKey iv (slice p 10 layout.rdSize) entry
  let rdLen := layout.rdSize - aesBlock
  if (erd.drop rdLen).any fun b => b.toNat ≠ aesBlock then
    throw (.wrongPassword entry)
  let fileKey := cryptDeriveKey k (k.sha1 (iv.take ivUsed ++ erd.take rdLen)) layout.keySize
  let vdata ← cbcDecryptBuffer k fileKey iv (slice p layout.validOff layout.validSize) entry
  let split := layout.validSize - 4
  if (k.crc32 (vdata.take split)).toNat ≠ leNat (slice vdata split 4) then
    throw (.wrongPassword entry)
  -- CBC chains on: the file data's IV is the last ciphertext block of the header
  return (slice p (p.length - aesBlock) aesBlock, fileKey)

/-- IVSize and IVData: the IV, how many of its bytes enter the file key, and the
bytes consumed. IVSize 0 derives the IV from the CRC and the uncompressed size. -/
def readStrongIv [Read IoError ρ] (crc : UInt32) (unpackSize : Nat) (entry : String) :
    ReadM ρ ZipCoreError (Bytes × Nat × Nat) := do
  let buf2 ← readExactCore 2
  let ivSizeField := leNat buf2
  if ivSizeField = 0 then
    return (leBytes 4 crc.toNat ++ leBytes 8 unpackSize ++ List.replicate 4 0, 12, 2)
  else if ivSizeField = 16 then
    let iv ← readExactCore 16
    return (iv, 16, 2 + 16)
  else
    throw (.unsupportedEncryption entry
      s!"strong-encryption IV size {ivSizeField} (only 0 or 16 supported)")

/-- Size and the remainder buffer that holds every field after it. -/
def readStrongRemainder [Read IoError ρ] (entry : String) : ReadM ρ ZipCoreError Bytes := do
  let buf4 ← readExactCore 4
  let remSize := leNat buf4
  if remSize < 16 ∨ maxStrongRem < remSize then
    throw (.unsupportedEncryption entry
      s!"strong-encryption header remainder {remSize} bytes out of range")
  else
    readExactCore remSize

/-- Parse the decryption header, derive the AES file key and verify the password. -/
def readStrongHeader [Read IoError ρ] (k : Crates) (password : Bytes) (crc : UInt32)
    (unpackSize : Nat) (entry : String) : ReadM ρ ZipCoreError StrongHeader := do
  let (iv, ivUsed, ivLen) ← readStrongIv crc unpackSize entry
  let p ← readStrongRemainder entry
  let (fileIv, fileKey) ← ReadM.ofExcept (unlockStrong k p password iv ivUsed entry)
  return { iv := fileIv, fileKey, headerLen := ivLen + 4 + p.length }

/-- A `Read` adapter that CBC-decrypts a strong-encryption file-data stream,
staging one 16-byte block at a time. -/
structure StrongAesReader (k : Crates) (ρ : Type) where
  inner : ρ
  cipher : CbcDec
  block : Bytes
  blockPos : Nat
  blockLen : Nat
  remaining : Nat

namespace StrongAesReader

variable [Read IoError ρ] [Read IoError σ]

def new (inner : ρ) (fileKey iv : Bytes) (encLen : Nat) (entry : String) :
    Except ZipCoreError (StrongAesReader k ρ) := do
  let cipher ← CbcDec.new fileKey iv entry
  return { inner, cipher, block := List.replicate aesBlock 0, blockPos := 0, blockLen := 0,
           remaining := encLen }

/-- Hand out staged bytes. -/
def serve (n : Nat) (r : StrongAesReader k ρ) : Except IoError Bytes × StrongAesReader k ρ :=
  let served := slice r.block r.blockPos (min (r.blockLen - r.blockPos) n)
  (.ok served, { r with blockPos := r.blockPos + min (r.blockLen - r.blockPos) n })

instance : Read IoError (StrongAesReader k ρ) where
  read n r :=
    if r.blockLen ≤ r.blockPos then
      if r.remaining = 0 then (.ok [], r)
      else
        match readExact .shortRead aesBlock r.inner with
        | (.error e, inner) => (.error e, { r with inner })
        | (.ok block, inner) =>
          serve n { r with
            inner
            cipher := (r.cipher.decryptBlock k block).2
            block := (r.cipher.decryptBlock k block).1
            blockPos := 0
            blockLen := aesBlock
            remaining := r.remaining - aesBlock }
    else serve n r
  -- the last block is handed out whole even where `remaining` is not a multiple of it
  avail r := (r.blockLen - r.blockPos) + (r.remaining + aesBlock - 1) / aesBlock * aesBlock

/-- Replace the reader below. -/
def map (f : ρ → σ) (r : StrongAesReader k ρ) : StrongAesReader k σ :=
  { r with inner := f r.inner }

theorem readHom_map {f : ρ → σ} (hf : ReadHom f) : ReadHom (map (k := k) f) where
  read_map n r := by
    by_cases hstaged : r.blockLen ≤ r.blockPos
    · by_cases hrem : r.remaining = 0
      · simp [Read.read, map, hstaged, hrem]
      · simp only [Read.read, map, hstaged, hrem, if_true, if_false, readExact_map hf]
        rcases readExact IoError.shortRead aesBlock r.inner with ⟨e | block, inner⟩ <;> rfl
    · simp [Read.read, map, hstaged, serve]
  avail_map _ := rfl

omit [Read IoError ρ] in
/-- Serving staged bytes fits the buffer and uses up what it delivers. -/
theorem serve_bounds (n : Nat) (r : StrongAesReader k ρ) :
    delivered (serve n r).1 ≤ n ∧
      delivered (serve n r).1 + ((serve n r).2.blockLen - (serve n r).2.blockPos) ≤
        r.blockLen - r.blockPos := by
  have hle : (slice r.block r.blockPos (min (r.blockLen - r.blockPos) n)).length ≤
      min (r.blockLen - r.blockPos) n := List.length_take_le _ _
  simp only [serve, delivered_ok]
  omega

instance : LawfulRead IoError (StrongAesReader k ρ) where
  read_le n r := by
    simp only [Read.read]
    split_ifs
    · exact Nat.zero_le n
    · rcases readExact IoError.shortRead aesBlock r.inner with ⟨e | block, inner⟩
      · exact Nat.zero_le n
      · exact (serve_bounds n _).1
    · exact (serve_bounds n r).1
  avail_le n r := by
    simp only [Read.read, Read.avail]
    split_ifs with hstaged hrem
    · exact Nat.le_of_eq (Nat.zero_add _)
    · rcases readExact IoError.shortRead aesBlock r.inner with ⟨e | block, inner⟩
      · exact Nat.le_of_eq (Nat.zero_add _)
      · -- a fresh block is paid for out of the rounded remainder
        have hserve := (serve_bounds (k := k) n
          { r with inner, cipher := (r.cipher.decryptBlock k block).2,
                   block := (r.cipher.decryptBlock k block).1, blockPos := 0,
                   blockLen := aesBlock, remaining := r.remaining - aesBlock }).2
        simp only [serve, delivered_ok] at hserve ⊢
        unfold aesBlock at *
        omega
    · have hserve := (serve_bounds n r).2
      simp only [serve, delivered_ok] at hserve ⊢
      omega

omit [Read IoError ρ] [Read IoError σ] in
theorem new_map (f : ρ → σ) (inner : ρ) (fileKey iv : Bytes) (encLen : Nat) (entry : String) :
    (new (f inner) fileKey iv encLen entry : Except ZipCoreError (StrongAesReader k σ)) =
      (new inner fileKey iv encLen entry).map (map (k := k) f) := by
  unfold new
  cases CbcDec.new fileKey iv entry <;> rfl

end StrongAesReader

/-! ## A change of the reader below -/

section Natural

variable [Read IoError ρ] [Read IoError σ] {f : ρ → σ} (hf : ReadHom f)
include hf

theorem natural_readStrongIv (crc : UInt32) (unpackSize : Nat) (entry : String) :
    ReadM.Natural f (readStrongIv crc unpackSize entry) (readStrongIv crc unpackSize entry) := by
  refine (natural_readExactCore hf 2).bind fun buf2 => ?_
  refine .ite (.pure _) (.ite ?_ (.throw _))
  exact (natural_readExactCore hf 16).bind fun iv => .pure _

theorem natural_readStrongRemainder (entry : String) :
    ReadM.Natural f (readStrongRemainder entry) (readStrongRemainder entry) := by
  refine (natural_readExactCore hf 4).bind fun buf4 => ?_
  exact .ite (.throw _) (natural_readExactCore hf _)

/-- Reading the decryption header commutes with a change of the reader. -/
theorem natural_readStrongHeader (password : Bytes) (crc : UInt32) (unpackSize : Nat)
    (entry : String) :
    ReadM.Natural f (readStrongHeader k password crc unpackSize entry)
      (readStrongHeader k password crc unpackSize entry) := by
  refine (natural_readStrongIv hf crc unpackSize entry).bind fun iv => ?_
  refine (natural_readStrongRemainder hf entry).bind fun p => ?_
  exact (ReadM.Natural.ofExcept _).bind fun keys => .pure _

end Natural

end ZipForensic
