import ZipForensic.Core.Crates
import ZipForensic.Core.CentralDirectory

/-!
# Entry decryption (crypto.rs)

The two adapters of the entry path that the password selects: traditional
ZipCrypto, and WinZip AES (AES-CTR with an HMAC-SHA1 over the ciphertext).
Both are generic in the reader `ρ` below, as in the source, and both commute with
a change of that reader (`readHom_map`).

A constructor that fails hands the reader back (`ReadM.build`), since the archive
still owns it.
-/

namespace ZipForensic

variable {k : Crates} {ρ σ : Type}

/-- `reader.read_exact(&mut buf)?` in a function returning `ZipCoreError`. -/
def readExactCore [Read IoError ρ] (n : Nat) : ReadM ρ ZipCoreError Bytes :=
  ReadM.readExact .shortRead .io n

theorem natural_readExactCore [Read IoError ρ] [Read IoError σ] {f : ρ → σ} (hf : ReadHom f)
    (n : Nat) : ReadM.Natural f (readExactCore n) (readExactCore n) :=
  ReadM.Natural.readExact hf _ _ n

/-! ## ZipCrypto (traditional PKWARE) -/

/-- The eight shifts of `crc32_byte` on the low byte. -/
def crc32Shift : Nat → UInt32 → UInt32
  | 0, c => c
  | n + 1, c => crc32Shift n (if c &&& 1 ≠ 0 then (c >>> 1) ^^^ 0xEDB88320 else c >>> 1)

/-- One byte of CRC-32 (IEEE) update — the keystream feedback for ZipCrypto. -/
def crc32Byte (crc : UInt32) (b : UInt8) : UInt32 :=
  (crc >>> 8) ^^^ crc32Shift 8 ((crc ^^^ b.toUInt32) &&& 0xff)

/-- The three keys of the traditional stream cipher. -/
structure ZipCryptoKeys where
  key0 : UInt32 := 0x12345678
  key1 : UInt32 := 0x23456789
  key2 : UInt32 := 0x34567890
deriving DecidableEq, Repr

namespace ZipCryptoKeys

def update (keys : ZipCryptoKeys) (b : UInt8) : ZipCryptoKeys :=
  let key0 := crc32Byte keys.key0 b
  let key1 := (keys.key1 + (key0 &&& 0xff)) * 134775813 + 1
  { key0, key1, key2 := crc32Byte keys.key2 (key1 >>> 24).toUInt8 }

def decryptByte (keys : ZipCryptoKeys) (cipher : UInt8) : UInt8 × ZipCryptoKeys :=
  let temp : UInt32 := (keys.key2 ||| 2) &&& 0xffff
  let keystream := ((temp * (temp ^^^ 1)) >>> 8).toUInt8
  let plain := cipher ^^^ keystream
  (plain, keys.update plain)

/-- `decrypt_byte` over a buffer. -/
def decrypt : ZipCryptoKeys → Bytes → Bytes × ZipCryptoKeys
  | keys, [] => ([], keys)
  | keys, c :: cs =>
    let (p, keys') := keys.decryptByte c
    let (ps, keys'') := decrypt keys' cs
    (p :: ps, keys'')

theorem length_decrypt (keys : ZipCryptoKeys) (cs : Bytes) :
    (keys.decrypt cs).1.length = cs.length := by
  induction cs generalizing keys with
  | nil => rfl
  | cons c cs ih => simp [decrypt, ih]

end ZipCryptoKeys

/-- A `Read` adapter that decrypts a traditional-ZipCrypto stream on the fly. -/
structure ZipCryptoReader (ρ : Type) where
  inner : ρ
  keys : ZipCryptoKeys

namespace ZipCryptoReader

variable [Read IoError ρ] [Read IoError σ]

/-- The 12-byte encryption header: the keys after it, if its last byte is the
password-verification byte. -/
def header (password : Bytes) (checkByte : UInt8) (entry : String) :
    ReadM ρ ZipCoreError ZipCryptoKeys := do
  let keys := password.foldl ZipCryptoKeys.update {}
  let header ← readExactCore 12
  let (plain, keys) := keys.decrypt header
  if plain[11]? = some checkByte then
    return keys
  else
    throw (.wrongPassword entry)

def new (inner : ρ) (password : Bytes) (checkByte : UInt8) (entry : String) :
    Except (ZipCoreError × ρ) (ZipCryptoReader ρ) :=
  ReadM.build (header password checkByte entry) (fun keys inner => ⟨inner, keys⟩) inner

instance : Read IoError (ZipCryptoReader ρ) where
  read n r :=
    match read n r.inner with
    | (.error e, inner) => (.error e, { r with inner })
    | (.ok bs, inner) => (.ok (r.keys.decrypt bs).1, ⟨inner, (r.keys.decrypt bs).2⟩)
  avail r := avail r.inner

/-- Replace the reader below. -/
def map (f : ρ → σ) (r : ZipCryptoReader ρ) : ZipCryptoReader σ := ⟨f r.inner, r.keys⟩

theorem readHom_map {f : ρ → σ} (hf : ReadHom f) : ReadHom (map f) where
  read_map n r := by
    simp only [Read.read, map, hf.read_map]
    rcases read n r.inner with ⟨e | bs, inner⟩ <;> rfl
  avail_map r := hf.avail_map r.inner

theorem new_map {f : ρ → σ} (hf : ReadHom f) (inner : ρ) (password : Bytes) (checkByte : UInt8)
    (entry : String) :
    new (f inner) password checkByte entry =
      ReadM.mapBuilt f (map f) (new inner password checkByte entry) := by
  have hheader : ReadM.Natural f (header password checkByte entry)
      (header password checkByte entry) := by
    refine (natural_readExactCore hf 12).bind fun bytes => ?_
    exact .ite (.pure _) (.throw _)
  exact hheader.build (g := map f) (fun _ _ => rfl) inner

instance [LawfulRead IoError ρ] : LawfulRead IoError (ZipCryptoReader ρ) where
  read_le n r := by
    have hle := LawfulRead.read_le n r.inner
    simp only [Read.read]
    rcases hr : read n r.inner with ⟨e | bs, inner⟩
    · exact Nat.zero_le n
    · rw [hr] at hle
      simpa [ZipCryptoKeys.length_decrypt] using hle
  avail_le n r := by
    have hav := LawfulRead.avail_le n r.inner
    simp only [Read.read, Read.avail]
    rcases hr : read n r.inner with ⟨e | bs, inner⟩ <;> rw [hr] at hav
    · exact hav
    · simpa [ZipCryptoKeys.length_decrypt] using hav

end ZipCryptoReader

/-! ## WinZip AES (method 99) -/

/-- Salt length in bytes for an AES strength code. -/
def saltLen (strength : Nat) : Nat :=
  match strength with
  | 1 => 8
  | 2 => 12
  | _ => 16

/-- AES key length in bytes for a strength code. -/
def keyLen (strength : Nat) : Nat :=
  match strength with
  | 1 => 16
  | 2 => 24
  | _ => 32

/-- An AES-CTR keystream and the position in it. -/
structure AesCtr where
  key : Bytes
  pos : Nat
deriving DecidableEq, Repr

/-- `apply_keystream` on the bytes at the current position. -/
def AesCtr.apply (k : Crates) (c : AesCtr) (buf : Bytes) : Bytes × AesCtr :=
  (buf.mapIdx fun i b => b ^^^ k.aesCtr c.key (c.pos + i), { c with pos := c.pos + buf.length })

/-- An HMAC-SHA1 state: its key and what it was fed. -/
structure HmacSha1 where
  key : Bytes
  fed : Bytes
deriving DecidableEq, Repr

namespace HmacSha1

def update (h : HmacSha1) (bs : Bytes) : HmacSha1 := { h with fed := h.fed ++ bs }

def finalize (k : Crates) (h : HmacSha1) : Bytes := k.hmacSha1 h.key h.fed

end HmacSha1

/-- A `Read` adapter that decrypts a WinZip-AES stream (AES-CTR) and verifies the
trailing HMAC-SHA1 authentication code at EOF. -/
structure AesReader (k : Crates) (ρ : Type) where
  inner : ρ
  cipher : AesCtr
  hmac : HmacSha1
  /-- Ciphertext bytes still to read (excludes the 10-byte auth code). -/
  remaining : Nat
  entry : String
  done : Bool

namespace AesReader

variable [Read IoError ρ] [Read IoError σ]

/-- What an AES entry holds besides its ciphertext: salt, 2-byte password
verifier and 10-byte auth code. -/
def overhead (strength : Nat) : Nat := saltLen strength + 2 + 10

/-- The salt and verifier: the encryption and MAC keys, if the password fits. -/
def header (k : Crates) (password : Bytes) (info : AesInfo) (compressedSize : Nat)
    (entry : String) : ReadM ρ ZipCoreError (AesCtr × HmacSha1) := do
  if compressedSize < overhead info.strength then
    throw (.unsupportedEncryption entry "AES entry too small for salt/verifier/auth")
  else
    let salt ← readExactCore (saltLen info.strength)
    let pwdVerify ← readExactCore 2
    -- PBKDF2-HMAC-SHA1, 1000 iterations -> enc key | mac key | 2-byte verifier
    let klen := keyLen info.strength
    let derived := k.pbkdf2HmacSha1 password salt 1000 (2 * klen + 2)
    if slice derived (2 * klen) 2 = pwdVerify then
      return (⟨derived.take klen, 0⟩, ⟨slice derived klen klen, []⟩)
    else
      throw (.wrongPassword entry)

def new (inner : ρ) (password : Bytes) (info : AesInfo) (compressedSize : Nat)
    (entry : String) : Except (ZipCoreError × ρ) (AesReader k ρ) :=
  ReadM.build (header k password info compressedSize entry)
    (fun keys inner =>
      { inner, cipher := keys.1, hmac := keys.2,
        remaining := compressedSize - overhead info.strength, entry, done := false })
    inner

/-- The error for ciphertext that cannot be authenticated. -/
def refuse (r : AesReader k ρ) : IoError := .wrapped (.wrongPassword r.entry)

/-- Read the trailing 10-byte auth code and verify it against the HMAC. -/
def finish (r : AesReader k ρ) : Except IoError Unit × AesReader k ρ :=
  match readExact .shortRead 10 r.inner with
  | (.error e, inner) => (.error e, { r with inner })
  | (.ok code, inner) =>
    if (r.hmac.finalize k).take 10 = code then (.ok (), { r with inner })
    else (.error r.refuse, { r with inner })

instance : Read IoError (AesReader k ρ) where
  read n r :=
    if r.remaining = 0 then
      if r.done then (.ok [], r)
      else
        match ({ r with done := true } : AesReader k ρ).finish with
        | (.error e, r) => (.error e, r)
        | (.ok (), r) => (.ok [], r)
    else
      match read (min n r.remaining) r.inner with
      | (.error e, inner) => (.error e, { r with inner })
      | (.ok [], inner) => (.error r.refuse, { r with inner })
      | (.ok (b :: bs), inner) =>
        (.ok (r.cipher.apply k (b :: bs)).1,
          { r with
            inner
            cipher := (r.cipher.apply k (b :: bs)).2
            hmac := r.hmac.update (b :: bs)
            remaining := r.remaining - (b :: bs).length })
  avail r := r.remaining

/-- Replace the reader below. -/
def map (f : ρ → σ) (r : AesReader k ρ) : AesReader k σ := { r with inner := f r.inner }

theorem finish_map {f : ρ → σ} (hf : ReadHom f) (r : AesReader k ρ) :
    (r.map f).finish = (r.finish.1, r.finish.2.map f) := by
  simp only [finish, map, readExact_map hf]
  rcases readExact IoError.shortRead 10 r.inner with ⟨e | code, inner⟩
  · rfl
  · by_cases hcode : (r.hmac.finalize k).take 10 = code
    · simp only [hcode, if_true]
    · simp only [hcode, if_false]
      rfl

theorem readHom_map {f : ρ → σ} (hf : ReadHom f) : ReadHom (map (k := k) f) where
  read_map n r := by
    by_cases hrem : r.remaining = 0
    · by_cases hdone : r.done = true
      · simp [Read.read, map, hrem, hdone]
      · have hfin := finish_map hf ({ r with done := true } : AesReader k ρ)
        simp only [Read.read, map, hrem, hdone, if_true, if_false, Bool.false_eq_true] at hfin ⊢
        rw [hfin]
        rcases finish ({ r with remaining := 0, done := true } : AesReader k ρ) with ⟨e | u, r'⟩ <;>
          rfl
    · simp only [Read.read, map, hrem, if_false, hf.read_map]
      rcases read (min n r.remaining) r.inner with ⟨e | bs, inner⟩
      · rfl
      · cases bs <;> rfl
  avail_map _ := rfl

theorem new_map {f : ρ → σ} (hf : ReadHom f) (inner : ρ) (password : Bytes) (info : AesInfo)
    (compressedSize : Nat) (entry : String) :
    (new (f inner) password info compressedSize entry :
        Except (ZipCoreError × σ) (AesReader k σ)) =
      ReadM.mapBuilt f (map f) (new inner password info compressedSize entry) := by
  have hheader : ReadM.Natural f (header k password info compressedSize entry)
      (header k password info compressedSize entry) := by
    refine .ite (.throw _) ((natural_readExactCore hf _).bind fun salt => ?_)
    exact (natural_readExactCore hf 2).bind fun pwdVerify => .ite (.pure _) (.throw _)
  exact hheader.build (g := map (k := k) f) (fun _ _ => rfl) inner

theorem length_apply (c : AesCtr) (buf : Bytes) : (c.apply k buf).1.length = buf.length := by
  simp [AesCtr.apply]

instance [LawfulRead IoError ρ] : LawfulRead IoError (AesReader k ρ) where
  read_le n r := by
    have hle := LawfulRead.read_le (min n r.remaining) r.inner
    simp only [Read.read]
    split_ifs
    · exact Nat.zero_le n
    · rcases finish ({ r with done := true } : AesReader k ρ) with ⟨e | u, r'⟩ <;>
        exact Nat.zero_le n
    · rcases hr : read (min n r.remaining) r.inner with ⟨e | _ | ⟨b, bs⟩, inner⟩
      · exact Nat.zero_le n
      · exact Nat.zero_le n
      · rw [hr] at hle
        simp only [delivered_ok, length_apply] at *
        omega
  avail_le n r := by
    have hle := LawfulRead.read_le (min n r.remaining) r.inner
    simp only [Read.read, Read.avail]
    split_ifs with hrem
    · exact Nat.le_of_eq (Nat.zero_add _)
    · simp only [finish]
      rcases readExact IoError.shortRead 10 r.inner with ⟨e | code, inner⟩
      · exact Nat.le_of_eq (Nat.zero_add _)
      · dsimp only
        split_ifs <;> exact Nat.le_of_eq (Nat.zero_add _)
    · rcases hr : read (min n r.remaining) r.inner with ⟨e | _ | ⟨b, bs⟩, inner⟩
      · exact Nat.le_of_eq (Nat.zero_add _)
      · exact Nat.le_of_eq (Nat.zero_add _)
      · rw [hr] at hle
        simp only [delivered_ok, length_apply] at *
        omega

end AesReader

/-! ## A concrete instance -/

/-- CRC-32 (IEEE) of a byte string, by the step above. -/
def crc32 (bytes : Bytes) : UInt32 := ~~~ bytes.foldl crc32Byte 0xFFFFFFFF

/-- A decoder whose streams are all empty. -/
def Codec.empty (ε : Type) : Codec ε where
  State := Unit
  init := ()
  step _ _ := .out (.ok []) ()
  budget _ _ := 0
  answer_le := by
    rintro s n a rfl
    exact Nat.zero_le n
  pull_pos := nofun
  budget_mono _ _ _ _ := Nat.le_refl 0
  budget_answer := by
    rintro s c a rfl m
    exact Nat.le_refl 0
  budget_data := nofun

/-- What archives of stored, unencrypted entries need of the crates: the checksum. -/
def Crates.plain : Crates where
  crc32 := ZipForensic.crc32
  flate2 := .empty _
  deflate64 := .empty _
  bzip2 := .empty _
  ruzstd := .empty _
  ruzstdErrorText _ := ""
  lzma _ _ := ⟨[], none⟩
  xz _ := ⟨[], none⟩
  lzmaSinkErrorText _ := ""
  inflater :=
    { State := Unit, new := (), inflate := fun s _ _ => ⟨s, 0, [], true⟩, finished := fun _ => true,
      checkpoint := fun _ => none, restoreFromCheckpoint := fun _ => none }
  pbkdf2HmacSha1 _ _ _ _ := []
  aesCtr _ _ := 0
  hmacSha1 _ _ := []
  sha1 _ := []
  aesDecryptBlock _ block := block
  allocates n := decide (n ≤ 2 ^ 32)

end ZipForensic
