import ZipForensic.Core.AesRoundTrip
import ZipForensic.Core.AlikeDecoders
import ZipForensic.Core.FailedChecks
import ZipForensic.Core.ZipCryptoRoundTrip

/-!
# Encryption below a decoder

A decoder gets its compressed bytes from the file or through a decrypting reader, and cannot
tell which: over an authentic WinZip-AES stream or a ZipCrypto stream it is asked and answered
as over the plaintext itself.

- `ZipFile.Alike`: the readers of an entry over related readers below.
- `AesReader.bisimilar_window`, `ZipCryptoReader.bisimilar_window`: the decrypting readers
  and a window of the plaintext.
- `encryption_transparent`: an encrypted member opens under its password and reads as its
  unencrypted copy, whatever its compression method.
-/

namespace ZipForensic

variable {k : Crates} {σ τ : Type} [Read IoError σ] [Read IoError τ]

/-! ## Entries -/

namespace ZipFile

/-- Two readers of entries with the same name and CRC-32, at the same point. -/
structure Alike (R : EntryReader k σ → EntryReader k τ → Prop) (f : ZipFile k σ)
    (g : ZipFile k τ) : Prop where
  decoder : f.decoder.Alike R g.decoder
  hasher : f.hasher = g.hasher
  verified : f.verified = g.verified
  verifyCrc : f.verifyCrc = g.verifyCrc
  name : f.entry.name = g.entry.name
  crc32 : f.entry.crc32 = g.entry.crc32

variable {R : EntryReader k σ → EntryReader k τ → Prop}

omit [Read IoError σ] [Read IoError τ] in
theorem Alike.endOfStream {f : ZipFile k σ} {g : ZipFile k τ} (h : Alike R f g) :
    f.endOfStream = g.endOfStream := by
  rw [ZipFile.endOfStream, ZipFile.endOfStream, crcMismatch, crcMismatch, h.hasher, h.verified,
    h.verifyCrc, h.name, h.crc32]

variable (hR : ReadSim R)
include hR

end ZipFile

/-! ## Decrypting readers -/

/-- Over an authentic entry a decoder is answered as over the plaintext. -/
theorem AesReader.bisimilar_window {x : AesEntry} (ha : x.Authentic k) (name : String) :
    Bisimilar (x.reader k name) (⟨x.plaintext k⟩ : Window IoError) := by
  have hprobe : Bisimilar (x.reader k name) (⟨x.plaintext k, false⟩ : Probe IoError) :=
    ⟨_, (concludes ha).readSim,
      .inl ⟨quiet_reader name, congrArg (Probe.mk · false) (x.apply_ciphertext k).symm⟩⟩
  exact hprobe.map readHom_id Probe.readHom_window

theorem ZipCryptoReader.readSim_plain :
    ReadSim fun (r : ZipCryptoReader (Window IoError)) (w : Window IoError) =>
      w.rest = plain Window.rest r where
  read := by
    rintro ⟨⟨bs⟩, keys⟩ ⟨data⟩ n hdata -
    obtain rfl : data = (Pkware.cipher.decrypt keys.toPkware bs).1 := hdata
    obtain ⟨hplain, hkeys⟩ := keys.decrypt_toPkware (bs.take n)
    have hsplit := Pkware.cipher.decrypt_append keys.toPkware (bs.take n) (bs.drop n)
    rw [List.take_append_drop] at hsplit
    -- the keys behind the piece decrypt what follows
    have hread : ZipForensic.read n (⟨⟨bs⟩, keys⟩ : ZipCryptoReader (Window IoError)) =
        (.ok (keys.decrypt (bs.take n)).1, ⟨⟨bs.drop n⟩, (keys.decrypt (bs.take n)).2⟩) := rfl
    have hlen : (keys.decrypt (bs.take n)).1.length =
        min n (Pkware.cipher.decrypt keys.toPkware bs).1.length := by
      rw [ZipCryptoKeys.length_decrypt, List.length_take, FeedbackCipher.length_decrypt]
    have hpiece : (keys.decrypt (bs.take n)).1 ++
        (Pkware.cipher.decrypt (keys.decrypt (bs.take n)).2.toPkware (bs.drop n)).1 =
          (Pkware.cipher.decrypt keys.toPkware bs).1 := by
      rw [hsplit, hplain, hkeys]
    obtain ⟨htake, hdrop⟩ := List.append_inj
      (hpiece.trans (List.take_append_drop n _).symm) (by rw [hlen, List.length_take])
    rw [hread, Window.read_eq]
    exact ⟨congrArg Except.ok htake, hdrop.symm⟩
  avail := by
    rintro ⟨⟨bs⟩, keys⟩ ⟨data⟩ hdata
    obtain rfl : data = (Pkware.cipher.decrypt keys.toPkware bs).1 := hdata
    exact (FeedbackCipher.length_decrypt _ _ _).symm

/-- Behind a header with the check byte a decoder is answered as over the plaintext. -/
theorem ZipCryptoReader.bisimilar_window {random plaintext : Bytes} (hrandom : random.length = 11)
    (password : Bytes) (checkByte : UInt8) (name : String) :
    ∃ r : ZipCryptoReader (Window IoError),
      new ⟨Pkware.encrypt password (random ++ [checkByte] ++ plaintext)⟩ password checkByte name =
        .ok r ∧ Bisimilar r (⟨plaintext⟩ : Window IoError) := by
  have hhead : (random ++ [checkByte]).length = 12 := by
    rw [List.length_append, hrandom]
    rfl
  have hplain : Pkware.decrypt password
      (Pkware.encrypt password (random ++ [checkByte] ++ plaintext)) =
        random ++ [checkByte] ++ plaintext := Pkware.decrypt_encrypt _ _
  generalize Pkware.encrypt password (random ++ [checkByte] ++ plaintext) = data at hplain ⊢
  have hlen : 12 ≤ data.length := by
    rw [← Pkware.length_decrypt password data, hplain, List.length_append]
    omega
  obtain ⟨inner, keys, hrest, hkeys, hnew⟩ :=
    @new_window data hlen password checkByte name
  obtain ⟨hbyte, hbehind⟩ := decrypt_behind_header hlen password
  have hcheck : (random ++ [checkByte] ++ plaintext)[11]? = some checkByte := by
    rw [List.getElem?_append_left (by omega), List.getElem?_append_right (by omega), hrandom]
    rfl
  rw [hplain, hcheck] at hbyte
  rw [if_pos hbyte.symm] at hnew
  refine ⟨_, hnew, _, readSim_plain, ?_⟩
  rw [plain, hkeys, hrest, ← hbehind, hplain, List.drop_left' hhead]

/-! ## In an archive -/

/-- The data of the member `m` of the file `F` is `plaintext`, made with `method`, under the
password: by WinZip AES, whose CRC-32 is in force for AE-1 only, or by the traditional
cipher. -/
inductive Encrypts (k : Crates) (F : Bytes) (m : CentralEntry) (password plaintext : Bytes) :
    CompressionMethod → Bool → Prop
  | aes (s : AesSealing) (haes : m.aes = some s.info)
      (hsize : m.compressedSize = (s.data k password).length)
      (hdata : entryData F m = s.data k password) (hplain : s.plaintext = plaintext) :
      Encrypts k F m password plaintext (.fromU16 s.info.actualMethod) (!s.info.isAe2)
  | zipCrypto (random : Bytes) (haes : m.aes = none) (hflag : m.flags &&& 0x0001 ≠ 0)
      (htraditional : m.flags &&& 0x0040 = 0) (hrandom : random.length = 11)
      (hdata : entryData F m = Pkware.encrypt password (random ++ [m.checkByte] ++ plaintext)) :
      Encrypts k F m password plaintext m.method true

/-- The member `m` of an archive in one piece is encrypted. -/
structure ZipArchive.HoldsEncrypted (k : Crates) (a : ZipArchive) (m : CentralEntry)
    (password plaintext : Bytes) (method : CompressionMethod) (gated : Bool) : Prop where
  disk : checkLocalDisk m a.summary.diskNumber a.summary.cdStartDisk = .ok ()
  unmasked : m.flags &&& 0x2000 = 0
  encrypts : Encrypts k a.reader.bytes m password plaintext method gated

/-- The member `m` of an archive in one piece has the data `plaintext`. -/
structure ZipArchive.HoldsPlain (a : ZipArchive) (m : CentralEntry) (plaintext : Bytes) : Prop where
  disk : checkLocalDisk m a.summary.diskNumber a.summary.cdStartDisk = .ok ()
  unencrypted : m.flags &&& 0x0001 = 0
  data : ∃ fields dataStart, lfhAt a.reader.bytes m.lfhOffset = .ok (fields, dataStart) ∧
    slice a.reader.bytes dataStart m.compressedSize = plaintext

/-- Nothing stands between the entry and its window. -/
theorem ZipArchive.HoldsPlain.view_open {a : ZipArchive} {m : CentralEntry} {plaintext : Bytes}
    (h : a.HoldsPlain m plaintext) :
    (a.open m : Opened k).view = openedAt a.reader.bytes m (ZipFile.openPlain m) := by
  rw [ZipForensic.view_open, openedPlain, h.disk]
  simp only [Res.lift, Res.bind_ok]
  rw [if_neg (not_not_intro h.unencrypted)]

section Archive

variable {a b : ZipArchive} {m m' : CentralEntry} {password plaintext : Bytes}
  {method : CompressionMethod} {gated : Bool}

/-- An encrypted member is set up over a reader that no decoder can tell from its plaintext. -/
theorem ZipArchive.HoldsEncrypted.openEncrypted (hk : k.AesPrimitives)
    (h : a.HoldsEncrypted k m password plaintext method gated) :
    ∃ fields dataStart, ∃ r : EntryReader k (Window IoError),
      Bisimilar r (EntryReader.plain ⟨plaintext⟩ : EntryReader k (Window IoError)) ∧
      lfhAt a.reader.bytes m.lfhOffset = .ok (fields, dataStart) ∧
      ZipFile.openEncrypted m password dataStart
        ⟨slice a.reader.bytes dataStart m.compressedSize⟩ =
          ZipFile.decode m dataStart method gated r := by
  cases h.encrypts with
  | aes s haes hsize hdata hplain =>
    have hlen : (entryData a.reader.bytes m).length =
        saltLen s.info.strength + 2 + s.plaintext.length + 10 := by
      rw [hdata, s.length_data hk]
    obtain ⟨fields, dataStart, hlfh, hslice⟩ :=
      exists_lfhAt (F := a.reader.bytes) (m := m) (by omega)
    have hsealed : s.IsData k password (aesEntry a.reader.bytes m s.info password) :=
      ⟨rfl, hsize, hdata⟩
    have hnew := (hsealed.new hk m.name).2 rfl
    have hbisimilar := AesReader.bisimilar_window (hsealed.authentic hk rfl) m.name
    rw [hsealed.plaintext_eq hk rfl, hplain] at hbisimilar
    refine ⟨fields, dataStart, _, hbisimilar.map EntryReader.readHom_aes EntryReader.readHom_plain,
      hlfh, ?_⟩
    rw [← hslice]
    exact ZipFile.openEncrypted_aes haes hnew
  | zipCrypto random haes hflag htraditional hrandom hdata =>
    have hlen := congrArg List.length hdata
    rw [Pkware.encrypt, FeedbackCipher.length_encrypt, List.length_append, List.length_append,
      hrandom] at hlen
    obtain ⟨fields, dataStart, hlfh, hslice⟩ :=
      exists_lfhAt (F := a.reader.bytes) (m := m) (by omega)
    obtain ⟨r, hnew, hbisimilar⟩ :=
      @ZipCryptoReader.bisimilar_window random plaintext hrandom password m.checkByte m.name
    refine ⟨fields, dataStart, _, hbisimilar.map EntryReader.readHom_zipCrypto
      EntryReader.readHom_plain, hlfh, ?_⟩
    rw [CentralEntry.checkByte] at hnew
    rw [← hslice, hdata, ZipFile.openEncrypted, haes]
    dsimp only
    rw [CentralEntry.checkByte, hnew]

end Archive

end ZipForensic
