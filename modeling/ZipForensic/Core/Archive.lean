import ZipForensic.Core.CentralDirectory
import ZipForensic.Core.Decoder

/-!
# Archives and entry readers (archive.rs)

- `EntryReader`: what sits below an entry's decoder, the `Box<dyn Read>` of the
  source: the entry's window of the file, behind the decryption adapter its
  headers ask for. Generic in the reader `τ` of that window.
- `ZipFile`: the decoding reader over one entry, with the CRC check at EOF.
- `ZipArchive`: the parsed container, `byIndex`/`byName` and their `Decrypt`
  forms, and `structuralView`.

Opening an entry moves the archive's reader into the `ZipFile`; a failed open
hands it back. Everything after the local header was read is a function of the
entry and its window alone (`ZipFile.openPlain` and its siblings), natural in
the reader (`openPlain_map` and so on).
-/

namespace ZipForensic

open ReadM (mapBuilt)

variable {k : Crates} {τ τ' : Type}

/-! ## The reader below a decoder -/

/-- The reader a decoder pulls from. -/
inductive EntryReader (k : Crates) (τ : Type)
  | plain (r : τ)
  | aes (r : AesReader k τ)
  | zipCrypto (r : ZipCryptoReader τ)
  | strong (r : StrongAesReader k τ)
  /-- A `Stored` strong-encryption entry, capped to drop the trailing CBC pad. -/
  | strongTake (r : Take (StrongAesReader k τ))

namespace EntryReader

variable [Read IoError τ] [Read IoError τ']

instance : Read IoError (EntryReader k τ) where
  read n r :=
    match r with
    | .plain r => let (x, r) := read n r; (x, .plain r)
    | .aes r => let (x, r) := read n r; (x, .aes r)
    | .zipCrypto r => let (x, r) := read n r; (x, .zipCrypto r)
    | .strong r => let (x, r) := read n r; (x, .strong r)
    | .strongTake r => let (x, r) := read n r; (x, .strongTake r)
  avail r :=
    match r with
    | .plain r => avail r
    | .aes r => avail r
    | .zipCrypto r => avail r
    | .strong r => avail r
    | .strongTake r => avail r

instance [LawfulRead IoError τ] : LawfulRead IoError (EntryReader k τ) where
  read_le n r := by
    cases r with
    | plain r => exact LawfulRead.read_le n r
    | aes r => exact LawfulRead.read_le n r
    | zipCrypto r => exact LawfulRead.read_le n r
    | strong r => exact LawfulRead.read_le n r
    | strongTake r => exact LawfulRead.read_le n r
  avail_le n r := by
    cases r with
    | plain r => exact LawfulRead.avail_le n r
    | aes r => exact LawfulRead.avail_le n r
    | zipCrypto r => exact LawfulRead.avail_le n r
    | strong r => exact LawfulRead.avail_le n r
    | strongTake r => exact LawfulRead.avail_le n r

/-- The entry's window of the file. -/
def base : EntryReader k τ → τ
  | .plain r => r
  | .aes r => r.inner
  | .zipCrypto r => r.inner
  | .strong r => r.inner
  | .strongTake r => r.inner.inner

/-- Replace the reader below. -/
def map (f : τ → τ') : EntryReader k τ → EntryReader k τ'
  | .plain r => .plain (f r)
  | .aes r => .aes (r.map f)
  | .zipCrypto r => .zipCrypto (r.map f)
  | .strong r => .strong (r.map f)
  | .strongTake r => .strongTake (r.map (StrongAesReader.map f))

omit [Read IoError τ] [Read IoError τ'] in
theorem base_map (f : τ → τ') (r : EntryReader k τ) : (r.map f).base = f r.base := by
  cases r <;> rfl

theorem readHom_map {f : τ → τ'} (hf : ReadHom f) : ReadHom (map (k := k) f) where
  read_map n r := by
    cases r with
    | plain r =>
      show ((read n (f r)).1, plain (read n (f r)).2) = _
      rw [hf.read_map]
      rfl
    | aes r =>
      show ((read n (r.map f)).1, aes (read n (r.map f)).2) = _
      rw [(AesReader.readHom_map hf).read_map]
      rfl
    | zipCrypto r =>
      show ((read n (r.map f)).1, zipCrypto (read n (r.map f)).2) = _
      rw [(ZipCryptoReader.readHom_map hf).read_map]
      rfl
    | strong r =>
      show ((read n (r.map f)).1, strong (read n (r.map f)).2) = _
      rw [(StrongAesReader.readHom_map hf).read_map]
      rfl
    | strongTake r =>
      show ((read n (r.map (StrongAesReader.map f))).1,
        strongTake (read n (r.map (StrongAesReader.map f))).2) = _
      rw [(Take.readHom_map (StrongAesReader.readHom_map hf)).read_map]
      rfl
  avail_map r := by
    cases r with
    | plain r => exact hf.avail_map r
    | aes r => exact (AesReader.readHom_map hf).avail_map r
    | zipCrypto r => exact (ZipCryptoReader.readHom_map hf).avail_map r
    | strong r => exact (StrongAesReader.readHom_map hf).avail_map r
    | strongTake r => exact (Take.readHom_map (StrongAesReader.readHom_map hf)).avail_map r

theorem readHom_plain : ReadHom (plain : τ → EntryReader k τ) := ⟨fun _ _ => rfl, fun _ => rfl⟩

theorem readHom_aes : ReadHom (aes : AesReader k τ → EntryReader k τ) :=
  ⟨fun _ _ => rfl, fun _ => rfl⟩

theorem readHom_zipCrypto : ReadHom (zipCrypto : ZipCryptoReader τ → EntryReader k τ) :=
  ⟨fun _ _ => rfl, fun _ => rfl⟩

end EntryReader

/-! ## Entries -/

namespace CentralEntry

def isDir (e : CentralEntry) : Bool := e.name.endsWith "/" || e.name.endsWith "\\"

end CentralEntry

/-- A decoding reader over one ZIP entry, verifying CRC-32 at EOF. -/
structure ZipFile (k : Crates) (τ : Type) where
  entry : CentralEntry
  dataStart : Nat
  decoder : Decoder k (EntryReader k τ)
  /-- What the CRC hasher was fed. -/
  hasher : Bytes
  bytesOut : Nat
  verified : Bool
  /-- False for WinZip AE-2, whose integrity is the HMAC. -/
  verifyCrc : Bool

namespace ZipFile

/-- A fresh entry reader. -/
def start (entry : CentralEntry) (dataStart : Nat) (verifyCrc : Bool)
    (decoder : Decoder k (EntryReader k τ)) : ZipFile k τ :=
  { entry, dataStart, decoder, hasher := [], bytesOut := 0, verified := false, verifyCrc }

def name (f : ZipFile k τ) : String := f.entry.name
def compression (f : ZipFile k τ) : CompressionMethod := f.entry.method
def size (f : ZipFile k τ) : Nat := f.entry.uncompressedSize
def compressedSize (f : ZipFile k τ) : Nat := f.entry.compressedSize

/-- The error of a failed CRC check. -/
def crcMismatch (f : ZipFile k τ) : IoError :=
  .wrapped (.crcMismatch f.entry.name f.entry.crc32 (k.crc32 f.hasher))

/-- Replace the reader below. -/
def map (g : τ → τ') (f : ZipFile k τ) : ZipFile k τ' :=
  { f with decoder := f.decoder.map (EntryReader.map g) }

/-- The same reader for an entry found elsewhere in the file. -/
def relocate (lfhOffset dataStart : Nat) (f : ZipFile k τ) : ZipFile k τ :=
  { f with entry := { f.entry with lfhOffset }, dataStart }

/-- The answer at the decoder's end of stream: the CRC is checked the first time. -/
def endOfStream (f : ZipFile k τ) : Except IoError Bytes :=
  if f.verified then .ok []
  else if f.verifyCrc ∧ k.crc32 f.hasher ≠ f.entry.crc32 then .error f.crcMismatch
  else .ok []

/-- What a read answers once the decoder has answered. -/
def deliver (f : ZipFile k τ) :
    Except IoError Bytes × Decoder k (EntryReader k τ) → Except IoError Bytes × ZipFile k τ
  | (.error e, decoder) => (.error e, { f with decoder })
  | (.ok [], decoder) => (f.endOfStream, { f with decoder, verified := true })
  | (.ok (b :: bs), decoder) =>
    (.ok (b :: bs),
      { f with decoder, hasher := f.hasher ++ (b :: bs),
               bytesOut := f.bytesOut + (b :: bs).length })

theorem deliver_map (g : τ → τ') (f : ZipFile k τ)
    (x : Except IoError Bytes × Decoder k (EntryReader k τ)) :
    (f.map g).deliver (x.1, x.2.map (EntryReader.map g)) =
      ((f.deliver x).1, (f.deliver x).2.map g) := by
  rcases x with ⟨e | _ | ⟨b, bs⟩, decoder⟩ <;> rfl

theorem deliver_relocate (lfhOffset dataStart : Nat) (f : ZipFile k τ)
    (x : Except IoError Bytes × Decoder k (EntryReader k τ)) :
    (f.relocate lfhOffset dataStart).deliver x =
      ((f.deliver x).1, (f.deliver x).2.relocate lfhOffset dataStart) := by
  rcases x with ⟨e | _ | ⟨b, bs⟩, decoder⟩ <;> rfl

variable [Read IoError τ] [Read IoError τ']

instance : Read IoError (ZipFile k τ) where
  read n f := f.deliver (read n f.decoder)
  avail f := avail f.decoder

omit [Read IoError τ] in
/-- The gate delivers no more than its decoder. -/
theorem delivered_deliver_le (f : ZipFile k τ)
    (x : Except IoError Bytes × Decoder k (EntryReader k τ)) :
    delivered (f.deliver x).1 ≤ delivered x.1 := by
  rcases x with ⟨e | _ | ⟨b, bs⟩, d⟩
  · exact Nat.le_refl _
  · show delivered f.endOfStream ≤ 0
    unfold endOfStream
    split_ifs
    · exact Nat.le_refl 0
    · exact Nat.le_refl 0
    · exact Nat.le_refl 0
  · exact Nat.le_refl _

omit [Read IoError τ] in
theorem deliver_decoder (f : ZipFile k τ) (x : Except IoError Bytes × Decoder k (EntryReader k τ)) :
    (f.deliver x).2.decoder = x.2 := by
  rcases x with ⟨e | _ | ⟨b, bs⟩, d⟩ <;> rfl

instance [LawfulRead IoError τ] : LawfulRead IoError (ZipFile k τ) where
  read_le n f := le_trans (f.delivered_deliver_le _) (LawfulRead.read_le n f.decoder)
  avail_le n f := by
    have hle := f.delivered_deliver_le (read n f.decoder)
    have hdec := LawfulRead.avail_le n f.decoder
    show delivered (f.deliver (read n f.decoder)).1 +
      avail (f.deliver (read n f.decoder)).2.decoder ≤ avail f.decoder
    rw [deliver_decoder]
    omega

theorem readHom_map {g : τ → τ'} (hg : ReadHom g) : ReadHom (map (k := k) g) where
  read_map n f := by
    show (f.map g).deliver (read n (f.decoder.map (EntryReader.map g))) = _
    rw [(Decoder.readHom_map (EntryReader.readHom_map hg)).read_map]
    exact deliver_map g f _
  avail_map f := (Decoder.readHom_map (EntryReader.readHom_map hg)).avail_map f.decoder

/-- Where an entry lies is not observable through its reader. -/
theorem readHom_relocate (lfhOffset dataStart : Nat) :
    ReadHom (relocate (k := k) (τ := τ) lfhOffset dataStart) where
  read_map _ f := deliver_relocate lfhOffset dataStart f _
  avail_map _ := rfl

/-! ### Setting up the readers over an entry's window -/

/-- `Decoder::new` over `reader`, with the window handed back on failure. -/
def decode (m : CentralEntry) (dataStart : Nat) (method : CompressionMethod) (verifyCrc : Bool)
    (reader : EntryReader k τ) : Except (ZipCoreError × τ) (ZipFile k τ) :=
  match Decoder.new method m.uncompressedSize reader with
  | .ok decoder => .ok (start m dataStart verifyCrc decoder)
  | .error (e, reader) => .error (e, reader.base)

/-- The rest of `open`. -/
def openPlain (m : CentralEntry) (dataStart : Nat) (window : τ) :
    Except (ZipCoreError × τ) (ZipFile k τ) :=
  decode m dataStart m.method true (.plain window)

/-- The password-verification byte: the CRC-32 high byte, or the mod-time high
byte when the entry uses a data descriptor (bit 3). -/
def zipcryptoCheckByte (flags : Nat) (crc32 : UInt32) (lastModTime : Nat) : UInt8 :=
  if flags &&& 0x0008 ≠ 0 then UInt8.ofNat (lastModTime >>> 8) else (crc32 >>> 24).toUInt8

/-- The rest of `open_decrypt`: WinZip AES, else traditional ZipCrypto. -/
def openEncrypted (m : CentralEntry) (password : Bytes) (dataStart : Nat) (window : τ) :
    Except (ZipCoreError × τ) (ZipFile k τ) :=
  match m.aes with
  | some aes =>
    match AesReader.new window password aes m.compressedSize m.name with
    | .error e => .error e
    | .ok r => decode m dataStart (.fromU16 aes.actualMethod) (!aes.isAe2) (.aes r)
  | none =>
    let check := zipcryptoCheckByte m.flags m.crc32 m.lastModTime
    match ZipCryptoReader.new window password check m.name with
    | .error e => .error e
    | .ok r => decode m dataStart m.method true (.zipCrypto r)

/-- The rest of `open_strong_decrypt`. -/
def openStrong (m : CentralEntry) (password : Bytes) (dataStart : Nat) (window : τ) :
    Except (ZipCoreError × τ) (ZipFile k τ) :=
  match ReadM.runOn (readStrongHeader k password m.crc32 m.uncompressedSize m.name) window with
  | (.error e, window) => .error (e, window)
  | (.ok hdr, window) =>
    let encLen := m.compressedSize - hdr.headerLen
    match (StrongAesReader.new window hdr.fileKey hdr.iv encLen m.name :
        Except ZipCoreError (StrongAesReader k τ)) with
    | .error e => .error (e, window)
    | .ok strong =>
      let reader : EntryReader k τ :=
        if m.method = .stored then .strongTake ⟨strong, m.uncompressedSize⟩ else .strong strong
      decode m dataStart m.method true reader

section Map

variable {g : τ → τ'} (hg : ReadHom g)
include hg

theorem decode_map (m : CentralEntry) (dataStart : Nat) (method : CompressionMethod)
    (verifyCrc : Bool) (reader : EntryReader k τ) :
    (decode m dataStart method verifyCrc (reader.map g) :
        Except (ZipCoreError × τ') (ZipFile k τ')) =
      mapBuilt g (map g) (decode m dataStart method verifyCrc reader) := by
  unfold decode
  rw [Decoder.new_map (EntryReader.readHom_map hg)]
  rcases Decoder.new method m.uncompressedSize reader with ⟨e, r⟩ | d
  · simp [mapBuilt, EntryReader.base_map]
  · rfl

theorem openPlain_map (m : CentralEntry) (dataStart : Nat) (window : τ) :
    (openPlain m dataStart (g window) : Except (ZipCoreError × τ') (ZipFile k τ')) =
      mapBuilt g (map g) (openPlain m dataStart window) :=
  decode_map hg m dataStart m.method true (.plain window)

theorem openEncrypted_map (m : CentralEntry) (password : Bytes) (dataStart : Nat) (window : τ) :
    (openEncrypted m password dataStart (g window) :
        Except (ZipCoreError × τ') (ZipFile k τ')) =
      mapBuilt g (map g) (openEncrypted m password dataStart window) := by
  unfold openEncrypted
  cases m.aes with
  | some aes =>
    dsimp only
    rw [AesReader.new_map hg]
    rcases (AesReader.new window password aes m.compressedSize m.name :
      Except (ZipCoreError × τ) (AesReader k τ)) with ⟨e, r⟩ | r
    · rfl
    · exact decode_map hg m dataStart _ _ (.aes r)
  | none =>
    dsimp only
    rw [ZipCryptoReader.new_map hg]
    rcases ZipCryptoReader.new window password
      (zipcryptoCheckByte m.flags m.crc32 m.lastModTime) m.name with ⟨e, r⟩ | r
    · rfl
    · exact decode_map hg m dataStart _ _ (.zipCrypto r)

theorem openStrong_map (m : CentralEntry) (password : Bytes) (dataStart : Nat) (window : τ) :
    (openStrong m password dataStart (g window) :
        Except (ZipCoreError × τ') (ZipFile k τ')) =
      mapBuilt g (map g) (openStrong m password dataStart window) := by
  unfold openStrong
  rw [natural_readStrongHeader hg]
  rcases ReadM.runOn (readStrongHeader k password m.crc32 m.uncompressedSize m.name) window with
    ⟨e | hdr, r⟩
  · rfl
  · dsimp only
    rw [StrongAesReader.new_map]
    rcases (StrongAesReader.new r hdr.fileKey hdr.iv (m.compressedSize - hdr.headerLen) m.name :
      Except ZipCoreError (StrongAesReader k τ)) with e | strong
    · rfl
    · have hdecode := fun reader => decode_map (k := k) hg m dataStart m.method true reader
      dsimp only [Except.map]
      by_cases hm : m.method = .stored
      · simp only [hm, if_true] at hdecode ⊢
        exact hdecode (.strongTake ⟨strong, m.uncompressedSize⟩)
      · simp only [hm, if_false] at hdecode ⊢
        exact hdecode (.strong strong)

end Map

end ZipFile

/-! ## The archive -/

/-- One entry's raw structural layout: both header copies and the offsets. -/
structure EntryLayout where
  /-- Index in central-directory order. -/
  index : Nat
  lfhOffset : Nat
  /-- Absolute offset of the entry's first data byte. -/
  dataStart : Nat
  central : HeaderFields
  loc : HeaderFields
  extra : ExtraFields
deriving DecidableEq, Repr

/-- Fail loud if the entry's data is not wholly resolvable from the single
segment we hold. -/
def checkLocalDisk (m : CentralEntry) (thisDisk cdStartDisk : Nat) : Except ZipCoreError Unit :=
  if m.diskStart ≠ 0 then .error (.spannedArchive m.name m.diskStart)
  else if cdStartDisk ≠ 0 then .error (.spannedArchive m.name cdStartDisk)
  else if thisDisk ≠ 0 then .error (.spannedArchive m.name thisDisk)
  else .ok ()

/-- A parsed ZIP archive over a seekable reader. -/
structure ZipArchive where
  reader : Source
  entries : List CentralEntry
  summary : ArchiveSummary
deriving DecidableEq

/-- The outcome of opening an entry. -/
abbrev Opened (k : Crates) := Except (Fault ZipCoreError × Source) (ZipFile k (Take Source))

namespace ZipArchive

open ArchiveM

/-- Parse the EOCD and central directory of `reader`. -/
def new (reader : Source) : Res ZipCoreError ZipArchive :=
  let parse : ArchiveM (List CentralEntry × ArchiveSummary) := do
    let fileLen ← seekEnd
    parseCentralDirectory fileLen
  match runOn parse reader with
  | (.ok (entries, summary), reader) => .ok { reader, entries, summary }
  | (.error e, _) => .error e

def len (a : ZipArchive) : Nat := a.entries.length

/-- Entry names in central-directory order. -/
def fileNames (a : ZipArchive) : List String := a.entries.map CentralEntry.name

/-- `Err(e)`, before the reader was touched. -/
def refuse (a : ZipArchive) (e : ZipCoreError) : Opened k := .error (.error e, a.reader)

/-- Read the local header of `m`, seek to its data and set up the readers over
the `compressedSize` bytes there. -/
def openAt (a : ZipArchive) (m : CentralEntry)
    (setup : Nat → Take Source → Except (ZipCoreError × Take Source) (ZipFile k (Take Source))) :
    Opened k :=
  match runOn (readLfhFields m.lfhOffset) a.reader with
  | (.error e, reader) => .error (e, reader)
  | (.ok (_, dataStart), reader) =>
    match setup dataStart ⟨{ reader with pos := dataStart }, m.compressedSize⟩ with
    | .ok f => .ok f
    | .error (e, window) => .error (.error e, window.inner)

def «open» (a : ZipArchive) (m : CentralEntry) : Opened k :=
  match checkLocalDisk m a.summary.diskNumber a.summary.cdStartDisk with
  | .error e => a.refuse e
  | .ok () =>
    if m.flags &&& 0x0001 ≠ 0 then
      a.refuse (.encryptedNoPassword m.name)
    else
      a.openAt m (ZipFile.openPlain m)

def openStrongDecrypt (a : ZipArchive) (m : CentralEntry) (password : Bytes) : Opened k :=
  a.openAt m (ZipFile.openStrong m password)

def openDecrypt (a : ZipArchive) (m : CentralEntry) (password : Bytes) : Opened k :=
  match checkLocalDisk m a.summary.diskNumber a.summary.cdStartDisk with
  | .error e => a.refuse e
  | .ok () =>
    -- not encrypted: the password is irrelevant
    if m.flags &&& 0x0001 = 0 ∧ m.aes = none then
      a.open m
    else if m.flags &&& 0x2000 ≠ 0 then
      a.refuse (.unsupportedEncryption m.name
        "masked / central-directory encryption (GP flag bit 13)")
    else if m.aes = none ∧ m.flags &&& 0x0040 ≠ 0 then
      a.openStrongDecrypt m password
    else
      a.openAt m (ZipFile.openEncrypted m password)

/-- Open the entry at index `i` for decoding. -/
def byIndex (a : ZipArchive) (i : Nat) : Opened k :=
  match a.entries[i]? with
  | none => a.refuse (.indexOutOfBounds i)
  | some m => a.open m

/-- Open the named entry for decoding. -/
def byName (a : ZipArchive) (name : String) : Opened k :=
  match a.entries.find? fun e => e.name = name with
  | none => a.refuse (.entryNotFound name)
  | some m => a.open m

/-- Open the entry at index `i`, decrypting it with `password`. -/
def byIndexDecrypt (a : ZipArchive) (i : Nat) (password : Bytes) : Opened k :=
  match a.entries[i]? with
  | none => a.refuse (.indexOutOfBounds i)
  | some m => a.openDecrypt m password

/-- Open the named entry, decrypting it with `password`. -/
def byNameDecrypt (a : ZipArchive) (name : String) (password : Bytes) : Opened k :=
  match a.entries.find? fun e => e.name = name with
  | none => a.refuse (.entryNotFound name)
  | some m => a.openDecrypt m password

/-- The layout record of entry `index`. -/
def entryLayout (index : Nat) (m : CentralEntry) (loc : HeaderFields) (dataStart : Nat) :
    EntryLayout :=
  { index, lfhOffset := m.lfhOffset, dataStart
    central := {
      name := m.name, method := m.method, flags := m.flags, crc32 := m.crc32
      compressedSize := m.compressedSize, uncompressedSize := m.uncompressedSize }
    loc, extra := m.extra }

def structuralViewLoop : Nat → List CentralEntry → ArchiveM (List EntryLayout)
  | _, [] => return []
  | index, m :: ms => do
    let (loc, dataStart) ← readLfhFields m.lfhOffset
    let rest ← structuralViewLoop (index + 1) ms
    return entryLayout index m loc dataStart :: rest

/-- Raw structural view: per entry, the header fields as recorded in both the
central directory and the local file header, plus offsets. -/
def structuralView (a : ZipArchive) : Res ZipCoreError (List EntryLayout) × ZipArchive :=
  match runOn (structuralViewLoop 0 a.entries) a.reader with
  | (x, reader) => (x, { a with reader })

end ZipArchive

end ZipForensic
