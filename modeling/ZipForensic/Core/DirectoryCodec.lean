import ZipForensic.Core.HeaderDecoding
import ZipForensic.Core.Records

/-!
# Central directories, written and parsed back

- `DirectoryRecord`: an entry with everything its central header may hold. Sizes and
  offset are any 64-bit values; each that does not fit its 32-bit field goes through the
  Zip64 record, and a smaller one may.
- `CompressionMethod.ids`: the method ids as the format assigns them, and by them the entry a
  header stands for (`DirectoryRecord.entry`); its name is UTF-8 or CP437, by bit 11.
- `WrittenRecord`: one whose length fields and values fit, the Zip64 record being the
  first one with its id.
- `parseCdEntries_writeDirectory`: the parser returns the entries that were written, in
  order, and consumes their headers exactly, whatever follows.
-/

namespace ZipForensic

namespace CompressionMethod

/-- The ids the format assigns; Reduce has one for each of its factors. -/
def ids : List (Nat × CompressionMethod) :=
  [(0, stored), (1, shrunk), (2, reduced), (3, reduced), (4, reduced), (5, reduced), (6, imploded),
    (8, deflated), (9, deflate64), (10, dclImploded), (12, bzip2), (14, lzma), (16, ibmCmpsc),
    (18, ibmTerse), (19, ibmLz77), (93, zstd), (94, mp3), (95, xz), (96, jpeg), (97, wavPack),
    (98, ppmd)]

/-- The method with the id `raw`. -/
def ofId (raw : Nat) : CompressionMethod := (ids.lookup raw).getD (unknown raw)

theorem fromU16_eq_ofId (raw : Nat) : fromU16 raw = ofId raw := by
  by_cases hraw : raw ∈ ids.map Prod.fst
  · have hall : ∀ id ∈ ids.map Prod.fst, fromU16 id = ofId id := by decide
    exact hall raw hraw
  · have hnone : ids.lookup raw = none := by
      rw [List.lookup_eq_none_iff]
      intro p hp
      rw [bne_iff_ne]
      rintro rfl
      exact hraw (List.mem_map_of_mem hp)
    rw [ofId, hnone]
    unfold fromU16
    split <;> first | rfl | exact absurd (by decide) hraw

end CompressionMethod

/-- An entry of a central directory and the choices its writer makes. -/
structure DirectoryRecord where
  versionMadeBy : Nat
  versionNeeded : Nat
  flags : Nat
  method : Nat
  modTime : Nat
  modDate : Nat
  crc32 : UInt32
  uncompressedSize : Nat
  compressedSize : Nat
  lfhOffset : Nat
  diskStart : Nat
  internalAttrs : Nat
  externalAttrs : Nat
  name : Bytes
  comment : Bytes
  /-- Which fields go through the Zip64 record. -/
  wideUncompressed : Bool
  wideCompressed : Bool
  wideOffset : Bool
  /-- The extra records in front of the Zip64 record, and those behind it. -/
  before : List ExtraRecord
  after : List ExtraRecord
  /-- What follows the values in the Zip64 record. -/
  zip64Tail : Bytes

namespace DirectoryRecord

/-- The extra records of the header. -/
def records (e : DirectoryRecord) : List ExtraRecord :=
  if e.wideUncompressed || e.wideCompressed || e.wideOffset then
    e.before ++ ⟨zip64ExtraId, zip64Values e.wideUncompressed e.wideCompressed e.wideOffset
      e.uncompressedSize e.compressedSize e.lfhOffset ++ e.zip64Tail⟩ :: e.after
  else e.before ++ e.after

/-- The header, with the sentinel in the fields that go through the Zip64 record. -/
def header (e : DirectoryRecord) : CentralHeader where
  versionMadeBy := e.versionMadeBy
  versionNeeded := e.versionNeeded
  flags := e.flags
  method := e.method
  modTime := e.modTime
  modDate := e.modDate
  crc32 := e.crc32
  compressedSize32 := if e.wideCompressed then u32Sentinel else e.compressedSize
  uncompressedSize32 := if e.wideUncompressed then u32Sentinel else e.uncompressedSize
  diskStart := e.diskStart
  internalAttrs := e.internalAttrs
  externalAttrs := e.externalAttrs
  lfhOffset32 := if e.wideOffset then u32Sentinel else e.lfhOffset
  name := e.name
  extra := extraBlock e.records
  comment := e.comment

/-- The name: UTF-8 if bit 11 says so, CP437 otherwise. -/
def decodedName (e : DirectoryRecord) : String :=
  if e.flags &&& 0x0800 ≠ 0 then fromUtf8Lossy e.name else .ofList (e.name.map Cp437.decode)

/-- The entry the header stands for. -/
def entry (e : DirectoryRecord) : CentralEntry where
  name := e.decodedName
  method := .ofId e.method
  flags := e.flags
  crc32 := e.crc32
  compressedSize := e.compressedSize
  uncompressedSize := e.uncompressedSize
  lfhOffset := e.lfhOffset
  lastModTime := e.modTime
  aes := if e.method = 99 then parseAesExtra (extraBlock e.records) else none
  diskStart := e.diskStart
  extra := parseExtraFields (extraBlock e.records)

/-- The parser reads name and method as they are meant. -/
theorem entry_header (e : DirectoryRecord) :
    e.header.entry e.uncompressedSize e.compressedSize e.lfhOffset = e.entry := by
  have hname : decodeName e.name e.flags = e.decodedName := by
    rw [decodedName]
    split_ifs with hbit
    · exact decodeName_of_bit_set hbit e.name
    · exact decodeName_of_bit_clear (not_not.1 hbit) e.name
  rw [CentralHeader.entry, entry, ← hname, ← CompressionMethod.fromU16_eq_ofId]
  rfl

end DirectoryRecord

/-- A record that can be written: its fields fit their widths, what does not fit 32 bits
goes through the Zip64 record, and no other record before that one has its id. -/
structure WrittenRecord extends DirectoryRecord where
  flags_lt : flags < 2 ^ 16
  method_lt : method < 2 ^ 16
  modTime_lt : modTime < 2 ^ 16
  diskStart_lt : diskStart < 2 ^ 16
  uncompressedSize_lt : uncompressedSize < 2 ^ 64
  compressedSize_lt : compressedSize < 2 ^ 64
  lfhOffset_lt : lfhOffset < 2 ^ 64
  uncompressedSize_wide : u32Sentinel ≤ uncompressedSize → wideUncompressed = true
  compressedSize_wide : u32Sentinel ≤ compressedSize → wideCompressed = true
  lfhOffset_wide : u32Sentinel ≤ lfhOffset → wideOffset = true
  name_lt : name.length < 2 ^ 16
  comment_lt : comment.length < 2 ^ 16
  extra_lt : (extraBlock toDirectoryRecord.records).length < 2 ^ 16
  before_other : (wideUncompressed || wideCompressed || wideOffset) = true →
    ∀ r ∈ before, r.Fits ∧ r.id ≠ zip64ExtraId

namespace WrittenRecord

/-- A field that is written as it is has room. -/
theorem lt_of_narrow {w : Bool} {v : Nat} (h : u32Sentinel ≤ v → w = true) (hw : w = false) :
    v < u32Sentinel := by
  by_contra hle
  rw [h (Nat.le_of_not_lt hle)] at hw
  cases hw

theorem field32_lt {w : Bool} {v : Nat} (h : u32Sentinel ≤ v → w = true) :
    (if w then u32Sentinel else v) < 2 ^ 32 := by
  cases hw : w with
  | true =>
    rw [if_pos rfl]
    decide
  | false =>
    have hlt := lt_of_narrow h hw
    rw [if_neg Bool.false_ne_true]
    exact hlt.trans (by decide)

theorem header_fits (e : WrittenRecord) : e.header.Fits where
  flags := e.flags_lt
  method := e.method_lt
  modTime := e.modTime_lt
  compressedSize32 := field32_lt e.compressedSize_wide
  uncompressedSize32 := field32_lt e.uncompressedSize_wide
  diskStart := e.diskStart_lt
  lfhOffset32 := field32_lt e.lfhOffset_wide
  name := e.name_lt
  extra := e.extra_lt
  comment := e.comment_lt

/-- The sizes and the offset are resolved to those that were written. -/
theorem header_resolved (e : WrittenRecord) :
    e.header.resolved = .ok (e.uncompressedSize, e.compressedSize, e.lfhOffset) :=
  CentralHeader.resolved_of_wide e.uncompressedSize_lt e.compressedSize_lt e.lfhOffset_lt
    (lt_of_narrow e.uncompressedSize_wide) (lt_of_narrow e.compressedSize_wide)
    (lt_of_narrow e.lfhOffset_wide) rfl rfl rfl rfl e.extra_lt e.before_other

/-- A written header is parsed to its entry, and the reader stands right behind it. -/
theorem runOn_header (e : WrittenRecord) (cdLen : Nat) (rest : Bytes) :
    Reader.runOn (parseCdEntry cdLen) (e.header.bytes ++ rest) = .ok (e.entry, rest) := by
  rw [← e.entry_header]
  exact CentralHeader.runOn_parseCdEntry e.header_fits e.header_resolved cdLen rest

end WrittenRecord

/-- The headers of a directory, one after the other. -/
def writeDirectory (es : List WrittenRecord) : Bytes := es.flatMap fun e => e.header.bytes

theorem runOn_writeDirectory (es : List WrittenRecord) (cdLen : Nat) (rest : Bytes) :
    Reader.runOn (parseCdEntriesLoop cdLen es.length) (writeDirectory es ++ rest) =
      .ok (es.map fun e => e.entry, rest) := by
  induction es with
  | nil => rfl
  | cons e es ih =>
    rw [writeDirectory, List.flatMap_cons, List.append_assoc, ← writeDirectory, List.length_cons,
      parseCdEntriesLoop, Reader.runOn_bind_ok _ (e.runOn_header cdLen _),
      Reader.runOn_bind_ok _ ih]
    rfl

/-- Parsing undoes writing: the entries come back in order, and what is consumed is the
headers, whatever bytes follow them. -/
theorem parseCdEntries_writeDirectory (es : List WrittenRecord) (suffix : Bytes) :
    parseCdEntries (writeDirectory es ++ suffix) es.length =
      .ok (es.map fun e => e.entry, (writeDirectory es).length) := by
  rw [parseCdEntries_eq_ok (runOn_writeDirectory es _ suffix), List.length_append,
    Nat.add_sub_cancel]

/-- A member of `2 ^ 40` bytes behind a Unicode-path record, its offset written wide although
it is small. -/
def wideRecord : WrittenRecord where
  versionMadeBy := 45
  versionNeeded := 45
  flags := 0x0800
  method := 8
  modTime := 0
  modDate := 0x21
  crc32 := 0x352441C2
  uncompressedSize := 2 ^ 40
  compressedSize := 100
  lfhOffset := 7
  diskStart := 0
  internalAttrs := 0
  externalAttrs := 0
  name := [0x6D]
  comment := []
  wideUncompressed := true
  wideCompressed := false
  wideOffset := true
  before := [⟨0x7075, [1, 0, 0, 0, 0, 0x6E]⟩]
  after := []
  zip64Tail := []
  flags_lt := by decide
  method_lt := by decide
  modTime_lt := by decide
  diskStart_lt := by decide
  uncompressedSize_lt := by decide
  compressedSize_lt := by decide
  lfhOffset_lt := by decide
  uncompressedSize_wide := fun _ => rfl
  compressedSize_wide := by decide
  lfhOffset_wide := fun _ => rfl
  name_lt := by decide
  comment_lt := by decide
  extra_lt := by decide
  before_other := by
    intro _ r hr
    rw [List.mem_singleton.1 hr]
    exact ⟨⟨by decide, by decide⟩, by decide⟩

example : wideRecord.header.bytes.length = 46 + 1 + 30 := by decide

end ZipForensic
