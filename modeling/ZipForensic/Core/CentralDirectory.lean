import ZipForensic.Core.Reader
import ZipForensic.Core.Names

/-!
# The container parser (archive.rs)

EOCD scan, Zip64 promotion, prefix detection, central-directory headers with
their extra fields, and local file headers — function by function as
`archive.rs` computes them, over the seekable reader of `ArchiveM`.

Two long functions are cut where the source changes subject: the prefix
detection and the digital-signature probe of `parse_central_directory` are
`detectPrefix` and `archiveSignatureLen`.
-/

namespace ZipForensic

def eocdSig : Nat := 0x06054b50
def cdHeaderSig : Nat := 0x02014b50
def lfhSig : Nat := 0x04034b50
def zip64EocdSig : Nat := 0x06064b50
/-- Central-directory digital-signature record header. -/
def archiveSigSig : Nat := 0x05054b50
def zip64LocatorSig : Nat := 0x07064b50
/-- Header id of the Zip64 extended-information extra field. -/
def zip64ExtraId : Nat := 0x0001
/-- 32-bit sentinel: the real value lives in a Zip64 record/extra field. -/
def u32Sentinel : Nat := 0xFFFFFFFF
/-- 16-bit sentinel for counts. -/
def u16Sentinel : Nat := 0xFFFF

/-- Minimum EOCD record length (no comment). -/
def eocdMin : Nat := 22
/-- Largest region scanned back from EOF for the EOCD (record + max comment). -/
def eocdScanMax : Nat := eocdMin + 65535
/-- Zip64 EOCD locator record length. -/
def zip64LocatorLen : Nat := 20
/-- Fixed portion of a local file header. -/
def lfhFixed : Nat := 30
/-- Ceiling on entries parsed, guarding against a lying EOCD count. -/
def maxEntries : Nat := 16000000

/-- Parsed AE-x extra field (header id 0x9901). -/
structure AesInfo where
  /-- AES key strength: 1 = 128-bit, 2 = 192-bit, 3 = 256-bit. -/
  strength : Nat
  /-- The real compression method applied before encryption. -/
  actualMethod : Nat
  /-- Vendor version 2 (AE-2) omits the CRC; version 1 (AE-1) keeps it. -/
  isAe2 : Bool
deriving DecidableEq, Repr

/-- Parsed common ZIP extra fields (central-directory copy). -/
structure ExtraFields where
  ntfsMtime : Option Nat := none
  ntfsAtime : Option Nat := none
  ntfsCtime : Option Nat := none
  unixMtime : Option Int := none
  unixAtime : Option Int := none
  unixCtime : Option Int := none
  unicodePath : Option String := none
  unicodeComment : Option String := none
deriving DecidableEq, Repr

/-- Parsed central-directory metadata for one entry. -/
structure CentralEntry where
  name : String
  method : CompressionMethod
  flags : Nat
  crc32 : UInt32
  compressedSize : Nat
  uncompressedSize : Nat
  lfhOffset : Nat
  lastModTime : Nat
  aes : Option AesInfo
  diskStart : Nat
  extra : ExtraFields
deriving DecidableEq, Repr

/-- Container-level offsets/counts. -/
structure ArchiveSummary where
  fileLen : Nat
  centralDirOffset : Nat
  centralDirSize : Nat
  eocdEndOffset : Nat
  commentLen : Nat
  diskNumber : Nat
  cdStartDisk : Nat
  archiveSignatureLen : Option Nat
deriving DecidableEq, Repr

/-- Header fields as recorded in one header copy. -/
structure HeaderFields where
  name : String
  method : CompressionMethod
  flags : Nat
  crc32 : UInt32
  compressedSize : Nat
  uncompressedSize : Nat
deriving DecidableEq, Repr

/-! ## Extra fields -/

/-- One `(id, data)` record of an extra block. -/
def extraRecord : Reader (Nat × Bytes) := do
  let id ← Reader.u16
  let size ← Reader.u16
  let data ← Reader.take size
  return (id, data)

/-- A field of the Zip64 record: read if its 32-bit value is the sentinel, else kept. -/
def zip64Field (need : Bool) (value : Nat) : Reader Nat :=
  if need then Reader.u64 else pure value

/-- The walk of `apply_zip64_extra`: find the first 0x0001 record and read the
needed 64-bit values from it in the fixed order. -/
def applyZip64ExtraLoop (needUncompressed needCompressed needOffset : Bool)
    (uncompressedSize compressedSize lfhOffset : Nat) : Nat → Reader (Nat × Nat × Nat)
  | 0 => throw .zip64Inconsistent
  | fuel + 1 => do
    if (← Reader.remaining) < 4 then
      throw .zip64Inconsistent
    else
      let id ← Reader.u16
      let size ← Reader.u16
      if id = zip64ExtraId then
        let data ← Reader.take size
        let fields : Reader (Nat × Nat × Nat) := do
          let u ← zip64Field needUncompressed uncompressedSize
          let c ← zip64Field needCompressed compressedSize
          let o ← zip64Field needOffset lfhOffset
          return (u, c, o)
        match Reader.runOn fields data with
        | .ok (values, _) => return values
        | .error e => throw e
      else
        Reader.skip size
        applyZip64ExtraLoop needUncompressed needCompressed needOffset
          uncompressedSize compressedSize lfhOffset fuel

/-- Override sentinel fields from the Zip64 extended-information extra field. -/
def applyZip64Extra (extra : Bytes) (needUncompressed needCompressed needOffset : Bool)
    (uncompressedSize compressedSize lfhOffset : Nat) :
    Except FormatError (Nat × Nat × Nat) :=
  match Reader.runOn (applyZip64ExtraLoop needUncompressed needCompressed needOffset
      uncompressedSize compressedSize lfhOffset extra.length) extra with
  | .ok (values, _) => .ok values
  | .error e => .error e

def parseAesExtraLoop : Nat → Reader (Option AesInfo)
  | 0 => return none
  | fuel + 1 => do
    if (← Reader.remaining) < 4 then
      return none
    else
      let id ← Reader.u16
      let size ← Reader.u16
      if id = 0x9901 then
        let data ← Reader.take size
        let fields : Reader AesInfo := do
          let version ← Reader.u16
          let _vendor ← Reader.u16
          let strength ← Reader.take 1
          let actualMethod ← Reader.u16
          return { strength := leNat strength, actualMethod := actualMethod,
                   isAe2 := decide (version = 2) }
        match Reader.runOn fields data with
        | .ok (info, _) => return some info
        | .error e => throw e
      else
        Reader.skip size
        parseAesExtraLoop fuel

/-- Parse the WinZip AE-x extra field (header id 0x9901). -/
def parseAesExtra (extra : Bytes) : Option AesInfo :=
  match Reader.runOn (parseAesExtraLoop extra.length) extra with
  | .ok (info, _) => info
  | .error _ => none

def parseNtfsTimesLoop : Nat → Bytes → ExtraFields → ExtraFields
  | 0, _, out => out
  | fuel + 1, data, out =>
    if data.length < 4 then out
    else
      match Reader.runOn extraRecord data with
      | .error _ => out
      | .ok ((tag, tdata), rest) =>
        let times : Reader (Nat × Nat × Nat) := do
          let m ← Reader.u64
          let a ← Reader.u64
          let c ← Reader.u64
          return (m, a, c)
        let out' :=
          if tag = 0x0001 then
            match Reader.runOn times tdata with
            | .ok ((m, a, c), _) =>
              { out with ntfsMtime := some m, ntfsAtime := some a, ntfsCtime := some c }
            | .error _ => out
          else out
        parseNtfsTimesLoop fuel rest out'

/-- NTFS extra field (0x000a): reserved(4) then tagged attributes; tag 0x0001
carries mtime/atime/ctime as 8-byte FILETIMEs. -/
def parseNtfsTimes (data : Bytes) (out : ExtraFields) : ExtraFields :=
  -- a failed `u32` consumes nothing
  let rest := if 4 ≤ data.length then data.drop 4 else data
  parseNtfsTimesLoop rest.length rest out

/-- `i32::from_le_bytes` of the next four bytes, if there are four; a failed
read consumes nothing. -/
def takeI32le (data : Bytes) : Option Int × Bytes :=
  if 4 ≤ data.length then
    let v := leNat (data.take 4)
    (some (if v < 2 ^ 31 then (v : Int) else (v : Int) - 2 ^ 32), data.drop 4)
  else (none, data)

/-- Info-ZIP extended timestamp (0x5455): a flags byte then present
mtime/atime/ctime as signed 32-bit seconds, in that order. -/
def parseUnixTimes (data : Bytes) (out : ExtraFields) : ExtraFields :=
  match data with
  | [] => out
  | flagByte :: data =>
    let flags := flagByte.toNat
    let (out, data) :=
      if flags &&& 0x01 ≠ 0 then
        ({ out with unixMtime := (takeI32le data).1 }, (takeI32le data).2)
      else (out, data)
    let (out, data) :=
      if flags &&& 0x02 ≠ 0 then
        ({ out with unixAtime := (takeI32le data).1 }, (takeI32le data).2)
      else (out, data)
    if flags &&& 0x04 ≠ 0 then { out with unixCtime := (takeI32le data).1 } else out

/-- Info-ZIP Unicode path/comment: version(1) + name-CRC(4) + UTF-8 bytes. -/
def parseUnicodeExtra (data : Bytes) : Option String :=
  if data.length < 5 then none else fromUtf8 (data.drop 5)

def parseExtraFieldsLoop : Nat → Bytes → ExtraFields → ExtraFields
  | 0, _, out => out
  | fuel + 1, data, out =>
    if data.length < 4 then out
    else
      match Reader.runOn extraRecord data with
      | .error _ => out
      | .ok ((id, payload), rest) =>
        let out' :=
          if id = 0x000a then parseNtfsTimes payload out
          else if id = 0x5455 then parseUnixTimes payload out
          else if id = 0x7075 then { out with unicodePath := parseUnicodeExtra payload }
          else if id = 0x6375 then { out with unicodeComment := parseUnicodeExtra payload }
          else out
        parseExtraFieldsLoop fuel rest out'

/-- Parse the common ZIP extra fields from an entry's extra block. -/
def parseExtraFields (extra : Bytes) : ExtraFields :=
  parseExtraFieldsLoop extra.length extra {}

/-! ## Central-directory headers -/

/-- The fields of a central-directory file header behind its signature. -/
def parseCdFields : Reader CentralEntry := do
  let _versionMadeBy ← Reader.u16
  let _versionNeeded ← Reader.u16
  let flags ← Reader.u16
  let methodRaw ← Reader.u16
  let lastModTime ← Reader.u16
  let _modDate ← Reader.u16
  let crc32 ← Reader.u32
  let compressedSize32 ← Reader.u32
  let uncompressedSize32 ← Reader.u32
  let nameLen ← Reader.u16
  let extraLen ← Reader.u16
  let commentLen ← Reader.u16
  let diskStart ← Reader.u16
  let _internalAttrs ← Reader.u16
  let _externalAttrs ← Reader.u32
  let lfhOffset32 ← Reader.u32
  let nameBytes ← Reader.take nameLen
  let extra ← Reader.take extraLen
  let _comment ← Reader.take commentLen
  let sizes : Except FormatError (Nat × Nat × Nat) :=
    if uncompressedSize32 = u32Sentinel ∨ compressedSize32 = u32Sentinel ∨
        lfhOffset32 = u32Sentinel then
      applyZip64Extra extra (uncompressedSize32 = u32Sentinel) (compressedSize32 = u32Sentinel)
        (lfhOffset32 = u32Sentinel) uncompressedSize32 compressedSize32 lfhOffset32
    else
      .ok (uncompressedSize32, compressedSize32, lfhOffset32)
  match sizes with
  | .error e => throw e
  | .ok (uncompressedSize, compressedSize, lfhOffset) =>
    return {
      name := decodeName nameBytes flags
      method := .fromU16 methodRaw
      flags := flags
      crc32 := UInt32.ofNat crc32
      compressedSize := compressedSize
      uncompressedSize := uncompressedSize
      lfhOffset := lfhOffset
      lastModTime := lastModTime
      aes := if methodRaw = 99 then parseAesExtra extra else none
      diskStart := diskStart
      extra := parseExtraFields extra }

/-- One central-directory file header (the body of the loop of
`parse_cd_entries`); `cdLen` is the length of the whole directory. -/
def parseCdEntry (cdLen : Nat) : Reader CentralEntry := do
  if (← Reader.remaining) < 46 then
    throw .truncated
  else if (← Reader.u32) ≠ cdHeaderSig then
    throw (.badSignature "central directory header" (cdLen - (← Reader.remaining)))
  else
    parseCdFields

def parseCdEntriesLoop (cdLen : Nat) : Nat → Reader (List CentralEntry)
  | 0 => return []
  | total + 1 => do
    let e ← parseCdEntry cdLen
    let es ← parseCdEntriesLoop cdLen total
    return e :: es

/-- Parse `totalEntries` central-directory headers, returning the entries and the
number of bytes the headers consumed. -/
def parseCdEntries (cd : Bytes) (totalEntries : Nat) :
    Except FormatError (List CentralEntry × Nat) :=
  match Reader.runOn (parseCdEntriesLoop cd.length totalEntries) cd with
  | .ok (entries, rest) => .ok (entries, cd.length - rest.length)
  | .error e => .error e

theorem parseCdEntries_eq_ok {cd rest : Bytes} {totalEntries : Nat} {entries : List CentralEntry}
    (h : Reader.runOn (parseCdEntriesLoop cd.length totalEntries) cd = .ok (entries, rest)) :
    parseCdEntries cd totalEntries = .ok (entries, cd.length - rest.length) := by
  rw [parseCdEntries, h]

/-! ## EOCD -/

/-- The 32-bit EOCD fields. Any size/offset/count may be a sentinel for Zip64. -/
structure Eocd32 where
  diskNumber : Nat
  cdStartDisk : Nat
  totalEntries : Nat
  cdSize : Nat
  cdOffset : Nat
  commentLen : Nat
deriving DecidableEq, Repr

/-- `(0..n).rev().find(|&i| tail[i..i + 4] == sig)`. -/
def findEocdLoop (tail : Bytes) : Nat → Res ZipCoreError (Option Nat)
  | 0 => .ok none
  | i + 1 => do
    let sig ← sliceRange tail i (i + 4)
    if sig = leBytes 4 eocdSig then
      return some i
    else
      findEocdLoop tail i

/-- Scan backward for the EOCD signature, returning its offset within `tail`. -/
def findEocd (tail : Bytes) : Res ZipCoreError (Option Nat) :=
  if tail.length < eocdMin then .ok none
  else do
    let last ← subU64 tail.length eocdMin
    findEocdLoop tail (last + 1)

/-- Parse the fixed EOCD fields. -/
def parseEocd : Reader Eocd32 := do
  if (← Reader.u32) ≠ eocdSig then
    throw .noEocd
  let diskNumber ← Reader.u16
  let cdStartDisk ← Reader.u16
  let _entriesThisDisk ← Reader.u16
  let totalEntries ← Reader.u16
  let cdSize ← Reader.u32
  let cdOffset ← Reader.u32
  let commentLen ← Reader.u16
  return { diskNumber, cdStartDisk, totalEntries, cdSize, cdOffset, commentLen }

/-- The locator's pointer to the Zip64 EOCD record. -/
def parseZip64Locator : Reader Nat := do
  if (← Reader.u32) ≠ zip64LocatorSig then
    throw .zip64Unsupported
  let _disk ← Reader.u32
  Reader.u64

/-- The Zip64 EOCD record read at `z64EocdOffset`:
`(cd_offset, cd_size, total_entries, disk_number, cd_start_disk)`. -/
def parseZip64Eocd (z64EocdOffset : Nat) : Reader (Nat × Nat × Nat × Nat × Nat) := do
  if (← Reader.u32) ≠ zip64EocdSig then
    throw (.badSignature "Zip64 EOCD record" z64EocdOffset)
  let _recordSize ← Reader.u64
  let _versionMadeBy ← Reader.u16
  let _versionNeeded ← Reader.u16
  let diskNumber ← Reader.u32
  let cdStartDisk ← Reader.u32
  let _entriesThisDisk ← Reader.u64
  let totalEntries ← Reader.u64
  let cdSize ← Reader.u64
  let cdOffset ← Reader.u64
  return (cdOffset, cdSize, totalEntries, diskNumber, cdStartDisk)

namespace ArchiveM

/-- Parse a slice, turning a `FormatError` into a `ZipCoreError`. -/
def ofReader {α : Type} (x : Reader α) (data : Bytes) : ArchiveM α :=
  match Reader.runOn x data with
  | .ok (a, _) => pure a
  | .error e => err (.format e)

/-- Run, reporting failure as `none`. -/
def attempt {α : Type} (x : ArchiveM α) : ArchiveM (Option α) := fun c =>
  match runOn x c with
  | (.ok a, c') => (.ok (some a), c')
  | (.error _, c') => (.ok none, c')

theorem runOn_attempt_ok {α : Type} {x : ArchiveM α} {c c' : Source} {a : α}
    (h : runOn x c = (.ok a, c')) : runOn (attempt x) c = (.ok (some a), c') := by
  show attempt x c = _
  rw [attempt, h]

theorem runOn_attempt_error {α : Type} {x : ArchiveM α} {c c' : Source} {e : Fault ZipCoreError}
    (h : runOn x c = (.error e, c')) : runOn (attempt x) c = (.ok none, c') := by
  show attempt x c = _
  rw [attempt, h]

end ArchiveM

open ArchiveM

/-- Resolve the real central-directory location from the Zip64 EOCD record. -/
def resolveZip64Eocd (tail : Bytes) (eocdRel : Nat) :
    ArchiveM (Nat × Nat × Nat × Nat × Nat) := do
  if eocdRel < zip64LocatorLen then
    err (.format .zip64Unsupported)
  else
    let locatorRel ← ofRes (subU64 eocdRel zip64LocatorLen)
    let locator ← ofRes (sliceRange tail locatorRel eocdRel)
    let z64EocdOffset ← ofReader parseZip64Locator locator
    seekStart z64EocdOffset
    let record ← ArchiveM.readExact 56
    ofReader (parseZip64Eocd z64EocdOffset) record

/-- Whether a field of the record is a sentinel that sends the reader to Zip64. -/
def Eocd32.isZip64 (eocd : Eocd32) : Bool :=
  eocd.cdOffset = u32Sentinel ∨ eocd.cdSize = u32Sentinel ∨ eocd.totalEntries = u16Sentinel

/-- `(cd_offset, cd_size, total_entries, disk_number, cd_start_disk)`, from the
Zip64 record where the EOCD asks for it. -/
def resolveEocd (tail : Bytes) (eocdRel : Nat) (eocd : Eocd32) :
    ArchiveM (Nat × Nat × Nat × Nat × Nat) := do
  if eocd.isZip64 then
    resolveZip64Eocd tail eocdRel
  else
    return (eocd.cdOffset, eocd.cdSize, eocd.totalEntries, eocd.diskNumber, eocd.cdStartDisk)

/-- Whether a central-directory file header signature sits at absolute `offset`. -/
def cdHeaderAt (offset : Nat) : ArchiveM Bool := do
  seekStart offset
  match ← attempt (ArchiveM.readExact 4) with
  | some sig => return decide (leNat sig = cdHeaderSig)
  | none => return false

/-- Detect data prepended before the archive: if the recorded `cdOffset` does not
point at a CD header but `cdOffset + n` does, where
`n = eocdPos - (cdOffset + cdSize)`, the file carries an `n`-byte prefix. -/
def detectPrefix (isZip64 : Bool) (eocdPos cdOffset cdSize : Nat) : ArchiveM Nat := do
  if isZip64 then
    return 0
  else
    -- `checked_sub` of a `saturating_add`: `None` is the branch with no prefix
    let cdEnd := min (cdOffset + cdSize) u64Max
    if cdEnd < eocdPos then
      let n := eocdPos - cdEnd
      if ← cdHeaderAt cdOffset then
        return 0
      else
        let shifted ← ofRes (addU64 cdOffset n)
        if ← cdHeaderAt shifted then
          return n
        else
          return 0
    else
      return 0

/-- The digital-signature record behind the central-directory headers, inside the
`cd` buffer or right after it (where the reader is positioned). -/
def archiveSignatureLen (cd : Bytes) (cdConsumed : Nat) : ArchiveM (Option Nat) := do
  let trailing ← ofRes (sliceFrom cd cdConsumed)
  if 6 ≤ trailing.length ∧ trailing.take 4 = leBytes 4 archiveSigSig then
    return some (leNat (slice trailing 4 2))
  else if trailing = [] then
    match ← attempt (ArchiveM.readExact 6) with
    | some hdr =>
      if hdr.take 4 = leBytes 4 archiveSigSig then
        return some (leNat (slice hdr 4 2))
      else
        return none
    | none => return none
  else
    return none

/-- `e.lfh_offset += prefix` for every entry. -/
def shiftEntries (pre : Nat) (entries : List CentralEntry) :
    Res ZipCoreError (List CentralEntry) :=
  entries.mapM fun e => do
    let lfhOffset ← addU64 e.lfhOffset pre
    return { e with lfhOffset := lfhOffset }

/-- Read the directory of `cdSize` bytes at `cdOffset + pre` and parse its headers. -/
def readDirectory (fileLen eocdEndOffset commentLen cdOffset cdSize totalEntries diskNumber
    cdStartDisk pre : Nat) : ArchiveM (List CentralEntry × ArchiveSummary) := do
  let actualCdOffset ← ofRes (addU64 cdOffset pre)
  -- `checked_add`: a sum past `u64` is out of range as well
  if fileLen < actualCdOffset + cdSize then
    err (.format (.centralDirOutOfRange cdOffset cdSize))
  else if maxEntries < totalEntries then
    err (.format (.tooManyEntries totalEntries))
  else
    seekStart actualCdOffset
    let cd ← ArchiveM.readExact cdSize
    match parseCdEntries cd totalEntries with
    | .error e => err (.format e)
    | .ok (entries, cdConsumed) =>
      let entries ← ofRes (if 0 < pre then shiftEntries pre entries else .ok entries)
      let signatureLen ← archiveSignatureLen cd cdConsumed
      return (entries, {
        fileLen := fileLen
        centralDirOffset := actualCdOffset
        centralDirSize := cdSize
        eocdEndOffset := eocdEndOffset
        commentLen := commentLen
        diskNumber := diskNumber
        cdStartDisk := cdStartDisk
        archiveSignatureLen := signatureLen })

/-- Everything after the EOCD record was found at `eocdRel` in the tail window
that starts at `scanStart`. -/
def parseFromEocd (fileLen scanStart : Nat) (tail : Bytes) (eocdRel : Nat) (eocd : Eocd32) :
    ArchiveM (List CentralEntry × ArchiveSummary) := do
  let eocdPos ← ofRes (addU64 scanStart eocdRel)
  let recordEnd ← ofRes (addU64 eocdPos eocdMin)
  let eocdEndOffset ← ofRes (addU64 recordEnd eocd.commentLen)
  let (cdOffset, cdSize, totalEntries, diskNumber, cdStartDisk) ← resolveEocd tail eocdRel eocd
  let pre ← detectPrefix eocd.isZip64 eocdPos cdOffset cdSize
  readDirectory fileLen eocdEndOffset eocd.commentLen cdOffset cdSize totalEntries diskNumber
    cdStartDisk pre

/-- Locate and parse the EOCD, then read and parse the central directory. -/
def parseCentralDirectory (fileLen : Nat) : ArchiveM (List CentralEntry × ArchiveSummary) := do
  let scanLen := min fileLen eocdScanMax
  if scanLen < eocdMin then
    err (.format .noEocd)
  else
    let scanStart ← ofRes (subU64 fileLen scanLen)
    seekStart scanStart
    let tail ← ArchiveM.readExact scanLen
    match ← ofRes (findEocd tail) with
    | none => err (.format .noEocd)
    | some eocdRel =>
      let record ← ofRes (sliceFrom tail eocdRel)
      let eocd ← ofReader parseEocd record
      parseFromEocd fileLen scanStart tail eocdRel eocd

/-! ## Local file headers -/

/-- The fixed part of a local file header at `lfhOffset`, with the lengths of its
name and extra block: `(flags, method, crc32, csize, usize, nameLen, extraLen)`. -/
def parseLfhFixed (lfhOffset : Nat) :
    Reader (Nat × CompressionMethod × UInt32 × Nat × Nat × Nat × Nat) := do
  if (← Reader.u32) ≠ lfhSig then
    throw (.badSignature "local file header" lfhOffset)
  else
    let _versionNeeded ← Reader.u16
    let flags ← Reader.u16
    let methodRaw ← Reader.u16
    let _modTime ← Reader.u16
    let _modDate ← Reader.u16
    let crc32 ← Reader.u32
    let compressedSize ← Reader.u32
    let uncompressedSize ← Reader.u32
    let nameLen ← Reader.u16
    let extraLen ← Reader.u16
    return (flags, .fromU16 methodRaw, UInt32.ofNat crc32, compressedSize, uncompressedSize,
      nameLen, extraLen)

/-- Read and parse the local file header at `lfhOffset`, returning its fields and
the absolute offset of the entry's first data byte. -/
def readLfhFields (lfhOffset : Nat) : ArchiveM (HeaderFields × Nat) := do
  seekStart lfhOffset
  let fixed ← ArchiveM.readExact lfhFixed
  let (flags, method, crc32, compressedSize, uncompressedSize, nameLen, extraLen) ←
    ofReader (parseLfhFixed lfhOffset) fixed
  let nameBuf ← ArchiveM.readExact nameLen
  let name := decodeName nameBuf flags
  let nameStart ← ofRes (addU64 lfhOffset lfhFixed)
  let extraStart ← ofRes (addU64 nameStart nameLen)
  let dataStart ← ofRes (addU64 extraStart extraLen)
  return ({ name, method, flags, crc32, compressedSize, uncompressedSize }, dataStart)

end ZipForensic
