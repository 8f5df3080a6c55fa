import ZipForensic.Core.Archive

/-!
# The anomaly auditor (forensic/src/lib.rs)

`auditReader` surfaces structural disagreements a reader would normalize away:
header copies that differ, suspicious names, overlapping members, data before or
behind the archive, and entries whose decoded bytes fail their CRC. The notes
and evidence records rendered from an anomaly are left out; its classification
carries the values they show.
-/

namespace ZipForensic

inductive Severity
  | low | medium | high
deriving DecidableEq, Repr

/-- Classification of a ZIP forensic anomaly, carrying the offending values. -/
inductive AnomalyKind
  | cdLfhMismatch (index : Nat) (name field central loc : String)
  | nameTraversal (index : Nat) (name : String)
  | nameAbsolute (index : Nat) (name : String)
  | prependedData (length : Nat)
  | trailingData (length : Nat)
  | overlap (indexA indexB offset : Nat)
  | spanningAnomaly (diskNumber cdStartDisk : Nat)
  | nameBidi (index : Nat) (name : String)
  | nameControl (index : Nat) (name : String)
  | crcMismatch (index : Nat) (name : String)
deriving DecidableEq, Repr

namespace AnomalyKind

def severity : AnomalyKind → Severity
  | cdLfhMismatch .. | nameTraversal .. | nameBidi .. | crcMismatch .. => .high
  | nameAbsolute .. | overlap .. | spanningAnomaly .. | nameControl .. => .medium
  | prependedData .. | trailingData .. => .low

/-- Stable, scheme-prefixed machine code (published contract). -/
def code : AnomalyKind → String
  | cdLfhMismatch .. => "ZIP-CD-LFH-MISMATCH"
  | nameTraversal .. => "ZIP-NAME-TRAVERSAL"
  | nameAbsolute .. => "ZIP-NAME-ABSOLUTE"
  | prependedData .. => "ZIP-PREPENDED-DATA"
  | trailingData .. => "ZIP-TRAILING-DATA"
  | overlap .. => "ZIP-OVERLAP"
  | spanningAnomaly .. => "ZIP-SPANNING-ANOMALY"
  | nameBidi .. => "ZIP-NAME-BIDI"
  | nameControl .. => "ZIP-NAME-CONTROL"
  | crcMismatch .. => "ZIP-CRC-MISMATCH"

end AnomalyKind

/-- A ZIP forensic anomaly; severity and code are derived from its kind. -/
structure Anomaly where
  severity : Severity
  code : String
  kind : AnomalyKind
deriving DecidableEq, Repr

/-- `Anomaly::new`. -/
def Anomaly.new (kind : AnomalyKind) : Anomaly := ⟨kind.severity, kind.code, kind⟩

/-! ## Names -/

/-- `..` traversal component, treating both `/` and `\` as separators. -/
def hasTraversal (name : String) : Bool :=
  (name.toList.splitOnP isSeparator).any fun c => c = ['.', '.']

def isAsciiAlphabetic (c : Char) : Bool :=
  ('a' ≤ c ∧ c ≤ 'z') ∨ ('A' ≤ c ∧ c ≤ 'Z')

/-- Absolute (leading separator) or drive-letter (`C:`) name. Two leading ASCII
bytes are two leading characters. -/
def isAbsolute (name : String) : Bool :=
  match name.toList with
  | [] => false
  | [c] => isSeparator c
  | c :: d :: _ => isSeparator c || (d = ':' && isAsciiAlphabetic c)

/-- Unicode bidirectional control codepoints. -/
def hasBidiOverride (name : String) : Bool :=
  name.toList.any fun c =>
    (0x202A ≤ c.toNat ∧ c.toNat ≤ 0x202E) ∨ (0x2066 ≤ c.toNat ∧ c.toNat ≤ 0x2069) ∨
      c.toNat = 0x200E ∨ c.toNat = 0x200F

/-- Control characters (C0/C1) or NUL embedded in a name. -/
def hasControlChars (name : String) : Bool :=
  name.toList.any fun c => c.toNat ≤ 0x1F ∨ (0x7F ≤ c.toNat ∧ c.toNat ≤ 0x9F)

/-! ## One entry -/

def mismatch (e : EntryLayout) (field central loc : String) : Anomaly :=
  .new (.cdLfhMismatch e.index e.central.name field central loc)

/-- A 0xFFFFFFFF local size is a Zip64 sentinel, not a tamper. -/
def compareSize (e : EntryLayout) (field : String) (central loc : Nat) : List Anomaly :=
  if loc = u32Sentinel then []
  else if central ≠ loc then [mismatch e field (toString central) (toString loc)]
  else []

def auditEntry (e : EntryLayout) : List Anomaly :=
  let name := e.central.name
  (if hasTraversal name then [.new (.nameTraversal e.index name)] else []) ++
  (if isAbsolute name then [.new (.nameAbsolute e.index name)] else []) ++
  (if hasBidiOverride name then [.new (.nameBidi e.index name)] else []) ++
  (if hasControlChars name then [.new (.nameControl e.index name)] else []) ++
  (if e.central.name ≠ e.loc.name then [mismatch e "name" e.central.name e.loc.name] else []) ++
  (if e.central.method ≠ e.loc.method then
    [mismatch e "method" e.central.method.debug e.loc.method.debug] else []) ++
  -- CRC and sizes live in the data descriptor when flag bit 3 is set
  (if e.loc.flags &&& 0x0008 ≠ 0 then [] else
    (if e.central.crc32 ≠ e.loc.crc32 then
      [mismatch e "crc32" (hexText 10 e.central.crc32.toNat) (hexText 10 e.loc.crc32.toNat)]
      else []) ++
    compareSize e "compressed_size" e.central.compressedSize e.loc.compressedSize ++
    compareSize e "uncompressed_size" e.central.uncompressedSize e.loc.uncompressedSize)

/-! ## The layout -/

/-- A member's data range: its index, start and (saturating) end. -/
structure Span where
  index : Nat
  start : Nat
  stop : Nat
deriving DecidableEq, Repr

def EntryLayout.span (e : EntryLayout) : Span :=
  ⟨e.index, e.dataStart, min (e.dataStart + e.central.compressedSize) u64Max⟩

/-- The `windows(2)` pass: a span that reaches past the start of the next. -/
def overlapsOfSorted : List Span → List Anomaly
  | a :: b :: rest =>
    (if b.start < a.stop then [.new (.overlap a.index b.index b.start)] else []) ++
      overlapsOfSorted (b :: rest)
  | _ => []

/-- The spans of the members, stably sorted by start. -/
def sortedSpans (layout : List EntryLayout) : List Span :=
  (layout.map EntryLayout.span).mergeSort fun a b => decide (a.start ≤ b.start)

/-- Detect members whose `[data_start, data_start + compressed_size)` ranges
overlap. -/
def auditOverlaps (layout : List EntryLayout) : List Anomaly :=
  overlapsOfSorted (sortedSpans layout)

/-- The pure audit over a structural view. -/
def auditLayout (layout : List EntryLayout) : List Anomaly :=
  (match (layout.map EntryLayout.lfhOffset).min? with
    | some first => if 0 < first then [.new (.prependedData first)] else []
    | none => []) ++
  layout.flatMap auditEntry ++ auditOverlaps layout

/-- Container-level audits: trailing data and unexpected spanning disk numbers. -/
def auditContainer (summary : ArchiveSummary) : List Anomaly :=
  -- 0xFFFFFFFF is the Zip64 disk sentinel, not a real spanning marker
  let span := fun d => decide (d ≠ 0 ∧ d ≠ 0xFFFFFFFF)
  (if summary.eocdEndOffset < summary.fileLen then
    [.new (.trailingData (summary.fileLen - summary.eocdEndOffset))] else []) ++
  (if span summary.diskNumber || span summary.cdStartDisk then
    [.new (.spanningAnomaly summary.diskNumber summary.cdStartDisk)] else [])

/-! ## The whole audit -/

/-- Whether an `io::Error` wraps a CRC-32 mismatch. -/
def isCrcMismatch : IoError → Bool
  | .wrapped (.crcMismatch ..) => true
  | _ => false

/-- The file reader below a `ZipFile`, which goes back to the archive. -/
def ZipFile.release {k : Crates} (f : ZipFile k (Take Source)) : Source :=
  f.decoder.input.base.inner

/-- The CRC finding of one drained entry. -/
def crcFinding (i : Nat) (e : EntryLayout) : Except IoError Bytes → List Anomaly
  | .error err => if isCrcMismatch err then [.new (.crcMismatch i e.central.name)] else []
  | .ok _ => []

/-- Decode every entry; a CRC mismatch (and only that) is a finding. -/
def auditCrcs (k : Crates) (archive : ZipArchive) : Nat → List EntryLayout →
    Res ZipCoreError (List Anomaly)
  | _, [] => .ok []
  | i, e :: es =>
    match (archive.byIndex i : Opened k) with
    | .error (.panic, _) => .error .panic
    | .error (.error _, reader) => auditCrcs k { archive with reader } (i + 1) es
    | .ok entry => do
      let (copied, entry) := readToEnd entry
      let rest ← auditCrcs k { archive with reader := entry.release } (i + 1) es
      return crcFinding i e copied ++ rest

/-- Audit an open seekable archive reader for structural anomalies. -/
def auditReader (k : Crates) (reader : Source) : Res ZipCoreError (List Anomaly) := do
  let archive ← ZipArchive.new reader
  match archive.structuralView with
  | (.error e, _) => .error e
  | (.ok layout, archive) =>
    let crcs ← auditCrcs k archive 0 layout
    return auditLayout layout ++ auditContainer archive.summary ++ crcs

end ZipForensic
