import ZipForensic.Core.Comment
import ZipForensic.Core.Records

/-!
# Written archives read back

The abstract writer: members with their headers, laid out one after the other with
arbitrary bytes in between, then the central directory and a plain EOCD
(`writeArchive`). Sizes and offsets are those of the layout; each may be written through
the Zip64 record of its header instead.

- `parseCdEntries_directory`: the directory parses to the members, in order.
- `openedPlain_written`: every member opens where its data was written.
- `writeArchive_reads_back`: the round trip.
-/

namespace ZipForensic

variable {k : Crates}

/-! ## The writer -/

/-- A stored member with both its headers. -/
structure Member where
  /-- Bytes in front of the local header. -/
  gap : Bytes
  loc : LocalHeader
  rawName : Bytes
  localExtra : Bytes
  payload : Bytes
  flags : Nat
  versionMadeBy : Nat
  versionNeeded : Nat
  modTime : Nat
  modDate : Nat
  internalAttrs : Nat
  externalAttrs : Nat
  /-- Which fields go through the Zip64 record. -/
  wideUncompressed : Bool
  wideCompressed : Bool
  wideOffset : Bool
  /-- The extra records around the Zip64 record. -/
  before : List ExtraRecord
  after : List ExtraRecord
  /-- What follows the values in the Zip64 record. -/
  zip64Tail : Bytes
  comment : Bytes

namespace Member

/-- Whether the central header has a sentinel field. -/
def wide (m : Member) : Bool := m.wideUncompressed || m.wideCompressed || m.wideOffset

/-- The central header's extra records, for a local header at `offset`. -/
def extraRecords (m : Member) (offset : Nat) : List ExtraRecord :=
  if m.wide then
    m.before ++ ⟨zip64ExtraId, zip64Values m.wideUncompressed m.wideCompressed m.wideOffset
      m.payload.length m.payload.length offset ++ m.zip64Tail⟩ :: m.after
  else m.before ++ m.after

/-- The central header, for a local header at `offset`. -/
def central (k : Crates) (m : Member) (offset : Nat) : CentralHeader where
  versionMadeBy := m.versionMadeBy
  versionNeeded := m.versionNeeded
  flags := m.flags
  method := 0
  modTime := m.modTime
  modDate := m.modDate
  crc32 := k.crc32 m.payload
  compressedSize32 := if m.wideCompressed then u32Sentinel else m.payload.length
  uncompressedSize32 := if m.wideUncompressed then u32Sentinel else m.payload.length
  diskStart := 0
  internalAttrs := m.internalAttrs
  externalAttrs := m.externalAttrs
  lfhOffset32 := if m.wideOffset then u32Sentinel else offset
  name := m.rawName
  extra := extraBlock (m.extraRecords offset)
  comment := m.comment

/-- The entry a reader should make of the central header. -/
def entry (k : Crates) (m : Member) (offset : Nat) : CentralEntry :=
  (m.central k offset).entry m.payload.length m.payload.length offset

/-- The local header with name and extra block. -/
def header (m : Member) : Bytes := m.loc.bytes m.rawName m.localExtra

/-- The member in the local part. -/
def bytes (m : Member) : Bytes := m.gap ++ (m.header ++ m.payload)

/-- The fields of a member fit their widths, it is not encrypted, and a Zip64 record that
is needed is the first one. -/
structure WellFormed (m : Member) : Prop where
  name : m.rawName.length < 2 ^ 16
  localExtra : m.localExtra.length < 2 ^ 16
  flags : m.flags < 2 ^ 16
  plain : m.flags &&& 0x0001 = 0
  modTime : m.modTime < 2 ^ 16
  extra : ∀ offset, (extraBlock (m.extraRecords offset)).length < 2 ^ 16
  first : m.wide = true → ∀ r ∈ m.before, r.Fits ∧ r.id ≠ zip64ExtraId
  comment : m.comment.length < 2 ^ 16

variable {m : Member} {offset : Nat}

/-- The sizes and the offset are resolved, through the Zip64 record or without it. -/
theorem resolved_central (hm : m.WellFormed) (hsize : m.payload.length < u32Sentinel)
    (hoffset : offset < u32Sentinel) :
    (m.central k offset).resolved = .ok (m.payload.length, m.payload.length, offset) := by
  have hwide : u32Sentinel < 2 ^ 64 := by decide
  exact CentralHeader.resolved_of_wide (hsize.trans hwide) (hsize.trans hwide) (hoffset.trans hwide)
    (fun _ => hsize) (fun _ => hsize) (fun _ => hoffset) rfl rfl rfl rfl (hm.extra offset) hm.first

theorem central_fits (hm : m.WellFormed) (hsize : m.payload.length < u32Sentinel)
    (hoffset : offset < u32Sentinel) : (m.central k offset).Fits := by
  have hsentinel : ∀ {w : Bool} {v : Nat}, v < u32Sentinel →
      (if w then u32Sentinel else v) < 2 ^ 32 := fun {w v} hv => by
    unfold u32Sentinel at *
    cases w
    · simpa using by omega
    · simp
  exact ⟨hm.flags, Nat.pos_of_neZero _, hm.modTime, hsentinel hsize, hsentinel hsize,
    Nat.pos_of_neZero _, hsentinel hoffset, hm.name, hm.extra offset, hm.comment⟩

/-- A member's central header is read back. -/
theorem runOn_central (hm : m.WellFormed) (hsize : m.payload.length < u32Sentinel)
    (hoffset : offset < u32Sentinel) (cdLen : Nat) (rest : Bytes) :
    Reader.runOn (parseCdEntry cdLen) ((m.central k offset).bytes ++ rest) =
      .ok (m.entry k offset, rest) :=
  CentralHeader.runOn_parseCdEntry (central_fits hm hsize hoffset)
    (resolved_central hm hsize hoffset) cdLen rest

end Member

/-! ## The layout -/

/-- The members, one after the other. -/
def localPart (ms : List Member) : Bytes := (ms.map Member.bytes).flatten

@[simp] theorem localPart_cons (m : Member) (ms : List Member) :
    localPart (m :: ms) = m.bytes ++ localPart ms := by
  simp [localPart]

theorem localPart_append (ms ms' : List Member) :
    localPart (ms ++ ms') = localPart ms ++ localPart ms' := by
  simp [localPart]

/-- The central headers of members that are laid out from `pos` on. -/
def directory (k : Crates) : Nat → List Member → Bytes
  | _, [] => []
  | pos, m :: ms =>
    (m.central k (pos + m.gap.length)).bytes ++ directory k (pos + m.bytes.length) ms

/-- The entries of members that are laid out from `pos` on. -/
def directoryEntries (k : Crates) : Nat → List Member → List CentralEntry
  | _, [] => []
  | pos, m :: ms => m.entry k (pos + m.gap.length) :: directoryEntries k (pos + m.bytes.length) ms

/-- The EOCD of an archive. -/
def writtenEocd (k : Crates) (ms : List Member) (lastGap comment : Bytes) : Eocd32 where
  diskNumber := 0
  cdStartDisk := 0
  totalEntries := ms.length
  cdSize := (directory k 0 ms).length
  cdOffset := (localPart ms ++ lastGap).length
  commentLen := comment.length

/-- An archive of the members, with `lastGap` in front of the directory. -/
def writeArchive (k : Crates) (ms : List Member) (lastGap : Bytes) (thisDisk : Nat)
    (comment : Bytes) : Bytes :=
  localPart ms ++ lastGap ++ directory k 0 ms ++
    writeEocd thisDisk (writtenEocd k ms lastGap comment) comment

/-- The directory parses to the members, in order. -/
theorem parseCdEntries_directory (pos : Nat) {ms : List Member} (hms : ∀ m ∈ ms, m.WellFormed)
    (hpos : pos + (localPart ms).length < u32Sentinel) (cdLen : Nat) (rest : Bytes) :
    Reader.runOn (parseCdEntriesLoop cdLen ms.length) (directory k pos ms ++ rest) =
      .ok (directoryEntries k pos ms, rest) := by
  induction ms generalizing pos with
  | nil => rfl
  | cons m ms ih =>
    have hlen : m.bytes.length = m.gap.length + (m.header.length + m.payload.length) := by
      rw [Member.bytes, List.length_append, List.length_append]
    rw [localPart_cons, List.length_append] at hpos
    have hhead := Member.runOn_central (k := k) (hms m (List.mem_cons_self ..))
      (by omega : m.payload.length < u32Sentinel)
      (by omega : pos + m.gap.length < u32Sentinel) cdLen
      (directory k (pos + m.bytes.length) ms ++ rest)
    have htail := @ih (pos + m.bytes.length)
      (fun m' hm' => hms m' (List.mem_cons_of_mem _ hm')) (by omega)
    rw [List.length_cons, directory, List.append_assoc, parseCdEntriesLoop,
      Reader.runOn_bind_ok _ hhead, Reader.runOn_bind_ok _ htail]
    rfl

theorem directoryEntries_getElem? (pos : Nat) {ms : List Member} {i : Nat} {m : Member}
    (h : ms[i]? = some m) : (directoryEntries k pos ms)[i]? =
      some (m.entry k (pos + (localPart (ms.take i)).length + m.gap.length)) := by
  induction ms generalizing pos i with
  | nil => simp at h
  | cons m' ms ih =>
    cases i with
    | zero =>
      obtain rfl : m' = m := by simpa using h
      simp [directoryEntries, localPart]
    | succ i =>
      rw [directoryEntries, List.getElem?_cons_succ, List.take_succ_cons, localPart_cons,
        List.length_append, ih _ (by simpa using h)]
      congr 2
      omega

theorem length_directoryEntries (ms : List Member) (pos : Nat) :
    (directoryEntries k pos ms).length = ms.length := by
  induction ms generalizing pos with
  | nil => rfl
  | cons m ms ih => simp [directoryEntries, ih]

theorem name_directoryEntries (ms : List Member) (pos : Nat) :
    (directoryEntries k pos ms).map CentralEntry.name =
      ms.map fun m => decodeName m.rawName m.flags := by
  induction ms generalizing pos with
  | nil => rfl
  | cons m ms ih =>
    rw [directoryEntries, List.map_cons, List.map_cons, ih]
    rfl

/-- Where the payload of member `i` is written. -/
def payloadStart (ms : List Member) (i : Nat) (m : Member) : Nat :=
  (localPart (ms.take i)).length + m.gap.length + m.header.length

section Written

variable {ms : List Member} {lastGap comment : Bytes} (thisDisk : Nat)

/-- The written archive around member `i`. -/
theorem writeArchive_around (lastGap comment : Bytes) (thisDisk : Nat) {i : Nat} {m : Member}
    (h : ms[i]? = some m) :
    ∃ rest, writeArchive k ms lastGap thisDisk comment =
      (localPart (ms.take i) ++ m.gap) ++ (m.header ++ (m.payload ++ rest)) := by
  obtain ⟨hi, rfl⟩ := List.getElem?_eq_some_iff.1 h
  refine ⟨localPart (ms.drop (i + 1)) ++ (lastGap ++ (directory k 0 ms ++
    writeEocd thisDisk (writtenEocd k ms lastGap comment) comment)), ?_⟩
  have hsplit : localPart ms =
      localPart (ms.take i) ++ (ms[i].bytes ++ localPart (ms.drop (i + 1))) := by
    rw [← localPart_cons, List.getElem_cons_drop, ← localPart_append, List.take_append_drop]
  rw [writeArchive, hsplit, Member.bytes]
  simp only [List.append_assoc]

variable (hms : ∀ m ∈ ms, m.WellFormed) (hcount : ms.length < u16Sentinel)
  (hoffset : (localPart ms ++ lastGap).length < u32Sentinel)
  (hsize : (directory k 0 ms).length < u32Sentinel) (hcomment : comment.length ≤ 65535)

include hoffset hsize hcomment

theorem length_writeArchive_le : (writeArchive k ms lastGap thisDisk comment).length ≤ isizeMax := by
  unfold u32Sentinel at hoffset hsize
  rw [writeArchive, List.length_append, List.length_append, length_writeEocd]
  unfold eocdMin isizeMax
  omega

include hcount

theorem writtenEocd_fits : (writtenEocd k ms lastGap comment).Fits := by
  unfold u16Sentinel at hcount
  unfold u32Sentinel at hoffset hsize
  exact ⟨Nat.pos_of_neZero _, Nat.pos_of_neZero _, show ms.length < 2 ^ 16 by omega,
    show (directory k 0 ms).length < 2 ^ 32 by omega,
    show (localPart ms ++ lastGap).length < 2 ^ 32 by omega, show comment.length < 2 ^ 16 by omega⟩

include hms

/-- A written archive is a plain archive. -/
theorem plainDirectory_writeArchive :
    PlainDirectory (writeArchive k ms lastGap thisDisk comment)
      (localPart ms ++ lastGap ++ directory k 0 ms).length (directoryEntries k 0 ms)
      (directory k 0 ms).length := by
  have hrec : eocdOf (writeArchive k ms lastGap thisDisk comment)
      (localPart ms ++ lastGap ++ directory k 0 ms).length = writtenEocd k ms lastGap comment :=
    eocdOf_writeEocd _ (writtenEocd_fits hcount hoffset hsize hcomment) comment
  refine ⟨eocdAt_writeEocd _ _ _ _, ?_, ?_, ?_⟩
  · rw [hrec, Eocd32.isZip64]
    have h₁ : (writtenEocd k ms lastGap comment).cdOffset ≠ u32Sentinel := Nat.ne_of_lt hoffset
    have h₂ : (writtenEocd k ms lastGap comment).cdSize ≠ u32Sentinel := Nat.ne_of_lt hsize
    have h₃ : (writtenEocd k ms lastGap comment).totalEntries ≠ u16Sentinel := Nat.ne_of_lt hcount
    simp [h₁, h₂, h₃]
  · rw [hrec]
    exact (@List.length_append _ (localPart ms ++ lastGap) (directory k 0 ms)).symm
  · rw [hrec]
    have hslice : slice (writeArchive k ms lastGap thisDisk comment)
        (writtenEocd k ms lastGap comment).cdOffset (writtenEocd k ms lastGap comment).cdSize =
          directory k 0 ms := by
      rw [writeArchive, List.append_assoc]
      exact slice_middle _ _ _
    rw [List.length_append] at hoffset
    have hparse := parseCdEntries_directory (k := k) 0 hms (by omega)
      (directory k 0 ms).length []
    rw [List.append_nil] at hparse
    rw [hslice]
    exact parseCdEntries_eq_ok hparse

/-- What the parser makes of a written archive. -/
theorem directoryOf_writeArchive
    (hlast : ∀ q, (localPart ms ++ lastGap ++ directory k 0 ms).length < q →
      ¬ EocdAt (writeArchive k ms lastGap thisDisk comment) q) :
    ∃ summary, directoryOf (writeArchive k ms lastGap thisDisk comment) =
        .ok (directoryEntries k 0 ms, summary) ∧
      summary.diskNumber = 0 ∧ summary.cdStartDisk = 0 := by
  have hplain := plainDirectory_writeArchive thisDisk hms hcount hoffset hsize hcomment
  have hrec : eocdOf (writeArchive k ms lastGap thisDisk comment)
      (localPart ms ++ lastGap ++ directory k 0 ms).length = writtenEocd k ms lastGap comment :=
    eocdOf_writeEocd _ (writtenEocd_fits hcount hoffset hsize hcomment) comment
  have hlen := length_writeArchive_le thisDisk hoffset hsize hcomment
  have hplaced := hplain.directoryOf_placed (P := []) (T := [])
    (by
      rw [List.append_nil, List.nil_append, List.length_nil, Nat.zero_add]
      exact ⟨hplain.eocd, hlast⟩)
    (by
      rw [List.append_nil, writeArchive]
      generalize localPart ms ++ lastGap ++ directory k 0 ms = front
      rw [List.length_append, length_writeEocd]
      unfold eocdScanMax
      omega)
    (by rwa [List.append_nil, List.nil_append]) (fun h => absurd rfl h)
    fun h => absurd rfl h
  rw [List.append_nil, List.nil_append, List.length_nil, CentralEntry.shift_zero, List.map_id]
    at hplaced
  refine ⟨_, hplaced, ?_, ?_⟩
  · rw [plainSummary, hrec]
    rfl
  · rw [plainSummary, hrec]
    rfl

end Written

/-! ## Reading back -/

/-- Every member opens where its data was written, and its data is what its window shows. -/
theorem openedPlain_written {ms : List Member} {lastGap comment : Bytes} {thisDisk i : Nat}
    {m : Member} (hm : m.WellFormed) (hi : ms[i]? = some m)
    (hlen : (writeArchive k ms lastGap thisDisk comment).length ≤ isizeMax) :
    (openedPlain (writeArchive k ms lastGap thisDisk comment)
        (m.entry k ((localPart (ms.take i)).length + m.gap.length)) 0 0 :
        Res ZipCoreError (ZipFile k (Window IoError))) =
      .ok (storedFile (m.entry k ((localPart (ms.take i)).length + m.gap.length))
        (payloadStart ms i m) m.payload) := by
  obtain ⟨rest, haround⟩ := writeArchive_around (k := k) lastGap comment thisDisk hi
  rw [haround] at hlen ⊢
  obtain ⟨fields, hlfh⟩ := LocalHeader.lfhAt_bytes m.loc hm.name hm.localExtra hlen
  have hstart : payloadStart ms i m =
      ((localPart (ms.take i) ++ m.gap) ++ m.header).length := by
    rw [List.length_append, List.length_append]
    rfl
  have hdata : slice ((localPart (ms.take i) ++ m.gap) ++ (m.header ++ (m.payload ++ rest)))
      (payloadStart ms i m) m.payload.length = m.payload := by
    rw [hstart, ← List.append_assoc]
    exact slice_middle _ _ _
  rw [← List.length_append]
  have hdisk : checkLocalDisk (m.entry k (localPart (ms.take i) ++ m.gap).length) 0 0 = .ok () := rfl
  have hopen := openedPlain_stored (k := k) hdisk hm.plain rfl hlfh
  rw [← Member.header, ← hstart] at hopen
  rw [hopen]
  congr 2

/-- An archive of any stored members, in any layout, opens to them: their names in order,
and behind each index its payload where it was written. -/
theorem writeArchive_reads_back {ms : List Member} {lastGap comment : Bytes} {thisDisk : Nat}
    (hms : ∀ m ∈ ms, m.WellFormed) (hcount : ms.length < u16Sentinel)
    (hoffset : (localPart ms ++ lastGap).length < u32Sentinel)
    (hsize : (directory k 0 ms).length < u32Sentinel) (hcomment : comment.length ≤ 65535)
    (hlast : ∀ q, (localPart ms ++ lastGap ++ directory k 0 ms).length < q →
      ¬ EocdAt (writeArchive k ms lastGap thisDisk comment) q) (pos : Nat) :
    ∃ a, ZipArchive.new ⟨writeArchive k ms lastGap thisDisk comment, pos⟩ = .ok a ∧
      a.len = ms.length ∧ a.fileNames = ms.map (fun m => decodeName m.rawName m.flags) ∧
      ∀ i m, ms[i]? = some m → ∃ f : ZipFile k (Take Source), a.byIndex i = .ok f ∧
        f.dataStart = payloadStart ms i m ∧ f.size = m.payload.length ∧
        (readToEnd f).1 = .ok m.payload := by
  obtain ⟨summary, hdir, hdisk, hcdDisk⟩ :=
    directoryOf_writeArchive thisDisk hms hcount hoffset hsize hcomment hlast
  have hlen := length_writeArchive_le thisDisk hoffset hsize hcomment
  obtain ⟨pos', hnew⟩ := new_of_directoryOf hdir pos
  refine ⟨_, hnew, length_directoryEntries ms 0, name_directoryEntries ms 0, fun i m hi => ?_⟩
  have hentry := directoryEntries_getElem? (k := k) 0 hi
  rw [Nat.zero_add] at hentry
  have hview := view_open (k := k) ⟨⟨writeArchive k ms lastGap thisDisk comment, pos'⟩,
    directoryEntries k 0 ms, summary⟩ (m.entry k ((localPart (ms.take i)).length + m.gap.length))
  dsimp only at hview
  rw [hdisk, hcdDisk, openedPlain_written (hms m (List.mem_of_getElem? hi)) hi hlen] at hview
  obtain ⟨f, hf, hmap⟩ := exists_of_view hview
  refine ⟨f, ?_, congrArg ZipFile.dataStart hmap, congrArg ZipFile.size hmap, ?_⟩
  · rw [ZipArchive.byIndex]
    dsimp only
    rw [hentry]
    exact hf
  · rw [readToEnd_view, hmap, readToEnd_stored]
    exact if_pos rfl

/-- A member `name` with `payload`, behind one stray byte; `wide` sends its sizes and
offset through a Zip64 record that follows a timestamp record. -/
def sampleMember (name : UInt8) (payload : Bytes) (wide : Bool) : Member where
  gap := [0xFF]
  loc := { versionNeeded := 20, flags := 0, method := 0, modTime := 0, modDate := 0, crc32 := 0,
           compressedSize := 0, uncompressedSize := 0 }
  rawName := [name]
  localExtra := [0x55, 0x54, 0, 0]
  payload := payload
  flags := 0
  versionMadeBy := 45
  versionNeeded := 45
  modTime := 0
  modDate := 0
  internalAttrs := 0
  externalAttrs := 0
  wideUncompressed := wide
  wideCompressed := wide
  wideOffset := wide
  before := [⟨0x5455, [1, 0, 0, 0, 0]⟩]
  after := []
  zip64Tail := []
  comment := []

theorem sampleMember_wellFormed (name : UInt8) (payload : Bytes) (wide : Bool) :
    (sampleMember name payload wide).WellFormed where
  name := show 1 < 2 ^ 16 by decide
  localExtra := show 4 < 2 ^ 16 by decide
  flags := Nat.pos_of_neZero _
  plain := by simp [sampleMember]
  modTime := Nat.pos_of_neZero _
  extra _ := by
    cases wide <;> simp [Member.extraRecords, Member.wide, sampleMember, extraBlock,
      ExtraRecord.bytes, zip64Values]
  first _ := by
    intro r hr
    obtain rfl : r = ⟨0x5455, [1, 0, 0, 0, 0]⟩ := by simpa [sampleMember] using hr
    exact ⟨⟨by decide, by decide⟩, by decide⟩
  comment := Nat.pos_of_neZero _

theorem sampleMembers_read_back :
    ∃ a, ZipArchive.new ⟨writeArchive .plain [sampleMember 0x61 [1, 2, 3] true,
        sampleMember 0x62 [4] false] [] 2 [0x21], 0⟩ = .ok a ∧ a.fileNames = ["a", "b"] ∧
      ∃ f : ZipFile .plain (Take Source), a.byIndex 1 = .ok f ∧ f.dataStart = 75 ∧
        (readToEnd f).1 = .ok [4] := by
  have hlast : LastEocd (writeArchive .plain [sampleMember 0x61 [1, 2, 3] true,
      sampleMember 0x62 [4] false] [] 2 [0x21]) 216 := (findEocd_iff _ _).1 (by decide +kernel)
  obtain ⟨a, hnew, -, hnames, hmembers⟩ := @writeArchive_reads_back .plain
    [sampleMember 0x61 [1, 2, 3] true, sampleMember 0x62 [4] false] [] [0x21] 2 (by simp [sampleMember_wellFormed]) (by decide +kernel)
    (by decide +kernel) (by decide +kernel) (by decide) hlast.last 0
  obtain ⟨f, hf, hstart, -, hread⟩ := hmembers 1 _ rfl
  refine ⟨a, hnew, ?_, f, hf, ?_, hread⟩
  · rw [hnames]
    decide +kernel
  · rw [hstart]
    decide +kernel

end ZipForensic
