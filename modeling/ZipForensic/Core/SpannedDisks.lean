import ZipForensic.Core.ExtraFields
import ZipForensic.Core.RawHeaders

/-!
# Disk numbers of spanned archives

A 16-bit disk field of the EOCD record or of a central header is the sentinel `0xFFFF`
where the number stands in a Zip64 record. The parser takes the disk numbers of the Zip64
EOCD record all together, if an offset, a size or the entry count is a sentinel, and takes
the disk number of an entry from its central header alone.

- `DiskFields`: the disk numbers behind an entry; `resolvedDisks`: field by field through the
  Zip64 records.
- `byIndex_isSpanned_iff`: what `by_index` refuses, by the numbers the parser kept;
  `disks_of_directoryOf`: which ones these are.
- `SentinelKept`, `EndRecordsConflict`: the files on which the two differ in whether a number
  is non-zero (`allZero_parsed_iff`).
-/

namespace ZipForensic

variable {k : Crates}

/-- The disk numbers that decide about an entry. -/
structure DiskFields where
  /-- The disk that holds the entry's local header. -/
  entry : Nat
  /-- The number of the disk that holds the EOCD record. -/
  thisDisk : Nat
  /-- The disk on which the central directory starts. -/
  cdStart : Nat
deriving DecidableEq, Repr

/-- Everything lies on the first disk. -/
def DiskFields.AllZero (d : DiskFields) : Prop := d.entry = 0 ∧ d.thisDisk = 0 ∧ d.cdStart = 0

/-! ## Resolution field by field -/

/-- Where the locator in front of the EOCD record at `p` says the Zip64 EOCD record is. -/
def zip64Offset (F : Bytes) (p : Nat) : Nat := leNat (slice F (p - zip64LocatorLen + 8) 8)

/-- A Zip64 EOCD record is there, behind its locator right in front of the EOCD record. -/
def HasZip64Eocd (F : Bytes) (p : Nat) : Prop :=
  zip64LocatorLen ≤ p ∧ leNat (slice F (p - zip64LocatorLen) 4) = zip64LocatorSig ∧
    zip64Offset F p + 56 ≤ F.length ∧ leNat (slice F (zip64Offset F p) 4) = zip64EocdSig

instance (F : Bytes) (p : Nat) : Decidable (HasZip64Eocd F p) := inferInstanceAs (Decidable (_ ∧ _))

/-- The disk numbers of the Zip64 EOCD record. -/
def zip64ThisDisk (F : Bytes) (p : Nat) : Nat := leNat (slice F (zip64Offset F p + 16) 4)

def zip64CdStart (F : Bytes) (p : Nat) : Nat := leNat (slice F (zip64Offset F p + 20) 4)

/-- The extra block of the central header at `h`. -/
def centralExtra (F : Bytes) (h : Nat) : Bytes :=
  slice F (h + 46 + leNat (slice F (h + 28) 2)) (leNat (slice F (h + 30) 2))

/-- The bytes of the 64-bit fields that the sentinels of the central header at `h` select. -/
def selectedBytes (F : Bytes) (h : Nat) : Nat :=
  zip64Needed (leNat (slice F (h + 24) 4) = u32Sentinel) (leNat (slice F (h + 20) 4) = u32Sentinel)
    (leNat (slice F (h + 42) 4) = u32Sentinel)

/-- The disk number behind the selected 64-bit fields of a Zip64 record. -/
def ExtraRecord.diskField (selected : Nat) (r : ExtraRecord) : Option Nat :=
  if selected + 4 ≤ r.data.length then some (leNat (slice r.data selected 4)) else none

/-- The disk number of the entry in its Zip64 record. -/
def zip64EntryDisk (F : Bytes) (h : Nat) : Option Nat :=
  (firstRecord zip64ExtraId (records (centralExtra F h))).bind
    (ExtraRecord.diskField (selectedBytes F h))

/-- The disk numbers after Zip64 resolution: a sentinel stands for the number in the Zip64
record, where there is one. -/
def resolvedDisks (F : Bytes) (p h : Nat) : DiskFields where
  entry := if centralDisk F h = u16Sentinel then (zip64EntryDisk F h).getD u16Sentinel
    else centralDisk F h
  thisDisk := if (eocdOf F p).diskNumber = u16Sentinel ∧ HasZip64Eocd F p then zip64ThisDisk F p
    else (eocdOf F p).diskNumber
  cdStart := if (eocdOf F p).cdStartDisk = u16Sentinel ∧ HasZip64Eocd F p then zip64CdStart F p
    else (eocdOf F p).cdStartDisk

/-! ## The numbers the parser keeps -/

/-- The disk numbers as the parser takes them. -/
def parsedDisks (F : Bytes) (p h : Nat) : DiskFields where
  entry := centralDisk F h
  thisDisk := if (eocdOf F p).isZip64 then zip64ThisDisk F p else (eocdOf F p).diskNumber
  cdStart := if (eocdOf F p).isZip64 then zip64CdStart F p else (eocdOf F p).cdStartDisk

theorem parseRes_parseZip64Locator {b : Bytes} (hb : zip64LocatorLen ≤ b.length) {off : Nat}
    (h : parseRes parseZip64Locator b = .ok off) :
    leNat (slice b 0 4) = zip64LocatorSig ∧ off = leNat (slice b 8 8) := by
  unfold zip64LocatorLen at hb
  have hsig := Reader.runOn_u32_at (b := b) (i := 0) (by omega)
  rw [List.drop_zero] at hsig
  unfold parseRes parseZip64Locator at h
  rw [Reader.runOn_bind_ok _ hsig] at h
  by_cases hmatch : leNat (slice b 0 4) = zip64LocatorSig
  · rw [if_neg (not_not.mpr hmatch)] at h
    have hdisk := Reader.runOn_u32_at (b := b) (i := 4) (by omega)
    have hoff := Reader.runOn_u64_at (b := b) (i := 8) (by omega)
    dsimp only at h
    rw [Reader.runOn_bind_ok _ hdisk, hoff] at h
    exact ⟨hmatch, (Except.ok.inj h).symm⟩
  · rw [if_pos hmatch] at h
    cases h

theorem parseRes_parseZip64Eocd {b : Bytes} (hb : 56 ≤ b.length) {recordOffset : Nat}
    {x : Nat × Nat × Nat × Nat × Nat} (h : parseRes (parseZip64Eocd recordOffset) b = .ok x) :
    leNat (slice b 0 4) = zip64EocdSig ∧ x.2.2.2.1 = leNat (slice b 16 4) ∧
      x.2.2.2.2 = leNat (slice b 20 4) := by
  have hsig := Reader.runOn_u32_at (b := b) (i := 0) (by omega)
  rw [List.drop_zero] at hsig
  unfold parseRes parseZip64Eocd at h
  rw [Reader.runOn_bind_ok _ hsig] at h
  by_cases hmatch : leNat (slice b 0 4) = zip64EocdSig
  · rw [if_neg (not_not.mpr hmatch)] at h
    dsimp only at h
    rw [Reader.runOn_bind_ok _ (Reader.runOn_u64_at (by omega)),
      Reader.runOn_bind_ok _ (Reader.runOn_u16_at (by omega)),
      Reader.runOn_bind_ok _ (Reader.runOn_u16_at (by omega)),
      Reader.runOn_bind_ok _ (Reader.runOn_u32_at (by omega)),
      Reader.runOn_bind_ok _ (Reader.runOn_u32_at (by omega)),
      Reader.runOn_bind_ok _ (Reader.runOn_u64_at (by omega)),
      Reader.runOn_bind_ok _ (Reader.runOn_u64_at (by omega)),
      Reader.runOn_bind_ok _ (Reader.runOn_u64_at (by omega)),
      Reader.runOn_bind_ok _ (Reader.runOn_u64_at (by omega))] at h
    obtain rfl := Except.ok.inj h
    exact ⟨hmatch, rfl, rfl⟩
  · rw [if_pos hmatch] at h
    cases h

/-- A resolved Zip64 EOCD record is there, and its disk numbers are read. -/
theorem of_zip64At {F : Bytes} {p : Nat} (hp : LastEocd F p) (hstart : scanStart F ≤ p)
    {x : Nat × Nat × Nat × Nat × Nat} (h : zip64At F (scanTail F) (p - scanStart F) = .ok x) :
    HasZip64Eocd F p ∧ x.2.2.2.1 = zip64ThisDisk F p ∧ x.2.2.2.2 = zip64CdStart F p := by
  have hroom := hp.here.1
  unfold zip64At at h
  by_cases hlocator : p - scanStart F < zip64LocatorLen
  · -- no room for a locator in front of the record
    rw [if_pos hlocator] at h
    cases h
  rw [if_neg hlocator] at h
  have hslice : slice (scanTail F) (p - scanStart F - zip64LocatorLen) zip64LocatorLen =
      slice F (p - zip64LocatorLen) zip64LocatorLen := by
    rw [scanTail_eq, slice, List.drop_drop, slice]
    congr 2
    omega
  rw [hslice] at h
  obtain ⟨off, hoff, h⟩ := Res.of_bind_ok h
  unfold eocdMin at hroom
  obtain ⟨hsig, rfl⟩ := parseRes_parseZip64Locator
    (Nat.le_of_eq (length_slice (by omega)).symm) hoff
  rw [slice_slice (by decide), Nat.add_zero] at hsig
  rw [slice_slice (by decide)] at h
  split_ifs at h with hrecord
  · obtain ⟨hsig', hdisk, hcd⟩ := parseRes_parseZip64Eocd
      (Nat.le_of_eq (length_slice hrecord).symm) h
    rw [slice_slice (by decide), Nat.add_zero] at hsig'
    rw [slice_slice (by decide)] at hdisk hcd
    exact ⟨⟨by omega, hsig, hrecord, hsig'⟩, hdisk, hcd⟩
  · cases h

/-- The disk numbers the parser keeps, and a Zip64 EOCD record where it took them there. -/
theorem disks_of_directoryOf {F : Bytes} {entries : List CentralEntry} {summary : ArchiveSummary}
    (h : directoryOf F = .ok (entries, summary)) {p : Nat} (hp : LastEocd F p) (header : Nat) :
    ((eocdOf F p).isZip64 = true → HasZip64Eocd F p) ∧
      summary.diskNumber = (parsedDisks F p header).thisDisk ∧
      summary.cdStartDisk = (parsedDisks F p header).cdStart := by
  unfold directoryOf at h
  split_ifs at h
  · cases h
  obtain ⟨found, hfind, h⟩ := Res.of_bind_ok h
  cases found with
  | none => cases h
  | some rel =>
    have hlast := (findEocd_tail_iff F rel).1 hfind
    obtain rfl := hlast.unique hp
    have hdrop : (scanTail F).drop rel = F.drop (scanStart F + rel) := by
      rw [scanTail_eq, List.drop_drop]
    dsimp only at h
    rw [hdrop, parseRes_parseEocd hp.here, Res.bind_ok] at h
    unfold directoryFrom resolvedEocd at h
    obtain ⟨eocdPos, -, h⟩ := Res.of_bind_ok h
    obtain ⟨recordEnd, -, h⟩ := Res.of_bind_ok h
    obtain ⟨eocdEnd, -, h⟩ := Res.of_bind_ok h
    obtain ⟨resolved, hresolved, h⟩ := Res.of_bind_ok h
    obtain ⟨pre, -, h⟩ := Res.of_bind_ok h
    obtain ⟨-, hdisk, hcd⟩ := parsed_of_directoryAt h
    unfold parsedDisks
    by_cases hzip : (eocdOf F (scanStart F + rel)).isZip64 = true
    · rw [if_pos hzip] at hresolved
      have hrel : scanStart F + rel - scanStart F = rel := by omega
      rw [← hrel] at hresolved
      obtain ⟨hhas, hthis, hstart⟩ := of_zip64At hp (by omega) hresolved
      dsimp only
      rw [if_pos hzip, if_pos hzip]
      exact ⟨fun _ => hhas, hdisk.trans hthis, hcd.trans hstart⟩
    · rw [if_neg hzip] at hresolved
      obtain rfl := Except.ok.inj hresolved
      dsimp only
      rw [if_neg hzip, if_neg hzip]
      exact ⟨fun hzip' => absurd hzip' hzip, hdisk, hcd⟩

/-! ## The refusal -/

/-- The error is the refusal of a spanned archive. -/
def ZipCoreError.IsSpanned (e : ZipCoreError) : Prop := ∃ entry disk, e = .spannedArchive entry disk

/-- An entry was refused as part of a spanned archive. -/
def Opened.IsSpanned (o : Opened k) : Prop :=
  ∃ e reader, o = .error (.error e, reader) ∧ e.IsSpanned

theorem not_isSpanned_io (e : IoError) : ¬ (ZipCoreError.io e).IsSpanned := by
  rintro ⟨entry, disk, h⟩
  cases h

theorem not_isSpanned_format (e : FormatError) : ¬ (ZipCoreError.format e).IsSpanned := by
  rintro ⟨entry, disk, h⟩
  cases h

section Decoders

variable {σ : Type} [Read IoError σ]

theorem not_isSpanned_of_decodeZipLzma {raw : Bytes} {expectedSize : Nat} {e : ZipCoreError}
    (h : decodeZipLzma k raw expectedSize = .error e) : ¬ e.IsSpanned := by
  unfold decodeZipLzma at h
  dsimp only at h
  split_ifs at h
  · obtain rfl := Except.error.inj h
    exact not_isSpanned_format _
  · obtain rfl := Except.error.inj h
    rintro ⟨entry, disk, h⟩
    cases h
  · cases hshot : decodeCapped k maxBufferedDecode (k.lzma expectedSize (raw.drop 4)) with
    | ok out =>
      rw [hshot] at h
      cases h
    | error io =>
      rw [hshot] at h
      obtain rfl := Except.error.inj h
      exact not_isSpanned_io _

theorem not_isSpanned_of_drain {K : Codec IoError} {p : Pipe K σ} {e : ZipCoreError} {input : σ}
    (h : (Decoder.drain p : Except (ZipCoreError × σ) (Decoder k σ)) = .error (e, input)) :
    ¬ e.IsSpanned := by
  unfold Decoder.drain at h
  rcases hread : readCapped maxBufferedDecode p with ⟨io | decoded, p'⟩
  · rw [hread] at h
    obtain ⟨rfl, -⟩ := Prod.mk.inj (Except.error.inj h)
    exact not_isSpanned_io _
  · rw [hread] at h
    cases h

theorem not_isSpanned_of_drainWith {decode : Bytes → Except ZipCoreError Bytes} {start input : σ}
    {e : ZipCoreError} (hdecode : ∀ raw e, decode raw = .error e → ¬ e.IsSpanned)
    (h : (Decoder.drainWith decode start : Except (ZipCoreError × σ) (Decoder k σ)) =
      .error (e, input)) : ¬ e.IsSpanned := by
  unfold Decoder.drainWith at h
  rcases hread : readToEnd start with ⟨io | raw, rest⟩
  · rw [hread] at h
    obtain ⟨rfl, -⟩ := Prod.mk.inj (Except.error.inj h)
    exact not_isSpanned_io _
  · rw [hread] at h
    dsimp only at h
    cases hraw : decode raw with
    | ok out =>
      rw [hraw] at h
      cases h
    | error e' =>
      rw [hraw] at h
      obtain ⟨rfl, -⟩ := Prod.mk.inj (Except.error.inj h)
      exact hdecode raw e' hraw

/-- No decoder is refused as part of a spanned archive. -/
theorem not_isSpanned_of_new {method : CompressionMethod} {expectedSize : Nat} {start input : σ}
    {e : ZipCoreError}
    (h : (Decoder.new method expectedSize start : Except (ZipCoreError × σ) (Decoder k σ)) =
      .error (e, input)) : ¬ e.IsSpanned := by
  have hunsupported : ∀ m, ¬ (ZipCoreError.unsupportedMethod m).IsSpanned := by
    rintro m ⟨entry, disk, h⟩
    cases h
  cases method with
  | stored => cases h
  | deflated => cases h
  | deflate64 => cases h
  | bzip2 => exact not_isSpanned_of_drain h
  | zstd =>
    unfold Decoder.new at h
    dsimp only at h
    rcases hcall : (⟨k.ruzstd.init, start⟩ : Pipe k.ruzstd σ).call .new with ⟨io | out, p⟩
    · rw [hcall] at h
      obtain ⟨rfl, -⟩ := Prod.mk.inj (Except.error.inj h)
      exact not_isSpanned_io _
    · rw [hcall] at h
      exact not_isSpanned_of_drain h
  | lzma => exact not_isSpanned_of_drainWith (fun raw e => not_isSpanned_of_decodeZipLzma) h
  | xz =>
    refine not_isSpanned_of_drainWith (fun raw e hraw => ?_) h
    cases hshot : decodeCapped k maxBufferedDecode (k.xz raw) with
    | ok out =>
      rw [hshot] at hraw
      cases hraw
    | error io =>
      rw [hshot] at hraw
      obtain rfl := Except.error.inj hraw
      exact not_isSpanned_io _
  | _ =>
    obtain ⟨rfl, -⟩ := Prod.mk.inj (Except.error.inj h)
    exact hunsupported _

end Decoders

theorem not_isSpanned_of_lfhAt {F : Bytes} {off : Nat} {e : ZipCoreError}
    (h : lfhAt F off = .error (.error e)) : ¬ e.IsSpanned := by
  have haddU64 : ∀ a b, (addU64 a b : Res ZipCoreError Nat) ≠ .error (.error e) := fun a b => by
    unfold addU64
    split_ifs <;> simp
  unfold lfhAt at h
  by_cases hfixed : off + lfhFixed ≤ F.length
  · rw [if_pos hfixed] at h
    rcases hparse : Reader.runOn (parseLfhFixed off) (slice F off lfhFixed) with
      format | ⟨⟨flags, method, crc32, csize, usize, nameLen, extraLen⟩, rest⟩
    · rw [hparse] at h
      obtain rfl := Fault.error.inj (Except.error.inj h)
      exact not_isSpanned_format _
    · rw [hparse] at h
      dsimp only at h
      by_cases hname : off + lfhFixed + nameLen ≤ F.length
      · rw [if_pos hname] at h
        obtain h | ⟨nameStart, -, h⟩ := Res.of_bind_error h
        · exact absurd h (haddU64 _ _)
        obtain h | ⟨extraStart, -, h⟩ := Res.of_bind_error h
        · exact absurd h (haddU64 _ _)
        obtain h | ⟨dataStart, -, h⟩ := Res.of_bind_error h
        · exact absurd h (haddU64 _ _)
        · cases h
      · rw [if_neg hname] at h
        obtain rfl := Fault.error.inj (Except.error.inj h)
        exact not_isSpanned_io _
  · rw [if_neg hfixed] at h
    obtain rfl := Fault.error.inj (Except.error.inj h)
    exact not_isSpanned_io _

theorem not_isSpanned_of_openedAt {F : Bytes} {m : CentralEntry} {e : ZipCoreError}
    (h : (openedAt F m (ZipFile.openPlain m) : Res ZipCoreError (ZipFile k (Window IoError))) =
      .error (.error e)) : ¬ e.IsSpanned := by
  unfold openedAt at h
  obtain h | ⟨⟨fields, dataStart⟩, -, h⟩ := Res.of_bind_error h
  · exact not_isSpanned_of_lfhAt h
  · dsimp only at h
    unfold ZipFile.openPlain ZipFile.decode at h
    rcases hnew : (Decoder.new m.method m.uncompressedSize
        (.plain ⟨slice F dataStart m.compressedSize⟩) :
      Except (ZipCoreError × EntryReader k (Window IoError)) _) with ⟨e', reader⟩ | decoder
    · rw [hnew] at h
      obtain rfl := Fault.error.inj (Except.error.inj h)
      exact not_isSpanned_of_new hnew
    · rw [hnew] at h
      cases h

/-- `by_index` refuses an entry as part of a spanned archive exactly if one of the numbers
that the parser kept is not zero. -/
theorem open_isSpanned_iff (a : ZipArchive) (m : CentralEntry) :
    (a.open m : Opened k).IsSpanned ↔
      ¬ (DiskFields.mk m.diskStart a.summary.diskNumber a.summary.cdStartDisk).AllZero := by
  have hview := view_open (k := k) a m
  unfold openedPlain checkLocalDisk at hview
  unfold DiskFields.AllZero
  constructor
  · rintro ⟨e, reader, hopen, hspanned⟩ ⟨hentry, hthis, hcd⟩
    dsimp only at hentry hthis hcd
    rw [hopen, if_neg (not_not.mpr hentry), if_neg (not_not.mpr hcd),
      if_neg (not_not.mpr hthis)] at hview
    simp only [Res.lift, Res.bind_ok] at hview
    by_cases hflag : m.flags &&& 0x0001 ≠ 0
    · rw [if_pos hflag] at hview
      obtain rfl := Fault.error.inj (Except.error.inj hview)
      obtain ⟨entry, disk, h⟩ := hspanned
      cases h
    · rw [if_neg hflag] at hview
      exact not_isSpanned_of_openedAt hview.symm hspanned
  · intro hnonzero
    unfold ZipArchive.open checkLocalDisk
    by_cases hentry : m.diskStart = 0
    · by_cases hcd : a.summary.cdStartDisk = 0
      · have hthis : a.summary.diskNumber ≠ 0 := fun hthis => hnonzero ⟨hentry, hthis, hcd⟩
        rw [if_neg (not_not.mpr hentry), if_neg (not_not.mpr hcd), if_pos hthis]
        exact ⟨_, _, rfl, _, _, rfl⟩
      · rw [if_neg (not_not.mpr hentry), if_pos hcd]
        exact ⟨_, _, rfl, _, _, rfl⟩
    · rw [if_pos hentry]
      exact ⟨_, _, rfl, _, _, rfl⟩

/-- The same through the file: the parsed disk numbers of the entry's header. -/
theorem byIndex_isSpanned_iff {F : Bytes} {pos p i : Nat} {a : ZipArchive}
    (hnew : ZipArchive.new ⟨F, pos⟩ = .ok a) (hp : LastEocd F p) (hi : i < a.len) :
    (a.byIndex i : Opened k).IsSpanned ↔
      ¬ (parsedDisks F p (centralOffset F a.summary.centralDirOffset i)).AllZero := by
  obtain ⟨-, hdir⟩ := reader_of_new hnew
  obtain ⟨m, hm⟩ : ∃ m, a.entries[i]? = some m := ⟨_, List.getElem?_eq_getElem hi⟩
  obtain ⟨-, hthis, hcd⟩ := disks_of_directoryOf hdir hp
    (centralOffset F a.summary.centralDirOffset i)
  unfold ZipArchive.byIndex
  rw [hm]
  dsimp only
  rw [open_isSpanned_iff, (decodes_central hdir hm).diskStart, hthis, hcd]
  rfl

/-! ## Where the two differ -/

/-- Every number resolves to zero, but the parser keeps a sentinel: the one of the central
header, or one of the EOCD record where no offset, size or count is a sentinel too. -/
def SentinelKept (F : Bytes) (p h : Nat) : Prop :=
  (resolvedDisks F p h).AllZero ∧
    (centralDisk F h = u16Sentinel ∨
      (eocdOf F p).isZip64 = false ∧
        ((eocdOf F p).diskNumber = u16Sentinel ∨ (eocdOf F p).cdStartDisk = u16Sentinel))

/-- The two end records contradict each other, and the parser follows the Zip64 one in a
field that is no sentinel: it takes a disk number where all resolve to zero, or zero where
the EOCD record says another disk. -/
def EndRecordsConflict (F : Bytes) (p h : Nat) : Prop :=
  (eocdOf F p).isZip64 = true ∧
    ((resolvedDisks F p h).AllZero ∧ ¬ (zip64ThisDisk F p = 0 ∧ zip64CdStart F p = 0) ∨
      centralDisk F h = 0 ∧ zip64ThisDisk F p = 0 ∧ zip64CdStart F p = 0 ∧
        ((eocdOf F p).diskNumber ≠ 0 ∧ (eocdOf F p).diskNumber ≠ u16Sentinel ∨
          (eocdOf F p).cdStartDisk ≠ 0 ∧ (eocdOf F p).cdStartDisk ≠ u16Sentinel))

section Agreement

variable {F : Bytes} {p h : Nat}

/-- A field that stands for another one where it is a sentinel. -/
theorem ite_eq_zero_iff {c : Prop} [Decidable c] {x y : Nat} (hc : c → x ≠ 0) :
    (if c then y else x) = 0 ↔ x = 0 ∨ c ∧ y = 0 := by
  by_cases h : c
  · rw [if_pos h]
    exact ⟨fun hy => .inr ⟨h, hy⟩, fun hxy => (hxy.resolve_left (hc h)).2⟩
  · rw [if_neg h]
    exact ⟨.inl, fun hxy => hxy.resolve_right fun hy => h hy.1⟩

theorem allZero_resolved_iff :
    (resolvedDisks F p h).AllZero ↔
      (centralDisk F h = 0 ∨
        centralDisk F h = u16Sentinel ∧ (zip64EntryDisk F h).getD u16Sentinel = 0) ∧
      ((eocdOf F p).diskNumber = 0 ∨
        ((eocdOf F p).diskNumber = u16Sentinel ∧ HasZip64Eocd F p) ∧ zip64ThisDisk F p = 0) ∧
      ((eocdOf F p).cdStartDisk = 0 ∨
        ((eocdOf F p).cdStartDisk = u16Sentinel ∧ HasZip64Eocd F p) ∧ zip64CdStart F p = 0) := by
  have hsentinel : ∀ x, x = u16Sentinel → x ≠ 0 := by
    rintro x rfl
    decide
  rw [DiskFields.AllZero, resolvedDisks, ite_eq_zero_iff (hsentinel _),
    ite_eq_zero_iff fun hc => hsentinel _ hc.1, ite_eq_zero_iff fun hc => hsentinel _ hc.1]

/-- Without a Zip64 record the parser keeps the 16-bit fields, sentinels and all. -/
theorem allZero_parsed_of_plain (hzip : (eocdOf F p).isZip64 = false) :
    (parsedDisks F p h).AllZero ↔
      centralDisk F h = 0 ∧ (eocdOf F p).diskNumber = 0 ∧ (eocdOf F p).cdStartDisk = 0 := by
  rw [DiskFields.AllZero, parsedDisks, hzip]
  exact Iff.rfl

/-- With one it takes both numbers from there. -/
theorem allZero_parsed_of_zip64 (hzip : (eocdOf F p).isZip64 = true) :
    (parsedDisks F p h).AllZero ↔
      centralDisk F h = 0 ∧ zip64ThisDisk F p = 0 ∧ zip64CdStart F p = 0 := by
  rw [DiskFields.AllZero, parsedDisks, hzip]
  exact Iff.rfl

theorem allZero_iff_of_plain (hzip : (eocdOf F p).isZip64 = false) :
    ((parsedDisks F p h).AllZero ↔ (resolvedDisks F p h).AllZero) ↔ ¬ SentinelKept F p h := by
  have hsentinel : u16Sentinel ≠ 0 := by decide
  rw [allZero_parsed_of_plain hzip]
  constructor
  · rintro hiff ⟨hzero, hkept⟩
    obtain ⟨hentry, hthis, hstart⟩ := hiff.2 hzero
    rcases hkept with hkept | ⟨-, hkept | hkept⟩
    · exact hsentinel (hkept.symm.trans hentry)
    · exact hsentinel (hkept.symm.trans hthis)
    · exact hsentinel (hkept.symm.trans hstart)
  · intro hkept
    constructor
    · rintro ⟨hentry, hthis, hstart⟩
      exact allZero_resolved_iff.2 ⟨.inl hentry, .inl hthis, .inl hstart⟩
    · -- a field that resolves to zero and is not zero is a sentinel
      intro hzero
      obtain ⟨hentry, hthis, hstart⟩ := allZero_resolved_iff.1 hzero
      exact ⟨hentry.resolve_right fun hs => hkept ⟨hzero, .inl hs.1⟩,
        hthis.resolve_right fun hs => hkept ⟨hzero, .inr ⟨hzip, .inl hs.1.1⟩⟩,
        hstart.resolve_right fun hs => hkept ⟨hzero, .inr ⟨hzip, .inr hs.1.1⟩⟩⟩

theorem allZero_iff_of_zip64 (hzip : (eocdOf F p).isZip64 = true) (hhas : HasZip64Eocd F p) :
    ((parsedDisks F p h).AllZero ↔ (resolvedDisks F p h).AllZero) ↔
      ¬ SentinelKept F p h ∧ ¬ EndRecordsConflict F p h := by
  have hsentinel : u16Sentinel ≠ 0 := by decide
  rw [allZero_parsed_of_zip64 hzip]
  constructor
  · intro hiff
    constructor
    · rintro ⟨hzero, hkept | ⟨hplain, -⟩⟩
      · exact hsentinel (hkept.symm.trans (hiff.2 hzero).1)
      · cases hplain.symm.trans hzip
    · rintro ⟨-, ⟨hzero, hnot⟩ | ⟨hentry, hthis', hstart', hother⟩⟩
      · exact hnot (hiff.2 hzero).2
      · obtain ⟨-, hthis, hstart⟩ := allZero_resolved_iff.1 (hiff.1 ⟨hentry, hthis', hstart'⟩)
        rcases hother with ⟨hne, hno⟩ | ⟨hne, hno⟩
        · exact hthis.elim hne fun hs => hno hs.1.1
        · exact hstart.elim hne fun hs => hno hs.1.1
  · rintro ⟨hkept, hconflict⟩
    constructor
    · -- a field of the EOCD record that is neither zero nor a sentinel is a conflict
      rintro ⟨hentry, hthis', hstart'⟩
      refine allZero_resolved_iff.2 ⟨.inl hentry, ?_, ?_⟩
      · by_contra hother
        obtain ⟨hne, hno⟩ := not_or.1 hother
        exact hconflict ⟨hzip, .inr ⟨hentry, hthis', hstart',
          .inl ⟨hne, fun hs => hno ⟨⟨hs, hhas⟩, hthis'⟩⟩⟩⟩
      · by_contra hother
        obtain ⟨hne, hno⟩ := not_or.1 hother
        exact hconflict ⟨hzip, .inr ⟨hentry, hthis', hstart',
          .inr ⟨hne, fun hs => hno ⟨⟨hs, hhas⟩, hstart'⟩⟩⟩⟩
    · intro hzero
      have hentry := (allZero_resolved_iff.1 hzero).1
      have hrecord : zip64ThisDisk F p = 0 ∧ zip64CdStart F p = 0 := by
        by_contra hnot
        exact hconflict ⟨hzip, .inl ⟨hzero, hnot⟩⟩
      exact ⟨hentry.resolve_right fun hs => hkept ⟨hzero, .inl hs.1⟩, hrecord⟩

/-- The parser's numbers and the resolved ones agree on whether all are zero exactly if no
sentinel is kept and the end records do not contradict each other. -/
theorem allZero_parsed_iff (hhas : (eocdOf F p).isZip64 = true → HasZip64Eocd F p) :
    ((parsedDisks F p h).AllZero ↔ (resolvedDisks F p h).AllZero) ↔
      ¬ SentinelKept F p h ∧ ¬ EndRecordsConflict F p h := by
  cases hzip : (eocdOf F p).isZip64 with
  | true => exact allZero_iff_of_zip64 hzip (hhas hzip)
  | false =>
    have hagree : ¬ EndRecordsConflict F p h := fun hconflict => by
      cases hzip.symm.trans hconflict.1
    rw [allZero_iff_of_plain hzip, and_iff_left hagree]

/-- Where the EOCD record leaves everything to the Zip64 one, the two agree. -/
theorem agree_of_promoted (hzip : (eocdOf F p).isZip64 = true) (hhas : HasZip64Eocd F p)
    (hthis : (eocdOf F p).diskNumber = u16Sentinel) (hstart : (eocdOf F p).cdStartDisk = u16Sentinel)
    (hheader : centralDisk F h = 0) : ¬ SentinelKept F p h ∧ ¬ EndRecordsConflict F p h := by
  constructor
  · rintro ⟨-, hkept | ⟨hplain, -⟩⟩
    · cases hheader.symm.trans hkept
    · cases hplain.symm.trans hzip
  · rintro ⟨-, ⟨⟨-, hdisk, hcd⟩, hother⟩ | ⟨-, -, -, ⟨-, hno⟩ | ⟨-, hno⟩⟩⟩
    · dsimp only [resolvedDisks] at hdisk hcd
      rw [if_pos ⟨hthis, hhas⟩] at hdisk
      rw [if_pos ⟨hstart, hhas⟩] at hcd
      exact hother ⟨hdisk, hcd⟩
    · exact hno hthis
    · exact hno hstart

end Agreement

/-- `by_index` refuses an entry as part of a spanned archive exactly if a resolved disk
number is not zero, for just the files that keep no sentinel and whose end records do not
contradict each other. -/
theorem spannedRefusal_iff {F : Bytes} {pos p i : Nat} {a : ZipArchive}
    (hnew : ZipArchive.new ⟨F, pos⟩ = .ok a) (hp : LastEocd F p) (hi : i < a.len) :
    ((a.byIndex i : Opened k).IsSpanned ↔
        ¬ (resolvedDisks F p (centralOffset F a.summary.centralDirOffset i)).AllZero) ↔
      ¬ SentinelKept F p (centralOffset F a.summary.centralDirOffset i) ∧
        ¬ EndRecordsConflict F p (centralOffset F a.summary.centralDirOffset i) := by
  obtain ⟨-, hdir⟩ := reader_of_new hnew
  obtain ⟨hhas, -⟩ := disks_of_directoryOf hdir hp (centralOffset F a.summary.centralDirOffset i)
  rw [byIndex_isSpanned_iff hnew hp hi, not_iff_not, allZero_parsed_iff hhas]

/-- An empty member in an archive whose EOCD record has the given entry count and leaves both
disk numbers to its Zip64 record, which has the given one. -/
def sentinelArchive (entries : Bytes) (disk : UInt8) : Bytes :=
  -- local header, name
  [0x50, 0x4B, 0x03, 0x04, 45, 0, 0, 0, 0, 0, 0, 0, 0, 0, 0, 0, 0, 0,
    0, 0, 0, 0, 0, 0, 0, 0, 1, 0, 0, 0] ++ [0x6D] ++
  -- central header, name
  [0x50, 0x4B, 0x01, 0x02, 45, 0, 45, 0, 0, 0, 0, 0, 0, 0, 0, 0, 0, 0, 0, 0,
    0, 0, 0, 0, 0, 0, 0, 0, 1, 0, 0, 0, 0, 0, 0, 0, 0, 0, 0, 0, 0, 0, 0, 0, 0, 0] ++ [0x6D] ++
  -- Zip64 EOCD, locator
  [0x50, 0x4B, 0x06, 0x06, 44, 0, 0, 0, 0, 0, 0, 0, 45, 0, 45, 0, disk, 0, 0, 0, disk, 0, 0, 0,
    1, 0, 0, 0, 0, 0, 0, 0, 1, 0, 0, 0, 0, 0, 0, 0, 47, 0, 0, 0, 0, 0, 0, 0, 31, 0, 0, 0, 0, 0, 0, 0] ++
  [0x50, 0x4B, 0x06, 0x07, 0, 0, 0, 0, 78, 0, 0, 0, 0, 0, 0, 0, 1, 0, 0, 0] ++
  -- EOCD
  [0x50, 0x4B, 0x05, 0x06, 0xFF, 0xFF, 0xFF, 0xFF] ++ entries ++ entries ++
    [47, 0, 0, 0, 31, 0, 0, 0, 0, 0]

/-- What the parser makes of the archive, with the disk numbers it takes. -/
def sentinelDirectory (disk : Nat) : List CentralEntry × ArchiveSummary :=
  ([{ name := "m", method := .stored, flags := 0, crc32 := 0, compressedSize := 0,
      uncompressedSize := 0, lfhOffset := 0, lastModTime := 0, aes := none, diskStart := 0,
      extra := {} }],
    { fileLen := 176, centralDirOffset := 31, centralDirSize := 47, eocdEndOffset := 176,
      commentLen := 0, diskNumber := disk, cdStartDisk := disk, archiveSignatureLen := none })

/-- An EOCD record that leaves entry count and disk numbers to its Zip64 record: on the first
disk the entry is not refused, on the second it is. -/
theorem sentinelArchive_refused_iff :
    (∃ a, ZipArchive.new ⟨sentinelArchive [0xFF, 0xFF] 0, 0⟩ = .ok a ∧
      (resolvedDisks (sentinelArchive [0xFF, 0xFF] 0) 154 31).AllZero ∧
      ¬ (a.byIndex 0 : Opened .plain).IsSpanned) ∧
    (∃ a, ZipArchive.new ⟨sentinelArchive [0xFF, 0xFF] 1, 0⟩ = .ok a ∧
      ¬ (resolvedDisks (sentinelArchive [0xFF, 0xFF] 1) 154 31).AllZero ∧
      (a.byIndex 0 : Opened .plain).IsSpanned) := by
  have hfirst : directoryOf (sentinelArchive [0xFF, 0xFF] 0) = .ok (sentinelDirectory 0) := by
    decide +kernel
  have hsecond : directoryOf (sentinelArchive [0xFF, 0xFF] 1) = .ok (sentinelDirectory 1) := by
    decide +kernel
  have hzero : (resolvedDisks (sentinelArchive [0xFF, 0xFF] 0) 154 31).AllZero :=
    ⟨by decide +kernel, by decide +kernel, by decide +kernel⟩
  have hone : ¬ (resolvedDisks (sentinelArchive [0xFF, 0xFF] 1) 154 31).AllZero := fun h =>
    absurd h.2.1 (by decide +kernel)
  constructor
  · obtain ⟨pos, hnew⟩ := new_of_directoryOf hfirst 0
    have hlast : LastEocd (sentinelArchive [0xFF, 0xFF] 0) 154 :=
      (findEocd_iff _ _).1 (by decide +kernel)
    have hagree : ¬ SentinelKept (sentinelArchive [0xFF, 0xFF] 0) 154 31 ∧
        ¬ EndRecordsConflict (sentinelArchive [0xFF, 0xFF] 0) 154 31 :=
      agree_of_promoted (by decide +kernel) (by decide +kernel) (by decide +kernel)
        (by decide +kernel) (by decide +kernel)
    have hiff := (spannedRefusal_iff (k := .plain) hnew hlast Nat.zero_lt_one).2 hagree
    exact ⟨_, hnew, hzero, fun h => hiff.1 h hzero⟩
  · obtain ⟨pos, hnew⟩ := new_of_directoryOf hsecond 0
    have hlast : LastEocd (sentinelArchive [0xFF, 0xFF] 1) 154 :=
      (findEocd_iff _ _).1 (by decide +kernel)
    have hagree : ¬ SentinelKept (sentinelArchive [0xFF, 0xFF] 1) 154 31 ∧
        ¬ EndRecordsConflict (sentinelArchive [0xFF, 0xFF] 1) 154 31 :=
      agree_of_promoted (by decide +kernel) (by decide +kernel) (by decide +kernel)
        (by decide +kernel) (by decide +kernel)
    have hiff := (spannedRefusal_iff (k := .plain) hnew hlast Nat.zero_lt_one).2 hagree
    exact ⟨_, hnew, hone, hiff.2 hone⟩

/-- With a plain entry count the parser keeps the sentinels, and the member is refused
although every disk number resolves to zero. -/
theorem sentinelArchive_refused :
    ∃ a, ZipArchive.new ⟨sentinelArchive [1, 0] 0, 0⟩ = .ok a ∧
      LastEocd (sentinelArchive [1, 0] 0) 154 ∧ 0 < a.len ∧
      HasZip64Eocd (sentinelArchive [1, 0] 0) 154 ∧
      (resolvedDisks (sentinelArchive [1, 0] 0) 154
        (centralOffset (sentinelArchive [1, 0] 0) a.summary.centralDirOffset 0)).AllZero ∧
      (a.byIndex 0 : Opened .plain).IsSpanned := by
  have hdir : directoryOf (sentinelArchive [1, 0] 0) = .ok (sentinelDirectory 0xFFFF) := by
    decide +kernel
  obtain ⟨pos, hnew⟩ := new_of_directoryOf hdir 0
  have hlast : LastEocd (sentinelArchive [1, 0] 0) 154 :=
    (findEocd_iff _ _).1 (by decide +kernel)
  refine ⟨_, hnew, hlast, Nat.zero_lt_one, by decide +kernel, ?_, ?_⟩
  · show (resolvedDisks (sentinelArchive [1, 0] 0) 154 31).AllZero
    exact ⟨by decide +kernel, by decide +kernel, by decide +kernel⟩
  · rw [byIndex_isSpanned_iff hnew hlast Nat.zero_lt_one]
    rintro ⟨-, hthis, -⟩
    have hkept : (parsedDisks (sentinelArchive [1, 0] 0) 154 31).thisDisk = 0xFFFF := by
      decide +kernel
    cases hkept.symm.trans hthis

end ZipForensic
