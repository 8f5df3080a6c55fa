import ZipForensic.Core.Placement

/-!
# Container records as bytes

The records of the container written field by field, in the layout of the format, with
the law that the parser reads back what was written. Fields the parser skips are
parameters.

- `eocdFixed`, `writeEocd`: the EOCD record without and with its comment (`eocdOf_writeEocd`).
- `writeZip64Eocd`, `writeZip64Locator`: the Zip64 records in front of it.
- `CentralHeader`: a central-directory header (`runOn_parseCdEntry`).
- `LocalHeader`: a local header (`lfhAt_bytes`).
-/

namespace ZipForensic

/-! ## EOCD -/

/-- The fields of an EOCD record fit their widths. -/
structure Eocd32.Fits (e : Eocd32) : Prop where
  diskNumber : e.diskNumber < 2 ^ 16
  cdStartDisk : e.cdStartDisk < 2 ^ 16
  totalEntries : e.totalEntries < 2 ^ 16
  cdSize : e.cdSize < 2 ^ 32
  cdOffset : e.cdOffset < 2 ^ 32
  commentLen : e.commentLen < 2 ^ 16

/-- An EOCD record up to its comment length; `thisDisk` is its count of entries on this
disk. -/
def eocdFixed (thisDisk : Nat) (e : Eocd32) : Bytes :=
  leBytes 4 eocdSig ++ leBytes 2 e.diskNumber ++ leBytes 2 e.cdStartDisk ++ leBytes 2 thisDisk ++
    leBytes 2 e.totalEntries ++ leBytes 4 e.cdSize ++ leBytes 4 e.cdOffset

/-- An EOCD record and what follows it. -/
def writeEocd (thisDisk : Nat) (e : Eocd32) (comment : Bytes) : Bytes :=
  eocdFixed thisDisk e ++ (leBytes 2 e.commentLen ++ comment)

@[simp] theorem length_eocdFixed (thisDisk : Nat) (e : Eocd32) :
    (eocdFixed thisDisk e).length = 20 := by
  simp [eocdFixed]

theorem length_writeEocd (thisDisk : Nat) (e : Eocd32) (comment : Bytes) :
    (writeEocd thisDisk e comment).length = eocdMin + comment.length := by
  simp only [writeEocd, List.length_append, length_eocdFixed, length_leBytes, eocdMin]
  omega

theorem parseEocd_writeEocd {thisDisk : Nat} {e : Eocd32} (he : e.Fits)
    (comment : Bytes) : parseRes parseEocd (writeEocd thisDisk e comment) = .ok e := by
  unfold parseRes parseEocd writeEocd eocdFixed
  simp only [List.append_assoc]
  rw [Reader.runOn_bind_ok _ (Reader.runOn_u32_append (by decide) _)]
  simp only [ne_eq, not_true, if_false]
  rw [Reader.runOn_bind_ok _ (Reader.runOn_u16_append he.diskNumber _),
    Reader.runOn_bind_ok _ (Reader.runOn_u16_append he.cdStartDisk _),
    Reader.runOn_bind_ok _ (Reader.runOn_u16_bytes (length_leBytes 2 _) _),
    Reader.runOn_bind_ok _ (Reader.runOn_u16_append he.totalEntries _),
    Reader.runOn_bind_ok _ (Reader.runOn_u32_append he.cdSize _),
    Reader.runOn_bind_ok _ (Reader.runOn_u32_append he.cdOffset _),
    Reader.runOn_bind_ok _ (Reader.runOn_u16_append he.commentLen _)]
  rfl

/-- A written record starts with its signature. -/
theorem eocdAt_writeEocd (x : Bytes) (thisDisk : Nat) (e : Eocd32) (comment : Bytes) :
    EocdAt (x ++ writeEocd thisDisk e comment) x.length := by
  constructor
  · rw [List.length_append, length_writeEocd]
    omega
  · rw [← Nat.add_zero x.length, slice_append_right, writeEocd, eocdFixed]
    simp only [List.append_assoc]
    exact List.take_left' (length_leBytes 4 _)

/-- A written record is the record at its position. -/
theorem eocdOf_writeEocd (x : Bytes) {thisDisk : Nat} {e : Eocd32} (he : e.Fits)
    (comment : Bytes) : eocdOf (x ++ writeEocd thisDisk e comment) x.length = e := by
  have hparse := parseRes_parseEocd (eocdAt_writeEocd x thisDisk e comment)
  rw [List.drop_left, parseEocd_writeEocd he] at hparse
  exact (Except.ok.inj hparse).symm

/-! ## Zip64 -/

/-- A Zip64 EOCD record carrying the fields of `e`. -/
def writeZip64Eocd (recordSize versionMadeBy versionNeeded thisDisk : Nat) (e : Eocd32) : Bytes :=
  leBytes 4 zip64EocdSig ++ leBytes 8 recordSize ++ leBytes 2 versionMadeBy ++
    leBytes 2 versionNeeded ++ leBytes 4 e.diskNumber ++ leBytes 4 e.cdStartDisk ++
    leBytes 8 thisDisk ++ leBytes 8 e.totalEntries ++ leBytes 8 e.cdSize ++ leBytes 8 e.cdOffset

/-- The locator of a Zip64 EOCD record at `offset`. -/
def writeZip64Locator (disk offset disks : Nat) : Bytes :=
  leBytes 4 zip64LocatorSig ++ leBytes 4 disk ++ leBytes 8 offset ++ leBytes 4 disks

@[simp] theorem length_writeZip64Eocd (recordSize versionMadeBy versionNeeded thisDisk : Nat)
    (e : Eocd32) :
    (writeZip64Eocd recordSize versionMadeBy versionNeeded thisDisk e).length = 56 := by
  simp [writeZip64Eocd]

@[simp] theorem length_writeZip64Locator (disk offset disks : Nat) :
    (writeZip64Locator disk offset disks).length = zip64LocatorLen := by
  simp [writeZip64Locator, zip64LocatorLen]

theorem parseZip64Eocd_writeZip64Eocd {recordSize versionMadeBy versionNeeded thisDisk : Nat}
    {e : Eocd32} (he : e.Fits) (offset : Nat) :
    parseRes (parseZip64Eocd offset)
        (writeZip64Eocd recordSize versionMadeBy versionNeeded thisDisk e) =
      .ok (e.cdOffset, e.cdSize, e.totalEntries, e.diskNumber, e.cdStartDisk) := by
  have hdisk := he.diskNumber
  have hstart := he.cdStartDisk
  have htotal := he.totalEntries
  have hsize := he.cdSize
  have hoffset := he.cdOffset
  unfold parseRes parseZip64Eocd writeZip64Eocd
  rw [← List.append_nil (leBytes 8 e.cdOffset)]
  simp only [List.append_assoc]
  rw [Reader.runOn_bind_ok _ (Reader.runOn_u32_append (by decide) _)]
  simp only [ne_eq, not_true, if_false]
  rw [Reader.runOn_bind_ok _ (Reader.runOn_u64_bytes (length_leBytes 8 _) _),
    Reader.runOn_bind_ok _ (Reader.runOn_u16_bytes (length_leBytes 2 _) _),
    Reader.runOn_bind_ok _ (Reader.runOn_u16_bytes (length_leBytes 2 _) _),
    Reader.runOn_bind_ok _ (Reader.runOn_u32_append (by omega) _),
    Reader.runOn_bind_ok _ (Reader.runOn_u32_append (by omega) _),
    Reader.runOn_bind_ok _ (Reader.runOn_u64_bytes (length_leBytes 8 _) _),
    Reader.runOn_bind_ok _ (Reader.runOn_u64_append (by omega) _),
    Reader.runOn_bind_ok _ (Reader.runOn_u64_append (by omega) _),
    Reader.runOn_bind_ok _ (Reader.runOn_u64_append (by omega) _)]
  rfl

theorem parseZip64Locator_writeZip64Locator {offset : Nat} (h : offset < 2 ^ 64)
    (disk disks : Nat) :
    parseRes parseZip64Locator (writeZip64Locator disk offset disks) = .ok offset := by
  unfold parseRes parseZip64Locator writeZip64Locator
  simp only [List.append_assoc]
  rw [Reader.runOn_bind_ok _ (Reader.runOn_u32_append (by decide) _)]
  simp only [ne_eq, not_true, if_false]
  rw [Reader.runOn_bind_ok _ (Reader.runOn_u32_bytes (length_leBytes 4 _) _),
    Reader.runOn_u64_append h]

/-! ## Extra records -/

/-- A record of an extra block. -/
structure ExtraRecord where
  id : Nat
  data : Bytes

namespace ExtraRecord

structure Fits (r : ExtraRecord) : Prop where
  id : r.id < 2 ^ 16
  data : r.data.length < 2 ^ 16

def bytes (r : ExtraRecord) : Bytes := leBytes 2 r.id ++ leBytes 2 r.data.length ++ r.data

theorem length_bytes (r : ExtraRecord) : r.bytes.length = 4 + r.data.length := by
  simp only [bytes, List.length_append, length_leBytes]

end ExtraRecord

/-- The records of an extra block, one after the other. -/
def extraBlock (records : List ExtraRecord) : Bytes := (records.map ExtraRecord.bytes).flatten

@[simp] theorem extraBlock_cons (r : ExtraRecord) (rs : List ExtraRecord) :
    extraBlock (r :: rs) = r.bytes ++ extraBlock rs := by
  simp [extraBlock]

theorem extraBlock_append (rs rs' : List ExtraRecord) :
    extraBlock (rs ++ rs') = extraBlock rs ++ extraBlock rs' := by
  simp [extraBlock]

/-- The values a Zip64 record holds for the chosen fields, in their fixed order. -/
def zip64Values (needUncompressed needCompressed needOffset : Bool)
    (uncompressedSize compressedSize lfhOffset : Nat) : Bytes :=
  (if needUncompressed then leBytes 8 uncompressedSize else []) ++
    ((if needCompressed then leBytes 8 compressedSize else []) ++
      if needOffset then leBytes 8 lfhOffset else [])

/-- A chosen field is read back from a Zip64 record; another one keeps its value. -/
theorem runOn_zip64Field {need : Bool} {v v32 : Nat} (hv : v < 2 ^ 64)
    (hkeep : need = false → v32 = v) (rest : Bytes) :
    Reader.runOn (zip64Field need v32) ((if need then leBytes 8 v else []) ++ rest) =
      .ok (v, rest) := by
  cases need with
  | true => exact Reader.runOn_u64_append hv rest
  | false =>
    rw [hkeep rfl]
    rfl

section Zip64Extra

variable {nu nc no : Bool} {u c o u32 c32 o32 : Nat} {tail : Bytes} {after : List ExtraRecord}

/-- The walk over the extra records stops at the first Zip64 record. -/
theorem runOn_applyZip64ExtraLoop (hu : u < 2 ^ 64) (hc : c < 2 ^ 64) (ho : o < 2 ^ 64)
    (hku : nu = false → u32 = u) (hkc : nc = false → c32 = c) (hko : no = false → o32 = o)
    (htail : (zip64Values nu nc no u c o ++ tail).length < 2 ^ 16) (before : List ExtraRecord)
    (hbefore : ∀ r ∈ before, r.Fits ∧ r.id ≠ zip64ExtraId) {fuel : Nat} (hfuel : before.length < fuel) :
    Reader.runOn (applyZip64ExtraLoop nu nc no u32 c32 o32 fuel)
        (extraBlock (before ++ ⟨zip64ExtraId, zip64Values nu nc no u c o ++ tail⟩ :: after)) =
      .ok ((u, c, o), extraBlock after) := by
  induction before generalizing fuel with
  | nil =>
    obtain ⟨fuel, rfl⟩ : ∃ n, fuel = n + 1 := ⟨fuel - 1, by simp at hfuel; omega⟩
    have hroom : ¬ ((⟨zip64ExtraId, zip64Values nu nc no u c o ++ tail⟩ : ExtraRecord).bytes ++
        extraBlock after).length < 4 := by
      rw [List.length_append, ExtraRecord.length_bytes]
      omega
    rw [List.nil_append, extraBlock_cons, applyZip64ExtraLoop,
      Reader.runOn_bind_ok _ (Reader.runOn_remaining _), if_neg hroom, ExtraRecord.bytes]
    simp only [List.append_assoc]
    rw [Reader.runOn_bind_ok _ (Reader.runOn_u16_append (by decide) _),
      Reader.runOn_bind_ok _ (Reader.runOn_u16_append (by simpa using htail) _), if_pos rfl,
      ← List.append_assoc, Reader.runOn_bind_ok _ (Reader.runOn_take_append rfl _)]
    unfold zip64Values
    simp only [List.append_assoc]
    rw [Reader.runOn_bind_ok _ (runOn_zip64Field hu hku _),
      Reader.runOn_bind_ok _ (runOn_zip64Field hc hkc _),
      Reader.runOn_bind_ok _ (runOn_zip64Field ho hko _)]
    rfl
  | cons r rs ih =>
    obtain ⟨fuel, rfl⟩ : ∃ n, fuel = n + 1 := ⟨fuel - 1, by simp at hfuel; omega⟩
    obtain ⟨hfits, hid⟩ := hbefore r (List.mem_cons_self ..)
    have hroom : ∀ t : Bytes, ¬ (r.bytes ++ t).length < 4 := fun t => by
      rw [List.length_append, ExtraRecord.length_bytes]
      omega
    rw [List.cons_append, extraBlock_cons, applyZip64ExtraLoop,
      Reader.runOn_bind_ok _ (Reader.runOn_remaining _), if_neg (hroom _), ExtraRecord.bytes]
    simp only [List.append_assoc]
    rw [Reader.runOn_bind_ok _ (Reader.runOn_u16_append hfits.id _),
      Reader.runOn_bind_ok _ (Reader.runOn_u16_append hfits.data _), if_neg hid]
    have hskip : ∀ t : Bytes, Reader.runOn (Reader.skip r.data.length) (r.data ++ t) = .ok ((), t) :=
      fun t => by
        rw [Reader.skip, Reader.runOn_bind_ok _ (Reader.runOn_take_append rfl _), Reader.runOn_pure]
    rw [Reader.runOn_bind_ok _ (hskip _)]
    exact ih (fun r' hr' => hbefore r' (List.mem_cons_of_mem _ hr')) (by simpa using hfuel)

theorem length_le_length_extraBlock (rs : List ExtraRecord) : rs.length ≤ (extraBlock rs).length := by
  induction rs with
  | nil => simp [extraBlock]
  | cons r rs ih =>
    rw [extraBlock_cons, List.length_append, ExtraRecord.length_bytes, List.length_cons]
    omega

/-- The sentinel fields are resolved from the first Zip64 record, wherever it stands. -/
theorem applyZip64Extra_extraBlock (hu : u < 2 ^ 64) (hc : c < 2 ^ 64) (ho : o < 2 ^ 64)
    (hku : nu = false → u32 = u) (hkc : nc = false → c32 = c) (hko : no = false → o32 = o)
    (htail : (zip64Values nu nc no u c o ++ tail).length < 2 ^ 16) {before : List ExtraRecord}
    (hbefore : ∀ r ∈ before, r.Fits ∧ r.id ≠ zip64ExtraId) :
    applyZip64Extra
        (extraBlock (before ++ ⟨zip64ExtraId, zip64Values nu nc no u c o ++ tail⟩ :: after))
        nu nc no u32 c32 o32 = .ok (u, c, o) := by
  have hfuel : before.length <
      (extraBlock (before ++ ⟨zip64ExtraId, zip64Values nu nc no u c o ++ tail⟩ :: after)).length := by
    refine Nat.lt_of_lt_of_le ?_ (length_le_length_extraBlock _)
    simp
  unfold applyZip64Extra
  rw [runOn_applyZip64ExtraLoop hu hc ho hku hkc hko htail before hbefore hfuel]

end Zip64Extra

/-! ## Central headers -/

/-- A central-directory file header. -/
structure CentralHeader where
  versionMadeBy : Nat
  versionNeeded : Nat
  flags : Nat
  method : Nat
  modTime : Nat
  modDate : Nat
  crc32 : UInt32
  compressedSize32 : Nat
  uncompressedSize32 : Nat
  diskStart : Nat
  internalAttrs : Nat
  externalAttrs : Nat
  lfhOffset32 : Nat
  name : Bytes
  extra : Bytes
  comment : Bytes

namespace CentralHeader

/-- The fields the parser keeps fit their widths. -/
structure Fits (h : CentralHeader) : Prop where
  flags : h.flags < 2 ^ 16
  method : h.method < 2 ^ 16
  modTime : h.modTime < 2 ^ 16
  compressedSize32 : h.compressedSize32 < 2 ^ 32
  uncompressedSize32 : h.uncompressedSize32 < 2 ^ 32
  diskStart : h.diskStart < 2 ^ 16
  lfhOffset32 : h.lfhOffset32 < 2 ^ 32
  name : h.name.length < 2 ^ 16
  extra : h.extra.length < 2 ^ 16
  comment : h.comment.length < 2 ^ 16

def bytes (h : CentralHeader) : Bytes :=
  leBytes 4 cdHeaderSig ++ leBytes 2 h.versionMadeBy ++ leBytes 2 h.versionNeeded ++
    leBytes 2 h.flags ++ leBytes 2 h.method ++ leBytes 2 h.modTime ++ leBytes 2 h.modDate ++
    leBytes 4 h.crc32.toNat ++ leBytes 4 h.compressedSize32 ++ leBytes 4 h.uncompressedSize32 ++
    leBytes 2 h.name.length ++ leBytes 2 h.extra.length ++ leBytes 2 h.comment.length ++
    leBytes 2 h.diskStart ++ leBytes 2 h.internalAttrs ++ leBytes 4 h.externalAttrs ++
    leBytes 4 h.lfhOffset32 ++ h.name ++ h.extra ++ h.comment

theorem length_bytes (h : CentralHeader) :
    h.bytes.length = 46 + h.name.length + h.extra.length + h.comment.length := by
  unfold bytes
  simp only [List.length_append, length_leBytes]

/-- The sizes and the offset a header stands for: `(uncompressed, compressed, offset)`. -/
def resolved (h : CentralHeader) : Except FormatError (Nat × Nat × Nat) :=
  if h.uncompressedSize32 = u32Sentinel ∨ h.compressedSize32 = u32Sentinel ∨
      h.lfhOffset32 = u32Sentinel then
    applyZip64Extra h.extra (h.uncompressedSize32 = u32Sentinel) (h.compressedSize32 = u32Sentinel)
      (h.lfhOffset32 = u32Sentinel) h.uncompressedSize32 h.compressedSize32 h.lfhOffset32
  else
    .ok (h.uncompressedSize32, h.compressedSize32, h.lfhOffset32)

/-- The sizes and the offset of a header, each written as it is or through the Zip64
record of the extra block, which is the first one there. -/
theorem resolved_of_wide {h : CentralHeader} {wu wc wo : Bool} {u c o : Nat} {tail : Bytes}
    {before after : List ExtraRecord} (hu : u < 2 ^ 64) (hc : c < 2 ^ 64) (ho : o < 2 ^ 64)
    (hnu : wu = false → u < u32Sentinel) (hnc : wc = false → c < u32Sentinel)
    (hno : wo = false → o < u32Sentinel)
    (hu32 : h.uncompressedSize32 = if wu then u32Sentinel else u)
    (hc32 : h.compressedSize32 = if wc then u32Sentinel else c)
    (ho32 : h.lfhOffset32 = if wo then u32Sentinel else o)
    (hextra : h.extra = extraBlock (if wu || wc || wo then
      before ++ ⟨zip64ExtraId, zip64Values wu wc wo u c o ++ tail⟩ :: after else before ++ after))
    (hlen : h.extra.length < 2 ^ 16)
    (hfirst : (wu || wc || wo) = true → ∀ r ∈ before, r.Fits ∧ r.id ≠ zip64ExtraId) :
    h.resolved = .ok (u, c, o) := by
  have hsentinel : ∀ {w : Bool} {v : Nat}, (w = false → v < u32Sentinel) →
      ((if w then u32Sentinel else v) = u32Sentinel ↔ w = true) := fun {w v} hv => by
    cases w
    · simpa using Nat.ne_of_lt (hv rfl)
    · simp
  have hdec : ∀ {w : Bool} {v : Nat}, (w = false → v < u32Sentinel) →
      decide ((if w then u32Sentinel else v) = u32Sentinel) = w := fun {w v} hv => by
    rw [Bool.decide_congr (hsentinel hv)]
    simp
  have hkeep : ∀ {w : Bool} {v : Nat}, w = false → (if w then u32Sentinel else v) = v :=
    fun {w v} hw => by simp [hw]
  have hiff : ((if wu then u32Sentinel else u) = u32Sentinel ∨
      (if wc then u32Sentinel else c) = u32Sentinel ∨
      (if wo then u32Sentinel else o) = u32Sentinel) ↔ (wu || wc || wo) = true := by
    rw [hsentinel hnu, hsentinel hnc, hsentinel hno, Bool.or_eq_true, Bool.or_eq_true, or_assoc]
  unfold resolved
  rw [hu32, hc32, ho32, hdec hnu, hdec hnc, hdec hno]
  by_cases hwide : (wu || wc || wo) = true
  · rw [if_pos hwide] at hextra
    rw [hextra, extraBlock_append, extraBlock_cons, List.length_append, List.length_append,
      ExtraRecord.length_bytes] at hlen
    rw [if_pos (hiff.2 hwide), hextra, applyZip64Extra_extraBlock hu hc ho hkeep hkeep hkeep
      (by dsimp only at hlen; omega) (hfirst hwide)]
  · have hnarrow := hwide
    simp only [Bool.or_eq_true, not_or, Bool.not_eq_true] at hnarrow
    rw [if_neg (mt hiff.1 hwide), hkeep hnarrow.1.1, hkeep hnarrow.1.2, hkeep hnarrow.2]

/-- The entry a header describes, once its sizes and offset are resolved. -/
def entry (h : CentralHeader) (uncompressedSize compressedSize lfhOffset : Nat) : CentralEntry where
  name := decodeName h.name h.flags
  method := .fromU16 h.method
  flags := h.flags
  crc32 := h.crc32
  compressedSize := compressedSize
  uncompressedSize := uncompressedSize
  lfhOffset := lfhOffset
  lastModTime := h.modTime
  aes := if h.method = 99 then parseAesExtra h.extra else none
  diskStart := h.diskStart
  extra := parseExtraFields h.extra

/-- A written header is read back, and the reader stands right behind it. -/
theorem runOn_parseCdEntry {h : CentralHeader} (hfits : h.Fits) {u c o : Nat}
    (hres : h.resolved = .ok (u, c, o)) (cdLen : Nat) (rest : Bytes) :
    Reader.runOn (parseCdEntry cdLen) (h.bytes ++ rest) = .ok (h.entry u c o, rest) := by
  have hcrc : h.crc32.toNat < 2 ^ 32 := h.crc32.toNat_lt
  have hroom : ¬ (h.bytes ++ rest).length < 46 := by
    rw [List.length_append, length_bytes]
    omega
  unfold parseCdEntry
  rw [Reader.runOn_bind_ok _ (Reader.runOn_remaining _), if_neg hroom]
  unfold bytes
  simp only [List.append_assoc]
  rw [Reader.runOn_bind_ok _ (Reader.runOn_u32_append (by decide) _)]
  simp only [ne_eq, not_true, if_false]
  unfold parseCdFields
  rw [Reader.runOn_bind_ok _ (Reader.runOn_u16_bytes (length_leBytes 2 _) _),
    Reader.runOn_bind_ok _ (Reader.runOn_u16_bytes (length_leBytes 2 _) _),
    Reader.runOn_bind_ok _ (Reader.runOn_u16_append hfits.flags _),
    Reader.runOn_bind_ok _ (Reader.runOn_u16_append hfits.method _),
    Reader.runOn_bind_ok _ (Reader.runOn_u16_append hfits.modTime _),
    Reader.runOn_bind_ok _ (Reader.runOn_u16_bytes (length_leBytes 2 _) _),
    Reader.runOn_bind_ok _ (Reader.runOn_u32_append hcrc _),
    Reader.runOn_bind_ok _ (Reader.runOn_u32_append hfits.compressedSize32 _),
    Reader.runOn_bind_ok _ (Reader.runOn_u32_append hfits.uncompressedSize32 _),
    Reader.runOn_bind_ok _ (Reader.runOn_u16_append hfits.name _),
    Reader.runOn_bind_ok _ (Reader.runOn_u16_append hfits.extra _),
    Reader.runOn_bind_ok _ (Reader.runOn_u16_append hfits.comment _),
    Reader.runOn_bind_ok _ (Reader.runOn_u16_append hfits.diskStart _),
    Reader.runOn_bind_ok _ (Reader.runOn_u16_bytes (length_leBytes 2 _) _),
    Reader.runOn_bind_ok _ (Reader.runOn_u32_bytes (length_leBytes 4 _) _),
    Reader.runOn_bind_ok _ (Reader.runOn_u32_append hfits.lfhOffset32 _),
    Reader.runOn_bind_ok _ (Reader.runOn_take_append rfl _),
    Reader.runOn_bind_ok _ (Reader.runOn_take_append rfl _),
    Reader.runOn_bind_ok _ (Reader.runOn_take_append rfl _)]
  unfold resolved at hres
  dsimp only
  rw [hres, UInt32.ofNat_toNat]
  rfl

end CentralHeader

/-! ## Local headers -/

/-- The fields of a local file header that readers of the central directory skip. -/
structure LocalHeader where
  versionNeeded : Nat
  flags : Nat
  method : Nat
  modTime : Nat
  modDate : Nat
  crc32 : Nat
  compressedSize : Nat
  uncompressedSize : Nat

namespace LocalHeader

/-- A local header up to the lengths of its name and its extra block. -/
def fixed (h : LocalHeader) : Bytes :=
  leBytes 4 lfhSig ++ leBytes 2 h.versionNeeded ++ leBytes 2 h.flags ++ leBytes 2 h.method ++
    leBytes 2 h.modTime ++ leBytes 2 h.modDate ++ leBytes 4 h.crc32 ++ leBytes 4 h.compressedSize ++
    leBytes 4 h.uncompressedSize

/-- A local header, with its name and extra block. -/
def bytes (h : LocalHeader) (name extra : Bytes) : Bytes :=
  h.fixed ++ (leBytes 2 name.length ++ (leBytes 2 extra.length ++ (name ++ extra)))

@[simp] theorem length_fixed (h : LocalHeader) : h.fixed.length = 26 := by
  unfold fixed
  simp only [List.length_append, length_leBytes]

theorem length_bytes (h : LocalHeader) (name extra : Bytes) :
    (h.bytes name extra).length = lfhFixed + name.length + extra.length := by
  unfold bytes lfhFixed
  simp only [List.length_append, length_leBytes, length_fixed]
  omega

/-- A written local header leads to the byte behind it. -/
theorem lfhAt_bytes (h : LocalHeader) {x name extra y : Bytes} (hname : name.length < 2 ^ 16)
    (hextra : extra.length < 2 ^ 16)
    (hlen : (x ++ (h.bytes name extra ++ y)).length ≤ isizeMax) :
    ∃ fields, lfhAt (x ++ (h.bytes name extra ++ y)) x.length =
      .ok (fields, (x ++ h.bytes name extra).length) := by
  have hbytes := length_bytes h name extra
  have hsig : slice (x ++ (h.bytes name extra ++ y)) x.length 4 = leBytes 4 lfhSig := by
    rw [← Nat.add_zero x.length, slice_append_right]
    unfold bytes fixed
    simp only [List.append_assoc]
    exact List.take_left' (length_leBytes 4 _)
  have hnameLen : localNameLen (x ++ (h.bytes name extra ++ y)) x.length = name.length := by
    have hat := slice_middle (x ++ h.fixed) (leBytes 2 name.length)
      (leBytes 2 extra.length ++ (name ++ extra ++ y))
    rw [length_leBytes, List.length_append, length_fixed] at hat
    unfold localNameLen bytes
    simp only [List.append_assoc] at hat ⊢
    rw [hat, leNat_leBytes hname]
  have hextraLen : leNat (slice (x ++ (h.bytes name extra ++ y)) (x.length + 28) 2) =
      extra.length := by
    have hat := slice_middle (x ++ h.fixed ++ leBytes 2 name.length) (leBytes 2 extra.length)
      (name ++ extra ++ y)
    rw [length_leBytes, List.length_append, List.length_append, length_fixed, length_leBytes] at hat
    unfold bytes
    simp only [List.append_assoc] at hat ⊢
    rw [hat, leNat_leBytes hextra]
  refine ⟨_, (lfhAt_eq_ok_iff hlen).2 ⟨?_, ?_, Prod.ext rfl ?_⟩⟩
  · rw [hnameLen, List.length_append, List.length_append, hbytes]
    omega
  · rw [hsig, leNat_leBytes (by decide)]
  · dsimp only
    rw [localDataStart, hnameLen, hextraLen, List.length_append, hbytes]
    omega

end LocalHeader

end ZipForensic
