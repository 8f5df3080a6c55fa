import ZipForensic.Core.TransparentEncryption

/-!
# Members of the buffered methods (codec.rs)

Bzip2, Zstandard, LZMA and XZ members are decoded when they are opened, into a buffer of at
most `MAX_BUFFERED_DECODE` bytes.

- `readCapped_of_emits`, `decodeCapped_of_writes`: the two ways to fill the buffer, by reading a
  decoder to its end and by letting one write into a sink, both end at the cap.
- `Decompresses`: what the data of a member decode to, whatever their length.
- `buffered_members`: such a member opens exactly up to the cap, and then delivers these data.
-/

namespace ZipForensic

variable {k : Crates} {σ : Type} [Read IoError σ]

/-- More output than the cap allows. -/
def overCap (cap : Nat) : IoError := .other s!"decompressed output exceeds the {cap}-byte cap"

/-! ## Filling a buffer -/

/-- One byte more than the cap is read, and no further one. -/
theorem readCapped_of_emits [LawfulRead IoError σ] {r : σ} {data : Bytes} (h : Emits r data)
    (cap : Nat) :
    (readCapped cap r).1 = if data.length ≤ cap then .ok data else .error (overCap cap) := by
  have hend : (readToEnd (⟨r, cap + 1⟩ : Take σ)).1 = .ok (data.take (cap + 1)) :=
    (h.take (cap + 1)).readToEnd_eq
  rw [readCapped]
  rcases hread : readToEnd (⟨r, cap + 1⟩ : Take σ) with ⟨x, t⟩
  obtain rfl : x = .ok (data.take (cap + 1)) := by rw [← hend, hread]
  dsimp only
  by_cases hcap : data.length ≤ cap
  · rw [if_pos hcap, List.take_of_length_le (by omega), if_neg (by omega)]
  · have hover : cap < (data.take (cap + 1)).length := by
      rw [List.length_take]
      omega
    rw [if_neg hcap, if_pos hover]
    rfl

/-- The sink takes the chunks as long as all of them fit. -/
theorem foldlM_cappedWrite {cap : Nat} (writes : List Bytes) {buf : Bytes}
    (hbuf : buf.length ≤ cap) :
    writes.foldlM (cappedWrite cap) buf =
      if (buf ++ writes.flatten).length ≤ cap then .ok (buf ++ writes.flatten)
      else .error (overCap cap) := by
  induction writes generalizing buf with
  | nil =>
    rw [List.flatten_nil, List.append_nil, if_pos hbuf]
    rfl
  | cons chunk writes ih =>
    rw [List.foldlM_cons, List.flatten_cons, ← List.append_assoc]
    by_cases hroom : (buf ++ chunk).length ≤ cap
    · have hwrite : cappedWrite cap buf chunk = .ok (buf ++ chunk) := by
        rw [cappedWrite, if_neg]
        rw [List.length_append] at hroom
        omega
      rw [hwrite]
      exact ih hroom
    · have hwrite : cappedWrite cap buf chunk = .error (overCap cap) := by
        rw [cappedWrite, if_pos]
        · rfl
        · rw [List.length_append] at hroom
          omega
      have hall : ¬ (buf ++ chunk ++ writes.flatten).length ≤ cap := by
        rw [List.length_append]
        omega
      rw [hwrite, if_neg hall]
      rfl

/-- What a one-shot decompressor writes in all, if it gets to its end. -/
def OneShot.Writes (shot : OneShot) (data : Bytes) : Prop :=
  shot.failure = none ∧ shot.writes.flatten = data

theorem decodeCapped_of_writes {shot : OneShot} {data : Bytes} (h : shot.Writes data) (cap : Nat) :
    decodeCapped k cap shot =
      if data.length ≤ cap then .ok data
      else .error (.other (k.lzmaSinkErrorText (overCap cap))) := by
  obtain ⟨hfailure, rfl⟩ := h
  rw [decodeCapped, foldlM_cappedWrite _ (Nat.zero_le _), List.nil_append]
  by_cases hcap : shot.writes.flatten.length ≤ cap
  · rw [if_pos hcap, if_pos hcap]
    dsimp only
    rw [hfailure]
  · rw [if_neg hcap, if_neg hcap]

/-- Only a decompressor that gets to its end fills a buffer. -/
theorem writes_of_decodeCapped {shot : OneShot} {cap : Nat} {data : Bytes}
    (h : decodeCapped k cap shot = .ok data) : shot.Writes data := by
  rw [decodeCapped, foldlM_cappedWrite _ (Nat.zero_le _), List.nil_append] at h
  by_cases hcap : shot.writes.flatten.length ≤ cap
  · rw [if_pos hcap] at h
    cases hfailure : shot.failure with
    | none =>
      rw [hfailure] at h
      exact ⟨hfailure, Except.ok.inj h⟩
    | some text =>
      rw [hfailure] at h
      cases h
  · rw [if_neg hcap] at h
    cases h

/-! ## The methods -/

/-- The data that `raw` decodes to under a buffered method, for a recorded size. An LZMA stream
stands behind a wrapper that announces five bytes of properties. -/
inductive Decompresses (k : Crates) (size : Nat) (raw : Bytes) : CompressionMethod → Bytes → Prop
  | bzip2 {data : Bytes} :
    Emits (⟨k.bzip2.init, ⟨raw⟩⟩ : Pipe k.bzip2 (Window IoError)) data →
      Decompresses k size raw .bzip2 data
  | zstd {data header : Bytes} {p : Pipe k.ruzstd (Window IoError)} :
    (⟨k.ruzstd.init, ⟨raw⟩⟩ : Pipe k.ruzstd (Window IoError)).call .new = (.ok header, p) →
      Emits p data → Decompresses k size raw .zstd data
  | lzma {data : Bytes} :
    4 ≤ raw.length → leNat (slice raw 2 2) = 5 → (k.lzma size (raw.drop 4)).Writes data →
      Decompresses k size raw .lzma data
  | xz {data : Bytes} : (k.xz raw).Writes data → Decompresses k size raw .xz data

/-- The error for data longer than the cap; a one-shot decompressor words that of its sink. -/
def capError (k : Crates) : CompressionMethod → IoError
  | .lzma | .xz => .other (k.lzmaSinkErrorText (overCap maxBufferedDecode))
  | _ => overCap maxBufferedDecode

namespace Decoder

theorem drain_of_emits {K : Codec IoError} [LawfulRead IoError σ] {p : Pipe K σ} {data : Bytes}
    (h : Emits p data) :
    (data.length ≤ maxBufferedDecode → ∃ input, (drain p : Except _ (Decoder k σ)) =
        .ok (.buffered ⟨data⟩ input)) ∧
      (¬ data.length ≤ maxBufferedDecode → ∃ input, (drain p : Except _ (Decoder k σ)) =
        .error (.io (overCap maxBufferedDecode), input)) := by
  have hcapped := readCapped_of_emits h maxBufferedDecode
  rw [drain]
  rcases hread : readCapped maxBufferedDecode p with ⟨x, p'⟩
  rw [hread] at hcapped
  constructor
  · intro hfits
    rw [if_pos hfits] at hcapped
    obtain rfl : x = .ok data := hcapped
    exact ⟨_, rfl⟩
  · intro hover
    rw [if_neg hover] at hcapped
    obtain rfl : x = .error (overCap maxBufferedDecode) := hcapped
    exact ⟨_, rfl⟩

/-- The compressed bytes are read whole before they are decoded. -/
theorem drainWith_window (decode : Bytes → Except ZipCoreError Bytes) (raw : Bytes) :
    ∃ input, (drainWith decode (⟨raw⟩ : Window IoError) : Except _ (Decoder k (Window IoError))) =
      ((decode raw).map fun data => .buffered ⟨data⟩ input).mapError fun e => (e, input) := by
  have hend : (readToEnd (⟨raw⟩ : Window IoError)).1 = .ok raw :=
    (Window.drains.emits (r := ⟨raw⟩) trivial).readToEnd_eq
  rw [drainWith]
  rcases hread : readToEnd (⟨raw⟩ : Window IoError) with ⟨x, input⟩
  rw [hread] at hend
  obtain rfl : x = .ok raw := hend
  refine ⟨input, ?_⟩
  dsimp only
  cases decode raw <;> rfl

section OneShots

variable {decode : Bytes → Except ZipCoreError Bytes} {raw : Bytes}

theorem drainWith_of_decode {data : Bytes} {e : ZipCoreError} {fits : Prop} [Decidable fits]
    (h : decode raw = if fits then .ok data else .error e) :
    (fits → ∃ input, (drainWith decode (⟨raw⟩ : Window IoError) :
        Except _ (Decoder k (Window IoError))) = .ok (.buffered ⟨data⟩ input)) ∧
      (¬ fits → ∃ input, (drainWith decode (⟨raw⟩ : Window IoError) :
        Except _ (Decoder k (Window IoError))) = .error (e, input)) := by
  obtain ⟨input, hdrain⟩ := drainWith_window (k := k) decode raw
  constructor
  · intro hfits
    rw [if_pos hfits] at h
    rw [h] at hdrain
    exact ⟨input, hdrain⟩
  · intro hover
    rw [if_neg hover] at h
    rw [h] at hdrain
    exact ⟨input, hdrain⟩

theorem decode_of_drainWith {d : Decoder k (Window IoError)}
    (h : drainWith decode (⟨raw⟩ : Window IoError) = .ok d) : ∃ data, decode raw = .ok data := by
  obtain ⟨input, hdrain⟩ := drainWith_window (k := k) decode raw
  cases hdecode : decode raw with
  | ok data => exact ⟨data, rfl⟩
  | error e =>
    rw [hdecode] at hdrain
    cases hdrain.symm.trans h

end OneShots

end Decoder

/-- Behind a valid wrapper the stream is decoded into a buffer. -/
theorem decodeZipLzma_eq {raw data : Bytes} {size : Nat} (hlen : 4 ≤ raw.length)
    (hprops : leNat (slice raw 2 2) = 5) (h : (k.lzma size (raw.drop 4)).Writes data) :
    decodeZipLzma k raw size = if data.length ≤ maxBufferedDecode then .ok data
      else .error (.io (capError k .lzma)) := by
  rw [decodeZipLzma, if_neg (by omega)]
  dsimp only
  rw [if_neg (not_not_intro hprops), decodeCapped_of_writes h]
  by_cases hcap : data.length ≤ maxBufferedDecode
  · rw [if_pos hcap, if_pos hcap]
  · rw [if_neg hcap, if_neg hcap]
    rfl

theorem writes_of_decodeZipLzma {raw data : Bytes} {size : Nat}
    (h : decodeZipLzma k raw size = .ok data) : Decompresses k size raw .lzma data := by
  rw [decodeZipLzma] at h
  by_cases hlen : raw.length < 4
  · rw [if_pos hlen] at h
    cases h
  · rw [if_neg hlen] at h
    dsimp only at h
    by_cases hprops : leNat (slice raw 2 2) = 5
    · rw [if_neg (not_not_intro hprops)] at h
      cases hdecode : decodeCapped k maxBufferedDecode (k.lzma size (raw.drop 4)) with
      | error e =>
        rw [hdecode] at h
        cases h
      | ok out =>
        rw [hdecode] at h
        obtain rfl := Except.ok.inj h
        exact .lzma (by omega) hprops (writes_of_decodeCapped hdecode)
    · rw [if_pos hprops] at h
      cases h

namespace Decoder

/-- A member that decompresses is buffered up to the cap. -/
theorem new_of_decompresses {method : CompressionMethod} {size : Nat} {raw data : Bytes}
    (h : Decompresses k size raw method data) :
    (data.length ≤ maxBufferedDecode → ∃ input,
      (new method size (⟨raw⟩ : Window IoError) : Except _ (Decoder k (Window IoError))) =
        .ok (.buffered ⟨data⟩ input)) ∧
      (¬ data.length ≤ maxBufferedDecode → ∃ input,
        (new method size (⟨raw⟩ : Window IoError) : Except _ (Decoder k (Window IoError))) =
          .error (.io (capError k method), input)) := by
  cases h with
  | bzip2 hemits => exact drain_of_emits hemits
  | zstd hcall hemits =>
    rw [new, hcall]
    exact drain_of_emits hemits
  | lzma hlen hprops hwrites => exact drainWith_of_decode (decodeZipLzma_eq hlen hprops hwrites)
  | xz hwrites =>
    apply drainWith_of_decode
    rw [decodeCapped_of_writes hwrites]
    by_cases hcap : data.length ≤ maxBufferedDecode
    · rw [if_pos hcap, if_pos hcap]
    · rw [if_neg hcap, if_neg hcap]
      rfl

/-- The one-shot methods open nothing else. -/
theorem decompresses_of_new {method : CompressionMethod} (hmethod : method = .lzma ∨ method = .xz)
    {size : Nat} {raw : Bytes} {d : Decoder k (Window IoError)}
    (h : new method size (⟨raw⟩ : Window IoError) = .ok d) :
    ∃ data, Decompresses k size raw method data := by
  rcases hmethod with rfl | rfl
  · obtain ⟨data, hdecode⟩ := decode_of_drainWith h
    exact ⟨data, writes_of_decodeZipLzma hdecode⟩
  · obtain ⟨data, hdecode⟩ := decode_of_drainWith h
    cases hcapped : decodeCapped k maxBufferedDecode (k.xz raw) with
    | error e =>
      rw [hcapped] at hdecode
      cases hdecode
    | ok out => exact ⟨out, .xz (writes_of_decodeCapped hcapped)⟩

end Decoder

/-! ## In an archive -/

section Archive

variable {a : ZipArchive} {m : CentralEntry} {name : String} {raw : Bytes}

/-- The decoder of a plain entry is set up over its window. -/
theorem ZipFile.openPlain_window (m : CentralEntry) (dataStart : Nat) (raw : Bytes) :
    (ZipFile.openPlain m dataStart ⟨raw⟩ :
      Except (ZipCoreError × Window IoError) (ZipFile k (Window IoError))) =
    (Decoder.new m.method m.uncompressedSize (⟨raw⟩ : Window IoError)).map fun d =>
      ZipFile.start m dataStart true (d.map EntryReader.plain) := by
  rw [ZipFile.openPlain, ZipFile.decode, Decoder.new_map EntryReader.readHom_plain]
  rcases (Decoder.new m.method m.uncompressedSize (⟨raw⟩ : Window IoError) :
    Except _ (Decoder k (Window IoError))) with ⟨e, w⟩ | d <;> rfl

variable (hfind : a.entries.find? (fun e => e.name = name) = some m) (h : a.HoldsPlain m raw)
include hfind h

/-- **Buffered members.** A Bzip2, Zstandard, LZMA or XZ member whose bytes decompress to `data`
opens if these are no more than the cap, and is refused with the method's cap error otherwise.
Once open, every run of reads delivers exactly `data` if it has the recorded CRC-32. An LZMA or
XZ member that does not decompress does not open. -/
theorem buffered_members :
    (∀ data, Decompresses k m.uncompressedSize raw m.method data →
      (data.length ≤ maxBufferedDecode → ∃ f : ZipFile k (Take Source), a.byName name = .ok f ∧
        (Emits f data ↔ k.crc32 data = m.crc32)) ∧
      (maxBufferedDecode < data.length → ∃ reader, (a.byName name : Opened k) =
        .error (.error (.io (capError k m.method)), reader))) ∧
    (m.method = .lzma ∨ m.method = .xz → ∀ f : ZipFile k (Take Source), a.byName name = .ok f →
      ∃ data, Decompresses k m.uncompressedSize raw m.method data) := by
  obtain ⟨fields, dataStart, hlfh, rfl⟩ := h.data
  have hname : (a.byName name : Opened k) = a.open m := by rw [ZipArchive.byName, hfind]
  have hset := ZipFile.openPlain_window (k := k) m dataStart
    (slice a.reader.bytes dataStart m.compressedSize)
  have hview := h.view_open (k := k)
  rw [hname]
  refine ⟨fun data hdata => ⟨fun hfits => ?_, fun hover => ?_⟩, fun hmethod f hopen => ?_⟩
  · obtain ⟨input, hnew⟩ := (Decoder.new_of_decompresses hdata).1 hfits
    rw [hnew] at hset
    obtain ⟨f, hf, hmap⟩ := exists_of_view (hview.trans (openedAt_of_ok hlfh hset))
    refine ⟨f, hf, ?_⟩
    rw [← Emits.map (ZipFile.readHom_map readHom_window), hmap]
    have hbuffer : Emits (Decoder.map EntryReader.plain (.buffered ⟨data⟩ input) :
        Decoder k (EntryReader k (Window IoError))) data :=
      (Emits.map (Decoder.readHom_buffered (EntryReader.plain input))).2
        (Window.drains.emits (r := ⟨data⟩) trivial)
    refine (ZipFile.emits_start_iff hbuffer).trans ?_
    rw [Bool.true_eq_false, false_or]
  · obtain ⟨input, hnew⟩ := (Decoder.new_of_decompresses hdata).2 (Nat.not_le_of_lt hover)
    rw [hnew] at hset
    exact exists_error_of_view (hview.trans (openedAt_of_error hlfh hset))
  · rw [hopen] at hview
    cases hnew : (Decoder.new m.method m.uncompressedSize
        (⟨slice a.reader.bytes dataStart m.compressedSize⟩ : Window IoError) :
      Except _ (Decoder k (Window IoError))) with
    | error e =>
      rw [hnew] at hset
      cases hview.trans (openedAt_of_error hlfh hset)
    | ok d => exact Decoder.decompresses_of_new hmethod hnew

end Archive

/-! ## An XZ member -/

/-- The bytes "abc" as an XZ stream. -/
def xzStream : Bytes :=
  [0xFD, 0x37, 0x7A, 0x58, 0x5A, 0x00, 0x00, 0x01, 0x69, 0x22, 0xDE, 0x36, 0x02, 0x00,
    0x21, 0x01, 0x16, 0x00, 0x00, 0x00, 0x74, 0x2F, 0xE5, 0xA3, 0x01, 0x00, 0x02, 0x61,
    0x62, 0x63, 0x00, 0x00, 0xC2, 0x41, 0x24, 0x35, 0x00, 0x01, 0x17, 0x03, 0x07, 0x60,
    0x0C, 0xBC, 0x90, 0x42, 0x99, 0x0D, 0x01, 0x00, 0x00, 0x00, 0x00, 0x01, 0x59, 0x5A]

/-- Crates that decode this stream and refuse every other. -/
def xzCrates : Crates :=
  { Crates.plain with
    xz := fun raw =>
      if raw = xzStream then ⟨[[0x61, 0x62, 0x63]], none⟩ else ⟨[], some "xz error"⟩ }

/-- The archive of the member `m` with that stream. -/
def xzArchive : Bytes :=
  -- local header, name, data
  [0x50, 0x4B, 0x03, 0x04, 63, 0, 0, 0, 95, 0, 0, 0, 0, 0, 0xC2, 0x41, 0x24, 0x35,
    56, 0, 0, 0, 3, 0, 0, 0, 1, 0, 0, 0] ++ [0x6D] ++ xzStream ++
  -- central header, name
  [0x50, 0x4B, 0x01, 0x02, 63, 0, 63, 0, 0, 0, 95, 0, 0, 0, 0, 0, 0xC2, 0x41, 0x24, 0x35,
    56, 0, 0, 0, 3, 0, 0, 0, 1, 0, 0, 0, 0, 0, 0, 0, 0, 0, 0, 0, 0, 0, 0, 0, 0, 0] ++ [0x6D] ++
  -- EOCD
  [0x50, 0x4B, 0x05, 0x06, 0, 0, 0, 0, 1, 0, 1, 0, 47, 0, 0, 0, 87, 0, 0, 0, 0, 0]

/-- The member as parsed. -/
def xzMember : CentralEntry :=
  { storedMember 3 with method := .xz, compressedSize := 56 }

/-- What the parser makes of the archive. -/
def xzDirectory : List CentralEntry × ArchiveSummary :=
  ([xzMember],
    { fileLen := 156, centralDirOffset := 87, centralDirSize := 47, eocdEndOffset := 156,
      commentLen := 0, diskNumber := 0, cdStartDisk := 0, archiveSignatureLen := none })

theorem xzArchive_decompresses : ∃ a, ZipArchive.new ⟨xzArchive, 0⟩ = .ok a ∧
    ∃ f : ZipFile xzCrates (Take Source), a.byName "m" = .ok f ∧ Emits f [0x61, 0x62, 0x63] := by
  have hdir : directoryOf xzArchive = .ok xzDirectory := by decide +kernel
  have hlfh : lfhAt xzArchive xzMember.lfhOffset =
      .ok (⟨"m", .xz, 0, 0x352441C2, 56, 3⟩, 31) := by
    decide +kernel
  have hraw : slice xzArchive 31 xzMember.compressedSize = xzStream := by decide +kernel
  have hcrc : xzCrates.crc32 [0x61, 0x62, 0x63] = xzMember.crc32 := by decide +kernel
  have hwrites : (xzCrates.xz xzStream).Writes [0x61, 0x62, 0x63] := ⟨rfl, rfl⟩
  obtain ⟨pos, hnew⟩ := new_of_directoryOf hdir 0
  have hplain : ZipArchive.HoldsPlain ⟨⟨xzArchive, pos⟩, xzDirectory.1, xzDirectory.2⟩ xzMember
      xzStream := ⟨rfl, rfl, _, 31, hlfh, hraw⟩
  have hfind : xzDirectory.1.find? (fun e => e.name = "m") = some xzMember := by
    decide +kernel
  obtain ⟨hdecodes, -⟩ := buffered_members (k := xzCrates) hfind hplain
  obtain ⟨f, hf, hemits⟩ := (hdecodes _ (.xz hwrites)).1 (by decide)
  exact ⟨_, hnew, f, hf, hemits.2 hcrc⟩

end ZipForensic
