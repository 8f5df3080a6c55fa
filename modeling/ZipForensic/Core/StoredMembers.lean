import ZipForensic.Core.ContainerView
import ZipForensic.Core.StoredBlocks

/-!
# Random access to method-0 entries

A stored entry is indexed as one block: `uncompressed_size` bytes at the start of
its data. The sequential reader delivers `compressed_size` bytes from there. The
two header fields come from the archive and are not compared anywhere.

- `stored_view`: what `by_name` sets up for a stored entry.
- `readAt_stored_iff`: random access agrees with the sequential reader exactly when
  the uncompressed size is the number of bytes the sequential reader finds.
-/

namespace ZipForensic

variable {k : Crates}

/-- An entry that opens: its local header was read, and the readers were set up. -/
theorem openedPlain_eq_ok {F : Bytes} {m : CentralEntry} {thisDisk cdStartDisk : Nat}
    {f : ZipFile k (Window IoError)} (h : openedPlain F m thisDisk cdStartDisk = .ok f) :
    ∃ fields dataStart, lfhAt F m.lfhOffset = .ok (fields, dataStart) ∧
      ZipFile.openPlain m dataStart ⟨slice F dataStart m.compressedSize⟩ = .ok f := by
  unfold openedPlain at h
  obtain ⟨⟨⟩, -, h⟩ := Res.of_bind_ok h
  by_cases hflag : m.flags &&& 0x0001 ≠ 0
  · rw [if_pos hflag] at h
    cases h
  · rw [if_neg hflag] at h
    obtain ⟨⟨fields, dataStart⟩, hlfh, h⟩ := Res.of_bind_ok h
    refine ⟨fields, dataStart, hlfh, ?_⟩
    dsimp only at h
    cases hopen : (ZipFile.openPlain m dataStart ⟨slice F dataStart m.compressedSize⟩ :
        Except (ZipCoreError × Window IoError) (ZipFile k (Window IoError))) with
    | error e =>
      rw [hopen] at h
      cases h
    | ok f' =>
      rw [hopen] at h
      obtain rfl : f' = f := Except.ok.inj h
      rfl

/-- An entry that opens is a fresh reader over some decoder. -/
theorem openPlain_eq_start {m : CentralEntry} {dataStart : Nat} {w : Window IoError}
    {f : ZipFile k (Window IoError)} (h : ZipFile.openPlain m dataStart w = .ok f) :
    ∃ d, f = ZipFile.start m dataStart true d := by
  unfold ZipFile.openPlain ZipFile.decode at h
  cases hnew : (Decoder.new m.method m.uncompressedSize (.plain w) :
      Except (ZipCoreError × EntryReader k (Window IoError)) _) with
  | error e =>
    rw [hnew] at h
    cases h
  | ok d =>
    rw [hnew] at h
    exact ⟨d, (Except.ok.inj h).symm⟩

/-- What `by_name` sets up an entry from. -/
theorem of_byName {F : Bytes} {pos : Nat} {archive : ZipArchive} {name : String}
    {f : ZipFile k (Take Source)} (hnew : ZipArchive.new ⟨F, pos⟩ = .ok archive)
    (hname : archive.byName name = .ok f) :
    (∃ fields, lfhAt F f.entry.lfhOffset = .ok (fields, f.dataStart)) ∧
      ZipFile.openPlain f.entry f.dataStart ⟨slice F f.dataStart f.compressedSize⟩ =
        .ok (f.map Take.window) := by
  obtain ⟨hbytes, -⟩ := reader_of_new hnew
  unfold ZipArchive.byName at hname
  cases hfind : archive.entries.find? fun e => e.name = name with
  | none =>
    rw [hfind] at hname
    cases hname
  | some m =>
    rw [hfind] at hname
    dsimp only at hname
    have hview := view_open (k := k) archive m
    rw [hname, hbytes] at hview
    obtain ⟨fields, dataStart, hlfh, hopen⟩ := openedPlain_eq_ok hview.symm
    obtain ⟨d, hd⟩ := openPlain_eq_start hopen
    have hentry : f.entry = m := congrArg ZipFile.entry hd
    have hstart : f.dataStart = dataStart := congrArg ZipFile.dataStart hd
    subst hentry hstart
    exact ⟨⟨fields, hlfh⟩, hopen⟩

/-- Opening a stored entry by name sets up a reader over its `compressed_size` bytes. -/
theorem stored_view {F : Bytes} {pos : Nat} {archive : ZipArchive} {name : String}
    {f : ZipFile k (Take Source)} (hnew : ZipArchive.new ⟨F, pos⟩ = .ok archive)
    (hname : archive.byName name = .ok f) (hstored : f.compression = .stored) :
    f.map Take.window = storedFile f.entry f.dataStart (slice F f.dataStart f.compressedSize) := by
  obtain ⟨-, hopen⟩ := of_byName hnew hname
  have hmethod : f.entry.method = .stored := hstored
  unfold ZipFile.openPlain ZipFile.decode at hopen
  rw [hmethod] at hopen
  exact (Except.ok.inj hopen).symm

/-- The layout of a stored entry is one block of its uncompressed size. -/
theorem openEntry_stored {path : Bytes} {archive : ZipArchive} {name : String}
    {f : ZipFile k (Take Source)} (hnew : ZipArchive.new ⟨path, 0⟩ = .ok archive)
    (hname : archive.byName name = .ok f) (hstored : f.compression = .stored) :
    openEntry k path name = .ok ⟨path, f.size, .storedBlocks [⟨0, f.size, f.dataStart⟩]⟩ := by
  unfold openEntry
  rw [hnew, Res.bind_ok, hname]
  dsimp only
  rw [hstored]
  rfl

/-- One block over bytes that are all there is a run. -/
theorem blockRun_single {F : Bytes} {size dataStart : Nat} (h : dataStart + size ≤ F.length) :
    BlockRun F 0 [⟨0, size, dataStart⟩] (slice F dataStart size) := by
  have hrun := BlockRun.cons (b := ⟨0, size, dataStart⟩) h (.nil _)
  rwa [List.append_nil] at hrun

theorem readBlocksLoop_done {file : Bytes} {blocks : List StoredBlock} {wantEnd fuel cur : Nat}
    {filled : Bytes} (h : wantEnd ≤ cur) :
    StoredZipEntry.readBlocksLoop file blocks wantEnd fuel cur filled = .ok filled := by
  cases fuel with
  | zero => rfl
  | succ fuel => rw [StoredZipEntry.readBlocksLoop, if_neg (Nat.not_lt.2 h)]

/-- Random access to a one-block entry is one positioned read. -/
theorem readAt_single (F : Bytes) (size dataStart len offset : Nat) :
    StoredZipEntry.readAt k ⟨F, size, .storedBlocks [⟨0, size, dataStart⟩]⟩ len offset =
      if size ≤ offset ∨ len = 0 then .ok []
      else addU64 offset len >>= fun stop => addU64 dataStart offset >>= fun start =>
        preadExact F (min stop size - offset) start := by
  unfold StoredZipEntry.readAt
  by_cases hdone : size ≤ offset ∨ len = 0
  · rw [if_pos hdone, if_pos hdone]
  · rw [if_neg hdone, if_neg hdone]
    have hpart : partitionPoint (fun b : StoredBlock => decide (b.uncompStart + b.len ≤ offset))
        [⟨0, size, dataStart⟩] = 0 := by
      rw [partitionPoint_eq (.cons (by simp) .nil)]
      simp [List.findIdx_cons, show ¬ size ≤ offset by omega]
    by_cases hsum : offset + len ≤ u64Max
    · obtain ⟨n, hn⟩ : ∃ n, min (offset + len) size - offset = n + 1 :=
        ⟨min (offset + len) size - offset - 1, by omega⟩
      rw [addU64_eq hsum, Res.bind_ok, Res.bind_ok]
      dsimp only
      rw [subU64_eq (by omega), Res.bind_ok, hn, StoredZipEntry.readBlocksLoop,
        if_pos (by omega), hpart]
      simp only [List.getElem?_cons_zero]
      rw [subU64_eq (Nat.zero_le _), Res.bind_ok, Nat.sub_zero, subU64_eq (by omega),
        Res.bind_ok, hn, show min (size - offset) (n + 1) = n + 1 by omega]
      rcases addU64 dataStart offset with e | start
      · rfl
      · rw [Res.bind_ok, Res.bind_ok]
        rcases preadExact F (n + 1) start with e | bytes
        · rfl
        · rw [Res.bind_ok, readBlocksLoop_done (by omega), List.nil_append]
    · rw [addU64, if_neg hsum]
      rfl

/-- Reading one byte of a one-block entry never comes back empty before its end. -/
theorem readAt_single_ne_nil (F : Bytes) {size dataStart offset : Nat} (h : offset < size) :
    StoredZipEntry.readAt k ⟨F, size, .storedBlocks [⟨0, size, dataStart⟩]⟩ 1 offset ≠ .ok [] := by
  rw [readAt_single, if_neg (by omega)]
  intro hread
  obtain ⟨stop, hstop, hread⟩ := Res.of_bind_ok hread
  obtain ⟨start, -, hread⟩ := Res.of_bind_ok hread
  obtain ⟨-, rfl⟩ := of_addU64_ok hstop
  rw [show min (offset + 1) size - offset = 1 by omega, preadExact, if_neg one_ne_zero] at hread
  by_cases hin : start + 1 ≤ F.length
  · rw [if_pos hin] at hread
    have hlen := length_slice hin
    rw [Except.ok.inj hread] at hlen
    cases hlen
  · rw [if_neg hin] at hread
    cases hread

/-- Random access to a stored entry agrees with the sequential reader exactly when
its uncompressed size is the number of its data bytes that are in the file. -/
theorem readAt_stored_iff {path : Bytes} {archive : ZipArchive} {name : String}
    {f : ZipFile k (Take Source)} {entry : StoredZipEntry} {output : Bytes}
    (hpath : path.length ≤ isizeMax) (hnew : ZipArchive.new ⟨path, 0⟩ = .ok archive)
    (hname : archive.byName name = .ok f) (hstored : f.compression = .stored)
    (hopen : openEntry k path name = .ok entry) (hread : (readToEnd f).1 = .ok output) :
    (∀ len offset, len ≤ isizeMax →
        StoredZipEntry.readAt k entry len offset = .ok (slice output offset len)) ↔
      f.size = min f.compressedSize (path.length - f.dataStart) := by
  rw [openEntry_stored hnew hname hstored] at hopen
  obtain rfl := Except.ok.inj hopen
  rw [readToEnd_view, stored_view hnew hname hstored, readToEnd_stored] at hread
  have hout : output = slice path f.dataStart f.compressedSize := by
    by_cases hcrc : k.crc32 (slice path f.dataStart f.compressedSize) = f.entry.crc32
    · rw [if_pos hcrc] at hread
      exact (Except.ok.inj hread).symm
    · rw [if_neg hcrc] at hread
      cases hread
  have hlen : output.length = min f.compressedSize (path.length - f.dataStart) := by
    rw [hout, slice, List.length_take, List.length_drop]
  rw [← hlen]
  constructor
  · intro hagree
    rcases Nat.lt_trichotomy f.size output.length with hlt | heq | hgt
    · -- the sequential reader has a byte where random access reports the end
      have h := hagree 1 f.size (by decide)
      rw [StoredZipEntry.readAt, if_pos (.inl (Nat.le_refl _))] at h
      have hnil : (slice output f.size 1).length = 0 := by rw [← Except.ok.inj h]; rfl
      rw [length_slice (by omega)] at hnil
      cases hnil
    · exact heq
    · -- random access goes on where the sequential reader reports the end
      have h := hagree 1 output.length (by decide)
      have hnil : slice output output.length 1 = [] := by simp [slice]
      rw [hnil] at h
      exact absurd h (readAt_single_ne_nil path hgt)
  · intro hsize len offset hlen'
    have hout' : slice path f.dataStart f.size = output := by
      rw [hout, hsize, hlen]
      rcases Nat.le_total f.compressedSize (path.length - f.dataStart) with hle | hle
      · rw [Nat.min_eq_left hle]
      · rw [Nat.min_eq_right hle, slice, slice, List.take_of_length_le, List.take_of_length_le]
        · rw [List.length_drop]
          exact hle
        · rw [List.length_drop]
    by_cases hin : f.dataStart + f.size ≤ path.length
    · have hrun := blockRun_single hin
      rw [hout'] at hrun
      rw [hsize] at hrun ⊢
      exact readAt_storedBlocks k hrun hpath (by omega) hlen' offset
    · -- data that starts behind the end of the file is empty
      have hzero : f.size = 0 := by omega
      have hnil : output = [] := List.length_eq_zero_iff.1 (by omega)
      have hdone : f.size ≤ offset := by omega
      rw [StoredZipEntry.readAt, if_pos (.inl hdone), hnil]
      simp [slice]

/-! ## An archive of one stored member -/

/-- An archive of the three-byte member `m`, with `size` as its uncompressed size. -/
def storedArchive (size : UInt8) : Bytes :=
  -- local header, name, data
  [0x50, 0x4B, 0x03, 0x04, 20, 0, 0, 0, 0, 0, 0, 0, 0, 0, 0xC2, 0x41, 0x24, 0x35,
    3, 0, 0, 0, size, 0, 0, 0, 1, 0, 0, 0] ++ [0x6D] ++ [0x61, 0x62, 0x63] ++
  -- central header, name
  [0x50, 0x4B, 0x01, 0x02, 20, 0, 20, 0, 0, 0, 0, 0, 0, 0, 0, 0, 0xC2, 0x41, 0x24, 0x35,
    3, 0, 0, 0, size, 0, 0, 0, 1, 0, 0, 0, 0, 0, 0, 0, 0, 0, 0, 0, 0, 0, 0, 0, 0, 0] ++ [0x6D] ++
  -- EOCD
  [0x50, 0x4B, 0x05, 0x06, 0, 0, 0, 0, 1, 0, 1, 0, 47, 0, 0, 0, 34, 0, 0, 0, 0, 0]

/-- The member as parsed. -/
def storedMember (size : UInt8) : CentralEntry :=
  { name := "m", method := .stored, flags := 0, crc32 := 0x352441C2, compressedSize := 3,
    uncompressedSize := size.toNat, lfhOffset := 0, lastModTime := 0, aes := none, diskStart := 0,
    extra := {} }

/-- What the parser makes of the archive. -/
def storedDirectory (size : UInt8) : List CentralEntry × ArchiveSummary :=
  ([storedMember size],
    { fileLen := 103, centralDirOffset := 34, centralDirSize := 47, eocdEndOffset := 103,
      commentLen := 0, diskNumber := 0, cdStartDisk := 0, archiveSignatureLen := none })

/-- The archive opens, its member is found by name, and reading it to the end succeeds. -/
theorem storedArchive_opens (size : UInt8) (fields : HeaderFields)
    (hdir : directoryOf (storedArchive size) = .ok (storedDirectory size))
    (hlfh : lfhAt (storedArchive size) 0 = .ok (fields, 31))
    (hdata : slice (storedArchive size) 31 3 = [0x61, 0x62, 0x63]) :
    ∃ archive f, ZipArchive.new ⟨storedArchive size, 0⟩ = .ok archive ∧
      (archive.byName "m" : Opened .plain) = .ok f ∧ f.compression = .stored ∧
      f.entry = storedMember size ∧ f.dataStart = 31 ∧
      (readToEnd f).1 = .ok [0x61, 0x62, 0x63] := by
  obtain ⟨pos, hnew⟩ := new_of_directoryOf hdir 0
  have hdisk : checkLocalDisk (storedMember size) 0 0 = .ok () := rfl
  have hopen := openedPlain_stored (k := .plain) hdisk (by simp [storedMember]) (by rfl) hlfh
  have hbyName : ∀ a : ZipArchive, a.entries = [storedMember size] →
      (a.byName "m" : Opened .plain) = a.open (storedMember size) := by
    intro a ha
    rw [ZipArchive.byName, ha]
    rfl
  have hview := view_open (k := .plain)
    ⟨⟨storedArchive size, pos⟩, [storedMember size], (storedDirectory size).2⟩ (storedMember size)
  obtain ⟨f, hf, hmap⟩ := exists_of_view (hview.trans hopen)
  have hentry : f.entry = storedMember size := congrArg ZipFile.entry hmap
  refine ⟨_, f, hnew, (hbyName _ rfl).trans hf, ?_, hentry, congrArg ZipFile.dataStart hmap, ?_⟩
  · rw [ZipFile.compression, hentry]
    rfl
  · rw [readToEnd_view, hmap, readToEnd_stored]
    have hslice : slice (storedArchive size) 31 (storedMember size).compressedSize =
        [0x61, 0x62, 0x63] := hdata
    rw [hslice, if_pos]
    show crc32 [0x61, 0x62, 0x63] = 0x352441C2
    decide +kernel

theorem storedArchive_reads_back :
    ∃ entry, openEntry .plain (storedArchive 3) "m" = .ok entry ∧
      ∀ len offset, len ≤ isizeMax →
        StoredZipEntry.readAt .plain entry len offset = .ok (slice [0x61, 0x62, 0x63] offset len) := by
  obtain ⟨archive, f, hnew, hname, hstored, hentry, hstart, hread⟩ :=
    storedArchive_opens 3 ⟨"m", .stored, 0, 0x352441C2, 3, 3⟩
      (by decide +kernel) (by decide +kernel) (by decide)
  have hopen := openEntry_stored hnew hname hstored
  refine ⟨_, hopen, ?_⟩
  have hsize : f.size = min f.compressedSize ((storedArchive 3).length - f.dataStart) := by
    rw [ZipFile.size, ZipFile.compressedSize, hentry, hstart]
    decide
  exact (readAt_stored_iff (by decide) hnew hname hstored hopen hread).2 hsize

/-- With 5 recorded as the uncompressed size of three bytes, random access reads on
into the central directory. -/
theorem storedArchive_reads_outside :
    ∃ archive f entry, ZipArchive.new ⟨storedArchive 5, 0⟩ = .ok archive ∧
      (archive.byName "m" : Opened .plain) = .ok f ∧ f.compression = .stored ∧
      openEntry .plain (storedArchive 5) "m" = .ok entry ∧
      (readToEnd f).1 = .ok [0x61, 0x62, 0x63] ∧
      StoredZipEntry.readAt .plain entry 5 0 ≠ .ok (slice [0x61, 0x62, 0x63] 0 5) := by
  obtain ⟨archive, f, hnew, hname, hstored, hentry, hstart, hread⟩ :=
    storedArchive_opens 5 ⟨"m", .stored, 0, 0x352441C2, 3, 5⟩
      (by decide +kernel) (by decide +kernel) (by decide)
  refine ⟨archive, f, _, hnew, hname, hstored, openEntry_stored hnew hname hstored, hread, ?_⟩
  rw [ZipFile.size, hentry, hstart]
  decide +kernel

/-! ## An archive of two members -/

/-- 300 times the letter `a`, as an XZ stream. -/
def pairStream : Bytes :=
  [0xFD, 0x37, 0x7A, 0x58, 0x5A, 0x00, 0x00, 0x01, 0x69, 0x22, 0xDE, 0x36, 0x02, 0x00, 0x21, 0x01,
    0x0C, 0x00, 0x00, 0x00, 0x8F, 0x98, 0x41, 0x9C, 0xE0, 0x01, 0x2B, 0x00, 0x08, 0x5D, 0x00, 0x30,
    0xEF, 0xFB, 0xB7, 0xBF, 0xEE, 0x00, 0x00, 0x00, 0x09, 0x19, 0x97, 0x89, 0x00, 0x01, 0x20, 0xAC,
    0x02, 0x00, 0x00, 0x00, 0xF7, 0x6B, 0x27, 0xDB, 0x3E, 0x30, 0x0D, 0x8B, 0x02, 0x00, 0x00, 0x00,
    0x00, 0x01, 0x59, 0x5A]

/-- Crates that decode this stream and refuse every other. -/
def pairCrates : Crates :=
  { Crates.plain with
    xz := fun raw =>
      if raw = pairStream then ⟨[List.replicate 300 0x61], none⟩ else ⟨[], some "xz error"⟩ }

/-- An archive of a stored member in a directory, of three bytes the last two of which are `bc`,
and of that stream behind it. -/
def pairArchive (first : UInt8) : Bytes :=
  -- local header, name, data
  [0x50, 0x4B, 0x03, 0x04, 20, 0, 0, 0, 0, 0, 0, 0, 0, 0, 0xC2, 0x41, 0x24, 0x35,
    3, 0, 0, 0, 3, 0, 0, 0, 3, 0, 0, 0] ++ [0x64, 0x2F, 0x61] ++ [first, 0x62, 0x63] ++
  [0x50, 0x4B, 0x03, 0x04, 63, 0, 0, 0, 95, 0, 0, 0, 0, 0, 0x09, 0x19, 0x97, 0x89,
    68, 0, 0, 0, 0x2C, 1, 0, 0, 1, 0, 0, 0] ++ [0x62] ++ pairStream ++
  -- central headers, names
  [0x50, 0x4B, 0x01, 0x02, 20, 0, 20, 0, 0, 0, 0, 0, 0, 0, 0, 0, 0xC2, 0x41, 0x24, 0x35,
    3, 0, 0, 0, 3, 0, 0, 0, 3, 0, 0, 0, 0, 0, 0, 0, 0, 0, 0, 0, 0, 0, 0, 0, 0, 0] ++
  [0x64, 0x2F, 0x61] ++
  [0x50, 0x4B, 0x01, 0x02, 63, 0, 63, 0, 0, 0, 95, 0, 0, 0, 0, 0, 0x09, 0x19, 0x97, 0x89,
    68, 0, 0, 0, 0x2C, 1, 0, 0, 1, 0, 0, 0, 0, 0, 0, 0, 0, 0, 0, 0, 0, 0, 36, 0, 0, 0] ++ [0x62] ++
  -- EOCD
  [0x50, 0x4B, 0x05, 0x06, 0, 0, 0, 0, 2, 0, 2, 0, 96, 0, 0, 0, 135, 0, 0, 0, 0, 0]

/-- The members as parsed. -/
def pairFirst : CentralEntry := { storedMember 3 with name := "d/a" }

def pairSecond : CentralEntry :=
  { storedMember 3 with
    name := "b", method := .xz, crc32 := 0x89971909, compressedSize := 68, uncompressedSize := 300,
    lfhOffset := 36 }

/-- What the parser makes of the archive. -/
def pairDirectory : List CentralEntry × ArchiveSummary :=
  ([pairFirst, pairSecond],
    { fileLen := 253, centralDirOffset := 135, centralDirSize := 96, eocdEndOffset := 253,
      commentLen := 0, diskNumber := 0, cdStartDisk := 0, archiveSignatureLen := none })

/-- The archive of two members, opened. -/
def pairOpened (first : UInt8) (pos : Nat) : ZipArchive :=
  ⟨⟨pairArchive first, pos⟩, pairDirectory.1, pairDirectory.2⟩

/-- Its structural view. -/
def pairLayout : List EntryLayout :=
  [ZipArchive.entryLayout 0 pairFirst ⟨"d/a", .stored, 0, 0x352441C2, 3, 3⟩ 33,
    ZipArchive.entryLayout 1 pairSecond ⟨"b", .xz, 0, 0x89971909, 68, 300⟩ 67]

end ZipForensic
