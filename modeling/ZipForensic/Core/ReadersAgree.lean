import ZipForensic.Core.CrcGate
import ZipForensic.Core.FallbackReads
import ZipForensic.Core.SeekIndex
import ZipForensic.Core.VfsClients
import ZipForensic.Deflate.StoredFormat

/-!
# One content, however it is read

A member can be read from front to back, at an offset through the block index, the seek index
or a fresh decode, and at an offset of its node in a mount. Where the reading from front to
back ends without an error, with the declared number of bytes, all of them read the same.

- `Codec.Yields`, `Crates.SameFormats`: what has to be known of the decoders for that, that
  those of one format decode it alike.
- `readAt_deflated`, `readAt_deflate64`, ...: random access, layout by layout.
- `readers_agree` puts them together.
-/

namespace ZipForensic

variable {k : Crates}

/-! ## Decoders of one format -/

/-- Some run of reads of the decoder over `stream` delivers `data` and comes to its end. -/
def Codec.Yields (K : Codec IoError) (stream data : Bytes) : Prop :=
  ∃ ns n, (∀ m ∈ ns, 0 < m) ∧ 0 < n ∧
    Finishes (⟨K.init, ⟨stream⟩⟩ : Pipe K (Window IoError)) ns n data

/-- The decoders of DEFLATE inflate stored blocks to what they hold, and the two decoders of
`deflate64` have one output for a stream that is complete. -/
structure Crates.SameFormats (k : Crates) (output : k.inflater.State → Bytes → Option Bytes) :
    Prop where
  flate2_stored : ∀ {stream blocks data : Bytes} {rest : List Bool},
    inflateStored stream = .done blocks rest → k.flate2.Yields stream data → data = blocks
  deflate64_stored : ∀ {stream blocks data : Bytes} {rest : List Bool},
    inflateStored stream = .done blocks rest → k.deflate64.Yields stream data → data = blocks
  deflate64_inflater : ∀ {stream inflated data : Bytes},
    output k.inflater.new stream = some inflated → k.deflate64.Yields stream data →
      data = inflated

/-! ## From front to back -/

section Sequential

variable {F : Bytes} {pos : Nat} {a : ZipArchive} {name : String} {f : ZipFile k (Take Source)}
  {data : Bytes} (hnew : ZipArchive.new ⟨F, pos⟩ = .ok a)
  (hname : (a.byName name : Opened k) = .ok f) (hread : (readToEnd f).1 = .ok data)
include hnew hname hread

/-- The decoder of an entry that is read to its end comes to its own. -/
theorem decoder_finishes :
    ∃ d ns n, (∀ m ∈ ns, 0 < m) ∧ 0 < n ∧
      Decoder.new f.compression f.size
        (EntryReader.plain (⟨slice F f.dataStart f.compressedSize⟩ : Window IoError)) =
          .ok (d : Decoder k (EntryReader k (Window IoError))) ∧ Finishes d ns n data := by
  obtain ⟨-, hopen⟩ := of_byName hnew hname
  obtain ⟨d, hd, hstart⟩ := ZipFile.of_decode hopen
  rw [readToEnd_view, hstart] at hread
  obtain ⟨m, hfin⟩ := finishes_of_readToEnd hread
  have hpending := ZipFile.pending_start f.entry f.dataStart d
  refine ⟨d, _, _, ?_, by decide, hd, (hpending.finishes_iff.1 hfin).1⟩
  intro n hn
  rw [List.eq_of_mem_replicate hn]
  decide

theorem eq_of_stored (hmethod : f.compression = .stored) :
    data = slice F f.dataStart f.compressedSize := by
  obtain ⟨d, ns, n, hns, hn, hd, hfin⟩ := decoder_finishes hnew hname hread
  rw [hmethod] at hd
  obtain rfl := Except.ok.inj hd
  have hwindow : Emits (⟨slice F f.dataStart f.compressedSize⟩ : Window IoError)
      (slice F f.dataStart f.compressedSize) := Window.drains.emits trivial
  have hplain := (Emits.map (EntryReader.readHom_plain (k := k))).2 hwindow
  exact ((Emits.map Decoder.readHom_stored).2 hplain).eq_of_finishes hns hn hfin

theorem yields_of_deflated (hmethod : f.compression = .deflated) :
    k.flate2.Yields (slice F f.dataStart f.compressedSize) data := by
  obtain ⟨d, ns, n, hns, hn, hd, hfin⟩ := decoder_finishes hnew hname hread
  rw [hmethod] at hd
  obtain rfl := Except.ok.inj hd
  have hpipe := (Finishes.map Decoder.readHom_deflate).1 hfin
  exact ⟨ns, n, hns, hn, (Finishes.map (Pipe.readHom_map EntryReader.readHom_plain)).1 hpipe⟩

theorem yields_of_deflate64 (hmethod : f.compression = .deflate64) :
    k.deflate64.Yields (slice F f.dataStart f.compressedSize) data := by
  obtain ⟨d, ns, n, hns, hn, hd, hfin⟩ := decoder_finishes hnew hname hread
  rw [hmethod] at hd
  obtain rfl := Except.ok.inj hd
  have hpipe := (Finishes.map Decoder.readHom_deflate64).1 hfin
  exact ⟨ns, n, hns, hn, (Finishes.map (Pipe.readHom_map EntryReader.readHom_plain)).1 hpipe⟩

end Sequential

/-! ## At an offset -/

/-- Every read at an offset is one of `data`. -/
def StoredZipEntry.Serves (k : Crates) (entry : StoredZipEntry) (data : Bytes) : Prop :=
  ∀ len offset, len ≤ isizeMax → entry.readAt k len offset = .ok (contentAt data offset len)

theorem serves_of_run {F data : Bytes} {blocks : List StoredBlock} (hfile : F.length ≤ isizeMax)
    (hdata : data.length ≤ isizeMax) (hrun : BlockRun F 0 blocks data) :
    StoredZipEntry.Serves k ⟨F, data.length, .storedBlocks blocks⟩ data :=
  fun _ offset hlen => readAt_storedBlocks k hrun hfile hdata hlen offset

/-- A block index is one of a complete stream of stored blocks. -/
theorem run_of_index {F : Bytes} {name : String} {start csize usize : Nat}
    {blocks : List StoredBlock} (hin : start + csize ≤ F.length) (hfile : F.length ≤ isizeMax)
    (h : indexStoredBlocks F name start csize usize = .ok (some blocks)) :
    ∃ inflated rest, inflateStored (slice F start csize) = .done inflated rest ∧
      BlockRun F 0 blocks inflated := by
  obtain ⟨r, hfollows, hindex⟩ := indexStoredBlocks_follows name hin hfile
  rw [hindex] at h
  obtain ⟨found, rfl, hfound⟩ := Res.of_bind_ok h
  rcases found with _ | ⟨blocks', total⟩
  · cases hfound
  · dsimp only at hfound
    by_cases hsize : total ≠ usize
    · rw [if_pos hsize] at hfound
      cases hfound
    rw [if_neg hsize] at hfound
    obtain rfl := Option.some.inj (Except.ok.inj hfound)
    cases hinf : inflateStored (slice F start csize) with
    | done inflated rest =>
      rw [hinf] at hfollows
      obtain ⟨new, hnew, hrun⟩ := hfollows
      obtain ⟨rfl, -⟩ := Prod.mk.inj (Option.some.inj (Except.ok.inj hnew))
      exact ⟨inflated, rest, rfl, hrun⟩
    | nonStored =>
      rw [hinf] at hfollows
      cases hfollows
    | malformed =>
      rw [hinf] at hfollows
      exact absurd rfl (hfollows _)
    | truncated =>
      rw [hinf] at hfollows
      exact absurd rfl (hfollows _)

section RandomAccess

variable {F : Bytes} {a : ZipArchive} {name : String} {f : ZipFile k (Take Source)} {data : Bytes}
  (hnew : ZipArchive.new ⟨F, 0⟩ = .ok a) (hname : (a.byName name : Opened k) = .ok f)
  (hread : (readToEnd f).1 = .ok data) (hsize : f.size = data.length)
include hnew hname hread hsize

theorem serves_of_fallback (hgrants : k.Grants data.length) :
    StoredZipEntry.Serves k ⟨F, f.size, .fallback F name⟩ data := by
  intro len offset hlen
  by_cases hnothing : f.size ≤ offset ∨ len = 0
  · rw [StoredZipEntry.readAt, if_pos hnothing, contentAt]
    rcases hnothing with hend | hzero
    · rw [List.drop_eq_nil_of_le (hsize ▸ hend), List.take_nil]
    · rw [hzero, List.take_zero]
  · have hin : offset < f.size := by omega
    let entry : StoredZipEntry := ⟨F, f.size, .fallback F name⟩
    have hlayout : entry.layout = .fallback F name := rfl
    have hgrants' : k.Grants entry.uncompressedSize := by
      show k.Grants f.size
      rwa [hsize]
    have hdecoding := (StoredZipEntry.readAt_decoding hlen hlayout hnew hname hin (by omega)
      hgrants').1 data hread
    rw [hdecoding, sliceRange_declared hin (by omega), declaredAt, contentAt, hsize,
      List.take_length]

variable (hdata : data.length ≤ isizeMax) (hfile : F.length ≤ isizeMax)
  (hin : f.dataStart + f.compressedSize ≤ F.length)
include hdata hfile hin

theorem readAt_stored (hmethod : f.compression = .stored) :
    StoredZipEntry.Serves k ⟨F, f.size, .storedBlocks [⟨0, f.size, f.dataStart⟩]⟩ data := by
  have hslice := eq_of_stored hnew hname hread hmethod
  have hlen : data.length = f.compressedSize := by rw [hslice, length_slice hin]
  have hrun := blockRun_single hin
  rw [← hslice, ← hlen] at hrun
  rw [hsize]
  exact serves_of_run hfile hdata hrun

variable {output : k.inflater.State → Bytes → Option Bytes} (hformats : k.SameFormats output)
include hformats

theorem readAt_deflated (hmethod : f.compression = .deflated) {layout : Layout}
    (hlayout : deflateLayout F name f.dataStart f.compressedSize f.size = .ok layout)
    (hgrants : ∀ path inner, layout = .fallback path inner → k.Grants data.length) :
    StoredZipEntry.Serves k ⟨F, f.size, layout⟩ data := by
  rw [deflateLayout] at hlayout
  obtain ⟨found, hindex, hlayout⟩ := Res.of_bind_ok hlayout
  cases found with
  | some blocks =>
    obtain rfl := Except.ok.inj hlayout
    obtain ⟨inflated, rest, hdone, hrun⟩ := run_of_index hin hfile hindex
    obtain rfl := hformats.flate2_stored hdone (yields_of_deflated hnew hname hread hmethod)
    rw [hsize]
    exact serves_of_run hfile hdata hrun
  | none =>
    obtain rfl := Except.ok.inj hlayout
    exact serves_of_fallback hnew hname hread hsize (hgrants F name rfl)

theorem readAt_deflate64 (documented : k.inflater.Documented output)
    (hmethod : f.compression = .deflate64) {layout : Layout}
    (hlayout : deflate64Layout k F name f.dataStart f.compressedSize f.size = .ok layout) :
    StoredZipEntry.Serves k ⟨F, f.size, layout⟩ data := by
  have hyields := yields_of_deflate64 hnew hname hread hmethod
  rw [deflate64Layout] at hlayout
  obtain ⟨found, hindex, hlayout⟩ := Res.of_bind_ok hlayout
  cases found with
  | some blocks =>
    obtain rfl := Except.ok.inj hlayout
    obtain ⟨inflated, rest, hdone, hrun⟩ := run_of_index hin hfile hindex
    obtain rfl := hformats.deflate64_stored hdone hyields
    rw [hsize]
    exact serves_of_run hfile hdata hrun
  | none =>
    obtain ⟨index, hbuild, hlayout⟩ := Res.of_bind_ok hlayout
    obtain rfl := Except.ok.inj hlayout
    obtain ⟨-, inflated, hsound⟩ := Deflate64Index.sound_of_build documented hbuild
    obtain rfl := hformats.deflate64_inflater hsound.decodes hyields
    intro len offset hlen
    rw [StoredZipEntry.readAt]
    by_cases hnothing : f.size ≤ offset ∨ len = 0
    · rw [if_pos hnothing, contentAt]
      rcases hnothing with hend | hzero
      · rw [List.drop_eq_nil_of_le (hsize ▸ hend), List.take_nil]
      · rw [hzero, List.take_zero]
    · have hsum : offset + len ≤ u64Max := by
        unfold isizeMax u64Max at *
        omega
      rw [if_neg hnothing, addU64_eq hsum, Res.bind_ok]
      dsimp only
      rw [subU64_eq (by omega), Res.bind_ok]
      exact (hsound.readAt_iff documented.toStreamLaws len offset).2
        (hsound.readsInside hin len offset)

/-- Whatever layout `open_entry` chooses. -/
theorem serves_of_openEntry (documented : k.inflater.Documented output) {entry : StoredZipEntry}
    (hopen : openEntry k F name = .ok entry)
    (hgrants : ∀ path inner, entry.layout = .fallback path inner → k.Grants data.length) :
    entry.Serves k data := by
  rcases openEntry_cases hnew hname with ⟨hmethod, heq⟩ | ⟨hmethod, heq⟩ | ⟨hmethod, heq⟩ | ⟨-, heq⟩
  · obtain rfl := Except.ok.inj (heq.symm.trans hopen)
    exact readAt_stored hnew hname hread hsize hdata hfile hin hmethod
  · obtain ⟨layout, hlayout, hentry⟩ := Res.of_bind_ok (heq.symm.trans hopen)
    obtain rfl := Except.ok.inj hentry
    exact readAt_deflated hnew hname hread hsize hdata hfile hin hformats hmethod hlayout
      hgrants
  · obtain ⟨layout, hlayout, hentry⟩ := Res.of_bind_ok (heq.symm.trans hopen)
    obtain rfl := Except.ok.inj hentry
    exact readAt_deflate64 hnew hname hread hsize hdata hfile hin hformats documented hmethod
      hlayout
  · obtain rfl := Except.ok.inj (heq.symm.trans hopen)
    exact serves_of_fallback hnew hname hread hsize (hgrants F name rfl)

end RandomAccess

/-! ## In a mount -/

/-- The file node of an entry that is read to its end. -/
theorem holdsFile_of_byName {F : Bytes} {pos pos' i : Nat} {a : ZipArchive} {name : String}
    {f : ZipFile k (Take Source)} {data : Bytes} {v : ZipVfs}
    (hnew : ZipArchive.new ⟨F, pos⟩ = .ok a) (hname : (a.byName name : Opened k) = .ok f)
    (hread : (readToEnd f).1 = .ok data) (hentry : a.entries[i]? = some f.entry)
    (hmount : ZipVfs.open ⟨F, pos'⟩ = .ok v) {id : Nat} {node : Node}
    (hnode : v.nodes[id]? = some node) (hkind : node.kind = .file) (hidx : node.entryIdx = some i) :
    v.HoldsFile k (.opaqueId id) data := by
  have hopened : (a.byIndex i : Opened k) = .ok f := by
    rw [ZipArchive.byName] at hname
    rw [ZipArchive.byIndex, hentry]
    cases hfind : a.entries.find? fun e => e.name = name with
    | none =>
      rw [hfind] at hname
      cases hname
    | some m =>
      rw [hfind] at hname
      obtain rfl := (ZipArchive.pending_of_open hname).entry
      exact hname
  have hdecoded : decodedEntry k v.inner.archive i = .ok data := by
    rw [(sameArchive_of_mount hnew hmount).decodedEntry, decodedEntry, hopened]
    exact Opened.decoded_of_ok (Prod.ext hread rfl)
  exact ⟨id, node, i, rfl, hnode, hkind, hidx, hdecoded⟩

/-- **All readers agree.** A member whose compressed bytes lie in the file, and which is read
by name to its end without an error and with the declared number of bytes, is read the same at
every offset: through whatever `open_entry` makes of it - one block, the index of its stored
blocks, the seek index, or a fresh decode (into a buffer that the allocator grants) - and
through its file node in a mount, after any other calls. -/
theorem readers_agree {output : k.inflater.State → Bytes → Option Bytes}
    (documented : k.inflater.Documented output) (hformats : k.SameFormats output) {F : Bytes}
    (hfile : F.length ≤ isizeMax) {a : ZipArchive} {name : String} {f : ZipFile k (Take Source)}
    (hnew : ZipArchive.new ⟨F, 0⟩ = .ok a) (hname : (a.byName name : Opened k) = .ok f)
    (hin : f.dataStart + f.compressedSize ≤ F.length) {data : Bytes}
    (hread : (readToEnd f).1 = .ok data) (hsize : f.size = data.length)
    (hdata : data.length ≤ isizeMax) :
    (∀ entry, openEntry k F name = .ok entry →
      (∀ path inner, entry.layout = .fallback path inner → k.Grants data.length) →
        ∀ len offset, len ≤ isizeMax →
          entry.readAt k len offset = .ok (contentAt data offset len)) ∧
    ∀ pos v, ZipVfs.open ⟨F, pos⟩ = .ok v → ∀ calls i id node, a.entries[i]? = some f.entry →
      v.nodes[id]? = some node → node.kind = .file → node.entryIdx = some i → ∀ off len,
        ((runCalls (VfsCall.run k) calls v).2.readAt k (.opaqueId id) .default off len).1 =
          .ok (contentAt data off len) := by
  refine ⟨fun entry hopen hgrants => ?_, ?_⟩
  · exact serves_of_openEntry hnew hname hread hsize hdata hfile hin hformats documented hopen
      hgrants
  · intro pos v hmount calls i id node hentry hnode hkind hidx off len
    exact (holdsFile_of_byName hnew hname hread hentry hmount hnode hkind hidx).readAt_after
      hmount calls off len

/-! ## An instance -/

open Deflate64Index (runsCrates runsOutput runs_documented)

/-- Decoders of stored blocks, beside the inflater of fixed blocks. -/
def blocksCrates : Crates :=
  { runsCrates with
    flate2 := .ofFormat storedFormat (.other "corrupt deflate stream") 8191
    deflate64 := .ofFormat storedFormat (.other "corrupt deflate stream") 8191 }

/-- A fixed block is no stored one. -/
theorem nonStored_of_output {stream inflated : Bytes}
    (h : runsOutput blocksCrates.inflater.new stream = some inflated) :
    inflateStored stream = .nonStored := by
  cases stream with
  | nil => cases h
  | cons b bs =>
    have hstep : FixedRuns.stepRuns FixedRuns.new b ≠ none := by
      intro hnone
      have hbad : FixedRuns.transducer.step FixedRuns.new b = none :=
        congrArg (Option.map fun r : FixedRuns × List (Nat × UInt8) =>
          (r.1, FixedRuns.expand r.2)) hnone
      have hnot : FixedRuns.transducer.output FixedRuns.new [] (b :: bs) = none :=
        Transducer.output_cons_bad rfl hbad
      cases hnot.symm.trans h
    have hbits : ([] ++ natBits 8 b.toNat).take 3 = [true, true, false] := by
      by_contra hnot
      exact hstep (if_neg hnot)
    have htype : b.toNat / 2 % 4 ≠ 0 := by
      have hsecond : decide (b.toNat / 2 % 2 = 1) = true := by
        have hget := congrArg (fun l : List Bool => l[1]?) hbits
        exact Option.some.inj hget
      have hodd := of_decide_eq_true hsecond
      omega
    rw [inflateStored, inflateStoredBits_bytes]
    dsimp only
    rw [if_pos htype]

theorem blocksCrates_sameFormats : blocksCrates.SameFormats runsOutput where
  flate2_stored hdone hyields := by
    obtain ⟨ns, n, hns, hn, hfin⟩ := hyields
    have hparse : storedFormat.parse _ = .complete _ := congrArg Inflated.frame hdone
    exact (FrameFormat.emits hparse).eq_of_finishes hns hn hfin
  deflate64_stored hdone hyields := by
    obtain ⟨ns, n, hns, hn, hfin⟩ := hyields
    have hparse : storedFormat.parse _ = .complete _ := congrArg Inflated.frame hdone
    exact (FrameFormat.emits hparse).eq_of_finishes hns hn hfin
  deflate64_inflater hout hyields := by
    obtain ⟨ns, n, -, -, hfin⟩ := hyields
    have hparse : storedFormat.parse _ = .corrupt :=
      congrArg Inflated.frame (nonStored_of_output hout)
    exact absurd hfin (FrameFormat.not_finishes hparse ns n _)

/-- An archive of the member `m`, deflated: "hi" in one stored block and "!" in another. -/
def blocksArchive : Bytes :=
  -- local header, name, data
  [0x50, 0x4B, 0x03, 0x04, 20, 0, 0, 0, 8, 0, 0, 0, 0, 0, 0x3A, 0x83, 0xD3, 0x41,
    13, 0, 0, 0, 3, 0, 0, 0, 1, 0, 0, 0] ++ [0x6D] ++
  [0x00, 2, 0, 0xFD, 0xFF, 0x68, 0x69, 0x01, 1, 0, 0xFE, 0xFF, 0x21] ++
  -- central header, name
  [0x50, 0x4B, 0x01, 0x02, 20, 0, 20, 0, 0, 0, 8, 0, 0, 0, 0, 0, 0x3A, 0x83, 0xD3, 0x41,
    13, 0, 0, 0, 3, 0, 0, 0, 1, 0, 0, 0, 0, 0, 0, 0, 0, 0, 0, 0, 0, 0, 0, 0, 0, 0] ++ [0x6D] ++
  -- EOCD
  [0x50, 0x4B, 0x05, 0x06, 0, 0, 0, 0, 1, 0, 1, 0, 47, 0, 0, 0, 44, 0, 0, 0, 0, 0]

/-- The member as parsed. -/
def blocksMember : CentralEntry :=
  { name := "m", method := .deflated, flags := 0, crc32 := 0x41D3833A, compressedSize := 13,
    uncompressedSize := 3, lfhOffset := 0, lastModTime := 0, aes := none, diskStart := 0,
    extra := {} }

/-- What the parser makes of the archive. -/
def blocksDirectory : List CentralEntry × ArchiveSummary :=
  ([blocksMember],
    { fileLen := 113, centralDirOffset := 44, centralDirSize := 47, eocdEndOffset := 113,
      commentLen := 0, diskNumber := 0, cdStartDisk := 0, archiveSignatureLen := none })

/-- The archive of the two blocks, and the member's reader. -/
theorem blocksArchive_opened :
    ∃ a f, ZipArchive.new ⟨blocksArchive, 0⟩ = .ok a ∧ a.reader.bytes = blocksArchive ∧
      a.entries = [blocksMember] ∧ (a.byIndex 0 : Opened blocksCrates) = .ok f ∧
      f.entry = blocksMember ∧ f.dataStart = 31 ∧
      (readToEnd f).1 = .ok [0x68, 0x69, 0x21] := by
  have hdir : directoryOf blocksArchive = .ok blocksDirectory := by decide +kernel
  have hread : (openedPlain blocksArchive blocksMember 0 0 :
      Res ZipCoreError (ZipFile blocksCrates (Window IoError))).map
        (fun f => (f.dataStart, (readToEnd f).1)) = .ok (31, .ok [0x68, 0x69, 0x21]) := by
    decide +kernel
  obtain ⟨pos, hnew⟩ := new_of_directoryOf hdir 0
  have hview := view_open (k := blocksCrates)
    ⟨⟨blocksArchive, pos⟩, [blocksMember], blocksDirectory.2⟩ blocksMember
  cases hopened : (openedPlain blocksArchive blocksMember 0 0 :
      Res ZipCoreError (ZipFile blocksCrates (Window IoError))) with
  | error e =>
    rw [hopened] at hread
    cases hread
  | ok g =>
    rw [hopened] at hread
    obtain ⟨hstart, hdata⟩ := Prod.mk.inj (Except.ok.inj hread)
    obtain ⟨f, hf, hmap⟩ := exists_of_view (hview.trans hopened)
    refine ⟨_, f, hnew, rfl, rfl, hf, (ZipArchive.pending_of_open hf).entry,
      (congrArg ZipFile.dataStart hmap).trans hstart, ?_⟩
    rw [readToEnd_view, hmap, hdata]

/-- A read across the two blocks. -/
theorem blocksArchive_agree : ∃ entry, openEntry blocksCrates blocksArchive "m" = .ok entry ∧
    entry.readAt blocksCrates 5 1 = .ok [0x69, 0x21] := by
  have hopen : openEntry blocksCrates blocksArchive "m" =
      .ok ⟨blocksArchive, 3, .storedBlocks [⟨0, 2, 36⟩, ⟨2, 1, 43⟩]⟩ := by decide +kernel
  obtain ⟨a, f, hnew, -, hentries, hf, hentry, hat, hend⟩ := blocksArchive_opened
  have hname : (a.byName "m" : Opened blocksCrates) = .ok f := by
    rw [ZipArchive.byIndex, hentries] at hf
    rw [ZipArchive.byName, hentries]
    exact hf
  have hin : f.dataStart + f.compressedSize ≤ blocksArchive.length := by
    rw [ZipFile.compressedSize, hentry, hat]
    decide
  have hsize : f.size = 3 := by
    rw [ZipFile.size, hentry]
    rfl
  have hfile : blocksArchive.length ≤ isizeMax := by decide
  have hagree := readers_agree (k := blocksCrates) runs_documented blocksCrates_sameFormats hfile
    hnew hname hin hend hsize (by decide)
  exact ⟨_, hopen, hagree.1 _ hopen (fun _ _ _ => by decide) 5 1 (by decide)⟩

end ZipForensic
