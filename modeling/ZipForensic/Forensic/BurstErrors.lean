import ZipForensic.Cipher.Bursts
import ZipForensic.Core.Crc32
import ZipForensic.Core.VfsNavigation
import ZipForensic.Forensic.CrcFindings

/-!
# Damaged data

The CRC-32 of the central directory is the only check on the data of an entry. It tells
apart any two data that differ in a burst of at most 32 bits (`eq_of_crc32_burst`), since
the register is as wide as the burst and every shift of it can be undone.

- `CrcChecked.eq_of_burst`: no reader that checks the CRC comes to a clean end over data
  damaged by such a burst, whatever the method and the encryption.
- `burst_noticed`: for stored data, every path that decodes notices the damage: the
  sequential reader, the mounted file and the audit.
-/

namespace ZipForensic

variable {k : Crates}

/-- Data that differ in at most 32 consecutive bits. -/
def BurstDamage (data damaged : Bytes) : Prop := Burst 32 (messageBits data) (messageBits damaged)

theorem messageBits_cons (b : UInt8) (bytes : Bytes) :
    messageBits (b :: bytes) = Lfsr.lowBits 8 b.toBitVec ++ messageBits bytes :=
  List.flatMap_cons

theorem length_lowBits {w : Nat} (n : Nat) (x : BitVec w) : (Lfsr.lowBits n x).length = n := by
  simp [Lfsr.lowBits]

theorem toBitVec_eq_of_lowBits {b c : UInt8}
    (h : Lfsr.lowBits 8 b.toBitVec = Lfsr.lowBits 8 c.toBitVec) : b = c := by
  refine UInt8.toBitVec_inj.1 (BitVec.eq_of_getLsbD_eq fun i hi => ?_)
  exact List.map_inj_left.1 h i (List.mem_range.2 hi)

theorem messageBits_cons_ne_nil (b : UInt8) (bytes : Bytes) : messageBits (b :: bytes) ≠ [] := by
  intro h
  have hlen := congrArg List.length h
  rw [messageBits_cons, List.length_append, length_lowBits, List.length_nil] at hlen
  omega

/-- The bits of a byte string are those of no other. -/
theorem messageBits_injective : Function.Injective messageBits := by
  intro xs
  induction xs with
  | nil =>
    intro ys h
    cases ys with
    | nil => rfl
    | cons c ys => exact absurd h.symm (messageBits_cons_ne_nil c ys)
  | cons b xs ih =>
    intro ys h
    cases ys with
    | nil => exact absurd h (messageBits_cons_ne_nil b xs)
    | cons c ys =>
      rw [messageBits_cons, messageBits_cons] at h
      obtain ⟨hbyte, hrest⟩ := List.append_inj h (by rw [length_lowBits, length_lowBits])
      rw [toBitVec_eq_of_lowBits hbyte, ih hrest]

/-- **The CRC-32 of damaged data is another one.** -/
theorem eq_of_crc32_burst {data damaged : Bytes} (hburst : BurstDamage data damaged)
    (h : crc32 damaged = crc32 data) : damaged = data := by
  have hreg := congrArg UInt32.toBitVec (UInt32.not_inj.1 h)
  rw [toBitVec_foldl_crc32Byte, toBitVec_foldl_crc32Byte] at hreg
  have htop : crc32Poly.getLsbD 31 = true := by decide
  exact (messageBits_injective
    (Lfsr.eq_of_burst (by decide) htop hburst hreg.symm)).symm

/-! ## Readers -/

variable {a : ZipArchive} {m : CentralEntry} {f : ZipFile k (Take Source)} {data : Bytes}

/-- A reader that checks the CRC comes to a clean end over the archived data only, among
all that differ from it in one burst. -/
theorem CrcChecked.eq_of_burst (hcrc : k.crc32 = crc32) (hopen : a.CrcChecked m f)
    (hrecorded : m.crc32 = crc32 data) {ns : List Nat} {n : Nat} {damaged : Bytes}
    (hfin : Finishes f ns n damaged) (hburst : BurstDamage data damaged) : damaged = data := by
  have hsame := (hopen.pending.finishes_iff.1 hfin).2
  rw [hcrc, hrecorded] at hsame
  exact eq_of_crc32_burst hburst hsame

/-- The error of the check of `m` over `damaged`. -/
def damageError (k : Crates) (m : CentralEntry) (damaged : Bytes) : IoError :=
  .wrapped (.crcMismatch m.name m.crc32 (k.crc32 damaged))

/-- A stored entry whose data does not have the recorded CRC, read to its end. -/
theorem readToEnd_damaged (hopen : (a.open m : Opened k) = .ok f) (hstored : m.method = .stored)
    (hbad : k.crc32 (slice a.reader.bytes f.dataStart m.compressedSize) ≠ m.crc32) :
    (readToEnd f).1 = .error
      (damageError k m (slice a.reader.bytes f.dataStart m.compressedSize)) := by
  rw [ZipArchive.readToEnd_of_open hopen hstored, if_neg hbad, damageError]

/-! ## The mounted file and the audit -/

/-- The file node of an entry whose read to the end fails answers every read with that
error, whatever was called before. -/
theorem readAt_damaged {F : Bytes} {pos pos' i : Nat} {v : ZipVfs} {e : IoError}
    (hnew : ZipArchive.new ⟨F, pos⟩ = .ok a) (hopen : (a.byIndex i : Opened k) = .ok f)
    (hread : (readToEnd f).1 = .error e) (hmount : ZipVfs.open ⟨F, pos'⟩ = .ok v)
    (calls : List VfsCall) {id : Nat} {node : Node} (hnode : v.nodes[id]? = some node)
    (hkind : node.kind = .file) (hentry : node.entryIdx = some i) (off len : Nat) :
    ((runCalls (VfsCall.run k) calls v).2.readAt k (.opaqueId id) .default off len).1 =
      Res.err (.io "zip read" e) := by
  have hmounted : Mounted k v.inner.archive v.nodes v := mounted_of_open hmount hmount
  have hafter := (memoryless_vfs hmounted).runCalls_keeps calls hmounted
  have hdecoded : decodedEntry k v.inner.archive i = Res.err (.io "zip read" e) := by
    rw [(sameArchive_of_mount hnew hmount).decodedEntry, decodedEntry, hopen]
    exact Opened.decoded_of_error (Prod.ext hread rfl)
  have hof : (runCalls (VfsCall.run k) calls v).2.nodeOf (.opaqueId id) = .ok node :=
    ZipVfs.nodeOf_eq (hafter.nodes_eq.symm ▸ hnode)
  rw [(hafter.readAt _ _ off len).1, servedAt, hof]
  show servedFrom k v.inner.archive node off len = _
  rw [servedFrom, if_neg (not_not_intro hkind), hentry]
  dsimp only
  rw [hdecoded]
  rfl

/-- **Damage in one burst is noticed.** Where the central directory has the CRC-32 of
`data` and the file holds other data that differ from them in at most 32 consecutive bits,
no run of reads of the entry comes to a clean end and reading it to its end fails with the
mismatch, every read of its file node fails with it, and the audit reports the entry. -/
theorem burst_noticed (hcrc : k.crc32 = crc32) (hown : k.OwnErrors) {F : Bytes} {pos i : Nat}
    (hnew : ZipArchive.new ⟨F, pos⟩ = .ok a) (hopen : (a.byIndex i : Opened k) = .ok f)
    (hstored : f.entry.method = .stored) (hrecorded : f.entry.crc32 = crc32 data)
    (hburst : BurstDamage data (slice F f.dataStart f.entry.compressedSize))
    (hdamaged : slice F f.dataStart f.entry.compressedSize ≠ data) :
    (∀ ns n out, (∀ m ∈ ns, 0 < m) → 0 < n → ¬ Finishes f ns n out) ∧
    (readToEnd f).1 = .error
      (damageError k f.entry (slice F f.dataStart f.entry.compressedSize)) ∧
    (∀ pos' v, ZipVfs.open ⟨F, pos'⟩ = .ok v → ∀ calls id node, v.nodes[id]? = some node →
      node.kind = .file → node.entryIdx = some i → ∀ off len,
        ((runCalls (VfsCall.run k) calls v).2.readAt k (.opaqueId id) .default off len).1 =
          Res.err (.io "zip read"
            (damageError k f.entry (slice F f.dataStart f.entry.compressedSize)))) ∧
    ∀ layout, a.structuralView.1 = .ok layout → ∃ found, auditReader k ⟨F, pos⟩ = .ok found ∧
      i ∈ found.filterMap Anomaly.crcIndex := by
  have hbytes : a.reader.bytes = F := (reader_of_new hnew).1
  obtain ⟨hentry, hopened⟩ := ZipArchive.of_byIndex hopen
  have hbad : k.crc32 (slice a.reader.bytes f.dataStart f.entry.compressedSize) ≠ f.entry.crc32 := by
    rw [hbytes, hcrc, hrecorded]
    exact fun h => hdamaged (eq_of_crc32_burst hburst h)
  have hread := readToEnd_damaged hopened hstored hbad
  rw [hbytes] at hread
  refine ⟨?_, hread, ?_, ?_⟩
  · intro ns n out hns hn hfin
    obtain ⟨hdec, hgood⟩ := (ZipArchive.pending_of_open hopened).finishes_iff.1 hfin
    have hout := (ZipArchive.emits_of_open hopened hstored).eq_of_finishes hns hn hdec
    exact hbad (hout ▸ hgood)
  · intro pos' v hmount calls id node hnode hkind hidx off len
    exact readAt_damaged hnew hopen hread hmount calls hnode hkind hidx off len
  · intro layout hview
    obtain ⟨hat, pos'', crcs, hcrcs, -, haudit⟩ := auditReader_ok (k := k) hnew hview
    have hfails : FailsCrc k a i :=
      (failsCrc_iff_of_byIndex hown hopen).2 ⟨_, hread, isCrcMismatch_iff.2 ⟨_, _, _, rfl⟩⟩
    have hlt := (List.getElem?_eq_some_iff.1 hentry).1
    have hlen := (of_layoutsAt hat).1
    have hreader : (⟨a.reader.bytes, pos''⟩ : Source).bytes = a.reader.bytes := rfl
    refine ⟨_, haudit, ?_⟩
    rw [List.filterMap_append]
    refine List.mem_append_right _ (((auditCrcs_spec hown hcrcs).2 i).2 ⟨Nat.zero_le i, ?_, ?_⟩)
    · omega
    · exact (failsCrc_reader hreader).2 hfails

/-- The archive with one changed byte: reading its member fails. -/
theorem corruptArchive_noticed : ∃ a f, ZipArchive.new ⟨corruptArchive, 0⟩ = .ok a ∧
    (a.byIndex 0 : Opened .plain) = .ok f ∧ ∃ e, (readToEnd f).1 = .error e := by
  have hdir : directoryOf corruptArchive = .ok (storedDirectory 3) := by decide +kernel
  have hlfh : lfhAt corruptArchive 0 = .ok (⟨"m", .stored, 0, 0x352441C2, 3, 3⟩, 31) := by
    decide +kernel
  obtain ⟨pos, hnew⟩ := new_of_directoryOf hdir 0
  have hdisk : checkLocalDisk (storedMember 3) 0 0 = .ok () := rfl
  have hopen := openedPlain_stored (k := .plain) hdisk (by simp [storedMember]) (by rfl) hlfh
  have hview := view_open (k := .plain)
    ⟨⟨corruptArchive, pos⟩, [storedMember 3], (storedDirectory 3).2⟩ (storedMember 3)
  obtain ⟨f, hf, hmap⟩ := exists_of_view (hview.trans hopen)
  have hentry : f.entry = storedMember 3 := congrArg ZipFile.entry hmap
  have hstart : f.dataStart = 31 := congrArg ZipFile.dataStart hmap
  have hslice : slice corruptArchive f.dataStart f.entry.compressedSize = [0x7A, 0x62, 0x63] := by
    rw [hentry, hstart]
    decide +kernel
  -- the damage is in the first byte
  have hburst : BurstDamage [0x61, 0x62, 0x63] [0x7A, 0x62, 0x63] :=
    ⟨[], messageBits [0x61], messageBits [0x7A], messageBits [0x62, 0x63], by decide, by decide,
      by decide, by decide⟩
  have hrecorded : f.entry.crc32 = crc32 [0x61, 0x62, 0x63] := by
    rw [hentry]
    decide +kernel
  have hnoticed := burst_noticed (k := .plain) (i := 0) rfl Crates.plain_ownErrors hnew hf
    (by rw [hentry]; rfl) hrecorded (by rw [hslice]; exact hburst) (by rw [hslice]; decide)
  exact ⟨_, f, hnew, hf, _, hnoticed.2.1⟩

end ZipForensic
