import ZipForensic.Core.CrcGate
import ZipForensic.Core.StoredMembers
import ZipForensic.Forensic.Overlap

/-!
# Which CRC findings an audit makes

`audit_reader` drains every entry it can open and keeps the CRC failures.

- `FailsCrc a i`: entry `i` opens, its decoder reaches its end of stream without an
  error, and the CRC-32 of what it delivered is not the recorded one. That depends on
  the bytes of the file only (`failsCrc_iff_view`).
- `auditCrcs_spec`: the pass over the entries, each opened through the reader the one
  before it handed back.
- `auditReader_crcFindings`: the CRC findings of a whole audit.
-/

namespace ZipForensic

variable {k : Crates}

/-- The entry a CRC finding is about. -/
def Anomaly.crcIndex (x : Anomaly) : Option Nat :=
  match x.kind with
  | .crcMismatch index _ => some index
  | _ => none

/-- The run of `io::copy` over a decoder delivers `data` and comes to the end. -/
def Drained {τ : Type} [Read IoError τ] (d : Decoder k (EntryReader k τ)) (data : Bytes) : Prop :=
  ∃ n, Finishes d (List.replicate n bufSize) bufSize data

/-- Entry `i` opens and its decoder reaches the end of stream, but the CRC-32 of what it
delivered is not the one of the central directory. -/
def FailsCrc (k : Crates) (a : ZipArchive) (i : Nat) : Prop :=
  ∃ m f data, a.entries[i]? = some m ∧ (a.byIndex i : Opened k) = .ok f ∧
    Drained f.decoder data ∧ k.crc32 data ≠ m.crc32

/-! ## One entry -/

theorem isCrcMismatch_iff {e : IoError} : isCrcMismatch e = true ↔ e.IsCrcMismatch := by
  constructor
  · intro h
    unfold isCrcMismatch at h
    split at h
    · exact ⟨_, _, _, rfl⟩
    · cases h
  · rintro ⟨entry, expected, actual, rfl⟩
    rfl

/-- A run fails at the gate exactly when the decoder's run comes to its end with another
CRC than the recorded one. -/
theorem ZipFile.Pending.fails_iff {τ : Type} [Read IoError τ] [RaisesOnly IoError.NotCrcMismatch τ]
    (hk : k.OwnErrors) {m : CentralEntry} {f : ZipFile k τ} (h : f.Pending m []) {ns : List Nat}
    {n : Nat} :
    (∃ e, Fails f ns n e ∧ e.IsCrcMismatch) ↔
      ∃ data, Finishes f.decoder ns n data ∧ k.crc32 data ≠ m.crc32 := by
  constructor
  · rintro ⟨e, ⟨hdelivers, hend⟩, hcrc⟩
    have hsame := reads_decoder_of_delivers hdelivers
    have hnot : .ok [] ∉ (ZipForensic.reads ns f.decoder).1 := by
      rw [hsame]
      intro hmem
      obtain ⟨b, bs, heq⟩ := hdelivers _ hmem
      cases heq
    have hfed := (h.reads hnot).2
    rw [List.nil_append] at hfed
    by_cases hdec : (ZipForensic.read n (ZipForensic.reads ns f).2.decoder).1 = .ok []
    · refine ⟨_, ⟨?_, rfl, ?_⟩, fun hgood => ?_⟩
      · rw [hsame]
        exact hdelivers
      · rw [← reads_decoder]
        exact hdec
      · have hgate := hfed.read_end hdec
        rw [if_pos hgood, hend] at hgate
        cases hgate
    · -- below the gate nothing reports a CRC mismatch
      have hpass := (hfed.read hdec).1
      rw [hend] at hpass
      exact absurd hcrc ((Decoder.raisesOnly hk).read_error hpass.symm)
  · rintro ⟨data, hfin, hcrc⟩
    obtain ⟨hsame, hfed⟩ := h.reads hfin.not_mem
    rw [List.nil_append, hfin.data_eq] at hfed
    have hgate := hfed.read_end (n := n) (by rw [reads_decoder]; exact hfin.ends)
    rw [if_neg hcrc] at hgate
    refine ⟨_, ⟨?_, hgate⟩, ⟨_, _, _, rfl⟩⟩
    rw [hsame]
    exact hfin.delivers

/-- Draining an opened entry gives a CRC finding exactly when the entry fails its CRC. -/
theorem failsCrc_iff_of_byIndex (hk : k.OwnErrors) {a : ZipArchive} {i : Nat}
    {f : ZipFile k (Take Source)} (hopen : (a.byIndex i : Opened k) = .ok f) :
    FailsCrc k a i ↔ ∃ e, (readToEnd f).1 = .error e ∧ isCrcMismatch e = true := by
  obtain ⟨hentry, hopened⟩ := ZipArchive.of_byIndex hopen
  have hpending := ZipArchive.pending_of_open hopened
  constructor
  · rintro ⟨m, f', data, hm, hopen', ⟨n, hfin⟩, hcrc⟩
    obtain rfl := Except.ok.inj (hopen.symm.trans hopen')
    obtain rfl := Option.some.inj (hm.symm.trans hentry)
    obtain ⟨e, hfails, he⟩ := (hpending.fails_iff hk).2 ⟨data, hfin, hcrc⟩
    exact ⟨e, readToEnd_eq_error_iff.2 ⟨n, hfails⟩, isCrcMismatch_iff.2 he⟩
  · rintro ⟨e, hread, he⟩
    obtain ⟨n, hfails⟩ := readToEnd_eq_error_iff.1 hread
    obtain ⟨data, hfin, hcrc⟩ := (hpending.fails_iff hk).1 ⟨e, hfails, isCrcMismatch_iff.1 he⟩
    exact ⟨_, f, data, hentry, hopen, ⟨n, hfin⟩, hcrc⟩

/-! ## The pass over the entries -/

theorem Drained.map {τ τ' : Type} [Read IoError τ] [Read IoError τ'] {g : τ → τ'} (hg : ReadHom g)
    {f : ZipFile k τ} {data : Bytes} : Drained (f.map g).decoder data ↔ Drained f.decoder data :=
  exists_congr fun _ => Finishes.map (Decoder.readHom_map (EntryReader.readHom_map hg))

/-- Whether an entry fails its CRC depends on the bytes of the file, not on where the
archive's reader stands. -/
theorem failsCrc_iff_view {a : ZipArchive} {i : Nat} :
    FailsCrc k a i ↔ ∃ m f data, a.entries[i]? = some m ∧
      (openedPlain a.reader.bytes m a.summary.diskNumber a.summary.cdStartDisk :
        Res ZipCoreError (ZipFile k (Window IoError))) = .ok f ∧
      Drained f.decoder data ∧ k.crc32 data ≠ m.crc32 := by
  constructor
  · rintro ⟨m, f, data, hm, hopen, hdrained, hcrc⟩
    have hview := view_open (k := k) a m
    unfold ZipArchive.byIndex at hopen
    rw [hm] at hopen
    dsimp only at hopen
    rw [hopen] at hview
    exact ⟨m, _, data, hm, hview.symm, (Drained.map readHom_window).2 hdrained, hcrc⟩
  · rintro ⟨m, w, data, hm, hview, hdrained, hcrc⟩
    obtain ⟨f, hopen, rfl⟩ := exists_of_view ((view_open (k := k) a m).trans hview)
    refine ⟨m, f, data, hm, ?_, (Drained.map readHom_window).1 hdrained, hcrc⟩
    unfold ZipArchive.byIndex
    rw [hm]
    exact hopen

/-- The archive with its reader elsewhere in the file has the same CRC failures. -/
theorem failsCrc_reader {a : ZipArchive} {reader : Source} (h : reader.bytes = a.reader.bytes)
    {i : Nat} : FailsCrc k { a with reader } i ↔ FailsCrc k a i := by
  rw [failsCrc_iff_view, failsCrc_iff_view, h]

/-- Where the local headers are there, opening an entry does not panic. -/
theorem byIndex_ne_panic_of_headers {a : ZipArchive}
    (hheaders : ∀ m ∈ a.entries, ∃ x, lfhAt a.reader.bytes m.lfhOffset = .ok x) (i : Nat)
    (reader : Source) : (a.byIndex i : Opened k) ≠ .error (.panic, reader) := by
  intro hopen
  unfold ZipArchive.byIndex at hopen
  cases hm : a.entries[i]? with
  | none =>
    rw [hm] at hopen
    cases hopen
  | some m =>
    rw [hm] at hopen
    have hview := view_open (k := k) a m
    dsimp only at hopen
    rw [hopen] at hview
    obtain ⟨x, hlfh⟩ := hheaders m (List.mem_of_getElem? hm)
    unfold openedPlain openedAt at hview
    cases hdisk : checkLocalDisk m a.summary.diskNumber a.summary.cdStartDisk with
    | error e =>
      rw [hdisk] at hview
      cases hview
    | ok u =>
      rw [hdisk] at hview
      simp only [Res.lift, Res.bind_ok, hlfh] at hview
      split_ifs at hview
      · cases hview
      · split at hview
        · cases hview
        · cases hview

/-- The indexes from `i` on that satisfy `P`, in order, given those from `i + 1` on. -/
theorem indexes_cons {P : Nat → Prop} {i n : Nat} {first rest : List Nat}
    (hfirst : (P i ∧ first = [i]) ∨ (¬ P i ∧ first = [])) (hsorted : rest.Pairwise (· < ·))
    (hrest : ∀ j, j ∈ rest ↔ i + 1 ≤ j ∧ j < i + 1 + n ∧ P j) :
    (first ++ rest).Pairwise (· < ·) ∧
      ∀ j, j ∈ first ++ rest ↔ i ≤ j ∧ j < i + (n + 1) ∧ P j := by
  rcases hfirst with ⟨hi, rfl⟩ | ⟨hi, rfl⟩
  · refine ⟨List.pairwise_cons.2 ⟨fun j hj => ((hrest j).1 hj).1, hsorted⟩, fun j => ?_⟩
    rw [List.singleton_append, List.mem_cons, hrest]
    constructor
    · rintro (rfl | ⟨hle, hlt, hj⟩)
      · exact ⟨Nat.le_refl _, by omega, hi⟩
      · exact ⟨by omega, by omega, hj⟩
    · rintro ⟨hle, hlt, hj⟩
      rcases Nat.eq_or_lt_of_le hle with rfl | hlt'
      · exact .inl rfl
      · exact .inr ⟨hlt', by omega, hj⟩
  · refine ⟨hsorted, fun j => ?_⟩
    rw [List.nil_append, hrest]
    constructor
    · rintro ⟨hle, hlt, hj⟩
      exact ⟨by omega, by omega, hj⟩
    · rintro ⟨hle, hlt, hj⟩
      have hne : i ≠ j := by
        rintro rfl
        exact hi hj
      exact ⟨by omega, by omega, hj⟩

/-- The finding of one drained entry. -/
theorem crcIndex_crcFinding (hk : k.OwnErrors) {a : ZipArchive} {i : Nat}
    {f : ZipFile k (Take Source)} (hopen : (a.byIndex i : Opened k) = .ok f) (e : EntryLayout) :
    (FailsCrc k a i ∧ (crcFinding i e (readToEnd f).1).filterMap Anomaly.crcIndex = [i]) ∨
      (¬ FailsCrc k a i ∧ (crcFinding i e (readToEnd f).1).filterMap Anomaly.crcIndex = []) := by
  rw [failsCrc_iff_of_byIndex hk hopen]
  cases hread : (readToEnd f).1 with
  | ok out =>
    refine .inr ⟨?_, rfl⟩
    rintro ⟨err, h, -⟩
    cases h
  | error err =>
    cases hcrc : isCrcMismatch err with
    | true => exact .inl ⟨⟨err, rfl, hcrc⟩, by simp [crcFinding, hcrc, Anomaly.crcIndex, Anomaly.new]⟩
    | false =>
      refine .inr ⟨?_, by simp [crcFinding, hcrc]⟩
      rintro ⟨err', h, hcrc'⟩
      obtain rfl := Except.error.inj h
      simp [hcrc] at hcrc'

/-- The pass over an entry that opens. -/
theorem auditCrcs_cons {a : ZipArchive} {i : Nat} {f : ZipFile k (Take Source)}
    (hopen : (a.byIndex i : Opened k) = .ok f) (e : EntryLayout) (es : List EntryLayout) :
    auditCrcs k a i (e :: es) =
      (auditCrcs k { a with reader := (readToEnd f).2.release } (i + 1) es >>= fun rest =>
        .ok (crcFinding i e (readToEnd f).1 ++ rest)) := by
  rw [auditCrcs, hopen]
  rfl

theorem kind_of_mem_crcFinding {i : Nat} {e : EntryLayout} {copied : Except IoError Bytes}
    {x : Anomaly} (hx : x ∈ crcFinding i e copied) : ∃ index name, x.kind = .crcMismatch index name := by
  unfold crcFinding at hx
  split at hx
  · obtain rfl := eq_of_mem_ite hx
    exact ⟨_, _, rfl⟩
  · exact absurd hx List.not_mem_nil

/-- Where the local headers are there, the pass over the entries returns, and it makes no
findings but about CRCs. -/
theorem auditCrcs_ok {a : ZipArchive}
    (hheaders : ∀ m ∈ a.entries, ∃ x, lfhAt a.reader.bytes m.lfhOffset = .ok x) (i : Nat)
    (layout : List EntryLayout) :
    ∃ found, auditCrcs k a i layout = .ok found ∧
      ∀ x ∈ found, ∃ index name, x.kind = .crcMismatch index name := by
  induction layout generalizing a i with
  | nil => exact ⟨[], rfl, fun x hx => absurd hx List.not_mem_nil⟩
  | cons e es ih =>
    have hover := byIndex_over (k := k) a i
    have hpanic := byIndex_ne_panic_of_headers (k := k) hheaders i
    -- the rest of the pass, through the reader handed back
    have hrest : ∀ reader : Source, reader.bytes = a.reader.bytes →
        ∃ found, auditCrcs k { a with reader } (i + 1) es = .ok found ∧
          ∀ x ∈ found, ∃ index name, x.kind = .crcMismatch index name := by
      intro reader hbytes
      exact ih (a := { a with reader }) (by rw [hbytes]; exact hheaders) (i + 1)
    rcases hopen : (a.byIndex i : Opened k) with ⟨err | _, reader⟩ | f
    · rw [hopen] at hover
      unfold auditCrcs
      rw [hopen]
      exact hrest reader hover
    · exact absurd hopen (hpanic reader)
    · rw [hopen] at hover
      obtain ⟨found, hfound, hkinds⟩ := hrest (readToEnd f).2.release hover
      refine ⟨crcFinding i e (readToEnd f).1 ++ found, ?_, fun x hx => ?_⟩
      · rw [auditCrcs_cons hopen, hfound]
        rfl
      · rcases List.mem_append.1 hx with hx | hx
        · exact kind_of_mem_crcFinding hx
        · exact hkinds x hx

/-- The pass over the entries from index `i` on: its findings are about the entries that
fail their CRC, in order. -/
theorem auditCrcs_spec (hk : k.OwnErrors) {a : ZipArchive} {i : Nat} {layout : List EntryLayout}
    {found : List Anomaly} (h : auditCrcs k a i layout = .ok found) :
    (found.filterMap Anomaly.crcIndex).Pairwise (· < ·) ∧
      ∀ j, j ∈ found.filterMap Anomaly.crcIndex ↔
        i ≤ j ∧ j < i + layout.length ∧ FailsCrc k a j := by
  induction layout generalizing a i found with
  | nil =>
    obtain rfl : [] = found := Except.ok.inj h
    refine ⟨.nil, fun j => ⟨fun hj => absurd hj List.not_mem_nil, ?_⟩⟩
    rintro ⟨hle, hlt, -⟩
    exact absurd hlt (Nat.not_lt.2 hle)
  | cons e es ih =>
    have hover := byIndex_over (k := k) a i
    rcases hopen : (a.byIndex i : Opened k) with ⟨err | _, reader⟩ | f
    · -- an entry that does not open has no finding
      unfold auditCrcs at h
      rw [hopen] at h hover
      have hnot : ¬ FailsCrc k a i := by
        rintro ⟨m, f, data, -, hopen', -⟩
        rw [hopen] at hopen'
        cases hopen'
      have hbytes : reader.bytes = a.reader.bytes := hover
      have hrest := ih h
      simp only [failsCrc_reader hbytes] at hrest
      exact indexes_cons (.inr ⟨hnot, rfl⟩) hrest.1 hrest.2
    · unfold auditCrcs at h
      rw [hopen] at h
      cases h
    · rw [hopen] at hover
      rw [auditCrcs_cons hopen] at h
      obtain ⟨rest, hfound, h⟩ := Res.of_bind_ok h
      obtain rfl := Except.ok.inj h
      have hbytes : (ZipFile.release (readToEnd f).2).bytes = a.reader.bytes := hover
      have hrest := ih hfound
      simp only [failsCrc_reader hbytes] at hrest
      rw [List.filterMap_append]
      exact indexes_cons (crcIndex_crcFinding hk hopen e) hrest.1 hrest.2

/-! ## The whole audit -/

/-- The layout and container audits make no CRC findings. -/
theorem crcIndex_auditLayout (layout : List EntryLayout) (summary : ArchiveSummary) :
    (auditLayout layout ++ auditContainer summary).filterMap Anomaly.crcIndex = [] := by
  rw [List.filterMap_eq_nil_iff]
  intro x hx
  simp only [auditLayout, auditContainer, List.mem_append] at hx
  rcases hx with ((hx | hx) | hx) | hx | hx
  · split at hx
    · exact eq_of_mem_ite hx ▸ rfl
    · exact absurd hx List.not_mem_nil
  · obtain ⟨e, -, he⟩ := List.mem_flatMap.1 hx
    have habout := aboutHeaders_of_mem_auditEntry he
    unfold Anomaly.crcIndex
    split
    · next hkind =>
      rw [hkind] at habout
      cases habout
    · rfl
  · obtain ⟨a, b, offset, hkind⟩ := kind_of_mem_auditOverlaps hx
    rw [Anomaly.crcIndex, hkind]
  · exact eq_of_mem_ite hx ▸ rfl
  · exact eq_of_mem_ite hx ▸ rfl

/-- Where the structural view succeeds the audit returns: the findings of its layout, of
the container and of the pass over the entries. -/
theorem auditReader_ok {reader : Source} {a : ZipArchive}
    (hnew : ZipArchive.new reader = .ok a) {layout : List EntryLayout}
    (hview : a.structuralView.1 = .ok layout) :
    layoutsAt a.reader.bytes 0 a.entries = .ok layout ∧
      ∃ pos crcs, auditCrcs k { a with reader := ⟨a.reader.bytes, pos⟩ } 0 layout = .ok crcs ∧
        (∀ x ∈ crcs, ∃ index name, x.kind = .crcMismatch index name) ∧
        auditReader k reader = .ok (auditLayout layout ++ auditContainer a.summary ++ crcs) := by
  obtain ⟨pos, hlayouts⟩ := structuralView_eq a
  have hat : layoutsAt a.reader.bytes 0 a.entries = .ok layout := by
    rw [hlayouts] at hview
    exact hview
  obtain ⟨crcs, hcrcs, hkinds⟩ := auditCrcs_ok (k := k)
    (a := { a with reader := ⟨a.reader.bytes, pos⟩ }) (of_layoutsAt hat).2 0 layout
  refine ⟨hat, pos, crcs, hcrcs, hkinds, ?_⟩
  unfold auditReader
  rw [hnew, Res.bind_ok, hlayouts, hat]
  dsimp only at hcrcs ⊢
  rw [hcrcs, Res.bind_ok]
  rfl

/-- The CRC findings of an audit are about the entries that fail their CRC, each of them
once and in order, whatever the other entries do. -/
theorem auditReader_crcFindings (hk : k.OwnErrors) {reader : Source} {a : ZipArchive}
    (hnew : ZipArchive.new reader = .ok a) {layout : List EntryLayout}
    (hview : a.structuralView.1 = .ok layout) :
    ∃ found, auditReader k reader = .ok found ∧
      (found.filterMap Anomaly.crcIndex).Pairwise (· < ·) ∧
      ∀ i, i ∈ found.filterMap Anomaly.crcIndex ↔ FailsCrc k a i := by
  obtain ⟨hat, pos, crcs, hcrcs, -, haudit⟩ := auditReader_ok (k := k) hnew hview
  obtain ⟨hsorted, hmem⟩ := auditCrcs_spec hk hcrcs
  have hbytes : (⟨a.reader.bytes, pos⟩ : Source).bytes = a.reader.bytes := rfl
  refine ⟨_, haudit, ?_⟩
  rw [List.filterMap_append, crcIndex_auditLayout, List.nil_append]
  refine ⟨hsorted, fun i => ?_⟩
  rw [hmem, failsCrc_reader hbytes]
  refine ⟨fun h => h.2.2, fun h => ⟨Nat.zero_le i, ?_, h⟩⟩
  obtain ⟨m, f, data, hm, -⟩ := h
  have hlt := (List.getElem?_eq_some_iff.1 hm).1
  have hlen := (of_layoutsAt hat).1
  omega

/-- The archive of one stored member with the first byte of its data changed. -/
def corruptArchive : Bytes := (storedArchive 3).set 31 0x7A

theorem pairCrates_ownErrors : pairCrates.OwnErrors :=
  ⟨Codec.empty_raisesOnly, Codec.empty_raisesOnly⟩

/-- Only the pass over the entries can find something. -/
theorem pairArchive_audit {first : UInt8} {crcs : List Anomaly}
    (hnew : ZipArchive.new ⟨pairArchive first, 0⟩ = .ok (pairOpened first 237))
    (hview : (pairOpened first 237).structuralView = (.ok pairLayout, pairOpened first 67))
    (hcrcs : auditCrcs pairCrates (pairOpened first 67) 0 pairLayout = .ok crcs) :
    auditReader pairCrates ⟨pairArchive first, 0⟩ = .ok crcs := by
  have hoverlaps : auditOverlaps pairLayout = [] := by
    rw [auditOverlaps_of_sorted (by decide)]
    decide
  have hlayout : auditLayout pairLayout = [] := by
    rw [auditLayout, hoverlaps]
    decide +kernel
  have hcontainer : auditContainer (pairOpened first 67).summary = [] := by
    show auditContainer pairDirectory.2 = []
    decide
  unfold auditReader
  rw [hnew, Res.bind_ok, hview]
  dsimp only
  rw [hcrcs, Res.bind_ok, hlayout, hcontainer]
  rfl

/-- Of two members the first is corrupt, and the audit says so of no other. -/
theorem pairArchive_crcFindings :
    auditReader pairCrates ⟨pairArchive 0x7A, 0⟩ = .ok [.new (.crcMismatch 0 "d/a")] ∧
      FailsCrc pairCrates (pairOpened 0x7A 237) 0 ∧ ¬ FailsCrc pairCrates (pairOpened 0x7A 237) 1 := by
  have hnew : ZipArchive.new ⟨pairArchive 0x7A, 0⟩ = .ok (pairOpened 0x7A 237) := by decide +kernel
  have hview : (pairOpened 0x7A 237).structuralView = (.ok pairLayout, pairOpened 0x7A 67) := by
    decide +kernel
  have haudit : auditReader pairCrates ⟨pairArchive 0x7A, 0⟩ = .ok [.new (.crcMismatch 0 "d/a")] :=
    pairArchive_audit hnew hview (by decide +kernel)
  obtain ⟨found, hfound, -, hmem⟩ :=
    auditReader_crcFindings pairCrates_ownErrors hnew (congrArg Prod.fst hview)
  obtain rfl := Except.ok.inj (haudit.symm.trans hfound)
  exact ⟨haudit, (hmem 0).1 (by decide), fun h => absurd ((hmem 1).2 h) (by decide)⟩

end ZipForensic
