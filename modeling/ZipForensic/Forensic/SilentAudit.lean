import ZipForensic.Forensic.CrcFindings
import ZipForensic.Forensic.HeaderDisagreement
import ZipForensic.Forensic.PathPolicy

/-!
# What a silent audit says about an archive

An audit without findings is itself a statement about the file. `Unremarkable` spells it
out, one field for each pass of `audit_reader`, and `auditReader_silent_iff` says that the
audit is silent on exactly the archives that satisfy it.

- `auditEntry_eq_nil_iff`: one entry, its name and its two header copies.
- `auditOverlaps_silent_iff`: the pass over neighbours is silent when every member ends
  before any later one starts, members without data included.
- `auditLayout_eq_nil_iff`, `auditContainer_eq_nil_iff`: the view and the container.
-/

namespace ZipForensic

open EntryLayout

variable {k : Crates}

theorem ite_singleton_eq_nil {α : Type} {c : Prop} [Decidable c] {x : α} :
    (if c then [x] else []) = [] ↔ ¬ c := by
  split_ifs with h
  · simp [h]
  · simp [h]

/-! ## One entry -/

/-- A codepoint that changes the direction a name is displayed in. -/
def Directional (c : Char) : Prop :=
  (0x202A ≤ c.toNat ∧ c.toNat ≤ 0x202E) ∨ (0x2066 ≤ c.toNat ∧ c.toNat ≤ 0x2069) ∨
    c.toNat = 0x200E ∨ c.toNat = 0x200F

/-- A C0 or C1 control character, NUL included. -/
def Control (c : Char) : Prop := c.toNat ≤ 0x1F ∨ (0x7F ≤ c.toNat ∧ c.toNat ≤ 0x9F)

/-- A relative name that never goes up and shows what it is. -/
structure PlainName (name : String) : Prop where
  below : ".." ∉ splitName name
  unrooted : name.toList.head?.any isSeparator = false
  driveless : ¬ DrivePrefix name
  shown : ∀ c ∈ name.toList, ¬ Directional c ∧ ¬ Control c

/-- The two header copies agree on what the local one is authoritative for. -/
structure CopiesAgree (e : EntryLayout) : Prop where
  name : e.central.name = e.loc.name
  method : e.central.method = e.loc.method
  crc32 : e.loc.flags &&& 0x0008 = 0 → e.central.crc32 = e.loc.crc32
  compressedSize : e.loc.flags &&& 0x0008 = 0 → e.loc.compressedSize ≠ u32Sentinel →
    e.central.compressedSize = e.loc.compressedSize
  uncompressedSize : e.loc.flags &&& 0x0008 = 0 → e.loc.uncompressedSize ≠ u32Sentinel →
    e.central.uncompressedSize = e.loc.uncompressedSize

theorem plainName_iff (name : String) :
    PlainName name ↔ hasTraversal name = false ∧ isAbsolute name = false ∧
      hasBidiOverride name = false ∧ hasControlChars name = false := by
  have hbidi : hasBidiOverride name = false ↔ ∀ c ∈ name.toList, ¬ Directional c := by
    rw [hasBidiOverride, List.any_eq_false]
    exact forall₂_congr fun c _ => by rw [decide_eq_true_iff, Directional]
  have hcontrol : hasControlChars name = false ↔ ∀ c ∈ name.toList, ¬ Control c := by
    rw [hasControlChars, List.any_eq_false]
    exact forall₂_congr fun c _ => by rw [decide_eq_true_iff, Control]
  have habsolute := isAbsolute_iff name
  rw [hbidi, hcontrol, ← Bool.not_eq_true, ← Bool.not_eq_true, hasTraversal_iff, habsolute, not_or]
  constructor
  · rintro ⟨hbelow, hunrooted, hdriveless, hshown⟩
    exact ⟨hbelow, ⟨by rw [hunrooted]; decide, hdriveless⟩, fun c hc => (hshown c hc).1,
      fun c hc => (hshown c hc).2⟩
  · rintro ⟨hbelow, ⟨hunrooted, hdriveless⟩, hb, hc⟩
    exact ⟨hbelow, Bool.eq_false_of_not_eq_true hunrooted, hdriveless,
      fun c h => ⟨hb c h, hc c h⟩⟩

theorem compareSize_eq_nil_iff {e : EntryLayout} {field : String} {central loc : Nat} :
    compareSize e field central loc = [] ↔ (loc ≠ u32Sentinel → central = loc) := by
  rw [compareSize]
  split_ifs with hsentinel hne
  · simp [hsentinel]
  · simp [hsentinel, hne]
  · simp [not_not.1 hne]

/-- An entry without findings. -/
theorem auditEntry_eq_nil_iff (e : EntryLayout) :
    auditEntry e = [] ↔ PlainName e.central.name ∧ CopiesAgree e := by
  rw [plainName_iff]
  simp only [auditEntry, List.append_eq_nil_iff, ite_singleton_eq_nil, Bool.not_eq_true, not_not]
  constructor
  · rintro ⟨⟨⟨⟨⟨⟨htraversal, habsolute⟩, hbidi⟩, hcontrol⟩, hname⟩, hmethod⟩, hrest⟩
    refine ⟨⟨htraversal, habsolute, hbidi, hcontrol⟩, ?_⟩
    by_cases hbit : e.loc.flags &&& 0x0008 = 0
    · rw [if_neg (not_not.2 hbit)] at hrest
      simp only [List.append_eq_nil_iff, ite_singleton_eq_nil, not_not,
        compareSize_eq_nil_iff] at hrest
      obtain ⟨⟨hcrc, hcompressed⟩, huncompressed⟩ := hrest
      exact ⟨hname, hmethod, fun _ => hcrc, fun _ => hcompressed, fun _ => huncompressed⟩
    · exact ⟨hname, hmethod, fun h => absurd h hbit, fun h => absurd h hbit,
        fun h => absurd h hbit⟩
  · rintro ⟨⟨htraversal, habsolute, hbidi, hcontrol⟩, hagree⟩
    refine ⟨⟨⟨⟨⟨⟨htraversal, habsolute⟩, hbidi⟩, hcontrol⟩, hagree.name⟩, hagree.method⟩, ?_⟩
    by_cases hbit : e.loc.flags &&& 0x0008 = 0
    · rw [if_neg (not_not.2 hbit)]
      simp only [List.append_eq_nil_iff, ite_singleton_eq_nil, not_not, compareSize_eq_nil_iff]
      exact ⟨⟨hagree.crc32 hbit, hagree.compressedSize hbit⟩, hagree.uncompressedSize hbit⟩
    · rw [if_pos hbit]

/-! ## The view -/

/-- The overlap pass looks at neighbours only, and its silence still covers all pairs: no
member reaches into one that comes later in start order. -/
theorem auditOverlaps_silent_iff (v : StructuralView) :
    auditOverlaps v.entries = [] ↔
      ∀ a ∈ v.entries, ∀ b ∈ v.entries, a.Before b → a.dataEnd ≤ b.dataStart := by
  have hmem {x : Anomaly} := mem_auditOverlaps_iff (x := x) v.dataStart_lt
  have hneighbours : auditOverlaps v.entries = [] ↔
      (visitOrder v.entries).Pairwise fun a b => a.dataEnd ≤ b.dataStart := by
    -- a range ends at or behind its start, so lying behind one another is transitive
    rw [pairwise_iff_neighbours (R := fun a b : EntryLayout => a.dataEnd ≤ b.dataStart)
      fun hab hbc => Nat.le_trans hab (Nat.le_trans (Nat.le_add_right _ _) hbc),
      List.eq_nil_iff_forall_not_mem]
    constructor
    · intro hsilent a b hab
      by_contra hlt
      exact hsilent _ (hmem.2 ⟨a, b, hab, Nat.lt_of_not_le hlt, rfl⟩)
    · intro hle x hx
      obtain ⟨a, b, hab, hlt, -⟩ := hmem.1 hx
      exact absurd hlt (Nat.not_lt.2 (hle a b hab))
  rw [hneighbours]
  constructor
  · intro hpw a ha b hb hbefore
    obtain ⟨l, r, hsplit⟩ := List.append_of_mem (v.mem_visitOrder.2 hb)
    have horder := v.visitOrder_before
    rw [hsplit] at hpw horder
    have hal : a ∈ l := (before_iff_mem_left not_before_self (fun _ _ h => h.asymm) horder
      (hsplit ▸ v.mem_visitOrder.2 ha)).1 hbefore
    exact (List.pairwise_append.1 hpw).2.2 a hal b List.mem_cons_self
  · intro hall
    refine v.visitOrder_before.imp_of_mem fun {a b} ha hb hbefore => ?_
    exact hall a (v.mem_visitOrder.1 ha) b (v.mem_visitOrder.1 hb) hbefore

/-- The three parts of a view's audit. -/
theorem auditLayout_eq_nil_iff (layout : List EntryLayout) :
    auditLayout layout = [] ↔ (layout = [] ∨ ∃ e ∈ layout, e.lfhOffset = 0) ∧
      (∀ e ∈ layout, auditEntry e = []) ∧ auditOverlaps layout = [] := by
  rw [auditLayout, List.append_eq_nil_iff, List.append_eq_nil_iff, List.flatMap_eq_nil_iff,
    and_assoc]
  refine and_congr_left' ?_
  cases hmin : (layout.map EntryLayout.lfhOffset).min? with
  | none =>
    have hnil : layout = [] := List.map_eq_nil_iff.1 (List.min?_eq_none_iff.1 hmin)
    simp [hnil]
  | some first =>
    obtain ⟨hmem, hle⟩ := List.min?_eq_some_iff.1 hmin
    obtain ⟨e, he, heq⟩ := List.mem_map.1 hmem
    dsimp only
    rw [ite_singleton_eq_nil, Nat.not_lt, Nat.le_zero]
    constructor
    · intro hzero
      exact .inr ⟨e, he, heq.trans hzero⟩
    · rintro (rfl | ⟨d, hd, hzero⟩)
      · exact absurd he List.not_mem_nil
      · exact Nat.le_zero.1 (hzero ▸ hle _ (List.mem_map_of_mem hd))

/-! ## The container -/

/-- A disk number of a file that is not part of a spanned set: 0, or the Zip64 sentinel. -/
def OnlyDisk (d : Nat) : Prop := d = 0 ∨ d = 0xFFFFFFFF

theorem auditContainer_eq_nil_iff (summary : ArchiveSummary) :
    auditContainer summary = [] ↔ summary.fileLen ≤ summary.eocdEndOffset ∧
      OnlyDisk summary.diskNumber ∧ OnlyDisk summary.cdStartDisk := by
  have hspan (d : Nat) : decide (d ≠ 0 ∧ d ≠ 0xFFFFFFFF) = false ↔ OnlyDisk d := by
    rw [decide_eq_false_iff_not, OnlyDisk]
    tauto
  simp only [auditContainer, List.append_eq_nil_iff, ite_singleton_eq_nil, Nat.not_lt,
    Bool.not_eq_true, Bool.or_eq_false_iff, hspan]

/-! ## The whole audit -/

/-- Nothing about the archive strikes the auditor. -/
structure Unremarkable (k : Crates) (a : ZipArchive) (layout : List EntryLayout) : Prop where
  /-- The first member starts the file. -/
  front : layout = [] ∨ ∃ e ∈ layout, e.lfhOffset = 0
  names : ∀ e ∈ layout, PlainName e.central.name
  copies : ∀ e ∈ layout, CopiesAgree e
  /-- Every member ends before any later one starts. -/
  apart : ∀ d ∈ layout, ∀ e ∈ layout, d.Before e → d.dataEnd ≤ e.dataStart
  /-- Nothing follows the end record. -/
  back : a.summary.fileLen ≤ a.summary.eocdEndOffset
  disk : OnlyDisk a.summary.diskNumber ∧ OnlyDisk a.summary.cdStartDisk
  /-- Every entry that opens and decodes to its end has the recorded CRC-32. -/
  checksums : ∀ i, ¬ FailsCrc k a i

/-- The pass over the entries finds nothing exactly when no entry fails its CRC. -/
theorem auditCrcs_eq_nil_iff (hk : k.OwnErrors) {a : ZipArchive} {layout : List EntryLayout}
    (hlen : layout.length = a.entries.length) {found : List Anomaly}
    (h : auditCrcs k a 0 layout = .ok found)
    (hkinds : ∀ x ∈ found, ∃ index name, x.kind = .crcMismatch index name) :
    found = [] ↔ ∀ i, ¬ FailsCrc k a i := by
  have hindexes := (auditCrcs_spec hk h).2
  constructor
  · rintro rfl i hfails
    have hlt : i < layout.length := by
      obtain ⟨m, f, data, hm, -⟩ := hfails
      exact hlen ▸ (List.getElem?_eq_some_iff.1 hm).1
    exact absurd ((hindexes i).2 ⟨Nat.zero_le i, by omega, hfails⟩) List.not_mem_nil
  · intro hnone
    refine List.eq_nil_iff_forall_not_mem.2 fun x hx => ?_
    obtain ⟨index, name, hkind⟩ := hkinds x hx
    have hindex : x.crcIndex = some index := by rw [Anomaly.crcIndex, hkind]
    exact hnone index ((hindexes index).1 (List.mem_filterMap.2 ⟨x, hx, hindex⟩)).2.2

/-- An audit is silent on an archive exactly when nothing about it is remarkable: every
pass of the audit is complete for the property it looks at. -/
theorem auditReader_silent_iff (hk : k.OwnErrors) {reader : Source} {a : ZipArchive}
    (hsize : reader.bytes.length ≤ isizeMax) (hnew : ZipArchive.new reader = .ok a)
    {layout : List EntryLayout} (hview : a.structuralView.1 = .ok layout) :
    auditReader k reader = .ok [] ↔ Unremarkable k a layout := by
  have hbytes : a.reader.bytes = reader.bytes := (reader_of_new hnew).1
  obtain ⟨v, rfl⟩ := StructuralView.of_structuralView (hbytes ▸ hsize) hview
  obtain ⟨hat, pos, crcs, hcrcs, hkinds, haudit⟩ := auditReader_ok (k := k) hnew hview
  have hsums : crcs = [] ↔ ∀ i, ¬ FailsCrc k a i := by
    rw [auditCrcs_eq_nil_iff (a := { a with reader := ⟨a.reader.bytes, pos⟩ }) hk
      (of_layoutsAt hat).1 hcrcs hkinds]
    have hsame : (⟨a.reader.bytes, pos⟩ : Source).bytes = a.reader.bytes := rfl
    exact forall_congr' fun i => not_congr (failsCrc_reader hsame)
  rw [haudit, Except.ok.injEq, List.append_eq_nil_iff, List.append_eq_nil_iff,
    auditLayout_eq_nil_iff, auditOverlaps_silent_iff, auditContainer_eq_nil_iff, hsums]
  simp only [auditEntry_eq_nil_iff]
  constructor
  · rintro ⟨⟨⟨hfront, hentries, hapart⟩, hback, hdisk⟩, hchecksums⟩
    exact ⟨hfront, fun e he => (hentries e he).1, fun e he => (hentries e he).2, hapart, hback,
      hdisk, hchecksums⟩
  · intro h
    exact ⟨⟨⟨h.front, fun e he => ⟨h.names e he, h.copies e he⟩, h.apart⟩, h.back, h.disk⟩,
      h.checksums⟩

/-- The audit of the archive of two members is silent, so nothing about it is remarkable. -/
theorem pairArchive_unremarkable :
    ZipArchive.new ⟨pairArchive 0x61, 0⟩ = .ok (pairOpened 0x61 237) ∧
      Unremarkable pairCrates (pairOpened 0x61 237) pairLayout := by
  have hnew : ZipArchive.new ⟨pairArchive 0x61, 0⟩ = .ok (pairOpened 0x61 237) := by decide +kernel
  have hview : (pairOpened 0x61 237).structuralView = (.ok pairLayout, pairOpened 0x61 67) := by
    decide +kernel
  have haudit : auditReader pairCrates ⟨pairArchive 0x61, 0⟩ = .ok [] :=
    pairArchive_audit hnew hview (by decide +kernel)
  exact ⟨hnew, (auditReader_silent_iff pairCrates_ownErrors (by decide +kernel) hnew
    (congrArg Prod.fst hview)).1 haudit⟩

end ZipForensic
