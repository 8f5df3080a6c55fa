import ZipForensic.Core.RawHeaders
import ZipForensic.Core.StoredMembers
import ZipForensic.Forensic.CrcFindings
import ZipForensic.Forensic.HeaderDisagreement

/-!
# Which raw headers the audit tells apart

The audit compares decoded header copies.

- `auditReader_mismatches`: a whole audit reports, entry by entry, what its comparison
  reports.
- `auditReader_aliases`: in terms of the bytes of the two headers, under one flag word,
  it misses a changed name only where the lossy decoding of UTF-8 does not show it, and
  a changed method id only within the ids of Reduce.
-/

namespace ZipForensic

open CompressionMethod (IsReduceId)

variable {k : Crates}

/-! ## The findings of a whole audit -/

theorem not_reportsMismatch_of_kinds {found : List Anomaly} {index : Nat} {field : String}
    (h : ∀ x ∈ found, ∀ name central loc, x.kind ≠ .cdLfhMismatch index name field central loc) :
    ¬ ReportsMismatch found index field := by
  rintro ⟨x, hx, name, central, loc, hkind⟩
  exact h x hx name central loc hkind

theorem reportsMismatch_flatMap {α : Type} {f : α → List Anomaly} {xs : List α} {index : Nat}
    {field : String} :
    ReportsMismatch (xs.flatMap f) index field ↔ ∃ a ∈ xs, ReportsMismatch (f a) index field := by
  constructor
  · rintro ⟨x, hx, hkind⟩
    obtain ⟨a, ha, hx⟩ := List.mem_flatMap.1 hx
    exact ⟨a, ha, x, hx, hkind⟩
  · rintro ⟨a, ha, x, hx, hkind⟩
    exact ⟨x, List.mem_flatMap.2 ⟨a, ha, hx⟩, hkind⟩

/-- The layout's header findings are those of its entries. -/
theorem reportsMismatch_auditLayout {layout : List EntryLayout} {index : Nat} {field : String} :
    ReportsMismatch (auditLayout layout) index field ↔
      ∃ e ∈ layout, index = e.index ∧ Disagrees e field := by
  unfold auditLayout
  have hoverlaps : ¬ ReportsMismatch (auditOverlaps layout) index field := by
    refine not_reportsMismatch_of_kinds fun x hx name central loc hkind => ?_
    obtain ⟨a, b, offset, hoverlap⟩ := kind_of_mem_auditOverlaps hx
    rw [hoverlap] at hkind
    cases hkind
  rw [reportsMismatch_append, reportsMismatch_append, or_iff_left hoverlaps,
    reportsMismatch_flatMap]
  simp only [reportsMismatch_auditEntry_iff]
  refine or_iff_right fun h => ?_
  split at h
  · exact not_reportsMismatch_of_kind (fun _ _ _ => AnomalyKind.noConfusion) h
  · exact not_reportsMismatch_nil h

theorem not_reportsMismatch_auditContainer (summary : ArchiveSummary) (index : Nat)
    (field : String) : ¬ ReportsMismatch (auditContainer summary) index field := by
  unfold auditContainer
  rw [reportsMismatch_append]
  rintro (h | h)
  · exact not_reportsMismatch_of_kind (fun _ _ _ => AnomalyKind.noConfusion) h
  · exact not_reportsMismatch_of_kind (fun _ _ _ => AnomalyKind.noConfusion) h

/-- The layouts of a view are told apart by their indexes. -/
theorem eq_of_index_eq {F : Bytes} {ms : List CentralEntry} {layout : List EntryLayout}
    (h : layoutsAt F 0 ms = .ok layout) {e e' : EntryLayout} (he : e ∈ layout) (he' : e' ∈ layout)
    (hindex : e.index = e'.index) : e = e' := by
  obtain ⟨i, m, loc, dataStart, hm, hlfh, rfl⟩ := of_mem_layoutsAt h he
  obtain ⟨i', m', loc', dataStart', hm', hlfh', rfl⟩ := of_mem_layoutsAt h he'
  obtain rfl : i = i' := by simpa [ZipArchive.entryLayout] using hindex
  obtain rfl := Option.some.inj (hm.symm.trans hm')
  obtain ⟨rfl, rfl⟩ := Prod.mk.inj (Except.ok.inj (hlfh.symm.trans hlfh'))
  rfl

/-- An audit reports a mismatch for each field the copies of an entry disagree on. -/
theorem auditReader_mismatches {reader : Source} {a : ZipArchive}
    (hnew : ZipArchive.new reader = .ok a) {layout : List EntryLayout}
    (hview : a.structuralView.1 = .ok layout) :
    ∃ found, auditReader k reader = .ok found ∧
      ∀ e ∈ layout, ∀ field, ReportsMismatch found e.index field ↔ Disagrees e field := by
  obtain ⟨hat, pos, crcs, -, hkinds, haudit⟩ := auditReader_ok (k := k) hnew hview
  refine ⟨_, haudit, fun e he field => ?_⟩
  have hcrcs : ¬ ReportsMismatch crcs e.index field := by
    refine not_reportsMismatch_of_kinds fun x hx name central loc hkind => ?_
    obtain ⟨index, name', hcrc⟩ := hkinds x hx
    rw [hcrc] at hkind
    cases hkind
  rw [reportsMismatch_append, reportsMismatch_append, or_iff_left hcrcs,
    or_iff_left (not_reportsMismatch_auditContainer _ _ _), reportsMismatch_auditLayout]
  constructor
  · rintro ⟨e', he', hindex, h⟩
    rwa [eq_of_index_eq hat he he' hindex]
  · exact fun h => ⟨e, he, rfl, h⟩

/-! ## In terms of the file's bytes -/

theorem disagrees_name_iff {e : EntryLayout} : Disagrees e "name" ↔ e.central.name ≠ e.loc.name := by
  refine ⟨fun h => ?_, .name⟩
  generalize hfield : "name" = field at h
  cases h with
  | name hne => exact hne
  | method => exact absurd hfield (by decide)
  | crc32 => exact absurd hfield (by decide)
  | compressedSize => exact absurd hfield (by decide)
  | uncompressedSize => exact absurd hfield (by decide)

theorem disagrees_method_iff {e : EntryLayout} :
    Disagrees e "method" ↔ e.central.method ≠ e.loc.method := by
  refine ⟨fun h => ?_, .method⟩
  generalize hfield : "method" = field at h
  cases h with
  | name => exact absurd hfield (by decide)
  | method hne => exact hne
  | crc32 => exact absurd hfield (by decide)
  | compressedSize => exact absurd hfield (by decide)
  | uncompressedSize => exact absurd hfield (by decide)

/-- Under one flag word, what the decoded copies of an entry show of a difference between
the headers on disk. -/
theorem disagrees_iff_raw {central loc : RawHeader} {e : EntryLayout}
    (hcentral : central.Decodes e.central.name e.central.method e.central.flags)
    (hloc : loc.Decodes e.loc.name e.loc.method e.loc.flags) (hflags : central.flags = loc.flags) :
    (Disagrees e "name" ↔ central.name ≠ loc.name ∧
      (central.flags &&& 0x0800 = 0 ∨ fromUtf8Lossy central.name ≠ fromUtf8Lossy loc.name)) ∧
    (Disagrees e "method" ↔ central.method ≠ loc.method ∧
      ¬ (IsReduceId central.method ∧ IsReduceId loc.method)) := by
  constructor
  · rw [disagrees_name_iff, hcentral.name, hloc.name, ← hflags, Ne, decodeName_eq_iff, not_or,
      not_and_or, not_not]
  · rw [disagrees_method_iff, hcentral.method, hloc.method, Ne,
      CompressionMethod.fromU16_eq_iff, not_or]

/-- An audit reports a difference between the names, or the method ids, of two headers on
disk under one flag word unless the decodings alias them: names taken as UTF-8 by their
lossy text, method ids within those of Reduce. No two well-formed names are aliased. -/
theorem auditReader_aliases {reader : Source} {a : ZipArchive}
    (hnew : ZipArchive.new reader = .ok a) {layout : List EntryLayout}
    (hview : a.structuralView.1 = .ok layout) :
    ∃ found, auditReader k reader = .ok found ∧ ∀ e ∈ layout,
      (e.centralRaw reader.bytes a.summary).flags = (e.localRaw reader.bytes).flags →
        (ReportsMismatch found e.index "name" ↔
          (e.centralRaw reader.bytes a.summary).name ≠ (e.localRaw reader.bytes).name ∧
            ((e.centralRaw reader.bytes a.summary).flags &&& 0x0800 = 0 ∨
              fromUtf8Lossy (e.centralRaw reader.bytes a.summary).name ≠
                fromUtf8Lossy (e.localRaw reader.bytes).name)) ∧
        ((e.centralRaw reader.bytes a.summary).name ≠ (e.localRaw reader.bytes).name →
          fromUtf8 (e.centralRaw reader.bytes a.summary).name ≠ none →
          fromUtf8 (e.localRaw reader.bytes).name ≠ none →
          ReportsMismatch found e.index "name") ∧
        (ReportsMismatch found e.index "method" ↔
          (e.centralRaw reader.bytes a.summary).method ≠ (e.localRaw reader.bytes).method ∧
            ¬ (IsReduceId (e.centralRaw reader.bytes a.summary).method ∧
              IsReduceId (e.localRaw reader.bytes).method)) := by
  obtain ⟨F, pos⟩ := reader
  obtain ⟨hbytes, hdir⟩ := reader_of_new hnew
  obtain ⟨found, haudit, hfound⟩ := auditReader_mismatches (k := k) hnew hview
  refine ⟨found, haudit, fun e he hflags => ?_⟩
  have hat := (auditReader_ok (k := k) hnew hview).1
  rw [hbytes] at hat
  obtain ⟨hcentral, hloc⟩ := decodes_layout hdir hat he
  obtain ⟨hname, hmethod⟩ := disagrees_iff_raw hcentral hloc hflags
  rw [hfound e he, hfound e he]
  refine ⟨hname, fun hne hwell hwell' => hname.2 ⟨hne, .inr fun hlossy => ?_⟩, hmethod⟩
  exact hne (eq_of_fromUtf8Lossy_eq hwell hwell' hlossy)

/-- The archive of one stored member with `n` for `m` in the local header. -/
def relabelledArchive : Bytes := (storedArchive 3).set 30 0x6E

theorem relabelledArchive_reported :
    ∃ found, auditReader .plain ⟨relabelledArchive, 0⟩ = .ok found ∧
      ReportsMismatch found 0 "name" := by
  have hdir : directoryOf relabelledArchive = .ok (storedDirectory 3) := by decide +kernel
  have hlfh : lfhAt relabelledArchive 0 = .ok (⟨"n", .stored, 0, 0x352441C2, 3, 3⟩, 31) := by
    decide +kernel
  obtain ⟨a, hnew, hsummary, hview⟩ := view_of_member hdir hlfh
  obtain ⟨found, haudit, hfound⟩ := auditReader_aliases (k := .plain) hnew hview
  have hraw := hfound _ (List.mem_singleton_self _)
  rw [hsummary] at hraw
  exact ⟨found, haudit, (hraw (by decide +kernel)).1.2 (by decide +kernel)⟩

/-- Both headers have bit 11 set; the names are the single bytes 0xFE and 0xFF, the method
ids 3 and 2. -/
def aliasedArchive : Bytes :=
  ((((((storedArchive 3).set 7 0x08).set 8 2).set 30 0xFF).set 43 0x08).set 44 3).set 80 0xFE

/-- The member as parsed, from either header. -/
def aliasedMember : CentralEntry :=
  { storedMember 3 with name := "\uFFFD", method := .reduced, flags := 0x0800 }

/-- Its headers differ in name and method id under one flag word, and neither difference is
reported. -/
theorem aliased_headers_unreported :
    ∃ a layout found e, ZipArchive.new ⟨aliasedArchive, 0⟩ = .ok a ∧
      a.structuralView.1 = .ok layout ∧ auditReader .plain ⟨aliasedArchive, 0⟩ = .ok found ∧
      e ∈ layout ∧
      (e.centralRaw aliasedArchive a.summary).flags = (e.localRaw aliasedArchive).flags ∧
      (e.centralRaw aliasedArchive a.summary).name ≠ (e.localRaw aliasedArchive).name ∧
      (e.centralRaw aliasedArchive a.summary).method ≠ (e.localRaw aliasedArchive).method ∧
      ¬ ReportsMismatch found e.index "name" ∧ ¬ ReportsMismatch found e.index "method" := by
  have hdir : directoryOf aliasedArchive = .ok ([aliasedMember], (storedDirectory 3).2) := by
    decide +kernel
  have hlfh : lfhAt aliasedArchive 0 =
      .ok (⟨"\uFFFD", .reduced, 0x0800, 0x352441C2, 3, 3⟩, 31) := by decide +kernel
  obtain ⟨a, hnew, hsummary, hview⟩ := view_of_member (m := aliasedMember) hdir hlfh
  obtain ⟨found, haudit, hfound⟩ := auditReader_mismatches (k := .plain) hnew hview
  have hreported := hfound _ (List.mem_singleton_self _)
  refine ⟨a, _, found, _, hnew, hview, haudit, List.mem_singleton_self _, ?_, ?_, ?_, ?_, ?_⟩
  · rw [hsummary]
    decide +kernel
  · rw [hsummary]
    decide +kernel
  · rw [hsummary]
    decide +kernel
  · rw [hreported, disagrees_name_iff]
    decide
  · rw [hreported, disagrees_method_iff]
    decide

end ZipForensic
