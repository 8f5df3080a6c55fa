import ZipForensic.Forensic.Overlap

/-!
# Which header disagreements the audit reports

`auditEntry` compares the two header copies of one entry field by field.

- `Disagrees e field`: the copies differ on `field`, the local copy being
  authoritative for it.
- `reportsMismatch_auditEntry_iff`: the audit reports exactly these.
- `auditEntry_complete`: what a silent audit says about the two copies. Their flag
  words are never compared, and the local one alone decides whether the local CRC and
  sizes are looked at (`localFlags_mask_crc`).
-/

namespace ZipForensic

/-- A `CdLfhMismatch` on `field` of entry `index` is among the findings. -/
def ReportsMismatch (found : List Anomaly) (index : Nat) (field : String) : Prop :=
  ∃ x ∈ found, ∃ name central loc, x.kind = .cdLfhMismatch index name field central loc

/-- The two header copies differ on a field the local copy is authoritative for. -/
inductive Disagrees (e : EntryLayout) : String → Prop
  | name (hne : e.central.name ≠ e.loc.name) : Disagrees e "name"
  | method (hne : e.central.method ≠ e.loc.method) : Disagrees e "method"
  | crc32 (hbit : e.loc.flags &&& 0x0008 = 0) (hne : e.central.crc32 ≠ e.loc.crc32) :
    Disagrees e "crc32"
  | compressedSize (hbit : e.loc.flags &&& 0x0008 = 0)
    (hne : e.central.compressedSize ≠ e.loc.compressedSize)
    (hsentinel : e.loc.compressedSize ≠ u32Sentinel) : Disagrees e "compressed_size"
  | uncompressedSize (hbit : e.loc.flags &&& 0x0008 = 0)
    (hne : e.central.uncompressedSize ≠ e.loc.uncompressedSize)
    (hsentinel : e.loc.uncompressedSize ≠ u32Sentinel) : Disagrees e "uncompressed_size"

section Reports

variable {a b : List Anomaly} {index : Nat} {field : String}

@[simp] theorem not_reportsMismatch_nil : ¬ ReportsMismatch [] index field := by
  rintro ⟨x, hx, -⟩
  exact absurd hx List.not_mem_nil

@[simp] theorem reportsMismatch_append :
    ReportsMismatch (a ++ b) index field ↔
      ReportsMismatch a index field ∨ ReportsMismatch b index field := by
  constructor
  · rintro ⟨x, hx, hkind⟩
    rcases List.mem_append.1 hx with hx | hx
    · exact .inl ⟨x, hx, hkind⟩
    · exact .inr ⟨x, hx, hkind⟩
  · rintro (⟨x, hx, hkind⟩ | ⟨x, hx, hkind⟩)
    · exact ⟨x, List.mem_append_left _ hx, hkind⟩
    · exact ⟨x, List.mem_append_right _ hx, hkind⟩

/-- A finding about the name alone is no mismatch. -/
theorem not_reportsMismatch_of_kind {k : AnomalyKind}
    (hk : ∀ name central loc, k ≠ .cdLfhMismatch index name field central loc) {c : Prop}
    [Decidable c] : ¬ ReportsMismatch (if c then [.new k] else []) index field := by
  rintro ⟨x, hx, name, central, loc, hkind⟩
  obtain rfl := eq_of_mem_ite hx
  exact hk name central loc hkind

theorem reportsMismatch_ite {e : EntryLayout} {compared central loc : String} {c : Prop}
    [Decidable c] :
    ReportsMismatch (if c then [mismatch e compared central loc] else []) index field ↔
      c ∧ index = e.index ∧ field = compared := by
  constructor
  · rintro ⟨x, hx, name, central', loc', hkind⟩
    obtain rfl := eq_of_mem_ite hx
    obtain ⟨rfl, -, rfl, -, -⟩ := AnomalyKind.cdLfhMismatch.injEq .. ▸ hkind
    refine ⟨?_, rfl, rfl⟩
    by_contra hc
    rw [if_neg hc] at hx
    exact absurd hx List.not_mem_nil
  · rintro ⟨hc, rfl, rfl⟩
    rw [if_pos hc]
    exact ⟨_, List.mem_singleton_self _, _, _, _, rfl⟩

theorem reportsMismatch_compareSize {e : EntryLayout} {compared : String} {central loc : Nat} :
    ReportsMismatch (compareSize e compared central loc) index field ↔
      (central ≠ loc ∧ loc ≠ u32Sentinel) ∧ index = e.index ∧ field = compared := by
  unfold compareSize
  by_cases hloc : loc = u32Sentinel
  · rw [if_pos hloc]
    simp [hloc]
  · rw [if_neg hloc, reportsMismatch_ite]
    simp [hloc]

end Reports

/-- The comparison of CRC and sizes, made when the local header has no descriptor. -/
theorem reportsMismatch_crcAndSizes {e : EntryLayout} {index : Nat} {field : String} :
    ReportsMismatch (if e.loc.flags &&& 0x0008 ≠ 0 then [] else
      (if e.central.crc32 ≠ e.loc.crc32 then
        [mismatch e "crc32" (hexText 10 e.central.crc32.toNat) (hexText 10 e.loc.crc32.toNat)]
        else []) ++
      compareSize e "compressed_size" e.central.compressedSize e.loc.compressedSize ++
      compareSize e "uncompressed_size" e.central.uncompressedSize e.loc.uncompressedSize)
      index field ↔ index = e.index ∧ e.loc.flags &&& 0x0008 = 0 ∧
        (e.central.crc32 ≠ e.loc.crc32 ∧ field = "crc32" ∨
          (e.central.compressedSize ≠ e.loc.compressedSize ∧
            e.loc.compressedSize ≠ u32Sentinel) ∧ field = "compressed_size" ∨
          (e.central.uncompressedSize ≠ e.loc.uncompressedSize ∧
            e.loc.uncompressedSize ≠ u32Sentinel) ∧ field = "uncompressed_size") := by
  by_cases hbit : e.loc.flags &&& 0x0008 = 0
  · rw [if_neg (not_not.2 hbit), reportsMismatch_append, reportsMismatch_append,
      reportsMismatch_ite, reportsMismatch_compareSize, reportsMismatch_compareSize]
    tauto
  · rw [if_pos hbit]
    simp [hbit]

/-- The audit of one entry reports a mismatch for each field the copies disagree on. -/
theorem reportsMismatch_auditEntry_iff (e : EntryLayout) (index : Nat) (field : String) :
    ReportsMismatch (auditEntry e) index field ↔ index = e.index ∧ Disagrees e field := by
  simp only [auditEntry, reportsMismatch_append, reportsMismatch_crcAndSizes, reportsMismatch_ite]
  constructor
  · rintro ((((((h | h) | h) | h) | ⟨hne, rfl, rfl⟩) | ⟨hne, rfl, rfl⟩) | ⟨rfl, hbit, hrest⟩)
    iterate 4 exact absurd h (not_reportsMismatch_of_kind fun _ _ _ => AnomalyKind.noConfusion)
    · exact ⟨rfl, .name hne⟩
    · exact ⟨rfl, .method hne⟩
    · rcases hrest with ⟨hne, rfl⟩ | ⟨⟨hne, hsentinel⟩, rfl⟩ | ⟨⟨hne, hsentinel⟩, rfl⟩
      · exact ⟨rfl, .crc32 hbit hne⟩
      · exact ⟨rfl, .compressedSize hbit hne hsentinel⟩
      · exact ⟨rfl, .uncompressedSize hbit hne hsentinel⟩
  · rintro ⟨rfl, h⟩
    cases h with
    | name hne => exact .inl (.inl (.inr ⟨hne, rfl, rfl⟩))
    | method hne => exact .inl (.inr ⟨hne, rfl, rfl⟩)
    | crc32 hbit hne => exact .inr ⟨rfl, hbit, .inl ⟨hne, rfl⟩⟩
    | compressedSize hbit hne hsentinel =>
      exact .inr ⟨rfl, hbit, .inr (.inl ⟨⟨hne, hsentinel⟩, rfl⟩)⟩
    | uncompressedSize hbit hne hsentinel =>
      exact .inr ⟨rfl, hbit, .inr (.inr ⟨⟨hne, hsentinel⟩, rfl⟩)⟩

/-- What a silent audit of an entry says: the copies agree on name and method, and on
CRC and sizes where the local flag word makes the local copy authoritative. -/
theorem auditEntry_silent_iff (e : EntryLayout) :
    (∀ index field, ¬ ReportsMismatch (auditEntry e) index field) ↔
      e.central.name = e.loc.name ∧ e.central.method = e.loc.method ∧
        (e.loc.flags &&& 0x0008 = 0 →
          e.central.crc32 = e.loc.crc32 ∧
          (e.loc.compressedSize ≠ u32Sentinel →
            e.central.compressedSize = e.loc.compressedSize) ∧
          (e.loc.uncompressedSize ≠ u32Sentinel →
            e.central.uncompressedSize = e.loc.uncompressedSize)) := by
  simp only [reportsMismatch_auditEntry_iff]
  constructor
  · intro hsilent
    have hnone : ∀ field, ¬ Disagrees e field := fun field h => hsilent e.index field ⟨rfl, h⟩
    refine ⟨not_not.1 fun h => hnone _ (.name h), not_not.1 fun h => hnone _ (.method h), ?_⟩
    intro hbit
    refine ⟨not_not.1 fun h => hnone _ (.crc32 hbit h), fun hs => ?_, fun hs => ?_⟩
    · exact not_not.1 fun h => hnone _ (.compressedSize hbit h hs)
    · exact not_not.1 fun h => hnone _ (.uncompressedSize hbit h hs)
  · rintro ⟨hname, hmethod, hrest⟩ index field ⟨-, h⟩
    cases h with
    | name hne => exact hne hname
    | method hne => exact hne hmethod
    | crc32 hbit hne => exact hne (hrest hbit).1
    | compressedSize hbit hne hsentinel => exact hne ((hrest hbit).2.1 hsentinel)
    | uncompressedSize hbit hne hsentinel => exact hne ((hrest hbit).2.2 hsentinel)

/-- The audit is silent exactly when the copies agree wherever they are compared; with
the descriptor bit clear in the local header, each changed field is reported by name. -/
theorem auditEntry_complete (e : EntryLayout) :
    ((∀ index field, ¬ ReportsMismatch (auditEntry e) index field) ↔
      e.central.name = e.loc.name ∧ e.central.method = e.loc.method ∧
        (e.loc.flags &&& 0x0008 = 0 →
          e.central.crc32 = e.loc.crc32 ∧
          (e.loc.compressedSize ≠ u32Sentinel →
            e.central.compressedSize = e.loc.compressedSize) ∧
          (e.loc.uncompressedSize ≠ u32Sentinel →
            e.central.uncompressedSize = e.loc.uncompressedSize))) ∧
      (e.loc.flags &&& 0x0008 = 0 →
        (e.central.crc32 ≠ e.loc.crc32 → ReportsMismatch (auditEntry e) e.index "crc32") ∧
        (e.central.compressedSize ≠ e.loc.compressedSize → e.loc.compressedSize ≠ u32Sentinel →
          ReportsMismatch (auditEntry e) e.index "compressed_size") ∧
        (e.central.uncompressedSize ≠ e.loc.uncompressedSize →
          e.loc.uncompressedSize ≠ u32Sentinel →
          ReportsMismatch (auditEntry e) e.index "uncompressed_size")) := by
  have hreport : ∀ {field}, Disagrees e field → ReportsMismatch (auditEntry e) e.index field :=
    fun h => (reportsMismatch_auditEntry_iff e _ _).2 ⟨rfl, h⟩
  refine ⟨auditEntry_silent_iff e, fun hbit => ⟨?_, ?_, ?_⟩⟩
  · exact fun hne => hreport (.crc32 hbit hne)
  · exact fun hne hsentinel => hreport (.compressedSize hbit hne hsentinel)
  · exact fun hne hsentinel => hreport (.uncompressedSize hbit hne hsentinel)

/-- One edit of the local header hides another: with the descriptor bit set in the local
flag word only, a changed CRC goes unreported. -/
theorem localFlags_mask_crc :
    ¬ ∀ e : EntryLayout, (∀ index field, ¬ ReportsMismatch (auditEntry e) index field) →
      e.central.name = e.loc.name ∧ e.central.method = e.loc.method ∧
        e.central.flags = e.loc.flags ∧
        (e.central.flags &&& e.loc.flags &&& 0x0008 ≠ 0 ∨
          (e.central.crc32 = e.loc.crc32 ∧
            (e.loc.compressedSize = u32Sentinel ∨
              e.central.compressedSize = e.loc.compressedSize) ∧
            (e.loc.uncompressedSize = u32Sentinel ∨
              e.central.uncompressedSize = e.loc.uncompressedSize))) := by
  intro hcomplete
  let consistent := memberAt 0 40 100
  let edited : EntryLayout :=
    { consistent with loc := { consistent.loc with flags := 0x0008, crc32 := 0xDEADBEEF } }
  have hsilent : ∀ index field, ¬ ReportsMismatch (auditEntry edited) index field := by
    intro index field h
    obtain ⟨-, h⟩ := (reportsMismatch_auditEntry_iff edited index field).1 h
    cases h with
    | name hne => exact hne rfl
    | method hne => exact hne rfl
    | crc32 hbit _ => exact absurd hbit (by decide)
    | compressedSize hbit _ _ => exact absurd hbit (by decide)
    | uncompressedSize hbit _ _ => exact absurd hbit (by decide)
  exact absurd (hcomplete edited hsilent).2.2.2 (by decide)

end ZipForensic
