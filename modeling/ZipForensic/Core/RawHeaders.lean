import ZipForensic.Core.HeaderDecoding
import ZipForensic.Core.LayoutView
import ZipForensic.Core.ParserBounds

/-!
# The header copies as they stand in the file

- `centralRaw`, `localRaw`: flag word, method id and name of a header copy, undecoded.
- `decodes_central`: entry `i` of an opened archive decodes the `i`-th header of its
  directory, the headers following one another from the directory's start
  (`centralOffset`); the step is `of_parseCdEntry`.
- `decodes_layout`: both copies of every entry of a structural view.
-/

namespace ZipForensic

/-- The flag word, method id and name of one header copy, as the file has them. -/
structure RawHeader where
  flags : Nat
  method : Nat
  name : Bytes
deriving DecidableEq, Repr

/-- The values the reader makes of a header copy. -/
structure RawHeader.Decodes (h : RawHeader) (name : String) (method : CompressionMethod)
    (flags : Nat) : Prop where
  name : name = decodeName h.name h.flags
  method : method = .fromU16 h.method
  flags : flags = h.flags

/-- The central header at `off`. -/
def centralRaw (b : Bytes) (off : Nat) : RawHeader where
  flags := leNat (slice b (off + 8) 2)
  method := leNat (slice b (off + 10) 2)
  name := slice b (off + 46) (leNat (slice b (off + 28) 2))

/-- The number of the disk that the central header at `off` records. -/
def centralDisk (b : Bytes) (off : Nat) : Nat := leNat (slice b (off + 34) 2)

/-- What the parser makes of the central header at `off`. -/
structure CentralDecodes (b : Bytes) (off : Nat) (m : CentralEntry) : Prop where
  header : (centralRaw b off).Decodes m.name m.method m.flags
  diskStart : m.diskStart = centralDisk b off

/-- The length of the central header at `off`, with its name, extra block and comment. -/
def centralLength (b : Bytes) (off : Nat) : Nat :=
  46 + leNat (slice b (off + 28) 2) + leNat (slice b (off + 30) 2) + leNat (slice b (off + 32) 2)

/-- Where the `i`-th of the central headers from `start` on begins. -/
def centralOffset (b : Bytes) (start : Nat) : Nat → Nat
  | 0 => start
  | i + 1 => centralOffset b (start + centralLength b start) i

/-- The local header at `off`. -/
def localRaw (b : Bytes) (off : Nat) : RawHeader where
  flags := leNat (slice b (off + 6) 2)
  method := leNat (slice b (off + 8) 2)
  name := slice b (off + lfhFixed) (localNameLen b off)

/-! ## Central headers -/

/-- A block read at an offset was there. -/
theorem Reader.of_runOn_take_at {α : Type} {f : Bytes → Reader α} {b rest : Bytes} {i n : Nat}
    {a : α} (hi : i ≤ b.length) (h : Reader.runOn (Reader.take n >>= f) (b.drop i) = .ok (a, rest)) :
    i + n ≤ b.length ∧ Reader.runOn (f (slice b i n)) (b.drop (i + n)) = .ok (a, rest) := by
  by_cases hroom : i + n ≤ b.length
  · rw [Reader.runOn_bind_ok _ (Reader.runOn_take_at hroom)] at h
    exact ⟨hroom, h⟩
  · rw [Reader.runOn_bind, Reader.runOn_take, if_neg (by rw [List.length_drop]; omega)] at h
    cases h

/-- The fields behind the signature of a header that parses. -/
theorem of_parseCdFields {b rest : Bytes} {m : CentralEntry} (hb : 46 ≤ b.length)
    (h : Reader.runOn parseCdFields (b.drop 4) = .ok (m, rest)) :
    CentralDecodes b 0 m ∧ centralLength b 0 ≤ b.length ∧
      rest = b.drop (centralLength b 0) := by
  unfold parseCdFields at h
  rw [Reader.runOn_bind_ok _ (Reader.runOn_u16_at (by omega)),
    Reader.runOn_bind_ok _ (Reader.runOn_u16_at (by omega)),
    Reader.runOn_bind_ok _ (Reader.runOn_u16_at (by omega)),
    Reader.runOn_bind_ok _ (Reader.runOn_u16_at (by omega)),
    Reader.runOn_bind_ok _ (Reader.runOn_u16_at (by omega)),
    Reader.runOn_bind_ok _ (Reader.runOn_u16_at (by omega)),
    Reader.runOn_bind_ok _ (Reader.runOn_u32_at (by omega)),
    Reader.runOn_bind_ok _ (Reader.runOn_u32_at (by omega)),
    Reader.runOn_bind_ok _ (Reader.runOn_u32_at (by omega)),
    Reader.runOn_bind_ok _ (Reader.runOn_u16_at (by omega)),
    Reader.runOn_bind_ok _ (Reader.runOn_u16_at (by omega)),
    Reader.runOn_bind_ok _ (Reader.runOn_u16_at (by omega)),
    Reader.runOn_bind_ok _ (Reader.runOn_u16_at (by omega)),
    Reader.runOn_bind_ok _ (Reader.runOn_u16_at (by omega)),
    Reader.runOn_bind_ok _ (Reader.runOn_u32_at (by omega)),
    Reader.runOn_bind_ok _ (Reader.runOn_u32_at (by omega))] at h
  simp only [Nat.reduceAdd] at h
  obtain ⟨hname, h⟩ := Reader.of_runOn_take_at (by omega) h
  obtain ⟨hextra, h⟩ := Reader.of_runOn_take_at hname h
  obtain ⟨hcomment, h⟩ := Reader.of_runOn_take_at hextra h
  split at h
  · cases h
  · obtain ⟨rfl, rfl⟩ := Prod.mk.inj (Except.ok.inj h)
    exact ⟨⟨⟨rfl, rfl, rfl⟩, rfl⟩, hcomment, rfl⟩

/-- A header that parses decodes the bytes it starts at, and the reader stands behind its
comment. -/
theorem of_parseCdEntry {cdLen : Nat} {b rest : Bytes} {m : CentralEntry}
    (h : Reader.runOn (parseCdEntry cdLen) b = .ok (m, rest)) :
    CentralDecodes b 0 m ∧ centralLength b 0 ≤ b.length ∧
      rest = b.drop (centralLength b 0) := by
  unfold parseCdEntry at h
  rw [Reader.runOn_bind_ok _ (Reader.runOn_remaining b)] at h
  by_cases hshort : b.length < 46
  · rw [if_pos hshort] at h
    cases h
  · have hsig := Reader.runOn_u32_at (b := b) (i := 0) (by omega)
    rw [List.drop_zero] at hsig
    rw [if_neg hshort, Reader.runOn_bind_ok _ hsig] at h
    split_ifs at h
    · cases h
    · exact of_parseCdFields (Nat.le_of_not_lt hshort) h

section Slices

variable {F : Bytes} {off len : Nat}

theorem leNat_slice_slice {i n : Nat} (h : i + n ≤ len) :
    leNat (slice (slice F off len) (0 + i) n) = leNat (slice F (off + i) n) := by
  rw [Nat.zero_add, slice_slice h]

/-- The header in front of a slice that holds it is the one in the file. -/
theorem centralLength_slice (h : centralLength (slice F off len) 0 ≤ len) :
    centralLength (slice F off len) 0 = centralLength F off := by
  unfold centralLength at h ⊢
  rw [leNat_slice_slice (by omega), leNat_slice_slice (by omega), leNat_slice_slice (by omega)]

theorem CentralDecodes.of_slice {m : CentralEntry}
    (h : centralLength (slice F off len) 0 ≤ len) (hm : CentralDecodes (slice F off len) 0 m) :
    CentralDecodes F off m := by
  unfold centralLength at h
  have hname : leNat (slice (slice F off len) (0 + 28) 2) = leNat (slice F (off + 28) 2) :=
    leNat_slice_slice (by omega)
  have hraw : centralRaw (slice F off len) 0 = centralRaw F off := by
    unfold centralRaw
    rw [leNat_slice_slice (by omega), leNat_slice_slice (by omega), hname, Nat.zero_add,
      slice_slice (by omega)]
  constructor
  · rw [← hraw]
    exact hm.header
  · rw [hm.diskStart, centralDisk, centralDisk, leNat_slice_slice (by omega)]

end Slices

/-- The headers of a directory decode the bytes they start at, one behind the other. -/
theorem of_parseCdEntriesLoop {cdLen total : Nat} {F rest : Bytes} {off len : Nat}
    {entries : List CentralEntry}
    (h : Reader.runOn (parseCdEntriesLoop cdLen total) (slice F off len) = .ok (entries, rest))
    {i : Nat} {m : CentralEntry} (hm : entries[i]? = some m) :
    CentralDecodes F (centralOffset F off i) m := by
  induction total generalizing off len entries rest i with
  | zero =>
    obtain ⟨rfl, -⟩ := Prod.mk.inj (Except.ok.inj h)
    cases hm
  | succ total ih =>
    unfold parseCdEntriesLoop at h
    rw [Reader.runOn_bind] at h
    rcases hentry : Reader.runOn (parseCdEntry cdLen) (slice F off len) with e | ⟨e, behind⟩
    · rw [hentry] at h
      cases h
    · rw [hentry] at h
      obtain ⟨hdecodes, hlength, rfl⟩ := of_parseCdEntry hentry
      have hfits : centralLength (slice F off len) 0 ≤ len :=
        Nat.le_trans hlength (List.length_take_le _ _)
      replace hdecodes := hdecodes.of_slice hfits
      dsimp only at h
      rw [centralLength_slice hfits, slice_drop, Reader.runOn_bind] at h
      rcases hloop : Reader.runOn (parseCdEntriesLoop cdLen total)
        (slice F (off + centralLength F off) (len - centralLength F off)) with e' | ⟨es, last⟩
      · rw [hloop] at h
        cases h
      · rw [hloop] at h
        obtain ⟨rfl, -⟩ := Prod.mk.inj (Except.ok.inj h)
        cases i with
        | zero =>
          obtain rfl := Option.some.inj hm
          exact hdecodes
        | succ i =>
          have htail := ih hloop hm
          exact htail

/-- Every entry of an opened archive decodes its header in the file. -/
theorem decodes_central {F : Bytes} {entries : List CentralEntry} {summary : ArchiveSummary}
    (h : directoryOf F = .ok (entries, summary)) {i : Nat} {m : CentralEntry}
    (hm : entries[i]? = some m) :
    CentralDecodes F (centralOffset F summary.centralDirOffset i) m := by
  obtain ⟨parsed, total, used, n, hparse, rfl⟩ := parsed_of_directoryOf h
  rw [List.getElem?_map] at hm
  obtain ⟨m', hm', rfl⟩ := Option.map_eq_some_iff.1 hm
  unfold parseCdEntries at hparse
  split at hparse
  · next hrun =>
    obtain ⟨rfl, -⟩ := Prod.mk.inj (Except.ok.inj hparse)
    have hdecodes := of_parseCdEntriesLoop hrun hm'
    exact ⟨⟨hdecodes.header.name, hdecodes.header.method, hdecodes.header.flags⟩,
      hdecodes.diskStart⟩
  · cases hparse

/-! ## Local headers -/

/-- A local header that can be read decodes its bytes. -/
theorem decodes_local {F : Bytes} {off dataStart : Nat} {loc : HeaderFields}
    (h : lfhAt F off = .ok (loc, dataStart)) :
    (localRaw F off).Decodes loc.name loc.method loc.flags := by
  unfold lfhAt at h
  by_cases hfixed : off + lfhFixed ≤ F.length
  · obtain ⟨rest, hrun⟩ := runOn_parseLfhFixed hfixed
    rw [if_pos hfixed, hrun] at h
    by_cases hsig : leNat (slice F off 4) = lfhSig
    · rw [if_pos hsig] at h
      dsimp only at h
      split_ifs at h
      · obtain ⟨nameStart, -, h⟩ := Res.of_bind_ok h
        obtain ⟨extraStart, -, h⟩ := Res.of_bind_ok h
        obtain ⟨dataStart', -, h⟩ := Res.of_bind_ok h
        obtain ⟨rfl, -⟩ := Prod.mk.inj (Except.ok.inj h)
        exact ⟨rfl, rfl, rfl⟩
      · cases h
    · rw [if_neg hsig] at h
      cases h
  · rw [if_neg hfixed] at h
    cases h

/-! ## Both copies -/

/-- The two header copies of an entry of a structural view, as the file has them. -/
def EntryLayout.centralRaw (e : EntryLayout) (F : Bytes) (summary : ArchiveSummary) : RawHeader :=
  ZipForensic.centralRaw F (centralOffset F summary.centralDirOffset e.index)

def EntryLayout.localRaw (e : EntryLayout) (F : Bytes) : RawHeader :=
  ZipForensic.localRaw F e.lfhOffset

/-- The layouts are made from the entries and their local headers. -/
theorem of_mem_layoutsAt {F : Bytes} {ms : List CentralEntry} {index : Nat}
    {layout : List EntryLayout} (h : layoutsAt F index ms = .ok layout) {e : EntryLayout}
    (he : e ∈ layout) :
    ∃ i m loc dataStart, ms[i]? = some m ∧ lfhAt F m.lfhOffset = .ok (loc, dataStart) ∧
      e = ZipArchive.entryLayout (index + i) m loc dataStart := by
  induction ms generalizing index layout with
  | nil =>
    obtain rfl : [] = layout := Except.ok.inj h
    exact absurd he List.not_mem_nil
  | cons m ms ih =>
    unfold layoutsAt at h
    obtain ⟨⟨loc, dataStart⟩, hlfh, h⟩ := Res.of_bind_ok h
    obtain ⟨rest, hrest, h⟩ := Res.of_bind_ok h
    obtain rfl := Except.ok.inj h
    rcases List.mem_cons.1 he with rfl | he
    · exact ⟨0, m, loc, dataStart, rfl, hlfh, rfl⟩
    · obtain ⟨i, m', loc', dataStart', hm', hlfh', rfl⟩ := ih hrest he
      refine ⟨i + 1, m', loc', dataStart', hm', hlfh', ?_⟩
      rw [Nat.add_right_comm, Nat.add_assoc index i 1]

/-- Both copies of every entry of a structural view decode the file's headers. -/
theorem decodes_layout {F : Bytes} {entries : List CentralEntry} {summary : ArchiveSummary}
    (hdir : directoryOf F = .ok (entries, summary)) {layout : List EntryLayout}
    (hlayout : layoutsAt F 0 entries = .ok layout) {e : EntryLayout} (he : e ∈ layout) :
    (e.centralRaw F summary).Decodes e.central.name e.central.method e.central.flags ∧
      (e.localRaw F).Decodes e.loc.name e.loc.method e.loc.flags := by
  obtain ⟨i, m, loc, dataStart, hm, hlfh, rfl⟩ := of_mem_layoutsAt hlayout he
  rw [Nat.zero_add]
  exact ⟨(decodes_central hdir hm).header, decodes_local hlfh⟩

end ZipForensic
