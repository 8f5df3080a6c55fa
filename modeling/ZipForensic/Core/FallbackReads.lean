import ZipForensic.Core.StoredMembers

/-!
# Random access by full decode (lib.rs)

An entry without a block or checkpoint index is decoded from the start for every read,
and the read is cut out of the decoded bytes. Nothing ties their number to the declared
uncompressed size that the bounds of the cut are computed from: `servesDecode_iff` says
for which offsets the cut is one.
-/

namespace ZipForensic

variable {k : Crates}

/-- Reading the entry `name` of the archive `F` to its end answers `x`. -/
def DecodesTo (k : Crates) (F : Bytes) (name : String) (x : Except IoError Bytes) : Prop :=
  ∃ a f, ZipArchive.new ⟨F, 0⟩ = .ok a ∧ (a.byName name : Opened k) = .ok f ∧ (readToEnd f).1 = x

theorem DecodesTo.unique {F : Bytes} {name : String} {x y : Except IoError Bytes}
    (hx : DecodesTo k F name x) (hy : DecodesTo k F name y) : x = y := by
  obtain ⟨a, f, hnew, hname, rfl⟩ := hx
  obtain ⟨a', f', hnew', hname', rfl⟩ := hy
  obtain rfl := Except.ok.inj (hnew.symm.trans hnew')
  obtain rfl := Except.ok.inj (hname.symm.trans hname')
  rfl

/-! ## What `open_entry` chooses -/

/-- A layout that decodes, if anything, the entry `name` of `path`. -/
def Layout.FallsBackTo (path : Bytes) (name : String) (layout : Layout) : Prop :=
  ∀ p n, layout = .fallback p n → p = path ∧ n = name

theorem fallsBackTo_deflateLayout {file : Bytes} {name : String} {start csize usize : Nat}
    {layout : Layout} (h : deflateLayout file name start csize usize = .ok layout) :
    layout.FallsBackTo file name := by
  unfold deflateLayout at h
  obtain ⟨found, -, h⟩ := Res.of_bind_ok h
  rintro p n rfl
  cases found with
  | some blocks => cases h
  | none =>
    obtain ⟨rfl, rfl⟩ := Layout.fallback.inj (Except.ok.inj h)
    exact ⟨rfl, rfl⟩

theorem fallsBackTo_deflate64Layout {file : Bytes} {name : String} {start csize usize : Nat}
    {layout : Layout} (h : deflate64Layout k file name start csize usize = .ok layout) :
    layout.FallsBackTo file name := by
  unfold deflate64Layout at h
  obtain ⟨found, -, h⟩ := Res.of_bind_ok h
  rintro p n rfl
  cases found with
  | some blocks => cases h
  | none =>
    obtain ⟨index, -, h⟩ := Res.of_bind_ok h
    cases h

/-- `open_entry` on an entry that opens, by its method. -/
theorem openEntry_cases {F : Bytes} {name : String} {a : ZipArchive} {f : ZipFile k (Take Source)}
    (hnew : ZipArchive.new ⟨F, 0⟩ = .ok a) (hname : (a.byName name : Opened k) = .ok f) :
    (f.compression = .stored ∧
      openEntry k F name = .ok ⟨F, f.size, .storedBlocks [⟨0, f.size, f.dataStart⟩]⟩) ∨
    (f.compression = .deflated ∧ openEntry k F name =
      (deflateLayout F name f.dataStart f.compressedSize f.size >>= fun layout =>
        .ok ⟨F, f.size, layout⟩)) ∨
    (f.compression = .deflate64 ∧ openEntry k F name =
      (deflate64Layout k F name f.dataStart f.compressedSize f.size >>= fun layout =>
        .ok ⟨F, f.size, layout⟩)) ∨
    ((f.compression ≠ .stored ∧ f.compression ≠ .deflated ∧ f.compression ≠ .deflate64) ∧
      openEntry k F name = .ok ⟨F, f.size, .fallback F name⟩) := by
  unfold openEntry
  rw [hnew, Res.bind_ok, hname]
  dsimp only
  cases f.compression with
  | stored => exact .inl ⟨rfl, rfl⟩
  | deflated => exact .inr (.inl ⟨rfl, rfl⟩)
  | deflate64 => exact .inr (.inr (.inl ⟨rfl, rfl⟩))
  | _ => exact .inr (.inr (.inr ⟨by simp, rfl⟩))

theorem exists_of_openEntry {F : Bytes} {name : String} {entry : StoredZipEntry}
    (h : openEntry k F name = .ok entry) :
    ∃ a f, ZipArchive.new ⟨F, 0⟩ = .ok a ∧ (a.byName name : Opened k) = .ok f := by
  unfold openEntry at h
  obtain ⟨a, hnew, h⟩ := Res.of_bind_ok h
  cases hopen : (a.byName name : Opened k) with
  | error x =>
    rw [hopen] at h
    cases h
  | ok f => exact ⟨a, f, hnew, hopen⟩

/-- What `open_entry` returns is a view of the named entry. -/
theorem of_openEntry {F : Bytes} {name : String} {entry : StoredZipEntry}
    (h : openEntry k F name = .ok entry) :
    ∃ a f, ZipArchive.new ⟨F, 0⟩ = .ok a ∧ (a.byName name : Opened k) = .ok f ∧
      entry.uncompressedSize = f.size ∧ entry.layout.FallsBackTo F name := by
  obtain ⟨a, f, hnew, hname⟩ := exists_of_openEntry h
  refine ⟨a, f, hnew, hname, ?_⟩
  rcases openEntry_cases hnew hname with ⟨-, heq⟩ | ⟨-, heq⟩ | ⟨-, heq⟩ | ⟨-, heq⟩
  · obtain rfl := Except.ok.inj (heq.symm.trans h)
    exact ⟨rfl, fun p n hfallback => by cases hfallback⟩
  · obtain ⟨layout, hlayout, h⟩ := Res.of_bind_ok (heq.symm.trans h)
    obtain rfl := Except.ok.inj h
    exact ⟨rfl, fallsBackTo_deflateLayout hlayout⟩
  · obtain ⟨layout, hlayout, h⟩ := Res.of_bind_ok (heq.symm.trans h)
    obtain rfl := Except.ok.inj h
    exact ⟨rfl, fallsBackTo_deflate64Layout hlayout⟩
  · obtain rfl := Except.ok.inj (heq.symm.trans h)
    exact ⟨rfl, fun p n hfallback => by cases hfallback; exact ⟨rfl, rfl⟩⟩

/-! ## Cutting a read out of the decoded bytes -/

/-- The bytes at `offset` of a decoded content of declared size `size`. -/
def declaredAt (data : Bytes) (size offset len : Nat) : Bytes :=
  ((data.take size).drop offset).take len

theorem sliceRange_declared {ε : Type} {data : Bytes} {size offset len : Nat}
    (hsize : offset < size) (hdata : offset ≤ data.length) :
    (sliceRange data offset (min (offset + (min (offset + len) size - offset)) data.length) :
      Res ε Bytes) = .ok (declaredAt data size offset len) := by
  rw [sliceRange, if_pos ⟨by omega, Nat.min_le_right _ _⟩, declaredAt, slice, List.drop_take,
    List.take_take]
  congr 1
  rw [List.take_eq_take_iff, List.length_drop]
  omega

/-- A read at `offset` is one of the decoded bytes of the entry; where the decode that it
takes fails, so does the read. -/
def StoredZipEntry.ServesDecode (k : Crates) (F : Bytes) (name : String) (entry : StoredZipEntry)
    (len offset : Nat) : Prop :=
  (∀ data, DecodesTo k F name (.ok data) →
    entry.readAt k len offset = .ok (declaredAt data entry.uncompressedSize offset len)) ∧
  (∀ e, DecodesTo k F name (.error e) → 0 < len → offset < entry.uncompressedSize →
    ∃ e', entry.readAt k len offset = Res.err e')

namespace StoredZipEntry

variable {path : Bytes} {name : String} {a : ZipArchive} {f : ZipFile k (Take Source)}

/-- The full-decode path of an entry that opens. -/
theorem readFallback_eq (hnew : ZipArchive.new ⟨path, 0⟩ = .ok a)
    (hname : (a.byName name : Opened k) = .ok f) (size offset total : Nat) :
    (∀ data, (readToEnd f).1 = .ok data → readFallback k path name size offset total =
      (withCapacity k size >>= fun _ =>
        sliceRange data offset (min (offset + total) data.length))) ∧
    (∀ e, (readToEnd f).1 = .error e → readFallback k path name size offset total =
      (withCapacity k size >>= fun _ => Res.err e)) := by
  unfold readFallback
  rw [hnew]
  dsimp only
  rw [hname]
  dsimp only
  constructor
  · intro data hread
    rw [hread]
  · intro e hread
    rw [hread]

/-- A declared size for which there is no buffer. -/
theorem readAt_refused {entry : StoredZipEntry} {len offset : Nat}
    (hlayout : entry.layout = .fallback path name) (hnew : ZipArchive.new ⟨path, 0⟩ = .ok a)
    (hname : (a.byName name : Opened k) = .ok f) (hin : offset < entry.uncompressedSize)
    (hpos : 0 < len) (hrefused : ¬ k.Grants entry.uncompressedSize) :
    entry.readAt k len offset = .error .panic := by
  rw [readAt, if_neg (by omega)]
  by_cases hsum : offset + len ≤ u64Max
  · rw [addU64_eq hsum, Res.bind_ok]
    dsimp only
    rw [subU64_eq (by omega), Res.bind_ok, hlayout]
    obtain ⟨hok, herror⟩ := readFallback_eq hnew hname entry.uncompressedSize offset
      (min (offset + len) entry.uncompressedSize - offset)
    dsimp only
    have hcapacity : withCapacity k entry.uncompressedSize = .error .panic := if_neg hrefused
    rcases hread : (readToEnd f).1 with e | data
    · rw [herror e hread, hcapacity]
      rfl
    · rw [hok data hread, hcapacity]
      rfl
  · rw [addU64, if_neg hsum]
    rfl

/-- A read that decodes, with a declared size for which there is a buffer. -/
theorem readAt_decoding {entry : StoredZipEntry} {len offset : Nat} (hlen : len ≤ isizeMax)
    (hlayout : entry.layout = .fallback path name) (hnew : ZipArchive.new ⟨path, 0⟩ = .ok a)
    (hname : (a.byName name : Opened k) = .ok f) (hin : offset < entry.uncompressedSize)
    (hpos : 0 < len) (hgrants : k.Grants entry.uncompressedSize) :
    (∀ data, (readToEnd f).1 = .ok data → entry.readAt k len offset =
      sliceRange data offset (min
        (offset + (min (offset + len) entry.uncompressedSize - offset)) data.length)) ∧
    (∀ e, (readToEnd f).1 = .error e → entry.readAt k len offset = Res.err e) := by
  obtain ⟨hok, herror⟩ := readFallback_eq hnew hname entry.uncompressedSize offset
    (min (offset + len) entry.uncompressedSize - offset)
  have hcapacity : withCapacity k entry.uncompressedSize = .ok () := if_pos hgrants
  rw [hcapacity] at hok herror
  have hfits : entry.uncompressedSize ≤ isizeMax := by
    rcases hgrants with h | h
    · omega
    · exact h.1
  have hread : entry.readAt k len offset = readFallback k path name entry.uncompressedSize offset
      (min (offset + len) entry.uncompressedSize - offset) := by
    rw [readAt, if_neg (by omega), addU64_eq (by unfold isizeMax u64Max at *; omega), Res.bind_ok]
    dsimp only
    rw [subU64_eq (by omega), Res.bind_ok, hlayout]
  rw [hread]
  exact ⟨hok, herror⟩

end StoredZipEntry

section Serves

variable {F : Bytes} {name : String} {entry : StoredZipEntry} {len offset : Nat} {a : ZipArchive}
  {f : ZipFile k (Take Source)}

/-- A read that asks for nothing decodes nothing. -/
theorem servesDecode_of_nothing (h : entry.uncompressedSize ≤ offset ∨ len = 0) :
    entry.ServesDecode k F name len offset := by
  have hread : entry.readAt k len offset = .ok [] := by
    rw [StoredZipEntry.readAt, if_pos h]
  refine ⟨fun data _ => ?_, fun e _ hpos hin => ?_⟩
  · rw [hread, declaredAt]
    rcases h with h | h
    · rw [List.drop_eq_nil_of_le (Nat.le_trans (List.length_take_le _ _) h), List.take_nil]
    · rw [h, List.take_zero]
  · omega

variable (hnew : ZipArchive.new ⟨F, 0⟩ = .ok a) (hname : (a.byName name : Opened k) = .ok f)
  (hlayout : entry.layout = .fallback F name) (hin : offset < entry.uncompressedSize)
  (hpos : 0 < len)
include hnew hname hlayout hin hpos

/-- With a buffer of the declared size, the offset decides. -/
theorem servesDecode_iff_of_granted (hlen : len ≤ isizeMax)
    (hgrants : k.Grants entry.uncompressedSize) :
    entry.ServesDecode k F name len offset ↔
      ∀ data, DecodesTo k F name (.ok data) → offset ≤ data.length := by
  have hdecodes : DecodesTo k F name (readToEnd f).1 := ⟨a, f, hnew, hname, rfl⟩
  obtain ⟨hok, herror⟩ := StoredZipEntry.readAt_decoding hlen hlayout hnew hname hin hpos hgrants
  constructor
  · rintro ⟨hserves, -⟩ data hdata
    -- a cut that starts behind the decoded bytes is not one
    by_contra hshort
    have hcut := hok data (hdecodes.unique hdata)
    rw [hserves data hdata, sliceRange, if_neg (by omega)] at hcut
    cases hcut
  · intro hinside
    refine ⟨fun data hdata => ?_, fun e he _ _ => ⟨e, herror e (hdecodes.unique he)⟩⟩
    rw [hok data (hdecodes.unique hdata), sliceRange_declared hin (hinside data hdata)]

/-- Without one, neither the decoded bytes nor an error come back. -/
theorem not_servesDecode_of_refused (hrefused : ¬ k.Grants entry.uncompressedSize) :
    ¬ entry.ServesDecode k F name len offset := by
  have hdecodes : DecodesTo k F name (readToEnd f).1 := ⟨a, f, hnew, hname, rfl⟩
  have hpanic := StoredZipEntry.readAt_refused hlayout hnew hname hin hpos hrefused
  rintro ⟨hserves, hfails⟩
  rcases hread : (readToEnd f).1 with e | data
  · rw [hread] at hdecodes
    obtain ⟨e', he'⟩ := hfails e hdecodes hpos hin
    rw [hpanic] at he'
    cases he'
  · rw [hread] at hdecodes
    have hdata := hserves data hdecodes
    rw [hpanic] at hdata
    cases hdata

end Serves

/-- **Random access by full decode** is a read of the decoded bytes exactly where it reads
nothing, or the allocator grants a buffer of the declared size and the offset lies within the
decoded bytes, however many they are. -/
theorem servesDecode_iff {F : Bytes} {name : String} {entry : StoredZipEntry} {len offset : Nat}
    {path : Bytes} {inner : String} (hlen : len ≤ isizeMax)
    (hopen : openEntry k F name = .ok entry) (hlayout : entry.layout = .fallback path inner) :
    entry.ServesDecode k F name len offset ↔
      len = 0 ∨ entry.uncompressedSize ≤ offset ∨ (k.Grants entry.uncompressedSize ∧
        ∀ data, DecodesTo k F name (.ok data) → offset ≤ data.length) := by
  obtain ⟨a, f, hnew, hname, hsize, hfalls⟩ := of_openEntry hopen
  obtain ⟨rfl, rfl⟩ := hfalls path inner hlayout
  by_cases hnothing : entry.uncompressedSize ≤ offset ∨ len = 0
  · refine iff_of_true (servesDecode_of_nothing hnothing) ?_
    rcases hnothing with h | h
    · exact .inr (.inl h)
    · exact .inl h
  · have hin : offset < entry.uncompressedSize := by omega
    have hpos : 0 < len := by omega
    rw [or_iff_right (by omega), or_iff_right (by omega)]
    by_cases hgrants : k.Grants entry.uncompressedSize
    · rw [and_iff_right hgrants]
      exact servesDecode_iff_of_granted hnew hname hlayout hin hpos hlen hgrants
    · exact iff_of_false (not_servesDecode_of_refused hnew hname hlayout hin hpos hgrants)
        fun h => hgrants h.1

/-- An archive of the member `m`, deflated: one empty block, and `size` as its
uncompressed size. -/
def deflatedArchive (size : UInt8) : Bytes :=
  -- local header, name, data
  [0x50, 0x4B, 0x03, 0x04, 20, 0, 0, 0, 8, 0, 0, 0, 0, 0, 0, 0, 0, 0,
    2, 0, 0, 0, size, 0, 0, 0, 1, 0, 0, 0] ++ [0x6D] ++ [0x03, 0x00] ++
  -- central header, name
  [0x50, 0x4B, 0x01, 0x02, 20, 0, 20, 0, 0, 0, 8, 0, 0, 0, 0, 0, 0, 0, 0, 0,
    2, 0, 0, 0, size, 0, 0, 0, 1, 0, 0, 0, 0, 0, 0, 0, 0, 0, 0, 0, 0, 0, 0, 0, 0, 0] ++ [0x6D] ++
  -- EOCD
  [0x50, 0x4B, 0x05, 0x06, 0, 0, 0, 0, 1, 0, 1, 0, 47, 0, 0, 0, 33, 0, 0, 0, 0, 0]

/-- The member as `open_entry` sees it. -/
def deflatedEntry (size : UInt8) : StoredZipEntry :=
  ⟨deflatedArchive size, size.toNat, .fallback (deflatedArchive size) "m"⟩

/-- The XZ member of the archive of two, at its fifty last bytes: it is decoded, and the read
cut out of its 300. -/
theorem pairArchive_servesDecode :
    ∃ entry, openEntry pairCrates (pairArchive 0x61) "b" = .ok entry ∧
      entry.layout = .fallback (pairArchive 0x61) "b" ∧
      DecodesTo pairCrates (pairArchive 0x61) "b" (.ok (List.replicate 300 0x61)) ∧
      entry.ServesDecode pairCrates (pairArchive 0x61) "b" 100 250 ∧
      entry.readAt pairCrates 100 250 = .ok (List.replicate 50 0x61) := by
  have hopen : openEntry pairCrates (pairArchive 0x61) "b" =
      .ok ⟨pairArchive 0x61, 300, .fallback (pairArchive 0x61) "b"⟩ := by
    decide +kernel
  have hdecodes : DecodesTo pairCrates (pairArchive 0x61) "b" (.ok (List.replicate 300 0x61)) := by
    have hnew : ZipArchive.new ⟨pairArchive 0x61, 0⟩ = .ok (pairOpened 0x61 237) := by
      decide +kernel
    have hread : ((pairOpened 0x61 237).byName "b" : Opened pairCrates).toOption.map
        (fun f => (readToEnd f).1) = some (.ok (List.replicate 300 0x61)) := by
      decide +kernel
    obtain ⟨f, hname, hdata⟩ := Option.map_eq_some_iff.1 hread
    cases hopened : ((pairOpened 0x61 237).byName "b" : Opened pairCrates) with
    | error x =>
      rw [hopened] at hname
      cases hname
    | ok g =>
      rw [hopened] at hname
      obtain rfl := Option.some.inj hname
      exact ⟨_, g, hnew, hopened, hdata⟩
  have hserves : (⟨pairArchive 0x61, 300, .fallback (pairArchive 0x61) "b"⟩ :
      StoredZipEntry).ServesDecode pairCrates (pairArchive 0x61) "b" 100 250 := by
    refine (servesDecode_iff (by decide) hopen rfl).2 (.inr (.inr ⟨by decide, fun data hdata => ?_⟩))
    rw [← Except.ok.inj (hdecodes.unique hdata), List.length_replicate]
    exact Nat.le_add_right 250 50
  exact ⟨_, hopen, rfl, hdecodes, hserves, (hserves.1 _ hdecodes).trans (by decide +kernel)⟩

/-- With a declared size of 5, a read of the empty member at offset 1 panics. -/
theorem deflatedArchive_panics :
    openEntry .plain (deflatedArchive 5) "m" = .ok (deflatedEntry 5) ∧
      DecodesTo .plain (deflatedArchive 5) "m" (.ok []) ∧
      (deflatedEntry 5).readAt .plain 4 1 = .error .panic ∧
      ¬ (deflatedEntry 5).ServesDecode .plain (deflatedArchive 5) "m" 4 1 := by
  have hopen : openEntry .plain (deflatedArchive 5) "m" = .ok (deflatedEntry 5) := by
    decide +kernel
  have hread : (deflatedEntry 5).readAt .plain 4 1 = .error .panic := by decide +kernel
  have hdecodes : DecodesTo .plain (deflatedArchive 5) "m" (.ok []) := by
    obtain ⟨a, f, hnew, hname, -, -⟩ := of_openEntry hopen
    have hlayout : (deflatedEntry 5).layout = .fallback (deflatedArchive 5) "m" := rfl
    have hin : 1 < (deflatedEntry 5).uncompressedSize := by decide
    obtain ⟨hok, herror⟩ := StoredZipEntry.readAt_decoding (show 4 ≤ isizeMax by decide) hlayout
      hnew hname hin (by decide) (by decide)
    rcases hend : (readToEnd f).1 with e | data
    · rw [herror e hend] at hread
      cases hread
    · -- a cut at offset 1 of any bytes would not have failed
      cases data with
      | nil => exact ⟨a, f, hnew, hname, hend⟩
      | cons b bs =>
        rw [hok _ hend, sliceRange_declared (by decide) (by simp)] at hread
        cases hread
  refine ⟨hopen, hdecodes, hread, fun h => ?_⟩
  have hserves := h.1 [] hdecodes
  rw [hread] at hserves
  cases hserves

end ZipForensic
