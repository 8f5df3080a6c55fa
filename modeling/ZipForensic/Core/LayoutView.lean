import ZipForensic.Core.ContainerView

/-!
# The structural view as a function of the file's bytes

- `layoutsAt`: what `structural_view` returns, entry by entry (`structuralView_eq`), and
  the invariants of its result (`layoutsAt_bounds`).
- `FileReader F`: a reader over the file `F`. Whatever is read through it, it stays a
  reader over `F`, and so does everything stacked on it: `byIndex_over` follows the
  archive's reader through an entry and back.
-/

namespace ZipForensic

open ArchiveM

variable {k : Crates}

/-- `structural_view` on the bytes, from index `index` on. -/
def layoutsAt (F : Bytes) : Nat → List CentralEntry → Res ZipCoreError (List EntryLayout)
  | _, [] => .ok []
  | index, m :: ms =>
    lfhAt F m.lfhOffset >>= fun (loc, dataStart) =>
      layoutsAt F (index + 1) ms >>= fun rest =>
        .ok (ZipArchive.entryLayout index m loc dataStart :: rest)

theorem views_structuralViewLoop (F : Bytes) (index : Nat) (ms : List CentralEntry) :
    Views (ZipArchive.structuralViewLoop index ms) F (layoutsAt F index ms) := by
  induction ms generalizing index with
  | nil => exact .pure _
  | cons m ms ih =>
    unfold ZipArchive.structuralViewLoop layoutsAt
    exact .bind (views_readLfhFields F _) fun x _ => .bind (ih (index + 1)) fun rest _ => .pure _

/-- The structural view of an archive, and the archive's reader afterwards. -/
theorem structuralView_eq (a : ZipArchive) :
    ∃ pos, a.structuralView =
      (layoutsAt a.reader.bytes 0 a.entries, { a with reader := ⟨a.reader.bytes, pos⟩ }) := by
  obtain ⟨pos, hrun⟩ := views_structuralViewLoop a.reader.bytes 0 a.entries a.reader.pos
  refine ⟨pos, ?_⟩
  unfold ZipArchive.structuralView
  rw [hrun]

/-- The layouts of members whose local headers are there. -/
theorem layoutsAt_eq_ok {F : Bytes} {fields : CentralEntry → HeaderFields × Nat}
    {ms : List CentralEntry} (h : ∀ m ∈ ms, lfhAt F m.lfhOffset = .ok (fields m)) (index : Nat) :
    layoutsAt F index ms = .ok (ms.zipIdx index |>.map fun p =>
      ZipArchive.entryLayout p.2 p.1 (fields p.1).1 (fields p.1).2) := by
  induction ms generalizing index with
  | nil => rfl
  | cons m ms ih =>
    rw [layoutsAt, h m (List.mem_cons_self ..), Res.bind_ok,
      ih (fun m' hm' => h m' (List.mem_cons_of_mem _ hm'))]
    rfl

/-- One layout for each entry, in order, with its data starting near the file. -/
theorem layoutsAt_bounds {F : Bytes} (hlen : F.length ≤ isizeMax) {ms : List CentralEntry}
    {index : Nat} {layout : List EntryLayout} (h : layoutsAt F index ms = .ok layout) :
    layout.map EntryLayout.index = List.range' index layout.length ∧
      ∀ e ∈ layout, e.dataStart < u64Max := by
  induction ms generalizing index layout with
  | nil =>
    obtain rfl : [] = layout := Except.ok.inj h
    exact ⟨rfl, fun e he => absurd he List.not_mem_nil⟩
  | cons m ms ih =>
    unfold layoutsAt at h
    obtain ⟨⟨loc, dataStart⟩, hlfh, h⟩ := Res.of_bind_ok h
    obtain ⟨rest, hrest, h⟩ := Res.of_bind_ok h
    obtain rfl := Except.ok.inj h
    obtain ⟨hindex, hstart⟩ := ih hrest
    constructor
    · rw [List.map_cons, hindex, List.length_cons, List.range'_succ]
      rfl
    · intro e he
      rcases List.mem_cons.1 he with rfl | he
      · obtain ⟨hin, -, heq⟩ := (lfhAt_eq_ok_iff hlen).1 hlfh
        have hextra : leNat (slice F (m.lfhOffset + 28) 2) < 256 ^ 2 :=
          leNat_slice_lt F (m.lfhOffset + 28) 2
        show dataStart < u64Max
        rw [(Prod.mk.inj heq).2]
        unfold localDataStart
        unfold isizeMax at hlen
        unfold u64Max
        omega
      · exact hstart e he

/-- A structural view has one layout for each entry, whose local header is there. -/
theorem of_layoutsAt {F : Bytes} {ms : List CentralEntry} {index : Nat}
    {layout : List EntryLayout} (h : layoutsAt F index ms = .ok layout) :
    layout.length = ms.length ∧ ∀ m ∈ ms, ∃ x, lfhAt F m.lfhOffset = .ok x := by
  induction ms generalizing index layout with
  | nil =>
    obtain rfl : [] = layout := Except.ok.inj h
    exact ⟨rfl, fun m hm => absurd hm List.not_mem_nil⟩
  | cons m ms ih =>
    unfold layoutsAt at h
    obtain ⟨x, hlfh, h⟩ := Res.of_bind_ok h
    obtain ⟨rest, hrest, h⟩ := Res.of_bind_ok h
    obtain rfl := Except.ok.inj h
    obtain ⟨hlen, hheaders⟩ := ih hrest
    exact ⟨congrArg (· + 1) hlen, List.forall_mem_cons.2 ⟨⟨x, hlfh⟩, hheaders⟩⟩

/-- The layout of one entry, from its local header. -/
theorem getElem?_of_layoutsAt {F : Bytes} {ms : List CentralEntry} {index : Nat}
    {layout : List EntryLayout} (h : layoutsAt F index ms = .ok layout) {i : Nat}
    {m : CentralEntry} (hi : ms[i]? = some m) :
    ∃ loc dataStart, lfhAt F m.lfhOffset = .ok (loc, dataStart) ∧
      layout[i]? = some (ZipArchive.entryLayout (index + i) m loc dataStart) := by
  induction ms generalizing index layout i with
  | nil => cases hi
  | cons m' ms ih =>
    unfold layoutsAt at h
    obtain ⟨⟨loc, dataStart⟩, hlfh, h⟩ := Res.of_bind_ok h
    obtain ⟨rest, hrest, h⟩ := Res.of_bind_ok h
    obtain rfl := Except.ok.inj h
    cases i with
    | zero =>
      obtain rfl := Option.some.inj hi
      exact ⟨loc, dataStart, hlfh, rfl⟩
    | succ i =>
      have hindex : index + (i + 1) = index + 1 + i := by omega
      rw [hindex]
      exact ih hrest hi

/-- An archive of one member whose local header is there. -/
theorem view_of_layouts {F : Bytes} {ms : List CentralEntry} {summary : ArchiveSummary}
    {layout : List EntryLayout} (hdir : directoryOf F = .ok (ms, summary))
    (hat : layoutsAt F 0 ms = .ok layout) :
    ∃ a, ZipArchive.new ⟨F, 0⟩ = .ok a ∧ a.reader.bytes = F ∧ a.entries = ms ∧
      a.summary = summary ∧ a.structuralView.1 = .ok layout := by
  obtain ⟨pos, hnew⟩ := new_of_directoryOf hdir 0
  obtain ⟨pos', hview⟩ := structuralView_eq ⟨⟨F, pos⟩, ms, summary⟩
  refine ⟨_, hnew, rfl, rfl, rfl, ?_⟩
  rw [hview]
  exact hat

theorem view_of_member {F : Bytes} {m : CentralEntry} {summary : ArchiveSummary}
    {loc : HeaderFields} {dataStart : Nat} (hdir : directoryOf F = .ok ([m], summary))
    (hlfh : lfhAt F m.lfhOffset = .ok (loc, dataStart)) :
    ∃ a, ZipArchive.new ⟨F, 0⟩ = .ok a ∧ a.summary = summary ∧
      a.structuralView.1 = .ok [ZipArchive.entryLayout 0 m loc dataStart] := by
  have hat : layoutsAt F 0 [m] = .ok [ZipArchive.entryLayout 0 m loc dataStart] := by
    rw [layoutsAt, hlfh]
    rfl
  obtain ⟨a, hnew, -, -, hsummary, hview⟩ := view_of_layouts hdir hat
  exact ⟨a, hnew, hsummary, hview⟩

/-! ## Readers stay over their file -/

/-- A reader over the file `F`. -/
structure FileReader (F : Bytes) where
  source : Source
  bytes_eq : source.bytes = F

namespace FileReader

variable {F : Bytes}

instance : Read IoError (FileReader F) where
  read n r := ((read n r.source).1, ⟨(read n r.source).2, r.bytes_eq⟩)
  avail r := avail r.source

theorem readHom_source : ReadHom (source (F := F)) where
  read_map _ _ := rfl
  avail_map _ := rfl

end FileReader

/-- The reader an entry hands back, at once or after it was read to its end, is a
reader over `F`. -/
def Opened.Over (F : Bytes) : Opened k → Prop
  | .error (_, reader) => reader.bytes = F
  | .ok f => (readToEnd f).2.decoder.input.base.inner.bytes = F

/-- An outcome whose reader goes through readers over `F` only. -/
def Opened.Through (F : Bytes) : Opened k → Prop
  | .error (_, reader) => reader.bytes = F
  | .ok f => ∃ g : ZipFile k (Take (FileReader F)), f = g.map (Take.map FileReader.source)

theorem ZipFile.base_map {τ τ' : Type} (g : τ → τ') (f : ZipFile k τ) :
    (f.map g).decoder.input.base = g f.decoder.input.base := by
  obtain ⟨entry, dataStart, decoder, hasher, bytesOut, verified, verifyCrc⟩ := f
  cases decoder with
  | stored input => exact EntryReader.base_map g input
  | deflate dec => exact EntryReader.base_map g dec.inner
  | deflate64 dec => exact EntryReader.base_map g dec.inner
  | buffered decoded input => exact EntryReader.base_map g input

section Through

variable {F : Bytes} {f : ZipFile k (Take Source)}

theorem readHom_throughSource :
    ReadHom (ZipFile.map (k := k) (Take.map (FileReader.source (F := F)))) :=
  ZipFile.readHom_map (Take.readHom_map FileReader.readHom_source)

/-- After any calls the reader below is one over `F`. -/
theorem bytes_reads_of_through (h : Opened.Through F (.ok f)) (ns : List Nat) :
    (reads ns f).2.decoder.input.base.inner.bytes = F := by
  obtain ⟨g, rfl⟩ := h
  rw [reads_map readHom_throughSource, ZipFile.base_map]
  exact (reads ns g).2.decoder.input.base.inner.bytes_eq

theorem bytes_readToEnd_of_through (h : Opened.Through F (.ok f)) :
    (readToEnd f).2.decoder.input.base.inner.bytes = F := by
  obtain ⟨g, rfl⟩ := h
  rw [readToEnd_map readHom_throughSource, ZipFile.base_map]
  exact (readToEnd g).2.decoder.input.base.inner.bytes_eq

theorem Opened.Through.over {o : Opened k} (h : o.Through F) : o.Over F := by
  rcases o with ⟨e, reader⟩ | f
  · exact h
  · exact bytes_readToEnd_of_through h

/-- An entry set up over a window of a reader over `F` goes through such readers. -/
theorem through_of_mapBuilt
    (built : Except (ZipCoreError × Take (FileReader F)) (ZipFile k (Take (FileReader F)))) :
    Opened.Through F (match ReadM.mapBuilt (Take.map FileReader.source)
        (ZipFile.map (Take.map FileReader.source)) built with
      | .ok f => .ok f
      | .error (e, window) => .error (.error e, window.inner)) := by
  rcases built with ⟨e, w⟩ | g
  · exact w.inner.bytes_eq
  · exact ⟨g, rfl⟩

end Through

section Through

variable (a : ZipArchive) (m : CentralEntry)

/-- What is common to all ways to open an entry. -/
theorem openAt_through
    {setup : Nat → Take Source → Except (ZipCoreError × Take Source) (ZipFile k (Take Source))}
    {setup' : Nat → Take (FileReader a.reader.bytes) → Except
      (ZipCoreError × Take (FileReader a.reader.bytes)) (ZipFile k (Take (FileReader a.reader.bytes)))}
    (hsetup : ∀ dataStart w, setup dataStart (Take.map FileReader.source w) =
      ReadM.mapBuilt (Take.map FileReader.source) (ZipFile.map (Take.map FileReader.source))
        (setup' dataStart w)) :
    Opened.Through a.reader.bytes (a.openAt m setup) := by
  obtain ⟨pos, hlfh⟩ := views_readLfhFields a.reader.bytes m.lfhOffset a.reader.pos
  unfold ZipArchive.openAt
  rw [hlfh]
  rcases lfhAt a.reader.bytes m.lfhOffset with e | ⟨fields, dataStart⟩
  · rfl
  · have hset := hsetup dataStart ⟨⟨⟨a.reader.bytes, dataStart⟩, rfl⟩, m.compressedSize⟩
    have hthrough := through_of_mapBuilt
      (setup' dataStart ⟨⟨⟨a.reader.bytes, dataStart⟩, rfl⟩, m.compressedSize⟩)
    rw [← hset] at hthrough
    exact hthrough

theorem open_through : Opened.Through a.reader.bytes (a.open m : Opened k) := by
  unfold ZipArchive.open
  rcases checkLocalDisk m a.summary.diskNumber a.summary.cdStartDisk with e | ⟨⟩
  · rfl
  · dsimp only
    split_ifs
    · rfl
    · exact openAt_through a m fun dataStart w =>
        ZipFile.openPlain_map (Take.readHom_map FileReader.readHom_source) m dataStart w

theorem byIndex_through (i : Nat) : Opened.Through a.reader.bytes (a.byIndex i : Opened k) := by
  unfold ZipArchive.byIndex
  cases a.entries[i]? with
  | none => rfl
  | some m => exact open_through a m

theorem byIndex_over (i : Nat) : Opened.Over a.reader.bytes (a.byIndex i : Opened k) :=
  (byIndex_through a i).over

end Through

end ZipForensic
