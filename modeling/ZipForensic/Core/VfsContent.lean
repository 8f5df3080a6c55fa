import ZipForensic.Core.ContainerView
import ZipForensic.Core.LayoutView
import ZipForensic.Core.StoredMembers
import ZipForensic.Core.Vfs
import ZipForensic.Machine.Memoryless

/-!
# What a mounted archive answers (vfs.rs, archive.rs)

Opening an entry is a function of the archive's bytes and directory
(`view_byIndex`), and whatever is then read leaves a reader over the same bytes.
So the two pieces of state that a `ZipVfs` shares between its callers — where the
reader stands, and which contents are cached — do not show: the mounted archive
and the archive below it are `Memoryless` machines (`memoryless_vfs`,
`memoryless_archive`), with the invariant that the cache maps a node to the whole
decoded content of its backing entry (`Mounted`).
-/

namespace ZipForensic

variable {k : Crates}

/-! ## The archive below -/

/-- The same archive up to the position of its reader. -/
structure SameArchive (a b : ZipArchive) : Prop where
  bytes_eq : a.reader.bytes = b.reader.bytes
  entries_eq : a.entries = b.entries
  summary_eq : a.summary = b.summary

namespace SameArchive

theorem refl (a : ZipArchive) : SameArchive a a := ⟨rfl, rfl, rfl⟩

theorem setReader {a b : ZipArchive} (h : SameArchive a b) {reader : Source}
    (hreader : reader.bytes = a.reader.bytes) : SameArchive { a with reader } b :=
  ⟨hreader.trans h.bytes_eq, h.entries_eq, h.summary_eq⟩

/-- Opening an entry does not depend on where the reader stands. -/
theorem view_byIndex {a b : ZipArchive} (h : SameArchive a b) (i : Nat) :
    (a.byIndex i : Opened k).view = (b.byIndex i : Opened k).view := by
  unfold ZipArchive.byIndex
  rw [h.entries_eq]
  cases b.entries[i]? with
  | none => rfl
  | some m =>
    show (a.open m).view = (b.open m).view
    rw [view_open, view_open, h.bytes_eq, h.summary_eq]

end SameArchive

/-- `by_index(i)` and then reads with the given buffer sizes: the answers. -/
def Opened.readings (o : Opened k) (ns : List Nat) : Res ZipCoreError (List (Except IoError Bytes)) :=
  match o with
  | .error (e, _) => .error e
  | .ok f => .ok (reads ns f).1

/-- The reader an entry hands back after these reads. -/
def Opened.handBack (o : Opened k) (ns : List Nat) : Source :=
  match o with
  | .error (_, reader) => reader
  | .ok f => (reads ns f).2.decoder.input.base.inner

theorem Opened.readings_eq {o p : Opened k} (h : o.view = p.view) (ns : List Nat) :
    o.readings ns = p.readings ns := by
  rcases o with ⟨e, r⟩ | f
  · rcases p with ⟨e', r'⟩ | g
    · obtain rfl : e = e' := Except.error.inj h
      rfl
    · cases h
  · rcases p with ⟨e', r'⟩ | g
    · cases h
    · have hview : f.map Take.window = g.map Take.window := Except.ok.inj h
      show Except.ok (reads ns f).1 = Except.ok (reads ns g).1
      rw [reads_view, hview, ← reads_view]

theorem Opened.Through.handBack {F : Bytes} {o : Opened k} (h : o.Through F) (ns : List Nat) :
    (o.handBack ns).bytes = F := by
  rcases o with ⟨e, r⟩ | f
  · exact h
  · exact bytes_reads_of_through h ns

/-- An entry opened by its index and read with some buffers, to its end or not, and
dropped. -/
structure PartialRead where
  index : Nat
  buffers : List Nat

namespace PartialRead

/-- The answers, and the archive with its reader handed back. -/
def run (k : Crates) (c : PartialRead) (a : ZipArchive) :
    Res ZipCoreError (List (Except IoError Bytes)) × ZipArchive :=
  ((a.byIndex c.index : Opened k).readings c.buffers,
    { a with reader := (a.byIndex c.index : Opened k).handBack c.buffers })

end PartialRead

/-- No read of an entry shows in a later one. -/
theorem memoryless_archive (k : Crates) (a : ZipArchive) :
    Memoryless (PartialRead.run k) (SameArchive · a) fun c => (c.run k a).1 where
  answer c _ h := Opened.readings_eq (h.view_byIndex c.index) c.buffers
  keeps c b h := h.setReader ((byIndex_through b c.index).handBack c.buffers)

/-! ## Contents -/

/-- The whole decoded content of an opened entry. -/
def Opened.decoded (o : Opened k) : Res VfsError Bytes :=
  match o with
  | .error (e, _) => .error (mapFault e)
  | .ok f =>
    match (readToEnd f).1 with
    | .error e => Res.err (.io "zip read" e)
    | .ok bytes => .ok bytes

theorem Opened.decoded_of_ok {f f' : ZipFile k (Take Source)} {bytes : Bytes}
    (h : readToEnd f = (.ok bytes, f')) : Opened.decoded (.ok f) = .ok bytes := by
  simp only [Opened.decoded, h]

theorem Opened.decoded_of_error {f f' : ZipFile k (Take Source)} {e : IoError}
    (h : readToEnd f = (.error e, f')) :
    Opened.decoded (.ok f) = Res.err (.io "zip read" e) := by
  simp only [Opened.decoded, h]

/-- The content of entry `i`. -/
def decodedEntry (k : Crates) (a : ZipArchive) (i : Nat) : Res VfsError Bytes :=
  (a.byIndex i : Opened k).decoded

theorem Opened.decoded_eq {o p : Opened k} (h : o.view = p.view) : o.decoded = p.decoded := by
  rcases o with ⟨e, r⟩ | f
  · rcases p with ⟨e', r'⟩ | g
    · obtain rfl : e = e' := Except.error.inj h
      rfl
    · cases h
  · rcases p with ⟨e', r'⟩ | g
    · cases h
    · have hview : f.map Take.window = g.map Take.window := Except.ok.inj h
      simp only [Opened.decoded]
      rw [readToEnd_view, hview, ← readToEnd_view]

theorem SameArchive.decodedEntry {a b : ZipArchive} (h : SameArchive a b) (i : Nat) :
    decodedEntry k a i = ZipForensic.decodedEntry k b i :=
  Opened.decoded_eq (h.view_byIndex i)

/-- What a content has at `off`, in a buffer of `len` bytes. -/
def contentAt (data : Bytes) (off len : Nat) : Bytes := (data.drop off).take len

theorem contentAt_eq (data : Bytes) (off len : Nat) :
    (if data.length ≤ off then [] else slice data off (min (data.length - off) len)) =
      contentAt data off len := by
  unfold contentAt slice
  by_cases h : data.length ≤ off
  · rw [if_pos h, List.drop_eq_nil_of_le h, List.take_nil]
  · rw [if_neg h, ← List.length_drop, ← List.take_take, List.take_of_length_le]
    exact List.length_take_le' ..

/-! ## The mounted archive -/

/-- The bytes that `read_at` serves from a node. -/
def servedFrom (k : Crates) (a : ZipArchive) (node : Node) (off len : Nat) : Res VfsError Bytes :=
  if node.kind ≠ .file then .ok []
  else
    match node.entryIdx with
    | none => .ok []
    | some e => (decodedEntry k a e).map fun data => contentAt data off len

/-- What a `read_at` call answers when `a` is mounted. -/
def servedAt (k : Crates) (a : ZipArchive) (v : ZipVfs) (ino : FileId) (stream : StreamId)
    (off len : Nat) : Res VfsError Bytes := do
  let _ ← Res.lift (indexOf ino)
  Res.lift (requireDefaultStream stream)
  let node ← Res.lift (v.nodeOf ino)
  servedFrom k a node off len

theorem ZipVfs.getElem?_of_nodeOf {v : ZipVfs} {ino : FileId} {idx : Nat} {node : Node}
    (hidx : indexOf ino = .ok idx) (h : v.nodeOf ino = .ok node) : v.nodes[idx]? = some node := by
  unfold ZipVfs.nodeOf at h
  rw [hidx, Res.bind_ok] at h
  cases hget : v.nodes[idx]? with
  | none => rw [hget] at h; cases h
  | some n => rw [hget] at h; exact congrArg some (Except.ok.inj h)

/-- A mount of `a` with the given nodes, whatever was read from it. -/
structure Mounted (k : Crates) (a : ZipArchive) (nodes : List Node) (v : ZipVfs) : Prop where
  nodes_eq : v.nodes = nodes
  archive : SameArchive v.inner.archive a
  /-- The cache maps a node to the whole content of its backing entry. -/
  cache : ∀ id data, (id, data) ∈ v.inner.cache → ∃ node e, nodes[id]? = some node ∧
    node.entryIdx = some e ∧ decodedEntry k a e = .ok data

namespace Mounted

variable {a : ZipArchive} {nodes : List Node} {v : ZipVfs}

theorem setReader (h : Mounted k a nodes v) {reader : Source}
    (hreader : reader.bytes = v.inner.archive.reader.bytes) : Mounted k a nodes (v.setReader reader) where
  nodes_eq := h.nodes_eq
  archive := h.archive.setReader hreader
  cache := h.cache

theorem remember (h : Mounted k a nodes v) {id e : Nat} {node : Node} {bytes : Bytes}
    (hnode : nodes[id]? = some node) (hentry : node.entryIdx = some e)
    (hbytes : decodedEntry k a e = .ok bytes) : Mounted k a nodes (v.remember id bytes) where
  nodes_eq := h.nodes_eq
  archive := h.archive
  cache id' data hmem := by
    rcases List.mem_cons.1 hmem with heq | hmem
    · obtain ⟨rfl, rfl⟩ := Prod.mk.inj heq
      exact ⟨node, e, hnode, hentry, hbytes⟩
    · exact h.cache id' data hmem

/-- The content of a node is that of its backing entry, and the mount stays sound. -/
theorem content (h : Mounted k a nodes v) {id e : Nat} {node : Node}
    (hnode : nodes[id]? = some node) (hentry : node.entryIdx = some e) :
    (v.content k id e).1 = decodedEntry k a e ∧ Mounted k a nodes (v.content k id e).2 := by
  unfold ZipVfs.content
  cases hcache : v.inner.cache.lookup id with
  | some data =>
    obtain ⟨l, r, hl, -⟩ := List.lookup_eq_some_iff.1 hcache
    obtain ⟨node', e', hnode', hentry', hdata⟩ := h.cache id data (by rw [hl]; simp)
    obtain rfl := Option.some.inj (hnode.symm.trans hnode')
    obtain rfl := Option.some.inj (hentry.symm.trans hentry')
    exact ⟨hdata.symm, h⟩
  | none =>
    have hdecoded : (v.inner.archive.byIndex e : Opened k).decoded = decodedEntry k a e :=
      h.archive.decodedEntry e
    have hthrough := byIndex_through (k := k) v.inner.archive e
    cases hopen : (v.inner.archive.byIndex e : Opened k) with
    | error x =>
      obtain ⟨x, reader⟩ := x
      rw [hopen] at hdecoded hthrough
      exact ⟨hdecoded, h.setReader hthrough⟩
    | ok f =>
      rw [hopen] at hdecoded hthrough
      have hreader := bytes_readToEnd_of_through hthrough
      dsimp only
      cases hread : readToEnd f with
      | mk r f' =>
        rw [hread] at hreader
        cases r with
        | error x =>
          rw [Opened.decoded_of_error hread] at hdecoded
          exact ⟨hdecoded, h.setReader hreader⟩
        | ok bytes =>
          rw [Opened.decoded_of_ok hread] at hdecoded
          exact ⟨hdecoded, (h.setReader hreader).remember hnode hentry hdecoded.symm⟩

/-- A read of a node is served from the content of its backing entry. -/
theorem readNode (h : Mounted k a nodes v) {id : Nat} {node : Node}
    (hnode : nodes[id]? = some node) (off len : Nat) :
    (v.readNode k id node off len).1 = servedFrom k a node off len ∧
      Mounted k a nodes (v.readNode k id node off len).2 := by
  unfold ZipVfs.readNode servedFrom
  by_cases hkind : node.kind ≠ .file
  · rw [if_pos hkind, if_pos hkind]
    exact ⟨rfl, h⟩
  · rw [if_neg hkind, if_neg hkind]
    cases hentry : node.entryIdx with
    | none => exact ⟨rfl, h⟩
    | some e =>
      obtain ⟨hcontent, hmounted⟩ := h.content hnode hentry
      dsimp only
      rw [← hcontent]
      cases hc : v.content k id e with
      | mk r v' =>
        rw [hc] at hmounted
        cases r with
        | error x => exact ⟨rfl, hmounted⟩
        | ok data =>
          dsimp only [Except.map]
          rw [← contentAt_eq]
          split_ifs
          · exact ⟨rfl, hmounted⟩
          · exact ⟨rfl, hmounted⟩

theorem readAt (h : Mounted k a nodes v) (ino : FileId) (stream : StreamId) (off len : Nat) :
    (v.readAt k ino stream off len).1 = servedAt k a v ino stream off len ∧
      Mounted k a nodes (v.readAt k ino stream off len).2 := by
  unfold ZipVfs.readAt servedAt
  cases hidx : indexOf ino with
  | error e => exact ⟨rfl, h⟩
  | ok idx =>
    cases requireDefaultStream stream with
    | error e => exact ⟨rfl, h⟩
    | ok _ =>
      cases hof : v.nodeOf ino with
      | error e => exact ⟨rfl, h⟩
      | ok node => exact h.readNode (h.nodes_eq ▸ ZipVfs.getElem?_of_nodeOf hidx hof) off len

end Mounted

/-! ## Runs of calls -/

/-- A call on the mounted archive. -/
inductive VfsCall
  | readAt (ino : FileId) (stream : StreamId) (off len : Nat)
  | readDir (ino : FileId)
  | lookup (parent : FileId) (name : Bytes)
  | info (ino : FileId)
  | extents (ino : FileId) (stream : StreamId)

inductive VfsAnswer
  | bytes (r : Res VfsError Bytes)
  | entries (r : Except VfsError (List DirEntry))
  | child (r : Except VfsError (Option FileId))
  | info (r : Except VfsError FsMeta)
  | runs (r : Except VfsError (List ByteRun))
deriving DecidableEq

namespace VfsCall

def run (k : Crates) : VfsCall → ZipVfs → VfsAnswer × ZipVfs
  | readAt ino stream off len, v =>
    (.bytes (v.readAt k ino stream off len).1, (v.readAt k ino stream off len).2)
  | readDir ino, v => (.entries (v.readDir ino), v)
  | lookup parent name, v => (.child (v.lookup parent name), v)
  | info ino, v => (.info (v.meta ino), v)
  | extents ino stream, v => (.runs (v.extents ino stream), v)

end VfsCall

section SameNodes

variable {v w : ZipVfs} (h : v.nodes = w.nodes)
include h

theorem ZipVfs.nodeOf_congr (ino : FileId) : v.nodeOf ino = w.nodeOf ino := by
  unfold ZipVfs.nodeOf
  rw [h]

theorem servedAt_congr (a : ZipArchive) (ino : FileId) (stream : StreamId) (off len : Nat) :
    servedAt k a v ino stream off len = servedAt k a w ino stream off len := by
  unfold servedAt
  rw [ZipVfs.nodeOf_congr h]

theorem ZipVfs.readDir_congr (ino : FileId) : v.readDir ino = w.readDir ino := by
  unfold ZipVfs.readDir
  rw [ZipVfs.nodeOf_congr h, h]

theorem ZipVfs.lookup_congr (parent : FileId) (name : Bytes) :
    v.lookup parent name = w.lookup parent name := by
  unfold ZipVfs.lookup
  rw [ZipVfs.nodeOf_congr h, h]

theorem ZipVfs.meta_congr (ino : FileId) : v.meta ino = w.meta ino := by
  unfold ZipVfs.meta
  rw [ZipVfs.nodeOf_congr h]

theorem ZipVfs.extents_congr (ino : FileId) (stream : StreamId) :
    v.extents ino stream = w.extents ino stream := by
  unfold ZipVfs.extents
  rw [ZipVfs.nodeOf_congr h]

end SameNodes

/-- Calls on a mount are answered as on any other mount of the same archive. -/
theorem memoryless_vfs {a : ZipArchive} {nodes : List Node} {w : ZipVfs}
    (hw : Mounted k a nodes w) :
    Memoryless (VfsCall.run k) (Mounted k a nodes) fun c => (c.run k w).1 where
  answer c v hv := by
    have hnodes : v.nodes = w.nodes := hv.nodes_eq.trans hw.nodes_eq.symm
    cases c with
    | readAt ino stream off len =>
      have hanswer : (v.readAt k ino stream off len).1 = (w.readAt k ino stream off len).1 := by
        rw [(hv.readAt ino stream off len).1, (hw.readAt ino stream off len).1,
          servedAt_congr hnodes]
      exact congrArg VfsAnswer.bytes hanswer
    | readDir ino => exact congrArg VfsAnswer.entries (ZipVfs.readDir_congr hnodes ino)
    | lookup parent name => exact congrArg VfsAnswer.child (ZipVfs.lookup_congr hnodes parent name)
    | info ino => exact congrArg VfsAnswer.info (ZipVfs.meta_congr hnodes ino)
    | extents ino stream => exact congrArg VfsAnswer.runs (ZipVfs.extents_congr hnodes ino stream)
  keeps c v hv := by
    cases c with
    | readAt ino stream off len => exact (hv.readAt ino stream off len).2
    | readDir ino => exact hv
    | lookup parent name => exact hv
    | info ino => exact hv
    | extents ino stream => exact hv

/-- What mounting a file gives. -/
theorem ZipVfs.of_open {F : Bytes} {pos : Nat} {v : ZipVfs}
    (h : ZipVfs.open ⟨F, pos⟩ = .ok v) :
    v.inner.archive.reader.bytes = F ∧
      directoryOf F = .ok (v.inner.archive.entries, v.inner.archive.summary) ∧
      (∃ layouts, layoutsAt F 0 v.inner.archive.entries = .ok layouts ∧
        v.nodes = buildTree layouts) ∧ v.inner.cache = [] := by
  unfold ZipVfs.open at h
  cases hnew : ZipArchive.new ⟨F, pos⟩ with
  | error e => rw [hnew] at h; cases h
  | ok a =>
    obtain ⟨hbytes, hdir⟩ := reader_of_new hnew
    obtain ⟨pos', hview⟩ := structuralView_eq a
    rw [hnew] at h
    dsimp only at h
    rw [hview] at h
    cases hlayouts : layoutsAt a.reader.bytes 0 a.entries with
    | error e => rw [hlayouts] at h; cases h
    | ok layouts =>
      rw [hlayouts] at h
      obtain rfl := Except.ok.inj h
      exact ⟨hbytes, hdir, ⟨layouts, hbytes ▸ hlayouts, rfl⟩, rfl⟩

/-- A mount of a file holds the archive that is opened from it. -/
theorem sameArchive_of_mount {F : Bytes} {pos pos' : Nat} {a : ZipArchive} {v : ZipVfs}
    (hnew : ZipArchive.new ⟨F, pos⟩ = .ok a) (hmount : ZipVfs.open ⟨F, pos'⟩ = .ok v) :
    SameArchive v.inner.archive a := by
  obtain ⟨hbytes, hdir⟩ := reader_of_new hnew
  obtain ⟨hbytes', hdir', -, -⟩ := ZipVfs.of_open hmount
  obtain ⟨hentries, hsummary⟩ := Prod.mk.inj (Except.ok.inj (hdir'.symm.trans hdir))
  exact ⟨hbytes'.trans hbytes.symm, hentries, hsummary⟩

/-- A fresh mount is a mount of its own archive. -/
theorem mounted_of_open {F : Bytes} {pos pos' : Nat} {v w : ZipVfs}
    (hv : ZipVfs.open ⟨F, pos⟩ = .ok v) (hw : ZipVfs.open ⟨F, pos'⟩ = .ok w) :
    Mounted k w.inner.archive w.nodes v := by
  obtain ⟨hbytes, hdir, ⟨layouts, hlayouts, hnodes⟩, hcache⟩ := ZipVfs.of_open hv
  obtain ⟨hbytes', hdir', ⟨layouts', hlayouts', hnodes'⟩, -⟩ := ZipVfs.of_open hw
  have hdirs := Prod.mk.inj (Except.ok.inj (hdir.symm.trans hdir'))
  rw [hdirs.1] at hlayouts
  obtain rfl := Except.ok.inj (hlayouts.symm.trans hlayouts')
  refine ⟨hnodes.trans hnodes'.symm, ⟨hbytes.trans hbytes'.symm, hdirs.1, hdirs.2⟩, ?_⟩
  intro id data hmem
  rw [hcache] at hmem
  exact absurd hmem List.not_mem_nil

/-- **History independence**: on a mounted archive every call of every run is answered
as the first call on a fresh mount, cached contents are whole contents, and no read of
an entry of the archive below shows in a later one. -/
theorem zipVfs_history_independent (k : Crates) {F : Bytes} {pos pos' : Nat} {v w : ZipVfs}
    (hv : ZipVfs.open ⟨F, pos⟩ = .ok v) (hw : ZipVfs.open ⟨F, pos'⟩ = .ok w)
    (calls : List VfsCall) :
    (runCalls (VfsCall.run k) calls v).1 = calls.map (fun c => (c.run k w).1) ∧
      (∀ id data, (id, data) ∈ (runCalls (VfsCall.run k) calls v).2.inner.cache →
        ∃ node e, v.nodes[id]? = some node ∧ node.entryIdx = some e ∧
          decodedEntry k w.inner.archive e = .ok data) ∧
      ∀ partials : List PartialRead,
        (runCalls (PartialRead.run k) partials
            (runCalls (VfsCall.run k) calls v).2.inner.archive).1 =
          partials.map fun c => (c.run k w.inner.archive).1 := by
  have hmounted : Mounted k w.inner.archive w.nodes v := mounted_of_open hv hw
  have hfresh : Mounted k w.inner.archive w.nodes w := mounted_of_open hw hw
  have hafter := (memoryless_vfs hfresh).runCalls_keeps calls hmounted
  refine ⟨(memoryless_vfs hfresh).runCalls_eq calls hmounted, ?_, ?_⟩
  · rw [hmounted.nodes_eq]
    exact hafter.cache
  · intro partials
    exact (memoryless_archive k w.inner.archive).runCalls_eq partials hafter.archive

/-- The archive of one stored member, mounted. -/
def storedVfs : ZipVfs where
  inner :=
    { archive := ⟨⟨storedArchive 3, 31⟩, [storedMember 3], (storedDirectory 3).2⟩, cache := [] }
  nodes := [{ rootNode with children := [1] },
    { entryIdx := some 0, name := [0x6D], kind := .file, size := 3
      modified := none, accessed := none, born := none, children := [] }]

/-- Two reads of the member, at different offsets, and one of no node. -/
theorem storedVfs_history_independent :
    (runCalls (VfsCall.run .plain) [.readAt (.opaqueId 1) .default 1 8,
        .readAt (.opaqueId 7) .default 0 1, .readAt (.opaqueId 1) .default 0 2] storedVfs).1 =
      [.bytes (.ok [0x62, 0x63]),
        .bytes (Res.err (.unsupported "zip file-id" "Opaque(7) out of range")),
        .bytes (.ok [0x61, 0x62])] := by
  have hopen : ZipVfs.open ⟨storedArchive 3, 0⟩ = .ok storedVfs := by decide +kernel
  refine (zipVfs_history_independent .plain hopen hopen _).1.trans ?_
  decide +kernel

end ZipForensic
