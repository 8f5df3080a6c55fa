import ZipForensic.Core.VfsContent
import ZipForensic.Core.VfsTree

/-!
# Walking the directory tree (vfs.rs `read_dir`, `lookup`)

The node table of `build_tree`, seen from outside:

- `buildTree_derived`: it is a tree whose paths are the prefixes of the entries'
  names, and `lookup` and `read_dir` agree on it;
- `recovered_iff_path_is_new`: which entries a file node gives access to;
- `kindCoherent_iff_filesAreLeaves`: when kinds are coherent and every node can be
  reached.
-/

namespace ZipForensic

variable {k : Crates}

/-! ## Children by name -/

/-- Whether node `c` has the given name. -/
def isNamed (nodes : List Node) (name : Bytes) (c : Nat) : Bool :=
  nodes[c]?.any fun n => decide (n.name = name)

/-- The child of node `i` with the given name. -/
def childNamed (nodes : List Node) (i : Nat) (name : Bytes) : Option Nat :=
  nodes[i]?.bind fun n => n.children.find? (isNamed nodes name)

/-- Follow children lists from node `i` along names. -/
def walk (nodes : List Node) : Nat → List Bytes → Option Nat
  | i, [] => some i
  | i, name :: rest => (childNamed nodes i name).bind fun c => walk nodes c rest

namespace Represents

variable {t : TreeBuild} {T : PathTable String} {E : List Mention}

theorem getElem? (h : Represents t T E) {i : Nat} {p : List String} (hi : T.paths[i]? = some p) :
    t.nodes[i]? = some (nodeAt E T p) := by
  rw [h.nodes i, hi, Option.map_some]

theorem exists_path (h : Represents t T E) {i : Nat} {n : Node} (hi : t.nodes[i]? = some n) :
    ∃ p, T.paths[i]? = some p ∧ n = nodeAt E T p := by
  rw [h.nodes i] at hi
  obtain ⟨p, hp, rfl⟩ := Option.map_eq_some_iff.1 hi
  exact ⟨p, hp, rfl⟩

theorem name_nodeAt (p : List String) (c : String) : (nodeAt E T (p ++ [c])).name = nameBytes c := by
  simp [nodeAt]

/-- The children of the node at `p` are told apart by their names. -/
theorem childNamed_eq_some_iff (h : Represents t T E) {i j : Nat} {p : List String} {name : Bytes}
    (hi : T.paths[i]? = some p) :
    childNamed t.nodes i name = some j ↔
      ∃ c, nameBytes c = name ∧ T.paths[j]? = some (p ++ [c]) := by
  have hchild : ∀ {j}, j ∈ T.childIds p → isNamed t.nodes name j = true →
      ∃ c, nameBytes c = name ∧ T.paths[j]? = some (p ++ [c]) := by
    intro j hj hname
    obtain ⟨c, hc⟩ := PathTable.mem_childIds.1 hj
    rw [isNamed, h.getElem? hc, Option.any_some, name_nodeAt] at hname
    exact ⟨c, of_decide_eq_true hname, hc⟩
  rw [childNamed, h.getElem? hi, Option.bind_some]
  show (T.childIds p).find? _ = some j ↔ _
  constructor
  · intro hfind
    exact hchild (List.mem_of_find?_eq_some hfind) (List.find?_some hfind)
  · rintro ⟨c, rfl, hc⟩
    have hmem := PathTable.mem_childIds.2 ⟨c, hc⟩
    have hname : isNamed t.nodes (nameBytes c) j = true := by
      rw [isNamed, h.getElem? hc, Option.any_some, name_nodeAt]
      exact decide_eq_true rfl
    obtain ⟨j', hj'⟩ := Option.isSome_iff_exists.1
      (List.find?_isSome.2 ⟨j, hmem, hname⟩)
    obtain ⟨d, hd, hjd⟩ := hchild (List.mem_of_find?_eq_some hj') (List.find?_some hj')
    obtain rfl := nameBytes_injective hd
    rw [hj', PathTable.getElem?_inj hjd hc]

/-- Walking along components ends at the node of the longer path. -/
theorem walk_eq_some_iff (h : Represents t T E) {i j : Nat} {p : List String}
    (hi : T.paths[i]? = some p) (r : List String) :
    walk t.nodes i (r.map nameBytes) = some j ↔ T.paths[j]? = some (p ++ r) := by
  induction r generalizing i p with
  | nil =>
    rw [List.map_nil, List.append_nil, walk]
    constructor
    · exact fun hij => Option.some.inj hij ▸ hi
    · exact fun hj => congrArg some (PathTable.getElem?_inj hi hj)
  | cons c r ih =>
    rw [List.map_cons, walk, Option.bind_eq_some_iff, List.append_cons]
    constructor
    · rintro ⟨i', hi', hwalk⟩
      obtain ⟨d, hd, hd'⟩ := (h.childNamed_eq_some_iff hi).1 hi'
      obtain rfl := nameBytes_injective hd
      exact (ih hd').1 hwalk
    · intro hj
      obtain ⟨i', hi'⟩ := List.getElem?_of_mem
        (PathTable.mem_of_append r (PathTable.mem_of_getElem? hj))
      exact ⟨i', (h.childNamed_eq_some_iff hi).2 ⟨c, rfl, hi'⟩, (ih hi').2 hj⟩

theorem names_nodup (h : Represents t T E) (p : List String) :
    ((T.childIds p).map fun c => t.nodes[c]?.map Node.name).Nodup := by
  refine (T.nodup_childIds p).map_on fun i hi j hj hij => ?_
  obtain ⟨c, hc⟩ := PathTable.mem_childIds.1 hi
  obtain ⟨d, hd⟩ := PathTable.mem_childIds.1 hj
  rw [h.getElem? hc, h.getElem? hd, Option.map_some, Option.map_some, name_nodeAt,
    name_nodeAt] at hij
  obtain rfl := nameBytes_injective (Option.some.inj hij)
  exact PathTable.getElem?_inj hc hd

end Represents

/-! ## Calls on a directory -/

namespace ZipVfs

variable {v : ZipVfs} {i : Nat} {n : Node}

theorem nodeOf_eq (h : v.nodes[i]? = some n) : v.nodeOf (.opaqueId i) = .ok n := by
  unfold nodeOf
  rw [indexOf, Res.bind_ok, h]
  rfl

theorem lookup_eq (h : v.nodes[i]? = some n) (hdir : n.kind = .dir) (name : Bytes) :
    v.lookup (.opaqueId i) name = .ok ((childNamed v.nodes i name).map FileId.opaqueId) := by
  unfold lookup childNamed
  rw [nodeOf_eq h, Res.bind_ok, h, if_neg (not_not_intro hdir)]
  rfl

theorem readDir_eq (h : v.nodes[i]? = some n) (hdir : n.kind = .dir) :
    v.readDir (.opaqueId i) = .ok (n.children.filterMap fun child =>
      v.nodes[child]?.map fun c => { name := c.name, id := .opaqueId child, kind := c.kind }) := by
  unfold readDir
  rw [nodeOf_eq h, Res.bind_ok, if_neg (not_not_intro hdir)]
  rfl

end ZipVfs

/-- What `read_dir` lists on a directory is what `lookup` finds there. -/
theorem Represents.lookup_iff {t : TreeBuild} {T : PathTable String} {E : List Mention}
    (h : Represents t T E) (inner : Inner) {i : Nat} {n : Node} (hi : t.nodes[i]? = some n)
    (hdir : n.kind = .dir) (name : Bytes) (id : FileId) :
    (ZipVfs.mk inner t.nodes).lookup (.opaqueId i) name = .ok (some id) ↔
      ∃ ds, (ZipVfs.mk inner t.nodes).readDir (.opaqueId i) = .ok ds ∧
        ∃ d ∈ ds, d.name = name ∧ d.id = id := by
  obtain ⟨p, hp, rfl⟩ := h.exists_path hi
  rw [ZipVfs.lookup_eq hi hdir, ZipVfs.readDir_eq hi hdir]
  constructor
  · intro hlookup
    obtain ⟨j, hj, rfl⟩ := Option.map_eq_some_iff.1 (Except.ok.inj hlookup)
    obtain ⟨c, rfl, hc⟩ := (h.childNamed_eq_some_iff hp).1 hj
    refine ⟨_, rfl, ⟨nameBytes c, .opaqueId j, (nodeAt E T (p ++ [c])).kind⟩, ?_, rfl, rfl⟩
    refine List.mem_filterMap.2 ⟨j, PathTable.mem_childIds.2 ⟨c, hc⟩, ?_⟩
    rw [h.getElem? hc, Option.map_some, name_nodeAt]
  · rintro ⟨ds, hds, d, hd, rfl, rfl⟩
    rw [← Except.ok.inj hds] at hd
    obtain ⟨j, hj, hd⟩ := List.mem_filterMap.1 hd
    obtain ⟨c, hc⟩ := PathTable.mem_childIds.1 hj
    rw [h.getElem? hc, Option.map_some] at hd
    obtain rfl := Option.some.inj hd
    dsimp only
    rw [name_nodeAt, (h.childNamed_eq_some_iff hp).2 ⟨c, rfl, hc⟩]
    rfl

/-! ## The table is a tree -/

/-- The node table of a list of entries is a tree of their names. -/
structure DerivedTree (layouts : List EntryLayout) (nodes : List Node) : Prop where
  root : ∃ n, nodes[0]? = some n ∧ n.entryIdx = none ∧ n.kind = .dir ∧ n.name = []
  /-- Every node but the root is in one children list, once. -/
  once : (nodes.flatMap Node.children).Perm (List.range' 1 (nodes.length - 1))
  parent_lt : ∀ (i : Nat) (n : Node), nodes[i]? = some n → ∀ c ∈ n.children, i < c
  names_nodup : ∀ (i : Nat) (n : Node), nodes[i]? = some n →
    (n.children.map fun c => nodes[c]?.map Node.name).Nodup
  walk_entry : ∀ e ∈ layouts, ∃ i < nodes.length, walk nodes 0 (e.comps.map nameBytes) = some i
  walk_node : ∀ i < nodes.length, i ≠ 0 → ∃ e ∈ layouts, ∃ p, p ≠ [] ∧ p <+: e.comps ∧
    walk nodes 0 (p.map nameBytes) = some i
  lookup_iff_readDir : ∀ (inner : Inner) (i : Nat) (n : Node), nodes[i]? = some n → n.kind = .dir →
    ∀ (name : Bytes) (id : FileId),
      (ZipVfs.mk inner nodes).lookup (.opaqueId i) name = .ok (some id) ↔
        ∃ ds, (ZipVfs.mk inner nodes).readDir (.opaqueId i) = .ok ds ∧
          ∃ d ∈ ds, d.name = name ∧ d.id = id

/-- The paths of the table are the prefixes of the entries' paths. -/
theorem mem_paths_iff {layouts : List EntryLayout} {t : TreeBuild} {T : PathTable String}
    (h : Represents t T (mentions layouts)) {p : List String} (hne : p ≠ []) :
    p ∈ T.paths ↔ ∃ e ∈ layouts, p <+: e.comps := by
  rw [h.mem_paths, mentioned_mentions]
  constructor
  · exact fun hp => (hp.resolve_left hne).2
  · exact fun hp => .inr ⟨hne, hp⟩

theorem comps_mem_paths {layouts : List EntryLayout} {t : TreeBuild} {T : PathTable String}
    (h : Represents t T (mentions layouts)) {e : EntryLayout} (he : e ∈ layouts) :
    e.comps ∈ T.paths := by
  by_cases hne : e.comps = []
  · rw [hne]
    exact PathTable.mem_of_getElem? T.root
  · exact (mem_paths_iff h hne).2 ⟨e, he, List.prefix_refl _⟩

/-- The root has no backing entry and is a directory. -/
theorem nodeAt_root (layouts : List EntryLayout) (T : PathTable String) :
    (nodeAt (mentions layouts) T []).entryIdx = none ∧
      (nodeAt (mentions layouts) T []).kind = .dir := by
  have hnot : ¬ Mentioned (mentions layouts) [] := fun hm => (mentioned_mentions.1 hm).1 rfl
  have hmade : madeBy (mentions layouts) [] = none := by
    rw [madeBy, find?_of_not_mentioned hnot, Option.bind_none]
  simp [nodeAt, backing_of_not_mentioned hnot, hmade]

/-- **The directory tree is a tree**, for every list of entries. -/
theorem buildTree_derived (layouts : List EntryLayout) :
    DerivedTree layouts (buildTree layouts) := by
  obtain ⟨T, h⟩ := exists_represents layouts
  have hlength : (buildTree layouts).length = T.size := h.length_nodes
  constructor
  · obtain ⟨hentry, hkind⟩ := nodeAt_root layouts T
    exact ⟨_, h.getElem? T.root, hentry, hkind, rfl⟩
  · have hchildren : (buildTree layouts).flatMap Node.children = T.paths.flatMap T.childIds := by
      show (layouts.foldl TreeBuild.addEntry .start).nodes.flatMap _ = _
      rw [h.nodes_eq, List.flatMap_map]
      rfl
    rw [hchildren, hlength]
    exact T.perm_childIds
  · intro i n hi c hc
    obtain ⟨p, hp, rfl⟩ := h.exists_path hi
    exact PathTable.lt_of_mem_childIds hp hc
  · intro i n hi
    obtain ⟨p, hp, rfl⟩ := h.exists_path hi
    exact h.names_nodup p
  · intro e he
    obtain ⟨i, hi⟩ := List.getElem?_of_mem (comps_mem_paths h he)
    exact ⟨i, hlength ▸ PathTable.lt_size hi, (h.walk_eq_some_iff T.root e.comps).2 hi⟩
  · intro i hi hne
    rw [hlength] at hi
    have hpath : T.paths[i]? = some T.paths[i] := List.getElem?_eq_getElem hi
    have hnil : T.paths[i] ≠ [] := fun hnil => hne ((PathTable.eq_nil_iff hpath).1 hnil)
    obtain ⟨e, he, hpre⟩ := (mem_paths_iff h hnil).1 (PathTable.mem_of_getElem? hpath)
    exact ⟨e, he, _, hnil, hpre, (h.walk_eq_some_iff T.root _).2 hpath⟩
  · intro inner i n hi hdir name id
    exact h.lookup_iff inner hi hdir name id

/-! ## Files -/

/-- A list of layouts as `structural_view` returns it: each at its own index. -/
def Catalogue (layouts : List EntryLayout) : Prop :=
  layouts.map EntryLayout.index = List.range layouts.length

instance (layouts : List EntryLayout) : Decidable (Catalogue layouts) :=
  inferInstanceAs (Decidable (_ = _))

theorem Catalogue.index_eq {layouts : List EntryLayout} (h : Catalogue layouts) {i : Nat}
    {e : EntryLayout} (hi : layouts[i]? = some e) : e.index = i := by
  have hmap : (layouts.map EntryLayout.index)[i]? = some e.index := by
    rw [List.getElem?_map, hi, Option.map_some]
  have hlt := (List.getElem?_eq_some_iff.1 hi).1
  rw [h, List.getElem?_range hlt] at hmap
  exact (Option.some.inj hmap).symm

/-- In a catalogue the index tells the entry. -/
theorem Catalogue.eq_of_index_eq {layouts : List EntryLayout} (h : Catalogue layouts)
    {e f : EntryLayout} (he : e ∈ layouts) (hf : f ∈ layouts) (hindex : e.index = f.index) :
    e = f := by
  obtain ⟨i, hi⟩ := List.getElem?_of_mem he
  obtain ⟨j, hj⟩ := List.getElem?_of_mem hf
  rw [h.index_eq hi, h.index_eq hj] at hindex
  subst hindex
  exact Option.some.inj (hi.symm.trans hj)

section Kinds

variable {layouts : List EntryLayout} {T : PathTable String} {p : List String}

/-- A file node: the first entry through its path ends there, and is a file. -/
theorem kind_nodeAt_eq_file_iff (hne : p ≠ []) :
    (nodeAt (mentions layouts) T p).kind = .file ↔
      ∃ e, layouts.find? (fun e => decide (p <+: e.comps)) = some e ∧ e.comps = p ∧
        e.isDir = false := by
  simp only [nodeAt, madeBy_mentions layouts hne]
  cases hfind : layouts.find? fun e => decide (p <+: e.comps) with
  | none => simp
  | some e =>
    by_cases hp : p = e.comps
    · cases hdir : e.isDir <;> simp [hp, hdir]
    · simp [hp, Ne.symm hp]

theorem entryIdx_nodeAt (hne : p ≠ []) :
    (nodeAt (mentions layouts) T p).entryIdx =
      (layouts.find? fun e => decide (e.comps = p)).map EntryLayout.index := by
  simp only [nodeAt, backing_mentions layouts hne]

end Kinds

/-- The first entry of a list with some property, by its position. -/
theorem find?_eq_some_of_first {layouts : List EntryLayout} {P : EntryLayout → Prop}
    [DecidablePred P] {i : Nat} {e : EntryLayout} (hi : layouts[i]? = some e) (he : P e)
    (hfirst : ∀ j < i, ∀ f, layouts[j]? = some f → ¬ P f) :
    layouts.find? (fun e => decide (P e)) = some e := by
  obtain ⟨hlt, hget⟩ := List.getElem?_eq_some_iff.1 hi
  refine List.find?_eq_some_iff_getElem.2 ⟨decide_eq_true he, i, hlt, hget, fun j hj => ?_⟩
  have hnot := hfirst j hj _ (List.getElem?_eq_getElem (Nat.lt_trans hj hlt))
  simpa using hnot

theorem first_of_find?_eq_some {layouts : List EntryLayout} {P : EntryLayout → Prop}
    [DecidablePred P] {e : EntryLayout}
    (h : layouts.find? (fun e => decide (P e)) = some e) :
    ∃ i : Nat, layouts[i]? = some e ∧ P e ∧ ∀ j < i, ∀ f, layouts[j]? = some f → ¬ P f := by
  obtain ⟨he, i, hlt, hget, hfirst⟩ := List.find?_eq_some_iff_getElem.1 h
  refine ⟨i, List.getElem?_eq_some_iff.2 ⟨hlt, hget⟩, of_decide_eq_true he, fun j hj f hf => ?_⟩
  obtain ⟨hlt', rfl⟩ := List.getElem?_eq_some_iff.1 hf
  simpa using hfirst j hj

/-- Some file node serves the content of entry `i`. -/
def Recovered (k : Crates) (archive : ZipArchive) (nodes : List Node) (i : Nat) : Prop :=
  ∃ (id : Nat) (node : Node), nodes[id]? = some node ∧ node.kind = .file ∧
    node.entryIdx = some i ∧
    ∀ off len, ((ZipVfs.mk ⟨archive, []⟩ nodes).readAt k (.opaqueId id) .default off len).1 =
      (decodedEntry k archive i).map fun data => contentAt data off len

/-- A file node backed by an entry serves that entry's content. -/
theorem readAt_file_node (k : Crates) (archive : ZipArchive) {nodes : List Node} {id i : Nat}
    {node : Node} (hid : nodes[id]? = some node) (hkind : node.kind = .file)
    (hentry : node.entryIdx = some i) (off len : Nat) :
    ((ZipVfs.mk ⟨archive, []⟩ nodes).readAt k (.opaqueId id) .default off len).1 =
      (decodedEntry k archive i).map fun data => contentAt data off len := by
  have hmounted : Mounted k archive nodes (ZipVfs.mk ⟨archive, []⟩ nodes) :=
    ⟨rfl, SameArchive.refl archive, fun _ _ hmem => absurd hmem List.not_mem_nil⟩
  have hof : (ZipVfs.mk ⟨archive, []⟩ nodes).nodeOf (.opaqueId id) = .ok node :=
    ZipVfs.nodeOf_eq hid
  rw [(hmounted.readAt _ _ off len).1, servedAt, hof]
  show servedFrom k archive node off len = _
  rw [servedFrom, if_neg (not_not_intro hkind), hentry]

/-- **No entry is lost, or exactly these**: a file entry's content is served by some file
node if and only if no earlier entry's path is its path or goes through it. -/
theorem recovered_iff_path_is_new (k : Crates) (archive : ZipArchive) {layouts : List EntryLayout}
    (hcat : Catalogue layouts) {i : Nat} {e : EntryLayout} (hi : layouts[i]? = some e)
    (hfile : e.isDir = false) (hcomps : e.comps ≠ []) :
    Recovered k archive (buildTree layouts) i ↔
      ∀ j < i, ∀ f, layouts[j]? = some f → ¬ e.comps <+: f.comps := by
  obtain ⟨T, h⟩ := exists_represents layouts
  constructor
  · rintro ⟨id, node, hid, hkind, hentry, -⟩ j hj f hf hpre
    obtain ⟨p, hp, rfl⟩ := h.exists_path hid
    have hne : p ≠ [] := by
      rintro rfl
      rw [(nodeAt_root layouts T).2] at hkind
      cases hkind
    -- the backing entry of the node is the one at `i`, and the first recorded at `p`
    rw [entryIdx_nodeAt hne] at hentry
    obtain ⟨b, hb, hindex⟩ := Option.map_eq_some_iff.1 hentry
    obtain ⟨i', hi', hpath, hfirst⟩ := first_of_find?_eq_some hb
    obtain rfl : i' = i := (hcat.index_eq hi').symm.trans hindex
    obtain rfl := Option.some.inj (hi.symm.trans hi')
    -- the entry that made the node lies before `j`, at the same path
    obtain ⟨g, hg, hgpath, -⟩ := (kind_nodeAt_eq_file_iff hne).1 hkind
    obtain ⟨j', hj', -, hthrough⟩ := first_of_find?_eq_some hg
    have hle : j' ≤ j := by
      by_contra hlt
      exact hthrough j (by omega) f hf (hpath ▸ hpre)
    exact hfirst j' (by omega) g hj' hgpath
  · intro hnew
    have hmade : layouts.find? (fun f => decide (e.comps <+: f.comps)) = some e :=
      find?_eq_some_of_first hi (List.prefix_refl _) hnew
    have hback : layouts.find? (fun f => decide (f.comps = e.comps)) = some e :=
      find?_eq_some_of_first hi rfl fun j hj f hf hpath => hnew j hj f hf (hpath ▸ List.prefix_refl _)
    obtain ⟨id, hid⟩ := List.getElem?_of_mem (comps_mem_paths h (List.mem_of_getElem? hi))
    have hnode := h.getElem? hid
    have hkind := (kind_nodeAt_eq_file_iff (T := T) hcomps).2 ⟨e, hmade, rfl, hfile⟩
    have hentry : (nodeAt (mentions layouts) T e.comps).entryIdx = some i := by
      rw [entryIdx_nodeAt hcomps, hback, Option.map_some, hcat.index_eq hi]
    exact ⟨id, _, hnode, hkind, hentry, readAt_file_node k archive hnode hkind hentry⟩

/-- A member of which only the place in the directory and the name matter. -/
def namedLayout (index : Nat) (name : String) : EntryLayout :=
  { index, lfhOffset := 0, dataStart := 0, extra := {}
    central := {
      name, method := .stored, flags := 0, crc32 := 0, compressedSize := 0, uncompressedSize := 0 }
    loc := {
      name, method := .stored, flags := 0, crc32 := 0, compressedSize := 0, uncompressedSize := 0 } }

theorem distinct_names_recovered :
    Recovered .plain storedVfs.inner.archive
      (buildTree [namedLayout 0 "a", namedLayout 1 "b/c"]) 1 := by
  refine (recovered_iff_path_is_new .plain _ (i := 1) (e := namedLayout 1 "b/c")
    (by decide +kernel) rfl (by decide +kernel) (by decide +kernel)).2 ?_
  intro j hj f hf
  obtain rfl : j = 0 := by omega
  obtain rfl : namedLayout 0 "a" = f := Option.some.inj hf
  decide +kernel

/-- Two members named `a`: the second one is in no node. -/
theorem repeated_name_lost :
    Catalogue [namedLayout 0 "a", namedLayout 1 "a"] ∧ (namedLayout 1 "a").isDir = false ∧
      (namedLayout 1 "a").comps ≠ [] ∧
      ∀ node ∈ buildTree [namedLayout 0 "a", namedLayout 1 "a"], node.entryIdx ≠ some 1 := by
  decide +kernel

/-! ## Kinds -/

/-- Reached from the root by calls that succeed. -/
inductive Reachable (v : ZipVfs) : FileId → Prop
  | root : Reachable v ZipVfs.root
  | lookup {parent id : FileId} {name : Bytes} : Reachable v parent →
      v.lookup parent name = .ok (some id) → Reachable v id
  | readDir {parent : FileId} {ds : List DirEntry} {d : DirEntry} : Reachable v parent →
      v.readDir parent = .ok ds → d ∈ ds → Reachable v d.id

/-- Directories and files are told apart, and everything can be reached. -/
structure KindCoherent (layouts : List EntryLayout) (nodes : List Node) : Prop where
  dirs : ∀ (i : Nat) (n : Node), nodes[i]? = some n → n.children ≠ [] → n.kind = .dir
  files : ∀ (i : Nat) (n : Node), nodes[i]? = some n → ∀ e ∈ layouts,
    n.entryIdx = some e.index → e.isDir = false → n.kind = .file
  reachable : ∀ (inner : Inner), ∀ i < nodes.length, i ≠ 0 →
    Reachable (ZipVfs.mk inner nodes) (.opaqueId i)

/-- No path goes through a file: where the first entry recorded at a path is a file, no
entry has a longer one. -/
def FilesAreLeaves (layouts : List EntryLayout) : Prop :=
  ∀ (i : Nat) (e : EntryLayout), layouts[i]? = some e → e.comps ≠ [] → e.isDir = false →
    (∀ j < i, ∀ f, layouts[j]? = some f → f.comps ≠ e.comps) →
      ∀ f ∈ layouts, e.comps <+: f.comps → f.comps = e.comps

/-- A node is reached through its ancestors if these are directories. -/
theorem reachable_of_dirs {layouts : List EntryLayout} {t : TreeBuild} {T : PathTable String}
    (h : Represents t T (mentions layouts))
    (hdirs : ∀ (i : Nat) (n : Node), t.nodes[i]? = some n → n.children ≠ [] → n.kind = .dir)
    (inner : Inner) {i : Nat} {p : List String} (hi : T.paths[i]? = some p) :
    Reachable (ZipVfs.mk inner t.nodes) (.opaqueId i) := by
  induction p using List.reverseRecOn generalizing i with
  | nil =>
    obtain rfl := (PathTable.eq_nil_iff hi).1 rfl
    exact .root
  | append_singleton p c ih =>
    obtain ⟨j, -, hj⟩ := PathTable.exists_parent hi
    have hnode := h.getElem? hj
    have hchild : (nodeAt (mentions layouts) T p).children ≠ [] :=
      List.ne_nil_of_mem (PathTable.mem_childIds.2 ⟨c, hi⟩)
    have hlookup : (ZipVfs.mk inner t.nodes).lookup (.opaqueId j) (nameBytes c) =
        .ok (some (.opaqueId i)) := by
      rw [ZipVfs.lookup_eq hnode (hdirs j _ hnode hchild),
        (h.childNamed_eq_some_iff hj).2 ⟨c, rfl, hi⟩]
      rfl
    exact .lookup (ih hj) hlookup

section Coherence

variable {layouts : List EntryLayout}

theorem filesAreLeaves_of_kindCoherent (hkinds : KindCoherent layouts (buildTree layouts)) :
    FilesAreLeaves layouts := by
  obtain ⟨T, h⟩ := exists_represents layouts
  intro i e hi hcomps hfile hfirst f hf hpre
  by_contra hne
  -- a component below the file's path
  obtain ⟨r, hr⟩ := hpre
  have hrne : r ≠ [] := by
    rintro rfl
    exact hne (by rw [← hr, List.append_nil])
  obtain ⟨c, r, rfl⟩ := List.exists_cons_of_ne_nil hrne
  have hbelow : e.comps ++ [c] ∈ T.paths :=
    (mem_paths_iff h (by simp)).2 ⟨f, hf, r, by rw [List.append_assoc]; exact hr⟩
  obtain ⟨id', hid'⟩ := List.getElem?_of_mem hbelow
  obtain ⟨id, hid⟩ := List.getElem?_of_mem (PathTable.mem_of_append [c] hbelow)
  have hnode := h.getElem? hid
  have hdir := hkinds.dirs id _ hnode (List.ne_nil_of_mem (PathTable.mem_childIds.2 ⟨c, hid'⟩))
  have hback := find?_eq_some_of_first (P := fun f => f.comps = e.comps) hi rfl hfirst
  have hentry : (nodeAt (mentions layouts) T e.comps).entryIdx = some e.index := by
    rw [entryIdx_nodeAt hcomps, hback, Option.map_some]
  rw [hkinds.files id _ hnode e (List.mem_of_getElem? hi) hentry hfile] at hdir
  cases hdir

variable (hleaves : FilesAreLeaves layouts)
include hleaves

theorem FilesAreLeaves.dirs {i : Nat} {n : Node} (hi : (buildTree layouts)[i]? = some n)
    (hchildren : n.children ≠ []) : n.kind = .dir := by
  obtain ⟨T, h⟩ := exists_represents layouts
  obtain ⟨p, hp, rfl⟩ := h.exists_path hi
  by_cases hne : p = []
  · subst hne
    exact (nodeAt_root layouts T).2
  cases hkind : (nodeAt (mentions layouts) T p).kind with
  | dir => rfl
  | file =>
    obtain ⟨e, he, rfl, hfile⟩ := (kind_nodeAt_eq_file_iff hne).1 hkind
    obtain ⟨j, hj, -, hfirst⟩ := first_of_find?_eq_some he
    obtain ⟨c, hc⟩ := List.exists_mem_of_ne_nil _ hchildren
    obtain ⟨a, ha⟩ := PathTable.mem_childIds.1 hc
    obtain ⟨f, hf, hpre⟩ := (mem_paths_iff h (by simp)).1 (PathTable.mem_of_getElem? ha)
    have hf' := hleaves j e hj hne hfile
      (fun j' hj' g hg hgp => hfirst j' hj' g hg (hgp ▸ List.prefix_refl _)) f hf
      ((List.prefix_append _ _).trans hpre)
    have hlen := hpre.length_le
    rw [hf', List.length_append, List.length_singleton] at hlen
    omega

theorem FilesAreLeaves.files (hcat : Catalogue layouts) {i : Nat} {n : Node}
    (hi : (buildTree layouts)[i]? = some n) {e : EntryLayout} (he : e ∈ layouts)
    (hentry : n.entryIdx = some e.index) (hfile : e.isDir = false) : n.kind = .file := by
  obtain ⟨T, h⟩ := exists_represents layouts
  obtain ⟨p, hp, rfl⟩ := h.exists_path hi
  have hne : p ≠ [] := by
    rintro rfl
    rw [(nodeAt_root layouts T).1] at hentry
    cases hentry
  rw [entryIdx_nodeAt hne] at hentry
  obtain ⟨b, hb, hindex⟩ := Option.map_eq_some_iff.1 hentry
  obtain ⟨j, hj, rfl, hfirst⟩ := first_of_find?_eq_some hb
  obtain rfl := hcat.eq_of_index_eq (List.mem_of_getElem? hj) he hindex
  -- whatever comes first through the path ends there, so it is the backing entry
  refine (kind_nodeAt_eq_file_iff hne).2 ⟨b, find?_eq_some_of_first hj (List.prefix_refl _) ?_,
    rfl, hfile⟩
  intro j' hj' f hf hpre
  exact hfirst j' hj' f hf (hleaves j b hj hne hfile hfirst f (List.mem_of_getElem? hf) hpre)

end Coherence

/-- **Kind coherence** holds exactly for the lists in which files are leaves. -/
theorem kindCoherent_iff_filesAreLeaves {layouts : List EntryLayout} (hcat : Catalogue layouts) :
    KindCoherent layouts (buildTree layouts) ↔ FilesAreLeaves layouts := by
  constructor
  · exact filesAreLeaves_of_kindCoherent
  · intro hleaves
    obtain ⟨T, h⟩ := exists_represents layouts
    refine ⟨fun i n hi => hleaves.dirs hi, fun i n hi e he => hleaves.files hcat hi he, ?_⟩
    intro inner i hi _
    obtain ⟨p, hp, -⟩ := h.exists_path (List.getElem?_eq_getElem hi)
    exact reachable_of_dirs h (fun i n hi => hleaves.dirs hi) inner hp

theorem recorded_directory_kindCoherent :
    KindCoherent [namedLayout 0 "d/x", namedLayout 1 "d/"]
      (buildTree [namedLayout 0 "d/x", namedLayout 1 "d/"]) := by
  refine (kindCoherent_iff_filesAreLeaves (by decide +kernel)).2 ?_
  intro i e hi _ hfile _ f hf hpre
  rcases i with _ | _ | i
  · obtain rfl : namedLayout 0 "d/x" = e := Option.some.inj hi
    rcases List.mem_cons.1 hf with rfl | hf
    · rfl
    · obtain rfl := List.mem_singleton.1 hf
      exact absurd hpre (by decide +kernel)
  · obtain rfl : namedLayout 1 "d/" = e := Option.some.inj hi
    exact absurd hfile (by decide +kernel)
  · cases hi

/-- A file `a` and a member below `a`: the file has a child, which no call reaches. -/
theorem member_below_file_incoherent :
    Catalogue [namedLayout 0 "a", namedLayout 1 "a/b"] ∧
      ¬ KindCoherent [namedLayout 0 "a", namedLayout 1 "a/b"]
        (buildTree [namedLayout 0 "a", namedLayout 1 "a/b"]) := by
  refine ⟨by decide +kernel, fun h => ?_⟩
  have hnode : (buildTree [namedLayout 0 "a", namedLayout 1 "a/b"])[1]?.map
      (fun n => (n.children, n.kind)) = some ([2], .file) := by decide +kernel
  obtain ⟨n, hn, hpair⟩ := Option.map_eq_some_iff.1 hnode
  obtain ⟨hchildren, hkind⟩ := Prod.mk.inj hpair
  have hdir := h.dirs 1 n hn (by rw [hchildren]; simp)
  rw [hkind] at hdir
  cases hdir

end ZipForensic
