import ZipForensic.Core.MountedRoundTrip

/-!
# The mounted archive as a map of paths (vfs.rs)

Seen from a client that starts every access at the root, a mount is a map from paths to
what stands there, and the map can be read off the list of entries.

- `pathsOf`, `fileAt`, `recordAt`: which paths there are, in which order, which of them are
  files, and the entries behind them.
- `Represents.resolve_root`: a walk from the root finds what the map has at the path, or
  stops at the first file on the way.
- `vfs_refines_paths`: so every access by path, after any other calls, is answered by the map.
-/

namespace ZipForensic

variable {k : Crates}

/-! ## The map -/

section Map

variable (layouts : List EntryLayout)

/-- The paths that the entries go through, in the order of their first mention. -/
def pathsOf : List (List String) :=
  (layouts.flatMap fun e => e.comps.inits.tail).foldl notePath [[]]

/-- The node number of a path. -/
def numberOf (p : List String) : Nat := (pathsOf layouts).idxOf p

/-- The path there is under these names. -/
def knownAs (path : List Bytes) : Option (List String) :=
  (pathsOf layouts).find? fun p => decide (p.map nameBytes = path)

/-- The file at a path: the first entry that goes through it, if it ends there as a file. -/
def fileAt (p : List String) : Option EntryLayout :=
  if p = [] then none
  else (layouts.find? fun e => decide (p <+: e.comps)).filter fun e =>
    decide (p = e.comps) && !e.isDir

/-- The first entry recorded at a path. -/
def recordAt (p : List String) : Option EntryLayout :=
  if p = [] then none else layouts.find? fun e => decide (e.comps = p)

def kindAt (p : List String) : NodeKind := if (fileAt layouts p).isSome then .file else .dir

def sizeAt (p : List String) : Nat :=
  ((fileAt layouts p).map fun e => e.central.uncompressedSize).getD 0

def statAt (p : List String) : FsMeta :=
  { ino := numberOf layouts p, kind := kindAt layouts p, size := sizeAt layouts p, nlink := 1
    times := {
      modified := (recordAt layouts p).bind fun e => (extraTimes e.extra).1
      accessed := (recordAt layouts p).bind fun e => (extraTimes e.extra).2.1
      changed := none
      born := (recordAt layouts p).bind fun e => (extraTimes e.extra).2.2 } }

/-- The entry of the path `q`, which is node `j`, in the listing of `p`. -/
def listedIn (p : List String) (j : Nat) (q : List String) : Option DirEntry :=
  if q ≠ [] ∧ q.dropLast = p then
    some { name := (q.getLast?.map nameBytes).getD [], id := .opaqueId j, kind := kindAt layouts q }
  else none

/-- The paths one component below `p`. -/
def listingAt (p : List String) : List DirEntry :=
  (List.range (pathsOf layouts).length).filterMap fun j =>
    (pathsOf layouts)[j]?.bind (listedIn layouts p j)

/-- The content of the file at `p`, from `off` on. -/
def contentOf (k : Crates) (a : ZipArchive) (p : List String) (off len : Nat) : Res VfsError Bytes :=
  ((fileAt layouts p).map fun e =>
    (decodedEntry k a e.index).map fun data => contentAt data off len).getD (.ok [])

/-- The first file strictly above `path`. -/
def fileAbove (path : List Bytes) : Option (List String) :=
  path.inits.dropLast.findSome? fun q =>
    (knownAs layouts q).filter fun p => (fileAt layouts p).isSome

/-- What a walk along `path` comes to: nothing goes through a file. -/
def locate (path : List Bytes) : Except VfsError (Option (List String)) :=
  match fileAbove layouts path with
  | some p => .error (notADirectory (numberOf layouts p))
  | none => .ok (knownAs layouts path)

end Map

/-! ## Calls by path -/

inductive PathOp
  | stat
  | list
  | read (stream : StreamId) (off len : Nat)
  | extents (stream : StreamId)

/-- An operation on what a path leads to. -/
structure PathCall where
  path : List Bytes
  op : PathOp

/-- The call on the node that was found. -/
def PathOp.on (id : FileId) : PathOp → VfsCall
  | stat => .info id
  | list => .readDir id
  | read stream off len => .readAt id stream off len
  | extents stream => .extents id stream

/-- Walk to the path, then do the operation there. -/
def PathCall.run (k : Crates) (c : PathCall) (v : ZipVfs) : VfsAnswer × ZipVfs :=
  match v.resolve ZipVfs.root c.path with
  | .ok (some id) => (c.op.on id).run k v
  | r => (.child r, v)

/-- The answer of the map for the path `p`. -/
def PathOp.answer (k : Crates) (a : ZipArchive) (layouts : List EntryLayout) (p : List String) :
    PathOp → VfsAnswer
  | stat => .info (.ok (statAt layouts p))
  | list => .entries
    (if kindAt layouts p = .dir then .ok (listingAt layouts p)
      else .error (notADirectory (numberOf layouts p)))
  | read stream off len => .bytes do
    Res.lift (requireDefaultStream stream)
    contentOf layouts k a p off len
  | extents stream => .runs do
    requireDefaultStream stream
    if sizeAt layouts p = 0 then return [] else return [⟨0, sizeAt layouts p⟩]

/-- The answer of the map. -/
def PathCall.answer (k : Crates) (a : ZipArchive) (layouts : List EntryLayout) (c : PathCall) :
    VfsAnswer :=
  match locate layouts c.path with
  | .ok (some p) => c.op.answer k a layouts p
  | .ok none => .child (.ok none)
  | .error e => .child (.error e)

/-! ## The table of paths -/

theorem paths_mentionsFrom (e : EntryLayout) (p rest : List String) :
    (mentionsFrom e p rest).map Mention.path = rest.inits.tail.map fun r => p ++ r := by
  induction rest generalizing p with
  | nil => rfl
  | cons c rest ih =>
    rw [mentionsFrom, List.map_cons, ih, List.inits_cons, List.tail_cons, List.map_map]
    cases rest with
    | nil => rfl
    | cons d rest => simp [Function.comp_def]

theorem pathsOf_eq (layouts : List EntryLayout) :
    pathsOf layouts = ((mentions layouts).map Mention.path).foldl notePath [[]] := by
  have hpaths : (layouts.flatMap fun e => e.comps.inits.tail) =
      (mentions layouts).map Mention.path := by
    rw [mentions, List.map_flatMap]
    refine List.flatMap_congr fun e _ => ?_
    rw [mentionsOf, paths_mentionsFrom]
    simp
  rw [pathsOf, hpaths]

section Table

variable {layouts : List EntryLayout} {T : PathTable String} (hpaths : T.paths = pathsOf layouts)
include hpaths

theorem numberOf_eq {i : Nat} {p : List String} (hi : T.paths[i]? = some p) :
    numberOf layouts p = i := by
  obtain ⟨hlt, rfl⟩ := List.getElem?_eq_some_iff.1 hi
  rw [numberOf, ← hpaths]
  exact T.nodup.idxOf_getElem i hlt

theorem knownAs_eq_some_iff {path : List Bytes} {p : List String} :
    knownAs layouts path = some p ↔ p ∈ T.paths ∧ p.map nameBytes = path := by
  rw [knownAs, ← hpaths]
  constructor
  · intro h
    exact ⟨List.mem_of_find?_eq_some h, by simpa using List.find?_some h⟩
  · rintro ⟨hp, rfl⟩
    have hsome : (T.paths.find? fun q => decide (q.map nameBytes = p.map nameBytes)).isSome :=
      List.find?_isSome.2 ⟨p, hp, by simp⟩
    obtain ⟨q, hq⟩ := Option.isSome_iff_exists.1 hsome
    have hsame : q.map nameBytes = p.map nameBytes := by simpa using List.find?_some hq
    rw [hq, List.map_injective_iff.2 (fun _ _ => nameBytes_injective) hsame]

theorem knownAs_append_eq_none {path : List Bytes} (h : knownAs layouts path = none)
    (rest : List Bytes) : knownAs layouts (path ++ rest) = none := by
  refine Option.eq_none_iff_forall_ne_some.2 fun q hq => ?_
  obtain ⟨hmem, hnames⟩ := (knownAs_eq_some_iff hpaths).1 hq
  obtain ⟨p, r, rfl, hp, -⟩ := List.map_eq_append_iff.1 hnames
  rw [(knownAs_eq_some_iff hpaths).2 ⟨PathTable.mem_of_append r hmem, hp⟩] at h
  cases h

end Table

/-! ## The nodes -/

section Nodes

variable {layouts : List EntryLayout} {T : PathTable String} {p : List String}

theorem backing_eq_recordAt : backing (mentions layouts) p = recordAt layouts p := by
  rw [recordAt]
  by_cases hnil : p = []
  · rw [if_pos hnil]
    exact backing_of_not_mentioned fun hm => (mentioned_mentions.1 hm).1 hnil
  · rw [if_neg hnil, backing_mentions layouts hnil]

theorem fileAt_eq_filter :
    fileAt layouts p = (madeBy (mentions layouts) p).filter fun e => !e.isDir := by
  rw [fileAt]
  by_cases hnil : p = []
  · have hnot : ¬ Mentioned (mentions layouts) p := fun hm => (mentioned_mentions.1 hm).1 hnil
    rw [if_pos hnil, madeBy, find?_of_not_mentioned hnot]
    rfl
  · rw [if_neg hnil, madeBy_mentions layouts hnil]
    cases layouts.find? fun e => decide (p <+: e.comps) with
    | none => rfl
    | some e => by_cases hp : p = e.comps <;> simp [hp, Option.filter]

/-- What makes a path a file is recorded there. -/
theorem recordAt_of_fileAt {e : EntryLayout} (h : fileAt layouts p = some e) :
    recordAt layouts p = some e := by
  rw [fileAt] at h
  split_ifs at h with hnil
  obtain ⟨hfind, hhere⟩ := Option.filter_eq_some_iff.1 h
  obtain ⟨hends, -⟩ : p = e.comps ∧ e.isDir = false := by simpa using hhere
  obtain ⟨i, hi, -, hfirst⟩ := first_of_find?_eq_some hfind
  rw [recordAt, if_neg hnil]
  exact find?_eq_some_of_first hi hends.symm fun j hj f hf hpath =>
    hfirst j hj f hf (hpath ▸ List.prefix_refl _)

theorem kind_nodeAt : (nodeAt (mentions layouts) T p).kind = kindAt layouts p := by
  simp only [nodeAt, kindAt, fileAt_eq_filter]
  cases madeBy (mentions layouts) p with
  | none => rfl
  | some e => cases hdir : e.isDir <;> simp [hdir, Option.filter]

theorem size_nodeAt : (nodeAt (mentions layouts) T p).size = sizeAt layouts p := by
  simp only [nodeAt, sizeAt, fileAt_eq_filter]
  cases madeBy (mentions layouts) p with
  | none => rfl
  | some e => cases hdir : e.isDir <;> simp [hdir, Option.filter]

/-- What is served from the node is the content of the file. -/
theorem servedFrom_nodeAt (a : ZipArchive) (off len : Nat) :
    servedFrom k a (nodeAt (mentions layouts) T p) off len = contentOf layouts k a p off len := by
  rw [servedFrom, kind_nodeAt, kindAt, contentOf]
  cases hfile : fileAt layouts p with
  | none => rfl
  | some e =>
    have hentry : (nodeAt (mentions layouts) T p).entryIdx = some e.index := by
      simp only [nodeAt, backing_eq_recordAt, recordAt_of_fileAt hfile, Option.map_some]
    rw [hentry]
    rfl

end Nodes

/-! ## Walks -/

theorem ZipVfs.lookup_file {v : ZipVfs} {i : Nat} {n : Node} (h : v.nodes[i]? = some n)
    (hfile : n.kind ≠ .dir) (name : Bytes) :
    v.lookup (.opaqueId i) name = .error (notADirectory i) := by
  rw [ZipVfs.lookup, ZipVfs.nodeOf_eq h, Res.bind_ok, if_pos hfile]
  rfl

theorem ZipVfs.readDir_file {v : ZipVfs} {i : Nat} {n : Node} (h : v.nodes[i]? = some n)
    (hfile : n.kind ≠ .dir) : v.readDir (.opaqueId i) = .error (notADirectory i) := by
  rw [ZipVfs.readDir, ZipVfs.nodeOf_eq h, Res.bind_ok, if_pos hfile]
  rfl

/-- The first file on the way from `base` along `rest`, the end not counted. -/
def fileOnWay (layouts : List EntryLayout) (base rest : List Bytes) : Option (List String) :=
  rest.inits.dropLast.findSome? fun q =>
    (knownAs layouts (base ++ q)).filter fun p => (fileAt layouts p).isSome

theorem fileOnWay_cons (layouts : List EntryLayout) (base : List Bytes) (name : Bytes)
    (rest : List Bytes) :
    fileOnWay layouts base (name :: rest) =
      ((knownAs layouts base).filter fun p => (fileAt layouts p).isSome).or
        (fileOnWay layouts (base ++ [name]) rest) := by
  have hinits : (name :: rest).inits.dropLast =
      [] :: rest.inits.dropLast.map fun q => name :: q := by
    rw [List.inits_cons, List.dropLast_cons_of_ne_nil (by cases rest <;> simp), List.map_dropLast]
  rw [fileOnWay, hinits, List.findSome?_cons, List.append_nil, List.findSome?_map]
  have happend : ((fun q => (knownAs layouts (base ++ q)).filter fun p =>
      (fileAt layouts p).isSome) ∘ fun q => name :: q) = fun q =>
        (knownAs layouts (base ++ [name] ++ q)).filter fun p => (fileAt layouts p).isSome := by
    funext q
    rw [Function.comp_apply, List.append_assoc]
    rfl
  rw [happend]
  cases (knownAs layouts base).filter fun p => (fileAt layouts p).isSome with
  | none => rfl
  | some p => rfl

section Walks

variable {layouts : List EntryLayout} {T : PathTable String} {t : TreeBuild} {v : ZipVfs}
  (h : Represents t T (mentions layouts)) (hpaths : T.paths = pathsOf layouts)
  (hnodes : v.nodes = t.nodes)
include h hpaths hnodes

/-- A walk from the node of `p`. -/
theorem resolve_eq_locate (rest : List Bytes) {i : Nat} {p : List String}
    (hi : T.paths[i]? = some p) :
    v.resolve (.opaqueId i) rest =
      ((fileOnWay layouts (p.map nameBytes) rest).map fun q =>
        .error (notADirectory (numberOf layouts q))).getD
      (.ok ((knownAs layouts (p.map nameBytes ++ rest)).map fun q =>
        .opaqueId (numberOf layouts q))) := by
  induction rest generalizing i p with
  | nil =>
    have hknown := (knownAs_eq_some_iff hpaths).2 ⟨PathTable.mem_of_getElem? hi, rfl⟩
    rw [List.append_nil, hknown, Option.map_some, numberOf_eq hpaths hi]
    rfl
  | cons name rest ih =>
    have hnode : v.nodes[i]? = some (nodeAt (mentions layouts) T p) := hnodes ▸ h.getElem? hi
    have hknown := (knownAs_eq_some_iff hpaths).2 ⟨PathTable.mem_of_getElem? hi, rfl⟩
    rw [fileOnWay_cons, hknown, ZipVfs.resolve]
    cases hfile : (fileAt layouts p).isSome with
    | true =>
      have hkind : (nodeAt (mentions layouts) T p).kind ≠ .dir := by
        rw [kind_nodeAt, kindAt, if_pos hfile]
        decide
      rw [ZipVfs.lookup_file hnode hkind]
      simp [Option.filter, hfile, numberOf_eq hpaths hi]
    | false =>
      have hkind : (nodeAt (mentions layouts) T p).kind = .dir := by
        rw [kind_nodeAt, kindAt, if_neg (by simp [hfile])]
      rw [ZipVfs.lookup_eq hnode hkind, hnodes, List.append_cons (p.map nameBytes) name rest]
      simp only [Option.filter, hfile, Bool.false_eq_true, if_false, Option.none_or]
      cases hchild : childNamed t.nodes i name with
      | none =>
        -- nothing stands there, nor below
        have hnone : knownAs layouts (p.map nameBytes ++ [name]) = none := by
          refine Option.eq_none_iff_forall_ne_some.2 fun q hq => ?_
          obtain ⟨hmem, hnames⟩ := (knownAs_eq_some_iff hpaths).1 hq
          obtain ⟨p', r, rfl, hp', hr⟩ := List.map_eq_append_iff.1 hnames
          obtain rfl := List.map_injective_iff.2 (fun _ _ => nameBytes_injective) hp'
          obtain ⟨c, rfl, rfl⟩ := List.map_eq_singleton_iff.1 hr
          obtain ⟨j, hj⟩ := List.getElem?_of_mem hmem
          rw [(h.childNamed_eq_some_iff hi).2 ⟨c, rfl, hj⟩] at hchild
          cases hchild
        have hway : fileOnWay layouts (p.map nameBytes ++ [name]) rest = none := by
          refine List.findSome?_eq_none_iff.2 fun q _ => ?_
          rw [knownAs_append_eq_none hpaths hnone]
          rfl
        rw [hway, knownAs_append_eq_none hpaths hnone]
        rfl
      | some j =>
        obtain ⟨c, rfl, hj⟩ := (h.childNamed_eq_some_iff hi).1 hchild
        have hwalk := ih hj
        rw [List.map_append, List.map_singleton] at hwalk
        exact hwalk

/-- A walk from the root comes to what the map has at the path, unless it goes through a
file. -/
theorem resolve_root (path : List Bytes) :
    v.resolve ZipVfs.root path =
      (locate layouts path).map fun p => p.map fun q => .opaqueId (numberOf layouts q) := by
  have habove : fileOnWay layouts [] path = fileAbove layouts path := rfl
  rw [ZipVfs.root, resolve_eq_locate h hpaths hnodes path T.root, List.map_nil, List.nil_append,
    habove, locate]
  cases fileAbove layouts path with
  | none => rfl
  | some p => rfl

end Walks

/-! ## Answers -/

theorem statAt_eq {v : ZipVfs} {layouts : List EntryLayout} {T : PathTable String} {i : Nat}
    {p : List String} (hi : v.nodes[i]? = some (nodeAt (mentions layouts) T p))
    (hnumber : numberOf layouts p = i) : v.meta (.opaqueId i) = .ok (statAt layouts p) := by
  rw [ZipVfs.meta_of_node hi, statAt, kind_nodeAt, size_nodeAt, hnumber]
  simp only [nodeAt, backing_eq_recordAt]

theorem extents_eq {v : ZipVfs} {layouts : List EntryLayout} {T : PathTable String} {i : Nat}
    {p : List String} (hi : v.nodes[i]? = some (nodeAt (mentions layouts) T p))
    (stream : StreamId) :
    v.extents (.opaqueId i) stream = (do
      requireDefaultStream stream
      if sizeAt layouts p = 0 then return [] else return [⟨0, sizeAt layouts p⟩]) := by
  rw [ZipVfs.extents, ZipVfs.nodeOf_eq hi, Res.bind_ok, size_nodeAt]

section Answers

variable {layouts : List EntryLayout} {T : PathTable String} {t : TreeBuild} {v : ZipVfs}
  (h : Represents t T (mentions layouts)) (hpaths : T.paths = pathsOf layouts)
  (hnodes : v.nodes = t.nodes)
include h hpaths hnodes

/-- The listing of a directory node. -/
theorem readDir_eq_listingAt {i : Nat} {p : List String} (hi : T.paths[i]? = some p) :
    v.readDir (.opaqueId i) =
      if kindAt layouts p = .dir then .ok (listingAt layouts p)
      else .error (notADirectory (numberOf layouts p)) := by
  have hnode : v.nodes[i]? = some (nodeAt (mentions layouts) T p) := hnodes ▸ h.getElem? hi
  by_cases hdir : kindAt layouts p = .dir
  · rw [if_pos hdir, ZipVfs.readDir_eq hnode (kind_nodeAt.trans hdir), hnodes]
    congr 1
    show (T.childIds p).filterMap _ = _
    rw [listingAt, PathTable.childIds, PathTable.size, hpaths, List.filterMap_filter]
    refine List.filterMap_congr fun j _ => ?_
    rw [h.nodes j, hpaths]
    cases (pathsOf layouts)[j]? with
    | none => rfl
    | some q =>
      rw [Option.any_some, Option.bind_some, Option.map_some, Option.map_some, listedIn,
        kind_nodeAt]
      by_cases hbelow : q ≠ [] ∧ q.dropLast = p
      · rw [if_pos hbelow, if_pos (decide_eq_true hbelow)]
        rfl
      · rw [if_neg hbelow, if_neg (by simpa using hbelow)]
  · rw [if_neg hdir, ZipVfs.readDir_file hnode (by rwa [kind_nodeAt]), numberOf_eq hpaths hi]

/-- Every operation on a node is answered by the map. -/
theorem PathOp.run_on {a : ZipArchive} (hv : Mounted k a t.nodes v) (op : PathOp) {i : Nat}
    {p : List String} (hi : T.paths[i]? = some p) :
    ((op.on (.opaqueId i)).run k v).1 = op.answer k a layouts p := by
  have hnode : v.nodes[i]? = some (nodeAt (mentions layouts) T p) := hnodes ▸ h.getElem? hi
  cases op with
  | stat => exact congrArg VfsAnswer.info (statAt_eq hnode (numberOf_eq hpaths hi))
  | list => exact congrArg VfsAnswer.entries (readDir_eq_listingAt h hpaths hnodes hi)
  | read stream off len =>
    have hread := (hv.readAt (.opaqueId i) stream off len).1
    rw [servedAt, ZipVfs.nodeOf_eq hnode] at hread
    refine congrArg VfsAnswer.bytes (hread.trans ?_)
    show (do
      Res.lift (requireDefaultStream stream)
      servedFrom k a (nodeAt (mentions layouts) T p) off len) = _
    rw [servedFrom_nodeAt]
  | extents stream => exact congrArg VfsAnswer.runs (extents_eq hnode stream)

end Answers

/-- Calls by path on a mount are answered by the map of its entries. -/
theorem memoryless_paths {a : ZipArchive} {layouts : List EntryLayout} :
    Memoryless (PathCall.run k) (Mounted k a (buildTree layouts))
      (PathCall.answer k a layouts) where
  answer c v hv := by
    obtain ⟨T, h, hpaths⟩ := exists_represents_inOrder layouts
    rw [← pathsOf_eq] at hpaths
    have hresolve := resolve_root h hpaths hv.nodes_eq c.path
    rw [PathCall.run, hresolve, PathCall.answer]
    rcases hlocate : locate layouts c.path with e | (_ | p)
    · rfl
    · rfl
    · have hknown : knownAs layouts c.path = some p := by
        rw [locate] at hlocate
        cases habove : fileAbove layouts c.path with
        | none =>
          rw [habove] at hlocate
          exact Except.ok.inj hlocate
        | some q =>
          rw [habove] at hlocate
          cases hlocate
      obtain ⟨i, hi⟩ := List.getElem?_of_mem ((knownAs_eq_some_iff hpaths).1 hknown).1
      show ((c.op.on (.opaqueId (numberOf layouts p))).run k v).1 = _
      rw [numberOf_eq hpaths hi]
      exact PathOp.run_on h hpaths hv.nodes_eq hv c.op hi
  keeps c v hv := by
    rw [PathCall.run]
    split
    · exact (memoryless_vfs hv).keeps _ v hv
    · exact hv

/-- An archive whose structure can be viewed mounts. -/
theorem exists_mounted {F : Bytes} {pos : Nat} {a : ZipArchive} {layouts : List EntryLayout}
    (hnew : ZipArchive.new ⟨F, pos⟩ = .ok a) (hview : a.structuralView.1 = .ok layouts) :
    ∃ v, ZipVfs.open ⟨F, pos⟩ = .ok v ∧ Mounted k a (buildTree layouts) v := by
  obtain ⟨hbytes, hdir⟩ := reader_of_new hnew
  obtain ⟨pos', hview'⟩ := structuralView_eq a
  rw [hview'] at hview
  have hlayouts : layoutsAt F 0 a.entries = .ok layouts := hbytes ▸ hview
  obtain ⟨pos'', hopen⟩ := ZipVfs.open_eq hdir hlayouts pos
  exact ⟨_, hopen, rfl, ⟨hbytes.symm, rfl, rfl⟩, fun id data hmem => absurd hmem List.not_mem_nil⟩

/-- **A mount is a map of paths.** An archive whose structure can be viewed mounts, and
whatever is called before, every operation on a path - walk there from the root, then `meta`,
`read_dir`, `read_at` or `extents` - answers what the list of its entries says about the path
alone. -/
theorem vfs_refines_paths {F : Bytes} {pos : Nat} {a : ZipArchive} {layouts : List EntryLayout}
    (hnew : ZipArchive.new ⟨F, pos⟩ = .ok a) (hview : a.structuralView.1 = .ok layouts) :
    ∃ v, ZipVfs.open ⟨F, pos⟩ = .ok v ∧ ∀ history calls,
      (runCalls (PathCall.run k) calls (runCalls (VfsCall.run k) history v).2).1 =
        calls.map (PathCall.answer k a layouts) := by
  obtain ⟨v, hopen, hmounted⟩ := exists_mounted hnew hview
  refine ⟨v, hopen, fun history calls => ?_⟩
  exact memoryless_paths.runCalls_eq calls ((memoryless_vfs hmounted).runCalls_keeps history hmounted)

/-- The archive of two members, one of them in a directory: what its root lists, the ends of the
two files, and a path below a file. -/
theorem pairVfs_paths : ∃ v, ZipVfs.open ⟨pairArchive 0x61, 0⟩ = .ok v ∧
    (runCalls (PathCall.run pairCrates) [⟨[], .list⟩, ⟨[[0x64], [0x61]], .read .default 1 8⟩,
        ⟨[[0x62]], .read .default 298 8⟩, ⟨[[0x62], [0x6E]], .stat⟩]
      (runCalls (VfsCall.run pairCrates) [.readAt (.opaqueId 2) .default 0 2] v).2).1 =
      [.entries (.ok [⟨[0x64], .opaqueId 1, .dir⟩, ⟨[0x62], .opaqueId 3, .file⟩]),
        .bytes (.ok [0x62, 0x63]), .bytes (.ok [0x61, 0x61]),
        .child (.error (notADirectory 3))] := by
  have hnew : ZipArchive.new ⟨pairArchive 0x61, 0⟩ = .ok (pairOpened 0x61 237) := by decide +kernel
  have hview : (pairOpened 0x61 237).structuralView.1 = .ok pairLayout := by decide +kernel
  obtain ⟨v, hopen, hpaths⟩ := vfs_refines_paths (k := pairCrates) hnew hview
  refine ⟨v, hopen, (hpaths _ _).trans ?_⟩
  decide +kernel

end ZipForensic
