import ZipForensic.Core.Archive

/-!
# The archive as a file system (vfs.rs)

- `buildTree`: the node table derived from the flat central directory. Node 0 is
  the root; every name is split into components, directories its path implies
  are synthesized, and `byPath` remembers which joined path got which node.
- `ZipVfs`: the mounted archive, a node table over an archive and a cache of
  decoded contents. `readDir`, `lookup`, `meta` and `extents` only look at the
  table; `readAt` decodes an entry at most once (`content`). The mutex of the
  source is held for the whole of `content`, so calls of several workers are
  calls in some order on one `ZipVfs`.

Identifiers that the file-system contract has and this adapter refuses are kept
by their `Debug` text (`FileId.other`, `StreamId.other`). Fields of the contract
that the adapter fills with constants are left out of `FsMeta` and `ByteRun`.
-/

namespace ZipForensic

/-! ## Error texts (lib.rs) -/

def FormatError.display : FormatError → String
  | truncated => "unexpected end of data"
  | noEocd => "End Of Central Directory record not found"
  | badSignature what offset => s!"bad signature for {what} at offset {offset}"
  | zip64Unsupported => "Zip64 archive not yet supported"
  | zip64Inconsistent => "Zip64 sentinel without a matching Zip64 record/extra field"
  | centralDirOutOfRange cdOffset cdSize =>
    s!"central directory out of range: offset {cdOffset}, size {cdSize}"
  | tooManyEntries n => s!"declared entry count {n} exceeds the safety ceiling"

mutual

def ZipCoreError.display : ZipCoreError → String
  | .io source => "I/O error: " ++ source.display
  | .format source => "malformed ZIP container: " ++ source.display
  | .unsupportedMethod method => "unsupported compression method: " ++ method.debug
  | .crcMismatch entry expected actual =>
    "CRC-32 mismatch in entry " ++ entry ++ ": expected " ++ hexText 10 expected.toNat ++
      ", computed " ++ hexText 10 actual.toNat
  | .encryptedNoPassword entry => s!"entry is encrypted (password required): {entry}"
  | .wrongPassword entry => s!"incorrect password for entry: {entry}"
  | .unsupportedEncryption entry reason =>
    s!"unsupported encryption for entry {entry}: {reason}"
  | .entryNotFound name => s!"entry not found: {name}"
  | .indexOutOfBounds i => s!"entry index out of bounds: {i}"
  | .spannedArchive entry disk =>
    s!"entry {entry} is on disk {disk} of a spanned archive (not supported)"
  | .malformed entry reason => s!"malformed deflate stream in entry {entry}: {reason}"

def IoError.display : IoError → String
  | .unexpectedEof msg => msg
  | .invalidData msg => msg
  | .other msg => msg
  | .wrapped source => source.display

end

/-! ## The file-system contract -/

inductive NodeKind
  | dir
  | file
deriving DecidableEq, Repr

inductive FileId
  | opaqueId (n : Nat)
  | other (debug : String)
deriving DecidableEq, Repr

inductive StreamId
  | default
  | other (debug : String)
deriving DecidableEq, Repr

inductive VfsError
  | io (op : String) (source : IoError)
  | bootstrap (stage detail : String)
  | unsupported (layer scheme : String)
  | decode (layer : String) (offset : Nat) (detail : String) (bytes : Bytes)
deriving DecidableEq, Repr

inductive TimeResolution
  | winFileTime
  | seconds
deriving DecidableEq, Repr

structure TimeStamp where
  unixNanos : Int
  resolution : TimeResolution
deriving DecidableEq, Repr

structure DirEntry where
  name : Bytes
  id : FileId
  kind : NodeKind
deriving DecidableEq, Repr

structure ByteRun where
  imageOffset : Nat
  len : Nat
deriving DecidableEq, Repr

structure MacbTimes where
  modified : Option TimeStamp
  accessed : Option TimeStamp
  changed : Option TimeStamp
  born : Option TimeStamp
deriving DecidableEq, Repr

structure FsMeta where
  ino : Nat
  kind : NodeKind
  size : Nat
  nlink : Nat
  times : MacbTimes
deriving DecidableEq, Repr

/-! ## Hash maps

A map that is only read and inserted into, as its list of insertions. -/

theorem lookup_cons_eq {κ β : Type} [DecidableEq κ] (x y : κ) (b : β) (entries : List (κ × β)) :
    ((y, b) :: entries).lookup x = if x = y then some b else entries.lookup x := by
  rw [List.lookup_cons]
  cases h : x == y with
  | true => rw [if_pos (eq_of_beq h)]
  | false => rw [if_neg (ne_of_beq_false h)]

/-! ## The node table -/

/-- One node in the derived directory tree. -/
structure Node where
  /-- Central-directory index of the backing entry; `none` for the synthetic root
  and for directories implied by a path but not themselves listed. -/
  entryIdx : Option Nat
  /-- Last path component. -/
  name : Bytes
  kind : NodeKind
  size : Nat
  modified : Option TimeStamp
  accessed : Option TimeStamp
  born : Option TimeStamp
  children : List Nat
deriving DecidableEq, Repr

/-- A Windows `FILETIME`. -/
def filetimeTs (ft : Nat) : TimeStamp :=
  { unixNanos := ((ft : Int) - 116444736000000000) * 100, resolution := .winFileTime }

/-- Unix-epoch seconds. -/
def unixSecsTs (secs : Int) : TimeStamp :=
  { unixNanos := secs * 1000000000, resolution := .seconds }

/-- `(modified, accessed, born)`, NTFS times before Info-ZIP ones. -/
def extraTimes (extra : ExtraFields) : Option TimeStamp × Option TimeStamp × Option TimeStamp :=
  ((extra.ntfsMtime.map filetimeTs).or (extra.unixMtime.map unixSecsTs),
    (extra.ntfsAtime.map filetimeTs).or (extra.unixAtime.map unixSecsTs),
    (extra.ntfsCtime.map filetimeTs).or (extra.unixCtime.map unixSecsTs))

/-- The raw bytes of a path component. -/
def nameBytes (comp : String) : Bytes := comp.toByteArray.data.toList

/-- The normal components of an entry name. -/
def components (raw : String) : List String :=
  ((raw.toList.splitOnP isSeparator).map String.ofList).filter fun c => c ≠ "" ∧ c ≠ "."

namespace EntryLayout

def isDir (e : EntryLayout) : Bool := e.central.name.endsWith '/' || e.central.name.endsWith '\\'

/-- The components of the entry's name. -/
def comps (e : EntryLayout) : List String := components e.central.name

end EntryLayout

/-- The loop state of `build_tree`: the nodes so far, and joined path → node id
(latest insertion first). -/
structure TreeBuild where
  nodes : List Node
  byPath : List (String × Nat)
deriving DecidableEq, Repr

/-- The synthetic root. -/
def rootNode : Node :=
  { entryIdx := none, name := [], kind := .dir, size := 0
    modified := none, accessed := none, born := none, children := [] }

/-- A directory that a path implies. -/
def impliedNode (comp : String) : Node :=
  { entryIdx := none, name := nameBytes comp, kind := .dir, size := 0
    modified := none, accessed := none, born := none, children := [] }

/-- The node of an entry whose path is new. -/
def leafNode (layout : EntryLayout) (comp : String) : Node :=
  { entryIdx := some layout.index
    name := nameBytes comp
    kind := if layout.isDir then .dir else .file
    size := if layout.isDir then 0 else layout.central.uncompressedSize
    modified := (extraTimes layout.extra).1
    accessed := (extraTimes layout.extra).2.1
    born := (extraTimes layout.extra).2.2
    children := [] }

/-- A node that exists keeps its identity; the first entry recorded at its path
becomes its backing entry. -/
def Node.attach (layout : EntryLayout) (n : Node) : Node :=
  if n.entryIdx.isNone then
    { n with
      entryIdx := some layout.index
      modified := (extraTimes layout.extra).1
      accessed := (extraTimes layout.extra).2.1
      born := (extraTimes layout.extra).2.2 }
  else n

def pushChild (nodes : List Node) (parentId child : Nat) : List Node :=
  nodes.modify parentId fun n => { n with children := n.children ++ [child] }

namespace TreeBuild

def start : TreeBuild := { nodes := [rootNode], byPath := [("", 0)] }

/-- A new node at the joined path `acc`. -/
def insert (t : TreeBuild) (parentId : Nat) (acc : String) (node : Node) : TreeBuild :=
  { nodes := pushChild (t.nodes ++ [node]) parentId t.nodes.length
    byPath := (acc, t.nodes.length) :: t.byPath }

/-- The loop over the components of one name; `acc` is the joined path so far. -/
def insertComps (layout : EntryLayout) :
    List String → (parentId : Nat) → (acc : String) → TreeBuild → TreeBuild
  | [], _, _, t => t
  | comp :: rest, parentId, acc, t =>
    let acc := (if acc = "" then acc else acc.push '/') ++ comp
    if rest = [] then
      match t.byPath.lookup acc with
      | some existing => { t with nodes := t.nodes.modify existing (Node.attach layout) }
      | none => t.insert parentId acc (leafNode layout comp)
    else
      match t.byPath.lookup acc with
      | some existing => insertComps layout rest existing acc t
      | none => insertComps layout rest t.nodes.length acc (t.insert parentId acc (impliedNode comp))

/-- One round of the loop over the entries. A name without components names no
addressable node. -/
def addEntry (t : TreeBuild) (layout : EntryLayout) : TreeBuild :=
  insertComps layout layout.comps 0 "" t

end TreeBuild

/-- Derive the directory tree from the flat central directory. -/
def buildTree (layouts : List EntryLayout) : List Node :=
  (layouts.foldl TreeBuild.addEntry TreeBuild.start).nodes

/-! ## The mounted archive -/

/-- `map_err`. -/
def mapErr : ZipCoreError → VfsError
  | .io source => .io "zip read" source
  | .format .noEocd =>
    .bootstrap "zip mount" "no End Of Central Directory record (not a ZIP archive)"
  | .unsupportedMethod method => .unsupported "zip" (ZipCoreError.unsupportedMethod method).display
  | .unsupportedEncryption entry reason =>
    .unsupported "zip" (ZipCoreError.unsupportedEncryption entry reason).display
  | .encryptedNoPassword entry =>
    .unsupported "zip" (ZipCoreError.encryptedNoPassword entry).display
  | .wrongPassword entry => .unsupported "zip" (ZipCoreError.wrongPassword entry).display
  | .spannedArchive entry disk => .unsupported "zip" (ZipCoreError.spannedArchive entry disk).display
  | other => .decode "zip" 0 other.display []

/-- A result of the archive as a result of the file system. -/
def mapFault : Fault ZipCoreError → Fault VfsError
  | .panic => .panic
  | .error e => .error (mapErr e)

/-- The archive and the decoded contents by node id (latest insertion first). -/
structure Inner where
  archive : ZipArchive
  cache : List (Nat × Bytes)
deriving DecidableEq

/-- A mounted ZIP archive. -/
structure ZipVfs where
  inner : Inner
  nodes : List Node
deriving DecidableEq

def indexOf : FileId → Except VfsError Nat
  | .opaqueId n => .ok n
  | .other debug => .error (.unsupported "zip file-id" debug)

def requireDefaultStream : StreamId → Except VfsError Unit
  | .default => .ok ()
  | .other debug => .error (.unsupported "zip stream" debug)

def notADirectory (n : Nat) : VfsError := .decode "zip" 0 s!"node {n} is not a directory" []

namespace ZipVfs

/-- Open a ZIP archive. -/
def «open» (reader : Source) : Res VfsError ZipVfs :=
  match ZipArchive.new reader with
  | .error e => .error (mapFault e)
  | .ok archive =>
    match archive.structuralView with
    | (.error e, _) => .error (mapFault e)
    | (.ok layouts, archive) => .ok { inner := { archive, cache := [] }, nodes := buildTree layouts }

def root : FileId := .opaqueId 0

def nodeOf (v : ZipVfs) (id : FileId) : Except VfsError Node := do
  let idx ← indexOf id
  match v.nodes[idx]? with
  | some node => return node
  | none => throw (.unsupported "zip file-id" s!"Opaque({idx}) out of range")

/-- The entries of a directory. -/
def readDir (v : ZipVfs) (ino : FileId) : Except VfsError (List DirEntry) := do
  let node ← v.nodeOf ino
  if node.kind ≠ .dir then
    throw (notADirectory (← indexOf ino))
  else
    return node.children.filterMap fun child =>
      v.nodes[child]?.map fun c => { name := c.name, id := .opaqueId child, kind := c.kind }

/-- The child of `parent` with the given name. -/
def lookup (v : ZipVfs) (parent : FileId) (name : Bytes) : Except VfsError (Option FileId) := do
  let node ← v.nodeOf parent
  if node.kind ≠ .dir then
    throw (notADirectory (← indexOf parent))
  else
    return (node.children.find? fun child =>
      v.nodes[child]?.any fun c => decide (c.name = name)).map FileId.opaqueId

def «meta» (v : ZipVfs) (ino : FileId) : Except VfsError FsMeta := do
  let idx ← indexOf ino
  let node ← v.nodeOf ino
  return {
    ino := idx, kind := node.kind, size := node.size, nlink := 1
    times := {
      modified := node.modified, accessed := node.accessed, changed := none, born := node.born } }

def extents (v : ZipVfs) (ino : FileId) (stream : StreamId) : Except VfsError (List ByteRun) := do
  let node ← v.nodeOf ino
  requireDefaultStream stream
  if node.size = 0 then
    return []
  else
    return [{ imageOffset := 0, len := node.size }]

/-- The archive's reader moved. -/
def setReader (v : ZipVfs) (reader : Source) : ZipVfs :=
  { v with inner := { v.inner with archive := { v.inner.archive with reader } } }

/-- The decoded bytes were put into the cache. -/
def remember (v : ZipVfs) (nodeId : Nat) (bytes : Bytes) : ZipVfs :=
  { v with inner := { v.inner with cache := (nodeId, bytes) :: v.inner.cache } }

/-- The decoded bytes of a node backed by entry `entryIdx`, from the cache or
decoded now and cached. -/
def content (k : Crates) (v : ZipVfs) (nodeId entryIdx : Nat) : Res VfsError Bytes × ZipVfs :=
  match v.inner.cache.lookup nodeId with
  | some data => (.ok data, v)
  | none =>
    match (v.inner.archive.byIndex entryIdx : Opened k) with
    | .error (e, reader) => (.error (mapFault e), v.setReader reader)
    | .ok file =>
      match readToEnd file with
      | (.error e, file) =>
        (Res.err (.io "zip read" e), v.setReader file.decoder.input.base.inner)
      | (.ok bytes, file) =>
        (.ok bytes, (v.setReader file.decoder.input.base.inner).remember nodeId bytes)

/-- The bytes of a node at `off`; a directory reads as nothing. -/
def readNode (k : Crates) (v : ZipVfs) (idx : Nat) (node : Node) (off len : Nat) :
    Res VfsError Bytes × ZipVfs :=
  if node.kind ≠ .file then (.ok [], v)
  else
    match node.entryIdx with
    | none => (.ok [], v)
    | some entryIdx =>
      match v.content k idx entryIdx with
      | (.error e, v) => (.error e, v)
      | (.ok data, v) =>
        if data.length ≤ off then (.ok [], v)
        else (.ok (slice data off (min (data.length - off) len)), v)

/-- Read up to `len` bytes of a node at `off`: what is written to the front of the
buffer. -/
def readAt (k : Crates) (v : ZipVfs) (ino : FileId) (stream : StreamId) (off len : Nat) :
    Res VfsError Bytes × ZipVfs :=
  match indexOf ino with
  | .error e => (Res.err e, v)
  | .ok idx =>
    match requireDefaultStream stream with
    | .error e => (Res.err e, v)
    | .ok () =>
      match v.nodeOf ino with
      | .error e => (Res.err e, v)
      | .ok node => v.readNode k idx node off len

end ZipVfs

end ZipForensic
