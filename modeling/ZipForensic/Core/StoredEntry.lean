import ZipForensic.Core.Deflate64Seek

/-!
# Random access to one entry (lib.rs)

`openEntry` decides how an entry is addressed — stored blocks, Deflate64
checkpoints, or a full decode per read — and `StoredZipEntry.readAt` serves a
positioned read from that layout. A path is modelled by the bytes of the file it
names.
-/

namespace ZipForensic

/-- One byte-addressable stored (`BTYPE=00`) deflate block within an entry. -/
structure StoredBlock where
  /-- Offset of this block's first byte in the uncompressed entry. -/
  uncompStart : Nat
  len : Nat
  /-- Offset in the backing file where this block's raw bytes begin. -/
  fileOffset : Nat
deriving DecidableEq, Repr

/-- How an entry is addressed for random access. -/
inductive Layout
  | storedBlocks (blocks : List StoredBlock)
  | deflate64 (index : Deflate64Index)
  | fallback (path : Bytes) (name : String)
deriving DecidableEq, Repr

/-- A random-access view over one uncompressed ZIP entry. -/
structure StoredZipEntry where
  file : Bytes
  uncompressedSize : Nat
  layout : Layout
deriving DecidableEq, Repr

/-! ## The block index -/

/-- One round per block; every round moves `foff` forward by at least the five
header bytes. -/
def indexStoredBlocksLoop (file : Bytes) (name : String) (endOff : Nat) :
    Nat → (foff uoff : Nat) → List StoredBlock →
      Res ZipCoreError (Option (List StoredBlock × Nat))
  | 0, _, _, _ => .ok none
  | fuel + 1, foff, uoff, blocks => do
    let dataOff ← addU64 foff 5
    if endOff < dataOff then
      -- ran out of stream before a final block
      return none
    else
      match preadExact file 5 foff with
      | .error .panic => .error .panic
      | .error (.error e) => Res.err (.io e)
      | .ok hdr =>
        let bfinal := hdr.getD 0 0 &&& 1
        let btype := (hdr.getD 0 0 >>> 1) &&& 0b11
        if btype ≠ 0 then
          -- a compressed block: not byte-addressable
          return none
        else
          let len := leNat (slice hdr 1 2)
          let nlen := leNat (slice hdr 3 2)
          -- `!len` on `u16`
          if nlen ≠ 0xFFFF - len then
            Res.err (.malformed name s!"stored block LEN/NLEN mismatch at file offset {foff}")
          else
            let next ← addU64 dataOff len
            if endOff < next then
              Res.err (.malformed name
                s!"stored block overruns compressed data at offset {dataOff}")
            else
              let blocks := blocks ++ [⟨uoff, len, dataOff⟩]
              let uoff ← addU64 uoff len
              if bfinal = 1 then
                return some (blocks, uoff)
              else
                indexStoredBlocksLoop file name endOff fuel next uoff blocks

/-- Walk a deflate stream's block headers: an index when every block is stored,
`none` the moment a Huffman block appears. -/
def indexStoredBlocks (file : Bytes) (name : String)
    (dataStart compressedSize uncompressedSize : Nat) :
    Res ZipCoreError (Option (List StoredBlock)) := do
  let endOff ← addU64 dataStart compressedSize
  match ← indexStoredBlocksLoop file name endOff (compressedSize / 5 + 1) dataStart 0 [] with
  | none => return none
  | some (blocks, uoff) =>
    if uoff ≠ uncompressedSize then
      Res.err (.malformed name
        s!"stored-block total {uoff} != entry uncompressed size {uncompressedSize}")
    else
      return some blocks

/-! ## Positioned reads -/

namespace StoredZipEntry

/-- The copy loop of the stored-block layout: from `cur` up to `wantEnd`, one
block (or part of one) a round. -/
def readBlocksLoop (file : Bytes) (blocks : List StoredBlock) (wantEnd : Nat) :
    Nat → Nat → Bytes → Res IoError Bytes
  | 0, _, filled => .ok filled
  | fuel + 1, cur, filled =>
    if cur < wantEnd then
      -- first block whose uncompressed span extends past `cur`
      let bi := partitionPoint (fun b => decide (b.uncompStart + b.len ≤ cur)) blocks
      match blocks[bi]? with
      | none => .ok filled
      | some b => do
        let within ← subU64 cur b.uncompStart
        let avail ← subU64 b.len within
        let n := min avail (wantEnd - cur)
        let bytes ← preadExact file n (← addU64 b.fileOffset within)
        readBlocksLoop file blocks wantEnd fuel (cur + n) (filled ++ bytes)
    else .ok filled

/-- `Vec::with_capacity(n)` on bytes: it panics above `isize::MAX`, and ends the process
where the allocator refuses. -/
def withCapacity (k : Crates) (n : Nat) : Res IoError Unit :=
  if k.Grants n then .ok () else .error .panic

/-- The full-decompress path. -/
def readFallback (k : Crates) (path : Bytes) (name : String)
    (uncompressedSize offset total : Nat) : Res IoError Bytes :=
  match ZipArchive.new ⟨path, 0⟩ with
  | .error .panic => .error .panic
  | .error (.error e) => Res.err (.wrapped e)
  | .ok archive =>
    match (archive.byName name : Opened k) with
    | .error (.panic, _) => .error .panic
    | .error (.error e, _) => Res.err (.wrapped e)
    | .ok entry => do
      withCapacity k uncompressedSize
      match (readToEnd entry).1 with
      | .error e => Res.err e
      | .ok all => sliceRange all offset (min (offset + total) all.length)

/-- Read up to `len` bytes of the uncompressed entry starting at `offset`: what is
written to the front of the buffer. -/
def readAt (k : Crates) (e : StoredZipEntry) (len offset : Nat) : Res IoError Bytes :=
  if e.uncompressedSize ≤ offset ∨ len = 0 then .ok []
  else do
    let wantEnd := min (← addU64 offset len) e.uncompressedSize
    let total ← subU64 wantEnd offset
    match e.layout with
    | .storedBlocks blocks => readBlocksLoop e.file blocks wantEnd total offset []
    | .deflate64 index => index.readAt k e.file len offset
    | .fallback path name => readFallback k path name e.uncompressedSize offset total

end StoredZipEntry

/-- The layout of a Deflate entry. -/
def deflateLayout (file : Bytes) (name : String)
    (dataStart compressedSize uncompressedSize : Nat) : Res ZipCoreError Layout := do
  match ← indexStoredBlocks file name dataStart compressedSize uncompressedSize with
  | some blocks => return .storedBlocks blocks
  | none => return .fallback file name

/-- The layout of a Deflate64 entry. -/
def deflate64Layout (k : Crates) (file : Bytes) (name : String)
    (dataStart compressedSize uncompressedSize : Nat) : Res ZipCoreError Layout := do
  match ← indexStoredBlocks file name dataStart compressedSize uncompressedSize with
  | some blocks => return .storedBlocks blocks
  | none =>
    let index ← Deflate64Index.buildIndexCapped k file name dataStart compressedSize
      uncompressedSize defaultCheckpointInterval {}
    return .deflate64 index

/-- Open a single entry of a ZIP archive for random access. -/
def openEntry (k : Crates) (path : Bytes) (name : String) : Res ZipCoreError StoredZipEntry := do
  let archive ← ZipArchive.new ⟨path, 0⟩
  match (archive.byName name : Opened k) with
  | .error (e, _) => .error e
  | .ok entry =>
    let uncompressedSize := entry.size
    let compressedSize := entry.compressedSize
    let dataStart := entry.dataStart
    let layout ←
      match entry.compression with
      | .stored =>
        -- a method-0 entry is one contiguous run of raw bytes
        pure (.storedBlocks [⟨0, uncompressedSize, dataStart⟩])
      | .deflated => deflateLayout path name dataStart compressedSize uncompressedSize
      | .deflate64 => deflate64Layout k path name dataStart compressedSize uncompressedSize
      | _ => pure (.fallback path name)
    return { file := path, uncompressedSize, layout }

end ZipForensic
