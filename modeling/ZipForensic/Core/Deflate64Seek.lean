import ZipForensic.Core.Archive
import ZipForensic.Search.PartitionPoint

/-!
# Checkpointed random access for Deflate64 (deflate64_seek.rs)

A genuinely compressed Deflate64 member is decoded once to capture inflater
checkpoints at fixed output intervals; a read restores the nearest one and skips
forward. Positioned reads go to the file's bytes (`preadExact`).
-/

namespace ZipForensic

/-- `read_exact_at`: `n` bytes of the file at `offset`. Above `i64::MAX` the error of a real file
is `EINVAL`, not that of a short read. -/
def preadExact (file : Bytes) (n offset : Nat) : Res IoError Bytes :=
  if n = 0 then .ok []
  else if offset + n ≤ file.length then .ok (slice file offset n)
  else Res.err .shortRead

/-- Default spacing, in bytes of decompressed output, between checkpoints. -/
def defaultCheckpointInterval : Nat := 8 * 1024 * 1024
/-- Ceiling on total decompressed size while building the index. -/
def maxDecode : Nat := 4 * 1024 * 1024 * 1024
/-- Ceiling on the total bytes held by the checkpoint index. -/
def maxIndexBytes : Nat := 512 * 1024 * 1024
/-- Working buffer sizes for feeding compressed input and draining output. -/
def ioChunk : Nat := 128 * 1024

/-- One saved decoder state. -/
structure Checkpoint where
  outputOffset : Nat
  inputOffset : Nat
  /-- Serialized inflater state (`none`: a fresh inflater). -/
  blob : Option Bytes
deriving DecidableEq, Repr

/-- A checkpoint index over one genuinely-compressed Deflate64 entry. -/
structure Deflate64Index where
  dataEnd : Nat
  uncompressedSize : Nat
  checkpoints : List Checkpoint
deriving DecidableEq, Repr

/-- Drives an inflater over a bounded compressed range of the file. `buffered` is
the unconsumed part of the source's `in_buf`. -/
structure RawInflate (k : Crates) where
  file : Bytes
  filePos : Nat
  dataEnd : Nat
  inflater : k.inflater.State
  buffered : Bytes

namespace RawInflate

variable {k : Crates}

/-- Fill the input buffer when it is empty. -/
def refill (r : RawInflate k) : Res IoError (RawInflate k) :=
  if r.buffered = [] then do
    let avail := min (← subU64 r.dataEnd r.filePos) ioChunk
    if 0 < avail then
      let bytes ← preadExact r.file avail r.filePos
      return { r with buffered := bytes, filePos := r.filePos + avail }
    else
      return r
  else
    return r

/-- Produce up to `n` decompressed bytes; `[]` at end of stream. A round that goes
on has consumed input, so the input left bounds the rounds. -/
def readLoop (n : Nat) : Nat → RawInflate k → Res IoError (Bytes × RawInflate k)
  | 0, _ => Res.err (.other "deflate64 stream stalled")
  | fuel + 1, r => do
    let r ← r.refill
    let res := k.inflater.inflate r.inflater r.buffered n
    if res.dataError then
      Res.err (.invalidData "invalid deflate64 stream")
    else
      let r' := { r with inflater := res.next, buffered := r.buffered.drop res.bytesConsumed }
      if 0 < res.written.length then
        return (res.written, r')
      else if k.inflater.finished res.next then
        return ([], r')
      else if r.buffered = [] ∧ res.bytesConsumed = 0 then
        Res.err (.unexpectedEof "unexpected end of deflate64 stream")
      else
        readLoop n fuel r'

def read (n : Nat) (r : RawInflate k) : Res IoError (Bytes × RawInflate k) :=
  if n = 0 then .ok ([], r)
  else readLoop n (r.dataEnd - r.filePos + r.buffered.length + 2) r

end RawInflate

namespace Deflate64Index

variable {k : Crates}

def checkpointCount (index : Deflate64Index) : Nat := index.checkpoints.length

/-- Skip forward from the checkpoint's resume point. -/
def skipLoop : Nat → Nat → RawInflate k → Res IoError (RawInflate k)
  | 0, _, r => .ok r
  | fuel + 1, toSkip, r =>
    if toSkip = 0 then .ok r
    else do
      let (bytes, r) ← r.read (min toSkip ioChunk)
      if bytes = [] then
        Res.err (.other "deflate64 stream truncated")
      else
        skipLoop fuel (← subU64 toSkip bytes.length) r

/-- Fill the caller's buffer. -/
def fillLoop : Nat → Nat → Bytes → RawInflate k → Res IoError Bytes
  | 0, _, filled, _ => .ok filled
  | fuel + 1, want, filled, r =>
    if filled.length < want then do
      let (bytes, r) ← r.read (want - filled.length)
      if bytes = [] then return filled
      else fillLoop fuel want (filled ++ bytes) r
    else .ok filled

def readAt (k : Crates) (index : Deflate64Index) (file : Bytes) (len offset : Nat) :
    Res IoError Bytes :=
  if index.uncompressedSize ≤ offset ∨ len = 0 then .ok []
  else do
    let want := min (← subU64 index.uncompressedSize offset) len
    let ci := partitionPoint (fun c => decide (c.outputOffset ≤ offset)) index.checkpoints
    match index.checkpoints[ci - 1]? with
    | none => .error .panic
    | some cp =>
      let (inflater, startOut) ←
        match cp.blob with
        | none => pure (k.inflater.new, 0)
        | some blob =>
          match k.inflater.restoreFromCheckpoint blob with
          | none => Res.err (.other "deflate64 restore failed")
          | some (state, pos) => pure (state, pos.outputBytesAlreadyReturned)
      -- `debug_assert_eq!`
      if startOut ≠ cp.outputOffset then .error .panic
      else
        let raw : RawInflate k := { file, filePos := cp.inputOffset, dataEnd := index.dataEnd,
                                    inflater, buffered := [] }
        let toSkip ← subU64 offset startOut
        let raw ← skipLoop toSkip toSkip raw
        fillLoop want want [] raw

/-- Safety caps for `buildIndexCapped`. -/
structure Caps where
  maxDecode : Nat := maxDecode
  maxIndexBytes : Nat := maxIndexBytes
deriving DecidableEq, Repr

/-- What the indexing loop carries from one decoded chunk to the next. -/
structure Indexing (k : Crates) where
  checkpoints : List Checkpoint
  lastOutputOffset : Nat
  indexBytes : Nat
  totalOut : Nat
  nextAt : Nat
  raw : RawInflate k

/-- `ZipCoreError::Malformed` for the member. -/
def malformed {α : Type} (name reason : String) : Res ZipCoreError α :=
  Res.err (.malformed name reason)

/-- The text of an `io::Error`. The errors of `RawInflate` are texts; none of them
wraps a `ZipCoreError`. -/
def ioErrorText : IoError → String
  | .unexpectedEof msg => msg
  | .invalidData msg => msg
  | .other msg => msg
  | .wrapped _ => ""

/-- Keep a checkpoint that is further on than the last one, and count its blob. -/
def push (name : String) (dataStart : Nat) (caps : Caps) (s : Indexing k) (blob : Bytes)
    (pos : CheckpointPosition) : Res ZipCoreError (Indexing k) :=
  if s.lastOutputOffset < pos.outputBytesAlreadyReturned then do
    let indexBytes ← addU64 s.indexBytes blob.length
    if caps.maxIndexBytes < indexBytes then
      malformed name s!"deflate64 seek index exceeds the {caps.maxIndexBytes}-byte cap"
    else
      let inputOffset ← addU64 dataStart pos.inputBytesToSkip
      return { s with
        checkpoints :=
          s.checkpoints ++ [⟨pos.outputBytesAlreadyReturned, inputOffset, some blob⟩]
        lastOutputOffset := pos.outputBytesAlreadyReturned
        indexBytes }
  else .ok s

/-- Capture a checkpoint once enough new output has accumulated. -/
def capture (name : String) (dataStart interval : Nat) (caps : Caps) (s : Indexing k) :
    Res ZipCoreError (Indexing k) :=
  if s.totalOut < s.nextAt then .ok s
  else
    match k.inflater.checkpoint s.raw.inflater with
    | none => do
      -- no restorable state at this instant: retry after more output
      let nextAt ← addU64 s.totalOut interval
      return { s with nextAt }
    | some (blob, pos) => do
      let s ← push name dataStart caps s blob pos
      let nextAt ← addU64 (max pos.outputBytesAlreadyReturned s.totalOut) interval
      return { s with nextAt }

/-- Decode to the end. Every chunk is at least one byte and the total is capped,
which bounds the rounds. -/
def buildLoop (name : String) (dataStart interval : Nat) (caps : Caps) :
    Nat → Indexing k → Res ZipCoreError (Indexing k)
  | 0, s => .ok s
  | fuel + 1, s =>
    match s.raw.read ioChunk with
    | .error .panic => .error .panic
    | .error (.error e) =>
      malformed name s!"deflate64 decode failed while indexing: {ioErrorText e}"
    | .ok ([], raw) => .ok { s with raw }
    | .ok (b :: bs, raw) => do
      let totalOut ← addU64 s.totalOut (b :: bs).length
      if caps.maxDecode < totalOut then
        malformed name s!"decompressed output exceeds the {caps.maxDecode}-byte cap"
      else
        let s ← capture name dataStart interval caps { s with totalOut, raw }
        buildLoop name dataStart interval caps fuel s

/-- Decode the member once, capturing a checkpoint every ~`interval` output bytes. -/
def buildIndexCapped (k : Crates) (file : Bytes) (name : String)
    (dataStart compressedSize uncompressedSize interval : Nat) (caps : Caps) :
    Res ZipCoreError Deflate64Index := do
  let interval := max interval 1
  let dataEnd ← addU64 dataStart compressedSize
  let raw : RawInflate k := { file, filePos := dataStart, dataEnd,
                              inflater := k.inflater.new, buffered := [] }
  let s ← buildLoop name dataStart interval caps (caps.maxDecode + 2)
    { checkpoints := [⟨0, dataStart, none⟩], lastOutputOffset := 0, indexBytes := 0,
      totalOut := 0, nextAt := interval, raw }
  if s.totalOut ≠ uncompressedSize then
    malformed name
      s!"deflate64 decoded {s.totalOut} bytes != entry uncompressed size {uncompressedSize}"
  else
    return { dataEnd, uncompressedSize, checkpoints := s.checkpoints }

end Deflate64Index

end ZipForensic
