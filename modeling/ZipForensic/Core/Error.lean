import ZipForensic.Stream.ReadM

/-!
# Errors, checked arithmetic, and the reader an archive is parsed from

The error types of `core/src/lib.rs` with their payloads, and the two monads the
model of the reader is written in:

- `Res`: a result, or a `Fault` — a typed error, or a *panic*. Additions and
  subtractions on `u64`/`usize` that the source writes with `+` and `-` go
  through `addU64` and `subU64`, which panic where the source's operation leaves
  its range (an overflow panic in a debug build, a wrapped value in a release
  build). Sizes and offsets are natural numbers, so nothing wraps silently here.
- `ArchiveM`: computations over the archive's seekable reader, which keep its
  state on every outcome.
-/

namespace ZipForensic

/-- ZIP compression method (archive.rs, `CompressionMethod`). -/
inductive CompressionMethod
  | stored | deflated | deflate64 | bzip2 | lzma | zstd | xz
  | shrunk | reduced | imploded | dclImploded | ibmCmpsc | ibmTerse | ibmLz77
  | mp3 | jpeg | wavPack | ppmd
  | unknown (raw : Nat)
deriving DecidableEq, Repr

namespace CompressionMethod

def fromU16 (raw : Nat) : CompressionMethod :=
  match raw with
  | 0 => stored
  | 8 => deflated
  | 9 => deflate64
  | 12 => bzip2
  | 14 => lzma
  | 93 => zstd
  | 95 => xz
  | 1 => shrunk
  | 2 | 3 | 4 | 5 => reduced
  | 6 => imploded
  | 10 => dclImploded
  | 16 => ibmCmpsc
  | 18 => ibmTerse
  | 19 => ibmLz77
  | 94 => mp3
  | 96 => jpeg
  | 97 => wavPack
  | 98 => ppmd
  | other => unknown other

/-- `{:?}` of a method. -/
def debug : CompressionMethod → String
  | stored => "Stored"
  | deflated => "Deflated"
  | deflate64 => "Deflate64"
  | bzip2 => "Bzip2"
  | lzma => "Lzma"
  | zstd => "Zstd"
  | xz => "Xz"
  | shrunk => "Shrunk"
  | reduced => "Reduced"
  | imploded => "Imploded"
  | dclImploded => "DclImploded"
  | ibmCmpsc => "IbmCmpsc"
  | ibmTerse => "IbmTerse"
  | ibmLz77 => "IbmLz77"
  | mp3 => "Mp3"
  | jpeg => "Jpeg"
  | wavPack => "WavPack"
  | ppmd => "Ppmd"
  | unknown raw => s!"Unknown({raw})"

end CompressionMethod

/-- Structural defects in a ZIP container (lib.rs, `FormatError`). -/
inductive FormatError
  | truncated
  | noEocd
  | badSignature (what : String) (offset : Nat)
  | zip64Unsupported
  | zip64Inconsistent
  | centralDirOutOfRange (cdOffset cdSize : Nat)
  | tooManyEntries (n : Nat)
deriving DecidableEq, Repr

mutual

/-- Errors from opening or reading a ZIP entry (lib.rs, `ZipCoreError`). -/
inductive ZipCoreError
  | io (source : IoError)
  | format (source : FormatError)
  | unsupportedMethod (method : CompressionMethod)
  | crcMismatch (entry : String) (expected actual : UInt32)
  | encryptedNoPassword (entry : String)
  | wrongPassword (entry : String)
  | unsupportedEncryption (entry reason : String)
  | entryNotFound (name : String)
  | indexOutOfBounds (i : Nat)
  | spannedArchive (entry : String) (disk : Nat)
  | malformed (entry reason : String)

/-- `std::io::Error`: the kinds raised on these paths, and `Error::other` around
a text or around a `ZipCoreError`. -/
inductive IoError
  | unexpectedEof (msg : String)
  | invalidData (msg : String)
  | other (msg : String)
  | wrapped (source : ZipCoreError)

end

deriving instance DecidableEq for ZipCoreError
deriving instance DecidableEq for IoError
deriving instance Repr for ZipCoreError
deriving instance Repr for IoError

namespace IoError

/-- What `read_exact` reports for a stream that ends inside the buffer. -/
def shortRead : IoError := .unexpectedEof "failed to fill whole buffer"

end IoError

/-- How a computation can fail: with a typed error, or by a panic. -/
inductive Fault (ε : Type)
  | error (e : ε)
  | panic
deriving DecidableEq, Repr

/-- A result of the source's `Result`, with panics made explicit. -/
abbrev Res (ε α : Type) := Except (Fault ε) α

namespace Res

variable {ε α : Type}

/-- `Err(e)`. -/
def err (e : ε) : Res ε α := .error (.error e)

/-- A result without panics. -/
def lift : Except ε α → Res ε α
  | .ok a => .ok a
  | .error e => err e

@[simp] theorem bind_ok {β : Type} (a : α) (f : α → Except ε β) : (Except.ok a >>= f) = f a := rfl

@[simp] theorem bind_error {β : Type} (e : ε) (f : α → Except ε β) :
    (Except.error e >>= f) = .error e := rfl

/-- Inversion of a sequence that succeeded. -/
theorem of_bind_ok {β : Type} {x : Except ε α} {f : α → Except ε β} {b : β}
    (h : (x >>= f) = .ok b) : ∃ a, x = .ok a ∧ f a = .ok b := by
  cases x with
  | error e => cases h
  | ok a => exact ⟨a, rfl, h⟩

/-- Inversion of a sequence that failed. -/
theorem of_bind_error {β : Type} {x : Except ε α} {f : α → Except ε β} {e : ε}
    (h : (x >>= f) = .error e) : x = .error e ∨ ∃ a, x = .ok a ∧ f a = .error e := by
  cases x with
  | error e' =>
    obtain rfl : e' = e := Except.error.inj h
    exact .inl rfl
  | ok a => exact .inr ⟨a, rfl, h⟩

end Res

/-- The range of `u64` (and of `usize` on the 64-bit targets the crates are built for). -/
def u64Max : Nat := 2 ^ 64 - 1

/-- The range of buffer lengths and of file lengths. -/
def isizeMax : Nat := 2 ^ 63 - 1

variable {ε : Type}

/-- `a + b` on `u64`. -/
def addU64 (a b : Nat) : Res ε Nat :=
  if a + b ≤ u64Max then .ok (a + b) else .error .panic

/-- `a - b` on `u64`. -/
def subU64 (a b : Nat) : Res ε Nat :=
  if b ≤ a then .ok (a - b) else .error .panic

/-- `&b[start..]`. -/
def sliceFrom (b : Bytes) (start : Nat) : Res ε Bytes :=
  if start ≤ b.length then .ok (b.drop start) else .error .panic

/-- `&b[start..stop]`. -/
def sliceRange (b : Bytes) (start stop : Nat) : Res ε Bytes :=
  if start ≤ stop ∧ stop ≤ b.length then .ok (slice b start (stop - start)) else .error .panic

theorem sliceFrom_eq {b : Bytes} {start : Nat} (h : start ≤ b.length) :
    (sliceFrom b start : Res ε Bytes) = .ok (b.drop start) := if_pos h

theorem sliceRange_eq {b : Bytes} {start n : Nat} (h : start + n ≤ b.length) :
    (sliceRange b start (start + n) : Res ε Bytes) = .ok (slice b start n) := by
  rw [sliceRange, if_pos ⟨Nat.le_add_right _ _, h⟩, Nat.add_sub_cancel_left]

theorem addU64_eq {a b : Nat} (h : a + b ≤ u64Max) : (addU64 a b : Res ε Nat) = .ok (a + b) :=
  if_pos h

theorem of_addU64_ok {a b c : Nat} (h : (addU64 a b : Res ε Nat) = .ok c) :
    a + b ≤ u64Max ∧ c = a + b := by
  unfold addU64 at h
  split_ifs at h with hrange
  exact ⟨hrange, (Except.ok.inj h).symm⟩

theorem subU64_eq {a b : Nat} (h : b ≤ a) : (subU64 a b : Res ε Nat) = .ok (a - b) :=
  if_pos h

/-- The seekable reader an archive is opened on. -/
abbrev Source := Cursor IoError

/-- Computations over the archive's reader. -/
abbrev ArchiveM (α : Type) := ReadM Source (Fault ZipCoreError) α

namespace ArchiveM

export ReadM (runOn runOn_pure runOn_throw runOn_bind runOn_bind_ok runOn_bind_error)

variable {α β : Type}

/-- A result that does not touch the reader. -/
def ofRes (x : Res ZipCoreError α) : ArchiveM α := ReadM.ofExcept x

@[simp] theorem runOn_ofRes (x : Res ZipCoreError α) (c : Source) : runOn (ofRes x) c = (x, c) := rfl

/-- `Err(e)`. -/
def err (e : ZipCoreError) : ArchiveM α := throw (.error e)

@[simp] theorem runOn_err (e : ZipCoreError) (c : Source) :
    runOn (err e : ArchiveM α) c = (.error (.error e), c) := rfl

/-- `reader.seek(SeekFrom::Start(off))`, on a cursor over bytes. A file answers `EINVAL` for an
offset above `i64::MAX`, where a cursor fails with the next read: the errors differ in kind. -/
def seekStart (off : Nat) : ArchiveM Unit := fun c => (.ok (), { c with pos := off })

@[simp] theorem runOn_seekStart (off : Nat) (c : Source) :
    runOn (seekStart off) c = (.ok (), { c with pos := off }) := rfl

/-- `reader.seek(SeekFrom::End(0))`: the length of the file. -/
def seekEnd : ArchiveM Nat := fun c => (.ok c.bytes.length, { c with pos := c.bytes.length })

@[simp] theorem runOn_seekEnd (c : Source) :
    runOn seekEnd c = (.ok c.bytes.length, { c with pos := c.bytes.length }) := rfl

/-- `reader.read_exact(&mut buf)` on a buffer of `n` bytes. A cursor that is too
short is left at its end. -/
def readExact (n : Nat) : ArchiveM Bytes := fun c =>
  if c.pos + n ≤ c.bytes.length then
    (.ok (slice c.bytes c.pos n), { c with pos := c.pos + n })
  else
    (.error (.error (.io .shortRead)), { c with pos := c.bytes.length })

theorem runOn_readExact {n : Nat} {c : Source} (h : c.pos + n ≤ c.bytes.length) :
    runOn (readExact n) c = (.ok (slice c.bytes c.pos n), { c with pos := c.pos + n }) :=
  if_pos h

theorem runOn_readExact_short {n : Nat} {c : Source} (h : ¬ c.pos + n ≤ c.bytes.length) :
    runOn (readExact n) c =
      (.error (.error (.io .shortRead)), { c with pos := c.bytes.length }) :=
  if_neg h

end ArchiveM

end ZipForensic
