import ZipForensic.Core.Error

/-!
# The crates the reader is built on

`Crates` gathers the third-party code `zip-core` calls, as parameters of the
model: the CRC-32 hasher, the streaming decompressors (as `Codec` machines), the
one-shot LZMA and XZ decompressors, the inflater behind the Deflate64 seek index,
and the cryptographic primitives; and with them the allocator of the process. What a
result needs of one of them is a hypothesis of that result.
-/

namespace ZipForensic

/-- What a one-shot decompressor does with its input: the chunks it writes to
its sink, in order, and the text of the error it then ends with, if any. -/
structure OneShot where
  writes : List Bytes
  failure : Option String

/-- What `InflaterManaged::inflate` reports about one call. -/
structure InflateResult (σ : Type) where
  next : σ
  bytesConsumed : Nat
  written : Bytes
  dataError : Bool

/-- A position of `InflaterManaged::checkpoint`. -/
structure CheckpointPosition where
  inputBytesToSkip : Nat
  outputBytesAlreadyReturned : Nat

/-- The `deflate64` crate's `InflaterManaged`. -/
structure Inflater where
  State : Type
  new : State
  /-- `inflate(input, output)` with room for `n` bytes in `output`. -/
  inflate : State → Bytes → Nat → InflateResult State
  finished : State → Bool
  checkpoint : State → Option (Bytes × CheckpointPosition)
  restoreFromCheckpoint : Bytes → Option (State × CheckpointPosition)

/-- The third-party code of `zip-core`, and what it runs on. -/
structure Crates where
  /-- `crc32fast`: the checksum of everything a hasher was fed. -/
  crc32 : Bytes → UInt32
  /-- `flate2::read::DeflateDecoder`. -/
  flate2 : Codec IoError
  /-- `deflate64::Deflate64Decoder` over its `BufReader`. -/
  deflate64 : Codec IoError
  /-- `bzip2_rs::DecoderReader`. -/
  bzip2 : Codec IoError
  /-- `ruzstd::decoding::StreamingDecoder`; its constructor reads the frame header. -/
  ruzstd : Codec IoError
  /-- `to_string()` of a `ruzstd` constructor error. -/
  ruzstdErrorText : IoError → String
  /-- `lzma_rs::lzma_decompress_with_options` with the unpacked size provided. -/
  lzma : Nat → Bytes → OneShot
  /-- `lzma_rs::xz_decompress`. -/
  xz : Bytes → OneShot
  /-- `to_string()` of an `lzma_rs` error around an error of its sink. -/
  lzmaSinkErrorText : IoError → String
  /-- `deflate64::InflaterManaged`. -/
  inflater : Inflater
  /-- `pbkdf2_hmac::<Sha1>(password, salt, rounds, ..)` into `len` bytes. -/
  pbkdf2HmacSha1 : (password salt : Bytes) → (rounds len : Nat) → Bytes
  /-- The AES-CTR keystream of a key, counter little-endian and starting at 1. -/
  aesCtr : (key : Bytes) → Nat → UInt8
  /-- HMAC-SHA1 of a message. -/
  hmacSha1 : (key message : Bytes) → Bytes
  sha1 : Bytes → Bytes
  /-- One AES block decryption under a 16-, 24- or 32-byte key. -/
  aesDecryptBlock : (key block : Bytes) → Bytes
  /-- Whether the global allocator grants a buffer of so many bytes. -/
  allocates : Nat → Bool

/-- `Vec::with_capacity` of so many bytes returns. -/
def Crates.Grants (k : Crates) (n : Nat) : Prop := n = 0 ∨ n ≤ isizeMax ∧ k.allocates n = true

instance (k : Crates) (n : Nat) : Decidable (k.Grants n) := inferInstanceAs (Decidable (_ ∨ _))

end ZipForensic
