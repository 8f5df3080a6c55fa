import ZipForensic.Core.Crates
import ZipForensic.Core.StrongCrypto

/-!
# Decompression dispatch (codec.rs)

Stored, Deflate and Deflate64 stay streaming; Bzip2, Zstd, LZMA and XZ decode
once into a buffer when the entry is opened. A `Decoder` keeps the reader it
drained next to the buffer: in the source that reader is dropped, which gives
the archive's reader back.
-/

namespace ZipForensic

open ReadM (mapBuilt)

/-- Upper bound on the output of a buffered (one-shot) codec. -/
def maxBufferedDecode : Nat := 4 * 1024 * 1024 * 1024

/-- A per-entry decoder over the (possibly decrypted) compressed stream. -/
inductive Decoder (k : Crates) (σ : Type)
  /-- Method 0: raw passthrough. -/
  | stored (input : σ)
  /-- Method 8. -/
  | deflate (dec : Pipe k.flate2 σ)
  /-- Method 9. -/
  | deflate64 (dec : Pipe k.deflate64 σ)
  /-- Methods 12/14/93/95: decompressed once into a buffer, then served. -/
  | buffered (decoded : Window IoError) (input : σ)

variable {k : Crates} {σ τ : Type}

/-- Read a decoder fully, but fail loud rather than allocate past `cap` bytes. -/
def readCapped [Read IoError σ] (cap : Nat) (r : σ) : Except IoError Bytes × σ :=
  match readToEnd (⟨r, cap + 1⟩ : Take σ) with
  | (.error e, t) => (.error e, t.inner)
  | (.ok out, t) =>
    if cap < out.length then
      (.error (.other s!"decompressed output exceeds the {cap}-byte cap"), t.inner)
    else
      (.ok out, t.inner)

/-- `Write for CappedWriter`: the sink's buffer after one write. -/
def cappedWrite (cap : Nat) (buf data : Bytes) : Except IoError Bytes :=
  if cap < buf.length + data.length then
    .error (.other s!"decompressed output exceeds the {cap}-byte cap")
  else
    .ok (buf ++ data)

/-- Run a one-shot decompressor into a `CappedWriter`. -/
def decodeCapped (k : Crates) (cap : Nat) (shot : OneShot) : Except IoError Bytes :=
  match shot.writes.foldlM (cappedWrite cap) [] with
  | .error e => .error (.other (k.lzmaSinkErrorText e))
  | .ok buf =>
    match shot.failure with
    | some text => .error (.other text)
    | none => .ok buf

/-- Decode a ZIP method-14 LZMA entry: a 4-byte ZIP wrapper (SDK version and
properties length), then the standard `[5 props][stream]`. -/
def decodeZipLzma (k : Crates) (data : Bytes) (expectedSize : Nat) : Except ZipCoreError Bytes :=
  if data.length < 4 then
    .error (.format .truncated)
  else
    let propsLen := leNat (slice data 2 2)
    if propsLen ≠ 5 then
      .error (.malformed "<lzma>" s!"unexpected LZMA properties length {propsLen} (expected 5)")
    else
      match decodeCapped k maxBufferedDecode (k.lzma expectedSize (data.drop 4)) with
      | .ok out => .ok out
      | .error e => .error (.io e)

namespace Decoder

variable [Read IoError σ] [Read IoError τ]

/-- Drain a decompressor into a buffer. -/
def drain {K : Codec IoError} (p : Pipe K σ) : Except (ZipCoreError × σ) (Decoder k σ) :=
  match readCapped maxBufferedDecode p with
  | (.ok decoded, p) => .ok (.buffered ⟨decoded⟩ p.inner)
  | (.error e, p) => .error (.io e, p.inner)

/-- Read the input to its end and decode it with a one-shot function. -/
def drainWith (decode : Bytes → Except ZipCoreError Bytes) (input : σ) :
    Except (ZipCoreError × σ) (Decoder k σ) :=
  match readToEnd input with
  | (.error e, input) => .error (.io e, input)
  | (.ok raw, input) =>
    match decode raw with
    | .ok decoded => .ok (.buffered ⟨decoded⟩ input)
    | .error e => .error (e, input)

/-- `Decoder::new`. -/
def new (method : CompressionMethod) (expectedSize : Nat) (input : σ) :
    Except (ZipCoreError × σ) (Decoder k σ) :=
  match method with
  | .stored => .ok (.stored input)
  | .deflated => .ok (.deflate ⟨k.flate2.init, input⟩)
  | .deflate64 => .ok (.deflate64 ⟨k.deflate64.init, input⟩)
  | .bzip2 => drain (⟨k.bzip2.init, input⟩ : Pipe k.bzip2 σ)
  | .zstd =>
    match (⟨k.ruzstd.init, input⟩ : Pipe k.ruzstd σ).call .new with
    | (.error e, p) => .error (.io (.other (k.ruzstdErrorText e)), p.inner)
    | (.ok _, p) => drain p
  | .lzma => drainWith (fun raw => decodeZipLzma k raw expectedSize) input
  | .xz =>
    drainWith (fun raw =>
      match decodeCapped k maxBufferedDecode (k.xz raw) with
      | .ok out => .ok out
      | .error e => .error (.io e)) input
  -- recognized but not decoded — fail loud
  | method => .error (.unsupportedMethod method, input)

instance : Read IoError (Decoder k σ) where
  read n d :=
    match d with
    | .stored r => let (x, r) := read n r; (x, .stored r)
    | .deflate p => let (x, p) := read n p; (x, .deflate p)
    | .deflate64 p => let (x, p) := read n p; (x, .deflate64 p)
    | .buffered decoded input => let (x, w) := read n decoded; (x, .buffered w input)
  avail d :=
    match d with
    | .stored r => avail r
    | .deflate p => avail p
    | .deflate64 p => avail p
    | .buffered decoded _ => avail decoded

/-- The reader below. -/
def input : Decoder k σ → σ
  | .stored r => r
  | .deflate p => p.inner
  | .deflate64 p => p.inner
  | .buffered _ input => input

/-- Replace the reader below. -/
def map (f : σ → τ) : Decoder k σ → Decoder k τ
  | .stored r => .stored (f r)
  | .deflate p => .deflate (p.map f)
  | .deflate64 p => .deflate64 (p.map f)
  | .buffered decoded input => .buffered decoded (f input)

theorem readHom_map {f : σ → τ} (hf : ReadHom f) : ReadHom (map (k := k) f) where
  read_map n d := by
    cases d with
    | stored r =>
      show ((read n (f r)).1, stored (read n (f r)).2) = _
      rw [hf.read_map]
      rfl
    | deflate p =>
      show ((read n (p.map f)).1, deflate (read n (p.map f)).2) = _
      rw [(Pipe.readHom_map hf).read_map]
      rfl
    | deflate64 p =>
      show ((read n (p.map f)).1, deflate64 (read n (p.map f)).2) = _
      rw [(Pipe.readHom_map hf).read_map]
      rfl
    | buffered decoded input => rfl
  avail_map d := by
    cases d with
    | stored r => exact hf.avail_map r
    | deflate p => exact (Pipe.readHom_map hf).avail_map p
    | deflate64 p => exact (Pipe.readHom_map hf).avail_map p
    | buffered decoded input => rfl

theorem readHom_stored : ReadHom (stored : σ → Decoder k σ) := ⟨fun _ _ => rfl, fun _ => rfl⟩

theorem readHom_deflate : ReadHom (deflate : Pipe k.flate2 σ → Decoder k σ) :=
  ⟨fun _ _ => rfl, fun _ => rfl⟩

theorem readHom_deflate64 : ReadHom (deflate64 : Pipe k.deflate64 σ → Decoder k σ) :=
  ⟨fun _ _ => rfl, fun _ => rfl⟩

instance [LawfulRead IoError σ] : LawfulRead IoError (Decoder k σ) where
  read_le n d := by
    cases d with
    | stored r => exact LawfulRead.read_le n r
    | deflate p => exact LawfulRead.read_le n p
    | deflate64 p => exact LawfulRead.read_le n p
    | buffered decoded input => exact LawfulRead.read_le n decoded
  avail_le n d := by
    cases d with
    | stored r => exact LawfulRead.avail_le n r
    | deflate p => exact LawfulRead.avail_le n p
    | deflate64 p => exact LawfulRead.avail_le n p
    | buffered decoded input => exact LawfulRead.avail_le n decoded

variable {f : σ → τ}

theorem readCapped_map {ρ ρ' : Type} [Read IoError ρ] [Read IoError ρ'] {g : ρ → ρ'}
    (hg : ReadHom g) (cap : Nat) (r : ρ) :
    readCapped cap (g r) = ((readCapped cap r).1, g (readCapped cap r).2) := by
  have hend : readToEnd (⟨g r, cap + 1⟩ : Take ρ') =
      ((readToEnd (⟨r, cap + 1⟩ : Take ρ)).1,
        Take.map g (readToEnd (⟨r, cap + 1⟩ : Take ρ)).2) :=
    readToEnd_map (Take.readHom_map hg) (⟨r, cap + 1⟩ : Take ρ)
  rw [readCapped, readCapped, hend]
  rcases readToEnd (⟨r, cap + 1⟩ : Take ρ) with ⟨e | out, t⟩
  · rfl
  · dsimp only
    by_cases hcap : cap < out.length
    · simp only [hcap, if_true]
      rfl
    · simp only [hcap, if_false]
      rfl

theorem drain_map (hf : ReadHom f) {K : Codec IoError} (p : Pipe K σ) :
    (drain (p.map f) : Except (ZipCoreError × τ) (Decoder k τ)) =
      mapBuilt f (map f) (drain p) := by
  rw [drain, drain, readCapped_map (Pipe.readHom_map hf)]
  rcases readCapped maxBufferedDecode p with ⟨e | decoded, p'⟩ <;> rfl

theorem drainWith_map (hf : ReadHom f) (decode : Bytes → Except ZipCoreError Bytes) (input : σ) :
    (drainWith decode (f input) : Except (ZipCoreError × τ) (Decoder k τ)) =
      mapBuilt f (map f) (drainWith decode input) := by
  rw [drainWith, drainWith, readToEnd_map hf]
  rcases readToEnd input with ⟨e | raw, r⟩
  · rfl
  · dsimp only
    cases decode raw <;> rfl

/-- Opening a decoder commutes with a change of the reader below. -/
theorem new_map (hf : ReadHom f) (method : CompressionMethod) (expectedSize : Nat) (input : σ) :
    (new method expectedSize (f input) : Except (ZipCoreError × τ) (Decoder k τ)) =
      mapBuilt f (map f) (new method expectedSize input) := by
  cases method with
  | bzip2 => exact drain_map hf (⟨k.bzip2.init, input⟩ : Pipe k.bzip2 σ)
  | zstd =>
    have hcall := Pipe.call_map hf .new (⟨k.ruzstd.init, input⟩ : Pipe k.ruzstd σ)
    rw [Pipe.map] at hcall
    rw [new, new, hcall]
    rcases (⟨k.ruzstd.init, input⟩ : Pipe k.ruzstd σ).call .new with ⟨e | bs, p⟩
    · rfl
    · exact drain_map hf p
  | lzma => exact drainWith_map hf _ input
  | xz => exact drainWith_map hf _ input
  | _ => rfl

/-- A decoder set up over `f input` is one over `input`, seen through `f`. -/
theorem of_new_map (hf : ReadHom f) {method : CompressionMethod} {expectedSize : Nat} {input : σ}
    {d : Decoder k τ} (h : new method expectedSize (f input) = .ok d) :
    ∃ d₀, new method expectedSize input = .ok d₀ ∧ d = d₀.map f := by
  rw [new_map hf] at h
  rcases hnew : (new method expectedSize input : Except (ZipCoreError × σ) (Decoder k σ)) with e | d₀
  · rw [hnew] at h
    cases h
  · rw [hnew] at h
    exact ⟨d₀, rfl, (Except.ok.inj h).symm⟩

end Decoder

/-! ## Decoders of opened entries -/

namespace Decoder

variable {σ : Type} [Read IoError σ]

/-- A decoder of `method` set up over `r`, or one that has decoded everything. -/
inductive Fresh (r : σ) : CompressionMethod → Decoder k σ → Prop
  | stored : Fresh r .stored (.stored r)
  | deflate : Fresh r .deflated (.deflate ⟨k.flate2.init, r⟩)
  | deflate64 : Fresh r .deflate64 (.deflate64 ⟨k.deflate64.init, r⟩)
  | buffered {method : CompressionMethod} (decoded : Window IoError) (input : σ)
      (notStored : method ≠ .stored) (notDeflated : method ≠ .deflated)
      (notDeflate64 : method ≠ .deflate64) : Fresh r method (.buffered decoded input)

theorem drain_buffered {K : Codec IoError} {p : Pipe K σ} {d : Decoder k σ} (h : drain p = .ok d) :
    ∃ decoded input, d = .buffered decoded input := by
  unfold drain at h
  rcases hread : readCapped maxBufferedDecode p with ⟨e | decoded, p'⟩
  · rw [hread] at h
    cases h
  · rw [hread] at h
    exact ⟨_, _, (Except.ok.inj h).symm⟩

theorem drainWith_buffered {decode : Bytes → Except ZipCoreError Bytes} {input : σ}
    {d : Decoder k σ} (h : drainWith decode input = .ok d) :
    ∃ decoded input, d = .buffered decoded input := by
  unfold drainWith at h
  rcases hread : readToEnd input with ⟨e | raw, r'⟩
  · rw [hread] at h
    cases h
  · rw [hread] at h
    dsimp only at h
    cases hdecode : decode raw with
    | error e =>
      rw [hdecode] at h
      cases h
    | ok decoded =>
      rw [hdecode] at h
      exact ⟨_, _, (Except.ok.inj h).symm⟩

theorem new_fresh {method : CompressionMethod} {size : Nat} {r : σ} {d : Decoder k σ}
    (h : Decoder.new method size r = .ok d) : Fresh r method d := by
  cases method with
  | stored =>
    obtain rfl := Except.ok.inj h
    exact .stored
  | deflated =>
    obtain rfl := Except.ok.inj h
    exact .deflate
  | deflate64 =>
    obtain rfl := Except.ok.inj h
    exact .deflate64
  | bzip2 =>
    obtain ⟨decoded, input, rfl⟩ := drain_buffered h
    exact .buffered decoded input (by decide) (by decide) (by decide)
  | zstd =>
    rw [Decoder.new] at h
    rcases hcall : (⟨k.ruzstd.init, r⟩ : Pipe k.ruzstd σ).call .new with ⟨e | bs, p⟩
    · rw [hcall] at h
      cases h
    · rw [hcall] at h
      obtain ⟨decoded, input, rfl⟩ := drain_buffered h
      exact .buffered decoded input (by decide) (by decide) (by decide)
  | lzma =>
    obtain ⟨decoded, input, rfl⟩ := drainWith_buffered h
    exact .buffered decoded input (by decide) (by decide) (by decide)
  | xz =>
    obtain ⟨decoded, input, rfl⟩ := drainWith_buffered h
    exact .buffered decoded input (by decide) (by decide) (by decide)
  | _ => cases h

theorem readHom_buffered (input : σ) :
    ReadHom fun w : Window IoError => (Decoder.buffered w input : Decoder k σ) :=
  ⟨fun _ _ => rfl, fun _ => rfl⟩

end Decoder

end ZipForensic
