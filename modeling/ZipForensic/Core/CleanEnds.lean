import ZipForensic.Core.FailedChecks
import ZipForensic.Core.ReadersAgree

/-!
# Clean ends and the recorded size (archive.rs)

A caller that reads an entry to its end without an error takes what it got for `size()`
bytes. `ZipFile` counts what it delivers, but compares the CRC-32 only.

- `decodeWhole`: what the compressed bytes of an entry decode to, for good and all.
- `Codec.EndsAlike`: however a streaming decoder is read, its clean ends deliver the same;
  the methods that are decoded when an entry is opened are that way by construction
  (`Decoder.Fresh.endsAlike`).
- `endsAtSize_iff`: every clean end is at the recorded size, unless the entry decodes to
  bytes with the recorded CRC-32 that are more or fewer.
-/

namespace ZipForensic

variable {k : Crates}

/-- A run that ends without an error has delivered `size()` bytes. -/
def ZipFile.EndsAtSize {τ : Type} [Read IoError τ] (f : ZipFile k τ) (ns : List Nat) (n : Nat) :
    Prop :=
  ∀ data, Finishes f ns n data → data.length = f.size

/-- What `compressed` decodes to, if it decodes without an error. -/
def decodeWhole (k : Crates) (method : CompressionMethod) (expectedSize : Nat)
    (compressed : Bytes) : Option Bytes :=
  match Decoder.new method expectedSize (⟨compressed⟩ : Window IoError) with
  | .ok (d : Decoder k (Window IoError)) => (readToEnd d).1.toOption
  | .error _ => none

/-- However the decoder is read over a stream, its clean ends deliver the same. -/
def Codec.EndsAlike (K : Codec IoError) : Prop :=
  ∀ stream, ZipForensic.EndsAlike (⟨K.init, ⟨stream⟩⟩ : Pipe K (Window IoError))

theorem Decoder.Fresh.endsAlike (hflate2 : k.flate2.EndsAlike)
    (hdeflate64 : k.deflate64.EndsAlike) {method : CompressionMethod} {w : Window IoError}
    {d : Decoder k (Window IoError)} (h : Fresh w method d) : ZipForensic.EndsAlike d := by
  cases h with
  | stored =>
    exact (ZipForensic.EndsAlike.map readHom_stored).2 (Window.drains.emits trivial).endsAlike
  | deflate => exact (ZipForensic.EndsAlike.map readHom_deflate).2 (hflate2 w.rest)
  | deflate64 => exact (ZipForensic.EndsAlike.map readHom_deflate64).2 (hdeflate64 w.rest)
  | buffered decoded input =>
    exact (ZipForensic.EndsAlike.map (readHom_buffered input)).2
      (Window.drains.emits trivial).endsAlike

section Opened

variable {a : ZipArchive} {m : CentralEntry} {f : ZipFile k (Take Source)}

/-- The decoder of an entry, over the compressed bytes of the file. -/
theorem ZipArchive.decoder_of_open (h : (a.open m : Opened k) = .ok f) :
    ∃ d : Decoder k (Take Source), f.decoder = d.map EntryReader.plain ∧
      Decoder.new m.method m.uncompressedSize
        (⟨slice a.reader.bytes f.dataStart m.compressedSize⟩ : Window IoError) =
          .ok (d.map Take.window) := by
  obtain ⟨-, dataStart, hopen⟩ := of_open h
  obtain ⟨d, hnew, rfl⟩ := ZipFile.of_openPlain hopen
  obtain ⟨d, hsource, rfl⟩ := Decoder.of_new_map EntryReader.readHom_plain hnew
  have hwindow := Decoder.new_map (k := k) readHom_window m.method m.uncompressedSize
    (entryWindow a.reader.bytes m dataStart)
  rw [hsource] at hwindow
  exact ⟨d, rfl, hwindow⟩

/-- Read to its end, the decoder decodes the compressed bytes. -/
theorem ZipArchive.decodeWhole_iff (h : (a.open m : Opened k) = .ok f) {data : Bytes} :
    decodeWhole k m.method m.uncompressedSize
      (slice a.reader.bytes f.dataStart m.compressedSize) = some data ↔
        (readToEnd f.decoder).1 = .ok data := by
  obtain ⟨d, hdecoder, hnew⟩ := decoder_of_open h
  have hwhole : decodeWhole k m.method m.uncompressedSize
      (slice a.reader.bytes f.dataStart m.compressedSize) = (readToEnd d).1.toOption := by
    rw [decodeWhole, hnew]
    exact congrArg (fun x => Except.toOption x.1)
      (readToEnd_map (Decoder.readHom_map readHom_window) d)
  have hend := readToEnd_map (Decoder.readHom_map (EntryReader.readHom_plain (k := k))) d
  rw [hwhole, hdecoder, hend]
  cases (readToEnd d).1 with
  | error e => exact iff_of_false nofun nofun
  | ok out =>
    constructor
    · intro hout
      exact congrArg Except.ok (Option.some.inj hout)
    · intro hout
      exact congrArg some (Except.ok.inj hout)

theorem ZipArchive.endsAlike_of_open (hflate2 : k.flate2.EndsAlike)
    (hdeflate64 : k.deflate64.EndsAlike) (h : (a.open m : Opened k) = .ok f) :
    EndsAlike f.decoder := by
  obtain ⟨d, hdecoder, hnew⟩ := decoder_of_open h
  have hwindow := (Decoder.new_fresh hnew).endsAlike hflate2 hdeflate64
  rw [hdecoder]
  exact (EndsAlike.map (Decoder.readHom_map EntryReader.readHom_plain)).2
    ((EndsAlike.map (Decoder.readHom_map readHom_window)).1 hwindow)

/-- A stored entry decodes to its bytes in the file. -/
theorem decodeWhole_stored (size : Nat) (compressed : Bytes) :
    decodeWhole k .stored size compressed = some compressed := by
  have hemits : Emits (Decoder.stored ⟨compressed⟩ : Decoder k (Window IoError)) compressed :=
    (Emits.map Decoder.readHom_stored).2 (Window.drains.emits trivial)
  show (readToEnd (Decoder.stored ⟨compressed⟩ : Decoder k (Window IoError))).1.toOption = _
  rw [hemits.readToEnd_eq]
  rfl

/-- **Clean ends at the recorded size**: every run to the end without an error delivers
`size()` bytes exactly where the compressed bytes do not decode to bytes of the recorded CRC-32
and another number. For a stored entry these are the bytes of the file themselves. -/
theorem endsAtSize_iff (hflate2 : k.flate2.EndsAlike) (hdeflate64 : k.deflate64.EndsAlike)
    {i : Nat} (hopen : (a.byIndex i : Opened k) = .ok f) :
    ((∀ ns n, (∀ m ∈ ns, 0 < m) → 0 < n → f.EndsAtSize ns n) ↔
      ∀ data, decodeWhole k f.entry.method f.entry.uncompressedSize
          (slice a.reader.bytes f.dataStart f.entry.compressedSize) = some data →
        k.crc32 data = f.entry.crc32 → data.length = f.entry.uncompressedSize) ∧
    (f.entry.method = .stored →
      ((∀ ns n, (∀ m ∈ ns, 0 < m) → 0 < n → f.EndsAtSize ns n) ↔
        (k.crc32 (slice a.reader.bytes f.dataStart f.entry.compressedSize) = f.entry.crc32 →
          min f.entry.compressedSize (a.reader.bytes.length - f.dataStart) =
            f.entry.uncompressedSize))) := by
  obtain ⟨-, hopened⟩ := ZipArchive.of_byIndex hopen
  have hpending := ZipArchive.pending_of_open hopened
  have halike := ZipArchive.endsAlike_of_open hflate2 hdeflate64 hopened
  have hiff : (∀ ns n, (∀ m ∈ ns, 0 < m) → 0 < n → f.EndsAtSize ns n) ↔
      ∀ data, decodeWhole k f.entry.method f.entry.uncompressedSize
          (slice a.reader.bytes f.dataStart f.entry.compressedSize) = some data →
        k.crc32 data = f.entry.crc32 → data.length = f.entry.uncompressedSize := by
    -- the gate lets the decoder's runs through, and these all deliver the same
    have hruns := halike.forall_finishes_iff
      (P := fun data => k.crc32 data = f.entry.crc32 → data.length = f.entry.uncompressedSize)
    constructor
    · intro h data hdata hcrc
      refine hruns.1 ?_ data ((ZipArchive.decodeWhole_iff hopened).1 hdata) hcrc
      intro ns n hns hn data hfin hcrc
      exact h ns n hns hn data (hpending.finishes_iff.2 ⟨hfin, hcrc⟩)
    · intro h ns n hns hn data hfin
      obtain ⟨hfin, hcrc⟩ := hpending.finishes_iff.1 hfin
      refine hruns.2 ?_ ns n hns hn data hfin hcrc
      intro data hdata
      exact h data ((ZipArchive.decodeWhole_iff hopened).2 hdata)
  refine ⟨hiff, fun hstored => hiff.trans ?_⟩
  rw [hstored, decodeWhole_stored, ← List.length_drop, ← List.length_take]
  constructor
  · intro h
    exact h _ rfl
  · rintro h data hdata
    obtain rfl := Option.some.inj hdata
    exact h

end Opened

/-- A deflated member of two blocks, with its own size recorded. -/
theorem blocksArchive_endsAtSize :
    ∃ a f, ZipArchive.new ⟨blocksArchive, 0⟩ = .ok a ∧
      (a.byIndex 0 : Opened blocksCrates) = .ok f ∧
      decodeWhole blocksCrates f.entry.method f.entry.uncompressedSize
        (slice a.reader.bytes f.dataStart f.entry.compressedSize) = some [0x68, 0x69, 0x21] ∧
      ∀ ns n, (∀ m ∈ ns, 0 < m) → 0 < n → f.EndsAtSize ns n := by
  obtain ⟨a, f, hnew, hbytes, -, hopen, hentry, hstart, -⟩ := blocksArchive_opened
  have hwhole : decodeWhole blocksCrates f.entry.method f.entry.uncompressedSize
      (slice a.reader.bytes f.dataStart f.entry.compressedSize) = some [0x68, 0x69, 0x21] := by
    rw [hbytes, hentry, hstart]
    decide +kernel
  refine ⟨a, f, hnew, hopen, hwhole, ?_⟩
  have hiff := endsAtSize_iff (k := blocksCrates) (FrameFormat.endsAlike ·) (FrameFormat.endsAlike ·)
    hopen
  refine hiff.1.2 fun data hdata _ => ?_
  rw [hwhole] at hdata
  obtain rfl := Option.some.inj hdata
  rw [hentry]
  rfl

/-- With 5 recorded as the size of three bytes, their reader ends cleanly after three. -/
theorem storedArchive_ends_short :
    ∃ a f, ZipArchive.new ⟨storedArchive 5, 0⟩ = .ok a ∧
      (a.byIndex 0 : Opened .plain) = .ok f ∧ f.size = 5 ∧
      (reads [8, 8] f).1 = [.ok [0x61, 0x62, 0x63], .ok []] ∧ ¬ f.EndsAtSize [8] 8 := by
  obtain ⟨a, f, hnew, -, -, hopen, hmap⟩ :=
    storedArchive_byIndex 5 ⟨"m", .stored, 0, 0x352441C2, 3, 5⟩ (by decide +kernel)
      (by decide +kernel)
  have hsize : f.size = 5 := congrArg ZipFile.size hmap
  have hreads : (reads [8, 8] f).1 = [.ok [0x61, 0x62, 0x63], .ok []] := by
    rw [reads_view, hmap]
    decide +kernel
  refine ⟨a, f, hnew, hopen, hsize, hreads, fun h => ?_⟩
  rw [reads_cons, reads_cons] at hreads
  obtain ⟨hfirst, hrest⟩ := List.cons.inj hreads
  have hfin : Finishes f [8] 8 [0x61, 0x62, 0x63] := by
    refine ⟨fun x hx => ?_, ?_, (List.cons.inj hrest).1⟩
    · rw [reads_cons, hfirst] at hx
      exact ⟨_, _, List.mem_singleton.1 hx⟩
    · rw [reads_cons, hfirst]
      rfl
  have hlength := h _ hfin
  rw [hsize] at hlength
  exact absurd hlength (by decide)

end ZipForensic
