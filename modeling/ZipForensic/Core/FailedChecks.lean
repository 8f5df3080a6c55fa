import ZipForensic.Core.EmptyReads
import ZipForensic.Stream.Endings

/-!
# Reading on after a failed check (archive.rs, crypto.rs)

`ZipFile::read` and `AesReader::read` note that a check was made before they know how it ends,
so neither makes it again: a read that follows the failure finds the end of the stream.

- `Decoder.Fresh`: the decoders of an opened entry. Their ends are final
  (`ZipArchive.Opens.finalEnd`), so what was reported once is reported again.
- `AesReader.failsOnce`: the AES stream of a forged entry delivers its ciphertext, fails, and
  then ends. Whether that shows is up to the decoder (`AesEntry.AskedBehind`).
- `ZipFile.Sticky`: behind a failed check no read reports the end. `sticky_iff` says for which
  entries that is so: those with no check that can fail.
-/

namespace ZipForensic

variable {k : Crates}

/-- An error that is not one of this crate's. -/
def IoError.Foreign (e : IoError) : Prop := ∀ source, e ≠ .wrapped source

/-- What the streaming decoders do at the edges of their input: failures from below are handed
on and can be retried, their own errors are not this crate's, and their ends are final. -/
structure Codec.Streaming (K : Codec IoError) : Prop where
  resumes : K.Resumes
  own : K.OwnErrors IoError.Foreign
  keepsEnding : K.KeepsEnding

structure Crates.Streaming (k : Crates) : Prop where
  flate2 : k.flate2.Streaming
  deflate64 : k.deflate64.Streaming

theorem Crates.Streaming.ownErrors (hk : k.Streaming) : k.OwnErrors := by
  have hforeign : ∀ e : IoError, e.Foreign → e.NotCrcMismatch := by
    rintro e he ⟨entry, expected, actual, rfl⟩
    exact he _ rfl
  exact ⟨hk.flate2.own.raisesOnly hk.flate2.resumes hforeign,
    hk.deflate64.own.raisesOnly hk.deflate64.resumes hforeign⟩

namespace Decoder

variable {σ : Type} [Read IoError σ] {r : σ} {method : CompressionMethod} {d : Decoder k σ}

theorem Fresh.finalEnd (hk : k.Streaming) [LawfulRead IoError σ] (h : Fresh r method d)
    (hr : FinalEnd r) : FinalEnd d := by
  cases h with
  | stored => exact (FinalEnd.map readHom_stored).2 hr
  | deflate => exact (FinalEnd.map readHom_deflate).2 (hk.flate2.keepsEnding hr)
  | deflate64 => exact (FinalEnd.map readHom_deflate64).2 (hk.deflate64.keepsEnding hr)
  | buffered decoded input =>
    exact (FinalEnd.map (readHom_buffered input)).2 (Window.endStates.finalEnd trivial)

section Below

variable {I : σ → Prop} (hI : ∀ {r n}, I r → 0 < n → I (read n r).2) {n : Nat}
include hI

/-- What reads of the reader below preserve, reads of the decoder do. -/
theorem read_input (hd : I d.input) (hn : 0 < n) : I (read n d).2.input := by
  cases d with
  | stored r => exact hI hd hn
  | deflate p => exact Pipe.callLoop_inner hI hd
  | deflate64 p => exact Pipe.callLoop_inner hI hd
  | buffered decoded input => exact hd

/-- An error of this crate comes from the last read below. -/
theorem read_error_below (hk : k.Streaming) (hd : I d.input) (hn : 0 < n) {source : ZipCoreError}
    (h : (read n d).1 = .error (.wrapped source)) :
    ∃ r m, I r ∧ 0 < m ∧ (read m r).1 = .error (.wrapped source) ∧
      (read n d).2.input = (read m r).2 := by
  cases d with
  | stored r => exact ⟨r, n, hd, hn, h, rfl⟩
  | deflate p =>
    exact (Pipe.callLoop_error_below hk.flate2.resumes hk.flate2.own hI hd h).resolve_left
      fun hforeign => hforeign source rfl
  | deflate64 p =>
    exact (Pipe.callLoop_error_below hk.deflate64.resumes hk.deflate64.own hI hd h).resolve_left
      fun hforeign => hforeign source rfl
  | buffered decoded input => cases h

end Below

end Decoder

/-! ## The ends of the adapters -/

theorem ZipCryptoReader.endStates : EndStates (fun _ => True)
    fun r : ZipCryptoReader (Window IoError) => r.inner.rest = [] where
  keeps _ _ := trivial
  reaches {r n} _ hn hread := by
    have hplain : (r.keys.decrypt (r.inner.rest.take n)).1 = [] := Except.ok.inj hread
    have hlength := congrArg List.length hplain
    rw [ZipCryptoKeys.length_decrypt, List.length_nil, List.length_take] at hlength
    show r.inner.rest.drop n = []
    exact List.drop_eq_nil_of_le (by omega)
  stays {r n} hr _ := by
    show Except.ok (r.keys.decrypt (r.inner.rest.take n)).1 = .ok [] ∧ r.inner.rest.drop n = []
    rw [hr, List.take_nil, List.drop_nil]
    exact ⟨rfl, rfl⟩

theorem AesReader.endStates : EndStates (fun _ => True)
    (Checked : AesReader k (Window IoError) → Prop) where
  keeps _ _ := trivial
  reaches {r n} _ hn hread := by
    by_cases hrem : r.remaining = 0
    · cases hdone : r.done with
      | true =>
        rw [read_done hrem hdone]
        exact ⟨hdone, hrem⟩
      | false =>
        rw [read_code hrem hdone]
        by_cases hroom : 10 ≤ r.inner.rest.length
        · rw [if_pos hroom]
          exact ⟨rfl, hrem⟩
        · rw [if_neg hroom]
          exact ⟨rfl, hrem⟩
    · by_cases hrest : r.inner.rest = []
      · rw [read_short hrem hrest] at hread
        cases hread
      · rw [read_more hrem hrest hn] at hread
        have hlength := congrArg List.length (Except.ok.inj hread)
        have hpiece := List.length_pos_of_ne_nil (piece_ne_nil hrem hrest hn)
        rw [length_apply, List.length_nil] at hlength
        omega
  stays {r n} hr _ := by
    rw [hr.read]
    exact ⟨rfl, hr⟩

/-- AES maps blocks to blocks. -/
def Crates.AesBlocks (k : Crates) : Prop :=
  ∀ key block, AesKeySize key.length → block.length = aesBlock →
    (k.aesDecryptBlock key block).length = aesBlock

namespace StrongAesReader

/-- What is staged is there. -/
structure Whole (r : StrongAesReader k (Window IoError)) : Prop where
  key : AesKeySize r.cipher.key.length
  prev : r.cipher.prev.length = aesBlock
  blockLen : r.blockLen ≤ r.block.length

/-- Nothing is staged and nothing is left. -/
structure Spent (r : StrongAesReader k (Window IoError)) : Prop where
  staged : r.blockLen ≤ r.blockPos
  remaining : r.remaining = 0

variable {r : StrongAesReader k (Window IoError)}

theorem Whole.refilled (hk : k.AesBlocks) (h : r.Whole) (hblock : aesBlock ≤ r.inner.rest.length) :
    r.refilled.Whole := by
  have htake : (r.inner.rest.take aesBlock).length = aesBlock := by
    rw [List.length_take]
    omega
  refine ⟨h.key, htake, ?_⟩
  show aesBlock ≤ (xorBytes (k.aesDecryptBlock r.cipher.key (r.inner.rest.take aesBlock))
    r.cipher.prev).length
  rw [length_xorBytes, hk _ _ h.key htake, h.prev, Nat.min_self]

theorem Whole.serve (h : r.Whole) (n : Nat) : (serve n r).2.Whole := ⟨h.key, h.prev, h.blockLen⟩

theorem Whole.serve_ne_nil (h : r.Whole) {n : Nat} (hn : 0 < n) (hstaged : r.blockPos < r.blockLen) :
    (StrongAesReader.serve n r).1 ≠ .ok [] := by
  rw [serve_ok]
  intro hnil
  have hlength := length_staged h.blockLen
  rcases List.take_eq_nil_iff.1 (Except.ok.inj hnil) with hzero | hempty
  · omega
  · rw [hempty, List.length_nil] at hlength
    omega

theorem endStates (hk : k.AesBlocks) : EndStates Whole (Spent (k := k)) where
  keeps {r n} h _ := by
    by_cases hstaged : r.blockPos < r.blockLen
    · rw [read_staged hstaged]
      exact h.serve n
    · by_cases hrem : r.remaining = 0
      · rw [read_spent (Nat.not_lt.1 hstaged) hrem]
        exact h
      · by_cases hblock : aesBlock ≤ r.inner.rest.length
        · rw [read_refill (Nat.not_lt.1 hstaged) hrem hblock]
          exact (h.refilled hk hblock).serve n
        · rw [read_cut (Nat.not_lt.1 hstaged) hrem hblock]
          exact ⟨h.key, h.prev, h.blockLen⟩
  reaches {r n} h hn hread := by
    by_cases hstaged : r.blockPos < r.blockLen
    · rw [read_staged hstaged] at hread
      exact absurd hread (h.serve_ne_nil hn hstaged)
    · by_cases hrem : r.remaining = 0
      · rw [read_spent (Nat.not_lt.1 hstaged) hrem]
        exact ⟨Nat.not_lt.1 hstaged, hrem⟩
      · by_cases hblock : aesBlock ≤ r.inner.rest.length
        · rw [read_refill (Nat.not_lt.1 hstaged) hrem hblock] at hread
          exact absurd hread ((h.refilled hk hblock).serve_ne_nil hn (show 0 < aesBlock by decide))
        · rw [read_cut (Nat.not_lt.1 hstaged) hrem hblock] at hread
          cases hread
  stays h _ := by
    rw [read_spent h.staged h.remaining]
    exact ⟨rfl, h⟩

end StrongAesReader

/-! ## Entries without AES -/

section StrongHeader

variable {password : Bytes} {entry : String}

/-- The IV of the file data is the last block of the decryption header. -/
theorem fileIv_of_unlockStrong {p iv : Bytes} {ivUsed : Nat} {keys : Bytes × Bytes}
    (h : unlockStrong k p password iv ivUsed entry = .ok keys) :
    keys.1 = slice p (p.length - aesBlock) aesBlock := by
  unfold unlockStrong at h
  obtain ⟨layout, -, h⟩ := Res.of_bind_ok h
  dsimp only at h
  obtain ⟨erd, -, h⟩ := Res.of_bind_ok h
  split_ifs at h
  · cases h
  · obtain ⟨vdata, -, h⟩ := Res.of_bind_ok h
    split_ifs at h
    · cases h
    · rw [← Except.ok.inj h]

theorem length_iv_of_readStrongHeader {crc : UInt32} {unpackSize : Nat} {w w' : Window IoError}
    {hdr : StrongHeader}
    (h : ReadM.runOn (readStrongHeader k password crc unpackSize entry) w = (.ok hdr, w')) :
    hdr.iv.length = aesBlock := by
  obtain ⟨⟨iv, ivUsed, ivLen⟩, w₁, -, h⟩ := ReadM.of_runOn_bind_ok h
  obtain ⟨p, w₂, hp, h⟩ := ReadM.of_runOn_bind_ok h
  obtain ⟨keys, w₃, hkeys, h⟩ := ReadM.of_runOn_bind_ok h
  have hlong : aesBlock ≤ p.length := (of_readStrongRemainder_ok hp).1
  have hiv := fileIv_of_unlockStrong (Prod.mk.inj hkeys).1
  obtain rfl := Except.ok.inj (Prod.mk.inj h).1
  show keys.1.length = aesBlock
  rw [hiv, slice, List.length_take, List.length_drop]
  omega

theorem StrongAesReader.whole_of_new {w : Window IoError} {fileKey iv : Bytes} {encLen : Nat}
    {r : StrongAesReader k (Window IoError)} (hiv : iv.length = aesBlock)
    (h : new w fileKey iv encLen entry = .ok r) : r.Whole := by
  obtain ⟨cipher, hcipher, h⟩ := Res.of_bind_ok h
  obtain rfl := Except.ok.inj h
  unfold CbcDec.new at hcipher
  split_ifs at hcipher with hkey
  · obtain rfl := Except.ok.inj hcipher
    exact ⟨hkey, hiv, Nat.zero_le _⟩

end StrongHeader

/-- A decoder below which no authentication code is looked for. -/
inductive Decoder.NoCode : Decoder k (EntryReader k (Window IoError)) → Prop
  | through {σ : Type} [Read IoError σ] [LawfulRead IoError σ]
      {g : σ → EntryReader k (Window IoError)} {r : σ} {d : Decoder k σ} (hom : ReadHom g)
      (code : ∀ r, (g r).looked = false) (ends : FinalEnd r) {method : CompressionMethod}
      (fresh : d.Fresh r method) : NoCode (d.map g)

namespace Decoder

theorem NoCode.of_new {σ : Type} [Read IoError σ] [LawfulRead IoError σ]
    {g : σ → EntryReader k (Window IoError)} {r : σ} (hom : ReadHom g)
    (code : ∀ r, (g r).looked = false) (ends : FinalEnd r) {method : CompressionMethod} {size : Nat}
    {d : Decoder k (EntryReader k (Window IoError))} (h : Decoder.new method size (g r) = .ok d) :
    NoCode d := by
  obtain ⟨d₀, hnew, rfl⟩ := of_new_map hom h
  exact .through hom code ends (new_fresh hnew)

variable {d : Decoder k (EntryReader k (Window IoError))}

theorem NoCode.finalEnd (hk : k.Streaming) (h : d.NoCode) : FinalEnd d := by
  cases h with
  | through hom code ends fresh => exact (FinalEnd.map (readHom_map hom)).2 (fresh.finalEnd hk ends)

theorem NoCode.not_failsThenEnds (h : d.NoCode) (e : IoError) :
    ¬ FailsThenEnds e (fun r : EntryReader k (Window IoError) => r.looked = true) Decoder.input d := by
  rintro ⟨ns, n, -, -, -, hlooked, -⟩
  cases h with
  | through hom code ends fresh =>
    rw [reads_map (readHom_map hom), (readHom_map hom).read_map, input_map, code] at hlooked
    cases hlooked

end Decoder

/-- What a decoder is set up over in the file, it is set up over in the window. -/
theorem Decoder.new_window {method : CompressionMethod} {size : Nat}
    {r : EntryReader k (Take Source)} {d : Decoder k (EntryReader k (Take Source))}
    (h : Decoder.new method size r = .ok d) :
    Decoder.new method size (r.map Take.window) = .ok (d.map (EntryReader.map Take.window)) := by
  rw [Decoder.new_map (EntryReader.readHom_map ZipForensic.readHom_window), h]
  rfl

section Opened

variable {a : ZipArchive} {m : CentralEntry} {password : Bytes} {f : ZipFile k (Take Source)}
  {dataStart : Nat} {window : Take Source}

theorem ZipFile.noCode_of_openPlain (h : openPlain m dataStart window = .ok f) :
    (f.map Take.window).decoder.NoCode := by
  obtain ⟨d, hnew, rfl⟩ := of_openPlain h
  have hplain : ReadHom (EntryReader.plain : Window IoError → EntryReader k _) :=
    ⟨fun _ _ => rfl, fun _ => rfl⟩
  exact .of_new hplain (fun _ => rfl) (Window.endStates.finalEnd trivial) (Decoder.new_window hnew)

theorem ZipFile.noCode_of_openEncrypted (haes : m.aes = none)
    (h : openEncrypted m password dataStart window = .ok f) :
    (f.map Take.window).decoder.NoCode := by
  rcases reader_of_openEncrypted h with ⟨aes, -, -, hsome, -⟩ | ⟨r, d, -, hnew, rfl⟩
  · rw [haes] at hsome
    cases hsome
  · have hcrypto : ReadHom (EntryReader.zipCrypto :
        ZipCryptoReader (Window IoError) → EntryReader k _) := ⟨fun _ _ => rfl, fun _ => rfl⟩
    exact .of_new hcrypto (fun _ => rfl) (ZipCryptoReader.endStates.finalEnd trivial)
      (Decoder.new_window hnew)

theorem ZipFile.noCode_of_openStrong (hb : k.AesBlocks)
    (h : openStrong m password dataStart window = .ok f) : (f.map Take.window).decoder.NoCode := by
  obtain ⟨hdr, window', strong, d, hheader, hnew, hd, rfl⟩ := reader_of_openStrong h
  have hwhole : (strong.map Take.window).Whole := by
    have hwindow := natural_readStrongHeader (k := k) readHom_window password m.crc32
      m.uncompressedSize m.name window
    rw [hheader] at hwindow
    have hset := StrongAesReader.new_map (k := k) Take.window window' hdr.fileKey hdr.iv
      (m.compressedSize - hdr.headerLen) m.name
    rw [hnew] at hset
    exact StrongAesReader.whole_of_new (length_iv_of_readStrongHeader hwindow) hset
  by_cases hstored : m.method = .stored
  · rw [if_pos hstored] at hd
    have htake : ReadHom (EntryReader.strongTake :
        Take (StrongAesReader k (Window IoError)) → EntryReader k _) :=
      ⟨fun _ _ => rfl, fun _ => rfl⟩
    exact .of_new (r := ⟨strong.map Take.window, m.uncompressedSize⟩) htake (fun _ => rfl)
      ((StrongAesReader.endStates hb).take.finalEnd hwhole) (Decoder.new_window hd)
  · rw [if_neg hstored] at hd
    have hstrong : ReadHom (EntryReader.strong :
        StrongAesReader k (Window IoError) → EntryReader k _) := ⟨fun _ _ => rfl, fun _ => rfl⟩
    exact .of_new hstrong (fun _ => rfl) ((StrongAesReader.endStates hb).finalEnd hwhole)
      (Decoder.new_window hd)

/-- Only AES entries that are opened with a password have a code to look for. -/
theorem ZipArchive.Opens.noCode (hb : k.AesBlocks) {password : Option Bytes}
    (h : a.Opens m password f) (haes : password = none ∨ m.aes = none) :
    (f.map Take.window).decoder.NoCode := by
  have hplain : ∀ {f : ZipFile k (Take Source)}, (a.open m : Opened k) = .ok f →
      (f.map Take.window).decoder.NoCode := by
    intro f hopen
    obtain ⟨-, dataStart, hset⟩ := of_open hopen
    exact ZipFile.noCode_of_openPlain hset
  cases password with
  | none => exact hplain h.open
  | some password =>
    have hnone := haes.resolve_left nofun
    have hopen := h.decryptOpens.openDecrypt
    unfold ZipArchive.openDecrypt at hopen
    cases hdisk : checkLocalDisk m a.summary.diskNumber a.summary.cdStartDisk with
    | error e =>
      rw [hdisk] at hopen
      cases hopen
    | ok u =>
      rw [hdisk] at hopen
      dsimp only at hopen
      split_ifs at hopen
      · exact hplain hopen
      · cases hopen
      · obtain ⟨dataStart, hset⟩ := of_openAt hopen
        exact ZipFile.noCode_of_openStrong hb hset
      · obtain ⟨dataStart, hset⟩ := of_openAt hopen
        exact ZipFile.noCode_of_openEncrypted hnone hset

end Opened

/-! ## AES entries -/

namespace AesEntry

variable (k) (x : AesEntry)

/-- The authentication code is there, and is not that of the ciphertext. -/
def Forged : Prop :=
  x.authCode.length = 10 ∧ (k.hmacSha1 (x.macKey k) x.ciphertext).take 10 ≠ x.authCode

/-- The decoder asks for input behind the last byte of the compressed data, and reports the
end then or later. -/
def AskedBehind (method : CompressionMethod) : Prop :=
  method = .stored ∨ method = .deflated ∧ k.flate2.EndsAsked (x.plaintext k) ∨
    method = .deflate64 ∧ k.deflate64.EndsAsked (x.plaintext k)

end AesEntry

namespace AesReader

variable {x : AesEntry} {name : String} {r : AesReader k (Window IoError)} {n : Nat}

/-- The reader of a forged entry: its ciphertext, one failure, and the end. -/
theorem failsOnce (hx : x.Forged k) :
    FailsOnce (.wrapped (.wrongPassword name)) (delivers k).rest
      (fun r => Quiet x r ∧ r.entry = name) Checked where
  more {r n} h hne hn := by
    obtain ⟨hrem, hrest⟩ := not_or.1 (mt rest_nil_iff.2 hne)
    obtain ⟨htake, hdrop, hquiet⟩ := (handsOut x).more h.1 hne hn
    refine ⟨htake, hdrop, hquiet, ?_⟩
    rw [read_more hrem hrest hn]
    exact h.2
  fails {r n} h hend _ := by
    obtain ⟨hanswer, hnext⟩ := h.1.read_at_code hend (AesEntry.not_truncated_of_authCode hx.1)
      (n := n)
    refine ⟨?_, hnext⟩
    rw [hanswer, if_pos hx.1, if_neg hx.2, ← h.2]
    rfl
  ended h _ := by
    rw [h.read]
    exact ⟨rfl, h⟩
  le_avail h := (handsOut x).le_avail h.1

/-- The reader of the entry `name`, before its check or behind it. -/
def Reading (x : AesEntry) (name : String) (r : AesReader k (Window IoError)) : Prop :=
  (Quiet x r ∧ r.entry = name) ∨ Checked r

theorem Reading.read (h : Reading x name r) (hn : 0 < n) :
    Reading x name (ZipForensic.read n r).2 := by
  rcases h with ⟨hquiet, hname⟩ | hchecked
  · by_cases hrest : (delivers k).rest r = []
    · by_cases ht : x.Truncated
      · rw [hquiet.read_truncated hrest ht]
        exact .inl ⟨hquiet, hname⟩
      · exact .inr (hquiet.read_at_code hrest ht).2
    · obtain ⟨hrem, hinner⟩ := not_or.1 (mt rest_nil_iff.2 hrest)
      refine .inl ⟨hquiet.read_more hrest hn, ?_⟩
      rw [read_more hrem hinner hn]
      exact hname
  · rw [hchecked.read]
    exact .inr hchecked

/-- What a failed check says. -/
theorem Reading.of_read_error (h : Reading x name r) (hn : 0 < n) {source : ZipCoreError}
    (hread : (ZipForensic.read n r).1 = .error (.wrapped source))
    (hdone : (ZipForensic.read n r).2.done = true) :
    source = .wrongPassword name ∧ x.Forged k ∧ Checked (ZipForensic.read n r).2 := by
  rcases h with ⟨hquiet, hname⟩ | hchecked
  · by_cases hrest : (delivers k).rest r = []
    · by_cases ht : x.Truncated
      · rw [hquiet.read_truncated hrest ht, hquiet.done] at hdone
        cases hdone
      · obtain ⟨hanswer, hnext⟩ := hquiet.read_at_code hrest ht (n := n)
        rw [hanswer] at hread
        split_ifs at hread with hcode hequal
        · obtain rfl : ZipCoreError.wrongPassword r.entry = source :=
            IoError.wrapped.inj (Except.error.inj hread)
          exact ⟨congrArg _ hname, ⟨hcode, hequal⟩, hnext⟩
        · cases hread
    · obtain ⟨hrem, hinner⟩ := not_or.1 (mt rest_nil_iff.2 hrest)
      rw [read_more hrem hinner hn] at hread
      cases hread
  · rw [hchecked.read] at hread
    cases hread

end AesReader

namespace Decoder

open AesReader (Quiet Checked Reading)

variable {x : AesEntry} {name entry : String} {method : CompressionMethod}
  {d : Decoder k (AesReader k (Window IoError))}

/-- A failed check that reaches the caller. -/
theorem of_failsThenEnds (hk : k.Streaming) (hd : Reading x name d.input)
    (h : FailsThenEnds (.wrapped (.wrongPassword entry))
      (fun r : AesReader k (Window IoError) => r.done = true) Decoder.input d) :
    entry = name ∧ x.Forged k ∧
      FailsThenEnds (.wrapped (.wrongPassword name)) Checked Decoder.input d := by
  obtain ⟨ns, n, hns, hn, hread, hdone, hend⟩ := h
  have hstate : Reading x name (reads ns d).2.input :=
    reads_invariant (fun d : Decoder k (AesReader k (Window IoError)) => Reading x name d.input)
      (fun hd hn => read_input Reading.read hd hn) hns hd
  obtain ⟨r, m, hr, hm, hbelow, hinput⟩ := read_error_below Reading.read hk hstate hn hread
  rw [hinput] at hdone
  obtain ⟨hentry, hforged, hchecked⟩ := hr.of_read_error hm hbelow hdone
  obtain rfl : entry = name := ZipCoreError.wrongPassword.inj hentry
  refine ⟨rfl, hforged, ns, n, hns, hn, hread, ?_, hend⟩
  rw [hinput]
  exact hchecked

theorem not_failsThenEnds_buffered {σ ρ : Type} [Read IoError σ] {e : IoError} {After : ρ → Prop}
    {inner : Decoder k σ → ρ} (decoded : Window IoError) (input : σ) :
    ¬ FailsThenEnds e After inner (Decoder.buffered decoded input) := by
  rintro ⟨ns, n, -, -, hread, -⟩
  rw [reads_map (readHom_buffered input), (readHom_buffered input).read_map] at hread
  cases hread

/-- Behind the failed check of a forged entry, the decoder comes to an end if it had asked
behind the last byte. -/
theorem Fresh.failsThenEnds_forged (hk : k.Streaming) (hx : x.Forged k)
    (hd : Fresh (x.reader k name) method d) :
    FailsThenEnds (.wrapped (.wrongPassword name)) Checked Decoder.input d ↔
      x.AskedBehind k method := by
  have hbefore : Quiet x (x.reader k name) ∧ (x.reader k name).entry = name :=
    ⟨AesReader.quiet_reader name, rfl⟩
  have hforeign : ∀ e : IoError, e.Foreign → e ≠ .wrapped (.wrongPassword name) :=
    fun e he => he _
  have hpipe : ∀ {K : Codec IoError} {g : Pipe K _ → Decoder k (AesReader k (Window IoError))},
      K.Streaming → ReadHom g → (∀ p, (g p).input = p.inner) →
      (FailsThenEnds (.wrapped (.wrongPassword name)) Checked Decoder.input
          (g ⟨K.init, x.reader k name⟩) ↔ K.EndsAsked (x.plaintext k)) := by
    intro K g hK hg hinput
    refine (FailsThenEnds.map hg fun p => by rw [hinput]).trans ?_
    exact Pipe.failsThenEnds_iff (AesReader.failsOnce hx) hK.resumes
      (hK.own.raisesOnly hK.resumes hforeign)
      ⟨rfl, hbefore, congrArg (Probe.mk · false) (x.apply_ciphertext k).symm⟩
  unfold AesEntry.AskedBehind
  cases hd with
  | stored =>
    refine iff_of_true ?_ (.inl rfl)
    exact (FailsThenEnds.map readHom_stored fun _ => Iff.rfl).2
      ((AesReader.failsOnce hx).fails_then_ends hbefore)
  | deflate =>
    rw [hpipe hk.flate2 readHom_deflate fun _ => rfl]
    simp
  | deflate64 =>
    rw [hpipe hk.deflate64 readHom_deflate64 fun _ => rfl]
    simp
  | buffered decoded input notStored notDeflated notDeflate64 =>
    exact iff_of_false (not_failsThenEnds_buffered decoded input)
      (by simp [notStored, notDeflated, notDeflate64])

theorem Fresh.failsThenEnds_iff (hk : k.Streaming) (hd : Fresh (x.reader k name) method d) :
    FailsThenEnds (.wrapped (.wrongPassword entry))
        (fun r : AesReader k (Window IoError) => r.done = true) Decoder.input d ↔
      entry = name ∧ x.Forged k ∧ x.AskedBehind k method := by
  have hreading : Reading x name (x.reader k name) := .inl ⟨AesReader.quiet_reader name, rfl⟩
  constructor
  · intro h
    obtain ⟨hentry, hforged, hfails⟩ : entry = name ∧ x.Forged k ∧
        FailsThenEnds (.wrapped (.wrongPassword name)) Checked Decoder.input d := by
      cases hd with
      | buffered decoded input => exact absurd h (not_failsThenEnds_buffered decoded input)
      | stored => exact of_failsThenEnds hk hreading h
      | deflate => exact of_failsThenEnds hk hreading h
      | deflate64 => exact of_failsThenEnds hk hreading h
    exact ⟨hentry, hforged, (hd.failsThenEnds_forged hk hforged).1 hfails⟩
  · rintro ⟨rfl, hforged, hasked⟩
    obtain ⟨ns, n, hns, hn, hread, hchecked, hend⟩ := (hd.failsThenEnds_forged hk hforged).2 hasked
    exact ⟨ns, n, hns, hn, hread, hchecked.done, hend⟩

end Decoder

/-! ## The entry's reader -/

/-- `ZipCoreError::WrongPassword` in an `io::Error`. -/
def IoError.IsWrongPassword (e : IoError) : Prop := ∃ entry, e = .wrapped (.wrongPassword entry)

theorem EntryReader.looked_map {τ τ' : Type} (g : τ → τ') (r : EntryReader k τ) :
    (r.map g).looked = r.looked := by
  cases r <;> rfl

namespace ZipFile

section Failures

variable {τ : Type} [Read IoError τ] {m : CentralEntry} {f : ZipFile k τ}

/-- The read fails the CRC check, or the check of the AES stream that it made. -/
def FailsCheck (n : Nat) (f : ZipFile k τ) : Prop :=
  ∃ e, (read n f).1 = .error e ∧
    (e.IsCrcMismatch ∨ e.IsWrongPassword ∧ (read n f).2.decoder.input.looked = true)

/-- Behind a failed check, no read reports the end. -/
def Sticky (f : ZipFile k τ) : Prop :=
  ∀ ns n, (∀ m ∈ ns, 0 < m) → 0 < n → FailsCheck n (reads ns f).2 →
    ¬ CanEnd (read n (reads ns f).2).2

/-- Whether failures are sticky does not depend on the kind of reader below. -/
theorem sticky_map {τ' : Type} [Read IoError τ'] {g : τ → τ'} (hg : ReadHom g) :
    (f.map g).Sticky ↔ f.Sticky := by
  have hlooked : ∀ f : ZipFile k τ, (f.map g).decoder.input.looked = f.decoder.input.looked := by
    intro f
    show (f.decoder.map (EntryReader.map g)).input.looked = _
    rw [Decoder.input_map, EntryReader.looked_map]
  unfold Sticky FailsCheck
  simp only [reads_map (readHom_map hg), (readHom_map hg).read_map, CanEnd.map (readHom_map hg),
    hlooked]

/-- If the decoder's end is final, the reader can be read to its end: past a failed CRC check,
if need be. -/
theorem canEnd_iff (hend : FinalEnd f.decoder) : CanEnd f ↔ CanEnd f.decoder := by
  constructor
  · rintro ⟨ns, n, hns, hn, hread⟩
    refine ⟨ns, n, hns, hn, ?_⟩
    rw [← reads_decoder]
    exact decoder_read_end hread
  · rintro ⟨ns, n, hns, hn, hread⟩
    have hagain := hend ns n [] n hns hn nofun hn hread
    have hverified : (read n (reads ns f).2).2.verified = true := by
      refine (read_end ?_).1
      rw [reads_decoder]
      exact hread
    refine ⟨ns ++ [n], n, fun m hm => ?_, hn, ?_⟩
    · rcases List.mem_append.1 hm with hm | hm
      · exact hns m hm
      · rw [List.mem_singleton.1 hm]
        exact hn
    · rw [reads_append]
      refine (read_end ?_).2 hverified
      show (read n (read n (reads ns f).2).2.decoder).1 = .ok []
      rw [read_decoder, reads_decoder]
      exact hagain

theorem canEnd_read_iff (hend : FinalEnd f.decoder) {ns : List Nat} {n : Nat}
    (hns : ∀ m ∈ ns, 0 < m) (hn : 0 < n) :
    CanEnd (read n (reads ns f).2).2 ↔ CanEnd (read n (reads ns f.decoder).2).2 := by
  have hlater : FinalEnd (read n (reads ns f).2).2.decoder := by
    rw [read_decoder, reads_decoder]
    exact (hend.after hns).read hn
  rw [canEnd_iff hlater, read_decoder, reads_decoder]

theorem read_of_decoder_error {n : Nat} {e : IoError} (h : (read n f.decoder).1 = .error e) :
    (read n f).1 = .error e := by
  show (f.deliver (read n f.decoder)).1 = .error e
  rcases hread : read n f.decoder with ⟨e' | bs, d⟩
  · rw [hread] at h
    exact h
  · rw [hread] at h
    cases h

/-- A CRC check that does not hold everywhere is failed at the decoder's end. -/
theorem Pending.not_sticky (h : Pending m [] f) (hend : FinalEnd f.decoder)
    (hcrc : ¬ f.CrcHolds (0 < ·)) : ¬ f.Sticky := by
  intro hsticky
  refine hcrc fun ns n hns hn hnot hread => ?_
  obtain ⟨-, hfed⟩ := h.reads hnot
  have hgate := hfed.read_end (n := n) (by rw [reads_decoder]; exact hread)
  rw [h.hasher, h.entry]
  by_contra hdiff
  rw [if_neg hdiff] at hgate
  refine hsticky ns n hns hn ⟨_, hgate, .inl ⟨_, _, _, rfl⟩⟩ ?_
  -- the decoder reports its end again
  rw [canEnd_read_iff hend hns hn]
  exact ⟨[], n, nofun, hn, hend ns n [] n hns hn nofun hn hread⟩

theorem sticky_iff_decoder (hk : k.OwnErrors) [RaisesOnly IoError.NotCrcMismatch τ]
    (hend : FinalEnd f.decoder) (hgate : f.verifyCrc = false ∨ Pending m [] f) :
    f.Sticky ↔ (f.verifyCrc = true → f.CrcHolds (0 < ·)) ∧
      ∀ entry, ¬ FailsThenEnds (.wrapped (.wrongPassword entry))
        (fun r : EntryReader k τ => r.looked = true) Decoder.input f.decoder := by
  constructor
  · intro hsticky
    constructor
    · intro hverify
      have hpending := hgate.resolve_left (by rw [hverify]; nofun)
      by_contra hcrc
      exact hpending.not_sticky hend hcrc hsticky
    · rintro entry ⟨ns, n, hns, hn, hread, hlooked, hcan⟩
      refine hsticky ns n hns hn ⟨_, ?_, .inr ⟨⟨entry, rfl⟩, ?_⟩⟩
        ((canEnd_read_iff hend hns hn).2 hcan)
      · refine read_of_decoder_error ?_
        rw [reads_decoder]
        exact hread
      · rw [read_decoder, reads_decoder]
        exact hlooked
  · rintro ⟨hcrc, hnone⟩ ns n hns hn ⟨e, hread, hkind⟩ hcan
    have hsilent : f.Silent (0 < ·) := by
      rcases hgate with h | h
      · exact .inl (.inr h)
      · exact .inr ⟨hcrc h.verifyCrc, m, [], h⟩
    have hsame := ((hsilent.reads hns).2.read hn).1
    rw [hread, reads_decoder] at hsame
    rcases hkind with hmismatch | ⟨⟨entry, rfl⟩, hlooked⟩
    · exact (Decoder.raisesOnly hk).read_error hsame.symm hmismatch
    · rw [read_decoder, reads_decoder] at hlooked
      exact hnone entry ⟨ns, n, hns, hn, hsame.symm, hlooked, (canEnd_read_iff hend hns hn).1 hcan⟩

/-- Where the decoder emits its data, that is what the check is about. -/
theorem crcHolds_iff_of_emits {data : Bytes} (hdec : Emits f.decoder data) :
    f.CrcHolds (0 < ·) ↔ k.crc32 (f.hasher ++ data) = f.entry.crc32 := by
  constructor
  · intro hcrc
    obtain ⟨ns, hns, hfin⟩ := hdec.exists_finishes
    have hall := hcrc ns 1 hns Nat.one_pos hfin.not_mem hfin.ends
    rwa [hfin.data_eq] at hall
  · intro hcrc ns n hns hn _ hread
    obtain ⟨bs, hanswer, -, hempty⟩ := hdec ns n hns hn
    obtain rfl : bs = [] := Except.ok.inj (hanswer.symm.trans hread)
    rwa [hempty.1 rfl]

end Failures

end ZipFile

/-! ## Entries of an archive -/

section Opened

variable {a : ZipArchive} {m : CentralEntry} {f : ZipFile k (Take Source)}

/-- The decoder of an AES entry, over its stream. -/
theorem ZipArchive.Opens.decoder_aes {info : AesInfo} {password : Bytes}
    (h : a.Opens m (some password) f) (haes : m.aes = some info) :
    ∃ d : Decoder k (AesReader k (Window IoError)),
      d.Fresh ((aesEntry a.reader.bytes m info password).reader k m.name)
        (.fromU16 info.actualMethod) ∧
      (f.map Take.window).decoder = d.map EntryReader.aes := by
  obtain ⟨d, dataStart, hnew, hstart⟩ := h.decryptOpens.start_new haes
  exact ⟨d, Decoder.new_fresh hnew, congrArg ZipFile.decoder hstart⟩

theorem ZipArchive.Opens.finalEnd (hk : k.Streaming) (hb : k.AesBlocks) {password : Option Bytes}
    (h : a.Opens m password f) : FinalEnd f.decoder := by
  refine (FinalEnd.map Decoder.readHom_window).1 (show FinalEnd (f.map Take.window).decoder from ?_)
  cases password with
  | none => exact (h.noCode hb (.inl rfl)).finalEnd hk
  | some password =>
    cases haes : m.aes with
    | none => exact (h.noCode hb (.inr haes)).finalEnd hk
    | some info =>
      obtain ⟨d, hd, hdec⟩ := h.decoder_aes haes
      rw [hdec]
      exact (FinalEnd.map (Decoder.readHom_map readHom_aes)).2
        (hd.finalEnd hk (AesReader.endStates.finalEnd trivial))

/-- Past a failed check of the AES stream, the decoder can be read to its end where the entry is
forged and its decoder had asked behind the last byte. -/
theorem ZipArchive.Opens.failsThenEnds_iff (hk : k.Streaming) (hb : k.AesBlocks)
    {password : Option Bytes} (h : a.Opens m password f) {entry : String} :
    FailsThenEnds (.wrapped (.wrongPassword entry))
        (fun r : EntryReader k (Take Source) => r.looked = true) Decoder.input f.decoder ↔
      ∃ info pw, m.aes = some info ∧ password = some pw ∧ entry = m.name ∧
        (aesEntry a.reader.bytes m info pw).Forged k ∧
          (aesEntry a.reader.bytes m info pw).AskedBehind k (.fromU16 info.actualMethod) := by
  have hwindow : FailsThenEnds (.wrapped (.wrongPassword entry))
        (fun r : EntryReader k (Window IoError) => r.looked = true) Decoder.input
        (f.map Take.window).decoder ↔
      FailsThenEnds (.wrapped (.wrongPassword entry))
        (fun r : EntryReader k (Take Source) => r.looked = true) Decoder.input f.decoder :=
    FailsThenEnds.map Decoder.readHom_window fun d => by
      rw [Decoder.input_map, EntryReader.looked_map]
  rw [← hwindow]
  cases password with
  | none =>
    refine iff_of_false ((h.noCode hb (.inl rfl)).not_failsThenEnds _) ?_
    rintro ⟨info, pw, -, hnone, -⟩
    cases hnone
  | some password =>
    cases haes : m.aes with
    | none =>
      refine iff_of_false ((h.noCode hb (.inr haes)).not_failsThenEnds _) ?_
      rintro ⟨info, pw, hnone, -⟩
      cases hnone
    | some info =>
      obtain ⟨d, hd, hdec⟩ := h.decoder_aes haes
      have hover : FailsThenEnds (.wrapped (.wrongPassword entry))
            (fun r : EntryReader k (Window IoError) => r.looked = true) Decoder.input
            (d.map EntryReader.aes) ↔
          FailsThenEnds (.wrapped (.wrongPassword entry))
            (fun r : AesReader k (Window IoError) => r.done = true) Decoder.input d :=
        FailsThenEnds.map (Decoder.readHom_map readHom_aes) fun d => by
          rw [Decoder.input_map]
          rfl
      rw [hdec, hover, hd.failsThenEnds_iff hk]
      constructor
      · rintro ⟨hentry, hforged, hasked⟩
        exact ⟨info, password, rfl, rfl, hentry, hforged, hasked⟩
      · rintro ⟨info', password', hinfo, hpassword, hentry, hforged, hasked⟩
        obtain rfl := Option.some.inj hinfo
        obtain rfl := Option.some.inj hpassword
        exact ⟨hentry, hforged, hasked⟩

/-- **Failed checks**: for which entries no read behind a failed check reports the end. The CRC
check must not be able to fail, and an AES entry must not be forged, unless its decoder never
comes to its end by asking behind the ciphertext. -/
theorem sticky_iff (hk : k.Streaming) (hb : k.AesBlocks) {password : Option Bytes}
    (hopen : a.Opens m password f) :
    (f.Sticky ↔ (f.verifyCrc = true → f.CrcHolds (0 < ·)) ∧
      ∀ info pw, m.aes = some info → password = some pw →
        (aesEntry a.reader.bytes m info pw).Forged k →
          ¬ (aesEntry a.reader.bytes m info pw).AskedBehind k (.fromU16 info.actualMethod)) ∧
    (m.method = .stored → m.Unencrypted →
      (f.Sticky ↔
        k.crc32 (slice a.reader.bytes f.dataStart m.compressedSize) = m.crc32)) := by
  have hiff := ZipFile.sticky_iff_decoder hk.ownErrors (hopen.finalEnd hk hb)
    hopen.verifyCrc_or_pending
  have haes : (∀ entry, ¬ FailsThenEnds (.wrapped (.wrongPassword entry))
      (fun r : EntryReader k (Take Source) => r.looked = true) Decoder.input f.decoder) ↔
      ∀ info pw, m.aes = some info → password = some pw →
        (aesEntry a.reader.bytes m info pw).Forged k →
          ¬ (aesEntry a.reader.bytes m info pw).AskedBehind k (.fromU16 info.actualMethod) := by
    constructor
    · intro hnone info pw hinfo hpw hforged hasked
      exact hnone m.name
        ((hopen.failsThenEnds_iff hk hb).2 ⟨info, pw, hinfo, hpw, rfl, hforged, hasked⟩)
    · intro hnone entry hfails
      obtain ⟨info, pw, hinfo, hpw, -, hforged, hasked⟩ := (hopen.failsThenEnds_iff hk hb).1 hfails
      exact hnone info pw hinfo hpw hforged hasked
  refine ⟨hiff.trans (and_congr_right fun _ => haes), fun hstored hplain => ?_⟩
  have hset := hopen.open_unencrypted hplain
  have hpending := ZipArchive.pending_of_open hset
  have hcrc := ZipFile.crcHolds_iff_of_emits (ZipArchive.emits_of_open hset hstored)
  rw [hpending.hasher, hpending.entry, List.nil_append] at hcrc
  rw [hiff, haes, ← hcrc, and_iff_left]
  · exact ⟨fun h => h hpending.verifyCrc, fun h _ => h⟩
  · intro info pw hinfo
    rw [hplain.2] at hinfo
    cases hinfo

end Opened

theorem Codec.empty_streaming : (Codec.empty IoError).Streaming where
  resumes := Codec.empty_resumes
  own :=
    { out := fun h => by cases h
      onEnd := fun h => by cases h }
  keepsEnding _ _ _ _ _ _ _ _ _ _ := rfl

theorem Crates.plain_streaming : Crates.plain.Streaming :=
  ⟨Codec.empty_streaming, Codec.empty_streaming⟩

/-- The stored member has the recorded CRC-32: there is no failure to read past. -/
theorem storedArchive_sticky :
    ∃ a f, ZipArchive.new ⟨storedArchive 3, 0⟩ = .ok a ∧
      (a.byIndex 0 : Opened .plain) = .ok f ∧ f.Sticky := by
  obtain ⟨a, f, hnew, hbytes, hentry, hopen, hmap⟩ :=
    storedArchive_byIndex 3 ⟨"m", .stored, 0, 0x352441C2, 3, 3⟩ (by decide +kernel)
      (by decide +kernel)
  have hblocks : Crates.plain.AesBlocks := fun _ _ _ hblock => hblock
  have hsticky := (sticky_iff Crates.plain_streaming hblocks (.byIndex 0 hentry hopen)).2 rfl
    ⟨by simp [storedMember], rfl⟩
  have hstart : f.dataStart = 31 := congrArg ZipFile.dataStart hmap
  refine ⟨a, f, hnew, hopen, hsticky.2 ?_⟩
  rw [hbytes, hstart]
  decide +kernel

/-- Stored, with a code of zeros. -/
def wrongCodePayload : Bytes :=
  aesPayload [0x7A, 0xB9, 0xBA] [0, 0, 0, 0, 0, 0, 0, 0, 0, 0]

/-- The member whose code is wrong delivers its bytes, fails, and reports the end. -/
theorem wrongCode_not_sticky :
    ∃ a f, ZipArchive.new ⟨aesArchive 0 wrongCodePayload, 0⟩ = .ok a ∧
      a.DecryptOpens (k := aesSample) (aesMember 0 wrongCodePayload) [0x70, 0x77] f ∧
      (reads [8, 8, 8] f).1 =
        [.ok [0x61, 0x62, 0x63], .error (.wrapped (.wrongPassword "m")), .ok []] ∧
      ¬ f.Sticky := by
  obtain ⟨a, f, hnew, -, hopen, hmap⟩ :=
    aesArchive_opens (by decide +kernel)
      (openedDecrypt_aesMember 0 wrongCodePayload ⟨"m", .fromU16 99, 1, 0, 23, 3⟩ (by decide +kernel)
        (by decide) (by decide +kernel) (by decide +kernel) fun _ => rfl)
  refine ⟨a, f, hnew, hopen, ?_, ?_⟩
  · rw [reads_view, hmap]
    decide +kernel
  · rw [← ZipFile.sticky_map readHom_window, hmap]
    intro hsticky
    refine hsticky [8] 8 (by decide) (by decide)
      ⟨.wrapped (.wrongPassword "m"), ?_, .inr ⟨⟨"m", rfl⟩, ?_⟩⟩ ⟨[], 8, nofun, by decide, ?_⟩
    · decide +kernel
    · decide +kernel
    · decide +kernel

end ZipForensic
