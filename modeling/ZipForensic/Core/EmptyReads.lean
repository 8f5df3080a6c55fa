import ZipForensic.Core.CrcGate
import ZipForensic.Core.StrongStream
import ZipForensic.Stream.EmptyReads

/-!
# Empty reads of an entry (archive.rs, crypto.rs)

`ZipFile::read` takes every answer `Ok(0)` of its decoder for the end of the stream, and
`AesReader::read` takes one of the file for truncated ciphertext. Neither asks whether the
caller's buffer was empty.

- `EntryReader.EmptyReadOk`, `Decoder.EmptyReadOk`: when an empty read goes through the
  decryption adapters and the decoder without a trace. What the Deflate and Deflate64 crates
  do with one is theirs to say.
- `ZipFile.CrcHolds`: the CRC-32 is the recorded one wherever it could be checked.
- `emptyRead_noOp_iff`: with the CRC check on top of the two, an empty read of an entry's
  reader is a no-op in exactly these states.
-/

namespace ZipForensic

variable {k : Crates}

/-! ## Decryption adapters -/

namespace AesReader

/-- The ciphertext was read, and its code was looked at or is there and right. -/
def EmptyReadOk (r : AesReader k (Window IoError)) : Prop :=
  r.remaining = 0 ∧ (r.done = true ∨
    10 ≤ r.inner.rest.length ∧ (r.hmac.finalize k).take 10 = r.inner.rest.take 10)

variable {r : AesReader k (Window IoError)}

/-- Within the ciphertext, an empty read finds it truncated. -/
theorem read_zero_more (hrem : r.remaining ≠ 0) : read 0 r = (.error r.refuse, r) := by
  simp only [Read.read, if_neg hrem, Nat.zero_min, List.take_zero, List.drop_zero]

theorem read_zero_iff : (read 0 r).1 = .ok [] ↔ r.EmptyReadOk := by
  unfold EmptyReadOk
  by_cases hrem : r.remaining = 0
  · cases hdone : r.done with
    | true =>
      rw [read_done hrem hdone]
      exact ⟨fun _ => ⟨hrem, .inl rfl⟩, fun _ => rfl⟩
    | false =>
      rw [read_code hrem hdone]
      by_cases hroom : 10 ≤ r.inner.rest.length
      · by_cases hcode : (r.hmac.finalize k).take 10 = r.inner.rest.take 10
        · rw [if_pos hroom, if_pos hcode]
          exact ⟨fun _ => ⟨hrem, .inr ⟨hroom, hcode⟩⟩, fun _ => rfl⟩
        · rw [if_pos hroom, if_neg hcode]
          refine ⟨nofun, ?_⟩
          rintro ⟨-, hlooked | ⟨-, hequal⟩⟩
          · cases hlooked
          · exact absurd hequal hcode
      · rw [if_neg hroom]
        refine ⟨nofun, ?_⟩
        rintro ⟨-, hlooked | ⟨hlong, -⟩⟩
        · cases hlooked
        · exact absurd hlong hroom
  · rw [read_zero_more hrem]
    exact ⟨nofun, fun h => absurd h.1 hrem⟩

/-- An early check that succeeds is the one the next read would make. -/
theorem EmptyReadOk.read_next (h : r.EmptyReadOk) (n : Nat) : read n (read 0 r).2 = read n r := by
  obtain ⟨hrem, hcode⟩ := h
  cases hdone : r.done with
  | true => rw [read_done (n := 0) hrem hdone]
  | false =>
    obtain ⟨hroom, hequal⟩ := hcode.resolve_left (by rw [hdone]; exact Bool.false_ne_true)
    have hread : ∀ n, read n r = (.ok [], { r with inner := ⟨r.inner.rest.drop 10⟩, done := true }) :=
      fun n => by rw [read_code hrem hdone, if_pos hroom, if_pos hequal]
    rw [hread 0, hread n]
    exact read_done hrem rfl

end AesReader

namespace StrongAesReader

/-- A staged byte is left, or the end is reached, or the file has the next block. -/
def EmptyReadOk (r : StrongAesReader k (Window IoError)) : Prop :=
  r.blockPos < r.blockLen ∨ r.remaining = 0 ∨ aesBlock ≤ r.inner.rest.length

variable {r : StrongAesReader k (Window IoError)}

theorem serve_zero {ρ : Type} (r : StrongAesReader k ρ) : serve 0 r = (.ok [], r) := by
  unfold serve
  rw [Nat.min_zero, slice, List.take_zero]
  rfl

theorem read_zero_iff : (read 0 r).1 = .ok [] ↔ r.EmptyReadOk := by
  unfold EmptyReadOk
  by_cases hstaged : r.blockPos < r.blockLen
  · rw [read_staged hstaged, serve_zero]
    exact ⟨fun _ => .inl hstaged, fun _ => rfl⟩
  · have hempty := Nat.not_lt.1 hstaged
    by_cases hrem : r.remaining = 0
    · rw [read_spent hempty hrem]
      exact ⟨fun _ => .inr (.inl hrem), fun _ => rfl⟩
    · by_cases hblock : aesBlock ≤ r.inner.rest.length
      · rw [read_refill hempty hrem hblock, serve_zero]
        exact ⟨fun _ => .inr (.inr hblock), fun _ => rfl⟩
      · rw [read_cut hempty hrem hblock]
        refine ⟨nofun, ?_⟩
        rintro (hlt | hzero | hlong)
        · exact absurd hlt hstaged
        · exact absurd hzero hrem
        · exact absurd hlong hblock

/-- The block an empty read stages is the one the next read would stage. -/
theorem EmptyReadOk.read_next (h : r.EmptyReadOk) (n : Nat) : read n (read 0 r).2 = read n r := by
  by_cases hstaged : r.blockPos < r.blockLen
  · rw [read_staged (n := 0) hstaged, serve_zero]
  · have hempty := Nat.not_lt.1 hstaged
    by_cases hrem : r.remaining = 0
    · rw [read_spent (n := 0) hempty hrem]
    · have hblock := (h.resolve_left hstaged).resolve_left hrem
      rw [read_refill (n := 0) hempty hrem hblock, serve_zero, read_refill hempty hrem hblock]
      exact read_staged (show 0 < aesBlock by decide)

end StrongAesReader

namespace EntryReader

/-- The adapters an empty read passes. -/
def EmptyReadOk : EntryReader k (Window IoError) → Prop
  | .plain _ => True
  | .aes r => r.EmptyReadOk
  | .zipCrypto _ => True
  | .strong r => r.EmptyReadOk
  | .strongTake r => r.limit = 0 ∨ r.inner.EmptyReadOk

theorem emptyReadNoOp_iff {r : EntryReader k (Window IoError)} :
    EmptyReadNoOp r ↔ r.EmptyReadOk := by
  cases r with
  | plain r => exact ⟨fun _ => trivial, fun _ => .of_read rfl fun _ => rfl⟩
  | aes r =>
    refine ⟨fun h => AesReader.read_zero_iff.1 h.answer, fun h => ?_⟩
    refine .of_read (AesReader.read_zero_iff.2 h) fun n => ?_
    show ((read n (read 0 r).2).1, aes (read n (read 0 r).2).2) = _
    rw [h.read_next n]
    rfl
  | zipCrypto r => exact ⟨fun _ => trivial, fun _ => .of_read rfl fun _ => rfl⟩
  | strong r =>
    refine ⟨fun h => StrongAesReader.read_zero_iff.1 h.answer, fun h => ?_⟩
    refine .of_read (StrongAesReader.read_zero_iff.2 h) fun n => ?_
    show ((read n (read 0 r).2).1, strong (read n (read 0 r).2).2) = _
    rw [h.read_next n]
    rfl
  | strongTake r =>
    obtain ⟨r, limit⟩ := r
    show _ ↔ limit = 0 ∨ r.EmptyReadOk
    by_cases hlimit : limit = 0
    · subst hlimit
      exact ⟨fun _ => .inl rfl, fun _ => .of_read rfl fun _ => rfl⟩
    · constructor
      · intro h
        refine .inr (StrongAesReader.read_zero_iff.1 ?_)
        have hanswer : (read 0 (⟨r, limit⟩ : Take (StrongAesReader k (Window IoError)))).1 =
            .ok [] := h.answer
        rcases hread : read 0 r with ⟨e | bs, r'⟩
        · rw [Take.read_error hlimit (by rw [Nat.zero_min]; exact hread)] at hanswer
          cases hanswer
        · rw [Take.read_ok hlimit (by rw [Nat.zero_min]; exact hread)] at hanswer
          exact hanswer
      · intro h
        have hok := h.resolve_left hlimit
        have hzero : read 0 r = (.ok [], (read 0 r).2) :=
          Prod.ext (StrongAesReader.read_zero_iff.2 hok) rfl
        have htake := Take.read_zero hlimit hzero
        have hfirst : read 0 (strongTake (k := k) ⟨r, limit⟩) =
            (.ok [], strongTake ⟨(read 0 r).2, limit⟩) := by
          show ((read 0 (⟨r, limit⟩ : Take _)).1, strongTake (read 0 (⟨r, limit⟩ : Take _)).2) = _
          rw [htake]
        refine .of_read (congrArg Prod.fst hfirst) fun n => ?_
        rw [hfirst]
        show ((read n (⟨(read 0 r).2, limit⟩ : Take _)).1,
          strongTake (read n (⟨(read 0 r).2, limit⟩ : Take _)).2) = _
        rw [Take.read_congr hok.read_next hlimit n]
        rfl

end EntryReader

/-! ## Decoders -/

namespace Decoder

/-- The decoders an empty read passes. The two streaming decompressors are the crates'. -/
def EmptyReadOk : Decoder k (EntryReader k (Window IoError)) → Prop
  | .stored r => r.EmptyReadOk
  | .deflate p => EmptyReadNoOp p
  | .deflate64 p => EmptyReadNoOp p
  | .buffered _ _ => True

theorem emptyReadNoOp_iff {d : Decoder k (EntryReader k (Window IoError))} :
    EmptyReadNoOp d ↔ d.EmptyReadOk := by
  cases d with
  | stored r => exact (EmptyReadNoOp.map readHom_stored).trans EntryReader.emptyReadNoOp_iff
  | deflate p => exact EmptyReadNoOp.map readHom_deflate
  | deflate64 p => exact EmptyReadNoOp.map readHom_deflate64
  | buffered w input => exact ⟨fun _ => trivial, fun _ => .of_read rfl fun _ => rfl⟩

end Decoder

/-! ## The CRC check -/

namespace ZipFile

section Gate

variable {τ : Type} [Read IoError τ]

/-- Wherever reads of sizes in `S` first come to the decoder's end of stream, everything
delivered up to there has the recorded CRC-32. -/
def CrcHolds (S : Nat → Prop) (f : ZipFile k τ) : Prop :=
  ∀ ns n, (∀ m ∈ ns, S m) → S n → .ok [] ∉ (reads ns f.decoder).1 →
    (read n (reads ns f.decoder).2).1 = .ok [] →
      k.crc32 (f.hasher ++ received (reads ns f.decoder).1) = f.entry.crc32

/-- The CRC-32 is not checked any more, or never is. -/
def Unchecked (f : ZipFile k τ) : Prop := f.verified = true ∨ f.verifyCrc = false

variable {S : Nat → Prop} {m : CentralEntry} {fed : Bytes} {f : ZipFile k τ}

theorem Unchecked.read (h : f.Unchecked) (n : Nat) :
    (ZipForensic.read n f).1 = (ZipForensic.read n f.decoder).1 ∧
      (ZipForensic.read n f).2.Unchecked := by
  show (f.deliver (ZipForensic.read n f.decoder)).1 = _ ∧
    (f.deliver (ZipForensic.read n f.decoder)).2.Unchecked
  rcases ZipForensic.read n f.decoder with ⟨e | _ | ⟨b, bs⟩, d⟩
  · exact ⟨rfl, h⟩
  · refine ⟨?_, .inl rfl⟩
    show f.endOfStream = .ok []
    unfold endOfStream
    rcases h with hverified | hcrc
    · rw [if_pos hverified]
    · rw [if_neg (c := f.verifyCrc = true ∧ _) (by rw [hcrc]; nofun), ite_self]
  · exact ⟨rfl, h⟩

theorem Unchecked.sameReads (h : f.Unchecked) : SameReads f f.decoder := by
  intro ns
  induction ns generalizing f with
  | nil => rfl
  | cons n ns ih =>
    obtain ⟨hread, hnext⟩ := h.read n
    have hrest := ih hnext
    rw [read_decoder] at hrest
    rw [reads_cons, reads_cons, hread, hrest]

/-- What is left to check after a read that is not the end. -/
theorem Pending.crcHolds_read (h : Pending m fed f) (hcrc : f.CrcHolds S) {n : Nat} (hn : S n)
    (hread : (ZipForensic.read n f.decoder).1 ≠ .ok []) : (ZipForensic.read n f).2.CrcHolds S := by
  obtain ⟨-, hnext⟩ := h.read hread
  intro ns n' hns hn' hnot hend
  rw [read_decoder] at hnot hend
  have hrun := hcrc (n :: ns) n' (List.forall_mem_cons.2 ⟨hn, hns⟩) hn' (by
    rw [reads_cons, List.mem_cons, not_or]
    exact ⟨Ne.symm hread, hnot⟩) hend
  rw [reads_cons, received_cons, h.hasher, h.entry, ← List.append_assoc] at hrun
  rw [hnext.hasher, hnext.entry, read_decoder]
  exact hrun

/-- The check does not show in reads of sizes in `S`. -/
def Silent (S : Nat → Prop) (f : ZipFile k τ) : Prop :=
  f.Unchecked ∨ f.CrcHolds S ∧ ∃ m fed, Pending m fed f

theorem Silent.read (h : f.Silent S) {n : Nat} (hn : S n) :
    (ZipForensic.read n f).1 = (ZipForensic.read n f.decoder).1 ∧
      (ZipForensic.read n f).2.Silent S := by
  rcases h with h | ⟨hcrc, m, fed, h⟩
  · exact (h.read n).imp_right .inl
  · by_cases hend : (ZipForensic.read n f.decoder).1 = .ok []
    · have hfed := hcrc [] n nofun hn List.not_mem_nil hend
      rw [reads_nil, received_nil, List.append_nil, h.hasher, h.entry] at hfed
      refine ⟨?_, .inl (.inl (ZipFile.read_end hend).1)⟩
      rw [h.read_end hend, if_pos hfed, hend]
    · obtain ⟨hread, hnext⟩ := h.read hend
      exact ⟨hread, .inr ⟨h.crcHolds_read hcrc hn hend, _, _, hnext⟩⟩

theorem Silent.reads (h : f.Silent S) {ns : List Nat} (hns : ∀ n ∈ ns, S n) :
    (ZipForensic.reads ns f).1 = (ZipForensic.reads ns f.decoder).1 ∧
      (ZipForensic.reads ns f).2.Silent S := by
  induction ns generalizing f with
  | nil => exact ⟨rfl, h⟩
  | cons n ns ih =>
    obtain ⟨hn, hns⟩ := List.forall_mem_cons.1 hns
    obtain ⟨hread, hnext⟩ := h.read hn
    obtain ⟨hreads, hlast⟩ := ih hnext hns
    rw [read_decoder] at hreads
    rw [reads_cons, reads_cons, hread, hreads]
    exact ⟨rfl, hlast⟩

/-- A check that holds wherever it is made does not show. -/
theorem Pending.sameReads_iff (h : Pending m fed f) :
    SameReads f f.decoder ↔ f.CrcHolds fun _ => True := by
  constructor
  · intro hsame ns n _ _ hnot hend
    obtain ⟨-, hfed⟩ := h.reads hnot
    have hgate := hfed.read_end (n := n) (by rw [reads_decoder]; exact hend)
    rw [hsame.read ns n, hend] at hgate
    rw [h.hasher, h.entry]
    by_contra hcrc
    rw [if_neg hcrc] at hgate
    cases hgate
  · intro hcrc ns
    have hsilent : f.Silent fun _ => True := .inr ⟨hcrc, m, fed, h⟩
    exact (hsilent.reads fun _ _ => trivial).1

/-- An empty read of the entry's reader is a no-op where one of the decoder is, unless the
check shows. -/
theorem emptyReadNoOp_iff (hk : k.OwnErrors) [RaisesOnly IoError.NotCrcMismatch τ]
    (h : f.Unchecked ∨ Pending m fed f) :
    EmptyReadNoOp f ↔ EmptyReadNoOp f.decoder ∧ SameReads f f.decoder := by
  -- behind a read that reports the end, the reader answers as its decoder does
  have hbehind : (ZipForensic.read 0 f.decoder).1 = .ok [] →
      SameReads (ZipForensic.read 0 f).2 (ZipForensic.read 0 f.decoder).2 := by
    intro hend
    have hnext : (ZipForensic.read 0 f).2.Unchecked := .inl (read_end hend).1
    rw [← read_decoder]
    exact hnext.sameReads
  constructor
  · rintro ⟨hanswer, hlater⟩
    have hend := decoder_read_end hanswer
    have hdec : SameReads (ZipForensic.read 0 f.decoder).2 f :=
      (hbehind hend).symm.trans hlater
    have hsame : SameReads f f.decoder := by
      rcases h with h | h
      · exact h.sameReads
      · refine h.sameReads_iff.2 fun ns n _ _ hnot hlast => ?_
        obtain ⟨-, hfed⟩ := h.reads hnot
        have hgate := hfed.read_end (n := n) (by rw [reads_decoder]; exact hlast)
        rw [h.hasher, h.entry]
        by_contra hcrc
        rw [if_neg hcrc, ← hdec.read ns n] at hgate
        -- the decoder does not report a CRC mismatch
        exact (Decoder.raisesOnly hk).read_error hgate ⟨_, _, _, rfl⟩
    exact ⟨⟨hend, hdec.trans hsame⟩, hsame⟩
  · rintro ⟨⟨hend, hlater⟩, hsame⟩
    refine ⟨?_, ((hbehind hend).trans hlater).trans hsame.symm⟩
    exact (hsame.read [] 0).trans hend

end Gate

end ZipFile

/-! ## Entries of an archive -/

/-- The entry `m` was opened as `f`, by its index or by its name, with or without a
password. -/
inductive ZipArchive.Opens (a : ZipArchive) (m : CentralEntry) :
    Option Bytes → ZipFile k (Take Source) → Prop
  | byIndex {f : ZipFile k (Take Source)} (i : Nat) (entry : a.entries[i]? = some m)
      (opened : a.byIndex i = .ok f) : Opens a m none f
  | byName {f : ZipFile k (Take Source)} (name : String)
      (entry : a.entries.find? (fun e => e.name = name) = some m)
      (opened : a.byName name = .ok f) : Opens a m none f
  | decrypt {f : ZipFile k (Take Source)} (password : Bytes)
      (opened : a.DecryptOpens m password f) : Opens a m (some password) f

namespace ZipArchive.Opens

variable {a : ZipArchive} {m : CentralEntry} {f : ZipFile k (Take Source)}

theorem «open» (h : a.Opens m none f) : (a.open m : Opened k) = .ok f := by
  cases h with
  | byIndex i entry opened =>
    rw [ZipArchive.byIndex, entry] at opened
    exact opened
  | byName name entry opened =>
    rw [ZipArchive.byName, entry] at opened
    exact opened

theorem decryptOpens {password : Bytes} (h : a.Opens m (some password) f) :
    a.DecryptOpens m password f := by
  cases h with
  | decrypt password opened => exact opened

variable {password : Option Bytes}

theorem open_unencrypted (h : a.Opens m password f) (hplain : m.Unencrypted) :
    (a.open m : Opened k) = .ok f := by
  cases password with
  | none => exact h.open
  | some password => exact open_of_openDecrypt hplain h.decryptOpens.openDecrypt

/-- The CRC is to be checked, or this is AE-2. -/
theorem verifyCrc_or_pending (h : a.Opens m password f) :
    f.verifyCrc = false ∨ f.Pending m [] := by
  cases password with
  | none => exact .inr (pending_of_open h.open)
  | some password =>
    obtain ⟨dataStart, verifyCrc, d, rfl, -⟩ := start_of_openDecrypt h.decryptOpens.openDecrypt
    cases verifyCrc with
    | true => exact .inr (ZipFile.pending_start m dataStart d)
    | false => exact .inl rfl

end ZipArchive.Opens

namespace ZipFile

section Runs

variable {τ : Type} [Read IoError τ] {m : CentralEntry} {fed : Bytes} {f : ZipFile k τ}

theorem Unchecked.reads (h : f.Unchecked) (ns : List Nat) :
    (ZipForensic.reads ns f).2.Unchecked := by
  induction ns generalizing f with
  | nil => exact h
  | cons n ns ih => exact ih (h.read n).2

/-- The state of the check after any reads. -/
theorem Pending.verified_or_pending (h : Pending m fed f) (ns : List Nat) :
    (ZipForensic.reads ns f).2.verified = true ∨
      Pending m (fed ++ received (ZipForensic.reads ns f).1) (ZipForensic.reads ns f).2 := by
  induction ns generalizing f fed with
  | nil =>
    rw [reads_nil, received_nil, List.append_nil]
    exact .inr h
  | cons n ns ih =>
    by_cases hend : (ZipForensic.read n f.decoder).1 = .ok []
    · exact .inl (reads_verified (f := (ZipForensic.read n f).2) (ZipFile.read_end hend).1)
    · obtain ⟨hread, hnext⟩ := h.read hend
      rw [reads_cons, received_cons, hread, ← List.append_assoc]
      exact ih hnext

omit [Read IoError τ] in
theorem Pending.not_unchecked (h : Pending m fed f) : ¬ f.Unchecked := by
  rintro (hverified | hcrc)
  · rw [h.verified] at hverified
    cases hverified
  · rw [h.verifyCrc] at hcrc
    cases hcrc

omit [Read IoError τ] in
theorem Pending.map {τ' : Type} (g : τ → τ') (h : Pending m fed f) : Pending m fed (f.map g) :=
  ⟨h.entry, h.hasher, h.bytesOut, h.verified, h.verifyCrc⟩

end Runs

/-! ### Stored entries -/

/-- Reads of a stored entry take its bytes off the front. -/
theorem reads_window (w : Window IoError) (ns : List Nat) :
    received (reads ns w).1 ++ (reads ns w).2.rest = w.rest := by
  induction ns generalizing w with
  | nil => rfl
  | cons n ns ih =>
    rw [reads_cons, received_cons, List.append_assoc, ih]
    exact List.take_append_drop n w.rest

theorem readHom_plain :
    ReadHom fun w : Window IoError => (Decoder.stored (.plain w) : Decoder k (EntryReader k _)) :=
  ⟨fun _ _ => rfl, fun _ => rfl⟩

/-- Over a window, the check holds wherever it could be made if every longer front has the
recorded CRC-32. -/
theorem crcHolds_stored_iff {f : ZipFile k (Window IoError)} {w : Window IoError}
    (hdec : f.decoder = .stored (.plain w)) :
    (f.CrcHolds fun _ => True) ↔ ∀ t, k.crc32 (f.hasher ++ w.rest.take t) = f.entry.crc32 := by
  have hreads : ∀ ns, (reads ns f.decoder).1 = (reads ns w).1 := by
    intro ns
    rw [hdec, reads_map readHom_plain]
  have hread : ∀ ns n, (read n (reads ns f.decoder).2).1 = (read n (reads ns w).2).1 := by
    intro ns n
    rw [hdec, reads_map readHom_plain, readHom_plain.read_map]
  constructor
  · intro hcrc t
    by_cases hnil : w.rest.take t = []
    · have hnow := hcrc [] 0 nofun trivial List.not_mem_nil (hread [] 0)
      rwa [hnil]
    · have hnow := hcrc [t] 0 (fun _ _ => trivial) trivial (by
        rw [hreads]
        intro hmem
        exact hnil (Except.ok.inj (List.mem_singleton.1 hmem)).symm) (hread [t] 0)
      rw [hreads] at hnow
      simpa [Window.read_eq] using hnow
  · intro hcrc ns n _ _ _ _
    have hsplit := reads_window w ns
    have hfront := hcrc (received (reads ns w).1).length
    rw [← hsplit, List.take_left] at hfront
    rw [hreads]
    exact hfront

end ZipFile

section Opened

variable {a : ZipArchive} {m : CentralEntry} {password : Option Bytes}
  {f : ZipFile k (Take Source)}

/-- The reader of a stored entry that is not encrypted. -/
theorem ZipArchive.Opens.stored (h : a.Opens m password f) (hstored : m.method = .stored)
    (hplain : m.Unencrypted) :
    f.map Take.window =
      storedFile m f.dataStart (slice a.reader.bytes f.dataStart m.compressedSize) := by
  obtain ⟨-, dataStart, hopen⟩ := of_open (h.open_unencrypted hplain)
  obtain ⟨d, hnew, rfl⟩ := ZipFile.of_openPlain hopen
  rw [hstored] at hnew
  obtain rfl := Except.ok.inj hnew
  rfl

/-- What its reader is left with is what the window is left with. -/
theorem ZipArchive.Opens.reads_stored (h : a.Opens m password f) (hstored : m.method = .stored)
    (hplain : m.Unencrypted) (ns : List Nat) :
    ∃ w : Window IoError, ((reads ns f).2.map Take.window).decoder = .stored (.plain w) ∧
      received (reads ns f).1 ++ w.rest = slice a.reader.bytes f.dataStart m.compressedSize := by
  have hfile := h.stored hstored hplain
  have hrun := reads_map (ZipFile.readHom_map (k := k) readHom_window) ns f
  rw [hfile] at hrun
  have hdec := ZipFile.reads_decoder ns
    (storedFile (k := k) m f.dataStart (slice a.reader.bytes f.dataStart m.compressedSize))
  rw [hrun] at hdec
  have hwindow := reads_map (ZipFile.readHom_plain (k := k)) ns
    (⟨slice a.reader.bytes f.dataStart m.compressedSize⟩ : Window IoError)
  refine ⟨_, hdec.trans (congrArg Prod.snd hwindow), ?_⟩
  have hreceived := ZipFile.received_reads
    (storedFile (k := k) m f.dataStart (slice a.reader.bytes f.dataStart m.compressedSize)) ns
  rw [hrun] at hreceived
  have hfront : received (reads ns f).1 =
      received (reads ns (⟨slice a.reader.bytes f.dataStart m.compressedSize⟩ :
        Window IoError)).1 :=
    hreceived.trans (congrArg (fun run => received run.1) hwindow)
  rw [hfront]
  exact ZipFile.reads_window _ ns

/-- **Empty reads**: in which states of an entry's reader a read into an empty buffer is a
no-op. For a stored entry that is not encrypted, and while the CRC is still to be checked,
the recorded CRC-32 must be that of every front of the data that holds what was delivered. -/
theorem emptyRead_noOp_iff (hk : k.OwnErrors) (hopen : a.Opens m password f) (ns : List Nat) :
    (EmptyReadNoOp (reads ns f).2 ↔
      ((reads ns f).2.map Take.window).decoder.EmptyReadOk ∧
        ((reads ns f).2.Unchecked ∨ (reads ns f).2.CrcHolds fun _ => True)) ∧
    (m.method = .stored → m.Unencrypted → (reads ns f).2.verified = false →
      (EmptyReadNoOp (reads ns f).2 ↔ ∀ t, (received (reads ns f).1).length ≤ t →
        k.crc32 ((slice a.reader.bytes f.dataStart m.compressedSize).take t) = m.crc32)) := by
  constructor
  · have hstate : (reads ns f).2.Unchecked ∨ (reads ns f).2.Pending m (received (reads ns f).1) := by
      rcases hopen.verifyCrc_or_pending with h | h
      · have hnever : f.Unchecked := .inr h
        exact .inl (hnever.reads ns)
      · rcases h.verified_or_pending ns with hverified | hnext
        · exact .inl (.inl hverified)
        · exact .inr hnext
    have hdec : EmptyReadNoOp (reads ns f).2.decoder ↔
        ((reads ns f).2.map Take.window).decoder.EmptyReadOk := by
      rw [← Decoder.emptyReadNoOp_iff]
      exact (EmptyReadNoOp.map Decoder.readHom_window).symm
    rw [ZipFile.emptyReadNoOp_iff hk hstate, hdec]
    refine and_congr_right fun _ => ?_
    rcases hstate with h | h
    · exact ⟨fun _ => .inl h, fun _ => h.sameReads⟩
    · rw [h.sameReads_iff, or_iff_right h.not_unchecked]
  · intro hstored hplain hverified
    have hpending := ZipArchive.pending_of_open (hopen.open_unencrypted hplain)
    have hnext := (hpending.verified_or_pending ns).resolve_left (by rw [hverified]; nofun)
    rw [List.nil_append] at hnext
    have hwindow := hnext.map Take.window
    obtain ⟨w, hdec, hsplit⟩ := hopen.reads_stored hstored hplain ns
    have hok : EmptyReadNoOp ((reads ns f).2.map Take.window).decoder := by
      rw [Decoder.emptyReadNoOp_iff, hdec]
      trivial
    rw [← EmptyReadNoOp.map (ZipFile.readHom_map readHom_window),
      ZipFile.emptyReadNoOp_iff hk (.inr hwindow), and_iff_right hok, hwindow.sameReads_iff,
      ZipFile.crcHolds_stored_iff hdec, hwindow.hasher, hwindow.entry, ← hsplit]
    constructor
    · intro h t ht
      rw [List.take_append, List.take_of_length_le ht]
      exact h _
    · intro h t
      have hfront := h ((received (reads ns f).1).length + t) (Nat.le_add_right _ _)
      rwa [List.take_length_add_append] at hfront

end Opened

/-- Behind its three bytes, an empty read of the stored member is a no-op. -/
theorem storedArchive_emptyRead :
    ∃ a f, ZipArchive.new ⟨storedArchive 3, 0⟩ = .ok a ∧
      (a.byIndex 0 : Opened .plain) = .ok f ∧ (reads [8] f).1 = [.ok [0x61, 0x62, 0x63]] ∧
      EmptyReadNoOp (reads [8] f).2 := by
  obtain ⟨a, f, hnew, hbytes, hentry, hopen, hmap⟩ :=
    storedArchive_byIndex 3 ⟨"m", .stored, 0, 0x352441C2, 3, 3⟩ (by decide +kernel)
      (by decide +kernel)
  have hstart : f.dataStart = 31 := congrArg ZipFile.dataStart hmap
  have hreads : (reads [8] f).1 = [.ok [0x61, 0x62, 0x63]] := by
    rw [reads_view, hmap]
    decide +kernel
  have hstate := congrArg Prod.snd (reads_map (ZipFile.readHom_map (k := .plain) readHom_window) [8] f)
  rw [hmap] at hstate
  have hverified : (reads [8] f).2.verified = false := (congrArg ZipFile.verified hstate).symm
  have hnoOp := (emptyRead_noOp_iff Crates.plain_ownErrors (.byIndex 0 hentry hopen) [8]).2 rfl
    ⟨by simp [storedMember], rfl⟩ hverified
  refine ⟨a, f, hnew, hopen, hreads, hnoOp.2 fun t ht => ?_⟩
  rw [hreads] at ht
  have hall : slice a.reader.bytes f.dataStart (storedMember 3).compressedSize =
      [0x61, 0x62, 0x63] := by
    rw [hbytes, hstart]
    decide +kernel
  have hwhole : ([0x61, 0x62, 0x63] : Bytes).take t = [0x61, 0x62, 0x63] :=
    List.take_of_length_le ht
  rw [hall, hwhole]
  decide +kernel

/-- Before them it is a failed CRC check, which is not made again at the end. -/
theorem storedArchive_emptyRead_fails :
    ∃ a f, ZipArchive.new ⟨storedArchive 3, 0⟩ = .ok a ∧
      (a.byIndex 0 : Opened .plain) = .ok f ∧
      (reads [0, 8, 8] f).1 =
        [.error (.wrapped (.crcMismatch "m" 0x352441C2 0)), .ok [0x61, 0x62, 0x63], .ok []] ∧
      ¬ EmptyReadNoOp f := by
  obtain ⟨a, f, hnew, -, -, hopen, hmap⟩ :=
    storedArchive_byIndex 3 ⟨"m", .stored, 0, 0x352441C2, 3, 3⟩ (by decide +kernel)
      (by decide +kernel)
  have hreads : (reads [0, 8, 8] f).1 =
      [.error (.wrapped (.crcMismatch "m" 0x352441C2 0)), .ok [0x61, 0x62, 0x63], .ok []] := by
    rw [reads_view, hmap]
    decide +kernel
  refine ⟨a, f, hnew, hopen, hreads, fun h => ?_⟩
  rw [reads_cons, h.answer] at hreads
  cases (List.cons.inj hreads).1

end ZipForensic
