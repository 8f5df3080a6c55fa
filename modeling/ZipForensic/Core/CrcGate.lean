import ZipForensic.Core.Authentication
import ZipForensic.Core.StoredMembers
import ZipForensic.Stream.Received

/-!
# The CRC-32 gate of an entry reader (archive.rs)

`ZipFile` hashes what its decoder delivers and compares at the decoder's end of stream.

- `ZipFile.CrcGated`: nothing is lost or repeated on the way to the caller, nothing is
  checked early, and the first end of stream is answered according to the CRC-32 of
  everything delivered (`crcGated_and_emits`, for the entries of an archive).
- `ZipFile.Pending.finishes_iff`: its runs to the end without an error are those of the
  decoder that deliver the recorded CRC-32.
-/

namespace ZipForensic

variable {k : Crates}

/-! ## Where `CrcMismatch` comes from -/

/-- `ZipCoreError::CrcMismatch` in an `io::Error`. -/
def IoError.IsCrcMismatch (e : IoError) : Prop :=
  ∃ entry expected actual, e = .wrapped (.crcMismatch entry expected actual)

/-- Errors other than `CrcMismatch`. -/
def IoError.NotCrcMismatch (e : IoError) : Prop := ¬ e.IsCrcMismatch

theorem IoError.shortRead_notCrcMismatch : NotCrcMismatch shortRead := by
  rintro ⟨entry, expected, actual, h⟩
  cases h

/-- The streaming decoders have errors of their own: they do not know this crate's. -/
structure Crates.OwnErrors (k : Crates) : Prop where
  flate2 : k.flate2.RaisesOnly IoError.NotCrcMismatch
  deflate64 : k.deflate64.RaisesOnly IoError.NotCrcMismatch

section Readers

variable {ρ : Type} [Read IoError ρ] [RaisesOnly IoError.NotCrcMismatch ρ]

instance ZipCryptoReader.raisesOnly :
    RaisesOnly IoError.NotCrcMismatch (ZipCryptoReader ρ) where
  read_error {n r e} h := by
    simp only [Read.read] at h
    rcases hread : read n r.inner with ⟨e' | bs, inner⟩
    · rw [hread] at h
      obtain rfl := Except.error.inj h
      exact RaisesOnly.read_error (congrArg Prod.fst hread)
    · rw [hread] at h
      cases h

omit [Read IoError ρ] [RaisesOnly IoError.NotCrcMismatch ρ] in
theorem AesReader.refuse_notCrcMismatch (r : AesReader k ρ) : r.refuse.NotCrcMismatch := by
  rintro ⟨entry, expected, actual, h⟩
  cases h

theorem AesReader.finish_raises {r : AesReader k ρ} {e : IoError} (h : r.finish.1 = .error e) :
    e.NotCrcMismatch := by
  unfold finish at h
  rcases hread : readExact IoError.shortRead 10 r.inner with ⟨e' | code, inner⟩
  · rw [hread] at h
    obtain rfl := Except.error.inj h
    exact readExact_raises IoError.shortRead_notCrcMismatch (congrArg Prod.fst hread)
  · rw [hread] at h
    dsimp only at h
    split_ifs at h
    obtain rfl := Except.error.inj h
    exact refuse_notCrcMismatch r

instance AesReader.raisesOnly : RaisesOnly IoError.NotCrcMismatch (AesReader k ρ) where
  read_error {n r e} h := by
    simp only [Read.read] at h
    split_ifs at h
    · rcases hfin : ({ r with done := true } : AesReader k ρ).finish with ⟨e' | u, r'⟩
      · rw [hfin] at h
        obtain rfl := Except.error.inj h
        exact finish_raises (congrArg Prod.fst hfin)
      · rw [hfin] at h
        cases h
    · rcases hread : read (min n r.remaining) r.inner with ⟨e' | _ | ⟨b, bs⟩, inner⟩
      · rw [hread] at h
        obtain rfl := Except.error.inj h
        exact RaisesOnly.read_error (congrArg Prod.fst hread)
      · rw [hread] at h
        obtain rfl := Except.error.inj h
        exact refuse_notCrcMismatch r
      · rw [hread] at h
        cases h

instance StrongAesReader.raisesOnly :
    RaisesOnly IoError.NotCrcMismatch (StrongAesReader k ρ) where
  read_error {n r e} h := by
    simp only [Read.read] at h
    split_ifs at h
    · rcases hread : readExact IoError.shortRead aesBlock r.inner with ⟨e' | block, inner⟩
      · rw [hread] at h
        obtain rfl := Except.error.inj h
        exact readExact_raises IoError.shortRead_notCrcMismatch (congrArg Prod.fst hread)
      · rw [hread] at h
        cases h
    · cases h

instance EntryReader.raisesOnly : RaisesOnly IoError.NotCrcMismatch (EntryReader k ρ) where
  read_error {n r e} h := by
    cases r with
    | plain r => exact RaisesOnly.read_error (r := r) h
    | aes r => exact RaisesOnly.read_error (r := r) h
    | zipCrypto r => exact RaisesOnly.read_error (r := r) h
    | strong r => exact RaisesOnly.read_error (r := r) h
    | strongTake r => exact RaisesOnly.read_error (r := r) h

/-- Below the gate nothing reports a CRC mismatch. -/
theorem Decoder.raisesOnly (hk : k.OwnErrors) :
    RaisesOnly IoError.NotCrcMismatch (Decoder k ρ) where
  read_error {n d e} h := by
    cases d with
    | stored r => exact RaisesOnly.read_error (r := r) h
    | deflate p => exact (Pipe.raisesOnly hk.flate2).read_error (r := p) h
    | deflate64 p => exact (Pipe.raisesOnly hk.deflate64).read_error (r := p) h
    | buffered decoded input => exact RaisesOnly.read_error (r := decoded) h

end Readers

/-! ## The gate -/

namespace ZipFile

variable {τ : Type} [Read IoError τ]

/-- The CRC-32 gate of the reader of entry `m`. -/
structure CrcGated (m : CentralEntry) (f : ZipFile k τ) : Prop where
  /-- The caller gets the decoder's output, in order. -/
  passes : ∀ ns, (∀ n ∈ ns, 0 < n) → received (reads ns f).1 = received (reads ns f.decoder).1
  /-- Before the decoder's end of stream its answers are handed on, and no CRC is compared. -/
  before : ∀ ns, (∀ n ∈ ns, 0 < n) → .ok [] ∉ (reads ns f.decoder).1 →
    (reads ns f).1 = (reads ns f.decoder).1 ∧
      ∀ e, .error e ∈ (reads ns f).1 → ¬ e.IsCrcMismatch
  /-- The first end of stream is answered by the CRC-32 of everything before it. -/
  atEnd : ∀ ns n, (∀ n ∈ ns, 0 < n) → 0 < n → .ok [] ∉ (reads ns f.decoder).1 →
    (read n (reads ns f.decoder).2).1 = .ok [] →
      (read n (reads ns f).2).1 =
        if k.crc32 (received (reads ns f).1) = m.crc32 then .ok []
        else .error (.wrapped (.crcMismatch m.name m.crc32 (k.crc32 (received (reads ns f).1))))

/-- A reader of entry `m` whose CRC is still to be checked, fed `fed` so far. -/
structure Pending (m : CentralEntry) (fed : Bytes) (f : ZipFile k τ) : Prop where
  entry : f.entry = m
  hasher : f.hasher = fed
  bytesOut : f.bytesOut = fed.length
  verified : f.verified = false
  verifyCrc : f.verifyCrc = true

variable {m : CentralEntry} {f : ZipFile k τ} {fed : Bytes}

omit [Read IoError τ] in
theorem pending_start (m : CentralEntry) (dataStart : Nat) (d : Decoder k (EntryReader k τ)) :
    Pending m [] (start m dataStart true d) :=
  ⟨rfl, rfl, rfl, rfl, rfl⟩

omit [Read IoError τ] in
theorem deliveredBytes_deliver (f : ZipFile k τ)
    (x : Except IoError Bytes × Decoder k (EntryReader k τ)) :
    deliveredBytes (f.deliver x).1 = deliveredBytes x.1 := by
  rcases x with ⟨e | _ | ⟨b, bs⟩, d⟩
  · rfl
  · show deliveredBytes f.endOfStream = []
    unfold endOfStream
    split_ifs <;> rfl
  · rfl

theorem received_reads (f : ZipFile k τ) (ns : List Nat) :
    received (reads ns f).1 = received (reads ns f.decoder).1 := by
  induction ns generalizing f with
  | nil => rfl
  | cons n ns ih =>
    rw [reads_cons, reads_cons, received_cons, received_cons, ih, read_decoder]
    exact congrArg (· ++ _) (deliveredBytes_deliver f (read n f.decoder))

theorem Pending.read (h : Pending m fed f) {n : Nat} (hread : (read n f.decoder).1 ≠ .ok []) :
    (ZipForensic.read n f).1 = (ZipForensic.read n f.decoder).1 ∧
      Pending m (fed ++ deliveredBytes (ZipForensic.read n f.decoder).1)
        (ZipForensic.read n f).2 := by
  show (f.deliver (ZipForensic.read n f.decoder)).1 = _ ∧
    Pending m _ (f.deliver (ZipForensic.read n f.decoder)).2
  rcases hdec : ZipForensic.read n f.decoder with ⟨e | _ | ⟨b, bs⟩, d⟩
  · refine ⟨rfl, h.entry, ?_, ?_, h.verified, h.verifyCrc⟩
    · rw [deliveredBytes_error, List.append_nil]
      exact h.hasher
    · rw [deliveredBytes_error, List.append_nil]
      exact h.bytesOut
  · rw [hdec] at hread
    exact absurd rfl hread
  · refine ⟨rfl, h.entry, ?_, ?_, h.verified, h.verifyCrc⟩
    · show f.hasher ++ (b :: bs) = _
      rw [h.hasher, deliveredBytes_ok]
    · show f.bytesOut + (b :: bs).length = _
      rw [h.bytesOut, deliveredBytes_ok, List.length_append]

theorem Pending.reads (h : Pending m fed f) {ns : List Nat}
    (hend : .ok [] ∉ (reads ns f.decoder).1) :
    (ZipForensic.reads ns f).1 = (ZipForensic.reads ns f.decoder).1 ∧
      Pending m (fed ++ received (ZipForensic.reads ns f.decoder).1)
        (ZipForensic.reads ns f).2 := by
  induction ns generalizing f fed with
  | nil =>
    refine ⟨rfl, ?_⟩
    rw [ZipForensic.reads_nil, received_nil, List.append_nil]
    exact h
  | cons n ns ih =>
    rw [reads_cons, List.mem_cons, not_or] at hend
    obtain ⟨hread, hfed⟩ := h.read (Ne.symm hend.1)
    have hrest : .ok [] ∉ (ZipForensic.reads ns (ZipForensic.read n f).2.decoder).1 := by
      rw [read_decoder]
      exact hend.2
    obtain ⟨hreads, hall⟩ := ih hfed hrest
    rw [read_decoder] at hreads hall
    constructor
    · rw [reads_cons, reads_cons, hread, hreads]
    · rw [reads_cons, reads_cons, received_cons, ← List.append_assoc]
      exact hall

/-- The answer at the first end of stream. -/
theorem Pending.read_end (h : Pending m fed f) {n : Nat}
    (hread : (ZipForensic.read n f.decoder).1 = .ok []) :
    (ZipForensic.read n f).1 = if k.crc32 fed = m.crc32 then .ok []
      else .error (.wrapped (.crcMismatch m.name m.crc32 (k.crc32 fed))) := by
  show (f.deliver (ZipForensic.read n f.decoder)).1 = _
  rcases hdec : ZipForensic.read n f.decoder with ⟨e | _ | ⟨b, bs⟩, d⟩
  · rw [hdec] at hread
    cases hread
  · show f.endOfStream = _
    unfold endOfStream crcMismatch
    simp only [h.verified, h.verifyCrc, h.hasher, h.entry, Bool.false_eq_true, if_false, true_and,
      ne_eq]
    by_cases hcrc : k.crc32 fed = m.crc32
    · rw [if_neg (not_not_intro hcrc), if_pos hcrc]
    · rw [if_pos hcrc, if_neg hcrc]
  · rw [hdec] at hread
    cases hread

/-- One read of a reader whose decoder still emits `rest`. -/
theorem read_of_emits {rest : Bytes} (hdec : Emits f.decoder rest)
    (hcrc : k.crc32 (f.hasher ++ rest) = f.entry.crc32) {n : Nat} (hn : 0 < n) :
    ∃ bs rest', (read n f).1 = .ok bs ∧ bs ++ rest' = rest ∧ (bs = [] → rest = []) ∧
      (read n f).2.hasher = f.hasher ++ bs ∧ (read n f).2.entry = f.entry ∧
      Emits (read n f).2.decoder rest' := by
  obtain ⟨bs, hread, ⟨rest', hsplit⟩, hend⟩ := hdec [] n nofun hn
  change (read n f.decoder).1 = .ok bs at hread
  change bs ++ rest' = rest at hsplit
  have hnext := hdec.after hn hread
  rw [← hsplit, List.drop_left] at hnext
  have hempty : bs = [] → rest = [] := fun hbs => (hend.1 hbs).symm
  obtain ⟨d, hraw⟩ : ∃ d, read n f.decoder = (.ok bs, d) := ⟨_, Prod.ext hread rfl⟩
  rw [hraw] at hnext
  show ∃ bs rest', (f.deliver (read n f.decoder)).1 = .ok bs ∧ bs ++ rest' = rest ∧ _ ∧
    (f.deliver (read n f.decoder)).2.hasher = f.hasher ++ bs ∧
    (f.deliver (read n f.decoder)).2.entry = f.entry ∧
    Emits (f.deliver (read n f.decoder)).2.decoder rest'
  rw [hraw]
  cases bs with
  | nil =>
    -- everything is hashed: the CRC is the recorded one
    rw [hempty rfl, List.append_nil] at hcrc
    refine ⟨[], rest', ?_, hsplit, hempty, (List.append_nil _).symm, rfl, hnext⟩
    show f.endOfStream = .ok []
    have hgood : ¬ (f.verifyCrc = true ∧ k.crc32 f.hasher ≠ f.entry.crc32) := fun h => h.2 hcrc
    rw [endOfStream, if_neg hgood, ite_self]
  | cons b bs => exact ⟨b :: bs, rest', rfl, hsplit, hempty, rfl, rfl, hnext⟩

/-- Behind the gate comes what the decoder emits, if it has the recorded CRC. -/
theorem Pending.emits {data : Bytes} (h : Pending m [] f) (hdec : Emits f.decoder data)
    (hcrc : k.crc32 data = m.crc32) : Emits f data := by
  -- the bytes handed on are the ones hashed
  have hdrains : Drains (fun f : ZipFile k τ => data.drop f.hasher.length) fun f =>
      ∃ rest, f.hasher ++ rest = data ∧ f.entry = m ∧ Emits f.decoder rest := by
    refine ⟨?_⟩
    rintro f n ⟨rest, rfl, rfl, hdec⟩ hn
    obtain ⟨bs, rest', hread, rfl, hend, hhasher, hentry, hnext⟩ := read_of_emits hdec hcrc hn
    refine ⟨bs, hread, ?_, ?_, rest', ?_, hentry, hnext⟩
    · rw [hhasher, ← List.append_assoc, List.drop_left, List.append_assoc, List.drop_left]
    · rw [List.drop_left]
      exact hend
    · rw [hhasher, List.append_assoc]
  have hemits := hdrains.emits (r := f) ⟨data, by rw [h.hasher]; rfl, h.entry, hdec⟩
  rw [h.hasher] at hemits
  exact hemits

theorem Pending.crcGated (hk : k.OwnErrors) [RaisesOnly IoError.NotCrcMismatch τ]
    (h : Pending m [] f) : f.CrcGated m where
  passes ns _ := received_reads f ns
  before ns _ hend := by
    have hpass := (h.reads hend).1
    refine ⟨hpass, fun e he => ?_⟩
    rw [hpass] at he
    exact (Decoder.raisesOnly hk).of_mem_reads he
  atEnd ns n _ _ hend hread := by
    have hfed := (h.reads hend).2
    rw [List.nil_append, ← received_reads] at hfed
    exact hfed.read_end (by rw [reads_decoder]; exact hread)

end ZipFile

/-! ## Entries of an archive -/

/-- The window of the file behind the local header of an entry. -/
def entryWindow (F : Bytes) (m : CentralEntry) (dataStart : Nat) : Take Source :=
  ⟨⟨F, dataStart⟩, m.compressedSize⟩

section Opened

variable {a : ZipArchive} {m : CentralEntry} {f : ZipFile k (Take Source)}

theorem ZipArchive.exists_lfh_of_openAt
    {setup : Nat → Take Source → Except (ZipCoreError × Take Source) (ZipFile k (Take Source))}
    (h : a.openAt m setup = .ok f) :
    ∃ fields dataStart, lfhAt a.reader.bytes m.lfhOffset = .ok (fields, dataStart) ∧
      setup dataStart (entryWindow a.reader.bytes m dataStart) = .ok f := by
  obtain ⟨pos, hlfh⟩ := views_readLfhFields a.reader.bytes m.lfhOffset a.reader.pos
  unfold ZipArchive.openAt at h
  rw [hlfh] at h
  cases hfields : lfhAt a.reader.bytes m.lfhOffset with
  | error e =>
    rw [hfields] at h
    cases h
  | ok fields =>
    rw [hfields] at h
    refine ⟨fields.1, fields.2, rfl, ?_⟩
    dsimp only at h
    rcases hset : setup fields.2 (entryWindow a.reader.bytes m fields.2) with e | g
    · rw [entryWindow] at hset
      rw [hset] at h
      cases h
    · rw [entryWindow] at hset
      rw [hset] at h
      exact congrArg Except.ok (Except.ok.inj h)

theorem ZipArchive.of_openAt
    {setup : Nat → Take Source → Except (ZipCoreError × Take Source) (ZipFile k (Take Source))}
    (h : a.openAt m setup = .ok f) :
    ∃ dataStart, setup dataStart (entryWindow a.reader.bytes m dataStart) = .ok f := by
  obtain ⟨-, dataStart, -, hset⟩ := exists_lfh_of_openAt h
  exact ⟨dataStart, hset⟩

theorem ZipArchive.of_open (h : (a.open m : Opened k) = .ok f) :
    m.flags &&& 0x0001 = 0 ∧ ∃ dataStart,
      ZipFile.openPlain m dataStart (entryWindow a.reader.bytes m dataStart) = .ok f := by
  unfold ZipArchive.open at h
  cases hdisk : checkLocalDisk m a.summary.diskNumber a.summary.cdStartDisk with
  | error e =>
    rw [hdisk] at h
    cases h
  | ok u =>
    rw [hdisk] at h
    dsimp only at h
    split_ifs at h with hflag
    · cases h
    · exact ⟨not_not.1 hflag, of_openAt h⟩

variable {dataStart : Nat} {window : Take Source}

theorem ZipFile.of_openPlain (h : openPlain m dataStart window = .ok f) :
    ∃ d, Decoder.new m.method m.uncompressedSize (.plain window) = .ok d ∧
      f = start m dataStart true d :=
  of_decode h

end Opened

section Encrypted

variable {τ : Type} [Read IoError τ] {m : CentralEntry} {password : Bytes} {dataStart : Nat}
  {window : τ} {f : ZipFile k τ}

/-- The decoder is set up over the reader of the file data, for a stored entry up to its size. -/
theorem ZipFile.reader_of_openStrong (h : openStrong m password dataStart window = .ok f) :
    ∃ hdr window' strong d,
      ReadM.runOn (readStrongHeader k password m.crc32 m.uncompressedSize m.name) window =
        (.ok hdr, window') ∧
      StrongAesReader.new window' hdr.fileKey hdr.iv (m.compressedSize - hdr.headerLen) m.name =
        .ok strong ∧
      Decoder.new m.method m.uncompressedSize
        (if m.method = .stored then .strongTake ⟨strong, m.uncompressedSize⟩ else .strong strong) =
          .ok d ∧
      f = start m dataStart true d := by
  unfold openStrong at h
  rcases hrun : ReadM.runOn (readStrongHeader k password m.crc32 m.uncompressedSize m.name) window
    with ⟨e | hdr, w⟩
  · rw [hrun] at h
    cases h
  · rw [hrun] at h
    dsimp only at h
    cases hnew : (StrongAesReader.new w hdr.fileKey hdr.iv (m.compressedSize - hdr.headerLen)
      m.name : Except ZipCoreError (StrongAesReader k τ)) with
    | error e =>
      rw [hnew] at h
      cases h
    | ok strong =>
      rw [hnew] at h
      obtain ⟨d, hd, rfl⟩ := of_decode h
      exact ⟨hdr, w, strong, d, rfl, hnew, hd, rfl⟩

end Encrypted

section Opened

variable {a : ZipArchive} {m : CentralEntry} {f : ZipFile k (Take Source)}

theorem ZipArchive.pending_of_open (h : (a.open m : Opened k) = .ok f) : f.Pending m [] := by
  obtain ⟨-, dataStart, hopen⟩ := of_open h
  obtain ⟨d, -, rfl⟩ := ZipFile.of_openPlain hopen
  exact ZipFile.pending_start m dataStart d

theorem ZipArchive.start_of_openDecrypt {password : Bytes}
    (h : (a.openDecrypt m password : Opened k) = .ok f) :
    ∃ dataStart verifyCrc d, f = .start m dataStart verifyCrc d ∧
      (verifyCrc = false → ∃ aes, m.aes = some aes ∧ aes.isAe2 = true) := by
  unfold ZipArchive.openDecrypt at h
  cases hdisk : checkLocalDisk m a.summary.diskNumber a.summary.cdStartDisk with
  | error e =>
    rw [hdisk] at h
    cases h
  | ok u =>
    rw [hdisk] at h
    dsimp only at h
    split_ifs at h
    · obtain ⟨-, dataStart, hopen⟩ := of_open h
      obtain ⟨d, -, rfl⟩ := ZipFile.of_openPlain hopen
      exact ⟨dataStart, true, d, rfl, nofun⟩
    · cases h
    · obtain ⟨dataStart, hset⟩ := of_openAt h
      obtain ⟨-, -, -, d, -, -, -, rfl⟩ := ZipFile.reader_of_openStrong hset
      exact ⟨dataStart, true, d, rfl, nofun⟩
    · obtain ⟨dataStart, hset⟩ := of_openAt h
      rcases ZipFile.reader_of_openEncrypted hset with ⟨aes, -, d, haes, -, -, rfl⟩ | ⟨-, d, -, -, rfl⟩
      · exact ⟨dataStart, !aes.isAe2, d, rfl, fun hcrc => ⟨aes, haes, by simpa using hcrc⟩⟩
      · exact ⟨dataStart, true, d, rfl, nofun⟩

theorem ZipArchive.pending_of_openDecrypt {password : Bytes}
    (hcrc : ∀ aes, m.aes = some aes → aes.isAe2 = false)
    (h : (a.openDecrypt m password : Opened k) = .ok f) : f.Pending m [] := by
  obtain ⟨dataStart, verifyCrc, d, rfl, hae2⟩ := start_of_openDecrypt h
  cases verifyCrc with
  | true => exact ZipFile.pending_start m dataStart d
  | false =>
    obtain ⟨aes, haes, htrue⟩ := hae2 rfl
    rw [hcrc aes haes] at htrue
    cases htrue

/-- The entry `m` was opened as `f`, by its index and with CRC verification on: with a
password, everything but AE-2. -/
inductive ZipArchive.CrcChecked (a : ZipArchive) (m : CentralEntry)
    (f : ZipFile k (Take Source)) : Prop
  | byIndex (i : Nat) (entry : a.entries[i]? = some m) (opened : a.byIndex i = .ok f)
  | byIndexDecrypt (i : Nat) (password : Bytes) (entry : a.entries[i]? = some m)
      (crc : ∀ aes, m.aes = some aes → aes.isAe2 = false)
      (opened : a.byIndexDecrypt i password = .ok f)

theorem ZipArchive.of_byIndex {i : Nat} (h : (a.byIndex i : Opened k) = .ok f) :
    a.entries[i]? = some f.entry ∧ (a.open f.entry : Opened k) = .ok f := by
  unfold ZipArchive.byIndex at h
  cases hentry : a.entries[i]? with
  | none =>
    rw [hentry] at h
    cases h
  | some m =>
    rw [hentry] at h
    obtain rfl := (pending_of_open h).entry
    exact ⟨rfl, h⟩

theorem ZipArchive.CrcChecked.pending (h : a.CrcChecked m f) : f.Pending m [] := by
  cases h with
  | byIndex i entry opened =>
    obtain ⟨hentry, hopen⟩ := of_byIndex opened
    obtain rfl := Option.some.inj (entry.symm.trans hentry)
    exact pending_of_open hopen
  | byIndexDecrypt i password entry crc opened =>
    unfold ZipArchive.byIndexDecrypt at opened
    rw [entry] at opened
    exact pending_of_openDecrypt crc opened

/-- An entry that no password concerns. -/
def CentralEntry.Unencrypted (m : CentralEntry) : Prop := m.flags &&& 0x0001 = 0 ∧ m.aes = none

/-- Its password is irrelevant. -/
theorem ZipArchive.open_of_openDecrypt {password : Bytes} (hplain : m.Unencrypted)
    (h : (a.openDecrypt m password : Opened k) = .ok f) : (a.open m : Opened k) = .ok f := by
  unfold ZipArchive.openDecrypt at h
  cases hdisk : checkLocalDisk m a.summary.diskNumber a.summary.cdStartDisk with
  | error e =>
    rw [hdisk] at h
    cases h
  | ok u =>
    rw [hdisk] at h
    dsimp only at h
    have hplain' : m.flags &&& 0x0001 = 0 ∧ m.aes = none := hplain
    rwa [if_pos hplain'] at h

theorem ZipArchive.CrcChecked.open (h : a.CrcChecked m f) (hplain : m.Unencrypted) :
    (a.open m : Opened k) = .ok f := by
  cases h with
  | byIndex i entry opened =>
    obtain ⟨hentry, hopen⟩ := of_byIndex opened
    obtain rfl := Option.some.inj (entry.symm.trans hentry)
    exact hopen
  | byIndexDecrypt i password entry crc opened =>
    unfold ZipArchive.byIndexDecrypt at opened
    rw [entry] at opened
    exact open_of_openDecrypt hplain opened

/-- The decoder of a stored entry delivers the bytes of the file from its data start on. -/
theorem ZipArchive.emits_of_open (h : (a.open m : Opened k) = .ok f) (hstored : m.method = .stored) :
    Emits f.decoder (slice a.reader.bytes f.dataStart m.compressedSize) := by
  obtain ⟨-, dataStart, hopen⟩ := of_open h
  obtain ⟨d, hnew, rfl⟩ := ZipFile.of_openPlain hopen
  rw [hstored] at hnew
  obtain rfl := Except.ok.inj hnew
  have hwindow : Emits (Take.window (entryWindow a.reader.bytes m dataStart))
      (slice a.reader.bytes dataStart m.compressedSize) := Window.drains.emits trivial
  have hentry : Emits (entryWindow a.reader.bytes m dataStart)
      (slice a.reader.bytes dataStart m.compressedSize) := (Emits.map readHom_window).1 hwindow
  have hstack : ReadHom fun w : Take Source =>
      (Decoder.stored (.plain w) : Decoder k (EntryReader k (Take Source))) :=
    ⟨fun _ _ => rfl, fun _ => rfl⟩
  exact (Emits.map hstack).2 hentry

/-- Reading a stored entry to its end. -/
theorem ZipArchive.readToEnd_of_open (h : (a.open m : Opened k) = .ok f)
    (hstored : m.method = .stored) :
    (readToEnd f).1 =
      if k.crc32 (slice a.reader.bytes f.dataStart m.compressedSize) = m.crc32 then
        .ok (slice a.reader.bytes f.dataStart m.compressedSize)
      else .error (.wrapped (.crcMismatch m.name m.crc32
        (k.crc32 (slice a.reader.bytes f.dataStart m.compressedSize)))) := by
  obtain ⟨-, dataStart, hopen⟩ := of_open h
  obtain ⟨d, hnew, rfl⟩ := ZipFile.of_openPlain hopen
  rw [hstored] at hnew
  obtain rfl := Except.ok.inj hnew
  rw [readToEnd_view]
  exact readToEnd_stored m dataStart _

/-- **The CRC-32 gate**: the reader of an entry of an archive is gated by the CRC of its
central header, and behind the gate a stored entry that is not encrypted has the bytes of
the file from its data start on, up to its compressed size or the end of the file. -/
theorem crcGated_and_emits (hk : k.OwnErrors) (hopen : a.CrcChecked m f) :
    f.CrcGated m ∧ (m.method = .stored → m.Unencrypted →
      Emits f.decoder (slice a.reader.bytes f.dataStart m.compressedSize)) :=
  ⟨hopen.pending.crcGated hk, fun hstored hplain =>
    ZipArchive.emits_of_open (hopen.open hplain) hstored⟩

end Opened

theorem Codec.empty_raisesOnly {P : IoError → Prop} : (Codec.empty IoError).RaisesOnly P where
  out h := by cases h
  onEnd h := by cases h
  onError h := by cases h

theorem Crates.plain_ownErrors : Crates.plain.OwnErrors :=
  ⟨Codec.empty_raisesOnly, Codec.empty_raisesOnly⟩

/-- The archive of one stored member, and the member's reader. -/
theorem storedArchive_byIndex (size : UInt8) (fields : HeaderFields)
    (hdir : directoryOf (storedArchive size) = .ok (storedDirectory size))
    (hlfh : lfhAt (storedArchive size) 0 = .ok (fields, 31)) :
    ∃ a f, ZipArchive.new ⟨storedArchive size, 0⟩ = .ok a ∧
      a.reader.bytes = storedArchive size ∧ a.entries[0]? = some (storedMember size) ∧
      (a.byIndex 0 : Opened .plain) = .ok f ∧
      f.map Take.window = storedFile (storedMember size) 31 (slice (storedArchive size) 31 3) := by
  obtain ⟨pos, hnew⟩ := new_of_directoryOf hdir 0
  have hdisk : checkLocalDisk (storedMember size) 0 0 = .ok () := rfl
  have hopen := openedPlain_stored (k := .plain) hdisk (by simp [storedMember]) (by rfl) hlfh
  have hview := view_open (k := .plain)
    ⟨⟨storedArchive size, pos⟩, [storedMember size], (storedDirectory size).2⟩ (storedMember size)
  obtain ⟨f, hf, hmap⟩ := exists_of_view (hview.trans hopen)
  exact ⟨_, f, hnew, rfl, rfl, hf, hmap⟩

/-- The gate of a stored member. -/
theorem storedArchive_crcGated :
    ∃ a f, ZipArchive.new ⟨storedArchive 3, 0⟩ = .ok a ∧
      (a.byIndex 0 : Opened .plain) = .ok f ∧ f.CrcGated (storedMember 3) ∧
      Emits f.decoder [0x61, 0x62, 0x63] := by
  obtain ⟨a, f, hnew, hbytes, hentry, hopen, hmap⟩ :=
    storedArchive_byIndex 3 ⟨"m", .stored, 0, 0x352441C2, 3, 3⟩ (by decide +kernel)
      (by decide +kernel)
  obtain ⟨hgate, hemits⟩ := crcGated_and_emits Crates.plain_ownErrors (.byIndex 0 hentry hopen)
  have hdata := hemits (by rfl) ⟨by simp [storedMember], rfl⟩
  have hstart : f.dataStart = 31 := congrArg ZipFile.dataStart hmap
  rw [hbytes, hstart] at hdata
  exact ⟨a, f, hnew, hopen, hgate, hdata⟩

/-! ## Runs to the end -/

namespace ZipFile

variable {τ : Type} [Read IoError τ] {m : CentralEntry} {f : ZipFile k τ}

theorem of_read_cons {n : Nat} {b : UInt8} {bs : Bytes} (h : (read n f).1 = .ok (b :: bs)) :
    (read n f.decoder).1 = .ok (b :: bs) := by
  change (f.deliver (read n f.decoder)).1 = _ at h
  rcases hdec : read n f.decoder with ⟨e | _ | ⟨b', bs'⟩, d⟩
  · rw [hdec] at h
    cases h
  · rw [hdec] at h
    change f.endOfStream = _ at h
    unfold endOfStream at h
    split_ifs at h
    · cases h
    · cases h
  · rw [hdec] at h
    exact h

/-- What the reader delivers is what its decoder delivers. -/
theorem reads_decoder_of_delivers {ns : List Nat}
    (h : ∀ x ∈ (reads ns f).1, ∃ b bs, x = .ok (b :: bs)) :
    (reads ns f.decoder).1 = (reads ns f).1 := by
  induction ns generalizing f with
  | nil => rfl
  | cons n ns ih =>
    rw [reads_cons] at h
    obtain ⟨b, bs, hread⟩ := h _ (List.mem_cons_self ..)
    have hrest := ih fun x hx => h x (List.mem_cons_of_mem _ hx)
    rw [read_decoder] at hrest
    rw [reads_cons, reads_cons, hread, of_read_cons hread, hrest]

/-- A run ends without an error where the decoder's does, if the CRC is the recorded one. -/
theorem Pending.finishes_iff (h : Pending m [] f) {ns : List Nat} {n : Nat} {data : Bytes} :
    Finishes f ns n data ↔ Finishes f.decoder ns n data ∧ k.crc32 data = m.crc32 := by
  constructor
  · intro hfin
    have hsame := reads_decoder_of_delivers hfin.delivers
    have hend := decoder_read_end hfin.ends
    have hnot : .ok [] ∉ (ZipForensic.reads ns f.decoder).1 := by
      rw [hsame]
      exact hfin.not_mem
    have hfed := (h.reads hnot).2
    rw [List.nil_append, hsame, hfin.data_eq] at hfed
    have hgate := hfed.read_end hend
    rw [hfin.ends] at hgate
    rw [reads_decoder] at hend
    refine ⟨⟨?_, ?_, hend⟩, ?_⟩
    · rw [hsame]
      exact hfin.delivers
    · rw [hsame]
      exact hfin.data_eq
    · by_contra hcrc
      rw [if_neg hcrc] at hgate
      cases hgate
  · rintro ⟨hfin, hcrc⟩
    obtain ⟨hsame, hfed⟩ := h.reads hfin.not_mem
    rw [List.nil_append, hfin.data_eq] at hfed
    refine ⟨?_, ?_, ?_⟩
    · rw [hsame]
      exact hfin.delivers
    · rw [hsame]
      exact hfin.data_eq
    · rw [hfed.read_end (by rw [reads_decoder]; exact hfin.ends), if_pos hcrc]

end ZipFile

end ZipForensic
