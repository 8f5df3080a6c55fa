import ZipForensic.Core.StoredEntry

/-!
# Entries as functions of the file's bytes

Everything an entry's readers deliver depends on the archive's file, not on where
its reader happens to stand: each access starts with a seek.

- `lfhAt`: the local file header at an offset, as a function of the bytes
  (`views_readLfhFields`), and field by field (`lfhAt_eq`).
- `Opened.view`: an opened entry with its limited file reader replaced by the
  window of bytes that reader shows. Reads do not see the difference
  (`reads_view`, `readToEnd_view`), and opening commutes with it (`view_openAt`).
-/

namespace ZipForensic

open ArchiveM

variable {k : Crates} {α β : Type}

/-- `x` answers `r` on the file `F`, wherever the reader stands. -/
def Views (x : ArchiveM α) (F : Bytes) (r : Res ZipCoreError α) : Prop :=
  ∀ pos, ∃ pos', runOn x ⟨F, pos⟩ = (r, ⟨F, pos'⟩)

namespace Views

variable {F : Bytes} {x : ArchiveM α} {f : α → ArchiveM β}

theorem ofRes (r : Res ZipCoreError α) : Views (ArchiveM.ofRes r) F r := fun pos => ⟨pos, rfl⟩

theorem pure (a : α) : Views (Pure.pure a) F (.ok a) := fun pos => ⟨pos, rfl⟩

theorem err (e : ZipCoreError) : Views (ArchiveM.err e : ArchiveM α) F (Res.err e) :=
  fun pos => ⟨pos, rfl⟩

theorem bind_ok {a : α} {r : Res ZipCoreError β} (hx : Views x F (.ok a)) (hf : Views (f a) F r) :
    Views (x >>= f) F r := by
  intro pos
  obtain ⟨pos', hrun⟩ := hx pos
  obtain ⟨pos'', hrun'⟩ := hf pos'
  exact ⟨pos'', by rw [runOn_bind_ok f hrun, hrun']⟩

theorem bind_error {e : Fault ZipCoreError} (hx : Views x F (.error e)) :
    Views (x >>= f) F (.error e) := by
  intro pos
  obtain ⟨pos', hrun⟩ := hx pos
  exact ⟨pos', runOn_bind_error f hrun⟩

theorem bind {r : Res ZipCoreError α} {s : α → Res ZipCoreError β} (hx : Views x F r)
    (hf : ∀ a, r = .ok a → Views (f a) F (s a)) : Views (x >>= f) F (r >>= s) := by
  rcases r with e | a
  · exact bind_error hx
  · exact bind_ok hx (hf a rfl)

theorem ite {p : Prop} [Decidable p] {y : ArchiveM α} {r s : Res ZipCoreError α}
    (hx : p → Views x F r) (hy : ¬ p → Views y F s) :
    Views (if p then x else y) F (if p then r else s) := by
  split_ifs with h
  · exact hx h
  · exact hy h

/-- A seek followed by a read of bytes that are there. -/
theorem seek_read {off n : Nat} {g : Bytes → ArchiveM β} {r : Res ZipCoreError β}
    (h : off + n ≤ F.length) (hg : Views (g (slice F off n)) F r) :
    Views (seekStart off >>= fun _ => ArchiveM.readExact n >>= g) F r := by
  intro pos
  obtain ⟨pos', hrun⟩ := hg (off + n)
  refine ⟨pos', ?_⟩
  rw [runOn_bind_ok _ (runOn_seekStart off ⟨F, pos⟩), runOn_bind_ok _ (runOn_readExact h), hrun]

/-- A seek followed by a read past the end of the file. -/
theorem seek_read_short {off n : Nat} {g : Bytes → ArchiveM β} (h : ¬ off + n ≤ F.length) :
    Views (seekStart off >>= fun _ => ArchiveM.readExact n >>= g) F
      (Res.err (.io .shortRead)) := by
  intro pos
  refine ⟨F.length, ?_⟩
  rw [runOn_bind_ok _ (runOn_seekStart off ⟨F, pos⟩),
    runOn_bind_error _ (runOn_readExact_short h)]
  rfl

end Views

/-! ## Local file headers -/

/-- The local file header at `off`. -/
def lfhAt (F : Bytes) (off : Nat) : Res ZipCoreError (HeaderFields × Nat) :=
  if off + lfhFixed ≤ F.length then
    match Reader.runOn (parseLfhFixed off) (slice F off lfhFixed) with
    | .error e => Res.err (.format e)
    | .ok ((flags, method, crc32, compressedSize, uncompressedSize, nameLen, extraLen), _) =>
      if off + lfhFixed + nameLen ≤ F.length then do
        let name := decodeName (slice F (off + lfhFixed) nameLen) flags
        let nameStart ← addU64 off lfhFixed
        let extraStart ← addU64 nameStart nameLen
        let dataStart ← addU64 extraStart extraLen
        return ({ name, method, flags, crc32, compressedSize, uncompressedSize }, dataStart)
      else
        Res.err (.io .shortRead)
  else
    Res.err (.io .shortRead)

theorem views_readLfhFields (F : Bytes) (off : Nat) : Views (readLfhFields off) F (lfhAt F off) := by
  intro pos
  unfold readLfhFields lfhAt
  rw [runOn_bind_ok _ (runOn_seekStart off ⟨F, pos⟩)]
  by_cases hfixed : off + lfhFixed ≤ F.length
  · rw [runOn_bind_ok _ (runOn_readExact hfixed), if_pos hfixed]
    unfold ofReader
    rcases Reader.runOn (parseLfhFixed off) (slice F off lfhFixed) with e |
      ⟨⟨flags, method, crc32, compressedSize, uncompressedSize, nameLen, extraLen⟩, rest⟩
    · exact ⟨_, rfl⟩
    · rw [runOn_bind_ok _ (runOn_pure _ _)]
      dsimp only
      by_cases hname : off + lfhFixed + nameLen ≤ F.length
      · rw [runOn_bind_ok _ (runOn_readExact hname), if_pos hname]
        refine Views.bind (.ofRes _) (fun nameStart _ => ?_) _
        refine .bind (.ofRes _) fun extraStart _ => .bind (.ofRes _) fun dataStart _ => .pure _
      · rw [runOn_bind_error _ (runOn_readExact_short hname), if_neg hname]
        exact ⟨_, rfl⟩
  · rw [runOn_bind_error _ (runOn_readExact_short hfixed), if_neg hfixed]
    exact ⟨_, rfl⟩

/-- The length of the name of the local header at `off`. -/
def localNameLen (F : Bytes) (off : Nat) : Nat := leNat (slice F (off + 26) 2)

/-- The fields of the local header at `off`. -/
def localFields (F : Bytes) (off : Nat) : HeaderFields where
  name := decodeName (slice F (off + lfhFixed) (localNameLen F off)) (leNat (slice F (off + 6) 2))
  method := .fromU16 (leNat (slice F (off + 8) 2))
  flags := leNat (slice F (off + 6) 2)
  crc32 := UInt32.ofNat (leNat (slice F (off + 14) 4))
  compressedSize := leNat (slice F (off + 18) 4)
  uncompressedSize := leNat (slice F (off + 22) 4)

/-- The first byte behind the local header at `off`. -/
def localDataStart (F : Bytes) (off : Nat) : Nat :=
  off + lfhFixed + localNameLen F off + leNat (slice F (off + 28) 2)

/-- The fixed part of a local header, field by field. -/
theorem runOn_parseLfhFixed {F : Bytes} {off : Nat} (h : off + lfhFixed ≤ F.length) :
    ∃ rest, Reader.runOn (parseLfhFixed off) (slice F off lfhFixed) =
      if leNat (slice F off 4) = lfhSig then
        .ok ((leNat (slice F (off + 6) 2), .fromU16 (leNat (slice F (off + 8) 2)),
          UInt32.ofNat (leNat (slice F (off + 14) 4)), leNat (slice F (off + 18) 4),
          leNat (slice F (off + 22) 4), localNameLen F off, leNat (slice F (off + 28) 2)), rest)
      else .error (.badSignature "local file header" off) := by
  have hlen : (slice F off lfhFixed).length = lfhFixed := length_slice h
  have hfield : ∀ {i n : Nat}, i + n ≤ lfhFixed →
      leNat (slice (slice F off lfhFixed) i n) = leNat (slice F (off + i) n) := fun hi => by
    rw [slice_slice hi]
  unfold lfhFixed at *
  have hsig := Reader.runOn_u32_at (b := slice F off 30) (i := 0) (by omega)
  rw [List.drop_zero, hfield (by omega), Nat.add_zero] at hsig
  unfold parseLfhFixed localNameLen
  rw [Reader.runOn_bind_ok _ hsig]
  by_cases h' : leNat (slice F off 4) = lfhSig
  · refine ⟨(slice F off 30).drop 30, ?_⟩
    rw [if_neg (by simpa using h'), if_pos h',
      Reader.runOn_bind_ok _ (Reader.runOn_u16_at (by omega)),
      Reader.runOn_bind_ok _ (Reader.runOn_u16_at (by omega)),
      Reader.runOn_bind_ok _ (Reader.runOn_u16_at (by omega)),
      Reader.runOn_bind_ok _ (Reader.runOn_u16_at (by omega)),
      Reader.runOn_bind_ok _ (Reader.runOn_u16_at (by omega)),
      Reader.runOn_bind_ok _ (Reader.runOn_u32_at (by omega)),
      Reader.runOn_bind_ok _ (Reader.runOn_u32_at (by omega)),
      Reader.runOn_bind_ok _ (Reader.runOn_u32_at (by omega)),
      Reader.runOn_bind_ok _ (Reader.runOn_u16_at (by omega)),
      Reader.runOn_bind_ok _ (Reader.runOn_u16_at (by omega)), Reader.runOn_pure]
    simp only [Nat.zero_add, Nat.reduceAdd]
    rw [hfield (by omega), hfield (by omega), hfield (by omega), hfield (by omega),
      hfield (by omega), hfield (by omega), hfield (by omega)]
  · refine ⟨[], ?_⟩
    rw [if_pos h', if_neg h']
    rfl

/-- The local header at `off`, field by field. -/
theorem lfhAt_eq {F : Bytes} (hlen : F.length ≤ isizeMax) (off : Nat) :
    lfhAt F off =
      if off + lfhFixed ≤ F.length then
        if leNat (slice F off 4) = lfhSig then
          if off + lfhFixed + localNameLen F off ≤ F.length then
            .ok (localFields F off, localDataStart F off)
          else Res.err (.io .shortRead)
        else Res.err (.format (.badSignature "local file header" off))
      else Res.err (.io .shortRead) := by
  unfold lfhAt
  by_cases h : off + lfhFixed ≤ F.length
  · obtain ⟨rest, hrun⟩ := runOn_parseLfhFixed h
    rw [if_pos h, if_pos h, hrun]
    by_cases hsig : leNat (slice F off 4) = lfhSig
    · rw [if_pos hsig, if_pos hsig]
      dsimp only
      by_cases hname : off + lfhFixed + localNameLen F off ≤ F.length
      · have hextra : leNat (slice F (off + 28) 2) < 256 ^ 2 := leNat_slice_lt F (off + 28) 2
        unfold isizeMax at hlen
        rw [if_pos hname, if_pos hname, addU64_eq (by unfold u64Max; omega), Res.bind_ok,
          addU64_eq (by unfold u64Max; omega), Res.bind_ok, addU64_eq (by unfold u64Max; omega)]
        rfl
      · rw [if_neg hname, if_neg hname]
    · rw [if_neg hsig, if_neg hsig]
  · rw [if_neg h, if_neg h]

/-- When a local header can be read. -/
theorem lfhAt_eq_ok_iff {F : Bytes} (hlen : F.length ≤ isizeMax) {off : Nat}
    {x : HeaderFields × Nat} :
    lfhAt F off = .ok x ↔
      off + lfhFixed + localNameLen F off ≤ F.length ∧ leNat (slice F off 4) = lfhSig ∧
        x = (localFields F off, localDataStart F off) := by
  rw [lfhAt_eq hlen]
  constructor
  · intro h
    split_ifs at h with hfixed hsig hname
    · exact ⟨hname, hsig, (Except.ok.inj h).symm⟩
    · cases h
    · cases h
    · cases h
  · rintro ⟨hname, hsig, rfl⟩
    rw [if_pos (by omega), if_pos hsig, if_pos hname]

/-! ## Opened entries -/

/-- The outcome of opening an entry, with the bytes its reader shows in place of
the reader. -/
def Opened.view : Opened k → Res ZipCoreError (ZipFile k (Window IoError))
  | .ok f => .ok (f.map Take.window)
  | .error (e, _) => .error e

theorem Decoder.readHom_window : ReadHom fun d : Decoder k (EntryReader k (Take Source)) =>
    d.map (EntryReader.map Take.window) :=
  readHom_map (EntryReader.readHom_map ZipForensic.readHom_window)

/-- The answers of an opened entry are those of its view. -/
theorem reads_view (f : ZipFile k (Take Source)) (ns : List Nat) :
    (reads ns f).1 = (reads ns (f.map Take.window)).1 := by
  rw [reads_map (ZipFile.readHom_map readHom_window)]

theorem readToEnd_view (f : ZipFile k (Take Source)) :
    (readToEnd f).1 = (readToEnd (f.map Take.window)).1 := by
  rw [readToEnd_map (ZipFile.readHom_map readHom_window)]

/-- What `openAt` sets up over the entry's bytes. -/
def openedAt (F : Bytes) (m : CentralEntry)
    (setup : Nat → Window IoError →
      Except (ZipCoreError × Window IoError) (ZipFile k (Window IoError))) :
    Res ZipCoreError (ZipFile k (Window IoError)) := do
  let (_, dataStart) ← lfhAt F m.lfhOffset
  match setup dataStart ⟨slice F dataStart m.compressedSize⟩ with
  | .ok f => .ok f
  | .error (e, _) => .error (.error e)

theorem view_openAt (a : ZipArchive) (m : CentralEntry)
    {setup : Nat → Take Source → Except (ZipCoreError × Take Source) (ZipFile k (Take Source))}
    {setup' : Nat → Window IoError →
      Except (ZipCoreError × Window IoError) (ZipFile k (Window IoError))}
    (hsetup : ∀ dataStart window, setup' dataStart (Take.window window) =
      ReadM.mapBuilt Take.window (ZipFile.map Take.window) (setup dataStart window)) :
    (a.openAt m setup).view = openedAt a.reader.bytes m setup' := by
  obtain ⟨pos, hlfh⟩ := views_readLfhFields a.reader.bytes m.lfhOffset a.reader.pos
  unfold ZipArchive.openAt openedAt
  rw [hlfh]
  rcases lfhAt a.reader.bytes m.lfhOffset with e | ⟨fields, dataStart⟩
  · rfl
  · have hset := hsetup dataStart
      ⟨{ bytes := a.reader.bytes, pos := dataStart }, m.compressedSize⟩
    dsimp only at hset ⊢
    rw [Res.bind_ok]
    dsimp only
    have hwin : Take.window (⟨{ bytes := a.reader.bytes, pos := dataStart }, m.compressedSize⟩ :
        Take Source) = ⟨slice a.reader.bytes dataStart m.compressedSize⟩ := rfl
    rw [hwin] at hset
    rw [hset]
    rcases setup dataStart _ with ⟨e, w⟩ | f <;> rfl

/-- `open` as a function of the bytes. -/
def openedPlain (F : Bytes) (m : CentralEntry) (thisDisk cdStartDisk : Nat) :
    Res ZipCoreError (ZipFile k (Window IoError)) := do
  Res.lift (checkLocalDisk m thisDisk cdStartDisk)
  if m.flags &&& 0x0001 ≠ 0 then
    Res.err (.encryptedNoPassword m.name)
  else
    openedAt F m (ZipFile.openPlain m)

theorem view_open (a : ZipArchive) (m : CentralEntry) :
    (a.open m : Opened k).view =
      openedPlain a.reader.bytes m a.summary.diskNumber a.summary.cdStartDisk := by
  unfold ZipArchive.open openedPlain
  rcases checkLocalDisk m a.summary.diskNumber a.summary.cdStartDisk with e | ⟨⟩
  · rfl
  · simp only [Res.lift, Res.bind_ok]
    split_ifs
    · rfl
    · exact view_openAt a m fun dataStart window =>
        ZipFile.openPlain_map readHom_window m dataStart window

/-- `open_decrypt` as a function of the bytes. -/
def openedDecrypt (F : Bytes) (m : CentralEntry) (thisDisk cdStartDisk : Nat) (password : Bytes) :
    Res ZipCoreError (ZipFile k (Window IoError)) := do
  Res.lift (checkLocalDisk m thisDisk cdStartDisk)
  if m.flags &&& 0x0001 = 0 ∧ m.aes = none then
    openedPlain F m thisDisk cdStartDisk
  else if m.flags &&& 0x2000 ≠ 0 then
    Res.err (.unsupportedEncryption m.name
      "masked / central-directory encryption (GP flag bit 13)")
  else if m.aes = none ∧ m.flags &&& 0x0040 ≠ 0 then
    openedAt F m (ZipFile.openStrong m password)
  else
    openedAt F m (ZipFile.openEncrypted m password)

theorem view_openDecrypt (a : ZipArchive) (m : CentralEntry) (password : Bytes) :
    (a.openDecrypt m password : Opened k).view =
      openedDecrypt a.reader.bytes m a.summary.diskNumber a.summary.cdStartDisk password := by
  unfold ZipArchive.openDecrypt openedDecrypt
  rcases checkLocalDisk m a.summary.diskNumber a.summary.cdStartDisk with e | ⟨⟩
  · rfl
  · simp only [Res.lift, Res.bind_ok]
    split_ifs
    · exact view_open a m
    · rfl
    · exact view_openAt a m fun dataStart window =>
        ZipFile.openStrong_map readHom_window m password dataStart window
    · exact view_openAt a m fun dataStart window =>
        ZipFile.openEncrypted_map readHom_window m password dataStart window

/-! ## Stored entries read to the end -/

/-- A fresh reader over the window of a stored, unencrypted entry. -/
def storedFile (m : CentralEntry) (dataStart : Nat) (bytes : Bytes) :
    ZipFile k (Window IoError) :=
  .start m dataStart true (.stored (.plain ⟨bytes⟩))

/-- Opening a stored, unencrypted entry whose local header is there. -/
theorem openedPlain_stored {F : Bytes} {m : CentralEntry} {thisDisk cdStartDisk dataStart : Nat}
    {fields : HeaderFields} (hdisk : checkLocalDisk m thisDisk cdStartDisk = .ok ())
    (hflag : m.flags &&& 0x0001 = 0) (hmethod : m.method = .stored)
    (hlfh : lfhAt F m.lfhOffset = .ok (fields, dataStart)) :
    (openedPlain F m thisDisk cdStartDisk : Res ZipCoreError (ZipFile k (Window IoError))) =
      .ok (storedFile m dataStart (slice F dataStart m.compressedSize)) := by
  unfold openedPlain openedAt
  rw [hdisk]
  simp only [Res.lift, Res.bind_ok, hflag, ne_eq, not_true, if_false, hlfh]
  unfold ZipFile.openPlain ZipFile.decode
  rw [hmethod]
  rfl

theorem exists_of_view {o : Opened k} {w : ZipFile k (Window IoError)} (h : o.view = .ok w) :
    ∃ f, o = .ok f ∧ f.map Take.window = w := by
  cases o with
  | error e => cases h
  | ok f => exact ⟨f, rfl, Except.ok.inj h⟩

theorem exists_error_of_view {o : Opened k} {e : Fault ZipCoreError} (h : o.view = .error e) :
    ∃ reader, o = .error (e, reader) := by
  cases o with
  | error x => exact ⟨x.2, congrArg Except.error (Prod.ext (Except.error.inj h) rfl)⟩
  | ok f => cases h

theorem readToEndLoop_stored {fuel : Nat} (f : ZipFile k (Window IoError)) (acc bytes : Bytes)
    (hdec : f.decoder = .stored (.plain ⟨bytes⟩)) (hver : f.verified = false)
    (hcrc : f.verifyCrc = true) (hfuel : bytes.length < fuel) :
    (readToEndLoop fuel acc f).1 =
      if k.crc32 (f.hasher ++ bytes) = f.entry.crc32 then .ok (acc ++ bytes)
      else .error (.wrapped (.crcMismatch f.entry.name f.entry.crc32
        (k.crc32 (f.hasher ++ bytes)))) := by
  induction fuel generalizing f acc bytes with
  | zero => omega
  | succ fuel ih =>
    have hread : read bufSize f = f.deliver
        (.ok (bytes.take bufSize), .stored (.plain ⟨bytes.drop bufSize⟩)) := by
      show f.deliver (read bufSize f.decoder) = _
      rw [hdec]
      rfl
    rw [readToEndLoop, hread]
    cases bytes with
    | nil =>
      rw [List.append_nil]
      simp only [List.take_nil, ZipFile.deliver, ZipFile.endOfStream, hver, hcrc,
        Bool.false_eq_true, if_false, true_and]
      by_cases hok : k.crc32 f.hasher = f.entry.crc32
      · simp [hok]
      · simp [hok, ZipFile.crcMismatch]
    | cons b bs =>
      have hsplit : (b :: bs).take bufSize = b :: bs.take (bufSize - 1) := rfl
      have hdrop : (b :: bs).drop bufSize = bs.drop (bufSize - 1) := rfl
      rw [hsplit, hdrop]
      simp only [ZipFile.deliver]
      have hwhole : b :: bs.take (bufSize - 1) ++ bs.drop (bufSize - 1) = b :: bs := by
        rw [List.cons_append, List.take_append_drop]
      refine (ih _ _ (bs.drop (bufSize - 1)) ?_ ?_ ?_ ?_).trans ?_
      · rfl
      · exact hver
      · exact hcrc
      · simp only [List.length_drop, List.length_cons] at *
        omega
      · dsimp only
        rw [List.append_assoc, hwhole, List.append_assoc, hwhole]

/-- Reading a stored entry to its end: the bytes of its window, if their CRC is the
recorded one. -/
theorem readToEnd_stored (m : CentralEntry) (dataStart : Nat) (bytes : Bytes) :
    (readToEnd (storedFile m dataStart bytes : ZipFile k (Window IoError))).1 =
      if k.crc32 bytes = m.crc32 then .ok bytes
      else .error (.wrapped (.crcMismatch m.name m.crc32 (k.crc32 bytes))) :=
  readToEndLoop_stored (storedFile m dataStart bytes) [] bytes rfl rfl rfl (Nat.lt_succ_self _)

end ZipForensic
