import ZipForensic.Core.EntryView

/-!
# The container as a function of the file's bytes

`directoryOf F` is what `parse_central_directory` answers on the file `F`, with
its seeks and reads replaced by slices of `F` (`views_parseCentralDirectory`,
`new_eq`). The EOCD search is stated by position: `LastEocd F p` is the record at
`p` that the backward scan stops at (`findEocd_tail_iff`).
-/

namespace ZipForensic

open ArchiveM

/-! ## The EOCD search -/

/-- A search from the end of a range finds the last offset with the signature. -/
theorem findEocdLoop_iff {tail : Bytes} {n i : Nat} (hn : n + 3 ≤ tail.length) :
    findEocdLoop tail n = .ok (some i) ↔
      i < n ∧ slice tail i 4 = leBytes 4 eocdSig ∧
        ∀ j, i < j → j < n → slice tail j 4 ≠ leBytes 4 eocdSig := by
  induction n with
  | zero => simp [findEocdLoop]
  | succ n ih =>
    rw [findEocdLoop, sliceRange_eq (by omega), Res.bind_ok]
    by_cases hsig : slice tail n 4 = leBytes 4 eocdSig
    · rw [if_pos hsig]
      constructor
      · intro h
        obtain rfl : n = i := Option.some.inj (Except.ok.inj h)
        exact ⟨Nat.lt_succ_self _, hsig, fun j h₁ h₂ => by omega⟩
      · rintro ⟨hi, -, hlast⟩
        rcases Nat.lt_or_ge i n with hlt | hge
        · exact absurd hsig (hlast n hlt (Nat.lt_succ_self _))
        · obtain rfl : i = n := by omega
          rfl
    · rw [if_neg hsig, ih (by omega)]
      constructor
      · rintro ⟨hi, hpi, hlast⟩
        refine ⟨by omega, hpi, fun j h₁ h₂ => ?_⟩
        rcases Nat.lt_or_ge j n with hlt | hge
        · exact hlast j h₁ hlt
        · obtain rfl : j = n := by omega
          exact hsig
      · rintro ⟨hi, hpi, hlast⟩
        refine ⟨?_, hpi, fun j h₁ h₂ => hlast j h₁ (by omega)⟩
        rcases Nat.lt_or_ge i n with hlt | hge
        · exact hlt
        · obtain rfl : i = n := by omega
          exact absurd hpi hsig

/-- The search stays inside its slice. -/
theorem findEocdLoop_ok {tail : Bytes} {n : Nat} (hn : n + 3 ≤ tail.length) :
    ∃ found, findEocdLoop tail n = .ok found := by
  induction n with
  | zero => exact ⟨none, rfl⟩
  | succ n ih =>
    rw [findEocdLoop, sliceRange_eq (by omega), Res.bind_ok]
    by_cases hsig : slice tail n 4 = leBytes 4 eocdSig
    · rw [if_pos hsig]
      exact ⟨some n, rfl⟩
    · rw [if_neg hsig]
      exact ih (by omega)

theorem findEocd_ok (tail : Bytes) : ∃ found, findEocd tail = .ok found := by
  unfold findEocd
  by_cases hshort : tail.length < eocdMin
  · rw [if_pos hshort]
    exact ⟨none, rfl⟩
  · rw [if_neg hshort, subU64_eq (by omega), Res.bind_ok]
    exact findEocdLoop_ok (by unfold eocdMin at *; omega)

/-- An EOCD signature at `p`, with room for the record behind it. -/
def EocdAt (F : Bytes) (p : Nat) : Prop :=
  p + eocdMin ≤ F.length ∧ slice F p 4 = leBytes 4 eocdSig

/-- The EOCD record the backward scan stops at. -/
structure LastEocd (F : Bytes) (p : Nat) : Prop where
  here : EocdAt F p
  last : ∀ q, p < q → ¬ EocdAt F q

theorem LastEocd.unique {F : Bytes} {p q : Nat} (hp : LastEocd F p) (hq : LastEocd F q) :
    p = q := by
  rcases Nat.lt_trichotomy p q with h | h | h
  · exact absurd hq.here (hp.last q h)
  · exact h
  · exact absurd hp.here (hq.last p h)

theorem findEocd_iff (tail : Bytes) (i : Nat) :
    findEocd tail = .ok (some i) ↔ LastEocd tail i := by
  unfold findEocd
  by_cases hshort : tail.length < eocdMin
  · rw [if_pos hshort]
    constructor
    · intro h
      cases h
    · rintro ⟨⟨hroom, -⟩, -⟩
      omega
  · rw [if_neg hshort, subU64_eq (by omega), Res.bind_ok,
      findEocdLoop_iff (by unfold eocdMin at *; omega)]
    constructor
    · rintro ⟨hi, hsig, hlast⟩
      exact ⟨⟨by omega, hsig⟩, fun q hq hat => hlast q hq (by have := hat.1; omega) hat.2⟩
    · rintro ⟨⟨hroom, hsig⟩, hlast⟩
      exact ⟨by omega, hsig, fun j hj hroom' h => hlast j hj ⟨by omega, h⟩⟩

/-- The start of the region scanned for the EOCD. -/
def scanStart (F : Bytes) : Nat := F.length - min F.length eocdScanMax

/-- The region scanned for the EOCD. -/
def scanTail (F : Bytes) : Bytes := slice F (scanStart F) (min F.length eocdScanMax)

theorem scanTail_eq (F : Bytes) : scanTail F = F.drop (scanStart F) := by
  rw [scanTail, slice, List.take_of_length_le]
  rw [List.length_drop, scanStart]
  omega

theorem eocdAt_scanTail_iff (F : Bytes) (i : Nat) :
    EocdAt (scanTail F) i ↔ EocdAt F (scanStart F + i) := by
  have hle : scanStart F ≤ F.length := Nat.sub_le _ _
  rw [scanTail_eq, EocdAt, EocdAt, slice, slice, List.drop_drop, List.length_drop]
  constructor
  · rintro ⟨h₁, h₂⟩
    exact ⟨by unfold eocdMin at *; omega, h₂⟩
  · rintro ⟨h₁, h₂⟩
    exact ⟨by unfold eocdMin at *; omega, h₂⟩

/-- The scan of the tail window stops at the last record, if that lies in the window. -/
theorem findEocd_tail_iff (F : Bytes) (i : Nat) :
    findEocd (scanTail F) = .ok (some i) ↔ LastEocd F (scanStart F + i) := by
  rw [findEocd_iff]
  constructor
  · rintro ⟨hhere, hlast⟩
    refine ⟨(eocdAt_scanTail_iff F i).1 hhere, fun q hq hat => ?_⟩
    refine hlast (q - scanStart F) (by omega) ((eocdAt_scanTail_iff F _).2 ?_)
    rwa [show scanStart F + (q - scanStart F) = q by omega]
  · rintro ⟨hhere, hlast⟩
    refine ⟨(eocdAt_scanTail_iff F i).2 hhere, fun q hq hat => ?_⟩
    exact hlast (scanStart F + q) (by omega) ((eocdAt_scanTail_iff F q).1 hat)

/-! ## The parse -/

/-- Whether a central-directory header signature sits at `off`. -/
def headerAt (F : Bytes) (off : Nat) : Bool :=
  decide (off + 4 ≤ F.length ∧ leNat (slice F off 4) = cdHeaderSig)

theorem views_cdHeaderAt (F : Bytes) (off : Nat) : Views (cdHeaderAt off) F (.ok (headerAt F off)) := by
  intro pos
  unfold cdHeaderAt
  rw [runOn_bind_ok _ (runOn_seekStart off ⟨F, pos⟩)]
  by_cases h : off + 4 ≤ F.length
  · rw [runOn_bind_ok _ (runOn_attempt_ok (runOn_readExact h))]
    refine ⟨off + 4, ?_⟩
    simp [headerAt, h]
  · rw [runOn_bind_ok _ (runOn_attempt_error (runOn_readExact_short h))]
    refine ⟨F.length, ?_⟩
    simp [headerAt, h]

/-- `detectPrefix` on the bytes. -/
def prefixOf (F : Bytes) (isZip64 : Bool) (eocdPos cdOffset cdSize : Nat) : Res ZipCoreError Nat :=
  let cdEnd := min (cdOffset + cdSize) u64Max
  if isZip64 = true then .ok 0
  else if cdEnd < eocdPos then
    if headerAt F cdOffset = true then .ok 0
    else
      addU64 cdOffset (eocdPos - cdEnd) >>= fun shifted =>
        if headerAt F shifted = true then .ok (eocdPos - cdEnd) else .ok 0
  else .ok 0

theorem views_detectPrefix (F : Bytes) (isZip64 : Bool) (eocdPos cdOffset cdSize : Nat) :
    Views (detectPrefix isZip64 eocdPos cdOffset cdSize) F
      (prefixOf F isZip64 eocdPos cdOffset cdSize) := by
  unfold detectPrefix prefixOf
  refine .ite (fun _ => .pure _) fun _ => .ite (fun _ => ?_) fun _ => .pure _
  refine .bind_ok (views_cdHeaderAt F cdOffset) (.ite (fun _ => .pure _) fun _ => ?_)
  refine .bind (.ofRes _) fun shifted _ => .bind_ok (views_cdHeaderAt F shifted) ?_
  exact .ite (fun _ => .pure _) fun _ => .pure _

/-- `ofReader` on a slice. -/
def parseRes {α : Type} (x : Reader α) (data : Bytes) : Res ZipCoreError α :=
  match Reader.runOn x data with
  | .ok (a, _) => .ok a
  | .error e => Res.err (.format e)

theorem views_ofReader {α : Type} (F : Bytes) (x : Reader α) (data : Bytes) :
    Views (ofReader x data) F (parseRes x data) := by
  unfold ofReader parseRes
  rcases Reader.runOn x data with e | ⟨a, rest⟩
  · exact .err _
  · exact .pure _

/-- `resolveZip64Eocd` on the bytes. -/
def zip64At (F tail : Bytes) (eocdRel : Nat) : Res ZipCoreError (Nat × Nat × Nat × Nat × Nat) :=
  if eocdRel < zip64LocatorLen then Res.err (.format .zip64Unsupported)
  else
    parseRes parseZip64Locator (slice tail (eocdRel - zip64LocatorLen) zip64LocatorLen) >>=
      fun off =>
        if off + 56 ≤ F.length then parseRes (parseZip64Eocd off) (slice F off 56)
        else Res.err (.io .shortRead)

theorem views_resolveZip64Eocd (F : Bytes) {tail : Bytes} {eocdRel : Nat}
    (hrel : eocdRel ≤ tail.length) :
    Views (resolveZip64Eocd tail eocdRel) F (zip64At F tail eocdRel) := by
  unfold resolveZip64Eocd zip64At
  refine .ite (fun _ => .err _) fun hlocator => ?_
  have hback : eocdRel = eocdRel - zip64LocatorLen + zip64LocatorLen := by omega
  have hslice : (sliceRange tail (eocdRel - zip64LocatorLen) eocdRel : Res ZipCoreError Bytes) =
      .ok (slice tail (eocdRel - zip64LocatorLen) zip64LocatorLen) := by
    conv => lhs; rw [hback]
    exact sliceRange_eq (by omega)
  rw [subU64_eq (by omega)]
  refine .bind_ok (.ofRes _) ?_
  rw [hslice]
  refine .bind_ok (.ofRes _) (.bind (views_ofReader F _ _) fun off _ => ?_)
  by_cases h : off + 56 ≤ F.length
  · rw [if_pos h]
    exact .seek_read h (views_ofReader F _ _)
  · rw [if_neg h]
    exact .seek_read_short h

/-- `archiveSignatureLen` on the bytes, with the directory ending at `cdEnd`. -/
def signatureLenAt (F cd : Bytes) (cdConsumed cdEnd : Nat) : Option Nat :=
  let trailing := cd.drop cdConsumed
  if 6 ≤ trailing.length ∧ trailing.take 4 = leBytes 4 archiveSigSig then
    some (leNat (slice trailing 4 2))
  else if trailing = [] ∧ cdEnd + 6 ≤ F.length ∧ slice F cdEnd 4 = leBytes 4 archiveSigSig then
    some (leNat (slice F (cdEnd + 4) 2))
  else none

theorem runOn_archiveSignatureLen (F : Bytes) {cd : Bytes} {cdConsumed : Nat} (cdEnd : Nat)
    (hconsumed : cdConsumed ≤ cd.length) :
    ∃ pos', runOn (archiveSignatureLen cd cdConsumed) ⟨F, cdEnd⟩ =
      (.ok (signatureLenAt F cd cdConsumed cdEnd), ⟨F, pos'⟩) := by
  unfold archiveSignatureLen signatureLenAt
  rw [sliceFrom_eq hconsumed, runOn_bind_ok _ (runOn_ofRes _ _)]
  dsimp only
  by_cases hin : 6 ≤ (cd.drop cdConsumed).length ∧
      (cd.drop cdConsumed).take 4 = leBytes 4 archiveSigSig
  · rw [if_pos hin, if_pos hin]
    exact ⟨cdEnd, rfl⟩
  · rw [if_neg hin, if_neg hin]
    by_cases hnil : cd.drop cdConsumed = []
    · rw [if_pos hnil]
      by_cases h : cdEnd + 6 ≤ F.length
      · rw [runOn_bind_ok _ (runOn_attempt_ok (runOn_readExact h))]
        refine ⟨cdEnd + 6, ?_⟩
        dsimp only
        rw [slice_take (by omega), slice_slice (by omega)]
        by_cases hsig : slice F cdEnd 4 = leBytes 4 archiveSigSig
        · rw [if_pos hsig, if_pos ⟨hnil, h, hsig⟩]
          rfl
        · rw [if_neg hsig, if_neg fun hc => hsig hc.2.2]
          rfl
      · rw [runOn_bind_ok _ (runOn_attempt_error (runOn_readExact_short h)),
          if_neg fun hc => h hc.2.1]
        exact ⟨F.length, rfl⟩
    · rw [if_neg hnil, if_neg fun hc => hnil hc.1]
      exact ⟨cdEnd, rfl⟩

/-- The headers lie in their directory. -/
theorem consumed_le {cd : Bytes} {totalEntries used : Nat} {entries : List CentralEntry}
    (h : parseCdEntries cd totalEntries = .ok (entries, used)) : used ≤ cd.length := by
  unfold parseCdEntries at h
  rcases hrun : Reader.runOn (parseCdEntriesLoop cd.length totalEntries) cd with e | ⟨es, rest⟩
  · rw [hrun] at h
    cases h
  · rw [hrun] at h
    obtain ⟨-, rfl⟩ := Prod.mk.inj (Except.ok.inj h)
    exact Nat.sub_le _ _

/-- `readDirectory` on the bytes. -/
def directoryAt (F : Bytes) (eocdEndOffset commentLen cdOffset cdSize totalEntries diskNumber
    cdStartDisk pre : Nat) : Res ZipCoreError (List CentralEntry × ArchiveSummary) :=
  addU64 cdOffset pre >>= fun actualCdOffset =>
    if F.length < actualCdOffset + cdSize then
      Res.err (.format (.centralDirOutOfRange cdOffset cdSize))
    else if maxEntries < totalEntries then
      Res.err (.format (.tooManyEntries totalEntries))
    else
      match parseCdEntries (slice F actualCdOffset cdSize) totalEntries with
      | .error e => Res.err (.format e)
      | .ok (entries, cdConsumed) =>
        (if 0 < pre then shiftEntries pre entries else .ok entries) >>= fun entries =>
          .ok (entries, {
            fileLen := F.length
            centralDirOffset := actualCdOffset
            centralDirSize := cdSize
            eocdEndOffset := eocdEndOffset
            commentLen := commentLen
            diskNumber := diskNumber
            cdStartDisk := cdStartDisk
            archiveSignatureLen := signatureLenAt F (slice F actualCdOffset cdSize) cdConsumed
              (actualCdOffset + cdSize) })

theorem views_readDirectory (F : Bytes) (eocdEndOffset commentLen cdOffset cdSize totalEntries
    diskNumber cdStartDisk pre : Nat) :
    Views (readDirectory F.length eocdEndOffset commentLen cdOffset cdSize totalEntries diskNumber
        cdStartDisk pre) F
      (directoryAt F eocdEndOffset commentLen cdOffset cdSize totalEntries diskNumber
        cdStartDisk pre) := by
  unfold readDirectory directoryAt
  refine .bind (.ofRes _) fun actualCdOffset _ => ?_
  refine .ite (fun _ => .err _) fun hrange => .ite (fun _ => .err _) fun _ => ?_
  have hcd : actualCdOffset + cdSize ≤ F.length := Nat.not_lt.1 hrange
  -- from here on the reader stands right behind the directory
  intro pos
  rw [runOn_bind_ok _ (runOn_seekStart actualCdOffset ⟨F, pos⟩),
    runOn_bind_ok _ (runOn_readExact hcd)]
  dsimp only
  rcases hparse : parseCdEntries (slice F actualCdOffset cdSize) totalEntries with
    e | ⟨entries, used⟩
  · exact ⟨_, rfl⟩
  · dsimp only
    rcases (if 0 < pre then shiftEntries pre entries else .ok entries) with e | entries
    · exact ⟨_, rfl⟩
    · obtain ⟨pos', hsig⟩ := runOn_archiveSignatureLen F (actualCdOffset + cdSize)
        (consumed_le hparse)
      refine ⟨pos', ?_⟩
      rw [runOn_bind_ok _ (runOn_ofRes _ _), runOn_bind_ok _ hsig]
      rfl

/-- `resolveEocd` on the bytes. -/
def resolvedEocd (F : Bytes) (eocdRel : Nat) (eocd : Eocd32) :
    Res ZipCoreError (Nat × Nat × Nat × Nat × Nat) :=
  if eocd.isZip64 = true then zip64At F (scanTail F) eocdRel
  else .ok (eocd.cdOffset, eocd.cdSize, eocd.totalEntries, eocd.diskNumber, eocd.cdStartDisk)

/-- `parseFromEocd` on the bytes. -/
def directoryFrom (F : Bytes) (eocdRel : Nat) (eocd : Eocd32) :
    Res ZipCoreError (List CentralEntry × ArchiveSummary) :=
  addU64 (scanStart F) eocdRel >>= fun eocdPos =>
  addU64 eocdPos eocdMin >>= fun recordEnd =>
  addU64 recordEnd eocd.commentLen >>= fun eocdEndOffset =>
  resolvedEocd F eocdRel eocd >>= fun (cdOffset, cdSize, totalEntries, diskNumber, cdStartDisk) =>
  prefixOf F eocd.isZip64 eocdPos cdOffset cdSize >>= fun pre =>
  directoryAt F eocdEndOffset eocd.commentLen cdOffset cdSize totalEntries diskNumber cdStartDisk pre

theorem views_parseFromEocd (F : Bytes) {eocdRel : Nat} (eocd : Eocd32)
    (hrel : eocdRel ≤ (scanTail F).length) :
    Views (parseFromEocd F.length (scanStart F) (scanTail F) eocdRel eocd) F
      (directoryFrom F eocdRel eocd) := by
  unfold parseFromEocd directoryFrom
  refine .bind (.ofRes _) fun eocdPos _ => .bind (.ofRes _) fun recordEnd _ =>
    .bind (.ofRes _) fun eocdEndOffset _ => ?_
  have hresolve : Views (resolveEocd (scanTail F) eocdRel eocd) F (resolvedEocd F eocdRel eocd) :=
    .ite (fun _ => views_resolveZip64Eocd F hrel) fun _ => .pure _
  refine .bind hresolve fun resolved _ => ?_
  obtain ⟨cdOffset, cdSize, totalEntries, diskNumber, cdStartDisk⟩ := resolved
  refine .bind (views_detectPrefix F _ eocdPos cdOffset cdSize) fun pre _ => ?_
  exact views_readDirectory F eocdEndOffset eocd.commentLen cdOffset cdSize totalEntries diskNumber
    cdStartDisk pre

/-- `parse_central_directory` on the bytes. -/
def directoryOf (F : Bytes) : Res ZipCoreError (List CentralEntry × ArchiveSummary) :=
  if min F.length eocdScanMax < eocdMin then Res.err (.format .noEocd)
  else
    findEocd (scanTail F) >>= fun found =>
      match found with
      | none => Res.err (.format .noEocd)
      | some eocdRel =>
        parseRes parseEocd ((scanTail F).drop eocdRel) >>= fun eocd => directoryFrom F eocdRel eocd

theorem views_parseCentralDirectory (F : Bytes) :
    Views (parseCentralDirectory F.length) F (directoryOf F) := by
  unfold parseCentralDirectory directoryOf
  refine .ite (fun _ => .err _) fun _ => ?_
  rw [subU64_eq (Nat.min_le_left _ _)]
  refine .bind_ok (.ofRes _) (.seek_read (by omega) (.bind (.ofRes _) fun found hfound => ?_))
  cases found with
  | none => exact .err _
  | some eocdRel =>
    have hrel : eocdRel ≤ (scanTail F).length := by
      have hroom := ((findEocd_iff _ _).1 hfound).here.1
      omega
    refine .bind_ok (r := parseRes parseEocd ((scanTail F).drop eocdRel) >>= fun eocd =>
      directoryFrom F eocdRel eocd) (a := (scanTail F).drop eocdRel) ?_ ?_
    · have hrecord : Views (ofRes (sliceFrom (scanTail F) eocdRel)) F
          (.ok ((scanTail F).drop eocdRel)) := by
        rw [sliceFrom_eq hrel]
        exact .ofRes _
      exact hrecord
    · exact .bind (views_ofReader F _ _) fun eocd _ => views_parseFromEocd F eocd hrel

/-- `ZipArchive::new`: the directory of the file, over a reader that stands
somewhere in it. -/
theorem new_eq (F : Bytes) (pos : Nat) :
    ∃ pos', ZipArchive.new ⟨F, pos⟩ =
      (directoryOf F >>= fun (entries, summary) => .ok ⟨⟨F, pos'⟩, entries, summary⟩) := by
  obtain ⟨pos', hrun⟩ := views_parseCentralDirectory F F.length
  refine ⟨pos', ?_⟩
  unfold ZipArchive.new
  dsimp only
  rw [runOn_bind_ok _ (runOn_seekEnd ⟨F, pos⟩), hrun]
  rcases directoryOf F with e | ⟨entries, summary⟩ <;> rfl

/-- An opened archive holds the file it was opened on. -/
theorem reader_of_new {F : Bytes} {pos : Nat} {a : ZipArchive}
    (h : ZipArchive.new ⟨F, pos⟩ = .ok a) :
    a.reader.bytes = F ∧ directoryOf F = .ok (a.entries, a.summary) := by
  obtain ⟨pos', hnew⟩ := new_eq F pos
  rw [h] at hnew
  rcases hdir : directoryOf F with e | ⟨entries, summary⟩
  · rw [hdir] at hnew
    cases hnew
  · rw [hdir] at hnew
    obtain rfl : a = _ := by simpa using hnew
    exact ⟨rfl, rfl⟩

/-- The archive opened on `F` is determined by its directory. -/
theorem new_of_directoryOf {F : Bytes} {entries : List CentralEntry} {summary : ArchiveSummary}
    (h : directoryOf F = .ok (entries, summary)) (pos : Nat) :
    ∃ pos', ZipArchive.new ⟨F, pos⟩ = .ok ⟨⟨F, pos'⟩, entries, summary⟩ := by
  obtain ⟨pos', hnew⟩ := new_eq F pos
  exact ⟨pos', by rw [hnew, h]; rfl⟩

end ZipForensic
