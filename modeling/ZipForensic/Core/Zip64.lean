import ZipForensic.Core.Comment
import ZipForensic.Core.Records

/-!
# Zip64 promotion

A plain archive promoted to Zip64: the same members and directory, a Zip64 EOCD record
with the true values, its locator, and an EOCD with some fields replaced by their
sentinels.

The locator lies in front of the EOCD, and the parser takes it from the tail window it
scanned for the EOCD. That window has room for a record and the longest comment only,
so behind a long comment the locator is cut off (`zip64At_cut`).

- `directoryOf_promoted`: what is parsed while the locator is in the window.
- `promotion_transparent_iff`: the promoted archive opens as the plain one exactly up to
  a comment of 65515 bytes.
-/

namespace ZipForensic

variable {k : Crates}

/-- A plain archive: members and directory, EOCD, comment. -/
def plainFile (body : Bytes) (thisDisk : Nat) (e : Eocd32) (comment : Bytes) : Bytes :=
  body ++ writeEocd thisDisk e comment

/-- The fields of the Zip64 records that the parser skips. -/
structure Zip64Skipped where
  recordSize : Nat
  versionMadeBy : Nat
  versionNeeded : Nat
  thisDisk : Nat
  locatorDisk : Nat
  disks : Nat

/-- `e` with the chosen fields replaced by their sentinels. -/
def Eocd32.sentinels (e : Eocd32) (total size offset : Bool) : Eocd32 :=
  { e with
    totalEntries := if total then u16Sentinel else e.totalEntries
    cdSize := if size then u32Sentinel else e.cdSize
    cdOffset := if offset then u32Sentinel else e.cdOffset }

/-- Everything of the promoted archive in front of its EOCD. -/
def promotedBody (body : Bytes) (s : Zip64Skipped) (e : Eocd32) : Bytes :=
  body ++ (writeZip64Eocd s.recordSize s.versionMadeBy s.versionNeeded s.thisDisk e ++
    writeZip64Locator s.locatorDisk body.length s.disks)

/-- The promoted archive. -/
def promotedFile (body : Bytes) (thisDisk : Nat) (s : Zip64Skipped) (e : Eocd32)
    (total size offset : Bool) (comment : Bytes) : Bytes :=
  promotedBody body s e ++ writeEocd thisDisk (e.sentinels total size offset) comment

theorem length_promotedBody (body : Bytes) (s : Zip64Skipped) (e : Eocd32) :
    (promotedBody body s e).length = body.length + 56 + zip64LocatorLen := by
  simp only [promotedBody, List.length_append, length_writeZip64Eocd, length_writeZip64Locator]
  omega

namespace Eocd32

variable {e : Eocd32}

theorem Fits.sentinels (he : e.Fits) (total size offset : Bool) :
    (e.sentinels total size offset).Fits where
  diskNumber := he.diskNumber
  cdStartDisk := he.cdStartDisk
  totalEntries := by
    cases total
    · exact he.totalEntries
    · show u16Sentinel < 2 ^ 16
      decide
  cdSize := by
    cases size
    · exact he.cdSize
    · show u32Sentinel < 2 ^ 32
      decide
  cdOffset := by
    cases offset
    · exact he.cdOffset
    · show u32Sentinel < 2 ^ 32
      decide
  commentLen := he.commentLen

theorem isZip64_sentinels (e : Eocd32) {total size offset : Bool}
    (h : (total || size || offset) = true) : (e.sentinels total size offset).isZip64 = true := by
  unfold isZip64 sentinels
  cases offset
  · cases size
    · cases total
      · cases h
      · simp
    · simp
  · simp

end Eocd32

/-! ## The locator and the tail window -/

section Promoted

variable {body comment : Bytes} {thisDisk thisDisk' : Nat} {s : Zip64Skipped} {e : Eocd32}
  {total size offset : Bool}

/-- The Zip64 EOCD record stands right behind the plain archive's bytes. -/
theorem slice_promoted_record :
    slice (promotedFile body thisDisk s e total size offset comment) body.length 56 =
      writeZip64Eocd s.recordSize s.versionMadeBy s.versionNeeded s.thisDisk e := by
  rw [← length_writeZip64Eocd s.recordSize s.versionMadeBy s.versionNeeded s.thisDisk e,
    promotedFile, promotedBody, List.append_assoc, List.append_assoc]
  exact slice_middle _ _ _

/-- The locator stands right in front of the EOCD. -/
theorem slice_promoted_locator :
    slice (promotedFile body thisDisk s e total size offset comment)
        ((promotedBody body s e).length - zip64LocatorLen) zip64LocatorLen =
      writeZip64Locator s.locatorDisk body.length s.disks := by
  have hfront : (promotedBody body s e).length - zip64LocatorLen =
      (body ++ writeZip64Eocd s.recordSize s.versionMadeBy s.versionNeeded s.thisDisk e).length := by
    rw [length_promotedBody, List.length_append, length_writeZip64Eocd]
    omega
  rw [hfront, ← length_writeZip64Locator s.locatorDisk body.length s.disks, promotedFile,
    promotedBody, ← List.append_assoc body, List.append_assoc]
  exact slice_middle _ _ _

/-- While the locator lies in the scanned window, the records are where the EOCD leads. -/
theorem zip64At_promoted (he : e.Fits)
    (hlen : (promotedFile body thisDisk s e total size offset comment).length ≤ isizeMax)
    (hwindow : scanStart (promotedFile body thisDisk s e total size offset comment) +
      zip64LocatorLen ≤ (promotedBody body s e).length) :
    zip64At (promotedFile body thisDisk s e total size offset comment)
        (scanTail (promotedFile body thisDisk s e total size offset comment))
        ((promotedBody body s e).length -
          scanStart (promotedFile body thisDisk s e total size offset comment)) =
      .ok (e.cdOffset, e.cdSize, e.totalEntries, e.diskNumber, e.cdStartDisk) := by
  have hbody := length_promotedBody body s e
  have hfile : (promotedFile body thisDisk s e total size offset comment).length =
      (promotedBody body s e).length + (eocdMin + comment.length) := by
    rw [promotedFile, List.length_append, length_writeEocd]
  unfold zip64LocatorLen isizeMax at *
  -- the window starts in front of the locator, so its slice is a slice of the file
  have hslice : ∀ F : Bytes, scanStart F + 20 ≤ (promotedBody body s e).length →
      slice (scanTail F) ((promotedBody body s e).length - scanStart F - 20) 20 =
        slice F ((promotedBody body s e).length - 20) 20 := by
    intro F hF
    rw [scanTail_eq, slice, slice, List.drop_drop]
    congr 2
    omega
  unfold zip64At zip64LocatorLen
  rw [if_neg (by omega), hslice _ hwindow, ← zip64LocatorLen, slice_promoted_locator,
    parseZip64Locator_writeZip64Locator (by omega), Res.bind_ok, if_pos (by omega),
    slice_promoted_record, parseZip64Eocd_writeZip64Eocd he]

/-- A locator in front of the scanned window is not found. -/
theorem zip64At_cut {F tail : Bytes} {eocdRel : Nat} (h : eocdRel < zip64LocatorLen) :
    zip64At F tail eocdRel = Res.err (.format .zip64Unsupported) :=
  if_pos h

/-- The parse of the promoted archive, up to what its Zip64 records resolve to. -/
theorem directoryOf_promoted_eq (he : e.Fits) (hcomment : e.commentLen = comment.length)
    (hsent : (total || size || offset) = true)
    (hlen : (promotedFile body thisDisk s e total size offset comment).length ≤ isizeMax)
    (hlast : ∀ q, (promotedBody body s e).length < q →
      ¬ EocdAt (promotedFile body thisDisk s e total size offset comment) q) :
    directoryOf (promotedFile body thisDisk s e total size offset comment) =
      (zip64At (promotedFile body thisDisk s e total size offset comment)
          (scanTail (promotedFile body thisDisk s e total size offset comment))
          ((promotedBody body s e).length -
            scanStart (promotedFile body thisDisk s e total size offset comment)) >>=
        fun r =>
          directoryAt (promotedFile body thisDisk s e total size offset comment)
            ((promotedBody body s e).length + eocdMin + comment.length) comment.length
            r.1 r.2.1 r.2.2.1 r.2.2.2.1 r.2.2.2.2 0) := by
  have hcl := he.commentLen
  have hrec : eocdOf (promotedFile body thisDisk s e total size offset comment)
      (promotedBody body s e).length = e.sentinels total size offset :=
    eocdOf_writeEocd _ (he.sentinels total size offset) comment
  have hwin : (promotedFile body thisDisk s e total size offset comment).length ≤
      (promotedBody body s e).length + eocdScanMax := by
    rw [promotedFile, List.length_append, length_writeEocd]
    unfold eocdScanMax
    omega
  have hz := Eocd32.isZip64_sentinels e hsent
  have hcl' : (e.sentinels total size offset).commentLen = comment.length := hcomment
  have hpos : LastEocd (promotedFile body thisDisk s e total size offset comment)
      (promotedBody body s e).length := ⟨eocdAt_writeEocd _ _ _ _, hlast⟩
  rw [directoryOf_eq hpos hwin hlen, hrec, resolvedEocd, if_pos hz, hcl']
  congr 1
  funext r
  obtain ⟨cdOffset, cdSize, totalEntries, diskNumber, cdStartDisk⟩ := r
  dsimp only
  rw [prefixOf, if_pos hz, Res.bind_ok]

/-- The window holds the locator exactly up to a comment of 65515 bytes. -/
theorem scanStart_promoted_iff :
    scanStart (promotedFile body thisDisk s e total size offset comment) + zip64LocatorLen ≤
      (promotedBody body s e).length ↔ comment.length ≤ 65515 := by
  have hbody := length_promotedBody body s e
  have hfile : (promotedFile body thisDisk s e total size offset comment).length =
      (promotedBody body s e).length + (eocdMin + comment.length) := by
    rw [promotedFile, List.length_append, length_writeEocd]
  unfold scanStart eocdScanMax eocdMin zip64LocatorLen at *
  omega

/-- With the locator in the window, the promoted archive parses as the plain one. -/
theorem directoryOf_promoted (he : e.Fits) (hcomment : e.commentLen = comment.length)
    (hplain : e.isZip64 = false) (hends : e.cdOffset + e.cdSize = body.length)
    (hsent : (total || size || offset) = true)
    (hlen : (promotedFile body thisDisk s e total size offset comment).length ≤ isizeMax)
    (hlastA : ∀ q, body.length < q → ¬ EocdAt (plainFile body thisDisk' e comment) q)
    (hlast : ∀ q, (promotedBody body s e).length < q →
      ¬ EocdAt (promotedFile body thisDisk s e total size offset comment) q)
    (hshort : comment.length ≤ 65515) :
    directoryOf (promotedFile body thisDisk s e total size offset comment) =
      (directoryOf (plainFile body thisDisk' e comment)).map fun r =>
        (r.1, { r.2 with
          fileLen := (promotedFile body thisDisk s e total size offset comment).length
          eocdEndOffset := (promotedBody body s e).length + eocdMin + comment.length
          commentLen := comment.length }) := by
  have hbody := length_promotedBody body s e
  have hfile : (promotedFile body thisDisk s e total size offset comment).length =
      (promotedBody body s e).length + (eocdMin + comment.length) := by
    rw [promotedFile, List.length_append, length_writeEocd]
  have hfileA : (plainFile body thisDisk' e comment).length =
      body.length + (eocdMin + comment.length) := by
    rw [plainFile, List.length_append, length_writeEocd]
  have hposA : LastEocd (plainFile body thisDisk' e comment) body.length :=
    ⟨eocdAt_writeEocd _ _ _ _, hlastA⟩
  have hrecA : eocdOf (plainFile body thisDisk' e comment) body.length = e :=
    eocdOf_writeEocd _ he comment
  have hsigA := hposA.here.ne_archiveSig
  have hsig : slice (promotedFile body thisDisk s e total size offset comment) body.length 4 ≠
      leBytes 4 archiveSigSig := by
    rw [← slice_take (show 4 ≤ 56 by decide), slice_promoted_record, writeZip64Eocd]
    simp only [List.append_assoc]
    rw [List.take_left' (length_leBytes 4 _)]
    decide
  rw [directoryOf_promoted_eq he hcomment hsent hlen hlast,
    zip64At_promoted he hlen (scanStart_promoted_iff.2 hshort), Res.bind_ok,
    PlainDirectory.directoryOf_plain hposA (by unfold eocdScanMax; omega) (by omega) (by rw [hrecA]; exact hplain)
      (by rw [hrecA]; exact hends), hrecA]
  dsimp only
  have hpromoted : promotedFile body thisDisk s e total size offset comment =
      body ++ (writeZip64Eocd s.recordSize s.versionMadeBy s.versionNeeded s.thisDisk e ++
        (writeZip64Locator s.locatorDisk body.length s.disks ++
          writeEocd thisDisk (e.sentinels total size offset) comment)) := by
    rw [promotedFile, promotedBody, List.append_assoc, List.append_assoc]
  rw [hpromoted] at hsig ⊢
  unfold plainFile at hsigA ⊢
  refine directoryAt_append_left (by omega) (by unfold isizeMax at hlen; unfold u64Max; omega)
    fun used => signatureLenAt_of_ne ?_ ?_
  · rw [Nat.add_zero, hends]
    exact hsig
  · rw [Nat.add_zero, hends]
    exact hsigA

/-- With the locator in front of the window, the promoted archive is refused. -/
theorem directoryOf_promoted_long (he : e.Fits) (hcomment : e.commentLen = comment.length)
    (hsent : (total || size || offset) = true)
    (hlen : (promotedFile body thisDisk s e total size offset comment).length ≤ isizeMax)
    (hlast : ∀ q, (promotedBody body s e).length < q →
      ¬ EocdAt (promotedFile body thisDisk s e total size offset comment) q)
    (hlong : 65515 < comment.length) :
    directoryOf (promotedFile body thisDisk s e total size offset comment) =
      Res.err (.format .zip64Unsupported) := by
  have hcut : ¬ scanStart (promotedFile body thisDisk s e total size offset comment) +
      zip64LocatorLen ≤ (promotedBody body s e).length :=
    fun h => Nat.not_le.2 hlong (scanStart_promoted_iff.1 h)
  rw [directoryOf_promoted_eq he hcomment hsent hlen hlast,
    zip64At_cut (by unfold zip64LocatorLen at *; omega)]
  rfl

/-! ## The two archives side by side -/

/-- The promoted archive opens with the entries, the disk numbers and the members of the
plain one exactly when its comment has at most 65515 bytes. -/
theorem promotion_transparent_iff {a : ZipArchive} {pos : Nat} (he : e.Fits)
    (hcomment : e.commentLen = comment.length) (hplain : e.isZip64 = false)
    (hends : e.cdOffset + e.cdSize = body.length) (hsent : (total || size || offset) = true)
    (hlen : (promotedFile body thisDisk s e total size offset comment).length ≤ isizeMax)
    (hnew : ZipArchive.new ⟨plainFile body thisDisk' e comment, pos⟩ = .ok a)
    (hlastA : ∀ q, body.length < q → ¬ EocdAt (plainFile body thisDisk' e comment) q)
    (hlast : ∀ q, (promotedBody body s e).length < q →
      ¬ EocdAt (promotedFile body thisDisk s e total size offset comment) q)
    (hmembers : ∀ m ∈ a.entries, MemberIn body m) (pos' : Nat) :
    (∃ a', ZipArchive.new ⟨promotedFile body thisDisk s e total size offset comment, pos'⟩ = .ok a' ∧
        a'.entries = a.entries ∧ a'.summary.diskNumber = a.summary.diskNumber ∧
        a'.summary.cdStartDisk = a.summary.cdStartDisk ∧
        ∀ i, SameMember 0 (a.byIndex i : Opened k) (a'.byIndex i)) ↔
      comment.length ≤ 65515 := by
  obtain ⟨hbytes, hdir⟩ := reader_of_new hnew
  constructor
  · rintro ⟨a', hnew', -⟩
    by_contra hlong
    obtain ⟨-, hdir'⟩ := reader_of_new hnew'
    rw [directoryOf_promoted_long he hcomment hsent hlen hlast (Nat.not_le.1 hlong)] at hdir'
    cases hdir'
  · intro hshort
    have hdir' := directoryOf_promoted he hcomment hplain hends hsent hlen hlastA hlast hshort
    rw [hdir] at hdir'
    obtain ⟨pos'', hnew'⟩ := new_of_directoryOf hdir' pos'
    refine ⟨_, hnew', rfl, rfl, rfl, fun i => ?_⟩
    unfold ZipArchive.byIndex
    dsimp only
    cases hi : a.entries[i]? with
    | none => exact .inl rfl
    | some m =>
      have hin := hmembers m (List.mem_of_getElem? hi)
      have hbody := length_promotedBody body s e
      have hlenA : (body ++ writeEocd thisDisk' e comment).length ≤ isizeMax := by
        simp only [promotedFile, List.length_append, length_writeEocd] at hlen ⊢
        omega
      refine sameMember_of_view_eq ?_
      dsimp only
      rw [view_open, view_open, hbytes]
      unfold plainFile promotedFile promotedBody at *
      rw [List.append_assoc] at hlen ⊢
      rw [openedPlain_append_left hlen hin, openedPlain_append_left hlenA hin]

end Promoted

/-! ## A promoted sample -/

/-- Without a further `P` there is no further record. -/
theorem not_eocdAt_of_not_mem {x comment : Bytes} {thisDisk : Nat} {e : Eocd32}
    (hfixed : 0x50 ∉ (eocdFixed thisDisk e).drop 1) (hlen : 0x50 ∉ leBytes 2 e.commentLen)
    (hcomment : 0x50 ∉ comment) :
    ∀ q, x.length < q → ¬ EocdAt (x ++ writeEocd thisDisk e comment) q := by
  rintro q hq ⟨-, hsig⟩
  have hmem : (0x50 : UInt8) ∈ slice (x ++ writeEocd thisDisk e comment) q 4 := by
    rw [hsig]
    decide
  have hdrop : (0x50 : UInt8) ∈ (x ++ writeEocd thisDisk e comment).drop (x.length + 1) := by
    have hq' : q = x.length + 1 + (q - x.length - 1) := by omega
    rw [slice, hq', ← List.drop_drop] at hmem
    exact List.mem_of_mem_drop (List.mem_of_mem_take hmem)
  rw [← List.drop_drop, List.drop_left, writeEocd,
    List.drop_append_of_le_length (by rw [length_eocdFixed]; omega)] at hdrop
  rcases List.mem_append.1 hdrop with h | h
  · exact hfixed h
  · rcases List.mem_append.1 h with h | h
    · exact hlen h
    · exact hcomment h

/-- The sample archive up to its EOCD. -/
def sampleBody : Bytes := (storedArchive 3).take 81

/-- The sample archive's EOCD fields. -/
def sampleEocd (commentLen : Nat) : Eocd32 :=
  { diskNumber := 0, cdStartDisk := 0, totalEntries := 1, cdSize := 47, cdOffset := 34, commentLen }

theorem plainFile_sampleBody (comment : Bytes) :
    plainFile sampleBody 1 (sampleEocd comment.length) comment = withComment storedFront comment := by
  have hfront : sampleBody ++ eocdFixed 1 (sampleEocd comment.length) = storedFront := by
    show sampleBody ++ eocdFixed 1 (sampleEocd 0) = storedFront
    decide
  rw [plainFile, writeEocd, withComment, ← hfront, List.append_assoc]
  rfl

theorem sampleEocd_fits {n : Nat} (h : n < 2 ^ 16) : (sampleEocd n).Fits where
  diskNumber := Nat.pos_of_neZero _
  cdStartDisk := Nat.pos_of_neZero _
  totalEntries := show 1 < 2 ^ 16 by decide
  cdSize := show 47 < 2 ^ 32 by decide
  cdOffset := show 34 < 2 ^ 32 by decide
  commentLen := h

/-- The skipped fields as common writers fill them. -/
def sampleSkipped : Zip64Skipped :=
  { recordSize := 44, versionMadeBy := 45, versionNeeded := 45, thisDisk := 1, locatorDisk := 0,
    disks := 1 }

theorem sampleBody_memberIn : MemberIn sampleBody (storedMember 3) :=
  ⟨⟨"m", .stored, 0, 0x352441C2, 3, 3⟩, 31, by decide +kernel, by decide⟩

/-- A comment of `n` spaces. -/
def spaces (n : Nat) : Bytes := List.replicate n 0x20

theorem length_spaces (n : Nat) : (spaces n).length = n := List.length_replicate

theorem not_mem_spaces (n : Nat) : 0x50 ∉ spaces n := by
  unfold spaces
  simp [List.mem_replicate]

/-- The promoted sample archive fits. -/
theorem length_promotedSample {n : Nat} (hn : n ≤ 65535) :
    (promotedFile sampleBody 1 sampleSkipped (sampleEocd n) false false true (spaces n)).length ≤
      isizeMax := by
  have hbody : (promotedBody sampleBody sampleSkipped (sampleEocd n)).length = 157 := by
    rw [length_promotedBody]
    decide
  rw [promotedFile, List.length_append, length_writeEocd, hbody, length_spaces]
  unfold eocdMin isizeMax
  omega

section Sample

variable {n : Nat} (hn : n ≤ 65535) (hlen : 0x50 ∉ leBytes 2 n)
include hlen

theorem sampleFile_lastEocd : ∀ q, sampleBody.length < q →
    ¬ EocdAt (plainFile sampleBody 1 (sampleEocd n) (spaces n)) q :=
  not_eocdAt_of_not_mem (show 0x50 ∉ (eocdFixed 1 (sampleEocd 0)).drop 1 by decide) hlen
    (not_mem_spaces n)

theorem promotedSample_lastEocd : ∀ q,
    (promotedBody sampleBody sampleSkipped (sampleEocd n)).length < q →
      ¬ EocdAt (promotedFile sampleBody 1 sampleSkipped (sampleEocd n) false false true (spaces n)) q :=
  not_eocdAt_of_not_mem
    (show 0x50 ∉ (eocdFixed 1 ((sampleEocd 0).sentinels false false true)).drop 1 by decide) hlen
    (not_mem_spaces n)

include hn

/-- The sample archive opens with a comment of spaces. -/
theorem sampleFile_new :
    ∃ a, ZipArchive.new ⟨plainFile sampleBody 1 (sampleEocd n) (spaces n), 0⟩ = .ok a ∧
      a.entries = [storedMember 3] := by
  have hnone := sampleFile_lastEocd hlen
  have hpos := eocdAt_writeEocd sampleBody 1 (sampleEocd n) (spaces n)
  have heq := plainFile_sampleBody (spaces n)
  rw [length_spaces] at heq
  rw [← plainFile] at hpos
  rw [heq] at hpos hnone ⊢
  have hfront : storedFront.length = 101 := by decide +kernel
  have hplain : directoryOf (withComment storedFront []) = .ok (storedDirectory 3) := by
    decide +kernel
  have hdir := directoryOf_withComment (c := spaces n) (p := 81)
    (by rw [length_withComment, hfront, length_spaces]; unfold isizeMax; omega) (by decide)
    (by rwa [length_spaces]) (by decide +kernel) (by decide +kernel) ⟨hpos, hnone⟩ hplain
  obtain ⟨pos, hnew⟩ := new_of_directoryOf hdir 0
  exact ⟨_, hnew, rfl⟩

end Sample

theorem promotedSample_opens :
    ∃ a', ZipArchive.new ⟨promotedFile sampleBody 1 sampleSkipped (sampleEocd 65515) false false true
        (spaces 65515), 0⟩ = .ok a' ∧ a'.entries = [storedMember 3] := by
  have hlen : 0x50 ∉ leBytes 2 65515 := by decide
  obtain ⟨a, hnew, hentries⟩ := sampleFile_new (by decide) hlen
  obtain ⟨a', hnew', hsame, -⟩ := (promotion_transparent_iff (k := .plain)
    (sampleEocd_fits (by decide)) (length_spaces 65515).symm (by decide) (by decide) (by rfl)
    (length_promotedSample (by decide)) hnew (sampleFile_lastEocd hlen)
    (promotedSample_lastEocd hlen) (by rw [hentries]; simpa using sampleBody_memberIn) 0).2
    (Nat.le_of_eq (length_spaces 65515))
  exact ⟨a', hnew', hsame.trans hentries⟩

/-- With the longest comment the sample archive opens, and its promotion is refused. -/
theorem promotedSample_refused :
    (∃ a, ZipArchive.new ⟨plainFile sampleBody 1 (sampleEocd 65535) (spaces 65535), 0⟩ = .ok a ∧
        ∀ m ∈ a.entries, MemberIn sampleBody m) ∧
      (∀ q, sampleBody.length < q →
        ¬ EocdAt (plainFile sampleBody 1 (sampleEocd 65535) (spaces 65535)) q) ∧
      (∀ q, (promotedBody sampleBody sampleSkipped (sampleEocd 65535)).length < q →
        ¬ EocdAt (promotedFile sampleBody 1 sampleSkipped (sampleEocd 65535) false false true
          (spaces 65535)) q) ∧
      ¬ ∃ a', ZipArchive.new ⟨promotedFile sampleBody 1 sampleSkipped (sampleEocd 65535) false false
        true (spaces 65535), 0⟩ = .ok a' := by
  have hlen : 0x50 ∉ leBytes 2 65535 := by decide
  obtain ⟨a, hnew, hentries⟩ := sampleFile_new (by decide) hlen
  refine ⟨⟨a, hnew, by rw [hentries]; simpa using sampleBody_memberIn⟩, sampleFile_lastEocd hlen,
    promotedSample_lastEocd hlen, ?_⟩
  rintro ⟨a', hnew'⟩
  obtain ⟨-, hdir⟩ := reader_of_new hnew'
  rw [directoryOf_promoted_long (sampleEocd_fits (by decide)) (length_spaces 65535).symm rfl
    (length_promotedSample (by decide)) (promotedSample_lastEocd hlen)
    (by rw [length_spaces]; decide)] at hdir
  cases hdir

end ZipForensic
