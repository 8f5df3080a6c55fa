import ZipForensic.Core.Concatenation

/-!
# Archive comments

An archive is its bytes up to the EOCD's comment length, the length, and the comment
(`withComment`). The parser looks for the EOCD from the end of the file, so it comes
through the comment first, and takes the first record it meets.

- `directoryOf_withComment`: a comment without a record in it does not change what is
  parsed, whatever else it holds.
- `comment_with_record_is_read`: a record in the comment is taken for the archive's own,
  even if it does not end where the file ends.
-/

namespace ZipForensic

/-- The archive whose bytes before the comment length are `front`, with comment `c`. -/
def withComment (front c : Bytes) : Bytes := front ++ (leBytes 2 c.length ++ c)

theorem length_withComment (front c : Bytes) :
    (withComment front c).length = front.length + 2 + c.length := by
  simp only [withComment, List.length_append, length_leBytes]
  omega

theorem eocdOf_withComment {front c : Bytes} {p : Nat} (hp : p + 20 = front.length)
    (hc : c.length < 2 ^ 16) :
    eocdOf (withComment front c) p =
      { eocdOf (withComment front []) p with commentLen := c.length } := by
  have hlen : leNat (slice (withComment front c) (p + 20) 2) = c.length := by
    rw [withComment, hp, ← Nat.add_zero front.length, slice_append_right, slice, List.drop_zero,
      List.take_left' (length_leBytes 2 _), leNat_leBytes hc]
  unfold eocdOf
  rw [hlen]
  unfold withComment
  rw [slice_append_left _ (by omega), slice_append_left _ (by omega),
    slice_append_left _ (by omega), slice_append_left _ (by omega),
    slice_append_left _ (by omega), slice_append_left _ (by omega),
    slice_append_left _ (by omega), slice_append_left _ (by omega),
    slice_append_left _ (by omega), slice_append_left _ (by omega)]

/-- With an empty comment nothing can follow the record. -/
theorem lastEocd_withComment_nil {front c : Bytes} {p : Nat} (hp : p + 20 = front.length)
    (h : EocdAt (withComment front c) p) : LastEocd (withComment front []) p := by
  constructor
  · obtain ⟨-, hsig⟩ := h
    refine ⟨?_, ?_⟩
    · rw [length_withComment]
      unfold eocdMin
      omega
    · rw [withComment, slice_append_left _ (by omega)] at hsig ⊢
      exact hsig
  · rintro q hq ⟨hroom, -⟩
    rw [length_withComment] at hroom
    unfold eocdMin at hroom
    simp at hroom
    omega

/-- What is parsed with a comment is what is parsed without it. -/
theorem directoryOf_withComment {front c : Bytes} {p : Nat} {entries : List CentralEntry}
    {summary : ArchiveSummary} (hlen : (withComment front c).length ≤ isizeMax)
    (hp : p + 20 = front.length) (hc : c.length ≤ 65535)
    (hplain : (eocdOf (withComment front []) p).isZip64 = false)
    (hends : (eocdOf (withComment front []) p).cdOffset +
      (eocdOf (withComment front []) p).cdSize ≤ p)
    (hlast : LastEocd (withComment front c) p)
    (hdir : directoryOf (withComment front []) = .ok (entries, summary)) :
    directoryOf (withComment front c) =
      .ok (entries, { summary with
        fileLen := (withComment front c).length
        eocdEndOffset := (withComment front c).length
        commentLen := c.length }) := by
  have hlast' := lastEocd_withComment_nil hp hlast.here
  have hfull := length_withComment front c
  have hbare := length_withComment front []
  rw [List.length_nil] at hbare
  have hrec := eocdOf_withComment (c := c) hp (by omega)
  have hcomment : (eocdOf (withComment front []) p).commentLen = 0 := by
    rw [eocdOf_withComment hp (by simp)]
    rfl
  have hmax : front.length ≤ u64Max := by
    unfold isizeMax at hlen
    unfold u64Max
    omega
  rw [directoryOf_eq hlast' (by unfold eocdScanMax eocdMin; omega) (by omega), resolvedEocd,
    if_neg (by simp [hplain]), Res.bind_ok] at hdir
  rw [directoryOf_eq hlast (by unfold eocdScanMax eocdMin; omega) hlen, hrec, resolvedEocd,
    if_neg (by simpa [Eocd32.isZip64] using hplain), Res.bind_ok]
  generalize eocdOf (withComment front []) p = eocd at *
  dsimp only at hdir ⊢
  obtain ⟨pre, hpre, hdir⟩ := Res.of_bind_ok hdir
  have hbefore := prefixOf_le hpre hends (by omega)
  have hpre' : prefixOf (withComment front c)
      { eocd with commentLen := c.length }.isZip64 p eocd.cdOffset eocd.cdSize = .ok pre := by
    rw [← hpre]
    exact prefixOf_append_left hends (by omega) hmax
  have hend : p + eocdMin + c.length = (withComment front c).length := by
    unfold eocdMin
    omega
  rw [hpre', Res.bind_ok, hend]
  unfold withComment at hdir ⊢
  rw [directoryAt_append_left (by omega) hmax fun used => signatureLenAt_append_left (by omega), hdir]
  rfl

/-- An archive opens with a comment as it opens without one, whatever the comment holds
short of an EOCD record. -/
theorem comment_keeps_archive {front c : Bytes} {pos p : Nat} {a : ZipArchive}
    (hlen : (withComment front c).length ≤ isizeMax) (hp : p + 20 = front.length)
    (hc : c.length ≤ 65535) (hnew : ZipArchive.new ⟨withComment front [], pos⟩ = .ok a)
    (hplain : (eocdOf (withComment front []) p).isZip64 = false)
    (hends : (eocdOf (withComment front []) p).cdOffset +
      (eocdOf (withComment front []) p).cdSize ≤ p)
    (hsig : EocdAt (withComment front c) p)
    (hnone : ∀ q, p < q → ¬ EocdAt (withComment front c) q) (pos' : Nat) :
    ∃ a', ZipArchive.new ⟨withComment front c, pos'⟩ = .ok a' ∧ a'.entries = a.entries ∧
      a'.summary = { a.summary with
        fileLen := (withComment front c).length
        eocdEndOffset := (withComment front c).length
        commentLen := c.length } := by
  obtain ⟨-, hdir⟩ := reader_of_new hnew
  obtain ⟨pos'', hnew'⟩ :=
    new_of_directoryOf (directoryOf_withComment hlen hp hc hplain hends ⟨hsig, hnone⟩ hdir) pos'
  exact ⟨_, hnew', rfl, rfl⟩

/-- Everything of the sample archive before its comment length. -/
def storedFront : Bytes := (storedArchive 3).take 101

theorem storedFront_new : ∃ pos, ZipArchive.new ⟨withComment storedFront [], 0⟩ =
    .ok ⟨⟨withComment storedFront [], pos⟩, [storedMember 3], (storedDirectory 3).2⟩ :=
  new_of_directoryOf (by decide +kernel) 0

/-- A comment that ends in an EOCD signature. -/
theorem signature_comment_keeps_archive : ∃ a', ZipArchive.new
    ⟨withComment storedFront (List.replicate 40 0x20 ++ leBytes 4 eocdSig), 0⟩ = .ok a' ∧
      a'.fileNames = ["m"] ∧ a'.summary.commentLen = 44 := by
  have hlast : LastEocd (withComment storedFront (List.replicate 40 0x20 ++ leBytes 4 eocdSig)) 81 :=
    (findEocd_iff _ _).1 (by decide +kernel)
  obtain ⟨pos, hnew⟩ := storedFront_new
  obtain ⟨a', hnew', hentries, hsummary⟩ := comment_keeps_archive (by decide +kernel) (by decide)
    (by decide) hnew (by decide +kernel) (by decide +kernel) hlast.here hlast.last 0
  refine ⟨a', hnew', ?_, ?_⟩
  · rw [ZipArchive.fileNames, hentries]
    rfl
  · rw [hsummary]
    rfl

/-- An EOCD record without a directory, and one byte behind it. -/
def fakeRecord : Bytes := leBytes 4 eocdSig ++ List.replicate 19 0

/-- A record in a comment is read instead of the archive's own, though it does not end
where the file ends. -/
theorem comment_with_record_is_read : ∃ a a', PlainArchive (withComment storedFront []) 81 a ∧
    ZipArchive.new ⟨withComment storedFront fakeRecord, 0⟩ = .ok a' ∧
    103 + eocdMin + (eocdOf (withComment storedFront fakeRecord) 103).commentLen ≠
      (withComment storedFront fakeRecord).length ∧
    a'.entries ≠ a.entries := by
  obtain ⟨pos, hnew⟩ := storedFront_new
  have hdir : directoryOf (withComment storedFront fakeRecord) =
      .ok ([], ⟨126, 0, 0, 125, 0, 0, 0, none⟩) := by decide +kernel
  obtain ⟨pos', hnew'⟩ := new_of_directoryOf hdir 0
  refine ⟨_, _, ⟨⟨0, hnew⟩, (findEocd_iff _ _).1 (by decide +kernel), by decide +kernel,
    by decide +kernel, by simp, ⟨rfl, rfl⟩, rfl, by simp [storedMember]⟩, hnew', by decide +kernel,
    by simp⟩

end ZipForensic
