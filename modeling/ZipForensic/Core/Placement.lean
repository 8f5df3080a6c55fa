import ZipForensic.Core.ContainerView

/-!
# An archive inside a longer file

The parser finds an archive by its EOCD record and reconstructs where the rest of
it lies. This file follows a plain archive `A` through a file `P ++ (A ++ T)`:

- `eocdOf F p`: the record at `p`, and `directoryOf_eq`: the parse from the last
  record on.
- `PlainDirectory A p entries`: the plain archive that `A` holds, its directory ending
  at the EOCD; `directoryOf_placed`: what the parser answers on `P ++ (A ++ T)` —
  the same entries, `P.length` further on.
- `lfhAt_append_right`, `openedPlain_shift`, `openedDecrypt_shift`: every read path
  behind a prefix.
-/

namespace ZipForensic

variable {k : Crates}

/-! ## The record at a position -/

/-- The EOCD fields at `p`. -/
def eocdOf (F : Bytes) (p : Nat) : Eocd32 where
  diskNumber := leNat (slice F (p + 4) 2)
  cdStartDisk := leNat (slice F (p + 6) 2)
  totalEntries := leNat (slice F (p + 10) 2)
  cdSize := leNat (slice F (p + 12) 4)
  cdOffset := leNat (slice F (p + 16) 4)
  commentLen := leNat (slice F (p + 20) 2)

theorem eocdOf_commentLen_lt (F : Bytes) (p : Nat) : (eocdOf F p).commentLen < 2 ^ 16 :=
  leNat_slice_lt F (p + 20) 2

theorem eocdOf_totalEntries_lt (F : Bytes) (p : Nat) : (eocdOf F p).totalEntries < 2 ^ 16 :=
  leNat_slice_lt F (p + 10) 2

theorem parseRes_parseEocd {F : Bytes} {p : Nat} (h : EocdAt F p) :
    parseRes parseEocd (F.drop p) = .ok (eocdOf F p) := by
  obtain ⟨hroom, hsig⟩ := h
  unfold eocdMin at hroom
  have hsig' : leNat (slice F p 4) = eocdSig := by
    rw [hsig]
    exact leNat_leBytes (by decide)
  unfold parseRes parseEocd
  rw [Reader.runOn_bind_ok _ (Reader.runOn_u32_at (by omega)), hsig']
  simp only [ne_eq, not_true, if_false]
  rw [Reader.runOn_bind_ok _ (Reader.runOn_u16_at (by omega)),
    Reader.runOn_bind_ok _ (Reader.runOn_u16_at (by omega)),
    Reader.runOn_bind_ok _ (Reader.runOn_u16_at (by omega)),
    Reader.runOn_bind_ok _ (Reader.runOn_u16_at (by omega)),
    Reader.runOn_bind_ok _ (Reader.runOn_u32_at (by omega)),
    Reader.runOn_bind_ok _ (Reader.runOn_u32_at (by omega)),
    Reader.runOn_bind_ok _ (Reader.runOn_u16_at (by omega))]
  rfl

/-- The parse from the last record on. -/
theorem directoryOf_eq {F : Bytes} {p : Nat} (hlast : LastEocd F p)
    (hwindow : F.length ≤ p + eocdScanMax) (hlen : F.length ≤ isizeMax) :
    directoryOf F =
      (resolvedEocd F (p - scanStart F) (eocdOf F p) >>=
        fun (cdOffset, cdSize, totalEntries, diskNumber, cdStartDisk) =>
      prefixOf F (eocdOf F p).isZip64 p cdOffset cdSize >>= fun pre =>
      directoryAt F (p + eocdMin + (eocdOf F p).commentLen) (eocdOf F p).commentLen cdOffset cdSize
        totalEntries diskNumber cdStartDisk pre) := by
  have hroom := hlast.here.1
  have hcomment := eocdOf_commentLen_lt F p
  have hstart : scanStart F ≤ p := by
    unfold scanStart eocdMin at *
    omega
  have hsum : scanStart F + (p - scanStart F) = p := by omega
  have hfind : findEocd (scanTail F) = .ok (some (p - scanStart F)) := by
    rw [findEocd_tail_iff, hsum]
    exact hlast
  have hdrop : (scanTail F).drop (p - scanStart F) = F.drop p := by
    rw [scanTail_eq, List.drop_drop, hsum]
  unfold directoryOf
  rw [if_neg (by unfold eocdScanMax eocdMin at *; omega), hfind, Res.bind_ok]
  dsimp only
  unfold eocdMin isizeMax at *
  rw [hdrop, parseRes_parseEocd hlast.here, Res.bind_ok, directoryFrom,
    addU64_eq (by unfold u64Max; omega), Res.bind_ok, hsum,
    addU64_eq (by unfold u64Max eocdMin; omega), Res.bind_ok,
    addU64_eq (by unfold u64Max eocdMin; omega), Res.bind_ok]
  rfl

/-- A file that parses has its last record in the scanned window. -/
theorem exists_lastEocd {F : Bytes} {x : List CentralEntry × ArchiveSummary}
    (h : directoryOf F = .ok x) : ∃ p, LastEocd F p ∧ F.length ≤ p + eocdScanMax := by
  unfold directoryOf at h
  by_cases hshort : min F.length eocdScanMax < eocdMin
  · rw [if_pos hshort] at h
    cases h
  · rw [if_neg hshort] at h
    obtain ⟨found, hfind⟩ := findEocd_ok (scanTail F)
    rw [hfind, Res.bind_ok] at h
    cases found with
    | none => cases h
    | some rel =>
      refine ⟨scanStart F + rel, (findEocd_tail_iff F rel).1 hfind, ?_⟩
      unfold scanStart
      omega

/-! ## A plain archive in a longer file -/

/-- A header starts with its signature. -/
theorem parseCdEntry_sig {cdLen : Nat} {cd rest : Bytes} {m : CentralEntry}
    (h : Reader.runOn (parseCdEntry cdLen) cd = .ok (m, rest)) :
    4 ≤ cd.length ∧ leNat (slice cd 0 4) = cdHeaderSig := by
  unfold parseCdEntry at h
  rw [Reader.runOn_bind_ok _ (Reader.runOn_remaining cd)] at h
  by_cases hshort : cd.length < 46
  · rw [if_pos hshort] at h
    cases h
  · have hroom : 4 ≤ cd.length := by omega
    have hread := Reader.runOn_u32_at (b := cd) (i := 0) hroom
    rw [List.drop_zero] at hread
    rw [if_neg hshort, Reader.runOn_bind_ok _ hread] at h
    refine ⟨hroom, ?_⟩
    by_contra hsig
    rw [if_pos hsig] at h
    cases h

/-- A directory with a header starts with a header's signature. -/
theorem parseCdEntries_sig {cd : Bytes} {total used : Nat} {entries : List CentralEntry}
    (h : parseCdEntries cd total = .ok (entries, used)) (hne : entries ≠ []) :
    4 ≤ cd.length ∧ leNat (slice cd 0 4) = cdHeaderSig := by
  unfold parseCdEntries at h
  cases total with
  | zero =>
    obtain ⟨rfl, -⟩ : [] = entries ∧ _ := by simpa [parseCdEntriesLoop] using h
    exact absurd rfl hne
  | succ total =>
    rw [parseCdEntriesLoop, Reader.runOn_bind] at h
    cases hentry : Reader.runOn (parseCdEntry cd.length) cd with
    | error e =>
      rw [hentry] at h
      cases h
    | ok x => exact parseCdEntry_sig hentry

/-- The entry of a member found `n` bytes further on. -/
@[simps] def CentralEntry.shift (n : Nat) (m : CentralEntry) : CentralEntry :=
  { m with lfhOffset := m.lfhOffset + n }

theorem CentralEntry.shift_zero : CentralEntry.shift 0 = id := funext fun _ => rfl

theorem shiftEntries_eq {n : Nat} {entries : List CentralEntry}
    (h : ∀ m ∈ entries, m.lfhOffset + n ≤ u64Max) :
    shiftEntries n entries = .ok (entries.map (CentralEntry.shift n)) := by
  induction entries with
  | nil => rfl
  | cons m ms ih =>
    have hm := h m (List.mem_cons_self ..)
    have hms := ih fun m' hm' => h m' (List.mem_cons_of_mem _ hm')
    unfold shiftEntries at hms ⊢
    rw [List.mapM_cons, addU64_eq hm, hms]
    rfl

theorem headerAt_append_right (P B : Bytes) (off : Nat) :
    headerAt (P ++ B) (P.length + off) = headerAt B off := by
  unfold headerAt
  rw [slice_append_right, List.length_append, Nat.add_assoc]
  exact decide_eq_decide.2 (and_congr_left' (by omega))

theorem headerAt_append_left {A : Bytes} (T : Bytes) {off : Nat} (h : off + 4 ≤ A.length) :
    headerAt (A ++ T) off = headerAt A off := by
  unfold headerAt
  rw [slice_append_left T h, List.length_append]
  exact decide_eq_decide.2 (and_congr_left' (by omega))

theorem eocdOf_append_right (P B : Bytes) (p : Nat) :
    eocdOf (P ++ B) (P.length + p) = eocdOf B p := by
  unfold eocdOf
  simp only [Nat.add_assoc, slice_append_right]

theorem eocdOf_append_left {A : Bytes} (T : Bytes) {p : Nat} (h : p + eocdMin ≤ A.length) :
    eocdOf (A ++ T) p = eocdOf A p := by
  unfold eocdMin at h
  unfold eocdOf
  rw [slice_append_left T (by omega), slice_append_left T (by omega), slice_append_left T (by omega),
    slice_append_left T (by omega), slice_append_left T (by omega), slice_append_left T (by omega)]

/-- A plain archive: an EOCD record at `p` without Zip64 sentinels, behind a central
directory that ends there and whose headers take `used` bytes. -/
structure PlainDirectory (A : Bytes) (p : Nat) (entries : List CentralEntry) (used : Nat) :
    Prop where
  eocd : EocdAt A p
  plain : (eocdOf A p).isZip64 = false
  ends : (eocdOf A p).cdOffset + (eocdOf A p).cdSize = p
  headers : parseCdEntries (slice A (eocdOf A p).cdOffset (eocdOf A p).cdSize)
    (eocdOf A p).totalEntries = .ok (entries, used)

/-- The summary of a plain archive found `n` bytes into a file of `fileLen` bytes. -/
def plainSummary (A : Bytes) (p used n fileLen : Nat) : ArchiveSummary where
  fileLen := fileLen
  centralDirOffset := (eocdOf A p).cdOffset + n
  centralDirSize := (eocdOf A p).cdSize
  eocdEndOffset := n + p + eocdMin + (eocdOf A p).commentLen
  commentLen := (eocdOf A p).commentLen
  diskNumber := (eocdOf A p).diskNumber
  cdStartDisk := (eocdOf A p).cdStartDisk
  archiveSignatureLen :=
    signatureLenAt A (slice A (eocdOf A p).cdOffset (eocdOf A p).cdSize) used p

/-- Where no signature record follows the directory, only the directory decides. -/
theorem signatureLenAt_of_ne {F G cd : Bytes} {used p q : Nat}
    (hF : slice F p 4 ≠ leBytes 4 archiveSigSig) (hG : slice G q 4 ≠ leBytes 4 archiveSigSig) :
    signatureLenAt F cd used p = signatureLenAt G cd used q := by
  unfold signatureLenAt
  dsimp only
  simp only [hF, hG, and_false, if_false]

theorem EocdAt.ne_archiveSig {F : Bytes} {p : Nat} (h : EocdAt F p) :
    slice F p 4 ≠ leBytes 4 archiveSigSig := by
  rw [h.2]
  decide

namespace PlainDirectory

variable {A : Bytes} {p used : Nat} {entries : List CentralEntry}

theorem headerAt_cdOffset (h : PlainDirectory A p entries used) (hne : entries ≠ []) :
    (eocdOf A p).cdOffset + 4 ≤ A.length ∧ headerAt A (eocdOf A p).cdOffset = true := by
  obtain ⟨hroom, hsig⟩ := parseCdEntries_sig h.headers hne
  have hsize : 4 ≤ (eocdOf A p).cdSize := by
    rw [slice, List.length_take] at hroom
    omega
  have hp := h.eocd.1
  have hends := h.ends
  have hin : (eocdOf A p).cdOffset + 4 ≤ A.length := by
    unfold eocdMin at hp
    omega
  rw [slice_slice (by omega), Nat.add_zero] at hsig
  exact ⟨hin, by simp [headerAt, hin, hsig]⟩

/-- The prefix that `parse_central_directory` detects in front of a plain archive. -/
theorem prefixOf_placed (h : PlainDirectory A p entries used) {P T : Bytes}
    (hlen : (P ++ (A ++ T)).length ≤ isizeMax)
    (hpre : P ≠ [] → entries ≠ [] ∧ headerAt (P ++ (A ++ T)) (eocdOf A p).cdOffset = false) :
    prefixOf (P ++ (A ++ T)) (eocdOf A p).isZip64 (P.length + p) (eocdOf A p).cdOffset
      (eocdOf A p).cdSize = .ok P.length := by
  have hp := h.eocd.1
  simp only [List.length_append] at hlen
  have hsmall : p ≤ u64Max := by
    unfold eocdMin at hp
    unfold u64Max
    unfold isizeMax at hlen
    omega
  unfold prefixOf
  rw [h.plain, h.ends, Nat.min_eq_left hsmall, if_neg Bool.false_ne_true]
  by_cases hnil : P = []
  · subst hnil
    rw [List.length_nil, Nat.zero_add, if_neg (Nat.lt_irrefl p)]
  · obtain ⟨hne, hfar⟩ := hpre hnil
    obtain ⟨hin, hhere⟩ := h.headerAt_cdOffset hne
    have hpos : 0 < P.length := List.length_pos_iff.2 hnil
    have hoff := h.ends
    rw [if_pos (by omega), hfar, if_neg Bool.false_ne_true, Nat.add_sub_cancel,
      addU64_eq (by unfold u64Max; unfold isizeMax at hlen; omega), Res.bind_ok,
      Nat.add_comm _ P.length, headerAt_append_right, headerAt_append_left T hin, hhere, if_pos rfl]

/-- What the parser answers on a file that holds a plain archive: its entries,
`P.length` bytes further on. -/
theorem directoryOf_placed (h : PlainDirectory A p entries used) {P T : Bytes}
    (hlast : LastEocd (P ++ (A ++ T)) (P.length + p))
    (hwindow : (A ++ T).length ≤ p + eocdScanMax) (hlen : (P ++ (A ++ T)).length ≤ isizeMax)
    (hpre : P ≠ [] → entries ≠ [] ∧ headerAt (P ++ (A ++ T)) (eocdOf A p).cdOffset = false)
    (hshift : P ≠ [] → ∀ m ∈ entries, m.lfhOffset + P.length ≤ u64Max) :
    directoryOf (P ++ (A ++ T)) =
      .ok (entries.map (CentralEntry.shift P.length),
        plainSummary A p used P.length (P ++ (A ++ T)).length) := by
  have hp := h.eocd.1
  have hends := h.ends
  have hrec : eocdOf (P ++ (A ++ T)) (P.length + p) = eocdOf A p := by
    rw [eocdOf_append_right, eocdOf_append_left T hp]
  have hwin : (P ++ (A ++ T)).length ≤ P.length + p + eocdScanMax := by
    rw [List.length_append]
    omega
  have hcd : slice (P ++ (A ++ T)) ((eocdOf A p).cdOffset + P.length) (eocdOf A p).cdSize =
      slice A (eocdOf A p).cdOffset (eocdOf A p).cdSize := by
    rw [Nat.add_comm, slice_append_right, slice_append_left T (by unfold eocdMin at hp; omega)]
  have hcount : (eocdOf A p).totalEntries ≤ maxEntries := by
    have := eocdOf_totalEntries_lt A p
    unfold maxEntries
    omega
  have hroom : (eocdOf A p).cdOffset + P.length + (eocdOf A p).cdSize ≤ (P ++ (A ++ T)).length := by
    unfold eocdMin at hp
    simp only [List.length_append]
    omega
  rw [directoryOf_eq hlast hwin hlen, hrec, resolvedEocd, h.plain, if_neg Bool.false_ne_true,
    Res.bind_ok]
  dsimp only
  rw [← h.plain, h.prefixOf_placed hlen hpre, Res.bind_ok, directoryAt,
    addU64_eq (by unfold u64Max; unfold isizeMax at hlen; omega), Res.bind_ok,
    if_neg (Nat.not_lt.2 hroom), if_neg (Nat.not_lt.2 hcount), hcd, h.headers]
  dsimp only
  have hentries : (if 0 < P.length then shiftEntries P.length entries else .ok entries) =
      (.ok (entries.map (CentralEntry.shift P.length)) : Res ZipCoreError _) := by
    by_cases hpos : 0 < P.length
    · rw [if_pos hpos, shiftEntries_eq (hshift (List.length_pos_iff.1 hpos))]
    · rw [if_neg hpos, Nat.eq_zero_of_not_pos hpos, CentralEntry.shift_zero, List.map_id]
  have hat : EocdAt (P ++ (A ++ T)) ((eocdOf A p).cdOffset + P.length + (eocdOf A p).cdSize) := by
    rw [Nat.add_right_comm, hends, Nat.add_comm]
    exact hlast.here
  rw [hentries, Res.bind_ok, signatureLenAt_of_ne hat.ne_archiveSig h.eocd.ne_archiveSig]
  rfl

/-- The parse of a file whose last record is a plain one right behind its directory. -/
theorem directoryOf_plain (hlast : LastEocd A p) (hwindow : A.length ≤ p + eocdScanMax)
    (hlen : A.length ≤ isizeMax) (hplain : (eocdOf A p).isZip64 = false)
    (hends : (eocdOf A p).cdOffset + (eocdOf A p).cdSize = p) :
    directoryOf A = directoryAt A (p + eocdMin + (eocdOf A p).commentLen) (eocdOf A p).commentLen
      (eocdOf A p).cdOffset (eocdOf A p).cdSize (eocdOf A p).totalEntries (eocdOf A p).diskNumber
      (eocdOf A p).cdStartDisk 0 := by
  have hp := hlast.here.1
  have hsmall : p ≤ u64Max := by
    unfold eocdMin at hp
    unfold isizeMax at hlen
    unfold u64Max
    omega
  have hstub : prefixOf A (eocdOf A p).isZip64 p (eocdOf A p).cdOffset (eocdOf A p).cdSize =
      .ok 0 := by
    unfold prefixOf
    rw [hplain, hends, Nat.min_eq_left hsmall, if_neg Bool.false_ne_true, if_neg (Nat.lt_irrefl p)]
  rw [directoryOf_eq hlast hwindow hlen, resolvedEocd, if_neg (by simp [hplain]), Res.bind_ok]
  dsimp only
  rw [hstub, Res.bind_ok]

/-- A file that parses through a plain EOCD right behind its directory is a plain archive. -/
theorem of_directoryOf {summary : ArchiveSummary}
    (hdir : directoryOf A = .ok (entries, summary)) (hlast : LastEocd A p)
    (hlen : A.length ≤ isizeMax) (hplain : (eocdOf A p).isZip64 = false)
    (hends : (eocdOf A p).cdOffset + (eocdOf A p).cdSize = p) :
    ∃ used, PlainDirectory A p entries used ∧ summary = plainSummary A p used 0 A.length := by
  obtain ⟨q, hq, hwindow⟩ := exists_lastEocd hdir
  obtain rfl := hq.unique hlast
  have hp := hlast.here.1
  have hsmall : (eocdOf A q).cdOffset + 0 ≤ u64Max := by
    unfold eocdMin at hp
    unfold isizeMax at hlen
    unfold u64Max
    omega
  rw [directoryOf_plain hlast hwindow hlen hplain hends, directoryAt, addU64_eq hsmall,
    Res.bind_ok] at hdir
  by_cases hrange : A.length < (eocdOf A q).cdOffset + 0 + (eocdOf A q).cdSize
  · rw [if_pos hrange] at hdir
    cases hdir
  · by_cases hcount : maxEntries < (eocdOf A q).totalEntries
    · rw [if_neg hrange, if_pos hcount] at hdir
      cases hdir
    · rw [if_neg hrange, if_neg hcount] at hdir
      cases hparse : parseCdEntries (slice A ((eocdOf A q).cdOffset + 0) (eocdOf A q).cdSize)
          (eocdOf A q).totalEntries with
      | error e =>
        rw [hparse] at hdir
        cases hdir
      | ok x =>
        obtain ⟨entries', used⟩ := x
        rw [hparse] at hdir
        obtain ⟨rfl, rfl⟩ := Prod.mk.inj (Except.ok.inj hdir)
        refine ⟨used, ⟨hlast.here, hplain, hends, hparse⟩, ?_⟩
        unfold plainSummary
        rw [Nat.zero_add, Nat.add_zero, hends]

end PlainDirectory

/-! ## Files that agree in front of the record -/

/-- A detected prefix lies in front of the record. -/
theorem prefixOf_le {F : Bytes} {z : Bool} {p cdOffset cdSize pre : Nat}
    (h : prefixOf F z p cdOffset cdSize = .ok pre) (hcd : cdOffset + cdSize ≤ p)
    (hp : p ≤ u64Max) : cdOffset + pre + cdSize ≤ p := by
  unfold prefixOf at h
  rw [Nat.min_eq_left (by omega)] at h
  by_cases hz : z = true
  · rw [if_pos hz] at h
    obtain rfl := Except.ok.inj h
    omega
  · rw [if_neg hz] at h
    split_ifs at h with hlt hhere
    · obtain rfl := Except.ok.inj h
      omega
    · obtain ⟨shifted, -, h⟩ := Res.of_bind_ok h
      split_ifs at h with hthere
      · obtain rfl := Except.ok.inj h
        omega
      · obtain rfl := Except.ok.inj h
        omega
    · obtain rfl := Except.ok.inj h
      omega

/-- The prefix detection looks at the bytes in front of the record and its signature. -/
theorem prefixOf_append_left {front x y : Bytes} {z : Bool} {p cdOffset cdSize : Nat}
    (hcd : cdOffset + cdSize ≤ p) (hp : p + 4 ≤ front.length) (hmax : front.length ≤ u64Max) :
    prefixOf (front ++ x) z p cdOffset cdSize = prefixOf (front ++ y) z p cdOffset cdSize := by
  unfold prefixOf
  rw [Nat.min_eq_left (by omega), headerAt_append_left x (by omega),
    headerAt_append_left y (by omega)]
  dsimp only
  by_cases hlt : cdOffset + cdSize < p
  · rw [addU64_eq (by omega), Res.bind_ok, Res.bind_ok, headerAt_append_left x (by omega),
      headerAt_append_left y (by omega)]
  · rw [if_neg hlt, if_neg hlt]

theorem signatureLenAt_append_left {front x y cd : Bytes} {used off : Nat}
    (h : off + 6 ≤ front.length) :
    signatureLenAt (front ++ y) cd used off = signatureLenAt (front ++ x) cd used off := by
  have hroom : ∀ t : Bytes, off + 6 ≤ (front ++ t).length := fun t => by
    rw [List.length_append]
    omega
  unfold signatureLenAt
  dsimp only
  rw [slice_append_left x (by omega), slice_append_left y (by omega),
    slice_append_left x (by omega), slice_append_left y (by omega)]
  simp only [hroom x, hroom y]

/-- The directory is read from the bytes in front of the record, the signature record
apart. -/
theorem directoryAt_append_left {front x y : Bytes} {e₁ e₂ c₁ c₂ cdOffset cdSize total disk cdDisk
    pre : Nat} (hcd : cdOffset + pre + cdSize ≤ front.length) (hmax : front.length ≤ u64Max)
    (hsig : ∀ used, signatureLenAt (front ++ y) (slice front (cdOffset + pre) cdSize) used
        (cdOffset + pre + cdSize) =
      signatureLenAt (front ++ x) (slice front (cdOffset + pre) cdSize) used
        (cdOffset + pre + cdSize)) :
    directoryAt (front ++ y) e₂ c₂ cdOffset cdSize total disk cdDisk pre =
      (directoryAt (front ++ x) e₁ c₁ cdOffset cdSize total disk cdDisk pre).map fun r =>
        (r.1, { r.2 with
          fileLen := (front ++ y).length
          eocdEndOffset := e₂
          commentLen := c₂ }) := by
  unfold directoryAt
  have hroom : ∀ t : Bytes, ¬ (front ++ t).length < cdOffset + pre + cdSize := fun t => by
    rw [List.length_append]
    omega
  rw [addU64_eq (by omega), Res.bind_ok, Res.bind_ok, if_neg (hroom x), if_neg (hroom y),
    slice_append_left x (by omega), slice_append_left y (by omega)]
  by_cases htotal : maxEntries < total
  · rw [if_pos htotal, if_pos htotal]
    rfl
  · rw [if_neg htotal, if_neg htotal]
    rcases parseCdEntries (slice front (cdOffset + pre) cdSize) total with e | ⟨entries, used⟩
    · rfl
    · dsimp only
      rcases (if 0 < pre then shiftEntries pre entries else .ok entries) with e | entries'
      · rfl
      · rw [Res.bind_ok, Res.bind_ok, hsig]
        rfl

/-! ## Members behind a prefix -/

/-- The outcome `s` is the outcome `r` of the same step taken `n` bytes earlier: a value
moved by `f`, or the same error, with the offset of a bad signature `n` bytes on. -/
inductive Behind {α : Type} (n : Nat) (f : α → α) : Res ZipCoreError α → Res ZipCoreError α → Prop
  | ok (a : α) : Behind n f (.ok a) (.ok (f a))
  | error (e : Fault ZipCoreError) : Behind n f (.error e) (.error e)
  | badSignature (what : String) (off : Nat) :
    Behind n f (Res.err (.format (.badSignature what off)))
      (Res.err (.format (.badSignature what (n + off))))

theorem Behind.bind {α β : Type} {n : Nat} {f : α → α} {g : β → β} {r s : Res ZipCoreError α}
    {x y : α → Res ZipCoreError β} (h : Behind n f r s) (hxy : ∀ a, Behind n g (x a) (y (f a))) :
    Behind n g (r >>= x) (s >>= y) := by
  cases h with
  | ok a => exact hxy a
  | error e => exact .error e
  | badSignature what off => exact .badSignature what off

theorem Behind.ite {α : Type} {n : Nat} {f : α → α} {r r' s s' : Res ZipCoreError α} {p q : Prop}
    [Decidable p] [Decidable q] (hpq : p ↔ q) (h : Behind n f r s) (h' : Behind n f r' s') :
    Behind n f (if p then r else r') (if q then s else s') := by
  by_cases hp : p
  · rw [if_pos hp, if_pos (hpq.1 hp)]
    exact h
  · rw [if_neg hp, if_neg fun hq => hp (hpq.2 hq)]
    exact h'

section Prefix

variable {P B : Bytes}

theorem localNameLen_append_right (off : Nat) :
    localNameLen (P ++ B) (P.length + off) = localNameLen B off := by
  rw [localNameLen, Nat.add_assoc, slice_append_right]
  rfl

theorem localFields_append_right (off : Nat) :
    localFields (P ++ B) (P.length + off) = localFields B off := by
  unfold localFields
  simp only [Nat.add_assoc, slice_append_right, localNameLen_append_right]

theorem localDataStart_append_right (off : Nat) :
    localDataStart (P ++ B) (P.length + off) = P.length + localDataStart B off := by
  unfold localDataStart
  rw [localNameLen_append_right, Nat.add_assoc _ off 28, slice_append_right]
  omega

/-- The local header of a member behind a prefix: the same fields, further on. -/
theorem lfhAt_append_right (hlen : (P ++ B).length ≤ isizeMax) (off : Nat) :
    Behind P.length (fun x => (x.1, P.length + x.2)) (lfhAt B off)
      (lfhAt (P ++ B) (P.length + off)) := by
  have hlen' : B.length ≤ isizeMax := by
    rw [List.length_append] at hlen
    omega
  rw [lfhAt_eq hlen, lfhAt_eq hlen', localNameLen_append_right, localFields_append_right,
    localDataStart_append_right, slice_append_right, List.length_append]
  refine .ite (by omega) (.ite Iff.rfl (.ite (by omega) ?_ (.error _)) (.badSignature _ _))
    (.error _)
  exact .ok (localFields B off, localDataStart B off)

end Prefix

/-- A local header that was read does not depend on what follows the file. -/
theorem lfhAt_append_left {A T : Bytes} {off : Nat} {x : HeaderFields × Nat}
    (hlen : (A ++ T).length ≤ isizeMax) (h : lfhAt A off = .ok x) : lfhAt (A ++ T) off = .ok x := by
  have hlen' : A.length ≤ isizeMax := by
    rw [List.length_append] at hlen
    omega
  obtain ⟨hin, hsig, rfl⟩ := (lfhAt_eq_ok_iff hlen').1 h
  have hname : localNameLen (A ++ T) off = localNameLen A off := by
    unfold lfhFixed at hin
    rw [localNameLen, slice_append_left T (by omega)]
    rfl
  refine (lfhAt_eq_ok_iff hlen).2 ⟨?_, ?_, ?_⟩
  · rw [hname, List.length_append]
    omega
  · unfold lfhFixed at hin
    rw [slice_append_left T (by omega)]
    exact hsig
  · unfold localFields localDataStart
    unfold lfhFixed at *
    rw [hname, slice_append_left T hin, slice_append_left T (by omega),
      slice_append_left T (by omega), slice_append_left T (by omega),
      slice_append_left T (by omega), slice_append_left T (by omega),
      slice_append_left T (by omega)]

namespace ZipFile

variable {τ : Type} [Read IoError τ]

/-- The reader of a member found `n` bytes further on. -/
def shift (n : Nat) (f : ZipFile k τ) : ZipFile k τ :=
  f.relocate (f.entry.lfhOffset + n) (n + f.dataStart)

theorem decode_shift (n : Nat) (m : CentralEntry) (dataStart : Nat) (method : CompressionMethod)
    (verifyCrc : Bool) (reader : EntryReader k τ) :
    decode (m.shift n) (n + dataStart) method verifyCrc reader =
      ReadM.mapBuilt id (shift n) (decode m dataStart method verifyCrc reader) := by
  unfold decode
  rw [CentralEntry.shift_uncompressedSize]
  rcases Decoder.new method m.uncompressedSize reader with ⟨e, r⟩ | d <;> rfl

theorem openPlain_shift (n : Nat) (m : CentralEntry) (dataStart : Nat) (w : τ) :
    openPlain (k := k) (m.shift n) (n + dataStart) w =
      ReadM.mapBuilt id (shift n) (openPlain m dataStart w) :=
  decode_shift n m dataStart m.method true (.plain w)

theorem openEncrypted_shift (n : Nat) (m : CentralEntry) (password : Bytes) (dataStart : Nat)
    (w : τ) :
    openEncrypted (k := k) (m.shift n) password (n + dataStart) w =
      ReadM.mapBuilt id (shift n) (openEncrypted m password dataStart w) := by
  unfold openEncrypted
  simp only [CentralEntry.shift_aes, CentralEntry.shift_compressedSize, CentralEntry.shift_name,
    CentralEntry.shift_flags, CentralEntry.shift_crc32, CentralEntry.shift_lastModTime,
    CentralEntry.shift_method]
  cases m.aes with
  | some aes =>
    dsimp only
    rcases (AesReader.new w password aes m.compressedSize m.name :
      Except (ZipCoreError × τ) (AesReader k τ)) with e | r
    · rfl
    · exact decode_shift n m dataStart _ _ (.aes r)
  | none =>
    dsimp only
    rcases ZipCryptoReader.new w password (zipcryptoCheckByte m.flags m.crc32 m.lastModTime)
      m.name with e | r
    · rfl
    · exact decode_shift n m dataStart _ _ (.zipCrypto r)

theorem openStrong_shift (n : Nat) (m : CentralEntry) (password : Bytes) (dataStart : Nat) (w : τ) :
    openStrong (k := k) (m.shift n) password (n + dataStart) w =
      ReadM.mapBuilt id (shift n) (openStrong m password dataStart w) := by
  unfold openStrong
  simp only [CentralEntry.shift_crc32, CentralEntry.shift_uncompressedSize,
    CentralEntry.shift_name, CentralEntry.shift_compressedSize, CentralEntry.shift_method]
  rcases ReadM.runOn (readStrongHeader k password m.crc32 m.uncompressedSize m.name) w with
    ⟨e | hdr, r⟩
  · rfl
  · dsimp only
    rcases (StrongAesReader.new r hdr.fileKey hdr.iv (m.compressedSize - hdr.headerLen) m.name :
      Except ZipCoreError (StrongAesReader k τ)) with e | strong
    · rfl
    · exact decode_shift n m dataStart m.method true _

end ZipFile

section Prefix

variable {P B : Bytes} (hlen : (P ++ B).length ≤ isizeMax)
include hlen

theorem openedAt_shift (m : CentralEntry)
    {setup setup' : Nat → Window IoError →
      Except (ZipCoreError × Window IoError) (ZipFile k (Window IoError))}
    (hsetup : ∀ dataStart w, setup' (P.length + dataStart) w =
      ReadM.mapBuilt id (ZipFile.shift P.length) (setup dataStart w)) :
    Behind P.length (ZipFile.shift P.length) (openedAt B m setup)
      (openedAt (P ++ B) (m.shift P.length) setup') := by
  unfold openedAt
  rw [CentralEntry.shift_lfhOffset, Nat.add_comm]
  refine .bind (lfhAt_append_right hlen m.lfhOffset) fun x => ?_
  obtain ⟨fields, dataStart⟩ := x
  dsimp only
  rw [CentralEntry.shift_compressedSize, slice_append_right, hsetup]
  rcases setup dataStart ⟨slice B dataStart m.compressedSize⟩ with ⟨e, w⟩ | f
  · exact .error _
  · exact .ok f

theorem openedPlain_shift (m : CentralEntry) (thisDisk cdStartDisk : Nat) :
    Behind P.length (ZipFile.shift P.length)
      (openedPlain B m thisDisk cdStartDisk : Res ZipCoreError (ZipFile k (Window IoError)))
      (openedPlain (P ++ B) (m.shift P.length) thisDisk cdStartDisk) := by
  unfold openedPlain
  have hdisk : checkLocalDisk (m.shift P.length) thisDisk cdStartDisk =
      checkLocalDisk m thisDisk cdStartDisk := rfl
  rw [hdisk, CentralEntry.shift_flags, CentralEntry.shift_name]
  rcases checkLocalDisk m thisDisk cdStartDisk with e | ⟨⟩
  · exact .error _
  · refine .ite Iff.rfl (.error _) (openedAt_shift hlen m fun dataStart w => ?_)
    exact ZipFile.openPlain_shift P.length m dataStart w

theorem openedDecrypt_shift (m : CentralEntry) (thisDisk cdStartDisk : Nat) (password : Bytes) :
    Behind P.length (ZipFile.shift P.length)
      (openedDecrypt B m thisDisk cdStartDisk password :
        Res ZipCoreError (ZipFile k (Window IoError)))
      (openedDecrypt (P ++ B) (m.shift P.length) thisDisk cdStartDisk password) := by
  unfold openedDecrypt
  have hdisk : checkLocalDisk (m.shift P.length) thisDisk cdStartDisk =
      checkLocalDisk m thisDisk cdStartDisk := rfl
  rw [hdisk, CentralEntry.shift_flags, CentralEntry.shift_name, CentralEntry.shift_aes]
  rcases checkLocalDisk m thisDisk cdStartDisk with e | ⟨⟩
  · exact .error _
  · refine .ite Iff.rfl (openedPlain_shift hlen m thisDisk cdStartDisk)
      (.ite Iff.rfl (.error _) (.ite Iff.rfl ?_ ?_))
    · exact openedAt_shift hlen m fun dataStart w =>
        ZipFile.openStrong_shift P.length m password dataStart w
    · exact openedAt_shift hlen m fun dataStart w =>
        ZipFile.openEncrypted_shift P.length m password dataStart w

end Prefix

/-! ## Members in front of other bytes -/

/-- The local header and the data of `m` lie in `A`. -/
def MemberIn (A : Bytes) (m : CentralEntry) : Prop :=
  ∃ fields dataStart, lfhAt A m.lfhOffset = .ok (fields, dataStart) ∧
    dataStart + m.compressedSize ≤ A.length

section Suffix

variable {A T : Bytes} {m : CentralEntry} (hlen : (A ++ T).length ≤ isizeMax) (hin : MemberIn A m)
include hlen hin

/-- What follows an archive does not change how its members open. -/
theorem openedAt_append_left
    (setup : Nat → Window IoError →
      Except (ZipCoreError × Window IoError) (ZipFile k (Window IoError))) :
    openedAt (A ++ T) m setup = openedAt A m setup := by
  obtain ⟨fields, dataStart, hlfh, hdata⟩ := hin
  unfold openedAt
  rw [lfhAt_append_left hlen hlfh, hlfh, Res.bind_ok, Res.bind_ok]
  dsimp only
  rw [slice_append_left T hdata]

theorem openedPlain_append_left (thisDisk cdStartDisk : Nat) :
    (openedPlain (A ++ T) m thisDisk cdStartDisk : Res ZipCoreError (ZipFile k (Window IoError))) =
      openedPlain A m thisDisk cdStartDisk := by
  unfold openedPlain
  rw [openedAt_append_left hlen hin]

end Suffix

/-! ## What a caller sees of a member behind a prefix -/

/-- The same failure, `n` bytes further on. -/
def SameError (n : Nat) (e e' : Fault ZipCoreError) : Prop :=
  e' = e ∨ ∃ what off, e = .error (.format (.badSignature what off)) ∧
    e' = .error (.format (.badSignature what (n + off)))

/-- Two opened entries are the same member `n` bytes apart: they answer every sequence
of reads alike, or were refused with the same error. -/
def SameMember (n : Nat) : Opened k → Opened k → Prop
  | .ok f, .ok f' =>
    f'.entry = f.entry.shift n ∧ f'.dataStart = n + f.dataStart ∧
      (∀ ns, (reads ns f').1 = (reads ns f).1) ∧ (readToEnd f').1 = (readToEnd f).1
  | .error (e, _), .error (e', _) => SameError n e e'
  | _, _ => False

theorem sameMember_of_behind {n : Nat} {o o' : Opened k}
    (h : Behind n (ZipFile.shift n) o.view o'.view) : SameMember n o o' := by
  rcases o with ⟨e, c⟩ | f
  · rcases o' with ⟨e', c'⟩ | f'
    · dsimp only [Opened.view] at h
      cases h with
      | error => exact .inl rfl
      | badSignature what off => exact .inr ⟨what, off, rfl, rfl⟩
    · dsimp only [Opened.view] at h
      cases h
  · rcases o' with ⟨e', c'⟩ | f'
    · dsimp only [Opened.view] at h
      cases h
    · dsimp only [Opened.view] at h
      have hmap : f'.map Take.window = ZipFile.shift n (f.map Take.window) := by
        generalize f'.map Take.window = w' at h
        cases h
        rfl
      refine ⟨congrArg ZipFile.entry hmap, congrArg ZipFile.dataStart hmap, fun ns => ?_, ?_⟩
      · rw [reads_view, reads_view, hmap, ZipFile.shift, reads_map (ZipFile.readHom_relocate _ _)]
      · rw [readToEnd_view, readToEnd_view, hmap, ZipFile.shift,
          readToEnd_map (ZipFile.readHom_relocate _ _)]

/-- Members with one view are the same member. -/
theorem sameMember_of_view_eq {o o' : Opened k} (h : o'.view = o.view) : SameMember 0 o o' := by
  refine sameMember_of_behind ?_
  rw [h]
  cases o.view with
  | error e => exact .error e
  | ok f =>
    have hshift : ZipFile.shift 0 f = f := by
      simp [ZipFile.shift, ZipFile.relocate]
    have hok := Behind.ok (n := 0) (f := ZipFile.shift 0) f
    rwa [hshift] at hok

end ZipForensic
