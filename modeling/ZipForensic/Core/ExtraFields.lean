import ZipForensic.Core.Records

/-!
# Extra blocks as lists of records

`records` is the reference splitting of an extra block into `(id, data)` records: read
while at least four bytes remain and the declared size fits, stopping at the first record
that overruns. The three walkers of `archive.rs` (`parse_extra_fields`, `parse_aes_extra`
and `apply_zip64_extra`) are functions of that list.

- `extraBlock_records_unread`: the records and the unread bytes are the block.
- `parseExtraFields_eq`, `parseAesExtra_eq`, `applyZip64Extra_eq`: a walker through the
  records, by induction on its rounds.
-/

namespace ZipForensic

/-! ## The reference splitting -/

/-- A whole record stands in front of a block. -/
def RecordFits (extra : Bytes) : Prop :=
  4 ≤ extra.length ∧ 4 + leNat (slice extra 2 2) ≤ extra.length

instance (extra : Bytes) : Decidable (RecordFits extra) := inferInstanceAs (Decidable (_ ∧ _))

/-- The record in front of a block. -/
def headRecord (extra : Bytes) : ExtraRecord where
  id := leNat (slice extra 0 2)
  data := slice extra 4 (leNat (slice extra 2 2))

/-- What stands behind the record in front of a block. -/
def behindRecord (extra : Bytes) : Bytes := extra.drop (4 + leNat (slice extra 2 2))

/-- The records of a block, up to the first one that does not fit. -/
def records (extra : Bytes) : List ExtraRecord :=
  if RecordFits extra then headRecord extra :: records (behindRecord extra) else []
termination_by extra.length
decreasing_by
  rename_i h
  rw [behindRecord, List.length_drop]
  have := h.1
  omega

/-- The bytes behind the records. -/
def unread (extra : Bytes) : Bytes :=
  if RecordFits extra then unread (behindRecord extra) else extra
termination_by extra.length
decreasing_by
  rename_i h
  rw [behindRecord, List.length_drop]
  have := h.1
  omega

/-- The splitting stops at a record whose declared size does not fit. -/
def Overruns (extra : Bytes) : Prop := 4 ≤ (unread extra).length

instance (extra : Bytes) : Decidable (Overruns extra) := inferInstanceAs (Decidable (_ ≤ _))

theorem not_fits_nil : ¬ RecordFits [] := by decide

theorem records_of_fits {extra : Bytes} (h : RecordFits extra) :
    records extra = headRecord extra :: records (behindRecord extra) := by
  rw [records, if_pos h]

theorem records_of_not_fits {extra : Bytes} (h : ¬ RecordFits extra) : records extra = [] := by
  rw [records, if_neg h]

theorem unread_of_fits {extra : Bytes} (h : RecordFits extra) :
    unread extra = unread (behindRecord extra) := by
  rw [unread, if_pos h]

theorem unread_of_not_fits {extra : Bytes} (h : ¬ RecordFits extra) : unread extra = extra := by
  rw [unread, if_neg h]

theorem overruns_of_fits {extra : Bytes} (h : RecordFits extra) :
    Overruns extra ↔ Overruns (behindRecord extra) := by
  rw [Overruns, Overruns, unread_of_fits h]

theorem overruns_of_not_fits {extra : Bytes} (h : ¬ RecordFits extra) :
    Overruns extra ↔ 4 ≤ extra.length := by
  rw [Overruns, unread_of_not_fits h]

theorem length_behindRecord {extra : Bytes} (h : RecordFits extra) :
    (behindRecord extra).length + 4 ≤ extra.length := by
  rw [behindRecord, List.length_drop]
  have := h.2
  omega

theorem headRecord_fits (extra : Bytes) : (headRecord extra).Fits where
  id := leNat_slice_lt extra 0 2
  data := by
    refine Nat.lt_of_le_of_lt ?_ (leNat_slice_lt extra 2 2)
    exact List.length_take_le _ _

theorem records_fit (extra : Bytes) : ∀ r ∈ records extra, r.Fits := by
  induction extra using records.induct with
  | case1 extra h ih =>
    rw [records_of_fits h]
    rintro r (_ | ⟨_, hr⟩)
    · exact headRecord_fits extra
    · exact ih r hr
  | case2 extra h =>
    rw [records_of_not_fits h]
    simp

theorem bytes_headRecord {extra : Bytes} (h : RecordFits extra) :
    (headRecord extra).bytes ++ behindRecord extra = extra := by
  have hfield : ∀ off, off + 2 ≤ extra.length →
      leBytes 2 (leNat (slice extra off 2)) = slice extra off 2 := fun off hoff => by
    have hback := leBytes_leNat (slice extra off 2)
    rwa [length_slice hoff] at hback
  have hdata : (headRecord extra).data.length = leNat (slice extra 2 2) := length_slice h.2
  have h4 := h.1
  rw [ExtraRecord.bytes, hdata, headRecord, behindRecord, hfield 0 (by omega),
    hfield 2 (by omega), slice_add extra 0 2 2, slice_add extra 0 4, slice, List.drop_zero,
    List.take_append_drop]

/-- The records and what stands behind them are the block. -/
theorem extraBlock_records_unread (extra : Bytes) :
    extraBlock (records extra) ++ unread extra = extra := by
  induction extra using records.induct with
  | case1 extra h ih =>
    rw [records_of_fits h, unread_of_fits h, extraBlock_cons, List.append_assoc, ih,
      bytes_headRecord h]
  | case2 extra h =>
    rw [records_of_not_fits h, unread_of_not_fits h]
    rfl

/-- A record written in front of a block is its first record. -/
theorem records_bytes_append {r : ExtraRecord} (hr : r.Fits) (rest : Bytes) :
    records (r.bytes ++ rest) = r :: records rest := by
  have hid := @leNat_field 2 _ hr.id (leBytes 2 r.data.length ++ (r.data ++ rest))
  have hsize := @leNat_field 2 _ hr.data (r.data ++ rest)
  have hbytes : r.bytes ++ rest =
      leBytes 2 r.id ++ (leBytes 2 r.data.length ++ (r.data ++ rest)) := by
    simp only [ExtraRecord.bytes, List.append_assoc]
  have hsize' : leNat (slice (r.bytes ++ rest) 2 2) = r.data.length := by
    rw [hbytes, ← Nat.zero_add 2, slice_field]
    exact hsize
  have hhead : headRecord (r.bytes ++ rest) = r := by
    rw [headRecord, hsize', hbytes, hid]
    have hdata := slice_middle (leBytes 2 r.id ++ leBytes 2 r.data.length) r.data rest
    rw [List.length_append, length_leBytes, length_leBytes, List.append_assoc] at hdata
    rw [hdata]
  have hbehind : behindRecord (r.bytes ++ rest) = rest := by
    rw [behindRecord, hsize', ← ExtraRecord.length_bytes, List.drop_left]
  have hlen := ExtraRecord.length_bytes r
  rw [records_of_fits ⟨by rw [List.length_append]; omega,
    by rw [hsize', List.length_append]; omega⟩, hhead, hbehind]

/-- Records written in front of a block are read back. -/
theorem records_extraBlock_append {rs : List ExtraRecord} (hrs : ∀ r ∈ rs, r.Fits) (rest : Bytes) :
    records (extraBlock rs ++ rest) = rs ++ records rest := by
  induction rs with
  | nil => rfl
  | cons r rs ih =>
    rw [extraBlock_cons, List.append_assoc, records_bytes_append (hrs r (List.mem_cons_self ..)),
      ih fun r' hr' => hrs r' (List.mem_cons_of_mem _ hr')]
    rfl

theorem records_extraBlock {rs : List ExtraRecord} (hrs : ∀ r ∈ rs, r.Fits) :
    records (extraBlock rs) = rs := by
  have hrecords := records_extraBlock_append hrs []
  rwa [List.append_nil, records_of_not_fits not_fits_nil, List.append_nil] at hrecords

/-- Complete records leave nothing unread. -/
theorem unread_extraBlock {rs : List ExtraRecord} (hrs : ∀ r ∈ rs, r.Fits) :
    unread (extraBlock rs) = [] := by
  have hparts := extraBlock_records_unread (extraBlock rs)
  rw [records_extraBlock hrs] at hparts
  exact List.append_right_eq_self.mp hparts

/-! ## One record of a walker -/

section Head

variable {α : Type} {extra : Bytes}

theorem runOn_recordHead (h : 4 ≤ extra.length) (f : Nat → Nat → Reader α) :
    Reader.runOn (Reader.u16 >>= fun id => Reader.u16 >>= fun size => f id size) extra =
      Reader.runOn (f (headRecord extra).id (leNat (slice extra 2 2))) (extra.drop 4) := by
  have hid := Reader.runOn_u16_at (b := extra) (i := 0) (by omega)
  rw [List.drop_zero] at hid
  rw [Reader.runOn_bind_ok _ hid, Reader.runOn_bind_ok _ (Reader.runOn_u16_at (by omega))]
  rfl

theorem runOn_recordData (h : RecordFits extra) :
    Reader.runOn (Reader.take (leNat (slice extra 2 2))) (extra.drop 4) =
      .ok ((headRecord extra).data, behindRecord extra) :=
  Reader.runOn_take_at h.2

theorem runOn_recordData_short (h4 : 4 ≤ extra.length) (h : ¬ RecordFits extra) :
    Reader.runOn (Reader.take (leNat (slice extra 2 2))) (extra.drop 4) = .error .truncated := by
  have hover : ¬ leNat (slice extra 2 2) ≤ (extra.drop 4).length := fun hle => by
    rw [List.length_drop] at hle
    exact h ⟨h4, by omega⟩
  rw [Reader.runOn_take, if_neg hover]

theorem runOn_recordSkip (h : RecordFits extra) :
    Reader.runOn (Reader.skip (leNat (slice extra 2 2))) (extra.drop 4) =
      .ok ((), behindRecord extra) := by
  rw [Reader.skip, Reader.runOn_bind_ok _ (runOn_recordData h), Reader.runOn_pure]

theorem runOn_recordSkip_short (h4 : 4 ≤ extra.length) (h : ¬ RecordFits extra) :
    Reader.runOn (Reader.skip (leNat (slice extra 2 2))) (extra.drop 4) = .error .truncated := by
  rw [Reader.skip, Reader.runOn_bind, runOn_recordData_short h4 h]

theorem runOn_extraRecord (h : RecordFits extra) :
    Reader.runOn extraRecord extra =
      .ok (((headRecord extra).id, (headRecord extra).data), behindRecord extra) := by
  rw [extraRecord, runOn_recordHead h.1, Reader.runOn_bind_ok _ (runOn_recordData h)]
  rfl

theorem runOn_extraRecord_short (h4 : 4 ≤ extra.length) (h : ¬ RecordFits extra) :
    Reader.runOn extraRecord extra = .error .truncated := by
  rw [extraRecord, runOn_recordHead h4, Reader.runOn_bind, runOn_recordData_short h4 h]

end Head

/-! ## `parse_extra_fields` -/

namespace ExtraRecord

/-- What one record does to the fields: the arms of `parse_extra_fields`. -/
def update (out : ExtraFields) (r : ExtraRecord) : ExtraFields :=
  if r.id = 0x000a then parseNtfsTimes r.data out
  else if r.id = 0x5455 then parseUnixTimes r.data out
  else if r.id = 0x7075 then { out with unicodePath := parseUnicodeExtra r.data }
  else if r.id = 0x6375 then { out with unicodeComment := parseUnicodeExtra r.data }
  else out

end ExtraRecord

/-- A round of the walker takes the record in front, where one stands. -/
theorem parseExtraFieldsLoop_eq {fuel : Nat} {extra : Bytes} (hfuel : extra.length ≤ fuel)
    (out : ExtraFields) :
    parseExtraFieldsLoop fuel extra out = (records extra).foldl ExtraRecord.update out := by
  induction fuel generalizing extra out with
  | zero =>
    have hnot : ¬ RecordFits extra := fun h => by
      have := h.1
      omega
    rw [records_of_not_fits hnot]
    rfl
  | succ fuel ih =>
    rw [parseExtraFieldsLoop]
    by_cases hfits : RecordFits extra
    · have hlen := length_behindRecord hfits
      have hroom := hfits.1
      rw [if_neg (by omega), runOn_extraRecord hfits, records_of_fits hfits, List.foldl_cons,
        ← ih (by omega)]
      rfl
    · -- fewer than four bytes end the loop, and so does a size that overruns
      rw [records_of_not_fits hfits]
      by_cases hroom : extra.length < 4
      · rw [if_pos hroom]
        rfl
      · rw [if_neg hroom, runOn_extraRecord_short (by omega) hfits]
        rfl

theorem parseExtraFields_eq (extra : Bytes) :
    parseExtraFields extra = (records extra).foldl ExtraRecord.update {} :=
  parseExtraFieldsLoop_eq (Nat.le_refl _) _

/-! ## `parse_aes_extra` -/

/-- The first record with a given id. -/
def firstRecord (id : Nat) (rs : List ExtraRecord) : Option ExtraRecord :=
  rs.find? fun r => r.id = id

theorem firstRecord_cons_of_eq {id : Nat} {r : ExtraRecord} (rs : List ExtraRecord) (h : r.id = id) :
    firstRecord id (r :: rs) = some r :=
  List.find?_cons_of_pos (by simpa using h)

theorem firstRecord_cons_of_ne {id : Nat} {r : ExtraRecord} (rs : List ExtraRecord) (h : r.id ≠ id) :
    firstRecord id (r :: rs) = firstRecord id rs :=
  List.find?_cons_of_neg (by simpa using h)

theorem firstRecord_eq_none {id : Nat} {rs : List ExtraRecord} :
    firstRecord id rs = none ↔ ∀ r ∈ rs, r.id ≠ id := by
  simp [firstRecord, List.find?_eq_none]

/-- The AE-x data of a record: version, vendor, strength and the real method. -/
def ExtraRecord.aesInfo (r : ExtraRecord) : Option AesInfo :=
  if 7 ≤ r.data.length then
    some {
      strength := leNat (slice r.data 4 1)
      actualMethod := leNat (slice r.data 5 2)
      isAe2 := decide (leNat (slice r.data 0 2) = 2) }
  else none

/-- The reads of `parse_aes_extra` from the data of its record. -/
def aesFields : Reader AesInfo := do
  let version ← Reader.u16
  let _vendor ← Reader.u16
  let strength ← Reader.take 1
  let actualMethod ← Reader.u16
  return { strength := leNat strength, actualMethod := actualMethod, isAe2 := decide (version = 2) }

theorem runOn_aesFields (r : ExtraRecord) :
    (∃ info, r.aesInfo = some info ∧ Reader.runOn aesFields r.data = .ok (info, r.data.drop 7)) ∨
      r.aesInfo = none ∧ Reader.runOn aesFields r.data = .error .truncated := by
  have hversion : 2 ≤ r.data.length → Reader.runOn Reader.u16 r.data =
      .ok (leNat (slice r.data 0 2), r.data.drop 2) := fun h => by
    have hat := Reader.runOn_u16_at (b := r.data) (i := 0) (by omega)
    rwa [List.drop_zero] at hat
  unfold aesFields
  by_cases h7 : 7 ≤ r.data.length
  · left
    refine ⟨_, if_pos h7, ?_⟩
    rw [Reader.runOn_bind_ok _ (hversion (by omega)),
      Reader.runOn_bind_ok _ (Reader.runOn_u16_at (by omega)),
      Reader.runOn_bind_ok _ (Reader.runOn_take_at (by omega)),
      Reader.runOn_bind_ok _ (Reader.runOn_u16_at (by omega))]
    rfl
  · refine .inr ⟨if_neg h7, ?_⟩
    -- which of the four reads is cut off depends on the length
    by_cases h2 : 2 ≤ r.data.length
    · rw [Reader.runOn_bind_ok _ (hversion h2)]
      by_cases h4 : 4 ≤ r.data.length
      · rw [Reader.runOn_bind_ok _ (Reader.runOn_u16_at (by omega))]
        by_cases h5 : 5 ≤ r.data.length
        · rw [Reader.runOn_bind_ok _ (Reader.runOn_take_at (by omega)), Reader.runOn_bind,
            Reader.runOn_u16_at_short (by omega)]
        · rw [Reader.runOn_bind, Reader.runOn_take_at_short (by omega)]
      · rw [Reader.runOn_bind, Reader.runOn_u16_at_short (by omega)]
    · have hshort := Reader.runOn_u16_at_short (b := r.data) (i := 0) (by omega)
      rw [List.drop_zero] at hshort
      rw [Reader.runOn_bind, hshort]

/-- A round of `parse_aes_extra` on a block with a record in front. -/
theorem runOn_parseAesExtraLoop_of_fits {fuel : Nat} {extra : Bytes} (h : RecordFits extra) :
    Reader.runOn (parseAesExtraLoop (fuel + 1)) extra =
      if (headRecord extra).id = 0x9901 then
        (Reader.runOn aesFields (headRecord extra).data).map fun x =>
          (some x.1, behindRecord extra)
      else Reader.runOn (parseAesExtraLoop fuel) (behindRecord extra) := by
  have hroom := h.1
  rw [parseAesExtraLoop, Reader.runOn_bind_ok _ (Reader.runOn_remaining _), if_neg (by omega),
    runOn_recordHead hroom]
  split_ifs
  · rw [Reader.runOn_bind_ok _ (runOn_recordData h)]
    show Reader.runOn _ _ = (Reader.runOn aesFields _).map _
    dsimp only
    rw [← aesFields]
    cases Reader.runOn aesFields (headRecord extra).data <;> rfl
  · rw [Reader.runOn_bind_ok _ (runOn_recordSkip h)]

/-- Without a record in front `parse_aes_extra` finds nothing. -/
theorem runOn_parseAesExtraLoop_of_not_fits {fuel : Nat} {extra : Bytes} (h : ¬ RecordFits extra) :
    Reader.runOn (parseAesExtraLoop (fuel + 1)) extra =
      if extra.length < 4 then .ok (none, extra) else .error .truncated := by
  rw [parseAesExtraLoop, Reader.runOn_bind_ok _ (Reader.runOn_remaining _)]
  by_cases hroom : extra.length < 4
  · rw [if_pos hroom, if_pos hroom]
    rfl
  · rw [if_neg hroom, if_neg hroom, runOn_recordHead (by omega)]
    split_ifs
    · rw [Reader.runOn_bind, runOn_recordData_short (by omega) h]
    · rw [Reader.runOn_bind, runOn_recordSkip_short (by omega) h]

theorem runOn_parseAesExtraLoop {fuel : Nat} {extra : Bytes} (hfuel : extra.length ≤ fuel) :
    (∃ rest, Reader.runOn (parseAesExtraLoop fuel) extra =
        .ok ((firstRecord 0x9901 (records extra)).bind ExtraRecord.aesInfo, rest)) ∨
      (firstRecord 0x9901 (records extra)).bind ExtraRecord.aesInfo = none ∧
        Reader.runOn (parseAesExtraLoop fuel) extra = .error .truncated := by
  induction fuel generalizing extra with
  | zero =>
    obtain rfl : extra = [] := List.length_eq_zero_iff.mp (by omega)
    rw [records_of_not_fits not_fits_nil]
    exact .inl ⟨[], rfl⟩
  | succ fuel ih =>
    by_cases hfits : RecordFits extra
    · -- the loop goes on behind any record but the AE-x one, and ends with that
      have hlen := length_behindRecord hfits
      rw [runOn_parseAesExtraLoop_of_fits hfits, records_of_fits hfits]
      by_cases hid : (headRecord extra).id = 0x9901
      · rw [if_pos hid, firstRecord_cons_of_eq _ hid, Option.bind_some]
        obtain ⟨info, hinfo, hrun⟩ | ⟨hinfo, hrun⟩ := runOn_aesFields (headRecord extra)
        · rw [hinfo, hrun]
          exact .inl ⟨_, rfl⟩
        · rw [hinfo, hrun]
          exact .inr ⟨rfl, rfl⟩
      · rw [if_neg hid, firstRecord_cons_of_ne _ hid]
        exact ih (by omega)
    · rw [runOn_parseAesExtraLoop_of_not_fits hfits, records_of_not_fits hfits]
      by_cases hroom : extra.length < 4
      · rw [if_pos hroom]
        exact .inl ⟨extra, rfl⟩
      · rw [if_neg hroom]
        exact .inr ⟨rfl, rfl⟩

theorem parseAesExtra_eq (extra : Bytes) :
    parseAesExtra extra = (firstRecord 0x9901 (records extra)).bind ExtraRecord.aesInfo := by
  unfold parseAesExtra
  obtain ⟨rest, hrun⟩ | ⟨hnone, hrun⟩ := runOn_parseAesExtraLoop (Nat.le_refl extra.length)
  · rw [hrun]
  · rw [hrun, hnone]

/-! ## `apply_zip64_extra` -/

section Zip64

variable (needUncompressed needCompressed needOffset : Bool)

/-- The bytes a Zip64 record needs for the chosen fields. -/
def zip64Needed : Nat :=
  8 * (needUncompressed.toNat + needCompressed.toNat + needOffset.toNat)

/-- The values of the chosen fields in a Zip64 record, in their fixed order; the other
fields keep what they are. -/
def ExtraRecord.zip64Values (r : ExtraRecord) (uncompressedSize compressedSize lfhOffset : Nat) :
    Nat × Nat × Nat :=
  (if needUncompressed then leNat (slice r.data 0 8) else uncompressedSize,
    if needCompressed then leNat (slice r.data (8 * needUncompressed.toNat) 8) else compressedSize,
    if needOffset then
      leNat (slice r.data (8 * (needUncompressed.toNat + needCompressed.toNat)) 8)
    else lfhOffset)

variable (uncompressedSize compressedSize lfhOffset : Nat)

/-- The reads of `apply_zip64_extra` from the data of its record. -/
def zip64Fields : Reader (Nat × Nat × Nat) := do
  let u ← zip64Field needUncompressed uncompressedSize
  let c ← zip64Field needCompressed compressedSize
  let o ← zip64Field needOffset lfhOffset
  return (u, c, o)

end Zip64

theorem runOn_zip64Field_at {need : Bool} {v i : Nat} {b : Bytes}
    (h : i + 8 * need.toNat ≤ b.length) :
    Reader.runOn (zip64Field need v) (b.drop i) =
      .ok (if need then leNat (slice b i 8) else v, b.drop (i + 8 * need.toNat)) := by
  cases need with
  | true => exact Reader.runOn_u64_at h
  | false => rfl

theorem runOn_zip64Field_at_short {need : Bool} {v i : Nat} {b : Bytes} (hi : i ≤ b.length)
    (h : b.length < i + 8 * need.toNat) :
    Reader.runOn (zip64Field need v) (b.drop i) = .error .truncated := by
  cases need with
  | true => exact Reader.runOn_u64_at_short h
  | false =>
    simp only [Bool.toNat_false] at h
    omega

section Zip64

variable {nu nc no : Bool} {u c o : Nat}

theorem runOn_zip64Fields_of_holds {r : ExtraRecord} (h : zip64Needed nu nc no ≤ r.data.length) :
    Reader.runOn (zip64Fields nu nc no u c o) r.data =
      .ok (r.zip64Values nu nc no u c o, r.data.drop (zip64Needed nu nc no)) := by
  unfold zip64Needed at h ⊢
  have hfirst := @runOn_zip64Field_at nu u 0 r.data (by omega)
  rw [List.drop_zero, Nat.zero_add] at hfirst
  rw [zip64Fields, Reader.runOn_bind_ok _ hfirst,
    Reader.runOn_bind_ok _ (runOn_zip64Field_at (by omega)), ← Nat.mul_add,
    Reader.runOn_bind_ok _ (runOn_zip64Field_at (by omega)), ← Nat.mul_add]
  rfl

theorem runOn_zip64Fields_short {r : ExtraRecord} (h : r.data.length < zip64Needed nu nc no) :
    Reader.runOn (zip64Fields nu nc no u c o) r.data = .error .truncated := by
  unfold zip64Needed at h
  rw [zip64Fields, ← List.drop_zero (l := r.data)]
  -- the first selected field that is cut off ends the reads
  by_cases hu : 8 * nu.toNat ≤ r.data.length
  · rw [Reader.runOn_bind_ok _ (runOn_zip64Field_at (by omega))]
    by_cases hc : 8 * nu.toNat + 8 * nc.toNat ≤ r.data.length
    · rw [Reader.runOn_bind_ok _ (runOn_zip64Field_at (by omega)), Reader.runOn_bind,
        runOn_zip64Field_at_short (by omega) (by omega)]
    · rw [Reader.runOn_bind, runOn_zip64Field_at_short (by omega) (by omega)]
  · rw [Reader.runOn_bind, runOn_zip64Field_at_short (by omega) (by omega)]

/-- What a Zip64 record answers: its values, or `Truncated` where it is too short. -/
def ExtraRecord.zip64Answer (nu nc no : Bool) (u c o : Nat) (r : ExtraRecord) :
    Except FormatError (Nat × Nat × Nat) :=
  if zip64Needed nu nc no ≤ r.data.length then .ok (r.zip64Values nu nc no u c o)
  else .error .truncated

/-- What a block without a Zip64 record answers. -/
def zip64Missing (extra : Bytes) : FormatError :=
  if Overruns extra then .truncated else .zip64Inconsistent

/-- A round of `apply_zip64_extra` on a block with a record in front. -/
theorem runOn_applyZip64ExtraLoop_of_fits {fuel : Nat} {extra : Bytes} (h : RecordFits extra) :
    Reader.runOn (applyZip64ExtraLoop nu nc no u c o (fuel + 1)) extra =
      if (headRecord extra).id = zip64ExtraId then
        ((headRecord extra).zip64Answer nu nc no u c o).map fun v => (v, behindRecord extra)
      else Reader.runOn (applyZip64ExtraLoop nu nc no u c o fuel) (behindRecord extra) := by
  have hroom := h.1
  rw [applyZip64ExtraLoop, Reader.runOn_bind_ok _ (Reader.runOn_remaining _), if_neg (by omega),
    runOn_recordHead hroom]
  by_cases hid : (headRecord extra).id = zip64ExtraId
  · rw [if_pos hid, if_pos hid, Reader.runOn_bind_ok _ (runOn_recordData h)]
    dsimp only
    rw [← zip64Fields, ExtraRecord.zip64Answer]
    by_cases hholds : zip64Needed nu nc no ≤ (headRecord extra).data.length
    · rw [runOn_zip64Fields_of_holds hholds, if_pos hholds]
      rfl
    · rw [runOn_zip64Fields_short (by omega), if_neg hholds]
      rfl
  · rw [if_neg hid, if_neg hid, Reader.runOn_bind_ok _ (runOn_recordSkip h)]

/-- Without a record in front there is no Zip64 record. -/
theorem runOn_applyZip64ExtraLoop_of_not_fits {fuel : Nat} {extra : Bytes}
    (hfuel : extra.length ≤ fuel) (h : ¬ RecordFits extra) :
    Reader.runOn (applyZip64ExtraLoop nu nc no u c o fuel) extra = .error (zip64Missing extra) := by
  rw [zip64Missing]
  cases fuel with
  | zero =>
    rw [if_neg (by rw [overruns_of_not_fits h]; omega)]
    rfl
  | succ fuel =>
    rw [applyZip64ExtraLoop, Reader.runOn_bind_ok _ (Reader.runOn_remaining _)]
    by_cases hroom : extra.length < 4
    · rw [if_pos hroom, if_neg (by rw [overruns_of_not_fits h]; omega)]
      rfl
    · rw [if_neg hroom, if_pos (by rw [overruns_of_not_fits h]; omega),
        runOn_recordHead (by omega)]
      split_ifs
      · rw [Reader.runOn_bind, runOn_recordData_short (by omega) h]
      · rw [Reader.runOn_bind, runOn_recordSkip_short (by omega) h]

theorem zip64Missing_of_fits {extra : Bytes} (h : RecordFits extra) :
    zip64Missing extra = zip64Missing (behindRecord extra) := by
  rw [zip64Missing, zip64Missing, if_congr (overruns_of_fits h) rfl rfl]

theorem runOn_applyZip64ExtraLoop_eq {fuel : Nat} {extra : Bytes} (hfuel : extra.length ≤ fuel) :
    (Reader.runOn (applyZip64ExtraLoop nu nc no u c o fuel) extra).map Prod.fst =
      (firstRecord zip64ExtraId (records extra)).elim (.error (zip64Missing extra))
        (ExtraRecord.zip64Answer nu nc no u c o) := by
  induction fuel generalizing extra with
  | zero =>
    obtain rfl : extra = [] := List.length_eq_zero_iff.mp (by omega)
    rw [runOn_applyZip64ExtraLoop_of_not_fits hfuel not_fits_nil,
      records_of_not_fits not_fits_nil]
    rfl
  | succ fuel ih =>
    by_cases hfits : RecordFits extra
    · have hlen := length_behindRecord hfits
      rw [runOn_applyZip64ExtraLoop_of_fits hfits, records_of_fits hfits,
        zip64Missing_of_fits hfits]
      by_cases hid : (headRecord extra).id = zip64ExtraId
      · rw [if_pos hid, firstRecord_cons_of_eq _ hid, Option.elim_some]
        cases (headRecord extra).zip64Answer nu nc no u c o <;> rfl
      · rw [if_neg hid, firstRecord_cons_of_ne _ hid]
        exact ih (by omega)
    · rw [runOn_applyZip64ExtraLoop_of_not_fits hfuel hfits, records_of_not_fits hfits]
      rfl

theorem applyZip64Extra_eq (extra : Bytes) :
    applyZip64Extra extra nu nc no u c o =
      (firstRecord zip64ExtraId (records extra)).elim (.error (zip64Missing extra))
        (ExtraRecord.zip64Answer nu nc no u c o) := by
  rw [← runOn_applyZip64ExtraLoop_eq (Nat.le_refl extra.length), applyZip64Extra]
  rcases Reader.runOn (applyZip64ExtraLoop nu nc no u c o extra.length) extra with e | ⟨v, rest⟩ <;>
    rfl

end Zip64

/-- The three walkers see the same records. `parse_extra_fields` folds the updates of the
records; `parse_aes_extra` answers from the first 0x9901 record; `apply_zip64_extra`
answers from the first 0x0001 record, and where there is none it says `Truncated` for a
block with a record that overruns and `Zip64Inconsistent` for one without. -/
theorem extraWalkers_refine_records (extra : Bytes) :
    parseExtraFields extra = (records extra).foldl ExtraRecord.update {} ∧
      (parseAesExtra extra = (firstRecord 0x9901 (records extra)).bind ExtraRecord.aesInfo ∧
        ((parseAesExtra extra).isSome ↔
          ∃ r, firstRecord 0x9901 (records extra) = some r ∧ 7 ≤ r.data.length)) ∧
      ∀ (nu nc no : Bool) (u c o : Nat),
        (∀ v, applyZip64Extra extra nu nc no u c o = .ok v ↔
          ∃ r, firstRecord zip64ExtraId (records extra) = some r ∧
            zip64Needed nu nc no ≤ r.data.length ∧ v = r.zip64Values nu nc no u c o) ∧
        (applyZip64Extra extra nu nc no u c o = .error .zip64Inconsistent ↔
          (∀ r ∈ records extra, r.id ≠ zip64ExtraId) ∧ ¬ Overruns extra) ∧
        ∀ e, applyZip64Extra extra nu nc no u c o = .error e →
          e = .zip64Inconsistent ∨ e = .truncated := by
  refine ⟨parseExtraFields_eq extra, ⟨parseAesExtra_eq extra, ?_⟩, fun nu nc no u c o => ?_⟩
  · rw [parseAesExtra_eq]
    cases firstRecord 0x9901 (records extra) with
    | none => simp
    | some r => simp [ExtraRecord.aesInfo]
  · rw [applyZip64Extra_eq, ← firstRecord_eq_none]
    cases firstRecord zip64ExtraId (records extra) with
    | none =>
      -- without the record, an overrun decides between the two errors
      rw [Option.elim_none, zip64Missing]
      by_cases hover : Overruns extra <;> simp [hover]
    | some r =>
      rw [Option.elim_some, ExtraRecord.zip64Answer]
      by_cases hholds : zip64Needed nu nc no ≤ r.data.length
      · simp [hholds, eq_comm]
      · simp [hholds]

end ZipForensic
