import Mathlib.Data.List.Induction
import ZipForensic.Core.ExtraFields

/-!
# Malformed extra records

Five fields of an extra block are overwritten by every record that announces them, the
NTFS times only by a record that holds all three. A malformed record behind a block of
complete records therefore keeps what the block reports exactly where it announces
nothing that is reported.

- `ExtraSlot`: the fields that are overwritten; `ExtraRecord.Announces`,
  `ExtraRecord.Holds`: what a record says about one.
- `get_update`: one record; `get_foldl_update`: a block.
- `keeps_update_iff`: what a malformed record erases.
-/

namespace ZipForensic

/-- The fields that a record overwrites whether or not it holds a value for them. -/
inductive ExtraSlot where
  | unixMtime
  | unixAtime
  | unixCtime
  | unicodePath
  | unicodeComment
deriving DecidableEq, Repr

namespace ExtraFields

/-- The value reported for a slot: a time or a text. -/
def get (out : ExtraFields) : ExtraSlot → Option (Int ⊕ String)
  | .unixMtime => out.unixMtime.map .inl
  | .unixAtime => out.unixAtime.map .inl
  | .unixCtime => out.unixCtime.map .inl
  | .unicodePath => out.unicodePath.map .inr
  | .unicodeComment => out.unicodeComment.map .inr

/-- Every field that `out` reports is reported by `out'` with the same value. -/
structure Keeps (out out' : ExtraFields) : Prop where
  ntfsMtime : ∀ t, out.ntfsMtime = some t → out'.ntfsMtime = some t
  ntfsAtime : ∀ t, out.ntfsAtime = some t → out'.ntfsAtime = some t
  ntfsCtime : ∀ t, out.ntfsCtime = some t → out'.ntfsCtime = some t
  unixMtime : ∀ t, out.unixMtime = some t → out'.unixMtime = some t
  unixAtime : ∀ t, out.unixAtime = some t → out'.unixAtime = some t
  unixCtime : ∀ t, out.unixCtime = some t → out'.unixCtime = some t
  unicodePath : ∀ s, out.unicodePath = some s → out'.unicodePath = some s
  unicodeComment : ∀ s, out.unicodeComment = some s → out'.unicodeComment = some s

theorem Keeps.refl (out : ExtraFields) : out.Keeps out := by
  constructor <;> exact fun _ h => h

/-- A value that is kept is kept under a wrapping, and the other way round. -/
theorem map_keeps_iff {α β : Type} {f : α → β} (hf : Function.Injective f) {x y : Option α} :
    (∀ v, x.map f = some v → y.map f = some v) ↔ ∀ t, x = some t → y = some t := by
  constructor
  · intro h t ht
    obtain ⟨t', ht', heq⟩ := Option.map_eq_some_iff.mp (h (f t) (by rw [ht]; rfl))
    rw [ht', hf heq]
  · intro h v hv
    obtain ⟨t, ht, rfl⟩ := Option.map_eq_some_iff.mp hv
    rw [h t ht]
    rfl

theorem Keeps.get {out out' : ExtraFields} (h : out.Keeps out') (slot : ExtraSlot) :
    ∀ v, out.get slot = some v → out'.get slot = some v := by
  cases slot with
  | unixMtime => exact (map_keeps_iff Sum.inl_injective).mpr h.unixMtime
  | unixAtime => exact (map_keeps_iff Sum.inl_injective).mpr h.unixAtime
  | unixCtime => exact (map_keeps_iff Sum.inl_injective).mpr h.unixCtime
  | unicodePath => exact (map_keeps_iff Sum.inr_injective).mpr h.unicodePath
  | unicodeComment => exact (map_keeps_iff Sum.inr_injective).mpr h.unicodeComment

/-- Without the NTFS times, the slots are the fields. -/
theorem Keeps.of_get {out out' : ExtraFields} (hm : out'.ntfsMtime = out.ntfsMtime)
    (ha : out'.ntfsAtime = out.ntfsAtime) (hc : out'.ntfsCtime = out.ntfsCtime)
    (h : ∀ slot v, out.get slot = some v → out'.get slot = some v) : out.Keeps out' where
  ntfsMtime _ ht := hm.trans ht
  ntfsAtime _ ht := ha.trans ht
  ntfsCtime _ ht := hc.trans ht
  unixMtime := (map_keeps_iff Sum.inl_injective).mp (h .unixMtime)
  unixAtime := (map_keeps_iff Sum.inl_injective).mp (h .unixAtime)
  unixCtime := (map_keeps_iff Sum.inl_injective).mp (h .unixCtime)
  unicodePath := (map_keeps_iff Sum.inr_injective).mp (h .unicodePath)
  unicodeComment := (map_keeps_iff Sum.inr_injective).mp (h .unicodeComment)

end ExtraFields

namespace ExtraRecord

variable (r : ExtraRecord)

/-- The flags byte of an extended timestamp; an empty record has none. -/
def timeFlags : Nat := (r.data.headD 0).toNat

/-- The record has an announcement for the slot. -/
def Announces : ExtraSlot → Prop
  | .unixMtime => r.id = 0x5455 ∧ r.timeFlags &&& 0x01 ≠ 0
  | .unixAtime => r.id = 0x5455 ∧ r.timeFlags &&& 0x02 ≠ 0
  | .unixCtime => r.id = 0x5455 ∧ r.timeFlags &&& 0x04 ≠ 0
  | .unicodePath => r.id = 0x7075
  | .unicodeComment => r.id = 0x6375

/-- How many times an extended timestamp announces in front of a slot. -/
def timesBefore : ExtraSlot → Nat
  | .unixAtime => if r.timeFlags &&& 0x01 ≠ 0 then 1 else 0
  | .unixCtime =>
    (if r.timeFlags &&& 0x01 ≠ 0 then 1 else 0) + if r.timeFlags &&& 0x02 ≠ 0 then 1 else 0
  | _ => 0

/-- The value announced for the slot is there in full: four bytes behind the flags and
the times in front, or UTF-8 text behind the version and the CRC. -/
def Holds (slot : ExtraSlot) : Prop :=
  if slot = .unicodePath ∨ slot = .unicodeComment then
    5 ≤ r.data.length ∧ (fromUtf8 (r.data.drop 5)).isSome
  else 1 + 4 * r.timesBefore slot + 4 ≤ r.data.length

instance (slot : ExtraSlot) : Decidable (r.Announces slot) := by
  cases slot <;> unfold Announces <;> infer_instance

instance (slot : ExtraSlot) : Decidable (r.Holds slot) := by
  unfold Holds
  infer_instance

/-- The attributes of an NTFS record, behind its reserved field. -/
def ntfsAttributes : List ExtraRecord := records (r.data.drop 4)

/-- The payload holds no complete value for its id: no times attribute with three
FILETIMEs in an NTFS record, no announced value that is there in full in the others. -/
def HoldsNothing : Prop :=
  if r.id = 0x000a then ∀ a ∈ r.ntfsAttributes, a.id = 0x0001 → a.data.length < 24
  else ∀ slot, r.Announces slot → ¬ r.Holds slot

/-- What the record gives for a slot that it announces. -/
def value (slot : ExtraSlot) : Option (Int ⊕ String) :=
  if slot = .unicodePath ∨ slot = .unicodeComment then (parseUnicodeExtra r.data).map .inr
  else (takeI32le (r.data.drop (1 + 4 * r.timesBefore slot))).1.map .inl

end ExtraRecord

/-! ## Extended timestamps -/

theorem isSome_takeI32le (data : Bytes) : (takeI32le data).1.isSome ↔ 4 ≤ data.length := by
  rw [takeI32le]
  by_cases h : 4 ≤ data.length <;> simp [h]

/-- `rest` is what `k` reads of a time leave of `data`: a read that fails takes nothing, and
so do the reads behind it. -/
def BehindTimes (data : Bytes) (k : Nat) (rest : Bytes) : Prop :=
  rest = data.drop (4 * k) ∨ rest.length < 4 ∧ data.length < 4 * k + 4

theorem BehindTimes.zero (data : Bytes) : BehindTimes data 0 data := .inl rfl

theorem BehindTimes.read {data rest : Bytes} {k : Nat} (h : BehindTimes data k rest) :
    BehindTimes data (k + 1) (takeI32le rest).2 := by
  rw [takeI32le]
  by_cases hroom : 4 ≤ rest.length
  · obtain rfl | hshort := h
    · rw [if_pos hroom]
      exact .inl (by rw [List.drop_drop, Nat.mul_add])
    · omega
  · rw [if_neg hroom]
    obtain rfl | hshort := h
    · rw [List.length_drop] at hroom
      exact .inr ⟨by rw [List.length_drop]; omega, by omega⟩
    · exact .inr ⟨hshort.1, by omega⟩

/-- The next time after `k` reads stands at `4 * k`. -/
theorem BehindTimes.next {data rest : Bytes} {k : Nat} (h : BehindTimes data k rest) :
    (takeI32le rest).1 = (takeI32le (data.drop (4 * k))).1 := by
  obtain rfl | ⟨hrest, hdata⟩ := h
  · rfl
  · rw [takeI32le, if_neg (by omega), takeI32le, if_neg (by rw [List.length_drop]; omega)]

section UnixTimes

variable (flagByte : UInt8) (data : Bytes) (out : ExtraFields)

/-- What the announced modification time leaves. -/
def behindMtime : Bytes := if flagByte.toNat &&& 0x01 ≠ 0 then (takeI32le data).2 else data

/-- What the announced modification and access times leave. -/
def behindAtime : Bytes :=
  if flagByte.toNat &&& 0x02 ≠ 0 then (takeI32le (behindMtime flagByte data)).2
  else behindMtime flagByte data

theorem parseUnixTimes_cons :
    parseUnixTimes (flagByte :: data) out =
      { out with
        unixMtime := if flagByte.toNat &&& 0x01 ≠ 0 then (takeI32le data).1 else out.unixMtime
        unixAtime := if flagByte.toNat &&& 0x02 ≠ 0 then (takeI32le (behindMtime flagByte data)).1
          else out.unixAtime
        unixCtime := if flagByte.toNat &&& 0x04 ≠ 0 then (takeI32le (behindAtime flagByte data)).1
          else out.unixCtime } := by
  unfold parseUnixTimes behindAtime behindMtime
  dsimp only
  generalize flagByte.toNat &&& 0x01 = m, flagByte.toNat &&& 0x02 = a,
    flagByte.toNat &&& 0x04 = c
  by_cases hm : m = 0 <;> by_cases ha : a = 0 <;> by_cases hc : c = 0 <;> simp [hm, ha, hc]

theorem behindTimes_behindMtime :
    BehindTimes data (if flagByte.toNat &&& 0x01 ≠ 0 then 1 else 0) (behindMtime flagByte data) := by
  rw [behindMtime]
  split_ifs
  · exact (BehindTimes.zero data).read
  · exact .zero data

theorem behindTimes_behindAtime :
    BehindTimes data
      ((if flagByte.toNat &&& 0x01 ≠ 0 then 1 else 0) + if flagByte.toNat &&& 0x02 ≠ 0 then 1 else 0)
      (behindAtime flagByte data) := by
  have hm := behindTimes_behindMtime flagByte data
  rw [behindAtime]
  by_cases ha : flagByte.toNat &&& 0x02 ≠ 0
  · rw [if_pos ha, if_pos ha]
    exact hm.read
  · rw [if_neg ha, if_neg ha]
    exact hm

end UnixTimes

/-! ## One record -/

namespace ExtraRecord

variable {r : ExtraRecord}

theorem isSome_value_iff (slot : ExtraSlot) : (r.value slot).isSome ↔ r.Holds slot := by
  rw [value, Holds]
  split_ifs
  · rw [Option.isSome_map, parseUnicodeExtra]
    by_cases hlen : r.data.length < 5
    · rw [if_pos hlen]
      simp [Nat.not_le.mpr hlen]
    · rw [if_neg hlen]
      simp [Nat.le_of_not_lt hlen]
  · rw [Option.isSome_map, isSome_takeI32le, List.length_drop]
    omega

/-- An extended timestamp overwrites the times that it announces. -/
theorem get_update_times (hid : r.id = 0x5455) (out : ExtraFields) (slot : ExtraSlot) :
    (r.update out).get slot = if r.Announces slot then r.value slot else out.get slot := by
  have hupdate : r.update out = parseUnixTimes r.data out := by
    rw [update, if_neg (by omega), if_pos hid]
  rw [hupdate]
  rcases hdata : r.data with _ | ⟨flagByte, rest⟩
  · -- `data.first()` is `None`: the record announces nothing
    rw [if_neg (by cases slot <;> simp [Announces, timeFlags, hdata, hid])]
    rfl
  · have hflags : r.timeFlags = flagByte.toNat := by rw [timeFlags, hdata, List.headD_cons]
    have hm := (behindTimes_behindMtime flagByte rest).next
    have ha := (behindTimes_behindAtime flagByte rest).next
    have hdrop : ∀ n, r.data.drop (1 + n) = rest.drop n := fun n => by
      rw [hdata, Nat.add_comm, List.drop_succ_cons]
    rw [parseUnixTimes_cons]
    cases slot with
    | unixMtime =>
      simp only [ExtraFields.get, Announces, value, hflags, hid, timesBefore, hdrop]
      generalize flagByte.toNat &&& 0x01 = m
      by_cases h : m = 0 <;> simp [h]
    | unixAtime =>
      simp only [ExtraFields.get, Announces, value, hflags, hid, timesBefore, hdrop, ← hm]
      by_cases h : flagByte.toNat &&& 0x02 = 0 <;> simp [h]
    | unixCtime =>
      simp only [ExtraFields.get, Announces, value, hflags, hid, timesBefore, hdrop, ← ha]
      by_cases h : flagByte.toNat &&& 0x04 = 0 <;> simp [h]
    | unicodePath => simp [ExtraFields.get, Announces, hid]
    | unicodeComment => simp [ExtraFields.get, Announces, hid]

/-- NTFS times are no slots. -/
theorem get_parseNtfsTimesLoop (fuel : Nat) (data : Bytes) (out : ExtraFields) (slot : ExtraSlot) :
    (parseNtfsTimesLoop fuel data out).get slot = out.get slot := by
  induction fuel generalizing data out with
  | zero => rfl
  | succ fuel ih =>
    rw [parseNtfsTimesLoop]
    split_ifs
    · rfl
    · rcases Reader.runOn extraRecord data with e | ⟨⟨tag, tdata⟩, rest⟩
      · rfl
      · dsimp only
        rw [ih]
        -- only a times attribute with three FILETIMEs writes, and to no slot
        split_ifs
        · split
          · cases slot <;> rfl
          · rfl
        · rfl

/-- A record overwrites the slots that it announces and no others. -/
theorem get_update (r : ExtraRecord) (out : ExtraFields) (slot : ExtraSlot) :
    (r.update out).get slot = if r.Announces slot then r.value slot else out.get slot := by
  by_cases htimes : r.id = 0x5455
  · exact get_update_times htimes out slot
  by_cases hntfs : r.id = 0x000a
  · rw [update, if_pos hntfs, parseNtfsTimes, get_parseNtfsTimesLoop,
      if_neg (by cases slot <;> simp [Announces, hntfs])]
  rw [update, if_neg hntfs, if_neg htimes]
  by_cases hpath : r.id = 0x7075
  · rw [if_pos hpath]
    cases slot <;> simp [ExtraFields.get, Announces, value, hpath]
  rw [if_neg hpath]
  by_cases hcomment : r.id = 0x6375
  · rw [if_pos hcomment]
    cases slot <;> simp [ExtraFields.get, Announces, value, hcomment]
  rw [if_neg hcomment, if_neg (by cases slot <;> simp [Announces, htimes, hpath, hcomment])]

end ExtraRecord

/-! ## NTFS records -/

/-- The reads of `parse_ntfs_times` from a times attribute. -/
def ntfsTimes : Reader (Nat × Nat × Nat) := do
  let m ← Reader.u64
  let a ← Reader.u64
  let c ← Reader.u64
  return (m, a, c)

theorem runOn_ntfsTimes_short {data : Bytes} (h : data.length < 24) :
    Reader.runOn ntfsTimes data = .error .truncated := by
  rw [ntfsTimes, ← @List.drop_zero _ data]
  by_cases h8 : 8 ≤ data.length
  · rw [Reader.runOn_bind_ok _ (Reader.runOn_u64_at h8)]
    by_cases h16 : 16 ≤ data.length
    · rw [Reader.runOn_bind_ok _ (Reader.runOn_u64_at h16), Reader.runOn_bind,
        Reader.runOn_u64_at_short h]
    · rw [Reader.runOn_bind, Reader.runOn_u64_at_short (by omega)]
  · rw [Reader.runOn_bind, Reader.runOn_u64_at_short (by omega)]

/-- Attributes that hold no three times change nothing. -/
theorem parseNtfsTimesLoop_of_short {fuel : Nat} {data : Bytes} (out : ExtraFields)
    (h : ∀ a ∈ records data, a.id = 0x0001 → a.data.length < 24) :
    parseNtfsTimesLoop fuel data out = out := by
  induction fuel generalizing data with
  | zero => rfl
  | succ fuel ih =>
    rw [parseNtfsTimesLoop]
    by_cases hfits : RecordFits data
    · have hroom := hfits.1
      rw [records_of_fits hfits] at h
      rw [if_neg (by omega), runOn_extraRecord hfits]
      dsimp only
      rw [← ntfsTimes]
      have hrest := ih fun a ha => h a (List.mem_cons_of_mem _ ha)
      by_cases htag : (headRecord data).id = 0x0001
      · rw [if_pos htag, runOn_ntfsTimes_short (h _ (List.mem_cons_self ..) htag), hrest]
      · rw [if_neg htag, hrest]
    · by_cases hroom : data.length < 4
      · rw [if_pos hroom]
      · rw [if_neg hroom, runOn_extraRecord_short (by omega) hfits]

namespace ExtraRecord

variable {r : ExtraRecord}

/-- An NTFS record without the three times changes nothing. -/
theorem update_of_ntfs (hid : r.id = 0x000a) (h : r.HoldsNothing) (out : ExtraFields) :
    r.update out = out := by
  rw [HoldsNothing, if_pos hid] at h
  rw [update, if_pos hid, parseNtfsTimes]
  by_cases hroom : 4 ≤ r.data.length
  · rw [if_pos hroom]
    exact parseNtfsTimesLoop_of_short out h
  · have hnone : records r.data = [] :=
      records_of_not_fits fun hfits => hroom hfits.1
    rw [if_neg hroom]
    exact parseNtfsTimesLoop_of_short out (by simp [hnone])

theorem ntfs_parseUnixTimes (data : Bytes) (out : ExtraFields) :
    (parseUnixTimes data out).ntfsMtime = out.ntfsMtime ∧
      (parseUnixTimes data out).ntfsAtime = out.ntfsAtime ∧
      (parseUnixTimes data out).ntfsCtime = out.ntfsCtime := by
  cases data with
  | nil => exact ⟨rfl, rfl, rfl⟩
  | cons flagByte rest =>
    rw [parseUnixTimes_cons]
    exact ⟨rfl, rfl, rfl⟩

/-- Only NTFS records touch the NTFS times. -/
theorem ntfs_update (hid : r.id ≠ 0x000a) (out : ExtraFields) :
    (r.update out).ntfsMtime = out.ntfsMtime ∧ (r.update out).ntfsAtime = out.ntfsAtime ∧
      (r.update out).ntfsCtime = out.ntfsCtime := by
  rw [update, if_neg hid]
  split_ifs
  · exact ntfs_parseUnixTimes r.data out
  · exact ⟨rfl, rfl, rfl⟩
  · exact ⟨rfl, rfl, rfl⟩
  · exact ⟨rfl, rfl, rfl⟩

/-- A malformed record keeps everything exactly where it announces nothing reported. -/
theorem keeps_update_iff (h : r.HoldsNothing) (out : ExtraFields) :
    out.Keeps (r.update out) ↔ ∀ slot, r.Announces slot → out.get slot = none := by
  by_cases hid : r.id = 0x000a
  · rw [update_of_ntfs hid h]
    refine iff_of_true (.refl out) fun slot hslot => ?_
    cases slot <;> simp [Announces, hid] at hslot
  · obtain ⟨hm, ha, hc⟩ := ntfs_update hid out
    rw [HoldsNothing, if_neg hid] at h
    have hlost : ∀ slot, r.Announces slot → (r.update out).get slot = none := fun slot hslot => by
      have hvalue := mt (isSome_value_iff slot).mp (h slot hslot)
      rw [get_update, if_pos hslot]
      simpa using hvalue
    constructor
    · -- a slot that is announced is overwritten with nothing
      intro hkeeps slot hslot
      by_contra hsome
      obtain ⟨v, hv⟩ := Option.ne_none_iff_exists'.mp hsome
      have hkept := hkeeps.get slot v hv
      rw [hlost slot hslot] at hkept
      cases hkept
    · intro hnone
      refine .of_get hm ha hc fun slot v hv => ?_
      by_cases hslot : r.Announces slot
      · rw [hnone slot hslot] at hv
        cases hv
      · rw [get_update, if_neg hslot, hv]

end ExtraRecord

/-! ## Blocks -/

/-- The last record of a list that announces a slot holds its value. -/
def LastHolds (rs : List ExtraRecord) (slot : ExtraSlot) : Prop :=
  ∃ r, rs.reverse.find? (fun r => r.Announces slot) = some r ∧ r.Holds slot

/-- What a list of records leaves in a slot: the value of the last record that announces
it, or none. -/
theorem get_foldl_update (rs : List ExtraRecord) (slot : ExtraSlot) :
    (rs.foldl ExtraRecord.update {}).get slot =
      (rs.reverse.find? fun r => r.Announces slot).bind (·.value slot) := by
  -- the last record is the last one to write, so the induction is from the end
  induction rs using List.reverseRecOn with
  | nil => cases slot <;> rfl
  | append_singleton rs r ih =>
    rw [List.foldl_append, List.foldl_cons, List.foldl_nil, ExtraRecord.get_update,
      List.reverse_append, List.reverse_singleton, List.singleton_append]
    by_cases hslot : r.Announces slot
    · rw [if_pos hslot, List.find?_cons_of_pos (by simpa using hslot), Option.bind_some]
    · rw [if_neg hslot, List.find?_cons_of_neg (by simpa using hslot), ih]

theorem get_foldl_eq_none_iff (rs : List ExtraRecord) (slot : ExtraSlot) :
    (rs.foldl ExtraRecord.update {}).get slot = none ↔ ¬ LastHolds rs slot := by
  rw [get_foldl_update, LastHolds]
  cases rs.reverse.find? fun r => r.Announces slot with
  | none => simp
  | some r =>
    rw [Option.bind_some, ← Option.not_isSome_iff_eq_none, ExtraRecord.isSome_value_iff]
    simp

/-- A record behind complete records is the last one. -/
theorem parseExtraFields_append {extra : Bytes} (hextra : unread extra = []) {r : ExtraRecord}
    (hr : r.Fits) : parseExtraFields (extra ++ r.bytes) = r.update (parseExtraFields extra) := by
  have hblock := extraBlock_records_unread extra
  rw [hextra, List.append_nil] at hblock
  have hlast := records_bytes_append hr []
  rw [List.append_nil, records_of_not_fits not_fits_nil] at hlast
  rw [parseExtraFields_eq, parseExtraFields_eq]
  conv_lhs => rw [← hblock]
  rw [records_extraBlock_append (records_fit extra), hlast, List.foldl_append]
  rfl

/-- Behind complete records, a record without a complete value keeps every reported field
exactly if each field that it announces is one for which the last announcement in front of
it holds no value either. -/
theorem malformedRecord_keeps_iff {extra : Bytes} (hextra : unread extra = []) {r : ExtraRecord}
    (hr : r.Fits) (hnothing : r.HoldsNothing) :
    (parseExtraFields extra).Keeps (parseExtraFields (extra ++ r.bytes)) ↔
      ∀ slot, r.Announces slot → ¬ LastHolds (records extra) slot := by
  rw [parseExtraFields_append hextra hr, ExtraRecord.keeps_update_iff hnothing]
  refine forall_congr' fun slot => imp_congr_right fun _ => ?_
  rw [parseExtraFields_eq, get_foldl_eq_none_iff]

/-- A Unicode path record for the name `f`. -/
def samplePathRecord : ExtraRecord := ⟨0x7075, [1, 0, 0, 0, 0, 0x66]⟩

/-- A timestamp record that announces a modification time and ends there. -/
def sampleShortTimes : ExtraRecord := ⟨0x5455, [1]⟩

/-- A Unicode path record that ends inside its CRC. -/
def sampleShortPath : ExtraRecord := ⟨0x7075, [1, 2, 3]⟩

theorem samplePathRecord_fits : ∀ r ∈ [samplePathRecord], r.Fits := by
  simp only [List.mem_singleton, forall_eq]
  exact ⟨by decide, by decide⟩

theorem sampleShortTimes_holdsNothing : sampleShortTimes.HoldsNothing := by
  rw [ExtraRecord.HoldsNothing, if_neg (by decide)]
  intro slot
  cases slot <;> decide

theorem sampleShortPath_holdsNothing : sampleShortPath.HoldsNothing := by
  rw [ExtraRecord.HoldsNothing, if_neg (by decide)]
  intro slot
  cases slot <;> decide

/-- A path survives a malformed timestamp. -/
theorem malformedTimes_keep_path :
    (parseExtraFields (extraBlock [samplePathRecord])).Keeps
      (parseExtraFields (extraBlock [samplePathRecord] ++ sampleShortTimes.bytes)) := by
  rw [malformedRecord_keeps_iff (unread_extraBlock samplePathRecord_fits)
    ⟨by decide, by decide⟩ sampleShortTimes_holdsNothing, records_extraBlock samplePathRecord_fits]
  intro slot hslot
  rintro ⟨r, hr, -⟩
  cases slot <;> revert hslot hr <;> simp [sampleShortTimes, samplePathRecord, ExtraRecord.Announces]

/-- A path does not survive a malformed path record. -/
theorem malformedPath_erases_path :
    unread (extraBlock [samplePathRecord]) = [] ∧ sampleShortPath.Fits ∧
      sampleShortPath.HoldsNothing ∧
      (parseExtraFields (extraBlock [samplePathRecord])).unicodePath = some "f" ∧
      (parseExtraFields (extraBlock [samplePathRecord] ++ sampleShortPath.bytes)).unicodePath =
        none ∧
      ¬ (parseExtraFields (extraBlock [samplePathRecord])).Keeps
        (parseExtraFields (extraBlock [samplePathRecord] ++ sampleShortPath.bytes)) := by
  have hbefore : (parseExtraFields (extraBlock [samplePathRecord])).unicodePath = some "f" := by
    decide
  have hafter : (parseExtraFields
      (extraBlock [samplePathRecord] ++ sampleShortPath.bytes)).unicodePath = none := by
    decide
  refine ⟨unread_extraBlock samplePathRecord_fits, ⟨by decide, by decide⟩,
    sampleShortPath_holdsNothing, hbefore, hafter, fun hkeeps => ?_⟩
  have hkept := hkeeps.unicodePath "f" hbefore
  rw [hafter] at hkept
  cases hkept

end ZipForensic
