import ZipForensic.Core.VfsContent

/-!
# What a member depends on

The bytes of the file that opening and reading a member looks at: the signature and the two
length fields of its local header, and its data. Everything else in the file — what the
local header says about flags, method, time, CRC, sizes and name, the local extra block,
the gaps, the other members, the directory the entry was taken from, whatever is in front
or behind — can be different, and the member reads the same.

- `AgreeOn`, `SameFootprint`: two files agree on a range, and on the footprint of a member.
- `dataStartAt_congr`, `openedAt_congr`: the start of the data and the opened entry are
  functions of the footprint.
- `member_isolated`: so are the answers of every entry opened with or without a password.
-/

namespace ZipForensic

variable {k : Crates}

/-! ## Ranges -/

/-- The files have the same bytes from `lo` up to `hi`, as far as there are any. -/
def AgreeOn (F G : Bytes) (lo hi : Nat) : Prop := ∀ i, i < hi → lo ≤ i → F[i]? = G[i]?

instance (F G : Bytes) (lo hi : Nat) : Decidable (AgreeOn F G lo hi) :=
  inferInstanceAs (Decidable (∀ i, i < hi → lo ≤ i → F[i]? = G[i]?))

namespace AgreeOn

variable {F G : Bytes} {lo hi : Nat}

theorem slice_eq (h : AgreeOn F G lo hi) (off n : Nat) (hlo : lo ≤ off) (hhi : off + n ≤ hi) :
    slice F off n = slice G off n := by
  refine List.ext_getElem? fun i => ?_
  rw [slice, slice, List.getElem?_take, List.getElem?_take, List.getElem?_drop, List.getElem?_drop]
  by_cases hi : i < n
  · rw [if_pos hi, if_pos hi, h (off + i) (by omega) (by omega)]
  · rw [if_neg hi, if_neg hi]

/-- One file reaches the end of the range exactly when the other does. -/
theorem le_length_iff (h : AgreeOn F G lo hi) {stop : Nat} (hlo : lo < stop) (hhi : stop ≤ hi) :
    stop ≤ F.length ↔ stop ≤ G.length := by
  have hlast := h (stop - 1) (by omega) (by omega)
  have hF := List.getElem?_eq_none_iff (l := F) (i := stop - 1)
  have hG := List.getElem?_eq_none_iff (l := G) (i := stop - 1)
  rw [hlast, hG] at hF
  omega

end AgreeOn

/-! ## The footprint of a member -/

/-- The files have the same signature and lengths in the local header of `m`, both or
neither hold the whole of its name, and they have the same data. -/
structure SameFootprint (F G : Bytes) (m : CentralEntry) : Prop where
  signature : AgreeOn F G m.lfhOffset (m.lfhOffset + 4)
  lengths : AgreeOn F G (m.lfhOffset + 26) (m.lfhOffset + lfhFixed)
  named : m.lfhOffset + lfhFixed + localNameLen F m.lfhOffset ≤ F.length ↔
    m.lfhOffset + lfhFixed + localNameLen F m.lfhOffset ≤ G.length
  data : AgreeOn F G (localDataStart F m.lfhOffset)
    (localDataStart F m.lfhOffset + m.compressedSize)

section Header

variable {F G : Bytes} {off : Nat}

theorem localNameLen_congr (h : AgreeOn F G (off + 26) (off + lfhFixed)) :
    localNameLen F off = localNameLen G off := by
  rw [localNameLen, localNameLen, h.slice_eq _ _ (Nat.le_refl _) (by rw [lfhFixed]; omega)]

theorem localDataStart_congr (h : AgreeOn F G (off + 26) (off + lfhFixed)) :
    localDataStart F off = localDataStart G off := by
  rw [localDataStart, localDataStart, localNameLen_congr h,
    h.slice_eq _ _ (by omega) (by rw [lfhFixed])]

/-- Where the data starts, or why the header is refused, does not depend on the other fields
of the header. -/
theorem dataStartAt_congr (hF : F.length ≤ isizeMax) (hG : G.length ≤ isizeMax)
    (hsig : AgreeOn F G off (off + 4)) (hlengths : AgreeOn F G (off + 26) (off + lfhFixed))
    (hnamed : off + lfhFixed + localNameLen F off ≤ F.length ↔
      off + lfhFixed + localNameLen F off ≤ G.length) :
    (lfhAt F off).map Prod.snd = (lfhAt G off).map Prod.snd := by
  have hfixed : off + lfhFixed ≤ F.length ↔ off + lfhFixed ≤ G.length :=
    hlengths.le_length_iff (by rw [lfhFixed]; omega) (Nat.le_refl _)
  rw [lfhAt_eq hF, lfhAt_eq hG, hsig.slice_eq _ _ (Nat.le_refl _) (Nat.le_refl _),
    ← localNameLen_congr hlengths, ← localDataStart_congr hlengths]
  simp only [hfixed, hnamed]
  split_ifs
  · rfl
  · rfl
  · rfl
  · rfl

end Header

/-! ## Opened entries -/

section Opened

variable {F G : Bytes} {m : CentralEntry}

/-- Opening the entry is a function of its footprint. -/
theorem openedAt_congr (hF : F.length ≤ isizeMax) (hG : G.length ≤ isizeMax)
    (h : SameFootprint F G m)
    (setup : Nat → Window IoError →
      Except (ZipCoreError × Window IoError) (ZipFile k (Window IoError))) :
    openedAt F m setup = openedAt G m setup := by
  have hstart := dataStartAt_congr hF hG h.signature h.lengths h.named
  rw [openedAt, openedAt]
  rcases hlfhF : lfhAt F m.lfhOffset with e | ⟨fields, dataStart⟩
  · rcases hlfhG : lfhAt G m.lfhOffset with e' | x
    · rw [hlfhF, hlfhG] at hstart
      exact congrArg Except.error (Except.error.inj hstart)
    · rw [hlfhF, hlfhG] at hstart
      cases hstart
  · rcases hlfhG : lfhAt G m.lfhOffset with e' | ⟨fields', dataStart'⟩
    · rw [hlfhF, hlfhG] at hstart
      cases hstart
    · rw [hlfhF, hlfhG] at hstart
      obtain rfl : dataStart = dataStart' := Except.ok.inj hstart
      obtain ⟨-, -, heq⟩ := (lfhAt_eq_ok_iff hF).1 hlfhF
      rw [Res.bind_ok, Res.bind_ok]
      dsimp only
      rw [(Prod.mk.inj heq).2, h.data.slice_eq _ _ (Nat.le_refl _) (Nat.le_refl _)]

theorem openedPlain_congr (hF : F.length ≤ isizeMax) (hG : G.length ≤ isizeMax)
    (h : SameFootprint F G m) (thisDisk cdStartDisk : Nat) :
    (openedPlain F m thisDisk cdStartDisk : Res ZipCoreError (ZipFile k (Window IoError))) =
      openedPlain G m thisDisk cdStartDisk := by
  rw [openedPlain, openedPlain, openedAt_congr hF hG h]

theorem openedDecrypt_congr (hF : F.length ≤ isizeMax) (hG : G.length ≤ isizeMax)
    (h : SameFootprint F G m) (thisDisk cdStartDisk : Nat) (password : Bytes) :
    (openedDecrypt F m thisDisk cdStartDisk password :
        Res ZipCoreError (ZipFile k (Window IoError))) =
      openedDecrypt G m thisDisk cdStartDisk password := by
  rw [openedDecrypt, openedDecrypt, openedPlain_congr hF hG h, openedAt_congr hF hG h,
    openedAt_congr hF hG h]

variable {a b : ZipArchive}

/-- Archives over such files, with the same disk numbers, answer alike when the entry is
opened and read. -/
theorem readings_open_congr (hdisk : a.summary.diskNumber = b.summary.diskNumber)
    (hcdDisk : a.summary.cdStartDisk = b.summary.cdStartDisk)
    (hlenA : a.reader.bytes.length ≤ isizeMax) (hlenB : b.reader.bytes.length ≤ isizeMax)
    (h : SameFootprint a.reader.bytes b.reader.bytes m) (ns : List Nat) :
    (a.open m : Opened k).readings ns = (b.open m : Opened k).readings ns ∧
      ∀ password, (a.openDecrypt m password : Opened k).readings ns =
        (b.openDecrypt m password : Opened k).readings ns := by
  constructor
  · refine Opened.readings_eq ?_ ns
    rw [view_open, view_open, hdisk, hcdDisk, openedPlain_congr hlenA hlenB h]
  · intro password
    refine Opened.readings_eq ?_ ns
    rw [view_openDecrypt, view_openDecrypt, hdisk, hcdDisk, openedDecrypt_congr hlenA hlenB h]

end Opened

/-- Two archives that record the same entry, over files with the same footprint of it,
answer alike when it is opened and read, with and without a password, whatever else
differs between the files, the rest of the local header included. -/
theorem member_isolated {a b : ZipArchive} {i j : Nat} {m : CentralEntry}
    (ha : a.entries[i]? = some m) (hb : b.entries[j]? = some m)
    (hdisk : a.summary.diskNumber = b.summary.diskNumber)
    (hcdDisk : a.summary.cdStartDisk = b.summary.cdStartDisk)
    (hlenA : a.reader.bytes.length ≤ isizeMax) (hlenB : b.reader.bytes.length ≤ isizeMax)
    (h : SameFootprint a.reader.bytes b.reader.bytes m) (ns : List Nat) :
    (a.byIndex i : Opened k).readings ns = (b.byIndex j : Opened k).readings ns ∧
      ∀ password, (a.byIndexDecrypt i password : Opened k).readings ns =
        (b.byIndexDecrypt j password : Opened k).readings ns := by
  obtain ⟨hplain, hdecrypt⟩ := readings_open_congr (k := k) hdisk hcdDisk hlenA hlenB h ns
  constructor
  · rw [ZipArchive.byIndex, ZipArchive.byIndex, ha, hb]
    exact hplain
  · intro password
    rw [ZipArchive.byIndexDecrypt, ZipArchive.byIndexDecrypt, ha, hb]
    exact hdecrypt password

/-- The three-byte member in its archive. -/
def storedHolder : ZipArchive :=
  ⟨⟨storedArchive 3, 0⟩, [storedMember 3], (storedDirectory 3).2⟩

/-- The same member in a file that is cut off behind it and says something else about the
name, method and sizes in the local header, listed second. -/
def cutHolder : ZipArchive :=
  ⟨⟨(((storedArchive 3).take 34 ++ [0xFF]).set 30 0x6E).set 8 0x63 |>.set 18 0xFF, 7⟩, [{ storedMember 3 with name := "n" }, storedMember 3],
    (storedDirectory 3).2⟩

theorem storedMember_isolated :
    (storedHolder.byIndex 0 : Opened .plain).readings [2, 8, 8] =
        (cutHolder.byIndex 1 : Opened .plain).readings [2, 8, 8] ∧
      ∀ password, (storedHolder.byIndexDecrypt 0 password : Opened .plain).readings [2, 8, 8] =
        (cutHolder.byIndexDecrypt 1 password : Opened .plain).readings [2, 8, 8] :=
  member_isolated (a := storedHolder) (b := cutHolder) (m := storedMember 3) rfl rfl rfl rfl
    (by decide) (by decide) ⟨by decide, by decide, by decide, by decide⟩ [2, 8, 8]

end ZipForensic
