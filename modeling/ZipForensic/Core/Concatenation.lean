import ZipForensic.Core.Placement
import ZipForensic.Core.StoredMembers

/-!
# Data in front of an archive

The parser is built to read an archive behind anything: a self-extractor stub, or
an older archive. Its recorded offsets are then all off by the length of what
precedes it.

- `opens_behind`: a plain archive behind `P` opens, with the same entries and the
  same members `P.length` bytes on, when the recorded directory offset does not
  happen to hit a central header in the longer file.
- `prepended_archive_reads_same`: the case of an archive that was opened alone.
- `concatenated_archive_reads_last`: the case of an archive behind an archive, and
  `twinArchives_read_first`: two archives of one layout, where it is hit.
-/

namespace ZipForensic

variable {k : Crates}

/-! ## Two archives, one behind a prefix -/

/-- `a'` is the archive `a` found `P.length` bytes further on. -/
structure FoundBehind (P : Bytes) (a a' : ZipArchive) : Prop where
  bytes : a'.reader.bytes = P ++ a.reader.bytes
  entries : a'.entries = a.entries.map (CentralEntry.shift P.length)
  summary : a'.summary =
    { a.summary with
      fileLen := P.length + a.summary.fileLen
      centralDirOffset := P.length + a.summary.centralDirOffset
      eocdEndOffset := P.length + a.summary.eocdEndOffset }

namespace FoundBehind

variable {P : Bytes} {a a' : ZipArchive}

theorem diskNumber_eq (h : FoundBehind P a a') : a'.summary.diskNumber = a.summary.diskNumber := by
  rw [h.summary]

theorem cdStartDisk_eq (h : FoundBehind P a a') : a'.summary.cdStartDisk = a.summary.cdStartDisk := by
  rw [h.summary]

/-- Every access by index finds the same member. -/
theorem byIndex (h : FoundBehind P a a') (hlen : (P ++ a.reader.bytes).length ≤ isizeMax) (i : Nat) :
    SameMember P.length (a.byIndex i : Opened k) (a'.byIndex i) := by
  unfold ZipArchive.byIndex
  rw [h.entries, List.getElem?_map]
  cases a.entries[i]? with
  | none => exact .inl rfl
  | some m =>
    refine sameMember_of_behind ?_
    dsimp only [Option.map_some]
    rw [view_open, view_open, h.bytes, h.diskNumber_eq, h.cdStartDisk_eq]
    exact openedPlain_shift hlen m _ _

theorem byIndexDecrypt (h : FoundBehind P a a') (hlen : (P ++ a.reader.bytes).length ≤ isizeMax)
    (i : Nat) (password : Bytes) :
    SameMember P.length (a.byIndexDecrypt i password : Opened k) (a'.byIndexDecrypt i password) := by
  unfold ZipArchive.byIndexDecrypt
  rw [h.entries, List.getElem?_map]
  cases a.entries[i]? with
  | none => exact .inl rfl
  | some m =>
    refine sameMember_of_behind ?_
    dsimp only [Option.map_some]
    rw [view_openDecrypt, view_openDecrypt, h.bytes, h.diskNumber_eq, h.cdStartDisk_eq]
    exact openedDecrypt_shift hlen m _ _ password

end FoundBehind

/-- The last record of a file is the last record behind a prefix. -/
theorem LastEocd.append_right {B : Bytes} {p : Nat} (h : LastEocd B p) (P : Bytes) :
    LastEocd (P ++ B) (P.length + p) := by
  constructor
  · obtain ⟨hroom, hsig⟩ := h.here
    refine ⟨?_, by rw [slice_append_right, hsig]⟩
    rw [List.length_append]
    omega
  · rintro q hq ⟨hroom, hsig⟩
    refine h.last (q - P.length) (by omega) ⟨?_, ?_⟩
    · rw [List.length_append] at hroom
      omega
    · rwa [← Nat.add_sub_cancel' (by omega : P.length ≤ q), slice_append_right] at hsig

/-- A plain archive behind a non-empty prefix opens as the same archive, further on. -/
theorem opens_behind {P A : Bytes} {pos pos' p : Nat} {a : ZipArchive}
    (hlen : (P ++ A).length ≤ isizeMax) (hnew : ZipArchive.new ⟨A, pos⟩ = .ok a)
    (heocd : LastEocd A p) (hplain : (eocdOf A p).isZip64 = false)
    (hends : (eocdOf A p).cdOffset + (eocdOf A p).cdSize = p) (hne : a.entries ≠ [])
    (hfar : headerAt (P ++ A) (eocdOf A p).cdOffset = false)
    (hshift : ∀ m ∈ a.entries, m.lfhOffset + P.length ≤ u64Max) :
    ∃ a', ZipArchive.new ⟨P ++ A, pos'⟩ = .ok a' ∧ FoundBehind P a a' := by
  obtain ⟨hbytes, hdir⟩ := reader_of_new hnew
  have hlen' : A.length ≤ isizeMax := by
    rw [List.length_append] at hlen
    omega
  obtain ⟨q, hq, hwindow⟩ := exists_lastEocd hdir
  obtain rfl := hq.unique heocd
  obtain ⟨used, hdirectory, hsummary⟩ :=
    PlainDirectory.of_directoryOf hdir heocd hlen' hplain hends
  have hplaced := hdirectory.directoryOf_placed (P := P) (T := []) (by
    rw [List.append_nil]
    exact heocd.append_right P) (by rwa [List.append_nil]) (by rwa [List.append_nil])
    (fun _ => ⟨hne, by rwa [List.append_nil]⟩) fun _ => hshift
  rw [List.append_nil] at hplaced
  obtain ⟨pos'', hnew'⟩ := new_of_directoryOf hplaced pos'
  refine ⟨_, hnew', ⟨by rw [hbytes], rfl, ?_⟩⟩
  rw [hsummary]
  unfold plainSummary
  dsimp only
  rw [List.length_append]
  congr 1
  · omega
  · omega

/-! ## Reading a prepended archive -/

/-- Whatever precedes a plain archive, it opens to the same entries and every entry
opens to the same answers, unless the recorded directory offset hits a central header in
the longer file. -/
theorem prepended_archive_reads_same {P A : Bytes} {pos pos' p : Nat} {a : ZipArchive}
    (hlen : (P ++ A).length ≤ isizeMax) (hnew : ZipArchive.new ⟨A, pos⟩ = .ok a)
    (heocd : LastEocd A p) (hplain : (eocdOf A p).isZip64 = false)
    (hends : (eocdOf A p).cdOffset + (eocdOf A p).cdSize = p) (hne : a.entries ≠ [])
    (hfar : headerAt (P ++ A) (eocdOf A p).cdOffset = false)
    (hshift : ∀ m ∈ a.entries, m.lfhOffset + P.length ≤ u64Max) :
    ∃ a', ZipArchive.new ⟨P ++ A, pos'⟩ = .ok a' ∧ FoundBehind P a a' ∧
      (∀ i, SameMember P.length (a.byIndex i : Opened k) (a'.byIndex i)) ∧
      ∀ i password,
        SameMember P.length (a.byIndexDecrypt i password : Opened k) (a'.byIndexDecrypt i password) := by
  obtain ⟨a', hnew', hbehind⟩ := opens_behind hlen hnew heocd hplain hends hne hfar hshift
  obtain ⟨hbytes, -⟩ := reader_of_new hnew
  rw [← hbytes] at hlen
  exact ⟨a', hnew', hbehind, hbehind.byIndex hlen, hbehind.byIndexDecrypt hlen⟩

theorem storedArchive_new : ∃ pos, ZipArchive.new ⟨storedArchive 3, 0⟩ =
    .ok ⟨⟨storedArchive 3, pos⟩, [storedMember 3], (storedDirectory 3).2⟩ :=
  new_of_directoryOf (by decide +kernel) 0

theorem storedArchive_lastEocd : LastEocd (storedArchive 3) 81 :=
  (findEocd_iff _ _).1 (by decide +kernel)

theorem prepended_storedArchive_opens :
    ∃ a', ZipArchive.new ⟨[0x4D, 0x5A] ++ storedArchive 3, 0⟩ = .ok a' ∧
      a'.fileNames = ["m"] ∧ a'.entries.map CentralEntry.lfhOffset = [2] := by
  obtain ⟨pos, hnew⟩ := storedArchive_new
  obtain ⟨a', hnew', hbehind, -, -⟩ := @prepended_archive_reads_same .plain
    [0x4D, 0x5A] _ _ 0 _ _ (by decide) hnew storedArchive_lastEocd (by decide) (by decide)
    (by simp) (by decide) (by simp [storedMember, u64Max])
  refine ⟨a', hnew', ?_, ?_⟩
  · rw [ZipArchive.fileNames, hbehind.entries]
    rfl
  · rw [hbehind.entries]
    rfl

/-! ## Archives behind archives -/

/-- A well-formed plain archive with its EOCD record at `p`. -/
structure PlainArchive (A : Bytes) (p : Nat) (a : ZipArchive) : Prop where
  opens : ∃ pos, ZipArchive.new ⟨A, pos⟩ = .ok a
  eocd : LastEocd A p
  plain : (eocdOf A p).isZip64 = false
  ends : (eocdOf A p).cdOffset + (eocdOf A p).cdSize = p
  nonempty : a.entries ≠ []
  singleDisk : a.summary.diskNumber = 0 ∧ a.summary.cdStartDisk = 0
  unsigned : a.summary.archiveSignatureLen = none
  inside : ∀ m ∈ a.entries, m.lfhOffset ≤ A.length

/-- Behind whatever came first, the last archive is the one that is read, unless its
recorded directory offset hits a central header in what came first. -/
theorem concatenated_archive_reads_last {A B : Bytes} {p : Nat} {b : ZipArchive}
    (hlen : (A ++ B).length ≤ isizeMax) (hB : PlainArchive B p b)
    (hfar : headerAt (A ++ B) (eocdOf B p).cdOffset = false) (pos : Nat) :
    ∃ ab, ZipArchive.new ⟨A ++ B, pos⟩ = .ok ab ∧
      ab.entries = b.entries.map (CentralEntry.shift A.length) ∧
      ∀ i, SameMember A.length (b.byIndex i : Opened k) (ab.byIndex i) := by
  obtain ⟨posB, hnew⟩ := hB.opens
  have hshift : ∀ m ∈ b.entries, m.lfhOffset + A.length ≤ u64Max := by
    intro m hm
    have hin := hB.inside m hm
    rw [List.length_append] at hlen
    unfold isizeMax at hlen
    unfold u64Max
    omega
  obtain ⟨ab, hnew', hbehind⟩ := opens_behind hlen hnew hB.eocd hB.plain hB.ends hB.nonempty hfar
    hshift
  obtain ⟨hbytes, -⟩ := reader_of_new hnew
  rw [← hbytes] at hlen
  exact ⟨ab, hnew', hbehind.entries, hbehind.byIndex hlen⟩

theorem storedArchive_plain : ∃ a, a.entries = [storedMember 3] ∧
    PlainArchive (storedArchive 3) 81 a := by
  obtain ⟨pos, hnew⟩ := storedArchive_new
  exact ⟨_, rfl, ⟨0, hnew⟩, storedArchive_lastEocd, by decide, by decide, by simp,
    ⟨rfl, rfl⟩, rfl, by simp [storedMember]⟩

/-- The archive with its member named `n`. -/
def renamedArchive : Bytes := ((storedArchive 3).set 30 0x6E).set 80 0x6E

theorem renamedArchive_plain : ∃ a, a.entries = [{ storedMember 3 with name := "n" }] ∧
    PlainArchive renamedArchive 81 a := by
  have hdir : directoryOf renamedArchive =
      .ok ([{ storedMember 3 with name := "n" }], (storedDirectory 3).2) := by decide +kernel
  obtain ⟨pos, hnew⟩ := new_of_directoryOf hdir 0
  exact ⟨_, rfl, ⟨0, hnew⟩, (findEocd_iff _ _).1 (by decide +kernel), by decide, by decide, by simp,
    ⟨rfl, rfl⟩, rfl, by simp [storedMember]⟩

/-- One stray byte in the first archive keeps the two layouts apart. -/
theorem renamedArchive_read_last : ∃ ab,
    ZipArchive.new ⟨(0x20 :: storedArchive 3) ++ renamedArchive, 0⟩ = .ok ab ∧
      ab.fileNames = ["n"] := by
  obtain ⟨b, hentries, hb⟩ := renamedArchive_plain
  obtain ⟨ab, hnew, hab, -⟩ := concatenated_archive_reads_last (k := .plain)
    (A := 0x20 :: storedArchive 3) (by decide +kernel) hb (by decide +kernel) 0
  refine ⟨ab, hnew, ?_⟩
  rw [ZipArchive.fileNames, hab, hentries]
  rfl

/-- Of two archives of one layout, the first one is read: the second one's directory
offset hits the first one's directory. -/
theorem twinArchives_read_first : ∃ a b ab, PlainArchive (storedArchive 3) 81 a ∧
    PlainArchive renamedArchive 81 b ∧
    ZipArchive.new ⟨storedArchive 3 ++ renamedArchive, 0⟩ = .ok ab ∧
    ab.entries = a.entries ∧
    ab.entries ≠ b.entries.map (CentralEntry.shift (storedArchive 3).length) := by
  obtain ⟨a, ha, hplain⟩ := storedArchive_plain
  obtain ⟨b, hb, hplain'⟩ := renamedArchive_plain
  have hdir : directoryOf (storedArchive 3 ++ renamedArchive) =
      .ok ([storedMember 3],
        { (storedDirectory 3).2 with fileLen := 206, eocdEndOffset := 206 }) := by decide +kernel
  obtain ⟨pos, hnew⟩ := new_of_directoryOf hdir 0
  refine ⟨a, b, _, hplain, hplain', hnew, ha.symm, ?_⟩
  rw [hb]
  simp [storedMember, CentralEntry.shift]

end ZipForensic
