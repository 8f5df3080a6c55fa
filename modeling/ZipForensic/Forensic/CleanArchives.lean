import ZipForensic.Core.LayoutView
import ZipForensic.Core.Placement
import ZipForensic.Core.StoredMembers
import ZipForensic.Forensic.Overlap

/-!
# What the auditor reports on clean archives

A clean archive has nothing for the member audits to report: its names are harmless, its
header copies agree, its members lie apart, and what can be decoded has the recorded CRC.
Wrapped in other bytes it keeps all that, so the whole audit comes down to the two
lengths around it.

- `CleanMember`: one member without findings, and `CleanMember.placed`: it stays one
  behind a prefix and in front of other bytes.
- `auditReader_clean`: the audit of a file all of whose members are clean and apart.
- `audit_wrapped_clean_archive`: the audit of a clean archive between two byte strings.
-/

namespace ZipForensic

variable {k : Crates}

/-! ## Clean members -/

/-- A name without findings. -/
structure CleanName (name : String) : Prop where
  traversal : hasTraversal name = false
  absolute : isAbsolute name = false
  bidi : hasBidiOverride name = false
  control : hasControlChars name = false

/-- The local copy agrees with the central header, except that a data descriptor may
replace its CRC and sizes, and a Zip64 sentinel either size. -/
structure HeadersAgree (m : CentralEntry) (loc : HeaderFields) : Prop where
  name : loc.name = m.name
  method : loc.method = m.method
  sizes : loc.flags &&& 0x0008 ≠ 0 ∨
    (loc.crc32 = m.crc32 ∧
      (loc.compressedSize = u32Sentinel ∨ loc.compressedSize = m.compressedSize) ∧
      (loc.uncompressedSize = u32Sentinel ∨ loc.uncompressedSize = m.uncompressedSize))

/-- The end of a member's data. -/
def memberEnd (F : Bytes) (m : CentralEntry) : Nat :=
  localDataStart F m.lfhOffset + m.compressedSize

/-- A member without findings: stored with the right CRC, or refused by `by_index`. -/
structure CleanMember (k : Crates) (F : Bytes) (m : CentralEntry) : Prop where
  header : lfhAt F m.lfhOffset = .ok (localFields F m.lfhOffset, localDataStart F m.lfhOffset)
  inside : memberEnd F m ≤ F.length
  name : CleanName m.name
  agree : HeadersAgree m (localFields F m.lfhOffset)
  decodes : (m.diskStart = 0 ∧ m.flags &&& 0x0001 = 0 ∧ m.method = .stored ∧
      k.crc32 (slice F (localDataStart F m.lfhOffset) m.compressedSize) = m.crc32) ∨
    ∃ e, (openedPlain F m 0 0 : Res ZipCoreError (ZipFile k (Window IoError))) = .error (.error e)

/-- Two members, from local header to end of data, lie apart. -/
def Apart (F : Bytes) (m m' : CentralEntry) : Prop :=
  memberEnd F m ≤ m'.lfhOffset ∨ memberEnd F m' ≤ m.lfhOffset

/-! ## The member audits -/

theorem auditEntry_clean {F : Bytes} {m : CentralEntry} (h : CleanMember k F m) (i dataStart : Nat) :
    auditEntry (ZipArchive.entryLayout i m (localFields F m.lfhOffset) dataStart) = [] := by
  obtain ⟨hname, hmethod, hsizes⟩ := h.agree
  unfold auditEntry ZipArchive.entryLayout
  dsimp only
  rw [h.name.traversal, h.name.absolute, h.name.bidi, h.name.control, hname, hmethod]
  simp only [Bool.false_eq_true, if_false, ne_eq, not_true, List.nil_append]
  by_cases hflag : (localFields F m.lfhOffset).flags &&& 0x0008 = 0
  · obtain ⟨hcrc, hcompressed, huncompressed⟩ := hsizes.resolve_left (not_not.2 hflag)
    rw [hflag, hcrc]
    unfold compareSize
    rcases hcompressed with hc | hc <;> rcases huncompressed with hu | hu <;> simp [hc, hu]
  · rw [if_pos hflag]

/-- The pass over neighbours is silent when every span ends before the next begins. -/
theorem overlapsOfSorted_eq_nil {spans : List Span}
    (h : spans.Pairwise fun a b => a.stop ≤ b.start) : overlapsOfSorted spans = [] := by
  induction spans with
  | nil => rfl
  | cons a spans ih =>
    obtain ⟨hhead, htail⟩ := List.pairwise_cons.1 h
    cases spans with
    | nil => rfl
    | cons b rest =>
      rw [overlapsOfSorted, ih htail, if_neg (Nat.not_lt.2 (hhead b (List.mem_cons_self ..)))]
      rfl

/-- Members that lie apart do not overlap, in whatever order they are visited. -/
theorem auditOverlaps_eq_nil {layout : List EntryLayout}
    (hstart : ∀ e ∈ layout, e.lfhOffset < e.dataStart)
    (hapart : layout.Pairwise fun a b => a.dataEnd ≤ b.lfhOffset ∨ b.dataEnd ≤ a.lfhOffset) :
    auditOverlaps layout = [] := by
  have hsorted := visitOrder_sorted layout
  have hperm := List.mergeSort_perm layout fun a b => decide (a.dataStart ≤ b.dataStart)
  have hvisit : (visitOrder layout).Pairwise fun a b =>
      a.dataEnd ≤ b.lfhOffset ∨ b.dataEnd ≤ a.lfhOffset :=
    hperm.symm.pairwise hapart Or.symm
  unfold auditOverlaps
  rw [sortedSpans_eq]
  refine overlapsOfSorted_eq_nil (List.pairwise_map.2 ((hsorted.and hvisit).imp_of_mem ?_))
  rintro a b ha hb ⟨hle, hends⟩
  have hbefore := hstart a (hperm.mem_iff.1 ha)
  have hbefore' := hstart b (hperm.mem_iff.1 hb)
  show min (a.dataStart + a.central.compressedSize) u64Max ≤ b.dataStart
  unfold EntryLayout.dataEnd at hends
  omega

/-! ## The CRC audit -/

/-- A clean member opens to its data, or is refused. -/
theorem CleanMember.opens {F : Bytes} {m : CentralEntry} (h : CleanMember k F m) :
    (∃ f : ZipFile k (Window IoError), openedPlain F m 0 0 = .ok f ∧
        ∃ bytes, (readToEnd f).1 = .ok bytes) ∨
      ∃ e, (openedPlain F m 0 0 : Res ZipCoreError (ZipFile k (Window IoError))) =
        .error (.error e) := by
  rcases h.decodes with ⟨hdisk, hflag, hmethod, hcrc⟩ | hrefused
  · refine .inl ⟨_, openedPlain_stored ?_ hflag hmethod h.header,
      slice F (localDataStart F m.lfhOffset) m.compressedSize, ?_⟩
    · rw [checkLocalDisk, hdisk]
      rfl
    · rw [readToEnd_stored, hcrc]
      exact if_pos rfl
  · exact .inr hrefused

/-- A member of an archive of clean members reads through to its end, or is refused. -/
theorem byIndex_clean {F : Bytes} {a : ZipArchive} (hbytes : a.reader.bytes = F)
    (hdisk : a.summary.diskNumber = 0 ∧ a.summary.cdStartDisk = 0)
    (hmembers : ∀ m ∈ a.entries, CleanMember k F m) (i : Nat) :
    (∃ f bytes, (a.byIndex i : Opened k) = .ok f ∧ (readToEnd f).1 = .ok bytes) ∨
      ∃ e reader, (a.byIndex i : Opened k) = .error (.error e, reader) := by
  unfold ZipArchive.byIndex
  cases hi : a.entries[i]? with
  | none => exact .inr ⟨_, _, rfl⟩
  | some m =>
    have hview := view_open (k := k) a m
    rw [hbytes, hdisk.1, hdisk.2] at hview
    dsimp only
    rcases (hmembers m (List.mem_of_getElem? hi)).opens with ⟨f, hf, bytes, hread⟩ | ⟨e, he⟩
    · rw [hf] at hview
      obtain ⟨g, hopen, rfl⟩ := exists_of_view hview
      rw [← readToEnd_view] at hread
      exact .inl ⟨g, bytes, hopen, hread⟩
    · rw [he] at hview
      obtain ⟨reader, hopen⟩ := exists_error_of_view hview
      exact .inr ⟨e, reader, hopen⟩

/-- Decoding clean members finds nothing. -/
theorem auditCrcs_clean {F : Bytes} {a : ZipArchive} (hbytes : a.reader.bytes = F)
    (hdisk : a.summary.diskNumber = 0 ∧ a.summary.cdStartDisk = 0)
    (hmembers : ∀ m ∈ a.entries, CleanMember k F m) (i : Nat) (layout : List EntryLayout) :
    auditCrcs k a i layout = .ok [] := by
  induction layout generalizing a i with
  | nil => rfl
  | cons e es ih =>
    have hover := byIndex_over (k := k) a i
    rw [hbytes] at hover
    unfold auditCrcs
    rcases byIndex_clean hbytes hdisk hmembers i with ⟨f, bytes, hopen, hread⟩ | ⟨err, reader, hopen⟩
    · rw [hopen] at hover ⊢
      have hrest := ih (a := { a with reader := (readToEnd f).2.release }) hover hdisk hmembers (i + 1)
      dsimp only
      rw [hrest, Res.bind_ok, hread]
      rfl
    · rw [hopen] at hover ⊢
      exact ih (a := { a with reader }) hover hdisk hmembers (i + 1)

/-! ## The layout of clean members -/

/-- The layout records of the members, read from their local headers. -/
def memberLayouts (F : Bytes) (entries : List CentralEntry) : List EntryLayout :=
  entries.zipIdx.map fun p =>
    ZipArchive.entryLayout p.2 p.1 (localFields F p.1.lfhOffset) (localDataStart F p.1.lfhOffset)

section Layout

variable {F : Bytes} {entries : List CentralEntry}

theorem lfhOffset_memberLayouts (F : Bytes) (entries : List CentralEntry) :
    (memberLayouts F entries).map EntryLayout.lfhOffset = entries.map CentralEntry.lfhOffset := by
  rw [memberLayouts, List.map_map]
  conv_rhs => rw [← List.zipIdx_map_fst 0 entries, List.map_map]
  rfl

theorem auditEntry_memberLayouts (hmembers : ∀ m ∈ entries, CleanMember k F m) :
    (memberLayouts F entries).flatMap auditEntry = [] := by
  refine List.flatMap_eq_nil_iff.2 fun e he => ?_
  obtain ⟨⟨m, i⟩, hmi, rfl⟩ := List.mem_map.1 he
  exact auditEntry_clean (hmembers m (List.fst_mem_of_mem_zipIdx hmi)) i _

theorem auditOverlaps_memberLayouts (hapart : entries.Pairwise (Apart F)) :
    auditOverlaps (memberLayouts F entries) = [] := by
  refine auditOverlaps_eq_nil (fun e he => ?_) (List.pairwise_map.2 ?_)
  · obtain ⟨⟨m, i⟩, -, rfl⟩ := List.mem_map.1 he
    show m.lfhOffset < localDataStart F m.lfhOffset
    unfold localDataStart lfhFixed
    omega
  · have hpairs : entries.zipIdx.Pairwise fun x y => Apart F x.1 y.1 := by
      rw [← List.pairwise_map (f := Prod.fst) (R := Apart F), List.zipIdx_map_fst]
      exact hapart
    exact hpairs

end Layout

/-- The audit of a file of clean members that lie apart: what precedes the first member,
and what follows the archive. -/
theorem auditReader_clean {F : Bytes} {entries : List CentralEntry} {summary : ArchiveSummary}
    {first : Nat} (hdir : directoryOf F = .ok (entries, summary))
    (hdisk : summary.diskNumber = 0 ∧ summary.cdStartDisk = 0)
    (hmembers : ∀ m ∈ entries, CleanMember k F m) (hapart : entries.Pairwise (Apart F))
    (hfirst : (entries.map CentralEntry.lfhOffset).min? = some first) (pos : Nat) :
    auditReader k ⟨F, pos⟩ = .ok (
      (if 0 < first then [.new (.prependedData first)] else []) ++
        if summary.eocdEndOffset < summary.fileLen then
          [.new (.trailingData (summary.fileLen - summary.eocdEndOffset))] else []) := by
  obtain ⟨pos', hnew⟩ := new_of_directoryOf hdir pos
  obtain ⟨pos'', hview⟩ := structuralView_eq ⟨⟨F, pos'⟩, entries, summary⟩
  have hlayouts : layoutsAt F 0 entries = .ok (memberLayouts F entries) :=
    layoutsAt_eq_ok (fun m hm => (hmembers m hm).header) 0
  dsimp only at hview
  rw [hlayouts] at hview
  have hcrcs := auditCrcs_clean (a := ⟨⟨F, pos''⟩, entries, summary⟩) rfl hdisk hmembers 0
    (memberLayouts F entries)
  have hspan : (decide (summary.diskNumber ≠ 0 ∧ summary.diskNumber ≠ 0xFFFFFFFF) ||
      decide (summary.cdStartDisk ≠ 0 ∧ summary.cdStartDisk ≠ 0xFFFFFFFF)) = false := by
    rw [hdisk.1, hdisk.2]
    rfl
  unfold auditReader
  rw [hnew, Res.bind_ok, hview]
  dsimp only
  rw [hcrcs, Res.bind_ok]
  unfold auditLayout auditContainer
  rw [lfhOffset_memberLayouts, hfirst, auditEntry_memberLayouts hmembers,
    auditOverlaps_memberLayouts hapart]
  dsimp only
  rw [hspan, if_neg Bool.false_ne_true, List.append_nil, List.append_nil, List.append_nil,
    List.append_nil]
  rfl

/-! ## Clean archives between other bytes -/

/-- A plain archive of clean members that lie apart, the first local header at offset 0
and the comment reaching to the end. -/
structure CleanArchive (k : Crates) (A : Bytes) (p : Nat) (entries : List CentralEntry)
    (used : Nat) : Prop extends PlainDirectory A p entries used where
  toEnd : p + eocdMin + (eocdOf A p).commentLen = A.length
  singleDisk : (eocdOf A p).diskNumber = 0 ∧ (eocdOf A p).cdStartDisk = 0
  first : ∃ m ∈ entries, m.lfhOffset = 0
  members : ∀ m ∈ entries, CleanMember k A m
  apart : entries.Pairwise (Apart A)

section Placed

variable {P A T : Bytes} {m : CentralEntry} (hlen : (P ++ (A ++ T)).length ≤ isizeMax)
include hlen

/-- The local header of a placed member. -/
theorem CleanMember.placed_header (h : CleanMember k A m) :
    lfhAt (P ++ (A ++ T)) (m.lfhOffset + P.length) =
        .ok (localFields A m.lfhOffset, P.length + localDataStart A m.lfhOffset) ∧
      localFields (P ++ (A ++ T)) (m.lfhOffset + P.length) = localFields A m.lfhOffset ∧
      localDataStart (P ++ (A ++ T)) (m.lfhOffset + P.length) =
        P.length + localDataStart A m.lfhOffset := by
  have hlenA : (A ++ T).length ≤ isizeMax := by
    rw [List.length_append] at hlen
    omega
  have hleft := lfhAt_append_left (T := T) hlenA h.header
  have hbehind := lfhAt_append_right (P := P) hlen m.lfhOffset
  rw [hleft] at hbehind
  have hplaced : lfhAt (P ++ (A ++ T)) (m.lfhOffset + P.length) =
      .ok (localFields A m.lfhOffset, P.length + localDataStart A m.lfhOffset) := by
    rw [Nat.add_comm]
    generalize lfhAt (P ++ (A ++ T)) (P.length + m.lfhOffset) = x at hbehind
    cases hbehind
    rfl
  obtain ⟨-, -, heq⟩ := (lfhAt_eq_ok_iff hlen).1 hplaced
  obtain ⟨hfields, hstart⟩ := Prod.mk.inj heq
  exact ⟨hplaced, hfields.symm, hstart.symm⟩

theorem CleanMember.placed_end (h : CleanMember k A m) :
    memberEnd (P ++ (A ++ T)) (m.shift P.length) = P.length + memberEnd A m := by
  unfold memberEnd
  rw [CentralEntry.shift_lfhOffset, (h.placed_header hlen).2.2, CentralEntry.shift_compressedSize]
  omega

/-- A clean member stays clean between other bytes. -/
theorem CleanMember.placed (h : CleanMember k A m) :
    CleanMember k (P ++ (A ++ T)) (m.shift P.length) := by
  have hlenA : (A ++ T).length ≤ isizeMax := by
    rw [List.length_append] at hlen
    omega
  obtain ⟨hheader, hfields, hstart⟩ := h.placed_header hlen
  have hin : memberEnd A m ≤ A.length := h.inside
  constructor
  · rw [CentralEntry.shift_lfhOffset, hfields, hstart]
    exact hheader
  · rw [h.placed_end hlen, List.length_append, List.length_append]
    omega
  · exact h.name
  · rw [CentralEntry.shift_lfhOffset, hfields]
    exact ⟨h.agree.name, h.agree.method, h.agree.sizes⟩
  · rcases h.decodes with ⟨hdisk, hflag, hmethod, hcrc⟩ | ⟨e, he⟩
    · refine .inl ⟨hdisk, hflag, hmethod, ?_⟩
      rw [CentralEntry.shift_lfhOffset, hstart, CentralEntry.shift_compressedSize,
        slice_append_right, slice_append_left T hin, hcrc]
      rfl
    · have hbehind := openedPlain_shift (k := k) hlen m 0 0
      rw [openedPlain_append_left hlenA ⟨_, _, h.header, hin⟩, he] at hbehind
      refine .inr ?_
      generalize (openedPlain (P ++ (A ++ T)) (m.shift P.length) 0 0 :
        Res ZipCoreError (ZipFile k (Window IoError))) = x at hbehind
      cases hbehind with
      | error => exact ⟨e, rfl⟩
      | badSignature what off => exact ⟨_, rfl⟩

variable {p used : Nat} {entries : List CentralEntry} (hclean : CleanArchive k A p entries used)
include hclean

theorem CleanArchive.members_placed :
    ∀ m ∈ entries.map (CentralEntry.shift P.length), CleanMember k (P ++ (A ++ T)) m := by
  intro m' hm'
  obtain ⟨m, hm, rfl⟩ := List.mem_map.1 hm'
  exact (hclean.members m hm).placed hlen

theorem CleanArchive.apart_placed :
    (entries.map (CentralEntry.shift P.length)).Pairwise (Apart (P ++ (A ++ T))) := by
  refine List.pairwise_map.2 (hclean.apart.imp_of_mem fun {m m'} hm hm' h => ?_)
  have h₁ := (hclean.members m hm).placed_end hlen
  have h₂ := (hclean.members m' hm').placed_end hlen
  unfold Apart at h ⊢
  rw [h₁, h₂, CentralEntry.shift_lfhOffset, CentralEntry.shift_lfhOffset]
  omega

theorem CleanArchive.shift_le : ∀ m ∈ entries, m.lfhOffset + P.length ≤ u64Max := by
  intro m hm
  have hin := (hclean.members m hm).inside
  unfold memberEnd localDataStart at hin
  simp only [List.length_append] at hlen
  unfold isizeMax at hlen
  unfold u64Max
  omega

omit hlen in
/-- The first local header comes right behind the prefix. -/
theorem CleanArchive.min?_placed (P : Bytes) :
    ((entries.map (CentralEntry.shift P.length)).map CentralEntry.lfhOffset).min? =
      some P.length := by
  obtain ⟨first, hmem, hzero⟩ := hclean.first
  rw [List.map_map, List.min?_eq_some_iff]
  refine ⟨List.mem_map.2 ⟨first, hmem, ?_⟩, fun x hx => ?_⟩
  · rw [Function.comp, CentralEntry.shift_lfhOffset, hzero, Nat.zero_add]
  · obtain ⟨m, -, rfl⟩ := List.mem_map.1 hx
    rw [Function.comp, CentralEntry.shift_lfhOffset]
    omega

end Placed

/-- Around a clean archive the auditor reports the lengths of what precedes and what
follows it, and nothing else. -/
theorem audit_wrapped_clean_archive {P A T : Bytes} {p used : Nat} {entries : List CentralEntry}
    (hlen : (P ++ (A ++ T)).length ≤ isizeMax) (hclean : CleanArchive k A p entries used)
    (hfar : P ≠ [] → headerAt (P ++ (A ++ T)) (eocdOf A p).cdOffset = false)
    (hlast : ∀ q, P.length + p < q → ¬ EocdAt (P ++ (A ++ T)) q)
    (hwindow : eocdMin + (eocdOf A p).commentLen + T.length ≤ eocdScanMax) (pos : Nat) :
    auditReader k ⟨P ++ (A ++ T), pos⟩ = .ok (
      (if 0 < P.length then [.new (.prependedData P.length)] else []) ++
        if 0 < T.length then [.new (.trailingData T.length)] else []) := by
  obtain ⟨first, hmem, -⟩ := hclean.first
  have htoEnd := hclean.toEnd
  have hlast' : LastEocd (P ++ (A ++ T)) (P.length + p) := by
    obtain ⟨hroom, hsig⟩ := hclean.eocd
    refine ⟨⟨?_, ?_⟩, hlast⟩
    · rw [List.length_append, List.length_append]
      omega
    · rw [slice_append_right, slice_append_left T (by unfold eocdMin at hroom; omega), hsig]
  have hdir := hclean.directoryOf_placed hlast' (by rw [List.length_append]; omega) hlen
    (fun hP => ⟨List.ne_nil_of_mem hmem, hfar hP⟩) fun _ => hclean.shift_le hlen
  have haudit := auditReader_clean hdir hclean.singleDisk (hclean.members_placed hlen)
    (hclean.apart_placed hlen) (hclean.min?_placed P) pos
  have hends : (plainSummary A p used P.length (P ++ (A ++ T)).length).eocdEndOffset =
      P.length + A.length := by
    rw [plainSummary, ← htoEnd]
    dsimp only
    omega
  have hfile : (plainSummary A p used P.length (P ++ (A ++ T)).length).fileLen =
      P.length + A.length + T.length := by
    rw [Nat.add_assoc, ← List.length_append, ← List.length_append]
    rfl
  rw [hends, hfile, Nat.add_sub_cancel_left] at haudit
  rw [haudit]
  simp only [Nat.lt_add_right_iff_pos]

/-- An archive of the stored members `m` and `n`, which have the same contents. -/
def twinArchive : Bytes :=
  let member := (storedArchive 3).take 34
  let header := slice (storedArchive 3) 34 47
  member ++ member.set 30 0x6E ++ header ++ (header.set 42 34).set 46 0x6E ++
    [0x50, 0x4B, 0x05, 0x06, 0, 0, 0, 0, 2, 0, 2, 0, 94, 0, 0, 0, 68, 0, 0, 0, 0, 0]

def twinMember : CentralEntry := { storedMember 3 with name := "n", lfhOffset := 34 }

theorem twinArchive_clean :
    CleanArchive .plain twinArchive 162 [storedMember 3, twinMember] 94 where
  eocd := by
    unfold EocdAt
    decide +kernel
  plain := by decide +kernel
  ends := by decide +kernel
  headers := by decide +kernel
  toEnd := by decide +kernel
  singleDisk := by decide +kernel
  first := ⟨storedMember 3, List.mem_cons_self, rfl⟩
  members m hm := by
    have hname (name : String) (h : name = "m" ∨ name = "n") : CleanName name := by
      rcases h with rfl | rfl <;>
        exact ⟨by decide +kernel, by decide +kernel, by decide +kernel, by decide +kernel⟩
    rcases List.mem_cons.1 hm with rfl | hm
    · exact
        { header := by decide +kernel
          inside := by decide +kernel
          name := hname _ (.inl rfl)
          agree := ⟨by decide +kernel, by decide +kernel, .inr (by decide +kernel)⟩
          decodes := .inl ⟨rfl, by simp [storedMember], rfl, by decide +kernel⟩ }
    · obtain rfl := List.mem_singleton.1 hm
      exact
        { header := by decide +kernel
          inside := by decide +kernel
          name := hname _ (.inr rfl)
          agree := ⟨by decide +kernel, by decide +kernel, .inr (by decide +kernel)⟩
          decodes := .inl ⟨rfl, by simp [twinMember, storedMember], rfl, by decide +kernel⟩ }
  apart := by
    refine List.pairwise_pair.2 (.inl ?_)
    decide +kernel

theorem wrapped_twinArchive_audit :
    auditReader .plain ⟨[0x4D, 0x5A] ++ (twinArchive ++ [1, 2, 3]), 0⟩ =
      .ok [.new (.prependedData 2), .new (.trailingData 3)] := by
  have hlast : LastEocd ([0x4D, 0x5A] ++ (twinArchive ++ [1, 2, 3])) 164 :=
    (findEocd_iff _ _).1 (by decide +kernel)
  have haudit := audit_wrapped_clean_archive (P := [0x4D, 0x5A]) (T := [1, 2, 3])
    (by decide +kernel) twinArchive_clean (fun _ => by decide +kernel) hlast.last
    (by decide +kernel) 0
  simpa using haudit

end ZipForensic
