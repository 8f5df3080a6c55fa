import ZipForensic.Forensic.SilentAudit
import ZipForensic.Order.Packing

/-!
# Members that share no data

An archive can only be made to decode to far more than its size by decoders that expand
their input a lot, or by letting many members read the same bytes. An audit without overlap
findings rules out the second way.

- `fedBytes`: what the decoder of an entry is fed.
- `sum_fedBytes_le`: without overlaps, all the decoders together are fed no more than the
  file.
- `delivered_le_of_apart`: so any entries, each read to its end once, deliver at most the
  file's length times what a decoder expands its input by, stored ones at most that length.
-/

namespace ZipForensic

open EntryLayout

variable {k : Crates}

/-- What the decoder of an entry is fed. -/
def fedBytes (F : Bytes) (e : EntryLayout) : Bytes := slice F e.dataStart e.central.compressedSize

/-- The part of a member's data range that lies in the file. -/
theorem length_fedBytes (F : Bytes) (e : EntryLayout) :
    (fedBytes F e).length = min e.dataEnd F.length - min e.dataStart F.length := by
  rw [fedBytes, slice, List.length_take, List.length_drop, dataEnd]
  omega

/-- Without overlaps every byte of the file is fed to one decoder at most. -/
theorem sum_fedBytes_le (v : StructuralView) (F : Bytes) (hsilent : auditOverlaps v.entries = []) :
    (v.entries.map fun e => (fedBytes F e).length).sum ≤ F.length := by
  have hapart := (auditOverlaps_silent_iff v).1 hsilent
  have hfollow : (visitOrder v.entries).Pairwise fun d e =>
      min d.dataEnd F.length ≤ min e.dataStart F.length := by
    refine v.visitOrder_before.imp_of_mem fun {d e} hd he hbefore => ?_
    have hle := hapart d (v.mem_visitOrder.1 hd) e (v.mem_visitOrder.1 he) hbefore
    omega
  have hperm : (visitOrder v.entries).Perm v.entries := List.mergeSort_perm _ _
  have hsum := sum_le_of_follow (fun e : EntryLayout => min e.dataStart F.length)
    (fun e => min e.dataEnd F.length) 0 F.length
    (fun e _ => ⟨Nat.zero_le _, by rw [dataEnd]; omega, Nat.min_le_right _ _⟩) hfollow
  simp only [← length_fedBytes] at hsum
  rw [← (hperm.map fun e => (fedBytes F e).length).sum_eq]
  exact hsum

/-! ## Readers -/

variable {a : ZipArchive} {f : ZipFile k (Take Source)}

/-- The decoder of an entry that opens is fed from where its layout says. -/
theorem layout_of_byIndex {layout : List EntryLayout}
    (hat : layoutsAt a.reader.bytes 0 a.entries = .ok layout) {i : Nat}
    (hopen : (a.byIndex i : Opened k) = .ok f) :
    ∃ e, layout[i]? = some e ∧
      fedBytes a.reader.bytes e = slice a.reader.bytes f.dataStart f.entry.compressedSize := by
  obtain ⟨hentry, hopened⟩ := ZipArchive.of_byIndex hopen
  obtain ⟨loc, dataStart, hlfh, hlayout⟩ := getElem?_of_layoutsAt hat hentry
  have hview := view_open (k := k) a f.entry
  rw [hopened] at hview
  obtain ⟨fields, dataStart', hlfh', hplain⟩ := openedPlain_eq_ok hview.symm
  obtain ⟨d, hd⟩ := openPlain_eq_start hplain
  have hstart : f.dataStart = dataStart' := congrArg ZipFile.dataStart hd
  obtain rfl : dataStart = dataStart' :=
    (Prod.mk.inj (Except.ok.inj (hlfh.symm.trans hlfh'))).2
  refine ⟨_, hlayout, ?_⟩
  rw [hstart]
  rfl

/-- A stored entry delivers what its decoder is fed. -/
theorem eq_of_readToEnd_stored {m : CentralEntry} (hopen : (a.open m : Opened k) = .ok f)
    (hstored : m.method = .stored) {out : Bytes} (hread : (readToEnd f).1 = .ok out) :
    out = slice a.reader.bytes f.dataStart m.compressedSize := by
  rw [ZipArchive.readToEnd_of_open hopen hstored] at hread
  split_ifs at hread with hcrc
  exact (Except.ok.inj hread).symm

/-- Reading entry `i` to its end delivers `out`, which is stored, or at most `ratio` times
what the decoder was fed. -/
def DeliversWithin (k : Crates) (a : ZipArchive) (ratio i : Nat) (out : Bytes) : Prop :=
  ∃ f, (a.byIndex i : Opened k) = .ok f ∧ (readToEnd f).1 = .ok out ∧
    (f.entry.method = .stored ∨
      out.length ≤ ratio * (slice a.reader.bytes f.dataStart f.entry.compressedSize).length)

theorem DeliversWithin.length_le {layout : List EntryLayout}
    (hat : layoutsAt a.reader.bytes 0 a.entries = .ok layout) {ratio i : Nat} (hratio : 1 ≤ ratio)
    {out : Bytes} (h : DeliversWithin k a ratio i out) :
    i < layout.length ∧ out.length ≤
      ratio * (layout[i]?.map fun e => (fedBytes a.reader.bytes e).length).getD 0 := by
  obtain ⟨f, hopen, hread, hwithin⟩ := h
  obtain ⟨e, hlayout, hfed⟩ := layout_of_byIndex hat hopen
  refine ⟨(List.getElem?_eq_some_iff.1 hlayout).1, ?_⟩
  rw [hlayout, Option.map_some, Option.getD_some, hfed]
  rcases hwithin with hstored | hle
  · rw [eq_of_readToEnd_stored (ZipArchive.of_byIndex hopen).2 hstored hread]
    exact Nat.le_mul_of_pos_left _ hratio
  · exact hle

/-- Any entries, each taken once. -/
theorem sum_delivered_le {layout : List EntryLayout}
    (hat : layoutsAt a.reader.bytes 0 a.entries = .ok layout) {ratio : Nat} (hratio : 1 ≤ ratio)
    {is : List Nat} {outs : List Bytes} (h : List.Forall₂ (DeliversWithin k a ratio) is outs) :
    (∀ i ∈ is, i < layout.length) ∧ (outs.map List.length).sum ≤ ratio *
      (is.map fun i => (layout[i]?.map fun e => (fedBytes a.reader.bytes e).length).getD 0).sum := by
  induction h with
  | nil => exact ⟨List.forall_mem_nil _, Nat.le_refl _⟩
  | @cons i out is outs hhead _ ih =>
    obtain ⟨hlt, hle⟩ := hhead.length_le hat hratio
    refine ⟨List.forall_mem_cons.2 ⟨hlt, ih.1⟩, ?_⟩
    rw [List.map_cons, List.map_cons, List.sum_cons, List.sum_cons, Nat.mul_add]
    exact Nat.add_le_add hle ih.2

/-- **No amplification by shared data.** Where the audit of the layout finds no overlap,
any entries of the archive, each read to its end once, together deliver at most `ratio`
times the length of the file, if no decoder expands what it is fed by more than that; the
stored ones need no such bound. -/
theorem delivered_le_of_apart {F : Bytes} {pos : Nat} (hsize : F.length ≤ isizeMax)
    (hnew : ZipArchive.new ⟨F, pos⟩ = .ok a) {layout : List EntryLayout}
    (hview : a.structuralView.1 = .ok layout) (hsilent : auditOverlaps layout = [])
    {ratio : Nat} (hratio : 1 ≤ ratio) {is : List Nat} (his : is.Nodup) {outs : List Bytes}
    (houts : List.Forall₂ (DeliversWithin k a ratio) is outs) :
    (outs.map List.length).sum ≤ ratio * F.length := by
  have hbytes : a.reader.bytes = F := (reader_of_new hnew).1
  obtain ⟨v, rfl⟩ := StructuralView.of_structuralView (hbytes ▸ hsize) hview
  have hat := (auditReader_ok (k := k) hnew hview).1
  obtain ⟨hin, hdelivered⟩ := sum_delivered_le hat hratio houts
  calc (outs.map List.length).sum
    _ ≤ ratio * (is.map fun i =>
        (v.entries[i]?.map fun e => (fedBytes a.reader.bytes e).length).getD 0).sum := hdelivered
    _ ≤ ratio * (v.entries.map fun e => (fedBytes a.reader.bytes e).length).sum :=
      Nat.mul_le_mul_left _ (sum_map_le_of_nodup his hin)
    _ ≤ ratio * F.length := Nat.mul_le_mul_left _ (hbytes ▸ sum_fedBytes_le v _ hsilent)

/-- Opening entry `i` of the archive of two members and reading it to its end: what that delivers,
how it was made, and how much of the file its decoder was given. -/
def pairDelivery (i : Nat) : Except (Fault ZipCoreError × Source)
    (Except IoError Bytes × CompressionMethod × Nat) :=
  ((pairOpened 0x61 237).byIndex i : Opened pairCrates).map fun f =>
    ((readToEnd f).1, f.entry.method,
      (slice (pairArchive 0x61) f.dataStart f.entry.compressedSize).length)

theorem deliversWithin_of_pairDelivery {i fed : Nat} {out : Bytes} {method : CompressionMethod}
    (h : pairDelivery i = .ok (.ok out, method, fed)) {ratio : Nat}
    (hwithin : method = .stored ∨ out.length ≤ ratio * fed) :
    DeliversWithin pairCrates (pairOpened 0x61 237) ratio i out := by
  rw [pairDelivery] at h
  rcases hopen : ((pairOpened 0x61 237).byIndex i : Opened pairCrates) with e | f
  · rw [hopen] at h
    cases h
  · rw [hopen] at h
    obtain ⟨hread, hmethod, hfed⟩ := Prod.mk.inj (Except.ok.inj h) |>.imp_right Prod.mk.inj
    refine ⟨f, hopen, hread, ?_⟩
    rw [hmethod]
    rw [← hfed] at hwithin
    exact hwithin

/-- The two members of an archive, one of them compressed to less than a quarter, together deliver
no more than five times its length. -/
theorem pairArchive_delivers :
    ZipArchive.new ⟨pairArchive 0x61, 0⟩ = .ok (pairOpened 0x61 237) ∧
      DeliversWithin pairCrates (pairOpened 0x61 237) 5 1 (List.replicate 300 0x61) ∧
      DeliversWithin pairCrates (pairOpened 0x61 237) 5 0 [0x61, 0x62, 0x63] ∧
      ([List.replicate 300 0x61, [0x61, 0x62, 0x63]].map (List.length (α := UInt8))).sum ≤
        5 * (pairArchive 0x61).length := by
  have hnew : ZipArchive.new ⟨pairArchive 0x61, 0⟩ = .ok (pairOpened 0x61 237) := by decide +kernel
  have hview : (pairOpened 0x61 237).structuralView.1 = .ok pairLayout := by decide +kernel
  have hsilent : auditOverlaps pairLayout = [] := by
    rw [auditOverlaps_of_sorted (by decide)]
    decide
  have hsecond : pairDelivery 1 = .ok (.ok (List.replicate 300 0x61), .xz, 68) := by decide +kernel
  have hfirst : pairDelivery 0 = .ok (.ok [0x61, 0x62, 0x63], .stored, 3) := by decide +kernel
  have hexpands : (List.replicate 300 (0x61 : UInt8)).length ≤ 5 * 68 := by
    rw [List.length_replicate]
    decide
  have hread : DeliversWithin pairCrates (pairOpened 0x61 237) 5 0 [0x61, 0x62, 0x63] :=
    deliversWithin_of_pairDelivery hfirst (.inl rfl)
  have hread' : DeliversWithin pairCrates (pairOpened 0x61 237) 5 1 (List.replicate 300 0x61) :=
    deliversWithin_of_pairDelivery hsecond (.inr hexpands)
  exact ⟨hnew, hread', hread, delivered_le_of_apart (by decide +kernel) hnew hview hsilent
    (by decide) (by decide) (.cons hread' (.cons hread .nil))⟩

end ZipForensic
