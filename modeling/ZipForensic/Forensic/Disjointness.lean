import Mathlib.Data.List.Pairwise
import Mathlib.Order.CompletePartialOrder
import ZipForensic.Forensic.Overlap

/-!
# The overlap detector as a disjointness certificate

`auditOverlaps` compares each member with the next in start order only. Where
every member has data (`Measured`) that is enough to certify all pairs:

- `visitOrder_pairwise_iff`: members with data are pairwise disjoint exactly when they
  lie one behind the other in start order.
- `auditOverlaps_certifies`: an overlap names a byte that two different members
  share, and a silent detector means that the members are pairwise disjoint.
-/

namespace ZipForensic

open EntryLayout

/-- A layout whose members have data that ends below `2 ^ 64`, under distinct
indexes. -/
structure Measured (layout : List EntryLayout) : Prop where
  size_pos : ∀ e ∈ layout, 1 ≤ e.central.compressedSize
  dataEnd_lt : ∀ e ∈ layout, e.dataStart + e.central.compressedSize < 2 ^ 64
  index_nodup : (layout.map EntryLayout.index).Nodup

namespace Measured

variable {layout : List EntryLayout} (h : Measured layout)
include h

theorem dataStart_lt_dataEnd {e : EntryLayout} (he : e ∈ layout) : e.dataStart < e.dataEnd :=
  Nat.lt_add_of_pos_right (h.size_pos e he)

theorem dataStart_lt_u64Max {e : EntryLayout} (he : e ∈ layout) : e.dataStart < u64Max := by
  have hpos := h.size_pos e he
  have hlt := h.dataEnd_lt e he
  unfold u64Max
  omega

/-- Different places of the layout hold different members. -/
theorem nodup : layout.Nodup :=
  h.index_nodup.of_map _

theorem index_ne {a b : EntryLayout} (ha : a ∈ layout) (hb : b ∈ layout) (hne : a ≠ b) :
    a.index ≠ b.index := fun heq =>
  hne (List.inj_on_of_nodup_map h.index_nodup ha hb heq)

end Measured

/-- Of two members with data, the one that starts first ends before the other starts
exactly when they share no byte. -/
theorem dataEnd_le_iff_disjoint {a b : EntryLayout} (hstart : a.dataStart ≤ b.dataStart)
    (hb : b.dataStart < b.dataEnd) : a.dataEnd ≤ b.dataStart ↔ Disjoint a.dataRange b.dataRange := by
  rw [Set.disjoint_left]
  constructor
  · intro hle x hxa hxb
    exact Nat.lt_irrefl _ (Nat.lt_of_lt_of_le hxa.2 (Nat.le_trans hle hxb.1))
  · intro hdisj
    by_contra hlt
    exact hdisj ⟨hstart, Nat.lt_of_not_le hlt⟩ ⟨Nat.le_refl _, hb⟩

/-- Members with data lie one behind the other in start order exactly when they are
pairwise disjoint. -/
theorem visitOrder_pairwise_iff {layout : List EntryLayout} (h : Measured layout) :
    (visitOrder layout).Pairwise (fun a b => a.dataEnd ≤ b.dataStart) ↔
      layout.Pairwise fun a b => Disjoint a.dataRange b.dataRange := by
  have hsorted := visitOrder_sorted layout
  have hdata : ∀ e ∈ visitOrder layout, e.dataStart < e.dataEnd := fun e he =>
    h.dataStart_lt_dataEnd (List.mem_mergeSort.1 he)
  rw [← (List.mergeSort_perm layout _).pairwise_iff fun hab => hab.symm]
  constructor
  · intro hpw
    refine (hpw.and hsorted).imp_of_mem fun {a b} _ hb hab => ?_
    exact (dataEnd_le_iff_disjoint hab.2 (hdata b hb)).1 hab.1
  · intro hpw
    refine (hpw.and hsorted).imp_of_mem fun {a b} _ hb hab => ?_
    exact (dataEnd_le_iff_disjoint hab.2 (hdata b hb)).2 hab.1

theorem auditOverlaps_eq_nil_iff {layout : List EntryLayout} (h : Measured layout) :
    auditOverlaps layout = [] ↔ layout.Pairwise fun a b => Disjoint a.dataRange b.dataRange := by
  have hmem {x : Anomaly} := mem_auditOverlaps_iff (x := x) fun e he => h.dataStart_lt_u64Max he
  rw [← visitOrder_pairwise_iff h, pairwise_iff_neighbours fun {a b c} hab hbc => ?_]
  · rw [List.eq_nil_iff_forall_not_mem]
    constructor
    · intro hnone a b hab
      exact Nat.le_of_not_lt fun hlt => hnone _ (hmem.2 ⟨a, b, hab, hlt, rfl⟩)
    · intro hle x hx
      obtain ⟨a, b, hab, hlt, -⟩ := hmem.1 hx
      exact absurd hlt (Nat.not_lt.2 (hle a b hab))
  · -- a range ends at or behind its start
    exact Nat.le_trans hab (Nat.le_trans (Nat.le_add_right _ _) hbc)

/-- Every byte the detector names lies in the data of both members it names. -/
theorem shared_of_mem_auditOverlaps {layout : List EntryLayout} (h : Measured layout)
    {x : Anomaly} (hx : x ∈ auditOverlaps layout) :
    ∃ a ∈ layout, ∃ b ∈ layout, a.index ≠ b.index ∧
      ∃ offset, x.kind = .overlap a.index b.index offset ∧
        offset ∈ a.dataRange ∧ offset ∈ b.dataRange := by
  obtain ⟨a, b, hab, hlt, rfl⟩ :=
    (mem_auditOverlaps_iff fun e he => h.dataStart_lt_u64Max he).1 hx
  obtain ⟨ha, hb⟩ := mem_layout_of_mem_neighbours hab
  obtain ⟨l, r, hsplit⟩ := mem_neighbours_iff.1 hab
  have hperm := List.mergeSort_perm layout fun a b => decide (a.dataStart ≤ b.dataStart)
  have hne : a ≠ b := by
    have hnodup : (l ++ a :: b :: r).Nodup := hsplit ▸ hperm.nodup_iff.2 h.nodup
    rintro rfl
    exact (List.nodup_cons.1 (List.nodup_append.1 hnodup).2.1).1 List.mem_cons_self
  have hstart : a.dataStart ≤ b.dataStart := by
    have hsorted := visitOrder_sorted layout
    rw [hsplit] at hsorted
    exact List.rel_of_pairwise_cons (List.pairwise_append.1 hsorted).2.1 List.mem_cons_self
  refine ⟨a, ha, b, hb, h.index_ne ha hb hne, b.dataStart, rfl, ⟨hstart, hlt⟩, ?_⟩
  exact ⟨Nat.le_refl _, h.dataStart_lt_dataEnd hb⟩

/-- An overlap names a byte two different members share; no overlap at all means that
the members are pairwise disjoint. -/
theorem auditOverlaps_certifies {layout : List EntryLayout} (h : Measured layout) :
    (∀ x ∈ auditOverlaps layout, ∃ a ∈ layout, ∃ b ∈ layout, a.index ≠ b.index ∧
      ∃ offset, x.kind = .overlap a.index b.index offset ∧
        offset ∈ a.dataRange ∧ offset ∈ b.dataRange) ∧
      (auditOverlaps layout = [] ↔
        ∀ a ∈ layout, ∀ b ∈ layout, a ≠ b → Disjoint a.dataRange b.dataRange) := by
  refine ⟨fun x hx => shared_of_mem_auditOverlaps h hx, ?_⟩
  rw [auditOverlaps_eq_nil_iff h]
  constructor
  · intro hpw a ha b hb hne
    have : Std.Symm fun a b : EntryLayout => Disjoint a.dataRange b.dataRange :=
      ⟨fun _ _ hab => hab.symm⟩
    exact hpw.forall ha hb hne
  · exact h.nodup.pairwise_of_forall_ne

/-- The members of `nestedView` share bytes, so the detector is not silent on them. -/
theorem nestedView_not_silent : auditOverlaps nestedView.entries ≠ [] := by
  intro hsilent
  have hdisj := (auditOverlaps_certifies ⟨by decide, by decide, by decide⟩).2.1 hsilent
    (memberAt 0 40 100) (by decide) (memberAt 1 50 10) (by decide) (by decide)
  have hlong : 50 ∈ (memberAt 0 40 100).dataRange := ⟨by decide, by decide⟩
  exact Set.disjoint_left.1 hdisj hlong ⟨by decide, by decide⟩

end ZipForensic
