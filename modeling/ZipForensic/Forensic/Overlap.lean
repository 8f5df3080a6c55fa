import ZipForensic.Core.LayoutView
import ZipForensic.Forensic.Audit
import ZipForensic.Order.StableSort
import Mathlib.Tactic.FinCases

/-!
# What the overlap detector names

`auditOverlaps` sorts the members by the start of their data and compares each
one with the next. This file says which members that names:

- `StructuralView`: the layouts `structural_view` returns, with the invariants
  of its construction.
- `overlap_mem_auditLayout_iff`: an `Overlap` anomaly stands for two neighbours
  in start order, the first reaching past the start of the second.
- `Concealed e`: every member overlapping `e` starts before it and is not its
  immediate predecessor — the case the pass over neighbours cannot see.
- `auditLayout_names_iff_not_concealed`: all overlapping members are named
  exactly when no member is concealed.
-/

namespace ZipForensic

/-- A structural view: entries indexed in central-directory order, whose data
starts inside a file (whose length is below `2 ^ 63`). -/
structure StructuralView where
  entries : List EntryLayout
  index_eq : entries.map EntryLayout.index = List.range entries.length
  dataStart_lt : ∀ e ∈ entries, e.dataStart < u64Max

/-- What `structural_view` returns is a structural view. -/
theorem StructuralView.of_structuralView {a : ZipArchive} {layout : List EntryLayout}
    (hlen : a.reader.bytes.length ≤ isizeMax) (h : a.structuralView.1 = .ok layout) :
    ∃ v : StructuralView, v.entries = layout := by
  obtain ⟨pos, hview⟩ := structuralView_eq a
  rw [hview] at h
  obtain ⟨hindex, hstart⟩ := layoutsAt_bounds hlen h
  exact ⟨⟨layout, by rw [hindex, List.range_eq_range'], hstart⟩, rfl⟩

namespace EntryLayout

/-- The end of a member's data. -/
def dataEnd (e : EntryLayout) : Nat := e.dataStart + e.central.compressedSize

/-- A member's data range `[data_start, data_start + compressed_size)`. -/
def dataRange (e : EntryLayout) : Set Nat := {x | e.dataStart ≤ x ∧ x < e.dataEnd}

/-- Start order, ties in central-directory order. -/
def Before (a b : EntryLayout) : Prop :=
  a.dataStart < b.dataStart ∨ (a.dataStart = b.dataStart ∧ a.index < b.index)

theorem not_before_self (a : EntryLayout) : ¬ a.Before a := by
  rintro (h | h)
  · exact Nat.lt_irrefl _ h
  · exact Nat.lt_irrefl _ h.2

theorem Before.asymm {a b : EntryLayout} (h : a.Before b) : ¬ b.Before a := by
  unfold Before at *
  omega

end EntryLayout

open EntryLayout

/-! ## The neighbours the pass compares -/

/-- The members in the order the detector visits them. -/
def visitOrder (layout : List EntryLayout) : List EntryLayout :=
  layout.mergeSort fun a b => decide (a.dataStart ≤ b.dataStart)

theorem sortedSpans_eq (layout : List EntryLayout) :
    sortedSpans layout = (visitOrder layout).map EntryLayout.span := by
  rw [visitOrder, sortedSpans]
  exact (List.map_mergeSort (f := EntryLayout.span) fun _ _ _ _ => rfl).symm

/-- Members listed in their order are visited as they are listed. -/
theorem auditOverlaps_of_sorted {layout : List EntryLayout}
    (h : layout.Pairwise fun d e => d.dataStart ≤ e.dataStart) :
    auditOverlaps layout = overlapsOfSorted (layout.map EntryLayout.span) := by
  have horder : visitOrder layout = layout :=
    List.mergeSort_of_pairwise (h.imp fun hle => decide_eq_true hle)
  rw [auditOverlaps, sortedSpans_eq, horder]

theorem visitOrder_sorted (layout : List EntryLayout) :
    (visitOrder layout).Pairwise fun a b => a.dataStart ≤ b.dataStart := by
  have hsorted : (visitOrder layout).Pairwise fun a b =>
      decide (a.dataStart ≤ b.dataStart) = true := by
    refine List.pairwise_mergeSort (fun a b c hab hbc => ?_) (fun a b => ?_) layout
    · simp only [decide_eq_true_eq] at *
      omega
    · simp only [Bool.or_eq_true, decide_eq_true_eq]
      omega
  exact hsorted.imp fun hab => of_decide_eq_true hab

theorem overlapsOfSorted_eq (spans : List Span) :
    overlapsOfSorted spans = (neighbours spans).flatMap fun (a, b) =>
      if b.start < a.stop then [.new (.overlap a.index b.index b.start)] else [] := by
  induction spans with
  | nil => rfl
  | cons a spans ih =>
    cases spans with
    | nil => rfl
    | cons b rest =>
      rw [overlapsOfSorted, neighbours, List.flatMap_cons, ih]

theorem kind_of_mem_auditOverlaps {layout : List EntryLayout} {x : Anomaly}
    (hx : x ∈ auditOverlaps layout) : ∃ a b offset, x.kind = .overlap a b offset := by
  rw [auditOverlaps, overlapsOfSorted_eq] at hx
  obtain ⟨⟨a, b⟩, -, hx⟩ := List.mem_flatMap.1 hx
  dsimp only at hx
  split_ifs at hx
  · rw [List.mem_singleton.1 hx]
    exact ⟨_, _, _, rfl⟩
  · exact absurd hx List.not_mem_nil

theorem neighbours_map {α β : Type} (f : α → β) (xs : List α) :
    neighbours (xs.map f) = (neighbours xs).map fun (a, b) => (f a, f b) := by
  induction xs with
  | nil => rfl
  | cons x xs ih =>
    cases xs with
    | nil => rfl
    | cons y rest => exact congrArg ((f x, f y) :: ·) ih

theorem eq_of_mem_ite {α : Type} {c : Prop} [Decidable c] {x y : α}
    (h : x ∈ if c then [y] else []) : x = y := by
  split_ifs at h
  · exact List.mem_singleton.1 h
  · simp at h

/-- A size comparison reports a mismatch or nothing. -/
theorem eq_of_mem_compareSize {e : EntryLayout} {field : String} {central loc : Nat} {x : Anomaly}
    (hx : x ∈ compareSize e field central loc) :
    x = mismatch e field (toString central) (toString loc) := by
  unfold compareSize at hx
  split_ifs at hx
  · simp at hx
  · exact List.mem_singleton.1 hx
  · simp at hx

/-- The kinds of findings the header copies of one entry give rise to. -/
def AnomalyKind.aboutHeaders : AnomalyKind → Bool
  | cdLfhMismatch .. | nameTraversal .. | nameAbsolute .. | nameBidi .. | nameControl .. => true
  | _ => false

theorem aboutHeaders_of_mem_auditEntry {e : EntryLayout} {x : Anomaly} (hx : x ∈ auditEntry e) :
    x.kind.aboutHeaders = true := by
  simp only [auditEntry, List.mem_append] at hx
  rcases hx with (((((hx | hx) | hx) | hx) | hx) | hx) | hx
  iterate 6 exact eq_of_mem_ite hx ▸ rfl
  by_cases hflag : e.loc.flags &&& 0x0008 ≠ 0
  · rw [if_pos hflag] at hx
    simp at hx
  · rw [if_neg hflag] at hx
    simp only [List.mem_append] at hx
    rcases hx with (hx | hx) | hx
    · exact eq_of_mem_ite hx ▸ rfl
    · exact eq_of_mem_compareSize hx ▸ rfl
    · exact eq_of_mem_compareSize hx ▸ rfl

/-- The audit of one entry reports no overlaps. -/
theorem kind_ne_overlap_of_mem_auditEntry {e : EntryLayout} {x : Anomaly} (hx : x ∈ auditEntry e)
    (a b offset : Nat) : x.kind ≠ .overlap a b offset := by
  intro hkind
  have habout := aboutHeaders_of_mem_auditEntry hx
  rw [hkind] at habout
  cases habout

theorem kind_overlap_mem_auditLayout_iff {layout : List EntryLayout} {a b offset : Nat} :
    (∃ x ∈ auditLayout layout, x.kind = .overlap a b offset) ↔
      ∃ x ∈ auditOverlaps layout, x.kind = .overlap a b offset := by
  constructor
  · rintro ⟨x, hx, hkind⟩
    simp only [auditLayout, List.mem_append] at hx
    rcases hx with (hx | hx) | hx
    · split at hx
      · split_ifs at hx
        · obtain rfl : x = _ := by simpa using hx
          cases hkind
        · simp at hx
      · simp at hx
    · obtain ⟨e, -, he⟩ := List.mem_flatMap.1 hx
      exact absurd hkind (kind_ne_overlap_of_mem_auditEntry he a b offset)
    · exact ⟨x, hx, hkind⟩
  · rintro ⟨x, hx, hkind⟩
    exact ⟨x, List.mem_append_right _ hx, hkind⟩

theorem mem_layout_of_mem_neighbours {layout : List EntryLayout} {a b : EntryLayout}
    (hab : (a, b) ∈ neighbours (visitOrder layout)) : a ∈ layout ∧ b ∈ layout := by
  obtain ⟨l, r, h⟩ := mem_neighbours_iff.1 hab
  have hmem : ∀ e ∈ visitOrder layout, e ∈ layout := fun e he => List.mem_mergeSort.1 he
  exact ⟨hmem a (by rw [h]; simp), hmem b (by rw [h]; simp)⟩

/-- The (saturating) span of `a` reaches past the start of `b` when its data does. -/
theorem lt_stop_iff {a b : EntryLayout} (hb : b.dataStart < u64Max) :
    b.span.start < a.span.stop ↔ b.dataStart < a.dataEnd := by
  simp only [EntryLayout.span, dataEnd]
  omega

/-- What the detector returns: one overlap for two members next to each other in
start order, the first reaching past the start of the second. -/
theorem mem_auditOverlaps_iff {layout : List EntryLayout}
    (hstart : ∀ e ∈ layout, e.dataStart < u64Max) {x : Anomaly} :
    x ∈ auditOverlaps layout ↔ ∃ a b, (a, b) ∈ neighbours (visitOrder layout) ∧
      b.dataStart < a.dataEnd ∧ x = .new (.overlap a.index b.index b.dataStart) := by
  rw [auditOverlaps, overlapsOfSorted_eq, sortedSpans_eq, neighbours_map]
  constructor
  · intro hx
    obtain ⟨⟨s, t⟩, hst, hx⟩ := List.mem_flatMap.1 hx
    obtain ⟨⟨a, b⟩, hab, heq⟩ := List.mem_map.1 hst
    obtain ⟨rfl, rfl⟩ := Prod.mk.injEq .. ▸ heq
    have hb := hstart b (mem_layout_of_mem_neighbours hab).2
    dsimp only at hx
    by_cases hlt : b.span.start < a.span.stop
    · rw [if_pos hlt] at hx
      exact ⟨a, b, hab, (lt_stop_iff hb).1 hlt, List.mem_singleton.1 hx⟩
    · rw [if_neg hlt] at hx
      simp at hx
  · rintro ⟨a, b, hab, hlt, rfl⟩
    have hb := hstart b (mem_layout_of_mem_neighbours hab).2
    refine List.mem_flatMap.2 ⟨(a.span, b.span), List.mem_map.2 ⟨(a, b), hab, rfl⟩, ?_⟩
    dsimp only
    rw [if_pos ((lt_stop_iff hb).2 hlt)]
    exact List.mem_singleton.2 rfl

namespace StructuralView

variable (v : StructuralView)

theorem index_lt : v.entries.Pairwise fun a b => a.index < b.index := by
  have h : (v.entries.map EntryLayout.index).Pairwise (· < ·) := by
    rw [v.index_eq]
    exact List.pairwise_lt_range
  exact List.pairwise_map.1 h

/-- An index names one member. -/
theorem eq_of_index_eq {a b : EntryLayout} (ha : a ∈ v.entries) (hb : b ∈ v.entries)
    (h : a.index = b.index) : a = b := by
  obtain ⟨i, hi, rfl⟩ := List.getElem_of_mem ha
  obtain ⟨j, hj, rfl⟩ := List.getElem_of_mem hb
  have hlt := List.pairwise_iff_getElem.1 v.index_lt
  rcases Nat.lt_trichotomy i j with hij | rfl | hij
  · exact absurd h (Nat.ne_of_lt (hlt i j hi hj hij))
  · rfl
  · exact absurd h.symm (Nat.ne_of_lt (hlt j i hj hi hij))

theorem mem_visitOrder {e : EntryLayout} : e ∈ visitOrder v.entries ↔ e ∈ v.entries :=
  List.mem_mergeSort

/-- The visit order is the start order. -/
theorem visitOrder_before : (visitOrder v.entries).Pairwise Before := by
  have h := pairwise_mergeSort_stable
    (fun a b : EntryLayout => decide (a.dataStart ≤ b.dataStart))
    (fun a b c hab hbc => by simp only [decide_eq_true_eq] at *; omega)
    (fun a b => by simpa using Nat.le_total _ _) v.index_lt
  refine h.imp fun {a b} hab => ?_
  simp only [decide_eq_true_eq] at hab
  rcases Nat.lt_or_ge a.dataStart b.dataStart with hlt | hge
  · exact .inl hlt
  · exact .inr ⟨Nat.le_antisymm hab.1 hge, hab.2 hge⟩

/-- An `Overlap` anomaly: two members next to each other in start order, the first
reaching past the start of the second. -/
theorem overlap_mem_auditLayout_iff {i j offset : Nat} :
    (∃ x ∈ auditLayout v.entries, x.kind = .overlap i j offset) ↔
      ∃ a b, (a, b) ∈ neighbours (visitOrder v.entries) ∧ b.dataStart < a.dataEnd ∧
        a.index = i ∧ b.index = j ∧ b.dataStart = offset := by
  rw [kind_overlap_mem_auditLayout_iff]
  constructor
  · rintro ⟨x, hx, hkind⟩
    obtain ⟨a, b, hab, hlt, rfl⟩ := (mem_auditOverlaps_iff v.dataStart_lt).1 hx
    obtain ⟨rfl, rfl, rfl⟩ := AnomalyKind.overlap.injEq .. ▸ hkind
    exact ⟨a, b, hab, hlt, rfl, rfl, rfl⟩
  · rintro ⟨a, b, hab, hlt, rfl, rfl, rfl⟩
    exact ⟨_, (mem_auditOverlaps_iff v.dataStart_lt).2 ⟨a, b, hab, hlt, rfl⟩, rfl⟩

/-! ## Named and concealed members -/

/-- `e` shares a byte of its data range with another member. -/
def Overlapping (e : EntryLayout) : Prop :=
  ∃ d ∈ v.entries, d ≠ e ∧ (e.dataRange ∩ d.dataRange).Nonempty

/-- `e` is named by an `Overlap` anomaly of `audit_layout`. -/
def Named (e : EntryLayout) : Prop :=
  ∃ x ∈ auditLayout v.entries, ∃ i j offset,
    x.kind = .overlap i j offset ∧ (e.index = i ∨ e.index = j)

/-- The immediate predecessor of `e` in start order. -/
def Predecessor (p e : EntryLayout) : Prop :=
  p ∈ v.entries ∧ p.Before e ∧ ∀ q ∈ v.entries, ¬ (p.Before q ∧ q.Before e)

/-- Only members that start before `e`, none of them its immediate predecessor,
reach into `e`. -/
structure Concealed (e : EntryLayout) : Prop where
  nonempty : e.dataStart < e.dataEnd
  after_predecessor : ∀ p, v.Predecessor p e → p.dataEnd ≤ e.dataStart
  before_later : ∀ q ∈ v.entries, e.Before q → e.dataEnd ≤ q.dataStart
  reached : ∃ d ∈ v.entries, d.Before e ∧ e.dataStart < d.dataEnd

variable {v} {e : EntryLayout}

theorem before_or_before (he : e ∈ v.entries) {d : EntryLayout} (hd : d ∈ v.entries)
    (hne : d ≠ e) : d.Before e ∨ e.Before d := by
  have hidx : d.index ≠ e.index := fun h => hne (v.eq_of_index_eq hd he h)
  unfold Before
  omega

/-- Being named, read off the two neighbours of `e`. -/
theorem named_iff_of_split (he : e ∈ v.entries) {l r : List EntryLayout}
    (hsplit : visitOrder v.entries = l ++ e :: r) :
    v.Named e ↔ (∃ l' p, l = l' ++ [p] ∧ e.dataStart < p.dataEnd) ∨
      ∃ q r', r = q :: r' ∧ q.dataStart < e.dataEnd := by
  have hnodup : (visitOrder v.entries).Nodup :=
    v.visitOrder_before.imp fun h heq => by subst heq; exact not_before_self _ h
  have hmem : ∀ x ∈ visitOrder v.entries, x ∈ v.entries := fun x hx => v.mem_visitOrder.1 hx
  have hl : e ∉ l := fun h => (List.nodup_middle.1 (hsplit ▸ hnodup)).notMem (by simp [h])
  have hr : e ∉ r := fun h => (List.nodup_middle.1 (hsplit ▸ hnodup)).notMem (by simp [h])
  constructor
  · rintro ⟨x, hx, i, j, offset, hkind, hname⟩
    obtain ⟨a, b, hab, hlt, rfl, rfl, rfl⟩ := v.overlap_mem_auditLayout_iff.1 ⟨x, hx, hkind⟩
    obtain ⟨l₁, r₁, hab⟩ := mem_neighbours_iff.1 hab
    have ha : a ∈ v.entries := hmem a (by rw [hab]; simp)
    have hb : b ∈ v.entries := hmem b (by rw [hab]; simp)
    rcases hname with h | h
    · -- `e` is the left one of the pair
      obtain rfl := v.eq_of_index_eq he ha h
      have heq : l ++ e :: r = l₁ ++ e :: (b :: r₁) := by rw [← hsplit, hab]
      obtain ⟨-, -, hr⟩ := (List.append_cons_inj_of_notMem hl hr).1 heq
      exact .inr ⟨b, r₁, hr, hlt⟩
    · -- `e` is the right one of the pair
      obtain rfl := v.eq_of_index_eq he hb h
      have heq : l ++ e :: r = (l₁ ++ [a]) ++ e :: r₁ := by rw [← hsplit, hab]; simp
      obtain ⟨hl, -⟩ := (List.append_cons_inj_of_notMem hl hr).1 heq
      exact .inl ⟨l₁, a, hl, hlt⟩
  · rintro (⟨l', p, rfl, hlt⟩ | ⟨q, r', rfl, hlt⟩)
    · have hpair : (p, e) ∈ neighbours (visitOrder v.entries) :=
        mem_neighbours_iff.2 ⟨l', r, by rw [hsplit]; simp⟩
      obtain ⟨x, hx, hkind⟩ := v.overlap_mem_auditLayout_iff.2 ⟨p, e, hpair, hlt, rfl, rfl, rfl⟩
      exact ⟨x, hx, _, _, _, hkind, .inr rfl⟩
    · have hpair : (e, q) ∈ neighbours (visitOrder v.entries) :=
        mem_neighbours_iff.2 ⟨l, r', hsplit⟩
      obtain ⟨x, hx, hkind⟩ := v.overlap_mem_auditLayout_iff.2 ⟨e, q, hpair, hlt, rfl, rfl, rfl⟩
      exact ⟨x, hx, _, _, _, hkind, .inl rfl⟩

section Split

variable {l r : List EntryLayout} (hsplit : visitOrder v.entries = l ++ e :: r)
include hsplit

theorem before_of_split : (l ++ e :: r).Pairwise Before := hsplit ▸ v.visitOrder_before

theorem mem_iff_of_split {x : EntryLayout} : x ∈ v.entries ↔ x ∈ l ++ e :: r := by
  rw [← hsplit, v.mem_visitOrder]

theorem after_iff_of_split {x : EntryLayout} (hx : x ∈ v.entries) : e.Before x ↔ x ∈ r :=
  after_iff_mem_right not_before_self (fun _ _ => Before.asymm) (before_of_split hsplit)
    ((mem_iff_of_split hsplit).1 hx)

theorem predecessor_iff_of_split {p : EntryLayout} : v.Predecessor p e ↔ ∃ l', l = l' ++ [p] := by
  have hneighbour := fun hp => leftNeighbour_iff not_before_self (fun _ _ => Before.asymm)
    (before_of_split hsplit) (p := p) hp
  constructor
  · rintro ⟨hp, hpe, hnone⟩
    refine (hneighbour ((mem_iff_of_split hsplit).1 hp)).1 ⟨hpe, ?_⟩
    exact fun q hq => hnone q ((mem_iff_of_split hsplit).2 hq)
  · rintro ⟨l', rfl⟩
    have hp : p ∈ (l' ++ [p]) ++ e :: r := by simp
    obtain ⟨hpe, hnone⟩ := (hneighbour hp).2 ⟨l', rfl⟩
    exact ⟨(mem_iff_of_split hsplit).2 hp, hpe,
      fun q hq => hnone q ((mem_iff_of_split hsplit).1 hq)⟩

/-- If the next member starts behind `e`, every later one does. -/
theorem dataEnd_le_of_split (hnext : ∀ q r', r = q :: r' → e.dataEnd ≤ q.dataStart)
    {q : EntryLayout} (hq : q ∈ v.entries) (heq : e.Before q) : e.dataEnd ≤ q.dataStart := by
  have hqr := (after_iff_of_split hsplit hq).1 heq
  cases r with
  | nil => cases hqr
  | cons q₀ r' =>
    refine Nat.le_trans (hnext q₀ r' rfl) ?_
    rcases List.mem_cons.1 hqr with rfl | hqr'
    · exact Nat.le_refl _
    · have hq₀ := (List.pairwise_append.1 (before_of_split hsplit)).2.1
      have hbefore := List.rel_of_pairwise_cons (List.pairwise_cons.1 hq₀).2 hqr'
      unfold Before at hbefore
      omega

end Split

/-- A member is overlapped without being named exactly when it is concealed. -/
theorem overlapping_not_named_iff (he : e ∈ v.entries) :
    (v.Overlapping e ∧ ¬ v.Named e) ↔ v.Concealed e := by
  obtain ⟨l, r, hsplit⟩ := List.append_of_mem (v.mem_visitOrder.2 he)
  rw [named_iff_of_split he hsplit]
  constructor
  · rintro ⟨⟨d, hd, hne, x, hxe, hxd⟩, hnot⟩
    change _ ∧ _ at hxe hxd
    have hlater : ∀ q ∈ v.entries, e.Before q → e.dataEnd ≤ q.dataStart := fun q hq heq =>
      dataEnd_le_of_split hsplit
        (fun q r' hr => Nat.le_of_not_lt fun h => hnot (.inr ⟨q, r', hr, h⟩)) hq heq
    have hde : d.Before e := by
      refine (before_or_before he hd hne).resolve_right fun hed => ?_
      have hbehind := hlater d hd hed
      omega
    refine ⟨by omega, fun p hp => ?_, hlater, d, hd, hde, by omega⟩
    obtain ⟨l', hl⟩ := (predecessor_iff_of_split hsplit).1 hp
    exact Nat.le_of_not_lt fun h => hnot (.inl ⟨l', p, hl, h⟩)
  · rintro ⟨hne, hafter, hlater, d, hd, hde, hreach⟩
    have hdstart : d.dataStart ≤ e.dataStart := by
      unfold Before at hde
      omega
    refine ⟨⟨d, hd, ?_, e.dataStart, ⟨Nat.le_refl _, hne⟩, hdstart, hreach⟩, ?_⟩
    · rintro rfl
      exact not_before_self _ hde
    · rintro (⟨l', p, hl, hlt⟩ | ⟨q, r', rfl, hlt⟩)
      · exact absurd hlt (Nat.not_lt.2 (hafter p ((predecessor_iff_of_split hsplit).2 ⟨l', hl⟩)))
      · have hq : q ∈ v.entries := (mem_iff_of_split hsplit).2 (by simp)
        have hbehind := hlater q hq ((after_iff_of_split hsplit hq).2 List.mem_cons_self)
        omega

/-- The detector names every overlapping member exactly when none is concealed. -/
theorem auditLayout_names_iff_not_concealed (v : StructuralView) :
    (∀ e ∈ v.entries, v.Overlapping e → v.Named e) ↔ ∀ e ∈ v.entries, ¬ v.Concealed e := by
  constructor
  · intro hnamed e he hconcealed
    obtain ⟨hover, hnot⟩ := (overlapping_not_named_iff he).2 hconcealed
    exact hnot (hnamed e he hover)
  · intro hnone e he hover
    by_contra hnot
    exact hnone e he ((overlapping_not_named_iff he).1 ⟨hover, hnot⟩)

end StructuralView

/-! ## A short member behind another one inside a long member -/

/-- A stored member with `size` bytes of data at `start`. -/
def memberAt (index start size : Nat) : EntryLayout :=
  let header : HeaderFields :=
    { name := "m", method := .stored, flags := 0, crc32 := 0, compressedSize := size,
      uncompressedSize := size }
  { index, lfhOffset := 0, dataStart := start, central := header, loc := header, extra := {} }

/-- Two short members one after the other, both inside a long one. -/
def nestedView : StructuralView where
  entries := [memberAt 0 40 100, memberAt 1 50 10, memberAt 2 70 10]
  index_eq := by decide
  dataStart_lt := by decide

/-- The long member is the only one to reach into the second short one. -/
theorem nestedView_concealed : nestedView.Concealed (memberAt 2 70 10) where
  nonempty := by decide
  after_predecessor := by
    rintro p ⟨hp, hbefore, hnext⟩
    fin_cases hp
    · -- the other short member stands between the long one and this one
      exact absurd ⟨.inl (by decide), .inl (by decide)⟩ (hnext (memberAt 1 50 10) (by decide))
    · decide
    · exact absurd hbefore (not_before_self _)
  before_later := by
    intro q hq hafter
    fin_cases hq
    · exact absurd hafter (Before.asymm (.inl (by decide)))
    · exact absurd hafter (Before.asymm (.inl (by decide)))
    · exact absurd hafter (not_before_self _)
  reached := ⟨memberAt 0 40 100, by decide, .inl (by decide), by decide⟩

/-- The second short member lies in the long one and is not named. -/
theorem nestedView_misses_member :
    ¬ ∀ e ∈ nestedView.entries, nestedView.Overlapping e → nestedView.Named e := by
  intro hnamed
  have hmem : memberAt 2 70 10 ∈ nestedView.entries := by decide
  obtain ⟨hover, hnot⟩ :=
    (StructuralView.overlapping_not_named_iff hmem).2 nestedView_concealed
  exact hnot (hnamed _ hmem hover)

end ZipForensic
