import Mathlib.Data.List.Basic
import Mathlib.Data.List.Sort
import Mathlib.Data.List.Nodup
import Mathlib.Order.Basic

/-!
# Stable sorting and neighbours

General facts about sorted lists, for passes that sort and then look at adjacent
elements only:

- `pairwise_mergeSort_stable`: a stable sort orders by its key and keeps the
  original order among ties.
- `neighbours xs`: the adjacent pairs (`windows(2)`).
- `pairwise_iff_neighbours`: for a transitive relation the adjacent pairs speak for
  all pairs.
- `leftNeighbour_iff`: in a list that is pairwise related by a strict
  order, `a` is the left neighbour of `b` exactly when nothing lies between them.
-/

namespace ZipForensic

variable {α : Type}

/-- A stable sort: in the result, ties of `le` are in the original order `R`. -/
theorem pairwise_mergeSort_stable (le : α → α → Bool) {R : α → α → Prop} {l : List α}
    (trans : ∀ a b c, le a b → le b c → le a c) (total : ∀ a b, le a b || le b a)
    (hR : l.Pairwise R) :
    (l.mergeSort le).Pairwise fun a b => le a b = true ∧ (le b a = true → R a b) := by
  rw [← List.mergeSort_zipIdx, List.pairwise_map]
  have hperm := List.mergeSort_perm l.zipIdx (List.zipIdxLE le)
  have hsorted := List.pairwise_mergeSort (List.zipIdxLE_trans trans) (List.zipIdxLE_total total)
    l.zipIdx
  -- positions are pairwise different
  have hpos : (l.zipIdx.mergeSort (List.zipIdxLE le)).Pairwise fun x y => x.2 ≠ y.2 := by
    refine hperm.symm.pairwise ?_ fun h => Ne.symm h
    have hnodup : (l.zipIdx.map Prod.snd).Nodup := by
      rw [List.zipIdx_map_snd]
      exact List.nodup_range'
    exact List.pairwise_map.1 hnodup
  refine (hsorted.and hpos).imp_of_mem ?_
  rintro ⟨a, i⟩ ⟨b, j⟩ ha hb ⟨hle, hne⟩
  obtain ⟨hi, hai⟩ : ∃ h : i < l.length, l[i] = a := by
    have h := List.mem_zipIdx (hperm.mem_iff.1 ha)
    exact ⟨by simpa using h.2.1, by simpa using h.2.2.symm⟩
  obtain ⟨hj, hbj⟩ : ∃ h : j < l.length, l[j] = b := by
    have h := List.mem_zipIdx (hperm.mem_iff.1 hb)
    exact ⟨by simpa using h.2.1, by simpa using h.2.2.symm⟩
  simp only [List.zipIdxLE] at hle
  by_cases hab : le a b = true
  · refine ⟨hab, fun hba => ?_⟩
    have hij : i < j := by
      have : i ≤ j := by simpa [hab, hba] using hle
      exact lt_of_le_of_ne this hne
    rw [← hai, ← hbj]
    exact List.pairwise_iff_getElem.1 hR i j hi hj hij
  · simp [hab] at hle

/-- The adjacent pairs of a list. -/
def neighbours : List α → List (α × α)
  | a :: b :: rest => (a, b) :: neighbours (b :: rest)
  | _ => []

theorem mem_neighbours_iff {a b : α} {xs : List α} :
    (a, b) ∈ neighbours xs ↔ ∃ l r, xs = l ++ a :: b :: r := by
  induction xs with
  | nil => simp [neighbours]
  | cons x xs ih =>
    cases xs with
    | nil =>
      simp only [neighbours, List.not_mem_nil, false_iff]
      rintro ⟨l, r, h⟩
      have := congrArg List.length h
      simp at this
      omega
    | cons y rest =>
      rw [neighbours, List.mem_cons, ih]
      constructor
      · rintro (h | ⟨l, r, h⟩)
        · obtain ⟨rfl, rfl⟩ := Prod.mk.injEq .. ▸ h
          exact ⟨[], rest, rfl⟩
        · exact ⟨x :: l, r, by rw [h]; rfl⟩
      · rintro ⟨l, r, h⟩
        cases l with
        | nil =>
          obtain ⟨rfl, rfl, rfl⟩ : x = a ∧ y = b ∧ rest = r := by simpa using h
          exact .inl rfl
        | cons z l => exact .inr ⟨l, r, (List.cons.injEq .. ▸ h).2⟩

/-- A transitive relation holds throughout a list when it holds of its neighbours. -/
theorem pairwise_iff_neighbours {R : α → α → Prop} (trans : ∀ {a b c}, R a b → R b c → R a c)
    {xs : List α} : xs.Pairwise R ↔ ∀ a b, (a, b) ∈ neighbours xs → R a b := by
  constructor
  · intro h a b hab
    obtain ⟨l, r, rfl⟩ := mem_neighbours_iff.1 hab
    exact List.rel_of_pairwise_cons (List.pairwise_append.1 h).2.1 List.mem_cons_self
  · intro h
    induction xs with
    | nil => exact .nil
    | cons x xs ih =>
      cases xs with
      | nil => exact List.pairwise_singleton R x
      | cons y rest =>
        have hrest := ih fun a b hab => h a b (List.mem_cons_of_mem _ hab)
        have hxy : R x y := h x y List.mem_cons_self
        refine List.pairwise_cons.2 ⟨fun z hz => ?_, hrest⟩
        rcases List.mem_cons.1 hz with rfl | hz
        · exact hxy
        · exact trans hxy (List.rel_of_pairwise_cons hrest hz)

section Split

variable {R : α → α → Prop} (hirr : ∀ a, ¬ R a a) (hasym : ∀ a b, R a b → ¬ R b a)
include hirr hasym

/-- In a list in strict order, what is before `e` is what stands left of it. -/
theorem before_iff_mem_left {l r : List α} {e x : α} (h : (l ++ e :: r).Pairwise R)
    (hx : x ∈ l ++ e :: r) : R x e ↔ x ∈ l := by
  obtain ⟨-, her, hle⟩ := List.pairwise_append.1 h
  constructor
  · intro hxe
    rcases List.mem_append.1 hx with hx | hx
    · exact hx
    · rcases List.mem_cons.1 hx with rfl | hx
      · exact absurd hxe (hirr _)
      · exact absurd hxe (hasym _ _ (List.rel_of_pairwise_cons her hx))
  · intro hxl
    exact hle x hxl e List.mem_cons_self

/-- And what is after `e` is what stands right of it. -/
theorem after_iff_mem_right {l r : List α} {e x : α} (h : (l ++ e :: r).Pairwise R)
    (hx : x ∈ l ++ e :: r) : R e x ↔ x ∈ r := by
  obtain ⟨-, her, hle⟩ := List.pairwise_append.1 h
  constructor
  · intro hex
    rcases List.mem_append.1 hx with hx | hx
    · exact absurd hex (hasym _ _ (hle x hx e List.mem_cons_self))
    · rcases List.mem_cons.1 hx with rfl | hx
      · exact absurd hex (hirr _)
      · exact hx
  · intro hxr
    exact List.rel_of_pairwise_cons her hxr

/-- The left neighbour of `e` is the element before it with nothing in between. -/
theorem leftNeighbour_iff {l r : List α} {e p : α} (h : (l ++ e :: r).Pairwise R)
    (hp : p ∈ l ++ e :: r) :
    (R p e ∧ ∀ q ∈ l ++ e :: r, ¬ (R p q ∧ R q e)) ↔ ∃ l', l = l' ++ [p] := by
  constructor
  · rintro ⟨hpe, hnone⟩
    have hpl := (before_iff_mem_left hirr hasym h hp).1 hpe
    obtain ⟨l₁, l₂, rfl⟩ := List.append_of_mem hpl
    cases l₂ with
    | nil => exact ⟨l₁, rfl⟩
    | cons q l₂ =>
      have hpw := h
      rw [List.append_assoc, List.cons_append, List.cons_append] at hpw
      obtain ⟨-, hpq, -⟩ := List.pairwise_append.1 hpw
      obtain ⟨hpq, hqe⟩ := List.pairwise_cons.1 hpq
      refine absurd ⟨hpq q List.mem_cons_self, ?_⟩ (hnone q (by simp))
      exact List.rel_of_pairwise_cons hqe (by simp)
  · rintro ⟨l', rfl⟩
    refine ⟨(before_iff_mem_left hirr hasym h hp).2 (by simp), ?_⟩
    rintro q hq ⟨hpq, hqe⟩
    rcases List.mem_append.1 ((before_iff_mem_left hirr hasym h hq).1 hqe) with hql | hqp
    · have hl' := (List.pairwise_append.1 (List.pairwise_append.1 h).1).2.2
      exact hasym _ _ hpq (hl' q hql p (by simp))
    · obtain rfl : q = p := by simpa using hqp
      exact hirr _ hpq

end Split

end ZipForensic
