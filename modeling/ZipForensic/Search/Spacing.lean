import ZipForensic.Search.PartitionPoint

/-!
# Marks along a range, and the nearest one below

Marks are set along `0, 1, …` at places that some source proposes one after the other: a
place past the last mark becomes a mark (`marks`), any other one is dropped.

- `spaced_iff`: every place of the range has a mark at most `gap` below it iff each place
  proposed, and the end of the range, is at most `gap + 1` past the furthest one before.
- `partitionPoint_nearest`: bisection over marks in order finds the nearest one.
-/

namespace ZipForensic

/-- The places that lie past `last` and past every place proposed before them. -/
def marks : Nat → List Nat → List Nat
  | _, [] => []
  | last, p :: ps => if last < p then p :: marks p ps else marks last ps

/-- Each place, and then the end of the range, is at most `gap + 1` past the furthest place
before it. A place past the end counts as the end. -/
def Spaced (gap size : Nat) : Nat → List Nat → Prop
  | last, [] => size ≤ last + gap + 1
  | last, p :: ps => min p size ≤ last + gap + 1 ∧ Spaced gap size (max last p) ps

instance (gap size : Nat) : ∀ last ps, Decidable (Spaced gap size last ps)
  | last, [] => inferInstanceAs (Decidable (size ≤ last + gap + 1))
  | last, p :: ps =>
    have := instDecidableSpaced gap size (max last p) ps
    inferInstanceAs (Decidable (min p size ≤ last + gap + 1 ∧ Spaced gap size (max last p) ps))

theorem lt_of_mem_marks {last : Nat} {ps : List Nat} : ∀ m ∈ marks last ps, last < m := by
  induction ps generalizing last with
  | nil => exact List.forall_mem_nil _
  | cons p ps ih =>
    rw [marks]
    split_ifs with h
    · exact List.forall_mem_cons.2 ⟨h, fun m hm => Nat.lt_trans h (ih m hm)⟩
    · exact ih

/-- The marks are in order. -/
theorem marks_sorted (last : Nat) (ps : List Nat) : (last :: marks last ps).Pairwise (· < ·) := by
  induction ps generalizing last with
  | nil => exact List.pairwise_singleton _ _
  | cons p ps ih =>
    rw [marks]
    split_ifs with hp
    · refine List.pairwise_cons.2 ⟨?_, ih p⟩
      exact List.forall_mem_cons.2 ⟨hp, fun m hm => Nat.lt_trans hp (lt_of_mem_marks m hm)⟩
    · exact ih last

/-- **The spacing of the marks.** -/
theorem spaced_iff {gap size last : Nat} {ps : List Nat} :
    (∀ o, last ≤ o → o < size → ∃ m ∈ last :: marks last ps, m ≤ o ∧ o ≤ m + gap) ↔
      Spaced gap size last ps := by
  induction ps generalizing last with
  | nil =>
    simp only [marks, List.mem_singleton, exists_eq_left, Spaced]
    constructor
    · intro h
      by_contra hlt
      have hlast := (h (size - 1) (by omega) (by omega)).2
      omega
    · intro h o ho hsize
      exact ⟨ho, by omega⟩
  | cons p ps ih =>
    rw [Spaced, marks]
    by_cases hp : last < p
    · rw [if_pos hp, Nat.max_eq_right (Nat.le_of_lt hp), ← ih]
      constructor
      · intro h
        refine ⟨?_, fun o ho hsize => ?_⟩
        · by_contra hlt
          obtain ⟨m, hm, hmo, hom⟩ := h (min p size - 1) (by omega) (by omega)
          rcases List.mem_cons.1 hm with rfl | hm
          · omega
          · -- the marks behind `last` lie at `p` or past it
            have hpm : p ≤ m := by
              rcases List.mem_cons.1 hm with rfl | hm
              · exact Nat.le_refl _
              · exact Nat.le_of_lt (lt_of_mem_marks m hm)
            omega
        · obtain ⟨m, hm, hmo, hom⟩ := h o (by omega) hsize
          rcases List.mem_cons.1 hm with rfl | hm
          · exact ⟨p, List.mem_cons_self, ho, by omega⟩
          · exact ⟨m, hm, hmo, hom⟩
      · -- below `p` the last mark is near enough, from `p` on the induction hypothesis has one
        rintro ⟨hreach, h⟩ o ho hsize
        by_cases hop : o < p
        · exact ⟨last, List.mem_cons_self, ho, by omega⟩
        · obtain ⟨m, hm, hmo⟩ := h o (Nat.not_lt.1 hop) hsize
          exact ⟨m, List.mem_cons_of_mem _ hm, hmo⟩
    · -- a place behind the last mark is dropped, and reaches no further
      rw [if_neg hp, Nat.max_eq_left (Nat.not_lt.1 hp), ← ih]
      exact ⟨fun h => ⟨by omega, h⟩, fun h => h.2⟩

/-- Bisection finds the nearest mark at or below a place. -/
theorem partitionPoint_nearest {α : Type} {f : α → Nat} {xs : List α} {o : Nat}
    (hsorted : xs.Pairwise fun a b => f a < f b) (hsome : ∃ x ∈ xs, f x ≤ o) :
    ∃ x ∈ xs, xs[partitionPoint (fun x => decide (f x ≤ o)) xs - 1]? = some x ∧ f x ≤ o ∧
      ∀ y ∈ xs, f y ≤ o → f y ≤ f x := by
  have hpart : PartitionedBy (fun x => decide (f x ≤ o)) xs :=
    hsorted.imp fun hlt hle => decide_eq_true (Nat.le_trans (Nat.le_of_lt hlt) (of_decide_eq_true hle))
  rw [partitionPoint_eq hpart]
  generalize hc : (xs.findIdx fun x => !decide (f x ≤ o)) = c
  have hbelow : ∀ i (hi : i < xs.length), f xs[i] ≤ o ↔ i < c := by
    intro i hi
    have hlt := partitioned_iff_lt hpart i
    rw [hc, List.getElem?_eq_getElem hi] at hlt
    exact decide_eq_decide.1 hlt
  obtain ⟨x, hx, hxo⟩ := hsome
  obtain ⟨i, hi, rfl⟩ := List.mem_iff_getElem.1 hx
  have hic := (hbelow i hi).1 hxo
  have hcl : c ≤ xs.length := hc ▸ List.findIdx_le_length
  have hlast : c - 1 < xs.length := by omega
  refine ⟨xs[c - 1], List.getElem_mem hlast, List.getElem?_eq_getElem hlast,
    (hbelow _ hlast).2 (by omega), fun y hy hyo => ?_⟩
  obtain ⟨j, hj, rfl⟩ := List.mem_iff_getElem.1 hy
  have hjc := (hbelow j hj).1 hyo
  rcases Nat.lt_or_eq_of_le (show j ≤ c - 1 by omega) with hlt | heq
  · exact Nat.le_of_lt (List.pairwise_iff_getElem.1 hsorted j (c - 1) hj hlast hlt)
  · simp only [heq, Nat.le_refl]

end ZipForensic
