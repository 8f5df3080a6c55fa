import Mathlib.Algebra.BigOperators.Group.List.Basic
import Mathlib.Algebra.Order.BigOperators.Ring.Finset

/-!
# Ranges that follow one another

- `sum_le_of_follow`: ranges of which each ends before the next one starts are together no
  longer than what they lie in.
- `sum_map_le_of_nodup`: some positions of a list, each taken once, weigh no more than all.
-/

namespace ZipForensic

universe u

variable {α : Type u}

theorem sum_le_of_follow (start stop : α → Nat) (lo hi : Nat) {xs : List α}
    (hin : ∀ x ∈ xs, lo ≤ start x ∧ start x ≤ stop x ∧ stop x ≤ hi)
    (hfollow : xs.Pairwise fun x y => stop x ≤ start y) :
    (xs.map fun x => stop x - start x).sum ≤ hi - lo := by
  induction xs generalizing lo with
  | nil => exact Nat.zero_le _
  | cons x xs ih =>
    obtain ⟨hlo, hle, hhi⟩ := hin x (List.mem_cons_self ..)
    obtain ⟨hbehind, hfollow⟩ := List.pairwise_cons.1 hfollow
    have hrest : (xs.map fun x => stop x - start x).sum ≤ hi - stop x :=
      ih (stop x) (fun y hy => ⟨hbehind y hy, (hin y (List.mem_cons_of_mem _ hy)).2⟩) hfollow
    rw [List.map_cons, List.sum_cons]
    omega

theorem sum_map_le_of_nodup {weight : α → Nat} {xs : List α} {is : List Nat} (his : is.Nodup)
    (hin : ∀ i ∈ is, i < xs.length) :
    (is.map fun i => (xs[i]?.map weight).getD 0).sum ≤ (xs.map weight).sum := by
  have hall : (List.range xs.length).map (fun i => (xs[i]?.map weight).getD 0) = xs.map weight := by
    refine List.ext_getElem (by simp) fun i hi _ => ?_
    have hlt : i < xs.length := by simpa using hi
    simp [hlt]
  rw [← hall, ← List.sum_toFinset _ his, ← List.sum_toFinset _ List.nodup_range]
  refine Finset.sum_le_sum_of_subset fun i hi => ?_
  rw [List.mem_toFinset, List.mem_range]
  exact hin i (List.mem_toFinset.1 hi)

end ZipForensic
