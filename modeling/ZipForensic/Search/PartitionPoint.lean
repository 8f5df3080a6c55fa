import Mathlib.Data.List.Basic
import Mathlib.Order.Basic

/-!
# Binary search for a partition point

`partitionPoint p xs` bisects `xs` for the first index where `p` fails, looking
at a logarithmic number of elements. It is only meaningful when `xs` is
partitioned by `p` — every element satisfying `p` comes before every element
that does not — and then it is the index of the first element that fails `p`
(`partitionPoint_eq`).
-/

namespace ZipForensic

variable {α : Type}

/-- The elements that satisfy `p` come first. -/
def PartitionedBy (p : α → Bool) (xs : List α) : Prop :=
  xs.Pairwise fun a b => p b = true → p a = true

/-- Narrow the window of `size` elements at `base` down to one; `p` holds of
everything before `base`. -/
def bisect (p : Nat → Bool) : Nat → Nat → Nat → Nat
  | 0, base, _ => base
  | fuel + 1, base, size =>
    if size ≤ 1 then base
    else
      let half := size / 2
      let mid := base + half
      bisect p fuel (if p mid then mid else base) (size - half)

/-- `slice::partition_point`. -/
def partitionPoint (p : α → Bool) (xs : List α) : Nat :=
  if xs.length = 0 then 0
  else
    let holds := fun i => (xs[i]?.map p).getD false
    let base := bisect holds xs.length 0 xs.length
    if holds base then base + 1 else base

/-- The window keeps straddling the boundary `c`: everything below it satisfies
`p`, nothing from it on does. -/
theorem bisect_spec {p : Nat → Bool} {c : Nat} (hp : ∀ i, p i = decide (i < c))
    {fuel base size : Nat} (hfuel : size ≤ fuel) (hlow : base = 0 ∨ base < c)
    (hhigh : c ≤ base + size) (hsize : 0 < size) :
    bisect p fuel base size + (if p (bisect p fuel base size) then 1 else 0) = c := by
  induction fuel generalizing base size with
  | zero => omega
  | succ fuel ih =>
    rw [bisect]
    by_cases h1 : size ≤ 1
    · rw [if_pos h1, hp]
      by_cases hb : base < c
      · simp only [hb, decide_true, if_true]
        omega
      · simp only [hb, decide_false, Bool.false_eq_true, if_false]
        omega
    · rw [if_neg h1]
      by_cases hmid : base + size / 2 < c
      · simp only [hp (base + size / 2), hmid, decide_true, if_true]
        exact ih (by omega) (.inr hmid) (by omega) (by omega)
      · simp only [hp (base + size / 2), hmid, decide_false, Bool.false_eq_true, if_false]
        exact ih (by omega) hlow (by omega) (by omega)

/-- On a partitioned list, the first failing index is a threshold for `p`. -/
theorem partitioned_iff_lt {p : α → Bool} {xs : List α} (h : PartitionedBy p xs) (i : Nat) :
    (xs[i]?.map p).getD false = decide (i < xs.findIdx fun x => !p x) := by
  induction xs generalizing i with
  | nil => simp
  | cons x xs ih =>
    obtain ⟨hx, hxs⟩ := List.pairwise_cons.1 h
    rw [List.findIdx_cons]
    cases hpx : p x with
    | true =>
      cases i with
      | zero => simp [hpx]
      | succ i => simpa [hpx] using ih hxs i
    | false =>
      have hall : ∀ y ∈ x :: xs, p y = false := by
        intro y hy
        rcases List.mem_cons.1 hy with rfl | hy
        · exact hpx
        · exact Bool.eq_false_iff.2 fun hpy => by simpa [hpx] using hx y hy hpy
      have hi : ((x :: xs)[i]?.map p).getD false = false := by
        rcases hget : (x :: xs)[i]? with _ | y
        · rfl
        · exact hall y (List.mem_of_getElem? hget)
      simp [hi]

/-- On a partitioned list the bisection finds the first element that fails `p`. -/
theorem partitionPoint_eq {p : α → Bool} {xs : List α} (h : PartitionedBy p xs) :
    partitionPoint p xs = xs.findIdx fun x => !p x := by
  unfold partitionPoint
  by_cases hlen : xs.length = 0
  · rw [if_pos hlen, List.length_eq_zero_iff.1 hlen]
    rfl
  · rw [if_neg hlen]
    have hspec := bisect_spec (partitioned_iff_lt h) (Nat.le_refl xs.length) (.inl rfl)
      (by simpa using List.findIdx_le_length) (by omega)
    dsimp only
    rw [← hspec]
    split_ifs <;> rfl

end ZipForensic
