import Mathlib.Data.List.Basic

/-!
# Stream ciphers with a counter

The keystream is a function of the position alone, and every symbol is combined with the
one at its position (`combined`). A message may be cut anywhere, as long as the positions
go on (`combined_append`), and a combination that cancels itself decrypts what it
encrypted (`combined_combined`).
-/

namespace ZipForensic

universe u v

variable {α : Type u} {β : Type v}

/-- The symbols of a message, combined with the keystream from position `pos` on. -/
def combined (f : α → β → α) (stream : Nat → β) (pos : Nat) (xs : List α) : List α :=
  List.zipWith f xs ((List.range xs.length).map fun i => stream (pos + i))

variable (f : α → β → α) (stream : Nat → β)

@[simp] theorem length_combined (pos : Nat) (xs : List α) :
    (combined f stream pos xs).length = xs.length := by
  simp [combined]

theorem getElem_combined (pos : Nat) (xs : List α) (i : Nat)
    (hi : i < (combined f stream pos xs).length) (hi' : i < xs.length) :
    (combined f stream pos xs)[i] = f xs[i] (stream (pos + i)) := by
  simp [combined]

/-- The second part of a message continues at the position behind the first. -/
theorem combined_append (pos : Nat) (xs ys : List α) :
    combined f stream pos (xs ++ ys) =
      combined f stream pos xs ++ combined f stream (pos + xs.length) ys := by
  refine List.ext_getElem (by simp) fun i hi _ => ?_
  rw [length_combined, List.length_append] at hi
  rw [getElem_combined f stream pos _ i _ (by rw [List.length_append]; exact hi)]
  by_cases hfront : i < xs.length
  · rw [List.getElem_append_left hfront,
      List.getElem_append_left (by rw [length_combined]; exact hfront), getElem_combined]
  · have hback : i - xs.length < ys.length := by omega
    rw [List.getElem_append_right (Nat.le_of_not_lt hfront),
      List.getElem_append_right (by rw [length_combined]; exact Nat.le_of_not_lt hfront)]
    simp only [length_combined]
    rw [getElem_combined f stream _ ys _ _ hback]
    congr 2
    omega

variable {f}

/-- A keystream that cancels itself, twice. -/
theorem combined_combined (hcancel : ∀ a b, f (f a b) b = a) (pos : Nat) (xs : List α) :
    combined f stream pos (combined f stream pos xs) = xs := by
  refine List.ext_getElem (by simp) fun i hi hi' => ?_
  rw [getElem_combined f stream pos _ i hi (by rw [length_combined]; exact hi'),
    getElem_combined f stream pos xs i _ hi', hcancel]

end ZipForensic
