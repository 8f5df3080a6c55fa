import Mathlib.Data.List.Nodup
import Mathlib.Data.List.Perm.Basic
import Mathlib.Data.List.Range
import Mathlib.Data.List.Infix

/-!
# Tables of paths

A tree kept as a table: position `i` stands for the node whose path from the
root is `paths[i]`. `PathTable` carries what makes the table a tree — the root
comes first, no path comes twice, and a node comes after its parent — and grows
one path at a time (`push`). The children of a node are then not data but a
function of the table (`childIds`), and the tree laws are facts about it:

- `perm_childIds`: the children lists, put together, hold every position but
  the root's exactly once;
- `lt_of_mem_childIds`: a parent comes before its children;
- `mem_of_append`: a front of a path in the table is in the table.

The last section is about joining the components of a path with a separator.
-/

namespace ZipForensic

universe u

variable {α : Type u}

/-- A table of paths, parents before children. -/
structure PathTable (α : Type u) where
  paths : List (List α)
  root : paths[0]? = some []
  nodup : paths.Nodup
  parent_before : ∀ (i : Nat) (p : List α) (a : α), paths[i]? = some (p ++ [a]) →
    ∃ j < i, paths[j]? = some p

namespace PathTable

theorem single_parent_before (i : Nat) (p : List α) (a : α)
    (h : [([] : List α)][i]? = some (p ++ [a])) : ∃ j < i, [([] : List α)][j]? = some p := by
  cases i with
  | zero => simp at h
  | succ i => simp at h

/-- The root alone. -/
def single : PathTable α where
  paths := [[]]
  root := rfl
  nodup := List.nodup_singleton _
  parent_before := single_parent_before

/-- The number of nodes. -/
def size (t : PathTable α) : Nat := t.paths.length

@[simp] theorem size_single : (single : PathTable α).size = 1 := rfl

theorem lt_size {t : PathTable α} {i : Nat} {p : List α} (h : t.paths[i]? = some p) :
    i < t.size :=
  (List.getElem?_eq_some_iff.1 h).1

theorem size_pos (t : PathTable α) : 0 < t.size := lt_size t.root

theorem mem_of_getElem? {t : PathTable α} {i : Nat} {p : List α} (h : t.paths[i]? = some p) :
    p ∈ t.paths :=
  List.mem_of_getElem? h

/-- One position for each path. -/
theorem getElem?_inj {t : PathTable α} {i j : Nat} {p : List α} (hi : t.paths[i]? = some p)
    (hj : t.paths[j]? = some p) : i = j :=
  (List.getElem?_inj (lt_size hi) t.nodup).1 (hi.trans hj.symm)

/-- Position 0 is the root, and only it. -/
theorem eq_nil_iff {t : PathTable α} {i : Nat} {p : List α} (h : t.paths[i]? = some p) :
    p = [] ↔ i = 0 := by
  constructor
  · rintro rfl
    exact getElem?_inj h t.root
  · rintro rfl
    exact Option.some.inj (h.symm.trans t.root)

/-! ## Growing a table -/

section Push

variable (t : PathTable α) {i : Nat} {p : List α} {a : α}

theorem getElem?_push (q : List α) (j : Nat) :
    (t.paths ++ [q])[j]? = if j = t.size then some q else t.paths[j]? := by
  rcases Nat.lt_trichotomy j t.size with h | h | h
  · rw [List.getElem?_append_left h, if_neg (Nat.ne_of_lt h)]
  · subst h
    simp [size]
  · have hlen : t.paths.length ≤ j := Nat.le_of_lt h
    rw [if_neg (Nat.ne_of_gt h), List.getElem?_eq_none hlen, List.getElem?_eq_none]
    rw [List.length_append, List.length_singleton]
    exact h

theorem push_parent_before (hp : t.paths[i]? = some p) (k : Nat) (q : List α) (b : α)
    (h : (t.paths ++ [p ++ [a]])[k]? = some (q ++ [b])) :
    ∃ j < k, (t.paths ++ [p ++ [a]])[j]? = some q := by
  rw [getElem?_push] at h
  by_cases hk : k = t.size
  · rw [if_pos hk] at h
    obtain ⟨rfl, -⟩ := List.append_inj' (Option.some.inj h) rfl
    have hi := lt_size hp
    refine ⟨i, by omega, ?_⟩
    rw [getElem?_push, if_neg (by omega), hp]
  · rw [if_neg hk] at h
    obtain ⟨j, hj, hq⟩ := t.parent_before k q b h
    have := lt_size hq
    refine ⟨j, hj, ?_⟩
    rw [getElem?_push, if_neg (by omega), hq]

theorem push_nodup {q : List α} (hq : q ∉ t.paths) : (t.paths ++ [q]).Nodup := by
  rw [← List.concat_eq_append]
  exact t.nodup.concat hq

theorem push_root (q : List α) : (t.paths ++ [q])[0]? = some [] := by
  rw [getElem?_push, if_neg (Nat.ne_of_lt t.size_pos), t.root]

/-- Add a child of node `i`. -/
def push (hp : t.paths[i]? = some p) (ha : p ++ [a] ∉ t.paths) : PathTable α where
  paths := t.paths ++ [p ++ [a]]
  root := t.push_root _
  nodup := t.push_nodup ha
  parent_before := t.push_parent_before hp

end Push

/-! ## Closure under prefixes -/

theorem exists_parent {t : PathTable α} {i : Nat} {p : List α} {a : α}
    (h : t.paths[i]? = some (p ++ [a])) : ∃ j < i, t.paths[j]? = some p :=
  t.parent_before i p a h

theorem mem_of_append {t : PathTable α} {p : List α} (q : List α) (h : p ++ q ∈ t.paths) :
    p ∈ t.paths := by
  induction q using List.reverseRecOn with
  | nil => simpa using h
  | append_singleton q a ih =>
    rw [← List.append_assoc] at h
    obtain ⟨i, hi⟩ := List.getElem?_of_mem h
    obtain ⟨j, -, hj⟩ := exists_parent hi
    exact ih (mem_of_getElem? hj)

/-! ## Children -/

section Children

variable [DecidableEq α]

/-- The positions of the children of the node at `p`, in table order. -/
def childIds (t : PathTable α) (p : List α) : List Nat :=
  (List.range t.size).filter fun j =>
    t.paths[j]?.any fun q => decide (q ≠ [] ∧ q.dropLast = p)

omit [DecidableEq α] in
theorem ne_nil_and_dropLast_eq {p q : List α} :
    (q ≠ [] ∧ q.dropLast = p) ↔ ∃ a, q = p ++ [a] := by
  constructor
  · rintro ⟨hq, rfl⟩
    exact ⟨q.getLast hq, (List.dropLast_append_getLast hq).symm⟩
  · rintro ⟨a, rfl⟩
    exact ⟨by simp, by simp⟩

theorem mem_childIds {t : PathTable α} {p : List α} {j : Nat} :
    j ∈ t.childIds p ↔ ∃ a, t.paths[j]? = some (p ++ [a]) := by
  simp only [childIds, List.mem_filter, List.mem_range, Option.any_eq_true, decide_eq_true_eq,
    ne_nil_and_dropLast_eq]
  constructor
  · rintro ⟨-, q, hq, a, rfl⟩
    exact ⟨a, hq⟩
  · rintro ⟨a, h⟩
    exact ⟨lt_size h, _, h, a, rfl⟩

theorem nodup_childIds (t : PathTable α) (p : List α) : (t.childIds p).Nodup :=
  List.nodup_range.filter _

/-- A parent comes before its children. -/
theorem lt_of_mem_childIds {t : PathTable α} {p : List α} {i j : Nat}
    (hi : t.paths[i]? = some p) (hj : j ∈ t.childIds p) : i < j := by
  obtain ⟨a, ha⟩ := mem_childIds.1 hj
  obtain ⟨i', hlt, hi'⟩ := exists_parent ha
  rwa [getElem?_inj hi hi']

/-- What is not in the table has no children. -/
theorem childIds_eq_nil {t : PathTable α} {p : List α} (h : p ∉ t.paths) : t.childIds p = [] := by
  refine List.eq_nil_iff_forall_not_mem.2 fun j hj => h ?_
  obtain ⟨a, ha⟩ := mem_childIds.1 hj
  exact mem_of_append [a] (mem_of_getElem? ha)

/-- A new child goes to the end of its parent's list and changes no other. -/
theorem childIds_push (t : PathTable α) {i : Nat} {p : List α} {a : α}
    (hp : t.paths[i]? = some p) (ha : p ++ [a] ∉ t.paths) (q : List α) :
    (t.push hp ha).childIds q =
      if q = p then t.childIds q ++ [t.size] else t.childIds q := by
  have hsize : (t.push hp ha).size = t.size + 1 := by simp [size, push]
  -- the old positions are judged as before
  have hold : (List.range t.size).filter (fun j =>
      (t.push hp ha).paths[j]?.any fun r => decide (r ≠ [] ∧ r.dropLast = q)) = t.childIds q := by
    refine List.filter_congr fun j hj => ?_
    have hj := List.mem_range.1 hj
    show ((t.paths ++ [p ++ [a]])[j]?.any _) = _
    rw [getElem?_push, if_neg (Nat.ne_of_lt hj)]
  have hnew : (t.push hp ha).paths[t.size]? = some (p ++ [a]) := by
    show (t.paths ++ [p ++ [a]])[t.size]? = _
    rw [getElem?_push, if_pos rfl]
  rw [childIds, hsize, List.range_succ, List.filter_append, hold]
  by_cases hq : q = p
  · simp [hq, hnew]
  · have hq' : p ≠ q := fun h => hq h.symm
    simp [hq, hq', hnew]

/-- The children lists of all nodes hold every position but the root's, each
exactly once. -/
theorem perm_childIds (t : PathTable α) :
    (t.paths.flatMap t.childIds).Perm (List.range' 1 (t.size - 1)) := by
  have hdisjoint : t.paths.Pairwise fun p q => List.Disjoint (t.childIds p) (t.childIds q) := by
    refine t.nodup.imp fun hne j hp hq => hne ?_
    obtain ⟨a, ha⟩ := mem_childIds.1 hp
    obtain ⟨b, hb⟩ := mem_childIds.1 hq
    exact (List.append_inj' (Option.some.inj (ha.symm.trans hb)) rfl).1
  have hnodup : (t.paths.flatMap t.childIds).Nodup :=
    List.nodup_flatMap.2 ⟨fun p _ => t.nodup_childIds p, hdisjoint⟩
  refine (List.perm_ext_iff_of_nodup hnodup List.nodup_range').2 fun j => ?_
  rw [List.mem_flatMap, List.mem_range'_1]
  constructor
  · rintro ⟨p, hp, hj⟩
    obtain ⟨i, hi⟩ := List.getElem?_of_mem hp
    have hlt := lt_of_mem_childIds hi hj
    obtain ⟨a, ha⟩ := mem_childIds.1 hj
    have hsize := lt_size ha
    omega
  · rintro ⟨h1, h2⟩
    have hj : j < t.paths.length := by have := t.size_pos; unfold size at *; omega
    obtain ⟨p, a, hpa⟩ : ∃ p a, t.paths[j] = p ++ [a] := by
      have hne : t.paths[j] ≠ [] := by
        intro hnil
        have := (eq_nil_iff (List.getElem?_eq_getElem hj)).1 hnil
        omega
      exact ⟨_, _, (List.dropLast_append_getLast hne).symm⟩
    have hpath : t.paths[j]? = some (p ++ [a]) := by rw [List.getElem?_eq_getElem hj, hpa]
    exact ⟨p, mem_of_append [a] (mem_of_getElem? hpath), mem_childIds.2 ⟨a, hpath⟩⟩

end Children

end PathTable

/-! ## Joined paths -/

section Joined

variable {β : Type u} [DecidableEq β]

/-- Joining with `sep` tells paths apart whose components are nonempty and do
not contain it. -/
theorem intercalate_injective {sep : β} {p q : List (List β)}
    (hp : ∀ c ∈ p, c ≠ [] ∧ sep ∉ c) (hq : ∀ c ∈ q, c ≠ [] ∧ sep ∉ c)
    (h : [sep].intercalate p = [sep].intercalate q) : p = q := by
  have hsplit : ∀ {r : List (List β)}, (∀ c ∈ r, c ≠ [] ∧ sep ∉ c) → r ≠ [] →
      ([sep].intercalate r).splitOn sep = r :=
    fun hr hne => List.splitOn_intercalate sep (fun c hc => (hr c hc).2) hne
  -- the empty path is joined to the empty list, and splits as one empty component
  have hnil : ∀ {r : List (List β)}, (∀ c ∈ r, c ≠ [] ∧ sep ∉ c) →
      [sep].intercalate r = [] → r = [] := by
    intro r hr hjoin
    by_contra hne
    have hone := hsplit hr hne
    rw [hjoin] at hone
    have hmem : [] ∈ r := by rw [← hone]; simp
    exact (hr [] hmem).1 rfl
  by_cases hpn : p = []
  · subst hpn
    exact (hnil hq (by simpa using h.symm)).symm
  · by_cases hqn : q = []
    · subst hqn
      exact absurd (hnil hp (by simpa using h)) hpn
    · rw [← hsplit hp hpn, h, hsplit hq hqn]

end Joined

end ZipForensic
