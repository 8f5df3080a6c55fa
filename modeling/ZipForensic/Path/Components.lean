import Mathlib.Data.List.Basic
import Mathlib.Data.List.Infix

/-!
# Paths as lists of components

A name is split at its separators, the components are pushed onto a path one by
one, and the path is resolved lexically.

- `not_mem_of_mem_splitOnP`: a component contains no separator.
- `isPrefix_component_iff`: a word without separators starts a component exactly
  when it starts the name or stands right behind a separator.
- `resolve_append`: components that do not go up resolve to themselves, below what
  they are joined onto.
- `pushAll_eq_append_iff`: where pushing some components replaces the path, joining
  appends exactly when none of these is pushed.
-/

namespace ZipForensic

universe u

variable {α : Type u}

/-! ## Splitting at separators -/

section Split

variable {p : α → Bool}

theorem not_mem_of_mem_splitOnPPrepend {x : α} (hx : p x = true)
    {xs acc c : List α} (hacc : x ∉ acc) (hc : c ∈ xs.splitOnPPrepend p acc) : x ∉ c := by
  induction xs generalizing acc with
  | nil =>
    rw [List.splitOnPPrepend_nil, List.mem_singleton] at hc
    rwa [hc, List.mem_reverse]
  | cons y ys ih =>
    cases hy : p y with
    | true =>
      rw [List.splitOnPPrepend_cons_pos hy, List.mem_cons] at hc
      rcases hc with rfl | hc
      · rwa [List.mem_reverse]
      · exact ih List.not_mem_nil hc
    | false =>
      rw [List.splitOnPPrepend_cons_neg hy] at hc
      have hne : x ≠ y := by
        rintro rfl
        exact absurd hx (by simp [hy])
      exact ih (List.not_mem_cons_of_ne_of_not_mem hne hacc) hc

/-- A component contains no separator. -/
theorem not_mem_of_mem_splitOnP {x : α} (hx : p x = true) {xs c : List α}
    (hc : c ∈ xs.splitOnP p) : x ∉ c :=
  not_mem_of_mem_splitOnPPrepend hx List.not_mem_nil hc

/-- The first component and the later ones: a word without separators starts the first
when it starts the list, and a later one when it stands behind a separator. -/
theorem splitOnP_eq_cons (xs : List α) :
    ∃ first rest, xs.splitOnP p = first :: rest ∧ ∀ w : List α, (∀ x ∈ w, p x = false) →
      (w <+: first ↔ w <+: xs) ∧
        ((∃ c ∈ rest, w <+: c) ↔ ∃ s, p s = true ∧ (s :: w) <:+: xs) := by
  induction xs with
  | nil => exact ⟨[], [], List.splitOnP_nil, fun w _ => ⟨Iff.rfl, by simp⟩⟩
  | cons x xs ih =>
    obtain ⟨first, rest, hsplit, ih⟩ := ih
    rw [List.splitOnP_cons_eq_if_modifyHead, hsplit]
    cases hx : p x with
    | true =>
      refine ⟨[], first :: rest, rfl, fun w hw => ⟨?_, ?_⟩⟩
      · cases w with
        | nil => simp
        | cons y w =>
          have hne : y ≠ x := by
            rintro rfl
            simp [hw y List.mem_cons_self] at hx
          simp [List.cons_prefix_cons, hne]
      · constructor
        · rintro ⟨c, hc, hwc⟩
          rcases List.mem_cons.1 hc with rfl | hc
          · exact ⟨x, hx, (List.cons_prefix_cons.2 ⟨rfl, (ih w hw).1.1 hwc⟩).isInfix⟩
          · obtain ⟨s, hs, hsw⟩ := (ih w hw).2.1 ⟨c, hc, hwc⟩
            exact ⟨s, hs, List.infix_cons hsw⟩
        · rintro ⟨s, hs, hsw⟩
          rcases List.infix_cons_iff.1 hsw with hstart | hlater
          · have hwx := (List.cons_prefix_cons.1 hstart).2
            exact ⟨first, List.mem_cons_self, (ih w hw).1.2 hwx⟩
          · obtain ⟨c, hc, hwc⟩ := (ih w hw).2.2 ⟨s, hs, hlater⟩
            exact ⟨c, List.mem_cons_of_mem _ hc, hwc⟩
    | false =>
      refine ⟨x :: first, rest, rfl, fun w hw => ⟨?_, ?_⟩⟩
      · cases w with
        | nil => simp
        | cons y w =>
          have hw' : ∀ z ∈ w, p z = false := fun z hz => hw z (List.mem_cons_of_mem _ hz)
          rw [List.cons_prefix_cons, List.cons_prefix_cons, (ih w hw').1]
      · rw [(ih w hw).2]
        constructor
        · rintro ⟨s, hs, hsw⟩
          exact ⟨s, hs, List.infix_cons hsw⟩
        · rintro ⟨s, hs, hsw⟩
          refine ⟨s, hs, (List.infix_cons_iff.1 hsw).resolve_left fun hstart => ?_⟩
          obtain ⟨rfl, -⟩ := List.cons_prefix_cons.1 hstart
          simp [hs] at hx

/-- A word without separators starts a component when it starts the list or stands
right behind a separator. -/
theorem isPrefix_component_iff {w : List α} (hw : ∀ x ∈ w, p x = false) (xs : List α) :
    (∃ c ∈ xs.splitOnP p, w <+: c) ↔ w <+: xs ∨ ∃ s, p s = true ∧ (s :: w) <:+: xs := by
  obtain ⟨first, rest, hsplit, hword⟩ := splitOnP_eq_cons (p := p) xs
  rw [hsplit, List.exists_mem_cons_iff, (hword w hw).1, (hword w hw).2]

end Split

/-! ## Lexical resolution -/

section Resolve

variable (here up : α → Prop) [DecidablePred here] [DecidablePred up]

/-- One component of a path: `here` stays where it is, `up` goes back to the parent. -/
def resolveStep (out : List α) (c : α) : List α :=
  if here c then out else if up c then out.dropLast else out ++ [c]

/-- Resolve a path without looking at the file system. -/
def resolve (path : List α) : List α := path.foldl (resolveStep here up) []

/-- Components that do not go up stay below what they are joined onto. -/
theorem resolve_append {path : List α} (hpath : ∀ c ∈ path, ¬ here c ∧ ¬ up c) (dest : List α) :
    resolve here up (dest ++ path) = resolve here up dest ++ path := by
  rw [resolve, resolve, List.foldl_append]
  generalize dest.foldl (resolveStep here up) [] = out
  induction path generalizing out with
  | nil => exact (List.append_nil out).symm
  | cons c path ih =>
    obtain ⟨hhere, hup⟩ := hpath c List.mem_cons_self
    have hc : resolveStep here up out c = out ++ [c] := by
      rw [resolveStep, if_neg hhere, if_neg hup]
    rw [List.foldl_cons, hc, ih fun d hd => hpath d (List.mem_cons_of_mem _ hd),
      List.append_assoc, List.singleton_append]

end Resolve

/-! ## Pushing components -/

section Push

variable (replaces : α → Prop) [DecidablePred replaces]

/-- Push one component: some replace the path built so far. -/
def pushStep (out : List α) (c : α) : List α := if replaces c then [c] else out ++ [c]

/-- Push components one by one. -/
def pushAll (dest path : List α) : List α := path.foldl (pushStep replaces) dest

theorem length_pushAll_le (dest path : List α) :
    (pushAll replaces dest path).length ≤ dest.length + path.length := by
  induction path generalizing dest with
  | nil => exact Nat.le_refl _
  | cons c path ih =>
    have hstep : (pushStep replaces dest c).length ≤ dest.length + 1 := by
      unfold pushStep
      split_ifs
      · simp
      · simp
    have hrest := ih (pushStep replaces dest c)
    rw [pushAll, List.foldl_cons, ← pushAll, List.length_cons]
    omega

/-- Pushing joins below every destination exactly when nothing pushed replaces it. -/
theorem pushAll_eq_append_iff (path : List α) :
    (∀ dest, pushAll replaces dest path = dest ++ path) ↔ ∀ c ∈ path, ¬ replaces c := by
  constructor
  · intro hjoin c hc hreplaces
    obtain ⟨l, r, rfl⟩ := List.append_of_mem hc
    -- what stands before `c` is lost, so the result is too short
    have hlost : pushAll replaces [c] (l ++ c :: r) = pushAll replaces [c] r := by
      rw [pushAll, List.foldl_append, List.foldl_cons, pushStep, if_pos hreplaces, ← pushAll]
    have hlen := length_pushAll_le replaces [c] r
    rw [← hlost, hjoin] at hlen
    simp only [List.length_append, List.length_cons, List.length_nil] at hlen
    omega
  · intro hkeep
    induction path with
    | nil => exact fun dest => (List.append_nil dest).symm
    | cons c path ih =>
      intro dest
      have hc : pushStep replaces dest c = dest ++ [c] := if_neg (hkeep c List.mem_cons_self)
      have hpath := ih (fun d hd => hkeep d (List.mem_cons_of_mem _ hd)) (dest ++ [c])
      rw [pushAll, List.foldl_cons, hc, ← pushAll, hpath, List.append_assoc,
        List.singleton_append]

end Push

end ZipForensic
