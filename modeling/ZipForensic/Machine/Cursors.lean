import Mathlib.Logic.Function.Basic
import ZipForensic.Machine.Memoryless

/-!
# Clients with a position of their own

A machine serves contents by position: `ask i off len` is the call of client `i` for `len`
symbols at `off`. Every client keeps what it got so far, asks for what comes next, and they
take turns in any order, among calls of others. On a memoryless machine that serves client
`i` from `data i`, each of them has got the front of its content that it asked for
(`Memoryless.run_turns`): no client sees the others.
-/

namespace ZipForensic

universe u v w x

variable {ι : Type x} {C : Type u} {S : Type v} {A : Type w} {α : Type}

/-- The front of a content and what comes next are a longer front. -/
theorem take_append_next (data : List α) (n len : Nat) :
    data.take n ++ (data.drop (data.take n).length).take len = data.take (n + len) := by
  rw [List.length_take]
  rcases Nat.le_total n data.length with h | h
  · rw [Nat.min_eq_left h, List.take_add]
  · rw [Nat.min_eq_right h, List.drop_length, List.take_nil, List.append_nil,
      List.take_of_length_le h, List.take_of_length_le (Nat.le_trans h (Nat.le_add_right ..))]

/-- Client `i` reads `len` symbols where it stands, or somebody makes a call. -/
inductive Turn (ι : Type x) (C : Type u)
  | read (i : ι) (len : Nat)
  | call (c : C)

namespace Turn

variable [DecidableEq ι]

/-- How much client `i` asks for in a run. -/
def requested (i : ι) : List (Turn ι C) → Nat
  | [] => 0
  | .read j len :: turns => (if i = j then len else 0) + requested i turns
  | .call _ :: turns => requested i turns

theorem requested_cons (i : ι) (turn : Turn ι C) (turns : List (Turn ι C)) :
    requested i (turn :: turns) = requested i [turn] + requested i turns := by
  cases turn with
  | read j len => rfl
  | call c => exact (Nat.zero_add _).symm

variable (step : C → S → A × S) (ask : ι → Nat → Nat → C) (symbols : A → List α)

/-- One turn: the machine, and what each client got so far. -/
def take : Turn ι C → S × (ι → List α) → S × (ι → List α)
  | .read i len, (s, got) =>
    let r := step (ask i (got i).length len) s
    (r.2, Function.update got i (got i ++ symbols r.1))
  | .call c, (s, got) => ((step c s).2, got)

def run (turns : List (Turn ι C)) (x : S × (ι → List α)) : S × (ι → List α) :=
  turns.foldl (fun x turn => turn.take step ask symbols x) x

end Turn

namespace Memoryless

variable [DecidableEq ι] {step : C → S → A × S} {I : S → Prop} {fresh : C → A}
  {ask : ι → Nat → Nat → C} {symbols : A → List α} {data : ι → List α}

/-- What a turn makes of clients that have fronts of their contents. -/
theorem take_turn (h : Memoryless step I fresh)
    (hserves : ∀ i off len, symbols (fresh (ask i off len)) = ((data i).drop off).take len)
    (turn : Turn ι C) {s : S} (hs : I s) (n : ι → Nat) :
    I (turn.take step ask symbols (s, fun i => (data i).take (n i))).1 ∧
      (turn.take step ask symbols (s, fun i => (data i).take (n i))).2 =
        fun i => (data i).take (n i + Turn.requested i [turn]) := by
  cases turn with
  | read i len =>
    refine ⟨h.keeps _ s hs, funext fun j => ?_⟩
    show Function.update (fun i => (data i).take (n i)) i
      ((data i).take (n i) ++ symbols (step (ask i ((data i).take (n i)).length len) s).1) j = _
    rw [h.answer _ s hs, hserves, take_append_next]
    by_cases hj : j = i
    · subst hj
      rw [Function.update_self, Turn.requested, if_pos rfl]
      rfl
    · rw [Function.update_of_ne hj, Turn.requested, if_neg hj]
      rfl
  | call c => exact ⟨h.keeps c s hs, rfl⟩

/-- **No client sees the others**: after any run each one has got the front of its content
that it asked for. -/
theorem run_turns (h : Memoryless step I fresh)
    (hserves : ∀ i off len, symbols (fresh (ask i off len)) = ((data i).drop off).take len)
    (turns : List (Turn ι C)) {s : S} (hs : I s) (n : ι → Nat) :
    I (Turn.run step ask symbols turns (s, fun i => (data i).take (n i))).1 ∧
      (Turn.run step ask symbols turns (s, fun i => (data i).take (n i))).2 =
        fun i => (data i).take (n i + Turn.requested i turns) := by
  induction turns generalizing s n with
  | nil => exact ⟨hs, rfl⟩
  | cons turn turns ih =>
    obtain ⟨hs', hgot⟩ := h.take_turn hserves turn hs n
    have hrest := ih hs' fun i => n i + Turn.requested i [turn]
    rw [← hgot] at hrest
    simp only [Turn.requested_cons _ turn turns, ← Nat.add_assoc]
    exact hrest

end Memoryless

end ZipForensic
