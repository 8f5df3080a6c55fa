/-!
# Machines whose answers do not depend on their history

A machine answers calls and moves on: `step c s` is the answer to the call `c` in
the state `s`, and the next state. It may well keep things — a position, a cache
— and still answer every call as if it were the first. `Memoryless step I fresh`
says so with an invariant `I` that every call keeps and that fixes the answers;
`runCalls_eq` carries it over whole runs.
-/

namespace ZipForensic

universe u v w

variable {C : Type u} {S : Type v} {A : Type w}

/-- The answers to a sequence of calls, and the state after them. -/
def runCalls (step : C → S → A × S) : List C → S → List A × S
  | [], s => ([], s)
  | c :: cs, s =>
    let r := step c s
    let rest := runCalls step cs r.2
    (r.1 :: rest.1, rest.2)

/-- Under the invariant `I` the answer to a call is `fresh` of it. -/
structure Memoryless (step : C → S → A × S) (I : S → Prop) (fresh : C → A) : Prop where
  answer : ∀ c s, I s → (step c s).1 = fresh c
  keeps : ∀ c s, I s → I (step c s).2

namespace Memoryless

variable {step : C → S → A × S} {I : S → Prop} {fresh : C → A}

/-- The invariant holds after every run. -/
theorem runCalls_keeps (h : Memoryless step I fresh) (cs : List C) {s : S} (hs : I s) :
    I (runCalls step cs s).2 := by
  induction cs generalizing s with
  | nil => exact hs
  | cons c cs ih => exact ih (h.keeps c s hs)

/-- Every call of a run is answered as the first one is. -/
theorem runCalls_eq (h : Memoryless step I fresh) (cs : List C) {s : S} (hs : I s) :
    (runCalls step cs s).1 = cs.map fresh := by
  induction cs generalizing s with
  | nil => rfl
  | cons c cs ih =>
    show (step c s).1 :: (runCalls step cs (step c s).2).1 = fresh c :: cs.map fresh
    rw [h.answer c s hs, ih (h.keeps c s hs)]

end Memoryless

end ZipForensic
