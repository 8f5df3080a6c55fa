import Mathlib.Algebra.Group.Nat.Defs
import Mathlib.Logic.Function.Iterate

/-!
# Shift registers with feedback, and reflected CRCs

- `Lfsr.step`: one shift of a register over a polynomial, `Lfsr.feedBit`: one shift with a
  bit of a message. Both are linear (`step_xor`), so a register is its high bits, which only
  move down, and its low bits, which feed back (`iterate_step_split`).
- `Lfsr.feed`: the bits of a word, lowest first. It is the same to put the word into the
  register at once and to shift (`foldl_feedBit`).
-/

namespace ZipForensic

namespace Lfsr

variable {w : Nat} (poly : BitVec w)

/-- The bit that falls out feeds back. -/
def feedback (bit : Bool) : BitVec w := if bit then poly else 0#w

/-- One shift. -/
def step (c : BitVec w) : BitVec w := (c >>> 1) ^^^ feedback poly (c.getLsbD 0)

/-- One shift, with a bit of the message added to the one that falls out. -/
def feedBit (c : BitVec w) (bit : Bool) : BitVec w :=
  (c >>> 1) ^^^ feedback poly (c.getLsbD 0 ^^ bit)

/-- The `n` low bits of a word, the lowest first. -/
def lowBits (n : Nat) (x : BitVec w) : List Bool := (List.range n).map x.getLsbD

theorem feedback_xor (a b : Bool) :
    feedback poly (a ^^ b) = feedback poly a ^^^ feedback poly b := by
  cases a <;> cases b <;> simp [feedback]

/-- A shift is linear. -/
theorem step_xor (x y : BitVec w) : step poly (x ^^^ y) = step poly x ^^^ step poly y := by
  unfold step
  rw [BitVec.ushiftRight_xor_distrib, BitVec.getLsbD_xor, feedback_xor]
  ac_rfl

theorem iterate_step_xor (n : Nat) (x y : BitVec w) :
    (step poly)^[n] (x ^^^ y) = (step poly)^[n] x ^^^ (step poly)^[n] y := by
  induction n generalizing x y with
  | zero => rfl
  | succ n ih => rw [Function.iterate_succ_apply, step_xor, ih]; rfl

theorem step_of_even {c : BitVec w} (h : c.getLsbD 0 = false) : step poly c = c >>> 1 := by
  rw [step, h, feedback, if_neg (by decide), BitVec.xor_zero]

/-- Without low bits nothing feeds back. -/
theorem iterate_step_of_low {n : Nat} {c : BitVec w} (h : ∀ i < n, c.getLsbD i = false) :
    (step poly)^[n] c = c >>> n := by
  induction n generalizing c with
  | zero => rw [BitVec.ushiftRight_zero]; rfl
  | succ n ih =>
    have hnext : ∀ i < n, (c >>> 1).getLsbD i = false := fun i hi => by
      rw [BitVec.getLsbD_ushiftRight]
      exact h (1 + i) (by omega)
    rw [Function.iterate_succ_apply, step_of_even poly (h 0 (Nat.zero_lt_succ n)), ih hnext,
      Nat.add_comm, BitVec.shiftRight_add]

/-- The word with the `n` low bits set. -/
def lowMask (n : Nat) : BitVec w := BitVec.ofNat w (2 ^ n - 1)

theorem getLsbD_lowMask (n i : Nat) :
    (lowMask n : BitVec w).getLsbD i = (decide (i < w) && decide (i < n)) := by
  rw [lowMask, BitVec.getLsbD_ofNat, Nat.testBit_two_pow_sub_one]

/-- Masking keeps the low bits. -/
theorem and_lowMask (n : Nat) (x : BitVec w) : x &&& lowMask n = (x.setWidth n).setWidth w := by
  refine BitVec.eq_of_getLsbD_eq fun i hi => ?_
  rw [BitVec.getLsbD_and, getLsbD_lowMask, BitVec.getLsbD_setWidth, BitVec.getLsbD_setWidth,
    Bool.and_left_comm, Bool.and_comm (x.getLsbD i)]

/-- A word is its high bits and its low bits. -/
theorem high_xor_low (n : Nat) (c : BitVec w) :
    (c &&& ~~~lowMask n) ^^^ (c &&& lowMask n) = c := by
  refine BitVec.eq_of_getLsbD_eq fun i hi => ?_
  rw [BitVec.getLsbD_xor, BitVec.getLsbD_and, BitVec.getLsbD_and, BitVec.getLsbD_not]
  cases c.getLsbD i <;> cases (lowMask n : BitVec w).getLsbD i <;> simp [hi]

theorem high_ushiftRight (n : Nat) (c : BitVec w) : (c &&& ~~~lowMask n) >>> n = c >>> n := by
  refine BitVec.eq_of_getLsbD_eq fun i hi => ?_
  have hhigh : ¬ n + i < n := by omega
  rw [BitVec.getLsbD_ushiftRight, BitVec.getLsbD_ushiftRight, BitVec.getLsbD_and,
    BitVec.getLsbD_not, getLsbD_lowMask]
  by_cases hw : n + i < w
  · simp [hw]
  · simp [hw, BitVec.getLsbD_of_ge c (n + i) (Nat.le_of_not_lt hw)]

/-- Over `n` shifts the high bits only move down; what feeds back are the `n` low bits. -/
theorem iterate_step_split (n : Nat) (c : BitVec w) :
    (step poly)^[n] c = (c >>> n) ^^^ (step poly)^[n] (c &&& lowMask n) := by
  have hlow : ∀ i < n, (c &&& ~~~lowMask n).getLsbD i = false := fun i hi => by
    rw [BitVec.getLsbD_and, BitVec.getLsbD_not, getLsbD_lowMask]
    simp [hi]
  -- the two parts are shifted on their own, as a shift is linear
  calc (step poly)^[n] c
      = (step poly)^[n] ((c &&& ~~~lowMask n) ^^^ (c &&& lowMask n)) := by rw [high_xor_low]
    _ = (c >>> n) ^^^ (step poly)^[n] (c &&& lowMask n) := by
      rw [iterate_step_xor, iterate_step_of_low poly hlow, high_ushiftRight]

theorem lowBits_succ (n : Nat) (x : BitVec w) :
    lowBits (n + 1) x = x.getLsbD 0 :: lowBits n (x >>> 1) := by
  rw [lowBits, lowBits, List.range_succ_eq_map, List.map_cons, List.map_map]
  refine congrArg _ (List.map_congr_left fun i _ => ?_)
  rw [BitVec.getLsbD_ushiftRight, Nat.add_comm]
  rfl

theorem lowBits_setWidth {v n : Nat} (h : n ≤ w) (x : BitVec v) :
    lowBits n (x.setWidth w) = lowBits n x := by
  refine List.map_congr_left fun i hi => ?_
  have hi := List.mem_range.mp hi
  rw [BitVec.getLsbD_setWidth]
  simp [Nat.lt_of_lt_of_le hi h]

/-- A shift of a register with a message in it feeds the first bit of the message. -/
theorem step_xor_message (c x : BitVec w) :
    step poly (c ^^^ x) = feedBit poly c (x.getLsbD 0) ^^^ (x >>> 1) := by
  rw [step, feedBit, BitVec.ushiftRight_xor_distrib, BitVec.getLsbD_xor]
  ac_rfl

/-- Feeding the bits of a message one after the other, and shifting a register that has
the message in it: the same, up to the bits that are not fed. -/
theorem foldl_feedBit (n : Nat) (c x : BitVec w) :
    (lowBits n x).foldl (feedBit poly) c ^^^ (x >>> n) = (step poly)^[n] (c ^^^ x) := by
  induction n generalizing c x with
  | zero => rw [BitVec.ushiftRight_zero]; rfl
  | succ n ih =>
    rw [lowBits_succ, List.foldl_cons, Function.iterate_succ_apply, step_xor_message, ← ih,
      ← BitVec.shiftRight_add, Nat.add_comm 1 n]

end Lfsr

end ZipForensic
