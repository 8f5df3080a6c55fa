import ZipForensic.Cipher.Lfsr

/-!
# Bursts of errors and shift registers

Two messages of bits that differ in at most `w` consecutive places leave a register of `w`
bits in different states, provided the polynomial has its top bit.

- `feedBit_injective`: the bit that fell out is the top bit of what it fed back, so a shift
  can be undone and nothing that follows the burst makes up for it (`foldl_feedBit_injective`).
- `eq_of_foldl_feedBit`: the burst itself is in the register as it was written.
-/

namespace ZipForensic

/-- Two messages that differ in at most `w` consecutive places. -/
def Burst {α : Type} (w : Nat) (xs ys : List α) : Prop :=
  ∃ p x y s, xs = p ++ x ++ s ∧ ys = p ++ y ++ s ∧ x.length = y.length ∧ x.length ≤ w

namespace Lfsr

variable {w : Nat} {poly : BitVec w}

theorem getLsbD_feedback_top (htop : poly.getLsbD (w - 1) = true) (bit : Bool) :
    (feedback poly bit).getLsbD (w - 1) = bit := by
  cases bit with
  | true => exact htop
  | false => exact BitVec.getLsbD_zero

/-- A shift can be undone. -/
theorem feedBit_injective (hw : 0 < w) (htop : poly.getLsbD (w - 1) = true) (bit : Bool) :
    Function.Injective fun c => feedBit poly c bit := by
  intro c d h
  have hfeed : ∀ x : BitVec w, (feedBit poly x bit).getLsbD (w - 1) = (x.getLsbD 0 ^^ bit) := by
    intro x
    have hout : 1 + (w - 1) = w := by omega
    rw [feedBit, BitVec.getLsbD_xor, BitVec.getLsbD_ushiftRight, hout,
      BitVec.getLsbD_of_ge x w (Nat.le_refl w), getLsbD_feedback_top htop, Bool.false_xor]
  have hlow : c.getLsbD 0 = d.getLsbD 0 := by
    have hbit : (c.getLsbD 0 ^^ bit) = (d.getLsbD 0 ^^ bit) := by
      rw [← hfeed, ← hfeed]
      exact congrArg (BitVec.getLsbD · (w - 1)) h
    exact Bool.xor_left_inj.1 hbit
  have hhigh : c >>> 1 = d >>> 1 := by
    have heq : feedBit poly c bit = feedBit poly d bit := h
    rw [feedBit, feedBit, hlow] at heq
    exact (BitVec.xor_left_inj _).1 heq
  refine BitVec.eq_of_getLsbD_eq fun i _ => ?_
  cases i with
  | zero => exact hlow
  | succ i =>
    have hbit := congrArg (BitVec.getLsbD · i) hhigh
    rw [BitVec.getLsbD_ushiftRight, BitVec.getLsbD_ushiftRight, Nat.add_comm] at hbit
    exact hbit

theorem foldl_feedBit_injective (hw : 0 < w) (htop : poly.getLsbD (w - 1) = true)
    (bits : List Bool) : Function.Injective fun c => bits.foldl (feedBit poly) c := by
  induction bits with
  | nil => exact Function.injective_id
  | cons bit bits ih => exact ih.comp (feedBit_injective hw htop bit)

/-- The word that a message of at most `w` bits is, lowest bit first. -/
def wordOf (w : Nat) (bits : List Bool) : BitVec w := (BitVec.ofBoolListLE bits).setWidth w

theorem lowBits_wordOf {bits : List Bool} (hle : bits.length ≤ w) :
    lowBits bits.length (wordOf w bits) = bits := by
  rw [wordOf, lowBits_setWidth hle]
  refine List.ext_getElem (by simp [lowBits]) fun i _ hi => ?_
  simp only [lowBits, List.getElem_map, List.getElem_range, BitVec.getLsbD_ofBoolListLE]
  simp [hi]

theorem wordOf_ushiftRight (bits : List Bool) : wordOf w bits >>> bits.length = 0#w := by
  refine BitVec.eq_of_getLsbD_eq fun i _ => ?_
  have hout : bits.getD (bits.length + i) false = false := by simp
  rw [BitVec.getLsbD_ushiftRight, wordOf, BitVec.getLsbD_setWidth, BitVec.getLsbD_ofBoolListLE,
    hout, Bool.and_false, BitVec.getLsbD_zero]

/-- Feeding at most `w` bits is putting them into the register and shifting. -/
theorem foldl_feedBit_wordOf {bits : List Bool} (hle : bits.length ≤ w) (c : BitVec w) :
    bits.foldl (feedBit poly) c = (step poly)^[bits.length] (c ^^^ wordOf w bits) := by
  rw [← foldl_feedBit, wordOf_ushiftRight, BitVec.xor_zero, lowBits_wordOf hle]

/-- At most `w` bits can be read off the register they were fed to. -/
theorem eq_of_foldl_feedBit (hw : 0 < w) (htop : poly.getLsbD (w - 1) = true) {c : BitVec w}
    {x y : List Bool} (hlen : x.length = y.length) (hle : x.length ≤ w)
    (h : x.foldl (feedBit poly) c = y.foldl (feedBit poly) c) : x = y := by
  have hstep : Function.Injective (step poly) := by
    have hfeed := feedBit_injective hw htop false
    simp only [feedBit, Bool.xor_false] at hfeed
    exact hfeed
  rw [foldl_feedBit_wordOf hle, foldl_feedBit_wordOf (hlen ▸ hle), hlen] at h
  have hword : wordOf w x = wordOf w y := (BitVec.xor_right_inj _).1 (hstep.iterate _ h)
  calc x = lowBits x.length (wordOf w x) := (lowBits_wordOf hle).symm
    _ = lowBits y.length (wordOf w y) := by rw [hword, hlen]
    _ = y := lowBits_wordOf (hlen ▸ hle)

/-- **Bursts are noticed**: what follows the burst cannot make up for it. -/
theorem eq_of_burst (hw : 0 < w) (htop : poly.getLsbD (w - 1) = true) {c : BitVec w}
    {xs ys : List Bool} (hburst : Burst w xs ys)
    (h : xs.foldl (feedBit poly) c = ys.foldl (feedBit poly) c) : xs = ys := by
  obtain ⟨p, x, y, s, rfl, rfl, hlen, hle⟩ := hburst
  simp only [List.foldl_append] at h
  rw [eq_of_foldl_feedBit hw htop hlen hle (foldl_feedBit_injective hw htop s h)]

end Lfsr

end ZipForensic
