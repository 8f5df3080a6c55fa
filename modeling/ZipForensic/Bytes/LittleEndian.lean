import Mathlib.Data.List.Basic
import Mathlib.Algebra.Group.Basic
import Mathlib.Tactic.NormNum

/-!
# Little-endian fields and slices of byte strings

The two vocabularies every binary record format is read and written with:

- `leBytes w v` / `leNat`: a number as exactly `w` bytes, least significant
  first, and back (`leNat_leBytes`, exact below `256 ^ w`);
- `slice b off len`: the `len` bytes at offset `off`, with the laws that move a
  slice across a concatenation (`slice_append_right`, `slice_append_left`) — the
  bookkeeping of "the same bytes, `n` positions further on".
-/

namespace ZipForensic

/-- A byte string. -/
abbrev Bytes := List UInt8

/-! ## Fixed-width little-endian numbers -/

/-- The `w` little-endian bytes of `v`; what does not fit is dropped. -/
def leBytes : Nat → Nat → Bytes
  | 0, _ => []
  | w + 1, v => UInt8.ofNat (v % 256) :: leBytes w (v / 256)

/-- The number a little-endian byte string denotes. -/
def leNat : Bytes → Nat
  | [] => 0
  | b :: bs => b.toNat + 256 * leNat bs

@[simp] theorem length_leBytes (w v : Nat) : (leBytes w v).length = w := by
  induction w generalizing v with
  | zero => rfl
  | succ w ih => simp [leBytes, ih]

theorem leNat_lt (b : Bytes) : leNat b < 256 ^ b.length := by
  induction b with
  | nil => simp [leNat]
  | cons x xs ih =>
    have hx : x.toNat < 256 := x.toNat_lt
    rw [leNat, List.length_cons, pow_succ]
    omega

/-- Reading back a number that fits its width. -/
theorem leNat_leBytes {w v : Nat} (h : v < 256 ^ w) : leNat (leBytes w v) = v := by
  induction w generalizing v with
  | zero =>
    have hv : v = 0 := by simpa using h
    rw [hv]
    rfl
  | succ w ih =>
    have hq : v / 256 < 256 ^ w := by
      rw [pow_succ, Nat.mul_comm] at h
      exact Nat.div_lt_of_lt_mul h
    have hb : (UInt8.ofNat (v % 256)).toNat = v % 256 := by
      rw [UInt8.toNat_ofNat']
      exact Nat.mod_eq_of_lt (Nat.mod_lt _ (by norm_num))
    rw [leBytes, leNat, ih hq, hb]
    omega

theorem leBytes_leNat (b : Bytes) : leBytes b.length (leNat b) = b := by
  induction b with
  | nil => rfl
  | cons x xs ih =>
    have hx : x.toNat < 256 := x.toNat_lt
    have hlow : (x.toNat + 256 * leNat xs) % 256 = x.toNat := by omega
    have hhigh : (x.toNat + 256 * leNat xs) / 256 = leNat xs := by omega
    rw [leNat, List.length_cons, leBytes, hlow, hhigh, ih, UInt8.ofNat_toNat]

/-! ## Slices -/

/-- The (at most) `len` bytes of `b` from offset `off` on. -/
def slice (b : Bytes) (off len : Nat) : Bytes := (b.drop off).take len

theorem leNat_slice_lt (b : Bytes) (off n : Nat) : leNat (slice b off n) < 256 ^ n := by
  refine Nat.lt_of_lt_of_le (leNat_lt _) (Nat.pow_le_pow_right (by omega) ?_)
  rw [slice, List.length_take]
  exact Nat.min_le_left _ _

theorem length_slice {b : Bytes} {off len : Nat} (h : off + len ≤ b.length) :
    (slice b off len).length = len := by
  rw [slice, List.length_take, List.length_drop]
  omega

/-- Behind a prefix every slice sits `p.length` further on. -/
theorem slice_append_right (p b : Bytes) (off len : Nat) :
    slice (p ++ b) (p.length + off) len = slice b off len := by
  rw [slice, slice, ← List.drop_drop, List.drop_left]

/-- What is appended behind a slice does not change it. -/
theorem slice_append_left {b : Bytes} (t : Bytes) {off len : Nat} (h : off + len ≤ b.length) :
    slice (b ++ t) off len = slice b off len := by
  rw [slice, slice, List.drop_append_of_le_length (by omega),
    List.take_append_of_le_length (by rw [List.length_drop]; omega)]

/-- The slice that is a middle block of a concatenation. -/
theorem slice_middle (a b c : Bytes) : slice (a ++ (b ++ c)) a.length b.length = b := by
  simp [slice]

/-- The slice in front of a concatenation. -/
theorem slice_front (a b : Bytes) : slice (a ++ b) 0 a.length = a := by
  rw [slice, List.drop_zero, List.take_left]

/-- Reading the field in front. -/
theorem leNat_field {w v : Nat} (h : v < 256 ^ w) (b : Bytes) :
    leNat (slice (leBytes w v ++ b) 0 w) = v := by
  have hfront := slice_front (leBytes w v) b
  rw [length_leBytes] at hfront
  rw [hfront, leNat_leBytes h]

theorem leNat_last_field {w v : Nat} (h : v < 256 ^ w) : leNat (slice (leBytes w v) 0 w) = v := by
  have hfield := leNat_field h []
  rwa [List.append_nil] at hfield

/-- Behind a field. -/
theorem slice_field (w v : Nat) (b : Bytes) (off len : Nat) :
    slice (leBytes w v ++ b) (off + w) len = slice b off len := by
  have hbehind := slice_append_right (leBytes w v) b off len
  rwa [length_leBytes, Nat.add_comm] at hbehind

theorem slice_take {b : Bytes} {off len n : Nat} (h : n ≤ len) :
    (slice b off len).take n = slice b off n := by
  rw [slice, slice, List.take_take, Nat.min_eq_left h]

/-- A slice of a slice. -/
theorem slice_slice {b : Bytes} {off len i n : Nat} (h : i + n ≤ len) :
    slice (slice b off len) i n = slice b (off + i) n := by
  rw [slice, slice, List.drop_take, List.drop_drop, List.take_take, Nat.min_eq_left (by omega)]
  rfl

theorem slice_drop {b : Bytes} {off len n : Nat} :
    (slice b off len).drop n = slice b (off + n) (len - n) := by
  rw [slice, slice, List.drop_take, List.drop_drop]

/-- Two consecutive slices. -/
theorem slice_add (b : Bytes) (off m n : Nat) :
    slice b off m ++ slice b (off + m) n = slice b off (m + n) := by
  rw [slice, slice, slice, ← List.drop_drop, List.take_add]

end ZipForensic
