import ZipForensic.Core.Error

/-!
# The bounds-checked little-endian reader (bytes.rs)

`Reader` walks a byte slice forward and fails with `Truncated` instead of
reading past its end. The state is the part of the slice not yet consumed, so
the source's `remaining()` is its length and its `pos` is implied.

The lemmas run a read against a concatenation whose first block is the field
that is read: a header built field by field is parsed by rewriting.
-/

namespace ZipForensic

/-- Parsing from a slice; the state is its unread part. -/
abbrev Reader (α : Type) := StateT Bytes (Except FormatError) α

namespace Reader

variable {α β : Type}

/-- Bytes not yet consumed. -/
def remaining : Reader Nat := fun data => .ok (data.length, data)

/-- Consume `n` bytes, or fail if fewer remain. -/
def take (n : Nat) : Reader Bytes := fun data =>
  if n ≤ data.length then .ok (data.take n, data.drop n) else .error .truncated

def skip (n : Nat) : Reader Unit := do
  let _ ← take n

def u16 : Reader Nat := do
  let b ← take 2
  return leNat b

def u32 : Reader Nat := do
  let b ← take 4
  return leNat b

def u64 : Reader Nat := do
  let b ← take 8
  return leNat b

/-- Run on a slice. -/
def runOn (x : Reader α) (data : Bytes) : Except FormatError (α × Bytes) := StateT.run x data

@[simp] theorem runOn_pure (a : α) (data : Bytes) : runOn (pure a) data = .ok (a, data) := rfl

@[simp] theorem runOn_throw (e : FormatError) (data : Bytes) :
    runOn (throw e : Reader α) data = .error e := rfl

theorem runOn_bind (x : Reader α) (f : α → Reader β) (data : Bytes) :
    runOn (x >>= f) data =
      match runOn x data with
      | .ok (a, rest) => runOn (f a) rest
      | .error e => .error e := by
  unfold runOn
  rw [StateT.run_bind]
  rcases StateT.run x data with e | ⟨a, rest⟩ <;> rfl

theorem runOn_bind_ok {x : Reader α} {data rest : Bytes} {a : α} (f : α → Reader β)
    (h : runOn x data = .ok (a, rest)) : runOn (x >>= f) data = runOn (f a) rest := by
  rw [runOn_bind, h]

@[simp] theorem runOn_remaining (data : Bytes) :
    runOn remaining data = .ok (data.length, data) := rfl

theorem runOn_take (n : Nat) (data : Bytes) :
    runOn (take n) data =
      if n ≤ data.length then .ok (data.take n, data.drop n) else .error .truncated := rfl

/-! ## Reading a field off the front -/

theorem runOn_take_append {x : Bytes} {n : Nat} (h : x.length = n) (rest : Bytes) :
    runOn (take n) (x ++ rest) = .ok (x, rest) := by
  subst h
  simp [runOn_take]

theorem runOn_u16_bytes {x : Bytes} (h : x.length = 2) (rest : Bytes) :
    runOn u16 (x ++ rest) = .ok (leNat x, rest) := by
  rw [u16, runOn_bind_ok _ (runOn_take_append h rest), runOn_pure]

theorem runOn_u32_bytes {x : Bytes} (h : x.length = 4) (rest : Bytes) :
    runOn u32 (x ++ rest) = .ok (leNat x, rest) := by
  rw [u32, runOn_bind_ok _ (runOn_take_append h rest), runOn_pure]

theorem runOn_u64_bytes {x : Bytes} (h : x.length = 8) (rest : Bytes) :
    runOn u64 (x ++ rest) = .ok (leNat x, rest) := by
  rw [u64, runOn_bind_ok _ (runOn_take_append h rest), runOn_pure]

theorem runOn_u16_append {v : Nat} (h : v < 2 ^ 16) (rest : Bytes) :
    runOn u16 (leBytes 2 v ++ rest) = .ok (v, rest) := by
  rw [runOn_u16_bytes (length_leBytes 2 v), leNat_leBytes h]

theorem runOn_u32_append {v : Nat} (h : v < 2 ^ 32) (rest : Bytes) :
    runOn u32 (leBytes 4 v ++ rest) = .ok (v, rest) := by
  rw [runOn_u32_bytes (length_leBytes 4 v), leNat_leBytes h]

theorem runOn_u64_append {v : Nat} (h : v < 2 ^ 64) (rest : Bytes) :
    runOn u64 (leBytes 8 v ++ rest) = .ok (v, rest) := by
  rw [runOn_u64_bytes (length_leBytes 8 v), leNat_leBytes h]

/-! ## Reading a field at an offset -/

theorem runOn_take_at {b : Bytes} {i n : Nat} (h : i + n ≤ b.length) :
    runOn (take n) (b.drop i) = .ok (slice b i n, b.drop (i + n)) := by
  rw [runOn_take, if_pos (by rw [List.length_drop]; omega), List.drop_drop]
  rfl

theorem runOn_u16_at {b : Bytes} {i : Nat} (h : i + 2 ≤ b.length) :
    runOn u16 (b.drop i) = .ok (leNat (slice b i 2), b.drop (i + 2)) := by
  rw [u16, runOn_bind_ok _ (runOn_take_at h), runOn_pure]

theorem runOn_take_at_short {b : Bytes} {i n : Nat} (h : b.length - i < n) :
    runOn (take n) (b.drop i) = .error .truncated := by
  rw [runOn_take, if_neg (by rw [List.length_drop]; omega)]

theorem runOn_u16_at_short {b : Bytes} {i : Nat} (h : b.length < i + 2) :
    runOn u16 (b.drop i) = .error .truncated := by
  rw [u16, runOn_bind, runOn_take_at_short (by omega)]

theorem runOn_u32_at {b : Bytes} {i : Nat} (h : i + 4 ≤ b.length) :
    runOn u32 (b.drop i) = .ok (leNat (slice b i 4), b.drop (i + 4)) := by
  rw [u32, runOn_bind_ok _ (runOn_take_at h), runOn_pure]

theorem runOn_u64_at {b : Bytes} {i : Nat} (h : i + 8 ≤ b.length) :
    runOn u64 (b.drop i) = .ok (leNat (slice b i 8), b.drop (i + 8)) := by
  rw [u64, runOn_bind_ok _ (runOn_take_at h), runOn_pure]

theorem runOn_u64_at_short {b : Bytes} {i : Nat} (h : b.length < i + 8) :
    runOn u64 (b.drop i) = .error .truncated := by
  rw [u64, runOn_bind, runOn_take_at_short (by omega)]

end Reader

end ZipForensic
