import ZipForensic.Bytes.LittleEndian

/-!
# Stored blocks of a DEFLATE stream (RFC 1951)

A reference inflater for the part of DEFLATE that stored blocks make up, read the
way the format defines it: as a sequence of bits packed least significant first.

- `bitsOf`: the bits of a byte string.
- `inflateStored`: block after block — `BFINAL`, `BTYPE`, the skip to a byte
  boundary, `LEN`, its complement `NLEN`, and `LEN` bytes — up to the final
  block, stopping at the first block that is not stored.
- `inflateStoredBits_bytes`: what one round does on a byte boundary, in terms of
  bytes. Stored blocks never leave the boundary, so a reader of whole bytes can
  follow the reference from one round to the next.
-/

namespace ZipForensic

/-! ## Bits -/

/-- The `w` low bits of `v`, least significant first. -/
def natBits : Nat → Nat → List Bool
  | 0, _ => []
  | w + 1, v => decide (v % 2 = 1) :: natBits w (v / 2)

/-- The number a bit string denotes, least significant bit first. -/
def bitsToNat : List Bool → Nat
  | [] => 0
  | b :: bs => b.toNat + 2 * bitsToNat bs

/-- The bits of a byte string, each byte from its least significant bit. -/
def bitsOf (bytes : Bytes) : List Bool := bytes.flatMap fun b => natBits 8 b.toNat

@[simp] theorem length_natBits (w v : Nat) : (natBits w v).length = w := by
  induction w generalizing v with
  | zero => rfl
  | succ w ih => simp [natBits, ih]

theorem bitsToNat_natBits (w v : Nat) : bitsToNat (natBits w v) = v % 2 ^ w := by
  induction w generalizing v with
  | zero => rw [natBits, bitsToNat, pow_zero, Nat.mod_one]
  | succ w ih =>
    have hbit : (decide (v % 2 = 1)).toNat = v % 2 := by
      rcases Nat.mod_two_eq_zero_or_one v with h | h <;> simp [h]
    rw [natBits, bitsToNat, ih, hbit, pow_succ, Nat.mul_comm (2 ^ w) 2, Nat.mod_mul]

theorem natBits_add (w w' v : Nat) : natBits (w + w') v = natBits w v ++ natBits w' (v / 2 ^ w) := by
  induction w generalizing v with
  | zero => simp [natBits]
  | succ w ih =>
    rw [Nat.succ_add, natBits, natBits, ih, List.cons_append, Nat.div_div_eq_div_mul, pow_succ,
      Nat.mul_comm 2]

theorem bitsToNat_append (a b : List Bool) :
    bitsToNat (a ++ b) = bitsToNat a + 2 ^ a.length * bitsToNat b := by
  induction a with
  | nil => simp [bitsToNat]
  | cons x xs ih =>
    rw [List.cons_append, bitsToNat, bitsToNat, ih, List.length_cons, pow_succ, Nat.mul_add,
      ← Nat.add_assoc, Nat.mul_comm (2 ^ xs.length) 2, Nat.mul_assoc]

@[simp] theorem bitsOf_nil : bitsOf [] = [] := rfl

@[simp] theorem bitsOf_cons (b : UInt8) (bs : Bytes) :
    bitsOf (b :: bs) = natBits 8 b.toNat ++ bitsOf bs := rfl

@[simp] theorem bitsOf_append (a b : Bytes) : bitsOf (a ++ b) = bitsOf a ++ bitsOf b :=
  List.flatMap_append

@[simp] theorem length_bitsOf (bytes : Bytes) : (bitsOf bytes).length = 8 * bytes.length := by
  induction bytes with
  | nil => rfl
  | cons b bs ih => simp [ih]; omega

theorem bitsToNat_bitsOf (bytes : Bytes) : bitsToNat (bitsOf bytes) = leNat bytes := by
  induction bytes with
  | nil => rfl
  | cons b bs ih =>
    rw [bitsOf_cons, bitsToNat_append, bitsToNat_natBits, length_natBits, ih, leNat,
      Nat.mod_eq_of_lt b.toNat_lt]
    norm_num

/-! ## The reference -/

/-- The next `n` bits as a number. -/
def takeBits (n : Nat) (bits : List Bool) : Option (Nat × List Bool) :=
  if n ≤ bits.length then some (bitsToNat (bits.take n), bits.drop n) else none

/-- Skip to the next byte boundary of a stream that ends on one. -/
def alignByte (bits : List Bool) : List Bool := bits.drop (bits.length % 8)

/-- The next `n` bytes. -/
def takeBytes : Nat → List Bool → Option (Bytes × List Bool)
  | 0, bits => some ([], bits)
  | n + 1, bits => do
    let (v, bits) ← takeBits 8 bits
    let (bytes, bits) ← takeBytes n bits
    return (UInt8.ofNat v :: bytes, bits)

/-- How inflating the stored blocks at the front of a stream ends. -/
inductive Inflated
  /-- The final block was stored: all output, and the bits behind the stream. -/
  | done (output : Bytes) (rest : List Bool)
  /-- A block that is not stored, before any final one. -/
  | nonStored
  /-- A stored block whose length fields disagree. -/
  | malformed
  | truncated
deriving DecidableEq, Repr

/-- Output in front of what the rest of the stream yields. -/
def Inflated.prepend (data : Bytes) : Inflated → Inflated
  | .done output rest => .done (data ++ output) rest
  | r => r

/-- The body of a stored block: `LEN`, `NLEN`, and the data; `none` when it is cut
short, `some none` when the lengths disagree. -/
def storedBody (bits : List Bool) : Option (Option (Bytes × List Bool)) := do
  let (len, bits) ← takeBits 16 (alignByte bits)
  let (nlen, bits) ← takeBits 16 bits
  if nlen ≠ 2 ^ 16 - 1 - len then
    return none
  else
    let body ← takeBytes len bits
    return some body

/-- Inflate stored blocks up to the final one. -/
def inflateStoredBits : Nat → List Bool → Inflated
  | 0, _ => .truncated
  | fuel + 1, bits =>
    match takeBits 1 bits with
    | none => .truncated
    | some (bfinal, bits) =>
      match takeBits 2 bits with
      | none => .truncated
      | some (btype, bits) =>
        if btype ≠ 0 then .nonStored
        else
          match storedBody bits with
          | none => .truncated
          | some none => .malformed
          | some (some (data, bits)) =>
            if bfinal = 1 then .done data bits
            else (inflateStoredBits fuel bits).prepend data

/-- Inflate the stored blocks at the front of a byte string. A block takes five
bytes or more, which bounds the rounds. -/
def inflateStored (bytes : Bytes) : Inflated :=
  inflateStoredBits (bytes.length / 5 + 1) (bitsOf bytes)

/-! ## Rounds on a byte boundary -/

theorem takeBits_append {n : Nat} {a : List Bool} (h : a.length = n) (b : List Bool) :
    takeBits n (a ++ b) = some (bitsToNat a, b) := by
  subst h
  simp [takeBits]

theorem takeBytes_bitsOf (n : Nat) (bytes : Bytes) :
    takeBytes n (bitsOf bytes) =
      if n ≤ bytes.length then some (bytes.take n, bitsOf (bytes.drop n)) else none := by
  induction n generalizing bytes with
  | zero => simp [takeBytes]
  | succ n ih =>
    cases bytes with
    | nil => simp [takeBytes, takeBits]
    | cons b bs =>
      have hb : UInt8.ofNat (b.toNat % 2 ^ 8) = b := by
        rw [Nat.mod_eq_of_lt b.toNat_lt, UInt8.ofNat_toNat]
      rw [takeBytes, bitsOf_cons, takeBits_append (length_natBits 8 _), bitsToNat_natBits]
      simp only [Option.bind_eq_bind, Option.bind_some, hb, ih, List.length_cons,
        List.take_succ_cons, List.drop_succ_cons, Nat.add_le_add_iff_right]
      split_ifs <;> rfl

theorem takeBits_bitsOf (n : Nat) (bytes : Bytes) :
    takeBits (8 * n) (bitsOf bytes) =
      if n ≤ bytes.length then some (leNat (bytes.take n), bitsOf (bytes.drop n)) else none := by
  by_cases h : n ≤ bytes.length
  · have hlen : (bitsOf (bytes.take n)).length = 8 * n := by
      rw [length_bitsOf, List.length_take, Nat.min_eq_left h]
    rw [if_pos h]
    conv => lhs; rw [← List.take_append_drop n bytes, bitsOf_append]
    rw [takeBits_append hlen, bitsToNat_bitsOf]
  · rw [if_neg h, takeBits, if_neg]
    rw [length_bitsOf]
    omega

/-- The body of a stored block whose header byte was read up to its fourth bit. -/
theorem storedBody_bytes {pad : List Bool} (hpad : pad.length = 5) (bytes : Bytes) :
    storedBody (pad ++ bitsOf bytes) =
      if bytes.length < 4 then none
      else if leNat (slice bytes 2 2) ≠ 2 ^ 16 - 1 - leNat (bytes.take 2) then some none
      else if bytes.length < 4 + leNat (bytes.take 2) then none
      else some (some (slice bytes 4 (leNat (bytes.take 2)),
        bitsOf (bytes.drop (4 + leNat (bytes.take 2))))) := by
  have halign : alignByte (pad ++ bitsOf bytes) = bitsOf bytes := by
    have hmod : (pad ++ bitsOf bytes).length % 8 = pad.length := by
      rw [List.length_append, length_bitsOf, hpad]
      omega
    rw [alignByte, hmod, List.drop_left]
  rw [storedBody, halign, takeBits_bitsOf 2]
  by_cases h2 : 2 ≤ bytes.length
  · rw [if_pos h2]
    simp only [Option.bind_eq_bind, Option.bind_some]
    rw [takeBits_bitsOf 2, List.length_drop]
    by_cases h4 : bytes.length < 4
    · rw [if_pos h4, if_neg (by omega)]
      rfl
    · have hslice : (bytes.drop 2).take 2 = slice bytes 2 2 := rfl
      rw [if_neg h4, if_pos (by omega), List.drop_drop, hslice]
      simp only [Option.bind_some, takeBytes_bitsOf, List.drop_drop, List.length_drop]
      by_cases hlen : leNat (slice bytes 2 2) = 2 ^ 16 - 1 - leNat (bytes.take 2)
      · simp only [hlen, ne_eq, not_true, if_false]
        by_cases hdata : bytes.length < 4 + leNat (bytes.take 2)
        · rw [if_pos hdata, if_neg (by omega)]
          rfl
        · rw [if_neg hdata, if_pos (by omega)]
          rfl
      · rw [if_pos hlen, if_pos hlen]
        rfl
  · rw [if_neg h2, if_pos (by omega)]
    rfl

/-- One round of the reference on a byte boundary. -/
theorem inflateStoredBits_bytes (fuel : Nat) (bytes : Bytes) :
    inflateStoredBits (fuel + 1) (bitsOf bytes) =
      match bytes with
      | [] => .truncated
      | header :: body =>
        if header.toNat / 2 % 4 ≠ 0 then .nonStored
        else if body.length < 4 then .truncated
        else if leNat (slice body 2 2) ≠ 2 ^ 16 - 1 - leNat (body.take 2) then .malformed
        else if body.length < 4 + leNat (body.take 2) then .truncated
        else if header.toNat % 2 = 1 then
          .done (slice body 4 (leNat (body.take 2))) (bitsOf (body.drop (4 + leNat (body.take 2))))
        else
          (inflateStoredBits fuel (bitsOf (body.drop (4 + leNat (body.take 2))))).prepend
            (slice body 4 (leNat (body.take 2))) := by
  cases bytes with
  | nil => rfl
  | cons header body =>
    have hsplit : bitsOf (header :: body) =
        natBits 1 header.toNat ++ (natBits 2 (header.toNat / 2 ^ 1) ++
          (natBits 5 (header.toNat / 2 ^ 1 / 2 ^ 2) ++ bitsOf body)) := by
      rw [bitsOf_cons, natBits_add 1 7, natBits_add 2 5, List.append_assoc, List.append_assoc]
    rw [inflateStoredBits, hsplit, takeBits_append (length_natBits 1 _), bitsToNat_natBits]
    dsimp only
    rw [takeBits_append (length_natBits 2 _), bitsToNat_natBits]
    dsimp only
    rw [storedBody_bytes (length_natBits 5 _), pow_one, show 2 ^ 2 = 4 from rfl]
    split_ifs <;> rfl

/-- Stored blocks yield no more bytes than they take. -/
theorem length_output_le_of_bits {fuel : Nat} {bytes output : Bytes} {rest : List Bool}
    (h : inflateStoredBits fuel (bitsOf bytes) = .done output rest) :
    output.length ≤ bytes.length := by
  induction fuel generalizing bytes output rest with
  | zero => cases h
  | succ fuel ih =>
    rw [inflateStoredBits_bytes] at h
    cases bytes with
    | nil => cases h
    | cons header body =>
      dsimp only at h
      split_ifs at h
      · -- the final block
        obtain ⟨rfl, -⟩ := Inflated.done.injEq .. ▸ h
        simp only [slice, List.length_take, List.length_drop, List.length_cons]
        omega
      · -- a block with more behind it
        cases hnext : inflateStoredBits fuel (bitsOf (body.drop (4 + leNat (body.take 2)))) with
        | done output' rest' =>
          rw [hnext] at h
          obtain ⟨rfl, -⟩ := Inflated.done.injEq .. ▸ h
          have hle := ih hnext
          simp only [slice, List.length_append, List.length_take, List.length_drop,
            List.length_cons] at hle ⊢
          omega
        | nonStored => rw [hnext] at h; cases h
        | malformed => rw [hnext] at h; cases h
        | truncated => rw [hnext] at h; cases h

theorem length_output_le {bytes output : Bytes} {rest : List Bool}
    (h : inflateStored bytes = .done output rest) : output.length ≤ bytes.length :=
  length_output_le_of_bits h

end ZipForensic
