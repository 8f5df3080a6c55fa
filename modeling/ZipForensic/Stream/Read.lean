import ZipForensic.Bytes.LittleEndian

/-!
# Byte readers

A reader is a state that answers `read` calls: asked for up to `n` bytes it
either delivers some of them or fails, and moves to its next state. This file
has the interface (`Read`), what every real reader obeys (`LawfulRead`), the
two standard loops over it (`readExact`, `readToEnd`), sequences of calls
(`reads`), and the notion the stacking of readers is reasoned about with:

- `ReadHom f`: the map `f` between two kinds of readers commutes with every
  call. A reader built on top of another one then cannot tell `r` from `f r`,
  and each loop of this file commutes with `f` (`readExact_map`,
  `readToEnd_map`, `reads_map`).

`avail` bounds what a reader can still deliver; the loops use it (or the
requested length) as their fuel, so they are total functions.
-/

namespace ZipForensic

/-- A reader with states `ρ` and errors `ε`. -/
class Read (ε : outParam Type) (ρ : Type) where
  /-- One call with a buffer of `n` bytes: what was written to the front of the
  buffer (`[]` at the end of the stream), or an error, and the next state. -/
  read : Nat → ρ → Except ε Bytes × ρ
  /-- An upper bound on the bytes the reader can still deliver. -/
  avail : ρ → Nat

export Read (read avail)

/-- The number of bytes a call delivered. -/
def delivered {ε : Type} : Except ε Bytes → Nat
  | .ok bs => bs.length
  | .error _ => 0

@[simp] theorem delivered_ok {ε : Type} (bs : Bytes) :
    delivered (.ok bs : Except ε Bytes) = bs.length := rfl

@[simp] theorem delivered_error {ε : Type} (e : ε) :
    delivered (.error e : Except ε Bytes) = 0 := rfl

/-- What every reader obeys: a call never overfills its buffer and uses up what
it delivers. -/
class LawfulRead (ε : outParam Type) (ρ : Type) [Read ε ρ] : Prop where
  read_le : ∀ (n : Nat) (r : ρ), delivered (read n r).1 ≤ n
  avail_le : ∀ (n : Nat) (r : ρ), delivered (read n r).1 + avail (read n r).2 ≤ avail r

section Loops

variable {ε ρ : Type} [Read ε ρ]

/-- Fill a buffer of `n` bytes by repeated reads; `eof` is the error for a
stream that ends first. Each round delivers at least one byte, so `n` rounds
are enough. -/
def readExactLoop (eof : ε) : Nat → Nat → ρ → Except ε Bytes × ρ
  | _, 0, r => (.ok [], r)
  | 0, _ + 1, r => (.error eof, r)
  | fuel + 1, n + 1, r =>
    match read (n + 1) r with
    | (.error e, r') => (.error e, r')
    | (.ok [], r') => (.error eof, r')
    | (.ok (b :: bs), r') =>
      match readExactLoop eof fuel (n - bs.length) r' with
      | (.ok rest, r'') => (.ok (b :: bs ++ rest), r'')
      | (.error e, r'') => (.error e, r'')

/-- `read_exact`: exactly `n` bytes, or an error. -/
def readExact (eof : ε) (n : Nat) (r : ρ) : Except ε Bytes × ρ :=
  readExactLoop eof n n r

/-- The buffer `read_to_end` and `io::copy` read through. -/
def bufSize : Nat := 8192

/-- Read until a call delivers nothing, collecting the bytes after `acc`. -/
def readToEndLoop : Nat → Bytes → ρ → Except ε Bytes × ρ
  | 0, acc, r => (.ok acc, r)
  | fuel + 1, acc, r =>
    match read bufSize r with
    | (.error e, r') => (.error e, r')
    | (.ok [], r') => (.ok acc, r')
    | (.ok (b :: bs), r') => readToEndLoop fuel (acc ++ (b :: bs)) r'

/-- `read_to_end`: every byte up to the end of the stream, or the first error. -/
def readToEnd (r : ρ) : Except ε Bytes × ρ :=
  readToEndLoop (avail r + 1) [] r

/-- A sequence of calls with the given buffer sizes: the answers in order, and
the final state. -/
def reads : List Nat → ρ → List (Except ε Bytes) × ρ
  | [], r => ([], r)
  | n :: ns, r =>
    let (x, r') := read n r
    let (xs, r'') := reads ns r'
    (x :: xs, r'')

@[simp] theorem reads_nil (r : ρ) : reads [] r = ([], r) := rfl

@[simp] theorem reads_cons (n : Nat) (ns : List Nat) (r : ρ) :
    reads (n :: ns) r =
      ((read n r).1 :: (reads ns (read n r).2).1, (reads ns (read n r).2).2) := rfl

theorem reads_append (ns ms : List Nat) (r : ρ) :
    reads (ns ++ ms) r =
      ((reads ns r).1 ++ (reads ms (reads ns r).2).1, (reads ms (reads ns r).2).2) := by
  induction ns generalizing r with
  | nil => rfl
  | cons n ns ih => simp [ih]

end Loops

/-! ## Maps between readers -/

section Hom

variable {ε ρ σ : Type} [Read ε ρ] [Read ε σ]

/-- `f` commutes with every call: no caller can tell `r` from `f r`. -/
structure ReadHom (f : ρ → σ) : Prop where
  read_map : ∀ n r, read n (f r) = ((read n r).1, f (read n r).2)
  avail_map : ∀ r, avail (f r) = avail r

theorem readHom_id : ReadHom (id : ρ → ρ) := ⟨fun _ _ => rfl, fun _ => rfl⟩

variable {f : ρ → σ}

theorem readExactLoop_map (hf : ReadHom f) (eof : ε) (fuel n : Nat) (r : ρ) :
    readExactLoop eof fuel n (f r) =
      ((readExactLoop eof fuel n r).1, f (readExactLoop eof fuel n r).2) := by
  induction fuel generalizing n r with
  | zero => cases n <;> rfl
  | succ fuel ih =>
    cases n with
    | zero => rfl
    | succ n =>
      rw [readExactLoop, readExactLoop, hf.read_map]
      rcases read (n + 1) r with ⟨e | bs, r'⟩
      · rfl
      · cases bs with
        | nil => rfl
        | cons b bs =>
          dsimp only
          rw [ih]
          rcases readExactLoop eof fuel (n - bs.length) r' with ⟨e | rest, r''⟩ <;> rfl

theorem readExact_map (hf : ReadHom f) (eof : ε) (n : Nat) (r : ρ) :
    readExact eof n (f r) = ((readExact eof n r).1, f (readExact eof n r).2) :=
  readExactLoop_map hf eof n n r

theorem readToEndLoop_map (hf : ReadHom f) (fuel : Nat) (acc : Bytes) (r : ρ) :
    readToEndLoop fuel acc (f r) =
      ((readToEndLoop fuel acc r).1, f (readToEndLoop fuel acc r).2) := by
  induction fuel generalizing acc r with
  | zero => rfl
  | succ fuel ih =>
    rw [readToEndLoop, readToEndLoop, hf.read_map]
    rcases read bufSize r with ⟨e | bs, r'⟩
    · rfl
    · cases bs with
      | nil => rfl
      | cons b bs => exact ih _ _

theorem readToEnd_map (hf : ReadHom f) (r : ρ) :
    readToEnd (f r) = ((readToEnd r).1, f (readToEnd r).2) := by
  rw [readToEnd, readToEnd, hf.avail_map]
  exact readToEndLoop_map hf _ _ _

/-- The answers to a sequence of calls are the same below a `ReadHom`. -/
theorem reads_map (hf : ReadHom f) (ns : List Nat) (r : ρ) :
    reads ns (f r) = ((reads ns r).1, f (reads ns r).2) := by
  induction ns generalizing r with
  | nil => rfl
  | cons n ns ih => simp [hf.read_map, ih]

end Hom

end ZipForensic
