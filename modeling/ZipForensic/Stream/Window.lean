import ZipForensic.Stream.Read

/-!
# In-memory readers and the window a limited reader shows

- `Cursor`: a byte string with a position, the seekable reader archives are
  opened on.
- `Take ρ`: a reader cut off after a number of bytes.
- `Window`: the abstract reader, a byte string that is consumed from the front.

`Take.window` maps a limited cursor to the bytes it can still deliver, and
`readHom_window` says that this is all there is to such a reader: position,
limit and backing bytes are unobservable beyond their window. Two cursors over
different files with equal windows are therefore interchangeable below any
stack of readers.
-/

namespace ZipForensic

/-- A reader over an in-memory byte string; it never fails, whatever the error
type `ε` of the stack it is used in. -/
structure Cursor (ε : Type) where
  bytes : Bytes
  pos : Nat
deriving DecidableEq, Repr

namespace Cursor

variable {ε : Type}

/-- The bytes from the position on. -/
def rest (c : Cursor ε) : Bytes := c.bytes.drop c.pos

instance : Read ε (Cursor ε) where
  read n c := (.ok (c.rest.take n), { c with pos := c.pos + (c.rest.take n).length })
  avail c := c.rest.length

instance : LawfulRead ε (Cursor ε) where
  read_le n c := by
    show (c.rest.take n).length ≤ n
    simp
  avail_le n c := by
    show (c.rest.take n).length + (c.bytes.drop (c.pos + (c.rest.take n).length)).length ≤
      c.rest.length
    simp only [rest, List.length_take, List.length_drop]
    omega

end Cursor

/-- A reader that ends after `limit` bytes. -/
structure Take (ρ : Type) where
  inner : ρ
  limit : Nat

namespace Take

variable {ε ρ σ : Type} [Read ε ρ] [Read ε σ]

instance : Read ε (Take ρ) where
  read n t :=
    if t.limit = 0 then (.ok [], t)
    else
      match read (min n t.limit) t.inner with
      | (.ok bs, inner') => (.ok bs, ⟨inner', t.limit - bs.length⟩)
      | (.error e, inner') => (.error e, ⟨inner', t.limit⟩)
  avail t := min t.limit (avail t.inner)

theorem read_ok {n limit : Nat} {r r' : ρ} {bs : Bytes} (h : limit ≠ 0)
    (hread : read (min n limit) r = (.ok bs, r')) :
    read n (⟨r, limit⟩ : Take ρ) = (.ok bs, ⟨r', limit - bs.length⟩) := by
  show (if limit = 0 then _ else _) = _
  rw [if_neg h, hread]

theorem read_error {n limit : Nat} {r r' : ρ} {e : ε} (h : limit ≠ 0)
    (hread : read (min n limit) r = (.error e, r')) :
    read n (⟨r, limit⟩ : Take ρ) = (.error e, ⟨r', limit⟩) := by
  show (if limit = 0 then _ else _) = _
  rw [if_neg h, hread]

/-- Replace the reader below. -/
def map (f : ρ → σ) (t : Take ρ) : Take σ := ⟨f t.inner, t.limit⟩

theorem readHom_map {f : ρ → σ} (hf : ReadHom f) : ReadHom (Take.map f) where
  read_map n t := by
    show (if t.limit = 0 then _ else _) = ((if t.limit = 0 then _ else _ : _ × _).1, _)
    by_cases h : t.limit = 0
    · simp only [Take.map, Read.read, h, if_true]
    · simp only [Take.map, Read.read, h, if_false, hf.read_map]
      rcases read (min n t.limit) t.inner with ⟨e | bs, r'⟩ <;> rfl
  avail_map t := by
    show min t.limit (avail (f t.inner)) = min t.limit (avail t.inner)
    rw [hf.avail_map]

instance [LawfulRead ε ρ] : LawfulRead ε (Take ρ) where
  read_le n t := by
    simp only [Read.read]
    split_ifs with h
    · simp
    · have hle := LawfulRead.read_le (min n t.limit) t.inner
      rcases hr : read (min n t.limit) t.inner with ⟨e | bs, r'⟩
      · simp
      · rw [hr] at hle
        exact le_trans hle (Nat.min_le_left _ _)
  avail_le n t := by
    simp only [Read.read, Read.avail]
    split_ifs with h
    · simp
    · have hle := LawfulRead.read_le (min n t.limit) t.inner
      have hav := LawfulRead.avail_le (min n t.limit) t.inner
      rcases hr : read (min n t.limit) t.inner with ⟨e | bs, r'⟩ <;> rw [hr] at hle hav <;>
        simp only [delivered_ok, delivered_error] at * <;> omega

end Take

/-- A byte string consumed from the front. -/
structure Window (ε : Type) where
  rest : Bytes
deriving DecidableEq, Repr

namespace Window

variable {ε : Type}

instance : Read ε (Window ε) where
  read n w := (.ok (w.rest.take n), ⟨w.rest.drop n⟩)
  avail w := w.rest.length

theorem read_eq (n : Nat) (w : Window ε) :
    read n w = (.ok (w.rest.take n), ⟨w.rest.drop n⟩) := rfl

instance : LawfulRead ε (Window ε) where
  read_le n w := by
    show (w.rest.take n).length ≤ n
    simp
  avail_le n w := by
    show (w.rest.take n).length + (w.rest.drop n).length ≤ w.rest.length
    simp only [List.length_take, List.length_drop]
    omega

theorem readExactLoop_nil (eof : ε) (fuel n : Nat) :
    readExactLoop eof fuel (n + 1) (⟨[]⟩ : Window ε) = (.error eof, ⟨[]⟩) := by
  cases fuel <;> simp [readExactLoop, read_eq]

theorem readExactLoop_eq (eof : ε) {fuel n : Nat} (hn : n ≤ fuel) (w : Window ε) :
    readExactLoop eof fuel n w =
      if n ≤ w.rest.length then (.ok (w.rest.take n), ⟨w.rest.drop n⟩) else (.error eof, ⟨[]⟩) := by
  obtain ⟨bs⟩ := w
  cases n with
  | zero => cases fuel <;> simp [readExactLoop]
  | succ n =>
    cases fuel with
    | zero => omega
    | succ fuel =>
      cases bs with
      | nil => simp [readExactLoop, read_eq]
      | cons b bs =>
        rw [readExactLoop, read_eq]
        dsimp only [List.take_succ_cons, List.drop_succ_cons, List.length_cons]
        by_cases h : n ≤ bs.length
        · -- one call fills the buffer
          have hlen : n - (bs.take n).length = 0 := by
            rw [List.length_take]
            omega
          rw [hlen, if_pos (by omega)]
          cases fuel <;> simp [readExactLoop]
        · -- the stream ends inside the buffer; the next call says so
          have hlen : n - (bs.take n).length = (n - bs.length - 1) + 1 := by
            rw [List.length_take]
            omega
          have hdrop : (b :: bs).drop (n + 1) = [] := List.drop_eq_nil_of_le (by simpa using by omega)
          rw [hlen, hdrop, readExactLoop_nil, if_neg (by omega)]

/-- `read_exact` on a window: its first `n` bytes, if it has them. -/
theorem readExact_eq (eof : ε) (n : Nat) (w : Window ε) :
    readExact eof n w =
      if n ≤ w.rest.length then (.ok (w.rest.take n), ⟨w.rest.drop n⟩) else (.error eof, ⟨[]⟩) :=
  readExactLoop_eq eof (Nat.le_refl n) w

end Window

/-- The bytes a limited cursor can still deliver. -/
def Take.window {ε : Type} (t : Take (Cursor ε)) : Window ε := ⟨t.inner.rest.take t.limit⟩

/-- A limited cursor is its window. -/
theorem readHom_window {ε : Type} : ReadHom (Take.window (ε := ε)) where
  read_map n t := by
    obtain ⟨⟨b, p⟩, l⟩ := t
    by_cases h : l = 0
    · simp [Read.read, Take.window, Cursor.rest, h]
    · have hdrop : ((b.drop p).take l).drop n =
          (b.drop (p + ((b.drop p).take (min n l)).length)).take
            (l - ((b.drop p).take (min n l)).length) := by
        rw [← List.drop_drop, List.drop_take, List.length_take, List.length_drop]
        by_cases hn : n ≤ b.length - p
        · rcases Nat.le_total n l with hnl | hnl
          · rw [Nat.min_eq_left hnl, Nat.min_eq_left hn]
          · rw [Nat.min_eq_right hnl, Nat.min_eq_left (by omega), Nat.sub_self,
              Nat.sub_eq_zero_of_le hnl, List.take_zero, List.take_zero]
        · have hnil : ∀ k, b.length - p ≤ k → (b.drop p).drop k = [] := fun k hk =>
            List.drop_eq_nil_of_le (by rw [List.length_drop]; exact hk)
          rw [hnil n (by omega), List.take_nil]
          rcases Nat.le_total (b.length - p) (min n l) with hm | hm
          · rw [Nat.min_eq_right hm, hnil _ (Nat.le_refl _), List.take_nil]
          · rw [Nat.min_eq_left hm]
            have : l - min n l = 0 := by omega
            rw [this, List.take_zero]
      simp only [Read.read, Take.window, Cursor.rest, h, if_false, List.take_take]
      rw [hdrop]
  avail_map t := by
    show (t.inner.rest.take t.limit).length = min t.limit t.inner.rest.length
    rw [List.length_take]

end ZipForensic
