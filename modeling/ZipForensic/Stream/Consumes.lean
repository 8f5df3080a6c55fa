import ZipForensic.Stream.ReadM
import ZipForensic.Stream.Window

/-!
# What a computation took off its reader

`Consumes r bs r'`: reads that all succeeded took the bytes `bs` off `r` and left `r'`.
Any reader counts, also one that fails in other states.

- `Consumes.trans`: two computations in a row.
- `of_runOn_readExact_ok`: a `read_exact` that succeeded took as many bytes as asked for.
- `Consumes.take`, `Consumes.cursor`: what that says about a limit and about a position.
-/

namespace ZipForensic

variable {ε ω ρ : Type} [Read ε ρ]

/-- Successful reads took `bs` off `r` and left `r'`. -/
inductive Consumes : ρ → Bytes → ρ → Prop
  | refl (r : ρ) : Consumes r [] r
  | read {r r' r'' : ρ} {n : Nat} {bs bs' : Bytes} (one : read n r = (.ok bs, r'))
      (rest : Consumes r' bs' r'') : Consumes r (bs ++ bs') r''

namespace Consumes

theorem trans {r r' r'' : ρ} {bs bs' : Bytes} (h : Consumes r bs r') (h' : Consumes r' bs' r'') :
    Consumes r (bs ++ bs') r'' := by
  induction h with
  | refl r => exact h'
  | read one _ ih =>
    rw [List.append_assoc]
    exact .read one (ih h')

/-! ## `read_exact` -/

section ReadExact

variable [LawfulRead ε ρ]

theorem of_readExactLoop_ok {eof : ε} {fuel n : Nat} {r r' : ρ} {bs : Bytes}
    (h : readExactLoop eof fuel n r = (.ok bs, r')) : bs.length = n ∧ Consumes r bs r' := by
  induction fuel generalizing n r bs with
  | zero =>
    cases n with
    | zero =>
      cases h
      exact ⟨rfl, .refl _⟩
    | succ n => cases h
  | succ fuel ih =>
    cases n with
    | zero =>
      cases h
      exact ⟨rfl, .refl _⟩
    | succ n =>
      have hle := LawfulRead.read_le (n + 1) r
      rw [readExactLoop] at h
      rcases hread : ZipForensic.read (n + 1) r with ⟨e | _ | ⟨b, bs₁⟩, r₁⟩
      · rw [hread] at h
        cases h
      · rw [hread] at h
        cases h
      · -- a piece, and the rest by the next rounds
        rw [hread] at h hle
        dsimp only at h
        rw [delivered_ok, List.length_cons] at hle
        rcases hrest : readExactLoop eof fuel (n - bs₁.length) r₁ with ⟨e | bs₂, r₂⟩
        · rw [hrest] at h
          cases h
        · rw [hrest] at h
          cases h
          obtain ⟨hlen, hconsumes⟩ := ih hrest
          refine ⟨?_, .read hread hconsumes⟩
          rw [List.length_append, List.length_cons, hlen]
          omega

theorem of_runOn_readExact_ok {eof : ε} {wrap : ε → ω} {n : Nat} {r r' : ρ} {bs : Bytes}
    (h : ReadM.runOn (ReadM.readExact eof wrap n) r = (.ok bs, r')) :
    bs.length = n ∧ Consumes r bs r' := by
  rw [ReadM.runOn_readExact] at h
  rcases hread : readExact eof n r with ⟨e | bs₁, r₁⟩
  · rw [hread] at h
    cases h
  · rw [hread] at h
    cases h
    exact of_readExactLoop_ok hread

end ReadExact

/-! ## Limits and positions -/

/-- What is taken through a limit fits it, and is taken off the reader below. -/
theorem take [LawfulRead ε ρ] {t t' : Take ρ} {bs : Bytes} (h : Consumes t bs t') :
    Consumes t.inner bs t'.inner ∧ bs.length + t'.limit = t.limit := by
  induction h with
  | refl t => exact ⟨.refl t.inner, Nat.zero_add _⟩
  | @read t t₁ t₂ n bs bs' one _ ih =>
    obtain ⟨ihread, ihlimit⟩ := ih
    by_cases hlimit : t.limit = 0
    · -- at the limit a read delivers nothing and leaves the reader below alone
      have hzero : ZipForensic.read n t = (.ok [], t) := if_pos hlimit
      rw [hzero] at one
      cases one
      exact ⟨ihread, ihlimit⟩
    · have hle := LawfulRead.read_le (min n t.limit) t.inner
      rcases hread : ZipForensic.read (min n t.limit) t.inner with ⟨e | bs₁, r₁⟩
      · rw [Take.read_error (r := t.inner) hlimit hread] at one
        cases one
      · rw [Take.read_ok (r := t.inner) hlimit hread] at one
        cases one
        rw [hread, delivered_ok] at hle
        refine ⟨.read hread ihread, ?_⟩
        dsimp only at ihlimit
        rw [List.length_append]
        omega

/-- A cursor is moved by what is taken, the bytes at its position. -/
theorem cursor {c c' : Cursor ε} {bs : Bytes} (h : Consumes c bs c') :
    c' = ⟨c.bytes, c.pos + bs.length⟩ ∧ bs = slice c.bytes c.pos bs.length := by
  induction h with
  | refl c => exact ⟨rfl, rfl⟩
  | @read c c₁ c₂ n bs bs' one _ ih =>
    cases one
    obtain ⟨rfl, ih⟩ := ih
    have hpiece : c.rest.take n = slice c.bytes c.pos (c.rest.take n).length := by
      rw [slice, List.length_take, ← List.take_take]
      exact (congrArg (List.take n) (List.take_of_length_le (Nat.le_refl _))).symm
    rw [List.length_append, ← slice_add, ← hpiece, ← ih, Nat.add_assoc]
    exact ⟨rfl, rfl⟩

end Consumes

end ZipForensic
