import ZipForensic.Stream.Received

/-!
# Reads into an empty buffer

- `SameReads r s`: `r` and `s` answer every sequence of reads alike, whatever their states are.
- `EmptyReadNoOp r`: a read into an empty buffer delivers nothing, and no later read can tell
  that it took place. What such a read does to the state (a buffer that is filled, a block
  that is staged) is left open.
-/

namespace ZipForensic

variable {ε ρ σ τ : Type} [Read ε ρ] [Read ε σ] [Read ε τ]

/-! ## Readers that answer alike -/

/-- Every sequence of reads gets the same answers. -/
def SameReads (r : ρ) (s : σ) : Prop := ∀ ns, (reads ns r).1 = (reads ns s).1

theorem SameReads.refl (r : ρ) : SameReads r r := fun _ => rfl

theorem SameReads.symm {r : ρ} {s : σ} (h : SameReads r s) : SameReads s r :=
  fun ns => (h ns).symm

theorem SameReads.trans {r : ρ} {s : σ} {t : τ} (h : SameReads r s) (h' : SameReads s t) :
    SameReads r t :=
  fun ns => (h ns).trans (h' ns)

theorem SameReads.map {f : ρ → σ} (hf : ReadHom f) (r : ρ) : SameReads (f r) r := by
  intro ns
  rw [reads_map hf]

/-- The read that follows a sequence of reads. -/
theorem SameReads.read {r : ρ} {s : σ} (h : SameReads r s) (ns : List Nat) (n : Nat) :
    (ZipForensic.read n (reads ns r).2).1 = (ZipForensic.read n (reads ns s).2).1 := by
  have hall := h (ns ++ [n])
  rw [reads_append, reads_append] at hall
  exact (List.cons.inj (List.append_inj_right' hall rfl)).1

/-- One read decides nothing. -/
theorem SameReads.of_read {r : ρ} {s : σ}
    (h : ∀ n, (ZipForensic.read n r).1 = (ZipForensic.read n s).1 ∧
      SameReads (ZipForensic.read n r).2 (ZipForensic.read n s).2) : SameReads r s := by
  intro ns
  cases ns with
  | nil => rfl
  | cons n ns =>
    obtain ⟨hread, hrest⟩ := h n
    rw [reads_cons, reads_cons, hread, hrest ns]

/-! ## Empty reads -/

/-- A read into an empty buffer answers `Ok(0)` and does not show in any later read. -/
structure EmptyReadNoOp (r : ρ) : Prop where
  answer : (read 0 r).1 = .ok []
  later : SameReads (read 0 r).2 r

/-- It is enough that the next read does not notice. -/
theorem EmptyReadNoOp.of_read {r : ρ} (hanswer : (ZipForensic.read 0 r).1 = .ok [])
    (hnext : ∀ n, ZipForensic.read n (ZipForensic.read 0 r).2 = ZipForensic.read n r) :
    EmptyReadNoOp r where
  answer := hanswer
  later := .of_read fun n => by
    rw [hnext n]
    exact ⟨rfl, .refl _⟩

theorem EmptyReadNoOp.map {f : ρ → σ} (hf : ReadHom f) {r : ρ} :
    EmptyReadNoOp (f r) ↔ EmptyReadNoOp r := by
  have hlater : SameReads (f (read 0 r).2) (read 0 r).2 := .map hf _
  have hsame : SameReads (f r) r := .map hf r
  constructor
  · rintro ⟨hanswer, h⟩
    rw [hf.read_map] at hanswer h
    exact ⟨hanswer, (hlater.symm.trans h).trans hsame⟩
  · rintro ⟨hanswer, h⟩
    refine ⟨?_, ?_⟩
    · rw [hf.read_map]
      exact hanswer
    · rw [hf.read_map]
      exact (hlater.trans h).trans hsame.symm

/-- Below a limit, an empty read is one of the reader below. -/
theorem Take.read_zero {r r' : ρ} {limit : Nat} (hlimit : limit ≠ 0)
    (h : read 0 r = (.ok [], r')) :
    read 0 (⟨r, limit⟩ : Take ρ) = (.ok [], ⟨r', limit⟩) := by
  have hread : read (min 0 limit) r = (.ok [], r') := by
    rw [Nat.zero_min]
    exact h
  exact Take.read_ok hlimit hread

/-- A limited reader reads alike over readers that read alike. -/
theorem Take.read_congr {r s : ρ} {limit : Nat} (h : ∀ n, read n r = read n s)
    (hlimit : limit ≠ 0) (n : Nat) :
    read n (⟨r, limit⟩ : Take ρ) = read n (⟨s, limit⟩ : Take ρ) := by
  rcases hread : read (min n limit) s with ⟨e | bs, s'⟩
  · rw [Take.read_error hlimit hread, Take.read_error hlimit ((h _).trans hread)]
  · rw [Take.read_ok hlimit hread, Take.read_ok hlimit ((h _).trans hread)]

end ZipForensic
