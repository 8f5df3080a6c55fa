import ZipForensic.Stream.Codec

/-!
# Computations over a reader

`ReadM ρ ε α` is a computation that uses a reader of type `ρ` and may fail with
`ε`; the reader's state survives either way, as it does when a borrowed reader
goes back to its owner. `runOn` runs one, with the rewrite rules for
sequencing.

`Natural f x y` is the parametricity statement for such computations: `y` does
over `f r` what `x` does over `r`. It holds of anything assembled from reads
(`Natural.readExact`, `Natural.bind`) when `f` is a `ReadHom`.
-/

namespace ZipForensic

/-- A computation over a reader; the reader's state survives errors. -/
abbrev ReadM (ρ ε α : Type) := ExceptT ε (StateM ρ) α

namespace ReadM

variable {ρ σ ε ω α β : Type}

/-- Run from a reader state. -/
def runOn (x : ReadM ρ ε α) (r : ρ) : Except ε α × ρ :=
  StateT.run (ExceptT.run x) r

@[simp] theorem runOn_pure (a : α) (r : ρ) : runOn (pure a : ReadM ρ ε α) r = (.ok a, r) := rfl

@[simp] theorem runOn_throw (e : ε) (r : ρ) :
    runOn (throw e : ReadM ρ ε α) r = (.error e, r) := rfl

/-- Sequencing: an error ends the computation, keeping the reader's state. -/
theorem runOn_bind (x : ReadM ρ ε α) (f : α → ReadM ρ ε β) (r : ρ) :
    runOn (x >>= f) r =
      match runOn x r with
      | (.ok a, r') => runOn (f a) r'
      | (.error e, r') => (.error e, r') := by
  unfold runOn
  rw [ExceptT.run_bind, StateT.run_bind]
  rcases StateT.run (ExceptT.run x) r with ⟨e | a, r'⟩ <;> rfl

theorem runOn_bind_ok {x : ReadM ρ ε α} {a : α} {r r' : ρ} (f : α → ReadM ρ ε β)
    (h : runOn x r = (.ok a, r')) : runOn (x >>= f) r = runOn (f a) r' := by
  rw [runOn_bind, h]

theorem runOn_bind_error {x : ReadM ρ ε α} {e : ε} {r r' : ρ} (f : α → ReadM ρ ε β)
    (h : runOn x r = (.error e, r')) : runOn (x >>= f) r = (.error e, r') := by
  rw [runOn_bind, h]

theorem of_runOn_bind_ok {x : ReadM ρ ε α} {f : α → ReadM ρ ε β} {b : β} {r r' : ρ}
    (h : runOn (x >>= f) r = (.ok b, r')) :
    ∃ a r₁, runOn x r = (.ok a, r₁) ∧ runOn (f a) r₁ = (.ok b, r') := by
  rw [runOn_bind] at h
  rcases hx : runOn x r with ⟨e | a, r₁⟩
  · rw [hx] at h
    cases h
  · rw [hx] at h
    exact ⟨a, r₁, rfl, h⟩

/-- A result that does not touch the reader. -/
def ofExcept (x : Except ε α) : ReadM ρ ε α := ExceptT.mk (pure x)

@[simp] theorem runOn_ofExcept (x : Except ε α) (r : ρ) :
    runOn (ofExcept x : ReadM ρ ε α) r = (x, r) := rfl

/-- `reader.read_exact(&mut buf)?` on a buffer of `n` bytes; `eof` is the error of a
stream that is too short, `wrap` turns the reader's errors into the computation's. -/
def readExact [Read ω ρ] (eof : ω) (wrap : ω → ε) (n : Nat) : ReadM ρ ε Bytes := fun r =>
  match ZipForensic.readExact eof n r with
  | (.ok bs, r') => (.ok bs, r')
  | (.error e, r') => (.error (wrap e), r')

theorem runOn_readExact [Read ω ρ] (eof : ω) (wrap : ω → ε) (n : Nat) (r : ρ) :
    runOn (readExact eof wrap n) r =
      match ZipForensic.readExact eof n r with
      | (.ok bs, r') => (.ok bs, r')
      | (.error e, r') => (.error (wrap e), r') := rfl

/-- Consume a reader to set up an adapter over it: run `x`, then build from its
result and what is left of the reader. A failure hands the reader back. -/
def build (x : ReadM ρ ε α) (mk : α → ρ → β) (r : ρ) : Except (ε × ρ) β :=
  match runOn x r with
  | (.ok a, r') => .ok (mk a r')
  | (.error e, r') => .error (e, r')

/-- The result of setting up an adapter, with the reader below replaced. -/
def mapBuilt {γ : Type} (f : ρ → σ) (g : β → γ) : Except (ε × ρ) β → Except (ε × σ) γ
  | .ok b => .ok (g b)
  | .error (e, r) => .error (e, f r)

/-! ## Naturality -/

/-- `y` does over `f r` what `x` does over `r`. -/
def Natural (f : ρ → σ) (x : ReadM ρ ε α) (y : ReadM σ ε α) : Prop :=
  ∀ r, runOn y (f r) = ((runOn x r).1, f (runOn x r).2)

namespace Natural

variable {f : ρ → σ}

theorem pure (a : α) : Natural f (Pure.pure a : ReadM ρ ε α) (Pure.pure a) := fun _ => rfl

theorem throw (e : ε) : Natural f (throw e : ReadM ρ ε α) (throw e) := fun _ => rfl

theorem bind {x : ReadM ρ ε α} {y : ReadM σ ε α} {k : α → ReadM ρ ε β} {l : α → ReadM σ ε β}
    (hx : Natural f x y) (hk : ∀ a, Natural f (k a) (l a)) : Natural f (x >>= k) (y >>= l) := by
  intro r
  rw [runOn_bind, runOn_bind, hx]
  rcases runOn x r with ⟨e | a, r'⟩
  · rfl
  · exact hk a r'

theorem ite {p : Prop} [Decidable p] {x x' : ReadM ρ ε α} {y y' : ReadM σ ε α}
    (hx : Natural f x y) (hx' : Natural f x' y') :
    Natural f (if p then x else x') (if p then y else y') := by
  split_ifs
  · exact hx
  · exact hx'

theorem ofExcept (x : Except ε α) :
    Natural f (ReadM.ofExcept x : ReadM ρ ε α) (ReadM.ofExcept x) := fun _ => rfl

theorem readExact [Read ω ρ] [Read ω σ] (hf : ReadHom f) (eof : ω) (wrap : ω → ε) (n : Nat) :
    Natural f (ReadM.readExact eof wrap n) (ReadM.readExact eof wrap n) := by
  intro r
  rw [runOn_readExact, runOn_readExact, readExact_map hf]
  rcases ZipForensic.readExact eof n r with ⟨e | bs, r'⟩ <;> rfl

/-- Setting up adapters over `r` and over `f r` gives adapters related by `g`. -/
theorem build {x : ReadM ρ ε α} {y : ReadM σ ε α} (hx : Natural f x y)
    {γ : Type} {mk : α → ρ → β} {mk' : α → σ → γ} {g : β → γ}
    (hmk : ∀ a r, mk' a (f r) = g (mk a r)) (r : ρ) :
    ReadM.build y mk' (f r) = mapBuilt f g (ReadM.build x mk r) := by
  unfold ReadM.build
  rw [hx r]
  rcases runOn x r with ⟨e | a, r'⟩
  · rfl
  · exact congrArg Except.ok (hmk a r')

end Natural

end ReadM

end ZipForensic
