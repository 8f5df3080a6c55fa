import ZipForensic.Stream.Codec

/-!
# Readers that cannot be told apart

`ReadSim R`: readers in states related by `R` answer every non-empty read alike and stay
related. Unlike a `ReadHom` the relation need not be a function, and nothing is said about
reads of no bytes.

- `Bisimilar`: some such relation holds.
- `ReadSim.reads`, `ReadSim.readToEnd`: runs of reads answer alike.
- `ReadSim.take`, `ReadSim.pipe`: what is built on top of related readers is related, whatever
  decoder it is.
-/

namespace ZipForensic

variable {ε ρ σ : Type} [Read ε ρ] [Read ε σ]

structure ReadSim (R : ρ → σ → Prop) : Prop where
  read : ∀ {r s n}, R r s → 0 < n →
    (read n r).1 = (ZipForensic.read n s).1 ∧ R (ZipForensic.read n r).2 (ZipForensic.read n s).2
  avail : ∀ {r s}, R r s → avail r = ZipForensic.avail s

/-- Some simulation relates the two. -/
def Bisimilar (r : ρ) (s : σ) : Prop := ∃ R, ReadSim R ∧ R r s

/-- Bisimilarity is itself one. -/
theorem Bisimilar.readSim : ReadSim (Bisimilar : ρ → σ → Prop) where
  read := by
    rintro r s n ⟨R, hR, hrs⟩ hn
    obtain ⟨hread, hnext⟩ := hR.read hrs hn
    exact ⟨hread, R, hR, hnext⟩
  avail := by
    rintro r s ⟨R, hR, hrs⟩
    exact hR.avail hrs

/-- What wraps two readers without a trace keeps them bisimilar. -/
theorem Bisimilar.map {ρ' σ' : Type} [Read ε ρ'] [Read ε σ'] {f : ρ → ρ'} {g : σ → σ'}
    (hf : ReadHom f) (hg : ReadHom g) {r : ρ} {s : σ} (h : Bisimilar r s) :
    Bisimilar (f r) (g s) := by
  obtain ⟨R, hR, hrs⟩ := h
  refine ⟨fun r' s' => ∃ r s, R r s ∧ r' = f r ∧ s' = g s, ⟨?_, ?_⟩, r, s, hrs, rfl, rfl⟩
  · rintro r' s' n ⟨r, s, hrs, rfl, rfl⟩ hn
    obtain ⟨hread, hnext⟩ := hR.read hrs hn
    rw [hf.read_map, hg.read_map]
    exact ⟨hread, _, _, hnext, rfl, rfl⟩
  · rintro r' s' ⟨r, s, hrs, rfl, rfl⟩
    rw [hf.avail_map, hg.avail_map, hR.avail hrs]

namespace ReadSim

variable {R : ρ → σ → Prop} (h : ReadSim R) {r : ρ} {s : σ}
include h

theorem reads {ns : List Nat} (hns : ∀ n ∈ ns, 0 < n) (hrs : R r s) :
    (reads ns r).1 = (ZipForensic.reads ns s).1 ∧
      R (ZipForensic.reads ns r).2 (ZipForensic.reads ns s).2 := by
  induction ns generalizing r s with
  | nil => exact ⟨rfl, hrs⟩
  | cons n ns ih =>
    obtain ⟨hn, hns⟩ := List.forall_mem_cons.1 hns
    obtain ⟨hread, hnext⟩ := h.read hrs hn
    obtain ⟨hreads, hlast⟩ := ih hns hnext
    rw [reads_cons, reads_cons, hread, hreads]
    exact ⟨rfl, hlast⟩

theorem readToEndLoop {fuel : Nat} (acc : Bytes) (hrs : R r s) :
    (readToEndLoop fuel acc r).1 = (ZipForensic.readToEndLoop fuel acc s).1 ∧
      R (ZipForensic.readToEndLoop fuel acc r).2 (ZipForensic.readToEndLoop fuel acc s).2 := by
  induction fuel generalizing acc r s with
  | zero => exact ⟨rfl, hrs⟩
  | succ fuel ih =>
    obtain ⟨hread, hnext⟩ := h.read hrs (n := bufSize) (by decide)
    rw [ZipForensic.readToEndLoop, ZipForensic.readToEndLoop]
    rcases hr : ZipForensic.read bufSize r with ⟨x, r'⟩
    rcases hs : ZipForensic.read bufSize s with ⟨y, s'⟩
    rw [hr, hs] at hread hnext
    dsimp only at hread hnext
    subst hread
    rcases x with e | _ | ⟨b, bs⟩
    · exact ⟨rfl, hnext⟩
    · exact ⟨rfl, hnext⟩
    · exact ih _ hnext

theorem readToEnd (hrs : R r s) :
    (readToEnd r).1 = (ZipForensic.readToEnd s).1 ∧
      R (ZipForensic.readToEnd r).2 (ZipForensic.readToEnd s).2 := by
  rw [ZipForensic.readToEnd, ZipForensic.readToEnd, h.avail hrs]
  exact h.readToEndLoop [] hrs

/-- Limited readers over related ones. -/
theorem take : ReadSim fun (t : Take ρ) (u : Take σ) => R t.inner u.inner ∧ t.limit = u.limit where
  read := by
    rintro ⟨r, limit⟩ ⟨s, limit'⟩ n ⟨hrs, hlimits⟩ hn
    obtain rfl : limit = limit' := hlimits
    by_cases hlimit : limit = 0
    · simp only [Read.read, hlimit, if_true]
      exact ⟨trivial, hrs, trivial⟩
    · obtain ⟨hread, hnext⟩ := h.read hrs (n := min n limit) (by omega)
      rcases hr : ZipForensic.read (min n limit) r with ⟨x, r'⟩
      rcases hs : ZipForensic.read (min n limit) s with ⟨y, s'⟩
      rw [hr, hs] at hread hnext
      dsimp only at hread hnext
      subst hread
      cases x with
      | error e =>
        rw [Take.read_error hlimit hr, Take.read_error hlimit hs]
        exact ⟨rfl, hnext, rfl⟩
      | ok bs =>
        rw [Take.read_ok hlimit hr, Take.read_ok hlimit hs]
        exact ⟨rfl, hnext, rfl⟩
  avail := by
    rintro ⟨r, limit⟩ ⟨s, limit'⟩ ⟨hrs, hlimits⟩
    obtain rfl : limit = limit' := hlimits
    show min limit (ZipForensic.avail r) = min limit (ZipForensic.avail s)
    rw [h.avail hrs]

/-! ## Decoders -/

variable {K : Codec ε}

theorem callLoop {c : Call} {fuel : Nat} {t : K.State} (hrs : R r s) :
    (Pipe.callLoop c fuel (⟨t, r⟩ : Pipe K ρ)).1 = (Pipe.callLoop c fuel (⟨t, s⟩ : Pipe K σ)).1 ∧
      (Pipe.callLoop c fuel (⟨t, r⟩ : Pipe K ρ)).2.state =
        (Pipe.callLoop c fuel (⟨t, s⟩ : Pipe K σ)).2.state ∧
      R (Pipe.callLoop c fuel (⟨t, r⟩ : Pipe K ρ)).2.inner
        (Pipe.callLoop c fuel (⟨t, s⟩ : Pipe K σ)).2.inner := by
  induction fuel generalizing t r s with
  | zero => exact ⟨rfl, rfl, hrs⟩
  | succ fuel ih =>
    cases hstep : K.step t c with
    | out a t' =>
      rw [Pipe.callLoop_out hstep, Pipe.callLoop_out hstep]
      exact ⟨rfl, rfl, hrs⟩
    | pull n onData onEnd onError =>
      -- a decoder asks for non-empty pieces only
      obtain ⟨hread, hnext⟩ := h.read hrs (K.pull_pos hstep)
      rcases hr : ZipForensic.read n r with ⟨x, r'⟩
      rcases hs : ZipForensic.read n s with ⟨y, s'⟩
      rw [hr, hs] at hread hnext
      dsimp only at hread hnext
      subst hread
      rcases x with e | _ | ⟨b, bs⟩
      · rw [Pipe.callLoop_error hstep hr, Pipe.callLoop_error hstep hs]
        exact ⟨rfl, rfl, hnext⟩
      · rw [Pipe.callLoop_end hstep hr, Pipe.callLoop_end hstep hs]
        exact ⟨rfl, rfl, hnext⟩
      · rw [Pipe.callLoop_data hstep hr, Pipe.callLoop_data hstep hs]
        exact ih hnext

theorem call (c : Call) {p : Pipe K ρ} {q : Pipe K σ} (hstate : p.state = q.state)
    (hinner : R p.inner q.inner) :
    (p.call c).1 = (q.call c).1 ∧ (p.call c).2.state = (q.call c).2.state ∧
      R (p.call c).2.inner (q.call c).2.inner := by
  obtain ⟨t, r⟩ := p
  obtain ⟨t', s⟩ := q
  obtain rfl : t = t' := hstate
  rw [Pipe.call, Pipe.call, h.avail hinner]
  exact h.callLoop hinner

/-- Decoders over related readers. -/
theorem pipe : ReadSim fun (p : Pipe K ρ) (q : Pipe K σ) =>
    p.state = q.state ∧ R p.inner q.inner where
  read hpq _ := h.call _ hpq.1 hpq.2
  avail {p q} hpq := by
    show K.budget p.state (ZipForensic.avail p.inner) = K.budget q.state (ZipForensic.avail q.inner)
    rw [hpq.1, h.avail hpq.2]

end ReadSim

end ZipForensic
