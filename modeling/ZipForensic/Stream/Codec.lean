import ZipForensic.Stream.Window

/-!
# Decoders that pull from a reader below

A decompressor is only known through its interface: a call on it either answers
at once or first asks the reader below for more input. `Codec` is such a
decompressor as a deterministic machine, and `Pipe K ρ` runs it over a reader.

What is fixed about it is the shape of the interaction: input that arrives lets
the call go on, and the end of the input or an error from below makes the call
answer. The structure carries the obligations every decoder meets — it asks for
at least one byte, respects the caller's buffer, and produces finitely much
output from finite input (`budget`) — so reading a `Pipe` to its end is a total
function (`LawfulRead`).

`Pipe.readHom_map` is the parametricity of the construction: a decoder observes
the reader below only through its answers.
-/

namespace ZipForensic

/-- The calls a decoder answers: its constructor, if that does I/O, and reads. -/
inductive Call
  | new
  | read (n : Nat)
deriving DecidableEq, Repr

/-- What a decoder does next: answer, or ask the reader below for up to `n`
bytes and go on according to what came back. -/
inductive Step (ε σ : Type)
  | out (answer : Except ε Bytes) (next : σ)
  | pull (n : Nat) (onData : Bytes → σ) (onEnd : Except ε Bytes × σ)
      (onError : ε → Except ε Bytes × σ)

/-- The answers a call can give without receiving further input. -/
def Step.Answers {ε σ : Type} : Step ε σ → Except ε Bytes × σ → Prop
  | .out answer next, a => a = (answer, next)
  | .pull _ _ onEnd onError, a => a = onEnd ∨ ∃ e, a = onError e

/-- A decoder: a machine that answers calls, pulling compressed bytes from the
reader below. `budget s m` bounds what it can still produce from state `s` with
`m` more bytes of input. -/
structure Codec (ε : Type) where
  State : Type
  init : State
  step : State → Call → Step ε State
  budget : State → Nat → Nat
  /-- An answer fits the caller's buffer. -/
  answer_le : ∀ {s n a}, (step s (.read n)).Answers a → delivered a.1 ≤ n
  /-- Input is asked for in non-empty pieces. -/
  pull_pos : ∀ {s c n onData onEnd onError}, step s c = .pull n onData onEnd onError → 0 < n
  budget_mono : ∀ s {m m'}, m ≤ m' → budget s m ≤ budget s m'
  /-- Output is paid for out of the budget. -/
  budget_answer : ∀ {s c a}, (step s c).Answers a → ∀ m, delivered a.1 + budget a.2 m ≤ budget s m
  /-- Input that has arrived was already budgeted for. -/
  budget_data : ∀ {s c n onData onEnd onError}, step s c = .pull n onData onEnd onError →
    ∀ bs m, budget (onData bs) m ≤ budget s (bs.length + m)

/-- A decoder running over a reader. -/
structure Pipe {ε : Type} (K : Codec ε) (ρ : Type) where
  state : K.State
  inner : ρ

namespace Pipe

variable {ε ρ σ : Type} {K : Codec ε} [Read ε ρ] [Read ε σ]

/-- Drive one call until the decoder answers. Every round but the last takes at
least one byte from the reader below, which bounds the rounds. -/
def callLoop (c : Call) : Nat → Pipe K ρ → Except ε Bytes × Pipe K ρ
  | 0, p => (.ok [], p)
  | fuel + 1, p =>
    match K.step p.state c with
    | .out answer next => (answer, ⟨next, p.inner⟩)
    | .pull n onData onEnd onError =>
      match read n p.inner with
      | (.ok [], r) => (onEnd.1, ⟨onEnd.2, r⟩)
      | (.ok (b :: bs), r) => callLoop c fuel ⟨onData (b :: bs), r⟩
      | (.error e, r) => ((onError e).1, ⟨(onError e).2, r⟩)

section Rounds

variable {c : Call} {fuel n : Nat} {s s' : K.State} {r r' : ρ} {a : Except ε Bytes}
  {onData : Bytes → K.State} {onEnd : Except ε Bytes × K.State}
  {onError : ε → Except ε Bytes × K.State}

theorem callLoop_out (h : K.step s c = .out a s') :
    callLoop c (fuel + 1) (⟨s, r⟩ : Pipe K ρ) = (a, ⟨s', r⟩) := by
  rw [callLoop]
  dsimp only
  rw [h]

theorem callLoop_end (h : K.step s c = .pull n onData onEnd onError)
    (hread : read n r = (.ok [], r')) :
    callLoop c (fuel + 1) (⟨s, r⟩ : Pipe K ρ) = (onEnd.1, ⟨onEnd.2, r'⟩) := by
  rw [callLoop]
  dsimp only
  rw [h]
  dsimp only
  rw [hread]

theorem callLoop_data {b : UInt8} {bs : Bytes} (h : K.step s c = .pull n onData onEnd onError)
    (hread : read n r = (.ok (b :: bs), r')) :
    callLoop c (fuel + 1) (⟨s, r⟩ : Pipe K ρ) = callLoop c fuel ⟨onData (b :: bs), r'⟩ := by
  rw [callLoop]
  dsimp only
  rw [h]
  dsimp only
  rw [hread]

theorem callLoop_error {e : ε} (h : K.step s c = .pull n onData onEnd onError)
    (hread : read n r = (.error e, r')) :
    callLoop c (fuel + 1) (⟨s, r⟩ : Pipe K ρ) = ((onError e).1, ⟨(onError e).2, r'⟩) := by
  rw [callLoop]
  dsimp only
  rw [h]
  dsimp only
  rw [hread]

end Rounds

/-- One call on the decoder. -/
def call (c : Call) (p : Pipe K ρ) : Except ε Bytes × Pipe K ρ :=
  callLoop c (avail p.inner + 1) p

instance : Read ε (Pipe K ρ) where
  read n p := p.call (.read n)
  avail p := K.budget p.state (avail p.inner)

/-- Replace the reader below. -/
def map (f : ρ → σ) (p : Pipe K ρ) : Pipe K σ := ⟨p.state, f p.inner⟩

theorem callLoop_map {f : ρ → σ} (hf : ReadHom f) (c : Call) (fuel : Nat) (p : Pipe K ρ) :
    callLoop c fuel (p.map f) = ((callLoop c fuel p).1, (callLoop c fuel p).2.map f) := by
  induction fuel generalizing p with
  | zero => rfl
  | succ fuel ih =>
    simp only [callLoop, map]
    cases K.step p.state c with
    | out answer next => rfl
    | pull n onData onEnd onError =>
      dsimp only
      rw [hf.read_map]
      rcases read n p.inner with ⟨e | bs, r⟩
      · rfl
      · cases bs with
        | nil => rfl
        | cons b bs => exact ih ⟨onData (b :: bs), r⟩

theorem call_map {f : ρ → σ} (hf : ReadHom f) (c : Call) (p : Pipe K ρ) :
    (p.map f).call c = ((p.call c).1, (p.call c).2.map f) := by
  show callLoop c (avail (f p.inner) + 1) (p.map f) = _
  rw [hf.avail_map]
  exact callLoop_map hf c _ p

/-- A decoder cannot tell a reader from its image under a `ReadHom`. -/
theorem readHom_map {f : ρ → σ} (hf : ReadHom f) : ReadHom (map (K := K) f) where
  read_map n p := call_map hf (.read n) p
  avail_map p := by
    show K.budget p.state (avail (f p.inner)) = K.budget p.state (avail p.inner)
    rw [hf.avail_map]

/-- Fuel for every byte of the reader below is enough. -/
theorem callLoop_fuel [LawfulRead ε ρ] {c : Call} {fuel fuel' : Nat} {p : Pipe K ρ}
    (h : avail p.inner < fuel) (h' : avail p.inner < fuel') :
    callLoop c fuel p = callLoop c fuel' p := by
  induction fuel generalizing fuel' p with
  | zero => omega
  | succ fuel ih =>
    obtain ⟨fuel', rfl⟩ : ∃ n, fuel' = n + 1 := ⟨fuel' - 1, by omega⟩
    obtain ⟨s, r⟩ := p
    cases hstep : K.step s c with
    | out a s' => rw [callLoop_out hstep, callLoop_out hstep]
    | pull n onData onEnd onError =>
      have hle := LawfulRead.avail_le n r
      dsimp only at h h'
      rcases hread : read n r with ⟨e | _ | ⟨b, bs⟩, r'⟩
      · rw [callLoop_error hstep hread, callLoop_error hstep hread]
      · rw [callLoop_end hstep hread, callLoop_end hstep hread]
      · rw [hread, delivered_ok, List.length_cons] at hle
        rw [callLoop_data hstep hread, callLoop_data hstep hread]
        exact ih (by dsimp only at hle ⊢; omega) (by dsimp only at hle ⊢; omega)

/-- A call's answer is covered by the budget and, for a read, fits the buffer. -/
theorem callLoop_bounds [LawfulRead ε ρ] (c : Call) (fuel : Nat) (p : Pipe K ρ) :
    (∀ n, c = .read n → delivered (callLoop c fuel p).1 ≤ n) ∧
      delivered (callLoop c fuel p).1 + avail (callLoop c fuel p).2 ≤ avail p := by
  induction fuel generalizing p with
  | zero => exact ⟨fun n _ => Nat.zero_le n, Nat.le_of_eq (Nat.zero_add _)⟩
  | succ fuel ih =>
    rw [callLoop]
    cases hstep : K.step p.state c with
    | out answer next =>
      have hans : (K.step p.state c).Answers (answer, next) := by rw [hstep]; exact rfl
      refine ⟨fun n hn => ?_, K.budget_answer hans _⟩
      subst hn
      exact K.answer_le hans
    | pull n onData onEnd onError =>
      have hav := LawfulRead.avail_le n p.inner
      dsimp only
      rcases hread : read n p.inner with ⟨e | bs, r⟩
      · rw [hread] at hav
        have hans : (K.step p.state c).Answers (onError e) := by rw [hstep]; exact .inr ⟨e, rfl⟩
        refine ⟨fun n hn => ?_, ?_⟩
        · subst hn
          exact K.answer_le hans
        · exact le_trans (K.budget_answer hans _) (K.budget_mono _ (by simpa using hav))
      · rw [hread] at hav
        cases bs with
        | nil =>
          have hans : (K.step p.state c).Answers onEnd := by rw [hstep]; exact .inl rfl
          refine ⟨fun n hn => ?_, ?_⟩
          · subst hn
            exact K.answer_le hans
          · exact le_trans (K.budget_answer hans _) (K.budget_mono _ (by simpa using hav))
        | cons b bs =>
          obtain ⟨hfit, hpaid⟩ := ih ⟨onData (b :: bs), r⟩
          refine ⟨hfit, le_trans hpaid ?_⟩
          exact le_trans (K.budget_data hstep (b :: bs) _) (K.budget_mono _ hav)

instance [LawfulRead ε ρ] : LawfulRead ε (Pipe K ρ) where
  read_le n p := (callLoop_bounds (.read n) _ p).1 n rfl
  avail_le n p := (callLoop_bounds (.read n) _ p).2

end Pipe

end ZipForensic
