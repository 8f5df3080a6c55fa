import ZipForensic.Stream.FrameCodec
import ZipForensic.Stream.Received
import ZipForensic.Stream.Simulation

/-!
# Ends that last, and failures that do not

- `CanEnd r`: some run of reads of `r` comes to the end of the stream. `FinalEnd r`: an end
  that was reported once is reported by every later read.
- `HandsOut`: readers that deliver their bytes in pieces as large as asked for. Behind the last
  byte some report the end (`Concludes`), some fail every time (`Blocks`), and some fail once
  and report the end from then on (`FailsOnce`, `FailsOnce.fails_then_ends`).
- `Probe` is the data alone, with a note whether it was asked for more. A decoder over a reader
  that hands out the data is in step with one over the probe until that is asked for more
  (`Pipe.InStep.reads_unasked`).
- `Codec.Resumes`: a decoder that hands on a failure from below and starts over with the next
  read. Over a reader that fails once, it hands on that failure and later reports the end
  exactly if it would ask behind the last byte of the data and report the end
  (`Pipe.failsThenEnds_iff`). Over one that blocks, it reports the end only where it did not ask
  (`Pipe.InStep.ends_unasked`).
-/

namespace ZipForensic

variable {ε ρ σ : Type}

section Runs

variable [Read ε ρ] [Read ε σ]

/-- Some run of reads reports the end. -/
def CanEnd (r : ρ) : Prop :=
  ∃ ns n, (∀ m ∈ ns, 0 < m) ∧ 0 < n ∧ (read n (reads ns r).2).1 = .ok []

/-- A reported end is reported again by every later read. -/
def FinalEnd (r : ρ) : Prop :=
  ∀ ns n ms m, (∀ m ∈ ns, 0 < m) → 0 < n → (∀ m ∈ ms, 0 < m) → 0 < m →
    (read n (reads ns r).2).1 = .ok [] →
      (read m (reads ms (read n (reads ns r).2).2).2).1 = .ok []

/-- An invariant `I` of the reads, and the states `E` behind the end. -/
structure EndStates (I E : ρ → Prop) : Prop where
  keeps : ∀ {r n}, I r → 0 < n → I (read n r).2
  reaches : ∀ {r n}, I r → 0 < n → (read n r).1 = .ok [] → E (read n r).2
  stays : ∀ {r n}, E r → 0 < n → (read n r).1 = .ok [] ∧ E (read n r).2

theorem EndStates.finalEnd {I E : ρ → Prop} (h : EndStates I E) {r : ρ} (hr : I r) :
    FinalEnd r := by
  intro ns n ms m hns hn hms hm hread
  have hbehind : E (read n (reads ns r).2).2 :=
    h.reaches (reads_invariant I h.keeps hns hr) hn hread
  exact (h.stays (reads_invariant E (fun hr hn => (h.stays hr hn).2) hms hbehind) hm).1

theorem FinalEnd.after {r : ρ} (h : FinalEnd r) {ns : List Nat} (hns : ∀ m ∈ ns, 0 < m) :
    FinalEnd (reads ns r).2 := by
  intro ms n ls l hms hn hls hl hread
  have hrun := h (ns ++ ms) n ls l (fun m hm => (List.mem_append.1 hm).elim (hns m) (hms m)) hn
    hls hl
  rw [reads_append] at hrun
  exact hrun hread

theorem FinalEnd.read {r : ρ} (h : FinalEnd r) {n : Nat} (hn : 0 < n) :
    FinalEnd (ZipForensic.read n r).2 :=
  h.after (List.forall_mem_singleton.2 hn)

theorem FinalEnd.map {f : ρ → σ} (hf : ReadHom f) {r : ρ} : FinalEnd (f r) ↔ FinalEnd r := by
  unfold FinalEnd
  simp only [reads_map hf, hf.read_map]

theorem CanEnd.map {f : ρ → σ} (hf : ReadHom f) {r : ρ} : CanEnd (f r) ↔ CanEnd r := by
  unfold CanEnd
  simp only [reads_map hf, hf.read_map]

/-- A limit is an end of its own. -/
theorem EndStates.take {I E : ρ → Prop} (h : EndStates I E) :
    EndStates (fun t : Take ρ => I t.inner) fun t => t.limit = 0 ∨ E t.inner where
  keeps := by
    rintro ⟨r, limit⟩ n hr hn
    by_cases hlimit : limit = 0
    · subst hlimit
      exact hr
    · have hnext := h.keeps hr (show 0 < min n limit by omega)
      rcases hread : read (min n limit) r with ⟨e | bs, r'⟩
      · rw [hread] at hnext
        rw [Take.read_error hlimit hread]
        exact hnext
      · rw [hread] at hnext
        rw [Take.read_ok hlimit hread]
        exact hnext
  reaches := by
    rintro ⟨r, limit⟩ n hr hn hread
    by_cases hlimit : limit = 0
    · subst hlimit
      exact .inl rfl
    · have hnext := h.reaches hr (show 0 < min n limit by omega)
      rcases hinner : read (min n limit) r with ⟨e | bs, r'⟩
      · rw [Take.read_error hlimit hinner] at hread
        cases hread
      · rw [Take.read_ok hlimit hinner] at hread
        obtain rfl := Except.ok.inj hread
        rw [hinner] at hnext
        rw [Take.read_ok hlimit hinner]
        exact .inr (hnext rfl)
  stays := by
    rintro ⟨r, limit⟩ n hr hn
    by_cases hlimit : limit = 0
    · subst hlimit
      exact ⟨rfl, .inl rfl⟩
    · obtain ⟨hread, hnext⟩ := h.stays (hr.resolve_left hlimit) (show 0 < min n limit by omega)
      have hinner : read (min n limit) r = (.ok [], (read (min n limit) r).2) := Prod.ext hread rfl
      rw [Take.read_ok hlimit hinner]
      exact ⟨rfl, .inr hnext⟩

end Runs

theorem Window.endStates : EndStates (ε := ε) (fun _ => True) fun w : Window ε => w.rest = [] where
  keeps _ _ := trivial
  reaches {w n} _ hn hread := by
    have hnil : w.rest.take n = [] := Except.ok.inj hread
    rcases List.take_eq_nil_iff.1 hnil with hzero | hempty
    · omega
    · show w.rest.drop n = []
      rw [hempty, List.drop_nil]
  stays {w n} hw _ := by
    rw [Window.read_eq, hw, List.take_nil, List.drop_nil]
    exact ⟨rfl, rfl⟩

/-- Over a reader whose end is final, the decoder's end is. -/
def Codec.KeepsEnding (K : Codec ε) : Prop :=
  ∀ {ρ : Type} [Read ε ρ] [LawfulRead ε ρ] {r : ρ}, FinalEnd r → FinalEnd (⟨K.init, r⟩ : Pipe K ρ)

/-! ## Decoders that start over -/

/-- Whether a decoder asks for input does not depend on the caller's buffer. A failure from
below is handed on, and the next read asks again. -/
structure Codec.Resumes (K : Codec ε) : Prop where
  asks : ∀ {s n m N onData onEnd onError}, K.step s (.read n) = .pull N onData onEnd onError →
    0 < n → 0 < m → ∃ onEnd', K.step s (.read m) = .pull N onData onEnd' onError
  handsOn : ∀ {s c N onData onEnd onError}, K.step s c = .pull N onData onEnd onError →
    ∀ e, (onError e).1 = .error e
  retries : ∀ {s n m N onData onEnd onError}, K.step s (.read n) = .pull N onData onEnd onError →
    0 < n → 0 < m → ∀ e, K.step (onError e).2 (.read m) = K.step s (.read m)

/-- The errors a decoder makes itself. -/
structure Codec.OwnErrors (P : ε → Prop) (K : Codec ε) : Prop where
  out : ∀ {s c e s'}, K.step s c = .out (.error e) s' → P e
  onEnd : ∀ {s c n onData onEnd onError e}, K.step s c = .pull n onData onEnd onError →
    onEnd.1 = .error e → P e

theorem Codec.OwnErrors.raisesOnly {K : Codec ε} {P Q : ε → Prop} (hown : K.OwnErrors P)
    (hK : K.Resumes) (hQ : ∀ e, P e → Q e) : K.RaisesOnly Q where
  out h := hQ _ (hown.out h)
  onEnd h herror := hQ _ (hown.onEnd h herror)
  onError {_ _ _ _ _ _ e e'} h he herror := by
    obtain rfl : e' = e := Except.error.inj ((hK.handsOn h e').symm.trans herror)
    exact he

section Below

variable [Read ε ρ] {K : Codec ε} {I : ρ → Prop} {P : ε → Prop}

/-- What reads of the reader below preserve, a call on the decoder does. -/
theorem Pipe.callLoop_inner (hI : ∀ {r n}, I r → 0 < n → I (read n r).2) {c : Call} {fuel : Nat}
    {p : Pipe K ρ} (hp : I p.inner) : I (callLoop c fuel p).2.inner := by
  induction fuel generalizing p with
  | zero => exact hp
  | succ fuel ih =>
    obtain ⟨s, r⟩ := p
    cases hstep : K.step s c with
    | out a s' =>
      rw [callLoop_out hstep]
      exact hp
    | pull n onData onEnd onError =>
      have hnext := hI hp (K.pull_pos hstep)
      dsimp only at hnext
      rcases hread : read n r with ⟨e | _ | ⟨b, bs⟩, r'⟩
      · rw [hread] at hnext
        rw [callLoop_error hstep hread]
        exact hnext
      · rw [hread] at hnext
        rw [callLoop_end hstep hread]
        exact hnext
      · rw [hread] at hnext
        rw [callLoop_data hstep hread]
        exact ih hnext

/-- An error is the decoder's own, or it is that of the last read below. -/
theorem Pipe.callLoop_error_below (hK : K.Resumes) (hown : K.OwnErrors P)
    (hI : ∀ {r n}, I r → 0 < n → I (read n r).2) {c : Call} {fuel : Nat} {p : Pipe K ρ}
    (hp : I p.inner) {e : ε} (h : (callLoop c fuel p).1 = .error e) :
    P e ∨ ∃ r n, I r ∧ 0 < n ∧ (read n r).1 = .error e ∧
      (callLoop c fuel p).2.inner = (read n r).2 := by
  induction fuel generalizing p with
  | zero => cases h
  | succ fuel ih =>
    obtain ⟨s, r⟩ := p
    cases hstep : K.step s c with
    | out a s' =>
      rw [callLoop_out hstep] at h
      dsimp only at h
      subst h
      exact .inl (hown.out hstep)
    | pull n onData onEnd onError =>
      have hn := K.pull_pos hstep
      have hnext := hI hp hn
      dsimp only at hnext hp
      rcases hread : read n r with ⟨e' | _ | ⟨b, bs⟩, r'⟩
      · rw [callLoop_error hstep hread] at h ⊢
        obtain rfl : e' = e := Except.error.inj ((hK.handsOn hstep e').symm.trans h)
        exact .inr ⟨r, n, hp, hn, congrArg Prod.fst hread, (congrArg Prod.snd hread).symm⟩
      · rw [callLoop_end hstep hread] at h
        exact .inl (hown.onEnd hstep h)
      · rw [hread] at hnext
        rw [callLoop_data hstep hread] at h ⊢
        exact ih hnext h

end Below

/-- Data, with a note whether a read asked for more than there is. -/
structure Probe (ε : Type) where
  rest : Bytes
  asked : Bool

namespace Probe

instance : Read ε (Probe ε) where
  read n p := (.ok (p.rest.take n), ⟨p.rest.drop n, p.asked || p.rest.isEmpty⟩)
  avail p := p.rest.length

theorem read_more {bs : Bytes} (h : bs ≠ []) (n : Nat) :
    read n (⟨bs, false⟩ : Probe ε) = (.ok (bs.take n), ⟨bs.drop n, false⟩) := by
  show (_, Probe.mk _ (false || bs.isEmpty)) = _
  rw [List.isEmpty_eq_false_iff.2 h]
  rfl

theorem read_nil (asked : Bool) (n : Nat) :
    read n (⟨[], asked⟩ : Probe ε) = (.ok [], ⟨[], true⟩) := by
  show (Except.ok (List.take n []), Probe.mk (List.drop n []) (asked || true)) = _
  rw [List.take_nil, List.drop_nil, Bool.or_true]

theorem read_succ_cons (b : UInt8) (bs : Bytes) (asked : Bool) (n : Nat) :
    read (n + 1) (⟨b :: bs, asked⟩ : Probe ε) = (.ok (b :: bs.take n), ⟨bs.drop n, asked⟩) := by
  show (_, Probe.mk _ (asked || false)) = _
  rw [Bool.or_false]
  rfl

instance {P : ε → Prop} : RaisesOnly P (Probe ε) where
  read_error h := by cases h

instance : LawfulRead ε (Probe ε) where
  read_le n w := List.length_take_le n w.rest
  avail_le n w := by
    show (w.rest.take n).length + (w.rest.drop n).length ≤ w.rest.length
    rw [List.length_take, List.length_drop]
    omega

/-- The data, and no note. -/
def window (w : Probe ε) : Window ε := ⟨w.rest⟩

theorem readHom_window : ReadHom (window (ε := ε)) := ⟨fun _ _ => rfl, fun _ => rfl⟩

/-- What was asked for stays so. -/
theorem asked_read {w : Probe ε} (n : Nat) (h : w.asked = true) : (read n w).2.asked = true := by
  show (w.asked || w.rest.isEmpty) = true
  rw [h, Bool.true_or]

end Probe

/-- The decoder over the data reports the end, behind a read for more than there is. -/
def Pipe.EndsAsked {K : Codec ε} (q : Pipe K (Probe ε)) : Prop :=
  ∃ ns n, (∀ m ∈ ns, 0 < m) ∧ 0 < n ∧ (read n (reads ns q).2).1 = .ok [] ∧
    (read n (reads ns q).2).2.inner.asked = true

def Codec.EndsAsked (K : Codec ε) (data : Bytes) : Prop :=
  (⟨K.init, ⟨data, false⟩⟩ : Pipe K (Probe ε)).EndsAsked

/-- Some run over the data reports the end (and, if `again` holds, reported it before) without
a read for more than there is. -/
def Pipe.EndsUnasked {K : Codec ε} (again : Prop) (q : Pipe K (Probe ε)) : Prop :=
  ∃ ns n, (∀ m ∈ ns, 0 < m) ∧ 0 < n ∧ (again → .ok [] ∈ (reads ns q).1) ∧
    (read n (reads ns q).2).1 = .ok [] ∧ (read n (reads ns q).2).2.inner.asked = false

def Codec.EndsUnasked (K : Codec ε) (data : Bytes) (again : Prop) : Prop :=
  (⟨K.init, ⟨data, false⟩⟩ : Pipe K (Probe ε)).EndsUnasked again

section Asked

variable {K : Codec ε} {q : Pipe K (Probe ε)}

theorem Pipe.not_asked_of_call {c : Call} (h : (q.call c).2.inner.asked = false) :
    q.inner.asked = false := by
  by_contra hasked
  have hnext : (q.call c).2.inner.asked = true :=
    callLoop_inner (I := fun w : Probe ε => w.asked = true) (fun h _ => Probe.asked_read _ h)
      (Bool.of_not_eq_false hasked)
  rw [h] at hnext
  cases hnext

theorem Pipe.not_asked_of_reads {ns : List Nat} (h : (reads ns q).2.inner.asked = false) :
    q.inner.asked = false := by
  induction ns generalizing q with
  | nil => exact h
  | cons n ns ih => exact not_asked_of_call (ih h)

end Asked

/-! ## Readers, by what they do behind their data -/

section Behind

variable [Read ε ρ]

/-- In the states `Before` the reader hands out `rest`, in pieces as large as asked for. -/
structure HandsOut (rest : ρ → Bytes) (Before : ρ → Prop) : Prop where
  more : ∀ {r n}, Before r → rest r ≠ [] → 0 < n → (read n r).1 = .ok ((rest r).take n) ∧
    rest (read n r).2 = (rest r).drop n ∧ Before (read n r).2
  le_avail : ∀ {r}, Before r → (rest r).length ≤ avail r

/-- Behind `rest` it reports the end, and is in the states `After`. -/
structure Concludes (rest : ρ → Bytes) (Before After : ρ → Prop) : Prop
    extends HandsOut rest Before where
  ends : ∀ {r n}, Before r → rest r = [] → 0 < n → (read n r).1 = .ok [] ∧ After (read n r).2
  ended : ∀ {r n}, After r → 0 < n → (read n r).1 = .ok [] ∧ After (read n r).2
  avail_eq : ∀ {r}, Before r → avail r = (rest r).length
  avail_ended : ∀ {r}, After r → avail r = 0

/-- Behind `rest` every read fails. -/
structure Blocks (rest : ρ → Bytes) (Before : ρ → Prop) : Prop extends HandsOut rest Before where
  blocked : ∀ {r n}, Before r → rest r = [] → 0 < n → ∃ e, read n r = (.error e, r)

/-- Behind `rest` it fails with `e`, and in the states `After` it is at its end. -/
structure FailsOnce (e : ε) (rest : ρ → Bytes) (Before After : ρ → Prop) : Prop
    extends HandsOut rest Before where
  fails : ∀ {r n}, Before r → rest r = [] → 0 < n → (read n r).1 = .error e ∧ After (read n r).2
  ended : ∀ {r n}, After r → 0 < n → (read n r).1 = .ok [] ∧ After (read n r).2

/-- Short of the end, the data is read alike. -/
theorem HandsOut.read_cons {rest : ρ → Bytes} {Before : ρ → Prop} (h : HandsOut rest Before)
    {r : ρ} {n : Nat} (hr : Before r) (hrest : rest r ≠ []) (hn : 0 < n) :
    ∃ b bs, read n r = (.ok (b :: bs), (read n r).2) ∧
      read n (⟨rest r, false⟩ : Probe ε) = (.ok (b :: bs), ⟨rest (read n r).2, false⟩) ∧
      Before (read n r).2 ∧ (rest (read n r).2).length < (rest r).length := by
  obtain ⟨hread, hdrop, hnext⟩ := h.more hr hrest hn
  obtain ⟨b, bs, hpiece⟩ : ∃ b bs, (rest r).take n = b :: bs :=
    List.exists_cons_of_ne_nil fun hnil =>
      (List.take_eq_nil_iff.1 hnil).elim (fun h => by omega) hrest
  refine ⟨b, bs, Prod.ext (hread.trans (congrArg Except.ok hpiece)) rfl, ?_, hnext, ?_⟩
  · rw [Probe.read_more hrest, hpiece, hdrop]
  · have hpos := List.length_pos_of_ne_nil hrest
    rw [hdrop, List.length_drop]
    omega

/-- A reader that ends cannot be told from its data. -/
theorem Concludes.readSim {rest : ρ → Bytes} {Before After : ρ → Prop}
    (h : Concludes rest Before After) :
    ReadSim fun (r : ρ) (w : Probe ε) =>
      (Before r ∧ w = ⟨rest r, false⟩) ∨ (After r ∧ w = ⟨[], true⟩) where
  read := by
    rintro r w n (⟨hr, rfl⟩ | ⟨hr, rfl⟩) hn
    · by_cases hrest : rest r = []
      · obtain ⟨hread, hafter⟩ := h.ends hr hrest hn
        rw [hrest, Probe.read_nil, hread]
        exact ⟨rfl, .inr ⟨hafter, rfl⟩⟩
      · obtain ⟨hread, hdrop, hbefore⟩ := h.more hr hrest hn
        rw [Probe.read_more hrest, hread]
        exact ⟨rfl, .inl ⟨hbefore, by rw [hdrop]⟩⟩
    · obtain ⟨hread, hafter⟩ := h.ended hr hn
      rw [Probe.read_nil, hread]
      exact ⟨rfl, .inr ⟨hafter, rfl⟩⟩
  avail := by
    rintro r w (⟨hr, rfl⟩ | ⟨hr, rfl⟩)
    · exact h.avail_eq hr
    · exact h.avail_ended hr

end Behind

/-- Some run fails with `e`, the reader `inner` below being in `After` then, and some later
read reports the end. -/
def FailsThenEnds [Read ε σ] (e : ε) (After : ρ → Prop) (inner : σ → ρ) (r : σ) : Prop :=
  ∃ ns n, (∀ m ∈ ns, 0 < m) ∧ 0 < n ∧ (read n (reads ns r).2).1 = .error e ∧
    After (inner (read n (reads ns r).2).2) ∧ CanEnd (read n (reads ns r).2).2

theorem FailsThenEnds.map {ρ' σ' : Type} [Read ε σ] [Read ε σ'] {g : σ → σ'} (hg : ReadHom g)
    {After : ρ → Prop} {inner : σ → ρ} {After' : ρ' → Prop} {inner' : σ' → ρ'}
    (h : ∀ r, After' (inner' (g r)) ↔ After (inner r)) {e : ε} {r : σ} :
    FailsThenEnds e After' inner' (g r) ↔ FailsThenEnds e After inner r := by
  unfold FailsThenEnds
  simp only [reads_map hg, hg.read_map, h, CanEnd.map hg]

section Once

variable [Read ε ρ] {e : ε} {rest : ρ → Bytes} {Before After : ρ → Prop}

theorem FailsOnce.not_after (h : FailsOnce e rest Before After) {r : ρ} (hr : Before r) :
    ¬ After r := by
  intro hafter
  have hend := (h.ended hafter Nat.one_pos).1
  by_cases hrest : rest r = []
  · rw [(h.fails hr hrest Nat.one_pos).1] at hend
    cases hend
  · rw [(h.more hr hrest Nat.one_pos).1] at hend
    rcases List.take_eq_nil_iff.1 (Except.ok.inj hend) with hzero | hnil
    · cases hzero
    · exact hrest hnil

/-- The reader itself can be read past its failure. -/
theorem FailsOnce.fails_then_ends (h : FailsOnce e rest Before After) {r : ρ} (hr : Before r) :
    FailsThenEnds e After id r := by
  have hrun : ∀ {r : ρ}, Before r → rest r = [] → FailsThenEnds e After id r := by
    intro r hr hrest
    obtain ⟨hfail, hafter⟩ := h.fails hr hrest Nat.one_pos
    exact ⟨[], 1, nofun, Nat.one_pos, hfail, hafter, [], 1, nofun, Nat.one_pos,
      (h.ended hafter Nat.one_pos).1⟩
  by_cases hrest : rest r = []
  · exact hrun hr hrest
  · -- one read takes it all
    have hpos := List.length_pos_of_ne_nil hrest
    obtain ⟨-, hnext, hbefore⟩ := h.more hr hrest hpos
    rw [List.drop_length] at hnext
    obtain ⟨ns, n, hns, hn, hfail⟩ := hrun hbefore hnext
    exact ⟨(rest r).length :: ns, n, List.forall_mem_cons.2 ⟨hpos, hns⟩, hn, hfail⟩

end Once

/-! ## Decoders over them -/

namespace Pipe

variable [Read ε ρ] {K : Codec ε}

section Relations

variable (rest : ρ → Bytes) (Before After : ρ → Prop)

/-- The decoder has not come to the failure, and is where it is over the data alone. -/
structure InStep (p : Pipe K ρ) (q : Pipe K (Probe ε)) : Prop where
  state : p.state = q.state
  before : Before p.inner
  inner : q.inner = ⟨rest p.inner, false⟩

/-- Both readers below are at their end. -/
structure Told (p : Pipe K ρ) (q : Pipe K (Probe ε)) : Prop where
  state : p.state = q.state
  after : After p.inner
  inner : q.inner = ⟨[], true⟩

/-- From `p` on, reads answer as they do from `q` on, where they come to the end of the data. -/
def GoesOnAs (p : Pipe K ρ) (q : Pipe K (Probe ε)) : Prop :=
  ∀ n, 0 < n → (read n p).1 = (read n q).1 ∧ Told After (read n p).2 (read n q).2

end Relations

variable {e : ε} {rest : ρ → Bytes} {Before After : ρ → Prop}
  (hr : FailsOnce e rest Before After) {p : Pipe K ρ} {q : Pipe K (Probe ε)}
include hr

theorem Told.goesOnAs (h : Told After p q) : GoesOnAs After p q := by
  obtain ⟨s, r⟩ := p
  obtain ⟨t, w⟩ := q
  obtain ⟨rfl, hafter, rfl⟩ := h
  intro n hn
  show (callLoop _ (_ + 1) _).1 = (callLoop _ (_ + 1) _).1 ∧
    Told After (callLoop _ (_ + 1) _).2 (callLoop _ (_ + 1) _).2
  cases hstep : K.step s (.read n) with
  | out a s' =>
    rw [callLoop_out hstep, callLoop_out hstep]
    exact ⟨rfl, rfl, hafter, rfl⟩
  | pull N onData onEnd onError =>
    obtain ⟨hread, hnext⟩ := hr.ended hafter (K.pull_pos hstep)
    rw [callLoop_end hstep (Prod.ext hread rfl), callLoop_end hstep (Probe.read_nil true N)]
    exact ⟨rfl, rfl, hnext, rfl⟩

/-- A call either stays in step, or it comes to the failure, and then the next read goes on as
it would have done in its place. -/
theorem callLoop_inStep (hK : K.Resumes) {n : Nat} (hn : 0 < n) {fuel : Nat} {s : K.State} {r : ρ}
    (hbefore : Before r) (hfuel : (rest r).length < fuel) :
    ((callLoop (.read n) fuel ⟨s, r⟩).1 =
        (callLoop (.read n) fuel (⟨s, ⟨rest r, false⟩⟩ : Pipe K (Probe ε))).1 ∧
      InStep rest Before (callLoop (.read n) fuel ⟨s, r⟩).2
        (callLoop (.read n) fuel (⟨s, ⟨rest r, false⟩⟩ : Pipe K (Probe ε))).2) ∨
    ((callLoop (.read n) fuel ⟨s, r⟩).1 = .error e ∧
      After (callLoop (.read n) fuel ⟨s, r⟩).2.inner ∧
      ∀ m, 0 < m →
        (read m (callLoop (.read n) fuel ⟨s, r⟩).2).1 =
            (callLoop (.read m) fuel (⟨s, ⟨rest r, false⟩⟩ : Pipe K (Probe ε))).1 ∧
          Told After (read m (callLoop (.read n) fuel ⟨s, r⟩).2).2
            (callLoop (.read m) fuel (⟨s, ⟨rest r, false⟩⟩ : Pipe K (Probe ε))).2) := by
  induction fuel generalizing s r with
  | zero => omega
  | succ fuel ih =>
    cases hstep : K.step s (.read n) with
    | out a s' =>
      rw [callLoop_out hstep, callLoop_out hstep]
      exact .inl ⟨rfl, rfl, hbefore, rfl⟩
    | pull N onData onEnd onError =>
      have hN := K.pull_pos hstep
      by_cases hrest : rest r = []
      · -- the decoder asks behind the last byte
        obtain ⟨hread, hafter⟩ := hr.fails hbefore hrest hN
        obtain ⟨hend, hnext⟩ := hr.ended hafter hN
        rw [callLoop_error hstep (Prod.ext hread rfl)]
        refine .inr ⟨hK.handsOn hstep e, hafter, fun m hm => ?_⟩
        obtain ⟨onEnd', hask⟩ := hK.asks hstep hn hm
        have hagain : read m (⟨(onError e).2, (read N r).2⟩ : Pipe K ρ) =
            (onEnd'.1, ⟨onEnd'.2, (read N (read N r).2).2⟩) :=
          callLoop_end ((hK.retries hstep hn hm e).trans hask) (Prod.ext hend rfl)
        rw [hagain, hrest, callLoop_end hask (Probe.read_nil false N)]
        exact ⟨rfl, rfl, hnext, rfl⟩
      · obtain ⟨b, bs, hread, hdata, hnext, hleft⟩ := hr.read_cons hbefore hrest hN
        have hprobe : ∀ m, 0 < m →
            callLoop (.read m) (fuel + 1) (⟨s, ⟨rest r, false⟩⟩ : Pipe K (Probe ε)) =
              callLoop (.read m) fuel ⟨onData (b :: bs), ⟨rest (read N r).2, false⟩⟩ := by
          intro m hm
          obtain ⟨onEnd', hask⟩ := hK.asks hstep hn hm
          exact callLoop_data hask hdata
        rw [callLoop_data hstep hread, hprobe n hn]
        refine (ih hnext (by omega)).imp_right ?_
        rintro ⟨hfail, hafter, hgoes⟩
        refine ⟨hfail, hafter, fun m hm => ?_⟩
        rw [hprobe m hm]
        exact hgoes m hm

theorem InStep.read (hK : K.Resumes) (h : InStep rest Before p q) {n : Nat} (hn : 0 < n) :
    ((ZipForensic.read n p).1 = (ZipForensic.read n q).1 ∧
      InStep rest Before (ZipForensic.read n p).2 (ZipForensic.read n q).2) ∨
    ((ZipForensic.read n p).1 = .error e ∧ After (ZipForensic.read n p).2.inner ∧
      GoesOnAs After (ZipForensic.read n p).2 q) := by
  obtain ⟨s, r⟩ := p
  obtain ⟨t, w⟩ := q
  obtain ⟨rfl, hbefore, rfl⟩ := h
  have hfuel := Nat.lt_succ_of_le (hr.le_avail hbefore)
  have hcall := callLoop_inStep hr hK hn hbefore hfuel (s := s)
  have hprobe : ∀ m, ZipForensic.read m (⟨s, ⟨rest r, false⟩⟩ : Pipe K (Probe ε)) =
      callLoop (.read m) (avail r + 1) ⟨s, ⟨rest r, false⟩⟩ :=
    fun _ => callLoop_fuel (Nat.lt_succ_self _) hfuel
  unfold GoesOnAs
  simp only [hprobe]
  exact hcall

/-- Its answers are the same from then on. -/
theorem GoesOnAs.reads (h : GoesOnAs After p q) {ns : List Nat} (hns : ∀ n ∈ ns, 0 < n) :
    GoesOnAs After (ZipForensic.reads ns p).2 (ZipForensic.reads ns q).2 := by
  induction ns generalizing p q with
  | nil => exact h
  | cons n ns ih =>
    have hnext := (h n (hns n List.mem_cons_self)).2
    exact ih (hnext.goesOnAs hr) fun m hm => hns m (List.mem_cons_of_mem _ hm)

/-- **A failure that is passed over**: the decoder hands on the failure of the reader below and
later reports the end exactly if, over the data alone, it asks for more and reports the end. -/
theorem failsThenEnds_iff (hK : K.Resumes) (hown : K.RaisesOnly (· ≠ e))
    (h : InStep rest Before p q) : FailsThenEnds e After Pipe.inner p ↔ q.EndsAsked := by
  constructor
  · rintro ⟨ns, n, hns, hn, hfail, hafter, ms, m, hms, hm, hend⟩
    induction ns generalizing p q with
    | nil =>
      rcases h.read hr hK hn with ⟨-, hnext⟩ | ⟨-, -, hgoes⟩
      · exact absurd hafter (hr.not_after hnext.before)
      · obtain ⟨hsame, htold⟩ := hgoes.reads hr hms m hm
        exact ⟨ms, m, hms, hm, hsame.symm.trans hend, congrArg Probe.asked htold.inner⟩
    | cons n' ns ih =>
      obtain ⟨hn', hns⟩ := List.forall_mem_cons.1 hns
      rcases h.read hr hK hn' with ⟨-, hnext⟩ | ⟨-, -, hgoes⟩
      · obtain ⟨ls, l, hls, hl, hasked⟩ := ih hnext hns hfail hafter hend
        exact ⟨n' :: ls, l, List.forall_mem_cons.2 ⟨hn', hls⟩, hl, hasked⟩
      · -- the failure is behind the decoder: it has no such error of its own
        have hsame := (hgoes.reads hr hns n hn).1
        rw [show (ZipForensic.read n (ZipForensic.reads ns (ZipForensic.read n' p).2).2).1 =
          .error e from hfail] at hsame
        exact absurd rfl ((Pipe.raisesOnly hown).read_error hsame.symm)
  · rintro ⟨ns, n, hns, hn, hend, hasked⟩
    induction ns generalizing p q with
    | nil =>
      rcases h.read hr hK hn with ⟨-, hnext⟩ | ⟨hfail, hafter, hgoes⟩
      · have hnot := congrArg Probe.asked hnext.inner
        rw [show (ZipForensic.read n q).2.inner.asked = true from hasked] at hnot
        cases hnot
      · exact ⟨[], n, nofun, hn, hfail, hafter, [], n, nofun, hn, (hgoes n hn).1.trans hend⟩
    | cons n' ns ih =>
      obtain ⟨hn', hns'⟩ := List.forall_mem_cons.1 hns
      rcases h.read hr hK hn' with ⟨-, hnext⟩ | ⟨hfail, hafter, hgoes⟩
      · obtain ⟨ls, l, hls, hl, hfail⟩ := ih hnext hns' hend hasked
        exact ⟨n' :: ls, l, List.forall_mem_cons.2 ⟨hn', hls⟩, hl, hfail⟩
      · have hsame := (hgoes.reads hr hns n hn).1
        exact ⟨[], n', nofun, hn', hfail, hafter, n' :: ns, n, hns, hn, hsame.trans hend⟩

end Pipe

/-! ## In step with the data -/

namespace Pipe

variable [Read ε ρ] {K : Codec ε} {rest : ρ → Bytes} {Before : ρ → Prop} {p : Pipe K ρ}
  {q : Pipe K (Probe ε)}

/-- A call that does not ask for more than there is. -/
theorem callLoop_unasked (hr : HandsOut rest Before) {c : Call} {fuel : Nat} {s : K.State} {r : ρ}
    (hbefore : Before r) (hfuel : (rest r).length < fuel)
    (hq : (callLoop c fuel (⟨s, ⟨rest r, false⟩⟩ : Pipe K (Probe ε))).2.inner.asked = false) :
    (callLoop c fuel ⟨s, r⟩).1 =
        (callLoop c fuel (⟨s, ⟨rest r, false⟩⟩ : Pipe K (Probe ε))).1 ∧
      InStep rest Before (callLoop c fuel ⟨s, r⟩).2
        (callLoop c fuel (⟨s, ⟨rest r, false⟩⟩ : Pipe K (Probe ε))).2 := by
  induction fuel generalizing s r with
  | zero => omega
  | succ fuel ih =>
    cases hstep : K.step s c with
    | out a s' =>
      rw [callLoop_out hstep, callLoop_out hstep]
      exact ⟨rfl, rfl, hbefore, rfl⟩
    | pull N onData onEnd onError =>
      have hN := K.pull_pos hstep
      by_cases hrest : rest r = []
      · rw [hrest, callLoop_end hstep (Probe.read_nil false N)] at hq
        cases hq
      · obtain ⟨b, bs, hread, hdata, hnext, hleft⟩ := hr.read_cons hbefore hrest hN
        rw [callLoop_data hstep hdata] at hq ⊢
        rw [callLoop_data hstep hread]
        exact ih hnext (by omega) hq

/-- The same with the fuel of a call on each side. -/
theorem InStep.read_eq (hr : HandsOut rest Before) (h : InStep rest Before p q) (n : Nat) :
    ∃ fuel, (rest p.inner).length < fuel ∧
      ZipForensic.read n p = callLoop (.read n) fuel ⟨p.state, p.inner⟩ ∧
      ZipForensic.read n q =
        callLoop (.read n) fuel (⟨p.state, ⟨rest p.inner, false⟩⟩ : Pipe K (Probe ε)) := by
  obtain ⟨s, r⟩ := p
  obtain ⟨t, w⟩ := q
  obtain ⟨rfl, hbefore, rfl⟩ := h
  have hfuel := Nat.lt_succ_of_le (hr.le_avail hbefore)
  exact ⟨avail r + 1, hfuel, rfl, callLoop_fuel (Nat.lt_succ_self _) hfuel⟩

theorem InStep.read_unasked (hr : HandsOut rest Before) (h : InStep rest Before p q) {n : Nat}
    (hq : (ZipForensic.read n q).2.inner.asked = false) :
    (ZipForensic.read n p).1 = (ZipForensic.read n q).1 ∧
      InStep rest Before (ZipForensic.read n p).2 (ZipForensic.read n q).2 := by
  obtain ⟨fuel, hfuel, hp, hprobe⟩ := h.read_eq hr n
  rw [hprobe] at hq
  rw [hp, hprobe]
  exact callLoop_unasked hr h.before hfuel hq

/-- **In step with the data**: as long as the decoder over the data does not ask for more, the
one over the reader answers alike. -/
theorem InStep.reads_unasked (hr : HandsOut rest Before) (h : InStep rest Before p q)
    {ns : List Nat} (hq : (ZipForensic.reads ns q).2.inner.asked = false) :
    (ZipForensic.reads ns p).1 = (ZipForensic.reads ns q).1 ∧
      InStep rest Before (ZipForensic.reads ns p).2 (ZipForensic.reads ns q).2 := by
  induction ns generalizing p q with
  | nil => exact ⟨rfl, h⟩
  | cons n ns ih =>
    obtain ⟨hread, hnext⟩ := h.read_unasked hr (not_asked_of_reads hq)
    obtain ⟨hreads, hlast⟩ := ih hnext hq
    rw [reads_cons, reads_cons, hread, hreads]
    exact ⟨rfl, hlast⟩

/-- Every read of the decoder asks for more, and there is none. -/
structure Stuck (rest : ρ → Bytes) (Before : ρ → Prop) (p : Pipe K ρ) : Prop where
  before : Before p.inner
  nothing : rest p.inner = []
  asks : ∀ n, 0 < n → ∃ N onData onEnd onError,
    K.step p.state (.read n) = .pull N onData onEnd onError

section Blocked

variable (hr : Blocks rest Before) (hK : K.Resumes)
include hr hK

/-- A decoder that asks behind the data fails, and is stuck. -/
theorem Stuck.callLoop {s : K.State} {r : ρ} {n fuel : Nat} (hn : 0 < n) (hbefore : Before r)
    (hrest : rest r = []) {N : Nat} {onData : Bytes → K.State}
    {onEnd : Except ε Bytes × K.State} {onError : ε → Except ε Bytes × K.State}
    (hstep : K.step s (.read n) = .pull N onData onEnd onError) :
    (∃ e, (callLoop (.read n) (fuel + 1) (⟨s, r⟩ : Pipe K ρ)).1 = .error e) ∧
      Stuck rest Before (Pipe.callLoop (.read n) (fuel + 1) (⟨s, r⟩ : Pipe K ρ)).2 := by
  obtain ⟨e, hread⟩ := hr.blocked hbefore hrest (K.pull_pos hstep)
  rw [callLoop_error hstep hread]
  refine ⟨⟨e, hK.handsOn hstep e⟩, hbefore, hrest, fun m hm => ?_⟩
  obtain ⟨onEnd', hask⟩ := hK.asks hstep hn hm
  exact ⟨N, onData, onEnd', onError, (hK.retries hstep hn hm e).trans hask⟩

theorem Stuck.read (h : Stuck rest Before p) {n : Nat} (hn : 0 < n) :
    (∃ e, (ZipForensic.read n p).1 = .error e) ∧ Stuck rest Before (ZipForensic.read n p).2 := by
  obtain ⟨N, onData, onEnd, onError, hstep⟩ := h.asks n hn
  exact Stuck.callLoop hr hK hn h.before h.nothing hstep

/-- Either a call stays in step and does not ask behind the data, or it fails there. -/
theorem callLoop_blocked {n : Nat} (hn : 0 < n) {fuel : Nat} {s : K.State} {r : ρ}
    (hbefore : Before r) (hfuel : (rest r).length < fuel) :
    (callLoop (.read n) fuel (⟨s, ⟨rest r, false⟩⟩ : Pipe K (Probe ε))).2.inner.asked = false ∨
    ((∃ e, (callLoop (.read n) fuel ⟨s, r⟩).1 = .error e) ∧
      Stuck rest Before (callLoop (.read n) fuel ⟨s, r⟩).2) := by
  induction fuel generalizing s r with
  | zero => omega
  | succ fuel ih =>
    cases hstep : K.step s (.read n) with
    | out a s' =>
      rw [callLoop_out hstep]
      exact .inl rfl
    | pull N onData onEnd onError =>
      have hN := K.pull_pos hstep
      by_cases hrest : rest r = []
      · exact .inr (Stuck.callLoop hr hK hn hbefore hrest hstep)
      · obtain ⟨b, bs, hread, hdata, hnext, hleft⟩ := hr.read_cons hbefore hrest hN
        rw [callLoop_data hstep hdata, callLoop_data hstep hread]
        exact ih hnext (by omega)

/-- A run stays in step and does not ask behind the data, or it is stuck there. -/
theorem InStep.reads_blocked (h : InStep rest Before p q) {ns : List Nat}
    (hns : ∀ n ∈ ns, 0 < n) :
    (ZipForensic.reads ns q).2.inner.asked = false ∨
      Stuck rest Before (ZipForensic.reads ns p).2 := by
  induction ns generalizing p q with
  | nil => exact .inl (congrArg Probe.asked h.inner)
  | cons n ns ih =>
    obtain ⟨hn, hns⟩ := List.forall_mem_cons.1 hns
    obtain ⟨fuel, hfuel, hp, hprobe⟩ := h.read_eq hr.toHandsOut n
    rcases callLoop_blocked hr hK hn h.before hfuel (s := p.state) with hunasked | ⟨-, hstuck⟩
    · rw [← hprobe] at hunasked
      exact ih (h.read_unasked hr.toHandsOut hunasked).2 hns
    · rw [← hp] at hstuck
      exact .inr (reads_invariant (Stuck rest Before) (fun hp hn => (hp.read hr hK hn).2) hns hstuck)

/-- **Behind a reader that blocks**, the decoder reports the end only where it did not ask for
more than there is. -/
theorem InStep.ends_unasked (h : InStep rest Before p q) {ns : List Nat} {n : Nat}
    (hns : ∀ n ∈ ns, 0 < n) (hn : 0 < n)
    (hend : (ZipForensic.read n (ZipForensic.reads ns p).2).1 = .ok []) :
    (ZipForensic.reads ns p).1 = (ZipForensic.reads ns q).1 ∧
      (ZipForensic.read n (ZipForensic.reads ns q).2).1 = .ok [] ∧
      (ZipForensic.read n (ZipForensic.reads ns q).2).2.inner.asked = false := by
  rcases h.reads_blocked hr hK hns with hunasked | hstuck
  · obtain ⟨hsame, hlast⟩ := h.reads_unasked hr.toHandsOut hunasked
    obtain ⟨fuel, hfuel, hp, hprobe⟩ := hlast.read_eq hr.toHandsOut n
    rcases callLoop_blocked hr hK hn hlast.before hfuel (s := (ZipForensic.reads ns p).2.state) with
      hunasked | ⟨⟨e, herror⟩, -⟩
    · rw [← hprobe] at hunasked
      have hread := (hlast.read_unasked hr.toHandsOut hunasked).1
      exact ⟨hsame, hread.symm.trans hend, hunasked⟩
    · rw [← hp] at herror
      cases herror.symm.trans hend
  · obtain ⟨⟨e, herror⟩, -⟩ := hstuck.read hr hK hn
    cases herror.symm.trans hend

end Blocked

end Pipe

end ZipForensic
