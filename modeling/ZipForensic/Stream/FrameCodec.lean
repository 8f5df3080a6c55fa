import ZipForensic.Stream.ReadM
import ZipForensic.Stream.Received

/-!
# Decoders of self-delimiting formats

The streams of most compressed formats say where they end, and a decoder of such a format
reports the end when it has delivered the contents of its stream. Whether it asks the reader
below for what follows is another matter: one that keeps its input in a buffer fills the
buffer when it is empty, whether or not its stream goes on.

- `FrameSpec K`: what such a decoder `K` does, in terms of the input it was given so
  far (`FrameStatus`) and of whether it was told that this is all. When it asks for more,
  and how it reports an input that ends early, is its own choice (`lenient`).
- `Delivers ρ`: a reader below whose data ends somewhere, whatever it answers there.
- `Pipe.Holds`, `Guarded`: an invariant of the reader below, carried through the calls on
  the decoder.
- `read_eq_end`, `read_ne_end`, `read_error`: what an answer says about the reader below.
- `Flows`: reads that never fail come to the end of the stream.
- `FrameFormat`, `Codec.ofFormat`: the plainest decoder of this kind.
-/

namespace ZipForensic

/-- What an input is, as far as it goes. -/
inductive FrameStatus
  /-- The front of a stream. -/
  | incomplete
  /-- A whole stream, and possibly more. -/
  | complete
  /-- Not the front of any stream. -/
  | corrupt
deriving DecidableEq, Repr

variable {ε : Type}

/-- What a decoder may answer once an input has ended early: a lenient one delivers what
it has and then reports the end, a strict one never reports the end. -/
def AtEarlyEnd (lenient : Bool) (x : Except ε Bytes) : Prop :=
  if lenient then ∃ bs, x = .ok bs else x ≠ .ok []

/-- What it may answer where an input of this kind ends. -/
def AtEnd (lenient : Bool) : FrameStatus → Except ε Bytes → Prop
  | .incomplete, x => AtEarlyEnd lenient x
  | .complete, x => ∃ bs, x = .ok bs
  | .corrupt, x => x ≠ .ok []

/-- A decoder of self-delimiting streams. -/
structure FrameSpec (K : Codec ε) where
  status : Bytes → FrameStatus
  /-- The decoder can be in the state after it was given the input and, if the flag is
  set, was told that this is all. -/
  Given : Bool → K.State → Bytes → Prop
  /-- Whether an input that ends early is reported as the end of the stream. -/
  lenient : Bool
  complete_append : ∀ {inp} bs, status inp = .complete → status (inp ++ bs) = .complete
  corrupt_append : ∀ {inp} bs, status inp = .corrupt → status (inp ++ bs) = .corrupt
  given_init : Given false K.init []
  given_out : ∀ {told s inp c a s'}, Given told s inp → K.step s c = .out a s' → Given told s' inp
  given_data : ∀ {s inp c n onData onEnd onError}, Given false s inp →
    K.step s c = .pull n onData onEnd onError → ∀ bs, Given false (onData bs) (inp ++ bs)
  given_end : ∀ {told s inp c n onData onEnd onError}, Given told s inp →
    K.step s c = .pull n onData onEnd onError → Given true onEnd.2 inp
  given_error : ∀ {told s inp c n onData onEnd onError}, Given told s inp →
    K.step s c = .pull n onData onEnd onError → ∀ e, Given told (onError e).2 inp
  /-- An error from below is an error. -/
  error_error : ∀ {told s inp c n onData onEnd onError}, Given told s inp →
    K.step s c = .pull n onData onEnd onError → ∀ e, ∃ e', (onError e).1 = .error e'
  /-- With the whole stream at hand no read fails. -/
  read_complete : ∀ {told s inp m a s'}, Given told s inp → status inp = .complete → 0 < m →
    K.step s (.read m) = .out a s' → ∃ bs, a = .ok bs
  /-- A stream that goes on is not at its end. -/
  read_incomplete : ∀ {s inp m a s'}, Given false s inp → status inp = .incomplete → 0 < m →
    K.step s (.read m) = .out a s' → ∃ b bs, a = .ok (b :: bs)
  /-- A corrupt stream has no end. -/
  read_corrupt : ∀ {told s inp m a s'}, Given told s inp → status inp = .corrupt → 0 < m →
    K.step s (.read m) = .out a s' → a ≠ .ok []
  read_end : ∀ {told s inp m n onData onEnd onError}, Given told s inp →
    K.step s (.read m) = .pull n onData onEnd onError → 0 < m → AtEnd lenient (status inp) onEnd.1
  read_told : ∀ {s inp m a s'}, Given true s inp → status inp = .incomplete → 0 < m →
    K.step s (.read m) = .out a s' → AtEarlyEnd lenient a

/-- A reader with definite data: `rest r` is what it still delivers before its end. -/
structure Delivers (ε ρ : Type) [Read ε ρ] where
  rest : ρ → Bytes
  read_rest : ∀ {r n}, rest r ≠ [] → 0 < n →
    ∃ b bs, (read n r).1 = .ok (b :: bs) ∧ b :: bs ++ rest (read n r).2 = rest r
  read_end : ∀ {r n}, rest r = [] → 0 < n →
    rest (read n r).2 = [] ∧ ∀ bs, (read n r).1 = .ok bs → bs = []

/-! ## How a call ends -/

section Calls

variable {ρ : Type} [Read ε ρ] {K : Codec ε} (spec : FrameSpec K) (D : Delivers ε ρ)

/-- The decoder was given the front of `data`, and the reader below holds the rest. -/
structure Pipe.Tracks (told : Bool) (inp data : Bytes) (p : Pipe K ρ) : Prop where
  given : spec.Given told p.state inp
  split : inp ++ D.rest p.inner = data
  all : told = true → D.rest p.inner = []

/-- An invariant `Q` of the reader below, which may depend on whether the decoder was
told of the end. -/
def Pipe.Holds (data : Bytes) (Q : Bool → ρ → Prop) (p : Pipe K ρ) : Prop :=
  ∃ told inp, p.Tracks spec D told inp data ∧ Q told p.inner

/-- Reads preserve `Q` and, at the end of the data, an answer of its end establishes it
for a decoder that was told. -/
structure Guarded (D : Delivers ε ρ) (Q : Bool → ρ → Prop) : Prop where
  more : ∀ {told r n}, Q told r → D.rest r ≠ [] → 0 < n → Q told (read n r).2
  told : ∀ {told r n}, Q told r → D.rest r = [] → 0 < n → (read n r).1 = .ok [] →
    Q true (read n r).2

/-- How a call `c` can end. -/
inductive CallOutcome (data : Bytes) (Q : Bool → ρ → Prop) (c : Call) :
    Except ε Bytes → Pipe K ρ → Prop
  /-- The decoder answers from what it was given. -/
  | answered {told : Bool} {inp : Bytes} {s s' : K.State} {r : ρ} {a : Except ε Bytes}
      (tracks : (⟨s, r⟩ : Pipe K ρ).Tracks spec D told inp data) (quiet : Q told r)
      (step : K.step s c = .out a s') : CallOutcome data Q c a ⟨s', r⟩
  /-- The decoder asks at the end of the data, and is told of the end. -/
  | ended {told : Bool} {s : K.State} {r : ρ} {n : Nat} {onData : Bytes → K.State}
      {onEnd : Except ε Bytes × K.State} {onError : ε → Except ε Bytes × K.State}
      (given : spec.Given told s data) (quiet : Q told r) (rest : D.rest r = [])
      (step : K.step s c = .pull n onData onEnd onError) (read : (read n r).1 = .ok []) :
      CallOutcome data Q c onEnd.1 ⟨onEnd.2, (ZipForensic.read n r).2⟩
  /-- The decoder asks at the end of the data, and gets an error. -/
  | failed {told : Bool} {s : K.State} {r : ρ} {n : Nat} {onData : Bytes → K.State}
      {onEnd : Except ε Bytes × K.State} {onError : ε → Except ε Bytes × K.State} {e : ε}
      (given : spec.Given told s data) (quiet : Q told r) (rest : D.rest r = [])
      (step : K.step s c = .pull n onData onEnd onError) (read : (read n r).1 = .error e) :
      CallOutcome data Q c (onError e).1 ⟨(onError e).2, (ZipForensic.read n r).2⟩

variable {spec D} {data : Bytes} {Q : Bool → ρ → Prop} {c : Call}

/-- Every call ends in one of these ways. -/
theorem Pipe.callLoop_outcome [LawfulRead ε ρ] (hQ : Guarded D Q) {fuel : Nat}
    {p : Pipe K ρ} (hfuel : avail p.inner < fuel) (hp : p.Holds spec D data Q) :
    CallOutcome spec D data Q c (callLoop c fuel p).1 (callLoop c fuel p).2 := by
  induction fuel generalizing p with
  | zero => omega
  | succ fuel ih =>
    obtain ⟨s, r⟩ := p
    obtain ⟨told, inp, htracks, hquiet⟩ := hp
    obtain ⟨hgiven, hsplit, hall⟩ := id htracks
    dsimp only at hgiven hsplit hall hquiet hfuel
    rw [Pipe.callLoop]
    cases hstep : K.step s c with
    | out a s' => exact .answered htracks hquiet hstep
    | pull n onData onEnd onError =>
      have hn := K.pull_pos hstep
      have hav := LawfulRead.avail_le n r
      dsimp only
      by_cases hrest : D.rest r = []
      · -- the decoder has all of the data and still asks
        obtain ⟨-, hend⟩ := D.read_end hrest hn
        rw [hrest, List.append_nil] at hsplit
        subst hsplit
        cases hread : (read n r).1 with
        | error e =>
          rw [show read n r = (.error e, (read n r).2) from Prod.ext hread rfl]
          exact .failed hgiven hquiet hrest hstep hread
        | ok bs =>
          obtain rfl : bs = [] := hend bs hread
          rw [show read n r = (.ok [], (read n r).2) from Prod.ext hread rfl]
          exact .ended hgiven hquiet hrest hstep hread
      · obtain ⟨b, bs, hread, happend⟩ := D.read_rest hrest hn
        have hquiet' := hQ.more hquiet hrest hn
        have hfalse : told = false := by
          cases told with
          | false => rfl
          | true => exact absurd (hall rfl) hrest
        subst hfalse
        rw [hread, delivered_ok, List.length_cons] at hav
        rw [show read n r = (.ok (b :: bs), (read n r).2) from Prod.ext hread rfl]
        refine ih (p := ⟨onData (b :: bs), (read n r).2⟩) (by dsimp only; omega)
          ⟨false, inp ++ (b :: bs), ⟨spec.given_data hgiven hstep _, ?_, fun h => absurd h Bool.false_ne_true⟩,
            hquiet'⟩
        rw [List.append_assoc, happend, hsplit]

theorem Pipe.call_outcome [LawfulRead ε ρ] (hQ : Guarded D Q) {p : Pipe K ρ}
    (hp : p.Holds spec D data Q) : CallOutcome spec D data Q c (p.call c).1 (p.call c).2 :=
  callLoop_outcome hQ (Nat.lt_succ_self _) hp

/-- A call that succeeds preserves the invariant; one that fails does if the reader below
does. -/
theorem CallOutcome.holds (hQ : Guarded D Q) {x : Except ε Bytes} {p : Pipe K ρ}
    (h : CallOutcome spec D data Q c x p)
    (hfail : (∃ bs, x = .ok bs) ∨ ∀ {told r n e}, Q told r → D.rest r = [] → 0 < n →
      (read n r).1 = .error e → Q told (read n r).2) :
    p.Holds spec D data Q := by
  cases h with
  | answered tracks quiet step =>
    exact ⟨_, _, ⟨spec.given_out tracks.given step, tracks.split, tracks.all⟩, quiet⟩
  | ended given quiet rest step read =>
    have hn := K.pull_pos step
    have hend := (D.read_end rest hn).1
    exact ⟨true, data, ⟨spec.given_end given step, by rw [hend, List.append_nil], fun _ => hend⟩,
      hQ.told quiet rest hn read⟩
  | failed given quiet rest step read =>
    have hn := K.pull_pos step
    have hend := (D.read_end rest hn).1
    rcases hfail with ⟨bs, hbs⟩ | hfail
    · obtain ⟨e', he'⟩ := spec.error_error given step _
      rw [he'] at hbs
      cases hbs
    · exact ⟨_, data, ⟨spec.given_error given step _, by rw [hend, List.append_nil], fun _ => hend⟩,
        hfail quiet rest hn read⟩

/-- What the decoder was given of a stream that never completes is no whole stream. -/
theorem Pipe.Tracks.status_ne_complete {told : Bool} {inp : Bytes} {p : Pipe K ρ}
    (h : p.Tracks spec D told inp data) (hdata : spec.status data ≠ .complete) :
    spec.status inp ≠ .complete := by
  intro hinp
  rw [← h.split] at hdata
  exact hdata (spec.complete_append _ hinp)

theorem Pipe.Tracks.status_ne_corrupt {told : Bool} {inp : Bytes} {p : Pipe K ρ}
    (h : p.Tracks spec D told inp data) (hdata : spec.status data ≠ .corrupt) :
    spec.status inp ≠ .corrupt := by
  intro hinp
  rw [← h.split] at hdata
  exact hdata (spec.corrupt_append _ hinp)

variable [LawfulRead ε ρ] {p : Pipe K ρ} {n : Nat}

/-- Short of a whole stream, the end is reported only by a decoder that was told. -/
theorem Pipe.read_eq_end (hQ : Guarded D Q) (hp : p.Holds spec D data Q)
    (hdata : spec.status data ≠ .complete) (hn : 0 < n) (h : (read n p).1 = .ok []) :
    Q true (read n p).2.inner := by
  have hout : CallOutcome spec D data Q (.read n) (read n p).1 (read n p).2 := call_outcome hQ hp
  rw [h] at hout
  generalize (read n p).2 = p' at hout
  generalize hx : (Except.ok [] : Except ε Bytes) = x at hout
  cases hout with
  | @answered told inp s s' r a tracks quiet step =>
    subst hx
    cases told with
    | true => exact quiet
    | false =>
      cases hinp : spec.status inp with
      | incomplete =>
        obtain ⟨b, bs, hbs⟩ := spec.read_incomplete tracks.given hinp hn step
        cases hbs
      | complete => exact absurd hinp (tracks.status_ne_complete hdata)
      | corrupt => exact absurd rfl (spec.read_corrupt tracks.given hinp hn step)
  | ended given quiet rest step read =>
    exact hQ.told quiet rest (K.pull_pos step) read
  | failed given quiet rest step read =>
    obtain ⟨e', he'⟩ := spec.error_error given step _
    rw [he'] at hx
    cases hx

/-- On a corrupt stream, and with a strict decoder short of a whole one, the end is never
reported. -/
theorem Pipe.read_ne_end (hQ : Guarded D Q) (hp : p.Holds spec D data Q)
    (hdata : spec.status data ≠ .complete)
    (hstrict : spec.status data = .incomplete → spec.lenient = false) (hn : 0 < n) :
    (read n p).1 ≠ .ok [] := by
  have hout : CallOutcome spec D data Q (.read n) (read n p).1 (read n p).2 := call_outcome hQ hp
  generalize (read n p).1 = x at hout ⊢
  generalize (read n p).2 = p' at hout
  cases hout with
  | @answered told inp s s' r a tracks quiet step =>
    rintro rfl
    cases hinp : spec.status inp with
    | incomplete =>
      cases told with
      | false =>
        obtain ⟨b, bs, hbs⟩ := spec.read_incomplete tracks.given hinp hn step
        cases hbs
      | true =>
        -- told of the end, the decoder was given all of the data
        have hall := tracks.split
        rw [tracks.all rfl, List.append_nil] at hall
        subst hall
        have hearly := spec.read_told tracks.given hinp hn step
        rw [AtEarlyEnd, hstrict hinp] at hearly
        exact hearly rfl
    | complete => exact tracks.status_ne_complete hdata hinp
    | corrupt => exact spec.read_corrupt tracks.given hinp hn step rfl
  | ended given quiet rest step read =>
    have hend := spec.read_end given step hn
    cases hstatus : spec.status data with
    | incomplete =>
      rw [hstatus, AtEnd, AtEarlyEnd, hstrict hstatus] at hend
      exact hend
    | complete => exact absurd hstatus hdata
    | corrupt =>
      rw [hstatus] at hend
      exact hend
  | failed given quiet rest step read =>
    obtain ⟨e', he'⟩ := spec.error_error given step _
    rw [he']
    nofun

/-- On a whole stream, or with a lenient decoder on the front of one, only a failure of the
reader below, at the end of its data, is a failure. -/
theorem Pipe.read_error (hQ : Guarded D Q) (hp : p.Holds spec D data Q)
    (hdata : spec.status data ≠ .corrupt)
    (hlenient : spec.status data = .incomplete → spec.lenient = true) (hn : 0 < n) {e : ε}
    (h : (read n p).1 = .error e) :
    ∃ told r m e', Q told r ∧ D.rest r = [] ∧ 0 < m ∧ (read m r).1 = .error e' ∧
      (read n p).2.inner = (read m r).2 := by
  have hout : CallOutcome spec D data Q (.read n) (read n p).1 (read n p).2 := call_outcome hQ hp
  rw [h] at hout
  generalize (read n p).2 = p' at hout ⊢
  generalize hx : (Except.error e : Except ε Bytes) = x at hout
  cases hout with
  | @answered told inp s s' r a tracks quiet step =>
    subst hx
    cases hinp : spec.status inp with
    | incomplete =>
      cases told with
      | false =>
        obtain ⟨b, bs, hbs⟩ := spec.read_incomplete tracks.given hinp hn step
        cases hbs
      | true =>
        -- told of the end, the decoder was given all of the data
        have hall := tracks.split
        rw [tracks.all rfl, List.append_nil] at hall
        subst hall
        have hearly := spec.read_told tracks.given hinp hn step
        rw [AtEarlyEnd, hlenient hinp] at hearly
        obtain ⟨bs, hbs⟩ := hearly
        cases hbs
    | complete =>
      obtain ⟨bs, hbs⟩ := spec.read_complete tracks.given hinp hn step
      cases hbs
    | corrupt => exact absurd hinp (tracks.status_ne_corrupt hdata)
  | ended given quiet rest step read =>
    have hend := spec.read_end given step hn
    rw [← hx] at hend
    cases hstatus : spec.status data with
    | incomplete =>
      rw [hstatus, AtEnd, AtEarlyEnd, hlenient hstatus] at hend
      obtain ⟨bs, hbs⟩ := hend
      cases hbs
    | complete =>
      rw [hstatus] at hend
      obtain ⟨bs, hbs⟩ := hend
      cases hbs
    | corrupt => exact absurd hstatus hdata
  | failed given quiet rest step read =>
    exact ⟨_, _, _, _, quiet, rest, K.pull_pos step, read, rfl⟩

end Calls

/-! ## Runs of reads -/

section Runs

variable {ρ : Type} [Read ε ρ]

/-- What every read preserves holds after a run. -/
theorem reads_invariant (I : ρ → Prop) (hI : ∀ {r n}, I r → 0 < n → I (read n r).2) {ns : List Nat}
    (hns : ∀ n ∈ ns, 0 < n) {r : ρ} (hr : I r) : I (reads ns r).2 := by
  induction ns generalizing r with
  | nil => exact hr
  | cons n ns ih =>
    exact ih (fun m hm => hns m (List.mem_cons_of_mem _ hm)) (hI hr (hns n (List.mem_cons_self ..)))

/-- A run that reports the end has a first read that does. -/
theorem exists_first_end {ns : List Nat} {r : ρ} (h : .ok [] ∈ (reads ns r).1) :
    ∃ ms m ls, ns = ms ++ m :: ls ∧ .ok [] ∉ (reads ms r).1 ∧
      (read m (reads ms r).2).1 = .ok [] := by
  induction ns generalizing r with
  | nil => cases h
  | cons n ns ih =>
    by_cases hfirst : (read n r).1 = .ok []
    · exact ⟨[], n, ns, rfl, List.not_mem_nil, hfirst⟩
    · rw [reads_cons] at h
      obtain ⟨ms, m, ls, rfl, hnot, hend⟩ := ih ((List.mem_cons.1 h).resolve_left (Ne.symm hfirst))
      refine ⟨n :: ms, m, ls, rfl, ?_, hend⟩
      rw [reads_cons, List.mem_cons, not_or]
      exact ⟨Ne.symm hfirst, hnot⟩

/-- A run of reads that keeps delivering comes to a state where the next read does not
deliver. -/
theorem exists_stop [LawfulRead ε ρ] (n : Nat) (r : ρ) :
    ∃ m, ∀ b bs, (read n (reads (List.replicate m n) r).2).1 ≠ .ok (b :: bs) := by
  induction hav : avail r using Nat.strongRecOn generalizing r with
  | ind a ih =>
    by_cases hstop : ∀ b bs, (read n r).1 ≠ .ok (b :: bs)
    · exact ⟨0, hstop⟩
    · simp only [not_forall, not_not] at hstop
      obtain ⟨b, bs, hread⟩ := hstop
      have hle := LawfulRead.avail_le n r
      rw [hread, delivered_ok, List.length_cons] at hle
      obtain ⟨m, hm⟩ := ih _ (by omega) (read n r).2 rfl
      exact ⟨m + 1, hm⟩

/-- Reads never fail. -/
def Flows (r : ρ) : Prop :=
  ∀ ns n, (∀ m ∈ ns, 0 < m) → 0 < n → ∃ bs, (read n (reads ns r).2).1 = .ok bs

theorem Flows.of_invariant {I : ρ → Prop}
    (hI : ∀ {r n}, I r → 0 < n → I (read n r).2 ∧ ∃ bs, (read n r).1 = .ok bs) {r : ρ} (hr : I r) :
    Flows r := by
  intro ns n hns hn
  have hinv : I (reads ns r).2 := reads_invariant I (fun h hn => (hI h hn).1) hns hr
  exact (hI hinv hn).2

theorem Flows.after {r : ρ} (h : Flows r) {ns : List Nat} (hns : ∀ m ∈ ns, 0 < m) :
    Flows (reads ns r).2 := by
  intro ms n hms hn
  have happend := h (ns ++ ms) n (fun m hm => (List.mem_append.1 hm).elim (hns m) (hms m)) hn
  rwa [reads_append] at happend

/-- Reads that never fail come to the end of the stream. -/
theorem Flows.exists_end [LawfulRead ε ρ] {r : ρ} (h : Flows r) :
    ∃ ns, (∀ m ∈ ns, 0 < m) ∧ (read 1 (reads ns r).2).1 = .ok [] := by
  obtain ⟨m, hm⟩ := exists_stop 1 r
  have hpos : ∀ n ∈ List.replicate m 1, 0 < n := fun n hn => by
    rw [List.eq_of_mem_replicate hn]
    exact Nat.one_pos
  obtain ⟨bs, hread⟩ := h _ 1 hpos Nat.one_pos
  refine ⟨_, hpos, ?_⟩
  cases bs with
  | nil => exact hread
  | cons b bs => exact absurd hread (hm b bs)

/-- Reading to the end preserves what reads that succeed preserve, and ends with a read
that reports the end. -/
theorem readToEndLoop_last [LawfulRead ε ρ] {I : ρ → Prop}
    (hI : ∀ {r bs}, I r → (read bufSize r).1 = .ok bs → I (read bufSize r).2) {fuel : Nat}
    {acc out : Bytes} {r r' : ρ} (hfuel : avail r < fuel) (hr : I r)
    (h : readToEndLoop fuel acc r = (.ok out, r')) :
    ∃ r₁, I r₁ ∧ read bufSize r₁ = (.ok [], r') := by
  induction fuel generalizing acc r with
  | zero => omega
  | succ fuel ih =>
    rw [readToEndLoop] at h
    have hle := LawfulRead.avail_le bufSize r
    have hstep := @hI r
    rcases hread : read bufSize r with ⟨e | _ | ⟨b, bs⟩, r₁⟩
    · rw [hread] at h
      cases h
    · rw [hread] at h
      obtain ⟨-, rfl⟩ := Prod.mk.inj h
      exact ⟨r, hr, hread⟩
    · rw [hread] at h hle hstep
      simp only [delivered_ok, List.length_cons] at hle
      exact ih (r := r₁) (by omega) (hstep hr rfl) h

/-- The same for a reader cut off behind what was read: the end is its own. -/
theorem readToEndLoop_take_last [LawfulRead ε ρ] {I : ρ → Prop}
    (hI : ∀ {r n bs}, I r → 0 < n → (read n r).1 = .ok bs → I (read n r).2) {fuel : Nat}
    {acc out : Bytes} {r : ρ} {limit : Nat} {t : Take ρ}
    (hfuel : avail (⟨r, limit⟩ : Take ρ) < fuel) (hr : I r)
    (h : readToEndLoop fuel acc (⟨r, limit⟩ : Take ρ) = (.ok out, t))
    (hout : out.length < acc.length + limit) :
    ∃ r₁ n, I r₁ ∧ 0 < n ∧ read n r₁ = (.ok [], t.inner) := by
  induction fuel generalizing acc r limit with
  | zero => omega
  | succ fuel ih =>
    rw [readToEndLoop] at h
    have hle := LawfulRead.avail_le bufSize (⟨r, limit⟩ : Take ρ)
    by_cases hlimit : limit = 0
    · have hread : read bufSize (⟨r, limit⟩ : Take ρ) = (.ok [], ⟨r, limit⟩) := if_pos hlimit
      rw [hread] at h
      obtain ⟨hacc, -⟩ := Prod.mk.inj h
      rw [← Except.ok.inj hacc] at hout
      omega
    · have hn : 0 < min bufSize limit := Nat.lt_min.2 ⟨by decide, by omega⟩
      have hstep := @hI r (min bufSize limit)
      have hbound := LawfulRead.read_le (min bufSize limit) r
      rcases hinner : read (min bufSize limit) r with ⟨e | _ | ⟨b, bs⟩, r₁⟩
      · rw [Take.read_error hlimit hinner] at h
        cases h
      · rw [Take.read_ok hlimit hinner] at h
        obtain ⟨-, rfl⟩ := Prod.mk.inj h
        exact ⟨r, _, hr, hn, hinner⟩
      · rw [Take.read_ok hlimit hinner] at h hle
        rw [hinner] at hstep hbound
        simp only [delivered_ok, List.length_cons] at hle hbound
        change readToEndLoop fuel (acc ++ (b :: bs)) (⟨r₁, limit - (bs.length + 1)⟩ : Take ρ) = _ at h
        have hr₁ : I r₁ := hstep hr hn rfl
        refine ih (by omega) hr₁ h ?_
        rw [List.length_append, List.length_cons]
        omega

end Runs

/-! ## The plainest decoder -/

/-- What an input holds, as far as it goes, with the contents of a whole stream. -/
inductive Frame
  | incomplete
  | complete (contents : Bytes)
  | corrupt
deriving DecidableEq, Repr

/-- The contents of a whole stream. -/
def Frame.contents : Frame → Bytes
  | .complete contents => contents
  | _ => []

def Frame.status : Frame → FrameStatus
  | .incomplete => .incomplete
  | .complete _ => .complete
  | .corrupt => .corrupt

/-- A format of self-delimiting streams, none shorter than its contents. -/
structure FrameFormat where
  parse : Bytes → Frame
  complete_append : ∀ {inp contents} bs,
    parse inp = .complete contents → parse (inp ++ bs) = .complete contents
  corrupt_append : ∀ {inp} bs, parse inp = .corrupt → parse (inp ++ bs) = .corrupt
  length_le : ∀ {inp contents}, parse inp = .complete contents → contents.length ≤ inp.length

namespace FrameFormat

variable (fmt : FrameFormat) (corruptError : ε) (chunk : Nat)

/-- Collect input in pieces of up to `chunk + 1` bytes until a stream is complete, then
deliver its contents; the state is the input and how much was delivered. An input that
ends early is an empty stream. -/
def step (s : Bytes × Nat) : Call → Step ε (Bytes × Nat)
  | .new => .out (.ok []) s
  | .read n =>
    match fmt.parse s.1 with
    | .incomplete =>
      .pull (chunk + 1) (fun bs => (s.1 ++ bs, s.2)) (.ok [], s) fun e => (.error e, s)
    | .complete contents =>
      .out (.ok ((contents.drop s.2).take n)) (s.1, s.2 + ((contents.drop s.2).take n).length)
    | .corrupt => .out (.error corruptError) s

variable {fmt corruptError chunk} {s s' : Bytes × Nat} {c : Call} {n m : Nat}
  {a : Except ε Bytes} {onData : Bytes → Bytes × Nat} {onEnd : Except ε Bytes × Bytes × Nat}
  {onError : ε → Except ε Bytes × Bytes × Nat}

theorem of_step_pull (h : fmt.step corruptError chunk s c = .pull n onData onEnd onError) :
    fmt.parse s.1 = .incomplete ∧ n = chunk + 1 ∧ onData = (fun bs => (s.1 ++ bs, s.2)) ∧
      onEnd = (.ok [], s) ∧ onError = fun e => (.error e, s) := by
  cases c with
  | new => cases h
  | read m =>
    rw [step] at h
    cases hparse : fmt.parse s.1 with
    | incomplete =>
      rw [hparse] at h
      injection h with hn hdata hend herror
      exact ⟨rfl, hn.symm, hdata.symm, hend.symm, herror.symm⟩
    | complete contents => rw [hparse] at h; cases h
    | corrupt => rw [hparse] at h; cases h

theorem step_complete {contents : Bytes} (h : fmt.parse s.1 = .complete contents) :
    fmt.step corruptError chunk s (.read m) =
      .out (.ok ((contents.drop s.2).take m))
        (s.1, s.2 + ((contents.drop s.2).take m).length) := by
  rw [step, h]

theorem step_incomplete (h : fmt.parse s.1 = .incomplete) :
    fmt.step corruptError chunk s (.read m) =
      .pull (chunk + 1) (fun bs => (s.1 ++ bs, s.2)) (.ok [], s) fun e => (.error e, s) := by
  rw [step, h]

theorem step_corrupt (h : fmt.parse s.1 = .corrupt) :
    fmt.step corruptError chunk s (.read m) = .out (.error corruptError) s := by
  rw [step, h]

theorem of_step_out (h : fmt.step corruptError chunk s (.read m) = .out a s') :
    (∃ contents, fmt.parse s.1 = .complete contents ∧ a = .ok ((contents.drop s.2).take m) ∧
      s' = (s.1, s.2 + ((contents.drop s.2).take m).length)) ∨
    (fmt.parse s.1 = .corrupt ∧ a = .error corruptError ∧ s' = s) := by
  rw [step] at h
  cases hparse : fmt.parse s.1 with
  | incomplete => rw [hparse] at h; cases h
  | complete contents =>
    rw [hparse] at h
    injection h with ha hs
    exact .inl ⟨contents, rfl, ha.symm, hs.symm⟩
  | corrupt =>
    rw [hparse] at h
    injection h with ha hs
    exact .inr ⟨rfl, ha.symm, hs.symm⟩

/-- An answer takes its bytes from the contents that are left. -/
theorem delivered_le {b : Except ε Bytes × Bytes × Nat}
    (h : (fmt.step corruptError chunk s c).Answers b) (k : Nat) :
    (∀ m, c = .read m → delivered b.1 ≤ m) ∧
      delivered b.1 + (b.2.1.length + k - b.2.2) ≤ s.1.length + k - s.2 := by
  cases hstep : fmt.step corruptError chunk s c with
  | pull n onData onEnd onError =>
    obtain ⟨-, -, -, rfl, rfl⟩ := of_step_pull hstep
    rw [hstep] at h
    rcases h with rfl | ⟨e, rfl⟩ <;>
      exact ⟨fun m _ => Nat.zero_le m, Nat.le_of_eq (Nat.zero_add _)⟩
  | out a s' =>
    rw [hstep] at h
    obtain rfl : b = (a, s') := h
    cases c with
    | new =>
      injection hstep with ha hs
      subst ha hs
      exact ⟨nofun, Nat.le_of_eq (Nat.zero_add _)⟩
    | read n =>
      obtain ⟨contents, hparse, rfl, rfl⟩ | ⟨-, rfl, rfl⟩ := of_step_out hstep
      · have hle := fmt.length_le hparse
        refine ⟨?_, ?_⟩
        · rintro m ⟨⟩
          exact List.length_take_le _ _
        · simp only [delivered_ok, List.length_take, List.length_drop]
          omega
      · exact ⟨fun m _ => Nat.zero_le m, Nat.le_of_eq (Nat.zero_add _)⟩

end FrameFormat

/-- The decoder of a format. -/
def Codec.ofFormat (fmt : FrameFormat) (corruptError : ε) (chunk : Nat) : Codec ε where
  State := Bytes × Nat
  init := ([], 0)
  step := fmt.step corruptError chunk
  budget s m := s.1.length + m - s.2
  answer_le h := (FrameFormat.delivered_le h 0).1 _ rfl
  pull_pos h := by
    obtain ⟨-, rfl, -⟩ := FrameFormat.of_step_pull h
    exact Nat.succ_pos chunk
  budget_mono s m m' h := by omega
  budget_answer h m := (FrameFormat.delivered_le h m).2
  budget_data h bs m := by
    obtain ⟨-, -, rfl, -⟩ := FrameFormat.of_step_pull h
    rw [List.length_append, Nat.add_assoc]

/-! ## What the plainest decoder delivers -/

namespace FrameFormat

variable {fmt : FrameFormat} {corruptError : ε} {chunk : Nat} {data contents : Bytes}

/-- A decoder that was given the front of `data`, over a window of the rest. -/
def Fed (fmt : FrameFormat) (corruptError : ε) (chunk : Nat) (data : Bytes)
    (p : Pipe (Codec.ofFormat fmt corruptError chunk) (Window ε)) : Prop :=
  p.state.1 ++ p.inner.rest = data

/-- A read collects input up to the end of the stream, or to where it is corrupt, and answers
what is known then. -/
theorem Fed.callLoop (hparse : fmt.parse data ≠ .incomplete) {n fuel : Nat}
    {p : Pipe (Codec.ofFormat fmt corruptError chunk) (Window ε)}
    (hp : Fed fmt corruptError chunk data p) (hfuel : p.inner.rest.length < fuel) :
    ∃ inp more, inp ++ more = data ∧ fmt.parse inp = fmt.parse data ∧
      ∀ a s, fmt.step corruptError chunk (inp, p.state.2) (.read n) = .out a s →
        Pipe.callLoop (.read n) fuel p = (a, ⟨s, ⟨more⟩⟩) := by
  induction fuel generalizing p with
  | zero => omega
  | succ fuel ih =>
    obtain ⟨⟨inp, given⟩, ⟨more⟩⟩ := p
    have hdata : inp ++ more = data := hp
    by_cases hinp : fmt.parse inp = .incomplete
    · have hstep : (Codec.ofFormat fmt corruptError chunk).step (inp, given) (.read n) =
          .pull (chunk + 1) (fun bs => (inp ++ bs, given)) (.ok [], (inp, given))
            fun e => (.error e, (inp, given)) := step_incomplete hinp
      cases more with
      | nil =>
        rw [List.append_nil] at hdata
        exact absurd (hdata ▸ hinp) hparse
      | cons b bs =>
        have hread : read (chunk + 1) (⟨b :: bs⟩ : Window ε) =
            (.ok (b :: bs.take chunk), ⟨bs.drop chunk⟩) := rfl
        rw [Pipe.callLoop_data hstep hread]
        refine ih (p := ⟨(inp ++ b :: bs.take chunk, given), ⟨bs.drop chunk⟩⟩) ?_ ?_
        · show inp ++ b :: bs.take chunk ++ bs.drop chunk = data
          rw [← hdata, List.append_assoc, List.cons_append, List.take_append_drop]
        · have hlt : (b :: bs).length < fuel + 1 := hfuel
          show (bs.drop chunk).length < fuel
          rw [List.length_drop]
          rw [List.length_cons] at hlt
          omega
    · have hsame : fmt.parse inp = fmt.parse data := by
        cases hstatus : fmt.parse inp with
        | incomplete => exact absurd hstatus hinp
        | complete contents => exact hdata ▸ (fmt.complete_append more hstatus).symm
        | corrupt => exact hdata ▸ (fmt.corrupt_append more hstatus).symm
      exact ⟨inp, more, hdata, hsame, fun a s hout =>
        Pipe.callLoop_out (K := Codec.ofFormat fmt corruptError chunk) hout⟩

/-- It delivers the contents of a whole stream. -/
theorem drains (hparse : fmt.parse data = .complete contents) :
    Drains (fun p : Pipe (Codec.ofFormat fmt corruptError chunk) (Window ε) =>
      contents.drop p.state.2) (Fed fmt corruptError chunk data) where
  read_ok := by
    intro p n hp hn
    obtain ⟨inp, more, hdata, hsame, hcall⟩ := hp.callLoop (hparse ▸ nofun) (n := n)
      (Nat.lt_succ_self _)
    have hread : read n p = _ := hcall _ _ (step_complete (hsame.trans hparse))
    rw [hread]
    refine ⟨_, rfl, ?_, ?_, hdata⟩
    · show (contents.drop p.state.2).take n ++
        contents.drop (p.state.2 + ((contents.drop p.state.2).take n).length) = _
      rw [← List.drop_drop]
      exact List.prefix_iff_eq_append.1 (List.take_prefix n _)
    · intro hnil
      rcases List.take_eq_nil_iff.1 hnil with hzero | hend
      · omega
      · exact hend

theorem emits (hparse : fmt.parse data = .complete contents) :
    Emits (⟨(Codec.ofFormat fmt corruptError chunk).init, ⟨data⟩⟩ :
      Pipe (Codec.ofFormat fmt corruptError chunk) (Window ε)) contents :=
  (drains hparse).emits (r := ⟨([], 0), ⟨data⟩⟩) rfl

/-- Of an input that ends early it delivers nothing. -/
theorem drains_incomplete (hparse : fmt.parse data = .incomplete) :
    Drains (fun _ : Pipe (Codec.ofFormat fmt corruptError chunk) (Window ε) => [])
      (Fed fmt corruptError chunk data) where
  read_ok := by
    intro p n hp _
    have hcall : ∀ fuel (p : Pipe (Codec.ofFormat fmt corruptError chunk) (Window ε)),
        Fed fmt corruptError chunk data p → p.inner.rest.length < fuel →
          (Pipe.callLoop (.read n) fuel p).1 = .ok [] ∧
            Fed fmt corruptError chunk data (Pipe.callLoop (.read n) fuel p).2 := by
      intro fuel
      induction fuel with
      | zero => omega
      | succ fuel ih =>
        rintro ⟨⟨inp, given⟩, ⟨more⟩⟩ hdata hfuel
        change inp ++ more = data at hdata
        have hinp : fmt.parse inp = .incomplete := by
          cases hstatus : fmt.parse inp with
          | incomplete => rfl
          | complete contents =>
            cases (hdata ▸ fmt.complete_append more hstatus).symm.trans hparse
          | corrupt => cases (hdata ▸ fmt.corrupt_append more hstatus).symm.trans hparse
        have hstep : (Codec.ofFormat fmt corruptError chunk).step (inp, given) (.read n) =
            .pull (chunk + 1) (fun bs => (inp ++ bs, given)) (.ok [], (inp, given))
              fun e => (.error e, (inp, given)) := step_incomplete hinp
        cases more with
        | nil =>
          rw [Pipe.callLoop_end hstep (show read (chunk + 1) (⟨[]⟩ : Window ε) = (.ok [], ⟨[]⟩) from rfl)]
          exact ⟨rfl, hdata⟩
        | cons b bs =>
          have hread : read (chunk + 1) (⟨b :: bs⟩ : Window ε) =
              (.ok (b :: bs.take chunk), ⟨bs.drop chunk⟩) := rfl
          rw [Pipe.callLoop_data hstep hread]
          refine ih ⟨(inp ++ b :: bs.take chunk, given), ⟨bs.drop chunk⟩⟩ ?_ ?_
          · show inp ++ b :: bs.take chunk ++ bs.drop chunk = data
            rw [← hdata, List.append_assoc, List.cons_append, List.take_append_drop]
          · have hlt : (b :: bs).length < fuel + 1 := hfuel
            show (bs.drop chunk).length < fuel
            rw [List.length_drop]
            rw [List.length_cons] at hlt
            omega
    obtain ⟨hanswer, hfed⟩ := hcall _ p hp (Nat.lt_succ_self _)
    exact ⟨[], hanswer, rfl, fun _ => rfl, hfed⟩

/-- A corrupt stream is not read to an end. -/
theorem not_finishes (hparse : fmt.parse data = .corrupt) (ns : List Nat) (n : Nat)
    (out : Bytes) :
    ¬ Finishes (⟨(Codec.ofFormat fmt corruptError chunk).init, ⟨data⟩⟩ :
      Pipe (Codec.ofFormat fmt corruptError chunk) (Window ε)) ns n out := by
  have hfirst : ∀ m, (read m (⟨(Codec.ofFormat fmt corruptError chunk).init, ⟨data⟩⟩ :
      Pipe (Codec.ofFormat fmt corruptError chunk) (Window ε))).1 = .error corruptError := by
    intro m
    have hfed : Fed fmt corruptError chunk data ⟨([], 0), ⟨data⟩⟩ := rfl
    obtain ⟨inp, more, -, hsame, hcall⟩ := hfed.callLoop (hparse ▸ nofun) (n := m)
      (Nat.lt_succ_self _)
    exact congrArg Prod.fst (hcall _ _ (step_corrupt (hsame.trans hparse)))
  intro hfin
  cases ns with
  | nil => cases (hfirst n).symm.trans hfin.ends
  | cons m ns =>
    obtain ⟨b, bs, hread⟩ := hfin.delivers _ List.mem_cons_self
    cases (hfirst m).symm.trans hread

/-- Whatever the input is, all the runs to the end deliver the same. -/
theorem endsAlike (data : Bytes) :
    EndsAlike (⟨(Codec.ofFormat fmt corruptError chunk).init, ⟨data⟩⟩ :
      Pipe (Codec.ofFormat fmt corruptError chunk) (Window ε)) := by
  cases hparse : fmt.parse data with
  | complete contents => exact (emits hparse).endsAlike
  | incomplete => exact ((drains_incomplete hparse).emits (r := ⟨([], 0), ⟨data⟩⟩) rfl).endsAlike
  | corrupt => exact fun ns n out _ _ hfin => absurd hfin (not_finishes hparse ns n out)

end FrameFormat

end ZipForensic
