import ZipForensic.Stream.Endings

/-!
# A decoder that fills its buffer first

`Codec.ofFormat` asks for input only where its stream goes on. The decoder of this file keeps
its input in a buffer and asks whenever that is empty: before its first read, and again when the
last byte of the contents has used up the input, although the stream is complete then.

- `FrameSpec.filling`: it is a decoder of self-delimiting streams all the same.
- `FrameFormat.filling_emits`: it delivers the contents of a whole stream.
- `FrameFormat.filling_endsUnasked_iff`: over the bytes of one stream, with contents, every end
  it reports is behind a read for more; over a longer input it never asks for more than there is.
-/

namespace ZipForensic

variable {ε : Type}

/-- The input so far, how much was delivered, and whether the buffer is empty. -/
structure FillState where
  input : Bytes
  given : Nat
  empty : Bool

namespace FrameFormat

variable (fmt : FrameFormat) (corruptError : ε) (chunk : Nat)

/-- The stream ends with the last byte of the input, and not before. -/
def EndsHere (inp : Bytes) : Prop := fmt.parse inp.dropLast = .incomplete

instance (inp : Bytes) : Decidable (fmt.EndsHere inp) := inferInstanceAs (Decidable (_ = _))

/-- What is answered from the input so far. -/
def answer (s : FillState) (n : Nat) : Except ε Bytes × FillState :=
  match fmt.parse s.input with
  | .incomplete => (.ok [], s)
  | .complete contents =>
    (.ok ((contents.drop s.given).take n),
      ⟨s.input, s.given + ((contents.drop s.given).take n).length,
        contents.length ≤ s.given + ((contents.drop s.given).take n).length ∧
          fmt.EndsHere s.input⟩)
  | .corrupt => (.error corruptError, s)

def fillStep (s : FillState) : Call → Step ε FillState
  | .new => .out (.ok []) s
  | .read n =>
    if s.empty = true ∨ fmt.parse s.input = .incomplete then
      .pull (chunk + 1) (fun bs => ⟨s.input ++ bs, s.given, false⟩) (fmt.answer corruptError s n)
        fun e => (.error e, s)
    else
      .out (fmt.answer corruptError s n).1 (fmt.answer corruptError s n).2

variable {fmt corruptError chunk} {s s' : FillState} {c : Call} {n m : Nat}
  {a : Except ε Bytes} {onData : Bytes → FillState} {onEnd : Except ε Bytes × FillState}
  {onError : ε → Except ε Bytes × FillState}

theorem answer_complete {contents : Bytes} (h : fmt.parse s.input = .complete contents) :
    fmt.answer corruptError s n = (.ok ((contents.drop s.given).take n),
      ⟨s.input, s.given + ((contents.drop s.given).take n).length,
        contents.length ≤ s.given + ((contents.drop s.given).take n).length ∧
          fmt.EndsHere s.input⟩) := by
  rw [answer, h]

theorem answer_incomplete (h : fmt.parse s.input = .incomplete) :
    fmt.answer corruptError s n = (.ok [], s) := by
  rw [answer, h]

theorem answer_corrupt (h : fmt.parse s.input = .corrupt) :
    fmt.answer corruptError s n = (.error corruptError, s) := by
  rw [answer, h]

@[simp] theorem answer_input : (fmt.answer corruptError s n).2.input = s.input := by
  unfold answer
  cases fmt.parse s.input <;> rfl

/-- An answer takes its bytes from the contents that are left. -/
theorem answer_le (k : Nat) :
    delivered (fmt.answer corruptError s n).1 ≤ n ∧
      delivered (fmt.answer corruptError s n).1 +
          (s.input.length + k - (fmt.answer corruptError s n).2.given) ≤
        s.input.length + k - s.given := by
  cases hparse : fmt.parse s.input with
  | complete contents =>
    have hle := fmt.length_le hparse
    rw [answer_complete hparse]
    simp only [delivered_ok, List.length_take, List.length_drop]
    omega
  | incomplete =>
    rw [answer_incomplete hparse]
    exact ⟨Nat.zero_le n, Nat.le_of_eq (Nat.zero_add _)⟩
  | corrupt =>
    rw [answer_corrupt hparse]
    exact ⟨Nat.zero_le n, Nat.le_of_eq (Nat.zero_add _)⟩

theorem of_fillStep_pull
    (h : fmt.fillStep corruptError chunk s c = .pull n onData onEnd onError) :
    ∃ m, c = .read m ∧ (s.empty = true ∨ fmt.parse s.input = .incomplete) ∧ n = chunk + 1 ∧
      onData = (fun bs => ⟨s.input ++ bs, s.given, false⟩) ∧
      onEnd = fmt.answer corruptError s m ∧ onError = fun e => (.error e, s) := by
  cases c with
  | new => cases h
  | read m =>
    rw [fillStep] at h
    split_ifs at h with hasks
    injection h with hn hdata hend herror
    exact ⟨m, rfl, hasks, hn.symm, hdata.symm, hend.symm, herror.symm⟩

theorem of_fillStep_out (h : fmt.fillStep corruptError chunk s (.read m) = .out a s') :
    fmt.parse s.input ≠ .incomplete ∧ a = (fmt.answer corruptError s m).1 ∧
      s' = (fmt.answer corruptError s m).2 := by
  rw [fillStep] at h
  split_ifs at h with hasks
  injection h with ha hs
  exact ⟨(not_or.1 hasks).2, ha.symm, hs.symm⟩

theorem fillStep_asks (h : s.empty = true ∨ fmt.parse s.input = .incomplete) :
    fmt.fillStep corruptError chunk s (.read n) =
      .pull (chunk + 1) (fun bs => ⟨s.input ++ bs, s.given, false⟩) (fmt.answer corruptError s n)
        fun e => (.error e, s) := by
  rw [fillStep, if_pos h]

theorem fillStep_answers (h : ¬ (s.empty = true ∨ fmt.parse s.input = .incomplete)) :
    fmt.fillStep corruptError chunk s (.read n) =
      .out (fmt.answer corruptError s n).1 (fmt.answer corruptError s n).2 := by
  rw [fillStep, if_neg h]

/-- The answers of a step. -/
theorem fillStep_le {b : Except ε Bytes × FillState}
    (h : (fmt.fillStep corruptError chunk s c).Answers b) (k : Nat) :
    (∀ m, c = .read m → delivered b.1 ≤ m) ∧
      delivered b.1 + (b.2.input.length + k - b.2.given) ≤ s.input.length + k - s.given := by
  have hanswer : ∀ m, b = fmt.answer corruptError s m → (∀ l, Call.read m = .read l →
      delivered b.1 ≤ l) ∧
        delivered b.1 + (b.2.input.length + k - b.2.given) ≤ s.input.length + k - s.given := by
    rintro m rfl
    rw [answer_input]
    refine ⟨?_, (answer_le k).2⟩
    rintro l ⟨⟩
    exact (answer_le k).1
  have hnone : ∀ {x : Except ε Bytes}, delivered x = 0 → b = (x, s) →
      (∀ l, c = .read l → delivered b.1 ≤ l) ∧
        delivered b.1 + (b.2.input.length + k - b.2.given) ≤ s.input.length + k - s.given := by
    rintro x hx rfl
    rw [hx, Nat.zero_add]
    exact ⟨fun l _ => Nat.zero_le l, Nat.le_refl _⟩
  cases c with
  | new => exact hnone rfl h
  | read m =>
    rw [fillStep] at h
    split_ifs at h with hasks
    · rcases h with h | ⟨e, h⟩
      · exact hanswer m h
      · exact hnone rfl h
    · exact hanswer m h

end FrameFormat

/-- The decoder of a format that fills its buffer whenever that is empty. -/
def Codec.filling (fmt : FrameFormat) (corruptError : ε) (chunk : Nat) : Codec ε where
  State := FillState
  init := ⟨[], 0, true⟩
  step := fmt.fillStep corruptError chunk
  budget s m := s.input.length + m - s.given
  answer_le h := (FrameFormat.fillStep_le h 0).1 _ rfl
  pull_pos h := by
    obtain ⟨-, -, -, rfl, -⟩ := FrameFormat.of_fillStep_pull h
    exact Nat.succ_pos chunk
  budget_mono s m m' h := by omega
  budget_answer h m := (FrameFormat.fillStep_le h m).2
  budget_data h bs m := by
    obtain ⟨-, -, -, -, rfl, -⟩ := FrameFormat.of_fillStep_pull h
    rw [List.length_append, Nat.add_assoc]

def FrameSpec.filling (fmt : FrameFormat) (corruptError : ε) (chunk : Nat) :
    FrameSpec (Codec.filling fmt corruptError chunk) where
  status inp := (fmt.parse inp).status
  Given _ s inp := s.input = inp
  lenient := true
  complete_append {inp} bs h := by
    cases hparse : fmt.parse inp with
    | complete contents => rw [fmt.complete_append bs hparse]; rfl
    | incomplete => rw [hparse] at h; cases h
    | corrupt => rw [hparse] at h; cases h
  corrupt_append {inp} bs h := by
    cases hparse : fmt.parse inp with
    | corrupt => rw [fmt.corrupt_append bs hparse]; rfl
    | incomplete => rw [hparse] at h; cases h
    | complete contents => rw [hparse] at h; cases h
  given_init := rfl
  given_out {told s inp c a s'} hgiven h := by
    cases c with
    | new =>
      injection h with _ hs
      rw [← hs]
      exact hgiven
    | read m =>
      obtain ⟨-, -, rfl⟩ := FrameFormat.of_fillStep_out h
      exact FrameFormat.answer_input.trans hgiven
  given_data hgiven h bs := by
    obtain ⟨-, -, -, -, rfl, -⟩ := FrameFormat.of_fillStep_pull h
    rw [← hgiven]
  given_end hgiven h := by
    obtain ⟨m, -, -, -, -, rfl, -⟩ := FrameFormat.of_fillStep_pull h
    exact FrameFormat.answer_input.trans hgiven
  given_error hgiven h e := by
    obtain ⟨-, -, -, -, -, -, rfl⟩ := FrameFormat.of_fillStep_pull h
    exact hgiven
  error_error _ h e := by
    obtain ⟨-, -, -, -, -, -, rfl⟩ := FrameFormat.of_fillStep_pull h
    exact ⟨e, rfl⟩
  read_complete {told s inp m a s'} hgiven h _ hout := by
    obtain ⟨-, rfl, -⟩ := FrameFormat.of_fillStep_out hout
    rw [← hgiven] at h
    cases hparse : fmt.parse s.input with
    | complete contents => exact ⟨_, congrArg Prod.fst (FrameFormat.answer_complete hparse)⟩
    | incomplete => rw [hparse] at h; cases h
    | corrupt => rw [hparse] at h; cases h
  read_incomplete {s inp m a s'} hgiven h _ hout := by
    obtain ⟨hparse, -⟩ := FrameFormat.of_fillStep_out hout
    rw [← hgiven] at h
    cases hstatus : fmt.parse s.input with
    | incomplete => exact absurd hstatus hparse
    | complete contents => rw [hstatus] at h; cases h
    | corrupt => rw [hstatus] at h; cases h
  read_corrupt {told s inp m a s'} hgiven h _ hout := by
    obtain ⟨-, rfl, -⟩ := FrameFormat.of_fillStep_out hout
    rw [← hgiven] at h
    cases hparse : fmt.parse s.input with
    | corrupt =>
      rw [FrameFormat.answer_corrupt hparse]
      nofun
    | incomplete => rw [hparse] at h; cases h
    | complete contents => rw [hparse] at h; cases h
  read_end {told s inp m n onData onEnd onError} hgiven h _ := by
    change fmt.fillStep corruptError chunk s (.read m) = .pull n onData onEnd onError at h
    obtain ⟨l, -, -, -, -, rfl, -⟩ := FrameFormat.of_fillStep_pull h
    rw [← hgiven]
    cases hparse : fmt.parse s.input with
    | incomplete =>
      rw [FrameFormat.answer_incomplete hparse]
      exact ⟨[], rfl⟩
    | complete contents =>
      rw [FrameFormat.answer_complete hparse]
      exact ⟨_, rfl⟩
    | corrupt =>
      rw [FrameFormat.answer_corrupt hparse]
      nofun
  read_told {s inp m a s'} hgiven h _ hout := by
    obtain ⟨hparse, -⟩ := FrameFormat.of_fillStep_out hout
    rw [← hgiven] at h
    cases hstatus : fmt.parse s.input with
    | incomplete => exact absurd hstatus hparse
    | complete contents => rw [hstatus] at h; cases h
    | corrupt => rw [hstatus] at h; cases h

theorem Codec.filling_resumes (fmt : FrameFormat) (corruptError : ε) (chunk : Nat) :
    (Codec.filling fmt corruptError chunk).Resumes where
  asks {s n m N onData onEnd onError} h _ _ := by
    change fmt.fillStep corruptError chunk s (.read n) = .pull N onData onEnd onError at h
    obtain ⟨-, -, hasks, rfl, rfl, -, rfl⟩ := FrameFormat.of_fillStep_pull h
    exact ⟨_, FrameFormat.fillStep_asks hasks⟩
  handsOn {s c N onData onEnd onError} h e := by
    change fmt.fillStep corruptError chunk s c = .pull N onData onEnd onError at h
    obtain ⟨-, -, -, -, -, -, rfl⟩ := FrameFormat.of_fillStep_pull h
    rfl
  retries {s n m N onData onEnd onError} h _ _ e := by
    change fmt.fillStep corruptError chunk s (.read n) = .pull N onData onEnd onError at h
    obtain ⟨-, -, -, -, -, -, rfl⟩ := FrameFormat.of_fillStep_pull h
    rfl

/-! ## What it delivers, and when it asks -/

namespace FrameFormat

variable {fmt : FrameFormat} {corruptError : ε} {chunk : Nat} {data contents : Bytes}

/-- The decoder was given the front of `data`, and the rest is below. -/
def Filled (fmt : FrameFormat) (corruptError : ε) (chunk : Nat) (data : Bytes)
    (q : Pipe (Codec.filling fmt corruptError chunk) (Probe ε)) : Prop :=
  q.state.input ++ q.inner.rest = data

/-- What it is asked for goes from below into the buffer. -/
theorem Filled.pull {inp more : Bytes} {b : UInt8} (hdata : inp ++ b :: more = data) (given : Nat)
    (asked : Bool) :
    Filled fmt corruptError chunk data
      ⟨⟨inp ++ b :: more.take chunk, given, false⟩, ⟨more.drop chunk, asked⟩⟩ := by
  show inp ++ b :: more.take chunk ++ more.drop chunk = data
  rw [← hdata, List.append_assoc, List.cons_append, List.take_append_drop]

/-- A front of a whole stream is one itself, unless the stream goes on. -/
theorem complete_of_append {inp more : Bytes} (hparse : fmt.parse (inp ++ more) = .complete contents)
    (hinp : fmt.parse inp ≠ .incomplete) : fmt.parse inp = .complete contents := by
  cases hstatus : fmt.parse inp with
  | incomplete => exact absurd hstatus hinp
  | complete contents' => exact (fmt.complete_append more hstatus).symm.trans hparse
  | corrupt => cases (fmt.corrupt_append more hstatus).symm.trans hparse

/-- A read answers from the front of the data that is a whole stream. It asks for more than
there is exactly if the buffer is empty behind the last byte. -/
theorem Filled.callLoop (hparse : fmt.parse data = .complete contents) {n fuel : Nat}
    {q : Pipe (Codec.filling fmt corruptError chunk) (Probe ε)}
    (hq : Filled fmt corruptError chunk data q) (hfuel : q.inner.rest.length < fuel) :
    ∃ inp more asked e, inp ++ more = data ∧ fmt.parse inp = .complete contents ∧
      Pipe.callLoop (.read n) fuel q =
        ((fmt.answer corruptError ⟨inp, q.state.given, e⟩ n).1,
          ⟨(fmt.answer corruptError ⟨inp, q.state.given, e⟩ n).2, ⟨more, asked⟩⟩) ∧
      (asked = true ↔ q.inner.asked = true ∨ q.state.empty = true ∧ q.inner.rest = []) := by
  induction fuel generalizing q with
  | zero => omega
  | succ fuel ih =>
    obtain ⟨⟨inp, given, empty⟩, ⟨more, asked⟩⟩ := q
    have hdata : inp ++ more = data := hq
    by_cases hasks : empty = true ∨ fmt.parse inp = .incomplete
    · have hstep : (Codec.filling fmt corruptError chunk).step ⟨inp, given, empty⟩ (.read n) =
          .pull (chunk + 1) (fun bs => ⟨inp ++ bs, given, false⟩)
            (fmt.answer corruptError ⟨inp, given, empty⟩ n) fun e => (.error e, ⟨inp, given, empty⟩) :=
        fillStep_asks hasks
      cases more with
      | nil =>
        rw [List.append_nil] at hdata
        have hwhole : fmt.parse inp = .complete contents := hdata ▸ hparse
        have hempty : empty = true := hasks.resolve_right (by rw [hwhole]; nofun)
        rw [Pipe.callLoop_end hstep (Probe.read_nil asked _)]
        exact ⟨inp, [], true, empty, (List.append_nil _).trans hdata, hwhole, rfl,
          iff_of_true rfl (.inr ⟨hempty, rfl⟩)⟩
      | cons b bs =>
        rw [Pipe.callLoop_data hstep (Probe.read_succ_cons b bs asked chunk)]
        have hlt : (bs.drop chunk).length < fuel := by
          have hle : (b :: bs).length < fuel + 1 := hfuel
          rw [List.length_cons] at hle
          rw [List.length_drop]
          omega
        obtain ⟨inp', more', asked', e, hsplit, hwhole, hcall, hkept⟩ :=
          ih (Filled.pull hdata given asked) hlt
        refine ⟨inp', more', asked', e, hsplit, hwhole, hcall, hkept.trans ?_⟩
        exact or_congr_right (iff_of_false (fun h => Bool.false_ne_true h.1)
          fun h => List.cons_ne_nil _ _ h.2)
    · have hstep : (Codec.filling fmt corruptError chunk).step ⟨inp, given, empty⟩ (.read n) =
          .out (fmt.answer corruptError ⟨inp, given, empty⟩ n).1
            (fmt.answer corruptError ⟨inp, given, empty⟩ n).2 := fillStep_answers hasks
      obtain ⟨hempty, hinp⟩ := not_or.1 hasks
      rw [Pipe.callLoop_out hstep]
      exact ⟨inp, more, asked, empty, hdata, complete_of_append (hdata ▸ hparse) hinp, rfl,
        (or_iff_left fun h => hempty h.1).symm⟩

/-- One read takes its bytes from the contents that are left. -/
theorem Filled.read (hparse : fmt.parse data = .complete contents)
    {q : Pipe (Codec.filling fmt corruptError chunk) (Probe ε)}
    (hq : Filled fmt corruptError chunk data q) (n : Nat) :
    (ZipForensic.read n q).1 = .ok ((contents.drop q.state.given).take n) ∧
      Filled fmt corruptError chunk data (ZipForensic.read n q).2 ∧
      (ZipForensic.read n q).2.state.given =
        q.state.given + ((contents.drop q.state.given).take n).length ∧
      ((ZipForensic.read n q).2.state.empty = true ↔
        contents.length ≤ (ZipForensic.read n q).2.state.given ∧
          fmt.EndsHere (ZipForensic.read n q).2.state.input) ∧
      fmt.parse (ZipForensic.read n q).2.state.input = .complete contents ∧
      ((ZipForensic.read n q).2.inner.asked = true ↔
        q.inner.asked = true ∨ q.state.empty = true ∧ q.inner.rest = []) := by
  obtain ⟨inp, more, asked, e, hsplit, hwhole, hcall, hasked⟩ :=
    hq.callLoop hparse (n := n) (Nat.lt_succ_self _)
  have hread : ZipForensic.read n q = _ := hcall
  rw [answer_complete (s := ⟨inp, q.state.given, e⟩) hwhole] at hread
  rw [hread]
  exact ⟨rfl, hsplit, rfl, decide_eq_true_iff, hwhole, hasked⟩

/-- It delivers the contents of a whole stream. -/
theorem filling_emits (hparse : fmt.parse data = .complete contents) :
    Emits (⟨(Codec.filling fmt corruptError chunk).init, ⟨data⟩⟩ :
      Pipe (Codec.filling fmt corruptError chunk) (Window ε)) contents := by
  have hdrains : Drains
      (fun q : Pipe (Codec.filling fmt corruptError chunk) (Probe ε) =>
        contents.drop q.state.given) (Filled fmt corruptError chunk data) := by
    refine ⟨fun {q n} hq hn => ?_⟩
    obtain ⟨hread, hnext, hgiven, -⟩ := hq.read hparse n
    refine ⟨_, hread, ?_, ?_, hnext⟩
    · rw [hgiven, ← List.drop_drop]
      exact List.prefix_iff_eq_append.1 (List.take_prefix n _)
    · intro hnil
      rcases List.take_eq_nil_iff.1 hnil with hzero | hend
      · omega
      · exact hend
  have hprobe := hdrains.emits (r := ⟨⟨[], 0, true⟩, ⟨data, false⟩⟩) rfl
  exact (Emits.map (Pipe.readHom_map Probe.readHom_window)).2 hprobe

/-- A front of a stream that ends with its last byte is no whole stream. -/
theorem EndsHere.eq_of_complete (h : fmt.EndsHere data) {inp more contents : Bytes}
    (hsplit : inp ++ more = data) (hinp : fmt.parse inp = .complete contents) : inp = data := by
  by_contra hne
  obtain ⟨b, bs, rfl⟩ := List.exists_cons_of_ne_nil (l := more) (by
    rintro rfl
    exact hne ((List.append_nil _).symm.trans hsplit))
  have hfront : data.dropLast = inp ++ (b :: bs).dropLast := by
    rw [← hsplit, List.dropLast_append_of_ne_nil (List.cons_ne_nil b bs)]
  rw [EndsHere, hfront, fmt.complete_append _ hinp] at h
  cases h

/-- Over the bytes of one stream, with contents, it ends only behind a read for more. -/
theorem filling_asks (hparse : fmt.parse data = .complete contents) (hexact : fmt.EndsHere data)
    (hne : contents ≠ []) (again : Prop) :
    ¬ (Codec.filling fmt corruptError chunk).EndsUnasked data again := by
  -- before the last byte of the contents, or with an empty buffer behind that of the data
  let I := fun q : Pipe (Codec.filling fmt corruptError chunk) (Probe ε) =>
    Filled fmt corruptError chunk data q ∧ (q.inner.asked = true ∨
      q.state.given < contents.length ∨ q.state.empty = true ∧ q.inner.rest = [])
  have hstep : ∀ {q n}, I q → 0 < n →
      I (read n q).2 ∧ ((read n q).1 = .ok [] → (read n q).2.inner.asked = true) := by
    rintro q n ⟨hq, hstate⟩ hn
    obtain ⟨hread, hnext, hgiven, hempty, hwhole, hasked⟩ := hq.read hparse n
    refine ⟨⟨hnext, ?_⟩, ?_⟩
    · by_cases hleft : (read n q).2.state.given < contents.length
      · exact .inr (.inl hleft)
      · have hall := hexact.eq_of_complete hnext hwhole
        refine .inr (.inr ⟨hempty.2 ⟨Nat.le_of_not_lt hleft, hall ▸ hexact⟩, ?_⟩)
        have hsplit : (read n q).2.state.input ++ (read n q).2.inner.rest = data := hnext
        rw [hall] at hsplit
        exact List.append_right_eq_self.1 hsplit
    · intro hend
      rcases hstate with h | h | h
      · exact hasked.2 (.inl h)
      · have hnil : (contents.drop q.state.given).take n = [] :=
          Except.ok.inj (hread.symm.trans hend)
        rcases List.take_eq_nil_iff.1 hnil with hzero | hdrop
        · omega
        · rw [List.drop_eq_nil_iff] at hdrop
          omega
      · exact hasked.2 (.inr h)
  rintro ⟨ns, n, hns, hn, -, hend, hnot⟩
  have hinit : I ⟨(Codec.filling fmt corruptError chunk).init, ⟨data, false⟩⟩ :=
    ⟨rfl, .inr (.inl (List.length_pos_of_ne_nil hne))⟩
  have hrun := reads_invariant I (fun h hn => (hstep h hn).1) hns hinit
  rw [(hstep hrun hn).2 hend] at hnot
  cases hnot

/-- Over more than one stream, the contents are delivered and the end is reported, as often as
it is read, without a read for more. -/
theorem filling_endsUnasked (hparse : fmt.parse data = .complete contents)
    (hlong : ¬ fmt.EndsHere data) (hne : contents ≠ []) (again : Prop) :
    (Codec.filling fmt corruptError chunk).EndsUnasked data again := by
  -- an empty buffer is not behind the last byte of the data
  let I := fun q : Pipe (Codec.filling fmt corruptError chunk) (Probe ε) =>
    Filled fmt corruptError chunk data q ∧ q.inner.asked = false ∧
      (q.state.empty = true → q.inner.rest ≠ [])
  have hstep : ∀ {q n}, I q → 0 < n → I (read n q).2 := by
    rintro q n ⟨hq, hasked, hrest⟩ -
    obtain ⟨-, hnext, -, hempty, -, hiff⟩ := hq.read hparse n
    refine ⟨hnext, Bool.eq_false_iff.2 fun h => ?_, fun h hnil => ?_⟩
    · rcases hiff.1 h with h | ⟨h, hnil⟩
      · rw [hasked] at h
        cases h
      · exact hrest h hnil
    · have hall : (read n q).2.state.input ++ (read n q).2.inner.rest = data := hnext
      rw [hnil, List.append_nil] at hall
      exact hlong (hall ▸ (hempty.1 h).2)
  have hpos : 0 < contents.length := List.length_pos_of_ne_nil hne
  have hdata : data ≠ [] := by
    rintro rfl
    exact Nat.not_lt.2 (fmt.length_le hparse) hpos
  have hinit : I ⟨(Codec.filling fmt corruptError chunk).init, ⟨data, false⟩⟩ :=
    ⟨rfl, rfl, fun _ => hdata⟩
  have hns : ∀ m ∈ [contents.length, 1], 0 < m := by simpa using hpos
  -- the first read takes all of the contents
  obtain ⟨-, hfirst, hgiven, -⟩ := hinit.1.read hparse contents.length
  have hend : ∀ {q}, Filled fmt corruptError chunk data q → contents.length ≤ q.state.given →
      (read 1 q).1 = .ok [] ∧ contents.length ≤ (read 1 q).2.state.given := by
    intro q hq hle
    obtain ⟨hread, -, hnext, -⟩ := hq.read hparse 1
    rw [hread, List.drop_eq_nil_of_le hle]
    exact ⟨rfl, by omega⟩
  have hall : contents.length ≤
      (read contents.length (⟨(Codec.filling fmt corruptError chunk).init, ⟨data, false⟩⟩ :
        Pipe _ (Probe ε))).2.state.given := by
    rw [hgiven]
    show _ ≤ 0 + ((contents.drop 0).take contents.length).length
    rw [List.drop_zero, List.take_length]
    omega
  obtain ⟨hsecond, hle⟩ := hend hfirst hall
  have hrun := reads_invariant I hstep hns hinit
  refine ⟨[contents.length, 1], 1, hns, Nat.one_pos, fun _ => ?_, (hend hrun.1 hle).1,
    (hstep hrun Nat.one_pos).2.1⟩
  rw [reads_cons, reads_cons, hsecond]
  simp

theorem filling_endsUnasked_iff (hparse : fmt.parse data = .complete contents) (hne : contents ≠ [])
    (again : Prop) :
    (Codec.filling fmt corruptError chunk).EndsUnasked data again ↔ ¬ fmt.EndsHere data :=
  ⟨fun h hexact => filling_asks hparse hexact hne again h,
    fun hlong => filling_endsUnasked hparse hlong hne again⟩

end FrameFormat

end ZipForensic
