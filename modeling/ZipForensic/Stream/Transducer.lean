import ZipForensic.Bytes.LittleEndian

/-!
# Byte transducers and the calls that drive them

A `Transducer` decodes a stream one byte at a time; a byte can complete any number
of output bytes. It is driven by calls that get some input and some room for output
(`call`): a call stops when the room is full, the input is used up, or the stream has
ended, and keeps what did not fit for the next call.

- `output`: what a state produces for the rest of a stream; `feed`: what it makes of
  some bytes of the stream.
- `output_call`: a call takes a front of the input and returns a front of the output,
  so the output of a stream does not depend on how it is cut into calls.
- `call_consumed_pos`: a call with room and input gets somewhere.
-/

namespace ZipForensic

/-- A decoder that takes one byte at a time. -/
structure Transducer where
  State : Type
  init : State
  /-- The next state and the output that the byte completes; `none` on bad input. -/
  step : State → UInt8 → Option (State × Bytes)
  done : State → Bool

/-- The states of a transducer as bytes. -/
structure Snapshots (T : Transducer) where
  encode : T.State → Bytes
  decode : Bytes → Option T.State
  decode_encode : ∀ s, decode (encode s) = some s

namespace Transducer

/-- What one call leaves and returns. -/
structure Call (σ : Type) where
  state : σ
  /-- Output that did not fit. -/
  pending : Bytes
  consumed : Nat
  written : Bytes
  failed : Bool

variable (T : Transducer)

/-- What a state with `pending` output produces for the input it still gets; `none`
for bad input and for a stream that is cut short. -/
def output : T.State → Bytes → Bytes → Option Bytes
  | s, pending, [] => if T.done s then some pending else none
  | s, pending, b :: bs =>
    if T.done s then some pending
    else
      match T.step s b with
      | none => none
      | some (s', out) => (output s' out bs).map (pending ++ ·)

/-- One call with room for `n` bytes. -/
def call : T.State → Bytes → Bytes → Nat → Call T.State
  | s, pending, [], n => ⟨s, pending.drop n, 0, pending.take n, false⟩
  | s, pending, b :: bs, n =>
    if n ≤ pending.length ∨ T.done s then ⟨s, pending.drop n, 0, pending.take n, false⟩
    else
      match T.step s b with
      | none => ⟨s, [], 0, pending, true⟩
      | some (s', out) =>
        let r := call s' out bs (n - pending.length)
        { r with consumed := r.consumed + 1, written := pending ++ r.written }

variable {T}

/-! ## One call, case by case -/

/-- A call that takes no input. -/
theorem call_of_stop {s : T.State} {pending input : Bytes} {n : Nat}
    (h : n ≤ pending.length ∨ T.done s = true) :
    T.call s pending input n = ⟨s, pending.drop n, 0, pending.take n, false⟩ := by
  cases input with
  | nil => rfl
  | cons b bs => rw [call, if_pos h]

theorem call_cons {s s' : T.State} {pending out bs : Bytes} {b : UInt8} {n : Nat}
    (hroom : pending.length < n) (hdone : T.done s = false) (hstep : T.step s b = some (s', out)) :
    T.call s pending (b :: bs) n =
      { T.call s' out bs (n - pending.length) with
        consumed := (T.call s' out bs (n - pending.length)).consumed + 1
        written := pending ++ (T.call s' out bs (n - pending.length)).written } := by
  rw [call, if_neg (by simp [hdone]; omega), hstep]

theorem call_cons_bad {s : T.State} {pending bs : Bytes} {b : UInt8} {n : Nat}
    (hroom : pending.length < n) (hdone : T.done s = false) (hstep : T.step s b = none) :
    T.call s pending (b :: bs) n = ⟨s, [], 0, pending, true⟩ := by
  rw [call, if_neg (by simp [hdone]; omega), hstep]

/-- The ways a call can go: it takes no input, it meets a bad byte, or it takes a byte
and goes on. -/
theorem call_cases (s : T.State) (pending input : Bytes) (n : Nat) :
    (T.call s pending input n = ⟨s, pending.drop n, 0, pending.take n, false⟩ ∧
      (input = [] ∨ n ≤ pending.length ∨ T.done s = true)) ∨
    (∃ b bs, input = b :: bs ∧ pending.length < n ∧ T.done s = false ∧
      (T.step s b = none ∨ ∃ s' out, T.step s b = some (s', out))) := by
  cases input with
  | nil => exact .inl ⟨rfl, .inl rfl⟩
  | cons b bs =>
    by_cases h : n ≤ pending.length ∨ T.done s = true
    · exact .inl ⟨call_of_stop h, .inr h⟩
    · obtain ⟨hroom, hdone⟩ := not_or.1 h
      refine .inr ⟨b, bs, rfl, by omega, Bool.eq_false_iff.2 hdone, ?_⟩
      rcases hstep : T.step s b with _ | ⟨s', out⟩
      · exact .inl rfl
      · exact .inr ⟨s', out, rfl⟩

/-- What is pending when a call starts is written first. -/
theorem call_pending {s : T.State} {pending input : Bytes} {n : Nat} (h : pending.length ≤ n) :
    T.call s pending input n =
      { T.call s [] input (n - pending.length) with
        written := pending ++ (T.call s [] input (n - pending.length)).written } := by
  rcases call_cases s [] input (n - pending.length) with
    ⟨hcall, hstop⟩ | ⟨b, bs, rfl, hroom, hdone, hstep⟩
  · have hstop' : input = [] ∨ n ≤ pending.length ∨ T.done s = true := by
      rcases hstop with hstop | hstop | hstop
      · exact .inl hstop
      · exact .inr (.inl (by simpa [Nat.sub_eq_zero_iff_le] using hstop))
      · exact .inr (.inr hstop)
    have hcall' : T.call s pending input n = ⟨s, pending.drop n, 0, pending.take n, false⟩ := by
      rcases hstop' with rfl | hstop'
      · rfl
      · exact call_of_stop hstop'
    rw [hcall, hcall', List.take_of_length_le h, List.drop_of_length_le h]
    simp
  · have hroom' : pending.length < n := by
      rw [List.length_nil] at hroom
      omega
    rcases hstep with hstep | ⟨s', out, hstep⟩
    · rw [call_cons_bad hroom' hdone hstep, call_cons_bad hroom hdone hstep, List.append_nil]
    · rw [call_cons hroom' hdone hstep, call_cons hroom hdone hstep]
      rfl

/-- What a state makes of bytes that all belong to the stream. -/
def feed (T : Transducer) : T.State → Bytes → Option (T.State × Bytes)
  | s, [] => some (s, [])
  | s, b :: bs =>
    if T.done s then none
    else (T.step s b).bind fun r => (feed T r.1 bs).map fun r' => (r'.1, r.2 ++ r'.2)

theorem feed_cons {s s' : T.State} {b : UInt8} {bs out : Bytes} (hdone : T.done s = false)
    (hstep : T.step s b = some (s', out)) :
    T.feed s (b :: bs) = (T.feed s' bs).map fun r => (r.1, out ++ r.2) := by
  rw [feed, hdone, hstep]
  rfl

/-- A call with more room than the first bytes fill takes them and goes on. -/
theorem call_feed {s s' : T.State} {input out more : Bytes} {n : Nat}
    (hfeed : T.feed s input = some (s', out)) (hroom : out.length < n) :
    T.call s [] (input ++ more) n =
      { T.call s' [] more (n - out.length) with
        consumed := input.length + (T.call s' [] more (n - out.length)).consumed
        written := out ++ (T.call s' [] more (n - out.length)).written } := by
  induction input generalizing s out n with
  | nil =>
    cases hfeed
    simp
  | cons b bs ih =>
    rw [feed] at hfeed
    split_ifs at hfeed with hdone
    obtain ⟨⟨s₁, out₁⟩, hstep, hfeed⟩ := Option.bind_eq_some_iff.1 hfeed
    obtain ⟨⟨s₂, out₂⟩, hrest, hfeed⟩ := Option.map_eq_some_iff.1 hfeed
    cases hfeed
    have hroom' : out₁.length + out₂.length < n := by simpa using hroom
    rw [List.cons_append, call_cons (by simp; omega) (Bool.eq_false_iff.2 hdone) hstep,
      call_pending (by simp; omega), ih hrest (by simp; omega)]
    simp [Nat.sub_sub]
    omega

/-! ## The output of a state -/

theorem output_of_done {s : T.State} (h : T.done s = true) (pending input : Bytes) :
    T.output s pending input = some pending := by
  cases input <;> simp [output, h]

theorem output_cons {s s' : T.State} {pending out bs : Bytes} {b : UInt8}
    (hdone : T.done s = false) (hstep : T.step s b = some (s', out)) :
    T.output s pending (b :: bs) = (T.output s' out bs).map (pending ++ ·) := by
  rw [output, hdone, hstep]
  rfl

theorem output_cons_bad {s : T.State} {pending bs : Bytes} {b : UInt8}
    (hdone : T.done s = false) (hstep : T.step s b = none) :
    T.output s pending (b :: bs) = none := by
  rw [output, hdone, hstep]
  rfl

theorem map_append_map (o : Option Bytes) (a b : Bytes) :
    (o.map (b ++ ·)).map (a ++ ·) = o.map ((a ++ b) ++ ·) := by
  cases o <;> simp

/-- Pending output comes first. -/
theorem output_pending (s : T.State) (a b input : Bytes) :
    T.output s (a ++ b) input = (T.output s b input).map (a ++ ·) := by
  cases hdone : T.done s with
  | true => simp [output_of_done hdone]
  | false =>
    cases input with
    | nil => simp [output, hdone]
    | cons x xs =>
      rcases hstep : T.step s x with _ | ⟨s', out⟩
      · simp [output_cons_bad hdone hstep]
      · rw [output_cons hdone hstep, output_cons hdone hstep, map_append_map]

theorem output_feed {s s' : T.State} {input out : Bytes} (more : Bytes)
    (hfeed : T.feed s input = some (s', out)) :
    T.output s [] (input ++ more) = (T.output s' [] more).map (out ++ ·) := by
  induction input generalizing s out with
  | nil =>
    cases hfeed
    simp
  | cons b bs ih =>
    rw [feed] at hfeed
    split_ifs at hfeed with hdone
    obtain ⟨⟨s₁, out₁⟩, hstep, hfeed⟩ := Option.bind_eq_some_iff.1 hfeed
    obtain ⟨⟨s₂, out₂⟩, hrest, hfeed⟩ := Option.map_eq_some_iff.1 hfeed
    cases hfeed
    have hpending := output_pending s₁ out₁ [] (bs ++ more)
    rw [List.append_nil] at hpending
    rw [List.cons_append, output_cons (Bool.eq_false_iff.2 hdone) hstep, hpending, ih hrest,
      map_append_map, map_append_map]
    rfl

/-- **One call on the output**: it returns a front of the output and leaves a state that
produces the rest from the input it did not take. -/
theorem output_call (s : T.State) (pending input more : Bytes) (n : Nat)
    (h : (T.call s pending input n).failed = false) :
    T.output s pending (input ++ more) =
      (T.output (T.call s pending input n).state (T.call s pending input n).pending
        (input.drop (T.call s pending input n).consumed ++ more)).map
          ((T.call s pending input n).written ++ ·) := by
  induction input generalizing s pending n with
  | nil =>
    show T.output s pending more = (T.output s (pending.drop n) more).map (pending.take n ++ ·)
    rw [← output_pending, List.take_append_drop]
  | cons b bs ih =>
    rcases call_cases s pending (b :: bs) n with ⟨hcall, -⟩ | ⟨b', bs', hb, hroom, hdone, hstep⟩
    · rw [hcall, List.drop_zero, ← output_pending, List.take_append_drop]
    · cases hb
      rcases hstep with hstep | ⟨s', out, hstep⟩
      · rw [call_cons_bad hroom hdone hstep] at h
        cases h
      · rw [call_cons hroom hdone hstep] at h ⊢
        rw [List.cons_append, output_cons hdone hstep, ih s' out (n - pending.length) h,
          map_append_map, List.drop_succ_cons]

/-- A call that fails has met input that no stream with this front gets past. -/
theorem output_failed (s : T.State) (pending input more : Bytes) (n : Nat)
    (h : (T.call s pending input n).failed = true) :
    T.output s pending (input ++ more) = none := by
  induction input generalizing s pending n with
  | nil => cases h
  | cons b bs ih =>
    rcases call_cases s pending (b :: bs) n with ⟨hcall, -⟩ | ⟨b', bs', hb, hroom, hdone, hstep⟩
    · rw [hcall] at h
      cases h
    · cases hb
      rcases hstep with hstep | ⟨s', out, hstep⟩
      · rw [List.cons_append, output_cons_bad hdone hstep]
      · rw [call_cons hroom hdone hstep] at h
        rw [List.cons_append, output_cons hdone hstep, ih s' out (n - pending.length) h]
        rfl

/-! ## Bounds and progress -/

theorem call_consumed_le (s : T.State) (pending input : Bytes) (n : Nat) :
    (T.call s pending input n).consumed ≤ input.length := by
  induction input generalizing s pending n with
  | nil => exact Nat.le_refl 0
  | cons b bs ih =>
    rcases call_cases s pending (b :: bs) n with ⟨hcall, -⟩ | ⟨b', bs', hb, hroom, hdone, hstep⟩
    · rw [hcall]
      exact Nat.zero_le _
    · cases hb
      rcases hstep with hstep | ⟨s', out, hstep⟩
      · rw [call_cons_bad hroom hdone hstep]
        exact Nat.zero_le _
      · rw [call_cons hroom hdone hstep]
        exact Nat.succ_le_succ (ih s' out (n - pending.length))

theorem call_written_le (s : T.State) (pending input : Bytes) (n : Nat) :
    (T.call s pending input n).written.length ≤ n := by
  induction input generalizing s pending n with
  | nil => exact List.length_take_le n pending
  | cons b bs ih =>
    rcases call_cases s pending (b :: bs) n with ⟨hcall, -⟩ | ⟨b', bs', hb, hroom, hdone, hstep⟩
    · rw [hcall]
      exact List.length_take_le n pending
    · cases hb
      rcases hstep with hstep | ⟨s', out, hstep⟩
      · rw [call_cons_bad hroom hdone hstep]
        exact hroom.le
      · rw [call_cons hroom hdone hstep]
        have := ih s' out (n - pending.length)
        rw [List.length_append]
        omega

/-- A call with room that writes nothing, on a stream that has not ended, takes input
if it gets any; without any there is nothing left to produce. -/
theorem call_consumed_pos {s : T.State} {pending input : Bytes} {n : Nat} (hn : 0 < n)
    (hok : (T.call s pending input n).failed = false)
    (hwritten : (T.call s pending input n).written = [])
    (hdone : T.done (T.call s pending input n).state = false) :
    (input ≠ [] → 0 < (T.call s pending input n).consumed) ∧
      (input = [] → T.output s pending [] = none) := by
  rcases call_cases s pending input n with ⟨hcall, hstop⟩ | ⟨b, bs, rfl, hroom, hrun, hstep⟩
  · rw [hcall] at hwritten hdone
    have hpending : pending = [] := by
      cases pending with
      | nil => rfl
      | cons x xs =>
        cases n with
        | zero => omega
        | succ n => cases hwritten
    have hdone' : T.done s = false := hdone
    have hinput : input = [] := by
      rcases hstop with h | h | h
      · exact h
      · rw [hpending] at h
        exact absurd hn (Nat.not_lt.2 h)
      · rw [hdone'] at h
        cases h
    refine ⟨fun h => absurd hinput h, fun _ => ?_⟩
    rw [output, hdone']
    rfl
  · rcases hstep with hstep | ⟨s', out, hstep⟩
    · rw [call_cons_bad hroom hrun hstep] at hok
      cases hok
    · refine ⟨fun _ => ?_, fun h => by cases h⟩
      rw [call_cons hroom hrun hstep]
      exact Nat.succ_pos _

/-- A call with room that writes nothing and ends on a stream that has ended leaves
nothing to produce. -/
theorem call_done {s : T.State} {pending input : Bytes} {n : Nat} (hn : 0 < n)
    (hok : (T.call s pending input n).failed = false)
    (hwritten : (T.call s pending input n).written = [])
    (hdone : T.done (T.call s pending input n).state = true) :
    (T.call s pending input n).pending = [] := by
  induction input generalizing s pending n with
  | nil =>
    have hpending : pending.take n = [] := hwritten
    show pending.drop n = []
    rcases List.take_eq_nil_iff.1 hpending with h | h
    · omega
    · rw [h, List.drop_nil]
  | cons b bs ih =>
    rcases call_cases s pending (b :: bs) n with ⟨hcall, -⟩ | ⟨b', bs', hb, hroom, hrun, hstep⟩
    · rw [hcall] at hwritten ⊢
      rcases List.take_eq_nil_iff.1 hwritten with h | h
      · omega
      · show pending.drop n = []
        rw [h, List.drop_nil]
    · cases hb
      rcases hstep with hstep | ⟨s', out, hstep⟩
      · rw [call_cons_bad hroom hrun hstep] at hok
        cases hok
      · rw [call_cons hroom hrun hstep] at hok hwritten hdone ⊢
        exact ih (by omega) hok (List.append_eq_nil_iff.1 hwritten).2 hdone

end Transducer

end ZipForensic
