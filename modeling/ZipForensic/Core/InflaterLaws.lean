import ZipForensic.Core.Crates
import ZipForensic.Stream.Transducer

/-!
# What is documented of the inflater behind the seek index

- `StreamLaws`: one call takes a front of its input and returns a front of the output,
  and says truly whether the stream is bad, has ended, or needs more input. What an
  inflater produces is then a function of the stream alone (`Feeds.output_eq`).
- `Documented`: moreover a checkpoint, where there is one, resumes the stream.
- `Transducer.inflater`: every byte transducer is an inflater with these laws.
-/

namespace ZipForensic

namespace Inflater

variable (I : Inflater)

/-- The states the calls of the crate lead to. -/
inductive Usable : I.State → Prop
  | new : Usable I.new
  | call {s : I.State} (input : Bytes) (n : Nat) : Usable s →
      (I.inflate s input n).dataError = false → Usable (I.inflate s input n).next
  | restored {s s' : I.State} {blob : Bytes} {pos pos' : CheckpointPosition} : Usable s →
      I.checkpoint s = some (blob, pos) → I.restoreFromCheckpoint blob = some (s', pos') →
      Usable s'

/-- A fresh inflater has been fed the first `i` bytes of `stream`, in any pieces and with
any room, has returned `out`, and is in state `s`. -/
inductive Feeds (stream : Bytes) : Nat → Bytes → I.State → Prop
  | new : Feeds stream 0 [] I.new
  | call {i : Nat} {out : Bytes} {s : I.State} (input : Bytes) (n : Nat) :
      Feeds stream i out s → input <+: stream.drop i → (I.inflate s input n).dataError = false →
      Feeds stream (i + (I.inflate s input n).bytesConsumed) (out ++ (I.inflate s input n).written)
        (I.inflate s input n).next

/-- The calls of the inflater, against `output`: what a state produces for the rest of a
stream, `none` where that is bad or cut short. -/
structure StreamLaws (output : I.State → Bytes → Option Bytes) : Prop where
  consumed_le : ∀ {s}, I.Usable s → ∀ input n,
    (I.inflate s input n).bytesConsumed ≤ input.length
  written_le : ∀ {s}, I.Usable s → ∀ input n, (I.inflate s input n).written.length ≤ n
  output_call : ∀ {s}, I.Usable s → ∀ input n, (I.inflate s input n).dataError = false →
    ∀ more, output s (input ++ more) =
      (output (I.inflate s input n).next
        (input.drop (I.inflate s input n).bytesConsumed ++ more)).map
          ((I.inflate s input n).written ++ ·)
  output_error : ∀ {s}, I.Usable s → ∀ input n, (I.inflate s input n).dataError = true →
    ∀ more, output s (input ++ more) = none
  /-- `finished`, after a call with room that wrote nothing. -/
  output_finished : ∀ {s}, I.Usable s → ∀ input n, 0 < n →
    (I.inflate s input n).dataError = false → (I.inflate s input n).written = [] →
    I.finished (I.inflate s input n).next = true →
    ∀ more, output (I.inflate s input n).next more = some []
  /-- Such a call that has not finished takes input. -/
  progress : ∀ {s}, I.Usable s → ∀ input n, 0 < n →
    (I.inflate s input n).dataError = false → (I.inflate s input n).written = [] →
    I.finished (I.inflate s input n).next = false → input ≠ [] →
    0 < (I.inflate s input n).bytesConsumed
  /-- And if it gets none, the stream is not complete. -/
  truncated : ∀ {s}, I.Usable s → ∀ n, 0 < n →
    (I.inflate s [] n).dataError = false → (I.inflate s [] n).written = [] →
    I.finished (I.inflate s [] n).next = false → output s [] = none

/-- `checkpoint` and `restore_from_checkpoint` as documented: the restored inflater, fed
the stream from `input_bytes_to_skip` on, produces its output from
`output_bytes_already_returned` on, and neither position is ahead of the inflater. -/
structure Documented (output : I.State → Bytes → Option Bytes) : Prop
    extends I.StreamLaws output where
  restores : ∀ {stream i out s blob pos}, I.Feeds stream i out s →
    I.checkpoint s = some (blob, pos) →
    pos.outputBytesAlreadyReturned ≤ out.length ∧ pos.inputBytesToSkip ≤ i ∧
      ∃ s' pos', I.restoreFromCheckpoint blob = some (s', pos') ∧
        pos'.outputBytesAlreadyReturned = pos.outputBytesAlreadyReturned ∧
        output s' (stream.drop pos.inputBytesToSkip) =
          (output I.new stream).map (List.drop pos.outputBytesAlreadyReturned)

namespace Feeds

variable {I} {stream : Bytes} {i : Nat} {out : Bytes} {s : I.State}
  {output : I.State → Bytes → Option Bytes}

theorem usable (h : I.Feeds stream i out s) : I.Usable s := by
  induction h with
  | new => exact .new
  | call input n _ _ hok ih => exact .call input n ih hok

theorem le_length (hlaws : I.StreamLaws output) (h : I.Feeds stream i out s) :
    i ≤ stream.length := by
  induction h with
  | new => exact Nat.zero_le _
  | @call i out s input n hs hinput hok ih =>
    have hle := hlaws.consumed_le hs.usable input n
    have hlen := hinput.length_le
    rw [List.length_drop] at hlen
    omega

/-- However a stream is fed and drained, what was returned and what is still to come
make up its output. -/
theorem output_eq (hlaws : I.StreamLaws output) (h : I.Feeds stream i out s) :
    output I.new stream = (output s (stream.drop i)).map (out ++ ·) := by
  induction h with
  | new => simp
  | @call i out s input n hs hinput hok ih =>
    obtain ⟨more, hmore⟩ := hinput
    have hle := hlaws.consumed_le hs.usable input n
    have hdrop : stream.drop (i + (I.inflate s input n).bytesConsumed) =
        input.drop (I.inflate s input n).bytesConsumed ++ more := by
      rw [← List.drop_drop, ← hmore, List.drop_append_of_le_length hle]
    rw [ih, ← hmore, hlaws.output_call hs.usable input n hok more, hdrop,
      Transducer.map_append_map]

end Feeds

end Inflater

/-! ## Transducers are inflaters -/

/-- A transducer between two calls, with its position in the stream and in the output. -/
structure Inflating (T : Transducer) where
  state : T.State
  pending : Bytes
  consumed : Nat
  returned : Nat

namespace Transducer

variable (T : Transducer) (snapshots : Snapshots T)

/-- The inflater of a transducer. It has a checkpoint wherever nothing is pending, but none at
the end of the stream. -/
def inflater : Inflater where
  State := Inflating T
  new := ⟨T.init, [], 0, 0⟩
  inflate s input n :=
    let r := T.call s.state s.pending input n
    { next := ⟨r.state, r.pending, s.consumed + r.consumed, s.returned + r.written.length⟩
      bytesConsumed := r.consumed
      written := r.written
      dataError := r.failed }
  finished s := T.done s.state
  checkpoint s :=
    if s.pending = [] ∧ T.done s.state = false ∧ s.consumed < 256 ^ 8 ∧ s.returned < 256 ^ 8 then
      some (leBytes 8 s.consumed ++ (leBytes 8 s.returned ++ snapshots.encode s.state),
        ⟨s.consumed, s.returned⟩)
    else none
  restoreFromCheckpoint blob :=
    (snapshots.decode (blob.drop 16)).map fun state =>
      let consumed := leNat (slice blob 0 8)
      let returned := leNat (slice blob 8 8)
      (⟨state, [], consumed, returned⟩, ⟨consumed, returned⟩)

/-- The inflater's call, from the transducer's. -/
theorem inflate_eq {T : Transducer} {snapshots : Snapshots T} {s s' : T.State}
    {pending pending' input written : Bytes} {n i o consumed : Nat}
    (h : T.call s pending input n = ⟨s', pending', consumed, written, false⟩) :
    (T.inflater snapshots).inflate ⟨s, pending, i, o⟩ input n =
      ⟨⟨s', pending', i + consumed, o + written.length⟩, consumed, written, false⟩ := by
  unfold inflater
  dsimp only
  rw [h]

/-- What an inflater of a transducer produces. -/
def inflaterOutput (s : (T.inflater snapshots).State) (input : Bytes) : Option Bytes :=
  T.output s.state s.pending input

variable {T} {snapshots}

theorem inflater_streamLaws : (T.inflater snapshots).StreamLaws (T.inflaterOutput snapshots) where
  consumed_le {s} _ input n := call_consumed_le s.state s.pending input n
  written_le {s} _ input n := call_written_le s.state s.pending input n
  output_call {s} _ input n hok more := output_call s.state s.pending input more n hok
  output_error {s} _ input n herr more := output_failed s.state s.pending input more n herr
  output_finished {s} _ input n hn hok hwritten hdone more := by
    show T.output _ (T.call s.state s.pending input n).pending more = some []
    rw [call_done hn hok hwritten hdone, output_of_done hdone]
  progress {s} _ input n hn hok hwritten hdone := (call_consumed_pos hn hok hwritten hdone).1
  truncated {s} _ n hn hok hwritten hdone := by
    have hpending : s.pending = [] := by
      rcases List.take_eq_nil_iff.1 (show s.pending.take n = [] from hwritten) with h | h
      · omega
      · exact h
    show T.output s.state s.pending [] = none
    exact (call_consumed_pos hn hok hwritten hdone).2 rfl

/-- The counters are the positions. -/
theorem feeds_counts {stream : Bytes} {i : Nat} {out : Bytes} {s : (T.inflater snapshots).State}
    (h : (T.inflater snapshots).Feeds stream i out s) :
    s.consumed = i ∧ s.returned = out.length := by
  induction h with
  | new => exact ⟨rfl, rfl⟩
  | @call i out s input n _ _ _ ih =>
    refine ⟨congrArg (· + _) ih.1, ?_⟩
    rw [List.length_append]
    exact congrArg (· + _) ih.2

/-- A checkpoint of the inflater of a transducer restores the state it was taken in. -/
theorem restore_checkpoint {s : Inflating T} {blob : Bytes} {pos : CheckpointPosition}
    (h : (T.inflater snapshots).checkpoint s = some (blob, pos)) :
    pos = ⟨s.consumed, s.returned⟩ ∧ s.pending = [] ∧
      (T.inflater snapshots).restoreFromCheckpoint blob = some (s, pos) := by
  unfold inflater at h
  dsimp only at h
  split_ifs at h with hsmall
  obtain ⟨hpending, -, hconsumed, hreturned⟩ := hsmall
  cases h
  have hc : slice (leBytes 8 s.consumed ++ (leBytes 8 s.returned ++ snapshots.encode s.state))
      0 8 = leBytes 8 s.consumed := by
    simp [slice]
  have hr : slice (leBytes 8 s.consumed ++ (leBytes 8 s.returned ++ snapshots.encode s.state))
      8 8 = leBytes 8 s.returned := by
    simp [slice]
  have hs : (leBytes 8 s.consumed ++ (leBytes 8 s.returned ++ snapshots.encode s.state)).drop 16 =
      snapshots.encode s.state := by
    rw [← List.append_assoc]
    exact List.drop_left' (by simp)
  refine ⟨rfl, hpending, ?_⟩
  unfold inflater
  dsimp only
  rw [hc, hr, hs, snapshots.decode_encode, leNat_leBytes hconsumed, leNat_leBytes hreturned]
  rw [Option.map_some, ← hpending]

theorem inflater_documented : (T.inflater snapshots).Documented (T.inflaterOutput snapshots) where
  toStreamLaws := inflater_streamLaws
  restores {stream i out s blob pos} hfeeds hcheckpoint := by
    obtain ⟨hpos, hpending, hrestore⟩ := restore_checkpoint hcheckpoint
    obtain ⟨hconsumed, hreturned⟩ := feeds_counts hfeeds
    subst hpos
    refine ⟨hreturned.le, hconsumed.le, s, _, hrestore, rfl, ?_⟩
    show T.inflaterOutput snapshots s (stream.drop s.consumed) = _
    rw [hfeeds.output_eq inflater_streamLaws, hconsumed, hreturned, Option.map_map]
    simp [Function.comp_def]

end Transducer

end ZipForensic
