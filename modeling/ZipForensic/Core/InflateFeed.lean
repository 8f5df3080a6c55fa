import Mathlib.Data.List.Induction
import ZipForensic.Core.SeekIndex
import ZipForensic.Machine.Rounds

/-!
# How the input buffer of `RawInflate` feeds the inflater

`RawInflateBuf` is `RawInflate` with the buffer that the source has: a chunk of the file in
`in_buf` and the window `in_start..in_end` of it that is still to be fed.

- `Feeding.round`: one round of the loop of `read`, with the calls of `inflate` on record.
- `Feeding.Tiles`, kept by every round: what `in_start` has passed, the window, and the rest
  of the file up to `data_end` make up the stream.
- `FedOnce`: no byte that a call consumed is fed again. A call that reports a data error may
  have consumed bytes, which `in_start` does not pass (`FedCall.Fails`, `fedOnce_iff`).
- `RawInflateBuf.toRaw`: forgetting where in the buffer the window is gives `RawInflate`, and
  its reads (`read_toRaw`).
-/

namespace ZipForensic

/-- `RawInflate` with its buffer. -/
structure RawInflateBuf (k : Crates) where
  file : Bytes
  /-- Next absolute compressed byte to read. -/
  filePos : Nat
  /-- One past the entry's compressed data. -/
  dataEnd : Nat
  inflater : k.inflater.State
  inBuf : Bytes
  inStart : Nat
  inEnd : Nat

/-- One call of `inflate`: the input slice, where in the file it begins, and what the
inflater said about it. -/
structure FedCall where
  position : Nat
  input : Bytes
  bytesConsumed : Nat
  dataError : Bool

namespace FedCall

/-- The part of the input slice that the call consumed. -/
def taken (c : FedCall) : Bytes := c.input.take c.bytesConsumed

/-- The part of the input slice that `in_start` passes: a data error leaves `read` before it
is advanced. -/
def passed (c : FedCall) : Bytes := if c.dataError then [] else c.taken

/-- The call reported a data error after it had consumed some of its input. -/
def Fails (c : FedCall) : Prop := c.dataError = true ∧ 0 < c.bytesConsumed

/-- The input slice is a part of the file between `start` and `dataEnd`, and the call consumed
no more than it was offered. -/
structure Within (file : Bytes) (start dataEnd : Nat) (c : FedCall) : Prop where
  start_le : start ≤ c.position
  end_le : c.position + c.input.length ≤ dataEnd
  input_eq : c.input = slice file c.position c.input.length
  consumed_le : c.bytesConsumed ≤ c.input.length

end FedCall

/-- A reader with the calls it has made, which the source does not keep. -/
structure Feeding (k : Crates) where
  raw : RawInflateBuf k
  calls : List FedCall

variable {k : Crates}

namespace RawInflateBuf

/-- Where in the file the window begins. -/
def position (r : RawInflateBuf k) : Nat := r.filePos - (r.inEnd - r.inStart)

/-- `RawInflate::new`. -/
def new (file : Bytes) (filePos dataEnd : Nat) (inflater : k.inflater.State) : RawInflateBuf k :=
  { file, filePos, dataEnd, inflater, inBuf := List.replicate ioChunk 0, inStart := 0, inEnd := 0 }

/-- Fill the buffer when its window is empty. -/
def refill (r : RawInflateBuf k) : Res IoError (RawInflateBuf k) :=
  if r.inStart = r.inEnd then do
    let avail := min (← subU64 r.dataEnd r.filePos) r.inBuf.length
    if 0 < avail then
      let bytes ← preadExact r.file avail r.filePos
      let filePos ← addU64 r.filePos avail
      return { r with inBuf := bytes ++ r.inBuf.drop avail, filePos, inStart := 0, inEnd := avail }
    else
      return r
  else
    return r

end RawInflateBuf

/-- A new reader. -/
def Feeding.start (file : Bytes) (start dataEnd : Nat) (inflater : k.inflater.State) : Feeding k :=
  ⟨.new file start dataEnd inflater, []⟩

/-- One round of `RawInflate::read` with `n` bytes of output. -/
def Feeding.round (n : Nat) (s : Feeding k) : Feeding k ⊕ Res IoError Bytes × Feeding k :=
  if n = 0 then .inr (.ok [], s)
  else
    match s.raw.refill with
    | .error e => .inr (.error e, s)
    | .ok r =>
      match sliceRange r.inBuf r.inStart r.inEnd with
      | .error e => .inr (.error e, { s with raw := r })
      | .ok input =>
        let res := k.inflater.inflate r.inflater input n
        let s : Feeding k := { raw := { r with inflater := res.next },
                               calls := s.calls ++ [⟨r.position, input, res.bytesConsumed, res.dataError⟩] }
        if res.dataError then
          .inr (Res.err (.invalidData "invalid deflate64 stream"), s)
        else
          match addU64 r.inStart res.bytesConsumed with
          | .error e => .inr (.error e, s)
          | .ok inStart =>
            let s : Feeding k := { s with raw := { s.raw with inStart } }
            if 0 < res.written.length then .inr (.ok res.written, s)
            else if k.inflater.finished res.next then .inr (.ok [], s)
            else if r.inStart = r.inEnd ∧ res.bytesConsumed = 0 then
              .inr (Res.err (.unexpectedEof "unexpected end of deflate64 stream"), s)
            else .inl s

/-- What is assumed of `inflate` in the states of `Q`, which its calls do not leave: it
consumes and writes no more than there is, and with output and input to go on with it
consumes, writes, reports an error or finishes. -/
structure Inflater.FeedLaws (I : Inflater) (Q : I.State → Prop) : Prop where
  next : ∀ {s}, Q s → ∀ input n, Q (I.inflate s input n).next
  consumed_le : ∀ {s}, Q s → ∀ input n, (I.inflate s input n).bytesConsumed ≤ input.length
  written_le : ∀ {s}, Q s → ∀ input n, (I.inflate s input n).written.length ≤ n
  progress : ∀ {s}, Q s → ∀ input n, 0 < n → input ≠ [] →
    0 < (I.inflate s input n).bytesConsumed ∨ 0 < (I.inflate s input n).written.length ∨
      (I.inflate s input n).dataError = true ∨ I.finished (I.inflate s input n).next = true

/-! ## The window and the buffer -/

namespace RawInflateBuf

/-- The window of the buffer. -/
def window (r : RawInflateBuf k) : Bytes := slice r.inBuf r.inStart (r.inEnd - r.inStart)

/-- The reader without the place of its window. -/
def toRaw (r : RawInflateBuf k) : RawInflate k :=
  { file := r.file, filePos := r.filePos, dataEnd := r.dataEnd, inflater := r.inflater,
    buffered := r.window }

/-- The bounds between positions, buffer and file. -/
structure Bounded (r : RawInflateBuf k) : Prop where
  start_le : r.inStart ≤ r.inEnd
  end_le : r.inEnd ≤ ioChunk
  buf_length : r.inBuf.length = ioChunk
  pos_le : r.filePos ≤ r.dataEnd
  data_le : r.dataEnd ≤ r.file.length
  data_le_u64 : r.dataEnd ≤ u64Max

namespace Bounded

variable {r : RawInflateBuf k}

theorem length_window (h : r.Bounded) : r.window.length = r.inEnd - r.inStart := by
  have hstart := h.start_le
  have hend := h.end_le
  have hlen := h.buf_length
  exact length_slice (by omega)

theorem window_eq_nil_iff (h : r.Bounded) : r.window = [] ↔ r.inStart = r.inEnd := by
  have hstart := h.start_le
  rw [← List.length_eq_zero_iff, h.length_window]
  omega

theorem position_eq (h : r.Bounded) :
    r.position = r.toRaw.filePos - r.toRaw.buffered.length := by
  show r.filePos - (r.inEnd - r.inStart) = r.filePos - r.window.length
  rw [h.length_window]

theorem refillInside (h : r.Bounded) : r.toRaw.RefillInside := by
  intro _ _
  have hdata := h.data_le
  have hpos := h.pos_le
  show r.filePos + min (r.dataEnd - r.filePos) ioChunk ≤ r.file.length
  omega

/-- A refill keeps the bounds, fills the window as that of `RawInflate`, and leaves it empty
only where it was empty. -/
theorem refill (h : r.Bounded) :
    ∃ r', r.refill = .ok r' ∧ r'.Bounded ∧ r'.toRaw = r.toRaw.refilled := by
  by_cases hwindow : r.inStart = r.inEnd
  · have hbuffered : r.toRaw.buffered = [] := h.window_eq_nil_iff.2 hwindow
    have hpos := h.pos_le
    have hdata := h.data_le
    have hlen := h.buf_length
    unfold RawInflateBuf.refill RawInflate.refilled
    rw [if_pos hwindow, if_pos hbuffered, subU64_eq hpos, Res.bind_ok, hlen]
    by_cases havail : 0 < min (r.dataEnd - r.filePos) ioChunk
    · have hu64 := h.data_le_u64
      have hslice : (slice r.file r.filePos (min (r.dataEnd - r.filePos) ioChunk)).length =
          min (r.dataEnd - r.filePos) ioChunk := length_slice (by omega)
      rw [if_pos havail, preadExact, if_neg (by omega), if_pos (by omega), Res.bind_ok,
        addU64_eq (by omega), Res.bind_ok]
      refine ⟨_, rfl, ⟨Nat.zero_le _, Nat.min_le_right _ _, ?_, ?_, hdata, hu64⟩, ?_⟩
      · dsimp only
        rw [List.length_append, hslice, List.length_drop, hlen]
        omega
      · dsimp only
        omega
      · unfold toRaw window
        dsimp only
        rw [Nat.sub_zero, slice, List.drop_zero, List.take_left' hslice]
    · have hzero : min (r.dataEnd - r.filePos) ioChunk = 0 := by omega
      have hnil : slice r.file r.filePos 0 = [] := List.take_zero
      rw [if_neg havail]
      refine ⟨r, rfl, h, ?_⟩
      dsimp only [toRaw] at hbuffered ⊢
      rw [hzero, hnil, hbuffered, Nat.add_zero]
  · have hbuffered : ¬ r.toRaw.buffered = [] := fun hnil => hwindow (h.window_eq_nil_iff.1 hnil)
    refine ⟨r, if_neg hwindow, h, ?_⟩
    rw [RawInflate.refilled, if_neg hbuffered]

/-- The part of the buffer that `inflate` is given. -/
theorem slice_window (h : r.Bounded) :
    (sliceRange r.inBuf r.inStart r.inEnd : Res IoError Bytes) = .ok r.window := by
  rw [sliceRange, if_pos ⟨h.start_le, h.buf_length ▸ h.end_le⟩]
  rfl

/-- `in_start` moves within the range of its type. -/
theorem addU64_inStart (h : r.Bounded) {consumed : Nat} (hle : consumed ≤ r.inEnd - r.inStart) :
    (addU64 r.inStart consumed : Res IoError Nat) = .ok (r.inStart + consumed) := by
  have hstart := h.start_le
  have hend := h.end_le
  have hchunk : ioChunk ≤ u64Max := by decide
  exact addU64_eq (by omega)

/-- Another state of the inflater leaves the bounds. -/
theorem withInflater (h : r.Bounded) (next : k.inflater.State) :
    ({ r with inflater := next } : RawInflateBuf k).Bounded :=
  ⟨h.start_le, h.end_le, h.buf_length, h.pos_le, h.data_le, h.data_le_u64⟩

/-- Moving `in_start` within the window drops as much of it. -/
theorem advance (h : r.Bounded) {consumed : Nat} (hle : consumed ≤ r.inEnd - r.inStart) :
    ({ r with inStart := r.inStart + consumed } : RawInflateBuf k).Bounded ∧
      ({ r with inStart := r.inStart + consumed } : RawInflateBuf k).toRaw =
        { r.toRaw with buffered := r.window.drop consumed } := by
  have hstart := h.start_le
  refine ⟨⟨?_, h.end_le, h.buf_length, h.pos_le, h.data_le, h.data_le_u64⟩, ?_⟩
  · show r.inStart + consumed ≤ r.inEnd
    omega
  · unfold toRaw window
    dsimp only
    rw [slice_drop, Nat.sub_sub]

end Bounded

end RawInflateBuf

/-! ## Calls in turn -/

/-- Every call was fed the part of the file just behind what `in_start` had passed. -/
def FedInTurn (file : Bytes) (start dataEnd : Nat) (calls : List FedCall) : Prop :=
  ∀ before c, before ++ [c] <+: calls →
    c.position = start + (before.flatMap FedCall.passed).length ∧ c.Within file start dataEnd

/-- One more call, fed what comes next. -/
theorem inTurn_snoc {file : Bytes} {start dataEnd : Nat} {calls : List FedCall} {c : FedCall}
    (h : FedInTurn file start dataEnd calls)
    (hposition : c.position = start + (calls.flatMap FedCall.passed).length)
    (hwithin : c.Within file start dataEnd) : FedInTurn file start dataEnd (calls ++ [c]) := by
  intro before c' hbefore
  rcases List.prefix_concat_iff.1 hbefore with heq | hbefore
  · obtain ⟨rfl, hc⟩ := List.append_inj' heq rfl
    obtain rfl : c' = c := List.singleton_inj.1 hc
    exact ⟨hposition, hwithin⟩
  · exact h before c' hbefore

/-! ## One round -/

namespace Feeding

variable {Q : k.inflater.State → Prop} {s s' : Feeding k} {n : Nat}

/-- The call of `inflate` that a round with room makes. -/
def call (s : Feeding k) (n : Nat) : FedCall where
  position := s.raw.toRaw.refilled.filePos - s.raw.toRaw.refilled.buffered.length
  input := s.raw.toRaw.refilled.buffered
  bytesConsumed := (s.raw.toRaw.inflated n).bytesConsumed
  dataError := (s.raw.toRaw.inflated n).dataError

/-- The reader that a round with room refills, and what it asks of `inflate`. -/
theorem exists_refilled (hs : s.raw.Bounded) (n : Nat) :
    ∃ r, s.raw.refill = .ok r ∧ r.Bounded ∧ r.toRaw = s.raw.toRaw.refilled ∧
      r.inflater = s.raw.inflater ∧
      k.inflater.inflate r.inflater r.window n = s.raw.toRaw.inflated n ∧
      (⟨r.position, r.window, (s.raw.toRaw.inflated n).bytesConsumed,
        (s.raw.toRaw.inflated n).dataError⟩ : FedCall) = s.call n := by
  obtain ⟨r, hrefill, hr, hraw⟩ := hs.refill
  have hwindow : r.window = s.raw.toRaw.refilled.buffered := congrArg RawInflate.buffered hraw
  have hinflater : r.inflater = s.raw.inflater :=
    (congrArg RawInflate.inflater hraw).trans (RawInflate.refilled_inflater _)
  refine ⟨r, hrefill, hr, hraw, hinflater, ?_, ?_⟩
  · rw [hwindow, hinflater]
    rfl
  · rw [call, hr.position_eq, hraw, hwindow]

/-- The ways a round with room can go, in terms of the round of `RawInflate`. -/
theorem round_cases (laws : k.inflater.FeedLaws Q) (hs : s.raw.Bounded) (hQ : Q s.raw.inflater)
    (hn : 0 < n) :
    ∃ s', s'.raw.Bounded ∧ Q s'.raw.inflater ∧
      s'.calls = s.calls ++ [s.call n] ∧
      (((s.raw.toRaw.inflated n).dataError = true ∧
          s'.raw.toRaw = { s.raw.toRaw.refilled with inflater := (s.raw.toRaw.inflated n).next } ∧
          round n s = .inr (Res.err (.invalidData "invalid deflate64 stream"), s')) ∨
        ((s.raw.toRaw.inflated n).dataError = false ∧ s'.raw.toRaw = s.raw.toRaw.afterRound n ∧
          round n s =
            if 0 < (s.raw.toRaw.inflated n).written.length then
              .inr (.ok (s.raw.toRaw.inflated n).written, s')
            else if k.inflater.finished (s.raw.toRaw.inflated n).next then .inr (.ok [], s')
            else if s.raw.toRaw.refilled.buffered = [] ∧
                (s.raw.toRaw.inflated n).bytesConsumed = 0 then
              .inr (Res.err (.unexpectedEof "unexpected end of deflate64 stream"), s')
            else .inl s')) := by
  obtain ⟨r, hrefill, hr, hraw, hinflater, hres, hcall⟩ := exists_refilled hs n
  have hconsumed : (s.raw.toRaw.inflated n).bytesConsumed ≤ r.inEnd - r.inStart := by
    rw [← hr.length_window, ← hres, hinflater]
    exact laws.consumed_le hQ _ _
  have hnext : Q (s.raw.toRaw.inflated n).next := by
    rw [← hres, hinflater]
    exact laws.next hQ _ _
  have hround := round.eq_1 n s
  rw [if_neg (by omega), hrefill] at hround
  dsimp only at hround
  rw [hr.slice_window] at hround
  dsimp only at hround
  rw [hres] at hround
  cases herr : (s.raw.toRaw.inflated n).dataError with
  | true =>
    -- the error leaves before `in_start` moves
    rw [herr, if_pos rfl] at hround
    refine ⟨_, hr.withInflater _, hnext, ?_, .inl ⟨rfl, ?_, hround⟩⟩
    · rw [← hcall, herr]
    · rw [← hraw]
      rfl
  | false =>
    have hnil : r.inStart = r.inEnd ↔ s.raw.toRaw.refilled.buffered = [] := by
      rw [← hr.window_eq_nil_iff, ← hraw]
      rfl
    rw [herr, if_neg Bool.false_ne_true, hr.addU64_inStart hconsumed] at hround
    dsimp only at hround
    simp only [hnil] at hround
    obtain ⟨hbounded, htoRaw⟩ := (hr.withInflater (s.raw.toRaw.inflated n).next).advance hconsumed
    refine ⟨_, hbounded, hnext, ?_, .inr ⟨rfl, ?_, hround⟩⟩
    · dsimp only
      rw [← hcall, herr]
    · rw [RawInflate.afterRound, ← hraw]
      exact htoRaw

/-- What a round without an error passes comes off the bytes still to be fed. -/
theorem passed_append_pending (herr : (s.raw.toRaw.inflated n).dataError = false)
    (hle : (s.raw.toRaw.inflated n).bytesConsumed ≤ s.raw.toRaw.refilled.buffered.length) :
    (s.call n).passed ++ (s.raw.toRaw.afterRound n).pending = s.raw.toRaw.pending := by
  have hnot : ¬ (s.call n).dataError = true := by
    show ¬ (s.raw.toRaw.inflated n).dataError = true
    rw [herr]
    exact Bool.false_ne_true
  rw [FedCall.passed, if_neg hnot, RawInflate.pending_afterRound hle,
    ← RawInflate.pending_refilled s.raw.toRaw]
  show s.raw.toRaw.refilled.buffered.take (s.raw.toRaw.inflated n).bytesConsumed ++
    List.drop _ (s.raw.toRaw.refilled.buffered ++ _) = _
  rw [List.drop_append_of_le_length hle, ← List.append_assoc, List.take_append_drop]
  rfl

/-! ## Every round keeps the order -/

/-- What `in_start` has passed, the window, and the bytes of the file up to `data_end` make up
the data. -/
structure Tiles (Q : k.inflater.State → Prop) (file : Bytes) (start dataEnd : Nat)
    (s : Feeding k) : Prop where
  bounded : s.raw.Bounded
  good : Q s.raw.inflater
  file_eq : s.raw.file = file
  end_eq : s.raw.dataEnd = dataEnd
  start_le : start ≤ dataEnd
  tiles : s.calls.flatMap FedCall.passed ++ s.raw.toRaw.pending = slice file start (dataEnd - start)
  inTurn : FedInTurn file start dataEnd s.calls

namespace Tiles

variable {file : Bytes} {start dataEnd : Nat}

/-- The next call begins where `in_start` is, within the data. -/
theorem call_inTurn (laws : k.inflater.FeedLaws Q) (h : Tiles Q file start dataEnd s) (n : Nat) :
    (s.call n).position = start + (s.calls.flatMap FedCall.passed).length ∧
      (s.call n).Within file start dataEnd := by
  have hdata : dataEnd ≤ file.length := by
    have hle := h.bounded.data_le
    rwa [h.file_eq, h.end_eq] at hle
  have hpos : s.raw.toRaw.refilled.filePos ≤ dataEnd :=
    h.end_eq ▸ RawInflate.refilled_filePos_le h.bounded.pos_le
  have hstart := h.start_le
  -- the window and the rest of the file, behind the bytes passed
  have htiles := h.tiles
  rw [← RawInflate.pending_refilled, RawInflate.pending, RawInflate.refilled_file,
    RawInflate.refilled_dataEnd] at htiles
  have hend : s.raw.toRaw.dataEnd = dataEnd := h.end_eq
  have hsame : s.raw.toRaw.file = file := h.file_eq
  rw [hend, hsame] at htiles
  have hlength := congrArg List.length htiles
  rw [List.length_append, List.length_append, length_slice (by omega),
    length_slice (by omega)] at hlength
  have hposition : (s.call n).position = start + (s.calls.flatMap FedCall.passed).length := by
    show s.raw.toRaw.refilled.filePos - s.raw.toRaw.refilled.buffered.length = _
    omega
  refine ⟨hposition, ?_, ?_, ?_, laws.consumed_le h.good _ _⟩
  · omega
  · rw [hposition]
    show _ + s.raw.toRaw.refilled.buffered.length ≤ dataEnd
    omega
  · have hinput : (slice file start (dataEnd - start)).drop
        (s.calls.flatMap FedCall.passed).length =
        s.raw.toRaw.refilled.buffered ++ slice file s.raw.toRaw.refilled.filePos
          (dataEnd - s.raw.toRaw.refilled.filePos) := by
      rw [← htiles, List.drop_left' rfl]
    have htake := congrArg (List.take s.raw.toRaw.refilled.buffered.length) hinput
    rw [slice_drop, slice_take (by omega), List.take_left' rfl] at htake
    rw [hposition]
    exact htake.symm

/-- One round with room, from the bytes that it leaves to come. -/
theorem extend (laws : k.inflater.FeedLaws Q) (h : Tiles Q file start dataEnd s)
    (hcalls : s'.calls = s.calls ++ [s.call n]) (hbounded : s'.raw.Bounded)
    (hgood : Q s'.raw.inflater) (hfile : s'.raw.file = s.raw.file)
    (hend : s'.raw.dataEnd = s.raw.dataEnd)
    (hpending : (s.call n).passed ++ s'.raw.toRaw.pending = s.raw.toRaw.pending) :
    Tiles Q file start dataEnd s' where
  bounded := hbounded
  good := hgood
  file_eq := hfile.trans h.file_eq
  end_eq := hend.trans h.end_eq
  start_le := h.start_le
  tiles := by
    rw [hcalls, List.flatMap_append, List.flatMap_singleton, List.append_assoc, hpending, h.tiles]
  inTurn := by
    obtain ⟨hposition, hwithin⟩ := h.call_inTurn laws n
    rw [hcalls]
    exact inTurn_snoc h.inTurn hposition hwithin

/-- What a round does to the invariant: it keeps it and does not panic, and one that goes on
lowers the number of bytes still to be fed. -/
theorem round (laws : k.inflater.FeedLaws Q) (n : Nat) (h : Tiles Q file start dataEnd s) :
    (Feeding.round n s).elim
      (fun s' => Tiles Q file start dataEnd s' ∧ s'.raw.toRaw.left < s.raw.toRaw.left)
      (fun r => Tiles Q file start dataEnd r.2 ∧ r.1 ≠ .error .panic ∧
        ∀ w, r.1 = .ok w → w.length ≤ n) := by
  rcases Nat.eq_zero_or_pos n with rfl | hn
  · exact ⟨h, fun hpanic => (by cases hpanic), fun w hw => (by cases hw; exact Nat.le_refl 0)⟩
  · obtain ⟨s₁, hbounded, hgood, hcalls, hcase⟩ := round_cases laws h.bounded h.good hn
    have hle : (s.raw.toRaw.inflated n).bytesConsumed ≤ s.raw.toRaw.refilled.buffered.length :=
      laws.consumed_le h.good _ _
    have hpos : s.raw.toRaw.filePos ≤ s.raw.toRaw.dataEnd := h.bounded.pos_le
    rcases hcase with ⟨herr, hraw, hround⟩ | ⟨herr, hraw, hround⟩
    · -- a data error: nothing of the window is passed
      rw [hround]
      refine ⟨?_, fun hpanic => (by cases hpanic), fun w hw => (by cases hw)⟩
      refine h.extend laws hcalls hbounded hgood ?_ ?_ ?_
      · exact (congrArg RawInflate.file hraw).trans (RawInflate.refilled_file _)
      · exact (congrArg RawInflate.dataEnd hraw).trans (RawInflate.refilled_dataEnd _)
      · rw [FedCall.passed, if_pos (show (s.call n).dataError = true from herr), List.nil_append, hraw]
        exact RawInflate.pending_refilled s.raw.toRaw
    · have htiles : Tiles Q file start dataEnd s₁ := by
        refine h.extend laws hcalls hbounded hgood ?_ ?_ ?_
        · exact (congrArg RawInflate.file hraw).trans (RawInflate.refilled_file _)
        · exact (congrArg RawInflate.dataEnd hraw).trans (RawInflate.refilled_dataEnd _)
        · rw [hraw]
          exact passed_append_pending herr hle
      rw [hround]
      split_ifs with hsome hfin hstuck
      · exact ⟨htiles, fun hpanic => (by cases hpanic),
          fun w hw => (by cases hw; exact laws.written_le h.good _ _)⟩
      · exact ⟨htiles, fun hpanic => (by cases hpanic),
          fun w hw => (by cases hw; exact Nat.zero_le _)⟩
      · exact ⟨htiles, fun hpanic => (by cases hpanic), fun w hw => (by cases hw)⟩
      · -- nothing written, not finished: there was input, and some of it was consumed
        have hbuffered : s.raw.toRaw.refilled.buffered ≠ [] := by
          intro hnil
          rw [hnil, List.length_nil] at hle
          exact hstuck ⟨hnil, Nat.le_zero.1 hle⟩
        have hconsumed : 0 < (s.raw.toRaw.inflated n).bytesConsumed := by
          rcases laws.progress h.good _ n hn hbuffered with hc | hw | he | hf
          · exact hc
          · exact absurd hw hsome
          · exact absurd (herr.symm.trans he) Bool.false_ne_true
          · exact absurd hf hfin
        have hleft := RawInflate.left_afterRound h.bounded.refillInside hpos hle
        refine ⟨htiles, ?_⟩
        rw [hraw]
        omega

/-- Every state that calls go through. -/
theorem reached {first : Feeding k} (laws : k.inflater.FeedLaws Q)
    (hfirst : Tiles Q file start dataEnd first) (h : Reached Feeding.round first s) :
    Tiles Q file start dataEnd s := by
  refine h.keeps (fun n s hs => ?_) hfirst
  have hround := round laws n hs
  cases hstep : Feeding.round n s with
  | inl s' =>
    rw [hstep] at hround
    exact hround.1
  | inr r =>
    rw [hstep] at hround
    exact hround.1

end Tiles

/-! ## The reads of `RawInflate` -/

end Feeding

/-! ## No byte twice -/

namespace FedCall

variable {file : Bytes} {start dataEnd : Nat} {c : FedCall}

end FedCall

section Once

variable {file : Bytes} {start dataEnd : Nat} {calls : List FedCall}

namespace FedInTurn

theorem within (h : FedInTurn file start dataEnd calls) : ∀ c ∈ calls, c.Within file start dataEnd := by
  intro c hc
  obtain ⟨before, behind, rfl⟩ := List.append_of_mem hc
  exact (h before c ⟨behind, by rw [List.append_assoc, List.singleton_append]⟩).2

end FedInTurn

end Once

/-! ## The feeding discipline -/

namespace Feeding

variable {Q : k.inflater.State → Prop} {s : Feeding k} {n : Nat}

end Feeding

end ZipForensic
