import Mathlib.Logic.Relation
import ZipForensic.Core.Deflate64Seek
import ZipForensic.Core.InflaterLaws

/-!
# Reads of a Deflate64 member, round by round

`RawInflate.read` and the two loops of `read_at` repeat one *round*: refill the input
buffer when it is empty, then call the inflater.

- `RefillInside`: the bytes that the next refill reads lie in the file; a refill that
  reaches past the end of the file fails.
- `Tracks`: where a decode from the start of the member stands (`Tracks.readLoop`).
- `Decodes r D`: an inflater that still produces `D`. As long as its refills lie in the
  file, its reads deliver `D`, and they fail only where a refill does not
  (`readLoop_total`, `skipLoop_total`, `fillLoop_total`).
-/

namespace ZipForensic

variable {k : Crates} {output : k.inflater.State → Bytes → Option Bytes}

theorem ioChunk_eq : ioChunk = 131072 := rfl

/-! ## One round -/

namespace RawInflate

/-- The compressed bytes to come: the buffered ones and what the file holds of the rest. -/
def pending (r : RawInflate k) : Bytes :=
  r.buffered ++ slice r.file r.filePos (r.dataEnd - r.filePos)

/-- The bytes that the next refill reads lie in the file. -/
def RefillInside (r : RawInflate k) : Prop :=
  r.buffered = [] → r.filePos < r.dataEnd →
    r.filePos + min (r.dataEnd - r.filePos) ioChunk ≤ r.file.length

instance (r : RawInflate k) : Decidable r.RefillInside :=
  inferInstanceAs (Decidable (r.buffered = [] → _ → _))

/-- The bytes between the inflater and the end of the member; every round that goes on
takes some of them. -/
def left (r : RawInflate k) : Nat := r.dataEnd - r.filePos + r.buffered.length

/-- The state after a refill. -/
def refilled (r : RawInflate k) : RawInflate k :=
  if r.buffered = [] then
    let avail := min (r.dataEnd - r.filePos) ioChunk
    { r with buffered := slice r.file r.filePos avail, filePos := r.filePos + avail }
  else r

/-- The inflater's call of a round with room for `n` bytes. -/
def inflated (n : Nat) (r : RawInflate k) : InflateResult k.inflater.State :=
  k.inflater.inflate r.inflater r.refilled.buffered n

/-- The state after a round. -/
def afterRound (n : Nat) (r : RawInflate k) : RawInflate k :=
  { r.refilled with
    inflater := (r.inflated n).next
    buffered := r.refilled.buffered.drop (r.inflated n).bytesConsumed }

@[simp] theorem refilled_inflater (r : RawInflate k) : r.refilled.inflater = r.inflater := by
  unfold refilled
  split_ifs <;> rfl

@[simp] theorem refilled_dataEnd (r : RawInflate k) : r.refilled.dataEnd = r.dataEnd := by
  unfold refilled
  split_ifs <;> rfl

@[simp] theorem refilled_file (r : RawInflate k) : r.refilled.file = r.file := by
  unfold refilled
  split_ifs <;> rfl

theorem refilled_filePos_le {r : RawInflate k} (h : r.filePos ≤ r.dataEnd) :
    r.refilled.filePos ≤ r.dataEnd := by
  unfold refilled
  split_ifs
  · dsimp only
    omega
  · exact h

theorem refill_inside {r : RawInflate k} (h : r.filePos ≤ r.dataEnd) (hin : r.RefillInside) :
    r.refill = .ok r.refilled := by
  unfold refill refilled
  by_cases hbuf : r.buffered = []
  · rw [if_pos hbuf, if_pos hbuf, subU64_eq h, Res.bind_ok]
    by_cases havail : r.filePos < r.dataEnd
    · have hpos : 0 < min (r.dataEnd - r.filePos) ioChunk :=
        Nat.lt_min.2 ⟨by omega, by decide⟩
      rw [if_pos hpos, preadExact, if_neg (Nat.ne_of_gt hpos), if_pos (hin hbuf havail)]
      rfl
    · have hzero : min (r.dataEnd - r.filePos) ioChunk = 0 := by omega
      have hslice : slice r.file r.filePos 0 = [] := List.take_zero
      rw [hzero, if_neg (Nat.lt_irrefl 0)]
      dsimp only
      rw [hslice, Nat.add_zero, ← hbuf]
      rfl
  · rw [if_neg hbuf, if_neg hbuf]
    rfl

theorem refill_outside {r : RawInflate k} (h : r.filePos ≤ r.dataEnd) (hin : ¬ r.RefillInside) :
    r.refill = Res.err .shortRead := by
  unfold RefillInside at hin
  push Not at hin
  obtain ⟨hbuf, havail, hin⟩ := hin
  have hpos : 0 < min (r.dataEnd - r.filePos) ioChunk := Nat.lt_min.2 ⟨by omega, by decide⟩
  rw [refill, if_pos hbuf, subU64_eq h, Res.bind_ok, if_pos hpos, preadExact,
    if_neg (Nat.ne_of_gt hpos), if_neg (Nat.not_le.2 hin)]
  rfl

/-- A refill moves bytes from the file to the buffer. -/
theorem pending_refilled (r : RawInflate k) : r.refilled.pending = r.pending := by
  unfold refilled
  split_ifs with hbuf
  · unfold pending
    dsimp only
    rw [hbuf, List.nil_append]
    have hsplit := List.take_append_drop (min (r.dataEnd - r.filePos) ioChunk)
      (slice r.file r.filePos (r.dataEnd - r.filePos))
    rw [slice_take (Nat.min_le_left _ _), slice_drop] at hsplit
    rw [← hsplit, ← Nat.sub_sub]
  · rfl

theorem left_refilled {r : RawInflate k} (hin : r.RefillInside) (hle : r.filePos ≤ r.dataEnd) :
    r.refilled.left = r.left := by
  unfold refilled
  split_ifs with hbuf
  · unfold left
    dsimp only
    have hlen : (slice r.file r.filePos (min (r.dataEnd - r.filePos) ioChunk)).length =
        min (r.dataEnd - r.filePos) ioChunk := by
      by_cases hlt : r.filePos < r.dataEnd
      · exact length_slice (hin hbuf hlt)
      · have hzero : min (r.dataEnd - r.filePos) ioChunk = 0 := by omega
        rw [hzero]
        rfl
    rw [hlen, hbuf, List.length_nil]
    omega
  · rfl

/-- Where the buffer stays empty, the member has no bytes left. -/
theorem pending_eq_nil {r : RawInflate k} (hin : r.RefillInside)
    (hle : r.filePos ≤ r.dataEnd) (hnil : r.refilled.buffered = []) : r.pending = [] := by
  have hleft := left_refilled hin hle
  have hbuf : r.buffered = [] := by
    by_contra hbuf
    unfold refilled at hnil
    rw [if_neg hbuf] at hnil
    exact hbuf hnil
  have hend : ¬ r.filePos < r.dataEnd := by
    intro hlt
    have hlen : r.refilled.buffered.length = min (r.dataEnd - r.filePos) ioChunk := by
      unfold refilled
      rw [if_pos hbuf]
      exact length_slice (hin hbuf hlt)
    have hchunk : 0 < ioChunk := by decide
    rw [hnil, List.length_nil] at hlen
    omega
  have hzero : r.dataEnd - r.filePos = 0 := by omega
  rw [pending, hbuf, hzero]
  rfl

/-- One round of `read`. -/
theorem readLoop_succ {n fuel : Nat} {r : RawInflate k} (hle : r.filePos ≤ r.dataEnd)
    (hin : r.RefillInside) :
    r.readLoop n (fuel + 1) =
      if (r.inflated n).dataError then Res.err (.invalidData "invalid deflate64 stream")
      else if 0 < (r.inflated n).written.length then .ok ((r.inflated n).written, r.afterRound n)
      else if k.inflater.finished (r.inflated n).next then .ok ([], r.afterRound n)
      else if r.refilled.buffered = [] ∧ (r.inflated n).bytesConsumed = 0 then
        Res.err (.unexpectedEof "unexpected end of deflate64 stream")
      else (r.afterRound n).readLoop n fuel := by
  rw [readLoop, refill_inside hle hin, Res.bind_ok]
  unfold afterRound inflated
  rw [refilled_inflater]
  rfl

theorem readLoop_short {n fuel : Nat} {r : RawInflate k} (hle : r.filePos ≤ r.dataEnd)
    (hin : ¬ r.RefillInside) : r.readLoop n (fuel + 1) = Res.err .shortRead := by
  rw [readLoop, refill_outside hle hin]
  rfl

/-- A read of one round that writes. -/
theorem read_written {n : Nat} {r : RawInflate k} (hn : n ≠ 0) (hle : r.filePos ≤ r.dataEnd)
    (hin : r.RefillInside) (hok : (r.inflated n).dataError = false)
    (hwritten : (r.inflated n).written ≠ []) :
    r.read n = .ok ((r.inflated n).written, r.afterRound n) := by
  rw [read, if_neg hn, readLoop_succ hle hin, if_neg (by simp [hok]),
    if_pos (List.length_pos_iff.2 hwritten)]

/-- A read of one round that reports the end. -/
theorem read_finished {n : Nat} {r : RawInflate k} (hn : n ≠ 0) (hle : r.filePos ≤ r.dataEnd)
    (hin : r.RefillInside) (hok : (r.inflated n).dataError = false)
    (hwritten : (r.inflated n).written = [])
    (hfin : k.inflater.finished (r.inflated n).next = true) :
    r.read n = .ok ([], r.afterRound n) := by
  rw [read, if_neg hn, readLoop_succ hle hin, if_neg (by simp [hok]), if_neg (by simp [hwritten]),
    if_pos hfin]

theorem read_short {n : Nat} {r : RawInflate k} (hn : n ≠ 0) (hle : r.filePos ≤ r.dataEnd)
    (hin : ¬ r.RefillInside) : r.read n = Res.err .shortRead := by
  rw [read, if_neg hn, readLoop_short hle hin]

/-- A round takes what its call consumed off the bytes to come. -/
theorem pending_afterRound {n : Nat} {r : RawInflate k}
    (h : (r.inflated n).bytesConsumed ≤ r.refilled.buffered.length) :
    (r.afterRound n).pending = r.pending.drop (r.inflated n).bytesConsumed := by
  rw [← pending_refilled r]
  exact (List.drop_append_of_le_length h).symm

theorem left_afterRound {n : Nat} {r : RawInflate k} (hin : r.RefillInside)
    (hle : r.filePos ≤ r.dataEnd)
    (h : (r.inflated n).bytesConsumed ≤ r.refilled.buffered.length) :
    (r.afterRound n).left + (r.inflated n).bytesConsumed = r.left := by
  rw [← left_refilled hin hle]
  unfold left afterRound
  dsimp only
  rw [List.length_drop]
  omega

theorem buffered_isPrefix (r : RawInflate k) : r.refilled.buffered <+: r.pending := by
  rw [← pending_refilled]
  exact List.prefix_append _ _

/-! ## A decode from the start of the member -/

/-- The inflater has taken the first `i` bytes of `stream` and returned `out`. -/
structure Tracks (stream : Bytes) (i : Nat) (out : Bytes) (r : RawInflate k) : Prop where
  feeds : k.inflater.Feeds stream i out r.inflater
  pending_eq : r.pending = stream.drop i
  bounded : r.filePos ≤ r.dataEnd

namespace Tracks

variable {stream out : Bytes} {i n : Nat} {r r' : RawInflate k}

theorem consumed_le (laws : k.inflater.StreamLaws output) (h : Tracks stream i out r) :
    (r.inflated n).bytesConsumed ≤ r.refilled.buffered.length :=
  laws.consumed_le h.feeds.usable _ _

theorem afterRound (laws : k.inflater.StreamLaws output) (h : Tracks stream i out r)
    (hok : (r.inflated n).dataError = false) :
    Tracks stream (i + (r.inflated n).bytesConsumed) (out ++ (r.inflated n).written)
      (r.afterRound n) where
  feeds := h.feeds.call r.refilled.buffered n (h.pending_eq ▸ r.buffered_isPrefix) hok
  pending_eq := by
    rw [pending_afterRound (h.consumed_le laws), h.pending_eq, List.drop_drop]
  bounded := by
    show r.refilled.filePos ≤ r.refilled.dataEnd
    rw [refilled_dataEnd]
    exact refilled_filePos_le h.bounded

/-- A read that succeeds goes on with the decode; an empty one has reached its end. -/
theorem readLoop {w : Bytes} {fuel : Nat} (laws : k.inflater.StreamLaws output) (hn : 0 < n)
    (h : Tracks stream i out r) (hread : r.readLoop n fuel = .ok (w, r')) :
    ∃ i', Tracks stream i' (out ++ w) r' ∧ w.length ≤ n ∧
      (w = [] → ∀ more, output r'.inflater more = some []) := by
  induction fuel generalizing i out r with
  | zero => cases hread
  | succ fuel ih =>
    by_cases hin : r.RefillInside
    · rw [readLoop_succ h.bounded hin] at hread
      split_ifs at hread with herr hpos hfin hstuck
      · cases hread
      · cases hread
        exact ⟨_, h.afterRound laws (Bool.eq_false_iff.2 herr),
          laws.written_le h.feeds.usable _ _, fun hnil => by simp [hnil] at hpos⟩
      · cases hread
        have hnil : (r.inflated n).written = [] := List.length_eq_zero_iff.1 (by omega)
        have hround := h.afterRound laws (Bool.eq_false_iff.2 herr)
        rw [hnil] at hround
        exact ⟨_, hround, Nat.zero_le _, fun _ => laws.output_finished h.feeds.usable _ n hn
          (Bool.eq_false_iff.2 herr) hnil hfin⟩
      · cases hread
      · have hnil : (r.inflated n).written = [] := List.length_eq_zero_iff.1 (by omega)
        have hround := h.afterRound laws (Bool.eq_false_iff.2 herr)
        rw [hnil, List.append_nil] at hround
        exact ih hround hread
    · rw [readLoop_short h.bounded hin] at hread
      cases hread

theorem read {w : Bytes} (laws : k.inflater.StreamLaws output) (hn : 0 < n)
    (h : Tracks stream i out r) (hread : r.read n = .ok (w, r')) :
    ∃ i', Tracks stream i' (out ++ w) r' ∧ w.length ≤ n ∧
      (w = [] → ∀ more, output r'.inflater more = some []) := by
  rw [RawInflate.read, if_neg (Nat.ne_of_gt hn)] at hread
  exact h.readLoop laws hn hread

end Tracks

/-! ## A decode that goes on to the end -/

/-- What the inflater still produces is `data`. -/
structure Decodes (output : k.inflater.State → Bytes → Option Bytes) (r : RawInflate k)
    (data : Bytes) : Prop where
  usable : k.inflater.Usable r.inflater
  bounded : r.filePos ≤ r.dataEnd
  output_eq : output r.inflater r.pending = some data

namespace Decodes

variable {data : Bytes} {n : Nat} {r : RawInflate k}

theorem dataError (laws : k.inflater.StreamLaws output) (h : Decodes output r data) (n : Nat) :
    (r.inflated n).dataError = false := by
  by_contra herr
  obtain ⟨more, hmore⟩ := r.buffered_isPrefix
  have hnone := laws.output_error h.usable r.refilled.buffered n (Bool.not_eq_false _ ▸ herr) more
  rw [hmore, h.output_eq] at hnone
  cases hnone

/-- A round returns a front of the data and leaves the rest. -/
theorem afterRound (laws : k.inflater.StreamLaws output) (h : Decodes output r data) (n : Nat) :
    ∃ rest, data = (r.inflated n).written ++ rest ∧ Decodes output (r.afterRound n) rest := by
  have hok := h.dataError laws n
  have hle : (r.inflated n).bytesConsumed ≤ r.refilled.buffered.length :=
    laws.consumed_le h.usable _ _
  obtain ⟨more, hmore⟩ := r.buffered_isPrefix
  have hcall := laws.output_call h.usable r.refilled.buffered n hok more
  rw [hmore, h.output_eq] at hcall
  obtain ⟨rest, hrest, hdata⟩ := Option.map_eq_some_iff.1 hcall.symm
  refine ⟨rest, hdata.symm, h.usable.call _ n hok, ?_, ?_⟩
  · show r.refilled.filePos ≤ r.refilled.dataEnd
    rw [refilled_dataEnd]
    exact refilled_filePos_le h.bounded
  · rw [pending_afterRound hle, ← hmore, List.drop_append_of_le_length hle]
    exact hrest

/-- A round that writes nothing and reports the end has nothing left to return. -/
theorem eq_nil_of_finished (laws : k.inflater.StreamLaws output) (h : Decodes output r data)
    (hn : 0 < n) (hnil : (r.inflated n).written = [])
    (hfin : k.inflater.finished (r.inflated n).next = true) : data = [] := by
  obtain ⟨rest, hdata, hround⟩ := h.afterRound laws n
  have hend := laws.output_finished h.usable r.refilled.buffered n hn (h.dataError laws n) hnil hfin
    (r.afterRound n).pending
  have hrest : some rest = some [] := hround.output_eq.symm.trans hend
  cases hrest
  rw [hdata, hnil]
  rfl

/-- Any other round that writes nothing takes input. -/
theorem consumed_pos (laws : k.inflater.StreamLaws output) (h : Decodes output r data)
    (hin : r.RefillInside) (hn : 0 < n) (hnil : (r.inflated n).written = [])
    (hfin : k.inflater.finished (r.inflated n).next = false) :
    0 < (r.inflated n).bytesConsumed := by
  have hok := h.dataError laws n
  by_cases hbuf : r.refilled.buffered = []
  · unfold inflated at hok hnil hfin
    rw [hbuf] at hok hnil hfin
    have hnone := laws.truncated h.usable n hn hok hnil hfin
    rw [← pending_eq_nil hin h.bounded hbuf, h.output_eq] at hnone
    cases hnone
  · exact laws.progress h.usable _ n hn hok hnil hfin hbuf

end Decodes

end RawInflate

/-! ## The rounds of one `read_at` -/

namespace Deflate64Index

/-- A `read_at` between two rounds: what is left to skip, and to fill of the buffer. -/
structure Serving (k : Crates) where
  raw : RawInflate k
  toSkip : Nat
  toFill : Nat

namespace Serving

/-- The room of the inflater's next call. -/
def room (s : Serving k) : Nat := if 0 < s.toSkip then min s.toSkip ioChunk else s.toFill

/-- After a read that returned `n` bytes. -/
def deliver (s : Serving k) (n : Nat) (raw : RawInflate k) : Serving k :=
  ⟨raw, s.toSkip - n, if 0 < s.toSkip then s.toFill else s.toFill - n⟩

/-- The state after the next round, while the call goes on. -/
def next (s : Serving k) : Option (Serving k) :=
  let res := s.raw.inflated s.room
  if s.room = 0 ∨ res.dataError = true ∨
      (res.written = [] ∧ k.inflater.finished res.next = true) then none
  else some (s.deliver res.written.length (s.raw.afterRound s.room))

/-- No round of the call reads past the end of the file. -/
def ReadsInside (s : Serving k) : Prop :=
  ∀ t, Relation.ReflTransGen (fun a b => a.next = some b) s t → 0 < t.room → t.raw.RefillInside

@[simp] theorem deliver_zero (s : Serving k) (raw : RawInflate k) :
    s.deliver 0 raw = { s with raw } := by
  unfold deliver
  split_ifs <;> rfl

/-- A call stays inside the file if its next round does and the rounds after that do. -/
theorem readsInside_of_next {s t : Serving k} (hnext : s.next = some t)
    (hin : s.raw.RefillInside) : s.ReadsInside ↔ t.ReadsInside := by
  constructor
  · intro h u hu
    exact h u (.head hnext hu)
  · intro h u hu hroom
    rcases Relation.ReflTransGen.cases_head hu with rfl | ⟨v, hv, hvu⟩
    · exact hin
    · have hvt : some v = some t := hv.symm.trans hnext
      cases hvt
      exact h u hvu hroom

theorem readsInside_of_room {s : Serving k} (h : s.room = 0) : s.ReadsInside := by
  intro u hu hroom
  rcases Relation.ReflTransGen.cases_head hu with rfl | ⟨v, hv, -⟩
  · omega
  · unfold next at hv
    dsimp only at hv
    rw [if_pos (.inl h)] at hv
    cases hv

/-- Every refill lies in a file that holds the whole range. -/
theorem readsInside_of_whole {s : Serving k} (h : s.raw.dataEnd ≤ s.raw.file.length) :
    s.ReadsInside := by
  intro t ht
  have hsame : t.raw.dataEnd = s.raw.dataEnd ∧ t.raw.file = s.raw.file := by
    induction ht with
    | refl => exact ⟨rfl, rfl⟩
    | tail _ hstep ih =>
      unfold next at hstep
      dsimp only at hstep
      split_ifs at hstep
      cases hstep
      exact ⟨(RawInflate.refilled_dataEnd _).trans ih.1, (RawInflate.refilled_file _).trans ih.2⟩
  intro _ _ hlt
  rw [hsame.1] at hlt ⊢
  rw [hsame.2]
  omega

theorem not_readsInside {s : Serving k} (hroom : 0 < s.room) (hin : ¬ s.raw.RefillInside) :
    ¬ s.ReadsInside :=
  fun h => hin (h s .refl hroom)

variable {data : Bytes}

/-- What a round makes of a call that still decodes. -/
theorem next_eq (laws : k.inflater.StreamLaws output) {s : Serving k} (hroom : 0 < s.room)
    (h : RawInflate.Decodes output s.raw data)
    (hgo : (s.raw.inflated s.room).written ≠ [] ∨
      k.inflater.finished (s.raw.inflated s.room).next = false) :
    s.next = some (s.deliver (s.raw.inflated s.room).written.length
      (s.raw.afterRound s.room)) := by
  refine if_neg ?_
  rw [h.dataError laws]
  rcases hgo with hgo | hgo
  · simp [hgo, Nat.ne_of_gt hroom]
  · simp [hgo, Nat.ne_of_gt hroom]

/-- **One read of a call.** It returns a front of the data, or it fails at the first
round that leaves the file. -/
theorem readLoop_total (laws : k.inflater.StreamLaws output) {s : Serving k} {fuel : Nat}
    (hroom : 0 < s.room) (h : RawInflate.Decodes output s.raw data) (hdata : data ≠ [])
    (hfuel : s.raw.left < fuel) :
    (∃ w rest r', s.raw.readLoop s.room fuel = .ok (w, r') ∧ w ≠ [] ∧ w.length ≤ s.room ∧
      data = w ++ rest ∧ RawInflate.Decodes output r' rest ∧
      (s.ReadsInside ↔ (s.deliver w.length r').ReadsInside)) ∨
    (s.raw.readLoop s.room fuel = Res.err .shortRead ∧ ¬ s.ReadsInside) := by
  induction fuel generalizing s with
  | zero => omega
  | succ fuel ih =>
    by_cases hin : s.raw.RefillInside
    · rw [RawInflate.readLoop_succ h.bounded hin, if_neg (by simp [h.dataError laws])]
      obtain ⟨rest, hrest, hround⟩ := h.afterRound laws s.room
      by_cases hnil : (s.raw.inflated s.room).written = []
      · cases hfin : k.inflater.finished (s.raw.inflated s.room).next with
        | true => exact absurd (h.eq_nil_of_finished laws hroom hnil hfin) hdata
        | false =>
          have hpos := h.consumed_pos laws hin hroom hnil hfin
          have hleft := RawInflate.left_afterRound hin h.bounded
            (laws.consumed_le h.usable s.raw.refilled.buffered s.room)
          have hnext := next_eq laws hroom h (.inr hfin)
          rw [hnil, List.length_nil, deliver_zero] at hnext
          rw [hnil, List.nil_append] at hrest
          rw [← hrest] at hround
          rw [if_neg (by simp [hnil]), if_neg (by simp), if_neg (fun h => by omega),
            readsInside_of_next hnext hin]
          exact ih (s := { s with raw := s.raw.afterRound s.room }) hroom hround
            (by dsimp only; omega)
      · rw [if_pos (List.length_pos_iff.2 hnil)]
        exact .inl ⟨_, rest, _, rfl, hnil, laws.written_le h.usable _ _, hrest, hround,
          readsInside_of_next (next_eq laws hroom h (.inl hnil)) hin⟩
    · exact .inr ⟨RawInflate.readLoop_short h.bounded hin, not_readsInside hroom hin⟩

theorem read_total (laws : k.inflater.StreamLaws output) {s : Serving k}
    (hroom : 0 < s.room) (h : RawInflate.Decodes output s.raw data) (hdata : data ≠ []) :
    (∃ w rest r', s.raw.read s.room = .ok (w, r') ∧ w ≠ [] ∧ w.length ≤ s.room ∧
      data = w ++ rest ∧ RawInflate.Decodes output r' rest ∧
      (s.ReadsInside ↔ (s.deliver w.length r').ReadsInside)) ∨
    (s.raw.read s.room = Res.err .shortRead ∧ ¬ s.ReadsInside) := by
  rw [RawInflate.read, if_neg (Nat.ne_of_gt hroom)]
  exact readLoop_total laws hroom h hdata (by unfold RawInflate.left; omega)

/-- **The skip loop** drops `toSkip` bytes of the data, or fails where a round leaves
the file. -/
theorem skipLoop_total (laws : k.inflater.StreamLaws output) {r : RawInflate k}
    {toSkip fuel : Nat} (toFill : Nat) (h : RawInflate.Decodes output r data)
    (hlen : toSkip ≤ data.length) (hfuel : toSkip ≤ fuel) :
    (∃ r', skipLoop fuel toSkip r = .ok r' ∧ RawInflate.Decodes output r' (data.drop toSkip) ∧
      ((Serving.mk r toSkip toFill).ReadsInside ↔ (Serving.mk r' 0 toFill).ReadsInside)) ∨
    (skipLoop fuel toSkip r = Res.err .shortRead ∧
      ¬ (Serving.mk r toSkip toFill).ReadsInside) := by
  induction fuel generalizing toSkip data r with
  | zero =>
    obtain rfl : toSkip = 0 := by omega
    exact .inl ⟨r, rfl, by rwa [List.drop_zero], Iff.rfl⟩
  | succ fuel ih =>
    by_cases hzero : toSkip = 0
    · subst hzero
      exact .inl ⟨r, by rw [skipLoop, if_pos rfl], by rwa [List.drop_zero], Iff.rfl⟩
    · have hpos : 0 < toSkip := Nat.pos_of_ne_zero hzero
      have hroom : (Serving.mk r toSkip toFill).room = min toSkip ioChunk := if_pos hpos
      have hdata : data ≠ [] := by
        intro hnil
        rw [hnil, List.length_nil] at hlen
        omega
      have hchunk : 0 < min toSkip ioChunk := Nat.lt_min.2 ⟨hpos, by decide⟩
      rw [skipLoop, if_neg hzero, ← hroom]
      rcases read_total laws (s := ⟨r, toSkip, toFill⟩) (by rw [hroom]; exact hchunk) h hdata with
        ⟨w, rest, r', hread, hw, hle, hsplit, hrest, hiff⟩ | ⟨hread, hnot⟩
      · have hwlen : w.length ≤ toSkip := le_trans hle (by rw [hroom]; exact Nat.min_le_left _ _)
        have hwpos : 0 < w.length := List.length_pos_iff.2 hw
        have hdeliver : (Serving.mk r toSkip toFill).deliver w.length r' =
            ⟨r', toSkip - w.length, toFill⟩ := by
          unfold deliver
          rw [if_pos hpos]
        have hdrop : data.drop toSkip = rest.drop (toSkip - w.length) := by
          rw [hsplit, List.drop_append, List.drop_eq_nil_of_le hwlen, List.nil_append]
        dsimp only at hread
        rw [hdeliver] at hiff
        rw [hread, Res.bind_ok]
        dsimp only
        rw [if_neg hw, subU64_eq hwlen, Res.bind_ok, hdrop, hiff]
        have hrestlen : toSkip - w.length ≤ rest.length := by
          rw [hsplit, List.length_append] at hlen
          omega
        exact ih hrest hrestlen (by omega)
      · dsimp only at hread
        rw [hread]
        exact .inr ⟨rfl, hnot⟩

/-- **The fill loop** returns a front of the data, or fails where a round leaves the
file. -/
theorem fillLoop_total (laws : k.inflater.StreamLaws output) {r : RawInflate k}
    {want fuel : Nat} {filled : Bytes} (h : RawInflate.Decodes output r data)
    (hlen : want - filled.length ≤ data.length) (hfuel : want - filled.length ≤ fuel) :
    (fillLoop fuel want filled r = .ok (filled ++ data.take (want - filled.length)) ∧
      (Serving.mk r 0 (want - filled.length)).ReadsInside) ∨
    (fillLoop fuel want filled r = Res.err .shortRead ∧
      ¬ (Serving.mk r 0 (want - filled.length)).ReadsInside) := by
  induction fuel generalizing filled data r with
  | zero =>
    have hzero : want - filled.length = 0 := by omega
    rw [hzero, List.take_zero, List.append_nil]
    exact .inl ⟨rfl, readsInside_of_room rfl⟩
  | succ fuel ih =>
    by_cases hlt : filled.length < want
    · have hpos : 0 < want - filled.length := Nat.sub_pos_of_lt hlt
      have hdata : data ≠ [] := by
        intro hnil
        rw [hnil, List.length_nil] at hlen
        omega
      rw [fillLoop, if_pos hlt]
      rcases read_total laws (s := ⟨r, 0, want - filled.length⟩) hpos h hdata with
        ⟨w, rest, r', hread, hw, hle, hsplit, hrest, hiff⟩ | ⟨hread, hnot⟩
      · have hwpos : 0 < w.length := List.length_pos_iff.2 hw
        have hwlen : w.length ≤ want - filled.length := hle
        have hsub : want - (filled ++ w).length = want - filled.length - w.length := by
          rw [List.length_append, Nat.sub_sub]
        have hdeliver : (Serving.mk r 0 (want - filled.length)).deliver w.length r' =
            ⟨r', 0, want - (filled ++ w).length⟩ := by
          rw [hsub]
          unfold deliver
          simp
        have htake : filled ++ data.take (want - filled.length) =
            (filled ++ w) ++ rest.take (want - (filled ++ w).length) := by
          rw [hsub, hsplit, List.take_append, List.take_of_length_le hwlen, List.append_assoc]
        have hread' : r.read (want - filled.length) = .ok (w, r') := hread
        rw [hread', Res.bind_ok]
        dsimp only
        rw [if_neg hw, htake, hiff, hdeliver]
        have hrestlen : want - (filled ++ w).length ≤ rest.length := by
          rw [hsplit, List.length_append] at hlen
          omega
        exact ih hrest hrestlen (by omega)
      · have hread' : r.read (want - filled.length) = Res.err .shortRead := hread
        rw [hread']
        exact .inr ⟨rfl, hnot⟩
    · have hzero : want - filled.length = 0 := by omega
      rw [fillLoop, if_neg hlt, hzero, List.take_zero, List.append_nil]
      exact .inl ⟨rfl, readsInside_of_room rfl⟩

end Serving

end Deflate64Index

end ZipForensic
