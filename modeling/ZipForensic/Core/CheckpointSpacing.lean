import ZipForensic.Core.SeekIndex
import ZipForensic.Search.Spacing

/-!
# How far apart the checkpoints of a seek index are

The inflater hands out the decode in *chunks*: what one read of `ioChunk` bytes returns, and
the position of the checkpoint that is on offer behind it. A chunk can run past the place
where a checkpoint is due, and what is on offer there can lag behind the chunk, or be nothing.

- `OnTime`: by how much, from chunk to chunk.
- `buildLoop_marks`: the checkpoints that the loop of `build_index` keeps are the positions
  offered where it asks (`offers`) that lie past all those before them.
- `checkpointSpacing_iff`: every offset has a checkpoint at most `interval` below it exactly
  if the chunks are on time (`spaced_offers_iff`).
-/

namespace ZipForensic

/-- What a read for the index returns. -/
structure Chunk where
  length : Nat
  /-- The output position of the checkpoint that is on offer behind it. -/
  offer : Option Nat
deriving DecidableEq, Repr

variable {k : Crates}

/-- The position that `checkpoint` offers. -/
def Inflater.offer (I : Inflater) (s : I.State) : Option Nat :=
  (I.checkpoint s).map fun c => c.2.outputBytesAlreadyReturned

/-- Reads of `ioChunk` bytes return the chunks, and then report the end. -/
inductive RawInflate.DecodesTo : RawInflate k → List Chunk → Prop
  | done {r r'} : r.read ioChunk = .ok ([], r') → DecodesTo r []
  | chunk {r r' w cs} : w ≠ [] → r.read ioChunk = .ok (w, r') → DecodesTo r' cs →
      DecodesTo r (⟨w.length, k.inflater.offer r'.inflater⟩ :: cs)

/-- The chunks of a decode are determined. -/
theorem RawInflate.DecodesTo.unique {r : RawInflate k} {as bs : List Chunk} (ha : r.DecodesTo as)
    (hb : r.DecodesTo bs) : as = bs := by
  induction ha generalizing bs with
  | done hread =>
    cases hb with
    | done _ => rfl
    | chunk hw hread' _ =>
      cases hread.symm.trans hread'
      exact absurd rfl hw
  | chunk hw hread _ ih =>
    cases hb with
    | done hread' =>
      cases hread.symm.trans hread'
      exact absurd rfl hw
    | chunk _ hread' hrest =>
      cases hread.symm.trans hread'
      rw [ih hrest]

namespace Deflate64Index

/-- The chunks are on time, where the next checkpoint is due `due` bytes further on, and the
last one lies `debt` bytes behind the place from where this is counted.

- A chunk that gets there ends some bytes past it. These and the debt are made up for, but for
  one byte, by the lag of the checkpoint on offer behind the end of the chunk; the next one
  is due an interval behind the end. The lag is the new debt.
- Where none is on offer, the bytes since the last one are all debt.
- At the end of the member the debt is at most what is still due, and a byte.

An offer ahead of the chunk counts up to the end of the member, and the interval from there. -/
def OnTime (interval : Nat) : (debt due total : Nat) → List Chunk → Prop
  | debt, due, _, [] => debt ≤ due + 1
  | debt, due, total, c :: cs =>
    if c.length < due then OnTime interval debt (due - c.length) (total + c.length) cs
    else
      match c.offer with
      | none =>
        OnTime interval (debt + interval + (c.length - due)) interval (total + c.length) cs
      | some p =>
        min (p - (total + c.length)) (cs.map Chunk.length).sum + (c.length - due) + debt ≤
            (total + c.length - p) + 1 ∧
          OnTime interval (min (total + c.length - p) (debt + interval + (c.length - due)))
            (interval + (p - (total + c.length))) (total + c.length) cs

/-- The positions offered where the loop asks for a checkpoint. It asks behind a chunk that
ends at or past `nextAt`; without an answer it asks again `interval` bytes further on, with
one it does so from where it asked or from the position offered, whichever is later. -/
def offers (interval : Nat) : Nat → Nat → List Chunk → List Nat
  | _, _, [] => []
  | nextAt, total, c :: cs =>
    if total + c.length < nextAt then offers interval nextAt (total + c.length) cs
    else
      match c.offer with
      | none => offers interval (total + c.length + interval) (total + c.length) cs
      | some p => p :: offers interval (max p (total + c.length) + interval) (total + c.length) cs

/-- The nearest checkpoint at or before `offset`, as `readAt` finds it. -/
def nearestCheckpoint (index : Deflate64Index) (offset : Nat) : Option Checkpoint :=
  index.checkpoints[partitionPoint (fun c => decide (c.outputOffset ≤ offset))
    index.checkpoints - 1]?

variable {name : String} {ds interval : Nat} {caps : Caps} {s s' : Indexing k}

/-! ## The checkpoints of the loop -/

/-- The output positions of the checkpoints. -/
def Indexing.positions (s : Indexing k) : List Nat := s.checkpoints.map Checkpoint.outputOffset

/-- Keeping a checkpoint or not. -/
theorem of_push_ok {blob : Bytes} {pos : CheckpointPosition}
    (h : push name ds caps s blob pos = .ok s') :
    s'.totalOut = s.totalOut ∧ s'.raw = s.raw ∧
      s'.lastOutputOffset = max s.lastOutputOffset pos.outputBytesAlreadyReturned ∧
      ∀ ps, s'.positions ++ marks s'.lastOutputOffset ps =
        s.positions ++ marks s.lastOutputOffset (pos.outputBytesAlreadyReturned :: ps) := by
  unfold push at h
  split_ifs at h with hlater
  · obtain ⟨indexBytes, -, h⟩ := Res.of_bind_ok h
    split_ifs at h with hcap
    · cases h
    · obtain ⟨inputOffset, -, h⟩ := Res.of_bind_ok h
      cases h
      refine ⟨rfl, rfl, (Nat.max_eq_right hlater.le).symm, fun ps => ?_⟩
      rw [marks, if_pos hlater, Indexing.positions, List.map_append, List.append_assoc]
      rfl
  · cases h
    refine ⟨rfl, rfl, (Nat.max_eq_left (Nat.not_lt.1 hlater)).symm, fun ps => ?_⟩
    rw [marks, if_neg hlater]

/-- What the end of a chunk adds to the checkpoints. -/
theorem of_capture_ok {total len : Nat} (htotal : s.totalOut = total + len)
    (h : capture name ds interval caps s = .ok s') (cs : List Chunk) :
    s'.totalOut = s.totalOut ∧ s'.raw = s.raw ∧
      s'.positions ++ marks s'.lastOutputOffset (offers interval s'.nextAt s.totalOut cs) =
        s.positions ++ marks s.lastOutputOffset
          (offers interval s.nextAt total (⟨len, k.inflater.offer s.raw.inflater⟩ :: cs)) := by
  unfold capture at h
  rw [offers, ← htotal, Inflater.offer]
  dsimp only
  split_ifs at h with hearly
  · cases h
    rw [if_pos hearly]
    exact ⟨rfl, rfl, rfl⟩
  · -- without an answer, and with one, `next_at` is set from a different place
    rw [if_neg hearly]
    rcases hcheckpoint : k.inflater.checkpoint s.raw.inflater with _ | ⟨blob, pos⟩
    · rw [hcheckpoint] at h
      obtain ⟨nextAt, hnext, h⟩ := Res.of_bind_ok h
      obtain rfl := (of_addU64_ok hnext).2
      cases h
      exact ⟨rfl, rfl, rfl⟩
    · rw [hcheckpoint] at h
      obtain ⟨s₁, hpush, h⟩ := Res.of_bind_ok h
      obtain ⟨nextAt, hnext, h⟩ := Res.of_bind_ok h
      obtain ⟨htotalOut, hraw, -, hmarks⟩ := of_push_ok hpush
      obtain rfl := (of_addU64_ok hnext).2
      cases h
      refine ⟨htotalOut, hraw, ?_⟩
      rw [htotalOut]
      exact hmarks _

/-- **The checkpoints of the loop.** Every round but the last adds to an output that the cap
bounds, so the rounds suffice for the whole decode. -/
theorem buildLoop_marks {fuel : Nat} (hfuel : caps.maxDecode < fuel + s.totalOut)
    (hcap : s.totalOut ≤ caps.maxDecode) (h : buildLoop name ds interval caps fuel s = .ok s') :
    ∃ cs, s.raw.DecodesTo cs ∧ s'.totalOut = s.totalOut + (cs.map Chunk.length).sum ∧
      s'.positions =
        s.positions ++ marks s.lastOutputOffset (offers interval s.nextAt s.totalOut cs) := by
  induction fuel generalizing s with
  | zero => omega
  | succ fuel ih =>
    rw [buildLoop] at h
    rcases hread : s.raw.read ioChunk with (_ | _) | ⟨bytes, raw⟩
    · rw [hread] at h
      cases h
    · rw [hread] at h
      cases h
    · rw [hread] at h
      cases bytes with
      | nil =>
        cases h
        exact ⟨[], .done hread, rfl, (List.append_nil _).symm⟩
      | cons b bs =>
        dsimp only at h
        obtain ⟨totalOut, htotal, h⟩ := Res.of_bind_ok h
        obtain rfl := (of_addU64_ok htotal).2
        split_ifs at h with hover
        · cases h
        · -- the chunk adds a byte at least, so one round less suffices behind it
          obtain ⟨s₁, hcapture, h⟩ := Res.of_bind_ok h
          have hlen : 0 < (b :: bs).length := Nat.succ_pos _
          have hstep := of_capture_ok rfl hcapture
          have htotal₁ : s₁.totalOut = s.totalOut + (b :: bs).length := (hstep []).1
          have hraw₁ : s₁.raw = raw := (hstep []).2.1
          obtain ⟨cs, hdecodes, hsum, hpositions⟩ := ih (by omega) (by omega) h
          rw [hraw₁] at hdecodes
          refine ⟨_, .chunk (List.cons_ne_nil b bs) hread hdecodes, ?_, ?_⟩
          · rw [hsum, htotal₁, List.map_cons, List.sum_cons, Nat.add_assoc]
          · rw [hpositions, htotal₁]
            exact (hstep cs).2.2

variable {file : Bytes} {cs us : Nat} {index : Deflate64Index}

/-- The checkpoints of an index that is built. -/
theorem positions_of_build (hbuild : buildIndexCapped k file name ds cs us interval caps = .ok index) :
    ∃ chunks, RawInflate.DecodesTo (k := k) ⟨file, ds, ds + cs, k.inflater.new, []⟩ chunks ∧
      (chunks.map Chunk.length).sum = us ∧
      index.checkpoints.map Checkpoint.outputOffset =
        0 :: marks 0 (offers (max interval 1) (max interval 1) 0 chunks) := by
  unfold buildIndexCapped at hbuild
  obtain ⟨dataEnd, hend, hbuild⟩ := Res.of_bind_ok hbuild
  obtain rfl := (of_addU64_ok hend).2
  obtain ⟨s, hloop, hbuild⟩ := Res.of_bind_ok hbuild
  obtain ⟨chunks, hdecodes, hsum, hpositions⟩ :=
    buildLoop_marks (by dsimp only; omega) (Nat.zero_le _) hloop
  split_ifs at hbuild with hsize
  · cases hbuild
  · cases hbuild
    refine ⟨chunks, hdecodes, ?_, hpositions⟩
    rw [← not_not.1 hsize, hsum, Nat.zero_add]

/-! ## What is due -/

/-- What is kept of the offers is spaced exactly if the chunks are on time. -/
theorem spaced_offers_iff {last debt due total : Nat} {chunks : List Chunk}
    (hdue : last + debt + interval = total + due) (hus : us = total + (chunks.map Chunk.length).sum) :
    Spaced interval us last (offers interval (total + due) total chunks) ↔
      OnTime interval debt due total chunks := by
  induction chunks generalizing last debt due total with
  | nil =>
    rw [List.map_nil, List.sum_nil] at hus
    rw [offers, Spaced, OnTime]
    omega
  | cons c chunks ih =>
    rw [List.map_cons, List.sum_cons, ← Nat.add_assoc] at hus
    rw [offers, OnTime]
    by_cases hearly : c.length < due
    · have hnext : total + due = total + c.length + (due - c.length) := by omega
      rw [if_pos (Nat.add_lt_add_left hearly total), if_pos hearly, hnext]
      exact ih (by omega) hus
    · rw [if_neg (by omega), if_neg hearly]
      cases c.offer with
      | none => exact ih (by omega) hus
      | some p =>
        have hnext : max p (total + c.length) + interval =
            total + c.length + (interval + (p - (total + c.length))) := by omega
        have hrest : max last p + min (total + c.length - p) (debt + interval + (c.length - due)) +
            interval = total + c.length + (interval + (p - (total + c.length))) := by omega
        dsimp only
        rw [Spaced, hnext, ih hrest hus]
        refine and_congr_left fun _ => ?_
        omega

/-- Behind every chunk there is a checkpoint at its very end. -/
def Exact : Nat → List Chunk → Prop
  | _, [] => True
  | total, c :: cs => c.offer = some (total + c.length) ∧ Exact (total + c.length) cs

/-- No chunk that reaches the place where a checkpoint is due ends more than a byte past it. -/
def EndsOnTime (interval : Nat) : Nat → List Chunk → Prop
  | _, [] => True
  | due, c :: cs =>
    if c.length < due then EndsOnTime interval (due - c.length) cs
    else c.length ≤ due + 1 ∧ EndsOnTime interval interval cs

/-- Where no checkpoint is missing and none lags, a chunk can still end too late, and nothing
else can go wrong. -/
theorem onTime_iff_of_exact {due total : Nat} {chunks : List Chunk} (hexact : Exact total chunks) :
    OnTime interval 0 due total chunks ↔ EndsOnTime interval due chunks := by
  induction chunks generalizing due total with
  | nil => exact iff_of_true (Nat.zero_le _) trivial
  | cons c chunks ih =>
    obtain ⟨hoffer, hexact⟩ := hexact
    rw [OnTime, EndsOnTime, hoffer]
    by_cases hearly : c.length < due
    · rw [if_pos hearly, if_pos hearly]
      exact ih hexact
    · rw [if_neg hearly, if_neg hearly]
      dsimp only
      rw [Nat.sub_self, Nat.zero_min, Nat.zero_min, Nat.add_zero, ih hexact]
      exact and_congr_left fun _ => by omega

/-- **When the checkpoints are close enough.** For every member whose index is built, with
any interval and caps and whatever the inflater does: every offset has its nearest checkpoint
at most `interval` below it exactly if the chunks in which the inflater hands out the member
are on time. -/
theorem checkpointSpacing_iff (hinterval : 1 ≤ interval)
    (hbuild : buildIndexCapped k file name ds cs us interval caps = .ok index) :
    ∃ chunks, RawInflate.DecodesTo (k := k) ⟨file, ds, ds + cs, k.inflater.new, []⟩ chunks ∧
      (chunks.map Chunk.length).sum = us ∧
      ((∀ offset < us, ∃ c, index.nearestCheckpoint offset = some c ∧
          c.outputOffset ≤ offset ∧ offset - c.outputOffset ≤ interval) ↔
        OnTime interval 0 interval 0 chunks) := by
  obtain ⟨chunks, hdecodes, hsum, hpositions⟩ := positions_of_build hbuild
  rw [Nat.max_eq_left hinterval] at hpositions
  refine ⟨chunks, hdecodes, hsum, ?_⟩
  have hspaced : Spaced interval us 0 (offers interval (0 + interval) 0 chunks) ↔
      OnTime interval 0 interval 0 chunks :=
    spaced_offers_iff rfl (hsum.symm.trans (Nat.zero_add _).symm)
  rw [Nat.zero_add] at hspaced
  rw [← hspaced, ← spaced_iff, ← hpositions]
  have hsorted : index.checkpoints.Pairwise fun a b => a.outputOffset < b.outputOffset :=
    List.pairwise_map.1 (hpositions ▸ marks_sorted _ _)
  constructor
  · intro h offset _ hoffset
    obtain ⟨c, hc, hle, hspace⟩ := h offset hoffset
    exact ⟨c.outputOffset, List.mem_map_of_mem (List.mem_of_getElem? hc), hle, by omega⟩
  · intro h offset hoffset
    obtain ⟨m, hm, hle, hspace⟩ := h offset (Nat.zero_le _) hoffset
    obtain ⟨c, hc, rfl⟩ := List.mem_map.1 hm
    -- the nearest one is no further than the one there is
    obtain ⟨c', -, hnearest, hle', hmax⟩ := partitionPoint_nearest hsorted ⟨c, hc, hle⟩
    have hcc := hmax c hc hle
    exact ⟨c', hnearest, hle', by omega⟩

/-- The chunks of the archive of zero bytes. -/
theorem runs_chunks : RawInflate.DecodesTo (runsRaw 31 ⟨FixedRuns.new, [], 0, 0⟩ [])
    [⟨131072, some 131072⟩, ⟨65538, none⟩] := by
  have hmiddle := RawInflate.DecodesTo.chunk (replicate_ne_nil (by decide) 0) read_runs_middle
    (.done read_runs_end)
  have hstart := RawInflate.DecodesTo.chunk (replicate_ne_nil (by decide) 0) read_runs_start hmiddle
  rw [List.length_replicate, List.length_replicate] at hstart
  exact hstart

/-- At an interval of 131072 bytes, the first chunk ends where the first checkpoint is due and
the second one before the next is. -/
theorem runs_spaced :
    OnTime 131072 0 131072 0 [⟨131072, some 131072⟩, ⟨65538, none⟩] ∧
      ∀ offset < 196610, ∃ c, runsIndex.nearestCheckpoint offset = some c ∧
        c.outputOffset ≤ offset ∧ offset - c.outputOffset ≤ 131072 := by
  have honTime : OnTime 131072 0 131072 0 [⟨131072, some 131072⟩, ⟨65538, none⟩] := by
    rw [OnTime, if_neg (by decide)]
    dsimp only
    rw [OnTime, if_pos (by decide), OnTime]
    exact ⟨by decide, by decide⟩
  obtain ⟨chunks, hdecodes, -, hspaced⟩ := checkpointSpacing_iff (by decide) build_runs
  obtain rfl := hdecodes.unique runs_chunks
  exact ⟨honTime, hspaced.2 honTime⟩

/-- The word `hello`, in a fixed Huffman block. -/
def helloStream : Bytes := [0xCB, 0x48, 0xCD, 0xC9, 0xC9, 0x07, 0x00]

/-- Its index: the whole word is one chunk, and there is no checkpoint at the end of the
stream. -/
def helloIndex : Deflate64Index := ⟨7, 5, [⟨0, 0, none⟩]⟩

/-- At an interval of two bytes, the checkpoint nearest to the last byte is the one at the
start, four bytes below it. -/
theorem hello_spaced_wider :
    buildIndexCapped runsCrates helloStream "hello" 0 7 5 2 {} = .ok helloIndex ∧
      ¬ ∀ offset < 5, ∃ c, helloIndex.nearestCheckpoint offset = some c ∧
        c.outputOffset ≤ offset ∧ offset - c.outputOffset ≤ 2 := by
  refine ⟨by decide +kernel, fun h => ?_⟩
  obtain ⟨c, hc, -, hspace⟩ := h 4 (by decide)
  have hfirst : helloIndex.nearestCheckpoint 4 = some ⟨0, 0, none⟩ := by decide
  obtain rfl := Option.some.inj (hfirst.symm.trans hc)
  exact absurd hspace (by decide)

end Deflate64Index

end ZipForensic
