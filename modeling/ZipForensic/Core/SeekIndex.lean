import ZipForensic.Core.Crypto
import ZipForensic.Core.SeekReads
import ZipForensic.Deflate.FixedRuns

/-!
# The checkpoint index against the sequential decode

`build_index` decodes a member once; every checkpoint it keeps resumes that decode
(`Indexed`, kept by every step of the loop). A read therefore serves the bytes of the
full decode from whichever checkpoint it starts, as long as its refills lie in the file
(`Sound.readAt_iff`).

The windows that the index is built from start at the member's first byte, the windows
of a read at the input position of its checkpoint. Where a member's declared range goes
past the end of the file, an index can be built, and a read from one of its checkpoints
still reach past the end.
-/

namespace ZipForensic

open Deflate64Index

variable {k : Crates} {output : k.inflater.State → Bytes → Option Bytes}

/-! ## Checkpoints that resume the decode -/

/-- The inflater a checkpoint restores, and the output position it is at. -/
def Checkpoint.resume (k : Crates) (c : Checkpoint) : Option (k.inflater.State × Nat) :=
  match c.blob with
  | none => some (k.inflater.new, 0)
  | some blob =>
    (k.inflater.restoreFromCheckpoint blob).map fun restored =>
      (restored.1, restored.2.outputBytesAlreadyReturned)

/-- `c` resumes the decode of `stream`, the member's bytes from `dataStart` on. -/
def Checkpoint.Resumes (output : k.inflater.State → Bytes → Option Bytes) (stream : Bytes)
    (dataStart : Nat) (c : Checkpoint) : Prop :=
  ∃ state skip, c.resume k = some (state, c.outputOffset) ∧ k.inflater.Usable state ∧
    c.inputOffset = dataStart + skip ∧ skip ≤ stream.length ∧
    output state (stream.drop skip) =
      (output k.inflater.new stream).map (List.drop c.outputOffset)

theorem Checkpoint.start_resumes (stream : Bytes) (dataStart : Nat) :
    Checkpoint.Resumes output stream dataStart ⟨0, dataStart, none⟩ := by
  refine ⟨k.inflater.new, 0, rfl, .new, rfl, Nat.zero_le _, ?_⟩
  show output k.inflater.new stream = (output k.inflater.new stream).map id
  rw [Option.map_id, id]

namespace Deflate64Index

/-- What the indexing loop keeps: it stands at `i` and `out` in the stream and in its
output, and its checkpoints are in order and resume the decode. -/
structure Indexed (output : k.inflater.State → Bytes → Option Bytes) (stream : Bytes)
    (dataStart i : Nat) (out : Bytes) (s : Indexing k) : Prop where
  tracks : RawInflate.Tracks stream i out s.raw
  totalOut_eq : s.totalOut = out.length
  first : s.checkpoints.head? = some ⟨0, dataStart, none⟩
  increasing : s.checkpoints.Pairwise fun a b => a.outputOffset < b.outputOffset
  le_last : ∀ c ∈ s.checkpoints, c.outputOffset ≤ s.lastOutputOffset
  resumes : ∀ c ∈ s.checkpoints, c.Resumes output stream dataStart

namespace Indexed

variable {name : String} {stream out : Bytes} {dataStart interval i : Nat} {caps : Caps}
  {s s' : Indexing k} {blob : Bytes} {pos : CheckpointPosition}

/-- The state that the loop starts in. -/
theorem start (file : Bytes) (ds cs nextAt : Nat) :
    Indexed output (slice file ds cs) ds 0 [] (Indexing.mk (k := k) [⟨0, ds, none⟩] 0 0 0 nextAt
      ⟨file, ds, ds + cs, k.inflater.new, []⟩) := by
  refine ⟨⟨.new, ?_, Nat.le_add_right _ _⟩, rfl, rfl, List.pairwise_singleton _ _, ?_, ?_⟩
  · show [] ++ slice file ds (ds + cs - ds) = slice file ds cs
    rw [Nat.add_sub_cancel_left]
    rfl
  · intro c hc
    obtain rfl := List.mem_singleton.1 hc
    exact Nat.le_refl 0
  · intro c hc
    obtain rfl := List.mem_singleton.1 hc
    exact Checkpoint.start_resumes _ _

/-- The bookkeeping of the next checkpoint's place is not part of the invariant. -/
theorem setNextAt (h : Indexed output stream dataStart i out s) (nextAt : Nat) :
    Indexed output stream dataStart i out { s with nextAt } :=
  ⟨h.tracks, h.totalOut_eq, h.first, h.increasing, h.le_last, h.resumes⟩

/-- A checkpoint of the state that the loop is in resumes the decode. -/
theorem checkpoint_resumes (documented : k.inflater.Documented output)
    (h : Indexed output stream dataStart i out s)
    (hcheckpoint : k.inflater.checkpoint s.raw.inflater = some (blob, pos)) :
    Checkpoint.Resumes output stream dataStart
      ⟨pos.outputBytesAlreadyReturned, dataStart + pos.inputBytesToSkip, some blob⟩ := by
  obtain ⟨-, hskip, state, pos', hrestore, hpos, houtput⟩ :=
    documented.restores h.tracks.feeds hcheckpoint
  have hle := h.tracks.feeds.le_length documented.toStreamLaws
  refine ⟨state, pos.inputBytesToSkip, ?_, h.tracks.feeds.usable.restored hcheckpoint hrestore,
    rfl, hskip.trans hle, houtput⟩
  unfold Checkpoint.resume
  dsimp only
  rw [hrestore, Option.map_some, hpos]

theorem push (documented : k.inflater.Documented output)
    (h : Indexed output stream dataStart i out s)
    (hcheckpoint : k.inflater.checkpoint s.raw.inflater = some (blob, pos))
    (hpush : Deflate64Index.push name dataStart caps s blob pos = .ok s') :
    Indexed output stream dataStart i out s' := by
  unfold Deflate64Index.push at hpush
  split_ifs at hpush with hlater
  · obtain ⟨indexBytes, -, hpush⟩ := Res.of_bind_ok hpush
    split_ifs at hpush with hcap
    · cases hpush
    · obtain ⟨inputOffset, hinput, hpush⟩ := Res.of_bind_ok hpush
      obtain rfl := (of_addU64_ok hinput).2
      cases hpush
      refine ⟨h.tracks, h.totalOut_eq, ?_, ?_, ?_, ?_⟩
      · show (s.checkpoints ++ _).head? = _
        rw [List.head?_append, h.first]
        rfl
      · refine List.pairwise_append.2 ⟨h.increasing, List.pairwise_singleton _ _, ?_⟩
        intro c hc c' hc'
        obtain rfl := List.mem_singleton.1 hc'
        exact lt_of_le_of_lt (h.le_last c hc) hlater
      · intro c hc
        rcases List.mem_append.1 hc with hc | hc
        · exact le_trans (h.le_last c hc) hlater.le
        · obtain rfl := List.mem_singleton.1 hc
          exact Nat.le_refl _
      · intro c hc
        rcases List.mem_append.1 hc with hc | hc
        · exact h.resumes c hc
        · obtain rfl := List.mem_singleton.1 hc
          exact h.checkpoint_resumes documented hcheckpoint
  · cases hpush
    exact h

/-- Whether `checkpoint` succeeds, lags or fails, the invariant holds. -/
theorem capture (documented : k.inflater.Documented output)
    (h : Indexed output stream dataStart i out s)
    (hcapture : Deflate64Index.capture name dataStart interval caps s = .ok s') :
    Indexed output stream dataStart i out s' := by
  unfold Deflate64Index.capture at hcapture
  split_ifs at hcapture with hearly
  · cases hcapture
    exact h
  · rcases hcheckpoint : k.inflater.checkpoint s.raw.inflater with _ | ⟨blob, pos⟩
    · rw [hcheckpoint] at hcapture
      obtain ⟨nextAt, -, hcapture⟩ := Res.of_bind_ok hcapture
      cases hcapture
      exact h.setNextAt nextAt
    · rw [hcheckpoint] at hcapture
      obtain ⟨s₁, hpush, hcapture⟩ := Res.of_bind_ok hcapture
      obtain ⟨nextAt, -, hcapture⟩ := Res.of_bind_ok hcapture
      cases hcapture
      exact (h.push documented hcheckpoint hpush).setNextAt nextAt

/-- **The indexing loop** ends with the whole output of the stream. Every round but the
last adds to an output that the cap bounds, so the rounds suffice. -/
theorem buildLoop (documented : k.inflater.Documented output) {fuel : Nat}
    (h : Indexed output stream dataStart i out s) (hfuel : caps.maxDecode < fuel + out.length)
    (hbuild : Deflate64Index.buildLoop name dataStart interval caps fuel s = .ok s')
    (hcap : out.length ≤ caps.maxDecode) :
    ∃ i' out', Indexed output stream dataStart i' out' s' ∧
      output k.inflater.new stream = some out' := by
  induction fuel generalizing s i out with
  | zero => omega
  | succ fuel ih =>
    rw [Deflate64Index.buildLoop] at hbuild
    rcases hread : s.raw.read ioChunk with (_ | _) | ⟨bytes, raw⟩
    · rw [hread] at hbuild
      cases hbuild
    · rw [hread] at hbuild
      cases hbuild
    · rw [hread] at hbuild
      obtain ⟨i', htracks, -, hend⟩ :=
        h.tracks.read documented.toStreamLaws (by decide) hread
      cases bytes with
      | nil =>
        cases hbuild
        rw [List.append_nil] at htracks
        refine ⟨i', out, ⟨htracks, h.totalOut_eq, h.first, h.increasing, h.le_last, h.resumes⟩, ?_⟩
        rw [htracks.feeds.output_eq documented.toStreamLaws, hend rfl, Option.map_some,
          List.append_nil]
      | cons b bs =>
        dsimp only at hbuild
        obtain ⟨totalOut, htotal, hbuild⟩ := Res.of_bind_ok hbuild
        have htotal' : totalOut = (out ++ b :: bs).length := by
          rw [(of_addU64_ok htotal).2, h.totalOut_eq, List.length_append]
        split_ifs at hbuild with hcap'
        · cases hbuild
        · obtain ⟨s₁, hcapture, hbuild⟩ := Res.of_bind_ok hbuild
          have hnext : Indexed output stream dataStart i' (out ++ b :: bs)
              { s with totalOut, raw } :=
            ⟨htracks, htotal', h.first, h.increasing, h.le_last, h.resumes⟩
          have hlen : out.length < (out ++ b :: bs).length := by simp
          exact ih (hnext.capture documented hcapture) (by omega) hbuild (by omega)

end Indexed

/-! ## Indices that serve the full decode -/

/-- An index of the member whose bytes are `cs` bytes of `file` from `ds` on, and whose
full decode is `data`. -/
structure Sound (output : k.inflater.State → Bytes → Option Bytes) (file : Bytes) (ds cs : Nat)
    (data : Bytes) (index : Deflate64Index) : Prop where
  decodes : output k.inflater.new (slice file ds cs) = some data
  length_eq : data.length = index.uncompressedSize
  dataEnd_eq : index.dataEnd = ds + cs
  first : index.checkpoints.head? = some ⟨0, ds, none⟩
  increasing : index.checkpoints.Pairwise fun a b => a.outputOffset < b.outputOffset
  resumes : ∀ c ∈ index.checkpoints, c.Resumes output (slice file ds cs) ds

variable {file : Bytes} {name : String} {ds cs us interval : Nat} {caps : Caps}
  {index : Deflate64Index} {data : Bytes}

/-- **Every index that is built is sound.** -/
theorem sound_of_build (documented : k.inflater.Documented output)
    (hbuild : buildIndexCapped k file name ds cs us interval caps = .ok index) :
    index.uncompressedSize = us ∧ ∃ data, Sound output file ds cs data index := by
  unfold buildIndexCapped at hbuild
  obtain ⟨dataEnd, hend, hbuild⟩ := Res.of_bind_ok hbuild
  obtain rfl := (of_addU64_ok hend).2
  obtain ⟨s, hloop, hbuild⟩ := Res.of_bind_ok hbuild
  obtain ⟨i, data, hindexed, hdata⟩ :=
    (Indexed.start file ds cs _).buildLoop documented (by simp) hloop (Nat.zero_le _)
  split_ifs at hbuild with hsize
  · cases hbuild
  · cases hbuild
    have hlen : s.totalOut = us := not_not.1 hsize
    exact ⟨rfl, data, hdata, by rw [← hindexed.totalOut_eq, hlen], rfl, hindexed.first,
      hindexed.increasing, hindexed.resumes⟩

/-! ## Reads of a sound index -/

/-- The state in which a read starts its two loops, if it gets to them. -/
def start (k : Crates) (index : Deflate64Index) (file : Bytes) (len offset : Nat) :
    Option (Serving k) :=
  if index.uncompressedSize ≤ offset ∨ len = 0 then none
  else do
    let ci := partitionPoint (fun c => decide (c.outputOffset ≤ offset)) index.checkpoints
    let cp ← index.checkpoints[ci - 1]?
    let (inflater, startOut) ← cp.resume k
    return ⟨⟨file, cp.inputOffset, index.dataEnd, inflater, []⟩, offset - startOut,
      min (index.uncompressedSize - offset) len⟩

/-- Every refill that `read_at` makes for these arguments lies in the file. -/
def ReadsInside (k : Crates) (index : Deflate64Index) (file : Bytes) (len offset : Nat) : Prop :=
  ∀ s, start k index file len offset = some s → s.ReadsInside

/-- The bisection finds a checkpoint at or before the offset. -/
theorem nearest (h : Sound output file ds cs data index) (offset : Nat) :
    ∃ cp ∈ index.checkpoints, cp.outputOffset ≤ offset ∧
      index.checkpoints[partitionPoint (fun c => decide (c.outputOffset ≤ offset))
        index.checkpoints - 1]? = some cp := by
  have hpart : PartitionedBy (fun c => decide (c.outputOffset ≤ offset)) index.checkpoints := by
    refine h.increasing.imp fun hlt hle => ?_
    exact decide_eq_true (le_trans hlt.le (of_decide_eq_true hle))
  rw [partitionPoint_eq hpart]
  obtain ⟨rest, hrest⟩ : ∃ rest, index.checkpoints = ⟨0, ds, none⟩ :: rest := by
    have hfirst := h.first
    cases hcps : index.checkpoints with
    | nil =>
      rw [hcps] at hfirst
      cases hfirst
    | cons c rest =>
      rw [hcps] at hfirst
      cases hfirst
      exact ⟨rest, rfl⟩
  have hpos : 0 < index.checkpoints.findIdx fun c => !decide (c.outputOffset ≤ offset) := by
    rw [hrest, List.findIdx_cons]
    simp
  have hle : (index.checkpoints.findIdx fun c => !decide (c.outputOffset ≤ offset)) ≤
      index.checkpoints.length := List.findIdx_le_length
  have hlt : (index.checkpoints.findIdx fun c => !decide (c.outputOffset ≤ offset)) - 1 <
      index.checkpoints.length := by omega
  have hcp := List.getElem?_eq_getElem hlt
  have hnot := List.not_of_lt_findIdx
    (show (index.checkpoints.findIdx fun c => !decide (c.outputOffset ≤ offset)) - 1 < _ by
      exact Nat.sub_lt hpos Nat.one_pos)
  exact ⟨_, List.mem_of_getElem? hcp, by simpa using hnot, hcp⟩

/-- A checkpoint's inflater at its place in the file decodes the data from its output
position on. -/
theorem Sound.decodes_from (h : Sound output file ds cs data index) {cp : Checkpoint}
    (hmem : cp ∈ index.checkpoints) :
    ∃ state, cp.resume k = some (state, cp.outputOffset) ∧
      RawInflate.Decodes output ⟨file, cp.inputOffset, index.dataEnd, state, []⟩
        (data.drop cp.outputOffset) := by
  obtain ⟨state, skip, hresume, husable, hinput, hskip, houtput⟩ := h.resumes cp hmem
  have hlen : (slice file ds cs).length ≤ cs := List.length_take_le _ _
  refine ⟨state, hresume, husable, ?_, ?_⟩
  · show cp.inputOffset ≤ index.dataEnd
    rw [hinput, h.dataEnd_eq]
    omega
  · show output state ([] ++ slice file cp.inputOffset (index.dataEnd - cp.inputOffset)) = _
    have hend : index.dataEnd - cp.inputOffset = cs - skip := by
      rw [hinput, h.dataEnd_eq]
      omega
    rw [List.nil_append, hend, hinput, ← slice_drop, houtput, h.decodes]
    rfl

/-- What `read_at` does from the checkpoint it finds. -/
theorem readAt_from {cp : Checkpoint} {state : k.inflater.State} {len offset : Nat}
    (hoffset : offset < index.uncompressedSize) (hlen : len ≠ 0)
    (hnearest : index.checkpoints[partitionPoint (fun c => decide (c.outputOffset ≤ offset))
      index.checkpoints - 1]? = some cp)
    (hle : cp.outputOffset ≤ offset) (hresume : cp.resume k = some (state, cp.outputOffset)) :
    index.readAt k file len offset =
      skipLoop (offset - cp.outputOffset) (offset - cp.outputOffset)
        ⟨file, cp.inputOffset, index.dataEnd, state, []⟩ >>= fun raw =>
      fillLoop (min (index.uncompressedSize - offset) len)
        (min (index.uncompressedSize - offset) len) [] raw := by
  unfold readAt
  rw [if_neg (not_or.2 ⟨Nat.not_le.2 hoffset, hlen⟩), subU64_eq hoffset.le, Res.bind_ok]
  dsimp only
  rw [hnearest]
  dsimp only
  unfold Checkpoint.resume at hresume
  rcases hblob : cp.blob with _ | blob
  · rw [hblob] at hresume
    obtain ⟨hstate, hout⟩ := Prod.mk.inj (Option.some.inj hresume)
    show (if (0 : Nat) ≠ cp.outputOffset then _ else _) = _
    rw [if_neg (not_not.2 hout), hstate, hout, subU64_eq hle]
    rfl
  · rw [hblob] at hresume
    obtain ⟨⟨state', pos⟩, hrestore, hpair⟩ := Option.map_eq_some_iff.1 hresume
    obtain ⟨hstate, hout⟩ := Prod.mk.inj hpair
    dsimp only at hstate hout ⊢
    rw [hrestore]
    show (if pos.outputBytesAlreadyReturned ≠ cp.outputOffset then _ else _) = _
    rw [if_neg (not_not.2 hout), hstate, hout, subU64_eq hle]
    rfl

/-- **Reads.** A read returns the bytes of the full decode, or it fails at the first refill
that leaves the file. -/
theorem Sound.readAt_total (laws : k.inflater.StreamLaws output)
    (h : Sound output file ds cs data index) (len offset : Nat) :
    (index.readAt k file len offset = .ok ((data.drop offset).take len) ∧
      index.ReadsInside k file len offset) ∨
    (index.readAt k file len offset = Res.err .shortRead ∧
      ¬ index.ReadsInside k file len offset) := by
  by_cases hend : index.uncompressedSize ≤ offset ∨ len = 0
  · have hnil : (data.drop offset).take len = [] := by
      rcases hend with hend | hend
      · rw [List.drop_eq_nil_of_le (h.length_eq ▸ hend), List.take_nil]
      · rw [hend, List.take_zero]
    unfold readAt ReadsInside start
    rw [if_pos hend, if_pos hend, hnil]
    exact .inl ⟨rfl, fun s hs => by cases hs⟩
  · obtain ⟨hoffset, hlen⟩ := not_or.1 hend
    obtain ⟨cp, hmem, hle, hnearest⟩ := nearest h offset
    obtain ⟨state, hresume, hdecodes⟩ := h.decodes_from hmem
    have hstart : start k index file len offset = some
        ⟨⟨file, cp.inputOffset, index.dataEnd, state, []⟩, offset - cp.outputOffset,
          min (index.uncompressedSize - offset) len⟩ := by
      unfold start
      rw [if_neg hend]
      dsimp only
      rw [hnearest, Option.bind_eq_bind, Option.bind_some, hresume]
      rfl
    have htake : (data.drop offset).take len =
        (data.drop offset).take (min (index.uncompressedSize - offset) len) := by
      rw [Nat.min_comm, ← List.take_take, List.take_of_length_le (i := index.uncompressedSize - offset)]
      rw [List.length_drop, h.length_eq]
    have hdrop : (data.drop cp.outputOffset).drop (offset - cp.outputOffset) = data.drop offset := by
      rw [List.drop_drop, Nat.add_sub_cancel' hle]
    have hskip : offset - cp.outputOffset ≤ (data.drop cp.outputOffset).length := by
      rw [List.length_drop, h.length_eq]
      omega
    have hfill : min (index.uncompressedSize - offset) len - ([] : Bytes).length ≤
        (data.drop offset).length := by
      rw [List.length_drop, h.length_eq, List.length_nil]
      omega
    rw [readAt_from (Nat.not_le.1 hoffset) hlen hnearest hle hresume]
    unfold ReadsInside
    rw [hstart]
    have hinside : ∀ s : Serving k, (∀ t, some s = some t → t.ReadsInside) ↔ s.ReadsInside :=
      fun s => ⟨fun h => h s rfl, fun h t ht => Option.some.inj ht ▸ h⟩
    rw [hinside, htake]
    rcases Serving.skipLoop_total laws (min (index.uncompressedSize - offset) len) hdecodes
      hskip (Nat.le_refl _) with ⟨r, hok, hrest, hiff⟩ | ⟨herr, hnot⟩
    · rw [hok, Res.bind_ok, hiff]
      rw [hdrop] at hrest
      exact Serving.fillLoop_total laws hrest hfill (Nat.le_refl _)
    · rw [herr]
      exact .inr ⟨rfl, hnot⟩

/-- A read returns the bytes of the full decode exactly when its refills lie in the file. -/
theorem Sound.readAt_iff (laws : k.inflater.StreamLaws output)
    (h : Sound output file ds cs data index) (len offset : Nat) :
    index.readAt k file len offset = .ok ((data.drop offset).take len) ↔
      index.ReadsInside k file len offset := by
  rcases h.readAt_total laws len offset with ⟨hok, hin⟩ | ⟨herr, hnot⟩
  · exact iff_of_true hok hin
  · refine iff_of_false (fun hok => ?_) hnot
    cases herr.symm.trans hok

/-- The refills of every read lie in a file that holds the whole declared range. -/
theorem Sound.readsInside (h : Sound output file ds cs data index)
    (hwhole : ds + cs ≤ file.length) (len offset : Nat) : index.ReadsInside k file len offset := by
  intro s hs
  unfold start at hs
  split_ifs at hs with hend
  obtain ⟨cp, hcp, hs⟩ := Option.bind_eq_some_iff.1 hs
  obtain ⟨⟨state, startOut⟩, hresume, hs⟩ := Option.bind_eq_some_iff.1 hs
  cases hs
  exact Serving.readsInside_of_whole (by simpa [h.dataEnd_eq] using hwhole)

/-! ## A member whose declared range goes past the end of the file -/

/-- The crates of the archive below. Their inflater stands in for that of `deflate64`, and
takes no more bytes than it needs for what it hands out. -/
def runsCrates : Crates :=
  { Crates.plain with inflater := FixedRuns.transducer.inflater FixedRuns.snapshots }

/-- What their inflater produces. -/
def runsOutput : runsCrates.inflater.State → Bytes → Option Bytes :=
  FixedRuns.transducer.inflaterOutput FixedRuns.snapshots

theorem runs_documented : runsCrates.inflater.Documented runsOutput :=
  Transducer.inflater_documented

/-- A literal zero byte, and matches of 65538, 65533 and 65538 more. -/
def runsStream : Bytes :=
  [0x63, 0x18, 0xFD, 0xFF, 0x07, 0xA3, 0xFA, 0xFF, 0x60, 0xF4, 0xFF, 0x1F, 0x00, 0x00]

/-- The header and name of the member `m`: method 9, with a compressed size of 131082. -/
def runsHeader : Bytes :=
  [0x50, 0x4B, 0x03, 0x04, 21, 0, 0, 0, 9, 0, 0, 0, 0, 0, 0, 0, 0, 0,
    0x0A, 0x00, 0x02, 0x00, 0x02, 0x00, 0x03, 0x00, 1, 0, 0, 0] ++ [0x6D]

/-- What follows the stream: zero bytes, the central directory and the EOCD. -/
def runsTail : Bytes :=
  List.replicate 130989 0 ++
    ([0x50, 0x4B, 0x01, 0x02, 21, 0, 21, 0, 0, 0, 9, 0, 0, 0, 0, 0, 0, 0, 0, 0,
      0x0A, 0x00, 0x02, 0x00, 0x02, 0x00, 0x03, 0x00, 1, 0, 0, 0, 0, 0, 0, 0, 0, 0, 0, 0, 0, 0,
      0, 0, 0, 0] ++ [0x6D] ++
    [0x50, 0x4B, 0x05, 0x06, 0, 0, 0, 0, 1, 0, 1, 0, 47, 0, 0, 0, 0xDA, 0xFF, 0x01, 0x00, 0, 0])

/-- An archive of the member; behind its header there are 131072 bytes. -/
def runsArchive : Bytes := runsHeader ++ (runsStream ++ runsTail)

theorem length_runsTail : runsTail.length = 131058 := by
  unfold runsTail
  rw [List.length_append, List.length_replicate]
  rfl

theorem length_runsArchive : runsArchive.length = 131103 := by
  unfold runsArchive
  rw [List.length_append, List.length_append, length_runsTail]
  rfl

/-- Every window at the member that is long enough is the rest of the file. -/
theorem slice_runsArchive {n : Nat} (h : 131072 ≤ n) :
    slice runsArchive 31 n = runsStream ++ runsTail := by
  have hdrop : runsArchive.drop 31 = runsStream ++ runsTail := List.drop_left' (by decide)
  rw [slice, hdrop]
  refine List.take_of_length_le ?_
  rw [List.length_append, length_runsTail]
  exact h

/-- Inside the second match. -/
def runsFront : FixedRuns :=
  ⟨true, false, some 0, natBits 8 0xA3 ++ natBits 8 0xFA ++ natBits 8 0xFF⟩

/-- Between the second match and the third. -/
def runsMiddle : FixedRuns := ⟨true, false, some 0, [true, true, false]⟩

/-- At the end of the stream. -/
def runsEnd : FixedRuns := ⟨true, true, some 0, List.replicate 7 false⟩

/-- The first call fills its room at the end of the second match. -/
theorem call_runs_start (more : Bytes) :
    FixedRuns.transducer.call FixedRuns.new [] (runsStream ++ more) 131072 =
      ⟨runsMiddle, [], 9, List.replicate 131072 0, false⟩ := by
  have hfront : FixedRuns.runsOf FixedRuns.new (runsStream.take 8) =
      some (runsFront, [(1, 0), (65538, 0)]) := by decide +kernel
  have hfeed := FixedRuns.feed_eq hfront
  rw [FixedRuns.expand_pair] at hfeed
  have hruns : FixedRuns.stepRuns runsFront 0x60 = some (runsMiddle, [(65533, 0)]) := by
    decide +kernel
  have hstep := FixedRuns.step_eq hruns
  rw [FixedRuns.expand_singleton] at hstep
  -- the room of the call is used up by the second match
  have hfull : FixedRuns.transducer.call runsMiddle (List.replicate 65533 0)
      (runsStream.drop 9 ++ more) 65533 = ⟨runsMiddle, [], 0, List.replicate 65533 0, false⟩ := by
    refine (Transducer.call_of_stop (.inl ?_)).trans ?_
    · rw [List.length_replicate]
    · rw [List.take_of_length_le (by rw [List.length_replicate]),
        List.drop_of_length_le (by rw [List.length_replicate])]
  have hbyte : FixedRuns.transducer.call runsFront [] (0x60 :: (runsStream.drop 9 ++ more)) 65533 =
      ⟨runsMiddle, [], 1, List.replicate 65533 0, false⟩ := by
    refine (Transducer.call_cons (by decide) rfl hstep).trans ?_
    rw [List.length_nil, Nat.sub_zero, hfull]
    rfl
  have hsplit : runsStream ++ more = runsStream.take 8 ++ (0x60 :: (runsStream.drop 9 ++ more)) := rfl
  have hroom : 131072 - (1 + 65538) = 65533 := rfl
  rw [hsplit, Transducer.call_feed hfeed (by rw [List.length_replicate]; decide),
    List.length_replicate, hroom, hbyte]
  dsimp only
  rw [List.replicate_append_replicate]
  rfl

/-- At the end a call does nothing. -/
theorem call_runs_end (more : Bytes) (n : Nat) :
    FixedRuns.transducer.call runsEnd [] more n = ⟨runsEnd, [], 0, [], false⟩ := by
  refine (Transducer.call_of_stop (.inr rfl)).trans ?_
  rw [List.take_nil, List.drop_nil]

/-- The second call gets to the end of the stream. -/
theorem call_runs_middle (more : Bytes) :
    FixedRuns.transducer.call runsMiddle [] (runsStream.drop 9 ++ more) 131072 =
      ⟨runsEnd, [], 5, List.replicate 65538 0, false⟩ := by
  have hback : FixedRuns.runsOf runsMiddle (runsStream.drop 9) =
      some (runsEnd, [(65538, 0)]) := by decide +kernel
  have hfeed := FixedRuns.feed_eq hback
  rw [FixedRuns.expand_singleton] at hfeed
  rw [Transducer.call_feed hfeed (by rw [List.length_replicate]; decide), call_runs_end]
  dsimp only
  rw [List.append_nil]
  rfl

/-- The full decode: 196610 zero bytes. -/
theorem runs_decode (more : Bytes) :
    runsOutput runsCrates.inflater.new (runsStream ++ more) = some (List.replicate 196610 0) := by
  have hruns : FixedRuns.runsOf FixedRuns.new runsStream =
      some (runsEnd, [(1, 0), (65538, 0), (65533, 0), (65538, 0)]) := by decide +kernel
  have hexpand : FixedRuns.expand [(1, 0), (65538, 0), (65533, 0), (65538, 0)] =
      List.replicate 196610 0 := by
    refine (FixedRuns.expand_append [(1, 0), (65538, 0)] [(65533, 0), (65538, 0)]).trans ?_
    rw [FixedRuns.expand_pair, FixedRuns.expand_pair, List.replicate_append_replicate]
  have hfeed := FixedRuns.feed_eq hruns
  rw [hexpand] at hfeed
  have hend : FixedRuns.transducer.output runsEnd [] more = some [] := Transducer.output_of_done rfl _ _
  refine (Transducer.output_feed more hfeed).trans ?_
  rw [hend, Option.map_some, List.append_nil]

/-- The source of the index's reads at the points where it is read. -/
def runsRaw (pos : Nat) (inflater : Inflating FixedRuns.transducer) (buffered : Bytes) :
    RawInflate runsCrates :=
  ⟨runsArchive, pos, 131113, inflater, buffered⟩

@[simp] theorem runsRaw_inflater (pos : Nat) (inflater : Inflating FixedRuns.transducer)
    (buffered : Bytes) : (runsRaw pos inflater buffered).inflater = inflater := rfl

/-- A read of one round, from the call that the round makes. -/
theorem read_runs {pos pos' i o c : Nat} {s s' : FixedRuns} {b b' w : Bytes} (hle : pos ≤ 131113)
    (hin : (runsRaw pos ⟨s, [], i, o⟩ b).RefillInside)
    (hrefill : (runsRaw pos ⟨s, [], i, o⟩ b).refilled = runsRaw pos' ⟨s, [], i, o⟩ b')
    (hcall : FixedRuns.transducer.call s [] b' 131072 = ⟨s', [], c, w, false⟩)
    (hgo : w ≠ [] ∨ s'.ended = true) :
    (runsRaw pos ⟨s, [], i, o⟩ b).read ioChunk =
      .ok (w, runsRaw pos' ⟨s', [], i + c, o + w.length⟩ (b'.drop c)) := by
  have hinflated : (runsRaw pos ⟨s, [], i, o⟩ b).inflated ioChunk =
      ⟨⟨s', [], i + c, o + w.length⟩, c, w, false⟩ := by
    unfold RawInflate.inflated
    rw [hrefill, runsRaw_inflater, ioChunk_eq]
    exact Transducer.inflate_eq hcall
  have hround : (runsRaw pos ⟨s, [], i, o⟩ b).afterRound ioChunk =
      runsRaw pos' ⟨s', [], i + c, o + w.length⟩ (b'.drop c) := by
    unfold RawInflate.afterRound
    rw [hinflated, hrefill]
    rfl
  have hok : ((runsRaw pos ⟨s, [], i, o⟩ b).inflated ioChunk).dataError = false := by
    rw [hinflated]
  by_cases hw : w = []
  · have hended : s'.ended = true := hgo.resolve_left (not_not.2 hw)
    rw [RawInflate.read_finished (by decide) hle hin hok (by rw [hinflated, hw])
      (by rw [hinflated]; exact hended), hround, hw]
  · rw [RawInflate.read_written (by decide) hle hin hok (by rw [hinflated]; exact hw), hround,
      hinflated]

/-- A read that still has input. -/
theorem read_runs_buffered {pos i o c : Nat} {s s' : FixedRuns} {b w : Bytes} (hle : pos ≤ 131113)
    (hb : b ≠ []) (hcall : FixedRuns.transducer.call s [] b 131072 = ⟨s', [], c, w, false⟩)
    (hgo : w ≠ [] ∨ s'.ended = true) :
    (runsRaw pos ⟨s, [], i, o⟩ b).read ioChunk =
      .ok (w, runsRaw pos ⟨s', [], i + c, o + w.length⟩ (b.drop c)) :=
  read_runs hle (fun h => absurd h hb) (if_neg hb) hcall hgo

theorem replicate_ne_nil {n : Nat} (h : n ≠ 0) (b : UInt8) : List.replicate n b ≠ [] :=
  fun hnil => h ((List.replicate_eq_nil_iff b).1 hnil)

/-- The first read of the index reaches the last byte of the file. -/
theorem read_runs_start :
    (runsRaw 31 ⟨FixedRuns.new, [], 0, 0⟩ []).read ioChunk =
      .ok (List.replicate 131072 0,
        runsRaw 131103 ⟨runsMiddle, [], 9, 131072⟩ (runsStream.drop 9 ++ runsTail)) := by
  have hin : (runsRaw 31 ⟨FixedRuns.new, [], 0, 0⟩ []).RefillInside := by
    intro _ _
    show 31 + min (131113 - 31) ioChunk ≤ runsArchive.length
    rw [length_runsArchive]
    decide
  have hrefill : (runsRaw 31 ⟨FixedRuns.new, [], 0, 0⟩ []).refilled =
      runsRaw 131103 ⟨FixedRuns.new, [], 0, 0⟩ (runsStream ++ runsTail) := by
    show runsRaw (31 + 131072) _ (slice runsArchive 31 131072) = _
    rw [slice_runsArchive (Nat.le_refl _)]
    rfl
  have hread := read_runs (by decide) hin hrefill (call_runs_start runsTail)
    (.inl (replicate_ne_nil (by decide) 0))
  rwa [List.length_replicate, Nat.zero_add, Nat.zero_add] at hread

/-- The second read ends the decode, inside the first window. -/
theorem read_runs_middle :
    (runsRaw 131103 ⟨runsMiddle, [], 9, 131072⟩ (runsStream.drop 9 ++ runsTail)).read ioChunk =
      .ok (List.replicate 65538 0, runsRaw 131103 ⟨runsEnd, [], 14, 196610⟩ runsTail) := by
  have hcall := call_runs_middle runsTail
  have hread := read_runs_buffered (i := 9) (o := 131072) (show 131103 ≤ 131113 by decide)
    (fun h => by cases h) hcall (.inl (replicate_ne_nil (by decide) 0))
  rwa [List.length_replicate] at hread

theorem read_runs_end :
    (runsRaw 131103 ⟨runsEnd, [], 14, 196610⟩ runsTail).read ioChunk =
      .ok ([], runsRaw 131103 ⟨runsEnd, [], 14, 196610⟩ runsTail) := by
  have htail : runsTail ≠ [] := by
    intro h
    have hlen := length_runsTail
    rw [h] at hlen
    cases hlen
  exact read_runs_buffered (by decide) htail (call_runs_end runsTail 131072) (.inr rfl)

/-- A round of the indexing loop that decodes. -/
theorem buildLoop_read {fuel : Nat} {s : Indexing k} {w : Bytes} {raw : RawInflate k}
    (hread : s.raw.read ioChunk = .ok (w, raw)) (hw : w ≠ [])
    (hrange : s.totalOut + w.length ≤ u64Max) (hcap : s.totalOut + w.length ≤ caps.maxDecode) :
    buildLoop name ds interval caps (fuel + 1) s =
      capture name ds interval caps { s with totalOut := s.totalOut + w.length, raw } >>=
        buildLoop name ds interval caps fuel := by
  cases w with
  | nil => exact absurd rfl hw
  | cons b bs =>
    rw [buildLoop, hread]
    dsimp only
    rw [addU64_eq hrange, Res.bind_ok, if_neg (Nat.not_lt.2 hcap)]

/-- Its last round. -/
theorem buildLoop_end {fuel : Nat} {s : Indexing k} {raw : RawInflate k}
    (hread : s.raw.read ioChunk = .ok ([], raw)) :
    buildLoop name ds interval caps (fuel + 1) s = .ok { s with raw } := by
  rw [buildLoop, hread]

/-- A checkpoint that is taken and kept. -/
theorem capture_keep {s : Indexing k} {blob : Bytes} {pos : CheckpointPosition}
    (hdue : s.nextAt ≤ s.totalOut)
    (hcheckpoint : k.inflater.checkpoint s.raw.inflater = some (blob, pos))
    (hlater : s.lastOutputOffset < pos.outputBytesAlreadyReturned)
    (hbytes : s.indexBytes + blob.length ≤ u64Max)
    (hcap : s.indexBytes + blob.length ≤ caps.maxIndexBytes)
    (hinput : ds + pos.inputBytesToSkip ≤ u64Max)
    (hnext : max pos.outputBytesAlreadyReturned s.totalOut + interval ≤ u64Max) :
    capture name ds interval caps s = .ok
      { s with
        checkpoints := s.checkpoints ++
          [⟨pos.outputBytesAlreadyReturned, ds + pos.inputBytesToSkip, some blob⟩]
        lastOutputOffset := pos.outputBytesAlreadyReturned
        indexBytes := s.indexBytes + blob.length
        nextAt := max pos.outputBytesAlreadyReturned s.totalOut + interval } := by
  rw [capture, if_neg (Nat.not_lt.2 hdue), hcheckpoint]
  dsimp only
  rw [push, if_pos hlater, addU64_eq hbytes, Res.bind_ok, if_neg (Nat.not_lt.2 hcap),
    addU64_eq hinput, Res.bind_ok]
  dsimp only [pure, Except.pure]
  rw [Res.bind_ok, addU64_eq hnext, Res.bind_ok]

/-- The inflater between the second match and the third, as bytes. -/
def runsBlob : Bytes := leBytes 8 9 ++ (leBytes 8 131072 ++ FixedRuns.encode runsMiddle)

/-- The index at an interval of 131072 bytes. -/
def runsIndex : Deflate64Index := ⟨131113, 196610, [⟨0, 31, none⟩, ⟨131072, 40, some runsBlob⟩]⟩

theorem checkpoint_runs :
    runsCrates.inflater.checkpoint ⟨runsMiddle, [], 9, 131072⟩ = some (runsBlob, ⟨9, 131072⟩) := by
  show (if ([] : Bytes) = [] ∧ false = false ∧ 9 < 256 ^ 8 ∧ 131072 < 256 ^ 8 then
    some (runsBlob, CheckpointPosition.mk 9 131072) else none) = _
  exact if_pos (by decide)

/-- The first round of the index keeps a checkpoint, the second one comes too early for
the next. -/
theorem build_runs :
    buildIndexCapped runsCrates runsArchive "m" 31 131082 196610 131072 {} = .ok runsIndex := by
  have hstart : buildLoop "m" 31 131072 {} (maxDecode + 2) ⟨[⟨0, 31, none⟩], 0, 0, 0, 131072,
      runsRaw 31 ⟨FixedRuns.new, [], 0, 0⟩ []⟩ = _ :=
    buildLoop_read read_runs_start (replicate_ne_nil (by decide) 0)
      (by rw [List.length_replicate]; decide) (by rw [List.length_replicate]; decide)
  have hcapture : capture "m" 31 131072 {} ⟨[⟨0, 31, none⟩], 0, 0, 131072, 131072,
      runsRaw 131103 ⟨runsMiddle, [], 9, 131072⟩ (runsStream.drop 9 ++ runsTail)⟩ =
      .ok ⟨runsIndex.checkpoints, 131072, 23, 131072, 262144,
        runsRaw 131103 ⟨runsMiddle, [], 9, 131072⟩ (runsStream.drop 9 ++ runsTail)⟩ := by
    refine capture_keep (k := runsCrates) (s := ⟨[⟨0, 31, none⟩], 0, 0, 131072, 131072,
      runsRaw 131103 ⟨runsMiddle, [], 9, 131072⟩ (runsStream.drop 9 ++ runsTail)⟩)
      (Nat.le_refl _) checkpoint_runs ?_ ?_ ?_ ?_ ?_ <;> decide
  have hmiddle : buildLoop "m" 31 131072 {} (maxDecode + 1) ⟨runsIndex.checkpoints, 131072, 23,
      131072, 262144, runsRaw 131103 ⟨runsMiddle, [], 9, 131072⟩ (runsStream.drop 9 ++ runsTail)⟩ =
      _ :=
    buildLoop_read read_runs_middle (replicate_ne_nil (by decide) 0)
      (by rw [List.length_replicate]; decide) (by rw [List.length_replicate]; decide)
  have hearly : capture "m" 31 131072 {} ⟨runsIndex.checkpoints, 131072, 23, 196610, 262144,
      runsRaw 131103 ⟨runsEnd, [], 14, 196610⟩ runsTail⟩ =
      .ok ⟨runsIndex.checkpoints, 131072, 23, 196610, 262144,
        runsRaw 131103 ⟨runsEnd, [], 14, 196610⟩ runsTail⟩ := if_pos (by decide)
  have hend : buildLoop "m" 31 131072 {} (maxDecode) ⟨runsIndex.checkpoints, 131072, 23, 196610,
      262144, runsRaw 131103 ⟨runsEnd, [], 14, 196610⟩ runsTail⟩ = _ := buildLoop_end read_runs_end
  rw [List.length_replicate, Nat.zero_add, hcapture, Res.bind_ok, hmiddle, List.length_replicate,
    hearly, Res.bind_ok, hend] at hstart
  unfold buildIndexCapped
  rw [addU64_eq (by decide), Res.bind_ok]
  exact (congrArg (· >>= _) hstart).trans rfl

/-- A read of one byte from the second checkpoint: the window it starts with ends past
the end of the file. -/
theorem runs_readAt_short :
    runsIndex.readAt runsCrates runsArchive 1 131072 = Res.err .shortRead := by
  have hresume : Checkpoint.resume runsCrates ⟨131072, 40, some runsBlob⟩ =
      some ((⟨runsMiddle, [], 9, 131072⟩ : Inflating FixedRuns.transducer), 131072) := by
    have hrestore := (Transducer.restore_checkpoint checkpoint_runs).2.2
    exact congrArg (Option.map fun restored : Inflating FixedRuns.transducer × CheckpointPosition =>
      (restored.1, restored.2.outputBytesAlreadyReturned)) hrestore
  have hin : ¬ (runsRaw 40 ⟨runsMiddle, [], 9, 131072⟩ []).RefillInside := by
    intro h
    have hle : 40 + min (131113 - 40) ioChunk ≤ runsArchive.length := h rfl (by decide)
    rw [length_runsArchive] at hle
    exact absurd hle (by decide)
  have hread := RawInflate.read_short (n := 1) (by decide) (by decide) hin
  have hskip : skipLoop 0 0 (runsRaw 40 ⟨runsMiddle, [], 9, 131072⟩ []) = .ok _ := rfl
  have hwant : min (runsIndex.uncompressedSize - 131072) 1 = 1 :=
    Nat.min_eq_right (by decide)
  have hnearest : runsIndex.checkpoints[partitionPoint
      (fun c => decide (c.outputOffset ≤ 131072)) runsIndex.checkpoints - 1]? =
      some ⟨131072, 40, some runsBlob⟩ := rfl
  rw [readAt_from (by decide) (by decide) hnearest (Nat.le_refl _) hresume, hwant, Nat.sub_self]
  refine (congrArg (· >>= _) hskip).trans ?_
  rw [Res.bind_ok, fillLoop, if_pos (by decide), List.length_nil, Nat.sub_zero, hread]
  rfl

/-! ## The seek index -/

/-- **The seek index serves the full decode.** For every inflater with the documented
laws and every member whose index is built — at any interval, with any caps, and whatever
`checkpoint` answers — the index counts the bytes of the full decode `data`, its
checkpoints start at offset 0 and strictly increase, and a read at any offset into a
buffer of any length returns the bytes of `data` there exactly when its refills lie in
the file. They do whenever the file holds the member's declared range. `read_at` keeps
nothing from one read to the next. -/
theorem readAt_full_decode_iff (documented : k.inflater.Documented output)
    (hbuild : buildIndexCapped k file name ds cs us interval caps = .ok index) :
    ∃ data, output k.inflater.new (slice file ds cs) = some data ∧ data.length = us ∧
      index.checkpoints.head?.map Checkpoint.outputOffset = some 0 ∧
      (index.checkpoints.map Checkpoint.outputOffset).Pairwise (· < ·) ∧
      (∀ len offset, index.readAt k file len offset = .ok ((data.drop offset).take len) ↔
        index.ReadsInside k file len offset) ∧
      (ds + cs ≤ file.length → ∀ len offset, index.ReadsInside k file len offset) := by
  obtain ⟨hus, data, hsound⟩ := sound_of_build documented hbuild
  refine ⟨data, hsound.decodes, hsound.length_eq.trans hus, ?_, ?_, ?_, ?_⟩
  · rw [hsound.first]
    rfl
  · exact List.pairwise_map.2 hsound.increasing
  · exact hsound.readAt_iff documented.toStreamLaws
  · exact hsound.readsInside

/-- The index of the archive, read by the theorem. -/
theorem runs_readAt_full_decode_iff :
    ∃ data, runsOutput runsCrates.inflater.new (slice runsArchive 31 131082) = some data ∧
      data.length = 196610 ∧
      runsIndex.checkpoints.head?.map Checkpoint.outputOffset = some 0 ∧
      (runsIndex.checkpoints.map Checkpoint.outputOffset).Pairwise (· < ·) ∧
      (∀ len offset, runsIndex.readAt runsCrates runsArchive len offset =
        .ok ((data.drop offset).take len) ↔
          runsIndex.ReadsInside runsCrates runsArchive len offset) ∧
      (31 + 131082 ≤ runsArchive.length →
        ∀ len offset, runsIndex.ReadsInside runsCrates runsArchive len offset) :=
  readAt_full_decode_iff runs_documented build_runs

/-- With an interval of 131072 bytes the index of the archive is built, and a read of the
byte at 131072 fails: its checkpoint is 9 bytes into the member, so its first window ends
10 bytes behind the end of the file. -/
theorem runs_readAt_ne_full_decode :
    runsCrates.inflater.Documented runsOutput ∧
      buildIndexCapped runsCrates runsArchive "m" 31 131082 196610 131072 {} = .ok runsIndex ∧
      runsOutput runsCrates.inflater.new (slice runsArchive 31 131082) =
        some (List.replicate 196610 0) ∧
      runsIndex.readAt runsCrates runsArchive 1 131072 = Res.err .shortRead ∧
      runsIndex.readAt runsCrates runsArchive 1 131072 ≠
        .ok (((List.replicate 196610 0).drop 131072).take 1) := by
  refine ⟨runs_documented, build_runs, ?_, runs_readAt_short, ?_⟩
  · rw [slice_runsArchive (by decide)]
    exact runs_decode runsTail
  · rw [runs_readAt_short]
    intro h
    cases h

end Deflate64Index

end ZipForensic
