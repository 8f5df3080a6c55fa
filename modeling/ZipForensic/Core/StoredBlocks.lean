import ZipForensic.Core.StoredEntry
import ZipForensic.Deflate.StoredStream

/-!
# Stored-block random access reads what inflation yields

`indexStoredBlocks` and `StoredZipEntry.readAt` meet in one representation
invariant, `BlockRun file uoff blocks output`: the blocks follow each other in the
uncompressed entry from `uoff` on, and their bytes in the file make up `output`.

- `indexStoredBlocksLoop_spec`: round by round the index loop follows the
  reference inflater, and builds a `BlockRun` of its output.
- `readBlocksLoop_eq`: over a `BlockRun` the copy loop reads slices of the output.
- `storedBlocks_refine_inflate` puts the two together.
-/

namespace ZipForensic

/-- The blocks follow each other from `uoff` on in the uncompressed entry, and
their bytes in the file make up `output`. -/
inductive BlockRun (file : Bytes) : Nat → List StoredBlock → Bytes → Prop
  | nil (uoff : Nat) : BlockRun file uoff [] []
  | cons {b : StoredBlock} {blocks : List StoredBlock} {output : Bytes}
      (inside : b.fileOffset + b.len ≤ file.length)
      (rest : BlockRun file (b.uncompStart + b.len) blocks output) :
      BlockRun file b.uncompStart (b :: blocks) (slice file b.fileOffset b.len ++ output)

/-- The blocks tile `[uoff, total)` in order, without gap or overlap. -/
def Tiles : Nat → List StoredBlock → Nat → Prop
  | uoff, [], total => uoff = total
  | uoff, b :: blocks, total => b.uncompStart = uoff ∧ Tiles (uoff + b.len) blocks total

namespace Tiles

variable {uoff total cur : Nat} {blocks : List StoredBlock}

/-- No block starts before the run. -/
theorem le_uncompStart (h : Tiles uoff blocks total) : ∀ b ∈ blocks, uoff ≤ b.uncompStart := by
  induction blocks generalizing uoff with
  | nil => exact fun b hb => absurd hb List.not_mem_nil
  | cons b blocks ih =>
    obtain ⟨rfl, hrest⟩ := h
    intro c hc
    rcases List.mem_cons.1 hc with rfl | hc
    · exact Nat.le_refl _
    · exact Nat.le_trans (Nat.le_add_right _ _) (ih hrest c hc)

/-- The ends of the blocks do not decrease, so the search of `readAt` is a search
in a partitioned list. -/
theorem partitioned (h : Tiles uoff blocks total) (cur : Nat) :
    PartitionedBy (fun b => decide (b.uncompStart + b.len ≤ cur)) blocks := by
  induction blocks generalizing uoff with
  | nil => exact .nil
  | cons b blocks ih =>
    obtain ⟨rfl, hrest⟩ := h
    refine .cons (fun c hc hle => ?_) (ih hrest)
    have hstart := hrest.le_uncompStart c hc
    simp only [decide_eq_true_eq] at hle ⊢
    omega

/-- The block the search finds is the one that holds `cur`. -/
theorem find (h : Tiles uoff blocks total) (hlow : uoff ≤ cur) {b : StoredBlock}
    (hget : blocks[blocks.findIdx fun b => !decide (b.uncompStart + b.len ≤ cur)]? = some b) :
    b.uncompStart ≤ cur ∧ cur < b.uncompStart + b.len := by
  induction blocks generalizing uoff with
  | nil => cases hget
  | cons c blocks ih =>
    obtain ⟨rfl, hrest⟩ := h
    by_cases hcur : c.uncompStart + c.len ≤ cur
    · exact ih hrest hcur (by simpa [List.findIdx_cons, hcur] using hget)
    · obtain rfl : c = b := by simpa [List.findIdx_cons, hcur] using hget
      exact ⟨hlow, Nat.lt_of_not_le hcur⟩

end Tiles

namespace BlockRun

variable {file output : Bytes} {uoff cur : Nat} {blocks : List StoredBlock}

theorem tiles (h : BlockRun file uoff blocks output) :
    Tiles uoff blocks (uoff + output.length) := by
  induction h with
  | nil uoff => rfl
  | cons inside rest ih =>
    refine ⟨rfl, ?_⟩
    rw [List.length_append, length_slice inside, ← Nat.add_assoc]
    exact ih

/-- The first block that ends behind `cur` holds the output from `cur` on. -/
theorem find (h : BlockRun file uoff blocks output) (hlow : uoff ≤ cur)
    (hhigh : cur < uoff + output.length) :
    ∃ b, blocks[blocks.findIdx fun b => !decide (b.uncompStart + b.len ≤ cur)]? = some b ∧
      b.uncompStart ≤ cur ∧ cur < b.uncompStart + b.len ∧
      b.fileOffset + b.len ≤ file.length ∧
      ∀ n, n ≤ b.uncompStart + b.len - cur →
        slice file (b.fileOffset + (cur - b.uncompStart)) n = slice output (cur - uoff) n := by
  induction h with
  | nil uoff =>
    rw [List.length_nil] at hhigh
    omega
  | @cons b blocks output inside rest ih =>
    have hlen := length_slice inside
    by_cases hcur : b.uncompStart + b.len ≤ cur
    · -- `cur` lies behind the first block
      rw [List.length_append, hlen] at hhigh
      obtain ⟨c, hget, hc₁, hc₂, hc₃, hslice⟩ := ih hcur (by omega)
      refine ⟨c, ?_, hc₁, hc₂, hc₃, fun n hn => ?_⟩
      · simpa [List.findIdx_cons, hcur] using hget
      · have hoff : cur - b.uncompStart = (slice file b.fileOffset b.len).length +
            (cur - (b.uncompStart + b.len)) := by omega
        rw [hslice n hn, hoff, slice_append_right]
    · refine ⟨b, ?_, hlow, by omega, inside, fun n hn => ?_⟩
      · simp [List.findIdx_cons, hcur]
      · rw [slice_append_left _ (by omega), slice_slice (by omega)]

end BlockRun

/-! ## Reading -/

theorem preadExact_eq {file : Bytes} {n offset : Nat} (h : offset + n ≤ file.length) :
    preadExact file n offset = .ok (slice file offset n) := by
  unfold preadExact
  by_cases hn : n = 0
  · rw [if_pos hn, hn]
    rfl
  · rw [if_neg hn, if_pos h]

/-- Over a run of blocks the copy loop reads a slice of the output. -/
theorem readBlocksLoop_eq {file output : Bytes} {blocks : List StoredBlock} {wantEnd : Nat}
    (hrun : BlockRun file 0 blocks output) (hfile : file.length ≤ isizeMax)
    (hend : wantEnd ≤ output.length) {fuel cur : Nat} (hfuel : wantEnd - cur ≤ fuel)
    (filled : Bytes) :
    StoredZipEntry.readBlocksLoop file blocks wantEnd fuel cur filled =
      .ok (filled ++ slice output cur (wantEnd - cur)) := by
  induction fuel generalizing cur filled with
  | zero =>
    have h0 : wantEnd - cur = 0 := by omega
    simp [StoredZipEntry.readBlocksLoop, h0, slice]
  | succ fuel ih =>
    rw [StoredZipEntry.readBlocksLoop]
    by_cases hcur : cur < wantEnd
    · obtain ⟨b, hget, hstart, hstop, hinside, hslice⟩ :=
        hrun.find (Nat.zero_le cur) (by omega)
      rw [if_pos hcur, partitionPoint_eq (hrun.tiles.partitioned cur)]
      simp only [hget]
      have hn : min (b.len - (cur - b.uncompStart)) (wantEnd - cur) ≤
          b.uncompStart + b.len - cur := by omega
      unfold isizeMax at hfile
      rw [subU64_eq hstart, Res.bind_ok, subU64_eq (by omega), Res.bind_ok,
        addU64_eq (by unfold u64Max; omega), Res.bind_ok, preadExact_eq (by omega), Res.bind_ok,
        ih (by omega), hslice _ hn, Nat.sub_zero, List.append_assoc, slice_add]
      congr 3
      omega
    · have h0 : wantEnd - cur = 0 := by omega
      rw [if_neg hcur, h0]
      simp [slice]

/-- Random access over a run of blocks: the buffer is filled with the output from
`offset` on, short at its end. -/
theorem readAt_storedBlocks (k : Crates) {file output : Bytes} {blocks : List StoredBlock}
    (hrun : BlockRun file 0 blocks output) (hfile : file.length ≤ isizeMax)
    (hout : output.length ≤ isizeMax) {len : Nat} (hlen : len ≤ isizeMax) (offset : Nat) :
    StoredZipEntry.readAt k ⟨file, output.length, .storedBlocks blocks⟩ len offset =
      .ok (slice output offset len) := by
  rw [StoredZipEntry.readAt]
  by_cases hdone : output.length ≤ offset ∨ len = 0
  · rw [if_pos hdone]
    rcases hdone with h | rfl
    · simp [slice, List.drop_eq_nil_of_le h]
    · simp [slice]
  · rw [if_neg hdone]
    unfold isizeMax at hout hlen
    rw [addU64_eq (by unfold u64Max; omega), Res.bind_ok]
    dsimp only
    rw [subU64_eq (by omega), Res.bind_ok, readBlocksLoop_eq hrun hfile (Nat.min_le_right _ _) (Nat.le_refl _), List.nil_append]
    congr 1
    have htake : (output.drop offset).length ≤ len ∨ min (offset + len) output.length - offset = len := by
      rw [List.length_drop]
      omega
    rcases htake with h | h
    · rw [slice, slice, List.take_of_length_le h, List.take_of_length_le]
      rw [List.length_drop] at h ⊢
      omega
    · rw [h]

/-! ## Indexing -/

theorem bfinal_iff (header : UInt8) : header &&& 1 = 1 ↔ header.toNat % 2 = 1 := by
  rw [← UInt8.toNat_inj, UInt8.toNat_and]
  simp [Nat.and_one_is_mod]

theorem btype_iff (header : UInt8) :
    (header >>> 1) &&& 0b11 = 0 ↔ header.toNat / 2 % 4 = 0 := by
  rw [← UInt8.toNat_inj, UInt8.toNat_and, UInt8.toNat_shiftRight]
  have h := Nat.and_two_pow_sub_one_eq_mod (header.toNat >>> 1) 2
  simp only [Nat.shiftRight_eq_div_pow] at h ⊢
  simpa using Eq.congr h rfl

/-- What the index loop answers, given how the reference inflater ends. -/
def IndexFollows (file : Bytes) (uoff : Nat) (blocks : List StoredBlock) :
    Inflated → Res ZipCoreError (Option (List StoredBlock × Nat)) → Prop
  | .done output _, r => ∃ new, r = .ok (some (blocks ++ new, uoff + output.length)) ∧
      BlockRun file uoff new output
  | .nonStored, r => r = .ok none
  | _, r => ∀ x, r ≠ .ok (some x)

theorem IndexFollows.prepend {file data : Bytes} {uoff : Nat} {blocks : List StoredBlock}
    {b : StoredBlock} (hb : b.uncompStart = uoff) (hinside : b.fileOffset + b.len ≤ file.length)
    (hdata : slice file b.fileOffset b.len = data) {x : Inflated}
    {r : Res ZipCoreError (Option (List StoredBlock × Nat))}
    (h : IndexFollows file (uoff + b.len) (blocks ++ [b]) x r) :
    IndexFollows file uoff blocks (x.prepend data) r := by
  cases x with
  | done output rest =>
    obtain ⟨new, rfl, hrun⟩ := h
    refine ⟨b :: new, ?_, ?_⟩
    · rw [List.append_assoc, List.length_append, ← hdata, length_slice hinside, ← Nat.add_assoc]
      rfl
    · subst hb hdata
      exact .cons hinside hrun
  | nonStored => exact h
  | malformed => exact h
  | truncated => exact h

/-- Fewer than five bytes are left: neither finds another block. -/
theorem indexStoredBlocksLoop_short {file : Bytes} {endOff foff : Nat} (hend : endOff ≤ file.length)
    (hfile : file.length ≤ isizeMax) (hfoff : foff ≤ endOff) (hshort : endOff < foff + 5)
    (name : String) (fuel uoff : Nat) (blocks : List StoredBlock) :
    IndexFollows file uoff blocks
      (inflateStoredBits (fuel + 1) (bitsOf (slice file foff (endOff - foff))))
      (indexStoredBlocksLoop file name endOff (fuel + 1) foff uoff blocks) := by
  have hlen : (slice file foff (endOff - foff)).length = endOff - foff := length_slice (by omega)
  unfold isizeMax at hfile
  rw [indexStoredBlocksLoop, inflateStoredBits_bytes, addU64_eq (by unfold u64Max; omega),
    Res.bind_ok, if_pos hshort]
  rcases hs : slice file foff (endOff - foff) with _ | ⟨header, body⟩
  · exact fun x => by simp [pure, Except.pure]
  · dsimp only
    rw [hs, List.length_cons] at hlen
    by_cases htype : header.toNat / 2 % 4 ≠ 0
    · rw [if_pos htype]
      rfl
    · rw [if_neg htype, if_pos (by omega)]
      exact fun x => by simp [pure, Except.pure]

section Header

variable {file tail : Bytes} {header : UInt8} {foff uoff endOff : Nat}
  (hdrop : file.drop foff = header :: tail)
include hdrop

theorem slice_behind_header (i n : Nat) : slice tail i n = slice file (foff + 1 + i) n := by
  have htail : tail = file.drop (foff + 1) := by
    rw [← List.drop_drop, hdrop]
    rfl
  rw [slice, slice, htail, List.drop_drop]

theorem slice_from_header {n : Nat} (hn : 0 < n) :
    slice file foff n = header :: slice tail 0 (n - 1) := by
  obtain ⟨m, rfl⟩ : ∃ m, n = m + 1 := ⟨n - 1, by omega⟩
  rw [slice, hdrop]
  rfl

variable (hroom : foff + 5 ≤ endOff) (hend : endOff ≤ file.length)
include hroom hend

theorem length_behind_header : (slice tail 0 (endOff - foff - 1)).length = endOff - foff - 1 := by
  rw [slice_behind_header hdrop]
  exact length_slice (by omega)

/-- A round of the reference inflater, over a whole header. -/
theorem inflateStoredBits_round (fuel : Nat) :
    inflateStoredBits (fuel + 1) (bitsOf (slice file foff (endOff - foff))) =
      if header.toNat / 2 % 4 ≠ 0 then .nonStored
      else if leNat (slice tail 2 2) ≠ 0xFFFF - leNat (slice tail 0 2) then .malformed
      else if endOff < foff + 5 + leNat (slice tail 0 2) then .truncated
      else if header.toNat % 2 = 1 then
        .done (slice file (foff + 5) (leNat (slice tail 0 2)))
          (bitsOf (slice file (foff + 5 + leNat (slice tail 0 2))
            (endOff - (foff + 5 + leNat (slice tail 0 2)))))
      else
        (inflateStoredBits fuel (bitsOf (slice file (foff + 5 + leNat (slice tail 0 2))
          (endOff - (foff + 5 + leNat (slice tail 0 2)))))).prepend
            (slice file (foff + 5) (leNat (slice tail 0 2))) := by
  have hlen := length_behind_header hdrop hroom hend
  have hlow : (slice tail 0 (endOff - foff - 1)).take 2 = slice tail 0 2 := slice_take (by omega)
  have hhigh : slice (slice tail 0 (endOff - foff - 1)) 2 2 = slice tail 2 2 := by
    rw [slice_slice (by omega), Nat.zero_add]
  rw [inflateStoredBits_bytes, slice_from_header hdrop (by omega)]
  dsimp only
  rw [hlow, hhigh, if_neg (c := _ < 4) (by omega), show 2 ^ 16 - 1 = 0xFFFF from rfl, hlen]
  generalize leNat (slice tail 0 2) = len
  by_cases hover : endOff < foff + 5 + len
  · rw [if_pos (c := _ < 4 + len) (by omega), if_pos hover]
  · have hdata : slice (slice tail 0 (endOff - foff - 1)) 4 len = slice file (foff + 5) len := by
      rw [slice_slice (by omega), slice_behind_header hdrop]
    have hrest : (slice tail 0 (endOff - foff - 1)).drop (4 + len) =
        slice file (foff + 5 + len) (endOff - (foff + 5 + len)) := by
      rw [slice_drop, slice_behind_header hdrop]
      congr 1 <;> omega
    rw [if_neg (c := _ < 4 + len) (by omega), if_neg hover, hdata, hrest]

/-- A round of the index loop, over a whole header. -/
theorem indexStoredBlocksLoop_round (hfile : file.length ≤ isizeMax) (huoff : uoff ≤ foff)
    (name : String) (fuel : Nat) (blocks : List StoredBlock) :
    indexStoredBlocksLoop file name endOff (fuel + 1) foff uoff blocks =
      if header.toNat / 2 % 4 ≠ 0 then .ok none
      else if leNat (slice tail 2 2) ≠ 0xFFFF - leNat (slice tail 0 2) then
        Res.err (.malformed name s!"stored block LEN/NLEN mismatch at file offset {foff}")
      else if endOff < foff + 5 + leNat (slice tail 0 2) then
        Res.err (.malformed name
          s!"stored block overruns compressed data at offset {foff + 5}")
      else if header.toNat % 2 = 1 then
        .ok (some (blocks ++ [⟨uoff, leNat (slice tail 0 2), foff + 5⟩],
          uoff + leNat (slice tail 0 2)))
      else
        indexStoredBlocksLoop file name endOff fuel (foff + 5 + leNat (slice tail 0 2))
          (uoff + leNat (slice tail 0 2))
          (blocks ++ [⟨uoff, leNat (slice tail 0 2), foff + 5⟩]) := by
  have hlow : slice (header :: slice tail 0 4) 1 2 = slice tail 0 2 := slice_take (by omega)
  have hhigh : slice (header :: slice tail 0 4) 3 2 = slice tail 2 2 := by
    show slice (slice tail 0 4) 2 2 = slice tail 2 2
    rw [slice_slice (by omega), Nat.zero_add]
  have hlt := leNat_slice_lt tail 0 2
  unfold isizeMax at hfile
  rw [indexStoredBlocksLoop, addU64_eq (by unfold u64Max; omega), Res.bind_ok,
    if_neg (Nat.not_lt.2 hroom), preadExact_eq (by omega), slice_from_header hdrop (by decide)]
  dsimp only
  rw [show 5 - 1 = 4 from rfl, hlow, hhigh, List.getD_cons_zero]
  generalize leNat (slice tail 0 2) = len at hlt
  simp only [ne_eq, btype_iff, bfinal_iff]
  rw [addU64_eq (by unfold u64Max; omega), Res.bind_ok, addU64_eq (by unfold u64Max; omega),
    Res.bind_ok]
  rfl

end Header

/-- Round by round, the index loop follows the reference inflater. -/
theorem indexStoredBlocksLoop_spec {file : Bytes} (name : String) {endOff : Nat}
    (hend : endOff ≤ file.length) (hfile : file.length ≤ isizeMax) (fuel : Nat) {foff uoff : Nat}
    (hfoff : foff ≤ endOff) (huoff : uoff ≤ foff) (hfuel : endOff - foff < 5 * fuel)
    (blocks : List StoredBlock) :
    IndexFollows file uoff blocks
      (inflateStoredBits fuel (bitsOf (slice file foff (endOff - foff))))
      (indexStoredBlocksLoop file name endOff fuel foff uoff blocks) := by
  induction fuel generalizing foff uoff blocks with
  | zero => omega
  | succ fuel ih =>
    by_cases hshort : endOff < foff + 5
    · exact indexStoredBlocksLoop_short hend hfile hfoff hshort name fuel uoff blocks
    · have hroom := Nat.not_lt.1 hshort
      obtain ⟨header, tail, hdrop⟩ : ∃ header tail, file.drop foff = header :: tail := by
        refine List.exists_cons_of_ne_nil (List.ne_nil_of_length_pos ?_)
        rw [List.length_drop]
        omega
      rw [inflateStoredBits_round hdrop hroom hend,
        indexStoredBlocksLoop_round hdrop hroom hend hfile huoff]
      generalize leNat (slice tail 0 2) = len
      by_cases htype : header.toNat / 2 % 4 ≠ 0
      · rw [if_pos htype, if_pos htype]
        rfl
      · rw [if_neg htype, if_neg htype]
        by_cases hnlen : leNat (slice tail 2 2) ≠ 0xFFFF - len
        · rw [if_pos hnlen, if_pos hnlen]
          exact fun x => by simp [Res.err]
        · rw [if_neg hnlen, if_neg hnlen]
          by_cases hover : endOff < foff + 5 + len
          · rw [if_pos hover, if_pos hover]
            exact fun x => by simp [Res.err]
          · rw [if_neg hover, if_neg hover]
            have hinside : foff + 5 + len ≤ file.length := by omega
            by_cases hfinal : header.toNat % 2 = 1
            · rw [if_pos hfinal, if_pos hfinal]
              refine ⟨[⟨uoff, len, foff + 5⟩], ?_, ?_⟩
              · rw [length_slice hinside]
              · have hcons := BlockRun.cons (b := ⟨uoff, len, foff + 5⟩) hinside (.nil _)
                rwa [List.append_nil] at hcons
            · rw [if_neg hfinal, if_neg hfinal]
              have hnext := @ih (foff + 5 + len) (uoff + len) (by omega) (by omega)
                (by omega) (blocks ++ [⟨uoff, len, foff + 5⟩])
              exact hnext.prepend rfl hinside rfl

/-- `index_stored_blocks`, by how the reference inflater ends on the entry's bytes. -/
theorem indexStoredBlocks_follows {file : Bytes} (name : String) {dataStart compressedSize : Nat}
    (hin : dataStart + compressedSize ≤ file.length) (hfile : file.length ≤ isizeMax) :
    ∃ r, IndexFollows file 0 [] (inflateStored (slice file dataStart compressedSize)) r ∧
      ∀ uncompressedSize, indexStoredBlocks file name dataStart compressedSize uncompressedSize =
        (r >>= fun index =>
          match index with
          | none => .ok none
          | some (blocks, uoff) =>
            if uoff ≠ uncompressedSize then
              Res.err (.malformed name
                s!"stored-block total {uoff} != entry uncompressed size {uncompressedSize}")
            else .ok (some blocks)) := by
  have hloop := indexStoredBlocksLoop_spec name hin hfile
    (compressedSize / 5 + 1) (Nat.le_add_right _ _) (Nat.zero_le _) (by omega) []
  rw [Nat.add_sub_cancel_left] at hloop
  refine ⟨_, by rwa [inflateStored, length_slice hin], fun uncompressedSize => ?_⟩
  unfold isizeMax at hfile
  rw [indexStoredBlocks, addU64_eq (by unfold u64Max; omega), Res.bind_ok]
  rfl

/-! ## The refinement -/

/-- An index is built only of a complete stream of stored blocks, which random
access then reads as inflation would; every such stream of the declared size has
one; and a block that is not stored ends the walk without one. -/
theorem storedBlocks_refine_inflate (k : Crates) {file : Bytes} (name : String)
    {dataStart compressedSize : Nat} (uncompressedSize : Nat)
    (hin : dataStart + compressedSize ≤ file.length) (hfile : file.length ≤ isizeMax) :
    (∀ blocks, indexStoredBlocks file name dataStart compressedSize uncompressedSize =
        .ok (some blocks) →
      ∃ output rest,
        inflateStored (slice file dataStart compressedSize) = .done output rest ∧
        output.length = uncompressedSize ∧ Tiles 0 blocks uncompressedSize ∧
        ∀ len offset, len ≤ isizeMax →
          ∃ bytes, StoredZipEntry.readAt k ⟨file, uncompressedSize, .storedBlocks blocks⟩
              len offset = .ok bytes ∧
            bytes.length = min len (output.length - offset) ∧ bytes = slice output offset len) ∧
    (∀ output rest, inflateStored (slice file dataStart compressedSize) = .done output rest →
      output.length = uncompressedSize →
      ∃ blocks, indexStoredBlocks file name dataStart compressedSize uncompressedSize =
        .ok (some blocks)) ∧
    (inflateStored (slice file dataStart compressedSize) = .nonStored →
      indexStoredBlocks file name dataStart compressedSize uncompressedSize = .ok none) := by
  obtain ⟨r, hfollows, hindex⟩ := indexStoredBlocks_follows name hin hfile
  rw [hindex]
  refine ⟨fun blocks hblocks => ?_, fun output rest hdone hsize => ?_, fun hnon => ?_⟩
  · -- an index comes from a finished inflation
    rcases r with e | _ | ⟨blocks', uoff⟩
    · cases hblocks
    · cases hblocks
    · cases hinf : inflateStored (slice file dataStart compressedSize) with
      | done output rest =>
        rw [hinf] at hfollows
        obtain ⟨new, hr, hrun⟩ := hfollows
        obtain ⟨rfl, rfl⟩ : blocks' = new ∧ uoff = output.length := by simpa using hr
        by_cases hsize : output.length = uncompressedSize
        · subst hsize
          obtain rfl : blocks' = blocks := by simpa [bind, Except.bind] using hblocks
          have hout : output.length ≤ isizeMax := by
            have h := length_output_le hinf
            rw [length_slice hin] at h
            omega
          refine ⟨output, rest, rfl, rfl, by simpa using hrun.tiles, fun len offset hlen => ?_⟩
          refine ⟨_, readAt_storedBlocks k hrun hfile hout hlen offset, ?_, rfl⟩
          rw [slice, List.length_take, List.length_drop]
        · simp [bind, Except.bind, hsize, Res.err] at hblocks
      | nonStored =>
        rw [hinf] at hfollows
        cases hfollows
      | malformed =>
        rw [hinf] at hfollows
        exact absurd rfl (hfollows _)
      | truncated =>
        rw [hinf] at hfollows
        exact absurd rfl (hfollows _)
  · rw [hdone] at hfollows
    obtain ⟨new, rfl, -⟩ := hfollows
    refine ⟨new, ?_⟩
    simp [bind, Except.bind, hsize]
  · rw [hnon] at hfollows
    obtain rfl : r = .ok none := hfollows
    rfl

/-- A two-byte entry in two stored blocks, the final one empty, behind one other byte. -/
def twoBlockFile : Bytes :=
  [0xAA, 0x00, 0x02, 0x00, 0xFD, 0xFF, 0x68, 0x69, 0x01, 0x00, 0x00, 0xFF, 0xFF]

theorem twoBlockFile_reads_back :
    ∃ blocks, indexStoredBlocks twoBlockFile "hi" 1 12 2 = .ok (some blocks) ∧
      ∃ output, output.length = 2 ∧
        ∃ bytes, StoredZipEntry.readAt .plain ⟨twoBlockFile, 2, .storedBlocks blocks⟩ 5 1 =
          .ok bytes ∧ bytes = slice output 1 5 := by
  have h := @storedBlocks_refine_inflate .plain twoBlockFile "hi" 1 12 2 (by decide) (by decide)
  obtain ⟨blocks, hblocks⟩ := h.2.1 [0x68, 0x69] [] (by decide) rfl
  obtain ⟨output, rest, -, hlen, -, hread⟩ := h.1 blocks hblocks
  obtain ⟨bytes, hbytes, -, heq⟩ := hread 5 1 (by decide)
  exact ⟨blocks, hblocks, output, hlen, bytes, hbytes, heq⟩

end ZipForensic
