import ZipForensic.Core.FallbackReads
import ZipForensic.Core.ParserBounds
import ZipForensic.Core.SeekIndex

/-!
# The arithmetic of random access

Which sums and differences of `open_entry` and of a positioned read leave their range.

- `indexStoredBlocksLoop_inRange`, `inRange_buildLoop`: with the end of the member's data in
  range, the walk over its blocks and the checkpoint index stay in range.
- `Tiles.inRange_readBlocksLoop`, `Sound.inRange_readAt`: so do the reads of either index.
- `randomAccess_inRange_iff`: what is left are three unchecked sums, of the member's start
  and its compressed size, of the offset and the length of a read, and of the start and the
  offset in a stored member.
-/

namespace ZipForensic

open Res (InRange)

variable {k : Crates}

/-! ## Single operations -/

section Operations

variable {ε α : Type}

theorem inRange_addU64_iff {a b : Nat} : (addU64 a b : Res ε Nat).InRange ↔ a + b ≤ u64Max := by
  unfold addU64
  split_ifs with h
  · exact iff_of_true (.ok _) h
  · exact iff_of_false (fun hin => hin rfl) h

theorem inRange_addU64_bind_iff {a b : Nat} {f : Nat → Res ε α} :
    (addU64 a b >>= f).InRange ↔ a + b ≤ u64Max ∧ (f (a + b)).InRange := by
  by_cases h : a + b ≤ u64Max
  · rw [addU64_eq h, Res.bind_ok, and_iff_right h]
  · refine iff_of_false (fun hin => hin ?_) fun hin => h hin.1
    rw [addU64, if_neg h]
    rfl

theorem inRange_preadExact (file : Bytes) (n offset : Nat) :
    (preadExact file n offset).InRange := by
  unfold preadExact
  exact .ite (fun _ => .ok _) fun _ => .ite (fun _ => .ok _) fun _ => .err _

theorem le_length_of_preadExact {file bytes : Bytes} {n offset : Nat} (hn : n ≠ 0)
    (h : preadExact file n offset = .ok bytes) : offset + n ≤ file.length := by
  unfold preadExact at h
  rw [if_neg hn] at h
  split_ifs at h with hin
  · exact hin
  · cases h

end Operations

/-! ## The walk over stored blocks -/

section Blocks

variable {file : Bytes} {name : String} {endOff : Nat}

/-- The length field of a block header is 16 bits wide. -/
theorem leNat_slice_two_le (b : Bytes) (i : Nat) : leNat (slice b i 2) ≤ 0xFFFF :=
  Nat.le_of_lt_succ (leNat_slice_lt b i 2)

/-- A walk to an end in range stays in range: every header it goes on from is in the file. -/
theorem indexStoredBlocksLoop_inRange (hfile : file.length ≤ isizeMax) (fuel : Nat)
    {foff uoff : Nat} (hfoff : foff ≤ file.length + 0xFFFF) (huoff : uoff ≤ foff)
    (blocks : List StoredBlock) :
    (indexStoredBlocksLoop file name endOff fuel foff uoff blocks).InRange := by
  induction fuel generalizing foff uoff blocks with
  | zero => exact .ok _
  | succ fuel ih =>
    unfold isizeMax at hfile
    rw [indexStoredBlocksLoop, inRange_addU64_bind_iff]
    refine ⟨by unfold u64Max; omega, .ite (fun _ => .ok _) fun _ => ?_⟩
    rcases hread : preadExact file 5 foff with (e | _) | hdr
    · exact .err _
    · exact absurd hread (inRange_preadExact _ _ _)
    · have hin := le_length_of_preadExact (by decide) hread
      have hlen := leNat_slice_two_le hdr 1
      refine .ite (fun _ => .ok _) fun _ => .ite (fun _ => .err _) fun _ => ?_
      rw [inRange_addU64_bind_iff]
      refine ⟨by unfold u64Max; omega, .ite (fun _ => .err _) fun _ => ?_⟩
      dsimp only
      rw [inRange_addU64_bind_iff]
      refine ⟨by unfold u64Max; omega, .ite (fun _ => .ok _) fun _ => ?_⟩
      exact ih (by omega) (by omega) _

/-- The blocks of a walk tile the member, and their ends in the file are in range. -/
theorem of_indexStoredBlocksLoop {fuel foff uoff total : Nat} {blocks found : List StoredBlock}
    (h : indexStoredBlocksLoop file name endOff fuel foff uoff blocks = .ok (some (found, total))) :
    ∃ new, found = blocks ++ new ∧ Tiles uoff new total ∧
      ∀ b ∈ new, b.fileOffset + b.len ≤ u64Max := by
  induction fuel generalizing foff uoff blocks with
  | zero => cases h
  | succ fuel ih =>
    rw [indexStoredBlocksLoop] at h
    obtain ⟨dataOff, -, h⟩ := Res.of_bind_ok h
    by_cases hend : endOff < dataOff
    · rw [if_pos hend] at h
      cases h
    · rw [if_neg hend] at h
      rcases hread : preadExact file 5 foff with (e | _) | hdr
      · rw [hread] at h
        cases h
      · rw [hread] at h
        cases h
      · rw [hread] at h
        dsimp only at h
        by_cases htype : hdr.getD 0 0 >>> 1 &&& 0b11 ≠ 0
        · rw [if_pos htype] at h
          cases h
        · by_cases hlen : leNat (slice hdr 3 2) ≠ 0xFFFF - leNat (slice hdr 1 2)
          · rw [if_neg htype, if_pos hlen] at h
            cases h
          · rw [if_neg htype, if_neg hlen] at h
            obtain ⟨next, hnext, h⟩ := Res.of_bind_ok h
            by_cases hover : endOff < next
            · rw [if_pos hover] at h
              cases h
            · rw [if_neg hover] at h
              obtain ⟨stop, hstop, h⟩ := Res.of_bind_ok h
              have hfit := (of_addU64_ok hnext).1
              obtain rfl := (of_addU64_ok hstop).2
              split_ifs at h
              · obtain ⟨rfl, rfl⟩ := Prod.mk.inj (Option.some.inj (Except.ok.inj h))
                exact ⟨_, rfl, ⟨rfl, rfl⟩, fun b hb => by rwa [List.mem_singleton.1 hb]⟩
              · obtain ⟨new, rfl, htiles, hfits⟩ := ih h
                refine ⟨_ :: new, List.append_assoc _ _ _, ⟨rfl, htiles⟩, fun b hb => ?_⟩
                rcases List.mem_cons.1 hb with rfl | hb
                · exact hfit
                · exact hfits b hb

/-- The index is built in range exactly when the end of the member's data is in range. -/
theorem indexStoredBlocks_inRange_iff (hfile : file.length ≤ isizeMax) {start : Nat}
    (hstart : start ≤ file.length + 0xFFFF) (name : String) (csize usize : Nat) :
    (indexStoredBlocks file name start csize usize).InRange ↔ start + csize ≤ u64Max := by
  unfold indexStoredBlocks
  rw [inRange_addU64_bind_iff, and_iff_left]
  refine .bind (indexStoredBlocksLoop_inRange hfile _ hstart (Nat.zero_le _) _) fun found _ => ?_
  cases found with
  | none => exact .ok _
  | some x => exact .ite (fun _ => .err _) fun _ => .ok _

theorem of_indexStoredBlocks {start csize usize : Nat} {blocks : List StoredBlock}
    (h : indexStoredBlocks file name start csize usize = .ok (some blocks)) :
    Tiles 0 blocks usize ∧ ∀ b ∈ blocks, b.fileOffset + b.len ≤ u64Max := by
  unfold indexStoredBlocks at h
  obtain ⟨stop, -, h⟩ := Res.of_bind_ok h
  obtain ⟨found, hloop, h⟩ := Res.of_bind_ok h
  cases found with
  | none => cases h
  | some x =>
    obtain ⟨found, total⟩ := x
    dsimp only at h
    by_cases hsize : total ≠ usize
    · rw [if_pos hsize] at h
      cases h
    · rw [if_neg hsize] at h
      obtain rfl := Option.some.inj (Except.ok.inj h)
      obtain ⟨new, rfl, htiles, hfits⟩ := of_indexStoredBlocksLoop hloop
      exact ⟨not_not.1 hsize ▸ htiles, hfits⟩

/-- Reading tiles whose ends in the file are in range. -/
theorem Tiles.inRange_readBlocksLoop {blocks : List StoredBlock} {total : Nat}
    (h : Tiles 0 blocks total) (hfits : ∀ b ∈ blocks, b.fileOffset + b.len ≤ u64Max)
    (wantEnd fuel cur : Nat) (filled : Bytes) :
    (StoredZipEntry.readBlocksLoop file blocks wantEnd fuel cur filled).InRange := by
  induction fuel generalizing cur filled with
  | zero => exact .ok _
  | succ fuel ih =>
    rw [StoredZipEntry.readBlocksLoop]
    refine .ite (fun hcur => ?_) fun _ => .ok _
    dsimp only
    rw [partitionPoint_eq (h.partitioned cur)]
    split
    · exact .ok _
    · next b hget =>
      obtain ⟨hlow, hhigh⟩ := h.find (Nat.zero_le cur) hget
      have hfit := hfits b (List.mem_of_getElem? hget)
      rw [subU64_eq hlow, Res.bind_ok, subU64_eq (by omega), Res.bind_ok, inRange_addU64_bind_iff]
      exact ⟨by omega, .bind (inRange_preadExact _ _ _) fun bytes _ => ih _ _⟩

end Blocks

/-! ## The checkpoint index -/

/-- A checkpoint is a `Vec<u8>`. -/
def Inflater.BlobsFit (I : Inflater) : Prop :=
  ∀ {s blob pos}, I.checkpoint s = some (blob, pos) → blob.length ≤ isizeMax

namespace Deflate64Index

variable {output : k.inflater.State → Bytes → Option Bytes} {file stream out : Bytes}
  {name : String} {ds cs us i : Nat} {s s' : Indexing k} {index : Deflate64Index}

/-- A read never moves past the end of the member's data, so what is left is no underflow. -/
theorem inRange_readLoop {n fuel : Nat} {r : RawInflate k}
    (h : r.filePos ≤ r.dataEnd) : (r.readLoop n fuel).InRange := by
  induction fuel generalizing r with
  | zero => exact .err _
  | succ fuel ih =>
    by_cases hin : r.RefillInside
    · rw [RawInflate.readLoop_succ h hin]
      refine .ite (fun _ => .err _) fun _ => .ite (fun _ => .ok _) fun _ => ?_
      refine .ite (fun _ => .ok _) fun _ => .ite (fun _ => .err _) fun _ => ih ?_
      show r.refilled.filePos ≤ r.refilled.dataEnd
      rw [RawInflate.refilled_dataEnd]
      exact RawInflate.refilled_filePos_le h
    · rw [RawInflate.readLoop_short h hin]
      exact .err _

theorem inRange_read {n : Nat} {r : RawInflate k} (h : r.filePos ≤ r.dataEnd) :
    (r.read n).InRange := by
  unfold RawInflate.read
  exact .ite (fun _ => .ok _) fun _ => inRange_readLoop h

/-- The counters of the indexing loop are below its caps. -/
structure Capped (s : Indexing k) : Prop where
  totalOut : s.totalOut ≤ maxDecode
  indexBytes : s.indexBytes ≤ maxIndexBytes

namespace Capped

/-- What `push` and `capture` do to the counters. -/
theorem push {blob : Bytes} {pos : CheckpointPosition} (h : Capped s)
    (hpush : Deflate64Index.push name ds {} s blob pos = .ok s') : Capped s' := by
  unfold Deflate64Index.push at hpush
  by_cases hlater : s.lastOutputOffset < pos.outputBytesAlreadyReturned
  · rw [if_pos hlater] at hpush
    obtain ⟨indexBytes, -, hpush⟩ := Res.of_bind_ok hpush
    by_cases hcap : maxIndexBytes < indexBytes
    · rw [if_pos hcap] at hpush
      cases hpush
    · rw [if_neg hcap] at hpush
      obtain ⟨inputOffset, -, hpush⟩ := Res.of_bind_ok hpush
      cases hpush
      exact ⟨h.totalOut, Nat.le_of_not_lt hcap⟩
  · rw [if_neg hlater] at hpush
    cases hpush
    exact h

theorem capture {interval : Nat} (h : Capped s)
    (hcapture : Deflate64Index.capture name ds interval {} s = .ok s') : Capped s' := by
  unfold Deflate64Index.capture at hcapture
  by_cases hearly : s.totalOut < s.nextAt
  · rw [if_pos hearly] at hcapture
    cases hcapture
    exact h
  · rw [if_neg hearly] at hcapture
    rcases hcheckpoint : k.inflater.checkpoint s.raw.inflater with _ | ⟨blob, pos⟩
    · rw [hcheckpoint] at hcapture
      obtain ⟨nextAt, -, hcapture⟩ := Res.of_bind_ok hcapture
      cases hcapture
      exact ⟨h.totalOut, h.indexBytes⟩
    · rw [hcheckpoint] at hcapture
      obtain ⟨s₁, hpush, hcapture⟩ := Res.of_bind_ok hcapture
      obtain ⟨nextAt, -, hcapture⟩ := Res.of_bind_ok hcapture
      cases hcapture
      exact ⟨(h.push hpush).totalOut, (h.push hpush).indexBytes⟩

end Capped

/-- Taking a checkpoint stays in range: its position is in the member, and its counters are
below the caps. -/
theorem Indexed.inRange_capture (documented : k.inflater.Documented output)
    (hblobs : k.inflater.BlobsFit) (h : Indexed output stream ds i out s) (hcapped : Capped s)
    (hend : ds + stream.length ≤ u64Max) :
    (Deflate64Index.capture name ds defaultCheckpointInterval {} s).InRange := by
  have htotal := hcapped.totalOut
  have hbytes := hcapped.indexBytes
  unfold maxDecode at htotal
  unfold maxIndexBytes at hbytes
  unfold Deflate64Index.capture
  refine .ite (fun _ => .ok _) fun _ => ?_
  rcases hcheckpoint : k.inflater.checkpoint s.raw.inflater with _ | ⟨blob, pos⟩
  · dsimp only
    rw [inRange_addU64_bind_iff]
    exact ⟨by unfold defaultCheckpointInterval u64Max; omega, .ok _⟩
  · obtain ⟨hreturned, hskip, -⟩ := documented.restores h.tracks.feeds hcheckpoint
    have hle := h.tracks.feeds.le_length documented.toStreamLaws
    have hblob := hblobs hcheckpoint
    unfold isizeMax at hblob
    rw [← h.totalOut_eq] at hreturned
    refine .bind ?_ fun s' hpush => ?_
    · unfold Deflate64Index.push
      refine .ite (fun _ => ?_) fun _ => .ok _
      rw [inRange_addU64_bind_iff]
      refine ⟨by unfold u64Max; omega, .ite (fun _ => .err _) fun _ => ?_⟩
      rw [inRange_addU64_bind_iff]
      exact ⟨by omega, .ok _⟩
    · have htotal' := (hcapped.push hpush).totalOut
      unfold maxDecode at htotal'
      rw [inRange_addU64_bind_iff]
      exact ⟨by unfold defaultCheckpointInterval u64Max; omega, .ok _⟩

/-- The indexing loop stays in range. -/
theorem Indexed.inRange_buildLoop (documented : k.inflater.Documented output)
    (hblobs : k.inflater.BlobsFit) (h : Indexed output stream ds i out s) (hcapped : Capped s)
    (hend : ds + stream.length ≤ u64Max) (fuel : Nat) :
    (Deflate64Index.buildLoop name ds defaultCheckpointInterval {} fuel s).InRange := by
  induction fuel generalizing s i out with
  | zero => exact .ok _
  | succ fuel ih =>
    rw [Deflate64Index.buildLoop]
    rcases hread : s.raw.read ioChunk with (e | _) | ⟨_ | ⟨b, bs⟩, raw⟩
    · exact .err _
    · exact absurd hread (inRange_read h.tracks.bounded)
    · exact .ok _
    · obtain ⟨i', htracks, hlen, -⟩ := h.tracks.read documented.toStreamLaws (by decide) hread
      have htotal := hcapped.totalOut
      have htotal_eq := h.totalOut_eq
      have hsum : s.totalOut + (b :: bs).length = (out ++ b :: bs).length := by
        rw [htotal_eq, List.length_append]
      rw [ioChunk_eq] at hlen
      dsimp only
      rw [inRange_addU64_bind_iff]
      refine ⟨by unfold maxDecode at htotal; unfold u64Max; omega, ?_⟩
      refine .ite (fun _ => .err _) fun hcap => ?_
      have hnext : Indexed output stream ds i' (out ++ b :: bs)
          { s with totalOut := s.totalOut + (b :: bs).length, raw } :=
        ⟨htracks, hsum, h.first, h.increasing, h.le_last, h.resumes⟩
      have hcapped' : Capped { s with totalOut := s.totalOut + (b :: bs).length, raw } :=
        ⟨Nat.le_of_not_lt hcap, hcapped.indexBytes⟩
      refine .bind (hnext.inRange_capture documented hblobs hcapped' hend) fun s₁ hcapture => ?_
      exact ih (hnext.capture documented hcapture) (hcapped'.capture hcapture)

/-- The index is built in range exactly when the end of the member's data is in range. -/
theorem buildIndexCapped_inRange_iff (documented : k.inflater.Documented output)
    (hblobs : k.inflater.BlobsFit) :
    (buildIndexCapped k file name ds cs us defaultCheckpointInterval {}).InRange ↔
      ds + cs ≤ u64Max := by
  unfold buildIndexCapped
  dsimp only
  rw [inRange_addU64_bind_iff]
  refine and_iff_left_iff_imp.2 fun hend => ?_
  have hlen : (slice file ds cs).length ≤ cs := List.length_take_le _ _
  refine .bind ?_ fun s _ => .ite (fun _ => .err _) fun _ => .ok _
  rw [Nat.max_eq_left (by decide)]
  exact (Indexed.start file ds cs _).inRange_buildLoop documented hblobs
    ⟨Nat.zero_le _, Nat.zero_le _⟩ (by omega) _

theorem Sound.inRange_readAt {data : Bytes} (laws : k.inflater.StreamLaws output)
    (h : Sound output file ds cs data index) (len offset : Nat) :
    (index.readAt k file len offset).InRange := by
  rcases h.readAt_total laws len offset with ⟨hread, -⟩ | ⟨hread, -⟩
  · rw [hread]
    exact .ok _
  · rw [hread]
    exact .err _

end Deflate64Index

/-! ## `open_entry` -/

section Opening

variable {output : k.inflater.State → Bytes → Option Bytes} {F : Bytes} {name : String}
  {a : ZipArchive} {f : ZipFile k (Take Source)}

theorem deflateLayout_inRange_iff (hfile : F.length ≤ isizeMax) {start csize usize : Nat}
    (hstart : start ≤ F.length + 0xFFFF) :
    (deflateLayout F name start csize usize).InRange ↔ start + csize ≤ u64Max := by
  rw [← indexStoredBlocks_inRange_iff hfile hstart name csize usize]
  unfold deflateLayout
  refine InRange.bind_iff fun found _ => ?_
  cases found with
  | none => exact .ok _
  | some blocks => exact .ok _

theorem deflate64Layout_inRange_iff (documented : k.inflater.Documented output)
    (hblobs : k.inflater.BlobsFit) (hfile : F.length ≤ isizeMax) {start csize usize : Nat}
    (hstart : start ≤ F.length + 0xFFFF) :
    (deflate64Layout k F name start csize usize).InRange ↔ start + csize ≤ u64Max := by
  have hwalk := indexStoredBlocks_inRange_iff hfile hstart name csize usize
  unfold deflate64Layout
  constructor
  · intro h
    refine hwalk.1 fun hpanic => h ?_
    rw [hpanic]
    rfl
  · intro h
    refine (hwalk.2 h).bind fun found _ => ?_
    cases found with
    | none =>
      exact ((Deflate64Index.buildIndexCapped_inRange_iff documented hblobs).2 h).bind
        fun index _ => .ok _
    | some blocks => exact .ok _

/-- The data of an entry that opens starts at most an extra block behind the file. -/
theorem dataStart_le (hfile : F.length ≤ isizeMax) (hnew : ZipArchive.new ⟨F, 0⟩ = .ok a)
    (hname : (a.byName name : Opened k) = .ok f) : f.dataStart ≤ F.length + 0xFFFF := by
  obtain ⟨⟨fields, hlfh⟩, -⟩ := of_byName hnew hname
  obtain ⟨hin, -, heq⟩ := (lfhAt_eq_ok_iff hfile).1 hlfh
  have hextra := leNat_slice_two_le F (f.entry.lfhOffset + 28)
  rw [(Prod.mk.inj heq).2]
  unfold localDataStart
  omega

/-- Opening the entry in the archive stays in range. -/
theorem byName_ne_panic (hfile : F.length ≤ isizeMax) (hnew : ZipArchive.new ⟨F, 0⟩ = .ok a)
    (reader : Source) : (a.byName name : Opened k) ≠ .error (.panic, reader) := by
  unfold ZipArchive.byName
  cases a.entries.find? fun e => e.name = name with
  | none => exact fun h => by cases h
  | some m =>
    intro hopen
    dsimp only at hopen
    have hview := view_open (k := k) a m
    rw [hopen, (reader_of_new hnew).1] at hview
    exact inRange_openedPlain hfile m _ _ hview.symm

/-- The only unguarded sum of `open_entry` is the end of a Deflate or Deflate64 member. -/
theorem openEntry_inRange_iff (documented : k.inflater.Documented output)
    (hblobs : k.inflater.BlobsFit) (hfile : F.length ≤ isizeMax)
    (hnew : ZipArchive.new ⟨F, 0⟩ = .ok a) :
    (openEntry k F name).InRange ↔ ∀ f, (a.byName name : Opened k) = .ok f →
      f.compression = .deflated ∨ f.compression = .deflate64 →
      f.dataStart + f.compressedSize ≤ u64Max := by
  rcases hname : (a.byName name : Opened k) with ⟨e, reader⟩ | f
  · refine iff_of_true ?_ fun f hf => by cases hf
    unfold openEntry
    rw [hnew, Res.bind_ok, hname]
    rcases e with e | _
    · exact .err _
    · exact absurd hname (byName_ne_panic hfile hnew reader)
  · have hstart := dataStart_le hfile hnew hname
    have hforall : (∀ f', (Except.ok f : Opened k) = .ok f' →
        f'.compression = .deflated ∨ f'.compression = .deflate64 →
        f'.dataStart + f'.compressedSize ≤ u64Max) ↔
      (f.compression = .deflated ∨ f.compression = .deflate64 →
        f.dataStart + f.compressedSize ≤ u64Max) :=
      ⟨fun h => h f rfl, fun h f' hf' => by cases hf'; exact h⟩
    rw [hforall]
    rcases openEntry_cases hnew hname with ⟨hm, heq⟩ | ⟨hm, heq⟩ | ⟨hm, heq⟩ | ⟨hm, heq⟩
    · rw [heq, hm]
      exact iff_of_true (.ok _) (by simp)
    · rw [heq, InRange.bind_iff fun _ _ => .ok _, deflateLayout_inRange_iff hfile hstart]
      simp [hm]
    · rw [heq, InRange.bind_iff fun _ _ => .ok _,
        deflate64Layout_inRange_iff documented hblobs hfile hstart]
      simp [hm]
    · rw [heq]
      exact iff_of_true (.ok _) (by simp [hm])

end Opening

/-! ## `read_at` -/

/-- The arithmetic of a read that decodes the whole entry: the bounds of the read, and of
its cut out of the decoded bytes. -/
def fallbackSums (size len offset : Nat) : Res IoError Nat := do
  let wantEnd := min (← addU64 offset len) size
  let total ← subU64 wantEnd offset
  addU64 offset total

/-- No sum or difference of a read leaves its range. A read that decodes the whole entry
can also panic where it reserves a buffer or cuts it, which are no sums. -/
def StoredZipEntry.ReadsInRange (k : Crates) (e : StoredZipEntry) (len offset : Nat) : Prop :=
  match e.layout with
  | .fallback _ _ => e.uncompressedSize ≤ offset ∨ len = 0 ∨
      (fallbackSums e.uncompressedSize len offset).InRange
  | _ => (e.readAt k len offset).InRange

section Reading

variable {output : k.inflater.State → Bytes → Option Bytes} {F : Bytes} {name : String}
  {size dataStart len offset : Nat}

theorem fallbackSums_inRange_iff (hin : offset < size) :
    (fallbackSums size len offset).InRange ↔ offset + len ≤ u64Max := by
  unfold fallbackSums
  rw [inRange_addU64_bind_iff]
  refine and_iff_left_of_imp fun hsum => ?_
  dsimp only
  rw [subU64_eq (by omega), Res.bind_ok, inRange_addU64_iff]
  omega

/-- Which reads of a stored member stay in range. -/
theorem readAt_single_inRange_iff :
    ((⟨F, size, .storedBlocks [⟨0, size, dataStart⟩]⟩ : StoredZipEntry).readAt k len offset).InRange ↔
      (offset < size → 0 < len → offset + len ≤ u64Max ∧ dataStart + offset ≤ u64Max) := by
  rw [readAt_single]
  by_cases hdone : size ≤ offset ∨ len = 0
  · rw [if_pos hdone]
    exact iff_of_true (.ok _) fun _ _ => by omega
  · rw [if_neg hdone, inRange_addU64_bind_iff, inRange_addU64_bind_iff,
      and_iff_left (inRange_preadExact _ _ _)]
    exact ⟨fun h _ _ => h, fun h => h (by omega) (by omega)⟩

/-- The end of a read is the only sum in front of what an index does. -/
theorem inRange_toEnd_iff {α : Type} {done : Res IoError α} {rest : Nat → Res IoError α}
    (hdone : done.InRange)
    (hrest : offset < size → offset + len ≤ u64Max → (rest (offset + len)).InRange) :
    (if size ≤ offset ∨ len = 0 then done else addU64 offset len >>= rest).InRange ↔
      (offset < size → 0 < len → offset + len ≤ u64Max) := by
  by_cases hnone : size ≤ offset ∨ len = 0
  · rw [if_pos hnone]
    exact iff_of_true hdone fun _ _ => by omega
  · rw [if_neg hnone, inRange_addU64_bind_iff]
    refine ⟨fun h _ _ => h.1, fun h => ?_⟩
    have hend := h (by omega) (by omega)
    exact ⟨hend, hrest (by omega) hend⟩

/-- Reads of an entry with an index stay in range up to their own end. -/
theorem readAt_tiles_inRange_iff {blocks : List StoredBlock} (htiles : Tiles 0 blocks size)
    (hfits : ∀ b ∈ blocks, b.fileOffset + b.len ≤ u64Max) :
    ((⟨F, size, .storedBlocks blocks⟩ : StoredZipEntry).readAt k len offset).InRange ↔
      (offset < size → 0 < len → offset + len ≤ u64Max) := by
  unfold StoredZipEntry.readAt
  refine inRange_toEnd_iff (.ok _) fun (hin : offset < size) hend => ?_
  dsimp only
  rw [subU64_eq (by omega), Res.bind_ok]
  exact htiles.inRange_readBlocksLoop hfits _ _ _ _

theorem readAt_deflate64_inRange_iff {index : Deflate64Index} {ds cs : Nat} {data : Bytes}
    (laws : k.inflater.StreamLaws output) (hsound : index.Sound output F ds cs data) :
    ((⟨F, size, .deflate64 index⟩ : StoredZipEntry).readAt k len offset).InRange ↔
      (offset < size → 0 < len → offset + len ≤ u64Max) := by
  unfold StoredZipEntry.readAt
  refine inRange_toEnd_iff (.ok _) fun (hin : offset < size) hend => ?_
  dsimp only
  rw [subU64_eq (by omega), Res.bind_ok]
  exact hsound.inRange_readAt laws len offset

theorem readsInRange_fallback_iff {path : Bytes} {inner : String} :
    (⟨F, size, .fallback path inner⟩ : StoredZipEntry).ReadsInRange k len offset ↔
      (offset < size → 0 < len → offset + len ≤ u64Max) := by
  constructor
  · intro h hin hpos
    rcases h with h | h | h
    · exact absurd hin (Nat.not_lt.2 h)
    · exact absurd h (Nat.ne_of_gt hpos)
    · exact (fallbackSums_inRange_iff hin).1 h
  · intro h
    by_cases hdone : size ≤ offset ∨ len = 0
    · exact hdone.imp_right .inl
    · have hin : offset < size := by omega
      exact .inr (.inr ((fallbackSums_inRange_iff hin).2 (h hin (by omega))))

end Reading

section Opened

variable {output : k.inflater.State → Bytes → Option Bytes} {F : Bytes} {name : String}
  {start csize size len offset : Nat} {layout : Layout}

/-- Reads of a Deflate member, indexed or decoded. -/
theorem readsInRange_deflateLayout_iff
    (h : deflateLayout F name start csize size = .ok layout) :
    (⟨F, size, layout⟩ : StoredZipEntry).ReadsInRange k len offset ↔
      (offset < size → 0 < len → offset + len ≤ u64Max) := by
  unfold deflateLayout at h
  obtain ⟨found, hwalk, h⟩ := Res.of_bind_ok h
  cases found with
  | none =>
    obtain rfl := Except.ok.inj h
    exact readsInRange_fallback_iff
  | some blocks =>
    obtain rfl := Except.ok.inj h
    obtain ⟨htiles, hfits⟩ := of_indexStoredBlocks hwalk
    exact readAt_tiles_inRange_iff htiles hfits

/-- Reads of a Deflate64 member, by blocks or by checkpoints. -/
theorem readsInRange_deflate64Layout_iff (documented : k.inflater.Documented output)
    (h : deflate64Layout k F name start csize size = .ok layout) :
    (⟨F, size, layout⟩ : StoredZipEntry).ReadsInRange k len offset ↔
      (offset < size → 0 < len → offset + len ≤ u64Max) := by
  unfold deflate64Layout at h
  obtain ⟨found, hwalk, h⟩ := Res.of_bind_ok h
  cases found with
  | none =>
    obtain ⟨index, hbuild, h⟩ := Res.of_bind_ok h
    obtain rfl := Except.ok.inj h
    obtain ⟨-, data, hsound⟩ := Deflate64Index.sound_of_build documented hbuild
    exact readAt_deflate64_inRange_iff documented.toStreamLaws hsound
  | some blocks =>
    obtain rfl := Except.ok.inj h
    obtain ⟨htiles, hfits⟩ := of_indexStoredBlocks hwalk
    exact readAt_tiles_inRange_iff htiles hfits

/-- A positioned read of an entry that `open_entry` returned stays in range exactly when the
end of the read does, and in a stored member its place in the file. -/
theorem readsInRange_iff (documented : k.inflater.Documented output) {a : ZipArchive}
    {f : ZipFile k (Take Source)} (hnew : ZipArchive.new ⟨F, 0⟩ = .ok a)
    (hname : (a.byName name : Opened k) = .ok f) {entry : StoredZipEntry}
    (hopen : openEntry k F name = .ok entry) :
    entry.ReadsInRange k len offset ↔ (offset < f.size → 0 < len → offset + len ≤ u64Max ∧
      (f.compression = .stored → f.dataStart + offset ≤ u64Max)) := by
  rcases openEntry_cases hnew hname with ⟨hm, heq⟩ | ⟨hm, heq⟩ | ⟨hm, heq⟩ | ⟨hm, heq⟩
  · obtain rfl := Except.ok.inj (heq.symm.trans hopen)
    simp only [hm, forall_const]
    exact readAt_single_inRange_iff
  · obtain ⟨layout, hlayout, h⟩ := Res.of_bind_ok (heq.symm.trans hopen)
    obtain rfl := Except.ok.inj h
    simp only [hm, reduceCtorEq, false_implies, and_true]
    exact readsInRange_deflateLayout_iff hlayout
  · obtain ⟨layout, hlayout, h⟩ := Res.of_bind_ok (heq.symm.trans hopen)
    obtain rfl := Except.ok.inj h
    simp only [hm, reduceCtorEq, false_implies, and_true]
    exact readsInRange_deflate64Layout_iff documented hlayout
  · obtain rfl := Except.ok.inj (heq.symm.trans hopen)
    simp only [hm.1, false_implies, and_true]
    exact readsInRange_fallback_iff

end Opened

/-! ## Random access -/

/-- **The arithmetic of random access.** Opening an entry stays in range exactly when, for a
Deflate or Deflate64 member, the end of its data does; a read of an opened entry exactly when
it reads nothing or its end does, and in a stored member the place in the file that it
starts at. -/
theorem randomAccess_inRange_iff {output : k.inflater.State → Bytes → Option Bytes}
    (documented : k.inflater.Documented output) (hblobs : k.inflater.BlobsFit) {F : Bytes}
    (hfile : F.length ≤ isizeMax) {a : ZipArchive} (hnew : ZipArchive.new ⟨F, 0⟩ = .ok a)
    (name : String) :
    ((openEntry k F name).InRange ↔ ∀ f, (a.byName name : Opened k) = .ok f →
      f.compression = .deflated ∨ f.compression = .deflate64 →
      f.dataStart + f.compressedSize ≤ u64Max) ∧
    ∀ f entry, (a.byName name : Opened k) = .ok f → openEntry k F name = .ok entry →
      ∀ len offset, entry.ReadsInRange k len offset ↔
        (offset < f.size → 0 < len → offset + len ≤ u64Max ∧
          (f.compression = .stored → f.dataStart + offset ≤ u64Max)) :=
  ⟨openEntry_inRange_iff documented hblobs hfile hnew, fun _ _ hname hopen _ _ =>
    readsInRange_iff documented hnew hname hopen⟩

/-- Nothing decodes with the inflater of the plain crates. -/
theorem Crates.plain_documented :
    Crates.plain.inflater.Documented (fun _ _ => none) where
  consumed_le _ _ _ := Nat.zero_le _
  written_le _ _ _ := Nat.zero_le _
  output_call _ _ _ hok := by cases hok
  output_error _ _ _ _ _ := rfl
  output_finished _ _ _ _ hok := by cases hok
  progress _ _ _ _ hok := by cases hok
  truncated _ _ _ _ _ _ := rfl
  restores _ hcheckpoint := by cases hcheckpoint

/-- A stored member, opened and read at an offset inside it. -/
theorem storedArchive_randomAccess :
    (openEntry .plain (storedArchive 3) "m").InRange ∧
      ∃ entry, openEntry .plain (storedArchive 3) "m" = .ok entry ∧
        entry.ReadsInRange .plain 2 1 := by
  obtain ⟨a, f, hnew, hname, hstored, hentry, hstart, -⟩ :=
    storedArchive_opens 3 ⟨"m", .stored, 0, 0x352441C2, 3, 3⟩
      (by decide +kernel) (by decide +kernel) (by decide)
  have hopen := openEntry_stored hnew hname hstored
  obtain ⟨hopens, hreads⟩ := randomAccess_inRange_iff Crates.plain_documented
    (fun h => by cases h) (by decide) hnew "m"
  refine ⟨hopens.2 fun f' hf' hmethod => ?_, _, hopen, (hreads f _ hname hopen 2 1).2 ?_⟩
  · obtain rfl := Except.ok.inj (hname.symm.trans hf')
    rw [hstored] at hmethod
    simp at hmethod
  · rw [hstart]
    exact fun _ _ => ⟨by decide, fun _ => by decide⟩

/-- An archive of the member `m`, one byte whose central header takes both sizes from a
Zip64 extra field. -/
def wideArchive (method : UInt8) (usize csize : Nat) : Bytes :=
  -- local header, name, data
  [0x50, 0x4B, 0x03, 0x04, 45, 0, 0, 0, method, 0, 0, 0, 0, 0, 0, 0, 0, 0,
    1, 0, 0, 0, 1, 0, 0, 0, 1, 0, 0, 0] ++ [0x6D] ++ [0x61] ++
  -- central header, name, extra block
  [0x50, 0x4B, 0x01, 0x02, 20, 0, 45, 0, 0, 0, method, 0, 0, 0, 0, 0, 0, 0, 0, 0,
    0xFF, 0xFF, 0xFF, 0xFF, 0xFF, 0xFF, 0xFF, 0xFF, 1, 0, 20, 0, 0, 0, 0, 0, 0, 0, 0, 0, 0, 0,
    0, 0, 0, 0] ++ [0x6D] ++ ([1, 0, 16, 0] ++ leBytes 8 usize ++ leBytes 8 csize) ++
  -- EOCD
  [0x50, 0x4B, 0x05, 0x06, 0, 0, 0, 0, 1, 0, 1, 0, 67, 0, 0, 0, 32, 0, 0, 0, 0, 0]

/-- A Deflate member of 2^64 - 1 compressed bytes: the archive opens, and opening the member
for random access overflows. A stored member of 2^64 - 1 bytes: it opens, and reads near its
declared end overflow, in their own end or in their place in the file. -/
theorem wideArchive_leaves_range :
    (∃ a, ZipArchive.new ⟨wideArchive 8 1 u64Max, 0⟩ = .ok a) ∧
      openEntry .plain (wideArchive 8 1 u64Max) "m" = .error .panic ∧
      ∃ entry, openEntry .plain (wideArchive 0 u64Max 1) "m" = .ok entry ∧
        entry.readAt .plain 4 (u64Max - 2) = .error .panic ∧
        entry.readAt .plain 4 (u64Max - 20) = .error .panic := by
  refine ⟨?_, by decide +kernel, ⟨wideArchive 0 u64Max 1, u64Max, .storedBlocks [⟨0, u64Max, 31⟩]⟩,
    by decide +kernel, by decide +kernel, by decide +kernel⟩
  have hsome : (directoryOf (wideArchive 8 1 u64Max)).toOption.isSome = true := by decide +kernel
  cases hdir : directoryOf (wideArchive 8 1 u64Max) with
  | error e =>
    rw [hdir] at hsome
    cases hsome
  | ok x =>
    obtain ⟨pos, hnew⟩ := new_of_directoryOf hdir 0
    exact ⟨_, hnew⟩

end ZipForensic
