import ZipForensic.Core.SeekIndex

/-!
# The caps of the seek index

`build_index_capped` gives up when the decoded output or the blobs of the checkpoints
exceed a cap. The loop never looks at the caps otherwise, so two runs with different caps
go in lockstep until one of them gives up (`buildLoop_capped`).

- `Accounted`: the blobs are counted as they are kept, and at most one is kept for every
  `interval` bytes of output.
- `buildIndexCapped_capped`: an index that some caps allow is built under all the caps it
  fits, and under all others the refusal names a cap that it exceeds.
-/

namespace ZipForensic

namespace Deflate64Index

variable {k : Crates}

/-- The bytes that a list of checkpoints holds. -/
def heldBytes (cps : List Checkpoint) : Nat :=
  (cps.map fun c => (c.blob.getD []).length).sum

/-- What a run that decodes `decoded` bytes and holds `held` bytes of blobs, and gives `x`
where no cap is in its way, gives under `caps`. -/
inductive UnderCaps {α : Type} (name : String) (caps : Caps) (decoded held : Nat) (x : α) :
    Res ZipCoreError α → Prop
  | within (hdecoded : decoded ≤ caps.maxDecode) (hheld : held ≤ caps.maxIndexBytes) :
      UnderCaps name caps decoded held x (.ok x)
  | overDecode (h : caps.maxDecode < decoded) :
      UnderCaps name caps decoded held x
        (malformed name s!"decompressed output exceeds the {caps.maxDecode}-byte cap")
  | overIndex (h : caps.maxIndexBytes < held) :
      UnderCaps name caps decoded held x
        (malformed name s!"deflate64 seek index exceeds the {caps.maxIndexBytes}-byte cap")

/-- What is done with the outcome of a run keeps its refusals. -/
theorem UnderCaps.bind {α β : Type} {name : String} {caps : Caps} {decoded held : Nat} {x : α} {y : β}
    {r : Res ZipCoreError α} {f : α → Res ZipCoreError β} (h : UnderCaps name caps decoded held x r)
    (hf : f x = .ok y) : UnderCaps name caps decoded held y (r >>= f) := by
  cases h with
  | within hdecoded hheld =>
    rw [Res.bind_ok, hf]
    exact .within hdecoded hheld
  | overDecode hover => exact .overDecode hover
  | overIndex hover => exact .overIndex hover

/-- The books of the loop. -/
structure Accounted (interval : Nat) (s : Indexing k) : Prop where
  held : heldBytes s.checkpoints = s.indexBytes
  spaced : s.checkpoints.length * interval ≤ s.nextAt
  reached : s.checkpoints.length * interval ≤ s.totalOut + interval

variable {name : String} {ds interval : Nat} {caps caps' : Caps} {s s' : Indexing k}

/-! ## One checkpoint -/

theorem heldBytes_snoc (cps : List Checkpoint) (o i : Nat) (blob : Bytes) :
    heldBytes (cps ++ [⟨o, i, some blob⟩]) = heldBytes cps + blob.length := by
  rw [heldBytes, List.map_append, List.sum_append]
  simp [heldBytes]

/-- What keeping a checkpoint changes: nothing, or one more blob is held. -/
theorem push_books {blob : Bytes} {pos : CheckpointPosition}
    (h : push name ds caps s blob pos = .ok s') :
    s'.totalOut = s.totalOut ∧ s'.raw = s.raw ∧ s.indexBytes ≤ s'.indexBytes ∧
      s'.checkpoints.length ≤ s.checkpoints.length + 1 ∧
      (heldBytes s.checkpoints = s.indexBytes → heldBytes s'.checkpoints = s'.indexBytes) := by
  rw [push] at h
  split_ifs at h with hlater
  · obtain ⟨indexBytes, hbytes, h⟩ := Res.of_bind_ok h
    obtain rfl := (of_addU64_ok hbytes).2
    split_ifs at h with hcap
    · cases h
    · obtain ⟨inputOffset, -, h⟩ := Res.of_bind_ok h
      cases h
      refine ⟨rfl, rfl, Nat.le_add_right _ _, ?_, fun hheld => ?_⟩
      · exact List.length_append.le
      · show heldBytes (s.checkpoints ++ [_]) = s.indexBytes + blob.length
        rw [heldBytes_snoc, hheld]
  · cases h
    exact ⟨rfl, rfl, Nat.le_refl _, Nat.le_succ _, fun hheld => hheld⟩

/-- Under other caps the same checkpoint is kept, unless its blob does not fit. -/
theorem push_capped (name' : String) {blob : Bytes} {pos : CheckpointPosition}
    (h : push name ds caps s blob pos = .ok s') (hdecoded : s.totalOut ≤ caps'.maxDecode)
    (hheld : s.indexBytes ≤ caps'.maxIndexBytes) :
    UnderCaps name' caps' s.totalOut s'.indexBytes s' (push name' ds caps' s blob pos) := by
  rw [push] at h ⊢
  split_ifs at h with hlater
  · rw [if_pos hlater]
    obtain ⟨indexBytes, hbytes, h⟩ := Res.of_bind_ok h
    split_ifs at h with hcap
    · cases h
    · obtain ⟨inputOffset, hinput, h⟩ := Res.of_bind_ok h
      cases h
      rw [hbytes, Res.bind_ok]
      by_cases hover : caps'.maxIndexBytes < indexBytes
      · rw [if_pos hover]
        exact .overIndex hover
      · rw [if_neg hover, hinput]
        exact .within hdecoded (Nat.not_lt.1 hover)
  · rw [if_neg hlater]
    cases h
    exact .within hdecoded hheld

/-! ## The end of a chunk -/

theorem capture_books (h : capture name ds interval caps s = .ok s') :
    s'.totalOut = s.totalOut ∧ s'.raw = s.raw ∧ s.indexBytes ≤ s'.indexBytes ∧
      (Accounted interval s → Accounted interval s') := by
  rw [capture] at h
  split_ifs at h with hearly
  · cases h
    exact ⟨rfl, rfl, Nat.le_refl _, fun hs => hs⟩
  · rcases hcheckpoint : k.inflater.checkpoint s.raw.inflater with _ | ⟨blob, pos⟩
    · rw [hcheckpoint] at h
      obtain ⟨nextAt, hnext, h⟩ := Res.of_bind_ok h
      obtain rfl := (of_addU64_ok hnext).2
      cases h
      exact ⟨rfl, rfl, Nat.le_refl _, fun hs => ⟨hs.held, hs.reached, hs.reached⟩⟩
    · rw [hcheckpoint] at h
      obtain ⟨s₁, hpush, h⟩ := Res.of_bind_ok h
      obtain ⟨nextAt, hnext, h⟩ := Res.of_bind_ok h
      obtain rfl := (of_addU64_ok hnext).2
      cases h
      obtain ⟨htotal, hraw, hmono, hlen, hheld⟩ := push_books hpush
      refine ⟨htotal, hraw, hmono, fun hs => ?_⟩
      -- the loop asked at or past `nextAt`, and asks again an interval later at the earliest
      have hone : s₁.checkpoints.length * interval ≤ s.totalOut + interval :=
        calc s₁.checkpoints.length * interval
          _ ≤ (s.checkpoints.length + 1) * interval := Nat.mul_le_mul_right _ hlen
          _ = s.checkpoints.length * interval + interval := Nat.succ_mul _ _
          _ ≤ s.totalOut + interval :=
            Nat.add_le_add_right (hs.spaced.trans (Nat.not_lt.1 hearly)) _
      refine ⟨hheld hs.held, ?_, ?_⟩
      · show s₁.checkpoints.length * interval ≤ max _ s₁.totalOut + interval
        rw [htotal]
        exact hone.trans (Nat.add_le_add_right (Nat.le_max_right _ _) _)
      · show s₁.checkpoints.length * interval ≤ s₁.totalOut + interval
        rw [htotal]
        exact hone

theorem capture_capped (name' : String) (h : capture name ds interval caps s = .ok s')
    (hdecoded : s.totalOut ≤ caps'.maxDecode) (hheld : s.indexBytes ≤ caps'.maxIndexBytes) :
    UnderCaps name' caps' s.totalOut s'.indexBytes s' (capture name' ds interval caps' s) := by
  rw [capture] at h ⊢
  split_ifs at h with hearly
  · rw [if_pos hearly]
    cases h
    exact .within hdecoded hheld
  · rw [if_neg hearly]
    rcases hcheckpoint : k.inflater.checkpoint s.raw.inflater with _ | ⟨blob, pos⟩
    · rw [hcheckpoint] at h
      obtain ⟨nextAt, hnext, h⟩ := Res.of_bind_ok h
      cases h
      dsimp only
      rw [hnext]
      exact .within hdecoded hheld
    · rw [hcheckpoint] at h
      obtain ⟨s₁, hpush, h⟩ := Res.of_bind_ok h
      obtain ⟨nextAt, hnext, h⟩ := Res.of_bind_ok h
      cases h
      dsimp only
      refine (push_capped name' hpush hdecoded hheld).bind ?_
      rw [hnext]
      rfl

/-! ## The whole decode -/

/-- The loop's counts only grow, and its books stay in order. -/
theorem buildLoop_books {fuel : Nat} (h : buildLoop name ds interval caps fuel s = .ok s') :
    s.totalOut ≤ s'.totalOut ∧ s.indexBytes ≤ s'.indexBytes ∧
      (Accounted interval s → Accounted interval s') := by
  induction fuel generalizing s with
  | zero =>
    cases h
    exact ⟨Nat.le_refl _, Nat.le_refl _, fun hs => hs⟩
  | succ fuel ih =>
    rw [buildLoop] at h
    rcases hread : s.raw.read ioChunk with (_ | _) | ⟨bytes, raw⟩
    · rw [hread] at h
      cases h
    · rw [hread] at h
      cases h
    · rw [hread] at h
      cases bytes with
      | nil =>
        cases h
        exact ⟨Nat.le_refl _, Nat.le_refl _, fun hs => ⟨hs.held, hs.spaced, hs.reached⟩⟩
      | cons b bs =>
        dsimp only at h
        obtain ⟨totalOut, htotal, h⟩ := Res.of_bind_ok h
        obtain rfl := (of_addU64_ok htotal).2
        split_ifs at h with hover
        · cases h
        · obtain ⟨s₁, hcapture, h⟩ := Res.of_bind_ok h
          obtain ⟨htotal₁, -, hmono₁, hbooks₁⟩ := capture_books hcapture
          obtain ⟨htotal', hmono', hbooks'⟩ := ih h
          rw [htotal₁] at htotal'
          refine ⟨(Nat.le_add_right _ _).trans htotal', hmono₁.trans hmono', fun hs => ?_⟩
          refine hbooks' (hbooks₁ ⟨hs.held, hs.spaced, ?_⟩)
          exact hs.reached.trans (Nat.add_le_add_right (Nat.le_add_right _ _) _)

/-- **The loop under other caps.** The chunks are the same, so the two runs part only where
a count exceeds a cap, and the counts at the end are at least those. -/
theorem buildLoop_capped (name' : String) {fuel fuel' : Nat} (hfuel : caps.maxDecode < fuel + s.totalOut)
    (hcap : s.totalOut ≤ caps.maxDecode) (hfuel' : caps'.maxDecode < fuel' + s.totalOut)
    (hdecoded : s.totalOut ≤ caps'.maxDecode) (hheld : s.indexBytes ≤ caps'.maxIndexBytes)
    (h : buildLoop name ds interval caps fuel s = .ok s') :
    UnderCaps name' caps' s'.totalOut s'.indexBytes s'
      (buildLoop name' ds interval caps' fuel' s) := by
  induction fuel generalizing s fuel' with
  | zero => omega
  | succ fuel ih =>
    obtain ⟨fuel', rfl⟩ : ∃ n, fuel' = n + 1 := ⟨fuel' - 1, by omega⟩
    rw [buildLoop] at h ⊢
    rcases hread : s.raw.read ioChunk with (_ | _) | ⟨bytes, raw⟩
    · rw [hread] at h
      cases h
    · rw [hread] at h
      cases h
    · rw [hread] at h
      cases bytes with
      | nil =>
        cases h
        exact .within hdecoded hheld
      | cons b bs =>
        dsimp only at h ⊢
        obtain ⟨totalOut, htotal, h⟩ := Res.of_bind_ok h
        rw [htotal, Res.bind_ok]
        obtain rfl := (of_addU64_ok htotal).2
        split_ifs at h with hover
        · cases h
        · obtain ⟨s₁, hcapture, h⟩ := Res.of_bind_ok h
          have htotal₁ : s₁.totalOut = s.totalOut + (b :: bs).length := (capture_books hcapture).1
          obtain ⟨htotal', hmono', -⟩ := buildLoop_books h
          rw [htotal₁] at htotal'
          have hlen : 0 < (b :: bs).length := Nat.succ_pos _
          by_cases hover' : caps'.maxDecode < s.totalOut + (b :: bs).length
          · rw [if_pos hover']
            exact .overDecode (lt_of_lt_of_le hover' htotal')
          · rw [if_neg hover']
            have hcapped := capture_capped name' hcapture (Nat.not_lt.1 hover') hheld
            rcases hcapture' : capture name' ds interval caps'
                { s with totalOut := s.totalOut + (b :: bs).length, raw } with e | s₂
            · rw [hcapture'] at hcapped
              cases hcapped with
              | overIndex hover => exact .overIndex (lt_of_lt_of_le hover hmono')
              | overDecode hover => exact absurd hover hover'
            · rw [hcapture'] at hcapped
              cases hcapped with
              | within hdecoded' hheld' =>
                rw [Res.bind_ok]
                exact ih (by omega) (by omega) (by omega) (by omega) hheld' h

/-! ## The index -/

variable {file : Bytes} {cs us : Nat} {index : Deflate64Index}

/-- **The caps only ever refuse.** An index that some caps allow fits those, and keeps at
most one checkpoint for every `interval` bytes of the member beside the one at its start.
Under any other caps the very same index is built if it fits them, and otherwise the
refusal names a cap that the member or its index really exceeds. -/
theorem buildIndexCapped_capped
    (hbuild : buildIndexCapped k file name ds cs us interval caps = .ok index) :
    us ≤ caps.maxDecode ∧ heldBytes index.checkpoints ≤ caps.maxIndexBytes ∧
      index.checkpointCount * max interval 1 ≤ us + max interval 1 ∧
      ∀ name' caps', UnderCaps name' caps' us (heldBytes index.checkpoints) index
        (buildIndexCapped k file name' ds cs us interval caps') := by
  rw [buildIndexCapped] at hbuild
  obtain ⟨dataEnd, hend, hbuild⟩ := Res.of_bind_ok hbuild
  obtain ⟨s, hloop, hbuild⟩ := Res.of_bind_ok hbuild
  obtain ⟨-, -, hbooks⟩ := buildLoop_books hloop
  have haccounted : Accounted (max interval 1) s :=
    hbooks ⟨rfl, (Nat.one_mul _).le, by dsimp only [List.length_singleton]; omega⟩
  have hcapped (name' : String) (caps' : Caps) {fuel' : Nat} (hfuel' : caps'.maxDecode < fuel') :=
    buildLoop_capped name' (by dsimp only; omega) (Nat.zero_le _) hfuel' (Nat.zero_le _)
      (Nat.zero_le _) hloop
  split_ifs at hbuild with hsize
  · cases hbuild
  · cases hbuild
    have hsize' : s.totalOut = us := not_not.1 hsize
    rw [hsize'] at hcapped
    have hfits := hcapped name caps (Nat.lt_succ_of_lt (Nat.lt_succ_self _))
    rw [hloop] at hfits
    rw [haccounted.held]
    refine ⟨?_, ?_, ?_, fun name' caps' => ?_⟩
    · cases hfits with
      | within hdecoded _ => exact hdecoded
    · cases hfits with
      | within _ hheld => exact hheld
    · exact hsize' ▸ haccounted.reached
    · unfold buildIndexCapped
      rw [hend, Res.bind_ok]
      refine (hcapped name' caps' (Nat.lt_succ_of_lt (Nat.lt_succ_self _))).bind ?_
      rw [if_neg hsize]
      rfl

/-- The index that keeps one blob of 23 bytes, under a cap of 22. -/
theorem runsIndex_refused :
    buildIndexCapped runsCrates runsArchive "n" 31 131082 196610 131072 ⟨196610, 22⟩ =
      malformed "n" "deflate64 seek index exceeds the 22-byte cap" := by
  obtain ⟨-, -, -, hcapped⟩ := buildIndexCapped_capped build_runs
  have hheld : heldBytes runsIndex.checkpoints = 23 := by decide +kernel
  have h := hcapped "n" ⟨196610, 22⟩
  rw [hheld] at h
  generalize buildIndexCapped runsCrates runsArchive "n" 31 131082 196610 131072 ⟨196610, 22⟩ = r at h
  cases h with
  | within _ hfits => exact absurd hfits (by decide)
  | overDecode hover => exact absurd hover (by decide)
  | overIndex _ => rfl

end Deflate64Index

end ZipForensic
