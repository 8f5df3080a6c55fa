import ZipForensic.Deflate.StoredStream
import ZipForensic.Stream.FrameCodec

/-!
# Stored blocks as a self-delimiting format

What the reference inflater says of a byte string does not change when more bytes follow, once
it has come to the final block or to something that is no stored block
(`inflateStoredBits_append`). So streams of stored blocks are a format in which the end of a
stream is known from the stream itself (`storedFormat`).
-/

namespace ZipForensic

/-- The same end, with more bits behind the stream. -/
def Inflated.append (more : List Bool) : Inflated → Inflated
  | .done output rest => .done output (rest ++ more)
  | r => r

theorem Inflated.append_prepend (data : Bytes) (more : List Bool) (r : Inflated) :
    (r.prepend data).append more = (r.append more).prepend data := by
  cases r <;> rfl

/-- Bytes behind the part that was looked at change nothing, nor does more fuel. -/
theorem inflateStoredBits_append {fuel fuel' : Nat} (hfuel : fuel ≤ fuel') {bytes : Bytes}
    (more : Bytes) (h : inflateStoredBits fuel (bitsOf bytes) ≠ .truncated) :
    inflateStoredBits fuel' (bitsOf (bytes ++ more)) =
      (inflateStoredBits fuel (bitsOf bytes)).append (bitsOf more) := by
  induction fuel generalizing fuel' bytes with
  | zero => exact absurd rfl h
  | succ fuel ih =>
    obtain ⟨fuel', rfl⟩ : ∃ n, fuel' = n + 1 := ⟨fuel' - 1, by omega⟩
    rw [inflateStoredBits_bytes] at h ⊢
    rw [inflateStoredBits_bytes]
    cases bytes with
    | nil => exact absurd rfl h
    | cons header body =>
      dsimp only at h
      rw [List.cons_append]
      dsimp only
      by_cases htype : header.toNat / 2 % 4 ≠ 0
      · rw [if_pos htype, if_pos htype]
        rfl
      · rw [if_neg htype] at h ⊢
        rw [if_neg htype]
        by_cases hlengths : body.length < 4
        · rw [if_pos hlengths] at h
          exact absurd rfl h
        · have htake : (body ++ more).take 2 = body.take 2 :=
            List.take_append_of_le_length (by omega)
          have hslice : slice (body ++ more) 2 2 = slice body 2 2 :=
            slice_append_left _ (by omega)
          rw [if_neg hlengths] at h ⊢
          rw [if_neg (by rw [List.length_append]; omega), htake, hslice]
          by_cases hnlen : leNat (slice body 2 2) ≠ 2 ^ 16 - 1 - leNat (body.take 2)
          · rw [if_pos hnlen, if_pos hnlen]
            rfl
          · rw [if_neg hnlen] at h ⊢
            rw [if_neg hnlen]
            generalize leNat (body.take 2) = len at h ⊢
            by_cases hdata : body.length < 4 + len
            · rw [if_pos hdata] at h
              exact absurd rfl h
            · have hdrop : (body ++ more).drop (4 + len) = body.drop (4 + len) ++ more :=
                List.drop_append_of_le_length (by omega)
              have hbody : slice (body ++ more) 4 len = slice body 4 len :=
                slice_append_left _ (by omega)
              rw [if_neg hdata] at h ⊢
              rw [if_neg (by rw [List.length_append]; omega), hbody, hdrop]
              by_cases hfinal : header.toNat % 2 = 1
              · rw [if_pos hfinal, if_pos hfinal, bitsOf_append]
                rfl
              · rw [if_neg hfinal] at h ⊢
                rw [if_neg hfinal, Inflated.append_prepend]
                have hnext : inflateStoredBits fuel (bitsOf (body.drop (4 + len))) ≠ .truncated := by
                  intro htrunc
                  rw [htrunc] at h
                  exact h rfl
                rw [ih (by omega) hnext]

theorem inflateStored_append {bytes : Bytes} (more : Bytes) (h : inflateStored bytes ≠ .truncated) :
    inflateStored (bytes ++ more) = (inflateStored bytes).append (bitsOf more) := by
  refine inflateStoredBits_append ?_ more h
  rw [List.length_append]
  omega

/-- What a byte string holds, if its blocks are stored. -/
def Inflated.frame : Inflated → Frame
  | .done output _ => .complete output
  | .truncated => .incomplete
  | _ => .corrupt

/-- Only a stream that is cut short becomes another one. -/
theorem frame_append {bytes : Bytes} (more : Bytes) (h : inflateStored bytes ≠ .truncated) :
    (inflateStored (bytes ++ more)).frame = (inflateStored bytes).frame := by
  rw [inflateStored_append more h]
  cases inflateStored bytes <;> rfl

theorem exists_of_frame {x : Inflated} {contents : Bytes} (h : x.frame = .complete contents) :
    ∃ rest, x = .done contents rest := by
  cases x with
  | done output rest => exact ⟨rest, by rw [Frame.complete.inj h]⟩
  | _ => cases h

/-- Streams of stored blocks. -/
def storedFormat : FrameFormat where
  parse bytes := (inflateStored bytes).frame
  complete_append more h := by
    rw [frame_append more fun htrunc => by rw [htrunc] at h; cases h]
    exact h
  corrupt_append more h := by
    rw [frame_append more fun htrunc => by rw [htrunc] at h; cases h]
    exact h
  length_le h := by
    obtain ⟨rest, hdone⟩ := exists_of_frame h
    exact length_output_le hdone

end ZipForensic
