import ZipForensic.Core.Authentication
import ZipForensic.Stream.Serves

/-!
# The WinZip AES stream over any reader

`AesStream` follows the reader of an AES entry over a window of the file. Here the reader
below serves a byte string in pieces of its own choice.

- `of_new_ok`: opening takes salt and verifier, and stops at the start of the ciphertext.
- `Flowing`: the reader inside the ciphertext. A read delivers the decryption of a piece of
  it and stays there (`Flowing.read_piece`), unless nothing of it is left
  (`Flowing.read_last`).
- `Flowing.runs`: what a run of reads looks like, by induction on the run.
-/

namespace ZipForensic

namespace AesReader

variable {k : Crates} {ρ : Type} [Read IoError ρ] {rest : ρ → Bytes} {I : ρ → Prop}
  {x : AesEntry} {r : AesReader k ρ} {stream : Bytes}

/-- The reader inside the ciphertext, or just behind it; it has fed what it took to the
HMAC. -/
structure Flowing (rest : ρ → Bytes) (I : ρ → Prop) (stream : Bytes) (x : AesEntry)
    (r : AesReader k ρ) : Prop where
  inv : I r.inner
  done : r.done = false
  cipher : r.cipher = ⟨x.encKey k, r.hmac.fed.length⟩
  key : r.hmac.key = x.macKey k
  fed : r.hmac.fed ++ rest r.inner = stream.drop x.start
  remaining : r.remaining + r.hmac.fed.length = x.total

/-- The front of a stream that the entry's header says is its data. -/
theorem slice_stream (hdata : x.data = stream.take x.compressedSize)
    (hroom : overhead x.info.strength ≤ x.compressedSize) {off len : Nat}
    (hle : off + len ≤ x.start + x.total + 10) : slice x.data off len = slice stream off len := by
  have htotal : x.start + x.total + 10 = x.compressedSize := by
    unfold AesEntry.start AesEntry.total overhead at *
    omega
  rw [hdata, slice, slice, List.drop_take, List.take_take, Nat.min_eq_left (by omega)]

namespace Flowing

omit [Read IoError ρ] in
/-- The ciphertext in terms of what was fed and what is left. -/
theorem ciphertext_eq (hf : Flowing rest I stream x r) :
    slice stream x.start x.total = r.hmac.fed ++ (rest r.inner).take r.remaining := by
  have htotal := hf.remaining
  rw [slice, ← hf.fed, List.take_append, List.take_of_length_le (by omega)]
  congr 2
  omega

/-- A read with ciphertext left delivers the decryption of a piece of it. -/
theorem read_piece (h : Serves rest I) (hf : Flowing rest I stream x r) {n : Nat} (hn : 0 < n)
    (hrem : r.remaining ≠ 0) (hrest : rest r.inner ≠ []) :
    ∃ b bs, (read n r).1 = .ok (r.cipher.apply k (b :: bs)).1 ∧
      (b :: bs) ++ (rest (read n r).2.inner).take (read n r).2.remaining =
        (rest r.inner).take r.remaining ∧
      (read n r).2.hmac.fed = r.hmac.fed ++ (b :: bs) ∧
      (read n r).2.cipher = (r.cipher.apply k (b :: bs)).2 ∧
      Flowing rest I stream x (read n r).2 := by
  obtain ⟨bs, hread, hle, hsplit, hend, hI⟩ := h.read_ok (n := min n r.remaining) hf.inv
  have hne : bs ≠ [] := fun hnil => (hend hnil).elim (by omega) hrest
  rcases hraw : read (min n r.remaining) r.inner with ⟨answer, inner⟩
  rw [hraw] at hread hsplit hI
  dsimp only at hread hsplit hI
  subst hread
  obtain ⟨b, bs, rfl⟩ := List.exists_cons_of_ne_nil hne
  have hrun : read n r = (.ok (r.cipher.apply k (b :: bs)).1,
      { r with
        inner
        cipher := (r.cipher.apply k (b :: bs)).2
        hmac := r.hmac.update (b :: bs)
        remaining := r.remaining - (b :: bs).length }) := by
    simp only [Read.read, if_neg hrem, hraw]
  have htotal := hf.remaining
  have hlen : (b :: bs).length ≤ r.remaining := by omega
  rw [hrun]
  refine ⟨b, bs, rfl, ?_, rfl, rfl, hI, hf.done, ?_, hf.key, ?_, ?_⟩
  · dsimp only
    rw [← hsplit, List.take_append, List.take_of_length_le hlen]
  · show (AesCtr.mk r.cipher.key (r.cipher.pos + (b :: bs).length)) = ⟨_, (r.hmac.fed ++ _).length⟩
    rw [hf.cipher, List.length_append]
  · show r.hmac.fed ++ (b :: bs) ++ rest inner = _
    rw [List.append_assoc, hsplit, hf.fed]
  · show r.remaining - (b :: bs).length + (r.hmac.fed ++ (b :: bs)).length = _
    rw [List.length_append]
    omega

/-- The ten bytes that come next decide. -/
theorem finish_ok_iff (h : Serves rest I) (hI : I r.inner) :
    (finish r).1 = .ok () ↔ ((rest r.inner).take 10).length = 10 ∧
      (r.hmac.finalize k).take 10 = (rest r.inner).take 10 := by
  unfold finish
  by_cases hlen : 10 ≤ (rest r.inner).length
  · obtain ⟨i, hok, -, -⟩ := h.readExact_ok IoError.shortRead hI hlen
    rw [hok]
    dsimp only
    have hfull : ((rest r.inner).take 10).length = 10 := by
      rw [List.length_take, Nat.min_eq_left hlen]
    by_cases hequal : (r.hmac.finalize k).take 10 = (rest r.inner).take 10
    · rw [if_pos hequal]
      exact iff_of_true rfl ⟨hfull, hequal⟩
    · rw [if_neg hequal]
      exact iff_of_false (fun hok => by cases hok) fun hcode => hequal hcode.2
  · obtain ⟨i, heof, -⟩ := h.readExact_eof IoError.shortRead hI (Nat.not_le.1 hlen)
    rw [heof]
    refine iff_of_false (fun hok => by cases hok) fun hcode => hlen ?_
    have hfull := hcode.1
    rw [List.length_take] at hfull
    omega

/-- With all of the ciphertext fed, the code comes next. -/
theorem read_code (h : Serves rest I) (hf : Flowing rest I stream x r)
    (hdata : x.data = stream.take x.compressedSize)
    (hroom : overhead x.info.strength ≤ x.compressedSize) (n : Nat) (hrem : r.remaining = 0) :
    ((read n r).1 = .ok [] ↔ x.Authentic k) ∧
      (¬ x.Authentic k → ∃ e, (read n r).1 = .error e) := by
  have htotal := hf.remaining
  have hwhole : x.ciphertext = r.hmac.fed := by
    rw [AesEntry.ciphertext, slice_stream hdata hroom (Nat.le_add_right _ _), hf.ciphertext_eq,
      hrem, List.take_zero, List.append_nil]
  have hrest : rest r.inner = stream.drop (x.start + x.total) := by
    rw [← List.drop_drop, ← hf.fed, List.drop_left' (by omega)]
  have hcode : x.authCode = (rest r.inner).take 10 := by
    rw [AesEntry.authCode, slice_stream hdata hroom (Nat.le_refl _), slice, hrest]
  have hfinal : r.hmac.finalize k = k.hmacSha1 (x.macKey k) x.ciphertext := by
    rw [HmacSha1.finalize, hf.key, hwhole]
  have hfinish := finish_ok_iff (r := ({ r with done := true } : AesReader k ρ)) h hf.inv
  rw [show HmacSha1.finalize k _ = _ from hfinal, show List.take 10 _ = _ from hcode.symm] at hfinish
  have hrun : (read n r).1 =
      (({ r with done := true } : AesReader k ρ).finish).1.map fun _ => [] := by
    simp only [Read.read, if_pos hrem, hf.done, Bool.false_eq_true, if_false]
    rcases ({ r with done := true } : AesReader k ρ).finish with ⟨e | u, r'⟩ <;> rfl
  rw [hrun]
  rcases hfin : ({ r with done := true } : AesReader k ρ).finish with ⟨e | u, r'⟩
  · rw [hfin] at hfinish
    have hnot : ¬ x.Authentic k := fun ha => by cases hfinish.2 ha
    exact ⟨iff_of_false (fun hok => by cases hok) hnot, fun _ => ⟨e, rfl⟩⟩
  · rw [hfin] at hfinish
    exact ⟨iff_of_true rfl (hfinish.1 rfl), fun hnot => absurd (hfinish.1 rfl) hnot⟩

/-- A file that ends within the ciphertext has no code. -/
theorem read_cut (h : Serves rest I) (hf : Flowing rest I stream x r)
    (hdata : x.data = stream.take x.compressedSize)
    (hroom : overhead x.info.strength ≤ x.compressedSize) (n : Nat) (hrem : r.remaining ≠ 0)
    (hrest : rest r.inner = []) : ¬ x.Authentic k ∧ (read n r).1 = .error r.refuse := by
  constructor
  · -- the code stands behind all of the ciphertext
    intro ha
    have htotal := hf.remaining
    have hwhole := AesEntry.length_ciphertext ha.not_truncated
    rw [AesEntry.ciphertext, slice_stream hdata hroom (Nat.le_add_right _ _), hf.ciphertext_eq,
      hrest, List.take_nil, List.append_nil] at hwhole
    omega
  · obtain ⟨bs, hread, -, hsplit, -, -⟩ := h.read_ok (n := min n r.remaining) hf.inv
    rw [hrest] at hsplit
    obtain rfl : bs = [] := (List.append_eq_nil_iff.1 hsplit).1
    rcases hraw : read (min n r.remaining) r.inner with ⟨answer, inner⟩
    rw [hraw] at hread
    dsimp only at hread
    subst hread
    simp only [Read.read, if_neg hrem, hraw]

/-- A read with no ciphertext left. -/
theorem read_last (h : Serves rest I) (hf : Flowing rest I stream x r)
    (hdata : x.data = stream.take x.compressedSize)
    (hroom : overhead x.info.strength ≤ x.compressedSize) (n : Nat)
    (hend : r.remaining = 0 ∨ rest r.inner = []) :
    ((read n r).1 = .ok [] ↔ x.Authentic k) ∧
      (¬ x.Authentic k → ∃ e, (read n r).1 = .error e) := by
  by_cases hrem : r.remaining = 0
  · exact read_code h hf hdata hroom n hrem
  · obtain ⟨hnot, hread⟩ := read_cut h hf hdata hroom n hrem (hend.resolve_left hrem)
    rw [hread]
    exact ⟨iff_of_false (fun hok => by cases hok) hnot, fun _ => ⟨_, rfl⟩⟩

/-- **A run of reads**, piece by piece, up to the first read behind the ciphertext. -/
theorem runs (h : Serves rest I) (hf : Flowing rest I stream x r)
    (hdata : x.data = stream.take x.compressedSize)
    (hroom : overhead x.info.strength ≤ x.compressedSize) {ns : List Nat} (hns : ∀ n ∈ ns, 0 < n) :
    ∃ (pieces : List Bytes) (tail : _), (reads ns r).1 = pieces.map .ok ++ tail ∧
      (∀ p ∈ pieces, p ≠ []) ∧ pieces.flatten <+: (r.cipher.apply k ((rest r.inner).take r.remaining)).1 ∧
      (reads (ns.take pieces.length) r).2.hmac = ⟨x.macKey k,
        r.hmac.fed ++ ((rest r.inner).take r.remaining).take pieces.flatten.length⟩ ∧
      (∀ last more, tail = last :: more →
        pieces.flatten = (r.cipher.apply k ((rest r.inner).take r.remaining)).1 ∧
          (last = .ok [] ↔ x.Authentic k) ∧ (¬ x.Authentic k → ∃ e, last = .error e)) ∧
      (r.remaining < ns.length → tail ≠ []) := by
  induction ns generalizing r with
  | nil =>
    refine ⟨[], [], rfl, List.forall_mem_nil _, List.nil_prefix, ?_,
      fun last more htail => (by cases htail), fun hlt => absurd hlt (Nat.not_lt_zero _)⟩
    show r.hmac = ⟨_, r.hmac.fed ++ []⟩
    rw [List.append_nil, ← hf.key]
  | cons n ns ih =>
    obtain ⟨hn, hns⟩ := List.forall_mem_cons.1 hns
    rw [reads_cons]
    by_cases hend : r.remaining = 0 ∨ rest r.inner = []
    · -- this read is the first one behind the ciphertext
      refine ⟨[], _, rfl, List.forall_mem_nil _, List.nil_prefix, ?_, ?_, fun _ => List.cons_ne_nil _ _⟩
      · show r.hmac = ⟨_, r.hmac.fed ++ []⟩
        rw [List.append_nil, ← hf.key]
      · intro last more htail
        obtain ⟨rfl, -⟩ := List.cons.inj htail
        refine ⟨?_, read_last h hf hdata hroom n hend⟩
        have hnil : (rest r.inner).take r.remaining = [] := List.take_eq_nil_iff.2 hend
        rw [hnil]
        rfl
    · obtain ⟨hrem, hrest⟩ := not_or.1 hend
      obtain ⟨b, bs, hanswer, hsplit, hfed, hcipher, hf'⟩ := read_piece h hf hn hrem hrest
      obtain ⟨pieces, tail, hrun, hne, hprefix, hhmac, hlast, hlong⟩ := ih hf' hns
      have hpiece : (r.cipher.apply k (b :: bs)).1.length = (b :: bs).length := length_apply _ _
      have hwhole : (r.cipher.apply k ((rest r.inner).take r.remaining)).1 =
          (r.cipher.apply k (b :: bs)).1 ++ ((read n r).2.cipher.apply k
            ((rest (read n r).2.inner).take (read n r).2.remaining)).1 := by
        rw [← hsplit, AesCtr.apply_append, hcipher]
      have htake : ((rest r.inner).take r.remaining).take
          ((b :: bs).length + pieces.flatten.length) = (b :: bs) ++
            ((rest (read n r).2.inner).take (read n r).2.remaining).take pieces.flatten.length := by
        rw [← hsplit, List.take_append, List.take_of_length_le (Nat.le_add_right _ _),
          Nat.add_sub_cancel_left]
      refine ⟨(r.cipher.apply k (b :: bs)).1 :: pieces, tail, ?_, ?_, ?_, ?_, ?_, ?_⟩
      · rw [hanswer, hrun]
        rfl
      · refine List.forall_mem_cons.2 ⟨fun hnil => ?_, hne⟩
        rw [hnil] at hpiece
        cases hpiece
      · rw [List.flatten_cons, hwhole]
        exact List.prefix_append_right_inj _ |>.2 hprefix
      · show (reads (ns.take pieces.length) (read n r).2).2.hmac = _
        rw [hhmac, hfed, List.flatten_cons, List.length_append, hpiece, htake, List.append_assoc]
      · intro last more htail
        obtain ⟨hflat, hauth⟩ := hlast last more htail
        exact ⟨by rw [List.flatten_cons, hwhole, hflat], hauth⟩
      · intro hlt
        refine hlong ?_
        have htotal := hf.remaining
        have htotal' := hf'.remaining
        rw [hfed, List.length_append, List.length_cons] at htotal'
        rw [List.length_cons] at hlt
        omega

end Flowing

end AesReader

open AesReader (overhead)

end ZipForensic
