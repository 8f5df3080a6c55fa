import ZipForensic.Stream.ReadM
import ZipForensic.Stream.Received

/-!
# Readers that serve a byte string in pieces

`Serves rest I`: a reader in a state of `I` answers every read with a piece of what is left
of its bytes, of a length of its own choice, and with nothing only where nothing is left or
nothing was asked for. How the bytes are cut is left open, and may depend on anything.

- `Serves.reads`: any run of reads; `Serves.reads_all`: one with enough non-empty buffers.
- `Serves.readExact`: `read_exact` on such a reader.
- `Chopped`: a reader with a schedule for its pieces.
-/

namespace ZipForensic

variable {ε ρ : Type} [Read ε ρ]

/-- One read takes a piece of at most the buffer's length off what is left. -/
structure Serves (rest : ρ → Bytes) (I : ρ → Prop) : Prop where
  read_ok : ∀ {r n}, I r → ∃ bs, (read n r).1 = .ok bs ∧ bs.length ≤ n ∧
    bs ++ rest (read n r).2 = rest r ∧ (bs = [] → n = 0 ∨ rest r = []) ∧ I (read n r).2

namespace Serves

variable {rest : ρ → Bytes} {I : ρ → Prop}

/-- A run of reads fails nowhere, and its pieces are a front of the bytes. -/
theorem reads (h : Serves rest I) (ns : List Nat) {r : ρ} (hr : I r) :
    I (ZipForensic.reads ns r).2 ∧
      (∀ x ∈ (ZipForensic.reads ns r).1, ∃ bs, x = .ok bs) ∧
      received (ZipForensic.reads ns r).1 ++ rest (ZipForensic.reads ns r).2 = rest r := by
  induction ns generalizing r with
  | nil => exact ⟨hr, List.forall_mem_nil _, rfl⟩
  | cons n ns ih =>
    obtain ⟨bs, hread, -, hsplit, -, hI⟩ := h.read_ok (n := n) hr
    obtain ⟨hI', hall, hrun⟩ := ih hI
    rw [reads_cons, received_cons, hread, deliveredBytes_ok, List.append_assoc, hrun, hsplit]
    exact ⟨hI', List.forall_mem_cons.mpr ⟨⟨bs, rfl⟩, hall⟩, rfl⟩

/-- As many non-empty buffers as there are bytes take all of them. -/
theorem reads_all (h : Serves rest I) {ns : List Nat} {r : ρ} (hr : I r)
    (hns : (rest r).length ≤ ns.countP (0 < ·)) : rest (ZipForensic.reads ns r).2 = [] := by
  induction ns generalizing r with
  | nil => exact List.length_eq_zero_iff.mp (Nat.le_zero.mp hns)
  | cons n ns ih =>
    obtain ⟨bs, hread, -, hsplit, hend, hI⟩ := h.read_ok (n := n) hr
    rw [reads_cons]
    refine ih hI ?_
    have hlen := congrArg List.length hsplit
    rw [List.length_append] at hlen
    rw [List.countP_cons] at hns
    by_cases hn : 0 < n
    · -- a non-empty buffer takes at least a byte, where there is one
      have hpos : bs = [] → rest r = [] := fun hnil => (hend hnil).resolve_left (by omega)
      rcases bs with _ | ⟨b, bs⟩
      · rw [hpos rfl, List.length_nil, Nat.zero_add] at hlen
        rw [hlen]
        exact Nat.zero_le _
      · rw [List.length_cons] at hlen
        simp only [hn, decide_true, if_true] at hns
        omega
    · simp only [hn, decide_false, Bool.false_eq_true, if_false] at hns
      omega

/-- `read_exact` gets the front of the bytes, if there are enough. -/
theorem readExactLoop_ok (h : Serves rest I) (eof : ε) {fuel n : Nat} (hfuel : n ≤ fuel) {r : ρ}
    (hr : I r) (hn : n ≤ (rest r).length) :
    ∃ r', ZipForensic.readExactLoop eof fuel n r = (.ok ((rest r).take n), r') ∧
      rest r' = (rest r).drop n ∧ I r' := by
  induction fuel generalizing n r with
  | zero =>
    obtain rfl : n = 0 := by omega
    exact ⟨r, rfl, rfl, hr⟩
  | succ fuel ih =>
    cases n with
    | zero => exact ⟨r, rfl, rfl, hr⟩
    | succ n =>
      obtain ⟨bs, hread, hle, hsplit, hend, hI⟩ := h.read_ok (n := n + 1) hr
      rcases hrun : read (n + 1) r with ⟨x, r'⟩
      rw [hrun] at hread hsplit hI
      dsimp only at hread hsplit hI
      subst hread
      cases bs with
      | nil =>
        -- an empty piece would be the end, and there are bytes left
        have hnil : rest r = [] := (hend rfl).resolve_left (by omega)
        rw [hnil] at hn
        exact absurd hn (by simp)
      | cons b bs =>
        rw [List.length_cons] at hle
        have hroom : n - bs.length ≤ (rest r').length := by
          rw [← hsplit, List.length_append, List.length_cons] at hn
          omega
        obtain ⟨r'', hloop, hrest, hI'⟩ := ih (by omega) hI hroom
        have htake : (rest r).take (n + 1) = b :: bs ++ (rest r').take (n - bs.length) := by
          rw [← hsplit, List.take_append, List.take_of_length_le (by simpa using hle),
            List.length_cons, Nat.add_sub_add_right]
        have hdrop : (rest r).drop (n + 1) = (rest r').drop (n - bs.length) := by
          rw [← hsplit, List.drop_append, List.drop_of_length_le (by simpa using hle),
            List.length_cons, Nat.add_sub_add_right, List.nil_append]
        refine ⟨r'', ?_, hrest.trans hdrop.symm, hI'⟩
        rw [ZipForensic.readExactLoop, hrun]
        dsimp only
        rw [hloop, htake]

/-- Where there are too few bytes, `read_exact` reports it. -/
theorem readExactLoop_eof (h : Serves rest I) (eof : ε) {fuel n : Nat} (hfuel : n ≤ fuel) {r : ρ}
    (hr : I r) (hn : (rest r).length < n) :
    ∃ r', ZipForensic.readExactLoop eof fuel n r = (.error eof, r') ∧ I r' := by
  induction fuel generalizing n r with
  | zero => omega
  | succ fuel ih =>
    cases n with
    | zero => omega
    | succ n =>
      obtain ⟨bs, hread, hle, hsplit, -, hI⟩ := h.read_ok (n := n + 1) hr
      rcases hrun : read (n + 1) r with ⟨x, r'⟩
      rw [hrun] at hread hsplit hI
      dsimp only at hread hsplit hI
      subst hread
      rw [ZipForensic.readExactLoop, hrun]
      cases bs with
      | nil => exact ⟨r', rfl, hI⟩
      | cons b bs =>
        rw [List.length_cons] at hle
        have hshort : (rest r').length < n - bs.length := by
          rw [← hsplit, List.length_append, List.length_cons] at hn
          omega
        obtain ⟨r'', hloop, hI'⟩ := ih (by omega) hI hshort
        dsimp only
        rw [hloop]
        exact ⟨r'', rfl, hI'⟩

theorem readExact_ok (h : Serves rest I) (eof : ε) {n : Nat} {r : ρ} (hr : I r)
    (hn : n ≤ (rest r).length) :
    ∃ r', ZipForensic.readExact eof n r = (.ok ((rest r).take n), r') ∧
      rest r' = (rest r).drop n ∧ I r' :=
  h.readExactLoop_ok eof (Nat.le_refl n) hr hn

theorem readExact_eof (h : Serves rest I) (eof : ε) {n : Nat} {r : ρ} (hr : I r)
    (hn : (rest r).length < n) :
    ∃ r', ZipForensic.readExact eof n r = (.error eof, r') ∧ I r' :=
  h.readExactLoop_eof eof (Nat.le_refl n) hr hn

/-- A `read_exact` that succeeded took the front of the bytes. -/
theorem of_runOn_readExact_ok (h : Serves rest I) {ω : Type} {eof : ε} {wrap : ε → ω} {n : Nat}
    {r r' : ρ} {bs : Bytes} (hr : I r)
    (hread : ReadM.runOn (ReadM.readExact eof wrap n) r = (.ok bs, r')) :
    n ≤ (rest r).length ∧ bs = (rest r).take n ∧ rest r' = (rest r).drop n ∧ I r' := by
  rw [ReadM.runOn_readExact] at hread
  by_cases hn : n ≤ (rest r).length
  · obtain ⟨i, hok, hrest, hi⟩ := h.readExact_ok eof hr hn
    rw [hok] at hread
    cases hread
    exact ⟨hn, rfl, hrest, hi⟩
  · obtain ⟨i, heof, -⟩ := h.readExact_eof eof hr (Nat.not_le.1 hn)
    rw [heof] at hread
    cases hread

end Serves

/-! ## A reader with a schedule -/

/-- A reader over a byte string that hands out pieces of the lengths `sizes 0`, `sizes 1`,
and so on, at least one byte each and as far as the buffer and the bytes go. -/
structure Chopped (ε : Type) where
  rest : Bytes
  sizes : Nat → Nat

namespace Chopped

/-- The bytes of the next piece. -/
def piece (c : Chopped ε) (n : Nat) : Bytes := c.rest.take (min n (max 1 (c.sizes 0)))

instance : Read ε (Chopped ε) where
  read n c := (.ok (c.piece n), ⟨c.rest.drop (c.piece n).length, fun i => c.sizes (i + 1)⟩)
  avail c := c.rest.length

/-- Whatever its schedule, the reader serves its bytes. -/
theorem serves : Serves (ε := ε) Chopped.rest fun _ => True where
  read_ok := by
    intro c n _
    refine ⟨c.piece n, rfl, ?_, ?_, ?_, trivial⟩
    · rw [piece, List.length_take]
      omega
    · show c.piece n ++ c.rest.drop (c.piece n).length = c.rest
      rw [piece, List.length_take]
      rcases Nat.le_total (min n (max 1 (c.sizes 0))) c.rest.length with h | h
      · rw [Nat.min_eq_left h, List.take_append_drop]
      · rw [Nat.min_eq_right h, List.take_of_length_le h, List.drop_length, List.append_nil]
    · intro hnil
      rcases List.take_eq_nil_iff.mp hnil with h | h
      · omega
      · exact .inr h

end Chopped

end ZipForensic
