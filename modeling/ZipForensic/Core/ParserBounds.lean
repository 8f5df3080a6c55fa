import ZipForensic.Core.LayoutView
import ZipForensic.Core.StoredMembers
import ZipForensic.Core.Placement

/-!
# The arithmetic of the container parser (archive.rs)

The model makes every `u64`/`usize` sum and difference of the parser and every computed
slice a step that can panic (`addU64`, `subU64`, `sliceFrom`, `sliceRange`). Here each of
them is followed to the guard that keeps it in range.

- `Reader.Yields`: what a parse returns, and that it only consumes.
- `directoryOf_panic_iff`: one sum has no guard. A directory found behind a prefix has the
  prefix added to every recorded local-header offset, and a Zip64 extra field may have
  recorded any 64-bit value.
- `parsesInRange_iff`: `new`, `structural_view` and `by_index` together.
-/

namespace ZipForensic

open ArchiveM

variable {k : Crates}

/-! ## Results without a panic -/

namespace Res

variable {ε α β : Type}

/-- Every sum, difference and slice stayed in range: a value, or a typed error. -/
def InRange (x : Res ε α) : Prop := x ≠ .error .panic

namespace InRange

theorem ok (a : α) : InRange (.ok a : Res ε α) := fun h => by cases h

theorem err (e : ε) : InRange (Res.err e : Res ε α) := fun h => by cases h

theorem bind {x : Res ε α} {f : α → Res ε β} (hx : x.InRange)
    (hf : ∀ a, x = .ok a → (f a).InRange) : InRange (x >>= f) := by
  rcases x with e | a
  · intro h
    exact hx (congrArg Except.error (Except.error.inj h))
  · exact hf a rfl

theorem bind_iff {x : Res ε α} {f : α → Res ε β} (hf : ∀ a, x = .ok a → (f a).InRange) :
    (x >>= f).InRange ↔ x.InRange := by
  refine ⟨?_, fun hx => hx.bind hf⟩
  rintro h rfl
  exact h rfl

theorem ite {p : Prop} [Decidable p] {x y : Res ε α} (hx : p → x.InRange)
    (hy : ¬ p → y.InRange) : InRange (if p then x else y) := by
  split_ifs with h
  · exact hx h
  · exact hy h

end InRange

end Res

open Res (InRange)

/-! ## What a parse returns -/

namespace Reader

variable {α β : Type}

/-- A result of `x` satisfies `P`, and `x` only consumes. -/
def Yields (x : Reader α) (P : α → Prop) : Prop :=
  ∀ data a rest, runOn x data = .ok (a, rest) → P a ∧ rest.length ≤ data.length

namespace Yields

variable {P : α → Prop} {Q : β → Prop} {x y : Reader α}

theorem pure {a : α} (h : P a) : Yields (Pure.pure a) P := by
  intro data a' rest hrun
  obtain ⟨rfl, rfl⟩ := Prod.mk.inj (Except.ok.inj hrun)
  exact ⟨h, Nat.le_refl _⟩

theorem throw (e : FormatError) : Yields (MonadExcept.throw e) P := by
  intro data a rest hrun
  cases hrun

theorem bind {f : α → Reader β} (hx : Yields x P) (hf : ∀ a, P a → Yields (f a) Q) :
    Yields (x >>= f) Q := by
  intro data b rest hrun
  rw [runOn_bind] at hrun
  rcases hfirst : runOn x data with e | ⟨a, mid⟩
  · rw [hfirst] at hrun
    cases hrun
  · rw [hfirst] at hrun
    obtain ⟨ha, hmid⟩ := hx _ _ _ hfirst
    obtain ⟨hb, hrest⟩ := hf a ha _ _ _ hrun
    exact ⟨hb, Nat.le_trans hrest hmid⟩

theorem ite {p : Prop} [Decidable p] (hx : p → Yields x P) (hy : ¬ p → Yields y P) :
    Yields (if p then x else y) P := by
  split_ifs with h
  · exact hx h
  · exact hy h

theorem remaining : Yields Reader.remaining fun _ => True := by
  intro data a rest hrun
  obtain ⟨-, rfl⟩ := Prod.mk.inj (Except.ok.inj hrun)
  exact ⟨trivial, Nat.le_refl _⟩

theorem take (n : Nat) : Yields (Reader.take n) fun bs => bs.length = n := by
  intro data a rest hrun
  rw [runOn_take] at hrun
  split_ifs at hrun with h
  obtain ⟨rfl, rfl⟩ := Prod.mk.inj (Except.ok.inj hrun)
  refine ⟨?_, ?_⟩
  · exact List.length_take_of_le h
  · rw [List.length_drop]
    exact Nat.sub_le _ _

theorem number {n : Nat} : Yields (do let b ← Reader.take n; return leNat b) (· < 256 ^ n) :=
  (take n).bind fun bs hbs => .pure (hbs ▸ leNat_lt bs)

theorem u16 : Yields Reader.u16 (· < 256 ^ 2) := number

theorem u32 : Yields Reader.u32 (· < 256 ^ 4) := number

theorem u64 : Yields Reader.u64 (· < 256 ^ 8) := number

end Yields

end Reader

open Reader (Yields)

/-- The directory offset of a Zip64 record is a `u64`. -/
theorem yields_parseZip64Eocd (off : Nat) :
    Yields (parseZip64Eocd off) fun x => x.1 ≤ u64Max := by
  unfold parseZip64Eocd
  refine Yields.u32.bind fun sig _ => ?_
  refine .ite (fun _ => .bind (P := fun _ => False) (.throw _) fun _ h => h.elim) fun _ => ?_
  refine Yields.u64.bind fun _ _ => Yields.u16.bind fun _ _ => Yields.u16.bind fun _ _ => ?_
  refine Yields.u32.bind fun _ _ => Yields.u32.bind fun _ _ => Yields.u64.bind fun _ _ => ?_
  refine Yields.u64.bind fun _ _ => Yields.u64.bind fun _ _ => Yields.u64.bind fun cdOffset h => ?_
  exact .pure (Nat.le_pred_of_lt h)

/-- AES parameters come with method 99. -/
def CentralEntry.AesMarked (m : CentralEntry) : Prop := m.aes ≠ none → m.method = .fromU16 99

/-- A central header consumes its bytes. -/
theorem yields_parseCdFields : Yields parseCdFields CentralEntry.AesMarked := by
  unfold parseCdFields
  refine Yields.u16.bind fun _ _ => Yields.u16.bind fun _ _ => Yields.u16.bind fun flags _ => ?_
  refine Yields.u16.bind fun methodRaw _ => Yields.u16.bind fun _ _ => Yields.u16.bind fun _ _ => ?_
  refine Yields.u32.bind fun crc32 _ => Yields.u32.bind fun csize _ => ?_
  refine Yields.u32.bind fun usize _ => Yields.u16.bind fun _ _ => Yields.u16.bind fun _ _ => ?_
  refine Yields.u16.bind fun _ _ => Yields.u16.bind fun _ _ => Yields.u16.bind fun _ _ => ?_
  refine Yields.u32.bind fun _ _ => Yields.u32.bind fun offset _ => ?_
  refine (Yields.take _).bind fun _ _ => (Yields.take _).bind fun extra _ => ?_
  refine (Yields.take _).bind fun _ _ => ?_
  dsimp only
  rcases (if usize = u32Sentinel ∨ csize = u32Sentinel ∨ offset = u32Sentinel then
    applyZip64Extra extra (usize = u32Sentinel) (csize = u32Sentinel) (offset = u32Sentinel)
      usize csize offset
    else .ok (usize, csize, offset)) with e | ⟨u, c, o⟩
  · exact .throw _
  · refine .pure fun haes => ?_
    by_cases hmethod : methodRaw = 99
    · exact congrArg CompressionMethod.fromU16 hmethod
    · exact absurd (if_neg hmethod) haes

theorem yields_parseCdEntry (cdLen : Nat) : Yields (parseCdEntry cdLen) CentralEntry.AesMarked := by
  unfold parseCdEntry
  refine Yields.remaining.bind fun left _ => .ite (fun _ => .throw _) fun _ => ?_
  refine Yields.u32.bind fun sig _ => .ite (fun _ => ?_) fun _ => yields_parseCdFields
  exact Yields.remaining.bind fun _ _ => .throw _

/-- Any number of central headers consume their bytes. -/
theorem yields_parseCdEntriesLoop (cdLen total : Nat) :
    Yields (parseCdEntriesLoop cdLen total) fun entries => ∀ m ∈ entries, m.AesMarked := by
  induction total with
  | zero => exact .pure fun m hm => absurd hm List.not_mem_nil
  | succ total ih =>
    unfold parseCdEntriesLoop
    refine (yields_parseCdEntry cdLen).bind fun e he => ih.bind fun es hes => .pure fun m hm => ?_
    rcases List.mem_cons.1 hm with rfl | hm
    · exact he
    · exact hes m hm

/-! ## The one sum without a guard -/

/-- The last record of `F` is not a Zip64 one, no directory is where it points, and `n`
bytes behind that there is one with these headers. -/
structure ShiftedDirectory (F : Bytes) (p n : Nat) (entries : List CentralEntry) : Prop where
  last : LastEocd F p
  window : F.length ≤ p + eocdScanMax
  plain : (eocdOf F p).isZip64 = false
  pos : 0 < n
  ends : (eocdOf F p).cdOffset + (eocdOf F p).cdSize + n = p
  nothing : headerAt F (eocdOf F p).cdOffset = false
  here : headerAt F ((eocdOf F p).cdOffset + n) = true
  headers : ∃ used, parseCdEntries (slice F ((eocdOf F p).cdOffset + n) (eocdOf F p).cdSize)
    (eocdOf F p).totalEntries = .ok (entries, used)

theorem inRange_parseRes {α : Type} (x : Reader α) (data : Bytes) : InRange (parseRes x data) := by
  unfold parseRes
  rcases Reader.runOn x data with e | ⟨a, rest⟩
  · exact .err _
  · exact .ok _

theorem inRange_zip64At (F tail : Bytes) (eocdRel : Nat) : InRange (zip64At F tail eocdRel) := by
  unfold zip64At
  refine .ite (fun _ => .err _) fun _ => .bind (inRange_parseRes _ _) fun off _ => ?_
  exact .ite (fun _ => inRange_parseRes _ _) fun _ => .err _

theorem zip64At_cdOffset_le {F tail : Bytes} {eocdRel cdOffset : Nat} {x : Nat × Nat × Nat × Nat}
    (h : zip64At F tail eocdRel = .ok (cdOffset, x)) : cdOffset ≤ u64Max := by
  unfold zip64At at h
  split_ifs at h
  · cases h
  · obtain ⟨off, -, h⟩ := Res.of_bind_ok h
    split_ifs at h
    · unfold parseRes at h
      rcases hrun : Reader.runOn (parseZip64Eocd off) (slice F off 56) with e | ⟨y, rest⟩
      · rw [hrun] at h
        cases h
      · rw [hrun] at h
        obtain rfl := Except.ok.inj h
        exact (yields_parseZip64Eocd off _ _ _ hrun).1
    · cases h

/-- Shifting the entries fails exactly where one does not fit. -/
theorem shiftEntries_panic_iff {n : Nat} {entries : List CentralEntry} :
    shiftEntries n entries = .error .panic ↔ ∃ e ∈ entries, u64Max < e.lfhOffset + n := by
  by_cases hfit : ∀ e ∈ entries, e.lfhOffset + n ≤ u64Max
  · rw [shiftEntries_eq hfit]
    constructor
    · intro h
      cases h
    · rintro ⟨e, he, hlt⟩
      have := hfit e he
      omega
  · constructor
    · intro _
      simp only [not_forall, not_le] at hfit
      obtain ⟨e, he, hlt⟩ := hfit
      exact ⟨e, he, hlt⟩
    · rintro -
      induction entries with
      | nil => exact absurd (fun e he => absurd he List.not_mem_nil) hfit
      | cons m ms ih =>
        unfold shiftEntries at ih ⊢
        rw [List.mapM_cons]
        by_cases hm : m.lfhOffset + n ≤ u64Max
        · rw [addU64_eq hm]
          have hms : ¬ ∀ e ∈ ms, e.lfhOffset + n ≤ u64Max := fun hms =>
            hfit fun e he => (List.mem_cons.1 he).elim (fun h => h ▸ hm) (hms e)
          have htail := ih hms
          simp only [Res.bind_ok, pure_bind]
          rw [htail]
          rfl
        · rw [addU64, if_neg hm]
          rfl

theorem of_shiftEntries {n : Nat} {entries shifted : List CentralEntry}
    (h : shiftEntries n entries = .ok shifted) :
    shifted = entries.map (CentralEntry.shift n) := by
  have hfit : ∀ e ∈ entries, e.lfhOffset + n ≤ u64Max := by
    by_contra hlarge
    simp only [not_forall, not_le] at hlarge
    obtain ⟨e, he, hlt⟩ := hlarge
    rw [shiftEntries_panic_iff.2 ⟨e, he, hlt⟩] at h
    cases h
  rw [shiftEntries_eq hfit] at h
  exact (Except.ok.inj h).symm

/-- Reading the directory: the shift is the only step that can leave the range. -/
theorem directoryAt_panic_iff {F : Bytes} {eocdEnd commentLen cdOffset cdSize total disk cdDisk
    pre : Nat} (hoff : cdOffset + pre ≤ u64Max) :
    directoryAt F eocdEnd commentLen cdOffset cdSize total disk cdDisk pre = .error .panic ↔
      cdOffset + pre + cdSize ≤ F.length ∧ total ≤ maxEntries ∧ 0 < pre ∧ ∃ entries used,
        parseCdEntries (slice F (cdOffset + pre) cdSize) total = .ok (entries, used) ∧
          ∃ e ∈ entries, u64Max < e.lfhOffset + pre := by
  unfold directoryAt
  rw [addU64_eq hoff, Res.bind_ok]
  by_cases hrange : F.length < cdOffset + pre + cdSize
  · rw [if_pos hrange]
    constructor
    · intro h
      cases h
    · rintro ⟨h, -⟩
      omega
  · rw [if_neg hrange]
    by_cases htotal : maxEntries < total
    · rw [if_pos htotal]
      constructor
      · intro h
        cases h
      · rintro ⟨-, h, -⟩
        omega
    · rw [if_neg htotal]
      rcases hparse : parseCdEntries (slice F (cdOffset + pre) cdSize) total with e | ⟨entries, used⟩
      · constructor
        · intro h
          cases h
        · rintro ⟨-, -, -, entries, used, h, -⟩
          cases h
      · dsimp only
        by_cases hpre : 0 < pre
        · rw [if_pos hpre]
          constructor
          · intro h
            refine ⟨Nat.not_lt.1 hrange, Nat.not_lt.1 htotal, hpre, entries, used, rfl, ?_⟩
            rw [← shiftEntries_panic_iff]
            rcases hshift : shiftEntries pre entries with e | shifted
            · rw [hshift] at h
              exact congrArg Except.error (Except.error.inj h)
            · rw [hshift] at h
              cases h
          · rintro ⟨-, -, -, entries', used', heq, hlarge⟩
            obtain ⟨rfl, rfl⟩ := Prod.mk.inj (Except.ok.inj heq)
            rw [shiftEntries_panic_iff.2 hlarge]
            rfl
        · rw [if_neg hpre]
          constructor
          · intro h
            cases h
          · rintro ⟨-, -, h, -⟩
            exact absurd h hpre

/-- The detected prefix of a plain archive, as its last record and the headers have it. -/
theorem prefixOf_plain {F : Bytes} {p cdOffset cdSize : Nat} (hp : p ≤ u64Max)
    (hend : cdOffset + cdSize ≤ u64Max) :
    prefixOf F false p cdOffset cdSize = .ok
      (if cdOffset + cdSize < p ∧ headerAt F cdOffset = false ∧
        headerAt F (cdOffset + (p - (cdOffset + cdSize))) = true then p - (cdOffset + cdSize)
      else 0) := by
  unfold prefixOf
  rw [Nat.min_eq_left hend, if_neg Bool.false_ne_true]
  by_cases hroom : cdOffset + cdSize < p
  · rw [if_pos hroom]
    cases hhere : headerAt F cdOffset with
    | true =>
      rw [if_pos rfl, if_neg fun h => Bool.noConfusion h.2.1]
    | false =>
      rw [if_neg Bool.false_ne_true, addU64_eq (by omega), Res.bind_ok]
      cases hshift : headerAt F (cdOffset + (p - (cdOffset + cdSize))) with
      | true => rw [if_pos rfl, if_pos ⟨hroom, rfl, rfl⟩]
      | false => rw [if_neg Bool.false_ne_true, if_neg fun h => Bool.noConfusion h.2.2]
  · rw [if_neg hroom, if_neg fun h => hroom h.1]

theorem prefixOf_zip64 (F : Bytes) (p cdOffset cdSize : Nat) :
    prefixOf F true p cdOffset cdSize = .ok 0 := rfl

theorem inRange_directoryOf_of_unscanned {F : Bytes}
    (h : ∀ p, LastEocd F p → ¬ F.length ≤ p + eocdScanMax) : InRange (directoryOf F) := by
  unfold directoryOf
  refine .ite (fun _ => .err _) fun _ => ?_
  obtain ⟨found, hfind⟩ := findEocd_ok (scanTail F)
  rw [hfind, Res.bind_ok]
  cases found with
  | none => exact .err _
  | some rel =>
    refine absurd ?_ (h _ ((findEocd_tail_iff F rel).1 hfind))
    unfold scanStart
    omega

section LastRecord

variable {F : Bytes} {p : Nat} (hlen : F.length ≤ isizeMax) (hlast : LastEocd F p)
  (hwindow : F.length ≤ p + eocdScanMax)
include hlen hlast hwindow

/-- The offsets of a Zip64 record are not shifted. -/
theorem inRange_directoryOf_of_zip64 (hzip64 : (eocdOf F p).isZip64 = true) :
    InRange (directoryOf F) := by
  rw [directoryOf_eq hlast hwindow hlen]
  unfold resolvedEocd
  rw [if_pos hzip64]
  rcases hzip : zip64At F (scanTail F) (p - scanStart F) with
    e | ⟨cdOffset, cdSize, total, disk, cdDisk⟩
  · intro h
    obtain rfl := Except.error.inj h
    exact inRange_zip64At _ _ _ hzip
  · rw [Res.bind_ok]
    dsimp only
    rw [hzip64, prefixOf_zip64, Res.bind_ok]
    intro h
    obtain ⟨-, -, hpos, -⟩ := (directoryAt_panic_iff (zip64At_cdOffset_le hzip)).1 h
    exact absurd hpos (Nat.lt_irrefl 0)

theorem directoryOf_panic_iff_of_plain (hplain : (eocdOf F p).isZip64 = false) :
    directoryOf F = .error .panic ↔
      ∃ n entries, ShiftedDirectory F p n entries ∧ ∃ e ∈ entries, u64Max < e.lfhOffset + n := by
  have hp := hlast.here.1
  have hoff : (eocdOf F p).cdOffset < 256 ^ 4 := leNat_slice_lt F (p + 16) 4
  have hsize : (eocdOf F p).cdSize < 256 ^ 4 := leNat_slice_lt F (p + 12) 4
  have htotal := eocdOf_totalEntries_lt F p
  have hsmall : p ≤ u64Max := by
    unfold eocdMin isizeMax u64Max at *
    omega
  have hend : (eocdOf F p).cdOffset + (eocdOf F p).cdSize ≤ u64Max := by
    unfold u64Max
    omega
  rw [directoryOf_eq hlast hwindow hlen]
  unfold resolvedEocd
  rw [if_neg (by rw [hplain]; exact Bool.false_ne_true), Res.bind_ok]
  dsimp only
  rw [hplain, prefixOf_plain hsmall hend, Res.bind_ok]
  by_cases hfound : (eocdOf F p).cdOffset + (eocdOf F p).cdSize < p ∧
      headerAt F (eocdOf F p).cdOffset = false ∧
      headerAt F ((eocdOf F p).cdOffset + (p - ((eocdOf F p).cdOffset + (eocdOf F p).cdSize))) =
        true
  · obtain ⟨hroom, hnothing, hhere⟩ := hfound
    rw [if_pos ⟨hroom, hnothing, hhere⟩, directoryAt_panic_iff (by omega)]
    constructor
    · rintro ⟨-, -, hpos, entries, used, hparse, hlarge⟩
      exact ⟨_, entries, ⟨hlast, hwindow, hplain, hpos, by omega, hnothing, hhere, used, hparse⟩,
        hlarge⟩
    · rintro ⟨n, entries, hshifted, hlarge⟩
      have hends := hshifted.ends
      obtain rfl : n = p - ((eocdOf F p).cdOffset + (eocdOf F p).cdSize) := by omega
      obtain ⟨used, hparse⟩ := hshifted.headers
      refine ⟨?_, ?_, hshifted.pos, entries, used, hparse, hlarge⟩
      · unfold eocdMin at hp
        omega
      · unfold maxEntries
        omega
  · rw [if_neg hfound, directoryAt_panic_iff (by omega)]
    refine iff_of_false (fun h => absurd h.2.2.1 (Nat.lt_irrefl 0)) ?_
    rintro ⟨n, entries, hshifted, -⟩
    have hends := hshifted.ends
    have hpos := hshifted.pos
    refine hfound ⟨by omega, hshifted.nothing, ?_⟩
    rw [show p - ((eocdOf F p).cdOffset + (eocdOf F p).cdSize) = n by omega]
    exact hshifted.here

end LastRecord

/-- Parsing the container leaves the range exactly where an entry of a directory found
behind a prefix is recorded too close to the end of the 64-bit range. -/
theorem directoryOf_panic_iff {F : Bytes} (hlen : F.length ≤ isizeMax) :
    directoryOf F = .error .panic ↔ ∃ p n entries, ShiftedDirectory F p n entries ∧
      ∃ e ∈ entries, u64Max < e.lfhOffset + n := by
  constructor
  · intro h
    obtain ⟨p, hlast, hwindow⟩ : ∃ p, LastEocd F p ∧ F.length ≤ p + eocdScanMax := by
      by_contra hnone
      refine inRange_directoryOf_of_unscanned (fun p hlast hwindow => ?_) h
      exact hnone ⟨p, hlast, hwindow⟩
    cases hplain : (eocdOf F p).isZip64 with
    | true => exact absurd h (inRange_directoryOf_of_zip64 hlen hlast hwindow hplain)
    | false => exact ⟨p, (directoryOf_panic_iff_of_plain hlen hlast hwindow hplain).1 h⟩
  · rintro ⟨p, n, entries, hshifted, hlarge⟩
    exact (directoryOf_panic_iff_of_plain hlen hshifted.last hshifted.window hshifted.plain).2
      ⟨n, entries, hshifted, hlarge⟩

/-! ## What holds of every entry -/

/-- The headers of a directory, parsed where its summary says they are. -/
theorem parsed_of_directoryAt {F : Bytes} {eocdEnd commentLen cdOffset cdSize total disk cdDisk
    pre : Nat} {entries : List CentralEntry} {summary : ArchiveSummary}
    (h : directoryAt F eocdEnd commentLen cdOffset cdSize total disk cdDisk pre =
      .ok (entries, summary)) :
    (∃ parsed used, parseCdEntries (slice F summary.centralDirOffset summary.centralDirSize) total =
      .ok (parsed, used) ∧ entries = parsed.map (CentralEntry.shift pre)) ∧
      summary.diskNumber = disk ∧ summary.cdStartDisk = cdDisk := by
  unfold directoryAt at h
  obtain ⟨start, -, h⟩ := Res.of_bind_ok h
  by_cases hrange : F.length < start + cdSize
  · rw [if_pos hrange] at h
    cases h
  · by_cases hcount : maxEntries < total
    · rw [if_neg hrange, if_pos hcount] at h
      cases h
    · rw [if_neg hrange, if_neg hcount] at h
      rcases hparse : parseCdEntries (slice F start cdSize) total with e | ⟨parsed, used⟩
      · rw [hparse] at h
        cases h
      · rw [hparse] at h
        dsimp only at h
        obtain ⟨shifted, hshift, h⟩ := Res.of_bind_ok h
        obtain ⟨rfl, rfl⟩ := Prod.mk.inj (Except.ok.inj h)
        refine ⟨⟨parsed, used, hparse, ?_⟩, rfl, rfl⟩
        by_cases hpre : 0 < pre
        · rw [if_pos hpre] at hshift
          exact of_shiftEntries hshift
        · rw [if_neg hpre] at hshift
          rw [Nat.eq_zero_of_not_pos hpre, CentralEntry.shift_zero, List.map_id]
          exact (Except.ok.inj hshift).symm

theorem parsed_of_directoryOf {F : Bytes} {entries : List CentralEntry}
    {summary : ArchiveSummary} (h : directoryOf F = .ok (entries, summary)) :
    ∃ parsed total used n,
      parseCdEntries (slice F summary.centralDirOffset summary.centralDirSize) total =
        .ok (parsed, used) ∧ entries = parsed.map (CentralEntry.shift n) := by
  unfold directoryOf at h
  split_ifs at h
  · cases h
  · obtain ⟨found, -, h⟩ := Res.of_bind_ok h
    cases found with
    | none => cases h
    | some rel =>
      obtain ⟨eocd, -, h⟩ := Res.of_bind_ok h
      unfold directoryFrom at h
      obtain ⟨eocdPos, -, h⟩ := Res.of_bind_ok h
      obtain ⟨recordEnd, -, h⟩ := Res.of_bind_ok h
      obtain ⟨eocdEnd, -, h⟩ := Res.of_bind_ok h
      obtain ⟨⟨cdOffset, cdSize, total, disk, cdDisk⟩, -, h⟩ := Res.of_bind_ok h
      obtain ⟨pre, -, h⟩ := Res.of_bind_ok h
      obtain ⟨⟨parsed, used, hparse, hentries⟩, -⟩ := parsed_of_directoryAt h
      exact ⟨parsed, total, used, pre, hparse, hentries⟩

theorem inRange_lfhAt {F : Bytes} (hlen : F.length ≤ isizeMax) (off : Nat) :
    InRange (lfhAt F off) := by
  rw [lfhAt_eq hlen]
  refine .ite (fun _ => .ite (fun _ => ?_) fun _ => .err _) fun _ => .err _
  exact .ite (fun _ => .ok _) fun _ => .err _

theorem inRange_layoutsAt {F : Bytes} (hlen : F.length ≤ isizeMax) (index : Nat)
    (ms : List CentralEntry) : InRange (layoutsAt F index ms) := by
  induction ms generalizing index with
  | nil => exact .ok _
  | cons m ms ih =>
    unfold layoutsAt
    exact .bind (inRange_lfhAt hlen _) fun x _ => .bind (ih (index + 1)) fun rest _ => .ok _

theorem inRange_openedPlain {F : Bytes} (hlen : F.length ≤ isizeMax) (m : CentralEntry)
    (thisDisk cdStartDisk : Nat) :
    InRange (openedPlain F m thisDisk cdStartDisk :
      Res ZipCoreError (ZipFile k (Window IoError))) := by
  unfold openedPlain openedAt
  have hdisk : InRange (Res.lift (checkLocalDisk m thisDisk cdStartDisk)) := by
    rcases checkLocalDisk m thisDisk cdStartDisk with e | u
    · exact .err _
    · exact .ok _
  refine .bind hdisk fun _ _ => .ite (fun _ => .err _) fun _ => ?_
  refine .bind (inRange_lfhAt hlen _) fun x _ => ?_
  dsimp only
  rcases (ZipFile.openPlain m x.2 ⟨slice F x.2 m.compressedSize⟩ :
    Except _ (ZipFile k (Window IoError))) with ⟨e, w⟩ | f
  · exact .err _
  · exact .ok _

theorem byIndex_ne_panic {a : ZipArchive} (hlen : a.reader.bytes.length ≤ isizeMax) (i : Nat)
    (reader : Source) : (a.byIndex i : Opened k) ≠ .error (.panic, reader) := by
  unfold ZipArchive.byIndex
  cases a.entries[i]? with
  | none =>
    intro h
    cases h
  | some m =>
    intro h
    have hview := view_open (k := k) a m
    dsimp only at h
    rw [h] at hview
    exact inRange_openedPlain hlen m _ _ hview.symm

/-- The sink of a one-shot decoder never holds more than its cap. -/
theorem length_foldlM_cappedWrite_le {cap : Nat} {writes : List Bytes} {buf out : Bytes}
    (hbuf : buf.length ≤ cap) (h : writes.foldlM (cappedWrite cap) buf = .ok out) :
    out.length ≤ cap := by
  induction writes generalizing buf with
  | nil =>
    obtain rfl := Except.ok.inj h
    exact hbuf
  | cons data writes ih =>
    rw [List.foldlM_cons] at h
    obtain ⟨mid, hwrite, h⟩ := Res.of_bind_ok h
    unfold cappedWrite at hwrite
    split_ifs at hwrite with hcap
    obtain rfl := Except.ok.inj hwrite
    refine ih ?_ h
    rw [List.length_append]
    exact Nat.not_lt.1 hcap

/-! ## The whole parser -/

/-- Opening an archive on the file `F`, its structural view and the opening of its entries
stay in range. -/
structure ParsesInRange (k : Crates) (F : Bytes) : Prop where
  new : ∀ pos, InRange (ZipArchive.new ⟨F, pos⟩)
  /-- `cd.len() - r.remaining()`, behind any number of headers. -/
  headers : ∀ cd total entries rest,
    Reader.runOn (parseCdEntriesLoop cd.length total) cd = .ok (entries, rest) →
      rest.length ≤ cd.length
  structuralView : ∀ a : ZipArchive, a.reader.bytes = F → InRange a.structuralView.1
  byIndex : ∀ (a : ZipArchive) i reader, a.reader.bytes = F →
    (a.byIndex i : Opened k) ≠ .error (.panic, reader)
  /-- `self.buf.len() as u64 + data.len() as u64`, in the sink of the one-shot decoders. -/
  sink : ∀ (writes : List Bytes) (buf data : Bytes),
    writes.foldlM (cappedWrite maxBufferedDecode) [] = .ok buf → data.length ≤ isizeMax →
      buf.length + data.length ≤ u64Max

/-- **Parser arithmetic stays in range** exactly where no entry of a directory found behind
a prefix is recorded so far on that the prefix takes its offset out of the 64-bit range. -/
theorem parsesInRange_iff (k : Crates) {F : Bytes} (hlen : F.length ≤ isizeMax) :
    ParsesInRange k F ↔ ∀ p n entries, ShiftedDirectory F p n entries →
      ∀ e ∈ entries, e.lfhOffset + n ≤ u64Max := by
  constructor
  · intro h p n entries hshifted e he
    by_contra hlarge
    have hpanic := (directoryOf_panic_iff hlen).2
      ⟨p, n, entries, hshifted, e, he, Nat.not_le.1 hlarge⟩
    obtain ⟨pos', hnew⟩ := new_eq F 0
    rw [hpanic] at hnew
    exact h.new 0 hnew
  · intro h
    refine ⟨?_, ?_, ?_, ?_, ?_⟩
    · intro pos hpanic
      obtain ⟨pos', hnew⟩ := new_eq F pos
      rw [hpanic] at hnew
      rcases hdir : directoryOf F with e | x
      · rw [hdir] at hnew
        obtain rfl := Except.error.inj hnew
        obtain ⟨p, n, entries, hshifted, e, he, hlarge⟩ := (directoryOf_panic_iff hlen).1 hdir
        exact absurd (h p n entries hshifted e he) (Nat.not_le.2 hlarge)
      · rw [hdir] at hnew
        cases hnew
    · intro cd total entries rest hrun
      exact (yields_parseCdEntriesLoop cd.length total _ _ _ hrun).2
    · rintro a rfl
      obtain ⟨pos, hview⟩ := structuralView_eq a
      rw [hview]
      exact inRange_layoutsAt hlen 0 a.entries
    · rintro a i reader rfl
      exact byIndex_ne_panic hlen i reader
    · intro writes buf data hwrites hdata
      have hbuf := length_foldlM_cappedWrite_le (Nat.zero_le _) hwrites
      unfold maxBufferedDecode isizeMax u64Max at *
      omega

/-- One byte, then a central header whose local-header offset is the given byte and seven
bytes 255 by its Zip64 extra field, and an EOCD that is not Zip64. -/
def farMemberArchive (lowest : UInt8) : Bytes :=
  [0x20] ++
  -- central header, name, Zip64 extra field
  [0x50, 0x4B, 0x01, 0x02, 45, 0, 45, 0, 0, 0, 0, 0, 0, 0, 0, 0, 0, 0, 0, 0, 3, 0, 0, 0, 3, 0, 0, 0,
    1, 0, 12, 0, 0, 0, 0, 0, 0, 0, 0, 0, 0, 0, 0xFF, 0xFF, 0xFF, 0xFF] ++ [0x6D] ++
  [0x01, 0x00, 8, 0, lowest, 0xFF, 0xFF, 0xFF, 0xFF, 0xFF, 0xFF, 0xFF] ++
  -- EOCD
  [0x50, 0x4B, 0x05, 0x06, 0, 0, 0, 0, 1, 0, 1, 0, 59, 0, 0, 0, 0, 0, 0, 0, 0, 0]

/-- The member as its header has it, and what the parser leaves behind it. -/
def farMember : CentralEntry where
  name := "m"
  method := .stored
  flags := 0
  crc32 := 0
  compressedSize := 3
  uncompressedSize := 3
  lfhOffset := 2 ^ 64 - 2
  lastModTime := 0
  aes := none
  diskStart := 0
  extra := {}

/-- With nothing in front nothing is shifted; behind one byte a member at 2^64 - 2 is just
inside. -/
theorem farMemberArchive_parsesInRange :
    ParsesInRange .plain (storedArchive 3) ∧ ParsesInRange .plain (farMemberArchive 0xFE) ∧
      ShiftedDirectory (farMemberArchive 0xFE) 60 1 [farMember] := by
  have hlast : LastEocd (farMemberArchive 0xFE) 60 := (findEocd_iff _ _).1 (by decide +kernel)
  have hoffset : (eocdOf (farMemberArchive 0xFE) 60).cdOffset = 0 := by decide +kernel
  have hsize : (eocdOf (farMemberArchive 0xFE) 60).cdSize = 59 := by decide +kernel
  have hheaders : parseCdEntries (slice (farMemberArchive 0xFE)
      ((eocdOf (farMemberArchive 0xFE) 60).cdOffset + 1) (eocdOf (farMemberArchive 0xFE) 60).cdSize)
      (eocdOf (farMemberArchive 0xFE) 60).totalEntries = .ok ([farMember], 59) := by
    decide +kernel
  refine ⟨(parsesInRange_iff .plain (by decide)).2 fun p n entries hshifted => ?_,
    (parsesInRange_iff .plain (by decide)).2 fun p n entries hshifted => ?_,
    { last := hlast, window := by decide, plain := by decide +kernel, pos := Nat.one_pos,
      ends := by rw [hoffset, hsize], nothing := by decide +kernel, here := by decide +kernel,
      headers := ⟨59, hheaders⟩ }⟩
  · have hstored : LastEocd (storedArchive 3) 81 := (findEocd_iff _ _).1 (by decide +kernel)
    obtain rfl := hstored.unique hshifted.last
    have hends := hshifted.ends
    have hpos := hshifted.pos
    rw [show (eocdOf (storedArchive 3) 81).cdOffset + (eocdOf (storedArchive 3) 81).cdSize = 81 by
      decide +kernel] at hends
    omega
  · -- the directory is one byte further on, so its one member is too
    obtain rfl := hlast.unique hshifted.last
    have hends := hshifted.ends
    rw [hoffset, hsize] at hends
    obtain rfl : n = 1 := by omega
    obtain ⟨used, hused⟩ := hshifted.headers
    obtain ⟨rfl, -⟩ := Prod.mk.inj (Except.ok.inj (hused.symm.trans hheaders))
    intro e he
    obtain rfl := List.mem_singleton.1 he
    decide

/-- Shifting a member at 2^64 - 1 by the one byte in front takes its offset out of range. -/
theorem farMemberArchive_leaves_range :
    ZipArchive.new ⟨farMemberArchive 0xFF, 0⟩ = .error .panic ∧
      ¬ ParsesInRange .plain (farMemberArchive 0xFF) := by
  have hpanic : directoryOf (farMemberArchive 0xFF) = .error .panic := by decide +kernel
  obtain ⟨pos', hnew⟩ := new_eq (farMemberArchive 0xFF) 0
  rw [hpanic] at hnew
  exact ⟨hnew, fun h => h.new 0 hnew⟩

end ZipForensic
