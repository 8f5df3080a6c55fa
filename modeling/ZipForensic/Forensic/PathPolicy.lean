import ZipForensic.Core.EnclosedName
import ZipForensic.Forensic.Audit

/-!
# The reader and the auditor on unsafe names

`enclosed_name` (the reader) and `has_traversal` / `is_absolute` (the auditor) state
one policy twice.

- `startsWithDrive_nameBytes_iff`: the drive test on bytes is the one on characters.
- `enclosedName_agrees`: the reader refuses what the auditor reports, names with a NUL
  and names without a component; what it lets through resolves below any destination.
- `enclosedName_portable_iff`: the drive test sees the first two bytes of the name
  only, so a drive prefix behind a separator is pushed (`enclosedName_pushes_drive`).
-/

namespace ZipForensic

/-! ## The drive test -/

theorem nameBytes_eq (name : String) :
    nameBytes name = name.toList.flatMap String.utf8EncodeChar := by
  rw [nameBytes, ← String.utf8Encode_toList, List.utf8Encode]
  exact List.toList_data_toByteArray

/-- A character whose first byte is ASCII is that byte. -/
theorem utf8EncodeChar_lead (c : Char) :
    ∃ b rest, String.utf8EncodeChar c = b :: rest ∧
      (b.toNat ≤ 127 → b.toNat = c.toNat ∧ rest = []) := by
  have hc : c.val.toNat = c.toNat := rfl
  simp only [String.utf8EncodeChar, hc]
  split_ifs
  · refine ⟨_, _, rfl, fun _ => ⟨?_, rfl⟩⟩
    simp
    omega
  · refine ⟨_, _, rfl, fun h => ?_⟩
    simp at h
    omega
  · refine ⟨_, _, rfl, fun h => ?_⟩
    simp at h
    omega
  · refine ⟨_, _, rfl, fun h => ?_⟩
    simp at h
    omega

theorem utf8EncodeChar_ascii {c : Char} (h : c.toNat ≤ 127) :
    String.utf8EncodeChar c = [UInt8.ofNat c.toNat] := by
  have hc : c.val.toNat = c.toNat := rfl
  simp only [String.utf8EncodeChar, hc]
  rw [if_pos h]

theorem isAsciiAlphabetic_iff {c : Char} :
    isAsciiAlphabetic c = true ↔
      (97 ≤ c.toNat ∧ c.toNat ≤ 122) ∨ (65 ≤ c.toNat ∧ c.toNat ≤ 90) := by
  simp only [isAsciiAlphabetic, decide_eq_true_eq, Char.le_def, UInt32.le_iff_toNat_le]
  exact Iff.rfl

theorem isAsciiAlphabeticByte_iff {b : UInt8} :
    isAsciiAlphabeticByte b = true ↔
      (97 ≤ b.toNat ∧ b.toNat ≤ 122) ∨ (65 ≤ b.toNat ∧ b.toNat ≤ 90) := by
  simp [isAsciiAlphabeticByte]

theorem startsWithDrive_iff {bs : Bytes} :
    startsWithDrive bs = true ↔
      ∃ b rest, bs = b :: 0x3A :: rest ∧ isAsciiAlphabeticByte b = true := by
  constructor
  · intro h
    rcases bs with - | ⟨b₀, - | ⟨b₁, rest⟩⟩
    · cases h
    · cases h
    · simp only [startsWithDrive, Bool.and_eq_true, decide_eq_true_eq] at h
      exact ⟨b₀, rest, by rw [h.1], h.2⟩
  · rintro ⟨b, rest, rfl, hb⟩
    simp [startsWithDrive, hb]

/-- An ASCII letter followed by `:`. -/
def DrivePrefix (name : String) : Prop :=
  ∃ c, isAsciiAlphabetic c = true ∧ [c, ':'] <+: name.toList

/-- The drive test on the first two bytes of a name is one on its first two
characters. -/
theorem startsWithDrive_nameBytes_iff (name : String) :
    startsWithDrive (nameBytes name) = true ↔ DrivePrefix name := by
  rw [nameBytes_eq, startsWithDrive_iff]
  constructor
  · rintro ⟨b, rest, hbytes, hb⟩
    have hrange := isAsciiAlphabeticByte_iff.1 hb
    rcases hname : name.toList with - | ⟨c, cs⟩
    · simp [hname] at hbytes
    obtain ⟨b', tail, hc, hlead⟩ := utf8EncodeChar_lead c
    rw [hname, List.flatMap_cons, hc, List.cons_append] at hbytes
    obtain ⟨rfl, hsecond⟩ := List.cons.inj hbytes
    obtain ⟨hcb, rfl⟩ := hlead (by omega)
    rcases cs with - | ⟨d, ds⟩
    · simp at hsecond
    obtain ⟨b₁, tail, hd, hlead₁⟩ := utf8EncodeChar_lead d
    rw [List.nil_append, List.flatMap_cons, hd, List.cons_append] at hsecond
    obtain ⟨rfl, -⟩ := List.cons.inj hsecond
    obtain ⟨hdb, -⟩ := hlead₁ (by decide)
    have hcolon : d = ':' := Char.toNat_inj.1 (hdb.symm.trans (by decide))
    refine ⟨c, isAsciiAlphabetic_iff.2 (by omega), ds, ?_⟩
    rw [hname, hcolon]
    rfl
  · rintro ⟨c, hc, rest, hname⟩
    have hrange := isAsciiAlphabetic_iff.1 hc
    have hcolon : String.utf8EncodeChar ':' = [0x3A] := by decide
    refine ⟨UInt8.ofNat c.toNat, rest.flatMap String.utf8EncodeChar, ?_, ?_⟩
    · rw [← hname, List.flatMap_append, List.flatMap_cons, List.flatMap_cons, List.flatMap_nil,
        utf8EncodeChar_ascii (by omega), hcolon]
      rfl
    · rw [isAsciiAlphabeticByte_iff, UInt8.toNat_ofNat']
      omega

instance : DecidablePred DrivePrefix := fun name =>
  decidable_of_iff _ (startsWithDrive_nameBytes_iff name)

/-! ## The auditor's predicates -/

theorem hasTraversal_iff (name : String) : hasTraversal name = true ↔ ".." ∈ splitName name := by
  rw [hasTraversal, splitName, List.any_eq_true, List.mem_map]
  constructor
  · rintro ⟨c, hc, hup⟩
    exact ⟨c, hc, by rw [of_decide_eq_true hup]⟩
  · rintro ⟨c, hc, hup⟩
    have hchars : c = ['.', '.'] := by
      rw [← String.toList_ofList (l := c), hup]
      rfl
    exact ⟨c, hc, decide_eq_true hchars⟩

theorem isAbsolute_iff (name : String) :
    isAbsolute name = true ↔ name.toList.head?.any isSeparator = true ∨ DrivePrefix name := by
  rw [isAbsolute, DrivePrefix]
  rcases name.toList with - | ⟨c, - | ⟨d, rest⟩⟩
  · simp
  · simp
  · simp only [List.head?_cons, Option.any_some, Bool.or_eq_true, Bool.and_eq_true,
      decide_eq_true_eq, List.cons_prefix_cons, List.nil_prefix, and_true]
    constructor
    · rintro (h | ⟨hcolon, hc⟩)
      · exact .inl h
      · exact .inr ⟨c, hc, rfl, hcolon.symm⟩
    · rintro (h | ⟨_, hc, rfl, hcolon⟩)
      · exact .inl h
      · exact .inr ⟨hcolon.symm, hc⟩

/-! ## Agreement -/

/-- What the reader refuses, in the words of the auditor. -/
theorem enclosedName_eq_none_iff (name : String) :
    enclosedName name = none ↔
      hasTraversal name = true ∨ isAbsolute name = true ∨ Char.ofNat 0 ∈ name.toList ∨
        ∀ c ∈ splitName name, c = "" ∨ c = "." := by
  rw [hasTraversal_iff, isAbsolute_iff, ← startsWithDrive_nameBytes_iff]
  have hnil : components name = [] ↔ ∀ c ∈ splitName name, c = "" ∨ c = "." := by
    rw [components_eq, List.filter_eq_nil_iff]
    simp [or_iff_not_imp_left]
  rw [← hnil, Option.eq_none_iff_forall_ne_some]
  constructor
  · intro hnone
    by_contra hsafe
    simp only [not_or, Bool.not_eq_true] at hsafe
    obtain ⟨hup, ⟨hroot, hdrive⟩, hnul, hcomps⟩ := hsafe
    exact hnone _ (enclosedName_eq_some_iff.2 ⟨hnul, hroot, hdrive, hup, rfl, hcomps⟩)
  · intro hrefused path hsome
    obtain ⟨hnul, hroot, hdrive, hup, rfl, hcomps⟩ := enclosedName_eq_some_iff.1 hsome
    rcases hrefused with h | (h | h) | h | h
    · exact hup h
    · exact absurd h (by simp [hroot])
    · exact absurd h (by simp [hdrive])
    · exact hnul h
    · exact hcomps h

/-- The reader refuses what the auditor reports, names with a NUL and names without a
component; what it lets through is the list of the other components, and joined onto
a destination it resolves below it. -/
theorem enclosedName_agrees (name : String) :
    (enclosedName name = none ↔
      hasTraversal name = true ∨ isAbsolute name = true ∨ Char.ofNat 0 ∈ name.toList ∨
        ∀ c ∈ splitName name, c = "" ∨ c = ".") ∧
      ∀ path, enclosedName name = some path →
        path ≠ [] ∧ path = (splitName name).filter (fun c => c ≠ "" ∧ c ≠ ".") ∧
        (∀ c ∈ path, c ≠ ".." ∧ ∀ x ∈ c.toList, isSeparator x = false) ∧
        ∀ dest, resolve (· = ".") (· = "..") (dest ++ path) =
          resolve (· = ".") (· = "..") dest ++ path := by
  refine ⟨enclosedName_eq_none_iff name, fun path hsome => ?_⟩
  obtain ⟨-, -, -, hup, hpath, hne⟩ := enclosedName_eq_some_iff.1 hsome
  rw [components_eq] at hpath
  have hcomp : ∀ c ∈ path, c ∈ splitName name ∧ c ≠ "." := by
    intro c hc
    rw [hpath, List.mem_filter] at hc
    exact ⟨hc.1, (of_decide_eq_true hc.2).2⟩
  have hdots : ∀ c ∈ path, c ≠ ".." := by
    rintro c hc rfl
    exact hup (hcomp _ hc).1
  refine ⟨hne, hpath, fun c hc => ⟨hdots c hc, fun x hx => ?_⟩, fun dest => ?_⟩
  · obtain ⟨cs, hcs, rfl⟩ := List.mem_map.1 (hcomp c hc).1
    rw [String.toList_ofList] at hx
    by_contra hsep
    exact not_mem_of_mem_splitOnP (by simpa using hsep) hcs hx
  · exact resolve_append _ _ (fun c hc => ⟨(hcomp c hc).2, hdots c hc⟩) dest

/-! ## Drive prefixes behind a separator -/

/-- An ASCII letter and `:` right behind a separator. -/
def DriveBehindSeparator (name : String) : Prop :=
  ∃ s c, isSeparator s = true ∧ isAsciiAlphabetic c = true ∧ [s, c, ':'] <:+: name.toList

theorem not_isSeparator_of_alphabetic {c : Char} (h : isAsciiAlphabetic c = true) :
    isSeparator c = false := by
  have hrange := isAsciiAlphabetic_iff.1 h
  by_contra hsep
  have hsep : c = '/' ∨ c = '\\' := by
    simpa [isSeparator, or_iff_not_imp_left] using hsep
  rcases hsep with rfl | rfl
  · exact absurd hrange (by decide)
  · exact absurd hrange (by decide)

/-- A component begins with a drive prefix when the name does or when one stands
behind a separator. -/
theorem drivePrefix_component_iff (name : String) :
    (∃ c ∈ splitName name, DrivePrefix c) ↔ DrivePrefix name ∨ DriveBehindSeparator name := by
  have hword : ∀ {c}, isAsciiAlphabetic c = true → ∀ x ∈ [c, ':'], isSeparator x = false := by
    intro c hc x hx
    rcases List.mem_pair.1 hx with rfl | rfl
    · exact not_isSeparator_of_alphabetic hc
    · decide
  constructor
  · rintro ⟨_, hmem, c, hc, hprefix⟩
    obtain ⟨cs, hcs, rfl⟩ := List.mem_map.1 hmem
    rw [String.toList_ofList] at hprefix
    rcases (isPrefix_component_iff (hword hc) _).1 ⟨cs, hcs, hprefix⟩ with h | ⟨s, hs, h⟩
    · exact .inl ⟨c, hc, h⟩
    · exact .inr ⟨s, c, hs, hc, h⟩
  · rintro (⟨c, hc, h⟩ | ⟨s, c, hs, hc, h⟩)
    · obtain ⟨cs, hcs, hprefix⟩ := (isPrefix_component_iff (hword hc) _).2 (.inl h)
      exact ⟨_, List.mem_map_of_mem hcs, c, hc, by rwa [String.toList_ofList]⟩
    · obtain ⟨cs, hcs, hprefix⟩ := (isPrefix_component_iff (hword hc) _).2 (.inr ⟨s, hs, h⟩)
      exact ⟨_, List.mem_map_of_mem hcs, c, hc, by rwa [String.toList_ofList]⟩

/-- No pushed component carries a drive prefix — so that pushing appends also where a
drive prefix replaces the path — exactly when the name is refused for its `..`, root,
drive or NUL, or has no drive prefix behind a separator. -/
theorem enclosedName_portable_iff (name : String) :
    (∀ path, enclosedName name = some path →
      (∀ c ∈ path, ¬ DrivePrefix c) ∧ ∀ dest, pushAll DrivePrefix dest path = dest ++ path) ↔
      hasTraversal name = true ∨ isAbsolute name = true ∨ Char.ofNat 0 ∈ name.toList ∨
        ¬ DriveBehindSeparator name := by
  constructor
  · intro hportable
    by_contra hsafe
    simp only [not_or, not_not] at hsafe
    obtain ⟨hup, habs, hnul, hbehind⟩ := hsafe
    obtain ⟨c, hc, hdrive⟩ := (drivePrefix_component_iff name).2 (.inr hbehind)
    have hnormal : ¬ (c = "" ∨ c = ".") := by
      rintro (rfl | rfl)
      · exact absurd hdrive (by decide)
      · exact absurd hdrive (by decide)
    cases hpath : enclosedName name with
    | none =>
      rcases (enclosedName_eq_none_iff name).1 hpath with h | h | h | h
      · exact hup h
      · exact habs h
      · exact hnul h
      · exact hnormal (h c hc)
    | some path =>
      obtain ⟨-, -, -, -, rfl, -⟩ := enclosedName_eq_some_iff.1 hpath
      refine (hportable _ hpath).1 c ?_ hdrive
      rw [components_eq, List.mem_filter]
      exact ⟨hc, by simpa [not_or] using hnormal⟩
  · intro hcond path hpath
    obtain ⟨hnul, hroot, hdrive, hup, rfl, -⟩ := enclosedName_eq_some_iff.1 hpath
    have habs : ¬ DrivePrefix name := by
      rw [← startsWithDrive_nameBytes_iff, hdrive]
      simp
    have hbehind : ¬ DriveBehindSeparator name := by
      rcases hcond with h | h | h | h
      · exact absurd ((hasTraversal_iff name).1 h) hup
      · rcases (isAbsolute_iff name).1 h with h | h
        · exact absurd h (by simp [hroot])
        · exact absurd h habs
      · exact absurd h hnul
      · exact h
    have hnone : ∀ c ∈ components name, ¬ DrivePrefix c := by
      intro c hc hprefix
      rw [components_eq] at hc
      have hsplit := (drivePrefix_component_iff name).1 ⟨c, List.mem_of_mem_filter hc, hprefix⟩
      exact hsplit.elim habs hbehind
    exact ⟨hnone, (pushAll_eq_append_iff _ _).2 hnone⟩

/-- `a/C:x` is let through, and its second component replaces the path where drive
prefixes do. -/
theorem enclosedName_pushes_drive :
    ¬ ∀ name path, enclosedName name = some path → ∀ c ∈ path, ¬ DrivePrefix c := by
  intro hportable
  have hpath : enclosedName "a/C:x" = some ["a", "C:x"] := by decide
  exact hportable _ _ hpath "C:x" (by decide) (by decide)

end ZipForensic
