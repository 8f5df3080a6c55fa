import ZipForensic.Forensic.CrcFindings
import ZipForensic.Stream.Write

/-!
# The notes of the findings (forensic/src/lib.rs `note`)

A note renders the offending values of a finding as text. Most of them come from the
archive, so a note may hold whatever a name may hold.

- `AnomalyKind.note`: the texts.
- `oneLine_note`: a note is one line when the texts it quotes as they are, its `quotes`,
  are. A control-character name is quoted in debug form and cannot break the line.
- `oneLine_of_mem_auditReader`: in an audit without a finding about a control character or
  about two different names, every note is one line.
-/

namespace ZipForensic

variable {k : Crates}

/-! ## Texts on one line -/

/-- A text without a newline. -/
def OneLine (s : String) : Prop := newline ∉ s.toList

instance : DecidablePred OneLine := fun s => inferInstanceAs (Decidable (newline ∉ s.toList))

@[simp] theorem oneLine_append (s t : String) : OneLine (s ++ t) ↔ OneLine s ∧ OneLine t := by
  simp [OneLine, not_or]

theorem oneLine_number (n : Nat) : OneLine (toString n) := by
  intro h
  have hdigits : newline ∈ Nat.toDigits 10 n := by
    rw [← Nat.toList_repr]
    exact h
  exact absurd (Nat.isDigit_of_mem_toDigits (by decide) (by decide) hdigits) (by decide)

theorem digitChar_ne_newline : ∀ n < 16, newline ≠ Nat.digitChar n := by decide

theorem newline_not_mem_toDigits (n : Nat) : newline ∉ Nat.toDigits 16 n := by
  induction n using Nat.strongRecOn with
  | ind n ih =>
    by_cases hlt : n < 16
    · rw [Nat.toDigits_of_lt_base hlt, List.mem_singleton]
      exact digitChar_ne_newline n hlt
    · rw [Nat.toDigits_of_base_le (by decide) (Nat.le_of_not_lt hlt), List.mem_append,
        List.mem_singleton, not_or]
      exact ⟨ih (n / 16) (by omega), digitChar_ne_newline _ (by omega)⟩

theorem oneLine_hexText (width n : Nat) : OneLine (hexText width n) := by
  rw [hexText, oneLine_append]
  refine ⟨by decide, ?_⟩
  rw [OneLine, String.toList_ofList, List.mem_append, not_or]
  refine ⟨fun h => ?_, newline_not_mem_toDigits n⟩
  exact absurd (List.eq_of_mem_replicate h) (by decide)

theorem oneLine_debug (m : CompressionMethod) : OneLine m.debug := by
  cases m with
  | unknown raw =>
    simp only [CompressionMethod.debug, oneLine_append]
    exact ⟨⟨by decide, oneLine_number raw⟩, by decide⟩
  | _ => decide

/-! ## Notes -/

/-- The debug formats the notes and reports are printed with: of a severity, and which
characters of a string are shown as they are. -/
structure Formats where
  severity : Severity → String
  oneLine_severity : ∀ s, OneLine (severity s)
  shown : Char → Bool

namespace Formats

variable (fmt : Formats)

/-- A character of a string in debug form. -/
def debugChar (c : Char) : List Char :=
  if c.toNat = 0 then ['\\', '0']
  else if c.toNat = 9 then ['\\', 't']
  else if c = newline then ['\\', 'n']
  else if c.toNat = 13 then ['\\', 'r']
  else if c.toNat = 0x22 ∨ c = '\\' then ['\\', c]
  else if fmt.shown c then [c]
  else ['\\', 'u', Char.ofNat 0x7B] ++ Nat.toDigits 16 c.toNat ++ [Char.ofNat 0x7D]

/-- `{:?}` of a string. -/
def debugStr (s : String) : String :=
  String.ofList ([Char.ofNat 0x22] ++ s.toList.flatMap fmt.debugChar ++ [Char.ofNat 0x22])

/-- Debug form leaves no newline. -/
theorem oneLine_debugStr (s : String) : OneLine (fmt.debugStr s) := by
  have hchar : ∀ c, newline ∉ fmt.debugChar c := by
    intro c
    rw [debugChar]
    split_ifs with hnul htab hnl hcr hquote hshown
    · decide
    · decide
    · decide
    · decide
    · rw [List.mem_cons, List.mem_singleton, not_or]
      exact ⟨by decide, Ne.symm hnl⟩
    · rw [List.mem_singleton]
      exact Ne.symm hnl
    · simp only [List.mem_append, List.mem_cons, not_or]
      exact ⟨⟨by decide, newline_not_mem_toDigits _⟩, by decide⟩
  rw [OneLine, debugStr, String.toList_ofList]
  simp only [List.mem_append, List.mem_flatMap, not_or, not_exists, not_and]
  exact ⟨⟨by decide, fun c _ => hchar c⟩, by decide⟩

end Formats

/-- The pieces of a note, in order. -/
def AnomalyKind.notePieces (fmt : Formats) : AnomalyKind → List String
  | cdLfhMismatch index name field central loc =>
    ["entry ", toString index, " (", name, "): central-directory ", field, " (", central,
      ") disagrees with the local file header (", loc,
      ") — consistent with a post-hoc edit of one copy"]
  | nameTraversal index name =>
    ["entry ", toString index, ": name `", name, "` contains `..` traversal — consistent with a ",
      "Zip-Slip attempt to write outside the extraction root"]
  | nameAbsolute index name =>
    ["entry ", toString index, ": name `", name, "` is absolute / drive-rooted — consistent with ",
      "an attempt to write to a fixed location"]
  | prependedData length =>
    [toString length, " byte(s) precede the first local file header — consistent with a ",
      "self-extractor stub or polyglot (often benign)"]
  | trailingData length =>
    [toString length, " byte(s) follow the End Of Central Directory record — consistent with ",
      "appended or hidden data (often benign)"]
  | overlap indexA indexB offset =>
    ["entries ", toString indexA, " and ", toString indexB,
      " have overlapping data ranges at offset ", toString offset,
      " — structurally impossible for a normal archive"]
  | spanningAnomaly diskNumber cdStartDisk =>
    ["non-zero disk numbers (disk ", toString diskNumber, ", cd-start disk ",
      toString cdStartDisk,
      ") in a single-file archive — consistent with unexpected spanning markers"]
  | nameBidi index name =>
    ["entry ", toString index, ": name `", name, "` contains an RTL/bidi override codepoint — ",
      "consistent with filename-extension spoofing"]
  | nameControl index name =>
    ["entry ", toString index, ": name `", fmt.debugStr name,
      "` contains control characters or NUL — consistent with display spoofing or ",
      "path-handling exploits"]
  | crcMismatch index name =>
    ["entry ", toString index, " (", name, "): decoded data CRC-32 disagrees with the recorded ",
      "value — consistent with corruption or tampering of the entry data"]

/-- Human-readable, "consistent with" note including the offending values. -/
def AnomalyKind.note (fmt : Formats) (kind : AnomalyKind) : String :=
  String.join (kind.notePieces fmt)

/-- The texts a note quotes as they are. -/
def AnomalyKind.quotes : AnomalyKind → List String
  | cdLfhMismatch _ name field central loc => [name, field, central, loc]
  | nameTraversal _ name | nameAbsolute _ name | nameBidi _ name | crcMismatch _ name => [name]
  | _ => []

/-- A note is one line when the texts it quotes are. -/
theorem oneLine_note (fmt : Formats) {kind : AnomalyKind} (h : ∀ s ∈ kind.quotes, OneLine s) :
    OneLine (kind.note fmt) := by
  have hnil : ∀ s ∈ ([] : List String), OneLine s := fun s hs => absurd hs List.not_mem_nil
  have hpieces : ∀ s ∈ kind.notePieces fmt, OneLine s := by
    cases kind with
    | cdLfhMismatch index name field central loc =>
      simp only [AnomalyKind.quotes, AnomalyKind.notePieces, List.forall_mem_cons] at h ⊢
      obtain ⟨hname, hfield, hcentral, hloc, -⟩ := h
      exact ⟨by decide, oneLine_number _, by decide, hname, by decide, hfield, by decide,
        hcentral, by decide, hloc, by decide, hnil⟩
    | nameTraversal index name | nameAbsolute index name | nameBidi index name
    | crcMismatch index name =>
      simp only [AnomalyKind.quotes, AnomalyKind.notePieces, List.forall_mem_cons] at h ⊢
      exact ⟨by decide, oneLine_number _, by decide, h.1, by decide, by decide, hnil⟩
    | prependedData length | trailingData length =>
      simp only [AnomalyKind.notePieces, List.forall_mem_cons]
      exact ⟨oneLine_number _, by decide, by decide, hnil⟩
    | overlap indexA indexB offset =>
      simp only [AnomalyKind.notePieces, List.forall_mem_cons]
      exact ⟨by decide, oneLine_number _, by decide, oneLine_number _, by decide,
        oneLine_number _, by decide, hnil⟩
    | spanningAnomaly diskNumber cdStartDisk =>
      simp only [AnomalyKind.notePieces, List.forall_mem_cons]
      exact ⟨by decide, oneLine_number _, by decide, oneLine_number _, by decide, hnil⟩
    | nameControl index name =>
      simp only [AnomalyKind.notePieces, List.forall_mem_cons]
      exact ⟨by decide, oneLine_number _, by decide, fmt.oneLine_debugStr name, by decide,
        by decide, hnil⟩
  rw [OneLine, AnomalyKind.note, String.toList_join, List.mem_flatMap]
  rintro ⟨s, hs, hnewline⟩
  exact hpieces s hs hnewline

/-! ## The notes of an audit -/

/-- The findings whose quoted texts may bring in a newline: a control character in a name,
and a local name that is not the central one. -/
def AnomalyKind.mayBreak : AnomalyKind → Bool
  | nameControl .. => true
  | cdLfhMismatch _ _ field _ _ => field = "name"
  | _ => false

theorem oneLine_of_no_control {name : String} (h : hasControlChars name = false) :
    OneLine name := by
  intro hmem
  rw [hasControlChars, List.any_eq_false] at h
  exact h newline hmem (by decide)

/-- Where the copies have one name, and one without control characters, the findings about
an entry quote texts on one line. -/
theorem quotes_of_mem_auditEntry {e : EntryLayout} (hplain : hasControlChars e.central.name = false)
    (hname : e.central.name = e.loc.name) {x : Anomaly} (hx : x ∈ auditEntry e) :
    ∀ s ∈ x.kind.quotes, OneLine s := by
  have hone := oneLine_of_no_control hplain
  have hnil : ∀ s ∈ ([] : List String), OneLine s := fun s hs => absurd hs List.not_mem_nil
  have hmismatch {field central loc : String} (hf : OneLine field) (hc : OneLine central)
      (hl : OneLine loc) : ∀ s ∈ (mismatch e field central loc).kind.quotes, OneLine s := by
    show ∀ s ∈ [e.central.name, field, central, loc], OneLine s
    simp only [List.forall_mem_cons]
    exact ⟨hone, hf, hc, hl, hnil⟩
  have hsingle : ∀ s ∈ [e.central.name], OneLine s := List.forall_mem_cons.2 ⟨hone, hnil⟩
  simp only [auditEntry, List.mem_append] at hx
  rcases hx with (((((hx | hx) | hx) | hx) | hx) | hx) | hx
  · exact eq_of_mem_ite hx ▸ hsingle
  · exact eq_of_mem_ite hx ▸ hsingle
  · exact eq_of_mem_ite hx ▸ hsingle
  · exact eq_of_mem_ite hx ▸ hnil
  · rw [if_neg (not_not.2 hname)] at hx
    exact absurd hx List.not_mem_nil
  · exact eq_of_mem_ite hx ▸ hmismatch (by decide) (oneLine_debug _) (oneLine_debug _)
  · by_cases hflag : e.loc.flags &&& 0x0008 ≠ 0
    · rw [if_pos hflag] at hx
      exact absurd hx List.not_mem_nil
    · rw [if_neg hflag] at hx
      simp only [List.mem_append] at hx
      rcases hx with (hx | hx) | hx
      · exact eq_of_mem_ite hx ▸ hmismatch (by decide) (oneLine_hexText _ _) (oneLine_hexText _ _)
      · exact eq_of_mem_compareSize hx ▸
          hmismatch (by decide) (oneLine_number _) (oneLine_number _)
      · exact eq_of_mem_compareSize hx ▸
          hmismatch (by decide) (oneLine_number _) (oneLine_number _)

/-- Otherwise the audit of the entry says so. -/
theorem mayBreak_of_entry {e : EntryLayout}
    (h : hasControlChars e.central.name = true ∨ e.central.name ≠ e.loc.name) :
    ∃ x ∈ auditEntry e, x.kind.mayBreak = true := by
  rcases h with hcontrol | hname
  · refine ⟨.new (.nameControl e.index e.central.name), ?_, rfl⟩
    simp only [auditEntry, List.mem_append, if_pos hcontrol, List.mem_singleton, true_or, or_true]
  · refine ⟨mismatch e "name" e.central.name e.loc.name, ?_, rfl⟩
    simp only [auditEntry, List.mem_append, if_pos hname, List.mem_singleton, true_or, or_true]

/-- A CRC finding is about a name of the view. -/
theorem name_of_mem_auditCrcs {a : ZipArchive} {i : Nat} {layout : List EntryLayout}
    {found : List Anomaly} (h : auditCrcs k a i layout = .ok found) :
    ∀ x ∈ found, ∃ j, ∃ e ∈ layout, x = .new (.crcMismatch j e.central.name) := by
  induction layout generalizing a i found with
  | nil =>
    obtain rfl : [] = found := Except.ok.inj h
    exact fun x hx => absurd hx List.not_mem_nil
  | cons e es ih =>
    have hlater {a' : ZipArchive} {rest : List Anomaly}
        (hrest : auditCrcs k a' (i + 1) es = .ok rest) :
        ∀ x ∈ rest, ∃ j, ∃ e' ∈ e :: es, x = .new (.crcMismatch j e'.central.name) := by
      intro x hx
      obtain ⟨j, e', he', rfl⟩ := ih hrest x hx
      exact ⟨j, e', List.mem_cons_of_mem _ he', rfl⟩
    rcases hopen : (a.byIndex i : Opened k) with ⟨err | _, reader⟩ | f
    · rw [auditCrcs, hopen] at h
      exact hlater h
    · rw [auditCrcs, hopen] at h
      cases h
    · rw [auditCrcs_cons hopen] at h
      obtain ⟨rest, hrest, h⟩ := Res.of_bind_ok h
      obtain rfl := Except.ok.inj h
      intro x hx
      rcases List.mem_append.1 hx with hx | hx
      · unfold crcFinding at hx
        split at hx
        · exact ⟨i, e, List.mem_cons_self, eq_of_mem_ite hx⟩
        · exact absurd hx List.not_mem_nil
      · exact hlater hrest x hx

/-- What an audit that returns is made of. -/
theorem of_auditReader_ok {reader : Source} {found : List Anomaly}
    (h : auditReader k reader = .ok found) :
    ∃ layout a crcs, auditCrcs k a 0 layout = .ok crcs ∧
      found = auditLayout layout ++ auditContainer a.summary ++ crcs := by
  rw [auditReader] at h
  obtain ⟨a, -, h⟩ := Res.of_bind_ok h
  rcases hview : a.structuralView with ⟨e | layout, a'⟩
  · rw [hview] at h
    cases h
  · rw [hview] at h
    obtain ⟨crcs, hcrcs, h⟩ := Res.of_bind_ok h
    exact ⟨layout, a', crcs, hcrcs, (Except.ok.inj h).symm⟩

/-- The severity and the code of every finding are the ones of its kind. -/
theorem eq_new_of_mem_auditReader {reader : Source} {found : List Anomaly}
    (h : auditReader k reader = .ok found) : ∀ x ∈ found, x = .new x.kind := by
  obtain ⟨layout, a, crcs, hcrcs, rfl⟩ := of_auditReader_ok h
  intro x hx
  rcases List.mem_append.1 hx with hx | hx
  · simp only [auditLayout, auditContainer, List.mem_append] at hx
    rcases hx with ((hx | hx) | hx) | hx | hx
    · split at hx
      · exact eq_of_mem_ite hx ▸ rfl
      · exact absurd hx List.not_mem_nil
    · obtain ⟨e, -, hx⟩ := List.mem_flatMap.1 hx
      simp only [auditEntry, List.mem_append] at hx
      rcases hx with (((((hx | hx) | hx) | hx) | hx) | hx) | hx
      iterate 6 exact eq_of_mem_ite hx ▸ rfl
      by_cases hflag : e.loc.flags &&& 0x0008 ≠ 0
      · rw [if_pos hflag] at hx
        exact absurd hx List.not_mem_nil
      · rw [if_neg hflag] at hx
        simp only [List.mem_append] at hx
        rcases hx with (hx | hx) | hx
        · exact eq_of_mem_ite hx ▸ rfl
        · exact eq_of_mem_compareSize hx ▸ rfl
        · exact eq_of_mem_compareSize hx ▸ rfl
    · rw [auditOverlaps, overlapsOfSorted_eq] at hx
      obtain ⟨⟨b, c⟩, -, hx⟩ := List.mem_flatMap.1 hx
      exact eq_of_mem_ite hx ▸ rfl
    · exact eq_of_mem_ite hx ▸ rfl
    · exact eq_of_mem_ite hx ▸ rfl
  · obtain ⟨j, e, -, rfl⟩ := name_of_mem_auditCrcs hcrcs x hx
    rfl

/-- In an audit that finds no control character in a name and no local name other than the
central one, every note is one line. -/
theorem oneLine_of_mem_auditReader (fmt : Formats) {reader : Source} {found : List Anomaly}
    (h : auditReader k reader = .ok found) (hfound : ∀ x ∈ found, x.kind.mayBreak = false) :
    ∀ x ∈ found, OneLine (x.kind.note fmt) := by
  obtain ⟨layout, a, crcs, hcrcs, rfl⟩ := of_auditReader_ok h
  have hentry : ∀ e ∈ layout,
      hasControlChars e.central.name = false ∧ e.central.name = e.loc.name := by
    intro e he
    by_contra hbad
    have hcause : hasControlChars e.central.name = true ∨ e.central.name ≠ e.loc.name := by
      rw [not_and_or, Bool.not_eq_false] at hbad
      exact hbad
    obtain ⟨x, hx, hbreaks⟩ := mayBreak_of_entry hcause
    have hmem : x ∈ auditLayout layout ++ auditContainer a.summary ++ crcs := by
      refine List.mem_append_left _ (List.mem_append_left _ ?_)
      exact List.mem_append_left _ (List.mem_append_right _ (List.mem_flatMap.2 ⟨e, he, hx⟩))
    rw [hfound x hmem] at hbreaks
    cases hbreaks
  have hnil : ∀ s ∈ ([] : List String), OneLine s := fun s hs => absurd hs List.not_mem_nil
  intro x hx
  refine oneLine_note fmt ?_
  rcases List.mem_append.1 hx with hx | hx
  · simp only [auditLayout, auditContainer, List.mem_append] at hx
    rcases hx with ((hx | hx) | hx) | hx | hx
    · split at hx
      · exact eq_of_mem_ite hx ▸ hnil
      · exact absurd hx List.not_mem_nil
    · obtain ⟨e, he, hx⟩ := List.mem_flatMap.1 hx
      exact quotes_of_mem_auditEntry (hentry e he).1 (hentry e he).2 hx
    · obtain ⟨i, j, offset, hkind⟩ := kind_of_mem_auditOverlaps hx
      rw [hkind]
      exact hnil
    · exact eq_of_mem_ite hx ▸ hnil
    · exact eq_of_mem_ite hx ▸ hnil
  · obtain ⟨j, e, he, rfl⟩ := name_of_mem_auditCrcs hcrcs x hx
    exact List.forall_mem_cons.2 ⟨oneLine_of_no_control (hentry e he).1, hnil⟩

end ZipForensic
