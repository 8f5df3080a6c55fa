import ZipForensic.Core.VfsContent

/-!
# Sessions on one archive (archive.rs)

A `ZipArchive` lends its reader to one entry after the other. An entry may be found by
index or by name, opened with or without a password, read a little, to its end or not at
all, and dropped; the structural view reads through the same reader in between. Where the
reader was left never shows.

- `ArchiveImage`: what an archive is without its reader — the bytes, the entries and the
  summary. It has no state.
- `ArchiveCall`: the calls of the public interface; `ArchiveCall.run` is the code's answer
  to one, `ArchiveCall.answer` the answer of the image.
- `memoryless_session`: the first refines the second, call by call.
- `session_refines_image`: so every session on an opened file is answered by its image, and
  leaves it as it is.
-/

namespace ZipForensic

variable {k : Crates}

/-! ## Readers handed back -/

section Through

variable (a : ZipArchive) (m : CentralEntry)

theorem openDecrypt_through (password : Bytes) :
    Opened.Through a.reader.bytes (a.openDecrypt m password : Opened k) := by
  have hsource := Take.readHom_map (FileReader.readHom_source (F := a.reader.bytes))
  rw [ZipArchive.openDecrypt]
  rcases checkLocalDisk m a.summary.diskNumber a.summary.cdStartDisk with e | ⟨⟩
  · rfl
  · dsimp only
    by_cases hplain : m.flags &&& 0x0001 = 0 ∧ m.aes = none
    · rw [if_pos hplain]
      exact open_through a m
    rw [if_neg hplain]
    by_cases hmasked : m.flags &&& 0x2000 ≠ 0
    · rw [if_pos hmasked]
      rfl
    rw [if_neg hmasked]
    by_cases hstrong : m.aes = none ∧ m.flags &&& 0x0040 ≠ 0
    · rw [if_pos hstrong, ZipArchive.openStrongDecrypt]
      exact openAt_through a m fun dataStart w =>
        ZipFile.openStrong_map hsource m password dataStart w
    · rw [if_neg hstrong]
      exact openAt_through a m fun dataStart w =>
        ZipFile.openEncrypted_map hsource m password dataStart w

theorem byName_through (name : String) :
    Opened.Through a.reader.bytes (a.byName name : Opened k) := by
  rw [ZipArchive.byName]
  cases a.entries.find? fun e => e.name = name with
  | none => rfl
  | some m => exact open_through a m

theorem byIndexDecrypt_through (i : Nat) (password : Bytes) :
    Opened.Through a.reader.bytes (a.byIndexDecrypt i password : Opened k) := by
  rw [ZipArchive.byIndexDecrypt]
  cases a.entries[i]? with
  | none => rfl
  | some m => exact openDecrypt_through a m password

theorem byNameDecrypt_through (name : String) (password : Bytes) :
    Opened.Through a.reader.bytes (a.byNameDecrypt name password : Opened k) := by
  rw [ZipArchive.byNameDecrypt]
  cases a.entries.find? fun e => e.name = name with
  | none => rfl
  | some m => exact openDecrypt_through a m password

end Through

/-! ## The image of an archive -/

/-- An archive without its reader. -/
structure ArchiveImage where
  bytes : Bytes
  entries : List CentralEntry
  summary : ArchiveSummary

def ZipArchive.image (a : ZipArchive) : ArchiveImage := ⟨a.reader.bytes, a.entries, a.summary⟩

namespace ArchiveImage

/-- An entry of the image, opened. -/
def opened (k : Crates) (x : ArchiveImage) (m : CentralEntry) (password : Option Bytes) :
    Res ZipCoreError (ZipFile k (Window IoError)) :=
  match password with
  | none => openedPlain x.bytes m x.summary.diskNumber x.summary.cdStartDisk
  | some password =>
    openedDecrypt x.bytes m x.summary.diskNumber x.summary.cdStartDisk password

/-- The answers of an entry that was looked for, read with the given buffers. -/
def readings (k : Crates) (x : ArchiveImage) (found : Option CentralEntry) (missing : ZipCoreError)
    (password : Option Bytes) (ns : List Nat) : Res ZipCoreError (List (Except IoError Bytes)) :=
  match found with
  | none => Res.err missing
  | some m => (x.opened k m password).map fun f => (reads ns f).1

/-- The first entry of that name. -/
def named (x : ArchiveImage) (name : String) : Option CentralEntry :=
  x.entries.find? fun m => m.name = name

end ArchiveImage

/-! ## Calls -/

/-- The calls on an archive; an entry is read with the given buffer sizes and dropped. -/
inductive ArchiveCall
  | byIndex (i : Nat) (buffers : List Nat)
  | byName (name : String) (buffers : List Nat)
  | byIndexDecrypt (i : Nat) (password : Bytes) (buffers : List Nat)
  | byNameDecrypt (name : String) (password : Bytes) (buffers : List Nat)
  | structuralView
  | summary
  | fileNames

inductive ArchiveAnswer
  | readings (r : Res ZipCoreError (List (Except IoError Bytes)))
  | layouts (r : Res ZipCoreError (List EntryLayout))
  | summary (s : ArchiveSummary)
  | names (ns : List String)

/-- The answers of an opened entry, and the archive with its reader handed back. -/
def ZipArchive.afterReads (a : ZipArchive) (o : Opened k) (ns : List Nat) :
    ArchiveAnswer × ZipArchive :=
  (.readings (o.readings ns), { a with reader := o.handBack ns })

namespace ArchiveCall

/-- The code's answer, and the archive after it. -/
def run (k : Crates) : ArchiveCall → ZipArchive → ArchiveAnswer × ZipArchive
  | .byIndex i ns, a => a.afterReads (a.byIndex i : Opened k) ns
  | .byName name ns, a => a.afterReads (a.byName name : Opened k) ns
  | .byIndexDecrypt i password ns, a => a.afterReads (a.byIndexDecrypt i password : Opened k) ns
  | .byNameDecrypt name password ns, a =>
    a.afterReads (a.byNameDecrypt name password : Opened k) ns
  | .structuralView, a => (.layouts a.structuralView.1, a.structuralView.2)
  | .summary, a => (.summary a.summary, a)
  | .fileNames, a => (.names a.fileNames, a)

/-- The answer of the image. -/
def answer (k : Crates) (x : ArchiveImage) : ArchiveCall → ArchiveAnswer
  | .byIndex i ns => .readings (x.readings k x.entries[i]? (.indexOutOfBounds i) none ns)
  | .byName name ns => .readings (x.readings k (x.named name) (.entryNotFound name) none ns)
  | .byIndexDecrypt i password ns =>
    .readings (x.readings k x.entries[i]? (.indexOutOfBounds i) (some password) ns)
  | .byNameDecrypt name password ns =>
    .readings (x.readings k (x.named name) (.entryNotFound name) (some password) ns)
  | .structuralView => .layouts (layoutsAt x.bytes 0 x.entries)
  | .summary => .summary x.summary
  | .fileNames => .names (x.entries.map CentralEntry.name)

end ArchiveCall

/-! ## Refinement -/

/-- What an opened entry answers is what its view answers. -/
theorem Opened.readings_view (o : Opened k) (ns : List Nat) :
    o.readings ns = o.view.map fun f => (reads ns f).1 := by
  rcases o with ⟨e, reader⟩ | f
  · rfl
  · rw [Opened.readings, Opened.view, reads_view]
    rfl

theorem ZipArchive.image_afterReads {a : ZipArchive} {o : Opened k}
    (h : o.Through a.reader.bytes) (ns : List Nat) : (a.afterReads o ns).2.image = a.image := by
  rw [image, image, afterReads]
  dsimp only
  rw [h.handBack ns]

section Lookups

variable (a : ZipArchive) (ns : List Nat)

/-- An entry that was looked for answers as the image says. -/
theorem readings_lookup (found : Option CentralEntry) (missing : ZipCoreError)
    (password : Option Bytes) {o : Opened k}
    (hnone : found = none → o = a.refuse missing)
    (hsome : ∀ m, found = some m → o.view = a.image.opened k m password) :
    o.readings ns = a.image.readings k found missing password ns := by
  cases found with
  | none =>
    rw [hnone rfl]
    rfl
  | some m =>
    rw [Opened.readings_view, hsome m rfl]
    rfl

theorem readings_byIndex (i : Nat) :
    (a.byIndex i : Opened k).readings ns =
      a.image.readings k a.entries[i]? (.indexOutOfBounds i) none ns := by
  refine readings_lookup a ns _ _ _ (fun h => ?_) fun m h => ?_
  · rw [ZipArchive.byIndex, h]
  · rw [ZipArchive.byIndex, h]
    exact view_open a m

theorem readings_byName (name : String) :
    (a.byName name : Opened k).readings ns =
      a.image.readings k (a.image.named name) (.entryNotFound name) none ns := by
  refine readings_lookup a ns _ _ _ (fun h => ?_) fun m h => ?_
  · rw [ZipArchive.byName, show a.entries.find? _ = none from h]
  · rw [ZipArchive.byName, show a.entries.find? _ = some m from h]
    exact view_open a m

theorem readings_byIndexDecrypt (i : Nat) (password : Bytes) :
    (a.byIndexDecrypt i password : Opened k).readings ns =
      a.image.readings k a.entries[i]? (.indexOutOfBounds i) (some password) ns := by
  refine readings_lookup a ns _ _ _ (fun h => ?_) fun m h => ?_
  · rw [ZipArchive.byIndexDecrypt, h]
  · rw [ZipArchive.byIndexDecrypt, h]
    exact view_openDecrypt a m password

theorem readings_byNameDecrypt (name : String) (password : Bytes) :
    (a.byNameDecrypt name password : Opened k).readings ns =
      a.image.readings k (a.image.named name) (.entryNotFound name) (some password) ns := by
  refine readings_lookup a ns _ _ _ (fun h => ?_) fun m h => ?_
  · rw [ZipArchive.byNameDecrypt, show a.entries.find? _ = none from h]
  · rw [ZipArchive.byNameDecrypt, show a.entries.find? _ = some m from h]
    exact view_openDecrypt a m password

end Lookups

/-- Every call is answered by the image of the archive and leaves the image as it is. -/
theorem memoryless_session (k : Crates) (x : ArchiveImage) :
    Memoryless (ArchiveCall.run k) (fun a => a.image = x) (ArchiveCall.answer k x) where
  answer c a h := by
    obtain rfl := h
    cases c with
    | byIndex i ns => exact congrArg ArchiveAnswer.readings (readings_byIndex a ns i)
    | byName name ns => exact congrArg ArchiveAnswer.readings (readings_byName a ns name)
    | byIndexDecrypt i password ns =>
      exact congrArg ArchiveAnswer.readings (readings_byIndexDecrypt a ns i password)
    | byNameDecrypt name password ns =>
      exact congrArg ArchiveAnswer.readings (readings_byNameDecrypt a ns name password)
    | structuralView =>
      obtain ⟨pos, hview⟩ := structuralView_eq a
      rw [ArchiveCall.run, hview]
      rfl
    | summary => rfl
    | fileNames => rfl
  keeps c a h := by
    refine Eq.trans ?_ h
    cases c with
    | byIndex i ns => exact ZipArchive.image_afterReads (byIndex_through a i) ns
    | byName name ns => exact ZipArchive.image_afterReads (byName_through a name) ns
    | byIndexDecrypt i password ns =>
      exact ZipArchive.image_afterReads (byIndexDecrypt_through a i password) ns
    | byNameDecrypt name password ns =>
      exact ZipArchive.image_afterReads (byNameDecrypt_through a name password) ns
    | structuralView =>
      obtain ⟨pos, hview⟩ := structuralView_eq a
      rw [ArchiveCall.run, hview]
      rfl
    | summary => rfl
    | fileNames => rfl

/-- Every session on an opened file, whatever its calls and their order, is answered call
by call by the file's bytes and directory, and leaves an archive of the same bytes and
directory. -/
theorem session_refines_image (k : Crates) {F : Bytes} {pos : Nat} {a : ZipArchive}
    (h : ZipArchive.new ⟨F, pos⟩ = .ok a) (calls : List ArchiveCall) :
    (runCalls (ArchiveCall.run k) calls a).1 =
        calls.map (ArchiveCall.answer k ⟨F, a.entries, a.summary⟩) ∧
      (runCalls (ArchiveCall.run k) calls a).2.image = ⟨F, a.entries, a.summary⟩ := by
  have himage : a.image = ⟨F, a.entries, a.summary⟩ := by
    rw [ZipArchive.image, (reader_of_new h).1]
  have hsession := memoryless_session k ⟨F, a.entries, a.summary⟩
  exact ⟨hsession.runCalls_eq calls himage, hsession.runCalls_keeps calls himage⟩

/-- A read cut short, the structural view and a read by name. -/
theorem storedArchive_session : ∃ a, ZipArchive.new ⟨storedArchive 3, 0⟩ = .ok a ∧
    (runCalls (ArchiveCall.run .plain) [.byIndex 0 [1], .structuralView, .byName "m" [2, 2, 2]]
        a).1 =
      [.byIndex 0 [1], .structuralView, .byName "m" [2, 2, 2]].map
        (ArchiveCall.answer .plain ⟨storedArchive 3, a.entries, a.summary⟩) ∧
    (runCalls (ArchiveCall.run .plain) [.byIndex 0 [1], .structuralView, .byName "m" [2, 2, 2]]
        a).2.image = ⟨storedArchive 3, a.entries, a.summary⟩ := by
  obtain ⟨pos, hnew⟩ := new_of_directoryOf
    (show directoryOf (storedArchive 3) = .ok (storedDirectory 3) by decide +kernel) 0
  exact ⟨_, hnew, session_refines_image .plain hnew _⟩

end ZipForensic
