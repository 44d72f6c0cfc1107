import Tortoise.Kernel.Mm
import Tortoise.Ramfs.Model

/-!
# A mounted memory file system

`os/kernel/ramfs.c` with the frames where they are: the tables of the files hold physical
addresses, `frame_alloc` and `frame_free` are those of `os/kernel/mm.c`, and all files of a mount
share its count of frames in use and its limit.  An entry `0` of a table is a page that has no
frame.  An operation that reads a table behind its end, or frees a frame that is not in use, has
no result.
-/

namespace Tortoise.RamFs

open Kernel (Mm frameAlloc frameFree)

/-! ## One file -/

/-- What an operation on one file works on: the `Ram`, the `RNode` and the frames. -/
structure Node where
  used : Nat
  limit : Nat
  mm : Mm
  size : Nat
  mtime : Nat
  ctime : Nat
  pages : List Nat

/-- The frame at `pa` becomes `p`. -/
def setPage (pa : Nat) (p : Page) (mm : Mm) : Mm :=
  { mm with bytes := Function.update mm.bytes (pa / page) p }

def Node.growPages (kmalloc : Nat → Bool) (x : Node) (np : Nat) : Option Node :=
  if np ≤ x.pages.length then some x
  else
    let cap := capLoop 32 8 np
    if kmalloc (cap * 4) then
      some { x with pages := x.pages ++ List.replicate (cap - x.pages.length) 0 }
    else none

/-- The frame for page `pg` in the loop of `r_write`: a new one, cleared, if there is none. -/
def Node.needPage (x : Node) (pg : Nat) : Option Node :=
  if x.pages.getD pg 0 ≠ 0 then some x
  else if x.limit ≤ x.used then none
  else
    match frameAlloc x.mm with
    | .ok (some pa) mm =>
      some { x with
        used := x.used + 1
        mm := setPage pa (fun _ => 0) mm
        pages := x.pages.set pg pa }
    | _ => none

/-- `memcpy` into page `pg`. -/
def Node.copyPage (x : Node) (pg o : Nat) (src : List Byte) : Node :=
  let pa := x.pages.getD pg 0
  { x with mm := setPage pa (copyIn (x.mm.bytes (pa / page)) o src) x.mm }

/-- The loop of `r_write`. -/
def Node.writeLoop : Nat → Node → List Byte → Nat → Nat → Option (Node × Nat × Nat)
  | 0, x, _, off, done => some (x, off, done)
  | fuel + 1, x, src, off, done =>
    if src.length = 0 then some (x, off, done)
    else if x.pages.length ≤ off / page then none
    else
      let k := min (page - off % page) src.length
      match x.needPage (off / page) with
      | none => some (x, off, done)
      | some x =>
        writeLoop fuel (x.copyPage (off / page) (off % page) (src.take k)) (src.drop k)
          (u32 (off + k)) (done + k)

def Node.rWrite (kmalloc : Nat → Bool) (now : Nat) (x : Node) (src : List Byte) (off : Nat) :
    Option (Node × Int) :=
  let n := src.length
  if u32 (off + n) < off then some (x, -einval)
  else
    match x.growPages kmalloc (u32 (off + n + page - 1) / page) with
    | none => some (x, -enospc)
    | some x =>
      (x.writeLoop n src off 0).map fun (x, off, done) =>
        ({ x with size := if x.size < off then off else x.size, mtime := now, ctime := now },
          if done = 0 ∧ 0 < n then -enospc else (BitVec.ofNat 32 done).toInt)

/-- The loop of `r_read`. -/
def Node.readLoop (x : Node) : Nat → Nat → Nat → List Byte
  | 0, _, _ => []
  | fuel + 1, off, n =>
    if n = 0 then []
    else
      let o := off % page
      let k := min (page - o) n
      let pa := x.pages.getD (off / page) 0
      (if off / page < x.pages.length ∧ pa ≠ 0 then (List.range' o k).map (x.mm.bytes (pa / page))
        else List.replicate k 0) ++ readLoop x fuel (u32 (off + k)) (n - k)

def Node.rRead (x : Node) (off n : Nat) : List Byte :=
  if x.size ≤ off then []
  else
    let n := if x.size < u32 (off + n) ∨ u32 (off + n) < off then x.size - off else n
    x.readLoop n off n

/-- The loop of `free_data` over the entries `ps`. -/
def freeLoop : List Nat → Nat → Mm → Option (Nat × Mm)
  | [], used, mm => some (used, mm)
  | pa :: ps, used, mm =>
    if pa = 0 then freeLoop ps used mm
    else
      match frameFree pa mm with
      | .ok _ mm => freeLoop ps (Kernel.sub32 used 1) mm
      | .error _ _ => none

def Node.freeData (x : Node) (keep : Nat) : Option Node :=
  (freeLoop (x.pages.drop keep) x.used x.mm).map fun (used, mm) =>
    { x with
      used := used
      mm := mm
      pages := x.pages.take keep ++ (x.pages.drop keep).map fun _ => 0 }

/-- The `memset` of `r_truncate` behind the new end. -/
def Node.clearTail (x : Node) (keep len : Nat) : Node :=
  let pa := x.pages.getD (keep - 1) 0
  if len % page ≠ 0 ∧ 0 < keep ∧ keep - 1 < x.pages.length ∧ pa ≠ 0 then
    { x with
      mm := setPage pa
        (fun j => if len % page ≤ j ∧ j < page then 0 else x.mm.bytes (pa / page) j) x.mm }
  else x

def Node.rTruncate (now : Nat) (x : Node) (len : Nat) : Option Node :=
  let keep := u32 (len + page - 1) / page
  (if len < x.size then (x.freeData keep).map fun x => x.clearTail keep len else some x).map
    fun x => { x with size := len, mtime := now, ctime := now }

/-! ## The files of a mount -/

/-- What a file keeps for itself. -/
structure RFile where
  size : Nat
  mtime : Nat
  ctime : Nat
  pages : List Nat
  deriving DecidableEq

/-- A `Ram` with its files by number, and the frames of the machine.  A file that has been
released is `none`. -/
structure Mount where
  used : Nat
  limit : Nat
  mm : Mm
  files : List (Option RFile)

/-- The file `f` with what it shares. -/
def Mount.node (m : Mount) (f : RFile) : Node :=
  ⟨m.used, m.limit, m.mm, f.size, f.mtime, f.ctime, f.pages⟩

/-- What is left of a file, when its operation is over. -/
def Node.file (x : Node) : RFile := ⟨x.size, x.mtime, x.ctime, x.pages⟩

/-- The mount after an operation on file `i`. -/
def Mount.put (m : Mount) (i : Nat) (x : Node) : Mount :=
  ⟨x.used, x.limit, x.mm, m.files.set i (some x.file)⟩

/-- The operations on the contents of files, by the number of the file. -/
inductive Op
  | write (i off : Nat) (src : List Byte)
  | trunc (i len : Nat)
  | read (i off n : Nat)
  | create
  | release (i : Nat)

inductive Answer
  | count (r : Int)
  | bytes (l : List Byte)
  | done
  deriving DecidableEq

/-- `new_node`: an empty file. -/
def newNode (now : Nat) : RFile := ⟨0, now, now, []⟩

/-- An operation as the code carries it out. -/
def perform (kmalloc : Nat → Bool) (now : Nat) (m : Mount) (op : Op) : Option (Mount × Answer) :=
  match op with
  | .write i off src => do
    let f ← m.files[i]?.join
    let (x, r) ← (m.node f).rWrite kmalloc now src off
    some (m.put i x, .count r)
  | .trunc i len => do
    let f ← m.files[i]?.join
    let x ← (m.node f).rTruncate now len
    some (m.put i x, .count 0)
  | .read i off n => do
    let f ← m.files[i]?.join
    some (m, .bytes ((m.node f).rRead off n))
  | .create => some ({ m with files := m.files ++ [some (newNode now)] }, .done)
  | .release i => do
    -- `r_release` of a file without a name
    let f ← m.files[i]?.join
    let x ← (m.node f).freeData 0
    some (⟨x.used, x.limit, x.mm, m.files.set i none⟩, .done)

end Tortoise.RamFs
