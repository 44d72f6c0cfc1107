import Tortoise.Lib.Routine

/-!
# Memory management of the kernel

The parts of `os/kernel/mm.c` that the file systems and `exec` rest on: frames
with their reference counts, the page tables all directories share, and the pages
that the loops over a range of addresses visit.

Addresses are natural numbers below `2 ^ 32`; where the code's unsigned
arithmetic can wrap, the model takes the remainder (`u32`).  Whether an
allocation of kernel memory succeeds is given from outside: `kcoins` for
`kmalloc`, `lcoins` for `low_alloc`.  Frames are modelled as they are.
-/

namespace Tortoise.Kernel

open Lib

/-! ## Constants and addresses -/

abbrev Byte := BitVec 8

def page : Nat := 4096
def lowmem : Nat := 0x400000
def userBase : Nat := 0x400000
def userStackTop : Nat := 0x7FFFF000
def kmapBase : Nat := 0xE0000000
def devVbase : Nat := 0xF0000000
/-- Unsigned arithmetic of 32 bits. -/
def u32 (x : Nat) : Nat := x % 4294967296

/-- `x - y` in unsigned arithmetic. -/
def sub32 (x y : Nat) : Nat := u32 (x + (4294967296 - y))

/-- `x & ~0xFFF`. -/
def pageDown (x : Nat) : Nat := x / 4096 * 4096

/-- The page-directory index of an address. -/
def pdx (va : Nat) : Nat := va / 4194304

/-! ## State -/

/-- A present page-table entry; an absent one is `none`.  The accessed and dirty
bits are left out, nothing in the kernel looks at them. -/
structure Pte where
  pa : Nat
  w : Bool
  u : Bool
  x : Bool
  cow : Bool
  deriving DecidableEq, Repr

/-- A page table. -/
abbrev Table := Nat → Option Pte

/-- Frames, the page tables all directories share, and the fortune of kernel
allocations. -/
structure Mm where
  nframes : Nat
  /-- `fbits`: the frame is in use. -/
  used : Nat → Bool
  fref : Nat → Nat
  nfree : Nat
  fhint : Nat
  /-- The bytes of each physical page, by its number `pa / PAGE`. -/
  bytes : Nat → Nat → Byte
  /-- The tables under the shared page-directory entries. -/
  shared : Nat → Table
  /-- The addresses given to `frame_free` so far, newest first.  The code keeps
  no such record; it is here to speak about the calls. -/
  freed : List Nat
  kcoins : Nat → Bool
  kclock : Nat
  lcoins : Nat → Bool
  lclock : Nat

/-- How the kernel can stop: `panic("bad frame")`, a fault of its own, a loop that
never ends. -/
inductive Stop where
  | badFrame
  | kernelFault
  | hang
  deriving DecidableEq, Repr

/-- A routine of the kernel. -/
abbrev K := EStateM Stop Mm

/-! ## Frames -/

/-- The frame number of a physical address. -/
def fnum (pa : Nat) : Nat := (pa - lowmem) / page

/-- The physical address of a frame. -/
def fpa (i : Nat) : Nat := lowmem + i * page

/-- Take frame `i`. -/
def takeFrame (i : Nat) (m : Mm) : Mm :=
  { m with
    used := fun k => if k = i then true else m.used k
    fref := fun k => if k = i then 1 else m.fref k
    fhint := i + 1
    nfree := sub32 m.nfree 1 }

/-- The free frame `frame_alloc` finds, searching from `fhint` on. -/
def freeFrame (m : Mm) : Option Nat :=
  ((List.range m.nframes).map fun n => (m.fhint + n) % m.nframes).find? fun i => !m.used i

def frameAlloc : K (Option Nat) := do
  let m ← get
  match freeFrame m with
  | none => pure none
  | some i =>
    modify (takeFrame i)
    pure (some (fpa i))

def fidx (pa : Nat) : K Nat := do
  let m ← get
  if pa < lowmem ∨ m.nframes ≤ fnum pa ∨ m.used (fnum pa) = false then throw .badFrame
  else pure (fnum pa)

/-- The count of frame `i` becomes `r`. -/
def setRef (i r : Nat) (m : Mm) : Mm := { m with fref := fun k => if k = i then r else m.fref k }

/-- Frame `i` is free again. -/
def dropFrame (i : Nat) (m : Mm) : Mm :=
  { m with
    used := fun k => if k = i then false else m.used k
    nfree := u32 (m.nfree + 1) }

/-- `frame_free`; the counts are of 16 bits. -/
def frameFree (pa : Nat) : K Unit := do
  modify fun m => { m with freed := pa :: m.freed }
  let i ← fidx pa
  let m ← get
  let r := (m.fref i + 65535) % 65536
  modify (setRef i r)
  if r = 0 then modify (dropFrame i)

/-! ## Page tables -/

def sharedPde (i : Nat) : Bool := i == 0 || i == pdx kmapBase || i == pdx devVbase

/-- The pages from `lo` up to `hi`. -/
def pagesOf (lo hi : Nat) : List Nat :=
  (List.range ((hi - lo + 4095) / 4096)).map fun n => lo + n * 4096

/-- The loops over `[lo, hi)` do not end: their address wraps below `hi`. -/
def wraps (lo hi : Nat) : Bool := decide (pageDown lo < hi) && decide (0xFFFFF000 < hi)

/-- The addresses the loops of `alloc_user` and `free_user` visit; where the
address wraps, up to the end of the first turn from 0. -/
def visited (lo hi : Nat) : List Nat :=
  if wraps lo hi then pagesOf (pageDown lo) 4294967296 ++ pagesOf 0 4294967296
  else pagesOf (pageDown lo) hi

end Tortoise.Kernel
