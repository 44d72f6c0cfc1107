import Tortoise.Kernel.Mm

/-!
# Images to be executed

The header of a file that `exec_image` loads, with its checks, and the arguments with their place
on the new stack.
-/

namespace Tortoise.Kernel

/-- The arguments of `exec_image`: strings and their offsets, within the limits
`do_execve` keeps. -/
structure Args where
  strs : List Byte
  aoff : List (BitVec 32)
  eoff : List (BitVec 32)
  strs_le : strs.length ≤ 8192
  aoff_le : aoff.length ≤ 64
  eoff_le : eoff.length ≤ 64

/-- The header of a file to be executed, and its size. -/
structure Header where
  magic : Bool
  entry : BitVec 32
  ta : BitVec 32
  ts : BitVec 32
  da : BitVec 32
  dsz : BitVec 32
  bs : BitVec 32
  size : Nat

namespace Header

variable (img : Header)

def bend : Nat := u32 (u32 (img.da.toNat + img.dsz.toNat + 3) / 4 * 4 + img.bs.toNat)

/-- The checks of the header. -/
def bad : Bool :=
  !img.magic || decide (img.ta.toNat < userBase) || decide (img.da.toNat < img.ta.toNat) ||
  decide (0x10000000 < img.ts.toNat) || decide (0x10000000 < img.dsz.toNat) ||
  decide (0x10000000 < img.bs.toNat) || decide (0x40000000 < img.bend) ||
  decide (img.entry.toNat < img.ta.toNat) ||
  decide (u32 (img.ta.toNat + img.ts.toNat) ≤ img.entry.toNat) ||
  decide (img.size < 32 + img.ts.toNat + img.dsz.toNat)

end Header

namespace Args

variable (a : Args)

/-- `strbase`. -/
def base : Nat := userStackTop - (a.strs.length + 3) / 4 * 4

def sp : Nat := a.base - (a.aoff.length + 1 + a.eoff.length + 1) * 4

/-- The words of `ptrs`. -/
def ptrs : List Nat :=
  a.aoff.map (fun o => u32 (a.base + o.toNat)) ++ 0 ::
    (a.eoff.map (fun o => u32 (a.base + o.toNat)) ++ [0])

/-- A word as its bytes in memory. -/
def word (x : Nat) : List Byte := (List.range 4).map fun k => BitVec.ofNat 8 (x / 256 ^ k)

end Args

end Tortoise.Kernel
