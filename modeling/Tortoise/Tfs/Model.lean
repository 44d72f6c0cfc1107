import Mathlib

/-!
# The disk file system

`os/kernel/tfs.c`: blocks of 512 bytes on a disk, inodes of 128 bytes, a bitmap of used
blocks, and files whose blocks are found through twelve direct pointers and three trees of
one, two and three levels.

A block is a function from offsets to bytes and an inode a function from the index of a word
in it to the word, under the names of `TInode`.  The block cache writes through and is left out
here; `Tfs.Cache` has it.  A transfer fails where `disk_rw` refuses the sector or the device ends
with an error.  The time `vfs_now` returns is an argument.
-/

namespace Tortoise.DiskFs

open Function

/-- A byte. -/
abbrev Byte := BitVec 8

/-- A word. -/
abbrev Word := BitVec 32

/-- A block, by its bytes. -/
abbrev Block := Nat → Byte

/-- Unsigned arithmetic of 32 bits. -/
def u32 (x : Nat) : Nat := x % 4294967296

/-- The sector of block 0. -/
def fsSector0 : Nat := 1024
/-- Bytes of a block. -/
def bsize : Nat := 512
/-- Pointers in a block. -/
def nind : Nat := 128
/-- Inodes in a block. -/
def ipb : Nat := 4

def einval : Int := 22
def enospc : Int := 28

/-- An inode: 32 words, of which the index is given below by name. -/
abbrev TInode := Nat → Word

def iSize : Nat := 3
def iMtime : Nat := 5
def iCtime : Nat := 6
def iDirect : Nat := 7
def iInd : Nat := 19
def iDind : Nat := 20
def iTind : Nat := 21

/-- A mounted disk, with what is kept of its superblock. -/
structure Tfs where
  disk : Nat → Block
  nsectors : Nat
  /-- The sectors at which the device ends with an error, for reads and for writes. -/
  fails : Bool → Nat → Bool
  total : Nat
  ninodes : Nat
  istart : Nat
  bmstart : Nat
  dstart : Nat
  freeBlocks : Nat
  freeInodes : Nat
  bhint : Nat
  sb : Block

/-! ## Blocks -/

/-- The sector of a block. -/
def sector (b : Nat) : Nat := u32 (fsSector0 + b)

/-- The contents of a block. -/
def bread (t : Tfs) (b : Nat) : Option Block :=
  if sector b < t.nsectors ∧ t.fails false (sector b) = false then some (t.disk (sector b))
  else none

/-- A block is replaced. -/
def bwrite (t : Tfs) (b : Nat) (buf : Block) : Option Tfs :=
  if sector b < t.nsectors ∧ t.fails true (sector b) = false then
    some { t with disk := update t.disk (sector b) buf }
  else none

/-- A write whose result the code does not look at. -/
def bwrite' (t : Tfs) (b : Nat) (buf : Block) : Tfs := (bwrite t b buf).getD t

/-- Four bytes as a word. -/
def get32 (p : Block) (i : Nat) : Word :=
  (p i).setWidth 32 ||| (p (i + 1)).setWidth 32 <<< 8 ||| (p (i + 2)).setWidth 32 <<< 16 |||
    (p (i + 3)).setWidth 32 <<< 24

/-- Byte `k` of a word. -/
def byteOf (v : Word) (k : Nat) : Byte := (v >>> (8 * k)).setWidth 8

/-- A word into four bytes. -/
def put32 (p : Block) (i : Nat) (v : Word) : Block := fun j =>
  if i ≤ j ∧ j < i + 4 then byteOf v (j - i) else p j

/-- Word `i` of a block of words. -/
def word (p : Block) (i : Nat) : Word := get32 p (4 * i)

/-- Word `i` replaced. -/
def setWord (p : Block) (i : Nat) (v : Word) : Block := put32 p (4 * i) v

/-- The counts go into the superblock. -/
def sbSync (t : Tfs) : Tfs :=
  let sb := put32 (put32 t.sb 24 (BitVec.ofNat 32 t.freeBlocks)) 28 (BitVec.ofNat 32 t.freeInodes)
  bwrite' { t with sb := sb } 0 sb

/-! ## Inodes -/

/-- Inode `ino`. -/
def iget (t : Tfs) (ino : Nat) : Option TInode :=
  if ino = 0 ∨ t.ninodes ≤ ino then none
  else (bread t (t.istart + ino / ipb)).map fun ibuf w => word ibuf (ino % ipb * 32 + w)

/-- Inode `ino` is replaced. -/
def iput (t : Tfs) (ino : Nat) (ip : TInode) : Option Tfs :=
  if ino = 0 ∨ t.ninodes ≤ ino then none
  else
    match bread t (t.istart + ino / ipb) with
    | none => none
    | some ibuf =>
      bwrite t (t.istart + ino / ipb) fun j =>
        if j / 128 = ino % ipb then byteOf (ip (j % 128 / 4)) (j % 4) else ibuf j

/-- An `iput` whose result the code does not look at. -/
def iput' (t : Tfs) (ino : Nat) (ip : TInode) : Tfs := (iput t ino ip).getD t

/-! ## Allocation of blocks -/

/-- `buf[j / 8] & (1 << (j % 8))`. -/
def bit (buf : Block) (j : Nat) : Bool := (buf (j / 8)).getLsbD (j % 8)

/-- Mark a block used. -/
def setBit (buf : Block) (j : Nat) : Block :=
  update buf (j / 8) (buf (j / 8) ||| 1#8 <<< (j % 8))

/-- Mark a block free. -/
def clearBit (buf : Block) (j : Nat) : Block :=
  update buf (j / 8) (buf (j / 8) &&& ~~~(1#8 <<< (j % 8)))

/-- How many blocks the bitmap has. -/
def bitmapBlocks (t : Tfs) : Nat := u32 (t.total + 4095) / 4096

/-- The inner loop of `balloc`: the first free block among the bits `js` of bitmap block `i`. -/
def scanBits (t : Tfs) (buf : Block) (i : Nat) : List Nat → Option Nat
  | [] => none
  | j :: js =>
    let b := i * 4096 + j
    if t.total ≤ b then none
    else if b < t.dstart then scanBits t buf i js
    else if bit buf j then scanBits t buf i js
    else some b

/-- The outer loop of `balloc`. -/
def scan (t : Tfs) : List Nat → Option Nat
  | [] => none
  | pass :: passes =>
    let i := (t.bhint / 4096 + pass) % bitmapBlocks t
    match bread t (t.bmstart + i) with
    | none => none
    | some buf =>
      let from' := if pass = 0 then t.bhint % 4096 else 0
      match scanBits t buf i (List.range' from' (4096 - from')) with
      | some b => some b
      | none => scan t passes

/-- Mark block `b` used and fill it with zeros. -/
def take (t : Tfs) (b : Nat) : Tfs × Nat :=
  match bread t (t.bmstart + b / 4096) with
  | none => (t, 0)
  | some buf =>
    match bwrite t (t.bmstart + b / 4096) (setBit buf (b % 4096)) with
    | none => (t, 0)
    | some t =>
      match bwrite t b fun _ => 0 with
      | none => (t, 0)
      | some t =>
        let t := sbSync { t with freeBlocks := t.freeBlocks - 1 }
        ({ t with bhint := u32 (b + 1) }, b)

/-- `t->bhint = t->dstart` where the hint is outside the data blocks. -/
def rehint (t : Tfs) : Tfs :=
  if t.bhint < t.dstart ∨ t.total ≤ t.bhint then { t with bhint := t.dstart } else t

/-- A new block, zeroed; 0 if there is none. -/
def balloc (t : Tfs) : Tfs × Nat :=
  if t.freeBlocks = 0 then (t, 0)
  else
    let t := rehint t
    match scan t (List.range (bitmapBlocks t + 1)) with
    | none => (t, 0)
    | some b => take t b

/-- A block is given back. -/
def bfree (t : Tfs) (b : Nat) : Tfs :=
  if b < t.dstart ∨ t.total ≤ b then t
  else
    match bread t (t.bmstart + b / 4096) with
    | none => t
    | some buf =>
      if bit buf (b % 4096) then
        let t := bwrite' t (t.bmstart + b / 4096) (clearBit buf (b % 4096))
        sbSync { t with freeBlocks := t.freeBlocks + 1 }
      else t

/-! ## The blocks of a file -/

/-- The second half of `ind_entry`: the entry of a block of pointers, a new block for it if it
has none and `alloc` is set. -/
def entry (t : Tfs) (b idx : Nat) (alloc : Bool) : Tfs × Nat :=
  match bread t b with
  | none => (t, 0)
  | some buf =>
    let v := (word buf idx).toNat
    if v = 0 ∧ alloc then
      let (t, v) := balloc t
      if v = 0 then (t, 0)
      else
        match bread t b with
        | none => (t, 0)
        | some buf =>
          match bwrite t b (setWord buf idx (BitVec.ofNat 32 v)) with
          | none => (t, 0)
          | some t => (t, v)
    else (t, v)

/-- `ind_entry`: the new `*slot`, whether it became dirty, and the entry. -/
def indEntry (t : Tfs) (slot idx : Nat) (alloc : Bool) : Tfs × Nat × Bool × Nat :=
  if slot = 0 then
    if alloc then
      let (t, slot) := balloc t
      if slot = 0 then (t, 0, false, 0)
      else
        let (t, v) := entry t slot idx alloc
        (t, slot, true, v)
    else (t, 0, false, 0)
  else
    let (t, v) := entry t slot idx alloc
    (t, slot, false, v)

/-- One of the three trees of a file: through the root in word `w` of the inode and then
through `is`. -/
def bmapTree (t : Tfs) (ino : Nat) (ip : TInode) (w : Nat) (i : Nat) (is : List Nat)
    (alloc : Bool) : Tfs × TInode × Nat :=
  let (t, slot, dirty, a) := indEntry t (ip w).toNat i alloc
  let ip := update ip w (BitVec.ofNat 32 slot)
  let (t, r) := is.foldl (fun (t, a) i =>
    if a = 0 then (t, 0)
    else
      let (t, _, _, v) := indEntry t a i alloc
      (t, v)) (t, a)
  (if dirty then iput' t ino ip else t, ip, r)

/-- The block of block `fb` of a file. -/
def bmap (t : Tfs) (ino : Nat) (ip : TInode) (fb : Nat) (alloc : Bool) : Tfs × TInode × Nat :=
  if fb < 12 then
    let r := (ip (iDirect + fb)).toNat
    if r = 0 ∧ alloc then
      let (t, r) := balloc t
      let ip := update ip (iDirect + fb) (BitVec.ofNat 32 r)
      (iput' t ino ip, ip, r)
    else (t, ip, r)
  else if fb < 12 + nind then bmapTree t ino ip iInd (fb - 12) [] alloc
  else if fb < 12 + nind + nind * nind then
    let k := fb - 12 - nind
    bmapTree t ino ip iDind (k / nind) [k % nind] alloc
  else
    let k := fb - 12 - nind - nind * nind
    if nind * nind * nind ≤ k then (t, ip, 0)
    else bmapTree t ino ip iTind (k / (nind * nind)) [k / nind % nind, k % nind] alloc

/-! ## Reading and writing -/

/-- The loop of `readi`; `n` is what is left to read. -/
def readLoop (ino : Nat) : Nat → Tfs → TInode → Nat → Nat → Option (List Byte)
  | 0, _, _, _, _ => some []
  | fuel + 1, t, di, off, n =>
    if n = 0 then some []
    else
      let (t, di, b) := bmap t ino di (off / bsize) false
      let o := off % bsize
      let k := min (bsize - o) n
      let rest := readLoop ino fuel t di (u32 (off + k)) (n - k)
      if b = 0 then rest.map fun l => List.replicate k 0 ++ l
      else
        match bread t b with
        | none => none
        | some buf => rest.map fun l => (List.range' o k).map buf ++ l

/-- `readi`: the bytes read, or nothing for `-EINVAL`. -/
def readi (t : Tfs) (ino off n : Nat) : Option (List Byte) :=
  match iget t ino with
  | none => none
  | some di =>
    let size := (di iSize).toNat
    if size ≤ off then some []
    else
      let n := if size < u32 (off + n) ∨ u32 (off + n) < off then size - off else n
      readLoop ino n t di off n

/-- `memcpy(buf + o, src, k)`. -/
def copyIn (buf : Block) (o : Nat) (src : List Byte) : Block := fun j =>
  if o ≤ j ∧ j < o + src.length then src.getD (j - o) 0 else buf j

/-- Write `src` into block `b` from `o` on.  A whole block is not read first. -/
def writeBlock (t : Tfs) (b o : Nat) (src : List Byte) : Option Tfs :=
  match if src.length < bsize then bread t b else some fun _ => 0 with
  | none => none
  | some buf => bwrite t b (copyIn buf o src)

/-- The loop of `writei`; `src` is what is left to write. -/
def writeLoop (ino : Nat) : Nat → Tfs → TInode → List Byte → Nat → Nat → Tfs × TInode × Nat × Nat
  | 0, t, di, _, off, done => (t, di, off, done)
  | fuel + 1, t, di, src, off, done =>
    if src.length = 0 then (t, di, off, done)
    else
      let (t, di, b) := bmap t ino di (off / bsize) true
      if b = 0 then (t, di, off, done)
      else
        let o := off % bsize
        let k := min (bsize - o) src.length
        match writeBlock t b o (src.take k) with
        | none => (t, di, off, done)
        | some t => writeLoop ino fuel t di (src.drop k) (u32 (off + k)) (done + k)

/-- `di.mtime = di.ctime = vfs_now()`, after the new size. -/
def stamp (di : TInode) (size : Word) (now : Word) : TInode :=
  update (update (update di iSize size) iCtime now) iMtime now

/-- Write to a file. -/
def writei (now : Word) (t : Tfs) (ino : Nat) (src : List Byte) (off : Nat) : Tfs × Int :=
  match iget t ino with
  | none => (t, -einval)
  | some di =>
    let n := src.length
    let (t, di, off, done) := writeLoop ino n t di src off 0
    let size := if (di iSize).toNat < off then BitVec.ofNat 32 off else di iSize
    let t := iput' t ino (stamp di size now)
    (t, if done < n ∧ done = 0 then -enospc else (BitVec.ofNat 32 done).toInt)

/-! ## Truncation -/

/-- The loop of `free_tree` over the entries of a block; the state is the disk, the entries
and `keep`.  `sub` is the call for the level below, nothing at the lowest level. -/
def freeEntry (span first : Nat) (sub : Option (Tfs → Nat → Nat → Tfs × Bool))
    (s : Tfs × Block × Bool) (i : Nat) : Tfs × Block × Bool :=
  let (t, buf, keep) := s
  let lo := i * span
  let v := (word buf i).toNat
  if v = 0 then (t, buf, keep)
  else if lo + span ≤ first then (t, buf, true)
  else
    match sub with
    | some sub =>
      let (t, k) := sub t v (first - lo)
      if k then (t, buf, true) else (t, setWord buf i 0, keep)
    | none =>
      if lo < first then (t, buf, true)
      else (bfree t v, setWord buf i 0, keep)

/-- The body of `free_tree`: whether the block stays. -/
def freeNode (span : Nat) (sub : Option (Tfs → Nat → Nat → Tfs × Bool)) (t : Tfs) (b first : Nat) :
    Tfs × Bool :=
  if b = 0 then (t, false)
  else
    match bread t b with
    | none => (t, true)
    | some buf =>
      let (t, buf, keep) := (List.range nind).foldl (freeEntry span first sub) (t, buf, false)
      if keep then (bwrite' t b buf, true) else (bfree t b, false)

/-- `free_tree` for level `level + 1`. -/
def freeTree : Nat → Tfs → Nat → Nat → Tfs × Bool
  | 0 => freeNode 1 none
  | level + 1 => freeNode (nind ^ (level + 1)) (some (freeTree level))

/-- Free the direct blocks `is`. -/
def freeDirect (s : Tfs × TInode) (i : Nat) : Tfs × TInode :=
  let (t, di) := s
  let v := (di (iDirect + i)).toNat
  (if v = 0 then t else bfree t v, update di (iDirect + i) 0)

/-- Free the tree of word `w` from file block `base + first` on. -/
def freeRoot (w level base first : Nat) (s : Tfs × TInode) : Tfs × TInode :=
  let (t, di) := s
  let (t, keep) := freeTree level t (di w).toNat (first - base)
  (t, if keep then di else update di w 0)

/-- Fill the last block with zeros behind the new end. -/
def zeroTail (t : Tfs) (ino : Nat) (di : TInode) (len first : Nat) : Tfs × TInode :=
  if len % bsize ≠ 0 ∧ 0 < first then
    let (t, di, b) := bmap t ino di (first - 1) false
    match if b = 0 then none else bread t b with
    | none => (t, di)
    | some buf => (bwrite' t b fun j => if len % bsize ≤ j ∧ j < bsize then 0 else buf j, di)
  else (t, di)

/-- Cut or grow a file. -/
def itrunc (now : Word) (t : Tfs) (ino len : Nat) : Tfs × Int :=
  let first := u32 (len + bsize - 1) / bsize
  match iget t ino with
  | none => (t, -einval)
  | some di =>
    if (di iSize).toNat ≤ len then
      match iput t ino (stamp di (BitVec.ofNat 32 len) now) with
      | none => (t, -1)
      | some t => (t, 0)
    else
      let s := (List.range' first (12 - first)).foldl freeDirect (t, di)
      let s := freeRoot iInd 0 12 first s
      let s := freeRoot iDind 1 (12 + nind) first s
      let s := freeRoot iTind 2 (12 + nind + nind * nind) first s
      let (t, di) := zeroTail s.1 ino s.2 len first
      match iput t ino (stamp di (BitVec.ofNat 32 len) now) with
      | none => (t, -1)
      | some t => (t, 0)

end Tortoise.DiskFs
