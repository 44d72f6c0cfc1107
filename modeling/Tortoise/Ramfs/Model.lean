import Mathlib

/-!
# Files of the memory file system

`r_read`, `r_write`, `r_truncate` and `grow_pages` of `os/kernel/ramfs.c` on one file: a table
of pages, grown as needed, whose entries are empty until a byte of the page is written.

A page is a function from offsets to bytes.  How many frames `frame_alloc` still has is part of
the state and whether `kmalloc` has memory is given from outside.  A call that reads the table
of pages behind its end has no result.
-/

namespace Tortoise.RamFs

abbrev Byte := BitVec 8

abbrev Page := Nat → Byte

/-- Unsigned arithmetic of 32 bits. -/
def u32 (x : Nat) : Nat := x % 4294967296

def page : Nat := 4096

def einval : Int := 22
def enospc : Int := 28

/-- What `r_write` uses of the `Ram` and the `RNode`, with the frames left. -/
structure RNode where
  used : Nat
  limit : Nat
  frames : Nat
  size : Nat
  mtime : Nat
  ctime : Nat
  pages : List (Option Page)

/-- `while (cap < np) cap *= 2`. -/
def capLoop : Nat → Nat → Nat → Nat
  | 0, cap, _ => cap
  | fuel + 1, cap, np => if cap < np then capLoop fuel (cap * 2) np else cap

def growPages (kmalloc : Nat → Bool) (x : RNode) (np : Nat) : Option RNode :=
  if np ≤ x.pages.length then some x
  else
    let cap := capLoop 32 8 np
    if kmalloc (cap * 4) then
      some { x with pages := x.pages ++ List.replicate (cap - x.pages.length) none }
    else none

/-- `memcpy(page + o, src, k)`. -/
def copyIn (p : Page) (o : Nat) (src : List Byte) : Page := fun j =>
  if o ≤ j ∧ j < o + src.length then src.getD (j - o) 0 else p j

/-- The loop of `r_write`; `src` is what is left to write. -/
def writeLoop : Nat → RNode → List Byte → Nat → Nat → Option (RNode × Nat × Nat)
  | 0, x, _, off, done => some (x, off, done)
  | fuel + 1, x, src, off, done =>
    if src.length = 0 then some (x, off, done)
    else
      let pg := off / page
      let o := off % page
      let k := min (page - o) src.length
      match x.pages[pg]? with
      | none => none
      | some none =>
        if x.limit ≤ x.used ∨ x.frames = 0 then some (x, off, done)
        else
          writeLoop fuel
            { x with
              used := x.used + 1
              frames := x.frames - 1
              pages := x.pages.set pg (some (copyIn (fun _ => 0) o (src.take k))) }
            (src.drop k) (u32 (off + k)) (done + k)
      | some (some p) =>
        writeLoop fuel { x with pages := x.pages.set pg (some (copyIn p o (src.take k))) }
          (src.drop k) (u32 (off + k)) (done + k)

def rWrite (kmalloc : Nat → Bool) (now : Nat) (x : RNode) (src : List Byte) (off : Nat) :
    Option (RNode × Int) :=
  let n := src.length
  if u32 (off + n) < off then some (x, -einval)
  else
    match growPages kmalloc x (u32 (off + n + page - 1) / page) with
    | none => some (x, -enospc)
    | some x =>
      (writeLoop n x src off 0).map fun (x, off, done) =>
        ({ x with size := if x.size < off then off else x.size, mtime := now, ctime := now },
          if done = 0 ∧ 0 < n then -enospc else (BitVec.ofNat 32 done).toInt)

/-- `k` bytes of an entry of the table of pages, zeros if there is no page. -/
def readPage (q : Option (Option Page)) (o k : Nat) : List Byte :=
  match q with
  | some (some p) => (List.range' o k).map p
  | _ => List.replicate k 0

/-- The loop of `r_read`; `n` is what is left to read. -/
def readLoop (x : RNode) : Nat → Nat → Nat → List Byte
  | 0, _, _ => []
  | fuel + 1, off, n =>
    if n = 0 then []
    else
      let o := off % page
      let k := min (page - o) n
      readPage x.pages[off / page]? o k ++ readLoop x fuel (u32 (off + k)) (n - k)

def rRead (x : RNode) (off n : Nat) : List Byte :=
  if x.size ≤ off then []
  else
    let n := if x.size < u32 (off + n) ∨ u32 (off + n) < off then x.size - off else n
    readLoop x n off n

/-- `free_data`: the pages from `keep` on. -/
def freeData (x : RNode) (keep : Nat) : RNode :=
  let freed := (x.pages.drop keep).countP Option.isSome
  { x with
    used := x.used - freed
    frames := x.frames + freed
    pages := x.pages.take keep ++ (x.pages.drop keep).map fun _ => none }

def rTruncate (now : Nat) (x : RNode) (len : Nat) : RNode :=
  let keep := u32 (len + page - 1) / page
  let x :=
    if len < x.size then
      let x := freeData x keep
      if len % page ≠ 0 ∧ 0 < keep then
        match x.pages[keep - 1]? with
        | some (some p) =>
          let tail : Page := fun j => if len % page ≤ j ∧ j < page then 0 else p j
          { x with pages := x.pages.set (keep - 1) (some tail) }
        | _ => x
      else x
    else x
  { x with size := len, mtime := now, ctime := now }

end Tortoise.RamFs
