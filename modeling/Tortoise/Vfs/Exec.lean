import Tortoise.Kernel.Image
import Tortoise.Vfs.Chan

/-!
# Executing files

`exec_image` of `src/os/kernel/proc.c` up to where the process has its new address space, with
`load_seg`, `vfs_read`, `io` and `vfs_getattr`.  An exec is a routine (`Prog`): it asks where it
sleeps, in `rpc`, and where it touches `buf`, the static buffer of `load_seg` that all execs share.

* `Ask.fill` is the `memcpy` of `io` into the buffer.  On a 9P mount the exec sleeps once more
  before it uses what it has put there (`Ask.take`).
* `Ask.pass` is a read that does not sleep: the buffer is filled and used at once.
* `execImage`: the exec.

The new address space is private to the exec: a set of pages and their bytes.  Whether memory can
be had is given from outside (`Fortune`).
-/

namespace Tortoise.Exec

open Lib.Resume
open Kernel (Args Header u32 pageDown visited wraps sharedPde pdx userStackTop)
open Vfs (Fsys Req Reply Stat Chans Phase RpcWork chanDone ioRead enoexec enomem)

abbrev Byte := BitVec 8

/-! ## Requests -/

/-- Where an exec touches what is shared, or may sleep. -/
inductive Ask (V C : Type) where
  /-- `rpc` and the `chan_done` after it. -/
  | rpc (c : C) (t : Req V)
  /-- Bytes are copied to the beginning of `buf`. -/
  | fill (b : List Byte)
  /-- Bytes are copied to the beginning of `buf`, and it is used before anybody else can run. -/
  | pass (b : List Byte)
  /-- The first `n` bytes of `buf` are used. -/
  | take (n : Nat)

/-- The answers. -/
def Answer {V C : Type} : Ask V C → Type
  | .rpc _ _ => Reply V
  | .fill _ => Unit
  | .pass _ => List Byte
  | .take _ => List Byte

/-- A routine that executes a file. -/
abbrev Routine (V C α : Type) := Prog (Ask V C) Answer α

section Requests

variable {V C : Type}

def rpc (c : C) (t : Req V) : Routine V C (Reply V) := Prog.request (Ask.rpc c t)

def fill (b : List Byte) : Routine V C Unit := Prog.request (Ask.fill b)

def pass (b : List Byte) : Routine V C (List Byte) := Prog.request (Ask.pass b)

def take (n : Nat) : Routine V C (List Byte) := Prog.request (Ask.take n)

end Requests

/-! ## Service -/

/-- What execs share: `buf` and the channels. -/
structure Shared (V C : Type) where
  buf : List Byte
  chans : Chans V C

/-- `memcpy` to the beginning of the buffer. -/
def overlay (b buf : List Byte) : List Byte := b ++ buf.drop b.length

@[simp] theorem take_overlay (b buf : List Byte) : (overlay b buf).take b.length = b := by
  unfold overlay
  exact List.take_left

section Service

variable {V C : Type} [DecidableEq C] (F : Fsys V C)

/-- The request to a server that is made for a request of a routine. -/
def rpcOf : Ask V C → Option (C × Req V)
  | .rpc c t => some (c, t)
  | _ => none

/-- The steps of a service before its answer. -/
def work : Ask V C → Phase C → Shared V C → Phase C → Shared V C → Prop
  | .rpc c t, p, s, p', s' => s'.buf = s.buf ∧ RpcWork F c t p s.chans p' s'.chans
  | _, _, _, _, _ => False

/-- The answer of a service. -/
def answer : (q : Ask V C) → Phase C → Shared V C → Answer q → Shared V C → Prop
  | .rpc c _, p, s, x, s' =>
    p = .answered c ∧ x = s.chans.rb c ∧ s' = { s with chans := chanDone c s.chans }
  | .fill b, p, s, _, s' => p = .idle ∧ s' = { s with buf := overlay b s.buf }
  | .pass b, p, s, x, s' => p = .idle ∧ x = (overlay b s.buf).take b.length ∧
      s' = { s with buf := overlay b s.buf }
  | .take n, p, s, x, s' => p = .idle ∧ x = s.buf.take n ∧ s' = s

/-- The answer to an exec that is alone; its view is what it has put into `buf` and not yet
used. -/
def alone : (q : Ask V C) → Option (List Byte) → Answer q × Option (List Byte)
  | .rpc c t, v => (F.server c t, v)
  | .fill b, _ => ((), some b)
  | .pass b, _ => (b, none)
  | .take n, v => ((v.getD []).take n, none)

/-- How the kernel serves execs. -/
def kernel : System (Ask V C) Answer (Shared V C) (Phase C) (Option (List Byte)) where
  idle := .idle
  work := work F
  answer := answer
  alone := alone F

end Service

/-! ## The new address space -/

/-- The private pages of an address space and their bytes. -/
structure Space where
  present : Nat → Bool
  bytes : Nat → Byte

/-- How an exec can fail: with an error code, or by running into the pages that all address spaces
share or around the end of the address space; what happens then is not followed. -/
inductive Fault where
  | error (e : Int)
  | astray
  deriving DecidableEq

/-- `new_pgdir`: nothing but what all address spaces share. -/
def Space.new : Space := ⟨fun _ => false, fun _ => 0⟩

/-- A page of zeros at `va`. -/
def Space.addPage (s : Space) (va : Nat) : Space where
  present := Function.update s.present (va / 4096) true
  bytes a := if a / 4096 = va / 4096 then 0 else s.bytes a

/-- The byte at `va` is written. -/
def Space.put (s : Space) (va : Nat) (b : Byte) : Space :=
  { s with bytes := Function.update s.bytes va b }

/-- The loop of `alloc_user`; `frame` says for which pages a frame and a table can be had. -/
def allocPages (frame : Nat → Bool) : List Nat → Space → Except Fault Space
  | [], s => .ok s
  | va :: vas, s =>
    if sharedPde (pdx va) then .error .astray
    else if s.present (va / 4096) then allocPages frame vas s
    else if frame va then allocPages frame vas (s.addPage va)
    else .error (.error enomem)

def allocUser (frame : Nat → Bool) (lo hi : Nat) (s : Space) : Except Fault Space :=
  if wraps lo hi then .error .astray else allocPages frame (visited lo hi) s

/-- `copy_to_space`, byte by byte, with the error its callers make of its error. -/
def copyToSpace : List Byte → Nat → Space → Except Fault Space
  | [], _, s => .ok s
  | b :: bs, va, s =>
    if sharedPde (pdx va) then .error .astray
    else if s.present (va / 4096) then copyToSpace bs (u32 (va + 1)) (s.put va b)
    else .error (.error enomem)

/-! ## The header -/

def get32 (h : List Byte) (i : Nat) : BitVec 32 :=
  h.getD (i + 3) 0 ++ h.getD (i + 2) 0 ++ h.getD (i + 1) 0 ++ h.getD i 0

/-- The header `h` of a file with the given size. -/
def header (h : List Byte) (size : Nat) : Header where
  magic := h.take 4 == [0x54, 0x45, 0x58, 0x31]
  entry := get32 h 4
  ta := get32 h 8
  ts := get32 h 12
  da := get32 h 16
  dsz := get32 h 20
  bs := get32 h 24
  size := size

/-! ## The exec -/

/-- Which allocations of an exec succeed: the page directory, the regions, and the pages of the
three calls of `alloc_user`. -/
structure Fortune where
  pgdir : Bool
  regions : Bool
  text : Nat → Bool
  data : Nat → Bool
  stack : Nat → Bool

/-- A call of `exec_image`. -/
structure Call (V : Type) where
  v : V
  args : Args
  fortune : Fortune

/-- What the process has after the exec: its address space, where it goes on and its stack
pointer. -/
structure Loaded where
  space : Space
  pc : Nat
  usp : Nat

/-- The address space before it is loaded. -/
def makeSpace (f : Fortune) (h : Header) (a : Args) : Except Fault Space :=
  if !f.pgdir || !f.regions then .error (.error enomem)
  else
    match allocUser f.text h.ta.toNat (u32 (h.ta.toNat + h.ts.toNat)) Space.new with
    | .error e => .error e
    | .ok s =>
      match if h.da.toNat < h.bend then allocUser f.data h.da.toNat h.bend s else .ok s with
      | .error e => .error e
      | .ok s => allocUser f.stack (pageDown a.sp) userStackTop s

/-- The strings and pointers are put on the stack. -/
def putArgs (a : Args) (s : Space) : Except Fault Space :=
  match copyToSpace a.strs a.base s with
  | .error e => .error e
  | .ok s => copyToSpace (a.ptrs.flatMap Args.word) a.sp s

section Image

variable {V C : Type} (F : Fsys V C)

/-- The size `vfs_getattr` finds, with `m_getattr`; zero when it fails. -/
def fileSize (v : V) : Routine V C Nat :=
  match F.chan v with
  | none => pure ((F.attr v).elim 0 fun st => st.size.toNat)
  | some c => do
    match ← rpc c (.stat v) with
    | .stat st => pure st.size.toNat
    | _ => pure 0

/-- `vfs_read` to a buffer that is not shared. -/
def vfsRead (v : V) (off n : Nat) : Routine V C (Except Int (List Byte)) :=
  match F.chan v with
  | none => pure (F.data v off n)
  | some c => ioRead F rpc (fun _ => pure ()) c v off n

/-- The header; nothing when it is not read in full. -/
def readHeader (v : V) : Routine V C (Option (List Byte)) := do
  match ← vfsRead F v 0 32 with
  | .error _ => pure none
  | .ok h => pure (if h.length = 32 then some h else none)

/-- `vfs_read` of `k` bytes to `buf`, and what is used of it; nothing when they are not read in
full. -/
def readPiece (v : V) (off k : Nat) : Routine V C (Option (List Byte)) :=
  match F.chan v with
  | none =>
    match F.data v off k with
    | .error _ => pure none
    | .ok b => do
      let x ← pass b
      pure (if b.length = k then some x else none)
  | some c => do
    match ← ioRead F rpc fill c v off k with
    | .error _ => pure none
    | .ok b =>
      if b.length = k then do
        let x ← take k
        pure (some x)
      else pure none

/-- The loop of `load_seg`, at most `m` times. -/
def loadPieces (v : V) : Nat → Nat → Nat → Nat → Space → Routine V C (Except Fault Space)
  | 0, _, _, _, s => pure (.ok s)
  | m + 1, foff, va, n, s =>
    if n = 0 then pure (.ok s)
    else do
      let k := if n > 512 then 512 else n
      match ← readPiece F v foff k with
      | none => pure (.error (.error enoexec))
      | some b =>
        match copyToSpace b va s with
        | .error e => pure (.error e)
        | .ok s => loadPieces v m (u32 (foff + k)) (u32 (va + k)) (n - k) s

def loadSeg (v : V) (foff va n : Nat) (s : Space) : Routine V C (Except Fault Space) :=
  loadPieces F v n foff va n s

/-- The two segments. -/
def loadImage (v : V) (h : Header) (s : Space) : Routine V C (Except Fault Space) := do
  match ← loadSeg F v 32 h.ta.toNat h.ts.toNat s with
  | .error e => pure (.error e)
  | .ok s => loadSeg F v (32 + h.ts.toNat) h.da.toNat h.dsz.toNat s

def execImage (c : Call V) : Routine V C (Except Fault Loaded) := do
  let size ← fileSize F c.v
  match ← readHeader F c.v with
  | none => pure (.error (.error enoexec))
  | some bytes =>
    let h := header bytes size
    if h.bad then pure (.error (.error enoexec))
    else
      match makeSpace c.fortune h c.args with
      | .error e => pure (.error e)
      | .ok s => do
        match ← loadImage F c.v h s with
        | .error e => pure (.error e)
        | .ok s =>
          match putArgs c.args s with
          | .error e => pure (.error e)
          | .ok s => pure (.ok ⟨s, h.entry.toNat, c.args.sp⟩)

end Image

end Tortoise.Exec
