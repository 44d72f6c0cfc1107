import Tortoise.Lib.Tally

/-!
# Pipes

`pipe_read` and `pipe_write` of `src/os/kernel/file.c`, the files and descriptors that count
the ends of a pipe, and the device `#|` of `src/os/kernel/dev9.c`.

The kernel gives up the processor only when it sleeps, so a process in a call runs from one
`sleep_on` to the next: `run` is one such piece.  A wakeup is not modelled: a sleeping process
may go on at any time, and then looks at the pipe again.  Whether a signal is pending at that
moment is part of the step.

A slot is any place that holds a file: a descriptor of a process, a posted service, the
channel of a mount.  A fork is one `dup` for every descriptor, an exit one `close`.  Files
that are not pipes, and calls that fail because a table is full, are left out.
-/

namespace Tortoise.Pipes

open Function

abbrev Byte := BitVec 8

abbrev Word := BitVec 32

def pipeSize : Nat := 512

def chunkSize : Nat := 4096

def nPipe : Nat := 32

def nFile : Nat := 128

def nPdev : Nat := 16

structure Pipe where
  buf : Nat → Byte
  nread : Word
  nwrite : Word
  readers : Int
  writers : Int
  used : Bool

/-- A pipe behind `memset`. -/
def Pipe.clear : Pipe := ⟨fun _ => 0, 0, 0, 0, 0, false⟩

/-- The bytes in the buffer, oldest first. -/
def Pipe.contents (p : Pipe) : List Byte :=
  (List.range (p.nwrite - p.nread).toNat).map fun k =>
    p.buf ((p.nread + BitVec.ofNat 32 k).toNat % pipeSize)

inductive Errno where
  | eagain
  | eintr
  | epipe
  deriving DecidableEq

/-! ## Reading and writing -/

/-- The copy loop of `pipe_read`. -/
def takeBytes : Nat → Pipe → List Byte × Pipe
  | 0, p => ([], p)
  | n + 1, p =>
    if p.nread = p.nwrite then ([], p)
    else
      let r := takeBytes n { p with nread := p.nread + 1 }
      (p.buf (p.nread.toNat % pipeSize) :: r.1, r.2)

inductive ReadEnd where
  | sleep
  | error (e : Errno)
  | done (bs : List Byte) (p : Pipe)

/-- `pipe_read`, from the top of its loop. -/
def pipeRead (p : Pipe) (n : Nat) (nonblock pending : Bool) : ReadEnd :=
  if p.nread = p.nwrite ∧ 0 < p.writers then
    if pending then .error .eintr
    else if nonblock then .error .eagain
    else .sleep
  else
    let r := takeBytes n p
    .done r.1 r.2

inductive WriteEnd where
  | sleep
  | cut (e : Errno)
  | done

/-- One byte into the buffer. -/
def Pipe.put (p : Pipe) (b : Byte) : Pipe :=
  { p with buf := update p.buf (p.nwrite.toNat % pipeSize) b
           nwrite := p.nwrite + 1 }

/-- `pipe_write` from position `i` on, where the rest of the bytes is `bs`: how far it gets,
and how it ends there. -/
def pipeWrite (nonblock pending : Bool) : List Byte → Nat → Pipe → Nat × Pipe × WriteEnd
  | [], i, p => (i, p, .done)
  | b :: bs, i, p =>
    if p.nwrite - p.nread = BitVec.ofNat 32 pipeSize then
      if p.readers = 0 then (i, p, .cut .epipe)
      else if pending then (i, p, .cut .eintr)
      else if nonblock then (i, p, .cut .eagain)
      else (i, p, .sleep)
    else if p.readers = 0 then (i, p, .cut .epipe)
    else pipeWrite nonblock pending bs (i + 1) (p.put b)

/-! ## Files, descriptors and the device -/

/-- `File`, as far as it is about a pipe.  `rid` and `wid` remember which pipes it was opened
on. -/
structure File where
  ref : Nat
  isPipe : Bool
  pipe : Nat
  pipe2 : Option Nat
  readable : Bool
  writable : Bool
  rid : Nat
  wid : Nat

def File.none : File := ⟨0, false, 0, .none, false, false, 0, 0⟩

/-- The pipe that is written: `f->pipe2 ? f->pipe2 : f->pipe`. -/
def File.wpipe (f : File) : Nat := f.pipe2.getD f.pipe

/-- The two files of `sys_pipe`. -/
def File.reader (i id : Nat) : File := ⟨1, true, i, .none, true, false, id, id⟩

def File.writer (i id : Nat) : File := ⟨1, true, i, .none, false, true, id, id⟩

/-- `PipeDev`.  `abId` and `baId` remember which pipes it was made with. -/
structure PipeDev where
  used : Bool
  ab : Nat
  ba : Nat
  opened0 : Bool
  opened1 : Bool
  abId : Nat
  baId : Nat

def PipeDev.none : PipeDev := ⟨false, 0, 0, false, false, 0, 0⟩

/-- A read in progress: the pipe, which pipe that was, and how many bytes are wanted. -/
structure ReadCall where
  file : Nat
  pipe : Nat
  id : Nat
  n : Nat
  nonblock : Bool

/-- A write in progress: `done` bytes are in earlier chunks, `pos` of the current chunk are
written. -/
structure WriteCall where
  file : Nat
  pipe : Nat
  id : Nat
  call : Nat
  text : List Byte
  done : Nat
  pos : Nat
  nonblock : Bool

inductive Activity where
  | user
  | reading (c : ReadCall)
  | writing (c : WriteCall)

/-- What has happened to one pipe: the bytes written, with the number of the call that wrote
them, and the bytes that reads have returned. -/
structure Log where
  puts : List (Nat × Byte)
  got : List Byte

/-- A write that has returned. -/
structure Written where
  id : Nat
  text : List Byte
  result : Except Errno Nat

abbrev Slot := Nat × Nat

/-- The pipes and everything that counts their ends.  `log`, `calls` and `written` only
record. -/
structure Sys where
  pipes : Nat → Pipe
  ids : Nat → Nat
  nextId : Nat
  files : Nat → File
  devs : Nat → PipeDev
  slots : List (Slot × Nat)
  procs : Nat → Activity
  log : Nat → Log
  calls : Nat
  written : Nat → Option Written

def Sys.init : Sys where
  pipes _ := .clear
  ids _ := 0
  nextId := 1
  files _ := .none
  devs _ := .none
  slots := []
  procs _ := .user
  log _ := ⟨[], []⟩
  calls := 0
  written _ := none

namespace Sys

variable (s : Sys)

def setPipe (i : Nat) (p : Pipe) : Sys := { s with pipes := update s.pipes i p }

def setFile (f : Nat) (x : File) : Sys := { s with files := update s.files f x }

def setDev (d : Nat) (x : PipeDev) : Sys := { s with devs := update s.devs d x }

def setProc (p : Nat) (a : Activity) : Sys := { s with procs := update s.procs p a }

/-- The first pipe that is not in use. -/
def freePipe : Option Nat := (List.range nPipe).find? fun i => !(s.pipes i).used

/-- The file `file_alloc` finds. -/
def freeFile : Option Nat := (List.range nFile).find? fun f => (s.files f).ref = 0

def freeDev : Option Nat := (List.range nPdev).find? fun d => !(s.devs d).used

def addReaders (i : Nat) (k : Int) : Sys :=
  s.setPipe i { s.pipes i with readers := (s.pipes i).readers + k }

def addWriters (i : Nat) (k : Int) : Sys :=
  s.setPipe i { s.pipes i with writers := (s.pipes i).writers + k }

/-- `pipe_check`, without the wakeups. -/
def pipeCheck (i : Nat) : Sys :=
  if (s.pipes i).readers ≤ 0 ∧ (s.pipes i).writers ≤ 0 then
    s.setPipe i { s.pipes i with used := false }
  else s

/-- A new pipe in place `i`, with `readers` and `writers` ends. -/
def newPipe (i : Nat) (readers writers : Int) : Sys :=
  { s with pipes := update s.pipes i
             { Pipe.clear with used := true, readers := readers, writers := writers }
           ids := update s.ids i s.nextId
           nextId := s.nextId + 1 }

/-- A slot gets a file. -/
def hold (slot : Slot) (f : Nat) : Sys := { s with slots := (slot, f) :: s.slots }

def isFree (slot : Slot) : Bool := (s.slots.lookup slot).isNone

/-- `sys_pipe`, with the descriptors it finds. -/
def sysPipe (a b : Slot) : Option Sys := do
  let i ← s.freePipe
  let r ← s.freeFile
  let t := s.setFile r (File.reader i s.nextId)
  let w ← t.freeFile
  if s.isFree a && s.isFree b && a ≠ b then
    some ((((t.setFile w (File.writer i s.nextId)).newPipe i 1 1).hold a r).hold b w)
  else none

/-- `file_dup`, into a free slot. -/
def dup (src dst : Slot) : Option Sys := do
  let f ← s.slots.lookup src
  if s.isFree dst then
    some ((s.setFile f { s.files f with ref := (s.files f).ref + 1 }).hold dst f)
  else none

/-- `if (f->readable)` add to the readers. -/
def addReader (x : File) (k : Int) : Sys := if x.readable then s.addReaders x.pipe k else s

/-- `if (f->writable)` add to the writers. -/
def addWriter (x : File) (k : Int) : Sys := if x.writable then s.addWriters x.wpipe k else s

/-- `pipe_check` for both pipes of a file. -/
def checkBoth (x : File) : Sys :=
  if x.wpipe ≠ x.pipe then (s.pipeCheck x.pipe).pipeCheck x.wpipe else s.pipeCheck x.pipe

/-- The pipe's part of `file_close`, when nothing holds the file any more. -/
def closeEnds (x : File) : Sys := ((s.addReader x (-1)).addWriter x (-1)).checkBoth x

def fileClose (f : Nat) : Sys :=
  let x := s.files f
  if 1 < x.ref then s.setFile f { x with ref := x.ref - 1 }
  else
    (if x.isPipe then s.closeEnds x else s).setFile f
      { x with ref := 0, isPipe := false, pipe2 := none }

/-- A slot gives its file back. -/
def close (slot : Slot) : Option Sys := do
  let f ← s.slots.lookup slot
  some { s.fileClose f with slots := s.slots.erase (slot, f) }

/-- `pipe_attach`. -/
def attach : Option Sys := do
  let d ← s.freeDev
  let a ← s.freePipe
  let t := s.newPipe a 1 1
  let b ← t.freePipe
  some ((t.newPipe b 1 1).setDev d ⟨true, a, b, false, false, s.nextId, t.nextId⟩)

end Sys

/-- An end of the device: `data` or `data1`. -/
inductive End where
  | data
  | data1
  deriving DecidableEq

namespace PipeDev

variable (d : PipeDev)

def rd : End → Nat
  | .data => d.ba
  | .data1 => d.ab

def wr : End → Nat
  | .data => d.ab
  | .data1 => d.ba

def rdId : End → Nat
  | .data => d.baId
  | .data1 => d.abId

def wrId : End → Nat
  | .data => d.abId
  | .data1 => d.baId

def opened : End → Bool
  | .data => d.opened0
  | .data1 => d.opened1

def setOpened : End → PipeDev
  | .data => { d with opened0 := true }
  | .data1 => { d with opened1 := true }

end PipeDev

namespace Sys

variable (s : Sys)

/-- Give up the place holder of an end. -/
def dropHolder (x : PipeDev) (e : End) : Sys :=
  (s.addWriters (x.wr e) (-1)).addReaders (x.rd e) (-1)

/-- The first `open` of an end takes the place of its holder. -/
def takeEnd (d : Nat) (e : End) : Sys :=
  if (s.devs d).opened e then s
  else (s.setDev d ((s.devs d).setOpened e)).dropHolder (s.devs d) e

/-- The file of an end. -/
def endFile (x : PipeDev) (e : End) (readable writable : Bool) : File :=
  ⟨1, true, x.rd e, some (x.wr e), readable, writable, x.rdId e, x.wrId e⟩

/-- `pipe9_open`, in a file from `file_alloc`, with the descriptor it gets. -/
def open9 (d : Nat) (e : End) (readable writable : Bool) (slot : Slot) : Option Sys := do
  let f ← s.freeFile
  if (s.devs d).used && s.isFree slot then
    let x := endFile (s.devs d) e readable writable
    some (((((s.takeEnd d e).addReader x 1).addWriter x 1).setFile f x).hold slot f)
  else none

/-- `if (!d->opened[..])` give up the place holder. -/
def dropUnopened (x : PipeDev) (e : End) : Sys := if x.opened e then s else s.dropHolder x e

/-- `pp_release`, when the last vnode of the device goes. -/
def release (d : Nat) : Option Sys :=
  let x := s.devs d
  if x.used then
    some (((((s.dropUnopened x .data).dropUnopened x .data1).pipeCheck x.ab).pipeCheck x.ba).setDev d
      { x with used := false })
  else none

/-! ## Calls -/

/-- A process begins to read. -/
def startRead (p : Nat) (slot : Slot) (n : Nat) (nonblock : Bool) : Option Sys := do
  let f ← s.slots.lookup slot
  match s.procs p with
  | .user =>
    if (s.files f).isPipe && (s.files f).readable then
      some (s.setProc p (.reading ⟨f, (s.files f).pipe, (s.files f).rid, n, nonblock⟩))
    else none
  | _ => none

/-- A process begins to write. -/
def startWrite (p : Nat) (slot : Slot) (text : List Byte) (nonblock : Bool) : Option Sys := do
  let f ← s.slots.lookup slot
  match s.procs p with
  | .user =>
    if (s.files f).isPipe && (s.files f).writable then
      some { s.setProc p (.writing
          ⟨f, (s.files f).wpipe, (s.files f).wid, s.calls, text, 0, 0, nonblock⟩) with
        calls := s.calls + 1 }
    else none
  | _ => none

end Sys

/-- What a call says when it returns. -/
inductive Event where
  | read (c : ReadCall) (result : Except Errno (List Byte))
  | write (c : WriteCall) (result : Except Errno Nat)

/-- The chunk of the write loop. -/
def WriteCall.chunk (c : WriteCall) : List Byte := (c.text.drop c.done).take chunkSize

namespace Sys

variable (s : Sys)

/-- A write returns. -/
def finish (p : Nat) (c : WriteCall) (result : Except Errno Nat) : Sys × Option Event :=
  ({ s.setProc p .user with
      written := update s.written c.call (some ⟨c.id, c.text, result⟩) },
    some (.write c result))

/-- Go on with a read. -/
def runRead (p : Nat) (c : ReadCall) (pending : Bool) : Sys × Option Event :=
  match pipeRead (s.pipes c.pipe) c.n c.nonblock pending with
  | .sleep => (s, none)
  | .error e => (s.setProc p .user, some (.read c (.error e)))
  | .done bs q =>
    ({ (s.setPipe c.pipe q).setProc p .user with
        log := update s.log c.id { s.log c.id with got := (s.log c.id).got ++ bs } },
      some (.read c (.ok bs)))

/-- A piece of `pipe_write` has put `k` more bytes of the chunk into the pipe. -/
def wrote (c : WriteCall) (q : Pipe) (k : Nat) : Sys :=
  { s.setPipe c.pipe q with
    log := update s.log c.id { s.log c.id with
      puts := (s.log c.id).puts ++ ((c.chunk.drop c.pos).take k).map fun b => (c.call, b) } }

/-- Go on with a write: `write_loop` and `do_write` around `pipe_write`. -/
def runWrite (p : Nat) (c : WriteCall) (pending : Bool) : Sys × Option Event :=
  let r := pipeWrite c.nonblock pending (c.chunk.drop c.pos) c.pos (s.pipes c.pipe)
  let t := s.wrote c r.2.1 (r.1 - c.pos)
  match r.2.2 with
  | .sleep => (t.setProc p (.writing { c with pos := r.1 }), none)
  | .cut e => t.finish p c (if c.done + r.1 = 0 then .error e else .ok (c.done + r.1))
  | .done =>
    let done := c.done + c.chunk.length
    if done < c.text.length ∧ (s.files c.file).isPipe = true then
      (t.setProc p (.writing { c with
        pipe := (s.files c.file).wpipe
        id := (s.files c.file).wid
        done := done
        pos := 0 }), none)
    else t.finish p c (.ok done)

/-- A process goes on with its call. -/
def run (p : Nat) (pending : Bool) : Option (Sys × Option Event) :=
  match s.procs p with
  | .user => none
  | .reading c => some (s.runRead p c pending)
  | .writing c => some (s.runWrite p c pending)

end Sys

/-! ## Runs -/

inductive Op where
  | pipe (a b : Slot)
  | dup (src dst : Slot)
  | close (slot : Slot)
  | attach
  | open9 (d : Nat) (e : End) (readable writable : Bool) (slot : Slot)
  | release (d : Nat)
  | startRead (p : Nat) (slot : Slot) (n : Nat) (nonblock : Bool)
  | startWrite (p : Nat) (slot : Slot) (text : List Byte) (nonblock : Bool)
  | run (p : Nat) (pending : Bool)

/-- One step. -/
def Sys.step (s : Sys) : Op → Option (Sys × Option Event)
  | .pipe a b => (s.sysPipe a b).map (·, none)
  | .dup src dst => (s.dup src dst).map (·, none)
  | .close slot => (s.close slot).map (·, none)
  | .attach => s.attach.map (·, none)
  | .open9 d e r w slot => (s.open9 d e r w slot).map (·, none)
  | .release d => (s.release d).map (·, none)
  | .startRead p slot n nb => (s.startRead p slot n nb).map (·, none)
  | .startWrite p slot text nb => (s.startWrite p slot text nb).map (·, none)
  | .run p pending => s.run p pending

/-- Steps one after the other. -/
def Sys.steps (s : Sys) : List Op → Option Sys
  | [] => some s
  | op :: ops => (s.step op).bind fun r => r.1.steps ops

/-- The file a process is busy with. -/
def Activity.file : Activity → Option Nat
  | .user => none
  | .reading c => some c.file
  | .writing c => some c.file

/-- The condition on a step: an end of a device is opened only while its pipe is in use and
still the one it was made with, and a file that some call works on is not given back by its
last holder. -/
def Sys.Meets (s : Sys) : Op → Prop
  | .open9 d e r w _ =>
    (r = true → (s.pipes ((s.devs d).rd e)).used = true ∧
      s.ids ((s.devs d).rd e) = (s.devs d).rdId e) ∧
    (w = true → (s.pipes ((s.devs d).wr e)).used = true ∧
      s.ids ((s.devs d).wr e) = (s.devs d).wrId e)
  | .close slot => ∀ f, s.slots.lookup slot = some f → 1 < (s.files f).ref ∨
      ∀ p, (s.procs p).file ≠ some f
  | _ => True

/-- The states that runs of such steps reach. -/
inductive Reach : Sys → Prop
  | init : Reach .init
  | step {s s' : Sys} {op : Op} {ev : Option Event} (h : Reach s) (hm : s.Meets op)
      (hs : s.step op = some (s', ev)) : Reach s'

end Tortoise.Pipes
