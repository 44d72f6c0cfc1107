import Mathlib

/-!
# The TORTOISE machine: constants, registers and state

The emulator keeps its state in C globals: the `CPU` record of
`include/cpu.h`, the translation and instruction caches of `src/cpu.c`, the
device registers of `src/dev.c` and `src/net.c`, and whatever the host
supplies (terminal input, clock, network).  Here all of it is one record,
`Machine`, and every routine of the emulator is a function on it.

Representation:

* words are `BitVec 32`, bytes `BitVec 8`, the instruction counter and the
  event times `BitVec 64`, so all arithmetic wraps as the C arithmetic does;
* RAM is a function from physical addresses to bytes, of which only the
  addresses below `ramSize` are ever used;
* tables that the C code allocates lazily with `calloc` (`tlb_dir`) are total
  functions whose default entry is the zeroed one; `dc_tab`, whose allocation
  can be observed, keeps its `Option`;
* what the host does (bytes typed, datagrams received, the time of day) is a
  field of the state, so a run is a function of its initial state.

The verbose log, the instruction trace and the packet capture write only to
host files and are left out.
-/

namespace Tortoise.Emu

/-- A 32-bit machine word. -/
abbrev Word := BitVec 32

/-- A byte. -/
abbrev Byte := BitVec 8

/-! ## Constants of `include/cpu.h` -/

/-- Zero. -/
def flagZ : Byte := 1
/-- Carry. -/
def flagC : Byte := 2
/-- Sign. -/
def flagS : Byte := 4
/-- Overflow. -/
def flagV : Byte := 8
/-- Interrupts on. -/
def flagI : Word := 16
/-- User mode. -/
def flagU : Word := 32

/-- The old table of vectors. -/
def ivtBase : Word := 0x0100
/-- Where the ROM starts. -/
def romBase : Word := 0xFFFF0000
/-- The room for the ROM. -/
def romSize : Word := 0x10000
/-- Where the devices start. -/
def devBase : Word := 0xF0000000
/-- Where the devices end. -/
def devEnd : Word := 0xF0010000
/-- Bytes of a sector. -/
def diskSectorSize : Nat := 512
/-- Sectors of an old disk. -/
def diskNumSectors : Word := 256

/-- Extended mode. -/
def cr0Ext : Word := 1
/-- Base and limit. -/
def cr0Prot : Word := 2
/-- Paging. -/
def cr0Pg : Word := 4

/-- `CR0`. -/
def crCtrl : BitVec 4 := 0
/-- The table of vectors. -/
def crEvt : BitVec 4 := 1
/-- The address of a fault. -/
def crFaddr : BitVec 4 := 2
/-- The page directory. -/
def crPtbase : BitVec 4 := 3
/-- The supervisor's stack. -/
def crKsp : BitVec 4 := 4
/-- The base of user addresses. -/
def crBase : BitVec 4 := 5
/-- The limit of user addresses. -/
def crLimit : BitVec 4 := 6
/-- The cause of an entry. -/
def crCause : BitVec 4 := 7
/-- The size of RAM. -/
def crRamsize : BitVec 4 := 8

/-- Division by zero. -/
def vecDiv : Word := 0
/-- Breakpoint. -/
def vecBrk : Word := 3
/-- Invalid instruction. -/
def vecUd : Word := 4
/-- Bus error. -/
def vecBus : Word := 5
/-- Double fault. -/
def vecDf : Word := 6
/-- Protection fault. -/
def vecGp : Word := 13
/-- Page fault. -/
def vecPf : Word := 14
/-- The first interrupt. -/
def vecIrq : Word := 32
/-- System call. -/
def vecSyscall : Word := 48

/-- Present. -/
def pteP : Word := 1
/-- Writable. -/
def pteW : Word := 2
/-- For user mode. -/
def pteU : Word := 4
/-- Executable. -/
def pteX : Word := 8
/-- Accessed. -/
def pteA : Word := 16
/-- Dirty. -/
def pteD : Word := 32

/-- The page was present. -/
def pfP : Word := 1
/-- A write. -/
def pfW : Word := 2
/-- From user mode. -/
def pfU : Word := 4
/-- A fetch. -/
def pfI : Word := 8

/-- Invalid instruction. -/
def exitInvalid : Nat := 2
/-- Triple fault. -/
def exitTriple : Nat := 3
/-- Nothing to wait for. -/
def exitDeadlock : Nat := 4
/-- Instruction limit. -/
def exitLimit : Nat := 124

/-- The page part of an address, `x & ~0xFFF`. -/
def pageOf (x : Word) : Word := x &&& 0xFFFFF000

/-- The offset inside a page, `x & 0xFFF`. -/
def pageOff (x : Word) : Word := x &&& 0xFFF

/-- The number of the page of an address, `x >> 12`. -/
def pageNum (x : Word) : Nat := x.toNat / 4096

/-! ## Registers -/

/-- The privilege mode, `MODE_SUPERVISOR` or `MODE_USER`. -/
inductive Mode where
  | supervisor
  | user
  deriving DecidableEq, Repr

/-- The `CPU` record, without the RAM pointer and the fields nothing reads
(`int_pending`, `int_vector`). -/
structure Cpu where
  pc : Word
  regs : BitVec 3 → Word
  sp : Word
  halted : Bool
  flags : Byte
  intEnabled : Bool
  mode : Mode
  syscallPc : Word
  diskSector : Word
  diskBuffer : Word
  cr : BitVec 4 → Word
  icount : BitVec 64
  exitCode : Nat
  /-- The address of the instruction being executed. -/
  instPc : Word
  /-- How many exception entries are under way: `0` outside of them. -/
  depth : Nat

/-! ## Caches -/

/-- One entry of the translation cache, live when `gen` is the current
generation. -/
structure TlbEnt where
  gen : Word
  pte : Word
  ptePa : Word
  deriving DecidableEq, Repr, Inhabited

/-- Where `f_ptr` points: at a page of RAM, or into the ROM. -/
inductive FetchPtr where
  | ram (pb : Word)
  | rom (off : Word)
  deriving DecidableEq, Repr

/-- A decoded instruction, `DEnt`: its bytes, the opcode first.  The C record
carries the length beside a fixed array; the empty list is the zeroed entry,
whose length is `0`. -/
abbrev DEnt := List Byte

/-! ## Devices -/

/-- The registers of one disk unit. -/
structure DiskRegs where
  sector : Word
  count : Word
  addr : Word
  status : Word
  cmd : Word
  done : BitVec 64

/-- `DevState` of `src/dev.c`, with the interrupt controller and the time of
the next event. -/
structure Dev where
  picPending : Word
  picMask : Word
  devNext : BitVec 64
  legacyTicks : Word
  tCount : Word
  tPeriod : Word
  tCtrl : Word
  tPrescale : Word
  tFrac : Word
  tPhase : Word
  tLast : BitVec 64
  uCtrl : Word
  disk : Fin 2 → DiskRegs
  fbAddr : Word
  fbCtrl : Word
  kCtrl : Word
  pollAt : BitVec 64
  fbAt : BitVec 64

/-- The shortest frame. -/
def frameMin : Nat := 14
/-- The longest frame. -/
def frameMax : Nat := 1514

/-- `Frame` of `src/net.c`: it has room for `FRAME_MAX` bytes. -/
structure Frame where
  d : List Byte
  length_le : d.length ≤ frameMax

/-- The network interface, `nd` of `src/net.c`.  The transmit buffer carries
its own length and the receive ring is a list, oldest frame first. -/
structure Net where
  ctrl : Word
  status : Word
  txAddr : Word
  txLen : Word
  rxAddr : Word
  rxLen : Word
  stx : Word
  srx : Word
  sdrop : Word
  txPending : Bool
  txDone : BitVec 64
  txbuf : List Byte
  queue : List Frame

/-- The network backend chosen on the command line. -/
inductive Backend where
  | none
  | loop
  | udp
  deriving DecidableEq, Repr

/-- What the host holds and what it will do.  Every poll of standard input, of
the socket and of the window takes the next element of the corresponding feed,
and nothing arrives once a feed is empty. -/
structure Host where
  /-- What remains of the file given with `-i`, if there is one. -/
  inFile : Option (List Byte)
  inEof : Bool
  /-- The receive ring `rxbuf`, oldest byte first. -/
  rx : List Byte
  /-- For each poll: the bytes waiting, and whether end of file follows. -/
  stdinFeed : List (List Byte × Bool)
  /-- For each poll: the datagrams waiting. -/
  udpFeed : List (List (List Byte))
  /-- For each frame drawn: the keys pressed, and whether the window was closed. -/
  keyFeed : List (List Word × Bool)
  keys : List Word
  clock : List Word
  rand : List Word
  /-- Console output, newest byte first. -/
  out : List Byte
  /-- Datagrams sent, newest first. -/
  sent : List (List Byte)
  /-- The sectors of the two disk images. -/
  sectors : Fin 2 → Word → Nat → Byte

/-- What is fixed for a whole run: the amount of RAM, the ROM and the command
line.  `opts.c` and `cpu_load` both refuse more than `MAX_RAM_MB`. -/
structure Config where
  ramSize : Word
  ram_le : ramSize.toNat ≤ 0x10000000
  rom : Word → Byte
  romPresent : Bool
  ilimit : BitVec 64
  detClock : Bool
  inStdin : Bool
  hasDisplay : Bool
  mac : List Byte
  backend : Backend
  nsec : Fin 2 → Word
  /-- How many rounds the host lets `WFI` wait before it is taken to wait for
  ever. -/
  patience : Nat

/-- The whole machine. -/
structure Machine where
  cfg : Config
  cpu : Cpu
  mem : Word → Byte
  tlb : Nat → TlbEnt
  tlbGen : Word
  /-- The virtual page of the cached fetch page, or `1` when there is none. -/
  fTag : Word
  fPtr : FetchPtr
  /-- The physical page of the cached fetch page when it is in RAM. -/
  fPpn : Option Nat
  dcTab : Nat → Option (Nat → DEnt)
  dcOn : Bool
  dev : Dev
  net : Net
  host : Host

/-! ## Computations

A routine either returns or leaves through `longjmp`, in both cases with the
state it has reached.  A `WFI` that never ends is a third way out. -/

/-- How a routine can fail to return. -/
inductive Exit where
  | longjmp
  | diverged
  deriving DecidableEq, Repr

/-- A routine of the emulator. -/
abbrev M := EStateM Exit Machine

/-- `cpu_abort`: back to the `setjmp` of `cpu_run` or `cpu_step`. -/
def cpuAbort {α : Type} : M α := throw Exit.longjmp

/-- Halt with an exit code. -/
def cpuStop (code : Nat) (s : Machine) : Machine :=
  { s with cpu := { s.cpu with halted := true, exitCode := code } }

namespace Machine

/-- Control register `n`. -/
def crOf (s : Machine) (n : BitVec 4) : Word := s.cpu.cr n

/-- `EXT_ON`: the extended mode bit of `CR0`. -/
def extOn (s : Machine) : Bool := s.cpu.cr crCtrl &&& cr0Ext != 0

/-- The paging bit of `CR0`. -/
def pgOn (s : Machine) : Bool := s.cpu.cr crCtrl &&& cr0Pg != 0

/-- The base and limit bit of `CR0`. -/
def protOn (s : Machine) : Bool := s.cpu.cr crCtrl &&& cr0Prot != 0

/-- `cpu.mode == MODE_USER`. -/
def isUser (s : Machine) : Bool := s.cpu.mode == Mode.user

/-- Write control register `n` and nothing else. -/
def setCr (s : Machine) (n : BitVec 4) (v : Word) : Machine :=
  { s with cpu := { s.cpu with cr := fun k => if k = n then v else s.cpu.cr k } }

end Machine

/-- Forget the fetch page. -/
def fetchInval (s : Machine) : Machine := { s with fTag := 1 }

/-- `cpu_mem_written`: the decoded instructions of every page touched by the
`n` bytes at `pa` are dropped. -/
def cpuMemWritten (pa n : Word) (s : Machine) : Machine :=
  if n = 0 then s
  else
    { s with dcTab := fun a =>
        if pageNum pa ≤ a ∧ a ≤ pageNum (pa + n - 1) ∧ a < 65536 then none else s.dcTab a }

/-- The flags as a word. -/
def cpuGetFlags (s : Machine) : Word :=
  (s.cpu.flags &&& 0x0F).setWidth 32 ||| (if s.cpu.intEnabled then flagI else 0)
    ||| (if s.isUser then flagU else 0)

/-- Set flags, interrupts and mode from a word. -/
def cpuSetFlags (f : Word) (s : Machine) : Machine :=
  fetchInval
    { s with cpu := { s.cpu with
        flags := f.setWidth 8 &&& 0x0F
        intEnabled := f &&& flagI != 0
        mode := if f &&& flagU != 0 then Mode.user else Mode.supervisor } }

/-! ## Little-endian access to RAM -/

/-- Two bytes as a word. -/
def rd16 (b0 b1 : Byte) : Word := (b1 ++ b0).setWidth 32

/-- Four bytes as a word. -/
def rd32 (b0 b1 b2 b3 : Byte) : Word := b3 ++ b2 ++ b1 ++ b0

/-- Byte `i` of a word. -/
def byteOf (v : Word) (i : Nat) : Byte := v.extractLsb' (8 * i) 8

/-- The value of `n` bytes read through `f`, for the three access widths. -/
def rdBytes (f : Nat → Byte) (n : Nat) : Word :=
  if n = 1 then (f 0).setWidth 32
  else if n = 2 then rd16 (f 0) (f 1)
  else rd32 (f 0) (f 1) (f 2) (f 3)

/-- RAM with the `n` bytes at `a` replaced by `f 0, …, f (n - 1)`. -/
def storeBytes (mem : Word → Byte) (a : Word) (n : Nat) (f : Nat → Byte) : Word → Byte :=
  fun x => if (x - a).toNat < n then f (x - a).toNat else mem x

/-- A block of bytes put into RAM behind the processor's back, with the
invalidation the writer makes: `memcpy` followed by `cpu_mem_written`. -/
def dmaWrite (a : Word) (n : Nat) (f : Nat → Byte) (s : Machine) : Machine :=
  cpuMemWritten a (BitVec.ofNat 32 n) { s with mem := storeBytes s.mem a n f }

end Tortoise.Emu
