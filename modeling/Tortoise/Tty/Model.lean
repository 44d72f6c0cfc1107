import Tortoise.Lib.Counters

/-!
# Terminals

The input side of `src/os/kernel/tty.c` and of a pty's master in `src/os/kernel/pty.c`: the buffer
with its three counters, what an input byte does to it, and what reads take from it.

* `ttyInput`: a byte arrives, as a signal, an editing character or data.
* `canonTake`, `rawTake`: the copy loops of `canon_read` and `raw_read`.
* `step`: everything that happens to a terminal.  The kernel gives up the processor only when it
  sleeps, so a read comes in two pieces, up to its wait (`read`) and behind it (`copy`), with
  anything in between.

Output, the echo included, signals and wakeups are left out.
-/

namespace Tortoise.Terminals

open Lib

abbrev Byte := BitVec 8

abbrev Word := BitVec 32

def ttyBuf : Nat := 512

def newline : Byte := 10

def carriage : Byte := 13

/-- `Termios`, as far as it is about input. -/
structure Termios where
  icrnl : Bool
  isig : Bool
  icanon : Bool
  vintr : Byte
  vquit : Byte
  verase : Byte
  vkill : Byte
  veof : Byte
  vmin : Byte
  vtime : Byte
  vsusp : Byte

/-- `Tty`.  Only the console has a device to pull bytes from. -/
structure Tty where
  console : Bool
  term : Termios
  buf : Nat → Byte
  r : Word
  w : Word
  e : Word
  want : Word
  hold : Bool

/-- `tty_init`. -/
def Termios.init : Termios where
  icrnl := true
  isig := true
  icanon := true
  vintr := 3
  vquit := 28
  verase := 127
  vkill := 21
  veof := 4
  vmin := 1
  vtime := 0
  vsusp := 26

def Tty.init (console : Bool) : Tty where
  console := console
  term := .init
  buf := fun _ => 0
  r := 0
  w := 0
  e := 0
  want := 0
  hold := false

/-! ## Input -/

def eraseOne (t : Tty) : Tty := if t.e = t.w then t else { t with e := t.e - 1 }

/-- `while (t->e != t->w) erase_one(t)`. -/
def eraseLine (t : Tty) : Tty := eraseOne^[(t.e - t.w).toNat] t

/-- `t->buf[t->e++ % TTYBUF] = (char)c`. -/
def Tty.put (t : Tty) (c : Byte) : Tty :=
  { t with buf := Function.update t.buf (t.e.toNat % ttyBuf) c, e := t.e + 1 }

def commit (t : Tty) : Tty := { t with w := t.e }

/-- What a byte is taken for. -/
def Termios.translate (m : Termios) (c : Byte) : Byte :=
  if c = carriage ∧ m.icrnl then newline else c

/-- The character sends a signal. -/
def Termios.signals (m : Termios) (c : Byte) : Bool :=
  m.isig && c != 0 && (c == m.vintr || c == m.vquit || c == m.vsusp)

/-- How many bytes are held. -/
def Tty.held (t : Tty) : Nat := (t.e - t.r).toNat

/-- The canonical branch of `tty_input`. -/
def canonInput (t : Tty) (c : Byte) : Tty :=
  if c = t.term.verase ∨ c = 8 then eraseOne t
  else if c = t.term.vkill then eraseLine t
  else if c = t.term.veof then commit (t.put c)
  else if ttyBuf - 1 ≤ t.held ∧ c ≠ newline then t
  else if c = newline then commit (t.put c)
  else t.put c

def ttyInput (t : Tty) (c : Byte) : Tty :=
  let c := t.term.translate c
  if t.term.signals c then { t with hold := true, e := t.w }
  else if t.term.icanon then canonInput t c
  else if ttyBuf ≤ t.held then t
  else commit (t.put c)

/-- `accepting`; `listening` says that some process waits for input or polls. -/
def accepting (t : Tty) (listening : Bool) : Bool :=
  listening && !t.hold &&
    if t.term.icanon then t.w == t.r
    else decide ((t.w - t.r).toNat < if 0 < t.want.toInt then t.want.toNat else 1)

/-! ## Reads -/

/-- The copy loop of `canon_read`. -/
def canonTake : Nat → Tty → List Byte × Tty
  | 0, t => ([], t)
  | n + 1, t =>
    if t.r = t.w then ([], t)
    else
      let c := t.buf (t.r.toNat % ttyBuf)
      let t := { t with r := t.r + 1 }
      if c = t.term.veof then ([], t)
      else if c = newline then ([c], t)
      else
        let x := canonTake n t
        (c :: x.1, x.2)

/-- The copy loop of `raw_read`. -/
def rawTake : Nat → Tty → List Byte × Tty
  | 0, t => ([], t)
  | n + 1, t =>
    if t.r = t.w then ([], t)
    else
      let x := rawTake n { t with r := t.r + 1 }
      (t.buf (t.r.toNat % ttyBuf) :: x.1, x.2)

/-- `con_pull`, with the bytes that the device has. -/
def conPull : List Byte → Tty → Tty
  | [], t => t
  | c :: cs, t => if (t.w - t.r).toNat < t.want.toNat then conPull cs (ttyInput t c) else t

/-- `raw_read` up to its wait. -/
def rawStart (t : Tty) (n : Word) (uart : List Byte) : Tty :=
  let least := min t.term.vmin.toNat n.toNat
  if least = 0 ∧ t.term.vtime = 0 then
    if t.console ∧ t.w = t.r then conPull uart { t with want := n } else { t with want := 1 }
  else { t with want := BitVec.ofNat 32 (max 1 least) }

/-- `tty_read` up to its wait. -/
def readStart (t : Tty) (n : Word) (uart : List Byte) : Tty :=
  let t := { t with hold := false }
  if n = 0 ∨ t.term.icanon then t else rawStart t n uart

/-- `tty_setterm`. -/
def setTerm (t : Tty) (m : Termios) : Tty :=
  if t.term.icanon ∧ m.icanon = false then { t with w := t.e, term := m } else { t with term := m }

inductive Event where
  /-- A turn of the loop of `console_intr`. -/
  | intr (listening : Bool) (c : Byte)
  /-- A byte of `pty_write` at the master. -/
  | master (c : Byte)
  | read (n : Word) (uart : List Byte)
  /-- The copy loop of a read, and `done_reading`. -/
  | copy (canon : Bool) (n : Word)
  /-- A read ends with an error, or because the terminal is hung up. -/
  | fail
  | setTerm (m : Termios)
  /-- `console_poll_hold(1)`. -/
  | pollHold

/-- What happens, with the bytes that a read returns. -/
def step (t : Tty) : Event → List Byte × Tty
  | .intr listening c =>
    ([], if t.console ∧ accepting t listening then ttyInput t c else t)
  | .master c => ([], if t.console then t else ttyInput t c)
  | .read n uart => ([], readStart t n uart)
  | .copy canon n =>
    let x := if canon then canonTake n.toNat t else rawTake n.toNat t
    (x.1, { x.2 with want := 0 })
  | .fail => ([], { t with want := 0 })
  | .setTerm m => ([], setTerm t m)
  | .pollHold => ([], { t with hold := false })

end Tortoise.Terminals
