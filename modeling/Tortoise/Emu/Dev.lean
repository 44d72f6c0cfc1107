import Tortoise.Emu.State

/-!
# The devices of the TORTOISE machine

The device routines of `src/dev.c` and `src/net.c`: interrupt controller,
timer, UART, the two disks, keyboard and frame buffer, clock, power switch and
network interface, the legacy ports, and the event loop that runs between
instructions.  Device routines never leave through `longjmp`, so they are
plain functions on the state.

Three of them write RAM: a completed disk read (`diskComplete`), a frame handed
to the guest (`tryDeliver`) and the legacy disk command port (`legacyOut`).
All three go through `dmaWrite`.
-/

namespace Tortoise.Emu

/-- `UINT64_MAX`, the time of an event that is not due. -/
def never : BitVec 64 := BitVec.allOnes 64

/-! ## Interrupt controller -/

/-- A device asks for an interrupt. -/
def picRaise (line : Nat) (s : Machine) : Machine :=
  { s with dev := { s.dev with picPending := s.dev.picPending ||| (1#32 <<< line) } }

/-- The number of the lowest set bit among the first `k` from bit `n` on. -/
def lowestBit (p : Word) : Nat → Nat → Option Nat
  | 0, _ => none
  | k + 1, n => if p.getLsbD n then some n else lowestBit p k (n + 1)

/-- Read pending, mask or the lowest line due. -/
def picRd (off : Word) (s : Machine) : Word :=
  if off = 0x00 then s.dev.picPending
  else if off = 0x04 then s.dev.picMask
  else if off = 0x0C then
    match lowestBit (s.dev.picPending &&& s.dev.picMask) 8 0 with
    | some n => BitVec.ofNat 32 n
    | none => 0xFFFFFFFF
  else 0

/-- Set the mask, or acknowledge. -/
def picWr (off v : Word) (s : Machine) : Machine :=
  if off = 0x04 then { s with dev := { s.dev with picMask := v &&& 0xFF } }
  else if off = 0x08 then { s with dev := { s.dev with picPending := s.dev.picPending &&& ~~~v } }
  else s

/-! ## Timer -/

/-- The periodic part of `timer_sync` after `ticks` ticks. -/
def timerPhase (ticks : BitVec 64) (s : Machine) : Machine :=
  let d := s.dev
  let ph := d.tPhase.setWidth 64 + ticks
  let s := { s with dev := { d with tPhase := (ph % d.tPeriod.setWidth 64).setWidth 32 } }
  if d.tPeriod.setWidth 64 ≤ ph then picRaise 0 s else s

/-- `timer_sync`: bring the count up to the current instruction count. -/
def timerSync (s : Machine) : Machine :=
  let d := s.dev
  let tot := d.tFrac.setWidth 64 + (s.cpu.icount - d.tLast)
  let ticks := tot / d.tPrescale.setWidth 64
  let s := { s with dev := { d with
    tLast := s.cpu.icount
    tFrac := (tot % d.tPrescale.setWidth 64).setWidth 32
    tCount := d.tCount + ticks.setWidth 32 } }
  if d.tCtrl &&& 1 ≠ 0 ∧ d.tPeriod ≠ 0 then timerPhase ticks s else s

/-- When the timer is due. -/
def timerNext (s : Machine) : BitVec 64 :=
  let d := s.dev
  if d.tCtrl &&& 1 = 0 ∨ d.tPeriod = 0 then never
  else s.cpu.icount + (d.tPeriod - d.tPhase).setWidth 64 * d.tPrescale.setWidth 64
    - d.tFrac.setWidth 64

/-- Read a timer register. -/
def timerRd (off : Word) (s : Machine) : Word × Machine :=
  let s := timerSync s
  let v := if off = 0x00 then s.dev.tCount
    else if off = 0x04 then s.dev.tPeriod
    else if off = 0x08 then s.dev.tCtrl
    else if off = 0x0C then s.dev.tPrescale
    else 0
  (v, s)

/-- Write a timer register. -/
def timerWr (off v : Word) (s : Machine) : Machine :=
  let s := timerSync s
  let d := s.dev
  let d := if off = 0x04 then { d with tPeriod := v, tPhase := 0 }
    else if off = 0x08 then { d with tCtrl := v &&& 1, tPhase := 0 }
    else if off = 0x0C then { d with tPrescale := if v = 0 then 1 else v }
    else d
  { s with dev := { d with devNext := s.cpu.icount } }

/-! ## UART -/

/-- Put a byte on the console. -/
def conPutc (c : Byte) (s : Machine) : Machine :=
  { s with host := { s.host with out := c :: s.host.out } }

/-- Whether a byte is waiting. -/
def conAvail (s : Machine) : Bool :=
  match s.host.inFile with
  | some l => !l.isEmpty
  | none => !s.host.rx.isEmpty

/-- The receive interrupt. -/
def uartRxCheck (s : Machine) : Machine :=
  if s.dev.uCtrl &&& 1 ≠ 0 ∧ conAvail s then picRaise 1 s else s

/-- `stdin_poll`: take what the terminal has, as far as the ring has room, and
notice end of file only when there was room left.  How long the host may wait
for the first byte is the only thing its argument decides. -/
def stdinPoll (s : Machine) : Machine :=
  if !s.cfg.inStdin || s.host.inEof then s
  else
    match s.host.stdinFeed with
    | [] => s
    | (bytes, eof) :: rest =>
      let room := 4095 - s.host.rx.length
      let got := bytes.take room
      let left := bytes.drop room
      let full := left ≠ [] ∨ got.length = room
      let s' := { s with host := { s.host with
        rx := s.host.rx ++ got
        inEof := if full then false else eof
        stdinFeed := if full then (left, eof) :: rest else rest } }
      if got = [] then s' else uartRxCheck s'

/-- Take a byte from the console. -/
def conGetc (s : Machine) : Option Byte × Machine :=
  match s.host.inFile with
  | some [] => (none, s)
  | some (c :: cs) => (some c, uartRxCheck { s with host := { s.host with inFile := some cs } })
  | none =>
    match s.host.rx with
    | [] => (none, s)
    | c :: cs => (some c, uartRxCheck { s with host := { s.host with rx := cs } })

/-- Read a UART register. -/
def uartRd (off : Word) (s : Machine) : Word × Machine :=
  if off = 0x00 then
    match conGetc s with
    | (some c, s') => (c.setWidth 32, s')
    | (none, s') => (0, s')
  else if off = 0x04 then ((if conAvail s then 1 else 0) ||| 2, s)
  else if off = 0x08 then (s.dev.uCtrl, s)
  else (0, s)

/-- Write a UART register. -/
def uartWr (off v : Word) (s : Machine) : Machine :=
  if off = 0x00 then
    let s := conPutc (v.setWidth 8) s
    if s.dev.uCtrl &&& 2 ≠ 0 then picRaise 2 s else s
  else if off = 0x08 then uartRxCheck { s with dev := { s.dev with uCtrl := v &&& 3 } }
  else s

/-! ## Disks -/

/-- Replace the registers of disk `u`. -/
def setDisk (u : Fin 2) (r : DiskRegs) (s : Machine) : Machine :=
  { s with dev := { s.dev with disk := fun k => if k = u then r else s.dev.disk k } }

/-- `disk_rd`: the bytes of a sector, or nothing past the end of the disk. -/
def diskRd (u : Fin 2) (sec : Word) (s : Machine) : Option (Nat → Byte) :=
  if s.cfg.nsec u ≤ sec then none else some (s.host.sectors u sec)

/-- Write a sector, if the disk has it. -/
def diskWr (u : Fin 2) (sec : Word) (buf : Nat → Byte) (s : Machine) : Option Machine :=
  if s.cfg.nsec u ≤ sec then none
  else
    some { s with host := { s.host with sectors := fun v t =>
      if v = u ∧ t = sec then buf else s.host.sectors v t } }

/-- The loop of `disk_complete` over the `n` remaining sectors from sector `i`
of the request on: the state and whether an error stopped it. -/
def diskTransfer (u : Fin 2) (cmd sec a : Word) : Nat → Nat → Machine → Bool × Machine
  | 0, _, s => (false, s)
  | n + 1, i, s =>
    let p := a + BitVec.ofNat 32 (i * diskSectorSize)
    let t := sec + BitVec.ofNat 32 i
    if cmd = 1 then
      match diskRd u t s with
      | none => (true, cpuMemWritten p 512 s)
      | some f => diskTransfer u cmd sec a n (i + 1) (dmaWrite p diskSectorSize f s)
    else
      match diskWr u t (fun k => s.mem (p + BitVec.ofNat 32 k)) s with
      | none => (true, s)
      | some s' => diskTransfer u cmd sec a n (i + 1) s'

/-- The checks and the transfer of `disk_complete`. -/
def diskAttempt (u : Fin 2) (s : Machine) : Bool × Machine :=
  let r := s.dev.disk u
  if (s.cfg.nsec u).toNat < r.sector.toNat + r.count.toNat ∨
      s.cfg.ramSize.toNat < r.addr.toNat + r.count.toNat * diskSectorSize then (true, s)
  else diskTransfer u r.cmd r.sector r.addr r.count.toNat 0 s

/-- The end of `disk_complete`: status, command register and interrupt. -/
def diskFinish (u : Fin 2) (err : Bool) (s : Machine) : Machine :=
  let r := s.dev.disk u
  picRaise (if u = 0 then 3 else 6)
    (setDisk u { r with status := r.status ||| (if err then 2 else 4), cmd := 0 } s)

/-- The end of a disk request. -/
def diskComplete (u : Fin 2) (s : Machine) : Machine :=
  let r := s.dev.disk u
  let res := diskAttempt u (setDisk u { r with status := r.status &&& ~~~1 } s)
  diskFinish u res.1 res.2

/-- Read a disk register. -/
def diskRegRd (u : Fin 2) (off : Word) (s : Machine) : Word :=
  let r := s.dev.disk u
  if off = 0x00 then r.sector
  else if off = 0x04 then r.count
  else if off = 0x08 then r.addr
  else if off = 0x0C then r.cmd
  else if off = 0x10 then r.status
  else if off = 0x14 then s.cfg.nsec u
  else 0

/-- Write a disk register, or start a request. -/
def diskRegWr (u : Fin 2) (off v : Word) (s : Machine) : Machine :=
  let r := s.dev.disk u
  if off = 0x00 then setDisk u { r with sector := v } s
  else if off = 0x04 then setDisk u { r with count := v } s
  else if off = 0x08 then setDisk u { r with addr := v } s
  else if off = 0x0C then
    if r.status &&& 1 ≠ 0 ∨ (v ≠ 1 ∧ v ≠ 2) then s
    else
      let s := setDisk u { r with
        cmd := v
        status := (r.status &&& ~~~6) ||| 1
        done := s.cpu.icount + 1000 * r.count.setWidth 64 } s
      { s with dev := { s.dev with devNext := s.cpu.icount } }
  else if off = 0x10 then setDisk u { r with status := r.status &&& ~~~6 } s
  else s

/-! ## Clock, frame buffer, keyboard, power switch -/

/-- Read the clock. -/
def rtcRd (off : Word) (s : Machine) : Word × Machine :=
  if off ≠ 0 then (0, s)
  else if s.cfg.detClock then ((s.cpu.icount / 1000000).setWidth 32, s)
  else
    match s.host.clock with
    | [] => (0, s)
    | t :: ts => (t, { s with host := { s.host with clock := ts } })

/-- Read a frame buffer register. -/
def fbRd (off : Word) (s : Machine) : Word :=
  if !s.cfg.hasDisplay then 0
  else if off = 0x00 then 640
  else if off = 0x04 then 480
  else if off = 0x08 then s.dev.fbAddr
  else if off = 0x0C then s.dev.fbCtrl
  else 0

/-- Write a frame buffer register. -/
def fbWr (off v : Word) (s : Machine) : Machine :=
  if !s.cfg.hasDisplay then s
  else if off = 0x08 then { s with dev := { s.dev with fbAddr := v } }
  else if off = 0x0C then { s with dev := { s.dev with fbCtrl := v &&& 3 } }
  else s

/-- `kbd_rd`, with `sdl_key` and `sdl_key_avail`. -/
def kbdRd (off : Word) (s : Machine) : Word × Machine :=
  if !s.cfg.hasDisplay then (0, s)
  else if off = 0x00 then
    match s.host.keys with
    | [] => (0, s)
    | k :: ks => (k, { s with host := { s.host with keys := ks } })
  else if off = 0x04 then (if s.host.keys.isEmpty then 0 else 1, s)
  else if off = 0x08 then (s.dev.kCtrl, s)
  else (0, s)

/-- Write the keyboard control. -/
def kbdWr (off v : Word) (s : Machine) : Machine :=
  if !s.cfg.hasDisplay then s
  else if off = 0x08 then { s with dev := { s.dev with kCtrl := v &&& 1 } }
  else s

/-- Read the RAM size or the version. -/
def sysRd (off : Word) (s : Machine) : Word :=
  if off = 0x04 then s.cfg.ramSize else if off = 0x08 then 2 else 0

/-- Switch the machine off. -/
def sysWr (off v : Word) (s : Machine) : Machine :=
  if off = 0x00 then cpuStop (v &&& 0xFF).toNat s else s

/-! ## Network interface -/

/-- The guest's receive buffer. -/
def rxbufSize : Nat := 1536

/-- `try_deliver`: hand the oldest queued frame to the guest. -/
def tryDeliver (s : Machine) : Machine :=
  if s.net.ctrl &&& 1 = 0 ∨ s.net.status &&& 1 ≠ 0 ∨ s.net.rxAddr = 0 then s
  else if s.cfg.ramSize.toNat < s.net.rxAddr.toNat + rxbufSize then s
  else
    match s.net.queue with
    | [] => s
    | f :: q =>
      let s := dmaWrite s.net.rxAddr f.d.length (fun i => f.d.getD i 0) s
      let s := { s with net := { s.net with
        rxLen := BitVec.ofNat 32 f.d.length
        status := s.net.status ||| 1
        queue := q
        srx := s.net.srx + 1 } }
      if s.net.ctrl &&& 2 ≠ 0 then picRaise 5 s else s

/-- A frame arrives: it is filtered, dropped or queued. -/
def receive (d : List Byte) (s : Machine) : Machine :=
  if h : d.length < frameMin ∨ frameMax < d.length then s
  else if s.net.ctrl &&& 8 = 0 ∧ d.take 6 ≠ s.cfg.mac ∧ d.take 6 ≠ List.replicate 6 0xFF then s
  else if s.net.ctrl &&& 1 = 0 ∨ s.net.queue.length = 64 then
    { s with net := { s.net with sdrop := s.net.sdrop + 1 } }
  else tryDeliver { s with net := { s.net with queue := s.net.queue ++ [⟨d, by omega⟩] } }

/-- When the transmission is due. -/
def netNext (s : Machine) : BitVec 64 := if s.net.txPending then s.net.txDone else never

/-- `schedule`: the time of the next event. -/
def schedule (s : Machine) : Machine :=
  let n := s.dev.pollAt
  let n := if s.cfg.ilimit < n then s.cfg.ilimit else n
  let n := if timerNext s < n then timerNext s else n
  let n := if netNext s < n then netNext s else n
  let d0 := s.dev.disk 0
  let d1 := s.dev.disk 1
  let n := if d0.status &&& 1 ≠ 0 ∧ d0.done < n then d0.done else n
  let n := if d1.status &&& 1 ≠ 0 ∧ d1.done < n then d1.done else n
  let n := if s.cfg.hasDisplay ∧ s.dev.fbAt < n then s.dev.fbAt else n
  { s with dev := { s.dev with devNext := n } }

/-- The station address as `net_rd` packs it. -/
def macWord (s : Machine) (i n : Nat) : Word :=
  rdBytes (fun k => if k < n then s.cfg.mac.getD (i + k) 0 else 0) 4

/-- Read a network register. -/
def netRd (off : Word) (s : Machine) : Word :=
  if off = 0x00 then macWord s 0 4
  else if off = 0x04 then macWord s 4 2
  else if off = 0x08 then s.net.ctrl
  else if off = 0x0C then
    (s.net.status &&& 1) ||| (if s.net.txPending then 2 else 0)
      ||| (if s.cfg.backend = .none then 0 else 4)
  else if off = 0x10 then s.net.txAddr
  else if off = 0x14 then s.net.txLen
  else if off = 0x18 then s.net.rxAddr
  else if off = 0x1C then s.net.rxLen
  else if off = 0x20 then s.net.stx
  else if off = 0x24 then s.net.srx
  else if off = 0x28 then s.net.sdrop
  else 0

/-- Write a network register, or start a transmission. -/
def netWr (off v : Word) (s : Machine) : Machine :=
  if off = 0x08 then tryDeliver { s with net := { s.net with ctrl := v &&& 15 } }
  else if off = 0x0C then
    if v &&& 1 ≠ 0 then
      tryDeliver { s with net := { s.net with status := s.net.status &&& ~~~1 } }
    else s
  else if off = 0x10 then { s with net := { s.net with txAddr := v } }
  else if off = 0x14 then
    let s := { s with net := { s.net with txLen := v } }
    if s.net.ctrl &&& 1 = 0 ∨ s.net.txPending ∨ v.toNat < frameMin ∨ frameMax < v.toNat ∨
        s.cfg.ramSize.toNat < s.net.txAddr.toNat + v.toNat then s
    else
      schedule { s with net := { s.net with
        txbuf := (List.range v.toNat).map fun i => s.mem (s.net.txAddr + BitVec.ofNat 32 i)
        txPending := true
        txDone := s.cpu.icount + ((v + 15) / 16).setWidth 64 } }
  else if off = 0x18 then tryDeliver { s with net := { s.net with rxAddr := v } }
  else s

/-- The receive loop of `net_poll` over the datagrams one poll finds.  An
empty datagram ends the loop; the ones behind it wait for the next poll. -/
def netPollLoop : List (List Byte) → Machine → List (List Byte) × Machine
  | [], s => ([], s)
  | d :: ds, s => if d = [] then (ds, s) else netPollLoop ds (receive d s)

/-- Take the datagrams waiting. -/
def netPoll (s : Machine) : Machine :=
  if s.cfg.backend ≠ .udp then s
  else
    match s.host.udpFeed with
    | [] => s
    | ds :: rest =>
      let res := netPollLoop ds { s with host := { s.host with udpFeed := rest } }
      if res.1 = [] then res.2
      else { res.2 with host := { res.2.host with udpFeed := res.1 :: res.2.host.udpFeed } }

/-- The frame of `net_events` on its way out. -/
def txSend (s : Machine) : Machine :=
  match s.cfg.backend with
  | .loop => receive s.net.txbuf s
  | .udp => { s with host := { s.host with sent := s.net.txbuf :: s.host.sent } }
  | .none => s

/-- The transmit interrupt of `net_events`. -/
def txCheck (s : Machine) : Machine := if s.net.ctrl &&& 4 ≠ 0 then picRaise 5 s else s

/-- The end of a transmission. -/
def netEvents (s : Machine) : Machine :=
  if s.net.txPending ∧ s.net.txDone ≤ s.cpu.icount then
    txCheck (txSend { s with net := { s.net with txPending := false, stx := s.net.stx + 1 } })
  else s

/-- `net_wait_fd() >= 0`. -/
def netWaitFd (s : Machine) : Bool :=
  s.cfg.backend == .udp && s.net.ctrl &&& 1 != 0 && s.net.ctrl &&& 2 != 0 &&
    s.dev.picMask &&& 32 != 0

/-! ## The device window -/

/-- `dev_access` reading: nothing when no device is at that page. -/
def devRead (pa : Word) (s : Machine) : Option (Word × Machine) :=
  let off := pageOff pa
  match ((pa - devBase) >>> 12 &&& 15).toNat with
  | 0 => some (picRd off s, s)
  | 1 => some (timerRd off s)
  | 2 => some (uartRd off s)
  | 3 => some (diskRegRd 0 off s, s)
  | 4 => some (kbdRd off s)
  | 5 => some (rtcRd off s)
  | 6 => some (fbRd off s, s)
  | 7 => some (sysRd off s, s)
  | 8 => some (netRd off s, s)
  | 9 => some (diskRegRd 1 off s, s)
  | _ => none

/-- `dev_access` writing.  `rtc_wr` does nothing. -/
def devWrite (pa v : Word) (s : Machine) : Option Machine :=
  let off := pageOff pa
  match ((pa - devBase) >>> 12 &&& 15).toNat with
  | 0 => some (picWr off v s)
  | 1 => some (timerWr off v s)
  | 2 => some (uartWr off v s)
  | 3 => some (diskRegWr 0 off v s)
  | 4 => some (kbdWr off v s)
  | 5 => some s
  | 6 => some (fbWr off v s)
  | 7 => some (sysWr off v s)
  | 8 => some (netWr off v s)
  | 9 => some (diskRegWr 1 off v s)
  | _ => none

/-! ## Events -/

/-- What `sdl_frame` does to the machine: it draws, which changes nothing, and
collects key presses and the closing of the window. -/
def sdlFrame (s : Machine) : Machine :=
  match s.host.keyFeed with
  | [] => s
  | (ks, quit) :: rest =>
    let room := 255 - s.host.keys.length
    let s := { s with host := { s.host with
      keys := s.host.keys ++ ks.take room, keyFeed := rest } }
    if quit then cpuStop 0 s else s

/-- The disks whose request is finished complete, unit 0 first. -/
def diskEvent (u : Fin 2) (s : Machine) : Machine :=
  if (s.dev.disk u).status &&& 1 ≠ 0 ∧ (s.dev.disk u).done ≤ s.cpu.icount then diskComplete u s
  else s

/-- The next poll of the host. -/
def setPollAt (t : BitVec 64) (s : Machine) : Machine := { s with dev := { s.dev with pollAt := t } }

/-- The next frame drawn. -/
def setFbAt (t : BitVec 64) (s : Machine) : Machine := { s with dev := { s.dev with fbAt := t } }

/-- The instruction count. -/
def setIcount (t : BitVec 64) (s : Machine) : Machine := { s with cpu := { s.cpu with icount := t } }

/-- The polling part of `dev_events`. -/
def pollEvent (s : Machine) : Machine :=
  if s.dev.pollAt ≤ s.cpu.icount then setPollAt (s.cpu.icount + 1000) (netPoll (stdinPoll s))
  else s

/-- The keyboard interrupt of `dev_events`. -/
def kbdCheck (s : Machine) : Machine :=
  if s.dev.kCtrl &&& 1 ≠ 0 ∧ s.host.keys ≠ [] then picRaise 4 s else s

/-- The display part of `dev_events`. -/
def frameEvent (s : Machine) : Machine :=
  if s.cfg.hasDisplay ∧ s.dev.fbAt ≤ s.cpu.icount then
    setFbAt (s.cpu.icount + 100000) (kbdCheck (sdlFrame s))
  else s

/-- What is due now. -/
def devEvents (s : Machine) : Machine :=
  if s.cfg.ilimit ≤ s.cpu.icount then cpuStop exitLimit s
  else
    schedule (frameEvent (pollEvent (diskEvent 1 (diskEvent 0 (netEvents (timerSync s))))))

/-- Whether typing can wake the machine. -/
def inputWaitPossible (s : Machine) : Bool :=
  s.cfg.inStdin && !s.host.inEof && s.dev.uCtrl &&& 1 != 0 && s.dev.picMask &&& 2 != 0

/-- The time `dev_wfi` may jump to: the earliest unmasked event. -/
def wfiTime (s : Machine) : BitVec 64 :=
  let m := s.dev.picMask
  let d0 := s.dev.disk 0
  let d1 := s.dev.disk 1
  let t := if m &&& 1 ≠ 0 then timerNext s else never
  let t := if m &&& 8 ≠ 0 ∧ d0.status &&& 1 ≠ 0 ∧ d0.done < t then d0.done else t
  let t := if m &&& 64 ≠ 0 ∧ d1.status &&& 1 ≠ 0 ∧ d1.done < t then d1.done else t
  if m &&& 32 ≠ 0 ∧ netNext s < t then netNext s else t

/-- Whether `dev_wfi` may wait for the host. -/
def wfiInput (s : Machine) : Bool :=
  inputWaitPossible s ||
    (s.cfg.hasDisplay && s.dev.kCtrl &&& 1 != 0 && s.dev.picMask &&& 16 != 0) || netWaitFd s

/-- The wait of `dev_wfi` for the host: a poll of what it waits on. -/
def wfiPoll (s : Machine) : Machine :=
  if netWaitFd s then
    netPoll (if inputWaitPossible s then stdinPoll s else s)
  else if s.cfg.inStdin then stdinPoll s
  else s

/-- The end of one round of `dev_wfi`, after any wait for the host. -/
def wfiAdvance (t : BitVec 64) (s : Machine) : Machine :=
  if t ≠ never then
    if s.cfg.ilimit ≤ t then
      cpuStop exitLimit (setIcount (s.cfg.ilimit - 1) s)
    else
      devEvents (if s.cpu.icount < t then setIcount t s else s)
  else if s.cfg.hasDisplay then devEvents (setIcount (s.cpu.icount + 100000) s)
  else s

/-- `dev_wfi`, for at most `fuel` rounds; nothing when it is still waiting
then. -/
def devWfi : Nat → Machine → Option Machine
  | 0, s => if s.dev.picPending &&& s.dev.picMask ≠ 0 ∨ s.cpu.halted then some s else none
  | fuel + 1, s =>
    if s.dev.picPending &&& s.dev.picMask ≠ 0 ∨ s.cpu.halted then some s
    else
      let t := wfiTime s
      if t = never ∧ !wfiInput s then some (cpuStop exitDeadlock s)
      else
        let s' := if wfiInput s then wfiPoll s else s
        if wfiInput s ∧ s'.dev.picPending &&& s'.dev.picMask ≠ 0 then some s'
        else devWfi fuel (wfiAdvance t s')

/-! ## Legacy ports -/

/-- `legacy_in`: nothing when the port does not exist. -/
def legacyIn (port : Word) (s : Machine) : Option Word × Machine :=
  if port = 0xFF00 then
    match conGetc s with
    | (some c, s') => (some (c.setWidth 32), s')
    | (none, s') => (some 65, s')
  else if port = 0xFF01 then (some 3, s)
  else if port = 0xFF02 then
    let n := s.dev.legacyTicks + 1
    (some n, { s with dev := { s.dev with legacyTicks := n } })
  else if port = 0xFF03 then
    match s.host.rand with
    | [] => (some 0, s)
    | r :: rs => (some (r &&& 0xFFFF), { s with host := { s.host with rand := rs } })
  else if port = 0xFF04 then (some (if s.cpu.halted then 1 else 0), s)
  else if port = 0xFF10 then (some s.cpu.diskSector, s)
  else if port = 0xFF12 then (some 1, s)
  else if port = 0xFF13 then (some s.cpu.diskBuffer, s)
  else (none, s)

/-- The disk command port of `legacy_out`. -/
def legacyDisk (v : Word) (s : Machine) : Machine :=
  let buf := s.cpu.diskBuffer
  if s.cfg.ramSize < buf ∨ s.cfg.ramSize - buf < 512 then s
  else if v = 1 then
    match diskRd 0 s.cpu.diskSector s with
    | some f => dmaWrite buf diskSectorSize f s
    | none => s
  else if v = 2 then
    (diskWr 0 s.cpu.diskSector (fun k => s.mem (buf + BitVec.ofNat 32 k)) s).getD s
  else s

/-- Write an old port. -/
def legacyOut (port v : Word) (s : Machine) : Machine :=
  if port = 0xFF00 then conPutc (v.setWidth 8) s
  else if port = 0xFF10 then
    let sec := if s.cfg.nsec 0 = diskNumSectors then v &&& (diskNumSectors - 1) else v
    { s with cpu := { s.cpu with diskSector := sec } }
  else if port = 0xFF13 then { s with cpu := { s.cpu with diskBuffer := v } }
  else if port = 0xFF11 then legacyDisk v s
  else s

end Tortoise.Emu
