import Tortoise.Emu.Execute

/-!
# One step of the machine

`step_one` of `src/cpu.c`: device events, interrupt delivery, the lookup in the
decoded-instruction cache, decoding and execution; the loop around it; and the
debugger's `mem_poke`, the one writer of RAM from outside a step.
-/

namespace Tortoise.Emu

/-- The bytes of an instruction after the first, from offset `i` on. -/
def decodeRest (pc : Word) : Nat → Nat → M (List Byte)
  | 0, _ => pure []
  | n + 1, i => do
    let b ← fetchAt cpuFault (pc + BitVec.ofNat 32 i)
    let bs ← decodeRest pc n (i + 1)
    pure (b :: bs)

def decode (pc : Word) : M DEnt := do
  let op ← fetchAt cpuFault pc
  let bs ← decodeRest pc (opLen op - 1) 1
  pure (op :: bs)

/-- Replace the table of physical page `p`. -/
def setTable (p : Nat) (t : Nat → DEnt) (s : Machine) : Machine :=
  { s with dcTab := fun q => if q = p then some t else s.dcTab q }

/-- The lookup of `step_one` in the table of physical page `p`, which is
allocated when it is missing. -/
def dcLookup (pc : Word) (p : Nat) : M DEnt := do
  let s ← get
  let off := (pageOff pc).toNat
  let t := (s.dcTab p).getD fun _ => []
  modify (setTable p t)
  if t off ≠ [] then pure (t off)
  else
    let e ← decode pc
    if off + e.length ≤ 0x1000 then modify (setTable p fun o => if o = off then e else t o)
    pure e

/-- The instruction `step_one` executes: from the cache when the fetch page is a
cached page of RAM and the longest instruction fits into it. -/
def nextInstruction (pc : Word) : M DEnt := do
  let s ← get
  match s.fPpn with
  | some p =>
    if s.dcOn ∧ pageOf pc = s.fTag ∧ pageOff pc ≤ 0xFFA then dcLookup pc p else decode pc
  | none => decode pc

/-- The lowest pending line, as the loop of `step_one` finds it. -/
def pendingLine (s : Machine) : Option Nat :=
  lowestBit (s.dev.picPending &&& s.dev.picMask) 32 0

/-- The interrupt part of `step_one`. -/
def takeIrq : M Unit := do
  let s ← get
  match pendingLine s with
  | some n =>
    if s.extOn && s.cpu.intEnabled then
      modifyCpu fun c => { c with instPc := c.pc }
      cpuDeliver (vecIrq + BitVec.ofNat 32 n) s.cpu.pc 0
    else pure ()
  | none => pure ()

/-- The part of `step_one` that fetches and executes one instruction. -/
def runInstruction : M Unit := do
  let pc ← getCpu (·.pc)
  modifyCpu fun c => { c with instPc := pc }
  let e ← nextInstruction pc
  setPc (pc + BitVec.ofNat 32 e.length)
  executeInstruction e
  modifyCpu fun c => { c with icount := c.icount + 1 }

/-- `step_one` after the device events. -/
def stepRest : M Unit := do
  takeIrq
  runInstruction

/-- `step_one`.  Whether the machine has halted is looked at only after events. -/
def stepOne : M Unit := do
  let s ← get
  if s.dev.devNext ≤ s.cpu.icount then
    modify devEvents
    let halted ← getCpu (·.halted)
    if halted then pure () else stepRest
  else stepRest

/-- The state in which `step_one` looks for an interrupt. -/
def afterEvents (s : Machine) : Machine :=
  if s.dev.devNext ≤ s.cpu.icount then devEvents s else s

/-- Whether `step_one` goes on from `s` to an instruction of the program it
began in: the events have not stopped the machine and no interrupt is taken. -/
def goesOn (s : Machine) : Bool :=
  let d := afterEvents s
  !(decide (s.dev.devNext ≤ s.cpu.icount) && d.cpu.halted) &&
    !((pendingLine d).isSome && d.extOn && d.cpu.intEnabled)

/-- The instruction `step_one` then fetches, if the fetch succeeds. -/
def fetched (s : Machine) : Option DEnt :=
  if goesOn s then
    let d := afterEvents s
    match nextInstruction d.cpu.pc { d with cpu := { d.cpu with instPc := d.cpu.pc } } with
    | .ok e _ => some e
    | .error _ _ => none
  else none

/-- One turn of `cpu_run`, or a `cpu_step`: `step_one` under `setjmp`, so a
`longjmp` ends the step.  Nothing when the step never ends. -/
def cpuStep (s : Machine) : Option Machine :=
  match stepOne s with
  | .ok _ s' => some s'
  | .error .longjmp s' => some s'
  | .error .diverged _ => none

theorem cpuStep_cases {s t : Machine} (h : cpuStep s = some t) :
    stepOne s = .ok () t ∨ stepOne s = .error .longjmp t := by
  unfold cpuStep at h
  split at h
  · next hr => exact .inl (Option.some.inj h ▸ hr)
  · next hr => exact .inr (Option.some.inj h ▸ hr)
  · cases h

/-- `cpu_set_dcache`, which empties the cache. -/
def cpuSetDcache (on : Bool) (s : Machine) : Machine :=
  { s with dcOn := on, dcTab := fun _ => none }

/-! ## Switching on -/

/-- The device registers after `dev_reset`, before the next event is
scheduled. -/
def devReset : Dev where
  picPending := 0
  picMask := 0
  devNext := 0
  legacyTicks := 0
  tCount := 0
  tPeriod := 0
  tCtrl := 0
  tPrescale := 1000
  tFrac := 0
  tPhase := 0
  tLast := 0
  uCtrl := 0
  disk := fun _ => ⟨0, 0, 0, 0, 0, 0⟩
  fbAddr := 0
  fbCtrl := 0
  kCtrl := 0
  pollAt := 1000
  fbAt := 100000

def netReset : Net where
  ctrl := 0
  status := 0
  txAddr := 0
  txLen := 0
  rxAddr := 0
  rxLen := 0
  stx := 0
  srx := 0
  sdrop := 0
  txPending := false
  txDone := 0
  txbuf := []
  queue := []

/-- The registers after `cpu_init_size`. -/
def cpuReset (ramSize : Word) : Cpu where
  pc := 0
  regs := fun _ => 0
  sp := ramSize
  halted := false
  flags := 0
  intEnabled := true
  mode := .supervisor
  syscallPc := 0
  diskSector := 0
  diskBuffer := 0
  cr := fun n => if n = crRamsize then ramSize else 0
  icount := 0
  exitCode := 0
  instPc := 0
  depth := 0

/-- `cpu_init_size`: the machine as it is switched on. -/
def cpuInitSize (cfg : Config) (host : Host) : Machine :=
  schedule
    { cfg := cfg
      cpu := cpuReset cfg.ramSize
      mem := fun _ => 0
      tlb := fun _ => ⟨0, 0, 0⟩
      tlbGen := 1
      fTag := 1
      fPtr := .ram 0
      fPpn := none
      dcTab := fun _ => none
      dcOn := true
      dev := devReset
      net := netReset
      host := host }

def loadProgram (program : List Byte) (s : Machine) : Machine :=
  if s.cfg.ramSize.toNat < program.length then s
  else { s with mem := storeBytes s.mem 0 program.length fun i => program.getD i 0 }

/-- A machine with one megabyte of RAM and nothing attached to it. -/
def bareConfig : Config where
  ramSize := 0x100000
  ram_le := by decide
  rom := fun _ => 0
  romPresent := false
  ilimit := never
  detClock := true
  inStdin := false
  hasDisplay := false
  mac := [2, 0, 0, 0, 0, 1]
  backend := .none
  nsec := fun _ => 0
  patience := 0

/-- A host with no files and no input. -/
def bareHost : Host where
  inFile := none
  inEof := true
  rx := []
  stdinFeed := []
  udpFeed := []
  keyFeed := []
  keys := []
  clock := []
  rand := []
  out := []
  sent := []
  sectors := fun _ _ _ => 0

/-! ## The debugger -/

/-- The physical address `mem_peek` reads a byte from. -/
def peekAddr (s : Machine) (va : Word) : Option Word :=
  if s.xlActive && s.pgOn then
    let dir := pageOf (s.crOf crPtbase)
    if s.cfg.ramSize < dir + 4096 then none
    else
      let pde := ramRead s.mem (pdeAddr s va) 4
      if pde &&& pteP = 0 ∨ s.cfg.ramSize < pageOf pde + 4096 then none
      else
        let pte := ramRead s.mem (pteAddr pde va) 4
        if pte &&& pteP = 0 then none else some (pageOf pte ||| pageOff va)
  else if s.xlActive && s.isUser then
    if s.crOf crLimit ≤ va then none else some (s.crOf crBase + va)
  else some va

def memPoke (va : Word) (b : Byte) (s : Machine) : Machine :=
  match peekAddr s va with
  | none => s
  | some pa => if pa < s.cfg.ramSize then dmaWrite pa 1 (fun _ => b) s else s

/-- What happens to a running machine from outside: it is stepped, or the
debugger pokes a byte. -/
inductive Act where
  | step
  | poke (va : Word) (b : Byte)

/-- The state after one action.  A halted machine is not stepped. -/
def Act.run : Act → Machine → Option Machine
  | .step, s => if s.cpu.halted then some s else cpuStep s
  | .poke va b, s => some (memPoke va b s)

/-- The state after a sequence of actions, nothing if one of the steps never
ends. -/
def runActs : List Act → Machine → Option Machine
  | [], s => some s
  | a :: as, s => (a.run s).bind (runActs as)

end Tortoise.Emu
