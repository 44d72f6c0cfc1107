import Tortoise.Emu.Memory

/-!
# Exception entry

`enter`, `cpu_deliver` and `cpu_fault` of `src/cpu.c`.  An entry stores to the
supervisor stack and reads the vector table, which can fault again: a fault
during an entry becomes a double fault, and a fault during that entry stops the
machine.  `cpuFaultN` follows this nesting with a level that only has to be two,
because the depth the processor keeps in its state grows with every entry.

`cpuInterrupt` is the other mechanism, the one of the 16-bit machine: flags and
`PC` go to the current stack and the vector is a half-word at `IVT_BASE`.
-/

namespace Tortoise.Emu

/-- Set the nesting depth. -/
def setDepth (d : Nat) (s : Machine) : Machine := { s with cpu := { s.cpu with depth := d } }

/-- The registers an entry leaves behind. -/
def entryRegs (vec code sp h : Word) (s : Machine) : Machine :=
  let s := s.setCr crCause ((vec &&& 0xFF) ||| ((code &&& 0xFF) <<< 8))
  fetchInval
    { s with cpu := { s.cpu with sp := sp, mode := .supervisor, intEnabled := false, pc := h } }

/-- The stack pointer an entry starts from: a user program's is saved on the
supervisor stack first. -/
def entryStack (F : Fault) : M Word := do
  let s ← get
  if s.isUser then
    let sp := s.crOf crKsp - 4
    vmWrite F sp s.cpu.sp 4 false
    pure sp
  else pure s.cpu.sp

def enter (F : Fault) (vec savepc code : Word) : M Unit := do
  let s ← get
  let sp ← entryStack F
  vmWrite F (sp - 4) (cpuGetFlags s) 4 false
  vmWrite F (sp - 8) savepc 4 false
  let s ← get
  let h ← vmRead F (s.crOf crEvt + 4 * vec) 4 false
  modify (entryRegs vec code (sp - 8) h)

/-- An entry made from inside `cpu_fault`: the depth is `0` again after it.  An
entry that faults has reset the depth in the nested `cpu_fault`. -/
def enterFault (F : Fault) (vec code : Word) (s : Machine) : Machine :=
  match enter F vec s.cpu.instPc code s with
  | .ok _ s' => setDepth 0 s'
  | .error _ s' => s'

/-- The end of the nesting in `cpu_fault`. -/
def tripleFault (s : Machine) : Machine := setDepth 0 (cpuStop exitTriple s)

/-- `cpu_fault` up to its `longjmp`, for `n` more levels of nesting. -/
def cpuFaultN : Nat → Fault
  | 0, _, _, s => tripleFault { s with cpu := { s.cpu with pc := s.cpu.instPc } }
  | n + 1, vec, code, s =>
    let s := { s with cpu := { s.cpu with pc := s.cpu.instPc } }
    match s.cpu.depth with
    | 0 => enterFault (cpuFaultN n) vec code (setDepth 1 s)
    | 1 => enterFault (cpuFaultN n) vecDf 0 (setDepth 2 s)
    | _ => tripleFault s

/-- `cpu_fault` up to its `longjmp`. -/
def cpuFault : Fault := cpuFaultN 2

/-- `cpu_fault` as a routine: it never returns. -/
def fault {α : Type} (vec code : Word) : M α := raise cpuFault vec code

def cpuDeliver (vec savepc code : Word) : M Unit := do
  let s ← get
  if s.cpu.depth ≠ 0 then fault vec code
  else
    modify (setDepth 1)
    enter cpuFault vec savepc code
    modify (setDepth 0)

/-- `mem_read`, with its short cut for the 16-bit machine. -/
def memRead (va : Word) (n : Nat) : M Word := do
  let s ← get
  if !s.extOn && inRam s va n then pure (ramRead s.mem va n)
  else vmRead cpuFault va n s.isUser

def memWrite (va v : Word) (n : Nat) : M Unit := do
  let s ← get
  vmWrite cpuFault va v n s.isUser

/-! ## Registers as routines -/

/-- Read something from the processor registers. -/
def getCpu {α : Type} (f : Cpu → α) : M α := do
  let s ← get
  pure (f s.cpu)

/-- Change the processor registers. -/
def modifyCpu (f : Cpu → Cpu) : M Unit := modify fun s => { s with cpu := f s.cpu }

def setReg (r : BitVec 3) (v : Word) : M Unit :=
  modifyCpu fun c => { c with regs := fun k => if k = r then v else c.regs k }

def setPc (v : Word) : M Unit := modifyCpu fun c => { c with pc := v }

def setSp (v : Word) : M Unit := modifyCpu fun c => { c with sp := v }

def setFlags (f : Byte) : M Unit := modifyCpu fun c => { c with flags := f }

def setIntEnabled (b : Bool) : M Unit := modifyCpu fun c => { c with intEnabled := b }

/-! ## Stacks -/

def pushWord (v : Word) : M Unit := do
  let sp ← getCpu fun c => c.sp - 2
  memWrite sp (v &&& 0xFFFF) 2
  setSp sp

def popWord : M Word := do
  let sp ← getCpu (·.sp)
  let v ← memRead sp 2
  setSp (sp + 2)
  pure v

def push32 (v : Word) : M Unit := do
  let sp ← getCpu fun c => c.sp - 4
  memWrite sp v 4
  setSp sp

def pop32 : M Word := do
  let sp ← getCpu (·.sp)
  let v ← memRead sp 4
  setSp (sp + 4)
  pure v

/-- The change of mode inside `cpu_interrupt`.  The cached fetch page stays. -/
def legacyMode : M Unit := modifyCpu fun c => { c with intEnabled := false, mode := .supervisor }

def cpuInterrupt (vector : Word) : M Unit := do
  let f ← getCpu (·.flags)
  pushWord (f.setWidth 32)
  let pc ← getCpu (·.pc)
  pushWord pc
  legacyMode
  let h ← memRead (ivtBase + (vector &&& 0xFF) * 2) 2
  setPc h

end Tortoise.Emu
