import Tortoise.Emu.Alu

/-!
# Instruction execution

`execute_instruction` of `src/cpu.c`.  Operands are taken from the decoded
instruction at the offsets its format fixes.  Instructions that differ only in
an arithmetic function, a width or a condition share one routine.

The routines are written with a small set of actions (register access, memory
access, faults, the exception entries and the privileged operations), so that a
property closed under these actions holds of every instruction.
-/

namespace Tortoise.Emu

/-! ## Operands -/

/-- Byte `i` of a decoded instruction. -/
def DEnt.b (e : DEnt) (i : Nat) : Byte := e.getD i 0

/-- The half-word at offset `i`. -/
def DEnt.w16 (e : DEnt) (i : Nat) : Word := rd16 (e.b i) (e.b (i + 1))

/-- The word at offset `i`. -/
def DEnt.w32 (e : DEnt) (i : Nat) : Word :=
  rd32 (e.b i) (e.b (i + 1)) (e.b (i + 2)) (e.b (i + 3))

/-- The upper nibble of the register byte. -/
def DEnt.hi (e : DEnt) : Byte := e.b 1 >>> 4

/-- The lower nibble of the register byte. -/
def DEnt.lo (e : DEnt) : Byte := e.b 1 &&& 15

/-- The signed 16-bit displacement of the indirect forms. -/
def DEnt.disp16 (e : DEnt) : Word := ((e.w16 2).setWidth 16).signExtend 32

/-! ## Actions -/

/-- `cpu_stop` as an action. -/
def stopM (code : Nat) : M Unit := modifyCpu fun c => { c with halted := true, exitCode := code }

def invalidOpcode {α : Type} : M α := do
  let ext ← getCpu fun c => c.cr crCtrl &&& cr0Ext != 0
  if ext then fault vecUd 0
  else
    stopM exitInvalid
    cpuAbort

def priv : M Unit := do
  let bad ← getCpu fun c => c.cr crCtrl &&& cr0Ext != 0 && c.mode == .user
  if bad then fault vecGp 0 else pure ()

/-- `EXT_ON`, read by an instruction. -/
def extM : M Bool := getCpu fun c => c.cr crCtrl &&& cr0Ext != 0

def trap (vec : Word) : M Unit := do
  let pc ← getCpu (·.pc)
  if ← extM then cpuDeliver vec pc 0 else cpuInterrupt vec

def divError : M Unit := do
  if ← extM then fault vecDiv 0 else cpuInterrupt 0

/-- `cpu_set_flags` as an action. -/
def setFlagsWord (f : Word) : M Unit := modify (cpuSetFlags f)

/-- The stack pointer `ext_iret` restores. -/
def iretSp (fl sp : Word) : M Word := if fl &&& flagU ≠ 0 then memRead sp 4 else pure sp

def extIret : M Unit := do
  let sp ← getCpu (·.sp)
  let pc ← memRead sp 4
  let fl ← memRead (sp + 4) 4
  let sp' ← iretSp fl (sp + 8)
  setPc pc
  setFlagsWord fl
  setSp sp'

def crWrite (n : BitVec 4) (v : Word) : M Unit := modify fun s =>
  if n = crRamsize then s
  else
    let s := s.setCr n v
    if n = crCtrl ∨ n = crPtbase ∨ n = crBase ∨ n = crLimit then cpuFlushTlb s else s

def cpuWfi : M Unit := fun s =>
  match devWfi s.cfg.patience s with
  | some s' => .ok () s'
  | none => .error .diverged s

def haltCpu : M Unit := modifyCpu fun c => { c with halted := true }

def portIn (port : Word) : M (Option Word) := fun s =>
  let r := legacyIn port s
  .ok r.1 r.2

def portOut (port v : Word) : M Unit := modify (legacyOut port v)

/-- The part of `OP_SYSCALL` for the 16-bit machine before its vector is read. -/
def legacySyscallEntry : M Unit :=
  modifyCpu fun c => { c with mode := .supervisor, syscallPc := c.pc }

/-- The part of `OP_SYSRET` for the 16-bit machine. -/
def legacySysret : M Unit := modifyCpu fun c =>
  if c.syscallPc ≠ 0 then { c with mode := .user, pc := c.syscallPc, syscallPc := 0 }
  else { c with mode := .user }

/-! ## Register operands -/

/-- The forms that ignore a register number above `7`. -/
def withReg (x : Byte) (k : BitVec 3 → M Unit) : M Unit :=
  if x < 8 then k (x.setWidth 3) else pure ()

/-- The forms that fault on a register number above `7`. -/
def needReg (x : Byte) (k : BitVec 3 → M Unit) : M Unit :=
  if 7 < x then invalidOpcode else k (x.setWidth 3)

def getReg (r : BitVec 3) : M Word := getCpu fun c => c.regs r

/-- The base of a memory operand: number `8` is the stack pointer. -/
def baseReg (x : Byte) : M Word := if x = 8 then getCpu (·.sp) else getReg (x.setWidth 3)

/-- Store the flags and the result of an operation. -/
def setRes (r : BitVec 3) (p : Byte × Word) : M Unit := do
  setFlags p.1
  setReg r p.2

/-- The instructions of the 16-bit machine with a constant operand. -/
def opImm (x : Byte) (v : Word) (f : Word → Word → Byte × Word) : M Unit :=
  withReg x fun r => do
    let a ← getReg r
    setRes r (f a v)

/-- The comparisons with a constant operand. -/
def opCmpImm (x : Byte) (v : Word) (f : Word → Word → Byte × Word) : M Unit :=
  withReg x fun r => do
    let a ← getReg r
    setFlags (f a v).1

/-- The bitwise operations with a constant operand, which leave the flags. -/
def opBitImm (x : Byte) (v : Word) (f : Word → Word → Word) : M Unit :=
  withReg x fun r => do
    let a ← getReg r
    setReg r (f a v)

/-- `OP_DIV` and `OP_DIV32`: division by zero takes the interrupt of the 16-bit
machine in either mode. -/
def opDivImm (x : Byte) (v : Word) (f : Word → Word → Byte × Word) : M Unit :=
  withReg x fun r =>
    if v = 0 then cpuInterrupt 0
    else do
      let a ← getReg r
      setRes r (f a v)

/-- The instructions of the 16-bit machine with two registers. -/
def withRegs (e : DEnt) (k : BitVec 3 → BitVec 3 → M Unit) : M Unit :=
  withReg e.hi fun d => withReg e.lo fun s => k d s

def opRR (e : DEnt) (f : Word → Word → Byte × Word) : M Unit :=
  withRegs e fun d r => do
    let a ← getReg d
    let b ← getReg r
    setRes d (f a b)

def opBitRR (e : DEnt) (f : Word → Word → Word) : M Unit :=
  withRegs e fun d r => do
    let a ← getReg d
    let b ← getReg r
    setReg d (f a b)

/-- `OP_DIV_REG`. -/
def opDivRR (e : DEnt) : M Unit :=
  withRegs e fun d r => do
    let b ← getReg r
    if b = 0 then cpuInterrupt 0
    else
      let a ← getReg d
      setRes d (div16 a b)

/-- `OP_LOAD_INDIR` and `OP_LOAD32_INDIR`. -/
def opLoadInd (e : DEnt) (n : Nat) : M Unit :=
  withRegs e fun d r => do
    let a ← getReg r
    let v ← memRead (a + e.disp16) n
    setReg d v

/-- `OP_STORE_INDIR` and `OP_STORE32_INDIR`. -/
def opStoreInd (e : DEnt) (n : Nat) : M Unit :=
  withRegs e fun s r => do
    let a ← getReg s
    let v ← getReg r
    memWrite (a + e.disp16) v n

/-- A jump to `addr` on a condition on the flags. -/
def opJumpIf (p : Byte → Bool) (addr : Word) : M Unit := do
  let f ← getCpu (·.flags)
  if p f then setPc addr else pure ()

/-! ## The 32-bit machine -/

/-- The carry as `OP_ADC` and `OP_SBB` add it. -/
def carryIn (f : Byte) : Word := if f &&& flagC ≠ 0 then 1 else 0

/-- An operation of the 32-bit machine on register `d` and an operand. -/
def alu (d : BitVec 3) (b : Word) (f : Byte → Word → Word → Byte × Word) : M Unit := do
  let a ← getReg d
  let fl ← getCpu (·.flags)
  setRes d (f fl a b)

/-- `OP_TEST`, `OP_TESTI` and `OP_CMP32R`: only the flags change. -/
def aluTest (d : BitVec 3) (b : Word) (f : Byte → Word → Word → Byte) : M Unit := do
  let a ← getReg d
  let fl ← getCpu (·.flags)
  setFlags (f fl a b)

/-- The divisions of the 32-bit machine. -/
def aluDivide (d : BitVec 3) (b : Word) (k : Div) : M Unit := do
  let a ← getReg d
  if k.bad a b then divError
  else
    let fl ← getCpu (·.flags)
    setRes d (aluDiv fl k a b)

/-- What an operation of the 32-bit machine does with its two operands. -/
inductive AluOp where
  | res (f : Byte → Word → Word → Byte × Word)
  | test (f : Byte → Word → Word → Byte)
  | div (k : Div)

def AluOp.run (o : AluOp) (d : BitVec 3) (b : Word) : M Unit :=
  match o with
  | .res f => alu d b f
  | .test f => aluTest d b f
  | .div k => aluDivide d b k

/-- The operation of a register or constant form, for the opcodes that have
one. -/
def Opcode.aluOp : Opcode → AluOp
  | .opAdc | .opAdci => .res fun fl a b => aluAdd fl a b (carryIn fl)
  | .opSbb | .opSbbi => .res fun fl a b => aluSub fl a b (carryIn fl)
  | .opSarv | .opSar => .res fun fl a b => aluShift fl .sar a b
  | .opShlv => .res fun fl a b => aluShift fl .shl a b
  | .opShrv => .res fun fl a b => aluShift fl .shr a b
  | .opRolv | .opRol => .res fun fl a b => aluShift fl .rol a b
  | .opRorv | .opRor => .res fun fl a b => aluShift fl .ror a b
  | .opImul | .opImuli => .res aluImul
  | .opIdiv | .opIdivi => .div .idiv
  | .opUmod | .opUmodi => .div .umod
  | .opImod | .opImodi => .div .imod
  | .opDiv32r => .div .udiv
  | .opMulhu => .res fun fl a b => aluMulh fl a b false
  | .opMulhs => .res fun fl a b => aluMulh fl a b true
  | .opAdd32r => .res fun fl a b => aluAdd fl a b 0
  | .opSub32r => .res fun fl a b => aluSub fl a b 0
  | .opCmp32r => .test fun fl a b => (aluSub fl a b 0).1
  | .opMul32r => .res aluMul
  | _ => .test fun fl a b => setzscv fl (a &&& b) false false

/-- The register forms. -/
def aluRR (op : Opcode) (e : DEnt) : M Unit :=
  needReg e.hi fun d => needReg e.lo fun r => do
    let b ← getReg r
    op.aluOp.run d b

/-- The constant forms. -/
def aluRI (op : Opcode) (e : DEnt) : M Unit :=
  needReg e.hi fun d => op.aluOp.run d (e.w32 2)

/-- The loads: a width and the extension of the value read. -/
def opLd (e : DEnt) (n : Nat) (ext : Word → Word) : M Unit :=
  needReg e.hi fun d =>
    if 8 < e.lo then invalidOpcode
    else do
      let a ← baseReg e.lo
      let v ← memRead (a + e.w32 2) n
      setReg d (ext v)

def opLeaM (e : DEnt) : M Unit :=
  needReg e.hi fun d =>
    if 8 < e.lo then invalidOpcode
    else do
      let a ← baseReg e.lo
      setReg d (a + e.w32 2)

/-- `OP_STB`, `OP_STH` and `OP_STW`. -/
def opSt (e : DEnt) (n : Nat) : M Unit :=
  needReg e.hi fun s =>
    if 8 < e.lo then invalidOpcode
    else do
      let a ← baseReg e.lo
      let v ← getReg s
      memWrite (a + e.w32 2) v n

/-- A jump relative to the next instruction. -/
def jumpRel (d : Word) : M Unit := do
  let pc ← getCpu (·.pc)
  setPc (pc + d)

/-- Push the return address. -/
def pushPc : M Unit := do
  let pc ← getCpu (·.pc)
  push32 pc

def opIntM (val : Word) : M Unit := do
  if ← extM then
    let user ← getCpu fun c => c.mode == .user
    if 64 ≤ val ∨ (user ∧ val < 48) then fault vecGp 0
    else
      let pc ← getCpu (·.pc)
      cpuDeliver val pc 0
  else cpuInterrupt val

def opIretM : M Unit := do
  if ← extM then extIret
  else
    let addr ← popWord
    let f ← popWord
    setFlags (f.setWidth 8)
    setIntEnabled true
    setPc addr

def opSyscallM : M Unit := do
  if ← extM then
    let pc ← getCpu (·.pc)
    cpuDeliver vecSyscall pc 0
  else
    legacySyscallEntry
    let addr ← memRead (ivtBase + 0x80) 2
    setPc addr

def opSysretM : M Unit := do
  if ← extM then extIret else legacySysret

def opOutM (e : DEnt) : M Unit :=
  withReg (e.b 1) fun r =>
    if e.w16 2 = 0xFF02 then do
      let on ← getCpu (·.intEnabled)
      if on then trap 1 else pure ()
    else if e.w16 2 = 0xFF04 then haltCpu
    else do
      let v ← getReg r
      portOut (e.w16 2) v

def opInM (e : DEnt) : M Unit :=
  withReg (e.b 1) fun r => do
    match ← portIn (e.w16 2) with
    | some v => setReg r v
    | none => pure ()

/-- `OP_POPF`: a user program keeps the interrupt and mode bits it has. -/
def opPopfM : M Unit := do
  let v ← pop32
  let c ← getCpu fun c => (c.intEnabled, c.mode)
  let keep := (if c.1 then flagI else 0) ||| (if c.2 = .user then flagU else 0)
  setFlagsWord (if c.2 = .user then (v &&& ~~~(flagI ||| flagU)) ||| keep else v)

def opPushfM : M Unit := do
  let f ← getCpu fun c =>
    (c.flags &&& 0x0F).setWidth 32 ||| (if c.intEnabled then flagI else 0)
      ||| (if c.mode = .user then flagU else 0)
  push32 f

/-! ## The remaining instructions -/

/-- `OP_LOAD` and `OP_LOAD32`. -/
def opLoadM (x : Byte) (v : Word) : M Unit := withReg x fun r => setReg r v

/-- `OP_STORE` and `OP_STORE32`. -/
def opStoreM (x : Byte) (addr : Word) (n : Nat) : M Unit :=
  withReg x fun r => do
    let v ← getReg r
    memWrite addr v n

def opJzM (e : DEnt) : M Unit :=
  withReg (e.b 1) fun r => do
    let v ← getReg r
    if v = 0 then setPc (e.w16 2) else pure ()

def opCallM (e : DEnt) : M Unit := do
  let pc ← getCpu (·.pc)
  pushWord pc
  setPc (e.w16 1)

def opRetM : M Unit := do
  let a ← popWord
  setPc a

/-- `OP_CMP_REG`. -/
def opCmpRR (e : DEnt) : M Unit :=
  withRegs e fun d r => do
    let a ← getReg d
    let b ← getReg r
    setFlags (sub16 a b).1

def opPushM (e : DEnt) : M Unit :=
  withReg (e.b 1) fun r => do
    let v ← getReg r
    pushWord v

def opPopM (e : DEnt) : M Unit :=
  withReg (e.b 1) fun r => do
    let v ← popWord
    setReg r v

def opJmprM (e : DEnt) : M Unit :=
  needReg e.lo fun r => do
    let v ← getReg r
    setPc v

def opCallrM (e : DEnt) : M Unit :=
  needReg e.lo fun r => do
    let v ← getReg r
    pushPc
    setPc v

def opCallrelM (e : DEnt) : M Unit := do
  pushPc
  jumpRel (e.w32 2)

/-- The conditional branches. -/
def opBranchM (op : Opcode) (e : DEnt) : M Unit := do
  let f ← getCpu (·.flags)
  if cond op f then jumpRel (e.w32 2) else pure ()

def opCall32M (e : DEnt) : M Unit := do
  pushPc
  setPc (e.w32 2)

def opNegM (e : DEnt) : M Unit := needReg e.hi fun d => alu d 0 fun fl a _ => aluSub fl 0 a 0

/-- The instructions that put a value of the processor into a register:
`OP_LEAPC`, `OP_MOVSP`, `OP_CPUID` and `OP_RDCYC`. -/
def opGetM (e : DEnt) (f : Cpu → Word) : M Unit :=
  needReg e.hi fun d => do
    let v ← getCpu f
    setReg d v

def opSetspM (e : DEnt) : M Unit :=
  needReg e.lo fun r => do
    let v ← getReg r
    setSp v

def opAddspM (e : DEnt) : M Unit := do
  let sp ← getCpu (·.sp)
  setSp (sp + e.w32 2)

def opMfcrM (e : DEnt) : M Unit :=
  needReg e.hi fun d =>
    if 9 ≤ e.lo then invalidOpcode
    else do
      priv
      let v ← getCpu fun c => c.cr (e.lo.setWidth 4)
      setReg d v

def opMtcrM (e : DEnt) : M Unit :=
  needReg e.lo fun r =>
    if 9 ≤ e.hi then invalidOpcode
    else do
      priv
      let v ← getReg r
      crWrite (e.hi.setWidth 4) v

def opTlbflushM : M Unit := do
  priv
  modify cpuFlushTlb

def opInvlpgM (e : DEnt) : M Unit :=
  needReg e.lo fun r => do
    priv
    let v ← getReg r
    modify (cpuInvlpg v)

def opWfiM : M Unit := do
  priv
  cpuWfi

def opRet32M : M Unit := do
  let a ← pop32
  setPc a

def opPush32M (e : DEnt) : M Unit :=
  needReg e.lo fun r => do
    let v ← getReg r
    push32 v

def opPop32M (e : DEnt) : M Unit :=
  needReg e.hi fun d => do
    let v ← pop32
    setReg d v

/-! ## Dispatch -/

/-- The `switch` of `execute_instruction`. -/
def dispatch (op : Opcode) (e : DEnt) : M Unit :=
  match op with
  | .opNop => pure ()
  | .opLoad => opLoadM (e.b 1) (e.w16 2)
  | .opAdd => opImm (e.b 1) (e.w16 2) add16
  | .opStore => opStoreM (e.b 1) (e.w16 2) 2
  | .opJmp => setPc (e.w16 1)
  | .opJz => opJzM e
  | .opAnd => opBitImm (e.b 1) (e.w16 2) (· &&& ·)
  | .opOr => opBitImm (e.b 1) (e.w16 2) (· ||| ·)
  | .opXor => opBitImm (e.b 1) (e.w16 2) (· ^^^ ·)
  | .opNot => opBitImm (e.b 1) 0 fun a _ => ~~~a &&& 0xFFFF
  | .opCall => opCallM e
  | .opRet => opRetM
  | .opIn => opInM e
  | .opOut => opOutM e
  | .opSub => opImm (e.b 1) (e.w16 2) sub16
  | .opCmp => opCmpImm (e.b 1) (e.w16 2) sub16
  | .opJc => opJumpIf (fun f => f &&& flagC != 0) (e.w16 1)
  | .opJn => opJumpIf (fun f => f &&& flagS != 0) (e.w16 1)
  | .opJo => opJumpIf (fun f => f &&& flagV != 0) (e.w16 1)
  | .opJnz => opJumpIf (fun f => f &&& flagZ == 0) (e.w16 1)
  | .opShl => opImm (e.b 1) (e.w16 2) shl16
  | .opShr => opImm (e.b 1) (e.w16 2) shr16
  | .opMul => opImm (e.b 1) (e.w16 2) mul16
  | .opDiv => opDivImm (e.b 1) (e.w16 2) div16
  | .opInt => opIntM ((e.b 1).setWidth 32)
  | .opIret => opIretM
  | .opCli => setIntEnabled false
  | .opSti => setIntEnabled true
  | .opLoad32 => opLoadM (e.b 1) (e.w32 2)
  | .opStore32 => opStoreM (e.b 1) (e.w32 2) 4
  | .opAdd32 => opImm (e.b 1) (e.w32 2) add32
  | .opSub32 => opImm (e.b 1) (e.w32 2) sub32
  | .opMul32 => opImm (e.b 1) (e.w32 2) mul32
  | .opDiv32 => opDivImm (e.b 1) (e.w32 2) div32
  | .opShl32 => opImm (e.b 1) (e.w32 2) shl32
  | .opShr32 => opImm (e.b 1) (e.w32 2) shr32
  | .opAnd32 => opBitImm (e.b 1) (e.w32 2) (· &&& ·)
  | .opOr32 => opBitImm (e.b 1) (e.w32 2) (· ||| ·)
  | .opXor32 => opBitImm (e.b 1) (e.w32 2) (· ^^^ ·)
  | .opCmp32 => opCmpImm (e.b 1) (e.w32 2) sub32
  | .opMov => opBitRR e fun _ b => b
  | .opAddReg => opRR e add16
  | .opSubReg => opRR e sub16
  | .opCmpReg => opCmpRR e
  | .opAndReg => opBitRR e (· &&& ·)
  | .opOrReg => opBitRR e (· ||| ·)
  | .opXorReg => opBitRR e (· ^^^ ·)
  | .opMulReg => opRR e mul16
  | .opDivReg => opDivRR e
  | .opPush => opPushM e
  | .opPop => opPopM e
  | .opLoadIndir => opLoadInd e 2
  | .opStoreIndir => opStoreInd e 2
  | .opLoad32Indir => opLoadInd e 4
  | .opStore32Indir => opStoreInd e 4
  | .opSyscall => opSyscallM
  | .opSysret => opSysretM
  | .opJmpr => opJmprM e
  | .opCallr => opCallrM e
  | .opJmprel => jumpRel (e.w32 2)
  | .opCallrel => opCallrelM e
  | .opBeq | .opBne | .opBlt | .opBge | .opBle | .opBgt | .opBlo | .opBhs | .opBls | .opBhi
  | .opBmi | .opBpl | .opBvs | .opBvc => opBranchM op e
  | .opJmp32 => setPc (e.w32 2)
  | .opCall32 => opCall32M e
  | .opNeg => opNegM e
  | .opSar | .opRol | .opRor | .opAdci | .opSbbi | .opImuli | .opIdivi | .opUmodi | .opImodi
  | .opTesti => aluRI op e
  | .opLdb => opLd e 1 id
  | .opLdbs => opLd e 1 fun v => (v.setWidth 8).signExtend 32
  | .opLdh => opLd e 2 id
  | .opLdhs => opLd e 2 fun v => (v.setWidth 16).signExtend 32
  | .opLdw => opLd e 4 id
  | .opLea => opLeaM e
  | .opStb => opSt e 1
  | .opSth => opSt e 2
  | .opStw => opSt e 4
  | .opLeapc => opGetM e fun c => c.pc + e.w32 2
  | .opMovsp => opGetM e (·.sp)
  | .opSetsp => opSetspM e
  | .opAddsp => opAddspM e
  | .opBrk => trap vecBrk
  | .opMfcr => opMfcrM e
  | .opMtcr => opMtcrM e
  | .opTlbflush => opTlbflushM
  | .opInvlpg => opInvlpgM e
  | .opWfi => opWfiM
  | .opCpuid => opGetM e fun _ => 2
  | .opPushf => opPushfM
  | .opPopf => opPopfM
  | .opRdcyc => opGetM e fun c => c.icount.setWidth 32
  | .opRet32 => opRet32M
  | .opPush32 => opPush32M e
  | .opPop32 => opPop32M e
  | .opHalt => haltCpu
  -- the register forms
  | .opAdc | .opSbb | .opSarv | .opShlv | .opShrv | .opRolv | .opRorv | .opImul | .opIdiv
  | .opUmod | .opImod | .opTest | .opMulhu | .opMulhs | .opAdd32r | .opSub32r | .opCmp32r
  | .opMul32r | .opDiv32r => aluRR op e

/-- The instructions a user program of the extended machine may not execute. -/
def Opcode.privileged (op : Opcode) : Bool :=
  match op with
  | .opCli | .opSti | .opIret | .opIn | .opOut | .opHalt | .opSysret => true
  | _ => false

/-- The instructions a user program of the 16-bit machine may not execute. -/
def Opcode.legacyPrivileged (op : Opcode) : Bool :=
  match op with
  | .opCli | .opSti | .opIret | .opIn | .opOut => true
  | _ => false

def executeInstruction (e : DEnt) : M Unit := do
  match Opcode.ofByte (e.b 0) with
  | none => invalidOpcode
  | some op =>
    let m ← getCpu fun c => (c.mode, c.cr crCtrl &&& cr0Ext != 0)
    if m.1 = .user ∧ m.2 ∧ op.privileged then fault vecGp 0
    else if m.1 = .user ∧ !m.2 ∧ op.legacyPrivileged then cpuInterrupt vecGp
    else dispatch op e

end Tortoise.Emu
