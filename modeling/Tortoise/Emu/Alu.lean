import Tortoise.Emu.Exception

/-!
# Opcodes, instruction formats and arithmetic

The opcode numbers of `include/cpu.h`, the format table of `src/dis.c` that
gives every instruction its length, and the arithmetic helpers of `src/cpu.c`
as functions from the old flags and the operands to the new flags and the
result.
-/

namespace Tortoise.Emu

/-- `Opcode` of `include/cpu.h`. -/
inductive Opcode where
  | opNop | opLoad | opAdd | opStore | opJmp | opJz | opAnd | opOr | opXor | opNot | opCall
  | opRet | opIn | opOut | opSub | opCmp | opJc | opJn | opJo | opJnz | opShl | opShr | opMul
  | opDiv | opInt | opIret | opCli | opSti | opLoad32 | opStore32 | opAdd32 | opSub32 | opMul32
  | opDiv32 | opShl32 | opShr32 | opAnd32 | opOr32 | opXor32 | opCmp32 | opMov | opAddReg
  | opSubReg | opCmpReg | opAndReg | opOrReg | opXorReg | opMulReg | opDivReg | opPush | opPop
  | opLoadIndir | opStoreIndir | opLoad32Indir | opStore32Indir | opSyscall | opSysret | opJmpr
  | opCallr | opJmprel | opCallrel | opBeq | opBne | opBlt | opBge | opBle | opBgt | opBlo
  | opBhs | opBls | opBhi | opBmi | opBpl | opBvs | opBvc | opJmp32 | opCall32 | opAdc | opSbb
  | opSarv | opShlv | opShrv | opRolv | opRorv | opImul | opIdiv | opUmod | opImod | opNeg
  | opTest | opMulhu | opMulhs | opSar | opRol | opRor | opAdci | opSbbi | opImuli | opIdivi
  | opUmodi | opImodi | opTesti | opLdb | opLdbs | opLdh | opLdhs | opLdw | opStb | opSth | opStw
  | opLea | opLeapc | opMovsp | opSetsp | opAddsp | opBrk | opMfcr | opMtcr | opTlbflush
  | opInvlpg | opWfi | opCpuid | opPushf | opPopf | opRdcyc | opRet32 | opPush32 | opPop32
  | opAdd32r | opSub32r | opCmp32r | opMul32r | opDiv32r | opHalt
  deriving DecidableEq

namespace Opcode

/-- The opcode numbers. -/
def table : List (Byte × Opcode) :=
  [(0x00, .opNop), (0x01, .opLoad), (0x02, .opAdd), (0x03, .opStore), (0x04, .opJmp),
   (0x05, .opJz), (0x06, .opAnd), (0x07, .opOr), (0x08, .opXor), (0x09, .opNot), (0x0A, .opCall),
   (0x0B, .opRet), (0x0C, .opIn), (0x0D, .opOut), (0x0E, .opSub), (0x0F, .opCmp), (0x10, .opJc),
   (0x11, .opJn), (0x12, .opJo), (0x13, .opJnz), (0x14, .opShl), (0x15, .opShr), (0x16, .opMul),
   (0x17, .opDiv), (0x18, .opInt), (0x19, .opIret), (0x1A, .opCli), (0x1B, .opSti),
   (0x20, .opLoad32), (0x21, .opStore32), (0x22, .opAdd32), (0x23, .opSub32), (0x24, .opMul32),
   (0x25, .opDiv32), (0x26, .opShl32), (0x27, .opShr32), (0x28, .opAnd32), (0x29, .opOr32),
   (0x2A, .opXor32), (0x2B, .opCmp32), (0x30, .opMov), (0x31, .opAddReg), (0x32, .opSubReg),
   (0x33, .opCmpReg), (0x34, .opAndReg), (0x35, .opOrReg), (0x36, .opXorReg), (0x37, .opMulReg),
   (0x38, .opDivReg), (0x39, .opPush), (0x3A, .opPop), (0x3B, .opLoadIndir),
   (0x3C, .opStoreIndir), (0x3D, .opLoad32Indir), (0x3E, .opStore32Indir), (0x3F, .opSyscall),
   (0x40, .opSysret), (0x41, .opJmpr), (0x42, .opCallr), (0x43, .opJmprel), (0x44, .opCallrel),
   (0x45, .opBeq), (0x46, .opBne), (0x47, .opBlt), (0x48, .opBge), (0x49, .opBle),
   (0x4A, .opBgt), (0x4B, .opBlo), (0x4C, .opBhs), (0x4D, .opBls), (0x4E, .opBhi),
   (0x4F, .opBmi), (0x50, .opBpl), (0x51, .opBvs), (0x52, .opBvc), (0x53, .opJmp32),
   (0x54, .opCall32), (0x55, .opAdc), (0x56, .opSbb), (0x57, .opSarv), (0x58, .opShlv),
   (0x59, .opShrv), (0x5A, .opRolv), (0x5B, .opRorv), (0x5C, .opImul), (0x5D, .opIdiv),
   (0x5E, .opUmod), (0x5F, .opImod), (0x60, .opNeg), (0x61, .opTest), (0x62, .opMulhu),
   (0x63, .opMulhs), (0x64, .opSar), (0x65, .opRol), (0x66, .opRor), (0x67, .opAdci),
   (0x68, .opSbbi), (0x69, .opImuli), (0x6A, .opIdivi), (0x6B, .opUmodi), (0x6C, .opImodi),
   (0x6D, .opTesti), (0x6E, .opLdb), (0x6F, .opLdbs), (0x70, .opLdh), (0x71, .opLdhs),
   (0x72, .opLdw), (0x73, .opStb), (0x74, .opSth), (0x75, .opStw), (0x76, .opLea),
   (0x77, .opLeapc), (0x78, .opMovsp), (0x79, .opSetsp), (0x7A, .opAddsp), (0x7C, .opBrk),
   (0x7D, .opMfcr), (0x7E, .opMtcr), (0x7F, .opTlbflush), (0x80, .opInvlpg), (0x81, .opWfi),
   (0x82, .opCpuid), (0x83, .opPushf), (0x84, .opPopf), (0x85, .opRdcyc), (0x86, .opRet32),
   (0x87, .opPush32), (0x88, .opPop32), (0x89, .opAdd32r), (0x8A, .opSub32r), (0x8B, .opCmp32r),
   (0x8C, .opMul32r), (0x8D, .opDiv32r), (0xFF, .opHalt)]

/-- The instruction a byte stands for, if there is one. -/
def ofByte (b : Byte) : Option Opcode := table.lookup b

end Opcode

/-- The instruction formats of `include/dis.h` that `dis_ops` uses. -/
inductive Fmt where
  | n | r8 | i8 | rr | a16 | ri16 | rd16 | ind | inds | ri32 | ra | rb | ri | rel | abs
  | m | ms | leapc | mfcr | mtcr | addsp
  deriving DecidableEq

/-- The format column of `dis_ops`. -/
def Opcode.fmt : Opcode → Fmt
  | .opNop | .opRet | .opIret | .opCli | .opSti | .opSyscall | .opSysret | .opBrk | .opTlbflush
  | .opWfi | .opPushf | .opPopf | .opRet32 | .opHalt => .n
  | .opNot | .opPush | .opPop => .r8
  | .opInt => .i8
  | .opJmp | .opCall | .opJc | .opJn | .opJo | .opJnz => .a16
  | .opLoad | .opAdd | .opStore | .opJz | .opAnd | .opOr | .opXor | .opIn | .opOut | .opSub
  | .opCmp => .ri16
  | .opShl | .opShr | .opMul | .opDiv => .rd16
  | .opLoadIndir | .opLoad32Indir => .ind
  | .opStoreIndir | .opStore32Indir => .inds
  | .opLoad32 | .opStore32 | .opAdd32 | .opSub32 | .opMul32 | .opDiv32 | .opShl32 | .opShr32
  | .opAnd32 | .opOr32 | .opXor32 | .opCmp32 => .ri32
  | .opNeg | .opMovsp | .opCpuid | .opRdcyc | .opPop32 => .ra
  | .opJmpr | .opCallr | .opSetsp | .opInvlpg | .opPush32 => .rb
  | .opSar | .opRol | .opRor | .opAdci | .opSbbi | .opImuli | .opIdivi | .opUmodi | .opImodi
  | .opTesti => .ri
  | .opJmprel | .opCallrel | .opBeq | .opBne | .opBlt | .opBge | .opBle | .opBgt | .opBlo
  | .opBhs | .opBls | .opBhi | .opBmi | .opBpl | .opBvs | .opBvc => .rel
  | .opJmp32 | .opCall32 => .abs
  | .opLdb | .opLdbs | .opLdh | .opLdhs | .opLdw | .opLea => .m
  | .opStb | .opSth | .opStw => .ms
  | .opLeapc => .leapc
  | .opMfcr => .mfcr
  | .opMtcr => .mtcr
  | .opAddsp => .addsp
  | _ => .rr

def disLen : Fmt → Nat
  | .n => 1
  | .r8 | .i8 | .rr | .ra | .rb | .mfcr | .mtcr => 2
  | .a16 => 3
  | .ri16 | .rd16 | .ind | .inds => 4
  | .ri32 | .ri | .rel | .abs | .m | .ms | .leapc | .addsp => 6

/-- `op_len`: an unknown opcode has length `1`. -/
def opLen (b : Byte) : Nat :=
  match Opcode.ofByte b with
  | some op => disLen op.fmt
  | none => 1

theorem disLen_pos (f : Fmt) : 0 < disLen f := by
  cases f <;> decide

theorem disLen_le (f : Fmt) : disLen f ≤ 6 := by
  cases f <;> decide

theorem opLen_pos (b : Byte) : 0 < opLen b := by
  unfold opLen
  split
  · exact disLen_pos _
  · decide

theorem opLen_le (b : Byte) : opLen b ≤ 6 := by
  unfold opLen
  split
  · exact disLen_le _
  · decide

/-! ## The arithmetic of the 16-bit machine -/

/-- Zero and sign of a 16-bit result. -/
def zs16 (r : Word) : Byte :=
  (if r &&& 0xFFFF = 0 then flagZ else 0) ||| (if r &&& 0x8000 ≠ 0 then flagS else 0)

/-- Zero and sign of a 32-bit result. -/
def zs32 (r : Word) : Byte :=
  (if r = 0 then flagZ else 0) ||| (if r &&& 0x80000000 ≠ 0 then flagS else 0)

/-- `set_flags`. -/
def setFlags16 (a b result : Word) (isSub : Bool) : Byte :=
  let sa := a.getLsbD 15
  let sb := b.getLsbD 15
  let sr := result.getLsbD 15
  let c := if isSub then decide (a < b) else decide (0xFFFF < result)
  let v := if isSub then sa != sb && sr != sa else sa == sb && sr != sa
  zs16 result ||| (if c then flagC else 0) ||| (if v then flagV else 0)

/-- `OP_ADD`. -/
def add16 (a b : Word) : Byte × Word := (setFlags16 a b (a + b) false, (a + b) &&& 0xFFFF)

/-- `OP_SUB`. -/
def sub16 (a b : Word) : Byte × Word :=
  let r := (a - b) &&& 0xFFFF
  (setFlags16 a b r true, r)

/-- `OP_SHL`. -/
def shl16 (a v : Word) : Byte × Word :=
  let r := (a <<< (v &&& 31).toNat) &&& 0xFFFF
  let c := 0 < v ∧ v ≤ 16 ∧ (a <<< (v - 1).toNat) &&& 0x8000 ≠ 0
  (zs16 r ||| (if c then flagC else 0), r)

/-- `OP_SHR`. -/
def shr16 (a v : Word) : Byte × Word :=
  let r := (a >>> (v &&& 31).toNat) &&& 0xFFFF
  let c := 0 < v ∧ v ≤ 16 ∧ (a >>> (v - 1).toNat) &&& 1 ≠ 0
  (zs16 r ||| (if c then flagC else 0), r)

/-- `OP_MUL`. -/
def mul16 (a b : Word) : Byte × Word :=
  let prod := a * b
  let r := prod &&& 0xFFFF
  (zs16 r ||| (if 0xFFFF < prod then flagC ||| flagV else 0), r)

/-- `OP_DIV` with a divisor that is not zero. -/
def div16 (a b : Word) : Byte × Word :=
  let r := (a / b) &&& 0xFFFF
  (zs16 r, r)

/-! ## The 32-bit immediate forms -/

/-- `OP_ADD32`. -/
def add32 (a b : Word) : Byte × Word :=
  (zs32 (a + b) ||| (if 0xFFFFFFFF < a.toNat + b.toNat then flagC else 0), a + b)

/-- `OP_SUB32`. -/
def sub32 (a b : Word) : Byte × Word :=
  (zs32 (a - b) ||| (if a < b then flagC else 0), a - b)

/-- `OP_MUL32`. -/
def mul32 (a b : Word) : Byte × Word :=
  (zs32 (a * b) ||| (if 0xFFFFFFFF < a.toNat * b.toNat then flagC ||| flagV else 0), a * b)

/-- `OP_DIV32` with a divisor that is not zero. -/
def div32 (a b : Word) : Byte × Word := (zs32 (a / b), a / b)

/-- `OP_SHL32`. -/
def shl32 (a v : Word) : Byte × Word :=
  let r := a <<< (v &&& 31).toNat
  let c := 0 < v ∧ v ≤ 32 ∧ (a <<< (v - 1).toNat) &&& 0x80000000 ≠ 0
  (zs32 r ||| (if c then flagC else 0), r)

/-- `OP_SHR32`. -/
def shr32 (a v : Word) : Byte × Word :=
  let r := a >>> (v &&& 31).toNat
  let c := 0 < v ∧ v ≤ 32 ∧ (a >>> (v - 1).toNat) &&& 1 ≠ 0
  (zs32 r ||| (if c then flagC else 0), r)

/-! ## The register forms of the 32-bit machine -/

def setzscv (old : Byte) (r : Word) (c v : Bool) : Byte :=
  (old &&& 0xF0) ||| zs32 r ||| (if c then flagC else 0) ||| (if v then flagV else 0)

def setzs (old : Byte) (r : Word) : Byte := (old &&& ~~~(flagZ ||| flagS)) ||| zs32 r

def aluAdd (old : Byte) (a b c : Word) : Byte × Word :=
  let r := a + b + c
  (setzscv old r (decide (0xFFFFFFFF < a.toNat + b.toNat + c.toNat))
    ((~~~(a ^^^ b) &&& (a ^^^ r)).getLsbD 31), r)

def aluSub (old : Byte) (a b c : Word) : Byte × Word :=
  let r := a - b - c
  (setzscv old r (decide (a.toNat < b.toNat + c.toNat)) (((a ^^^ b) &&& (a ^^^ r)).getLsbD 31), r)

/-- The `kind` of a shift: `0` to `4` in `alu_shift`. -/
inductive Shift where
  | shl | shr | sar | rol | ror
  deriving DecidableEq

/-- The result of a shift by `n`, and the bit shifted out. -/
def Shift.apply : Shift → Word → Nat → Word × Bool
  | .shl, a, n => (a <<< n, a.getLsbD (32 - n))
  | .shr, a, n => (a >>> n, a.getLsbD (n - 1))
  | .sar, a, n => (a.sshiftRight n, a.getLsbD (n - 1))
  | .rol, a, n => ((a <<< n) ||| (a >>> (32 - n)), ((a <<< n) ||| (a >>> (32 - n))).getLsbD 0)
  | .ror, a, n => ((a >>> n) ||| (a <<< (32 - n)), ((a >>> n) ||| (a <<< (32 - n))).getLsbD 31)

/-- `alu_shift`: a count of zero leaves carry and overflow alone. -/
def aluShift (old : Byte) (k : Shift) (a n : Word) : Byte × Word :=
  let n := (n &&& 31).toNat
  if n = 0 then (setzs old a, a)
  else
    let r := k.apply a n
    (setzscv old r.1 r.2 false, r.1)

def aluImul (old : Byte) (a b : Word) : Byte × Word :=
  let p := a.toInt * b.toInt
  let r := BitVec.ofInt 32 p
  let ov := decide (p ≠ r.toInt)
  (setzscv old r ov ov, r)

/-- `OP_MUL32R`. -/
def aluMul (old : Byte) (a b : Word) : Byte × Word :=
  let hi := decide (0xFFFFFFFF < a.toNat * b.toNat)
  (setzscv old (a * b) hi hi, a * b)

def aluMulh (old : Byte) (a b : Word) (sgn : Bool) : Byte × Word :=
  let r := if sgn then ((a.signExtend 64 * b.signExtend 64) >>> 32).setWidth 32
    else ((a.setWidth 64 * b.setWidth 64) >>> 32).setWidth 32
  (setzscv old r false false, r)

/-- The `kind` of a division: `0` to `3` in `alu_div`. -/
inductive Div where
  | idiv | umod | imod | udiv
  deriving DecidableEq

/-- The operands for which `alu_div` has no result. -/
def Div.bad (k : Div) (a b : Word) : Bool :=
  b == 0 || (k != .umod && k != .udiv && a == 0x80000000 && b == 0xFFFFFFFF)

/-- The result of a division, C's towards zero. -/
def Div.apply : Div → Word → Word → Word
  | .idiv, a, b => a.sdiv b
  | .umod, a, b => a % b
  | .imod, a, b => a.srem b
  | .udiv, a, b => a / b

/-- `alu_div` when it has a result. -/
def aluDiv (old : Byte) (k : Div) (a b : Word) : Byte × Word :=
  (setzscv old (k.apply a b) false false, k.apply a b)

def cond (op : Opcode) (f : Byte) : Bool :=
  let z := f &&& flagZ != 0
  let c := f &&& flagC != 0
  let s := f &&& flagS != 0
  let v := f &&& flagV != 0
  match op with
  | .opBeq => z
  | .opBne => !z
  | .opBlt => s != v
  | .opBge => s == v
  | .opBle => z || s != v
  | .opBgt => !z && s == v
  | .opBlo => c
  | .opBhs => !c
  | .opBls => c || z
  | .opBhi => !c && !z
  | .opBmi => s
  | .opBpl => !s
  | .opBvs => v
  | _ => !v

end Tortoise.Emu
