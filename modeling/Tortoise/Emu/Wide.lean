import Tortoise.Lib.Limbs
import Tortoise.Emu.Phases

/-!
# Arithmetic on numbers of many words

A program adds two numbers of `n` words with `ADD32R` on the lowest words and
`ADC` on the others, and subtracts them with `SUB32R` and `SBB`; loads, stores
and register moves stand between.  `Chain` is such a run of the machine, step by
step, with the words the instructions found and left in their registers.

* Loads, stores and moves keep the flags (`Executes.flags`).
* One instruction of the chain is exact: result, carry, overflow and sign are
  those of the operands with the carry into it (`aluAdd_exact`, `aluSub_exact`).
* The whole chain computes the sum or difference of the whole numbers, with
  their carry and overflow, and the branches after a subtraction compare them
  (`wide_exact`).
-/

namespace Tortoise.Emu

open Tortoise.Lib Tortoise.Lib.Limbs
open Sequenced (branch)

variable {k : Bool} {e : DEnt} {rs xs ys : List Word} {s s' : Machine} {n : Nat} {op : Opcode}

/-! ## One word -/

/-- The flag `f` of the byte `fl`. -/
def flagSet (fl f : Byte) : Bool := fl &&& f != 0

theorem and_top_ne_zero (r : Word) : (r &&& 0x80000000 ≠ 0) ↔ r.msb = true := by
  have hbit : ∀ i, (r &&& 0x80000000).getLsbD i = (r.msb && decide (i = 31)) := by
    intro i
    have hall : ∀ j < 32, (0x80000000 : Word).getLsbD j = decide (j = 31) := by decide
    rw [BitVec.getLsbD_and, BitVec.msb_eq_getLsbD_last]
    by_cases hi : i < 32
    · rw [hall i hi]
      by_cases h31 : i = 31 <;> simp [h31]
    · rw [BitVec.getLsbD_of_ge _ i (by omega), decide_eq_false (by omega)]
      simp
  cases hm : r.msb with
  | false =>
    refine iff_of_false (fun hne => hne (BitVec.eq_of_getLsbD_eq fun i _ => ?_)) (by simp)
    rw [hbit, hm]
    exact BitVec.getLsbD_zero.symm
  | true =>
    refine iff_of_true (fun h0 => ?_) rfl
    have h31 := hbit 31
    rw [h0, hm] at h31
    exact absurd h31 (by decide)

theorem setzscv_flags (old : Byte) (r : Word) (c v : Bool) :
    flagSet (setzscv old r c v) flagC = c ∧ flagSet (setzscv old r c v) flagV = v ∧
      flagSet (setzscv old r c v) flagS = r.msb := by
  have hall : ∀ (old : Byte) (z s c v : Bool),
      let f := (old &&& 0xF0) ||| ((if z then flagZ else 0) ||| (if s then flagS else 0)) |||
        (if c then flagC else 0) ||| (if v then flagV else 0)
      flagSet f flagC = c ∧ flagSet f flagV = v ∧ flagSet f flagS = s := by
    decide +kernel
  have h := hall old (decide (r = 0)) r.msb c v
  unfold setzscv zs32
  simp only [and_top_ne_zero]
  simpa using h

/-- An integer that does not fit into a signed word. -/
def Overflows (t : Int) : Bool := !decide (-2 ^ 31 ≤ t ∧ t < 2 ^ 31)

theorem toNat_carryIn (f : Byte) : (carryIn f).toNat = (flagSet f flagC).toNat := by
  unfold carryIn flagSet
  by_cases h : f &&& flagC = 0
  · simp [h]
  · rw [if_pos h, bne_iff_ne.2 h]
    rfl

theorem toInt_split (x : Word) :
    (x.msb = false ∧ x.toInt = x.toNat ∧ x.toNat < 2 ^ 31) ∨
      (x.msb = true ∧ x.toInt = x.toNat - 2 ^ 32 ∧ 2 ^ 31 ≤ x.toNat) := by
  have hlt := x.isLt
  rw [BitVec.msb_eq_decide, BitVec.toInt_eq_toNat_cond]
  by_cases h : 2 ^ 31 ≤ x.toNat
  · rw [if_neg (by omega)]
    exact .inr ⟨by simpa using h, by omega, h⟩
  · rw [if_pos (by omega)]
    exact .inl ⟨by simpa using h, rfl, by omega⟩

/-- **One word of an addition.** -/
theorem aluAdd_exact (old : Byte) (a b c : Word) (hc : c.toNat = k.toNat) :
    (aluAdd old a b c).2.toNat + 2 ^ 32 * (flagSet (aluAdd old a b c).1 flagC).toNat =
        a.toNat + b.toNat + k.toNat ∧
      flagSet (aluAdd old a b c).1 flagV = Overflows (a.toInt + b.toInt + k.toNat) := by
  obtain ⟨hC, hV, -⟩ := setzscv_flags old (a + b + c)
    (decide (0xFFFFFFFF < a.toNat + b.toNat + c.toNat))
    ((~~~(a ^^^ b) &&& (a ^^^ (a + b + c))).getLsbD 31)
  have hr : (a + b + c).toNat = (a.toNat + b.toNat + k.toNat) % 2 ^ 32 := by
    rw [BitVec.toNat_add, BitVec.toNat_add, hc, Nat.mod_add_mod]
  have hk := Bool.toNat_le k
  have ha := a.isLt
  have hb := b.isLt
  unfold aluAdd
  simp only [hC, hV]
  constructor
  · rw [hr, hc]
    by_cases h : 0xFFFFFFFF < a.toNat + b.toNat + k.toNat
    · simp only [h, decide_true, Bool.toNat_true]
      omega
    · simp only [h, decide_false, Bool.toNat_false]
      omega
  · have hbit : ((~~~(a ^^^ b) &&& (a ^^^ (a + b + c))).getLsbD 31) =
        (a.msb == b.msb && a.msb != (a + b + c).msb) := by
      simp only [BitVec.getLsbD_and, BitVec.getLsbD_not, BitVec.getLsbD_xor,
        BitVec.msb_eq_getLsbD_last]
      cases a.getLsbD 31 <;> cases b.getLsbD 31 <;> simp
    rw [hbit]
    unfold Overflows
    rcases toInt_split a with ⟨ha₁, ha₂, ha₃⟩ | ⟨ha₁, ha₂, ha₃⟩ <;>
      rcases toInt_split b with ⟨hb₁, hb₂, hb₃⟩ | ⟨hb₁, hb₂, hb₃⟩ <;>
      rcases toInt_split (a + b + c) with ⟨hr₁, -, hr₃⟩ | ⟨hr₁, -, hr₃⟩ <;>
      rw [ha₁, hb₁, hr₁, ha₂, hb₂] <;> rw [hr] at hr₃ <;> symm <;> simp <;> omega

/-- **One word of a subtraction.** -/
theorem aluSub_exact (old : Byte) (a b c : Word) (hc : c.toNat = k.toNat) :
    (aluSub old a b c).2.toNat + b.toNat + k.toNat =
        a.toNat + 2 ^ 32 * (flagSet (aluSub old a b c).1 flagC).toNat ∧
      flagSet (aluSub old a b c).1 flagV = Overflows (a.toInt - b.toInt - k.toNat) ∧
      (flagSet (aluSub old a b c).1 flagS != flagSet (aluSub old a b c).1 flagV) =
        decide (a.toInt - b.toInt - k.toNat < 0) := by
  obtain ⟨hC, hV, hS⟩ := setzscv_flags old (a - b - c) (decide (a.toNat < b.toNat + c.toNat))
    (((a ^^^ b) &&& (a ^^^ (a - b - c))).getLsbD 31)
  have hk := Bool.toNat_le k
  have ha := a.isLt
  have hb := b.isLt
  have hr : (a - b - c).toNat = (a.toNat + (2 ^ 32 - b.toNat) + (2 ^ 32 - k.toNat)) % 2 ^ 32 := by
    rw [BitVec.toNat_sub, BitVec.toNat_sub, hc]
    omega
  unfold aluSub
  simp only [hC, hV, hS]
  have hbit : (((a ^^^ b) &&& (a ^^^ (a - b - c))).getLsbD 31) =
      (a.msb != b.msb && a.msb != (a - b - c).msb) := by
    simp only [BitVec.getLsbD_and, BitVec.getLsbD_xor, BitVec.msb_eq_getLsbD_last]
  refine ⟨?_, ?_, ?_⟩
  · rw [hr, hc]
    by_cases h : a.toNat < b.toNat + k.toNat
    · simp only [h, decide_true, Bool.toNat_true]
      omega
    · simp only [h, decide_false, Bool.toNat_false]
      omega
  all_goals
    rw [hbit]
    try unfold Overflows
    rcases toInt_split a with ⟨ha₁, ha₂, ha₃⟩ | ⟨ha₁, ha₂, ha₃⟩ <;>
      rcases toInt_split b with ⟨hb₁, hb₂, hb₃⟩ | ⟨hb₁, hb₂, hb₃⟩ <;>
      rcases toInt_split (a - b - c) with ⟨hr₁, -, hr₃⟩ | ⟨hr₁, -, hr₃⟩ <;>
      rw [ha₁, hb₁, hr₁, ha₂, hb₂] <;> rw [hr] at hr₃ <;> symm <;> simp <;> omega

/-! ## One instruction of a program -/

/-- A step of the machine that takes no interrupt, fetches `e` and completes it. -/
structure Executes (e : DEnt) (s s' : Machine) : Prop where
  fetched : fetched s = some e
  ends : stepOne s = .ok () s'

/-- The loads, stores and moves. -/
def Opcode.moves : Opcode → Bool
  | .opLoad | .opStore | .opLoad32 | .opStore32 | .opMov | .opLoadIndir | .opStoreIndir
  | .opLoad32Indir | .opStore32Indir | .opLdb | .opLdbs | .opLdh | .opLdhs | .opLdw | .opStb
  | .opSth | .opStw | .opLea => true
  | _ => false

/-- The registers of a register form. -/
def DEnt.dst (e : DEnt) : BitVec 3 := e.hi.setWidth 3

def DEnt.src (e : DEnt) : BitVec 3 := e.lo.setWidth 3

/-- The registers and flags a program has. -/
structure SameRegs (s t : Machine) : Prop where
  regs : t.cpu.regs = s.cpu.regs
  flags : t.cpu.flags = s.cpu.flags

theorem sameRegs_stable (s : Machine) : Phase.Stable (SameRegs s) where
  core hu h := ⟨(congrArg Core.regs h).trans hu.regs, (congrArg Core.flags h).trans hu.flags⟩
  tlb _ _ hu := ⟨hu.regs, hu.flags⟩
  faddr _ hu := ⟨hu.regs, hu.flags⟩

theorem takeIrq_goesOn (hg : goesOn s = true) :
    takeIrq (afterEvents s) = .ok () (afterEvents s) := by
  unfold goesOn at hg
  simp only [Bool.and_eq_true] at hg
  unfold takeIrq
  rw [get_bind_apply]
  cases hn : pendingLine (afterEvents s) with
  | none => rfl
  | some n =>
    rw [hn] at hg
    have hoff := hg.2
    simp only [Option.isSome_some, Bool.true_and, Bool.not_eq_true'] at hoff
    simp only [hoff, Bool.false_eq_true, ↓reduceIte]
    rfl

theorem stepOne_eq_runInstruction (hg : goesOn s = true) :
    stepOne s = runInstruction (afterEvents s) := by
  have hirq := takeIrq_goesOn hg
  unfold stepOne stepRest
  rw [get_bind_apply]
  by_cases hd : s.dev.devNext ≤ s.cpu.icount
  · have he : afterEvents s = devEvents s := if_pos hd
    have hh : (devEvents s).cpu.halted = false := by
      unfold goesOn at hg
      simp only [he, decide_eq_true hd, Bool.true_and, Bool.and_eq_true, Bool.not_eq_true'] at hg
      exact hg.1
    rw [he] at hirq ⊢
    rw [if_pos hd, modify_bind_apply]
    change (if (devEvents s).cpu.halted then pure () else takeIrq >>= fun _ => runInstruction)
      (devEvents s) = _
    rw [hh, if_neg Bool.false_ne_true, bind_ok hirq]
  · have he : afterEvents s = s := if_neg hd
    rw [he] at hirq ⊢
    rw [if_neg hd, bind_ok hirq]

theorem nextInstruction_regs (s : Machine) (pc : Word) :
    Phase.Settles (SameRegs s) (fun _ _ => True) (nextInstruction pc) := by
  have hm := Phase.memActions (sameRegs_stable s) (Q := fun _ => True) (F := cpuFault)
    (fun _ _ _ _ _ => trivial) fun _ => trivial
  have hfetch := fetchAt_of Phase.settles_sequenced Phase.settles_read hm.translate hm.physRead
    fun _ _ _ _ hu => ⟨hu.regs, hu.flags⟩
  exact nextInstruction_of Phase.settles_sequenced Phase.settles_read hfetch
    (fun _ _ _ hu => ⟨hu.regs, hu.flags⟩) pc

/-- The state in which `step_one` fetches. -/
def atFetch (s : Machine) : Machine :=
  { afterEvents s with cpu := { (afterEvents s).cpu with instPc := (afterEvents s).cpu.pc } }

theorem fetched_some (h : fetched s = some e) :
    goesOn s = true ∧ ∃ t, nextInstruction (atFetch s).cpu.pc (atFetch s) = .ok e t := by
  simp only [fetched] at h
  split at h
  · next hg =>
      split at h
      · next i t hr =>
          cases h
          exact ⟨hg, t, hr⟩
      · cases h
  · cases h

theorem atFetch_regs (s : Machine) : SameRegs s (atFetch s) ∧ (atFetch s).cpu.pc = s.cpu.pc := by
  have hcore : (afterEvents s).core = s.core := by
    unfold afterEvents
    split
    · exact (devEvents_dma s).core
    · rfl
  exact ⟨⟨congrArg Core.regs hcore, congrArg Core.flags hcore⟩, congrArg Core.pc hcore⟩

/-- An instruction of a program runs from its registers and flags, with the
program counter behind it. -/
theorem Executes.spec (h : Executes e s s') :
    ∃ t u, SameRegs s t ∧ t.cpu.pc = s.cpu.pc + BitVec.ofNat 32 e.length ∧
      executeInstruction e t = .ok () u ∧ SameRegs u s' ∧ s'.cpu.pc = u.cpu.pc := by
  obtain ⟨hg, t, hr⟩ := fetched_some h.fetched
  obtain ⟨hregs, hpc⟩ := atFetch_regs s
  have hnext : SameRegs s t := (ends_of_ok hr).1 (nextInstruction_regs s _ _ hregs)
  have hends := h.ends
  rw [stepOne_eq_runInstruction hg] at hends
  have hrun : runInstruction (afterEvents s) = (do
      setPc ((atFetch s).cpu.pc + BitVec.ofNat 32 e.length)
      executeInstruction e
      modifyCpu fun c => { c with icount := c.icount + 1 } : M Unit) t := bind_ok hr
  rw [hrun] at hends
  change ((do
      executeInstruction e
      modifyCpu fun c => { c with icount := c.icount + 1 } : M Unit)
    { t with cpu := { t.cpu with pc := (atFetch s).cpu.pc + BitVec.ofNat 32 e.length } }) = _
    at hends
  cases hx : executeInstruction e
      { t with cpu := { t.cpu with pc := (atFetch s).cpu.pc + BitVec.ofNat 32 e.length } } with
  | error x u =>
    rw [bind_error hx] at hends
    cases hends
  | ok _ u =>
    rw [bind_ok hx] at hends
    cases hends
    refine ⟨_, u, ?_, ?_, hx, ⟨rfl, rfl⟩, rfl⟩
    · exact ⟨hnext.regs, hnext.flags⟩
    · exact congrArg (· + BitVec.ofNat 32 e.length) hpc

/-! ## Loads, stores and moves -/

section Moves

variable {s : Machine}

/-- Whatever the instruction does, it returns with the flags of `s`. -/
def KeepsFlags (s : Machine) {α : Type} (x : M α) : Prop :=
  Phase.Settles (fun u => u.cpu.flags = s.cpu.flags) (fun _ _ => True) x

theorem keepsFlags_sequenced : Sequenced (fun {_} x => KeepsFlags s x) := Phase.settles_sequenced

theorem keepsFlags_memActions : MemActions cpuFault (fun {_} x => KeepsFlags s x) :=
  Phase.memActions ⟨fun hu h => (congrArg Core.flags h).trans hu, fun _ _ hu => hu,
    fun _ hu => hu⟩ (fun _ _ _ _ _ => trivial) fun _ => trivial

theorem memRead_keepsFlags (va : Word) (n : Nat) : KeepsFlags s (memRead va n) :=
  Phase.settles_read fun _ => branch (keepsFlags_sequenced.pure _)
    (keepsFlags_memActions.vmRead _ _ _)

theorem memWrite_keepsFlags (va v : Word) (n : Nat) (hn : n ≤ 4) : KeepsFlags s (memWrite va v n) :=
  Phase.settles_read fun _ => keepsFlags_memActions.vmWrite _ _ _ _ hn

theorem keepsFlags_moving : Moving True (fun {_} x => KeepsFlags s x) (fun {_} x => KeepsFlags s x)
    (fun {_} x => KeepsFlags s x) where
  last := keepsFlags_sequenced
  seq := keepsFlags_sequenced.bind
  commit := id
  ext hx hy := keepsFlags_sequenced.bind (Phase.getCpu_settles _) fun _ => branch hx (hy trivial)
  getCpu f := ⟨Phase.getCpu_settles f, Phase.getCpu_settles f⟩
  setReg _ _ _ hu := hu
  memRead := memRead_keepsFlags
  memWrite := memWrite_keepsFlags
  fault _ _ _ := trivial
  stop _ _ _ := trivial

theorem dispatch_keepsFlags (h : op.moves = true) (e : DEnt) : KeepsFlags s (dispatch op e) := by
  have hm := keepsFlags_moving (s := s)
  cases op with
  | opLoad | opLoad32 => exact hm.opLoadM _ _
  | opStore | opStore32 => exact hm.opStoreM _ _ _ (by decide)
  | opMov => exact hm.opBitRR e _
  | opLoadIndir | opLoad32Indir => exact hm.opLoadInd e _
  | opStoreIndir | opStore32Indir => exact hm.opStoreInd e _ (by decide)
  | opLdb | opLdbs | opLdh | opLdhs | opLdw => exact hm.opLd e _ _
  | opStb | opSth | opStw => exact hm.opSt e _ (by decide)
  | opLea => exact hm.opLeaM e
  | _ => cases h

end Moves

/-- `execute_instruction` outside the privileged instructions. -/
theorem executeInstruction_dispatch (hop : Opcode.ofByte (e.b 0) = some op)
    (hp : op.privileged = false) (hl : op.legacyPrivileged = false) :
    executeInstruction e = dispatch op e := by
  unfold executeInstruction
  rw [hop]
  funext t
  simp only [hp, hl, Bool.false_eq_true, and_false, ↓reduceIte]
  rfl

/-- **Loads, stores and moves keep the flags.** -/
theorem Executes.flags (h : Executes e s s') (hop : Opcode.ofByte (e.b 0) = some op)
    (hm : op.moves = true) : s'.cpu.flags = s.cpu.flags := by
  obtain ⟨t, u, ht, -, hx, hu, -⟩ := h.spec
  have hp : op.privileged = false := by cases op <;> first | rfl | cases hm
  have hl : op.legacyPrivileged = false := by cases op <;> first | rfl | cases hm
  have hk := dispatch_keepsFlags (s := s) hm e t ht.flags
  rw [executeInstruction_dispatch hop hp hl] at hx
  exact hu.flags.trans ((ends_of_ok hx).1 hk)

/-- Loads, stores and moves, one after another. -/
inductive Moves : Machine → Machine → Prop
  | refl (s : Machine) : Moves s s
  | step {s t u : Machine} {e : DEnt} {op : Opcode} (h : Moves s t) (he : Executes e t u)
      (hop : Opcode.ofByte (e.b 0) = some op) (hm : op.moves = true) : Moves s u

theorem Moves.flags {t : Machine} (h : Moves s t) : t.cpu.flags = s.cpu.flags := by
  induction h with
  | refl => rfl
  | step _ he hop hm ih => exact (he.flags hop hm).trans ih

/-! ## The instructions of a chain -/

/-- The opcodes of a chain: the operation on the lowest words, and on the others. -/
structure ChainOps where
  low : Opcode
  high : Opcode

def adding : ChainOps := ⟨.opAdd32r, .opAdc⟩

def subtracting : ChainOps := ⟨.opSub32r, .opSbb⟩

/-- A register form without privilege that computes `f`. -/
structure Opcode.Computes (op : Opcode) (f : Byte → Word → Word → Byte × Word) : Prop where
  dispatch : ∀ e, dispatch op e = aluRR op e
  privileged : op.privileged = false
  legacy : op.legacyPrivileged = false
  aluOp : op.aluOp = .res f

/-- A register form that completes puts the result of its operation into the
destination and the flags. -/
theorem Executes.res {f : Byte → Word → Word → Byte × Word} (h : Executes e s s')
    (hop : Opcode.ofByte (e.b 0) = some op) (hf : op.Computes f) :
    s'.cpu.flags = (f s.cpu.flags (s.cpu.regs e.dst) (s.cpu.regs e.src)).1 ∧
      s'.cpu.regs e.dst = (f s.cpu.flags (s.cpu.regs e.dst) (s.cpu.regs e.src)).2 := by
  obtain ⟨t, u, ht, -, hx, hu, -⟩ := h.spec
  rw [executeInstruction_dispatch hop hf.privileged hf.legacy, hf.dispatch] at hx
  have hfail : ∀ v : Machine, ¬ (invalidOpcode : M Unit) t = .ok () v := by
    intro v hv
    have hE : Ends (invalidOpcode : M Unit) (fun _ _ => False) (fun _ _ => True) t :=
      (Phase.getCpu_settles (A := fun _ => True) _ t trivial).bind fun b _ _ _ => by
        cases b <;> trivial
    exact (ends_of_ok hv).1 hE
  unfold aluRR needReg at hx
  split_ifs at hx with hhi hlo
  · exact absurd hx (hfail u)
  · exact absurd hx (hfail u)
  · rw [hf.aluOp] at hx
    rw [hu.flags, hu.regs, ← ht.flags, ← ht.regs]
    cases hx
    exact ⟨rfl, if_pos rfl⟩

/-- A run of the machine over two numbers: the words `xs` and `ys` the
instructions found in their registers and the words `rs` they left, the lowest
first. -/
inductive Chain (ops : ChainOps) (s : Machine) :
    List Word → List Word → List Word → Machine → Prop
  | first {t u : Machine} {e : DEnt} (hm : Moves s t) (he : Executes e t u)
      (hop : Opcode.ofByte (e.b 0) = some ops.low) :
      Chain ops s [t.cpu.regs e.dst] [t.cpu.regs e.src] [u.cpu.regs e.dst] u
  | next {xs ys rs : List Word} {s' t u : Machine} {e : DEnt} (hc : Chain ops s xs ys rs s')
      (hm : Moves s' t) (he : Executes e t u) (hop : Opcode.ofByte (e.b 0) = some ops.high) :
      Chain ops s (xs ++ [t.cpu.regs e.dst]) (ys ++ [t.cpu.regs e.src])
        (rs ++ [u.cpu.regs e.dst]) u

theorem Chain.length {ops : ChainOps} (h : Chain ops s xs ys rs s') :
    ys.length = xs.length ∧ rs.length = xs.length := by
  induction h with
  | first => exact ⟨rfl, rfl⟩
  | next _ _ _ _ ih => simp [ih.1, ih.2]

/-- The operations of a chain: `f` without a carry, then with the carry flag. -/
structure ChainOps.Computes (ops : ChainOps) (f : Byte → Word → Word → Word → Byte × Word) :
    Prop where
  low : ops.low.Computes fun fl a b => f fl a b 0
  high : ops.high.Computes fun fl a b => f fl a b (carryIn fl)

theorem adding_computes : adding.Computes aluAdd :=
  ⟨⟨fun _ => rfl, rfl, rfl, rfl⟩, ⟨fun _ => rfl, rfl, rfl, rfl⟩⟩

theorem subtracting_computes : subtracting.Computes aluSub :=
  ⟨⟨fun _ => rfl, rfl, rfl, rfl⟩, ⟨fun _ => rfl, rfl, rfl, rfl⟩⟩

/-- The state after a chain, seen from its highest word: `R` relates the words
below with the carry `k` out of them, and `f` made the highest word. -/
inductive Top (R : List Word → List Word → List Word → Nat → Prop)
    (f : Byte → Word → Word → Word → Byte × Word) :
    List Word → List Word → List Word → Machine → Prop
  | mk {xs ys rs : List Word} {x y c : Word} {fl : Byte} {k : Bool} {s' : Machine}
      (hx : xs.length = rs.length) (hy : ys.length = rs.length) (hR : R xs ys rs k.toNat)
      (hc : c.toNat = k.toNat) (hf : s'.cpu.flags = (f fl x y c).1) :
      Top R f (xs ++ [x]) (ys ++ [y]) (rs ++ [(f fl x y c).2]) s'

/-- A relation that each word carries on holds below the highest word of every
chain. -/
theorem Chain.top {ops : ChainOps} {R : List Word → List Word → List Word → Nat → Prop}
    {f : Byte → Word → Word → Word → Byte × Word} (hf : ops.Computes f) (hnil : R [] [] [] 0)
    (hstep : ∀ {xs ys rs s'}, Top R f xs ys rs s' →
      R xs ys rs (flagSet s'.cpu.flags flagC).toNat) (h : Chain ops s xs ys rs s') :
    Top R f xs ys rs s' := by
  induction h with
  | first hm he hop =>
    obtain ⟨hfl, hr⟩ := he.res hop hf.low
    rw [hr]
    exact @Top.mk R f [] [] [] _ _ 0 _ false _ rfl rfl hnil rfl hfl
  | next hc hm he hop ih =>
    obtain ⟨hfl, hr⟩ := he.res hop hf.high
    have hlen := hc.length
    have hR := hstep ih
    rw [← hm.flags] at hR
    rw [hr]
    exact Top.mk (by omega) (by omega) hR (toNat_carryIn _) hfl

/-! ## Whole numbers -/

theorem Top.adds (h : Top AddsTo aluAdd xs ys rs s') :
    AddsTo xs ys rs (flagSet s'.cpu.flags flagC).toNat := by
  cases h with
  | mk hx hy hR hc hf => exact hR.concat hx hy (hf ▸ (aluAdd_exact _ _ _ _ hc).1)

theorem Top.subs (h : Top SubsTo aluSub xs ys rs s') :
    SubsTo xs ys rs (flagSet s'.cpu.flags flagC).toNat := by
  cases h with
  | mk hx hy hR hc hf => exact hR.concat hx hy (hf ▸ (aluSub_exact _ _ _ _ hc).1)

/-- The whole number overflows when its highest word does. -/
theorem overflow_top {v l t : Int} (hv : v = l + 2 ^ (32 * n) * t) (hl : 0 ≤ l)
    (hlt : l < 2 ^ (32 * n)) :
    Overflows t =
      (decide (v ≥ 2 ^ (32 * (n + 1) - 1)) || decide (v < -2 ^ (32 * (n + 1) - 1))) := by
  have hpow : (2 : Int) ^ (32 * (n + 1) - 1) = 2 ^ (32 * n) * 2 ^ 31 := by
    rw [← pow_add]
    congr 1
  have hrange := signed_range_iff (k := 2 ^ 31) (t := t) hl hlt
  rw [← hv] at hrange
  rw [hpow, Overflows, ← decide_eq_decide.2 hrange, ← decide_not, ← Bool.decide_or,
    decide_eq_decide, not_and_or, not_le, not_lt, or_comm]

theorem Top.add_overflow (h : Top AddsTo aluAdd xs ys rs s') (hn : xs.length = n) :
    flagSet s'.cpu.flags flagV = (number n xs).saddOverflow (number n ys) := by
  cases h with
  | @mk xs ys rs x y c fl k _ hx hy hR hc hf =>
    obtain rfl : n = rs.length + 1 := by simpa [hx] using hn.symm
    have hlt : (value rs : Int) < 2 ^ (32 * rs.length) := by exact_mod_cast value_lt rs
    have hsum : (number (rs.length + 1) (xs ++ [x])).toInt +
        (number (rs.length + 1) (ys ++ [y])).toInt =
        value rs + 2 ^ (32 * rs.length) * (x.toInt + y.toInt + k.toNat) := by
      have hR' : (value rs : Int) + 2 ^ (32 * rs.length) * k.toNat = value xs + value ys := by
        exact_mod_cast hR
      rw [toInt_number_concat (by decide) hx, toInt_number_concat (by decide) hy]
      linear_combination -hR'
    rw [hf, (aluAdd_exact fl x y c hc).2, overflow_top hsum (Int.natCast_nonneg _) hlt]
    rfl

/-- The difference of two whole numbers at the weight of the highest word. -/
theorem signed_difference (hR : SubsTo xs ys rs k.toNat) (hx : xs.length = rs.length)
    (hy : ys.length = rs.length) (x y : Word) :
    (number (rs.length + 1) (xs ++ [x])).toInt - (number (rs.length + 1) (ys ++ [y])).toInt =
      value rs + 2 ^ (32 * rs.length) * (x.toInt - y.toInt - k.toNat) := by
  have hR' : (value rs : Int) + value ys = value xs + 2 ^ (32 * rs.length) * k.toNat := by
    exact_mod_cast hR
  rw [toInt_number_concat (by decide) hx, toInt_number_concat (by decide) hy]
  linear_combination -hR'

theorem Top.sub_overflow (h : Top SubsTo aluSub xs ys rs s') (hn : xs.length = n) :
    flagSet s'.cpu.flags flagV = (number n xs).ssubOverflow (number n ys) ∧
      (flagSet s'.cpu.flags flagS != flagSet s'.cpu.flags flagV) =
        (number n xs).slt (number n ys) := by
  cases h with
  | @mk xs ys rs x y c fl k _ hx hy hR hc hf =>
    obtain rfl : n = rs.length + 1 := by simpa [hx] using hn.symm
    have hlt : (value rs : Int) < 2 ^ (32 * rs.length) := by exact_mod_cast value_lt rs
    have hdiff := signed_difference hR hx hy x y
    obtain ⟨-, hV, hS⟩ := aluSub_exact fl x y c hc
    constructor
    · rw [hf, hV, overflow_top hdiff (Int.natCast_nonneg _) hlt]
      rfl
    · rw [hf, hS, BitVec.slt_eq_decide, decide_eq_decide]
      have hneg := signed_lt_iff (t := x.toInt - y.toInt - k.toNat) (k := 0)
        (Int.natCast_nonneg (value rs)) hlt
      rw [← hneg, ← hdiff]
      omega

/-- A branch that completes goes where its condition says. -/
theorem Executes.branch (h : Executes e s s') (hop : Opcode.ofByte (e.b 0) = some op)
    (hb : op = .opBlo ∨ op = .opBhs ∨ op = .opBlt ∨ op = .opBge) :
    s'.cpu.pc = s.cpu.pc + BitVec.ofNat 32 e.length +
      (if cond op s.cpu.flags then e.w32 2 else 0) := by
  obtain ⟨t, u, ht, hpc, hx, -, hu⟩ := h.spec
  have hd : executeInstruction e = opBranchM op e := by
    rcases hb with rfl | rfl | rfl | rfl <;> exact executeInstruction_dispatch hop rfl rfl
  rw [hd] at hx
  have hbr : opBranchM op e t =
      (if cond op t.cpu.flags then jumpRel (e.w32 2) else pure ()) t := rfl
  rw [hbr, ht.flags] at hx
  rw [hu, ← hpc]
  by_cases hc : cond op s.cpu.flags = true
  · rw [if_pos hc] at hx ⊢
    cases hx
    rfl
  · rw [if_neg hc] at hx ⊢
    cases hx
    exact (BitVec.add_zero _).symm

/-- **Arithmetic on many words.**  A chain of additions leaves the words of the
sum, its carry and its signed overflow; a chain of subtractions the words of the
difference, its borrow and its signed overflow, and the branches after it compare
the numbers. -/
theorem wide_exact {n : Nat} {s s' t : Machine} {xs ys rs : List Word} (hn : xs.length = n)
    (hm : Moves s' t) :
    (Chain adding s xs ys rs s' →
      number n rs = number n xs + number n ys ∧
      flagSet t.cpu.flags flagC = (number n xs).uaddOverflow (number n ys) ∧
      flagSet t.cpu.flags flagV = (number n xs).saddOverflow (number n ys)) ∧
    (Chain subtracting s xs ys rs s' →
      number n rs = number n xs - number n ys ∧
      flagSet t.cpu.flags flagC = (number n xs).ult (number n ys) ∧
      flagSet t.cpu.flags flagV = (number n xs).ssubOverflow (number n ys) ∧
      ∀ {e : DEnt} {u : Machine}, Executes e t u →
        (Opcode.ofByte (e.b 0) = some .opBlo → u.cpu.pc = t.cpu.pc + BitVec.ofNat 32 e.length +
          if (number n xs).ult (number n ys) then e.w32 2 else 0) ∧
        (Opcode.ofByte (e.b 0) = some .opBhs → u.cpu.pc = t.cpu.pc + BitVec.ofNat 32 e.length +
          if (number n xs).ult (number n ys) then 0 else e.w32 2) ∧
        (Opcode.ofByte (e.b 0) = some .opBlt → u.cpu.pc = t.cpu.pc + BitVec.ofNat 32 e.length +
          if (number n xs).slt (number n ys) then e.w32 2 else 0) ∧
        (Opcode.ofByte (e.b 0) = some .opBge → u.cpu.pc = t.cpu.pc + BitVec.ofNat 32 e.length +
          if (number n xs).slt (number n ys) then 0 else e.w32 2)) := by
  rw [hm.flags]
  constructor
  · intro h
    obtain ⟨hy, hr⟩ := h.length
    have htop := h.top adding_computes addsTo_nil Top.adds
    obtain ⟨hnum, hC⟩ := htop.adds.number hn (hy.trans hn) (hr.trans hn)
    exact ⟨hnum, hC, htop.add_overflow hn⟩
  · intro h
    obtain ⟨hy, hr⟩ := h.length
    have htop := h.top subtracting_computes subsTo_nil Top.subs
    obtain ⟨hnum, hC⟩ := htop.subs.number hn (hy.trans hn) (hr.trans hn)
    obtain ⟨hV, hS⟩ := htop.sub_overflow hn
    refine ⟨hnum, hC, hV, fun {e u} he => ?_⟩
    have hlo : cond .opBlo t.cpu.flags = (number n xs).ult (number n ys) := hm.flags ▸ hC
    have hlt : cond .opBlt t.cpu.flags = (number n xs).slt (number n ys) := hm.flags ▸ hS
    have hhs : cond .opBhs t.cpu.flags = !(number n xs).ult (number n ys) := hlo ▸ rfl
    have hge : cond .opBge t.cpu.flags = !(number n xs).slt (number n ys) := by
      rw [← hlt]
      exact (Bool.not_not _).symm
    refine ⟨fun hop => ?_, fun hop => ?_, fun hop => ?_, fun hop => ?_⟩
    · rw [he.branch hop (by simp), hlo]
    · rw [he.branch hop (by simp), hhs]
      cases (number n xs).ult (number n ys) <;> rfl
    · rw [he.branch hop (by simp), hlt]
    · rw [he.branch hop (by simp), hge]
      cases (number n xs).slt (number n ys) <;> rfl

/-- The machine with a program and the numbers `0x5_FFFFFFFF` and `0x7_00000001`
in the register pairs `R2:R0` and `R3:R1`. -/
def twoWords (program : List Byte) : Machine :=
  let s := loadProgram program (cpuInitSize bareConfig bareHost)
  { s with cpu := { s.cpu with regs := fun r =>
      if r = 0 then 0xFFFFFFFF else if r = 1 then 1 else if r = 2 then 5 else if r = 3 then 7
      else 0x1000 } }

/-- The state after the next step. -/
def stepped (s : Machine) : Machine := endState (stepOne s)

/-- Whether the next step fetches `e` and completes it. -/
def completes (e : DEnt) (s : Machine) : Bool :=
  fetched s == some e && match stepOne s with
    | .ok _ _ => true
    | .error _ _ => false

theorem executes_of_completes (h : completes e s = true) : Executes e s (stepped s) := by
  unfold completes at h
  rw [Bool.and_eq_true, beq_iff_eq] at h
  refine ⟨h.1, ?_⟩
  have hok := h.2
  unfold stepped
  cases hr : stepOne s with
  | ok a t => rfl
  | error x t =>
    rw [hr] at hok
    cases hok

/-- A chain over two words with the lower word of the result stored in between. -/
theorem chain_two (ops : ChainOps) (s : Machine) (lo hi : DEnt)
    (hlo : Opcode.ofByte (lo.b 0) = some ops.low) (hhi : Opcode.ofByte (hi.b 0) = some ops.high)
    (h : (completes lo s && completes [0x75, 0x04, 0, 0, 0, 0] (stepped s) &&
      completes hi (stepped (stepped s))) = true) :
    Chain ops s ([s.cpu.regs lo.dst] ++ [(stepped (stepped s)).cpu.regs hi.dst])
      ([s.cpu.regs lo.src] ++ [(stepped (stepped s)).cpu.regs hi.src])
      ([(stepped s).cpu.regs lo.dst] ++ [(stepped (stepped (stepped s))).cpu.regs hi.dst])
      (stepped (stepped (stepped s))) := by
  simp only [Bool.and_eq_true] at h
  refine .next (.first (.refl _) (executes_of_completes h.1.1) hlo) ?_
    (executes_of_completes h.2) hhi
  exact @Moves.step _ _ _ _ .opStw (.refl _) (executes_of_completes h.1.2) (by decide) rfl

/-- `ADD32R R0, R1`, `STW R0, [R4]` and `ADC R2, R3`. -/
def addWords : List Byte := [0x89, 0x01, 0x75, 0x04, 0, 0, 0, 0, 0x55, 0x23]

/-- `SUB32R R0, R1`, `STW R0, [R4]`, `SBB R2, R3` and `BLT`. -/
def subWords : List Byte :=
  [0x8A, 0x01, 0x75, 0x04, 0, 0, 0, 0, 0x56, 0x23, 0x47, 0, 8, 0, 0, 0]

/-- `0x5_FFFFFFFF + 0x7_00000001` and `0x5_FFFFFFFF - 0x7_00000001`, with the lower
word stored in between and `BLT` after the subtraction. -/
theorem wide_exact_two :
    number 2 [(0 : Word), 13] = number 2 [(0xFFFFFFFF : Word), 5] + number 2 [(1 : Word), 7] ∧
    number 2 [(0xFFFFFFFE : Word), 0xFFFFFFFE] =
      number 2 [(0xFFFFFFFF : Word), 5] - number 2 [(1 : Word), 7] ∧
    ∃ t u, Executes [0x47, 0, 8, 0, 0, 0] t u ∧ u.cpu.pc = t.cpu.pc + 14 := by
  have hadd : Chain adding (twoWords addWords) [0xFFFFFFFF, 5] [1, 7] [0, 13]
      (stepped (stepped (stepped (twoWords addWords)))) :=
    chain_two adding (twoWords addWords) [0x89, 0x01] [0x55, 0x23] (by decide) (by decide)
      (by decide +kernel)
  have hsub : Chain subtracting (twoWords subWords) [0xFFFFFFFF, 5] [1, 7] [0xFFFFFFFE, 0xFFFFFFFE]
      (stepped (stepped (stepped (twoWords subWords)))) :=
    chain_two subtracting (twoWords subWords) [0x8A, 0x01] [0x56, 0x23] (by decide) (by decide)
      (by decide +kernel)
  have hbr : Executes [0x47, 0, 8, 0, 0, 0] (stepped (stepped (stepped (twoWords subWords))))
      (stepped (stepped (stepped (stepped (twoWords subWords))))) :=
    executes_of_completes (by decide +kernel)
  have hlen : [(0xFFFFFFFF : Word), 5].length = 2 := rfl
  obtain ⟨hdiff, -, -, hb⟩ := (wide_exact hlen (.refl _)).2 hsub
  refine ⟨((wide_exact hlen (.refl _)).1 hadd).1, hdiff, _, _, hbr, ?_⟩
  rw [(hb hbr).2.2.1 (by decide)]
  have hslt : (number 2 [(0xFFFFFFFF : Word), 5]).slt (number 2 [(1 : Word), 7]) = true := by
    decide +kernel
  rw [hslt, BitVec.add_assoc]
  rfl

end Tortoise.Emu
