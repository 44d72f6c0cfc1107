import Tortoise.Lib.Routine
import Tortoise.Emu.DevFrame

/-!
# What holds of the actions holds of every instruction

`Graded` says what holds of the parts of an instruction, before its commit, up to
it and behind it; `Graded.dispatch` concludes what holds of the whole, by one case
for each opcode.  `Actions G` has one grade only: the predicate `G`, which
sequencing preserves, holds of each action from which `execute_instruction` is
built, and so of every instruction (`Actions.executeInstruction`).  `MemActions` does
the same one level below, for virtual accesses and the exception entry under a given fault handler.
-/

namespace Tortoise.Emu

open Lib
open Sequenced (branch)

/-! ## The walk of the page tables -/

section Walk

variable {F : Fault} {G : ∀ {α : Type}, M α → Prop} {va : Word} {acc : Acc} {user : Bool}
  (hs : Sequenced (fun {_} x => G x)) (hphys : ∀ pa n, G (physRead F pa n))
  (hwrite : ∀ pa v, G (physWrite F pa v 4))
  (hfault : ∀ present, G (pageFault F va acc user present : M Word))

include hs hphys hwrite hfault

/-- What holds of physical accesses, page faults and the refill holds of a miss. -/
theorem pgMiss_of
    (hread : ∀ {f : Machine → M Word}, (∀ s, f s.erase = f s) → (∀ s, G (f s)) → G (get >>= f))
    (hfill : ∀ pte pa, G (modify fun s => setTlb (pageNum va) ⟨s.tlbGen, pte, pa⟩ s)) :
    G (pgMiss F va acc user) := by
  refine hread (fun _ => rfl) fun s => hs.bind (hphys _ _) fun pde => ?_
  refine branch (hfault _) (hs.bind (hphys _ _) fun pte => ?_)
  refine branch (hfault _) (branch (hfault _) ?_)
  have hrest : G (do
      modify fun s => setTlb (pageNum va) ⟨s.tlbGen, touch pte acc, pteAddr pde va⟩ s
      pure (pageOf (touch pte acc) ||| pageOff va)) :=
    hs.bind (hfill _ _) fun _ => hs.pure _
  exact branch (hs.bind (hwrite _ _) fun _ => hrest) hrest

/-- What holds of physical accesses, page faults and the marking of an entry holds of a hit. -/
theorem pgHit_of {e : TlbEnt}
    (hmark : G (modify (setTlb (pageNum va) { e with pte := e.pte ||| pteD }))) :
    G (pgHit F va acc user e) := by
  refine branch (hfault _) (branch ?_ (hs.pure _))
  exact hs.bind hmark fun _ => hs.bind (hphys _ _) fun _ => hs.bind (hwrite _ _) fun _ => hs.pure _

end Walk

/-! ## Memory accesses and exception entry -/

/-- `G` is preserved by sequencing, holds of the primitive memory accesses under
the fault handler `F` and may look at any part of the state but the
decoded-instruction cache. -/
structure MemActions (F : Fault) (G : ∀ {α : Type}, M α → Prop) : Prop extends Sequenced G where
  read : ∀ {α : Type} {f : Machine → M α}, (∀ s, f s.erase = f s) → (∀ s, G (f s)) →
    G (get >>= f)
  physRead : ∀ pa n, G (physRead F pa n)
  physWrite : ∀ pa v n, n ≤ 4 → G (physWrite F pa v n)
  translate : ∀ va acc user, G (translate F va acc user)

namespace MemActions

variable {F : Fault} {G : ∀ {α : Type}, M α → Prop}

/-- Translation is made of physical accesses, faults at an address and updates of the TLB. -/
theorem of_phys (hs : Sequenced (fun {_} x => G x))
    (hread : ∀ {α : Type} {f : Machine → M α}, (∀ s, f s.erase = f s) → (∀ s, G (f s)) →
      G (get >>= f)) (hphys : ∀ pa n, G (Emu.physRead F pa n))
    (hwrite : ∀ pa v n, n ≤ 4 → G (Emu.physWrite F pa v n))
    (hfault : ∀ va vec code, vec = vecPf ∨ vec = vecGp →
      G (fun s => raise F vec code (s.setCr crFaddr va) : M Word))
    (htlb : ∀ p (f : Machine → TlbEnt), (∀ s, f s.erase = f s) →
      G (modify fun s => setTlb p (f s) s)) : MemActions F (fun {_} x => G x) where
  toSequenced := hs
  read := hread
  physRead := hphys
  physWrite := hwrite
  translate va acc user := by
    have hpage (present : Bool) : G (pageFault F va acc user present : M Word) :=
      hfault va vecPf _ (.inl rfl)
    have hwrite (pa v : Word) : G (Emu.physWrite F pa v 4) := hwrite pa v 4 le_rfl
    refine hread (fun _ => rfl) fun s => branch (hs.pure _) (branch ?_ ?_)
    · refine hread (fun _ => rfl) fun s => branch ?_ ?_
      · exact pgMiss_of hs hphys hwrite hpage hread fun _ _ => htlb _ _ fun _ => rfl
      · exact pgHit_of hs hphys hwrite hpage (htlb _ (fun _ => _) fun _ => rfl)
    · exact branch (branch (hfault va vecGp 0 (.inr rfl)) (hs.pure _)) (hs.pure _)

variable (h : MemActions F G)

include h

theorem translateBytes (va : Word) (acc : Acc) (user : Bool) (n i : Nat) :
    G (translateBytes F va acc user n i) := by
  induction n generalizing i with
  | zero => exact h.pure _
  | succ n ih =>
    exact h.bind (h.translate _ _ _) fun _ => h.bind (ih _) fun _ => h.pure _

theorem physReadBytes (ps : List Word) (i : Nat) : G (physReadBytes F ps i) := by
  induction ps generalizing i with
  | nil => exact h.pure _
  | cons p ps ih => exact h.bind (h.physRead _ _) fun _ => h.bind (ih _) fun _ => h.pure _

theorem physWriteBytes (v : Word) (ps : List Word) (i : Nat) : G (physWriteBytes F v ps i) := by
  induction ps generalizing i with
  | nil => exact h.pure _
  | cons p ps ih => exact h.bind (h.physWrite _ _ _ (by decide)) fun _ => ih _

theorem vmRead (va : Word) (n : Nat) (user : Bool) : G (vmRead F va n user) := by
  refine h.read (fun _ => rfl) fun s => branch (h.physRead _ _) (branch ?_ ?_)
  · exact h.bind (h.translateBytes _ _ _ _ _) fun _ =>
      branch (h.physRead _ _) (h.physReadBytes _ _)
  · exact h.bind (h.translate _ _ _) fun _ => h.physRead _ _

theorem vmWrite (va v : Word) (n : Nat) (user : Bool) (hn : n ≤ 4) : G (vmWrite F va v n user) := by
  refine h.read (fun _ => rfl) fun s => branch (h.physWrite _ _ _ hn) (branch ?_ ?_)
  · exact h.bind (h.translateBytes _ _ _ _ _) fun _ =>
      branch (h.physWrite _ _ _ hn) (h.physWriteBytes _ _ _)
  · exact h.bind (h.translate _ _ _) fun _ => h.physWrite _ _ _ hn

theorem entryStack : G (entryStack F) := by
  refine h.read (fun _ => rfl) fun s => branch ?_ (h.pure _)
  exact h.bind (h.vmWrite _ _ _ _ le_rfl) fun _ => h.pure _

theorem enter (hr : ∀ vec code sp v, G (modify (entryRegs vec code sp v)))
    (vec savepc code : Word) : G (enter F vec savepc code) := by
  refine h.read (fun _ => rfl) fun s => h.bind h.entryStack fun sp => ?_
  refine h.bind (h.vmWrite _ _ _ _ le_rfl) fun _ => h.bind (h.vmWrite _ _ _ _ le_rfl) fun _ => ?_
  exact h.read (fun _ => rfl) fun t => h.bind (h.vmRead _ _ _) fun v => hr _ _ _ _

end MemActions

/-! ## What accesses and the exception entry go along -/

/-- A physical read returns after actions of the devices, or ends in a bus error. -/
theorem physRead_ends (F : Fault) (pa : Word) (n : Nat) (s : Machine) :
    Ends (physRead F pa n) (fun _ t => Dma s t) (fun _ t => t = busState F pa s) s := by
  rcases physRead_cases F pa n s with ⟨v, h⟩ | ⟨v, t, hd, h⟩ | h
  · exact (ends_of_ok h).2 (.refl s)
  · exact (ends_of_ok h).2 (devRead_dma hd)
  · exact (ends_of_error h).2 rfl

theorem physWrite_ends (F : Fault) (pa v : Word) {n : Nat} (hn : n ≤ 4) (s : Machine) :
    Ends (physWrite F pa v n) (fun _ t => Dma s t) (fun _ t => t = busState F pa s) s := by
  rcases physWrite_cases F pa v n s with ⟨hr, h⟩ | ⟨t, hd, h⟩ | h
  · exact (ends_of_ok h).2 (ramWrite_dma hn hr)
  · exact (ends_of_ok h).2 (devWrite_dma hd)
  · exact (ends_of_error h).2 rfl

/-- A reflexive and transitive relation that physical accesses go along. -/
structure BusSteps (R : Machine → Machine → Prop) : Prop where
  refl : ∀ s, R s s
  trans : ∀ {s t u}, R s t → R t u → R s u
  devRead : ∀ {pa s r}, devRead pa s = some r → R s r.2
  devWrite : ∀ {pa v s t}, devWrite pa v s = some t → R s t
  ramWrite : ∀ {pa v n s}, n ≤ 4 → inRam s pa n = true → R s (ramWrite pa v n s)
  faddr : ∀ va s, R s (s.setCr crFaddr va)
  stop : ∀ n s, R s (cpuStop n s)

namespace BusSteps

variable {R : Machine → Machine → Prop} (h : BusSteps R)

include h

theorem sequenced : Sequenced (fun {_} (x : M _) => Follows R x) := Follows.sequenced h.refl h.trans

variable {F : Fault} (hF : ∀ vec code s, R s (F vec code s))

include hF

theorem busState (a : Word) (s : Machine) : R s (busState F a s) := by
  unfold Emu.busState
  split
  · exact h.trans (h.faddr a s) (hF _ _ _)
  · exact h.stop exitInvalid s

theorem physRead (pa : Word) (n : Nat) : Follows R (physRead F pa n) := by
  intro s
  rcases physRead_cases F pa n s with ⟨v, hr⟩ | ⟨v, s', hd, hr⟩ | hr
  · rw [hr]
    exact h.refl s
  · rw [hr]
    exact h.devRead hd
  · rw [hr]
    exact h.busState hF pa s

theorem physWrite (pa v : Word) (n : Nat) (hn : n ≤ 4) : Follows R (physWrite F pa v n) := by
  intro s
  rcases physWrite_cases F pa v n s with ⟨hram, hr⟩ | ⟨s', hd, hr⟩ | hr
  · rw [hr]
    exact h.ramWrite hn hram
  · rw [hr]
    exact h.devWrite hd
  · rw [hr]
    exact h.busState hF pa s

/-- A fault that leaves its address in the control register. -/
theorem faultAt {α : Type} (va vec code : Word) :
    Follows R (fun s => raise F vec code (s.setCr crFaddr va) : M α) :=
  fun s => h.trans (h.faddr va s) (hF _ _ _)

end BusSteps

/-- A relation that the exception entry goes along as well. -/
structure EntrySteps (R : Machine → Machine → Prop) : Prop extends BusSteps R where
  translate : ∀ {F : Fault}, (∀ vec code s, R s (F vec code s)) →
    ∀ va acc user, Follows R (translate F va acc user)
  entryRegs : ∀ vec code sp v s, R s (entryRegs vec code sp v s)
  depth : ∀ d s, R s (setDepth d s)
  back : ∀ s, R s { s with cpu := { s.cpu with pc := s.cpu.instPc } }

namespace EntrySteps

variable {R : Machine → Machine → Prop} (h : EntrySteps R)

include h

theorem memActions {F : Fault} (hF : ∀ vec code s, R s (F vec code s)) :
    MemActions F (fun {_} x => Follows R x) where
  toSequenced := h.sequenced
  read _ hf s := hf s s
  physRead := h.physRead hF
  physWrite := h.physWrite hF
  translate := h.translate hF

theorem enter {F : Fault} (hF : ∀ vec code s, R s (F vec code s)) (vec savepc code : Word) :
    Follows R (enter F vec savepc code) :=
  (h.memActions hF).enter (fun vec code sp v s => h.entryRegs vec code sp v s) vec savepc code

/-- The entries made from inside `cpu_fault`. -/
theorem enterFault {F : Fault} (hF : ∀ vec code s, R s (F vec code s)) (vec code : Word)
    (s : Machine) : R s (enterFault F vec code s) := by
  have he := h.enter hF vec s.cpu.instPc code s
  unfold Emu.enterFault
  cases hr : Emu.enter F vec s.cpu.instPc code s with
  | ok a t =>
    rw [hr] at he
    exact h.trans he (h.depth 0 t)
  | error e t =>
    rw [hr] at he
    exact he

theorem cpuFaultN (n : Nat) (vec code : Word) (s : Machine) : R s (cpuFaultN n vec code s) := by
  have htriple (s : Machine) : R s (tripleFault s) := h.trans (h.stop exitTriple s) (h.depth 0 _)
  induction n generalizing vec code s with
  | zero => exact h.trans (h.back s) (htriple _)
  | succ n ih =>
    refine h.trans (h.back s) ?_
    unfold Emu.cpuFaultN
    simp only
    split
    · exact h.trans (h.depth 1 _) (h.enterFault ih vec code _)
    · exact h.trans (h.depth 2 _) (h.enterFault ih vecDf 0 _)
    · exact htriple _

theorem memRead (va : Word) (n : Nat) : Follows R (memRead va n) :=
  fun s => branch (G := fun {_} x => Follows R x) (h.sequenced.pure _)
    ((h.memActions (h.cpuFaultN 2)).vmRead _ _ _) s

theorem memWrite (va v : Word) (n : Nat) (hn : n ≤ 4) : Follows R (memWrite va v n) :=
  fun s => (h.memActions (h.cpuFaultN 2)).vmWrite _ _ _ _ hn s

theorem cpuDeliver (vec savepc code : Word) : Follows R (cpuDeliver vec savepc code) := by
  have hs := h.sequenced
  refine fun s => branch (G := fun {_} x => Follows R x) ?_ ?_ s
  · exact fun s => h.cpuFaultN 2 vec code s
  · exact hs.bind (h.depth 1) fun _ => hs.bind (h.enter (h.cpuFaultN 2) _ _ _) fun _ => h.depth 0

end EntrySteps

/-! ## Instructions -/

/-- What holds of reads, of register changes and of the change of the flags word holds of the
return from an entry. -/
theorem extIret_of {G : ∀ {α : Type}, M α → Prop} (hs : Sequenced (fun {_} x => G x))
    (hcpu : ∀ {α : Type} (f : Cpu → α), G (getCpu f)) (hread : ∀ va n, G (memRead va n))
    (hpc : ∀ v, G (setPc v)) (hsp : ∀ v, G (setSp v)) (hflags : ∀ f, G (setFlagsWord f)) :
    G extIret :=
  hs.bind (hcpu _) fun _ => hs.bind (hread _ _) fun _ => hs.bind (hread _ _) fun _ =>
    hs.bind (branch (hread _ _) (hs.pure _)) fun _ => hs.bind (hpc _) fun _ =>
      hs.bind (hflags _) fun _ => hsp _

/-- The parts of loads, stores and moves come in grades: `S` may stand before the instruction
commits, `C` reaches as far as the commit, and `P` may follow it.  `old` says whether the 16-bit
machine counts as well. -/
structure Moving (old : Prop) (S C P : ∀ {α : Type}, M α → Prop) : Prop where
  last : Sequenced (fun {_} x => P x)
  seq : ∀ {α β : Type} {x : M α} {f : α → M β}, S x → (∀ a, C (f a)) → C (x >>= f)
  commit : ∀ {α : Type} {x : M α}, P x → C x
  ext : ∀ {α : Type} {x y : M α}, C x → (old → C y) → C (extM >>= fun b => if b then x else y)
  getCpu : ∀ {α : Type} (f : Cpu → α), S (getCpu f) ∧ P (getCpu f)
  setReg : ∀ r v, P (setReg r v)
  memRead : ∀ va n, S (memRead va n)
  memWrite : ∀ va v n, n ≤ 4 → C (memWrite va v n)
  fault : ∀ {α : Type} {vec}, vec = vecDiv ∨ vec = vecUd ∨ vec = vecGp → C (fault vec 0 : M α)
  stop : ∀ {α : Type}, old → C (do stopM exitInvalid; cpuAbort : M α)

/-- The other parts of instructions; `E` is a whole instruction. -/
structure Graded (old : Prop) (S C P E : ∀ {α : Type}, M α → Prop) : Prop
    extends Moving old S C P where
  after : ∀ {α β : Type} {x : M α} {f : α → M β}, C x → (∀ a, P (f a)) → C (x >>= f)
  finish : ∀ {α : Type} {x : M α}, C x → E x
  setPc : ∀ v, P (setPc v)
  setSp : ∀ v, P (setSp v)
  setFlags : ∀ f, P (setFlags f)
  popFlags : ∀ v : Word, P (do
    let c ← Emu.getCpu fun c => (c.intEnabled, c.mode)
    let keep := (if c.1 then flagI else 0) ||| (if c.2 = .user then flagU else 0)
    setFlagsWord (if c.2 = .user then (v &&& ~~~(flagI ||| flagU)) ||| keep else v))
  interrupt : old → C (cpuInterrupt 0)
  trap : ∀ {vec : Word}, vec &&& 0xFF = vec → E (trap vec)
  opIntM : ∀ {v : Word}, v &&& 0xFF = v → E (opIntM v)
  opSyscallM : E opSyscallM
  mfcr : ∀ d n, C (do priv; let v ← Emu.getCpu fun c => c.cr n; Emu.setReg d v)
  mtcr : ∀ r n, C (do priv; let v ← getReg r; crWrite n v)
  opTlbflushM : C opTlbflushM
  invlpg : ∀ r, C (do priv; let v ← getReg r; modify (cpuInvlpg v))
  opWfiM : C opWfiM

/-- The vector of `OP_INT` is a byte. -/
theorem byte_and_low (b : Byte) : b.setWidth 32 &&& (0xFF : Word) = b.setWidth 32 := by
  apply BitVec.eq_of_toNat_eq
  have h8 : (b.setWidth 32 &&& (0xFF : Word)).toNat = (b.setWidth 32).toNat % 2 ^ 8 :=
    toNat_and_low _ 8 (by decide)
  rw [h8, BitVec.toNat_setWidth]
  omega

namespace Moving

variable {old : Prop} {S C P : ∀ {α : Type}, M α → Prop} (h : Moving old S C P)

include h

variable (x : Byte) (e : DEnt) (v : Word) (n : Nat)

theorem pure {α : Type} (a : α) : C (pure a : M α) := h.commit (h.last.pure a)

theorem onCpu {α β : Type} {f : Cpu → α} {k : α → M β} (hk : ∀ a, C (k a)) :
    C (Emu.getCpu f >>= k) :=
  h.seq (h.getCpu f).1 hk

theorem invalidOpcode {α : Type} : C (invalidOpcode : M α) :=
  h.ext (h.fault (.inr (.inl rfl))) h.stop

theorem withReg {k : BitVec 3 → M Unit} (hk : ∀ r, C (k r)) : C (withReg x k) :=
  branch (hk _) (h.pure _)

theorem needReg {k : BitVec 3 → M Unit} (hk : ∀ r, C (k r)) : C (needReg x k) :=
  branch h.invalidOpcode (hk _)

theorem withRegs {k : BitVec 3 → BitVec 3 → M Unit} (hk : ∀ d r, C (k d r)) : C (withRegs e k) :=
  h.withReg _ fun d => h.withReg _ fun r => hk d r

/-- Loads, stores and address computations: an operand check, then the access. -/
theorem memOperand {k : BitVec 3 → Word → M Unit} (hk : ∀ d a, C (k d a)) :
    C (Emu.needReg e.hi fun d => if 8 < e.lo then Emu.invalidOpcode
      else do
        let a ← baseReg e.lo
        k d a) := by
  refine h.needReg _ fun d => branch h.invalidOpcode (h.seq ?_ fun a => hk d a)
  exact branch (h.getCpu _).1 (h.getCpu _).1

theorem opBitRR (f : Word → Word → Word) : C (opBitRR e f) :=
  h.withRegs e fun _ _ => h.onCpu fun _ => h.onCpu fun _ => h.commit (h.setReg _ _)

theorem opLoadInd : C (opLoadInd e n) :=
  h.withRegs e fun _ _ => h.onCpu fun _ => h.seq (h.memRead _ _) fun _ => h.commit (h.setReg _ _)

theorem opStoreInd (hn : n ≤ 4) : C (opStoreInd e n) :=
  h.withRegs e fun _ _ => h.onCpu fun _ => h.onCpu fun _ => h.memWrite _ _ _ hn

theorem opLd (ext : Word → Word) : C (opLd e n ext) :=
  h.memOperand e fun _ _ => h.seq (h.memRead _ _) fun _ => h.commit (h.setReg _ _)

theorem opSt (hn : n ≤ 4) : C (opSt e n) :=
  h.memOperand e fun _ _ => h.onCpu fun _ => h.memWrite _ _ _ hn

theorem opLoadM : C (opLoadM x v) := h.withReg _ fun _ => h.commit (h.setReg _ _)

theorem opStoreM (a : Word) (n : Nat) (hn : n ≤ 4) : C (opStoreM x a n) :=
  h.withReg _ fun _ => h.onCpu fun _ => h.memWrite _ _ _ hn

theorem opLeaM : C (opLeaM e) := h.memOperand e fun _ _ => h.commit (h.setReg _ _)

end Moving

namespace Graded

variable {old : Prop} {S C P E : ∀ {α : Type}, M α → Prop} (h : Graded old S C P E)

include h

variable (x : Byte) (op : Opcode) (e : DEnt) (v : Word) (n : Nat) (f : Word → Word → Byte × Word)

/-! ## Parts of instructions -/

theorem setRes (r : BitVec 3) (p : Byte × Word) : C (setRes r p) :=
  h.commit (h.last.bind (h.setFlags _) fun _ => h.setReg _ _)

theorem jumpRel (d : Word) : P (jumpRel d) :=
  h.last.bind (h.getCpu _).2 fun _ => h.setPc _

theorem pushWord : C (pushWord v) :=
  h.onCpu fun _ => h.after (h.memWrite _ _ _ (by decide)) fun _ => h.setSp _

theorem popWord : C popWord :=
  h.onCpu fun _ => h.seq (h.memRead _ _) fun _ =>
    h.after (h.commit (h.setSp _)) fun _ => h.last.pure _

theorem push32 : C (push32 v) :=
  h.onCpu fun _ => h.after (h.memWrite _ _ _ (by decide)) fun _ => h.setSp _

theorem pop32 : C pop32 :=
  h.onCpu fun _ => h.seq (h.memRead _ _) fun _ =>
    h.after (h.commit (h.setSp _)) fun _ => h.last.pure _

theorem pushPc : C pushPc := h.onCpu fun _ => h.push32 _

theorem divError : C divError := h.ext (h.fault (.inl rfl)) h.interrupt

/-! ## Families -/

theorem opImm : C (opImm x v f) := h.withReg _ fun _ => h.onCpu fun _ => h.setRes _ _

theorem opCmpImm : C (opCmpImm x v f) :=
  h.withReg _ fun _ => h.onCpu fun _ => h.commit (h.setFlags _)

theorem opBitImm (f : Word → Word → Word) : C (opBitImm x v f) :=
  h.withReg _ fun _ => h.onCpu fun _ => h.commit (h.setReg _ _)

theorem opRR : C (opRR e f) :=
  h.withRegs e fun _ _ => h.onCpu fun _ => h.onCpu fun _ => h.setRes _ _

theorem opJumpIf (p : Byte → Bool) (addr : Word) : C (opJumpIf p addr) :=
  h.onCpu fun _ => branch (h.commit (h.setPc _)) (h.pure _)

theorem opBranchM : C (opBranchM op e) :=
  h.onCpu fun _ => branch (h.commit (h.jumpRel _)) (h.pure _)

theorem aluOp (o : AluOp) (d : BitVec 3) (b : Word) : C (o.run d b) := by
  cases o with
  | res f => exact h.onCpu fun _ => h.onCpu fun _ => h.setRes _ _
  | test f => exact h.onCpu fun _ => h.onCpu fun _ => h.commit (h.setFlags _)
  | div k => exact h.onCpu fun _ => branch h.divError (h.onCpu fun _ => h.setRes _ _)

theorem aluRR : C (aluRR op e) :=
  h.needReg _ fun _ => h.needReg _ fun _ => h.onCpu fun _ => h.aluOp _ _ _

theorem aluRI : C (aluRI op e) := h.needReg _ fun _ => h.aluOp _ _ _

theorem opGetM (f : Cpu → Word) : C (opGetM e f) :=
  h.needReg _ fun _ => h.onCpu fun _ => h.commit (h.setReg _ _)

theorem opJzM : C (opJzM e) :=
  h.withReg _ fun _ => h.onCpu fun v =>
    branch (c := v = 0) (h.commit (h.setPc _)) (h.pure _)

theorem opCallM : C (opCallM e) := h.onCpu fun _ => h.after (h.pushWord _) fun _ => h.setPc _

theorem opRetM : C opRetM := h.after h.popWord fun _ => h.setPc _

theorem opCmpRR : C (opCmpRR e) :=
  h.withRegs e fun _ _ => h.onCpu fun _ => h.onCpu fun _ => h.commit (h.setFlags _)

theorem opPushM : C (opPushM e) := h.withReg _ fun _ => h.onCpu fun _ => h.pushWord _

theorem opPopM : C (opPopM e) :=
  h.withReg _ fun _ => h.after h.popWord fun _ => h.setReg _ _

theorem opJmprM : C (opJmprM e) := h.needReg _ fun _ => h.onCpu fun _ => h.commit (h.setPc _)

theorem opCallrM : C (opCallrM e) :=
  h.needReg _ fun _ => h.onCpu fun _ => h.after h.pushPc fun _ => h.setPc _

theorem opCallrelM : C (opCallrelM e) := h.after h.pushPc fun _ => h.jumpRel _

theorem opCall32M : C (opCall32M e) := h.after h.pushPc fun _ => h.setPc _

theorem opNegM : C (opNegM e) := h.needReg _ fun _ => h.aluOp (.res _) _ _

theorem opSetspM : C (opSetspM e) := h.needReg _ fun _ => h.onCpu fun _ => h.commit (h.setSp _)

theorem opAddspM : C (opAddspM e) := h.onCpu fun _ => h.commit (h.setSp _)

theorem opMfcrM : C (opMfcrM e) := h.needReg _ fun _ => branch h.invalidOpcode (h.mfcr _ _)

theorem opMtcrM : C (opMtcrM e) := h.needReg _ fun _ => branch h.invalidOpcode (h.mtcr _ _)

theorem opInvlpgM : C (opInvlpgM e) := h.needReg _ h.invlpg

theorem opPushfM : C opPushfM := h.onCpu fun _ => h.push32 _

theorem opPopfM : C opPopfM := h.after h.pop32 h.popFlags

theorem opRet32M : C opRet32M := h.after h.pop32 fun _ => h.setPc _

theorem opPush32M : C (opPush32M e) := h.needReg _ fun _ => h.onCpu fun _ => h.push32 _

theorem opPop32M : C (opPop32M e) :=
  h.needReg _ fun _ => h.after h.pop32 fun _ => h.setReg _ _

/-! ## Dispatch -/

/-- The `switch`, but for the instructions only the supervisor may execute and the divisions of the
16-bit machine. -/
theorem dispatch (hp : op.privileged = false)
    (hd : op = .opDiv ∨ op = .opDiv32 ∨ op = .opDivReg → E (dispatch op e)) :
    E (dispatch op e) := by
  cases op
  case opIn | opOut | opIret | opCli | opSti | opSysret | opHalt => cases hp
  case opDiv | opDiv32 | opDivReg => exact hd (by simp)
  case opInt => exact h.opIntM (byte_and_low _)
  case opBrk => exact h.trap (by decide)
  case opSyscall => exact h.opSyscallM
  all_goals apply h.finish
  case opNop => exact h.pure _
  case opLoad | opLoad32 => exact h.opLoadM _ _
  case opAdd | opSub | opShl | opShr | opMul | opAdd32 | opSub32 | opMul32 | opShl32 | opShr32 =>
    exact h.opImm _ _ _
  case opCmp | opCmp32 => exact h.opCmpImm _ _ _
  case opAnd | opOr | opXor | opNot | opAnd32 | opOr32 | opXor32 => exact h.opBitImm _ _ _
  case opStore | opStore32 => exact h.opStoreM _ _ _ (by decide)
  case opJmp | opJmp32 => exact h.commit (h.setPc _)
  case opJz => exact h.opJzM e
  case opCall => exact h.opCallM e
  case opRet => exact h.opRetM
  case opJc | opJn | opJo | opJnz => exact h.opJumpIf _ _
  case opMov | opAndReg | opOrReg | opXorReg => exact h.opBitRR e _
  case opAddReg | opSubReg | opMulReg => exact h.opRR e _
  case opCmpReg => exact h.opCmpRR e
  case opPush => exact h.opPushM e
  case opPop => exact h.opPopM e
  case opLoadIndir | opLoad32Indir => exact h.opLoadInd e _
  case opStoreIndir | opStore32Indir => exact h.opStoreInd e _ (by decide)
  case opJmpr => exact h.opJmprM e
  case opCallr => exact h.opCallrM e
  case opJmprel => exact h.commit (h.jumpRel _)
  case opCallrel => exact h.opCallrelM e
  case opCall32 => exact h.opCall32M e
  case opBeq | opBne | opBlt | opBge | opBle | opBgt | opBlo | opBhs | opBls | opBhi | opBmi
      | opBpl | opBvs | opBvc =>
    exact h.opBranchM _ e
  case opNeg => exact h.opNegM e
  case opSar | opRol | opRor | opAdci | opSbbi | opImuli | opIdivi | opUmodi | opImodi | opTesti =>
    exact h.aluRI _ e
  case opLdb | opLdbs | opLdh | opLdhs | opLdw => exact h.opLd e _ _
  case opLea => exact h.opLeaM e
  case opStb | opSth | opStw => exact h.opSt e _ (by decide)
  case opLeapc | opMovsp | opCpuid | opRdcyc => exact h.opGetM e _
  case opSetsp => exact h.opSetspM e
  case opAddsp => exact h.opAddspM e
  case opMfcr => exact h.opMfcrM e
  case opMtcr => exact h.opMtcrM e
  case opTlbflush => exact h.opTlbflushM
  case opInvlpg => exact h.opInvlpgM e
  case opWfi => exact h.opWfiM
  case opPushf => exact h.opPushfM
  case opPopf => exact h.opPopfM
  case opRet32 => exact h.opRet32M
  case opPush32 => exact h.opPush32M e
  case opPop32 => exact h.opPop32M e
  all_goals exact h.aluRR _ e

end Graded

/-- `G` is preserved by sequencing and holds of the actions of instructions. -/
structure Actions (G : ∀ {α : Type}, M α → Prop) : Prop extends Sequenced G where
  getCpu : ∀ {α : Type} (f : Cpu → α), G (getCpu f)
  setReg : ∀ r v, G (setReg r v)
  setPc : ∀ v, G (setPc v)
  setSp : ∀ v, G (setSp v)
  setFlags : ∀ f, G (setFlags f)
  setIntEnabled : ∀ b, G (setIntEnabled b)
  memRead : ∀ va n, G (memRead va n)
  memWrite : ∀ va v n, n ≤ 4 → G (memWrite va v n)
  fault : ∀ {α : Type} vec code, G (fault vec code : M α)
  stop : ∀ code, G (stopM code)
  abort : ∀ {α : Type}, G (cpuAbort : M α)
  cpuDeliver : ∀ vec savepc code, G (cpuDeliver vec savepc code)
  legacyMode : G legacyMode
  legacySyscallEntry : G legacySyscallEntry
  opSysretM : G opSysretM
  setFlagsWord : ∀ f, G (setFlagsWord f)
  crWrite : ∀ n v, G (crWrite n v)
  flush : G (modify cpuFlushTlb)
  invlpg : ∀ va, G (modify (cpuInvlpg va))
  cpuWfi : G cpuWfi
  haltCpu : G haltCpu
  portIn : ∀ port, G (portIn port)
  portOut : ∀ port v, G (portOut port v)

namespace Actions

variable {G : ∀ {α : Type}, M α → Prop} (h : Actions G)

include h

variable (x : Byte) (op : Opcode) (e : DEnt) (v : Word) (f : Word → Word → Byte × Word)

theorem onCpu {α β : Type} {f : Cpu → α} {k : α → M β} (hk : ∀ a, G (k a)) :
    G (Emu.getCpu f >>= k) :=
  h.bind (h.getCpu f) hk

theorem pushWord : G (pushWord v) :=
  h.onCpu fun _ => h.bind (h.memWrite _ _ _ (by decide)) fun _ => h.setSp _

theorem cpuInterrupt (vec : Word) : G (cpuInterrupt vec) :=
  h.onCpu fun _ => h.bind (h.pushWord _) fun _ => h.onCpu fun _ =>
    h.bind (h.pushWord _) fun _ => h.bind h.legacyMode fun _ => h.bind (h.memRead _ _) fun _ =>
      h.setPc _

theorem priv : G priv := h.onCpu fun _ => branch (h.fault _ _) (h.pure _)

/-- What holds of the actions is a grade of its own. -/
theorem graded : Graded True (fun {_} x => G x) (fun {_} x => G x) (fun {_} x => G x)
    (fun {_} x => G x) where
  last := h.toSequenced
  seq := h.bind
  after := h.bind
  commit := id
  finish := id
  ext hx hy := h.onCpu fun _ => branch hx (hy trivial)
  getCpu f := ⟨h.getCpu f, h.getCpu f⟩
  setReg := h.setReg
  setPc := h.setPc
  setSp := h.setSp
  setFlags := h.setFlags
  popFlags _ := h.onCpu fun _ => h.setFlagsWord _
  memRead := h.memRead
  memWrite := h.memWrite
  fault _ := h.fault _ _
  stop _ := h.bind (h.stop _) fun _ => h.abort
  interrupt _ := h.cpuInterrupt 0
  trap _ := h.onCpu fun _ => h.onCpu fun _ => branch (h.cpuDeliver _ _ _) (h.cpuInterrupt _)
  opIntM _ := h.onCpu fun _ => branch
    (h.onCpu fun _ => branch (h.fault _ _) (h.onCpu fun _ => h.cpuDeliver _ _ _))
    (h.cpuInterrupt _)
  opSyscallM := h.onCpu fun _ => branch (h.onCpu fun _ => h.cpuDeliver _ _ _)
    (h.bind h.legacySyscallEntry fun _ => h.bind (h.memRead _ _) fun _ => h.setPc _)
  mfcr _ _ := h.bind h.priv fun _ => h.onCpu fun _ => h.setReg _ _
  mtcr _ _ := h.bind h.priv fun _ => h.onCpu fun _ => h.crWrite _ _
  opTlbflushM := h.bind h.priv fun _ => h.flush
  invlpg _ := h.bind h.priv fun _ => h.onCpu fun _ => h.invlpg _
  opWfiM := h.bind h.priv fun _ => h.cpuWfi

theorem opDivImm : G (opDivImm x v f) :=
  h.graded.withReg _ fun _ => branch (h.cpuInterrupt _) (h.onCpu fun _ => h.graded.setRes _ _)

theorem opDivRR : G (opDivRR e) :=
  h.graded.withRegs e fun _ _ => h.onCpu fun _ => branch (h.cpuInterrupt _)
    (h.onCpu fun _ => h.graded.setRes _ _)

theorem opIretM : G opIretM := by
  have hpop := h.graded.popWord
  refine h.onCpu fun _ => branch ?_ (h.bind hpop fun _ => h.bind hpop fun _ => ?_)
  · exact extIret_of h.toSequenced h.getCpu h.memRead h.setPc h.setSp h.setFlagsWord
  · exact h.bind (h.setFlags _) fun _ => h.bind (h.setIntEnabled _) fun _ => h.setPc _

theorem opOutM : G (opOutM e) :=
  h.graded.withReg _ fun _ => branch
    (h.onCpu fun _ => branch (h.graded.trap (by decide)) (h.pure _))
    (branch h.haltCpu (h.onCpu fun _ => h.portOut _ _))

theorem opInM : G (opInM e) :=
  h.graded.withReg _ fun _ => h.bind (h.portIn _) fun o => by
    cases o with
    | none => exact h.pure _
    | some v => exact h.setReg _ _

theorem dispatch : G (dispatch op e) := by
  cases hp : op.privileged with
  | false =>
    refine h.graded.dispatch op e hp ?_
    rintro (rfl | rfl | rfl)
    · exact h.opDivImm _ _ _
    · exact h.opDivImm _ _ _
    · exact h.opDivRR e
  | true =>
    cases op
    case opIn => exact h.opInM e
    case opOut => exact h.opOutM e
    case opIret => exact h.opIretM
    case opCli | opSti => exact h.setIntEnabled _
    case opSysret => exact h.opSysretM
    case opHalt => exact h.haltCpu
    all_goals cases hp

/-- **Every instruction.**  A predicate closed under the actions holds of
`execute_instruction` for every decoded instruction. -/
theorem executeInstruction : G (executeInstruction e) := by
  unfold Emu.executeInstruction
  split
  · exact h.graded.invalidOpcode
  · exact h.onCpu fun _ => branch (h.fault _ _)
      (branch (h.cpuInterrupt _) (h.dispatch _ e))

end Actions

/-! ## Fetching -/

section Fetch

variable {G : ∀ {α : Type}, M α → Prop} (hs : Sequenced (fun {_} x => G x))
  (hread : ∀ {α : Type} {f : Machine → M α}, (∀ t, G (f t)) → G (get >>= f))

include hs hread

/-- What holds of translations and physical reads, and of a change of the fetch
page, holds of the fetch of a byte. -/
theorem fetchAt_of {F : Fault} (htr : ∀ va acc user, G (translate F va acc user))
    (hphys : ∀ pa n, G (physRead F pa n))
    (hpage : ∀ tag ptr ppn, G (modify fun s => { s with fTag := tag, fPtr := ptr, fPpn := ppn }))
    (pc : Word) : G (fetchAt F pc) := by
  refine hread fun t => branch (hs.pure _) (hread fun t => branch ?_ ?_)
  · exact hs.bind (htr _ _ _) fun _ => hs.bind (hphys _ _) fun _ => hs.pure _
  · refine hs.bind (htr _ _ _) fun _ => hread fun t => branch ?_ (branch ?_ ?_)
    · exact hs.bind (hpage _ _ _) fun _ => hs.pure _
    · exact hs.bind (hpage _ _ _) fun _ => hs.pure _
    · exact hs.bind (hphys _ _) fun _ => hs.pure _

variable (hfetch : ∀ pc, G (fetchAt cpuFault pc)) (hset : ∀ p t, G (modify (setTable p t)))

include hfetch

omit hread in
theorem decodeRest_of (pc : Word) (n i : Nat) : G (decodeRest pc n i) := by
  induction n generalizing i with
  | zero => exact hs.pure _
  | succ n ih => exact hs.bind (hfetch _) fun _ => hs.bind (ih _) fun _ => hs.pure _

omit hread in
theorem decode_of (pc : Word) : G (decode pc) :=
  hs.bind (hfetch _) fun _ => hs.bind (decodeRest_of hs hfetch _ _ _) fun _ => hs.pure _

include hset

/-- What holds of every fetch of a byte and of the updates of the instruction
cache holds of the fetch of an instruction. -/
theorem nextInstruction_of (pc : Word) : G (nextInstruction pc) := by
  have hdec := decode_of hs hfetch
  refine hread fun t => ?_
  cases t.fPpn with
  | none => exact hdec pc
  | some p =>
    refine branch (hread fun t => hs.bind (hset p _) fun _ => ?_) (hdec pc)
    refine branch (hs.pure _) (hs.bind (hdec _) fun e => ?_)
    exact branch (hs.bind (hset p _) fun _ => hs.pure _) (hs.pure _)

end Fetch

/-! ## Whole steps -/

section Step

variable {G : ∀ {α : Type}, M α → Prop} (h : Actions (fun {_} x => G x))
  (hread : ∀ {α : Type} {f : Machine → M α}, (∀ t, G (f t)) → G (get >>= f))
  (hnext : ∀ pc, G (nextInstruction pc))
  (hinst : ∀ f : Cpu → Word, G (modifyCpu fun c => { c with instPc := f c }))
  (hcount : G (modifyCpu fun c => { c with icount := c.icount + 1 }))

include h hnext hinst hcount

theorem runInstruction_of : G runInstruction :=
  h.bind (h.getCpu _) fun pc => h.bind (hinst fun _ => pc) fun _ => h.bind (hnext _) fun _ =>
    h.bind (h.setPc _) fun _ => h.bind (h.executeInstruction _) fun _ => hcount

include hread

/-- What holds of the actions, of the fetch and of the device events holds of
`step_one`. -/
theorem stepOne_of (hevents : G (modify devEvents)) : G stepOne := by
  have hirq : G takeIrq := by
    refine hread fun s => ?_
    split
    · exact branch (h.bind (hinst Cpu.pc) fun _ => h.cpuDeliver _ _ _) (h.pure _)
    · exact h.pure _
  have hrest : G stepRest := h.bind hirq fun _ => runInstruction_of h hnext hinst hcount
  refine hread fun s => branch ?_ hrest
  refine h.bind hevents fun _ => h.bind (h.getCpu _) fun _ => ?_
  exact branch (h.pure _) hrest

end Step

end Tortoise.Emu
