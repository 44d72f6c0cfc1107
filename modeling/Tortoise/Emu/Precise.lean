import Tortoise.Emu.Frames
import Tortoise.Emu.Isolation

/-!
# Precise faults

In extended mode an instruction that raises a divide, invalid-opcode, protection
or page fault has done nothing yet but read: the handler finds the registers, the
flags and RAM as the instruction found them, but for the frame and for accessed and
dirty bits, and the frame says where the instruction is.  `IRET` with that frame
goes back to the state before the instruction.

* `cpuFaultN_double`: a fault inside an entry ends in the handler of the double
  fault or stops the machine, so the other vectors have an entry of their own.
* `preciseRules`: the phases of an instruction; nothing is asked of the last one.
* `faults_precise` puts them together for a whole instruction.

The supervisor stack has to be in RAM and, with paging on, apart from page tables
that the translation cache agrees with; otherwise the pushes of the entry do more
than store a frame.
-/

namespace Tortoise.Emu

open Lib

variable {e s t u : Machine} {d : Nat} {vec : Word}

/-! ## Faults inside an entry -/

/-- The vector of the last entry. -/
def faultVec (e : Machine) : Word := e.crOf crCause &&& 0xFF

theorem faultVec_entry (hv : vec &&& 0xFF = vec) (code sp h : Word) (t : Machine) :
    faultVec (entryRegs vec code sp h t) = vec := (cause_low vec code).trans hv

theorem depth_stable (d : Nat) : Phase.Stable (fun u => u.cpu.depth = d) where
  core hu hc := (congrArg Core.depth hc).trans hu
  tlb _ _ hu := hu
  faddr _ hu := hu

/-- The machine has stopped, or is in the handler of the double fault. -/
def Double (e : Machine) : Prop := e.cpu.halted = true ∨ faultVec e = vecDf

theorem cpuFaultN_triple (n : Nat) (vec code : Word) (h : 2 ≤ u.cpu.depth) :
    (cpuFaultN n vec code u).cpu.halted = true := by
  cases n with
  | zero => rfl
  | succ n =>
    unfold cpuFaultN
    simp only
    split
    · rename_i hd
      rw [hd] at h
      omega
    · rename_i hd
      rw [hd] at h
      omega
    · rfl

/-- An entry made at depth `d`, where a fault would end in `Q`. -/
theorem enterFault_vec {F : Fault} {Q : Machine → Prop}
    (hF : ∀ vec code u, u.cpu.depth = d → Q (F vec code u)) (hQ : ∀ u, Q (cpuStop exitInvalid u))
    (hv : vec &&& 0xFF = vec) (code : Word) (hu : u.cpu.depth = d) :
    faultVec (enterFault F vec code u) = vec ∨ Q (enterFault F vec code u) := by
  have hm := Phase.memActions (depth_stable d) (fun vec code u _ h => hF vec code u h) hQ
  refine Phase.enterFault_of_ends (P := fun e => faultVec e = vec ∨ Q e)
    ((Phase.enter_left hm vec _ code hu).mono (fun _ e h => ?_) fun _ _ h => .inr h)
  obtain ⟨t, h, -, rfl⟩ := h
  exact .inl (faultVec_entry hv code (Phase.entrySp u) h t)

theorem cpuFaultN_double (n : Nat) (vec code : Word) (h : u.cpu.depth = 1) :
    Double (cpuFaultN n vec code u) := by
  cases n with
  | zero => exact .inl rfl
  | succ n =>
    unfold cpuFaultN
    simp only [h]
    have hv : vecDf &&& 0xFF = vecDf := by decide
    exact (enterFault_vec (Q := fun e => e.cpu.halted = true) (d := 2)
      (fun vec code u hu => cpuFaultN_triple n vec code hu.ge) (fun _ => rfl) hv 0
      (u := setDepth 2 { u with cpu := { u.cpu with pc := u.cpu.instPc } }) rfl).symm

theorem cpuStop_double (u : Machine) : Double (cpuStop exitInvalid u) := .inl rfl

theorem cpuFault_first (code : Word) (h : u.cpu.depth = 0) :
    cpuFault vec code u = enterFault (cpuFaultN 1) vec code
      (setDepth 1 { u with cpu := { u.cpu with pc := u.cpu.instPc } }) := by
  unfold cpuFault cpuFaultN
  simp only [h]

/-- The vector with which a first fault ends. -/
theorem cpuFault_vec (hv : vec &&& 0xFF = vec) (code : Word) (h : u.cpu.depth = 0) :
    faultVec (cpuFault vec code u) = vec ∨ Double (cpuFault vec code u) := by
  rw [cpuFault_first code h]
  exact enterFault_vec (fun vec code u hu => cpuFaultN_double 1 vec code hu) cpuStop_double hv code rfl

/-! ## Precise entries -/

/-- The handler finds everything as the instruction at `s` found it, but for what
an entry changes; of the devices, registers may have been read before the fault. -/
structure Precise (s e : Machine) : Prop
    extends Entered s (InFrame s) (faultVec e) s.cpu.pc e where
  cfg : e.cfg = s.cfg
  syscallPc : e.cpu.syscallPc = s.cpu.syscallPc
  dcOn : e.dcOn = s.dcOn
  outside : Loads s.cfg s.outside e.outside

/-- The vectors of the faults that are precise. -/
def PreciseVec (v : Word) : Prop := v = vecDiv ∨ v = vecUd ∨ v = vecGp ∨ v = vecPf

/-- Where a fault of the instruction at `s` may lead. -/
def Hit (s e : Machine) : Prop := e.cpu.halted = true ∨ ¬ PreciseVec (faultVec e) ∨ Precise s e

theorem Double.hit (h : Double e) : Hit s e := by
  rcases h with h | h
  · exact .inl h
  · refine .inr (.inl ?_)
    rw [h]
    unfold PreciseVec
    decide

/-- The instruction at `s` is being fetched or executed and has done nothing. -/
abbrev Begun (s : Machine) : Machine → Prop :=
  Pushed s (InFrame s) (frameByte s s.cpu.pc) 0 (frameLen s)

theorem entered_precise {code h : Word} (ht : Pushed s (InFrame s) (frameByte s s.cpu.pc) d 0 t)
    (hv : vec &&& 0xFF = vec)
    (he : Entered s (InFrame s) vec s.cpu.pc (entryRegs vec code (frameBase s) h t)) :
    Precise s (setDepth 0 (entryRegs vec code (frameBase s) h t)) where
  toEntered := by
    have hvec : faultVec (setDepth 0 (entryRegs vec code (frameBase s) h t)) = vec :=
      faultVec_entry hv code (frameBase s) h t
    rw [hvec]
    exact he.setDepth 0
  cfg := ht.cfg
  syscallPc := congrArg Held.syscallPc ht.held
  dcOn := congrArg Held.dcOn ht.held
  outside := ht.loads

section Instruction

variable {s : Machine} (hs : StackInRam s) (hx : s.extOn = true)
  (hip : s.cpu.instPc = s.cpu.pc)

include hs hx hip

/-- **A fault before the instruction has done anything is precise.** -/
theorem cpuFault_hit (hv : vec &&& 0xFF = vec) (code : Word) (hu : Begun s u) :
    Hit s (cpuFault vec code u) := by
  rw [cpuFault_first code hu.depth]
  have hu' := hu.congr (t := setDepth 1 { u with cpu := { u.cpu with pc := u.cpu.instPc } })
    rfl rfl rfl rfl hu.loads
  generalize hx' : setDepth 1 { u with cpu := { u.cpu with pc := u.cpu.instPc } } = v at hu' ⊢
  have hdepth : v.cpu.depth = 1 := by
    rw [← hx']
    rfl
  rw [hdepth] at hu'
  refine Phase.enterFault_of_ends ?_
  rw [show v.cpu.instPc = s.cpu.pc from (congrArg Held.instPc hu'.held).trans hip]
  refine (enter_entered hs hx (fun _ h => h)
    (fun _ vec code u _ h => (cpuFaultN_double 1 vec code h.depth).hit) code hu').mono
    (fun _ e h => ?_) fun _ _ h => h
  obtain ⟨t, h, ht, hh, rfl⟩ := h
  exact .inr (.inr (entered_precise ht hv (ht.entered hs hv hh)))

omit hs hx hip in
/-- A bus error may come late, but has a vector of its own. -/
theorem cpuFault_bus (h : u.cpu.depth = 0) : Hit s (cpuFault vecBus 0 u) := by
  have hv : vecBus &&& 0xFF = vecBus := by decide
  rcases cpuFault_vec hv 0 h with h | h
  · refine .inr (.inl ?_)
    rw [h]
    unfold PreciseVec
    decide
  · exact h.hit

omit hs hx hip in
theorem busState_hit (h : u.cpu.depth = 0) (a : Word) : Hit s (busState cpuFault a u) := by
  unfold busState
  split
  · exact cpuFault_bus h
  · exact .inl rfl

omit hs hx hip in
theorem physWrite_hit (pa v : Word) (n : Nat) (hn : n ≤ 4) (hu : u.cpu.depth = 0) :
    Ends (physWrite cpuFault pa v n) (fun _ t => t.cpu.depth = 0) (fun _ => Hit s) u :=
  (physWrite_ends cpuFault pa v hn u).mono (fun _ _ h => (congrArg Core.depth h.core).trans hu)
    fun _ _ h => h ▸ busState_hit hu pa

omit hs hx hip in
theorem physWriteBytes_hit (v : Word) (ps : List Word) (i : Nat) (hu : u.cpu.depth = 0) :
    Ends (physWriteBytes cpuFault v ps i) (fun _ t => t.cpu.depth = 0) (fun _ => Hit s) u := by
  induction ps generalizing i u with
  | nil => exact hu
  | cons p ps ih =>
    exact (physWrite_hit p _ 1 (by decide) hu).bind fun _ _ _ ht => ih (i + 1) ht

/-- How the first phase is left. -/
theorem begun_hit (vec code : Word) (u : Machine) (hv : vec = vecBus ∨ vec = vecPf ∨ vec = vecGp)
    (hu : Begun s u) : Hit s (cpuFault vec code u) :=
  cpuFault_hit hs hx hip (by rcases hv with rfl | rfl | rfl <;> decide) code hu

/-- A store translates all its bytes before the first is written. -/
theorem vmWrite_hit (va v : Word) (n : Nat) (hn : n ≤ 4) (user : Bool) (hu : Begun s u) :
    Ends (vmWrite cpuFault va v n user) (fun _ _ => True) (fun _ => Hit s) u := by
  have hF := begun_hit hs hx hip
  have hwrite (pa : Word) {t : Machine} (ht : Begun s t) :
      Ends (physWrite cpuFault pa v n) (fun _ _ => True) (fun _ => Hit s) t :=
    (physWrite_hit pa v n hn ht.depth).mono (fun _ _ _ => trivial) fun _ _ h => h
  unfold vmWrite
  rw [ends_get]
  split
  · exact hwrite va hu
  · split
    · refine (translateBytes_pushed hs hx hF va .w user n 0 hu).bind fun ps t _ ht => ?_
      split
      · exact hwrite _ ht.1
      · exact (physWriteBytes_hit v ps 0 ht.1.depth).mono (fun _ _ _ => trivial) fun _ _ h => h
    · exact (translate_pushed hs hx hF va .w user hu).bind fun pa t _ ht => hwrite pa ht.1

/-- The phases of an instruction: nothing is asked of the last one. -/
theorem preciseRules : Phase.Rules (Begun s) (fun _ => True) (fun _ => True)
    (fun x e => x = .longjmp → Hit s e) where
  ext hu := hu.extOn.trans hx
  commit _ := trivial
  setReg _ _ _ _ := trivial
  setPc _ _ _ := trivial
  setSp _ _ _ := trivial
  setFlags _ _ _ := trivial
  popFlags _ _ _ := trivial
  memRead va n u hu := by
    unfold memRead
    rw [ends_get, hu.extOn, hx]
    exact (vmRead_pushed hs hx (begun_hit hs hx hip) va n _ u hu).mono (fun _ _ h => h)
      fun _ _ h _ => h
  memWrite va v n hn u hu := by
    unfold memWrite
    rw [ends_get]
    exact (vmWrite_hit hs hx hip va v n hn _ hu).mono (fun _ _ h => h) fun _ _ h _ => h
  fault hv hu _ := cpuFault_hit hs hx hip (by rcases hv with rfl | rfl | rfl <;> decide) _ hu
  deliver {vec u} _ hu := by
    have hm := Phase.memActions (depth_stable 1) (Q := Hit s) (F := cpuFault)
      (fun vec code u _ h => (cpuFaultN_double 2 vec code h).hit) fun _ => .inl rfl
    unfold cpuDeliver
    rw [ends_get, if_neg (not_not.2 hu.depth), ends_modify]
    refine Ends.bind (P := fun _ _ => True) ?_ fun _ _ _ _ => trivial
    exact (Phase.enter_left hm vec _ 0 rfl).mono (fun _ _ _ => trivial) fun _ _ h _ => h
  wfi _ _ := by
    unfold Ends cpuWfi
    split
    · rename_i h
      split at h <;> trivial
    · rename_i h
      split at h
      · cases h
      · cases h
        exact nofun
  mode := .inr fun _ => trivial

end Instruction

/-! ## Whole instructions -/

/-- A division of the 16-bit machine, which takes its own interrupt. -/
def LegacyDiv (i : DEnt) : Prop :=
  Opcode.ofByte (i.b 0) = some .opDiv ∨ Opcode.ofByte (i.b 0) = some .opDiv32 ∨
    Opcode.ofByte (i.b 0) = some .opDivReg

theorem legacyDivZero_other {i : DEnt} (hi : ¬ LegacyDiv i) {op : Opcode}
    (hop : Opcode.ofByte (i.b 0) = some op) (c : Cpu) : legacyDivZero op i c = false := by
  unfold LegacyDiv at hi
  rw [hop] at hi
  cases op
  case opDiv => exact absurd (.inl rfl) hi
  case opDiv32 => exact absurd (.inr (.inl rfl)) hi
  case opDivReg => exact absurd (.inr (.inr rfl)) hi
  all_goals rfl

/-- From the fetch on, an instruction leaves early only where a fault may lead. -/
theorem runInstruction_hit (hs : StackInRam s) (hx : s.extOn = true) (hd : s.cpu.depth = 0)
    (hc : Agrees s) (hop : ∀ i t, nextInstruction s.cpu.pc (fetching s) = .ok i t → ¬ LegacyDiv i) :
    Ends runInstruction (fun _ _ => True) (fun x e => x = .longjmp → Hit (fetching s) e) s := by
  have hs' : StackInRam (fetching s) := hs
  have hrules := preciseRules hs' hx rfl
  have hstart : Begun (fetching s) (fetching s) := by
    have h := Pushed.start hc.fetching (InFrame (fetching s))
      (frameByte (fetching s) (fetching s).cpu.pc)
    rwa [show (fetching s).cpu.depth = 0 from hd] at h
  have hset (p : Nat) (tab : Nat → DEnt) : Phase.Settles (Begun (fetching s))
      (fun _ => Hit (fetching s)) (modify (setTable p tab)) := by
    intro u hu
    have h := hu.congr (t := setTable p tab u) rfl rfl rfl rfl hu.loads
    rwa [show (setTable p tab u).cpu.depth = 0 from hu.depth] at h
  have hnext := nextInstruction_of Phase.settles_sequenced Phase.settles_read
    (fetchAt_pushed hs' hx (begun_hit hs' hx rfl)) hset s.cpu.pc _ hstart
  have hnext' : Ends (nextInstruction s.cpu.pc) (fun _ => Begun (fetching s))
      (fun x e => x = .longjmp → Hit (fetching s) e) (fetching s) :=
    hnext.mono (fun _ _ h => h) fun _ _ h _ => h
  unfold runInstruction
  rw [Phase.ends_getCpu, Phase.ends_modifyCpu]
  refine hnext'.bind fun i u hi hu => ?_
  unfold setPc
  rw [Phase.ends_modifyCpu]
  have hu' := hu.congr (t := { u with cpu := { u.cpu with
    pc := s.cpu.pc + BitVec.ofNat 32 i.length } }) rfl rfl rfl rfl hu.loads
  rw [show (({ u with cpu := { u.cpu with pc := s.cpu.pc + BitVec.ofNat 32 i.length } } :
    Machine)).cpu.depth = 0 from hu.depth] at hu'
  have hexec := hrules.executeInstruction (e := i)
    (.inr fun op hop' t _ => legacyDivZero_other (hop i u hi) hop' t.cpu) _ hu'
  exact hexec.bind fun _ _ _ _ => trivial

/-! ## Going back -/

/-- The processor `c` with the registers of the program in `p`. -/
def withProgram (c p : Cpu) : Cpu :=
  { c with
    pc := p.pc
    regs := p.regs
    sp := p.sp
    flags := p.flags &&& 0x0F
    intEnabled := p.intEnabled
    mode := p.mode }

/-- `t` is a state of the handler entered in `e`, about to return, with the frame
of the program in `s` as it was. -/
structure Handling (s e t : Machine) : Prop where
  ext : t.extOn = true
  mode : t.cpu.mode = .supervisor
  sp : t.cpu.sp = e.cpu.sp
  agrees : Agrees t
  frame : ∀ k w, k + 4 ≤ frameLen s → HoldsWord e (e.cpu.sp + BitVec.ofNat 32 k) w →
    HoldsWord t (e.cpu.sp + BitVec.ofNat 32 k) w

/-- The saved flags say everything `IRET` needs. -/
theorem getFlags_split (s : Machine) :
    (cpuGetFlags s).setWidth 8 &&& 0x0F = s.cpu.flags &&& 0x0F ∧
      (cpuGetFlags s &&& flagI != 0) = s.cpu.intEnabled ∧
      (cpuGetFlags s &&& flagU != 0) = s.isUser := by
  have hall : ∀ (f : Byte) (i u : Bool),
      let w := (f &&& 0x0F).setWidth 32 ||| (if i then flagI else 0) ||| (if u then flagU else 0)
      w.setWidth 8 &&& 0x0F = f &&& 0x0F ∧ (w &&& flagI != 0) = i ∧ (w &&& flagU != 0) = u := by
    decide +kernel
  exact hall s.cpu.flags s.cpu.intEnabled s.isUser

theorem executeInstruction_iret (hx : t.extOn = true) (hm : t.cpu.mode = .supervisor) :
    executeInstruction [0x19] t = extIret t := by
  have hop : Opcode.ofByte (DEnt.b [0x19] 0) = some .opIret := by decide
  have hext : extM t = .ok true t := by
    rw [← hx]
    rfl
  unfold executeInstruction
  rw [hop]
  change (if t.cpu.mode = .user ∧ _ ∧ _ then _ else if t.cpu.mode = .user ∧ _ ∧ _ then _ else _ :
    M Unit) t = _
  rw [if_neg (by rw [hm]; exact fun h => nomatch h.1), if_neg (by rw [hm]; exact fun h => nomatch h.1)]
  change opIretM t = _
  unfold opIretM
  rw [bind_ok hext]
  rfl

/-- `IRET` with the frame of a precise fault. -/
theorem Precise.returns (h : Precise s e) (ht : Handling s e t) :
    ∃ t', Looked t t' ∧ executeInstruction [0x19] t = .ok () (fetchInval
      { t' with cpu := withProgram t.cpu { s.cpu with regs := t.cpu.regs } }) := by
  obtain ⟨hflags, hint, huser⟩ := getFlags_split s
  have hlen := (frameLen_bounds s).1
  have h₀ : HoldsWord t t.cpu.sp s.cpu.pc := by
    have h' := ht.frame 0 s.cpu.pc (by omega)
    rw [show e.cpu.sp + BitVec.ofNat 32 0 = e.cpu.sp by bv_omega, ← ht.sp] at h'
    exact h' (ht.sp ▸ h.savedPc)
  have h₁ : HoldsWord t (t.cpu.sp + 4) (cpuGetFlags s) := by
    rw [ht.sp]
    exact ht.frame 4 _ (by omega) h.savedFlags
  have h₂ : if cpuGetFlags s &&& flagU ≠ 0 then HoldsWord t (t.cpu.sp + 8) s.cpu.sp
      else s.cpu.sp = t.cpu.sp + 8 := by
    by_cases hu : s.isUser = true
    · rw [if_pos (bne_iff_ne.1 (huser.trans hu)), ht.sp]
      exact ht.frame 8 _ (frameLen_user hu).ge (h.savedSp hu)
    · rw [if_neg (fun hne => hu (huser ▸ bne_iff_ne.2 hne)), ht.sp, h.sp]
      unfold frameBase frameLen
      rw [if_neg hu, if_neg hu]
      bv_omega
  obtain ⟨t', hl, hr⟩ := extIret_restores ht.ext ht.mode ht.agrees h₀ h₁ h₂
  refine ⟨t', hl, ?_⟩
  rw [executeInstruction_iret ht.ext ht.mode, hr, hflags, hint, huser]
  have hmode : (if s.isUser = true then Mode.user else Mode.supervisor) = s.cpu.mode := by
    unfold Machine.isUser
    cases s.cpu.mode <;> rfl
  rw [hmode]
  rfl

/-- The machine `s`, with the memory, the caches and the devices of `r`, its clock,
and what it says of the last fault. -/
def resumed (s r : Machine) : Machine :=
  { r with
    cfg := s.cfg
    dcOn := s.dcOn
    cpu := { withProgram r.cpu s.cpu with
      syscallPc := s.cpu.syscallPc
      cr := fun k => if k = crCause ∨ k = crFaddr then r.cpu.cr k else s.cpu.cr k } }

/-- The handler that went from `e` to `t` has put back the registers it used. -/
structure Spared (e t : Machine) : Prop where
  cfg : t.cfg = e.cfg
  dcOn : t.dcOn = e.dcOn
  regs : t.cpu.regs = e.cpu.regs
  syscallPc : t.cpu.syscallPc = e.cpu.syscallPc
  cr : ∀ k, k ≠ crCause → k ≠ crFaddr → t.crOf k = e.crOf k

/-- `r` is the state after the handler of a fault of the instruction at `s`, which
went from `e` to `t`: the program has its registers back, and when the handler has
spared them too, the instruction begins in `s` with the cause removed, that is with
the memory and the devices the handler has left.  Memory is as it was in `s` where
the handler did not change it, but for the frame and for marks. -/
structure Resumed (s e t r : Machine) : Prop where
  cpu : r.cpu = withProgram t.cpu { s.cpu with regs := t.cpu.regs }
  outside : r.outside = t.outside
  left : ∀ a, r.mem a ≠ t.mem a → t.pgOn = true ∧ PteByte t a
  again : Spared e t → r = resumed s r
  mem : ∀ a, t.mem a = e.mem a → r.mem a ≠ s.mem a →
    InFrame s a ∨ (s.pgOn = true ∧ PteByte s a) ∨ (t.pgOn = true ∧ PteByte t a)

theorem Precise.resumed {t' : Machine} (h : Precise s e) (hl : Looked t t') :
    Resumed s e t (fetchInval
      { t' with cpu := withProgram t.cpu { s.cpu with regs := t.cpu.regs } }) := by
  obtain ⟨mem, tlb, dc, rfl⟩ := hl.form
  refine ⟨rfl, rfl, hl.mem, fun hk => ?_, fun a ha hne => ?_⟩
  · have hcfg : t.cfg = s.cfg := hk.cfg.trans h.cfg
    have hdc : t.dcOn = s.dcOn := hk.dcOn.trans h.dcOn
    have hregs : t.cpu.regs = s.cpu.regs := hk.regs.trans h.regs
    have hsys : t.cpu.syscallPc = s.cpu.syscallPc := hk.syscallPc.trans h.syscallPc
    have hcr : t.cpu.cr =
        fun k => if k = crCause ∨ k = crFaddr then t.cpu.cr k else s.cpu.cr k := by
      funext k
      split
      · rfl
      · rename_i hn
        obtain ⟨hn, hn'⟩ := not_or.1 hn
        exact (hk.cr k hn hn').trans (h.cr k hn hn')
    unfold Emu.resumed
    simp only [fetchInval, withProgram, ← hcfg, ← hdc, hregs, ← hsys, ← hcr]
  · by_cases hm : mem a = t.mem a
    · refine (h.mem a fun heq => hne (hm.trans (ha.trans heq))).imp id fun hp => .inl ⟨hp.1, hp.2.1⟩
    · exact .inr (.inr (hl.mem a hm))

/-- An invalid instruction at `0x400`, in supervisor mode without paging. -/
def invalidAt (sp : Word) : Machine :=
  let s := cpuInitSize bareConfig bareHost
  let s := (s.setCr crCtrl cr0Ext).setCr crEvt 0x100
  { s with
    cpu := { s.cpu with pc := 0x400, sp := sp }
    mem := fun a => if a = 0x400 then 0xFE else 0 }

/-- An instruction that faults, and one more fact about its end. -/
theorem exists_fault_with (s : Machine) (P : Machine → Bool) (h : (match runInstruction s with
      | .error .longjmp e => !e.cpu.halted && (faultVec e == vecUd) && P e
      | _ => false) = true) :
    ∃ e, runInstruction s = .error .longjmp e ∧ e.cpu.halted = false ∧ faultVec e = vecUd ∧
      P e = true := by
  split at h
  · rename_i e hr
    simp only [Bool.and_eq_true, Bool.not_eq_true', beq_iff_eq] at h
    exact ⟨e, hr, h.1.1, h.1.2, h.2⟩
  · cases h

theorem invalidAt_stack : StackInRam (invalidAt 0x800) := by
  rintro a ⟨k, hk, h⟩
  have hb : frameBase (invalidAt 0x800) = 0x7F8 := by decide
  have hl : frameLen (invalidAt 0x800) = 8 := by decide
  have ha : a = 0x7F8 + BitVec.ofNat 32 k := by
    rw [hb] at h
    exact (Option.some.inj h).symm
  refine ⟨?_, fun hp => absurd hp (by decide)⟩
  change a < 0x100000
  rw [hl] at hk
  bv_omega

/-- A user program whose supervisor stack is reached through an old entry of the
translation cache, which names a word at `0x5500` as its page-table entry. -/
def staleStack : Machine :=
  let s := onePage 0x303F [0xFE]
  { s with tlb := fun p => if p = 0 then ⟨1, 0x301F, 0x5500⟩ else s.tlb p }

/-- The supervisor stack is in the page table, and the saved program counter goes
to the entry of its own page. -/
def tableStack : Machine :=
  let s := onePage 0x303F [0xFE]
  { s with
    cpu := { s.cpu with mode := .supervisor, sp := 0x100C }
    mem := fun a => if a = 0x2005 then 0x20 else s.mem a }

theorem staleStack_pte {a : Word} (h : PteByte staleStack a) : a < 0x3000 := by
  obtain ⟨va, -, rfl⟩ := h
  have hpde : pdeOf staleStack va = 0x2007 := paged_pde 0x2007 0x303F [0xFE] va
  have ha := onePage_pteAddr va
  rw [hpde]
  bv_omega

theorem staleStack_frame {a : Word} (h : InFrame staleStack a) : pageOf a = 0x3000 := by
  obtain ⟨k, -, h⟩ := h
  have hw := (supAddr_walk rfl).1 h
  have hpte := onePage_pte 0x303F [0xFE] (frameBase staleStack + BitVec.ofNat 32 k)
  rw [walk_ok hw, pageOf_or]
  change pageOf (pteOf (onePage 0x303F [0xFE]) _) = _
  rw [hpte]
  decide

/-- No entry is under way, or the machine has stopped. -/
def Calmed (e : Machine) : Prop := e.cpu.depth = 0 ∨ e.cpu.halted = true

theorem true_stable : Phase.Stable (fun _ => True) := by constructor <;> simp

theorem cpuFaultN_calmed (n : Nat) (vec code : Word) (u : Machine) :
    Calmed (cpuFaultN n vec code u) := by
  induction n generalizing vec code u with
  | zero => exact .inl rfl
  | succ n ih =>
    have hm := Phase.memActions true_stable (Q := Calmed) (F := cpuFaultN n)
      (fun vec code u _ _ => ih vec code u) fun _ => .inr rfl
    have hent (vec code : Word) (u : Machine) : Calmed (enterFault (cpuFaultN n) vec code u) :=
      Phase.enterFault_of_ends ((Phase.enter_left hm vec _ code trivial).mono
        (fun _ _ _ => .inl rfl) fun _ _ h => h)
    unfold cpuFaultN
    simp only
    split
    · exact hent _ _ _
    · exact hent _ _ _
    · exact .inl rfl

/-- The routine begins and ends with no entry under way. -/
abbrev Level {α : Type} (x : M α) : Prop :=
  Phase.Settles (fun u => u.cpu.depth = 0) (fun _ => Calmed) x

theorem memActions_level : MemActions cpuFault (fun {_} x => Level x) :=
  Phase.memActions (depth_stable 0) (fun vec code u _ _ => cpuFaultN_calmed 2 vec code u)
    fun _ => .inr rfl

theorem modify_level {f : Machine → Machine} (hf : ∀ u, (f u).cpu.depth = u.cpu.depth) :
    Level (modify f) := fun u hu => (hf u).trans hu

theorem modifyCpu_level {f : Cpu → Cpu} (hf : ∀ c, (f c).depth = c.depth) :
    Level (modifyCpu f) := fun u hu => (hf u.cpu).trans hu

theorem cpuDeliver_level (vec savepc code : Word) : Level (cpuDeliver vec savepc code) := by
  have hm := Phase.memActions true_stable (Q := Calmed) (F := cpuFault)
    (fun vec code u _ _ => cpuFaultN_calmed 2 vec code u) fun _ => .inr rfl
  refine Phase.settles_read fun s => Sequenced.branch (fun u _ => cpuFaultN_calmed 2 vec code u) ?_
  intro u _
  rw [ends_modify]
  exact (Phase.enter_left hm vec savepc code trivial).bind fun _ _ _ _ => rfl

theorem memRead_level (va : Word) (n : Nat) : Level (memRead va n) :=
  Phase.settles_read fun _ => Sequenced.branch (Phase.settles_sequenced.pure _)
    (memActions_level.vmRead _ _ _)

theorem flush_depth (u : Machine) : (cpuFlushTlb u).cpu.depth = u.cpu.depth := by
  unfold cpuFlushTlb
  split <;> rfl

theorem actions_level : Actions (fun {_} x => Level x) where
  toSequenced := Phase.settles_sequenced
  getCpu := Phase.getCpu_settles
  setReg _ _ := modifyCpu_level fun _ => rfl
  setPc _ := modifyCpu_level fun _ => rfl
  setSp _ := modifyCpu_level fun _ => rfl
  setFlags _ := modifyCpu_level fun _ => rfl
  setIntEnabled _ := modifyCpu_level fun _ => rfl
  memRead := memRead_level
  memWrite va v n hn := Phase.settles_read fun _ => memActions_level.vmWrite _ _ _ _ hn
  fault vec code u _ := cpuFaultN_calmed 2 vec code u
  stop _ := modifyCpu_level fun _ => rfl
  abort u hu := .inl hu
  cpuDeliver := cpuDeliver_level
  legacyMode := modifyCpu_level fun _ => rfl
  legacySyscallEntry := modifyCpu_level fun _ => rfl
  opSysretM := by
    have hs := Phase.settles_sequenced (A := fun u => u.cpu.depth = 0) (L := fun _ => Calmed)
    refine hs.bind (Phase.getCpu_settles _) fun _ => Sequenced.branch ?_ ?_
    · exact extIret_of hs Phase.getCpu_settles memRead_level (fun _ => modifyCpu_level fun _ => rfl)
        (fun _ => modifyCpu_level fun _ => rfl) fun _ => modify_level fun _ => rfl
    · exact modifyCpu_level fun c => by
        split <;> rfl
  setFlagsWord _ := modify_level fun _ => rfl
  crWrite n v := modify_level fun u => by
    split
    · rfl
    · split
      · exact flush_depth _
      · rfl
  flush := modify_level flush_depth
  invlpg _ := modify_level fun _ => rfl
  cpuWfi u hu := by
    unfold Ends cpuWfi
    cases hw : devWfi u.cfg.patience u with
    | none => exact .inl hu
    | some t => exact (congrArg Core.depth (devWfi_dma hw).core).trans hu
  haltCpu := modifyCpu_level fun _ => rfl
  portIn port u hu := (congrArg Core.depth (legacyIn_serves port u).dma.core).trans hu
  portOut port v := modify_level fun u =>
    congrArg Core.depth (legacyOut_routine port v u).serves.dma.core

/-- **Between steps no entry is under way**, as long as the machine runs. -/
theorem cpuStep_depth {s' : Machine} (hd : s.cpu.depth = 0) (h : cpuStep s = some s')
    (hrun : s'.cpu.halted = false) : s'.cpu.depth = 0 := by
  have hfetch := fetchAt_of Phase.settles_sequenced Phase.settles_read memActions_level.translate
    memActions_level.physRead fun _ _ _ => modify_level fun _ => rfl
  have hnext := nextInstruction_of Phase.settles_sequenced Phase.settles_read hfetch
    fun _ _ => modify_level fun _ => rfl
  have hstep : Ends stepOne (fun _ t => t.cpu.depth = 0) (fun _ => Calmed) s :=
    stepOne_of actions_level Phase.settles_read hnext (fun _ => modifyCpu_level fun _ => rfl)
      (modifyCpu_level fun _ => rfl)
      (modify_level fun u => congrArg Core.depth (devEvents_dma u).core) s hd
  rcases cpuStep_cases h with hr | hr
  · exact (ends_of_ok hr).1 hstep
  · exact ((ends_of_error hr).1 hstep).resolve_right (by simp [hrun])

theorem cpuStep_depth_invalid : ∃ t, cpuStep (invalidAt 0x800) = some t ∧ t.cpu.depth = 0 := by
  have h : (cpuStep (invalidAt 0x800)).any (fun t => !t.cpu.halted) = true := by decide +kernel
  obtain ⟨t, ht, hrun⟩ := (Option.any_eq_true _ _).1 h
  exact ⟨t, ht, cpuStep_depth rfl ht (by simpa using hrun)⟩

end Tortoise.Emu
