import Tortoise.Emu.Frames

/-!
# How a user program gets into supervisor mode

In extended mode a user program may reach supervisor mode only through the
exception entry: the old stack pointer, the flags and the return address go to
the supervisor stack, the handler is the word at `EVT + 4 * v`, `CAUSE` names
the vector and interrupts are off.

* `Quiet s u`: `u` is a state inside a step that began in `s`, before the
  instruction has changed stack pointer, flags or mode.
* `Unmoved s u`: moreover the page tables are what they were, so that the frame of an
  entry goes where it would have gone in `s`.
* `EntryFor s e v pc`: `e` is the state after the exception entry for vector `v`.
  The frame is part of it when the supervisor's stack and tables are `Shielded`.
* `Primed s u`: the first phase of an instruction, which may fault; then it changes
  registers (`userRules`).
* `user_entry`: the result for a whole step.
-/

namespace Tortoise.Emu

open Lib

variable {s u : Machine} {n : Nat} {v : Word}

/-! ## Quiet states and entries -/

/-- The addresses a step from `s` may return to: the program counter it began
with, or the instruction after the one it fetches. -/
def ReturnPc (s : Machine) (a : Word) : Prop :=
  a = s.cpu.pc ∨ ∃ i, fetched s = some i ∧ a = s.cpu.pc + BitVec.ofNat 32 i.length

/-- The state in which the step from `s` begins, after the device events. -/
abbrev begun (s : Machine) : Machine := fetching (afterEvents s)

/-- The supervisor's stack is in RAM; with paging on the translation cache agrees
with page tables in RAM, and neither the stack nor a byte that the program may
store to belongs to them. -/
structure Shielded (s : Machine) : Prop where
  agrees : Agrees s
  stack : StackInRam s
  tables : s.pgOn = true → ∀ va a, walk s va .w true = .ok a → Apart s a

/-- `u` agrees with `s` on what an exception entry saves and reads, stack
pointer, flags, mode and the control registers other than `FADDR`, and on the
general registers; its instruction is the one at the program counter of `s`. -/
structure Quiet (s u : Machine) : Prop where
  cfg : u.cfg = s.cfg
  instPc : u.cpu.instPc = s.cpu.pc
  regs : u.cpu.regs = s.cpu.regs
  sp : u.cpu.sp = s.cpu.sp
  flags : u.cpu.flags = s.cpu.flags
  intEnabled : u.cpu.intEnabled = s.cpu.intEnabled
  mode : u.cpu.mode = s.cpu.mode
  cr : ∀ n, n ≠ crFaddr → u.cpu.cr n = s.cpu.cr n

/-- The step from `s` has got to `u` without a change of the page tables. -/
def Unmoved (s u : Machine) : Prop :=
  ∃ d, Pushed (begun s) (Storable (begun s)) (fun _ => 0) d (frameLen (begun s)) u

/-- `e` is the state after an exception entry for vector `v` that returns to `pc`,
in a step from `s`.  When the supervisor's memory is shielded, the three words at
`SP` are `pc`, the flags and the stack pointer of the program, the program counter
is the word at `EVT + 4 * v`, and other registers and memory are as they were but
for what the program may store to and for marks. -/
structure EntryFor (s e : Machine) (v pc : Word) : Prop where
  ret : ReturnPc s pc
  mode : e.cpu.mode = .supervisor
  intEnabled : e.cpu.intEnabled = false
  sp : e.cpu.sp = s.crOf crKsp - 12
  cause : e.crOf crCause &&& 0xFF = v
  frame : Shielded (begun s) → Entered (begun s) (Storable (begun s)) v pc e

/-- An exception entry for some vector. -/
def Entry (s e : Machine) : Prop := ∃ v pc, EntryFor s e v pc

/-- How a step that leaves early ends: the machine has stopped or has made an
exception entry. -/
def Caught (s e : Machine) : Prop := e.cpu.halted = true ∨ Entry s e

/-- The instruction may still fault: with the supervisor's memory shielded, as
long as the tables are what they were. -/
def Primed (s u : Machine) : Prop := Quiet s u ∧ (Shielded (begun s) → Unmoved s u)

/-- Any change of state that touches nothing an entry looks at. -/
theorem Quiet.congr {u' : Machine} (h : Quiet s u) (hg : u'.cfg = u.cfg)
    (hn : u'.cpu.instPc = u.cpu.instPc) (hr : u'.cpu.regs = u.cpu.regs) (hs : u'.cpu.sp = u.cpu.sp)
    (hf : u'.cpu.flags = u.cpu.flags) (hi : u'.cpu.intEnabled = u.cpu.intEnabled)
    (hm : u'.cpu.mode = u.cpu.mode) (hc : u'.cpu.cr = u.cpu.cr) : Quiet s u' where
  cfg := hg.trans h.cfg
  instPc := hn.trans h.instPc
  regs := hr.trans h.regs
  sp := hs.trans h.sp
  flags := hf.trans h.flags
  intEnabled := hi.trans h.intEnabled
  mode := hm.trans h.mode
  cr n hn := (congrFun hc n).trans (h.cr n hn)

theorem Quiet.extOn (h : Quiet s u) : u.extOn = s.extOn := by
  unfold Machine.extOn
  rw [h.cr crCtrl (by decide)]

theorem afterEvents_core (s : Machine) : (afterEvents s).core = s.core := by
  unfold afterEvents
  split
  · exact (devEvents_dma s).core
  · rfl

/-- Once the instruction address is noted, the step is in a quiet state. -/
theorem begun_quiet (s : Machine) : Quiet s (begun s) :=
  have hc := afterEvents_core s
  { cfg := congrArg Core.cfg hc
    instPc := congrArg Core.pc hc
    regs := congrArg Core.regs hc
    sp := congrArg Core.sp hc
    flags := congrArg Core.flags hc
    intEnabled := congrArg Core.intEnabled hc
    mode := congrArg Core.mode hc
    cr := fun n _ => congrFun (congrArg Core.cr hc) n }

theorem Unmoved.quiet (h : Unmoved s u) : Quiet s u := by
  obtain ⟨d, h⟩ := h
  have hb := begun_quiet s
  exact {
    cfg := h.cfg.trans hb.cfg
    instPc := (congrArg Held.instPc h.held).trans hb.instPc
    regs := (congrArg Held.regs h.held).trans hb.regs
    sp := (congrArg Held.sp h.held).trans hb.sp
    flags := (congrArg Held.flags h.held).trans hb.flags
    intEnabled := (congrArg Held.intEnabled h.held).trans hb.intEnabled
    mode := (congrArg Held.mode h.held).trans hb.mode
    cr := fun n hn => (crOf_held h.held hn).trans (hb.cr n hn) }

theorem Unmoved.ready (h : Unmoved s u) : Primed s u := ⟨h.quiet, fun _ => h⟩

/-- A change of what neither an entry nor a translation looks at. -/
theorem Primed.congr {u' : Machine} (h : Primed s u) (hh : u'.held = u.held) (hm : u'.mem = u.mem)
    (ht : u'.tlb = u.tlb) (hg : u'.tlbGen = u.tlbGen) (ho : u'.outside = u.outside) :
    Primed s u' where
  left :=
    { cfg := (congrArg Held.cfg hh).trans h.1.cfg
      instPc := (congrArg Held.instPc hh).trans h.1.instPc
      regs := (congrArg Held.regs hh).trans h.1.regs
      sp := (congrArg Held.sp hh).trans h.1.sp
      flags := (congrArg Held.flags hh).trans h.1.flags
      intEnabled := (congrArg Held.intEnabled hh).trans h.1.intEnabled
      mode := (congrArg Held.mode hh).trans h.1.mode
      cr := fun n hn => (crOf_held hh hn).trans (h.1.cr n hn) }
  right hs := by
    obtain ⟨d, hd⟩ := h.2 hs
    exact ⟨_, hd.congr hh hm ht hg (ho ▸ hd.loads)⟩

theorem begun_ready (s : Machine) : Primed s (begun s) :=
  ⟨begun_quiet s, fun h => ⟨_, Pushed.start h.agrees _ _⟩⟩

/-! ## The first phase: accesses and faults -/

/-- The first phase of an instruction that may return to where it is. -/
def Going (s u : Machine) : Prop := Primed s u ∧ ReturnPc s u.cpu.pc

/-- What the fault handler must satisfy: before the instruction has changed
anything it makes an entry or stops the machine. -/
def Catches (s : Machine) (F : Fault) : Prop :=
  ∀ vec code u, vec &&& 0xFF = vec → Primed s u → Caught s (F vec code u)

theorem quiet_stable (s : Machine) : Phase.Stable (fun u => Quiet s u ∧ ReturnPc s u.cpu.pc) where
  core {u t} hu hc := by
    have hp : t.cpu.pc = u.cpu.pc := congrArg Core.pc hc
    exact ⟨hu.1.congr (congrArg Core.cfg hc) (congrArg Core.instPc hc) (congrArg Core.regs hc)
      (congrArg Core.sp hc) (congrArg Core.flags hc) (congrArg Core.intEnabled hc)
      (congrArg Core.mode hc) (congrArg Core.cr hc), hp ▸ hu.2⟩
  tlb _ _ hu := ⟨hu.1.congr rfl rfl rfl rfl rfl rfl rfl rfl, hu.2⟩
  faddr v hu := ⟨{ hu.1 with cr := fun n hn => (if_neg hn).trans (hu.1.cr n hn) }, hu.2⟩

section Accesses

variable {s : Machine} {F : Fault} {α : Type} {x : M α} (hF : Catches s F)

include hF

theorem catches_access (vec code : Word) (u : Machine)
    (hv : vec = vecBus ∨ vec = vecPf ∨ vec = vecGp) (hu : Primed s u) : Caught s (F vec code u) :=
  hF vec code u (by rcases hv with rfl | rfl | rfl <;> decide) hu

/-- What accesses do with registers and what they do with memory, put together. -/
theorem ends_going {P : Machine → Prop}
    (hq : ∀ {Q : Machine → Prop}, (∀ vec code u, vec = vecBus ∨ vec = vecPf ∨ vec = vecGp →
        Quiet s u ∧ ReturnPc s u.cpu.pc → Q (F vec code u)) → (∀ u, Q (cpuStop exitInvalid u)) →
      Phase.Settles (fun u => Quiet s u ∧ ReturnPc s u.cpu.pc) (fun _ => Q) x)
    (hp : ∀ d u, Shielded (begun s) → (∀ vec code u, vec = vecBus ∨ vec = vecPf ∨ vec = vecGp →
        Pushed (begun s) (Storable (begun s)) (fun _ => 0) d (frameLen (begun s)) u →
          Caught s (F vec code u)) →
      Pushed (begun s) (Storable (begun s)) (fun _ => 0) d (frameLen (begun s)) u →
      Ends x (fun _ => P) (fun _ => Caught s) u) (hu : Going s u) :
    Ends x (fun _ t => (Quiet s t ∧ ReturnPc s t.cpu.pc) ∧ (Shielded (begun s) → P t))
      (fun _ => Caught s) u := by
  by_cases hsh : Shielded (begun s)
  · obtain ⟨d, hd⟩ := hu.1.2 hsh
    have hkeeps := hq (Q := fun _ => True) (fun _ _ _ _ _ => trivial) (fun _ => trivial) u
      ⟨hu.1.1, hu.2⟩
    have hends := hp d u hsh (fun vec code u hv h => catches_access hF vec code u hv
      (Unmoved.ready ⟨d, h⟩)) hd
    exact (hkeeps.and hends).mono (fun _ _ h => ⟨h.1, fun _ => h.2⟩) fun _ _ h => h.2
  · refine (hq (fun vec code u hv h => catches_access hF vec code u hv
      ⟨h.1, fun h => absurd h hsh⟩) (fun _ => .inl rfl) u ⟨hu.1.1, hu.2⟩).mono
      (fun _ _ h => ⟨h, fun h => absurd h hsh⟩) fun _ _ h => h

/-- Accesses that keep the tables keep the first phase. -/
theorem settles_going
    (hq : ∀ {Q : Machine → Prop}, (∀ vec code u, vec = vecBus ∨ vec = vecPf ∨ vec = vecGp →
        Quiet s u ∧ ReturnPc s u.cpu.pc → Q (F vec code u)) → (∀ u, Q (cpuStop exitInvalid u)) →
      Phase.Settles (fun u => Quiet s u ∧ ReturnPc s u.cpu.pc) (fun _ => Q) x)
    (hp : ∀ d, Shielded (begun s) → (∀ vec code u, vec = vecBus ∨ vec = vecPf ∨ vec = vecGp →
        Pushed (begun s) (Storable (begun s)) (fun _ => 0) d (frameLen (begun s)) u →
          Caught s (F vec code u)) →
      Phase.Settles (Pushed (begun s) (Storable (begun s)) (fun _ => 0) d (frameLen (begun s)))
        (fun _ => Caught s) x) : Phase.Settles (Going s) (fun _ => Caught s) x :=
  fun _ hu => (ends_going hF (P := Unmoved s) hq (fun d u hsh hF' hd => (hp d hsh hF' u hd).mono
    (fun _ _ h => ⟨d, h⟩) fun _ _ h => h) hu).mono (fun _ _ h => ⟨⟨h.1.1, h.2⟩, h.1.2⟩)
    fun _ _ h => h

end Accesses

/-! ## The entry -/

section Entries

variable {s : Machine} (hm : s.cpu.mode = .user) (hx : s.extOn = true)

include hm hx

omit hx in
theorem begun_user : (begun s).isUser = true := by
  unfold Machine.isUser
  rw [(begun_quiet s).mode, hm]
  rfl

omit hx in
theorem begun_base : frameBase (begun s) = s.crOf crKsp - 12 := by
  have hk : (begun s).crOf crKsp = s.crOf crKsp := (begun_quiet s).cr _ (by decide)
  unfold frameBase
  rw [frameLen_user (begun_user hm), if_pos (begun_user hm), hk]
  bv_omega

/-- An entry from the first phase saves what the step began with. -/
theorem enter_catches {F : Fault} (hF : Catches s F) {vec savepc : Word} (code : Word)
    (hv : vec &&& 0xFF = vec) (hs : ReturnPc s savepc) (hu : Primed s u) :
    Ends (enter F vec savepc code) (fun _ e => EntryFor s e vec savepc) (fun _ => Caught s) u := by
  by_cases hsh : Shielded (begun s)
  · obtain ⟨d, hd⟩ := hu.2 hsh
    refine (enter_entered hsh.stack ((begun_quiet s).extOn.trans hx) (fun _ h => .inl h)
      (fun _ vec code u hv h => catches_access hF vec code u hv (Unmoved.ready ⟨d, h.restart _⟩))
      code (hd.restart (frameByte (begun s) savepc))).mono (fun _ e h => ?_) fun _ _ h => h
    obtain ⟨t, h, ht, hh, rfl⟩ := h
    have he : Entered (begun s) (Storable (begun s)) vec savepc
        (entryRegs vec code (frameBase (begun s)) h t) := ht.entered hsh.stack hv hh
    exact ⟨hs, rfl, rfl, begun_base hm, he.cause, fun _ => he⟩
  · have hst := Phase.memActions (I := Quiet s)
      { core := fun {u t} hu hc => hu.congr (congrArg Core.cfg hc) (congrArg Core.instPc hc)
          (congrArg Core.regs hc) (congrArg Core.sp hc) (congrArg Core.flags hc)
          (congrArg Core.intEnabled hc) (congrArg Core.mode hc) (congrArg Core.cr hc)
        tlb := fun _ _ hu => hu.congr rfl rfl rfl rfl rfl rfl rfl rfl
        faddr := fun v hu => { hu with cr := fun n hn => (if_neg hn).trans (hu.cr n hn) } }
      (fun vec code u hv h => catches_access hF vec code u hv ⟨h, fun h => absurd h hsh⟩)
      (fun _ => .inl rfl)
    refine (Phase.enter_left hst vec savepc code hu.1).mono (fun _ e h => ?_) fun _ _ h => h
    obtain ⟨t, h, -, rfl⟩ := h
    have hsp : Phase.entrySp u = s.crOf crKsp - 12 := by
      have hk : u.crOf crKsp = s.crOf crKsp := hu.1.cr _ (by decide)
      have hus : u.isUser = true := by
        unfold Machine.isUser
        rw [hu.1.mode, hm]
        rfl
      unfold Phase.entrySp
      rw [if_pos hus, hk]
      bv_omega
    exact ⟨hs, rfl, rfl, hsp, (cause_low vec code).trans hv, fun h => absurd h hsh⟩

omit hm hx in
theorem EntryFor.setDepth {e : Machine} {pc : Word} (h : EntryFor s e v pc) (d : Nat) :
    EntryFor s (setDepth d e) v pc :=
  { h with frame := fun hs => (h.frame hs).setDepth d }

/-- `cpu_fault` makes an entry, perhaps for the double fault, or stops the
machine. -/
theorem cpuFaultN_catches (n : Nat) : Catches s (cpuFaultN n) := by
  induction n with
  | zero => exact fun vec code u _ _ => .inl rfl
  | succ n ih =>
    have hent (vec code : Word) (hv : vec &&& 0xFF = vec) {u : Machine} (hu : Primed s u) :
        Caught s (enterFault (cpuFaultN n) vec code u) :=
      Phase.enterFault_of_ends ((enter_catches hm hx ih code hv (.inl hu.1.instPc) hu).mono
        (fun _ _ h => .inr ⟨_, _, h.setDepth 0⟩) fun _ _ h => h)
    intro vec code u hv hu
    unfold cpuFaultN
    simp only
    split
    · exact hent vec code hv (hu.congr rfl rfl rfl rfl rfl)
    · exact hent vecDf 0 (by decide) (hu.congr rfl rfl rfl rfl rfl)
    · exact .inl rfl

theorem cpuFault_catches : Catches s cpuFault := cpuFaultN_catches hm hx 2

end Entries

/-! ## Instructions of a user program -/

section UserInstructions

variable {s : Machine} (hm : s.cpu.mode = .user) (he : s.extOn = true)

include hm he

theorem memRead_settles (va : Word) (n : Nat) :
    Phase.Settles (Going s) (fun _ => Caught s) (memRead va n) := by
  refine settles_going (cpuFault_catches hm he) (fun hF hQ => ?_) fun d hsh hF u hu => ?_
  · exact Phase.settles_read fun _ => Sequenced.branch (Phase.settles_sequenced.pure _)
      ((Phase.memActions (quiet_stable s) hF hQ).vmRead _ _ _)
  · have hx : (begun s).extOn = true := (begun_quiet s).extOn.trans he
    unfold memRead
    rw [ends_get, hu.extOn, hx]
    exact vmRead_pushed hsh.stack hx hF va n _ u hu

theorem memWrite_user (va v : Word) (n : Nat) (hn : n ≤ 4) (hu : Going s u) :
    Ends (memWrite va v n) (fun _ t => t.cpu.mode = .user) (fun _ => Caught s) u := by
  refine (ends_going (P := fun _ => True) (cpuFault_catches hm he) (fun hF hQ => ?_)
    (fun d u hsh hF hu => ?_) hu).mono (fun _ _ h => h.1.1.mode.trans hm) fun _ _ h => h
  · exact Phase.settles_read fun _ => (Phase.memActions (quiet_stable s) hF hQ).vmWrite _ _ _ _ hn
  · unfold memWrite
    rw [ends_get, hu.isUser, begun_user hm]
    exact vmWrite_stored hsh.stack ((begun_quiet s).extOn.trans he) hsh.tables hF va v n hu

/-- `cpu_deliver` returns only with the entry made. -/
theorem cpuDeliver_enters {vec savepc : Word} (code : Word) (hv : vec &&& 0xFF = vec)
    (hs : ReturnPc s savepc) (hu : Primed s u) :
    Ends (cpuDeliver vec savepc code) (fun _ e => Entry s e) (fun _ => Caught s) u := by
  have hF := cpuFault_catches hm he
  unfold cpuDeliver
  rw [ends_get]
  split
  · exact hF vec code u hv hu
  · rw [ends_modify]
    have hr : Primed s (setDepth 1 u) := hu.congr rfl rfl rfl rfl rfl
    refine (enter_catches hm he hF code hv hs hr).bind fun _ e _ h => ?_
    exact ⟨_, _, h.setDepth 0⟩

omit hm he in
theorem modifyCpu_plain {f : Cpu → Cpu} (hf : ∀ c, (f c).mode = c.mode) :
    Phase.Plain (fun u => u.cpu.mode = .user) (modifyCpu f) :=
  fun u hu => (hf u.cpu).trans hu

omit hm he in
/-- `OP_POPF` keeps a user program in user mode. -/
theorem popFlags_user (v w : Word) :
    ((v &&& ~~~(flagI ||| flagU)) ||| (w ||| flagU)) &&& flagU ≠ 0 := by
  intro h
  have h5 := congrArg (fun w => w.getLsbD 5) h
  simp [flagU] at h5

/-- The phases of an instruction of a user program: nothing changed before it
commits, in user mode afterwards. -/
theorem userRules : Phase.Rules (Going s) (fun u => u.cpu.mode = .user) (Entry s)
    (fun _ => Caught s) where
  ext hu := hu.1.1.extOn.trans he
  commit hu := hu.1.1.mode.trans hm
  setReg _ _ := modifyCpu_plain fun _ => rfl
  setPc _ := modifyCpu_plain fun _ => rfl
  setSp _ := modifyCpu_plain fun _ => rfl
  setFlags _ := modifyCpu_plain fun _ => rfl
  popFlags v u hu := by
    change (if (if u.cpu.mode = .user then _ else v) &&& flagU != 0 then Mode.user
      else Mode.supervisor) = .user
    simp only [hu, ↓reduceIte]
    rw [if_pos]
    exact bne_iff_ne.2 (popFlags_user v _)
  memRead va n := memRead_settles hm he va n
  memWrite va v n hn _ hu := memWrite_user hm he va v n hn hu
  fault hv hu :=
    cpuFault_catches hm he _ _ _ (by rcases hv with rfl | rfl | rfl <;> decide) hu.1
  deliver hv hu := cpuDeliver_enters hm he 0 hv hu.2 hu.1
  wfi hu hs := by
    rw [hu.1.1.mode, hm] at hs
    cases hs
  mode := .inl fun _ hu => hu.1.1.mode.trans hm

end UserInstructions

/-! ## A whole step -/

section Step

variable {s : Machine} (hm : s.cpu.mode = .user) (he : s.extOn = true)

include hm he

theorem nextInstruction_settles (pc : Word) :
    Phase.Settles (Going s) (fun _ => Caught s) (nextInstruction pc) := by
  refine settles_going (cpuFault_catches hm he) (fun hF hQ => ?_) fun d hsh hF => ?_
  · have ha := Phase.memActions (quiet_stable s) hF hQ
    refine nextInstruction_of Phase.settles_sequenced Phase.settles_read (fetchAt_of
      Phase.settles_sequenced Phase.settles_read ha.translate ha.physRead fun _ _ _ u hu => ?_)
      (fun _ _ u hu => ?_) pc
    · exact ⟨hu.1.congr rfl rfl rfl rfl rfl rfl rfl rfl, hu.2⟩
    · exact ⟨hu.1.congr rfl rfl rfl rfl rfl rfl rfl rfl, hu.2⟩
  · refine nextInstruction_of Phase.settles_sequenced Phase.settles_read
      (fetchAt_pushed hsh.stack ((begun_quiet s).extOn.trans he) hF) (fun p tab u hu => ?_) pc
    have h := hu.congr (t := setTable p tab u) rfl rfl rfl rfl hu.loads
    exact hu.depth ▸ h

/-- `step_one` executes a division of the 16-bit machine whose divisor is
zero. -/
def legacyDivision (s : Machine) : Bool :=
  match fetched s with
  | none => false
  | some i =>
    match Opcode.ofByte (i.b 0) with
    | none => false
    | some op => legacyDivZero op i s.cpu

omit hm he in
theorem lowestBit_lt {p : Word} {k m : Nat} (h : lowestBit p k n = some m) : m < n + k := by
  induction k generalizing n with
  | zero => cases h
  | succ k ih =>
    unfold lowestBit at h
    split at h
    · cases h
      omega
    · have := ih h
      omega

omit hm he in
theorem irqVec_low (h : n < 32) :
    (vecIrq + BitVec.ofNat 32 n) &&& 0xFF = vecIrq + BitVec.ofNat 32 n := by
  apply BitVec.eq_of_toNat_eq
  have h8 : ((vecIrq + BitVec.ofNat 32 n) &&& 0xFF).toNat =
      (vecIrq + BitVec.ofNat 32 n).toNat % 2 ^ 8 := toNat_and_low _ 8 (by decide)
  rw [h8]
  unfold vecIrq
  bv_omega

/-- The interrupt part of a step: nothing happens, or an entry is made. -/
theorem takeIrq_enters
    (hnh : (decide (s.dev.devNext ≤ s.cpu.icount) && (afterEvents s).cpu.halted) = false) :
    Ends takeIrq (fun _ e => (e = afterEvents s ∧ goesOn s = true) ∨ Entry s e)
      (fun _ => Caught s) (afterEvents s) := by
  unfold takeIrq
  rw [ends_get]
  cases hn : pendingLine (afterEvents s) with
  | none => exact .inl ⟨rfl, by simp only [goesOn, hnh, hn]; rfl⟩
  | some n =>
    simp only
    split
    · have hpc : ReturnPc s (afterEvents s).cpu.pc :=
        .inl (congrArg Core.pc (afterEvents_core s))
      have hlt : n < 32 := by simpa using lowestBit_lt hn
      exact (cpuDeliver_enters hm he 0 (irqVec_low hlt) hpc (begun_ready s)).mono
        (fun _ _ h => .inr h) fun _ _ h => h
    · rename_i hoff
      rw [Bool.not_eq_true] at hoff
      exact .inl ⟨rfl, by simp only [goesOn, hnh, hn, Option.isSome_some, Bool.true_and, hoff]; rfl⟩

theorem runInstruction_finishes (hg : goesOn s = true) (hd : legacyDivision s = false) :
    Ends runInstruction (fun _ e => e.cpu.mode = .user ∨ Entry s e) (fun _ => Caught s)
      (afterEvents s) := by
  have hpc : (afterEvents s).cpu.pc = s.cpu.pc := congrArg Core.pc (afterEvents_core s)
  refine (nextInstruction_settles hm he _ _ ⟨begun_ready s, .inl hpc⟩).bind fun i u hi hu => ?_
  have hi' : nextInstruction (afterEvents s).cpu.pc { afterEvents s with
      cpu := { (afterEvents s).cpu with instPc := (afterEvents s).cpu.pc } } = .ok i u := hi
  have hf : fetched s = some i := by
    unfold fetched
    rw [if_pos hg]
    simp only [hi']
  have hu' : Going s { u with cpu :=
      { u.cpu with pc := (afterEvents s).cpu.pc + BitVec.ofNat 32 i.length } } :=
    ⟨hu.1.congr rfl rfl rfl rfl rfl, .inr ⟨i, hf, by rw [← hpc]⟩⟩
  have hnd (op : Opcode) (ho : Opcode.ofByte (i.b 0) = some op) (t : Machine) (ht : Going s t) :
      legacyDivZero op i t.cpu = false := by
    have h : legacyDivZero op i s.cpu = false := by
      simpa only [legacyDivision, hf, ho] using hd
    rw [← h]
    unfold legacyDivZero
    rw [ht.1.1.regs]
  refine ((userRules hm he).executeInstruction (.inr hnd) _ hu').bind fun _ e _ h => ?_
  exact h.imp id fun ⟨v, pc, h⟩ => ⟨v, pc, { h with frame := fun hs => { h.frame hs with } }⟩

/-- `s'` is the state after an entry from `s` for an interrupt and the first
instruction of its handler, which `step_one` executes in the same step. -/
def Handled (s s' : Machine) : Prop :=
  ∃ e, takeIrq (afterEvents s) = .ok () e ∧ Entry s e ∧ endState (runInstruction e) = s'

theorem stepOne_finishes (hd : legacyDivision s = false) :
    let P := fun e : Machine =>
      e.cpu.mode = .user ∨ e.cpu.halted = true ∨ Entry s e ∨ Handled s e
    Ends stepOne (fun _ e => P e) (fun _ e => P e) s := by
  intro P
  have hcaught (e : Machine) (h : Caught s e) : P e := .inr (h.imp id .inl)
  have hrest (hnh : (decide (s.dev.devNext ≤ s.cpu.icount) && (afterEvents s).cpu.halted) = false) :
      Ends stepRest (fun _ e => P e) (fun _ e => P e) (afterEvents s) := by
    have ht := (takeIrq_enters hm he hnh).mono (fun _ _ h => h) fun _ => hcaught
    refine ht.bind fun _ e hirq h => ?_
    rcases h with ⟨rfl, hg⟩ | hent
    · exact (runInstruction_finishes hm he hg hd).mono
        (fun _ _ h => h.imp id fun h => .inr (.inl h)) fun _ => hcaught
    · unfold Ends
      cases hr : runInstruction e with
      | ok a s' => exact .inr (.inr (.inr ⟨e, hirq, hent, by rw [hr]; rfl⟩))
      | error x s' => exact .inr (.inr (.inr ⟨e, hirq, hent, by rw [hr]; rfl⟩))
  unfold stepOne
  rw [ends_get]
  split
  · rename_i hdue
    have hev : afterEvents s = devEvents s := if_pos hdue
    rw [ends_modify]
    change Ends (if (devEvents s).cpu.halted then pure () else stepRest) _ _ (devEvents s)
    split
    · rename_i hh
      exact .inr (.inl hh)
    · rename_i hh
      rw [← hev]
      exact hrest (by simpa [hdue, hev] using hh)
  · rename_i hdue
    have hev : afterEvents s = s := if_neg hdue
    have hr := hrest (by simp [hdue])
    rwa [hev] at hr

end Step

/-- A user program in extended mode, with a supervisor stack below `0x3000` and
the vectors at `0x2000`. -/
def userProgram (program : List Byte) : Machine :=
  let s := loadProgram program (cpuInitSize bareConfig bareHost)
  let s := ((s.setCr crCtrl cr0Ext).setCr crKsp 0x3000).setCr crEvt 0x2000
  { s with cpu := { s.cpu with mode := .user, sp := 0x8000 } }

/-- What a step does to mode, stack pointer and the running of a program. -/
theorem exists_step (s : Machine) (m : Mode) (b : Bool) (sp : Word)
    (h : (cpuStep s).map (fun s' => (s'.cpu.mode, s'.cpu.halted, s'.cpu.sp)) = some (m, b, sp)) :
    ∃ s', cpuStep s = some s' ∧ s'.cpu.mode = m ∧ s'.cpu.halted = b ∧ s'.cpu.sp = sp := by
  obtain ⟨s', hs, h⟩ := Option.map_eq_some_iff.1 h
  simp only [Prod.mk.injEq] at h
  exact ⟨s', hs, h⟩

theorem userProgram_shielded : Shielded (begun (userProgram [0x3F])) := by
  have hp : (begun (userProgram [0x3F])).pgOn = false := by decide
  refine ⟨fun h => ?_, ?_, fun h => ?_⟩
  · rw [hp] at h
    cases h
  · rintro a ⟨k, hk, h⟩
    have hb : frameBase (begun (userProgram [0x3F])) = 0x2FF4 := by decide
    have ha : a = 0x2FF4 + BitVec.ofNat 32 k := by
      rw [hb] at h
      exact (Option.some.inj h).symm
    refine ⟨?_, fun h => by rw [hp] at h; cases h⟩
    change a < 0x100000
    have hlen := (frameLen_bounds (begun (userProgram [0x3F]))).2
    bv_omega
  · rw [hp] at h
    cases h

end Tortoise.Emu
