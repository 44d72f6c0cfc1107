import Tortoise.Lib.Bits
import Tortoise.Emu.Step

/-!
# What the devices leave alone

Two facts about every device routine, proved once per routine and used by every
result about whole steps:

* it touches the processor and the caches only through the block writes of
  `dmaWrite` (`Dma`): program counter, registers, mode, control registers,
  translation and fetch caches stay as they are (`Dma.core`);
* it never looks at the decoded-instruction cache: it commutes with `erase`,
  which empties that cache and switches it off.
-/

namespace Tortoise.Emu

variable {s s' : Machine} {n : Nat} {v pa : Word}

/-! ## The untouched part of the state -/

/-- The part of the state that no device routine changes. -/
structure Core where
  cfg : Config
  pc : Word
  regs : BitVec 3 → Word
  sp : Word
  flags : Byte
  intEnabled : Bool
  mode : Mode
  syscallPc : Word
  cr : BitVec 4 → Word
  instPc : Word
  depth : Nat
  tlb : Nat → TlbEnt
  tlbGen : Word
  fTag : Word
  fPtr : FetchPtr
  fPpn : Option Nat
  dcOn : Bool

/-- The part of `s` that no device routine changes. -/
def Machine.core (s : Machine) : Core where
  cfg := s.cfg
  pc := s.cpu.pc
  regs := s.cpu.regs
  sp := s.cpu.sp
  flags := s.cpu.flags
  intEnabled := s.cpu.intEnabled
  mode := s.cpu.mode
  syscallPc := s.cpu.syscallPc
  cr := s.cpu.cr
  instPc := s.cpu.instPc
  depth := s.cpu.depth
  tlb := s.tlb
  tlbGen := s.tlbGen
  fTag := s.fTag
  fPtr := s.fPtr
  fPpn := s.fPpn
  dcOn := s.dcOn

/-- What a sequence of device actions does: changes outside the core, dropped
decoded instructions, and blocks written inside RAM with their invalidation. -/
inductive Dma : Machine → Machine → Prop
  | quiet {s s' : Machine} : s'.core = s.core → s'.mem = s.mem → s'.dcTab = s.dcTab → Dma s s'
  | drop (s : Machine) (a n : Word) : Dma s (cpuMemWritten a n s)
  | write (s : Machine) (a : Word) (n : Nat) (f : Nat → Byte) :
      a.toNat + n ≤ s.cfg.ramSize.toNat → Dma s (dmaWrite a n f s)
  | trans {s t u : Machine} : Dma s t → Dma t u → Dma s u

theorem Dma.refl (s : Machine) : Dma s s := .quiet rfl rfl rfl

theorem Dma.core (h : Dma s s') : s'.core = s.core := by
  induction h with
  | quiet h _ _ => exact h
  | drop s a n =>
    unfold cpuMemWritten
    split <;> rfl
  | write s a n f _ =>
    unfold dmaWrite cpuMemWritten
    split <;> rfl
  | trans _ _ ih₁ ih₂ => rw [ih₂, ih₁]

theorem Dma.cfg (h : Dma s s') : s'.cfg = s.cfg := congrArg Core.cfg h.core

theorem Dma.after {t u : Machine} (h : Dma t u) (hc : t.core = s.core) (hm : t.mem = s.mem)
    (hd : t.dcTab = s.dcTab) : Dma s u :=
  (Dma.quiet hc hm hd).trans h

theorem Dma.ite {s₁ s₂ : Machine} {c : Prop} [Decidable c] (h₁ : Dma s s₁) (h₂ : Dma s s₂) :
    Dma s (if c then s₁ else s₂) := by
  split <;> assumption

/-! ## Routines without the timer -/

/-- What neither the processor's routines nor the timer's may find changed. -/
def Machine.rest (s : Machine) :=
  (s.core, s.mem, s.dcTab, s.cpu.icount, s.cpu.halted, s.dev.devNext, s.dev.tLast, s.dev.tFrac,
    s.dev.tCount, s.dev.tPhase, s.dev.picPending.getLsbD 0, s.dev.tPeriod, s.dev.tCtrl,
    s.dev.tPrescale)

/-- What the devices other than the timer do: besides their block writes they may only ask for the
devices to be looked at at once, or stop the machine. -/
inductive Serves : Machine → Machine → Prop
  | quiet {s s' : Machine} : s'.rest = s.rest → Serves s s'
  | stop (s : Machine) (code : Nat) : Serves s (cpuStop code s)
  | soon (s : Machine) : Serves s { s with dev := { s.dev with devNext := s.cpu.icount } }
  | drop (s : Machine) (a n : Word) : Serves s (cpuMemWritten a n s)
  | write (s : Machine) (a : Word) (n : Nat) (f : Nat → Byte) :
      a.toNat + n ≤ s.cfg.ramSize.toNat → Serves s (dmaWrite a n f s)
  | trans {s t u : Machine} : Serves s t → Serves t u → Serves s u

theorem Serves.refl (s : Machine) : Serves s s := .quiet rfl

theorem Serves.dma (h : Serves s s') : Dma s s' := by
  induction h with
  | quiet h =>
    simp only [Machine.rest, Prod.mk.injEq] at h
    exact .quiet h.1 h.2.1 h.2.2.1
  | stop s code => exact .quiet rfl rfl rfl
  | soon s => exact .quiet rfl rfl rfl
  | drop s a n => exact .drop s a n
  | write s a n f h => exact .write s a n f h
  | trans _ _ ih₁ ih₂ => exact ih₁.trans ih₂

theorem Serves.cfg (h : Serves s s') : s'.cfg = s.cfg := h.dma.cfg

theorem Serves.after {t u : Machine} (h : Serves t u) (hr : t.rest = s.rest) : Serves s u :=
  (Serves.quiet hr).trans h

theorem Serves.ite {s₁ s₂ : Machine} {c : Prop} [Decidable c] (h₁ : Serves s s₁)
    (h₂ : Serves s s₂) : Serves s (if c then s₁ else s₂) := by
  split <;> assumption

/-! ## Registers read without memory -/

/-- Memory and the decoded instructions. -/
structure Store where
  mem : Word → Byte
  dcTab : Nat → Option (Nat → DEnt)
  dcOn : Bool

def Store.emptied (x : Store) : Store := { x with dcTab := fun _ => none, dcOn := false }

/-- The machine with its store changed. -/
def Machine.recast (f : Store → Store) (s : Machine) : Machine :=
  let x := f ⟨s.mem, s.dcTab, s.dcOn⟩
  { s with mem := x.mem, dcTab := x.dcTab, dcOn := x.dcOn }

section Recast

variable (f : Store → Store) (off : Word) (s : Machine)

theorem recast_ite (c : Prop) [Decidable c] (t : Machine) :
    (if c then s else t).recast f = if c then s.recast f else t.recast f :=
  apply_ite (Machine.recast f) c s t

theorem recast_host : (s.recast f).host = s.host := rfl

theorem recast_cfg : (s.recast f).cfg = s.cfg := rfl

theorem timerPhase_recast (n : BitVec 64) :
    timerPhase n (s.recast f) = (timerPhase n s).recast f := by
  rw [timerPhase, timerPhase, recast_ite]
  rfl

theorem timerSync_recast : timerSync (s.recast f) = (timerSync s).recast f := by
  rw [timerSync, timerSync, recast_ite]
  refine ite_congr rfl (fun _ => ?_) fun _ => rfl
  rw [← timerPhase_recast]
  rfl

theorem timerRd_recast :
    timerRd off (s.recast f) = ((timerRd off s).1, (timerRd off s).2.recast f) := by
  simp only [timerRd, timerSync_recast]
  rfl

theorem uartRxCheck_recast : uartRxCheck (s.recast f) = (uartRxCheck s).recast f := by
  rw [uartRxCheck, uartRxCheck, recast_ite]
  rfl

theorem conGetc_recast : conGetc (s.recast f) = ((conGetc s).1, (conGetc s).2.recast f) := by
  unfold conGetc
  rw [recast_host]
  split
  · rfl
  · rw [← uartRxCheck_recast]
    rfl
  · split
    · rfl
    · rw [← uartRxCheck_recast]
      rfl

theorem uartRd_recast :
    uartRd off (s.recast f) = ((uartRd off s).1, (uartRd off s).2.recast f) := by
  unfold uartRd
  rw [conGetc_recast, show conAvail (s.recast f) = conAvail s from rfl]
  split_ifs <;> rcases conGetc s with ⟨_ | c, t⟩ <;> rfl

theorem kbdRd_recast :
    kbdRd off (s.recast f) = ((kbdRd off s).1, (kbdRd off s).2.recast f) := by
  unfold kbdRd
  rw [recast_host, recast_cfg, show (s.recast f).dev = s.dev from rfl]
  split_ifs <;> first | rfl | (cases s.host.keys <;> rfl)

theorem rtcRd_recast :
    rtcRd off (s.recast f) = ((rtcRd off s).1, (rtcRd off s).2.recast f) := by
  unfold rtcRd
  rw [recast_host, recast_cfg]
  split
  · rfl
  · split
    · rfl
    · split <;> rfl

/-- A device is read alike whatever the memory holds. -/
theorem devRead_recast (pa : Word) :
    devRead pa (s.recast f) = (devRead pa s).map fun r => (r.1, r.2.recast f) := by
  unfold devRead
  simp only [timerRd_recast, uartRd_recast, kbdRd_recast, rtcRd_recast]
  split <;> rfl

end Recast

/-! ## Forgetting the decoded-instruction cache -/

/-- The machine with the decoded-instruction cache empty and switched off. -/
def Machine.erase (s : Machine) : Machine := { s with dcTab := fun _ => none, dcOn := false }

section EraseProjections

variable (s : Machine)

@[simp] theorem erase_cfg : s.erase.cfg = s.cfg := rfl
@[simp] theorem erase_cpu : s.erase.cpu = s.cpu := rfl
@[simp] theorem erase_mem : s.erase.mem = s.mem := rfl
@[simp] theorem erase_fTag : s.erase.fTag = s.fTag := rfl
@[simp] theorem erase_fPpn : s.erase.fPpn = s.fPpn := rfl
@[simp] theorem erase_dev : s.erase.dev = s.dev := rfl
@[simp] theorem erase_net : s.erase.net = s.net := rfl
@[simp] theorem erase_host : s.erase.host = s.host := rfl
@[simp] theorem erase_dcTab (p : Nat) : s.erase.dcTab p = none := rfl

end EraseProjections

/-- Dropping decoded instructions is invisible without the cache. -/
@[simp] theorem cpuMemWritten_erase (a n : Word) (s : Machine) :
    cpuMemWritten a n s.erase = (cpuMemWritten a n s).erase := by
  unfold cpuMemWritten
  split
  · rfl
  · simp [Machine.erase]

@[simp] theorem dmaWrite_erase (a : Word) (n : Nat) (f : Nat → Byte) (s : Machine) :
    dmaWrite a n f s.erase = (dmaWrite a n f s).erase :=
  cpuMemWritten_erase a _ { s with mem := storeBytes s.mem a n f }

theorem erase_ite (c : Prop) [Decidable c] (s t : Machine) :
    (if c then s else t).erase = if c then s.erase else t.erase :=
  apply_ite Machine.erase c s t

/-- From `s` the devices come to `t`, and to `e` without the decoded instructions. -/
structure Served (s t e : Machine) : Prop where
  serves : Serves s t
  erase : e = t.erase

/-- A routine that does not look at the decoded instructions. -/
def Routine (f : Machine → Machine) : Prop := ∀ s, Served s (f s) (f s.erase)

namespace Served

theorem refl (s : Machine) : Served s s s.erase := ⟨.refl s, rfl⟩

theorem quiet (h : s'.rest = s.rest) : Served s s' s'.erase := ⟨.quiet h, rfl⟩

theorem ite {t e t' e' : Machine} {c : Prop} [Decidable c] (h : Served s t e)
    (h' : Served s t' e') : Served s (if c then t else t') (if c then e else e') := by
  split <;> assumption

theorem andThen {t e : Machine} {f : Machine → Machine} (h : Served s t e) (hf : Routine f) :
    Served s (f t) (f e) :=
  ⟨h.serves.trans (hf t).serves, h.erase ▸ (hf t).erase⟩

end Served

section Devices

variable (u : Fin 2) (off port v : Word) (t : BitVec 64) (s : Machine)

/-! ## Interrupt controller, timer, UART -/

theorem picRaise_routine {l : Nat} (hl : l ≠ 0) : Routine (picRaise l) := fun _ =>
  .quiet (by simp [Machine.rest, Machine.core, picRaise, hl])

@[simp] theorem picWr_erase : picWr off v s.erase = (picWr off v s).erase := by
  rw [picWr, picWr, erase_ite, erase_ite]
  rfl

theorem picWr_dma : Dma s (picWr off v s) := by
  unfold picWr
  split_ifs <;> exact .quiet rfl rfl rfl

theorem timerPhase_dma (n : BitVec 64) (s : Machine) : Dma s (timerPhase n s) := by
  unfold timerPhase
  exact .ite (.quiet rfl rfl rfl) (.quiet rfl rfl rfl)

@[simp] theorem timerSync_erase : timerSync s.erase = (timerSync s).erase :=
  timerSync_recast .emptied s

theorem timerSync_dma : Dma s (timerSync s) := by
  unfold timerSync
  exact .ite ((timerPhase_dma _ _).after rfl rfl rfl) (.quiet rfl rfl rfl)

theorem timerRd_dma : Dma s (timerRd off s).2 := timerSync_dma s

@[simp] theorem timerWr_erase : timerWr off v s.erase = (timerWr off v s).erase := by
  simp only [timerWr, timerSync_erase, erase_dev, erase_cpu]
  rfl

theorem timerWr_dma : Dma s (timerWr off v s) :=
  (timerSync_dma s).trans (.quiet rfl rfl rfl)

theorem conPutc_routine (c : Byte) : Routine (conPutc c) := fun _ => .quiet rfl

theorem uartRxCheck_routine : Routine uartRxCheck := fun s =>
  .ite (picRaise_routine (by decide) s) (.refl s)

theorem stdinPoll_routine : Routine stdinPoll := by
  intro s
  refine .ite (.refl s) ?_
  rw [erase_host]
  cases s.host.stdinFeed with
  | nil => exact .refl s
  | cons p rest => exact .ite (.quiet rfl) (.andThen (.quiet rfl) uartRxCheck_routine)

@[simp] theorem conGetc_erase : conGetc s.erase = ((conGetc s).1, (conGetc s).2.erase) :=
  conGetc_recast .emptied s

theorem conGetc_serves : Serves s (conGetc s).2 := by
  unfold conGetc
  split
  · exact .refl s
  · exact (uartRxCheck_routine _).serves.after rfl
  · split
    · exact .refl s
    · exact (uartRxCheck_routine _).serves.after rfl

theorem uartRd_serves : Serves s (uartRd off s).2 := by
  have h := conGetc_serves s
  unfold uartRd
  split_ifs <;> rcases hc : conGetc s with ⟨_ | c, t⟩ <;> rw [hc] at h <;>
    first | exact h | exact .refl s

theorem uartWr_routine : Routine (uartWr off v) := by
  intro s
  have hput := conPutc_routine (v.setWidth 8) s
  refine .ite (.ite (hput.andThen (picRaise_routine (by decide))) hput) ?_
  exact .ite (.andThen (.quiet rfl) uartRxCheck_routine) (.refl s)

/-! ## Disks -/

theorem setDisk_routine (r : DiskRegs) : Routine (setDisk u r) := fun _ => .quiet rfl

@[simp] theorem diskRd_erase (sec : Word) (s : Machine) : diskRd u sec s.erase = diskRd u sec s :=
  rfl

@[simp] theorem diskWr_erase (sec : Word) (buf : Nat → Byte) (s : Machine) :
    diskWr u sec buf s.erase = (diskWr u sec buf s).map Machine.erase := by
  rw [diskWr, diskWr, apply_ite (Option.map Machine.erase)]
  rfl

theorem diskWr_serves {s : Machine} {u : Fin 2} {sec : Word} {buf : Nat → Byte}
    (h : diskWr u sec buf s = some s') : Serves s s' := by
  unfold diskWr at h
  split at h
  · simp at h
  · rw [← Option.some.inj h]
    exact .quiet rfl

theorem diskTransfer_erase (cmd sec a : Word) (n i : Nat) (s : Machine) :
    diskTransfer u cmd sec a n i s.erase =
      ((diskTransfer u cmd sec a n i s).1, (diskTransfer u cmd sec a n i s).2.erase) := by
  induction n generalizing i s with
  | zero => rfl
  | succ n ih =>
    simp only [diskTransfer, diskRd_erase, diskWr_erase, erase_mem]
    split
    · cases diskRd u (sec + BitVec.ofNat 32 i) s with
      | none => simp
      | some f => simp [ih]
    · cases diskWr u (sec + BitVec.ofNat 32 i) (fun k => s.mem (a +
        BitVec.ofNat 32 (i * diskSectorSize) + BitVec.ofNat 32 k)) s with
      | none => rfl
      | some s' => exact ih (i + 1) s'

/-- The blocks of a disk transfer stay inside the range that was checked. -/
theorem diskTransfer_serves (cmd sec a : Word) (n i : Nat) (s : Machine)
    (h : a.toNat + (i + n) * diskSectorSize ≤ s.cfg.ramSize.toNat) :
    Serves s (diskTransfer u cmd sec a n i s).2 := by
  induction n generalizing i s with
  | zero => exact .refl s
  | succ n ih =>
    have hr := s.cfg.ram_le
    have hi : a.toNat + (i + 1 + n) * diskSectorSize ≤ s.cfg.ramSize.toNat := by
      rw [show i + 1 + n = i + (n + 1) by omega]
      exact h
    unfold diskTransfer
    simp only
    split
    · split
      · exact .drop s (a + BitVec.ofNat 32 (i * diskSectorSize)) 512
      · rename_i f _
        have hw : Serves s
            (dmaWrite (a + BitVec.ofNat 32 (i * diskSectorSize)) diskSectorSize f s) := by
          refine .write s _ _ f ?_
          rw [BitVec.toNat_add, BitVec.toNat_ofNat]
          unfold diskSectorSize at *
          omega
        exact hw.trans (ih (i + 1) _ (hw.cfg ▸ hi))
    · split
      · exact .refl s
      · rename_i s' hs
        have hw := diskWr_serves hs
        exact hw.trans (ih (i + 1) _ (hw.cfg ▸ hi))

theorem diskAttempt_erase :
    diskAttempt u s.erase = ((diskAttempt u s).1, (diskAttempt u s).2.erase) := by
  unfold diskAttempt
  simp only [diskTransfer_erase, erase_cfg, erase_dev]
  split <;> rfl

theorem diskAttempt_serves : Serves s (diskAttempt u s).2 := by
  unfold diskAttempt
  simp only
  split
  · exact .refl s
  · rename_i h
    refine diskTransfer_serves u _ _ _ _ 0 s ?_
    rw [Nat.zero_add]
    omega

theorem diskFinish_routine (err : Bool) : Routine (diskFinish u err) := fun s =>
  (setDisk_routine u _ s).andThen (picRaise_routine (by split <;> decide))

theorem diskComplete_routine : Routine (diskComplete u) := by
  intro s
  refine ⟨(setDisk_routine u _ s).serves.trans
    ((diskAttempt_serves u _).trans (diskFinish_routine u _ _).serves), ?_⟩
  unfold diskComplete
  simp only [erase_dev, (setDisk_routine _ _ _).erase, diskAttempt_erase]
  rfl

theorem diskRegWr_routine : Routine (diskRegWr u off v) := by
  intro s
  refine .ite (setDisk_routine u _ s) (.ite (setDisk_routine u _ s)
    (.ite (setDisk_routine u _ s) (.ite ?_ ?_)))
  · exact .ite (.refl s) ⟨(setDisk_routine u _ s).serves.trans (.soon _), rfl⟩
  · exact .ite (setDisk_routine u _ s) (.refl s)

/-! ## Clock, frame buffer, keyboard, power switch -/

theorem rtcRd_serves : Serves s (rtcRd off s).2 := by
  unfold rtcRd
  split
  · exact .refl s
  · split
    · exact .refl s
    · split <;> exact .quiet rfl

theorem fbWr_routine : Routine (fbWr off v) := fun s =>
  .ite (.refl s) (.ite (.quiet rfl) (.ite (.quiet rfl) (.refl s)))

theorem kbdRd_serves : Serves s (kbdRd off s).2 := by
  unfold kbdRd
  split_ifs <;> first | exact .refl s | (cases s.host.keys <;> exact .quiet rfl)

theorem kbdWr_routine : Routine (kbdWr off v) := fun s =>
  .ite (.refl s) (.ite (.quiet rfl) (.refl s))

theorem cpuStop_routine (code : Nat) : Routine (cpuStop code) := fun s => ⟨.stop s code, rfl⟩

theorem sysWr_routine : Routine (sysWr off v) := fun s => .ite (cpuStop_routine _ s) (.refl s)

/-! ## Network interface -/

theorem tryDeliver_routine : Routine tryDeliver := by
  intro s
  refine .ite (.refl s) ?_
  rw [erase_cfg, erase_net]
  split
  · exact .refl s
  · rename_i hr
    cases s.net.queue with
    | nil => exact .refl s
    | cons f q =>
      have hf := f.length_le
      have hw : Serves s (dmaWrite s.net.rxAddr f.d.length (fun i => f.d.getD i 0) s) := by
        refine .write s _ _ _ ?_
        unfold rxbufSize at hr
        unfold frameMax at hf
        omega
      simp only [dmaWrite_erase]
      exact .ite (.andThen ⟨hw.trans (.quiet rfl), rfl⟩ (picRaise_routine (by decide)))
        ⟨hw.trans (.quiet rfl), rfl⟩

theorem receive_routine (d : List Byte) : Routine (receive d) := by
  intro s
  unfold receive
  split
  · exact .refl s
  · exact .ite (.refl s) (.ite (.quiet rfl) (.andThen (.quiet rfl) tryDeliver_routine))

theorem schedule_dma : Dma s (schedule s) := .quiet rfl rfl rfl

@[simp] theorem netWr_erase : netWr off v s.erase = (netWr off v s).erase := by
  simp only [netWr, erase_ite, ← (tryDeliver_routine _).erase]
  rfl

/-- The network interface looks for the next event only when it takes a frame. -/
theorem netWr_cases : Serves s (netWr off v s) ∨ ∃ t, Serves s t ∧ netWr off v s = schedule t := by
  have hd {t : Machine} (hr : t.rest = s.rest) : Serves s (tryDeliver t) :=
    (tryDeliver_routine t).serves.after hr
  unfold netWr
  split_ifs
  · exact .inl (hd rfl)
  · exact .inl (hd rfl)
  · exact .inl (.refl s)
  · exact .inl (.quiet rfl)
  · dsimp only
    split
    · exact .inl (.quiet rfl)
    · refine .inr ⟨_, ?_, rfl⟩
      exact .quiet rfl
  · exact .inl (hd rfl)
  · exact .inl (.refl s)

theorem netWr_dma : Dma s (netWr off v s) := by
  obtain h | ⟨t, h, he⟩ := netWr_cases off v s
  · exact h.dma
  · exact he ▸ h.dma.trans (schedule_dma t)

theorem netPollLoop_erase (ds : List (List Byte)) (s : Machine) :
    netPollLoop ds s.erase = ((netPollLoop ds s).1, (netPollLoop ds s).2.erase) := by
  induction ds generalizing s with
  | nil => rfl
  | cons d ds ih =>
    unfold netPollLoop
    split
    · rfl
    · rw [(receive_routine d s).erase]
      exact ih _

theorem netPollLoop_serves (ds : List (List Byte)) (s : Machine) :
    Serves s (netPollLoop ds s).2 := by
  induction ds generalizing s with
  | nil => exact .refl s
  | cons d ds ih =>
    unfold netPollLoop
    split
    · exact .refl s
    · exact (receive_routine d s).serves.trans (ih _)

theorem netPoll_routine : Routine netPoll := by
  intro s
  refine .ite (.refl s) ?_
  rw [erase_host]
  cases s.host.udpFeed with
  | nil => exact .refl s
  | cons ds rest =>
    have he := netPollLoop_erase ds { s with host := { s.host with udpFeed := rest } }
    have h : Serves s (netPollLoop ds { s with host := { s.host with udpFeed := rest } }).2 :=
      (netPollLoop_serves ds _).after rfl
    simp only
    erw [he]
    exact .ite ⟨h, rfl⟩ ⟨h.trans (.quiet rfl), rfl⟩

theorem txSend_routine : Routine txSend := by
  intro s
  rw [txSend, txSend, erase_cfg]
  cases s.cfg.backend with
  | none => exact .refl s
  | udp => exact .quiet rfl
  | loop => exact receive_routine _ s

theorem txCheck_routine : Routine txCheck := fun s =>
  .ite (picRaise_routine (by decide) s) (.refl s)

theorem netEvents_routine : Routine netEvents := fun s =>
  .ite (.andThen (.andThen (.quiet rfl) txSend_routine) txCheck_routine) (.refl s)

/-! ## The device window -/

@[simp] theorem devRead_erase (pa : Word) (s : Machine) :
    devRead pa s.erase = (devRead pa s).map fun r => (r.1, r.2.erase) :=
  devRead_recast .emptied s pa

theorem devRead_dma {s : Machine} {r : Word × Machine} (h : devRead pa s = some r) : Dma s r.2 := by
  unfold devRead at h
  simp only at h
  split at h <;> first
    | (rw [← Option.some.inj h]
       first
         | exact .refl s | exact timerRd_dma _ s | exact (uartRd_serves _ s).dma
         | exact (kbdRd_serves _ s).dma | exact (rtcRd_serves _ s).dma)
    | cases h

@[simp] theorem devWrite_erase (pa v : Word) (s : Machine) :
    devWrite pa v s.erase = (devWrite pa v s).map Machine.erase := by
  unfold devWrite
  simp only [picWr_erase, timerWr_erase, (uartWr_routine _ _ _).erase,
    (diskRegWr_routine _ _ _ _).erase, (kbdWr_routine _ _ _).erase, (fbWr_routine _ _ _).erase,
    (sysWr_routine _ _ _).erase, netWr_erase]
  split <;> rfl

theorem devWrite_dma {s : Machine} {v : Word} (h : devWrite pa v s = some s') : Dma s s' := by
  unfold devWrite at h
  simp only at h
  split at h <;> first
    | (rw [← Option.some.inj h]
       first
         | exact .refl s | exact picWr_dma _ v s | exact timerWr_dma _ v s
         | exact (uartWr_routine _ v s).serves.dma | exact (diskRegWr_routine _ _ v s).serves.dma
         | exact (kbdWr_routine _ v s).serves.dma | exact (fbWr_routine _ v s).serves.dma
         | exact (sysWr_routine _ v s).serves.dma | exact netWr_dma _ v s)
    | cases h

/-! ## Events -/

theorem sdlFrame_routine : Routine sdlFrame := by
  intro s
  rw [sdlFrame, sdlFrame, erase_host]
  cases s.host.keyFeed with
  | nil => exact .refl s
  | cons p rest => exact .ite (.andThen (.quiet rfl) (cpuStop_routine 0)) (.quiet rfl)

theorem diskEvent_routine : Routine (diskEvent u) := fun s =>
  .ite (diskComplete_routine u s) (.refl s)

theorem setPollAt_routine : Routine (setPollAt t) := fun _ => .quiet rfl

theorem setFbAt_routine : Routine (setFbAt t) := fun _ => .quiet rfl

theorem setIcount_dma : Dma s (setIcount t s) := .quiet rfl rfl rfl

theorem pollEvent_routine : Routine pollEvent := fun s =>
  .ite (((stdinPoll_routine s).andThen netPoll_routine).andThen (setPollAt_routine _)) (.refl s)

theorem kbdCheck_routine : Routine kbdCheck := fun s =>
  .ite (picRaise_routine (by decide) s) (.refl s)

theorem frameEvent_routine : Routine frameEvent := fun s =>
  .ite (((sdlFrame_routine s).andThen kbdCheck_routine).andThen (setFbAt_routine _)) (.refl s)

/-- The part of `dev_events` that is not the timer's. -/
theorem events_routine :
    Routine fun s => frameEvent (pollEvent (diskEvent 1 (diskEvent 0 (netEvents s)))) := fun s =>
  ((((netEvents_routine s).andThen (diskEvent_routine 0)).andThen (diskEvent_routine 1)).andThen
    pollEvent_routine).andThen frameEvent_routine

@[simp] theorem devEvents_erase : devEvents s.erase = (devEvents s).erase := by
  rw [devEvents, devEvents, erase_ite]
  simp only [timerSync_erase, (events_routine _).erase]
  rfl

theorem devEvents_dma : Dma s (devEvents s) := by
  unfold devEvents
  refine .ite (Serves.stop s _).dma ?_
  exact ((timerSync_dma s).trans (events_routine _).serves.dma).trans (schedule_dma _)

theorem wfiPoll_routine : Routine wfiPoll := by
  intro s
  have hin := stdinPoll_routine s
  exact .ite (.andThen (.ite hin (.refl s)) netPoll_routine) (.ite hin (.refl s))

@[simp] theorem wfiAdvance_erase : wfiAdvance t s.erase = (wfiAdvance t s).erase := by
  simp only [wfiAdvance, erase_ite, ← devEvents_erase]
  rfl

theorem wfiAdvance_dma : Dma s (wfiAdvance t s) := by
  unfold wfiAdvance
  refine .ite (.ite ((setIcount_dma _ s).trans (Serves.stop _ _).dma) ?_)
    (.ite ((setIcount_dma _ s).trans (devEvents_dma _)) (.refl s))
  exact .trans (.ite (setIcount_dma t s) (.refl s)) (devEvents_dma _)

theorem devWfi_erase (fuel : Nat) (s : Machine) :
    devWfi fuel s.erase = (devWfi fuel s).map Machine.erase := by
  induction fuel generalizing s with
  | zero =>
    rw [devWfi, devWfi, apply_ite (Option.map Machine.erase)]
    rfl
  | succ n ih =>
    rw [devWfi, devWfi]
    have hp : (if wfiInput s.erase then wfiPoll s.erase else s.erase) =
        (if wfiInput s then wfiPoll s else s).erase := by
      rw [erase_ite, (wfiPoll_routine s).erase]
      rfl
    simp only [hp, apply_ite (Option.map Machine.erase), wfiAdvance_erase, ih]
    rfl

theorem devWfi_dma {s : Machine} {fuel : Nat} (h : devWfi fuel s = some s') : Dma s s' := by
  induction fuel generalizing s with
  | zero =>
    unfold devWfi at h
    split at h
    · rw [← Option.some.inj h]
      exact .refl s
    · cases h
  | succ n ih =>
    have hp : Dma s (if wfiInput s then wfiPoll s else s) :=
      .ite (wfiPoll_routine s).serves.dma (.refl s)
    unfold devWfi at h
    simp only at h
    generalize (if wfiInput s then wfiPoll s else s) = t at h hp
    split at h
    · rw [← Option.some.inj h]
      exact .refl s
    · split at h
      · rw [← Option.some.inj h]
        exact (Serves.stop s _).dma
      · split at h
        · rw [← Option.some.inj h]
          exact hp
        · exact hp.trans ((wfiAdvance_dma _ _).trans (ih h))

/-! ## Legacy ports -/

@[simp] theorem legacyIn_erase :
    legacyIn port s.erase = ((legacyIn port s).1, (legacyIn port s).2.erase) := by
  unfold legacyIn
  rw [conGetc_erase, erase_host, erase_cpu]
  split_ifs <;> first | rfl | (rcases conGetc s with ⟨_ | c, t⟩ <;> rfl) |
    (cases s.host.rand <;> rfl)

theorem legacyIn_serves : Serves s (legacyIn port s).2 := by
  have h := conGetc_serves s
  unfold legacyIn
  split_ifs <;> first
    | exact .quiet rfl
    | (rcases hc : conGetc s with ⟨_ | c, t⟩ <;> rw [hc] at h <;> exact h)
    | (cases s.host.rand <;> exact .quiet rfl)

theorem legacyDisk_routine : Routine (legacyDisk v) := by
  intro s
  unfold legacyDisk
  simp only [diskRd_erase, diskWr_erase, erase_cpu, erase_cfg, erase_mem]
  split
  · exact .refl s
  · rename_i hr
    refine .ite ?_ (.ite ?_ (.refl s))
    · cases diskRd 0 s.cpu.diskSector s with
      | none => exact .refl s
      | some f =>
        refine ⟨.write s _ _ f ?_, dmaWrite_erase _ _ f s⟩
        unfold diskSectorSize
        bv_omega
    · cases h : diskWr 0 s.cpu.diskSector
          (fun k => s.mem (s.cpu.diskBuffer + BitVec.ofNat 32 k)) s with
      | none => exact .refl s
      | some s' => exact ⟨diskWr_serves h, rfl⟩

theorem legacyOut_routine : Routine (legacyOut port v) := fun s =>
  .ite (conPutc_routine _ s) (.ite (.quiet rfl) (.ite (.quiet rfl)
    (.ite (legacyDisk_routine v s) (.refl s))))

end Devices

/-! ## Pages -/

theorem toNat_pageOf (x : Word) : (pageOf x).toNat = x.toNat / 4096 * 4096 :=
  (BitVec.toNat_and x _).trans (Lib.nat_and_high x.toNat 12 32 x.isLt (by decide))

theorem toNat_pageOff (x : Word) : (pageOff x).toNat = x.toNat % 4096 :=
  Lib.toNat_and_low x 12 (by decide)

theorem pageOf_ne_one (x : Word) : pageOf x ≠ 1 := by
  intro h
  have h' := congrArg BitVec.toNat h
  rw [toNat_pageOf] at h'
  change _ = 1 at h'
  omega

theorem pageOf_pageOf (x : Word) : pageOf (pageOf x) = pageOf x := by
  apply BitVec.eq_of_toNat_eq
  rw [toNat_pageOf, toNat_pageOf]
  omega

theorem pageOf_add {x : Word} {i : Nat} (h : (pageOff x).toNat + i < 4096) :
    pageOf (x + BitVec.ofNat 32 i) = pageOf x ∧
      (pageOff (x + BitVec.ofNat 32 i)).toNat = (pageOff x).toNat + i := by
  rw [toNat_pageOff] at h
  have hx := x.isLt
  have ha : (x + BitVec.ofNat 32 i).toNat = x.toNat + i := by
    rw [BitVec.toNat_add, BitVec.toNat_ofNat]
    omega
  refine ⟨BitVec.eq_of_toNat_eq ?_, ?_⟩
  · rw [toNat_pageOf, toNat_pageOf, ha]
    omega
  · rw [toNat_pageOff, toNat_pageOff, ha]
    omega

/-! ## Stores to RAM -/

theorem inRam_iff :
    inRam s pa n = true ↔ pa < s.cfg.ramSize ∧ n ≤ (s.cfg.ramSize - pa).toNat := by
  simp only [inRam, Bool.and_eq_true, decide_eq_true_eq]

theorem inRam_le (h : inRam s pa n = true) : pa.toNat + n ≤ s.cfg.ramSize.toNat := by
  obtain ⟨h₁, h₂⟩ := inRam_iff.1 h
  bv_omega

/-- Looking at two tables before dropping is the same as dropping. -/
theorem dcDrop_eq (hn : n ≤ 4) (h : pa.toNat + n ≤ s.cfg.ramSize.toNat) :
    dcDrop pa n s = cpuMemWritten pa (BitVec.ofNat 32 n) s := by
  unfold dcDrop
  split
  · rfl
  · rename_i hnone
    simp only [Bool.or_eq_true, not_or, Bool.not_eq_true, Option.isSome_eq_false_iff,
      Option.isNone_iff_eq_none] at hnone
    unfold cpuMemWritten
    split
    · rfl
    · rename_i hz
      have hr := s.cfg.ram_le
      have hpos : 0 < n := Nat.pos_of_ne_zero fun h0 => hz (by rw [h0]; rfl)
      -- at most four bytes touch at most two pages
      have hl : (pa + BitVec.ofNat 32 n - 1).toNat = pa.toNat + n - 1 := by bv_omega
      have htab : (fun a => if pageNum pa ≤ a ∧ a ≤ pageNum (pa + BitVec.ofNat 32 n - 1) ∧ a < 65536
          then none else s.dcTab a) = s.dcTab := by
        funext a
        split
        · rename_i ha
          have hab : a = pageNum pa ∨ a = pageNum (pa + BitVec.ofNat 32 n - 1) := by
            unfold pageNum at ha ⊢
            rw [hl] at ha ⊢
            omega
          rcases hab with rfl | rfl
          · exact hnone.1.symm
          · exact hnone.2.symm
        · rfl
      rw [htab]

/-- A store to RAM is a block write with its invalidation. -/
theorem ramWrite_eq (hn : n ≤ 4) (h : pa.toNat + n ≤ s.cfg.ramSize.toNat) :
    ramWrite pa v n s = dmaWrite pa n (byteOf v) s := by
  unfold ramWrite dmaWrite
  rw [dcDrop_eq hn h]
  unfold cpuMemWritten
  split <;> rfl

theorem ramWrite_dma (hn : n ≤ 4) (h : inRam s pa n = true) : Dma s (ramWrite pa v n s) := by
  rw [ramWrite_eq hn (inRam_le h)]
  exact .write s pa n _ (inRam_le h)

@[simp] theorem ramWrite_erase (pa v : Word) (n : Nat) (s : Machine) :
    ramWrite pa v n s.erase = (ramWrite pa v n s).erase := by
  unfold ramWrite dcDrop
  rw [if_neg (by simp)]
  unfold cpuMemWritten
  split
  · split <;> rfl
  · rfl

/-- A poke of the debugger is a block write too. -/
theorem memPoke_dma (va : Word) (b : Byte) (s : Machine) : Dma s (memPoke va b s) := by
  unfold memPoke
  split
  · exact .refl s
  · split
    · refine .write s _ _ _ ?_
      bv_omega
    · exact .refl s

/-! ## Words of RAM -/

theorem rd32_byteOf (v : Word) : rd32 (byteOf v 0) (byteOf v 1) (byteOf v 2) (byteOf v 3) = v := by
  unfold rd32 byteOf
  ext i hi
  have hv (j : Nat) (h : j = i) : v.getLsbD j = v[i] := by
    subst h
    exact BitVec.getLsbD_eq_getElem hi
  simp only [BitVec.getElem_append, BitVec.getElem_extractLsb']
  split
  · exact hv _ (by omega)
  · split
    · exact hv _ (by omega)
    · split <;> exact hv _ (by omega)

theorem ramRead_store (mem : Word → Byte) (a v : Word) :
    ramRead (storeBytes mem a 4 (byteOf v)) a 4 = v := by
  have hb (i : Nat) (hi : i < 4) :
      storeBytes mem a 4 (byteOf v) (a + BitVec.ofNat 32 i) = byteOf v i := by
    have hd : (a + BitVec.ofNat 32 i - a).toNat = i := by bv_omega
    unfold storeBytes
    rw [hd, if_pos hi]
  simp only [ramRead, rdBytes, hb 0 (by decide), hb 1 (by decide), hb 2 (by decide),
    hb 3 (by decide)]
  exact rd32_byteOf v

theorem ramRead_store_apart (mem : Word → Byte) {a b : Word} (f : Nat → Byte)
    (h₁ : 4 ≤ (b - a).toNat) (h₂ : 4 ≤ (a - b).toNat) :
    ramRead (storeBytes mem a 4 f) b 4 = ramRead mem b 4 := by
  have hb (i : Nat) (hi : i < 4) :
      storeBytes mem a 4 f (b + BitVec.ofNat 32 i) = mem (b + BitVec.ofNat 32 i) := by
    unfold storeBytes
    rw [if_neg]
    bv_omega
  simp only [ramRead, rdBytes, hb 0 (by decide), hb 1 (by decide), hb 2 (by decide),
    hb 3 (by decide)]

end Tortoise.Emu
