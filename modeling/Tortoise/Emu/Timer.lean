import Tortoise.Lib.Divider
import Tortoise.Emu.DevFrame

/-!
# The timer and its reference

The timer of `src/dev.c` is advanced lazily: `timer_sync` catches up with the instruction count
in one jump, `timer_next` predicts the next expiry, and `schedule` keeps `dev_next` at or before
every predicted event.  The reference timer `Ref` is advanced after every single instruction
(`Ref.tick`) with the register values in force at that moment.

* `Machine.ref` is the reference timer a machine stands for: its registers advanced by the
  instructions since the last synchronisation.
* `timerSync_ref`: synchronising does not change what the machine stands for.
* `Exact` is the invariant of the lazy scheme: no expiry has been passed, and none lies before
  `dev_next` unseen.  `Exact.count` and `Exact.pending` say what it is for.
* `Still` is the frame of all device routines that have nothing to do with the timer.
-/

namespace Tortoise.Emu

open Lib
open BitVec hiding and_self not_or

/-! ## The reference timer -/

/-- A timer that sees every instruction. -/
structure Ref where
  state : Divider.State Word
  period : Word
  ctrl : Word
  prescale : Word

/-- The ticks from one expiry to the next, `0` when the timer is off. -/
def modulus (ctrl period : Word) : Nat := if ctrl &&& 1 = 0 then 0 else period.toNat

namespace Ref

/-- One instruction. -/
def tick (r : Ref) : Ref :=
  { r with state := Divider.tick r.prescale.toNat (modulus r.ctrl r.period) r.state }

/-- A write to the register at `off`. -/
def write (off v : Word) (r : Ref) : Ref :=
  if off = 0x04 then { r with period := v, state := { r.state with phase := 0 } }
  else if off = 0x08 then { r with ctrl := v &&& 1, state := { r.state with phase := 0 } }
  else if off = 0x0C then { r with prescale := if v = 0 then 1 else v }
  else r

/-- The interrupt controller is told to clear the lines in `v`. -/
def clear (v : Word) (r : Ref) : Ref :=
  { r with state := { r.state with expired := r.state.expired && !v.getLsbD 0 } }

def count (r : Ref) : Word := r.state.count

def pending (r : Ref) : Bool := r.state.expired

theorem iterate_tick_state (n : Nat) (r : Ref) :
    tick^[n] r = { r with
      state := (Divider.tick r.prescale.toNat (modulus r.ctrl r.period))^[n] r.state } := by
  induction n generalizing r with
  | zero => rfl
  | succ n ih =>
    rw [Function.iterate_succ_apply, ih]
    rfl

end Ref

/-! ## What a machine stands for -/

/-- The registers of the timer and its line of the interrupt controller. -/
def Machine.timer (s : Machine) : Ref where
  state := ⟨s.dev.tFrac.toNat, s.dev.tCount, s.dev.tPhase.toNat, s.dev.picPending.getLsbD 0⟩
  period := s.dev.tPeriod
  ctrl := s.dev.tCtrl
  prescale := s.dev.tPrescale

section TimerProjections

variable (s : Machine)

@[simp] theorem timer_frac : s.timer.state.frac = s.dev.tFrac.toNat := rfl
@[simp] theorem timer_phase : s.timer.state.phase = s.dev.tPhase.toNat := rfl

end TimerProjections

/-- The instructions the timer has not seen yet. -/
def Machine.behind (s : Machine) : Nat := s.cpu.icount.toNat - s.dev.tLast.toNat

/-- The reference timer the machine stands for. -/
def Machine.ref (s : Machine) : Ref := Ref.tick^[s.behind] s.timer

def Machine.modulus (s : Machine) : Nat := Emu.modulus s.dev.tCtrl s.dev.tPeriod

/-- The instructions from the last synchronisation to the next expiry. -/
def Machine.due (s : Machine) : Nat :=
  Divider.due s.dev.tPrescale.toNat s.modulus s.timer.state

/-- The instructions since the last tick are fewer than a tick takes. -/
def Machine.fracOk (s : Machine) : Prop := s.dev.tFrac.toNat < s.dev.tPrescale.toNat

instance (s : Machine) : Decidable s.fracOk := inferInstanceAs (Decidable (_ < _))

/-- The registers are those of a timer. -/
structure Sane (s : Machine) : Prop where
  prescale_pos : 0 < s.dev.tPrescale.toNat
  phase_lt : s.modulus ≠ 0 → s.dev.tPhase.toNat < s.modulus
  last_le : s.dev.tLast.toNat ≤ s.cpu.icount.toNat

/-- The lazy scheme is where the reference timer is, and will notice the next expiry in time. -/
structure Exact (s : Machine) : Prop extends Sane s where
  below_limit : s.cpu.icount.toNat < s.cfg.ilimit.toNat
  next_le_limit : s.dev.devNext.toNat ≤ s.cfg.ilimit.toNat
  /-- No expiry has been passed. -/
  calm : s.modulus ≠ 0 → s.behind = 0 ∨ s.fracOk ∧ s.behind < s.due
  /-- The next expiry is not before the next look at the devices. -/
  watched : s.modulus ≠ 0 → s.dev.devNext.toNat ≤ s.cpu.icount.toNat ∨
    s.fracOk ∧ s.dev.devNext.toNat ≤ s.dev.tLast.toNat + s.due

/-- What a synchronisation needs: the instruction count is nowhere near its largest value, and a
prescale value that the fraction has overtaken has been in force for an instruction. -/
structure Ready (s : Machine) : Prop where
  count_lt : s.cpu.icount.toNat < 2 ^ 64 - 2 ^ 33
  frac : s.dev.tLast = s.cpu.icount → s.fracOk

/-! ## Synchronising -/

section Sync

variable {s : Machine}

theorem modulus_eq_zero : s.modulus = 0 ↔ s.dev.tCtrl &&& 1 = 0 ∨ s.dev.tPeriod = 0 := by
  unfold Machine.modulus modulus
  have hz : s.dev.tPeriod.toNat = 0 ↔ s.dev.tPeriod = 0 := (toNat_eq (y := 0)).symm
  split <;> simp_all

theorem modulus_eq_period (h : s.modulus ≠ 0) : s.modulus = s.dev.tPeriod.toNat := by
  unfold Machine.modulus modulus at h ⊢
  split <;> simp_all

theorem wide_toNat (w : Word) : (w.setWidth 64).toNat = w.toNat := by
  rw [toNat_setWidth]
  have := w.isLt
  omega

@[simp] theorem timerPhase_cpu (n : BitVec 64) (s : Machine) : (timerPhase n s).cpu = s.cpu := by
  unfold timerPhase picRaise
  simp only
  split <;> rfl

theorem timerPhase_dev (n : BitVec 64) (s : Machine) :
    (timerPhase n s).dev = { s.dev with
      tPhase := ((s.dev.tPhase.setWidth 64 + n) % s.dev.tPeriod.setWidth 64).setWidth 32
      picPending := if s.dev.tPeriod.setWidth 64 ≤ s.dev.tPhase.setWidth 64 + n
        then s.dev.picPending ||| (1#32 <<< 0) else s.dev.picPending } := by
  unfold timerPhase picRaise
  simp only
  split <;> rfl

theorem timerSync_cpu (s : Machine) : (timerSync s).cpu = s.cpu := by
  unfold timerSync
  simp only
  split <;> simp

theorem timerSync_cfg (s : Machine) : (timerSync s).cfg = s.cfg := (timerSync_dma s).cfg

theorem timerSync_keeps (s : Machine) :
    (timerSync s).dev.tPeriod = s.dev.tPeriod ∧ (timerSync s).dev.tCtrl = s.dev.tCtrl ∧
      (timerSync s).dev.tPrescale = s.dev.tPrescale ∧ (timerSync s).dev.tLast = s.cpu.icount ∧
      (timerSync s).dev.devNext = s.dev.devNext := by
  unfold timerSync
  simp only
  split
  · simp only [timerPhase_dev, and_self]
  · simp only [and_self]

theorem phase_toNat {ticks : BitVec 64} {n : Nat} (hn : ticks.toNat ≤ n)
    (hb : n < 2 ^ 64 - 2 ^ 32) :
    (s.dev.tPhase.setWidth 64 + ticks).toNat = s.dev.tPhase.toNat + ticks.toNat := by
  rw [toNat_add, wide_toNat]
  have := s.dev.tPhase.isLt
  omega

section

variable (h : s.dev.tLast.toNat ≤ s.cpu.icount.toNat)

include h

theorem elapsed_toNat : (s.cpu.icount - s.dev.tLast).toNat = s.behind := by
  unfold Machine.behind
  rw [toNat_sub]
  have h1 := s.cpu.icount.isLt
  have h2 := s.dev.tLast.isLt
  omega

variable (hb : s.cpu.icount.toNat < 2 ^ 64 - 2 ^ 33)

include hb

/-- The total of `timer_sync` does not wrap. -/
theorem total_toNat :
    (s.dev.tFrac.setWidth 64 + (s.cpu.icount - s.dev.tLast)).toNat =
      s.dev.tFrac.toNat + s.behind := by
  rw [toNat_add, elapsed_toNat h, toNat_setWidth]
  have hf := s.dev.tFrac.isLt
  unfold Machine.behind
  omega

theorem ticks_toNat :
    ((s.dev.tFrac.setWidth 64 + (s.cpu.icount - s.dev.tLast)) /
      s.dev.tPrescale.setWidth 64).toNat =
      (s.dev.tFrac.toNat + s.behind) / s.dev.tPrescale.toNat := by
  rw [toNat_udiv, total_toNat h hb, wide_toNat]

theorem frac_toNat (hp : 0 < s.dev.tPrescale.toNat) :
    (((s.dev.tFrac.setWidth 64 + (s.cpu.icount - s.dev.tLast)) %
      s.dev.tPrescale.setWidth 64).setWidth 32).toNat =
      (s.dev.tFrac.toNat + s.behind) % s.dev.tPrescale.toNat := by
  rw [toNat_setWidth, toNat_umod, total_toNat h hb, wide_toNat]
  have hlt := Nat.mod_lt (s.dev.tFrac.toNat + s.behind) hp
  have := s.dev.tPrescale.isLt
  omega

end

theorem behind_eq_zero (hs : Sane s) : s.behind = 0 ↔ s.dev.tLast = s.cpu.icount := by
  unfold Machine.behind
  rw [toNat_eq]
  have := hs.last_le
  omega

theorem ref_eq_jump (hs : Sane s) (hf : s.behind = 0 → s.fracOk) :
    s.ref = { s.timer with
      state := Divider.jump s.dev.tPrescale.toNat s.modulus s.behind s.timer.state } := by
  unfold Machine.ref
  rw [Ref.iterate_tick_state]
  congr 1
  exact Divider.iterate_tick hs.prescale_pos hs.phase_lt hf

theorem ref_of_behind (h : s.behind = 0) : s.ref = s.timer := by
  unfold Machine.ref
  rw [h]
  rfl

theorem timerSync_behind (s : Machine) : (timerSync s).behind = 0 := by
  unfold Machine.behind
  rw [timerSync_cpu, (timerSync_keeps s).2.2.2.1, Nat.sub_self]

theorem timerSync_modulus (s : Machine) : (timerSync s).modulus = s.modulus := by
  obtain ⟨hperiod, hctrl, -⟩ := timerSync_keeps s
  unfold Machine.modulus
  rw [hperiod, hctrl]

theorem timerSync_prescale (s : Machine) : (timerSync s).dev.tPrescale = s.dev.tPrescale :=
  (timerSync_keeps s).2.2.1

section

variable (hs : Sane s) (hb : s.cpu.icount.toNat < 2 ^ 64 - 2 ^ 33)

include hs hb

/-- **A synchronisation is a jump** of the divider. -/
theorem timerSync_timer :
    (timerSync s).timer = { s.timer with
      state := Divider.jump s.dev.tPrescale.toNat s.modulus s.behind s.timer.state } := by
  have hticks := ticks_toNat hs.last_le hb
  have hfrac := frac_toNat hs.last_le hb hs.prescale_pos
  have hle : (s.dev.tFrac.toNat + s.behind) / s.dev.tPrescale.toNat ≤
      s.dev.tFrac.toNat + s.behind := Nat.div_le_self _ _
  have hbound : s.dev.tFrac.toNat + s.behind < 2 ^ 64 - 2 ^ 32 := by
    have := s.dev.tFrac.isLt
    unfold Machine.behind
    omega
  have hcount : ((s.dev.tFrac.setWidth 64 + (s.cpu.icount - s.dev.tLast)) /
      s.dev.tPrescale.setWidth 64).setWidth 32 =
      (((s.dev.tFrac.toNat + s.behind) / s.dev.tPrescale.toNat : Nat) : Word) := by
    rw [← hticks]
    apply eq_of_toNat_eq
    rw [toNat_setWidth]
    exact (toNat_ofNat _ _).symm
  unfold timerSync
  simp only
  generalize (s.dev.tFrac.setWidth 64 + (s.cpu.icount - s.dev.tLast)) /
    s.dev.tPrescale.setWidth 64 = ticks at hticks hcount ⊢
  split
  · rename_i hrun
    have h0 : s.modulus ≠ 0 := fun h => (modulus_eq_zero.1 h).elim hrun.1 hrun.2
    have hperiod : s.dev.tPeriod.toNat ≠ 0 := modulus_eq_period h0 ▸ h0
    have hphase := phase_toNat (s := s) (hticks.le.trans hle) hbound
    unfold Machine.timer
    rw [timerPhase_dev]
    congr 1
    ext
    · exact hfrac
    · simp only [hcount]
      rfl
    · have hlt := Nat.mod_lt (s.dev.tPhase.toNat + ticks.toNat) (Nat.pos_of_ne_zero hperiod)
      have := s.dev.tPeriod.isLt
      simp only [Divider.jump, Divider.addTicks, if_neg h0]
      rw [toNat_setWidth, toNat_umod, hphase, wide_toNat, modulus_eq_period h0,
        Nat.mod_eq_of_lt (by omega), hticks]
    · simp only [Divider.jump, Divider.addTicks, le_def, hphase, hticks, wide_toNat,
        modulus_eq_period h0]
      split
      · rename_i hge
        simp [hperiod, hge]
      · rename_i hlt
        simp [hperiod, hlt]
  · rename_i hrun
    have h0 : s.modulus = 0 := by
      rw [modulus_eq_zero]
      by_contra hne
      rw [not_or] at hne
      exact hrun hne
    simp only [Machine.timer]
    congr 1
    ext
    · exact hfrac
    · simp only [hcount]
      rfl
    · simp [Divider.jump, Divider.addTicks, h0]
    · simp [Divider.jump, Divider.addTicks, h0]

theorem timerSync_fracOk : (timerSync s).fracOk := by
  unfold Machine.fracOk
  rw [timerSync_prescale, ← timer_frac, timerSync_timer hs hb]
  exact Nat.mod_lt _ hs.prescale_pos

theorem timerSync_sane : Sane (timerSync s) where
  prescale_pos := by
    rw [timerSync_prescale]
    exact hs.prescale_pos
  phase_lt h0 := by
    rw [timerSync_modulus] at h0 ⊢
    rw [← timer_phase, timerSync_timer hs hb]
    exact Divider.phase_jump h0
  last_le := by rw [timerSync_cpu, (timerSync_keeps s).2.2.2.1]

/-- What is left to the next expiry after a synchronisation in time. -/
theorem timerSync_due (h0 : s.modulus ≠ 0) (hd : s.behind < s.due) :
    (timerSync s).due = s.due - s.behind := by
  unfold Machine.due
  rw [timerSync_prescale, timerSync_modulus, timerSync_timer hs hb]
  exact Divider.due_jump hs.prescale_pos (hs.phase_lt h0) hd

end

/-- **Synchronising does not change what the machine stands for.** -/
theorem timerSync_ref (hs : Sane s) (hr : Ready s) : (timerSync s).ref = s.ref := by
  rw [ref_of_behind (timerSync_behind s), timerSync_timer hs hr.count_lt,
    ref_eq_jump hs fun h => hr.frac ((behind_eq_zero hs).1 h)]

/-- **The line is pending** exactly if it is for the reference timer. -/
theorem Exact.pending (hs : Exact s) : s.ref.pending = s.dev.picPending.getLsbD 0 := by
  by_cases hz : s.behind = 0
  · rw [ref_of_behind hz]
    rfl
  · rw [ref_eq_jump hs.toSane fun h => absurd h hz]
    exact Divider.jump_expired_of_lt hs.prescale_pos hs.phase_lt fun h0 =>
      ((hs.calm h0).resolve_left hz).2

/-- **The count read** is the reference timer's. -/
theorem Exact.count (hs : Exact s) (hr : Ready s) : (timerRd 0x00 s).1 = s.ref.count := by
  rw [← timerSync_ref hs.toSane hr, ref_of_behind (timerSync_behind s)]
  rfl

theorem Exact.timerSync (hs : Exact s) (hr : Ready s) : Exact (timerSync s) where
  toSane := timerSync_sane hs.toSane hr.count_lt
  below_limit := by
    rw [timerSync_cpu, timerSync_cfg]
    exact hs.below_limit
  next_le_limit := by
    rw [timerSync_cfg, (timerSync_keeps s).2.2.2.2]
    exact hs.next_le_limit
  calm _ := .inl (timerSync_behind s)
  watched h0 := by
    rw [timerSync_modulus] at h0
    rw [timerSync_cpu, (timerSync_keeps s).2.2.2.2, (timerSync_keeps s).2.2.2.1]
    have hlast := hs.last_le
    refine (hs.watched h0).imp id fun ⟨hf, hn⟩ =>
      ⟨timerSync_fracOk hs.toSane hr.count_lt, ?_⟩
    have hd : s.behind < s.due := by
      obtain hz | hlt := hs.calm h0
      · rw [hz]
        exact Divider.due_pos hf (hs.phase_lt h0)
      · exact hlt.2
    rw [timerSync_due hs.toSane hr.count_lt h0 hd]
    unfold Machine.behind at hd ⊢
    omega

end Sync

/-! ## Register writes -/

section Writes

variable (off v : Word) (s : Machine)

theorem timerWr_cpu : (timerWr off v s).cpu = s.cpu :=
  timerSync_cpu s

theorem timerWr_cfg : (timerWr off v s).cfg = s.cfg :=
  timerSync_cfg s

theorem timerWr_devNext : (timerWr off v s).dev.devNext = s.cpu.icount := by
  unfold timerWr
  simp only [timerSync_cpu]

theorem timerWr_last : (timerWr off v s).dev.tLast = s.cpu.icount := by
  unfold timerWr
  simp only
  split_ifs <;> exact (timerSync_keeps s).2.2.2.1

theorem timerWr_behind : (timerWr off v s).behind = 0 := by
  unfold Machine.behind
  rw [timerWr_cpu, timerWr_last, Nat.sub_self]

theorem timerWr_timer : (timerWr off v s).timer = (timerSync s).timer.write off v := by
  unfold timerWr Ref.write
  simp only
  split_ifs <;> rfl

variable {s}

theorem timerWr_ref (hs : Sane s) (hr : Ready s) : (timerWr off v s).ref = s.ref.write off v := by
  rw [ref_of_behind (timerWr_behind off v s), timerWr_timer, ← timerSync_ref hs hr,
    ref_of_behind (timerSync_behind s)]

theorem timerWr_sane (hs : Sane s) (hb : s.cpu.icount.toNat < 2 ^ 64 - 2 ^ 33) :
    Sane (timerWr off v s) := by
  have hsync := timerSync_sane hs hb
  have hpre := hsync.prescale_pos
  have hphase := hsync.phase_lt
  refine ⟨?_, ?_, by rw [timerWr_last, timerWr_cpu]⟩
  · unfold timerWr
    simp only
    split_ifs with h4 h8 hc hv
    · exact hpre
    · exact hpre
    · exact Nat.one_pos
    · exact Nat.pos_of_ne_zero fun h => hv (eq_of_toNat_eq h)
    · exact hpre
  · unfold timerWr
    simp only
    -- a new period or control value starts a new phase
    split_ifs with h4 h8
    · exact fun h0 => Nat.pos_of_ne_zero h0
    · exact fun h0 => Nat.pos_of_ne_zero h0
    · exact hphase
    · exact hphase
    · exact hphase

theorem Exact.timerWr (hs : Exact s) (hr : Ready s) : Exact (timerWr off v s) where
  toSane := timerWr_sane off v hs.toSane hr.count_lt
  below_limit := by
    rw [timerWr_cpu, timerWr_cfg]
    exact hs.below_limit
  next_le_limit := by
    rw [timerWr_devNext, timerWr_cfg]
    exact hs.below_limit.le
  calm _ := .inl (timerWr_behind off v s)
  watched _ := .inl (by rw [timerWr_devNext, timerWr_cpu])

end Writes

/-! ## Scheduling -/

section Schedule

variable {s : Machine}

theorem lower_le (c : Prop) [Decidable c] (x n : BitVec 64) (h : c → x < n) :
    (if c then x else n) ≤ n := by
  split
  · rename_i hc
    exact BitVec.le_of_lt (h hc)
  · exact BitVec.le_refl n

theorem schedule_le (s : Machine) :
    (schedule s).dev.devNext ≤ s.cfg.ilimit ∧ (schedule s).dev.devNext ≤ timerNext s := by
  have hlow : ∀ (x n : BitVec 64), (if x < n then x else n) ≤ x := fun x n => by
    split
    · exact BitVec.le_refl x
    · rename_i h
      exact BitVec.not_lt.1 h
  unfold schedule
  simp only
  set n₁ := if s.cfg.ilimit < s.dev.pollAt then s.cfg.ilimit else s.dev.pollAt
  set n₂ := if timerNext s < n₁ then timerNext s else n₁
  have h₂ : n₂ ≤ s.cfg.ilimit :=
    BitVec.le_trans (lower_le _ (timerNext s) n₁ id) (hlow s.cfg.ilimit s.dev.pollAt)
  have ht : n₂ ≤ timerNext s := hlow _ _
  refine ⟨BitVec.le_trans ?_ h₂, BitVec.le_trans ?_ ht⟩ <;>
  · refine BitVec.le_trans (lower_le _ _ _ And.right) ?_
    refine BitVec.le_trans (lower_le _ _ _ And.right) ?_
    exact BitVec.le_trans (lower_le _ _ _ And.right) (lower_le _ _ _ id)

theorem due_lt (s : Machine) : s.due < 2 ^ 64 := by
  unfold Machine.due Divider.due
  have hm : s.modulus < 2 ^ 32 := by
    unfold Machine.modulus modulus
    have := s.dev.tPeriod.isLt
    split <;> omega
  have hp := s.dev.tPrescale.isLt
  have hmul : (s.modulus - s.timer.state.phase) * s.dev.tPrescale.toNat < 2 ^ 32 * 2 ^ 32 :=
    Nat.mul_lt_mul'' (by omega) hp
  omega

/-- **What `timer_next` predicts** for a timer that is up to date. -/
theorem timerNext_toNat (hs : Sane s) (h0 : s.modulus ≠ 0) (hf : s.fracOk) :
    (timerNext s).toNat = (s.cpu.icount.toNat + s.due) % 2 ^ 64 := by
  have hrun : ¬(s.dev.tCtrl &&& 1 = 0 ∨ s.dev.tPeriod = 0) := fun h => h0 (modulus_eq_zero.2 h)
  have hphase := hs.phase_lt h0
  have hper := modulus_eq_period h0
  rw [hper] at hphase
  have hsub : (s.dev.tPeriod - s.dev.tPhase).toNat = s.dev.tPeriod.toNat - s.dev.tPhase.toNat :=
    BitVec.toNat_sub_of_le (le_def.2 hphase.le)
  have hdue : s.due = (s.dev.tPeriod.toNat - s.dev.tPhase.toNat) * s.dev.tPrescale.toNat
      - s.dev.tFrac.toNat := by
    unfold Machine.due Divider.due
    rw [hper]
    rfl
  have hone : 1 * s.dev.tPrescale.toNat ≤
      (s.dev.tPeriod.toNat - s.dev.tPhase.toNat) * s.dev.tPrescale.toNat :=
    Nat.mul_le_mul_right _ (by omega)
  unfold Machine.fracOk at hf
  unfold timerNext
  simp only [if_neg hrun]
  rw [toNat_sub, toNat_add, toNat_mul, wide_toNat, wide_toNat, wide_toNat,
    hsub, hdue]
  have hlt := s.dev.tFrac.isLt
  omega

/-- Scheduling while the timer is up to date. -/
theorem schedule_exact (hs : Sane s) (hl : s.cpu.icount.toNat < s.cfg.ilimit.toNat)
    (hu : s.modulus ≠ 0 → s.dev.tLast = s.cpu.icount ∧ s.fracOk) : Exact (schedule s) where
  prescale_pos := hs.prescale_pos
  phase_lt := hs.phase_lt
  last_le := hs.last_le
  below_limit := hl
  next_le_limit := (schedule_le s).1
  calm h0 := .inl ((behind_eq_zero hs).2 (hu h0).1)
  watched h0 := by
    obtain ⟨hlast, hf⟩ := hu h0
    have hn : (schedule s).dev.devNext.toNat ≤ (timerNext s).toNat := (schedule_le s).2
    rw [timerNext_toNat hs h0 hf] at hn
    have hd := due_lt s
    have hi := s.cpu.icount.isLt
    have hl' : s.dev.tLast.toNat = s.cpu.icount.toNat := congrArg _ hlast
    -- a prediction that wraps is in the past, and the devices are looked at at once
    by_cases hw : s.cpu.icount.toNat + s.due < 2 ^ 64
    · rw [Nat.mod_eq_of_lt hw] at hn
      exact .inr ⟨hf, show _ ≤ s.dev.tLast.toNat + s.due by omega⟩
    · exact .inl (show _ ≤ s.cpu.icount.toNat by omega)

theorem schedule_ref (s : Machine) : (schedule s).ref = s.ref := rfl

end Schedule

/-! ## The other devices -/

/-- What a routine does that has nothing to do with the timer: it may only ask for the devices to
be looked at at once, or stop the machine. -/
structure Still (s t : Machine) : Prop where
  timer : t.timer = s.timer
  last : t.dev.tLast = s.dev.tLast
  icount : t.cpu.icount = s.cpu.icount
  cfg : t.cfg = s.cfg
  next : t.dev.devNext = s.dev.devNext ∨ t.dev.devNext = s.cpu.icount
  halted : s.cpu.halted → t.cpu.halted

namespace Still

variable {s t u : Machine}

theorem refl (s : Machine) : Still s s := ⟨rfl, rfl, rfl, rfl, .inl rfl, id⟩

theorem trans (h : Still s t) (h' : Still t u) : Still s u where
  timer := h'.timer.trans h.timer
  last := h'.last.trans h.last
  icount := h'.icount.trans h.icount
  cfg := h'.cfg.trans h.cfg
  next := h'.next.elim (fun e => h.next.imp e.trans e.trans) fun e => .inr (e.trans h.icount)
  halted := fun hs => h'.halted (h.halted hs)

/-- Nothing but memory, caches, network or host changed. -/
theorem outside (hdev : t.dev = s.dev) (hcpu : t.cpu = s.cpu) (hcfg : t.cfg = s.cfg) :
    Still s t where
  timer := by simp only [Machine.timer, hdev]
  last := by rw [hdev]
  icount := by rw [hcpu]
  cfg := hcfg
  next := .inl (by rw [hdev])
  halted := by
    rw [hcpu]
    exact id

theorem of_rest (h : t.rest = s.rest) : Still s t := by
  simp only [Machine.rest, Prod.mk.injEq] at h
  obtain ⟨hcore, -, -, hi, hh, hn, hl, hfrac, hcount, hphase, hpend, hper, hctrl, hpre⟩ := h
  refine ⟨?_, hl, hi, congrArg Core.cfg hcore, .inl hn, fun h => hh.trans h⟩
  simp only [Machine.timer, hfrac, hcount, hphase, hpend, hper, hctrl, hpre]

end Still

/-- **The other devices have nothing to do with the timer.** -/
theorem Serves.still {s t : Machine} (h : Serves s t) : Still s t := by
  have hdrop (s : Machine) (a n : Word) : Still s (cpuMemWritten a n s) := by
    unfold cpuMemWritten
    split
    · exact .refl s
    · exact .outside rfl rfl rfl
  induction h with
  | quiet h => exact .of_rest h
  | stop s code => exact ⟨rfl, rfl, rfl, rfl, .inl rfl, fun _ => rfl⟩
  | soon s => exact ⟨rfl, rfl, rfl, rfl, .inr rfl, id⟩
  | drop s a n => exact hdrop s a n
  | write s a n f _ =>
    have hmem : Still s { s with mem := storeBytes s.mem a n f } := .outside rfl rfl rfl
    exact hmem.trans (hdrop _ a _)
  | trans _ _ ih₁ ih₂ => exact ih₁.trans ih₂

namespace Still

variable {s t u : Machine}

variable (h : Still s t)

include h

theorem behind : t.behind = s.behind := by
  unfold Machine.behind
  rw [h.icount, h.last]

theorem modulus : t.modulus = s.modulus :=
  congrArg (fun r : Ref => Emu.modulus r.ctrl r.period) h.timer

theorem due : t.due = s.due := by
  have hpre : t.dev.tPrescale = s.dev.tPrescale := congrArg Ref.prescale h.timer
  unfold Machine.due
  rw [h.modulus, h.timer, hpre]

theorem fracOk : t.fracOk ↔ s.fracOk :=
  iff_of_eq (congrArg (fun r : Ref => r.state.frac < r.prescale.toNat) h.timer)

theorem ref : t.ref = s.ref := by
  unfold Machine.ref
  rw [h.behind, h.timer]

theorem sane (hs : Sane s) : Sane t where
  prescale_pos := (congrArg (fun r : Ref => r.prescale.toNat) h.timer).symm ▸ hs.prescale_pos
  phase_lt h0 := by
    have hphase := congrArg (fun r : Ref => r.state.phase) h.timer
    simp only [timer_phase] at hphase
    rw [h.modulus] at h0 ⊢
    rw [hphase]
    exact hs.phase_lt h0
  last_le := by
    rw [h.last, h.icount]
    exact hs.last_le

theorem exact (hs : Exact s) : Exact t where
  toSane := h.sane hs.toSane
  below_limit := by
    rw [h.icount, h.cfg]
    exact hs.below_limit
  next_le_limit := by
    rw [h.cfg]
    exact h.next.elim (fun e => e ▸ hs.next_le_limit) fun e => e ▸ hs.below_limit.le
  calm h0 := by
    rw [h.modulus] at h0
    rw [h.behind, h.due, h.fracOk]
    exact hs.calm h0
  watched h0 := by
    rw [h.modulus] at h0
    rw [h.icount, h.last, h.due, h.fracOk]
    exact h.next.elim (fun e => e ▸ hs.watched h0) fun e => .inl (congrArg _ e).le

end Still

/-! ## Looking at the devices -/

section Events

variable {s : Machine}

/-- **`dev_events` is exact** from any state the timer can be in, unless the limit is reached. -/
theorem devEvents_exact (hs : Sane s) (hr : Ready s) (hl : s.cpu.icount < s.cfg.ilimit) :
    Exact (devEvents s) ∧ (devEvents s).ref = s.ref := by
  have hq := (events_routine (timerSync s)).serves.still
  have hsane := hq.sane (timerSync_sane hs hr.count_lt)
  unfold devEvents
  rw [if_neg (BitVec.not_le.2 hl)]
  refine ⟨schedule_exact hsane ?_ fun _ => ⟨?_, ?_⟩, ?_⟩
  · rw [hq.icount, hq.cfg, timerSync_cpu, timerSync_cfg]
    exact hl
  · rw [hq.last, hq.icount, timerSync_cpu, (timerSync_keeps s).2.2.2.1]
  · rw [hq.fracOk]
    exact timerSync_fracOk hs hr.count_lt
  · rw [schedule_ref, hq.ref, timerSync_ref hs hr]

theorem devEvents_limit (hl : s.cfg.ilimit ≤ s.cpu.icount) : (devEvents s).cpu.halted := by
  unfold devEvents
  rw [if_pos hl]
  rfl

theorem devEvents_halted (h : s.cpu.halted) : (devEvents s).cpu.halted := by
  unfold devEvents
  split
  · rfl
  · have hsync : (timerSync s).cpu.halted := by
      rw [timerSync_cpu]
      exact h
    exact (events_routine (timerSync s)).serves.still.halted hsync

theorem devEvents_icount (s : Machine) : (devEvents s).cpu.icount = s.cpu.icount := by
  unfold devEvents
  split
  · rfl
  · exact (events_routine (timerSync s)).serves.still.icount.trans (by rw [timerSync_cpu])

end Events

end Tortoise.Emu
