import Tortoise.Emu.Timer

/-!
# The timer over whole runs

A run of the machine, seen from the timer, is a sequence of events: instructions end, the timer's
registers are read and written, the line is cleared, `WFI` jumps forward, the network interface
schedules anew, and everything else is quiet.  The reference timer goes along (`TimerRun`), one tick
for every instruction that is counted.

* `Exact.step`: an event that meets `Meets` keeps the lazy timer at the reference timer.
* `timer_exact`: so the line and the count are those of the reference timer in every state of
  every run whose events meet their conditions.
* `wfi_overshoots`: without the condition on `WFI` they are not: `dev_wfi` asks `timer_next`
  without synchronising first, and jumps past the expiry.
-/

namespace Tortoise.Emu

open Lib

/-- Well before the largest instruction count. -/
def countBound : Nat := 2 ^ 64 - 2 ^ 33

/-! ## Jumps -/

section Jumps

variable {s : Machine} {t : BitVec 64}

theorem due_pos (hs : Sane s) (hf : s.fracOk) (h0 : s.modulus ≠ 0) : 0 < s.due :=
  Divider.due_pos hf (hs.phase_lt h0)

theorem afterEvents_halted (h : s.cpu.halted) : (afterEvents s).cpu.halted := by
  unfold afterEvents
  split
  · exact devEvents_halted h
  · exact h

variable (ht : s.cpu.icount.toNat ≤ t.toNat)

include ht

theorem setIcount_sane (hs : Sane s) : Sane (setIcount t s) :=
  ⟨hs.prescale_pos, hs.phase_lt, hs.last_le.trans ht⟩

/-- The reference timer sees every instruction of the jump. -/
theorem setIcount_ref (hs : Sane s) :
    (setIcount t s).ref = Ref.tick^[t.toNat - s.cpu.icount.toNat] s.ref := by
  have hbehind : (setIcount t s).behind = (t.toNat - s.cpu.icount.toNat) + s.behind := by
    have := hs.last_le
    unfold Machine.behind
    show t.toNat - s.dev.tLast.toNat = _
    omega
  unfold Machine.ref
  rw [hbehind, Function.iterate_add_apply]
  rfl

variable (hb : t.toNat < countBound) (hf : t = s.cpu.icount → s.dev.tLast = s.cpu.icount → s.fracOk)

include hb hf

theorem setIcount_ready (hs : Sane s) : Ready (setIcount t s) where
  count_lt := hb
  frac hlast := by
    have hl : s.dev.tLast = t := hlast
    have hle := hs.last_le
    have hti : t = s.cpu.icount := BitVec.eq_of_toNat_eq (by rw [hl] at hle; omega)
    exact hf hti (hl.trans hti)

/-- Looking at the devices after a jump: exact, or stopped at the limit. -/
theorem devEvents_setIcount (hs : Sane s) :
    (devEvents (setIcount t s)).cpu.halted ∨ Exact (devEvents (setIcount t s)) ∧
      (devEvents (setIcount t s)).ref = Ref.tick^[t.toNat - s.cpu.icount.toNat] s.ref := by
  by_cases hl : t < s.cfg.ilimit
  · obtain ⟨hex, href⟩ :=
      devEvents_exact (setIcount_sane ht hs) (setIcount_ready ht hb hf hs) hl
    exact .inr ⟨hex, href.trans (setIcount_ref ht hs)⟩
  · exact .inl (devEvents_limit (BitVec.not_lt.1 hl))

/-- **The end of an instruction**: the devices are looked at when `dev_next` says so. -/
theorem afterEvents_setIcount (hs : Exact s) :
    (afterEvents (setIcount t s)).cpu.halted ∨ Exact (afterEvents (setIcount t s)) ∧
      (afterEvents (setIcount t s)).ref = Ref.tick^[t.toNat - s.cpu.icount.toNat] s.ref := by
  unfold afterEvents
  split
  · exact devEvents_setIcount ht hb hf hs.toSane
  · rename_i hnext
    have hlt : t.toNat < s.dev.devNext.toNat := BitVec.not_le.1 hnext
    have hlim := hs.next_le_limit
    refine .inr ⟨⟨setIcount_sane ht hs.toSane, hlt.trans_le hlim, hlim, ?_, ?_⟩,
      setIcount_ref ht hs.toSane⟩
    · -- what is watched has not come yet
      intro h0
      obtain hle | ⟨hfrac, hle⟩ := hs.watched h0
      · omega
      · refine .inr ⟨hfrac, ?_⟩
        show t.toNat - s.dev.tLast.toNat < s.due
        have hdue : 0 < s.due := due_pos hs.toSane hfrac h0
        omega
    · exact fun h0 => (hs.watched h0).imp (fun h => h.trans ht) id

end Jumps

/-! ## Waiting -/

/-- One round of `dev_wfi`. -/
def wfiRound (s : Machine) : Machine :=
  let t := wfiTime s
  if t = never ∧ !wfiInput s then cpuStop exitDeadlock s
  else
    let s' := if wfiInput s then wfiPoll s else s
    if wfiInput s ∧ s'.dev.picPending &&& s'.dev.picMask ≠ 0 then s' else wfiAdvance t s'

/-- What `dev_wfi` needs before a round: nothing it may jump to is near the largest instruction
count, and a running timer is synchronised and not masked. -/
structure WaitOk (s : Machine) : Prop extends Ready s where
  poll : s.cpu.icount.toNat + 100000 < countBound
  disk : ∀ u, (s.dev.disk u).done.toNat < countBound
  net : s.net.txDone.toNat < countBound
  running : s.modulus ≠ 0 → s.dev.tLast = s.cpu.icount ∧ s.dev.picMask &&& 1 ≠ 0 ∧
    s.cpu.icount.toNat + s.due < countBound

section Waiting

variable {s : Machine}

theorem devWfi_settled (fuel : Nat) (h : s.dev.picPending &&& s.dev.picMask ≠ 0 ∨ s.cpu.halted) :
    devWfi fuel s = some s := by
  cases fuel <;> simp only [devWfi, if_pos h]

/-- `dev_wfi` is rounds until a line is pending or the machine stops. -/
theorem devWfi_succ (fuel : Nat) (s : Machine) :
    devWfi (fuel + 1) s =
      if s.dev.picPending &&& s.dev.picMask ≠ 0 ∨ s.cpu.halted then some s
      else devWfi fuel (wfiRound s) := by
  rw [devWfi]
  refine ite_congr rfl (fun _ => rfl) fun _ => ?_
  unfold wfiRound
  simp only
  split
  · exact (devWfi_settled fuel (.inr rfl)).symm
  · generalize (if wfiInput s = true then wfiPoll s else s) = s'
    split
    · rename_i h
      exact (devWfi_settled fuel (.inl h.2)).symm
    · rfl

/-- A running timer that is synchronised predicts its expiry. -/
theorem WaitOk.timerNext (hs : Sane s) (hw : WaitOk s) (h0 : s.modulus ≠ 0) :
    (timerNext s).toNat = s.cpu.icount.toNat + s.due := by
  obtain ⟨hlast, -, hb⟩ := hw.running h0
  rw [timerNext_toNat hs h0 (hw.frac hlast)]
  exact Nat.mod_eq_of_lt (hb.trans (by decide))

theorem never_toNat : never.toNat = 2 ^ 64 - 1 := by decide

theorem timerNext_off (h0 : s.modulus = 0) : timerNext s = never := by
  unfold Emu.timerNext
  exact if_pos (modulus_eq_zero.1 h0)

/-- The round ends no later than a timer that is not masked. -/
theorem wfiTime_le (hm : s.dev.picMask &&& 1 ≠ 0) : wfiTime s ≤ timerNext s := by
  unfold wfiTime
  simp only [if_pos hm]
  refine BitVec.le_trans (lower_le _ _ _ And.right) ?_
  exact BitVec.le_trans (lower_le _ _ _ fun h => h.2.2) (lower_le _ _ _ fun h => h.2.2)

theorem wfiTime_bound (hs : Sane s) (hw : WaitOk s) :
    wfiTime s = never ∨ (wfiTime s).toNat < countBound := by
  have hite : ∀ (c : Prop) [Decidable c] (x n : BitVec 64),
      (x = never ∨ x.toNat < countBound) → (n = never ∨ n.toNat < countBound) →
      ((if c then x else n) = never ∨ (if c then x else n).toNat < countBound) := by
    intro c _ x n hx hn
    split
    · exact hx
    · exact hn
  have hnet : netNext s = never ∨ (netNext s).toNat < countBound := by
    unfold netNext
    exact (hite _ _ _ (.inr hw.net) (.inl rfl))
  have htimer : (if s.dev.picMask &&& 1 ≠ 0 then timerNext s else never) = never ∨
      (if s.dev.picMask &&& 1 ≠ 0 then timerNext s else never).toNat < countBound := by
    split
    · by_cases h0 : s.modulus = 0
      · exact .inl (timerNext_off h0)
      · rw [hw.timerNext hs h0]
        exact .inr (hw.running h0).2.2
    · exact .inl rfl
  unfold wfiTime
  exact hite _ _ _ hnet (hite _ _ _ (.inr (hw.disk 1)) (hite _ _ _ (.inr (hw.disk 0)) htimer))

/-- What the reference timer does in a jump that stops at or before the expiry. -/
theorem pending_before (hs : Sane s) {j : Nat}
    (h : s.modulus ≠ 0 → s.dev.tLast = s.cpu.icount ∧ s.fracOk ∧ j < s.due) :
    (Ref.tick^[j] s.ref).pending = s.ref.pending := by
  by_cases h0 : s.modulus = 0
  · -- a timer that is off never expires
    have hoff : ∀ n (r : Ref), modulus r.ctrl r.period = 0 →
        (Ref.tick^[n] r).pending = r.pending := by
      intro n r hr
      rw [Ref.iterate_tick_state, hr]
      unfold Ref.pending
      simp only
      induction n with
      | zero => rfl
      | succ n ih =>
        rw [Function.iterate_succ_apply', ← ih]
        simp [Divider.tick, Divider.addTicks]
    unfold Machine.ref
    rw [← Function.iterate_add_apply, hoff _ s.timer h0, hoff _ s.timer h0]
  · obtain ⟨hlast, hf, hj⟩ := h h0
    rw [ref_of_behind ((behind_eq_zero hs).2 hlast), Ref.iterate_tick_state]
    have hjump := Divider.iterate_tick (n := j) (s := s.timer.state) hs.prescale_pos hs.phase_lt
      fun _ => hf
    unfold Ref.pending
    simp only
    exact (congrArg Divider.State.expired hjump).trans
      (Divider.jump_expired_of_lt hs.prescale_pos hs.phase_lt fun _ => hj)

/-- From `s` to `t` time moves up to the next expiry at most, and the timer is where the reference
timer then is. -/
structure Advances (s t : Machine) : Prop where
  exact : Exact t
  ref : t.ref = Ref.tick^[t.cpu.icount.toNat - s.cpu.icount.toNat] s.ref
  steady : ∀ j < t.cpu.icount.toNat - s.cpu.icount.toNat,
    (Ref.tick^[j] s.ref).pending = s.ref.pending

theorem Still.advances {s' : Machine} (hq : Still s s') (hs : Exact s) : Advances s s' where
  exact := hq.exact hs
  ref := by
    rw [hq.icount, Nat.sub_self, hq.ref]
    rfl
  steady j hj := by
    rw [hq.icount] at hj
    omega

/-- A jump to a time that is not past the expiry. -/
theorem devEvents_advances {s' : Machine} {t : BitVec 64} (hs : Exact s) (hw : WaitOk s)
    (hq : Still s s') (ht : s.cpu.icount.toNat ≤ t.toNat) (hb : t.toNat < countBound)
    (hdue : s.modulus ≠ 0 → t.toNat ≤ s.cpu.icount.toNat + s.due) :
    (devEvents (setIcount t s')).cpu.halted ∨ Advances s (devEvents (setIcount t s')) := by
  have hfrac : s'.dev.tLast = s'.cpu.icount → s'.fracOk := by
    rw [hq.last, hq.icount, hq.fracOk]
    exact hw.frac
  have hlen : (devEvents (setIcount t s')).cpu.icount = t := devEvents_icount _
  have hev := devEvents_setIcount (hq.icount ▸ ht) hb (fun _ => hfrac) (hq.sane hs.toSane)
  refine hev.imp id ?_
  rintro ⟨hex, href⟩
  rw [hq.icount, hq.ref] at href
  refine ⟨hex, by rw [hlen, href], fun j hj => pending_before hs.toSane fun h0 => ?_⟩
  have hlast := (hw.running h0).1
  have hle := hdue h0
  rw [hlen] at hj
  exact ⟨hlast, hw.frac hlast, by omega⟩

/-- The part of a round that moves time. -/
theorem wfiAdvance_advances {s' : Machine} (hs : Exact s) (hw : WaitOk s) (hq : Still s s') :
    (wfiAdvance (wfiTime s) s').cpu.halted ∨ Advances s (wfiAdvance (wfiTime s) s') := by
  have hdue : s.modulus ≠ 0 → (wfiTime s).toNat ≤ s.cpu.icount.toNat + s.due := by
    intro h0
    rw [← hw.timerNext hs.toSane h0]
    exact wfiTime_le (hw.running h0).2.1
  unfold wfiAdvance
  split
  · rename_i hnever
    have hb := (wfiTime_bound hs.toSane hw).resolve_left hnever
    split
    · exact .inl rfl
    · split
      · rename_i hlt
        have hlt' : s'.cpu.icount.toNat < (wfiTime s).toNat := hlt
        rw [hq.icount] at hlt'
        exact devEvents_advances hs hw hq hlt'.le hb hdue
      · -- the event is due already
        have hstay := devEvents_advances (t := s'.cpu.icount) hs hw hq (by rw [hq.icount])
          (hq.icount ▸ hw.count_lt) fun _ => by rw [hq.icount]; omega
        exact hstay
  · rename_i hnever
    -- a running timer that is not masked gives the round an end
    have hoff : s.modulus = 0 := by
      by_contra h0
      have hle := hdue h0
      have hb := (hw.running h0).2.2
      rw [not_not.1 hnever, never_toNat] at hle
      unfold countBound at hb
      omega
    split
    · have hpoll := hw.poll
      have hsum : (s'.cpu.icount + 100000).toNat = s.cpu.icount.toNat + 100000 := by
        rw [hq.icount, BitVec.toNat_add]
        unfold countBound at hpoll
        have h5 : (100000 : BitVec 64).toNat = 100000 := by decide
        omega
      exact devEvents_advances hs hw hq (by omega) (by omega) fun h0 => absurd hoff h0
    · exact .inr (hq.advances hs)

/-- **A round of `dev_wfi` is exact** when the timer is up to date and not masked. -/
theorem wfiRound_advances (hs : Exact s) (hw : WaitOk s) :
    (wfiRound s).cpu.halted ∨ Advances s (wfiRound s) := by
  have hq : Still s (if wfiInput s = true then wfiPoll s else s) :=
    Serves.still (.ite (wfiPoll_routine s).serves (.refl s))
  unfold wfiRound
  simp only
  generalize (if wfiInput s = true then wfiPoll s else s) = s' at hq
  split
  · exact .inl rfl
  · split
    · exact .inr (hq.advances hs)
    · exact wfiAdvance_advances hs hw hq

end Waiting

/-! ## Runs -/

/-- What happens to the timer in a run. -/
inductive Event where
  /-- Anything that has nothing to do with the timer. -/
  | still
  /-- The interrupt controller is told to clear the lines in `v`. -/
  | clear (v : Word)
  /-- The register at `off` is read. -/
  | read (off : Word)
  /-- The register at `off` is written. -/
  | write (off v : Word)
  /-- The network interface takes a frame and schedules anew. -/
  | resched
  /-- A round of `dev_wfi`. -/
  | round
  /-- A step ends, with its instruction counted or not, and the next one begins. -/
  | next (counted : Bool)

/-- The count with which the next step begins. -/
def countAfter (counted : Bool) (s : Machine) : BitVec 64 :=
  if counted then s.cpu.icount + 1 else s.cpu.icount

/-- The machine goes from one state to another by an event. -/
inductive Does : Event → Machine → Machine → Prop
  | still {s t : Machine} : Still s t → Does .still s t
  | clear (s : Machine) (v : Word) : Does (.clear v) s (picWr 0x08 v s)
  | read (s : Machine) (off : Word) : Does (.read off) s (timerRd off s).2
  | write (s : Machine) (off v : Word) : Does (.write off v) s (timerWr off v s)
  | resched {s t : Machine} : Still s t → Does .resched s (schedule t)
  | round {s : Machine} : s.dev.picPending &&& s.dev.picMask = 0 → s.cpu.halted = false →
      Does .round s (wfiRound s)
  | next (s : Machine) (counted : Bool) :
      Does (.next counted) s (afterEvents (setIcount (countAfter counted s) s))

/-- The condition on the state before an event. -/
def Meets : Event → Machine → Prop
  | .still, _ | .clear _, _ => True
  | .read _, s | .write _ _, s | .next false, s => Ready s
  | .resched, s => Ready s ∧ (s.modulus ≠ 0 → s.dev.tLast = s.cpu.icount)
  | .round, s => WaitOk s
  | .next true, s => s.cpu.icount.toNat + 1 < countBound

/-- What the event does to the reference timer besides the passing of time. -/
def Ref.seen : Event → Ref → Ref
  | .clear v, r => r.clear v
  | .write off v, r => r.write off v
  | _, r => r

/-- The reference timer after the reset of the machine. -/
def Ref.reset : Ref := ⟨⟨0, 0, 0, false⟩, 0, 0, 1000⟩

/-- A run of the machine with the reference timer: it sees the register accesses, and ticks once
for every instruction counted. -/
inductive TimerRun (cfg : Config) (host : Host) : Machine → Ref → Prop
  | start : TimerRun cfg host (afterEvents (cpuInitSize cfg host)) Ref.reset
  | step {s t : Machine} {r : Ref} (e : Event) : TimerRun cfg host s r → Does e s t → Meets e s →
      TimerRun cfg host t (Ref.tick^[t.cpu.icount.toNat - s.cpu.icount.toNat] (r.seen e))

section Steps

variable {s t : Machine} {e : Event}

/-- Clearing the line before the unseen instructions or after them is the same: none of them
expires. -/
theorem Exact.clear (hs : Exact s) (v : Word) :
    Exact (picWr 0x08 v s) ∧ (picWr 0x08 v s).ref = s.ref.clear v := by
  have hwr : picWr 0x08 v s =
      { s with dev := { s.dev with picPending := s.dev.picPending &&& ~~~v } } := rfl
  have hex : Exact (picWr 0x08 v s) := by
    rw [hwr]
    exact ⟨⟨hs.prescale_pos, hs.phase_lt, hs.last_le⟩, hs.below_limit, hs.next_le_limit,
      hs.calm, hs.watched⟩
  have hbit : (picWr 0x08 v s).dev.picPending.getLsbD 0 =
      (s.dev.picPending.getLsbD 0 && !v.getLsbD 0) := by
    rw [hwr]
    simp
  refine ⟨hex, ?_⟩
  by_cases hz : s.behind = 0
  · have hz' : (picWr 0x08 v s).behind = 0 := hz
    rw [ref_of_behind hz, ref_of_behind hz']
    unfold Machine.timer Ref.clear
    rw [hbit]
    rfl
  · have hpend := hs.pending
    have hpend' := hex.pending
    have hz' : (picWr 0x08 v s).behind ≠ 0 := hz
    rw [hbit, ← hpend] at hpend'
    rw [ref_eq_jump hs.toSane fun h => absurd h hz] at hpend hpend' ⊢
    rw [ref_eq_jump hex.toSane fun h => absurd h hz'] at hpend' ⊢
    exact congrArg (Ref.mk · s.dev.tPeriod s.dev.tCtrl s.dev.tPrescale)
      (Divider.State.ext rfl rfl rfl hpend')

theorem countAfter_toNat {c : Bool} (hb : Meets (.next c) s) :
    (countAfter c s).toNat = s.cpu.icount.toNat + c.toNat := by
  cases c with
  | false => rfl
  | true =>
    have hlt : s.cpu.icount.toNat + 1 < countBound := hb
    unfold countAfter countBound at *
    rw [if_pos rfl, BitVec.toNat_add]
    have h1 : (1 : BitVec 64).toNat = 1 := by decide
    simp only [Bool.toNat_true]
    omega

theorem picWr_halted (off v : Word) (s : Machine) : (picWr off v s).cpu.halted = s.cpu.halted := by
  unfold picWr
  split_ifs <;> rfl

theorem Does.halted (h : Does e s t) (hs : s.cpu.halted) : t.cpu.halted := by
  cases h with
  | still hq => exact hq.halted hs
  | clear _ v => exact (picWr_halted _ v s).trans hs
  | read _ off => exact (congrArg Cpu.halted (timerSync_cpu s)).trans hs
  | write _ off v => exact (congrArg Cpu.halted (timerWr_cpu off v s)).trans hs
  | resched hq => exact hq.halted hs
  | round _ hrun => exact absurd hs (by simp [hrun])
  | next _ c => exact afterEvents_halted hs

/-- **One event**: from an exact timer to an exact timer, unless the machine stops. -/
theorem Exact.step (hs : Exact s) (h : Does e s t) (hm : Meets e s) :
    t.cpu.halted ∨ Exact t ∧
      t.ref = Ref.tick^[t.cpu.icount.toNat - s.cpu.icount.toNat] (s.ref.seen e) := by
  cases h with
  | still hq => exact .inr ⟨hq.exact hs, (hq.advances hs).ref⟩
  | clear _ v =>
    obtain ⟨hex, href⟩ := hs.clear v
    have hcpu : (picWr 0x08 v s).cpu = s.cpu := rfl
    rw [hcpu, Nat.sub_self]
    exact .inr ⟨hex, href⟩
  | read _ off =>
    have hcpu : (timerRd off s).2.cpu = s.cpu := timerSync_cpu s
    rw [hcpu, Nat.sub_self]
    exact .inr ⟨hs.timerSync hm, timerSync_ref hs.toSane hm⟩
  | write _ off v =>
    rw [timerWr_cpu, Nat.sub_self]
    exact .inr ⟨hs.timerWr off v hm, timerWr_ref off v hs.toSane hm⟩
  | @resched _ u hq =>
    obtain ⟨hr, hlast⟩ := hm
    have hcount : (schedule u).cpu.icount = s.cpu.icount := hq.icount
    rw [hcount, Nat.sub_self]
    refine .inr ⟨schedule_exact (hq.sane hs.toSane) (hq.exact hs).below_limit ?_, hq.ref⟩
    rw [hq.modulus, hq.last, hq.icount, hq.fracOk]
    exact fun h0 => ⟨hlast h0, hr.frac (hlast h0)⟩
  | round _ _ => exact (wfiRound_advances hs hm).imp id fun h => ⟨h.exact, h.ref⟩
  | next _ c =>
    have hto := countAfter_toNat hm
    have hlen : (afterEvents (setIcount (countAfter c s) s)).cpu.icount = countAfter c s := by
      unfold afterEvents
      split
      · exact devEvents_icount _
      · rfl
    rw [hlen]
    refine afterEvents_setIcount (by omega) ?_ (fun heq => ?_) hs
    · cases c with
      | false =>
        rw [hto]
        exact hm.count_lt
      | true =>
        rw [hto]
        exact hm
    · cases c with
      | false => exact hm.frac
      | true =>
        rw [heq] at hto
        exact absurd hto (by simp)

end Steps

section Runs

variable {cfg : Config} {host : Host} {s : Machine} {r : Ref}

theorem start_exact (cfg : Config) (host : Host) :
    (afterEvents (cpuInitSize cfg host)).cpu.halted ∨
      Exact (afterEvents (cpuInitSize cfg host)) ∧
        (afterEvents (cpuInitSize cfg host)).ref = Ref.reset := by
  have hoff : (cpuInitSize cfg host).modulus = 0 :=
    modulus_eq_zero.2 (.inl (show (0 : Word) &&& 1 = 0 by decide))
  have hpre : 0 < (1000 : Word).toNat := by decide
  have hsane : Sane (cpuInitSize cfg host) := ⟨hpre, fun h0 => absurd hoff h0, Nat.le_refl 0⟩
  have hzero : (cpuInitSize cfg host).behind = 0 := Nat.sub_self 0
  have htimer : (cpuInitSize cfg host).timer = Ref.reset := by
    simp [Machine.timer, cpuInitSize, schedule, devReset, Ref.reset]
  have href : (cpuInitSize cfg host).ref = Ref.reset := (ref_of_behind hzero).trans htimer
  have hcount : (0 : BitVec 64).toNat < 2 ^ 64 - 2 ^ 33 := by decide
  have hready : Ready (cpuInitSize cfg host) := ⟨hcount, fun _ => hpre⟩
  by_cases hl : (0 : BitVec 64) < cfg.ilimit
  · refine .inr ?_
    unfold afterEvents
    split
    · rw [← href]
      exact devEvents_exact hsane hready hl
    · exact ⟨schedule_exact ⟨hsane.prescale_pos, hsane.phase_lt, hsane.last_le⟩ hl
        fun h0 => absurd hoff h0, href⟩
  · -- a limit of zero stops the machine before its first instruction
    have hle : cfg.ilimit ≤ (0 : BitVec 64) := BitVec.not_lt.1 hl
    have hnext : (cpuInitSize cfg host).dev.devNext ≤ (cpuInitSize cfg host).cpu.icount :=
      BitVec.le_trans (schedule_le _).1 hle
    unfold afterEvents
    rw [if_pos hnext]
    exact .inl (devEvents_limit hle)

/-- The timer is exact in every state of a run in which the machine has not stopped. -/
theorem TimerRun.exact (h : TimerRun cfg host s r) : s.cpu.halted ∨ Exact s ∧ s.ref = r := by
  induction h with
  | start => exact start_exact cfg host
  | step e _ hd hm ih =>
    obtain hh | ⟨hex, href⟩ := ih
    · exact .inl (hd.halted hh)
    · rw [← href]
      exact hex.step hd hm

/-- **Timer interrupts are exact** in every state of every run whose events meet their
conditions: the line is pending when it is for a timer that sees every instruction, the count read
is that timer's, and a round of `dev_wfi` does not pass the instruction at which the line
becomes pending. -/
theorem timer_exact (h : TimerRun cfg host s r) (hrun : s.cpu.halted = false) :
    s.dev.picPending.getLsbD 0 = r.pending ∧
      (Meets (.read 0x00) s → (timerRd 0x00 s).1 = r.count) ∧
      ∀ t, Does .round s t → Meets .round s → t.cpu.halted = false →
        ∀ j < t.cpu.icount.toNat - s.cpu.icount.toNat, (Ref.tick^[j] r).pending = r.pending := by
  obtain hh | ⟨hex, href⟩ := h.exact
  · simp [hh] at hrun
  · rw [← href]
    refine ⟨hex.pending.symm, hex.count, ?_⟩
    intro t hd hm ht
    cases hd with
    | round _ _ =>
      obtain hstop | hadv := wfiRound_advances hex hm
      · simp [hstop] at ht
      · exact hadv.steady

end Runs

/-- The timer is switched on with a period of two ticks and has expired after two instructions. -/
theorem timer_exact_two : ∃ s r, TimerRun bareConfig bareHost s r ∧ r.pending = true ∧
    s.dev.picPending.getLsbD 0 = r.pending ∧ (timerRd 0x00 s).1 = r.count := by
  have h1 := TimerRun.step (.write 0x0C 1) (@TimerRun.start bareConfig bareHost)
    (.write _ _ _) ⟨by decide +kernel, fun _ => by decide +kernel⟩
  have h2 := h1.step (.write 0x04 2) (.write _ _ _) ⟨by decide +kernel, fun _ => by decide +kernel⟩
  have h3 := h2.step (.write 0x08 1) (.write _ _ _) ⟨by decide +kernel, fun _ => by decide +kernel⟩
  have h4 := h3.step (.next true) (.next _ _)
    (of_decide_eq_true (p := _ + 1 < countBound) (by decide +kernel))
  have h5 := h4.step (.next true) (.next _ _)
    (of_decide_eq_true (p := _ + 1 < countBound) (by decide +kernel))
  obtain ⟨hline, hcount, -⟩ := timer_exact h5 (by decide +kernel)
  refine ⟨_, _, h5, by decide +kernel, hline, ?_⟩
  exact hcount ⟨by decide +kernel, fun _ => by decide +kernel⟩

/-! ## Where it fails -/

/-- Line 0 is unmasked, the prescale value is set to `1`, the period to `10`, the timer switched
on; three `NOP`s and `WFI` follow. -/
def waitProgram : List Byte :=
  [0x20, 0, 1, 0, 0, 0, 0x21, 0, 0x04, 0, 0, 0xF0, 0x21, 0, 0x0C, 0x10, 0, 0xF0,
   0x20, 1, 10, 0, 0, 0, 0x21, 1, 0x04, 0x10, 0, 0xF0, 0x21, 0, 0x08, 0x10, 0, 0xF0,
   0x00, 0x00, 0x00, 0x81]

/-- The machine after `n` steps of that program. -/
def waiting (n : Nat) : Option Machine :=
  (List.replicate n ()).foldlM (fun s _ => cpuStep s)
    (loadProgram waitProgram (cpuInitSize { bareConfig with patience := 4 } bareHost))

/-- **`WFI` jumps past the expiry.**  At instruction 9 the reference timer has six instructions to
go, but `dev_wfi` predicts from a timer that was last synchronised at instruction 6 and jumps to
instruction 18; the line becomes pending there and not at instruction 15. -/
theorem wfi_overshoots : ∃ s, waiting 9 = some s ∧ s.cpu.icount = 9 ∧
    s.dev.picPending.getLsbD 0 = false ∧ (Ref.tick^[6] s.ref).pending = true ∧
    wfiTime s = 18 ∧ (wfiRound s).cpu.icount = 18 ∧
    (wfiRound s).dev.picPending.getLsbD 0 = true ∧
    (cpuStep s).map (·.cpu.icount) = some 19 := by
  refine ⟨(waiting 9).get (by decide +kernel), (Option.some_get _).symm, ?_⟩
  decide +kernel

end Tortoise.Emu
