import Mathlib

/-!
# Timeouts of the kernel

`timer_add`, `timer_cancel` and `timer_tick` of `src/os/kernel/kmem.c` with everything that uses
them: `sys_alarm`, `do_sleep`, `sys_poll`, `sock_wait` and `wait_input`.  The kernel takes no
interrupts, so a tick comes between the calls or while a call sleeps.

* `step`: a tick, or a piece of a call of some process.  A call that waits begins with `wait`, and
  goes on with `wake` whenever it is woken, for whatever reason.
* `Rec`: what has happened to a timer since it was added; the records only watch.
* `delay`: how many ticks a timer takes.
* `timers_exact_iff`: a timer is cancelled by its owner only, and otherwise fires once; it does so
  after the number of ticks that was asked for exactly if that is at most `2 ^ 31 + 1`.
* `alarm_early`: an alarm that goes off at the next tick.
-/

namespace Tortoise.Timers

open Function

abbrev Word := BitVec 32

def nTimer : Nat := 128

/-- Who uses timers, each with a function of its own: `alarm_fire`, `poll_timeout`, `sleep_timer`,
`sock_timeout` and `tty_timeout`. -/
inductive Client where
  | alarm
  | poll
  | sleep
  | sock
  | tty
  deriving DecidableEq

/-- `KTimer`, when it is used.  `serial` tells the timers apart that use a slot one after the
other. -/
structure Timer where
  expire : Word
  fn : Client
  arg : Nat
  serial : Nat

/-- The part of `Proc` that is about timers; `call` is the wait it is in, with the number of its
timer.  `ttyFired` is on the stack of `wait_input`. -/
structure Proc where
  alarmId : Nat
  timerFired : Bool
  ttyFired : Bool
  call : Option (Client × Nat)

def Proc.init : Proc := ⟨0, false, false, none⟩

/-- A timer that was added: by whom, when, for how many ticks, when it fired and who cancelled
it. -/
structure Rec where
  owner : Nat
  start : Nat
  n : Word
  fires : List Nat
  cancels : List Nat
  deriving DecidableEq

/-- The ticks as the kernel counts them and since the beginning, the timers, the processes, and the
records by serial number. -/
structure Sys where
  ticks : Word
  now : Nat
  timers : Nat → Option Timer
  procs : Nat → Proc
  log : Nat → Option Rec
  next : Nat

def Sys.init (ticks : Word) : Sys := ⟨ticks, 0, fun _ => none, fun _ => .init, fun _ => none, 0⟩

def Sys.setProc (s : Sys) (p : Nat) (q : Proc) : Sys :=
  { s with procs := update s.procs p q }

/-- A timer leaves its slot. -/
def Sys.release (s : Sys) (i : Nat) (t : Timer) (f : Rec → Rec) : Sys :=
  { s with
    timers := update s.timers i none
    log := update s.log t.serial ((s.log t.serial).map f) }

def timerAdd (n : Word) (fn : Client) (p : Nat) (s : Sys) : Nat × Sys :=
  match (List.range nTimer).find? fun i => (s.timers i).isNone with
  | some i => (i + 1, { s with
      timers := update s.timers i (some ⟨s.ticks + n, fn, p, s.next⟩)
      log := update s.log s.next (some ⟨p, s.now, n, [], []⟩)
      next := s.next + 1 })
  | none => (0, s)

/-- `timer_cancel`, called by the process `p`. -/
def timerCancel (id p : Nat) (s : Sys) : Sys :=
  if 0 < id ∧ id ≤ nTimer then
    match s.timers (id - 1) with
    | some t => s.release (id - 1) t fun r => { r with cancels := r.cancels ++ [p] }
    | none => s
  else s

/-- The flag of a wait. -/
def Proc.fired (p : Proc) (c : Client) : Bool := if c = .tty then p.ttyFired else p.timerFired

/-- What the function of a timer does to the process. -/
def Proc.fire (p : Proc) : Client → Proc
  | .alarm => { p with alarmId := 0 }
  | .tty => { p with ttyFired := true }
  | _ => { p with timerFired := true }

/-- `(int)(ticks - expire) >= 0`. -/
def due (ticks : Word) (t : Timer) : Bool := (0#32).sle (ticks - t.expire)

/-- One turn of the loop of `timer_tick`. -/
def tickSlot (s : Sys) (i : Nat) : Sys :=
  match s.timers i with
  | some t =>
    if due s.ticks t then
      (s.release i t fun r => { r with fires := r.fires ++ [s.now] }).setProc t.arg
        ((s.procs t.arg).fire t.fn)
    else s
  | none => s

def timerTick (s : Sys) : Sys := (List.range nTimer).foldl tickSlot s

/-- The alarm of a process is cancelled. -/
def dropAlarm (p : Nat) (s : Sys) : Sys :=
  if (s.procs p).alarmId ≠ 0 then
    (timerCancel (s.procs p).alarmId p s).setProc p { s.procs p with alarmId := 0 }
  else s

def sysAlarm (p : Nat) (n : Word) (s : Sys) : Sys :=
  let s := dropAlarm p s
  if n ≠ 0 then
    let x := timerAdd n .alarm p s
    x.2.setProc p { s.procs p with alarmId := x.1 }
  else s

/-- The flag is cleared before the timer is added. -/
def Proc.clear (p : Proc) (c : Client) : Proc :=
  if c = .tty then { p with ttyFired := false } else { p with timerFired := false }

/-- A wait begins, with a timer if `n` is not zero; `do_sleep` gives up without one. -/
def beginWait (p : Nat) (c : Client) (n : Word) (s : Sys) : Sys :=
  let q := (s.procs p).clear c
  let x := if n ≠ 0 then timerAdd n c p s else (0, s)
  if c = .sleep ∧ x.1 = 0 then x.2.setProc p q
  else x.2.setProc p { q with call := some (c, x.1) }

/-- The wait ends. -/
def endWait (p : Nat) (s : Sys) : Sys := s.setProc p { s.procs p with call := none }

/-- A process that waits goes on behind `sleep_on`; `ready` is what poll waits for. -/
def wake (p : Nat) (ready signal : Bool) (s : Sys) : Sys :=
  match (s.procs p).call with
  | none => s
  | some (c, id) =>
    let fired := (s.procs p).fired c
    match c with
    | .alarm => s
    | .poll =>
      if ready || fired then
        endWait p (if id ≠ 0 ∧ fired = false then timerCancel id p s else s)
      else if signal then endWait p (if id ≠ 0 then timerCancel id p s else s)
      else s
    | .sleep =>
      if fired then endWait p s
      else if signal then endWait p (timerCancel id p s)
      else s
    | .sock | .tty => endWait p (if id ≠ 0 ∧ fired = false then timerCancel id p s else s)

inductive Event where
  | tick
  | alarm (p : Nat) (n : Word)
  | wait (p : Nat) (c : Client) (n : Word)
  | wake (p : Nat) (ready signal : Bool)
  | exit (p : Nat)

/-- What happens.  A process that waits makes no other call. -/
def step (s : Sys) : Event → Sys
  | .tick => timerTick { s with ticks := s.ticks + 1, now := s.now + 1 }
  | .alarm p n => if (s.procs p).call.isSome then s else sysAlarm p n s
  | .wait p c n => if (s.procs p).call.isSome ∨ c = .alarm then s else beginWait p c n s
  | .wake p ready signal => wake p ready signal s
  | .exit p => if (s.procs p).call.isSome then s else (dropAlarm p s).setProc p .init

def run (s : Sys) (evs : List Event) : Sys := evs.foldl step s

/-- The timer has fired when it should, and not before. -/
def Rec.OnTime (r : Rec) (now : Nat) : Prop :=
  r.fires = if now < r.start + r.n.toNat then [] else [r.start + r.n.toNat]

instance (r : Rec) (now : Nat) : Decidable (r.OnTime now) := inferInstanceAs (Decidable (_ = _))

/-! ## How long a timer takes -/

/-- The comparison takes a number of ticks beyond `2 ^ 31 + 1` for one that is over. -/
def delay (n : Word) : Nat := if n.toNat ≤ 2 ^ 31 + 1 then n.toNat else 1

theorem delay_pos {n : Word} (h : n ≠ 0) : 0 < delay n := by
  unfold delay
  split
  · bv_omega
  · decide

theorem zero_sle (d : Word) : (0#32).sle d = true ↔ d.toNat < 2 ^ 31 := by
  have := d.isLt
  rw [BitVec.sle_iff_toInt_le, BitVec.toInt_eq_toNat_cond d, BitVec.toInt_zero]
  split <;> omega

/-- A timer is due when its delay is over, if it is looked at on every tick until then. -/
theorem due_iff {ticks n : Word} {t : Timer} {k : Nat} (hn : n ≠ 0) (hk : 0 < k)
    (hle : k ≤ delay n) (he : t.expire = ticks - BitVec.ofNat 32 k + n) :
    due ticks t = true ↔ k = delay n := by
  have hdiff : ticks - t.expire = BitVec.ofNat 32 k - n := by
    rw [he]
    ring
  have hlt := n.isLt
  rw [due, zero_sle, hdiff, BitVec.toNat_sub, BitVec.toNat_ofNat]
  unfold delay at *
  split at hle
  · next h =>
      have hn0 : n.toNat ≠ 0 := by bv_omega
      rw [if_pos h]
      omega
  · next h =>
      rw [if_neg h]
      omega

/-! ## Timers and their owners -/

/-- The number of the timer that the process has for a purpose and that has not fired, or 0. -/
def Proc.slot (p : Proc) (c : Client) : Nat :=
  if c = .alarm then p.alarmId
  else match p.call with
    | some (c', id) => if c' = c ∧ p.fired c = false then id else 0
    | none => 0

/-- The timer has come to its end: it has fired, or its owner has cancelled it. -/
def Rec.Done (r : Rec) (now : Nat) : Prop :=
  r.fires = [r.start + delay r.n] ∧ r.cancels = [] ∧ r.start + delay r.n ≤ now ∨
    r.fires = [] ∧ r.cancels = [r.owner]

/-- A timer in a slot has its record and is not over; `slack` is 1 while `timer_tick` runs. -/
structure Live (slack : Nat) (s : Sys) (t : Timer) (r : Rec) : Prop where
  log : s.log t.serial = some r
  owner : r.owner = t.arg
  open_ : r.fires = [] ∧ r.cancels = []
  pos : r.n ≠ 0
  start : r.start + slack ≤ s.now
  before : s.now < r.start + delay r.n + slack
  expire : t.expire = s.ticks - BitVec.ofNat 32 (s.now - r.start) + r.n

/-- Every timer in a slot belongs to the process that knows its number, and every record is that of
such a timer or is done. -/
structure Inv (slack : Nat) (s : Sys) : Prop where
  held : ∀ p c i, (s.procs p).slot c = i + 1 ↔
    ∃ t, s.timers i = some t ∧ t.fn = c ∧ t.arg = p
  live : ∀ i t, s.timers i = some t → i < nTimer ∧ ∃ r, Live slack s t r
  serial : ∀ i j t t', s.timers i = some t → s.timers j = some t' → t.serial = t'.serial → i = j
  done : ∀ k r, s.log k = some r →
    (∃ i t, s.timers i = some t ∧ t.serial = k) ∨ 0 < delay r.n ∧ r.Done s.now
  fresh : ∀ k, s.next ≤ k → s.log k = none

section Invariant

variable {slack : Nat} {s : Sys} {p i : Nat} {t : Timer} {q : Proc}

theorem inv_init (ticks : Word) : Inv 0 (.init ticks) := by
  refine ⟨fun p c i => ?_, nofun, nofun, nofun, fun _ _ => rfl⟩
  have hslot : ((Sys.init ticks).procs p).slot c = 0 := by
    cases c <;> rfl
  rw [hslot]
  exact ⟨nofun, fun ⟨_, h, _⟩ => nomatch h⟩

theorem Inv.setProc (h : Inv slack s) (hq : ∀ c, q.slot c = (s.procs p).slot c) :
    Inv slack (s.setProc p q) := by
  refine ⟨fun p' c i => ?_, fun i t ht => ?_, h.serial, h.done, h.fresh⟩
  · refine Iff.trans ?_ (h.held p' c i)
    by_cases hp : p' = p
    · simp [Sys.setProc, hp, hq]
    · simp [Sys.setProc, hp]
  · obtain ⟨hi, r, hr⟩ := h.live i t ht
    exact ⟨hi, r, { hr with }⟩

theorem Inv.serial_lt (h : Inv slack s) (ht : s.timers i = some t) : t.serial < s.next := by
  obtain ⟨-, r, hr⟩ := h.live i t ht
  by_contra hlt
  exact absurd (h.fresh _ (Nat.le_of_not_lt hlt)) (by simp [hr.log])

theorem slot_of_other {c c' : Client} {p' : Nat}
    (hother : ∀ c', c' ≠ c → q.slot c' = (s.procs p).slot c') (hne : ¬(p' = p ∧ c' = c)) :
    (update s.procs p q p').slot c' = (s.procs p').slot c' := by
  by_cases hp : p' = p
  · rw [hp, update_self]
    exact hother c' fun hc => hne ⟨hp, hc⟩
  · rw [update_of_ne hp]

/-- **A timer leaves its slot**, and its owner no longer has it. -/
theorem Inv.release (h : Inv slack s) (ht : s.timers i = some t) {f : Rec → Rec}
    (hslot : q.slot t.fn = 0) (hother : ∀ c, c ≠ t.fn → q.slot c = (s.procs t.arg).slot c)
    (hf : ∀ r, Live slack s t r → 0 < delay (f r).n ∧ (f r).Done s.now) :
    Inv slack ((s.release i t f).setProc t.arg q) := by
  obtain ⟨hi, r, hr⟩ := h.live i t ht
  have hheld : (s.procs t.arg).slot t.fn = i + 1 := (h.held _ _ _).2 ⟨t, ht, rfl, rfl⟩
  have htimers : ∀ j t', update s.timers i none j = some t' ↔
      j ≠ i ∧ s.timers j = some t' := by
    intro j t'
    by_cases hj : j = i
    · simp [hj]
    · simp [hj]
  refine ⟨fun p c j => ?_, fun j t' ht' => ?_, fun j j' t₁ t₂ h1 h2 => ?_, fun k r' hk => ?_,
    fun k hk => ?_⟩
  · simp only [Sys.release, Sys.setProc, htimers]
    by_cases hp : p = t.arg ∧ c = t.fn
    · obtain ⟨rfl, rfl⟩ := hp
      rw [update_self, hslot]
      refine ⟨nofun, ?_⟩
      rintro ⟨t', ⟨hj, ht'⟩, hfn, harg⟩
      have := (h.held _ _ j).2 ⟨t', ht', hfn, harg⟩
      omega
    · -- the slots of all other timers stay
      rw [slot_of_other hother hp, h.held]
      constructor
      · rintro ⟨t', ht', hfn, harg⟩
        refine ⟨t', ⟨?_, ht'⟩, hfn, harg⟩
        rintro rfl
        obtain rfl : t = t' := Option.some.inj (ht.symm.trans ht')
        exact hp ⟨harg.symm, hfn.symm⟩
      · rintro ⟨t', ⟨-, ht'⟩, hfn, harg⟩
        exact ⟨t', ht', hfn, harg⟩
  · obtain ⟨hj, ht'⟩ := (htimers j t').1 ht'
    obtain ⟨hlt, r', hr'⟩ := h.live j t' ht'
    have hne : t'.serial ≠ t.serial := fun he => hj (h.serial j i t' t ht' ht he)
    exact ⟨hlt, r', { hr' with log := (update_of_ne hne _ _).trans hr'.log }⟩
  · exact h.serial j j' t₁ t₂ ((htimers j t₁).1 h1).2 ((htimers j' t₂).1 h2).2
  · by_cases hks : k = t.serial
    · subst hks
      have hr' : r' = f r := by
        simp only [Sys.release, Sys.setProc, update_self, hr.log, Option.map_some] at hk
        exact (Option.some.inj hk).symm
      exact .inr (hr' ▸ hf r hr)
    · have hk' : s.log k = some r' := (update_of_ne hks _ _).symm.trans hk
      refine (h.done k r' hk').imp_left ?_
      rintro ⟨j, t', ht', rfl⟩
      refine ⟨j, t', (htimers j t').2 ⟨?_, ht'⟩, rfl⟩
      rintro rfl
      exact hks (congrArg Timer.serial (Option.some.inj (ht'.symm.trans ht)))
  · exact (update_of_ne ((h.serial_lt ht).trans_le hk).ne' _ _).trans (h.fresh k hk)

theorem Inv.cancel (h : Inv 0 s) {c : Client} {id : Nat} (hid : id ≠ 0)
    (hs : (s.procs p).slot c = id) (hslot : q.slot c = 0)
    (hother : ∀ c', c' ≠ c → q.slot c' = (s.procs p).slot c') :
    Inv 0 ((timerCancel id p s).setProc p q) := by
  obtain ⟨i, rfl⟩ := Nat.exists_eq_succ_of_ne_zero hid
  obtain ⟨t, ht, rfl, rfl⟩ := (h.held p c i).1 hs
  have hi := (h.live i t ht).1
  have hcancel : timerCancel (i + 1) t.arg s =
      s.release i t fun r => { r with cancels := r.cancels ++ [t.arg] } := by
    unfold timerCancel
    rw [if_pos (by omega), Nat.add_sub_cancel, ht]
  rw [Nat.succ_eq_add_one, hcancel]
  refine h.release ht hslot hother fun r hr => ⟨delay_pos hr.pos, .inr ⟨hr.open_.1, ?_⟩⟩
  simp [hr.open_.2, hr.owner]

/-- **A timer is added**, and the process knows its number. -/
theorem Inv.add (h : Inv 0 s) {n : Word} {c : Client} (hn : n ≠ 0)
    (hs : (s.procs p).slot c = 0) (hslot : q.slot c = (timerAdd n c p s).1)
    (hother : ∀ c', c' ≠ c → q.slot c' = (s.procs p).slot c') :
    Inv 0 ((timerAdd n c p s).2.setProc p q) := by
  unfold timerAdd at hslot ⊢
  split at hslot
  swap
  · refine h.setProc fun c' => ?_
    by_cases hc : c' = c
    · rw [hc, hslot, hs]
    · exact hother c' hc
  next i hfind =>
  have hfree : s.timers i = none := by simpa using List.find?_some hfind
  have hi : i < nTimer := List.mem_range.1 (List.mem_of_find?_eq_some hfind)
  have htimers : ∀ (x : Timer) j t', update s.timers i (some x) j = some t' ↔
      j = i ∧ x = t' ∨ j ≠ i ∧ s.timers j = some t' := by
    intro x j t'
    by_cases hj : j = i
    · simp [hj]
    · simp [hj]
  refine ⟨fun p' c' j => ?_, fun j t' ht' => ?_, fun j j' t₁ t₂ h1 h2 he => ?_, fun k r hk => ?_,
    fun k hk => ?_⟩
  · simp only [Sys.setProc, htimers]
    by_cases hp : p' = p ∧ c' = c
    · obtain ⟨rfl, rfl⟩ := hp
      rw [update_self, hslot]
      constructor
      · rintro hij
        exact ⟨_, .inl ⟨by omega, rfl⟩, rfl, rfl⟩
      · rintro ⟨t', ⟨rfl, -⟩ | ⟨-, ht'⟩, hfn, harg⟩
        · rfl
        · have := (h.held _ _ j).2 ⟨t', ht', hfn, harg⟩
          omega
    · rw [slot_of_other hother hp, h.held]
      constructor
      · rintro ⟨t', ht', hfn, harg⟩
        refine ⟨t', .inr ⟨?_, ht'⟩, hfn, harg⟩
        rintro rfl
        exact absurd ht' (by simp [hfree])
      · rintro ⟨t', ⟨-, rfl⟩ | ⟨-, ht'⟩, hfn, harg⟩
        · exact absurd ⟨harg.symm, hfn.symm⟩ hp
        · exact ⟨t', ht', hfn, harg⟩
  · rcases (htimers _ j t').1 ht' with ⟨rfl, rfl⟩ | ⟨-, ht'⟩
    · refine ⟨hi, ⟨p, s.now, n, [], []⟩, ?_⟩
      refine ⟨update_self .., rfl, ⟨rfl, rfl⟩, hn, le_rfl, ?_, ?_⟩
      · have := delay_pos hn
        show s.now < s.now + delay n + 0
        omega
      · show s.ticks + n = s.ticks - BitVec.ofNat 32 (s.now - s.now) + n
        simp
    · obtain ⟨hlt, r, hr⟩ := h.live j t' ht'
      exact ⟨hlt, r, { hr with log := (update_of_ne (h.serial_lt ht').ne _ _).trans hr.log }⟩
  · rcases (htimers _ j t₁).1 h1 with ⟨rfl, rfl⟩ | ⟨-, h₁⟩ <;>
      rcases (htimers _ j' t₂).1 h2 with ⟨rfl, rfl⟩ | ⟨-, h₂⟩
    · rfl
    · exact absurd he (h.serial_lt h₂).ne'
    · exact absurd he (h.serial_lt h₁).ne
    · exact h.serial j j' t₁ t₂ h₁ h₂ he
  · by_cases hkn : k = s.next
    · exact .inl ⟨i, _, (htimers _ _ _).2 (.inl ⟨rfl, rfl⟩), hkn.symm⟩
    · have hk' : s.log k = some r := (update_of_ne hkn _ _).symm.trans hk
      refine (h.done k r hk').imp_left ?_
      rintro ⟨j, t', ht', hks⟩
      refine ⟨j, t', (htimers _ _ _).2 (.inr ⟨?_, ht'⟩), hks⟩
      rintro rfl
      exact absurd ht' (by simp [hfree])
  · have hk' : s.next + 1 ≤ k := hk
    exact (update_of_ne (by omega) _ _).trans (h.fresh k (by omega))

/-! ## The steps -/

theorem call_of_slot {c : Client} (hc : c ≠ .alarm) (h : q.slot c ≠ 0) :
    ∃ id, q.call = some (c, id) := by
  simp only [Proc.slot, hc, if_false] at h
  split at h
  · next k id hk =>
      have hkc : k = c := by
        by_contra hne
        exact h (if_neg fun h' => hne h'.1)
      exact ⟨id, hkc ▸ hk⟩
  · exact absurd rfl h

theorem slot_fire {c : Client} (h : q.slot c ≠ 0) :
    (q.fire c).slot c = 0 ∧ ∀ c', c' ≠ c → (q.fire c).slot c' = q.slot c' := by
  by_cases hc : c = .alarm
  · subst hc
    exact ⟨rfl, fun c' hne => by simp [Proc.slot, Proc.fire, hne, Proc.fired]⟩
  · obtain ⟨id, hcall⟩ := call_of_slot hc h
    have hsame : (q.fire c).call = q.call ∧ (q.fire c).alarmId = q.alarmId := by
      cases c <;> simp_all [Proc.fire]
    have hfired : (q.fire c).fired c = true := by
      cases c <;> simp_all [Proc.fire, Proc.fired]
    refine ⟨by simp [Proc.slot, hc, hsame, hcall, hfired], fun c' hne => ?_⟩
    simp [Proc.slot, hsame, hcall, Ne.symm hne]

theorem Inv.tickSlot (h : Inv 1 s) (i : Nat) : Inv 1 (tickSlot s i) := by
  unfold Timers.tickSlot
  split
  · next t ht =>
      split
      · next hdue =>
          have hheld : (s.procs t.arg).slot t.fn ≠ 0 := by
            rw [(h.held _ _ i).2 ⟨t, ht, rfl, rfl⟩]
            exact Nat.succ_ne_zero i
          obtain ⟨hslot, hother⟩ := slot_fire hheld
          refine h.release ht hslot hother fun r hr => ⟨delay_pos hr.pos, .inl ?_⟩
          have hstart := hr.start
          have hbefore := hr.before
          have hnow :=
            (due_iff (k := s.now - r.start) hr.pos (by omega) (by omega) hr.expire).1 hdue
          refine ⟨?_, hr.open_.2, ?_⟩
          · show r.fires ++ [s.now] = [r.start + delay r.n]
            rw [hr.open_.1, ← hnow, List.nil_append, Nat.add_sub_cancel' (by omega)]
          · show r.start + delay r.n ≤ s.now
            omega
      · exact h
  · exact h

/-- The loop leaves the timers that are not due. -/
theorem foldl_tickSlot (l : List Nat) (h : Inv 1 s) :
    Inv 1 (l.foldl tickSlot s) ∧ (l.foldl tickSlot s).ticks = s.ticks ∧
      (l.foldl tickSlot s).now = s.now ∧
      ∀ i t, (l.foldl tickSlot s).timers i = some t →
        s.timers i = some t ∧ (i ∈ l → due s.ticks t = false) := by
  induction l generalizing s with
  | nil => exact ⟨h, rfl, rfl, fun i t ht => ⟨ht, by simp⟩⟩
  | cons j l ih =>
    obtain ⟨h1, h2, h3, h4⟩ := ih (h.tickSlot j)
    have hslot : (tickSlot s j).ticks = s.ticks ∧ (tickSlot s j).now = s.now ∧
        ∀ i t, (tickSlot s j).timers i = some t →
          s.timers i = some t ∧ (i = j → due s.ticks t = false) := by
      unfold tickSlot
      split
      · next t' ht' =>
          split
          · refine ⟨rfl, rfl, fun i t ht => ?_⟩
            have hij : i ≠ j := by
              rintro rfl
              simp [Sys.release, Sys.setProc] at ht
            exact ⟨(update_of_ne hij _ _).symm.trans ht, fun he => absurd he hij⟩
          · next hdue =>
              refine ⟨rfl, rfl, fun i t ht => ⟨ht, ?_⟩⟩
              rintro rfl
              obtain rfl : t' = t := Option.some.inj (ht'.symm.trans ht)
              simpa using hdue
      · next hnone =>
          refine ⟨rfl, rfl, fun i t ht => ⟨ht, ?_⟩⟩
          rintro rfl
          exact absurd ht (by simp [hnone])
    obtain ⟨h5, h6, h7⟩ := hslot
    refine ⟨h1, h2.trans h5, h3.trans h6, fun i t ht => ?_⟩
    obtain ⟨h8, h9⟩ := h4 i t ht
    obtain ⟨h10, h11⟩ := h7 i t h8
    refine ⟨h10, fun hi => ?_⟩
    rcases List.mem_cons.1 hi with hi | hi
    · exact h11 hi
    · exact h5 ▸ h9 hi

theorem Inv.tick (h : Inv 0 s) : Inv 0 (step s .tick) := by
  have hnext : Inv 1 { s with ticks := s.ticks + 1, now := s.now + 1 } := by
    refine ⟨h.held, fun i t ht => ?_, h.serial, fun k r hk => ?_, h.fresh⟩
    · obtain ⟨hi, r, hr⟩ := h.live i t ht
      refine ⟨hi, r, ⟨hr.log, hr.owner, hr.open_, hr.pos, ?_, ?_, ?_⟩⟩
      · exact Nat.add_le_add_right hr.start 1
      · exact Nat.add_lt_add_right hr.before 1
      · have hle : r.start ≤ s.now := hr.start
        show t.expire = s.ticks + 1 - BitVec.ofNat 32 (s.now + 1 - r.start) + r.n
        rw [hr.expire, Nat.sub_add_comm hle, BitVec.ofNat_add,
          show BitVec.ofNat 32 1 = (1 : Word) from rfl]
        ring
    · refine (h.done k r hk).imp_right fun ⟨hpos, hd⟩ => ⟨hpos, hd.imp_left fun ⟨h1, h2, h3⟩ => ?_⟩
      exact ⟨h1, h2, h3.trans (Nat.le_succ _)⟩
  obtain ⟨h1, h2, -, h4⟩ := foldl_tickSlot (List.range nTimer) hnext
  rw [step, timerTick]
  generalize (List.range nTimer).foldl Timers.tickSlot _ = s' at h1 h2 h4 ⊢
  refine ⟨h1.held, fun i t ht => ?_, h1.serial, h1.done, h1.fresh⟩
  obtain ⟨hi, r, hr⟩ := h1.live i t ht
  have hstart := hr.start
  have hbefore := hr.before
  -- a timer that has been looked at and is still there is not over
  have hne : s'.now - r.start ≠ delay r.n := by
    intro he
    have hdue := (due_iff hr.pos (by omega) (by omega) hr.expire).2 he
    rw [h2, (h4 i t ht).2 (List.mem_range.2 hi)] at hdue
    exact Bool.false_ne_true hdue
  exact ⟨hi, r, { hr with start := by omega, before := by omega }⟩

theorem Inv.dropAlarm (h : Inv 0 s) (p : Nat) : Inv 0 (dropAlarm p s) := by
  unfold Timers.dropAlarm
  split
  · next hid =>
      refine h.cancel (c := .alarm) hid rfl rfl fun c' hc => ?_
      simp [Proc.slot, hc, Proc.fired]
  · exact h

theorem dropAlarm_proc (s : Sys) (p : Nat) :
    ((dropAlarm p s).procs p).alarmId = 0 ∧ ((dropAlarm p s).procs p).call = (s.procs p).call := by
  unfold dropAlarm
  split
  · simp [Sys.setProc]
  · next hid => exact ⟨by simpa using hid, rfl⟩

theorem slot_idle (ha : q.alarmId = 0) (hc : q.call = none) (c : Client) : q.slot c = 0 := by
  cases c <;> simp [Proc.slot, ha, hc]

theorem Inv.sysAlarm (h : Inv 0 s) (p : Nat) (n : Word) : Inv 0 (sysAlarm p n s) := by
  unfold Timers.sysAlarm
  simp only
  split
  · next hn =>
      refine (h.dropAlarm p).add hn (dropAlarm_proc s p).1 rfl fun c' hc => ?_
      simp [Proc.slot, hc, Proc.fired]
  · exact h.dropAlarm p

theorem Inv.beginWait (h : Inv 0 s) (p : Nat) {c : Client} (n : Word)
    (hcall : (s.procs p).call = none) (hc : c ≠ .alarm) : Inv 0 (beginWait p c n s) := by
  have hclear : ∀ c', ((s.procs p).clear c).slot c' = (s.procs p).slot c' := by
    intro c'
    unfold Proc.clear
    split <;> simp [Proc.slot, hcall]
  have hzero : (s.procs p).slot c = 0 := by simp [Proc.slot, hc, hcall]
  have hslot : ∀ id, ({ (s.procs p).clear c with call := some (c, id) } : Proc).slot c = id := by
    intro id
    unfold Proc.clear
    split <;> simp_all [Proc.slot, Proc.fired]
  have hother : ∀ id c', c' ≠ c →
      ({ (s.procs p).clear c with call := some (c, id) } : Proc).slot c' = (s.procs p).slot c' := by
    intro id c' hne
    have halarm : ((s.procs p).clear c).alarmId = (s.procs p).alarmId := by
      unfold Proc.clear
      split <;> rfl
    simp [Proc.slot, halarm, hcall, Ne.symm hne]
  unfold Timers.beginWait
  simp only
  by_cases hn : n = 0
  · simp only [hn, ne_eq, not_true_eq_false, if_false]
    split
    · exact h.setProc hclear
    · refine h.setProc fun c' => ?_
      by_cases hc' : c' = c
      · rw [hc', hslot, hzero]
      · exact hother 0 c' hc'
  · simp only [hn, ne_eq, not_false_eq_true, if_true]
    split
    · next h0 => exact h.add hn hzero (by rw [hclear, hzero, h0.2]) fun c' _ => hclear c'
    · exact h.add hn hzero (hslot _) fun c' hc' => hother _ c' hc'

theorem timerCancel_procs (id p : Nat) (s : Sys) : (timerCancel id p s).procs = s.procs := by
  unfold timerCancel
  split
  · split <;> rfl
  · rfl

/-- A wait ends, and its timer is cancelled unless it has fired. -/
theorem Inv.endWait (h : Inv 0 s) {c : Client} {id : Nat} (hcall : (s.procs p).call = some (c, id))
    (hc : c ≠ .alarm) :
    Inv 0 (endWait p (if id ≠ 0 ∧ (s.procs p).fired c = false then timerCancel id p s else s)) := by
  have hother : ∀ c', c' ≠ c →
      ({ s.procs p with call := none } : Proc).slot c' = (s.procs p).slot c' := by
    intro c' hne
    simp [Proc.slot, hcall, Ne.symm hne]
  have hnone : ({ s.procs p with call := none } : Proc).slot c = 0 := by simp [Proc.slot, hc]
  unfold Timers.endWait
  split
  · next hid =>
      rw [timerCancel_procs]
      exact h.cancel hid.1 (by simp [Proc.slot, hc, hcall, hid.2]) hnone hother
  · next hid =>
      refine h.setProc fun c' => ?_
      by_cases hc' : c' = c
      · rw [hc', hnone]
        simp only [Proc.slot, hc, if_false, hcall, true_and]
        split
        · next hf => exact (by simpa [hf] using hid : id = 0).symm
        · rfl
      · exact hother c' hc'

theorem Inv.wake (h : Inv 0 s) (p : Nat) (ready signal : Bool) : Inv 0 (wake p ready signal s) := by
  unfold Timers.wake
  split
  · exact h
  · next c id hcall =>
      cases c with
      | alarm => exact h
      | poll =>
        have hend := h.endWait hcall nofun
        simp only
        split
        · exact hend
        · next hf =>
            have hf : (s.procs p).fired .poll = false := by
              simp only [Bool.or_eq_true, not_or] at hf
              simpa using hf.2
            simp only [hf, and_true] at hend
            split
            · exact hend
            · exact h
      | sleep =>
        have hend := h.endWait hcall nofun
        simp only
        split
        · next hf => simpa [hf] using hend
        · next hf =>
            split
            · by_cases hid : id = 0
              · simpa [hid, timerCancel] using hend
              · simpa [hid, hf] using hend
            · exact h
      | sock => exact h.endWait hcall nofun
      | tty => exact h.endWait hcall nofun

theorem Inv.step (h : Inv 0 s) (ev : Event) : Inv 0 (step s ev) := by
  cases ev with
  | tick => exact h.tick
  | alarm p n =>
    simp only [Timers.step]
    split
    · exact h
    · exact h.sysAlarm p n
  | wait p c n =>
    simp only [Timers.step]
    split
    · exact h
    · next hc =>
        rw [not_or, Option.not_isSome_iff_eq_none] at hc
        exact h.beginWait p n hc.1 hc.2
  | wake p ready signal => exact h.wake p ready signal
  | exit p =>
    simp only [Timers.step]
    split
    · exact h
    · next hc =>
        obtain ⟨ha, hcall⟩ := dropAlarm_proc s p
        refine (h.dropAlarm p).setProc fun c => ?_
        rw [slot_idle rfl rfl, slot_idle ha (hcall.trans (Option.not_isSome_iff_eq_none.1 hc))]

theorem Inv.run (h : Inv 0 s) (evs : List Event) : Inv 0 (run s evs) := by
  induction evs generalizing s with
  | nil => exact h
  | cons ev evs ih => exact ih (h.step ev)

/-- A timer that nobody has cancelled has fired when its delay was over. -/
theorem Inv.fires (h : Inv 0 s) {k : Nat} {r : Rec} (hk : s.log k = some r) (hc : r.cancels = []) :
    0 < delay r.n ∧
      r.fires = if s.now < r.start + delay r.n then [] else [r.start + delay r.n] := by
  rcases h.done k r hk with ⟨i, t, ht, rfl⟩ | ⟨hpos, ⟨hf, -, hle⟩ | ⟨-, hcancel⟩⟩
  · obtain ⟨-, r', hr⟩ := h.live i t ht
    obtain rfl : r' = r := Option.some.inj (hr.log.symm.trans hk)
    exact ⟨delay_pos hr.pos, by rw [if_pos (by simpa using hr.before), hr.open_.1]⟩
  · exact ⟨hpos, by rw [hf, if_neg (by omega)]⟩
  · exact absurd (hcancel.symm.trans hc) (by simp)

end Invariant

/-- **Timeouts are private, and exact up to `2 ^ 31 + 1` ticks.**  For every value of the tick
counter and every interleaving of ticks, alarms, sleeps and waits with timeouts: a timer is
cancelled by its owner only, it is cancelled or fires at most once, and a timer that is not
cancelled fires at the first tick at least `n` ticks later, and not before, exactly if `n` is at
most `2 ^ 31 + 1` or no tick has come yet. -/
theorem timers_exact_iff (ticks : Word) (evs : List Event) {k : Nat} {r : Rec}
    (hk : (run (.init ticks) evs).log k = some r) :
    (∀ p ∈ r.cancels, p = r.owner) ∧ r.cancels.length + r.fires.length ≤ 1 ∧
      (r.cancels = [] → (r.OnTime (run (.init ticks) evs).now ↔
        r.n.toNat ≤ 2 ^ 31 + 1 ∨ (run (.init ticks) evs).now ≤ r.start)) := by
  have hinv := (inv_init ticks).run evs
  generalize run (.init ticks) evs = s at hinv hk ⊢
  have hends : r.fires = [] ∧ r.cancels = [] ∨ r.Done s.now := by
    rcases hinv.done k r hk with ⟨i, t, ht, rfl⟩ | ⟨-, hd⟩
    · obtain ⟨-, r', hr⟩ := hinv.live i t ht
      obtain rfl : r' = r := Option.some.inj (hr.log.symm.trans hk)
      exact .inl hr.open_
    · exact .inr hd
  refine ⟨?_, ?_, fun hc => ?_⟩
  · rcases hends with ⟨-, h⟩ | ⟨-, h, -⟩ | ⟨-, h⟩ <;> simp [h]
  · rcases hends with ⟨h, h'⟩ | ⟨h, h', -⟩ | ⟨h, h'⟩ <;> simp [h, h']
  · obtain ⟨hpos, hf⟩ := hinv.fires hk hc
    rw [Rec.OnTime, hf]
    by_cases hn : r.n.toNat ≤ 2 ^ 31 + 1
    · simp only [delay, hn, if_true, true_or]
    · simp only [delay, hn, if_false, false_or]
      by_cases hnow : s.now ≤ r.start
      · rw [if_pos (by omega), if_pos (by omega)]
        simp [hnow]
      · rw [if_neg (by omega)]
        simp only [hnow, iff_false]
        split
        · simp
        · simp
          omega

/-- **No timer is lost or left behind**: whatever happens, a process has the number `i + 1` for a
purpose exactly if slot `i` holds its timer for that purpose. -/
theorem timers_held (ticks : Word) (evs : List Event) (p : Nat) (c : Client) (i : Nat) :
    ((run (.init ticks) evs).procs p).slot c = i + 1 ↔
      i < nTimer ∧ ∃ t, (run (.init ticks) evs).timers i = some t ∧ t.fn = c ∧ t.arg = p := by
  have hinv := (inv_init ticks).run evs
  rw [hinv.held]
  refine ⟨?_, And.right⟩
  rintro ⟨t, ht, h⟩
  exact ⟨(hinv.live i t ht).1, t, ht, h⟩

/-- Two processes: an alarm after three ticks, at a counter that wraps around, and a poll whose
timer is cancelled and whose slot is used again. -/
def sampleEvents : List Event :=
  [.alarm 0 3, .wait 1 .poll 5, .tick, .wake 1 true false, .wait 1 .sleep 9, .tick, .tick]

theorem timers_exact_sample :
    (run (.init 0xFFFFFFFE) sampleEvents).log 0 = some ⟨0, 0, 3, [3], []⟩ ∧
      (⟨0, 0, 3, [3], []⟩ : Rec).OnTime (run (.init 0xFFFFFFFE) sampleEvents).now := by
  have hlog : (run (.init 0xFFFFFFFE) sampleEvents).log 0 = some ⟨0, 0, 3, [3], []⟩ := by
    decide +kernel
  exact ⟨hlog, ((timers_exact_iff 0xFFFFFFFE sampleEvents hlog).2.2 rfl).2 (.inl (by decide))⟩

/-- **An alarm that goes off at once**: one for `2 ^ 31 + 2` ticks fires at the next tick. -/
theorem alarm_early :
    (run (.init 0) [.alarm 0 0x80000002, .tick]).log 0 = some ⟨0, 0, 0x80000002, [1], []⟩ ∧
      ¬ (⟨0, 0, 0x80000002, [1], []⟩ : Rec).OnTime 1 := by
  constructor <;> decide +kernel

end Tortoise.Timers
