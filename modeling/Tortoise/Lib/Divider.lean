import Mathlib

/-!
# Dividers

A divider counts events: every `p` events make a tick, ticks are counted, and every `m` ticks
the divider expires (never, when `m` is zero).  `tick` is what one event does.  `jump n` computes
the effect of `n` events at once.

* `iterate_tick`: a jump is that many single events, for a prescaler that has not been overtaken
  by a change of `p`.
* `jump_expired`: a jump expires exactly if it reaches the event `due` says.
* `due_jump`: what is left to that event after a jump that does not reach it.
-/

namespace Tortoise.Lib.Divider

/-- The events since the last tick, the ticks so far, the ticks since the last expiry, and whether
the divider has expired. -/
@[ext] structure State (C : Type) where
  frac : Nat
  count : C
  phase : Nat
  expired : Bool

variable {C : Type} [AddMonoidWithOne C] {p m n : Nat} {s : State C}

/-- The effect of `t` ticks. -/
def addTicks (m t : Nat) (s : State C) : State C :=
  { s with
    count := s.count + t
    phase := if m = 0 then s.phase else (s.phase + t) % m
    expired := s.expired || decide (m ≠ 0 ∧ m ≤ s.phase + t) }

/-- One event. -/
def tick (p m : Nat) (s : State C) : State C :=
  { addTicks m ((s.frac + 1) / p) s with frac := (s.frac + 1) % p }

/-- `n` events at once. -/
def jump (p m n : Nat) (s : State C) : State C :=
  { addTicks m ((s.frac + n) / p) s with frac := (s.frac + n) % p }

theorem jump_zero (hf : s.frac < p) (hm : m ≠ 0 → s.phase < m) : jump p m 0 s = s := by
  have hdiv : (s.frac + 0) / p = 0 := Nat.div_eq_of_lt hf
  have hmod : (s.frac + 0) % p = s.frac := Nat.mod_eq_of_lt hf
  unfold jump addTicks
  rw [hdiv, hmod]
  by_cases h0 : m = 0
  · simp [h0]
  · have hlt := hm h0
    have hphase : s.phase % m = s.phase := Nat.mod_eq_of_lt hlt
    ext <;> simp [h0, hphase, hlt]

theorem phase_jump (h0 : m ≠ 0) : (jump p m n s).phase < m := by
  unfold jump addTicks
  simp only [if_neg h0]
  exact Nat.mod_lt _ (Nat.pos_of_ne_zero h0)

theorem tick_jump (hp : 0 < p) (hm : m ≠ 0 → s.phase < m) :
    tick p m (jump p m n s) = jump p m (n + 1) s := by
  have hdiv : (s.frac + (n + 1)) / p = (s.frac + n) / p + ((s.frac + n) % p + 1) / p := by
    conv_lhs => rw [← Nat.add_assoc, ← Nat.div_add_mod (s.frac + n) p, Nat.add_assoc]
    rw [Nat.mul_add_div hp]
  have hmod : ((s.frac + n) % p + 1) % p = (s.frac + (n + 1)) % p := by
    rw [Nat.mod_add_mod, Nat.add_assoc]
  unfold tick jump addTicks
  ext
  · exact hmod
  · simp only [hdiv, Nat.cast_add, add_assoc]
  · by_cases h0 : m = 0
    · simp [h0]
    · simp only [if_neg h0, hdiv, Nat.mod_add_mod, Nat.add_assoc]
  · by_cases h0 : m = 0
    · simp [h0]
    · have hlt := hm h0
      simp only [if_neg h0, hdiv, Bool.or_assoc, ← Bool.decide_or]
      -- past the first expiry it does not matter what the phase has come to
      by_cases hle : m ≤ s.phase + (s.frac + n) / p
      · have hle' : m ≤ s.phase + ((s.frac + n) / p + ((s.frac + n) % p + 1) / p) :=
          hle.trans (Nat.add_le_add_left (Nat.le_add_right _ _) _)
        simp [h0, hle, hle']
      · rw [Nat.mod_eq_of_lt (by omega)]
        simp [h0, hle, Nat.add_assoc]

/-- **A jump is that many single events.** -/
theorem iterate_tick (hp : 0 < p) (hm : m ≠ 0 → s.phase < m) (hf : n = 0 → s.frac < p) :
    (tick p m)^[n] s = jump p m n s := by
  induction n with
  | zero => exact (jump_zero (hf rfl) hm).symm
  | succ n ih =>
    by_cases hn : n = 0
    · subst hn
      rfl
    · rw [Function.iterate_succ_apply', ih fun h => absurd h hn, tick_jump hp hm]

/-- How many events are left to the next expiry. -/
def due (p m : Nat) (s : State C) : Nat := (m - s.phase) * p - s.frac

omit [AddMonoidWithOne C] in
theorem due_pos (hf : s.frac < p) (hm : s.phase < m) : 0 < due p m s := by
  unfold due
  have h : 1 * p ≤ (m - s.phase) * p := Nat.mul_le_mul_right p (by omega)
  omega

/-- **A jump expires** exactly if it reaches the event that is due. -/
theorem jump_expired (hp : 0 < p) (hm : m ≠ 0 → s.phase < m) :
    (jump p m n s).expired = (s.expired || decide (m ≠ 0 ∧ due p m s ≤ n)) := by
  by_cases h0 : m = 0
  · simp [jump, addTicks, h0]
  · have hlt := hm h0
    have hiff : m ≤ s.phase + (s.frac + n) / p ↔ due p m s ≤ n := by
      unfold due
      rw [Nat.sub_le_iff_le_add, Nat.add_comm n, ← Nat.le_div_iff_mul_le hp]
      omega
    simp [jump, addTicks, h0, hiff]

theorem due_jump (hp : 0 < p) (hm : s.phase < m) (hn : n < due p m s) :
    due p m (jump p m n s) = due p m s - n := by
  have h0 : m ≠ 0 := by omega
  have hlt : s.phase + (s.frac + n) / p < m := by
    by_contra hge
    have hle := (Nat.le_div_iff_mul_le hp).1 (show m - s.phase ≤ (s.frac + n) / p by omega)
    unfold due at hn
    omega
  have hsplit := Nat.div_add_mod (s.frac + n) p
  unfold due jump addTicks
  simp only [if_neg h0, Nat.mod_eq_of_lt hlt]
  rw [Nat.sub_add_eq, Nat.sub_mul (m - s.phase), Nat.mul_comm ((s.frac + n) / p)]
  omega

/-- A jump that is not due yet does not show. -/
theorem jump_expired_of_lt (hp : 0 < p) (hm : m ≠ 0 → s.phase < m)
    (hn : m ≠ 0 → n < due p m s) : (jump p m n s).expired = s.expired := by
  rw [jump_expired hp hm]
  by_cases h0 : m = 0
  · simp [h0]
  · have := hn h0
    simp [show ¬due p m s ≤ n by omega]

end Tortoise.Lib.Divider
