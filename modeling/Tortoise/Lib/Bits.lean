import Mathlib

/-!
# Masks of machine words as arithmetic

A word splits at bit `k` into `x % 2 ^ k` and `x / 2 ^ k * 2 ^ k`.  The code
writes the two parts with masks; these lemmas give their values as numbers.

A word is put together from its bytes by shifts (`or_bytes`, `append_bytes`).

`Gains m w w'` says that `w'` is `w` with some of the bits of a mask set.
-/

namespace Tortoise.Lib

open BitVec

theorem toNat_and_low (x : BitVec 32) (k : Nat) (hk : k < 32) :
    (x &&& BitVec.ofNat 32 (2 ^ k - 1)).toNat = x.toNat % 2 ^ k := by
  have hp : 2 ^ k < 2 ^ 32 := Nat.pow_lt_pow_right (by decide) hk
  rw [toNat_and, toNat_ofNat, Nat.mod_eq_of_lt (by omega)]
  exact Nat.and_two_pow_sub_one_eq_mod _ _

theorem toNat_shiftRight (x : BitVec 32) (k : Nat) : (x >>> k).toNat = x.toNat / 2 ^ k := by
  rw [toNat_ushiftRight, Nat.shiftRight_eq_div_pow]

theorem nat_and_high (x k w : Nat) (hx : x < 2 ^ w) (hk : k ≤ w) :
    x &&& (2 ^ w - 2 ^ k) = x / 2 ^ k * 2 ^ k := by
  refine Nat.eq_of_testBit_eq fun i => ?_
  have hsub : 2 ^ w - 2 ^ k = (2 ^ (w - k) - 1) * 2 ^ k := by
    rw [Nat.sub_mul, one_mul, ← Nat.pow_add, Nat.sub_add_cancel hk]
  rw [Nat.testBit_and, hsub, Nat.testBit_mul_two_pow, Nat.testBit_mul_two_pow,
    Nat.testBit_two_pow_sub_one, Nat.testBit_div_two_pow]
  by_cases hik : k ≤ i
  · by_cases hiw : i < w
    · simp [hik, show i - k < w - k by omega, Nat.sub_add_cancel hik]
    · have hxi : x.testBit i = false :=
        Nat.testBit_lt_two_pow (hx.trans_le (Nat.pow_le_pow_right (by decide) (by omega)))
      simp [hik, hxi, Nat.sub_add_cancel hik]
  · simp [hik]

/-! ## Bytes -/

/-- Four bytes as a word, with shifts and as an append. -/
theorem or_bytes (a b c d : BitVec 8) : a.setWidth 32 ||| b.setWidth 32 <<< 8 |||
    c.setWidth 32 <<< 16 ||| d.setWidth 32 <<< 24 = d ++ c ++ b ++ a := by
  apply eq_of_getLsbD_eq
  intro j hj
  have ha : 8 ≤ j → a.getLsbD j = false := getLsbD_of_ge _ _
  have hb : 16 ≤ j → b.getLsbD (j - 8) = false := fun h => getLsbD_of_ge _ _ (by omega)
  have hc : 24 ≤ j → c.getLsbD (j - 16) = false := fun h => getLsbD_of_ge _ _ (by omega)
  simp only [getLsbD_setWidth, getLsbD_append, getLsbD_or,
    getLsbD_shiftLeft, Nat.sub_sub]
  grind

theorem append_bytes (v : BitVec 32) : (v >>> 24).setWidth 8 ++ (v >>> 16).setWidth 8 ++
    (v >>> 8).setWidth 8 ++ v.setWidth 8 = v := by
  apply eq_of_getLsbD_eq
  intro j hj
  simp only [getLsbD_setWidth, getLsbD_append, getLsbD_ushiftRight]
  grind
/-! ## Words that only gain bits -/

/-- `w'` is `w` with some of the bits of `m` set. -/
def Gains {n : Nat} (m w w' : BitVec n) : Prop := w' = w ||| (w' &&& m)

section Gains

variable {n : Nat} {m w w' w'' k : BitVec n}

theorem Gains.refl (m w : BitVec n) : Gains m w w := by
  unfold Gains
  ext i hi
  simp only [getElem_or, getElem_and]
  cases w[i] <;> simp

theorem gains_iff : Gains m w w' ↔ ∀ i (hi : i < n), w'[i] = (w[i] || (w'[i] && m[i])) := by
  constructor
  · intro h i hi
    have hi' := congrArg (fun v => v.getLsbD i) h
    simpa only [getLsbD_eq_getElem hi, getElem_or, getElem_and] using hi'
  · intro h
    unfold Gains
    ext i hi
    rw [getElem_or, getElem_and]
    exact h i hi

theorem Gains.trans (h : Gains m w w') (h' : Gains m w' w'') : Gains m w w'' := by
  rw [gains_iff] at *
  intro i hi
  have h₁ := h i hi
  have h₂ := h' i hi
  revert h₁ h₂
  cases w[i] <;> cases w'[i] <;> cases w''[i] <;> cases m[i] <;> decide

theorem Gains.or (w : BitVec n) (h : k &&& m = k) : Gains m w (w ||| k) := by
  unfold Gains
  rw [BitVec.and_comm, and_or_distrib_left, BitVec.and_comm m k, h]
  ext i hi
  simp only [getElem_or, getElem_and]
  cases w[i] <;> cases k[i] <;> simp

theorem Gains.and_eq (h : Gains m w w') (hk : m &&& k = 0) : w' &&& k = w &&& k := by
  unfold Gains at h
  rw [h, BitVec.and_comm, and_or_distrib_left, BitVec.and_comm k w, BitVec.and_comm k (w' &&& m),
    BitVec.and_assoc, hk]
  simp

theorem Gains.and_ne (h : Gains m w w') (hk : w &&& k ≠ 0) : w' &&& k ≠ 0 := by
  intro h0
  apply hk
  rw [gains_iff] at h
  ext i hi
  have h₀ := congrArg (fun v => v.getLsbD i) h0
  have h₁ := h i hi
  have hz : (0 : BitVec n)[i] = false := BitVec.getElem_zero hi
  simp only [getLsbD_eq_getElem hi, getElem_and, hz] at h₀ ⊢
  revert h₀ h₁
  cases w[i] <;> cases w'[i] <;> cases k[i] <;> cases m[i] <;> decide

theorem Gains.or_or (h : Gains m w w') (k : BitVec n) : Gains m (w ||| k) (w' ||| k) := by
  rw [gains_iff] at *
  intro i hi
  have h₁ := h i hi
  simp only [getElem_or]
  revert h₁
  cases w[i] <;> cases w'[i] <;> cases k[i] <;> cases m[i] <;> decide

end Gains

end Tortoise.Lib
