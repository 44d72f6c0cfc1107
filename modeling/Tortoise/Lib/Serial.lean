import Mathlib

/-!
# Serial numbers

Numbers counted modulo `2 ^ 32` from a starting value, and compared by the sign of
their difference.  Where the two counts are less than half the range apart, the
difference and the comparisons are those of the counts.
-/

namespace Tortoise.Lib

open BitVec

/-- The serial number `n` steps after `s`. -/
def serialAt (s : BitVec 32) (n : Nat) : BitVec 32 := s + BitVec.ofNat 32 n

section

variable {s : BitVec 32} {a b : Nat}

@[simp] theorem serialAt_zero (s : BitVec 32) : serialAt s 0 = s := by simp [serialAt]

theorem serialAt_add (s : BitVec 32) (n k : Nat) :
    serialAt s n + BitVec.ofNat 32 k = serialAt s (n + k) := by
  unfold serialAt
  rw [BitVec.add_assoc, ofNat_add]

theorem serialAt_succ (s : BitVec 32) (n : Nat) : serialAt s n + 1 = serialAt s (n + 1) :=
  serialAt_add s n 1

theorem serialAt_sub (s : BitVec 32) (a b : Nat) :
    serialAt s a - serialAt s b = BitVec.ofNat 32 a - BitVec.ofNat 32 b := by
  unfold serialAt
  bv_omega

/-- The distance of two serial numbers. -/
theorem serialAt_sub_toNat (hab : b ≤ a) (hlt : a < b + 2 ^ 32) :
    (serialAt s a - serialAt s b).toNat = a - b := by
  rw [serialAt_sub, toNat_sub, toNat_ofNat, toNat_ofNat]
  omega

theorem serialAt_sub_eq (hab : b ≤ a) : serialAt s a - serialAt s b = BitVec.ofNat 32 (a - b) := by
  obtain ⟨d, rfl⟩ := Nat.exists_eq_add_of_le hab
  rw [← serialAt_add, Nat.add_sub_cancel_left]
  bv_omega

theorem slt_zero_iff (x : BitVec 32) : x.slt 0 = true ↔ 2 ^ 31 ≤ x.toNat := by
  have hx := x.isLt
  rw [BitVec.slt, decide_eq_true_iff, toInt_eq_toNat_cond]
  simp only [toInt_zero, ofNat_eq_ofNat]
  split <;> omega

theorem sle_zero_iff (x : BitVec 32) : x.sle 0 = true ↔ x.toNat = 0 ∨ 2 ^ 31 ≤ x.toNat := by
  have hx := x.isLt
  rw [BitVec.sle, decide_eq_true_iff, toInt_eq_toNat_cond]
  simp only [toInt_zero, ofNat_eq_ofNat]
  split <;> omega

/-- The sign of the difference compares the counts. -/
theorem serialAt_slt (hab : a < b + 2 ^ 31) (hba : b ≤ a + 2 ^ 31) :
    (serialAt s a - serialAt s b).slt 0 = true ↔ a < b := by
  rw [slt_zero_iff, serialAt_sub, toNat_sub, toNat_ofNat, toNat_ofNat]
  omega

theorem serialAt_sle (hab : a < b + 2 ^ 31) (hba : b ≤ a + 2 ^ 31) :
    (serialAt s a - serialAt s b).sle 0 = true ↔ a ≤ b := by
  rw [sle_zero_iff, serialAt_sub, toNat_sub, toNat_ofNat, toNat_ofNat]
  omega

theorem serialAt_inj (hab : a < b + 2 ^ 32) (hba : b < a + 2 ^ 32) :
    serialAt s a = serialAt s b ↔ a = b := by
  constructor
  · intro h
    have h0 : (serialAt s a - serialAt s b).toNat = 0 := by
      rw [h, BitVec.sub_self]
      rfl
    rw [serialAt_sub, toNat_sub, toNat_ofNat, toNat_ofNat] at h0
    omega
  · rintro rfl
    rfl

end

end Tortoise.Lib
