import Mathlib

/-!
# Numbers of many words

A number of `n` words of `w` bits, lowest word first.  `value` is its unsigned
value, `number n` the `w * n`-bit number.

* A chain of additions with carry, or of subtractions with borrow, computes the
  sum or difference of whole numbers; the invariant is the equation between the
  values so far and the weight of the carry (`AddsTo`, `SubsTo`).
* The sign lives in the highest word alone, so the highest word's signed sum or
  difference, with the carry into it, is in range exactly when the whole
  result is (`signed_lt_iff`, `signed_range_iff`).
-/

namespace Tortoise.Lib.Limbs

variable {w : Nat}

/-! ## Values -/

/-- The unsigned value of a list of words. -/
def value (ws : List (BitVec w)) : Nat := Nat.ofDigits (2 ^ w) (ws.map BitVec.toNat)

/-- The words as one number of `n` words. -/
def number (n : Nat) (ws : List (BitVec w)) : BitVec (w * n) := BitVec.ofNat _ (value ws)

@[simp] theorem value_nil : value ([] : List (BitVec w)) = 0 := rfl

theorem value_concat (ws : List (BitVec w)) (x : BitVec w) :
    value (ws ++ [x]) = value ws + 2 ^ (w * ws.length) * x.toNat := by
  simp [value, Nat.ofDigits_append, pow_mul]

theorem value_lt (ws : List (BitVec w)) : value ws < 2 ^ (w * ws.length) := by
  induction ws using List.reverseRecOn with
  | nil => simp
  | append_singleton ws x ih =>
    have hx : x.toNat + 1 ≤ 2 ^ w := x.isLt
    calc value (ws ++ [x])
        < 2 ^ (w * ws.length) * (x.toNat + 1) := by rw [value_concat, mul_add]; omega
      _ ≤ 2 ^ (w * ws.length) * 2 ^ w := Nat.mul_le_mul_left _ hx
      _ = 2 ^ (w * (ws ++ [x]).length) := by simp [← pow_add, mul_add]

theorem toNat_number {n : Nat} {ws : List (BitVec w)} (h : ws.length = n) :
    (number n ws).toNat = value ws := by
  subst h
  exact Nat.mod_eq_of_lt (value_lt ws)

/-! ## Carries and borrows -/

/-- The words `rs` and the carry `c` are the sum of `xs` and `ys`. -/
def AddsTo (xs ys rs : List (BitVec w)) (c : Nat) : Prop :=
  value rs + 2 ^ (w * rs.length) * c = value xs + value ys

/-- The words `rs` and the borrow `c` are the difference of `xs` and `ys`. -/
def SubsTo (xs ys rs : List (BitVec w)) (c : Nat) : Prop :=
  value rs + value ys = value xs + 2 ^ (w * rs.length) * c

section Chain

variable {xs ys rs : List (BitVec w)} {x y r : BitVec w} {c c' : Nat}

theorem addsTo_nil : AddsTo ([] : List (BitVec w)) [] [] 0 := by simp [AddsTo]

theorem subsTo_nil : SubsTo ([] : List (BitVec w)) [] [] 0 := by simp [SubsTo]

theorem AddsTo.concat (h : AddsTo xs ys rs c) (hx : xs.length = rs.length)
    (hy : ys.length = rs.length) (hr : r.toNat + 2 ^ w * c' = x.toNat + y.toNat + c) :
    AddsTo (xs ++ [x]) (ys ++ [y]) (rs ++ [r]) c' := by
  unfold AddsTo at *
  have hlen : 2 ^ (w * (rs ++ [r]).length) = 2 ^ (w * rs.length) * 2 ^ w := by
    simp [← pow_add, mul_add]
  rw [value_concat, value_concat, value_concat, hlen, hx, hy]
  calc value rs + 2 ^ (w * rs.length) * r.toNat + 2 ^ (w * rs.length) * 2 ^ w * c'
      = value rs + 2 ^ (w * rs.length) * (r.toNat + 2 ^ w * c') := by ring
    _ = (value rs + 2 ^ (w * rs.length) * c) + 2 ^ (w * rs.length) * (x.toNat + y.toNat) := by
        rw [hr]; ring
    _ = _ := by rw [h]; ring

/-- A subtraction is an addition the other way round. -/
theorem subsTo_iff (hx : xs.length = rs.length) : SubsTo xs ys rs c ↔ AddsTo rs ys xs c := by
  unfold SubsTo AddsTo
  rw [hx]
  exact eq_comm

theorem SubsTo.concat (h : SubsTo xs ys rs c) (hx : xs.length = rs.length)
    (hy : ys.length = rs.length) (hr : r.toNat + y.toNat + c = x.toNat + 2 ^ w * c') :
    SubsTo (xs ++ [x]) (ys ++ [y]) (rs ++ [r]) c' := by
  rw [subsTo_iff (by simp [hx])]
  exact ((subsTo_iff hx).1 h).concat hx.symm (hy.trans hx.symm) hr.symm

variable {n : Nat} (hx : xs.length = n) (hy : ys.length = n) (hr : rs.length = n)

include hx hy hr

theorem AddsTo.number {b : Bool} (h : AddsTo xs ys rs b.toNat) :
    number n rs = number n xs + number n ys ∧
      b = (number n xs).uaddOverflow (number n ys) := by
  have hx' := toNat_number hx
  have hy' := toNat_number hy
  have hr' := toNat_number hr
  have hlt := (Limbs.number n rs).isLt
  unfold AddsTo at h
  rw [← hx', ← hy', ← hr', hr] at h
  constructor
  · apply BitVec.eq_of_toNat_eq
    rw [BitVec.toNat_add, ← h, Nat.add_mul_mod_self_left, Nat.mod_eq_of_lt hlt]
  · rw [BitVec.uaddOverflow, ← h]
    cases b <;> simp [hlt]

theorem SubsTo.number {b : Bool} (h : SubsTo xs ys rs b.toNat) :
    number n rs = number n xs - number n ys ∧ b = (number n xs).ult (number n ys) := by
  obtain ⟨hsum, -⟩ := ((subsTo_iff (hx.trans hr.symm)).1 h).number hr hy hx
  refine ⟨by rw [hsum, BitVec.add_sub_cancel], ?_⟩
  have hlt := (Limbs.number n rs).isLt
  unfold SubsTo at h
  rw [← toNat_number hx, ← toNat_number hy, ← toNat_number hr, hr] at h
  rw [BitVec.ult]
  cases b with
  | false =>
    simp only [Bool.toNat_false, mul_zero] at h
    exact (decide_eq_false (by omega)).symm
  | true =>
    simp only [Bool.toNat_true, mul_one] at h
    exact (decide_eq_true (by omega)).symm

end Chain

/-! ## Signs -/

/-- The sign is that of the highest word. -/
theorem toInt_number_concat (hw : 0 < w) {n : Nat} {ws : List (BitVec w)} (h : ws.length = n)
    (x : BitVec w) : (number (n + 1) (ws ++ [x])).toInt = value ws + 2 ^ (w * n) * x.toInt := by
  have hlt : value ws < 2 ^ (w * n) := h ▸ value_lt ws
  have hnat : (number (n + 1) (ws ++ [x])).toNat = value ws + 2 ^ (w * n) * x.toNat := by
    rw [toNat_number (by simp [h]), value_concat, h]
  have hpow : 2 ^ (w * (n + 1)) = 2 ^ (w * n) * 2 ^ w := by rw [← pow_add, mul_add, mul_one]
  have hhalf : 2 * (value ws + 2 ^ (w * n) * x.toNat) < 2 ^ (w * n) * 2 ^ w ↔
      2 * x.toNat < 2 ^ w := by
    obtain ⟨k, hk⟩ : ∃ k, 2 ^ w = 2 * k := ⟨2 ^ (w - 1), by rw [← pow_succ']; congr 1; omega⟩
    have hpos : 0 < 2 ^ (w * n) := Nat.two_pow_pos _
    rw [hk]
    constructor
    · intro hl
      have hl' : 2 ^ (w * n) * x.toNat < 2 ^ (w * n) * k := by
        have he : 2 ^ (w * n) * (2 * k) = 2 * (2 ^ (w * n) * k) := by ring
        omega
      have := Nat.lt_of_mul_lt_mul_left hl'
      omega
    · intro hl
      have hl' : x.toNat + 1 ≤ k := by omega
      have hm := Nat.mul_le_mul_left (2 ^ (w * n)) hl'
      have he : 2 ^ (w * n) * (2 * k) = 2 * (2 ^ (w * n) * k) := by ring
      rw [mul_add, mul_one] at hm
      omega
  rw [BitVec.toInt_eq_toNat_cond, BitVec.toInt_eq_toNat_cond, hnat, hpow]
  by_cases hs : 2 * x.toNat < 2 ^ w
  · rw [if_pos hs, if_pos (hhalf.2 hs)]
    push_cast
    ring
  · rw [if_neg hs, if_neg (mt hhalf.1 hs)]
    push_cast
    ring

/-- A number below the weight of the highest word does not decide a comparison
with a multiple of that weight. -/
theorem signed_lt_iff {m l t k : Int} (hl : 0 ≤ l) (hlt : l < m) : l + m * t < m * k ↔ t < k := by
  constructor
  · intro h
    by_contra hk
    have hm : m * k ≤ m * t := mul_le_mul_of_nonneg_left (not_lt.1 hk) (by omega)
    omega
  · intro h
    have hm : m * (t + 1) ≤ m * k := mul_le_mul_of_nonneg_left h (by omega)
    rw [mul_add, mul_one] at hm
    omega

/-- The whole is in the range of its width exactly when the highest word is. -/
theorem signed_range_iff {m l t k : Int} (hl : 0 ≤ l) (hlt : l < m) :
    (-(m * k) ≤ l + m * t ∧ l + m * t < m * k) ↔ -k ≤ t ∧ t < k := by
  rw [signed_lt_iff hl hlt, ← not_lt, ← mul_neg, signed_lt_iff hl hlt, not_lt]

end Tortoise.Lib.Limbs
