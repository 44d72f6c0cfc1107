import Mathlib

/-!
# Buffers with wrapping counters

A buffer of `size` cells whose ends are counters of 32 bits that only count up: counter `a` is at
cell `a % size`.  When the size divides `2 ^ 32` the cells go on in their order where a counter
wraps around.

* `between`: the elements from one counter to another.
* `between_cons`, `between_succ`, `between_pred`, `between_split`: how the ends move.
-/

namespace Tortoise.Lib

open Function BitVec List

section Counters

variable {α : Type} {size : Nat} {buf : Nat → α} {a b c : BitVec 32}

/-- The elements from counter `a` on, up to counter `b`. -/
def between (size : Nat) (buf : Nat → α) (a b : BitVec 32) : List α :=
  (List.range (b - a).toNat).map fun k => buf ((a + BitVec.ofNat 32 k).toNat % size)

@[simp] theorem length_between : (between size buf a b).length = (b - a).toNat := by
  simp [between]

@[simp] theorem between_self : between size buf a a = [] := by simp [between]

/-- The cell `k` places behind a counter. -/
theorem cell_mod (h : size ∣ 2 ^ 32) (a : BitVec 32) (k : Nat) :
    (a + BitVec.ofNat 32 k).toNat % size = (a.toNat + k) % size := by
  rw [toNat_add, toNat_ofNat, Nat.add_mod_mod, Nat.mod_mod_of_dvd _ h]

theorem between_split (hs : size ∣ 2 ^ 32) (h : (b - a).toNat ≤ (c - a).toNat) :
    between size buf a c = between size buf a b ++ between size buf b c := by
  have hlen : (c - a).toNat = (b - a).toNat + (c - b).toNat := by bv_omega
  have hb : b = a + BitVec.ofNat 32 (b - a).toNat := by
    rw [ofNat_toNat, setWidth_eq]
    bv_omega
  unfold between
  rw [hlen, range_add, map_append, map_map]
  congr 1
  apply map_congr_left
  intro k _
  have hcell := cell_mod hs a (b - a).toNat
  rw [← hb] at hcell
  rw [Function.comp, cell_mod hs, cell_mod hs, Nat.add_mod b.toNat, hcell, ← Nat.add_mod,
    Nat.add_assoc]

theorem between_one (h : (b - a).toNat = 1) : between size buf a b = [buf (a.toNat % size)] := by
  rw [between, h]
  show [buf ((a + 0#32).toNat % size)] = _
  rw [BitVec.add_zero]

theorem between_cons (hs : size ∣ 2 ^ 32) (h : a ≠ b) :
    between size buf a b = buf (a.toNat % size) :: between size buf (a + 1) b := by
  rw [between_split hs (b := a + 1) (by bv_omega), between_one (by bv_omega), singleton_append]

theorem between_pred (hs : size ∣ 2 ^ 32) (h : a ≠ b) :
    between size buf a (b - 1) = (between size buf a b).dropLast := by
  rw [between_split hs (b := b - 1) (c := b) (by bv_omega), between_one (b := b) (by bv_omega),
    dropLast_concat]

/-- One more element, as long as its cell is not one of theirs. -/
theorem between_succ (hs : size ∣ 2 ^ 32) (hlt : size < 2 ^ 32) (h : (b - a).toNat < size) (x : α) :
    between size (update buf (b.toNat % size) x) a (b + 1) =
      between size buf a b ++ [x] := by
  rw [between_split hs (b := b) (by bv_omega), between_one (a := b) (by bv_omega),
    update_self]
  congr 1
  apply map_congr_left
  intro k hk
  have hk' : k < (b - a).toNat := mem_range.1 hk
  have hb : b = a + BitVec.ofNat 32 (b - a).toNat := by
    rw [ofNat_toNat, setWidth_eq]
    bv_omega
  refine update_of_ne (fun he => ?_) _ _
  rw [hb, cell_mod hs, cell_mod hs] at he
  have hmod : k ≡ (b - a).toNat [MOD size] := Nat.ModEq.add_left_cancel' _ he
  exact hk'.ne (hmod.eq_of_lt_of_lt (hk'.trans h) h)

end Counters

end Tortoise.Lib
