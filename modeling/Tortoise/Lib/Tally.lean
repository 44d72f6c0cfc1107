import Mathlib

/-!
# Counting over a table

`tally n w t` adds the weights of the first `n` entries of a table.  Changing one entry
changes the sum by the difference of its weights, and when no weight is negative a sum that
is not positive says that all weights are zero.
-/

namespace Tortoise.Lib

open Function

variable {α : Type} {n : Nat} {w : α → Int} {t : Nat → α}

/-- The sum of the weights of the entries below `n`. -/
def tally (n : Nat) (w : α → Int) (t : Nat → α) : Int := ∑ i ∈ Finset.range n, w (t i)

theorem tally_nonneg (hw : ∀ a, 0 ≤ w a) : 0 ≤ tally n w t :=
  Finset.sum_nonneg fun i _ => hw (t i)

theorem tally_update {k : Nat} (hk : k < n) (a : α) :
    tally n w (update t k a) = tally n w t - w (t k) + w a := by
  have hmem : k ∈ Finset.range n := Finset.mem_range.2 hk
  have h1 := Finset.sum_update_of_mem (f := fun i => w (t i)) hmem (w a)
  have h2 := Finset.add_sum_erase _ (fun i => w (t i)) hmem
  have h3 : tally n w (update t k a) =
      ∑ i ∈ Finset.range n, update (fun i => w (t i)) k (w a) i := by
    apply Finset.sum_congr rfl
    intro i _
    by_cases hi : i = k
    · subst hi
      simp
    · simp [update_of_ne hi]
  rw [Finset.sdiff_singleton_eq_erase] at h1
  rw [h3, h1]
  unfold tally
  rw [← h2]
  ring

theorem tally_pos {k : Nat} (hw : ∀ a, 0 ≤ w a) (hk : k < n) (h : 0 < w (t k)) : 0 < tally n w t :=
  h.trans_le (Finset.single_le_sum (f := fun i => w (t i)) (fun i _ => hw (t i))
    (Finset.mem_range.2 hk))

/-- One entry of two tables that are counted together changes. -/
theorem tally_update_add {k : Nat} (hk : k < n) (a : α) (c : Int) :
    tally n w (update t k a) + c = tally n w t + c - w (t k) + w a := by
  rw [tally_update hk]
  ring

theorem add_tally_update {k : Nat} (hk : k < n) (a : α) (c : Int) :
    c + tally n w (update t k a) = c + tally n w t - w (t k) + w a := by
  rw [tally_update hk]
  ring

end Tortoise.Lib
