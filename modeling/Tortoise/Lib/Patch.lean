import Mathlib

/-!
# Writing pieces into an image

An image is a function from positions to cells; `blit` writes a list at an offset,
`blits` one list after the other.  Where the pieces that cover a position agree about it,
the order of writing does not matter: `blits_covered` reads the position back, and what no
piece covers is as before.
-/

namespace Tortoise.Lib

open List

variable {α : Type}

/-- Write `bs` from position `off` on. -/
def blit (img : Nat → α) (off : Nat) (bs : List α) : Nat → α := fun i =>
  if off ≤ i ∧ i < off + bs.length then bs.getD (i - off) (img i) else img i

/-- Write the pieces in order. -/
def blits (img : Nat → α) (ps : List (Nat × List α)) : Nat → α :=
  ps.foldl (fun img p => blit img p.1 p.2) img

/-- Position `i` is in the piece. -/
def Covers (p : Nat × List α) (i : Nat) : Prop := p.1 ≤ i ∧ i < p.1 + p.2.length

section

variable {img : Nat → α} {ps : List (Nat × List α)} {p : Nat × List α} {i : Nat} {v : α}

theorem blit_uncovered (h : ¬Covers p i) : blit img p.1 p.2 i = img i := if_neg h

theorem blit_covered (h : Covers p i) (hv : p.2[i - p.1]? = some v) : blit img p.1 p.2 i = v := by
  have hb : blit img p.1 p.2 i = p.2.getD (i - p.1) (img i) := if_pos h
  rw [hb, getD_eq_getElem?_getD, hv, Option.getD_some]

theorem blit_nil (off : Nat) : blit img off [] = img :=
  funext fun i => if_neg (by simp)

theorem blit_append (img : Nat → α) (off : Nat) (bs cs : List α) :
    blit (blit img off bs) (off + bs.length) cs = blit img off (bs ++ cs) := by
  funext i
  unfold blit
  simp only [length_append, getD_eq_getElem?_getD, List.getElem?_append]
  by_cases hlow : i < off + bs.length
  · have hleft : off ≤ i → i - off < bs.length := by omega
    simp (disch := omega) only [if_neg, hlow, and_true]
    by_cases hi : off ≤ i
    · rw [if_pos hi, if_pos (by omega), if_pos (hleft hi)]
    · rw [if_neg hi, if_neg (by omega)]
  · by_cases hhigh : i < off + bs.length + cs.length
    · have hin : i - off - bs.length < cs.length := by omega
      rw [if_pos ⟨by omega, hhigh⟩, if_neg (by omega : ¬i - off < bs.length),
        show i - (off + bs.length) = i - off - bs.length by omega, List.getElem?_eq_getElem hin]
      exact (if_pos ⟨by omega, by omega⟩).symm
    · rw [if_neg (by omega), if_neg (by omega), if_neg (by omega)]

theorem blits_concat : blits img (ps ++ [p]) = blit (blits img ps) p.1 p.2 :=
  foldl_append ..

theorem blits_uncovered (h : ∀ p ∈ ps, ¬Covers p i) : blits img ps i = img i := by
  induction ps using List.reverseRecOn with
  | nil => rfl
  | append_singleton ps p ih =>
    rw [blits_concat, blit_uncovered (h p (by simp)),
      ih fun q hq => h q (mem_append_left [p] hq)]

/-- **A position can be read back** when the pieces that cover it agree. -/
theorem blits_covered (hp : p ∈ ps) (hc : Covers p i)
    (h : ∀ q ∈ ps, Covers q i → q.2[i - q.1]? = some v) : blits img ps i = v := by
  induction ps using List.reverseRecOn with
  | nil => cases hp
  | append_singleton ps q ih =>
    rw [blits_concat]
    by_cases hq : Covers q i
    · exact blit_covered hq (h q (by simp) hq)
    · -- the last piece leaves the position alone, so `p` is an earlier one
      rw [blit_uncovered hq]
      have hmem : p ∈ ps := by
        rcases mem_append.1 hp with hp | hp
        · exact hp
        · rw [mem_singleton.1 hp] at hc
          exact absurd hc hq
      exact ih hmem fun r hr => h r (mem_append_left [q] hr)

end

end Tortoise.Lib
