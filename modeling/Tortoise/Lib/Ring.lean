import Mathlib

/-!
# Circular buffers

A circular buffer keeps `len` elements in an array of `size` cells, from `head`
on and around the end.  Seen from outside it is a queue of bounded length:
`toList` is its contents, and each operation does to `toList` what its name says.

* `put` appends as much of a list as there is room for;
* `peekAt` reads without changing anything;
* `drop` forgets elements at the front;
* `get` takes elements from the front, or only looks at them.
-/

namespace Tortoise.Lib

open List

/-- A circular buffer of `size` cells. -/
structure RingBuf (α : Type) where
  buf : Nat → α
  size : Nat
  head : Nat
  len : Nat
  head_lt : head < size
  len_le : len ≤ size

namespace RingBuf

variable {α : Type} (r : RingBuf α)

/-- The empty buffer whose cells all hold `a`. -/
def empty (a : α) (size : Nat) (h : 0 < size) : RingBuf α := ⟨fun _ => a, size, 0, 0, h, size.zero_le⟩

/-- The contents, first element first. -/
def toList : List α := (List.range r.len).map fun i => r.buf ((r.head + i) % r.size)

/-- How many elements still fit. -/
def space : Nat := r.size - r.len

/-- Append as many elements of `p` as fit: cell `head + len + i` gets `p i`. -/
def put (p : List α) : RingBuf α where
  buf := fun j =>
    let i := (j + r.size - (r.head + r.len) % r.size) % r.size
    if i < min p.length r.space then p.getD i (r.buf j) else r.buf j
  size := r.size
  head := r.head
  len := r.len + min p.length r.space
  head_lt := r.head_lt
  len_le := by
    have := r.len_le
    unfold space
    omega

/-- The `n` elements from offset `off` on. -/
def peekAt (off n : Nat) : List α :=
  (List.range n).map fun i => r.buf ((r.head + off + i) % r.size)

/-- Forget the first `n` elements, or all. -/
def drop (n : Nat) : RingBuf α where
  buf := r.buf
  size := r.size
  head := (r.head + min n r.len) % r.size
  len := r.len - min n r.len
  head_lt := Nat.mod_lt _ (Nat.zero_lt_of_lt r.head_lt)
  len_le := le_trans (Nat.sub_le _ _) r.len_le

/-- The first `n` elements, or all, and the buffer without them; `peek` leaves
them there. -/
def get (n : Nat) (peek : Bool) : List α × RingBuf α :=
  (r.peekAt 0 (min n r.len), if peek then r else r.drop (min n r.len))

@[simp] theorem length_toList : r.toList.length = r.len := by simp [toList]

@[simp] theorem size_put (p : List α) : (r.put p).size = r.size := rfl

theorem len_eq : r.len = r.toList.length := r.length_toList.symm

/-- How far a cell is behind `b` can be seen from the cells. -/
theorem offset_add {b k size : Nat} (hk : k < size) :
    ((b + k) % size + size - b % size) % size = k := by
  have h1 : (b + k) % size = (b % size + k) % size := (Nat.mod_add_mod ..).symm
  have hb : b % size < size := Nat.mod_lt _ (by omega)
  rw [h1]
  generalize b % size = b at hb
  by_cases hbk : b + k < size
  · rw [Nat.mod_eq_of_lt hbk, show b + k + size - b = k + size by omega, Nat.add_mod_right,
      Nat.mod_eq_of_lt hk]
  · have hm : (b + k) % size = b + k - size := by
      rw [Nat.mod_eq_sub_mod (Nat.le_of_not_lt hbk), Nat.mod_eq_of_lt (by omega)]
    rw [hm, show b + k - size + size - b = k by omega, Nat.mod_eq_of_lt hk]

/-- A cell between `len` places behind `head` and the end is `k` places further. -/
theorem offset_of_cell {head len size k : Nat} (hk : len + k < size) :
    ((head + (len + k)) % size + size - (head + len) % size) % size = k := by
  rw [← Nat.add_assoc, offset_add (by omega)]

/-- The cells in front of `head + len` are out of reach of the new elements. -/
theorem offset_of_old {head len size i : Nat} (hi : i < len) (hl : len ≤ size) :
    ((head + i) % size + size - (head + len) % size) % size = size - len + i := by
  have h : head + len + (size - len + i) = head + i + size := by omega
  rw [← Nat.add_mod_right (head + i), ← h, offset_add (by omega)]

/-- **`put` appends** what fits. -/
@[simp] theorem toList_put (p : List α) : (r.put p).toList = r.toList ++ p.take r.space := by
  have hl := r.len_le
  apply ext_getElem
  · simp [toList, put, Nat.min_comm]
  · intro i h₁ h₂
    have hi : i < r.len + min p.length r.space := by
      rw [length_toList] at h₁
      exact h₁
    simp only [toList, getElem_map, getElem_range]
    by_cases hlt : i < r.len
    · rw [getElem_append_left (by simpa using hlt)]
      simp only [getElem_map, getElem_range]
      have hout : ¬ ((r.head + i) % r.size + r.size - (r.head + r.len) % r.size) % r.size <
          min p.length r.space := by
        rw [offset_of_old hlt hl]
        unfold space
        omega
      exact if_neg hout
    · obtain ⟨k, rfl⟩ := Nat.exists_eq_add_of_le (Nat.le_of_not_lt hlt)
      have hk : k < min p.length r.space := by omega
      have hk' : r.len + k < r.size := by
        unfold space at hk
        omega
      rw [getElem_append_right (by simp)]
      simp only [length_map, length_range, Nat.add_sub_cancel_left, getElem_take]
      change (if ((r.head + (r.len + k)) % r.size + r.size - (r.head + r.len) % r.size) % r.size < _
        then _ else _) = _
      rw [offset_of_cell hk', if_pos hk]
      change p.getD (((r.head + (r.len + k)) % r.size + r.size - (r.head + r.len) % r.size) % r.size)
        _ = _
      rw [offset_of_cell hk', getD_eq_getElem _ _ (by omega)]

/-- **`peekAt` reads** a piece of the contents. -/
theorem peekAt_eq {off n : Nat} (h : off + n ≤ r.len) :
    r.peekAt off n = (r.toList.drop off).take n := by
  apply ext_getElem
  · simp [peekAt]
    omega
  · intro i h₁ h₂
    simp [peekAt, toList, Nat.add_assoc]

/-- **`drop` forgets** the front. -/
@[simp] theorem toList_drop (n : Nat) : (r.drop n).toList = r.toList.drop n := by
  apply ext_getElem
  · simp [drop]
    omega
  · intro i h₁ h₂
    have hn : min n r.len = n := by
      simp [drop] at h₁
      omega
    simp only [toList, drop, hn, getElem_map, getElem_range, getElem_drop,
      Nat.mod_add_mod, Nat.add_assoc]

/-- **`get`** returns the front and keeps it only when peeking. -/
theorem get_eq (n : Nat) (peek : Bool) :
    (r.get n peek).1 = r.toList.take n ∧
      (r.get n peek).2.toList = if peek then r.toList else r.toList.drop n := by
  constructor
  · change r.peekAt 0 (min n r.len) = _
    rw [peekAt_eq r (by omega), drop_zero, r.len_eq, ← take_eq_take_min]
  · cases peek with
    | true => rfl
    | false =>
      change (r.drop (min n r.len)).toList = r.toList.drop n
      rw [toList_drop, r.len_eq]
      rcases Nat.le_total n r.toList.length with h | h
      · rw [Nat.min_eq_left h]
      · rw [Nat.min_eq_right h, drop_length, drop_eq_nil_of_le h]

end RingBuf

end Tortoise.Lib
