import Mathlib

/-!
# Overwriting part of a list

`overwrite l off bs` is `l` with `bs` from position `off` on; what lies between the end of
`l` and `off` is filled with a default.
-/

namespace Tortoise.Lib

open List

variable {α : Type} [Inhabited α]

/-- `l` with `bs` written at `off`. -/
def overwrite (l : List α) (off : Nat) (bs : List α) : List α :=
  (List.range (max l.length (off + bs.length))).map fun x =>
    if off ≤ x ∧ x < off + bs.length then bs.getD (x - off) default else l.getD x default

/-- A file as the functions that report its size and read it show it. -/
structure View (α : Type) where
  size : Nat
  read : Nat → Nat → Option (List α)

/-- All bytes of a file. -/
def View.all (f : View α) : List α := (f.read 0 f.size).getD []

/-- What a write of `src` at `off` with result `r` is to leave: an error leaves the size and
every read as they were, and a count says how much of `src` is in the file.  Reads have
offsets and lengths below `bound`. -/
def View.Obeys (bound : Nat) (before after : View α) (off : Nat) (src : List α) (r : Int) : Prop :=
  (r < 0 → after.size = before.size ∧
    ∀ o m, o < bound → m < bound → after.read o m = before.read o m) ∧
  (0 < r → after.size = max before.size (off + r.toNat) ∧
    ∀ o m, o < bound → m < bound →
      after.read o m = some (((overwrite before.all off (src.take r.toNat)).drop o).take m))

/-- The first `n` values of a function, from `off` on, `m` of them at most. -/
def window (f : Nat → α) (n off m : Nat) : List α := (((List.range n).map f).drop off).take m

omit [Inhabited α] in
theorem window_all (f : Nat → α) (n : Nat) : window f n 0 n = (List.range n).map f := by
  simp [window]

omit [Inhabited α] in
theorem window_eq (f : Nat → α) (n off m : Nat) :
    window f n off m = (List.range' off (min m (n - off))).map f := by
  apply ext_getElem
  · simp [window]
  · intro i h1 h2
    simp [window]

theorem overwrite_take {f g : Nat → α} {n off k : Nat} {src : List α} (hk : k ≤ src.length)
    (hg : ∀ x, g x = if off ≤ x ∧ x < off + k then src.getD (x - off) default else f x)
    (hclean : ∀ x, n ≤ x → f x = default) :
    overwrite ((List.range n).map f) off (src.take k) = (List.range (max n (off + k))).map g := by
  have htake : (src.take k).length = k := by
    rw [length_take]
    omega
  unfold overwrite
  rw [length_map, length_range, htake]
  apply map_congr_left
  intro x _
  rw [hg x]
  by_cases hx : off ≤ x ∧ x < off + k
  · rw [if_pos hx, if_pos hx, getD_eq_getElem?_getD, getD_eq_getElem?_getD,
      List.getElem?_take_of_lt (by omega)]
  · rw [if_neg hx, if_neg hx, getD_eq_getElem?_getD]
    by_cases hn : x < n
    · simp [hn]
    · rw [hclean x (by omega)]
      simp [hn]

/-- Cutting the values of a function, or filling them up. -/
theorem resize_range {f g : Nat → α} {m len : Nat} (hin : ∀ x < len, x < m → g x = f x)
    (hout : ∀ x < len, m ≤ x → g x = default) : ((List.range m).map f).take len ++
      List.replicate (len - ((List.range m).map f).length) default = (List.range len).map g := by
  apply ext_getElem
  · simp
    omega
  · intro i h1 h2
    rw [length_map, length_range] at h2
    rw [getElem_map, getElem_range]
    by_cases hi : i < m
    · rw [getElem_append_left (by simp; omega), hin i h2 hi]
      simp
    · rw [getElem_append_right (by simp; omega), hout i h2 (by omega)]
      simp

omit [Inhabited α] in
/-- The values of a function from `off` on begin with those in one block. -/
theorem map_range'_block {f g : Nat → α} {size off n k : Nat} (hsize : 0 < size)
    (hk : k = min (size - off % size) n) (hfg : ∀ i, i / size = off / size → f i = g (i % size)) :
    (List.range' off n).map f =
      (List.range' (off % size) k).map g ++ (List.range' (off + k) (n - k)).map f := by
  have hsplit : List.range' off n = List.range' off k ++ List.range' (off + k) (n - k) := by
    rw [List.range'_append_1]
    congr 1
    omega
  rw [hsplit, map_append]
  congr 1
  apply ext_getElem
  · simp
  · intro i h1 h2
    rw [length_map, length_range'] at h2
    have hlt : off % size + i < size := by omega
    have hoff : off + i = size * (off / size) + (off % size + i) := by
      rw [← Nat.add_assoc, Nat.div_add_mod]
    have hdiv : (off + i) / size = off / size := by
      rw [hoff, Nat.mul_add_div hsize, Nat.div_eq_of_lt hlt, Nat.add_zero]
    have hmod : (off + i) % size = off % size + i := by
      rw [hoff, Nat.mul_add_mod, Nat.mod_eq_of_lt hlt]
    simp [hfg _ hdiv, hmod]

/-- The length of a read, cut at the end of the file; the sum may wrap around. -/
theorem clip_eq {size off m : Nat} (hsize : size < 2 ^ 32) (hoff : ¬size ≤ off) (hm : m < 2 ^ 32) :
    (if size < (off + m) % 4294967296 ∨ (off + m) % 4294967296 < off then size - off else m) =
      min m (size - off) := by
  by_cases hw : off + m < 4294967296
  · rw [Nat.mod_eq_of_lt hw]
    split_ifs <;> omega
  · rw [show (off + m) % 4294967296 = off + m - 4294967296 by omega, if_pos (by omega)]
    omega

/-- **When a write obeys.**  The file held `f`, and `k` bytes of `src` went into it; the size
is the larger of the old one and where the write got to.  A write that got nowhere and reports
an error is wrong exactly if it started behind the end. -/
theorem View.obeys_iff {bound off k : Nat} {before after : View α} {f g : Nat → α} {src : List α}
    {e : Int} (he : e < 0) (hread : ∀ o m, o < bound → m < bound →
      before.read o m = some (window f before.size o m))
    (hread' : ∀ o m, o < bound → m < bound → after.read o m = some (window g after.size o m))
    (hbound : before.size < bound) (hk : k ≤ src.length)
    (hg : ∀ x, g x = if off ≤ x ∧ x < off + k then src.getD (x - off) default else f x)
    (hclean : ∀ x, before.size ≤ x → f x = default)
    (hsize : after.size = max before.size (off + k)) :
    before.Obeys bound after off src (if src.length ≠ 0 ∧ k = 0 then e else (k : Int)) ↔
      src.length = 0 ∨ off ≤ before.size ∨ k ≠ 0 := by
  by_cases hk0 : k = 0
  · subst hk0
    have hgf : g = f := by
      funext x
      rw [hg x, if_neg (by omega)]
    by_cases hlen : src.length = 0
    · simp [View.Obeys, hlen]
    · rw [if_pos ⟨hlen, rfl⟩]
      simp only [hlen, false_or, ne_eq, not_true_eq_false, or_false]
      constructor
      · rintro ⟨herr, -⟩
        have := (herr he).1
        omega
      · intro hle
        have hsame : after.size = before.size := by omega
        refine ⟨fun _ => ⟨hsame, ?_⟩, fun hpos => absurd hpos (by omega)⟩
        intro o m ho hm
        rw [hread' o m ho hm, hread o m ho hm, hgf, hsame]
  · simp only [hk0, and_false, if_false, ne_eq, not_false_eq_true, or_true, iff_true]
    refine ⟨fun hneg => absurd hneg (by omega), fun _ => ?_⟩
    rw [Int.toNat_natCast]
    refine ⟨hsize, ?_⟩
    intro o m ho hm
    have hall : before.all = (List.range before.size).map f := by
      unfold View.all
      rw [hread 0 before.size (by omega) hbound, window_all]
      rfl
    rw [hread' o m ho hm, hall, overwrite_take hk hg hclean, ← hsize]
    rfl

end Tortoise.Lib
