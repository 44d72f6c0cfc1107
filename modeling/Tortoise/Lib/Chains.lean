import Mathlib

/-!
# Hash tables with chains

A table of keys in the order of their insertion.  The keys of one bucket form a
chain, newest first: `heads` says where the chain of a bucket begins, `next` where
it goes on.

* `find` follows the chain of a key's bucket and compares;
* `get` finds a key or adds it.

`find_eq_some` and `find_eq_none` say that looking into one bucket is as good as
looking at every key.
-/

namespace Tortoise.Lib

/-- The largest number below `n` with property `p`. -/
def lastBelow (p : Nat → Bool) : Nat → Option Nat
  | 0 => none
  | n + 1 => if p n then some n else lastBelow p n

section

variable {p q : Nat → Bool} {n i : Nat}

theorem lastBelow_some (h : lastBelow p n = some i) : i < n ∧ p i = true := by
  induction n with
  | zero => cases h
  | succ n ih =>
    unfold lastBelow at h
    by_cases hp : p n = true
    · rw [if_pos hp] at h
      cases h
      exact ⟨Nat.lt_succ_self _, hp⟩
    · rw [if_neg hp] at h
      exact ⟨(ih h).1.trans (Nat.lt_succ_self _), (ih h).2⟩

theorem lastBelow_congr (h : ∀ i < n, p i = q i) : lastBelow p n = lastBelow q n := by
  induction n with
  | zero => rfl
  | succ n ih =>
    unfold lastBelow
    rw [h n (Nat.lt_succ_self n), ih fun i hi => h i (hi.trans (Nat.lt_succ_self n))]

/-- A stricter property is looked for from the last place of the weaker one on. -/
theorem lastBelow_step (hqp : ∀ i, q i = true → p i = true) :
    lastBelow q n = match lastBelow p n with
      | none => none
      | some i => if q i then some i else lastBelow q i := by
  induction n with
  | zero => rfl
  | succ n ih =>
    by_cases hp : p n = true
    · simp only [lastBelow, if_pos hp]
    · have hq : ¬ q n = true := fun h => hp (hqp n h)
      simp only [lastBelow, if_neg hp, if_neg hq]
      exact ih

end

/-- A table of keys with its chains. -/
structure Chains (κ : Type) (hash : κ → Nat) where
  keys : List κ
  heads : Nat → Option Nat
  next : Nat → Option Nat
  heads_eq : ∀ b, heads b = lastBelow (fun i => keys[i]?.map hash = some b) keys.length
  next_eq : ∀ i k, keys[i]? = some k →
    next i = lastBelow (fun j => keys[j]?.map hash = some (hash k)) i

namespace Chains

variable {κ : Type} {hash : κ → Nat}

/-- The table without keys. -/
def empty : Chains κ hash where
  keys := []
  heads _ := none
  next _ := none
  heads_eq _ := rfl
  next_eq i k h := by simp at h

variable [DecidableEq κ]

/-- Follow a chain from place `i` on until key `k` comes. -/
def walk (t : Chains κ hash) (k : κ) : Nat → Option Nat → Option Nat
  | 0, _ => none
  | _ + 1, none => none
  | fuel + 1, some i => if t.keys[i]? = some k then some i else t.walk k fuel (t.next i)

/-- The place of a key. -/
def find (t : Chains κ hash) (k : κ) : Option Nat := t.walk k t.keys.length (t.heads (hash k))

/-- A new key at the head of its chain. -/
def push (t : Chains κ hash) (k : κ) : Chains κ hash where
  keys := t.keys ++ [k]
  heads b := if b = hash k then some t.keys.length else t.heads b
  next i := if i = t.keys.length then t.heads (hash k) else t.next i
  heads_eq b := by
    simp only [List.length_append, List.length_singleton, lastBelow, List.getElem?_concat_length,
      Option.map_some, Option.some.injEq, decide_eq_true_eq]
    by_cases hb : b = hash k
    · rw [if_pos hb, if_pos hb.symm]
    · rw [if_neg hb, if_neg (Ne.symm hb), t.heads_eq b]
      apply lastBelow_congr
      intro i hi
      rw [List.getElem?_append_left hi]
  next_eq i k' h := by
    have hlow : ∀ n ≤ t.keys.length, ∀ b, lastBelow (fun j => t.keys[j]?.map hash = some b) n =
        lastBelow (fun j => (t.keys ++ [k])[j]?.map hash = some b) n := by
      intro n hn b
      apply lastBelow_congr
      intro j hj
      rw [List.getElem?_append_left (by omega)]
    by_cases hi : i = t.keys.length
    · subst hi
      rw [List.getElem?_concat_length] at h
      cases h
      rw [if_pos rfl, t.heads_eq, hlow _ le_rfl]
    · have hlt : i < t.keys.length := by
        have := (List.getElem?_eq_some_iff.1 h).1
        rw [List.length_append, List.length_singleton] at this
        omega
      rw [List.getElem?_append_left hlt] at h
      rw [if_neg hi, t.next_eq i k' h, hlow i hlt.le]

/-- Find a key or add it: the table and the key's place. -/
def get (t : Chains κ hash) (k : κ) : Chains κ hash × Nat :=
  match t.find k with
  | some i => (t, i)
  | none => (t.push k, t.keys.length)

variable (t : Chains κ hash) {k k' : κ} {i : Nat}

/-- Following the chain finds the last place of the key. -/
theorem walk_eq (fuel : Nat) : ∀ n ≤ fuel, n ≤ t.keys.length →
    t.walk k fuel (lastBelow (fun i => t.keys[i]?.map hash = some (hash k)) n) =
      lastBelow (fun i => t.keys[i]? = some k) n := by
  induction fuel with
  | zero =>
    intro n hn _
    obtain rfl : n = 0 := Nat.le_zero.1 hn
    rfl
  | succ fuel ih =>
    intro n hn hlen
    have hstep := lastBelow_step (n := n) (p := fun i => t.keys[i]?.map hash = some (hash k))
      (q := fun i => t.keys[i]? = some k) (by
        intro i hi
        simp only [decide_eq_true_eq] at hi ⊢
        rw [hi, Option.map_some])
    cases hl : lastBelow (fun i => decide (t.keys[i]?.map hash = some (hash k))) n with
    | none =>
      rw [hl] at hstep
      rw [hstep]
      rfl
    | some i =>
      obtain ⟨hi, hp⟩ := lastBelow_some hl
      rw [hl] at hstep
      simp only [decide_eq_true_eq] at hstep hp
      rw [hstep]
      unfold walk
      by_cases hk : t.keys[i]? = some k
      · rw [if_pos hk, if_pos hk]
      · obtain ⟨k', hk', hh⟩ := Option.map_eq_some_iff.1 hp
        rw [if_neg hk, if_neg hk, t.next_eq i k' hk', hh]
        exact ih i (by omega) (by omega)

/-- **Looking into one bucket** finds the last place of the key. -/
theorem find_eq : t.find k = lastBelow (fun i => t.keys[i]? = some k) t.keys.length := by
  unfold find
  rw [t.heads_eq]
  exact t.walk_eq t.keys.length t.keys.length le_rfl le_rfl

theorem find_eq_some (h : t.find k = some i) : t.keys[i]? = some k := by
  rw [find_eq] at h
  simpa using (lastBelow_some h).2

theorem find_push : (t.push k).find k' = if k' = k then some t.keys.length else t.find k' := by
  have hlen : (t.push k).keys.length = t.keys.length + 1 := by simp [push]
  have hlast : (t.push k).keys[t.keys.length]? = some k := List.getElem?_concat_length
  have hlow : lastBelow (fun i => (t.push k).keys[i]? = some k') t.keys.length =
      lastBelow (fun i => t.keys[i]? = some k') t.keys.length := by
    apply lastBelow_congr
    intro i hi
    have h : (t.push k).keys[i]? = t.keys[i]? := List.getElem?_append_left hi
    simp only [h]
  rw [find_eq, find_eq, hlen, lastBelow, hlow]
  simp only [hlast, Option.some.injEq, decide_eq_true_eq]
  by_cases hk : k' = k
  · rw [if_pos hk, if_pos hk.symm]
  · rw [if_neg hk, if_neg (Ne.symm hk)]

theorem find_ne (h : t.find k' = some i) (hk : t.keys[i]? = some k) : k' = k :=
  Option.some.inj ((t.find_eq_some h).symm.trans hk)

end Chains

end Tortoise.Lib
