import Mathlib

/-!
# Pointer trees in a store of blocks

A block holds pointers to blocks; `0` points nowhere.  Trees hang from roots, and a
position is a root with the entries to take from there.  `node` is the block a position
leads to.

* A write to blocks no tree passes through moves no node (`node_of_agree`).
* Hanging a fresh empty block at a free position sets that node and no other
  (`node_plantRoot`, `node_plantEntry`).
* Where no block has two positions (`Apart`), all this keeps the trees apart (`Apart.plant`).
* `lacking` counts the nodes missing on the way to a leaf.
-/

namespace Tortoise.Lib.Forest

/-- Which block each entry of each block points to. -/
abbrev Store := Nat → Nat → Nat

/-- The block reached from `b` through the entries. -/
def follow (σ : Store) : Nat → List Nat → Nat
  | b, [] => b
  | b, i :: is => if b = 0 then 0 else follow σ (σ b i) is

/-- How many blocks are missing on the way from `b` through the entries. -/
def lacking (σ : Store) : Nat → List Nat → Nat
  | b, [] => if b = 0 then 1 else 0
  | b, i :: is => if b = 0 then is.length + 2 else lacking σ (σ b i) is

/-- Entry `i` of block `b` becomes `v`. -/
def setEntry (σ : Store) (b i v : Nat) : Store := fun c j => if c = b ∧ j = i then v else σ c j

variable {ρ : Type} {depth : ρ → Nat} {width : Nat} {σ τ : Store} {R S : ρ → Nat}
  {p q : ρ × List Nat} {b i v : Nat} {is js : List Nat}

@[simp]
theorem follow_nil : follow σ b [] = b := rfl

@[simp]
theorem follow_zero : follow σ 0 is = 0 := by
  cases is with
  | nil => rfl
  | cons i is => exact if_pos rfl

theorem follow_cons (hb : b ≠ 0) : follow σ b (i :: is) = follow σ (σ b i) is := if_neg hb

theorem follow_append : follow σ b (is ++ js) = follow σ (follow σ b is) js := by
  induction is generalizing b with
  | nil => rfl
  | cons i is ih =>
    by_cases hb : b = 0
    · subst hb
      rw [List.cons_append, follow_zero, follow_zero, follow_zero]
    · rw [List.cons_append, follow_cons hb, follow_cons hb, ih]

theorem follow_concat (h : follow σ b is ≠ 0) : follow σ b (is ++ [i]) = σ (follow σ b is) i := by
  rw [follow_append, follow_cons h, follow_nil]

/-- What the store says about the blocks on the way decides where the way leads. -/
theorem follow_congr (h : ∀ js i ks, is = js ++ i :: ks → follow σ b js ≠ 0 →
    τ (follow σ b js) i = σ (follow σ b js) i) : follow τ b is = follow σ b is := by
  induction is using List.reverseRecOn with
  | nil => rfl
  | append_singleton is i ih =>
    have hpre : follow τ b is = follow σ b is := by
      apply ih
      intro js j ks hjs
      exact h js j (ks ++ [i]) (by rw [hjs]; simp)
    by_cases hz : follow σ b is = 0
    · rw [follow_append, follow_append, hpre, hz, follow_zero, follow_zero]
    · rw [follow_concat hz, follow_concat (hpre ▸ hz), hpre]
      exact h is i [] rfl hz

theorem lacking_zero : lacking σ 0 is = is.length + 1 := by
  cases is with
  | nil => rfl
  | cons i is => exact if_pos rfl

theorem lacking_cons (hb : b ≠ 0) : lacking σ b (i :: is) = lacking σ (σ b i) is := if_neg hb

/-! ## Positions -/

/-- A position inside the trees: `depth` entries at most, each of a block of `width`. -/
structure Valid (depth : ρ → Nat) (width : Nat) (p : ρ × List Nat) : Prop where
  length : p.2.length ≤ depth p.1
  index : ∀ i ∈ p.2, i < width

/-- The block at a position. -/
def node (σ : Store) (R : ρ → Nat) (p : ρ × List Nat) : Nat := follow σ (R p.1) p.2

/-- No block has two positions. -/
def Apart (depth : ρ → Nat) (width : Nat) (σ : Store) (R : ρ → Nat) : Prop :=
  ∀ p q, Valid depth width p → Valid depth width q → node σ R p ≠ 0 →
    node σ R p = node σ R q → p = q

theorem Valid.of_append {r : ρ} (h : Valid depth width (r, is ++ js)) :
    Valid depth width (r, is) := by
  constructor
  · have := h.length
    rw [List.length_append] at this
    exact le_trans (Nat.le_add_right ..) this
  · intro i hi
    exact h.index i (List.mem_append_left _ hi)

/-- A write to blocks no tree passes through moves no node. -/
theorem node_of_agree (h : ∀ q, Valid depth width q → q.2.length < depth q.1 → node σ R q ≠ 0 →
      ∀ i < width, τ (node σ R q) i = σ (node σ R q) i)
    (hp : Valid depth width p) : node τ R p = node σ R p := by
  obtain ⟨r, is⟩ := p
  apply follow_congr
  intro js i ks his hne
  subst his
  have hlen := hp.length
  simp only [List.length_append, List.length_cons] at hlen
  exact h (r, js) hp.of_append (by simp only; omega) hne i (hp.index i (by simp))

/-! ## Planting -/

/-- Position `p` now holds `v`, all others hold what they held. -/
def Planted (depth : ρ → Nat) (width : Nat) (σ : Store) (R : ρ → Nat) (τ : Store) (S : ρ → Nat)
    (p : ρ × List Nat) (v : Nat) : Prop :=
  node τ S p = v ∧ ∀ q, Valid depth width q → q ≠ p → node τ S q = node σ R q

/-- A fresh block at a position keeps the trees apart. -/
theorem Apart.plant (h : Apart depth width σ R) (hpl : Planted depth width σ R τ S p v)
    (hv : ∀ q, Valid depth width q → node σ R q ≠ v) : Apart depth width τ S := by
  intro q q' hq hq' hne he
  by_cases h1 : q = p
  · by_cases h2 : q' = p
    · rw [h1, h2]
    · rw [h1, hpl.1, hpl.2 q' hq' h2] at he
      exact absurd he.symm (hv q' hq')
  · rw [hpl.2 q hq h1] at hne he
    by_cases h2 : q' = p
    · rw [h2, hpl.1] at he
      exact absurd he (hv q hq)
    · rw [hpl.2 q' hq' h2] at he
      exact h q q' hq hq' hne he

/-- An empty block hung at an empty root. -/
theorem node_plantRoot [DecidableEq ρ] {r : ρ} (hr : R r = 0) (hv : ∀ i < width, σ v i = 0) :
    Planted depth width σ R σ (Function.update R r v) (r, []) v := by
  constructor
  · simp [node]
  · rintro ⟨r', is⟩ hq hne
    by_cases hr' : r' = r
    · subst hr'
      cases is with
      | nil => exact absurd rfl hne
      | cons i is =>
        -- below the new block there is nothing yet
        have hi : i < width := hq.index i (by simp)
        simp only [node, Function.update_self, hr, follow_zero]
        by_cases hv0 : v = 0
        · rw [hv0, follow_zero]
        · rw [follow_cons hv0, hv i hi, follow_zero]
    · simp [node, Function.update_of_ne hr']

/-- An empty block hung at an empty entry. -/
theorem node_plantEntry (h : Apart depth width σ R) (hp : Valid depth width p)
    (hne : node σ R p ≠ 0) (hi : σ (node σ R p) i = 0) (hv : ∀ j < width, σ v j = 0)
    (hvp : v ≠ node σ R p) :
    Planted depth width σ R (setEntry σ (node σ R p) i v) R (p.1, p.2 ++ [i]) v := by
  obtain ⟨r, is⟩ := p
  -- a way that does not take the new entry is as before
  have hold : ∀ q, Valid depth width q → (∀ ks, q ≠ (r, is ++ i :: ks)) →
      node (setEntry σ (node σ R (r, is)) i v) R q = node σ R q := by
    rintro ⟨r', js⟩ hq hoff
    apply follow_congr
    intro js' j ks hjs hz
    by_cases hb : follow σ (R r') js' = node σ R (r, is)
    · subst hjs
      have hpos : (r', js') = (r, is) := h (r', js') (r, is) hq.of_append hp hz hb
      obtain ⟨rfl, rfl⟩ := Prod.mk.inj hpos
      have hj : j ≠ i := fun hji => hoff ks (hji ▸ rfl)
      simp [setEntry, hj]
    · simp [setEntry, hb]
  have hself : node (setEntry σ (node σ R (r, is)) i v) R (r, is) = node σ R (r, is) := by
    refine hold (r, is) hp ?_
    intro ks hks
    have hlen := congrArg (fun q : ρ × List Nat => q.2.length) hks
    simp at hlen
  have hnew : node (setEntry σ (node σ R (r, is)) i v) R (r, is ++ [i]) = v := by
    have hne' : node (setEntry σ (node σ R (r, is)) i v) R (r, is) ≠ 0 := by
      rw [hself]
      exact hne
    have hcat : node (setEntry σ (node σ R (r, is)) i v) R (r, is ++ [i]) =
        setEntry σ (node σ R (r, is)) i v
          (node (setEntry σ (node σ R (r, is)) i v) R (r, is)) i :=
      follow_concat hne'
    rw [hcat, hself]
    exact if_pos ⟨rfl, rfl⟩
  refine ⟨hnew, ?_⟩
  intro q hq hqne
  by_cases hks : ∃ ks, q = (r, is ++ i :: ks)
  · obtain ⟨ks, rfl⟩ := hks
    have hsplit : is ++ i :: ks = (is ++ [i]) ++ ks := by simp
    have hgone : node σ R (r, is ++ [i]) = 0 := (follow_concat hne).trans hi
    cases ks with
    | nil => exact absurd rfl hqne
    | cons k ks =>
      have hk : k < width := hq.index k (by simp)
      have hold0 : node σ R (r, is ++ i :: k :: ks) = 0 := by
        unfold node at hgone ⊢
        simp only at hgone ⊢
        rw [hsplit, follow_append, hgone, follow_zero]
      have hnew0 : node (setEntry σ (node σ R (r, is)) i v) R (r, is ++ i :: k :: ks) = 0 := by
        unfold node at hnew ⊢
        simp only at hnew ⊢
        rw [hsplit, follow_append, hnew]
        by_cases hv0 : v = 0
        · rw [hv0, follow_zero]
        · rw [follow_cons hv0]
          have hz : setEntry σ (follow σ (R r) is) i v v k = 0 := by
            unfold setEntry
            rw [if_neg (fun hc => hvp hc.1)]
            exact hv k hk
          rw [hz, follow_zero]
      rw [hold0, hnew0]
  · exact hold q hq fun ks hk => hks ⟨ks, hk⟩

end Tortoise.Lib.Forest
