import Tortoise.Tfs.Bmap

/-!
# Freeing part of a tree

`free_tree` works on a tree that its parent no longer vouches for: it frees blocks while the
block that points to them is still on the disk.  So its specification is about one tree by
itself (`Tree`), and says which nodes are left under the root it returns (`Cut`): of the leaves
those below `first`, and every block that is not left is free.

* `cut_entries`: the loop over the entries of a block, one subtree after the other.
* `freeTree_cut`: the whole function, by induction on the level.
-/

namespace Tortoise.DiskFs

open Lib.Forest List

/-- The entries of a way through a tree of `L` levels. -/
structure Path (L : Nat) (js : List Nat) : Prop where
  length : js.length ≤ L
  index : ∀ i ∈ js, i < nind

/-- The number of a leaf in its tree. -/
def leafIndex : List Nat → Nat
  | [] => 0
  | i :: js => i * nind ^ js.length + leafIndex js

/-- A tree by itself: its blocks are used, and none is in it twice. -/
structure Tree (t : Tfs) (b L : Nat) : Prop where
  used : ∀ js, Path L js → follow (ptrs t) b js ≠ 0 →
    DataBlock t (follow (ptrs t) b js) ∧ marked t (follow (ptrs t) b js) = true
  inj : ∀ js ks, Path L js → Path L ks → follow (ptrs t) b js ≠ 0 →
    follow (ptrs t) b js = follow (ptrs t) b ks → js = ks

/-- The tree at `b` became the tree at `b'`: leaves from `first` on are gone, and the bitmap says
of each old block whether it is left. -/
structure Cut (t t' : Tfs) (b L first b' : Nat) : Prop where
  like : Like t t'
  count : Counted t'
  blocks : ∀ c, InodeBlock t c ∨ DataBlock t c →
    (∀ js, Path L js → js.length < L → follow (ptrs t) b js ≠ c) → block t' c = block t c
  marks : ∀ c < t.total, (∀ js, Path L js → follow (ptrs t) b js ≠ c) → marked t' c = marked t c
  nodes : ∀ js, Path L js →
    follow (ptrs t') b' js = follow (ptrs t) b js ∨ follow (ptrs t') b' js = 0
  leaves : ∀ js, Path L js → js.length = L →
    follow (ptrs t') b' js = if leafIndex js < first then follow (ptrs t) b js else 0
  left : ∀ js, Path L js → follow (ptrs t) b js ≠ 0 →
    marked t' (follow (ptrs t) b js) = decide (follow (ptrs t') b' js ≠ 0)

variable {t t' t1 t2 : Tfs} {b b' c v v' i m L first span : Nat} {js ks : List Nat} {buf : Block}

theorem Path.cons (hi : i < nind) (h : Path L js) : Path (L + 1) (i :: js) :=
  ⟨by simpa using h.length, forall_mem_cons.2 ⟨hi, h.index⟩⟩

theorem Path.tail (h : Path (L + 1) (i :: js)) : i < nind ∧ Path L js :=
  ⟨h.index i (mem_cons_self ..), by simpa using h.length, fun k hk =>
    h.index k (mem_cons_of_mem _ hk)⟩

theorem Path.of_append (h : Path L (js ++ ks)) : Path L js :=
  ⟨by
    have := h.length
    rw [length_append] at this
    omega, fun k hk => h.index k (mem_append_left _ hk)⟩

theorem Path.nil : Path L [] := ⟨Nat.zero_le _, nofun⟩

/-- Where the blocks of pointers on the way are as before, so is the way. -/
theorem Path.follow_eq (hj : Path L js) (hl : Like t t')
    (h : ∀ ks, Path L ks → ks.length < L → follow (ptrs t) b ks ≠ 0 →
      DataBlock t (follow (ptrs t) b ks) ∧
        block t' (follow (ptrs t) b ks) = block t (follow (ptrs t) b ks)) :
    follow (ptrs t') b js = follow (ptrs t) b js := by
  apply follow_congr
  rintro ks k rs rfl hne
  have hlen := hj.length
  rw [length_append, length_cons] at hlen
  obtain ⟨hd, hb⟩ := h ks hj.of_append (by omega) hne
  rw [ptrs_of_lt hd.2, ptrs_of_lt (hl.total ▸ hd.2), hb]

theorem leafIndex_lt (h : Path L js) : leafIndex js < nind ^ js.length := by
  induction js generalizing L with
  | nil => simp [leafIndex]
  | cons i js ih =>
    have hi : i < nind := h.index i (mem_cons_self ..)
    have hjs : Path js.length js := ⟨le_rfl, fun k hk => h.index k (mem_cons_of_mem _ hk)⟩
    have hlt := ih hjs
    rw [leafIndex, length_cons, pow_succ]
    calc i * nind ^ js.length + leafIndex js < i * nind ^ js.length + nind ^ js.length := by omega
      _ = (i + 1) * nind ^ js.length := by ring
      _ ≤ nind * nind ^ js.length := Nat.mul_le_mul_right _ hi
      _ = nind ^ js.length * nind := Nat.mul_comm ..

theorem Tree.root (ht : Tree t b L) (hb : b ≠ 0) : DataBlock t b ∧ marked t b = true :=
  ht.used [] Path.nil hb

/-! ## Simple cuts -/

theorem Cut.none (hc : Counted t) : Cut t t 0 L first 0 where
  like := Like.refl t
  count := hc
  blocks _ _ _ := rfl
  marks _ _ _ := rfl
  nodes js _ := .inl rfl
  leaves js _ _ := by simp
  left js _ h := by simp at h

theorem Cut.all (ht : Tree t b L) (hc : Counted t) (h : nind ^ L ≤ first) : Cut t t b L first b where
  like := Like.refl t
  count := hc
  blocks _ _ _ := rfl
  marks _ _ _ := rfl
  nodes js _ := .inl rfl
  leaves js hp hlen := by
    have := leafIndex_lt hp
    rw [hlen] at this
    rw [if_pos (by omega)]
  left js hp hne := by rw [(ht.used js hp hne).2, decide_eq_true hne]

/-- A tree of one block is freed. -/
theorem Cut.leaf (g : Geometry t) (hc : Counted t) (ht : Tree t b 0) (hb : b ≠ 0) :
    Cut t (bfree t b) b 0 0 0 := by
  obtain ⟨hd, hm⟩ := ht.root hb
  have hf := bfree_spec g hd hm
  have hnil : ∀ {js}, Path 0 js → js = [] := fun h => length_eq_zero_iff.1 (Nat.le_zero.1 h.length)
  refine ⟨hf.like, hf.counted hd hm hc, fun c hcb _ => hf.others c hcb, ?_, ?_, ?_, ?_⟩
  · intro c hlt hne
    have hcb : c ≠ b := fun h => hne [] Path.nil h.symm
    rw [hf.marks c hlt]
    simp [hcb]
  · intro js hp
    exact .inr follow_zero
  · intro js hp _
    simp
  · intro js hp _
    rw [hnil hp, follow_nil, follow_nil, hf.marks b hd.2]
    simp

/-! ## The entries of a block -/

/-- After the entries below `m` of block `b`: their trees are cut, and `buf` holds what is left. -/
structure Mid (t t' : Tfs) (b L first : Nat) (buf : Block) (m : Nat) : Prop where
  like : Like t t'
  count : Counted t'
  blocks : ∀ c, InodeBlock t c ∨ DataBlock t c →
    (∀ i < m, ∀ js, Path L js → js.length < L → follow (ptrs t) b (i :: js) ≠ c) →
    block t' c = block t c
  marks : ∀ c < t.total,
    (∀ i < m, ∀ js, Path L js → follow (ptrs t) b (i :: js) ≠ c) → marked t' c = marked t c
  rest : ∀ i, m ≤ i → word buf i = word (block t b) i
  nodes : ∀ i < m, ∀ js, Path L js →
    follow (ptrs t') (word buf i).toNat js = follow (ptrs t) b (i :: js) ∨
      follow (ptrs t') (word buf i).toNat js = 0
  leaves : ∀ i < m, ∀ js, Path L js → js.length = L →
    follow (ptrs t') (word buf i).toNat js =
      if leafIndex (i :: js) < first then follow (ptrs t) b (i :: js) else 0
  left : ∀ i < m, ∀ js, Path L js → follow (ptrs t) b (i :: js) ≠ 0 →
    marked t' (follow (ptrs t) b (i :: js)) =
      decide (follow (ptrs t') (word buf i).toNat js ≠ 0)

theorem Mid.start (hc : Counted t) : Mid t t b L first (block t b) 0 :=
  ⟨Like.refl t, hc, fun _ _ _ => rfl, fun _ _ _ => rfl, fun _ _ => rfl, nofun, nofun, nofun⟩

section

variable (ht : Tree t b (L + 1)) (hb : b ≠ 0)

include ht hb

theorem Tree.follow_entry (i : Nat) (js : List Nat) :
    follow (ptrs t) b (i :: js) = follow (ptrs t) (word (block t b) i).toNat js := by
  rw [follow_cons hb, ptrs_of_lt (ht.root hb).1.2]

omit hb in
theorem Tree.entries_apart (hi : i < nind) (hm : m < nind) (hne : i ≠ m) (hj : Path L js)
    (hk : Path L ks) (hz : follow (ptrs t) b (i :: js) ≠ 0) :
    follow (ptrs t) b (i :: js) ≠ follow (ptrs t) b (m :: ks) := by
  intro he
  have := ht.inj _ _ (hj.cons hi) (hk.cons hm) hz he
  exact hne (List.cons.inj this).1

/-- The next entry's tree is still as it was. -/
theorem Mid.tree (h : Mid t t1 b L first buf m) (hm : m < nind) :
    (∀ js, Path L js → follow (ptrs t1) (word buf m).toNat js = follow (ptrs t) b (m :: js)) ∧
      Tree t1 (word buf m).toNat L := by
  have hsame : ∀ js, Path L js →
      follow (ptrs t1) (word buf m).toNat js = follow (ptrs t) b (m :: js) := by
    intro js hj
    rw [ht.follow_entry hb, h.rest m le_rfl]
    refine hj.follow_eq h.like fun ks hk _ hne => ?_
    rw [← ht.follow_entry hb m ks] at hne ⊢
    obtain ⟨hd, -⟩ := ht.used _ (hk.cons hm) hne
    refine ⟨hd, h.blocks _ (.inr hd) ?_⟩
    intro i hi js' hj' _ he
    exact ht.entries_apart hm (by omega) (by omega) hk hj' hne he.symm
  refine ⟨hsame, ?_, ?_⟩
  · intro js hj hne
    rw [hsame js hj] at hne ⊢
    obtain ⟨hd, hmk⟩ := ht.used _ (hj.cons hm) hne
    refine ⟨h.like.dataBlock.2 hd, ?_⟩
    rw [h.marks _ hd.2, hmk]
    intro i hi js' hj' he
    exact ht.entries_apart hm (by omega) (by omega) hj hj' hne he.symm
  · intro js ks hj hk hne he
    rw [hsame js hj] at hne he
    rw [hsame ks hk] at he
    exact (List.cons.inj (ht.inj _ _ (hj.cons hm) (hk.cons hm) hne he)).2

/-- The tree of the next entry is cut. -/
theorem Mid.step (h : Mid t t1 b L first buf m) (hm : m < nind)
    (hcut : Cut t1 t2 (word buf m).toNat L (first - m * nind ^ L) v') {buf' : Block}
    (hv : (word buf' m).toNat = v') (hbuf : ∀ i, i ≠ m → word buf' i = word buf i) :
    Mid t t2 b L first buf' (m + 1) := by
  obtain ⟨hsame, htree⟩ := h.tree ht hb hm
  -- what is left under an earlier entry is out of reach of the cut
  have hold : ∀ i < m, ∀ js, Path L js → follow (ptrs t2) (word buf i).toNat js =
      follow (ptrs t1) (word buf i).toNat js := by
    intro i hi js hj
    refine hj.follow_eq hcut.like fun ks hk _ hne => ?_
    have hnode := (h.nodes i hi ks hk).resolve_right hne
    rw [hnode] at hne ⊢
    have hd := h.like.dataBlock.2 (ht.used _ (hk.cons (by omega : i < nind)) hne).1
    refine ⟨hd, hcut.blocks _ (.inr hd) ?_⟩
    intro js' hj' _ he
    rw [hsame js' hj'] at he
    exact ht.entries_apart (by omega) hm (by omega) hk hj' hne he.symm
  have hword : ∀ i < m, word buf' i = word buf i := fun i hi => hbuf i (by omega)
  have hcase : ∀ {i}, i < m + 1 → i < m ∨ i = m := fun h => by omega
  refine ⟨h.like.trans hcut.like, hcut.count, ?_, ?_, ?_, ?_, ?_, ?_⟩
  · intro c hc hno
    rw [hcut.blocks c (by rwa [h.like.inodeBlock, h.like.dataBlock]) ?_, h.blocks c hc ?_]
    · intro i hi js hj hl
      exact hno i (by omega) js hj hl
    · intro js hj hl
      rw [hsame js hj]
      exact hno m (by omega) js hj hl
  · intro c hc hno
    rw [hcut.marks c (h.like.total ▸ hc) ?_, h.marks c hc ?_]
    · intro i hi js hj
      exact hno i (by omega) js hj
    · intro js hj
      rw [hsame js hj]
      exact hno m (by omega) js hj
  · intro i hi
    rw [hbuf i (by omega), h.rest i (by omega)]
  · intro i hi js hj
    rcases hcase hi with hi | rfl
    · rw [hword i hi, hold i hi js hj]
      exact h.nodes i hi js hj
    · rw [hv, ← hsame js hj]
      exact hcut.nodes js hj
  · intro i hi js hj hl
    rcases hcase hi with hi | rfl
    · rw [hword i hi, hold i hi js hj]
      exact h.leaves i hi js hj hl
    · rw [hv, ← hsame js hj, hcut.leaves js hj hl]
      refine if_congr ?_ rfl rfl
      rw [leafIndex, hl]
      omega
  · intro i hi js hj hne
    rcases hcase hi with hi | rfl
    · rw [hword i hi, hold i hi js hj, ← h.left i hi js hj hne]
      obtain ⟨hd, -⟩ := ht.used _ (hj.cons (by omega : i < nind)) hne
      refine hcut.marks _ (h.like.total ▸ hd.2) ?_
      intro js' hj' he
      rw [hsame js' hj'] at he
      exact ht.entries_apart (by omega) hm (by omega) hj hj' hne he.symm
    · rw [hv, ← hsame js hj]
      refine hcut.left js hj ?_
      rw [hsame js hj]
      exact hne

/-! ## The function -/

/-- What a call for the level below has to do. -/
def Cuts (sub : Tfs → Nat → Nat → Tfs × Bool) (L : Nat) : Prop :=
  ∀ t b first, Geometry t → Counted t → Tree t b L →
    Cut t (sub t b first).1 b L first (if (sub t b first).2 then b else 0)

theorem freeEntry_step {sub : Option (Tfs → Nat → Nat → Tfs × Bool)}
    (hsub : match sub with | none => L = 0 | some f => Cuts f L) {keep : Bool} (g : Geometry t)
    (h : Mid t t1 b L first buf m) (hm : m < nind) (hkeep : keep = true ↔ ∃ i < m, word buf i ≠ 0) :
    ∃ t2 buf' keep', freeEntry (nind ^ L) first sub (t1, buf, keep) m = (t2, buf', keep') ∧
      Mid t t2 b L first buf' (m + 1) ∧ (keep' = true ↔ ∃ i < m + 1, word buf' i ≠ 0) := by
  obtain ⟨hsame, htree⟩ := h.tree ht hb hm
  have g1 := g.like h.like
  have hword0 : ∀ {w : Word}, w.toNat = 0 ↔ w = 0 := fun {w} => by
    rw [← BitVec.toNat_inj]
    rfl
  -- the entry stays
  have hstay : ∀ t2, Cut t1 t2 (word buf m).toNat L (first - m * nind ^ L) (word buf m).toNat →
      word buf m ≠ 0 → Mid t t2 b L first buf (m + 1) ∧
        (true = true ↔ ∃ i < m + 1, word buf i ≠ 0) := by
    intro t2 hcut hne
    exact ⟨h.step ht hb hm hcut rfl fun _ _ => rfl, fun _ => ⟨m, by omega, hne⟩, fun _ => rfl⟩
  -- the entry goes
  have hgo : ∀ t2 buf', Cut t1 t2 (word buf m).toNat L (first - m * nind ^ L) 0 →
      word buf' m = 0 → (∀ i, i ≠ m → word buf' i = word buf i) →
      Mid t t2 b L first buf' (m + 1) ∧ (keep = true ↔ ∃ i < m + 1, word buf' i ≠ 0) := by
    intro t2 buf' hcut h0 hbuf
    refine ⟨h.step ht hb hm hcut (hword0.2 h0) hbuf, ?_⟩
    rw [hkeep]
    constructor
    · rintro ⟨i, hi, hne⟩
      exact ⟨i, by omega, by rwa [hbuf i (by omega)]⟩
    · rintro ⟨i, hi, hne⟩
      have him : i ≠ m := fun him => hne (him ▸ h0)
      exact ⟨i, by omega, by rwa [hbuf i him] at hne⟩
  have hclear := fun t2 hcut =>
    hgo t2 (setWord buf m 0) hcut word_setWord_self fun i hi => word_setWord_ne hi
  unfold freeEntry
  simp only
  by_cases hz : (word buf m).toNat = 0
  · rw [if_pos hz]
    exact ⟨t1, buf, keep, rfl, hgo t1 buf (by rw [hz]; exact Cut.none h.count) (hword0.1 hz)
      fun _ _ => rfl⟩
  rw [if_neg hz]
  have hne : word buf m ≠ 0 := fun h => hz (hword0.2 h)
  by_cases hspan : m * nind ^ L + nind ^ L ≤ first
  · rw [if_pos hspan]
    exact ⟨t1, buf, true, rfl, hstay t1 (Cut.all htree h.count (by omega)) hne⟩
  rw [if_neg hspan]
  cases sub with
  | some f =>
    have hcut := hsub t1 (word buf m).toNat (first - m * nind ^ L) g1 h.count htree
    simp only
    cases hk : (f t1 (word buf m).toNat (first - m * nind ^ L)).2 with
    | true =>
      rw [hk, if_pos rfl] at hcut
      exact ⟨_, buf, true, by simp, hstay _ hcut hne⟩
    | false =>
      rw [hk, if_neg (by decide)] at hcut
      exact ⟨_, setWord buf m 0, keep, by simp, hclear _ hcut⟩
  | none =>
    -- at the lowest level a leaf below `first` was kept above
    have hL : L = 0 := hsub
    subst hL
    simp only [pow_zero, Nat.mul_one] at hspan hclear ⊢
    rw [if_neg (by omega)]
    refine ⟨bfree t1 (word buf m).toNat, setWord buf m 0, keep, rfl, hclear _ ?_⟩
    have h0 : first - m = 0 := by omega
    rw [h0]
    exact Cut.leaf g1 h.count htree hz

/-- **The loop of `free_tree`** cuts the trees of all entries. -/
theorem cut_entries {sub : Option (Tfs → Nat → Nat → Tfs × Bool)}
    (hsub : match sub with | none => L = 0 | some f => Cuts f L) (g : Geometry t) (hc : Counted t)
    (first m : Nat) (hm : m ≤ nind) :
    ∃ t1 buf keep, (List.range m).foldl (freeEntry (nind ^ L) first sub) (t, block t b, false) =
        (t1, buf, keep) ∧
      Mid t t1 b L first buf m ∧ (keep = true ↔ ∃ i < m, word buf i ≠ 0) := by
  induction m with
  | zero => exact ⟨t, block t b, false, rfl, Mid.start hc, by simp⟩
  | succ m ih =>
    obtain ⟨t1, buf, keep, hfold, hmid, hkeep⟩ := ih (by omega)
    rw [range_succ, foldl_append, hfold]
    exact freeEntry_step ht hb hsub g hmid (by omega) hkeep

/-- Under the entries of a block the block itself does not come again. -/
theorem Tree.entry_ne (hi : i < nind) (hj : Path L js) : follow (ptrs t) b (i :: js) ≠ b := by
  intro he
  have := ht.inj [] (i :: js) Path.nil (hj.cons hi) hb he.symm
  cases this

/-- The entries that are left are written back. -/
theorem Mid.keep (h : Mid t t1 b L first buf nind) (g : Geometry t) :
    Cut t (setBlock t1 b buf) b (L + 1) first b := by
  obtain ⟨hd, hm⟩ := ht.root hb
  have g1 := g.like h.like
  have hd1 := h.like.dataBlock.2 hd
  have hroot : ∀ i, ptrs (setBlock t1 b buf) b i = (word buf i).toNat := by
    intro i
    have hlt : b < (setBlock t1 b buf).total := hd1.2
    rw [ptrs_of_lt hlt, block_setBlock_self]
  -- below the block nothing has changed
  have hsame : ∀ i, i < nind → ∀ js, Path L js →
      follow (ptrs (setBlock t1 b buf)) b (i :: js) = follow (ptrs t1) (word buf i).toNat js := by
    intro i hi js hj
    rw [follow_cons hb, hroot]
    refine hj.follow_eq Like.setBlock fun ks hk _ hne => ?_
    have hnode := (h.nodes i hi ks hk).resolve_right hne
    rw [hnode] at hne ⊢
    have hdk := h.like.dataBlock.2 (ht.used _ (hk.cons hi) hne).1
    exact ⟨hdk, g1.block_setBlock_ne hd1.2 hdk.2 (ht.entry_ne hb hi hk)⟩
  have hmark : ∀ c < t.total, marked (setBlock t1 b buf) c = marked t1 c := fun c hc =>
    g1.marked_setBlock hd1 (h.like.total ▸ hc)
  refine ⟨h.like.trans Like.setBlock, h.count.congr Like.setBlock rfl fun c hc =>
    hmark c (h.like.total ▸ hc), ?_, ?_, ?_, ?_, ?_⟩
  · intro c hc hno
    have hcb : c ≠ b := fun he => hno [] Path.nil (by simp) he.symm
    have hclt : c < t1.total := h.like.total ▸ hc.elim g.inodeBlock_lt fun h => h.2
    rw [g1.block_setBlock_ne hd1.2 hclt hcb, h.blocks c hc]
    intro i hi js hj hl
    exact hno (i :: js) (hj.cons hi) (by simpa using hl)
  · intro c hc hno
    rw [hmark c hc, h.marks c hc]
    intro i hi js hj
    exact hno (i :: js) (hj.cons hi)
  · intro js hj
    cases js with
    | nil => exact .inl rfl
    | cons i js =>
      obtain ⟨hi, hj⟩ := hj.tail
      rw [hsame i hi js hj]
      exact h.nodes i hi js hj
  · intro js hj hl
    cases js with
    | nil => cases hl
    | cons i js =>
      obtain ⟨hi, hj⟩ := hj.tail
      rw [hsame i hi js hj]
      exact h.leaves i hi js hj (by simpa using hl)
  · intro js hj hne
    rw [hmark _ (ht.used js hj hne).1.2]
    cases js with
    | nil =>
      rw [follow_nil, follow_nil, decide_eq_true hb, h.marks b hd.2, hm]
      intro i hi js hj
      exact ht.entry_ne hb hi hj
    | cons i js =>
      obtain ⟨hi, hj⟩ := hj.tail
      rw [hsame i hi js hj]
      exact h.left i hi js hj hne

/-- Nothing is left: the block is freed as well. -/
theorem Mid.drop (h : Mid t t1 b L first buf nind) (g : Geometry t)
    (hz : ∀ i < nind, word buf i = 0) : Cut t (bfree t1 b) b (L + 1) first 0 := by
  obtain ⟨hd, hm⟩ := ht.root hb
  have g1 := g.like h.like
  have hd1 := h.like.dataBlock.2 hd
  have hm1 : marked t1 b = true := by
    rw [h.marks b hd.2, hm]
    intro i hi js hj
    exact ht.entry_ne hb hi hj
  have hf := bfree_spec g1 hd1 hm1
  have hmark : ∀ c < t.total, marked (bfree t1 b) c = (!decide (c = b) && marked t1 c) := fun c hc =>
    hf.marks c (h.like.total ▸ hc)
  have hempty : ∀ i < nind, ∀ js, follow (ptrs t1) (word buf i).toNat js = 0 := by
    intro i hi js
    rw [hz i hi]
    exact follow_zero
  refine ⟨h.like.trans hf.like, hf.counted hd1 hm1 h.count, ?_, ?_, fun _ _ => .inr follow_zero, ?_, ?_⟩
  · intro c hc hno
    rw [hf.others c (by rwa [h.like.inodeBlock, h.like.dataBlock]), h.blocks c hc]
    intro i hi js hj hl
    exact hno (i :: js) (hj.cons hi) (by simpa using hl)
  · intro c hc hno
    have hcb : c ≠ b := fun he => hno [] Path.nil he.symm
    rw [hmark c hc, h.marks c hc]
    · simp [hcb]
    · intro i hi js hj
      exact hno (i :: js) (hj.cons hi)
  · intro js hj hl
    cases js with
    | nil => cases hl
    | cons i js =>
      obtain ⟨hi, hj⟩ := hj.tail
      rw [← h.leaves i hi js hj (by simpa using hl), hempty i hi js, follow_zero]
  · intro js hj hne
    rw [hmark _ (ht.used js hj hne).1.2, follow_zero]
    cases js with
    | nil => simp
    | cons i js =>
      obtain ⟨hi, hj⟩ := hj.tail
      rw [h.left i hi js hj hne, hempty i hi js]
      simp

end

theorem freeNode_cut (sub : Option (Tfs → Nat → Nat → Tfs × Bool))
    (hsub : match sub with | none => L = 0 | some f => Cuts f L) :
    Cuts (freeNode (nind ^ L) sub) (L + 1) := by
  intro t b first g hc ht
  by_cases hb : b = 0
  · subst hb
    exact Cut.none hc
  obtain ⟨t1, buf, keep, hfold, hmid, hkeep⟩ := cut_entries ht hb hsub g hc first nind
    (le_refl nind)
  have hnode : freeNode (nind ^ L) sub t b first =
      if keep then (bwrite' t1 b buf, true) else (bfree t1 b, false) := by
    unfold freeNode
    rw [if_neg hb, g.bread (ht.root hb).1.2]
    simp only [hfold]
  rw [hnode]
  have hlt : b < t1.total := hmid.like.total ▸ (ht.root hb).1.2
  cases keep with
  | true =>
    simp only [if_true]
    rw [(g.like hmid.like).bwrite' hlt]
    exact hmid.keep ht hb g
  | false =>
    simp only [Bool.false_eq_true, if_false]
    refine hmid.drop ht hb g ?_
    intro i hi
    by_contra hne
    exact absurd (hkeep.2 ⟨i, hi, hne⟩) (by decide)

/-- **`free_tree`** leaves of a tree exactly the leaves below `first`, and frees every block that
is not left. -/
theorem freeTree_cut (level : Nat) : Cuts (freeTree level) (level + 1) := by
  induction level with
  | zero =>
    have h : Cuts (freeNode (nind ^ 0) none) 1 := freeNode_cut none rfl
    rw [pow_zero] at h
    exact h
  | succ level ih => exact freeNode_cut (some (freeTree level)) ih

end Tortoise.DiskFs
