import Tortoise.Lib.Forest
import Tortoise.Tfs.Blocks

/-!
# The trees of the files

The blocks of all files form one forest: the roots are the fifteen pointers of each inode,
and file block `fb` is the leaf at `place fb`.  A state is `Sound` when its bitmap and its
count are right and no block is at two places.

The inodes are given as a family `J`, since `bmap` works on a copy of one of them; for the
others the family has what is on the disk (`OnDisk`).

* `bmap_read`: without allocation `bmap` returns the block of the file and changes nothing.
* `bmap_spec`: with allocation it keeps the state sound and every byte of every file, and it
  has a block exactly if the blocks missing on the way can be had (`Fits`).
* `Sound.write`: writing a block of a file changes those bytes of that file only.
-/

namespace Tortoise.DiskFs

open Function Lib.Forest

/-! ## The forest -/

/-- The pointers in the blocks. -/
def ptrs (t : Tfs) : Store := fun b i => if b < t.total then (word (block t b) i).toNat else 0

/-- A root: an inode and the index of one of its pointers. -/
abbrev Root := Nat × Nat

/-- The levels of pointer blocks below a root: none for the twelve direct pointers, then one,
two and three. -/
def levels (r : Root) : Nat := r.2 - 11

/-- Where the roots point. -/
def roots (t : Tfs) (J : Nat → TInode) : Root → Nat := fun r =>
  if 0 < r.1 ∧ r.1 < t.ninodes ∧ r.2 < 15 then (J r.1 (iDirect + r.2)).toNat else 0

abbrev Place (p : Root × List Nat) : Prop := Valid levels nind p

/-- The block at a place, `0` for none. -/
abbrev nodeAt (t : Tfs) (J : Nat → TInode) (p : Root × List Nat) : Nat :=
  node (ptrs t) (roots t J) p

/-- The bitmap, its count and the trees fit together. -/
structure Sound (t : Tfs) (J : Nat → TInode) : Prop where
  geo : Geometry t
  count : Counted t
  apart : Apart levels nind (ptrs t) (roots t J)
  used : ∀ p, Place p → nodeAt t J p ≠ 0 →
    DataBlock t (nodeAt t J p) ∧ marked t (nodeAt t J p) = true

/-- The place of file block `fb`. -/
def place (fb : Nat) : Option (Nat × List Nat) :=
  if fb < 12 then some (fb, [])
  else if fb < 140 then some (12, [fb - 12])
  else if fb < 16524 then some (13, [(fb - 140) / 128, (fb - 140) % 128])
  else if fb < 2113676 then
    some (14, [(fb - 16524) / 16384, (fb - 16524) / 128 % 128, (fb - 16524) % 128])
  else none

/-- The block that holds file block `fb` of inode `n`, `0` for a hole. -/
def blockOf (t : Tfs) (J : Nat → TInode) (n fb : Nat) : Nat :=
  match place fb with
  | none => 0
  | some (s, is) => nodeAt t J ((n, s), is)

/-- Byte `x` of a file, as if it went on with zeros for ever. -/
def content (t : Tfs) (J : Nat → TInode) (n x : Nat) : Byte :=
  if blockOf t J n (x / bsize) = 0 then 0 else block t (blockOf t J n (x / bsize)) (x % bsize)

variable {t t' t'' t1 : Tfs} {J J' : Nat → TInode} {b c i n ino fb v s x : Nat} {is js : List Nat}
  {p q : Root × List Nat} {ip : TInode} {buf : Block}

theorem ptrs_of_lt (h : b < t.total) : ptrs t b i = (word (block t b) i).toNat := if_pos h

theorem place_valid (h : place fb = some (s, is)) :
    s < 15 ∧ is.length = levels (n, s) ∧ Place ((n, s), is) := by
  unfold place at h
  split_ifs at h with h1 h2 h3 h4 <;> cases h
  · refine ⟨by omega, ?_, ?_, by simp⟩
    · simp only [levels, List.length_nil]
      omega
    · simp
  -- below one, two or three indirect blocks
  all_goals
    refine ⟨by omega, by simp [levels], ⟨by simp [levels], ?_⟩⟩
    simp only [List.mem_cons, List.not_mem_nil, or_false, nind]
    intro i hi
    omega

theorem place_inj {fb' : Nat} (h : place fb = some (s, is)) (h' : place fb' = some (s, is)) :
    fb = fb' := by
  unfold place at h h'
  split_ifs at h h' <;> cases h <;> simp only [Option.some.injEq, Prod.mk.injEq, List.cons.injEq,
    reduceCtorEq, and_true, and_false] at h' <;> omega

theorem place_none (h : 2113676 ≤ fb) : place fb = none := by
  unfold place
  rw [if_neg (by omega), if_neg (by omega), if_neg (by omega), if_neg (by omega)]

/-- The places of the files are where the trees end. -/
theorem ne_of_short (h : place fb = some (s, is)) (hq : q.2.length < levels q.1) :
    q ≠ ((n, s), is) := by
  rintro rfl
  have := (place_valid (n := n) h).2.1
  simp only at hq
  omega

/-! ## What the forest depends on -/

theorem roots_congr (hl : Like t t')
    (h : ∀ n, Ino t n → ∀ s < 15, J' n (iDirect + s) = J n (iDirect + s)) :
    roots t' J' = roots t J := by
  funext r
  unfold roots
  rw [hl.ninodes]
  by_cases hr : 0 < r.1 ∧ r.1 < t.ninodes ∧ r.2 < 15
  · rw [if_pos hr, if_pos hr, h r.1 ⟨hr.1, hr.2.1⟩ r.2 hr.2.2]
  · rw [if_neg hr, if_neg hr]

theorem Sound.ne_zero (hs : Sound t J) (hp : Place p) (h : nodeAt t J p ≠ 0) :
    nodeAt t J p < t.total :=
  (hs.used p hp h).1.2

/-- Where the blocks of pointers are as before, so is the forest. -/
theorem nodeAt_of_agree (hs : Sound t J) (hl : Like t t')
    (h : ∀ q, Place q → q.2.length < levels q.1 → nodeAt t J q ≠ 0 →
      block t' (nodeAt t J q) = block t (nodeAt t J q)) (hp : Place p) :
    nodeAt t' J p = nodeAt t J p := by
  have hr : roots t' J = roots t J := roots_congr hl fun _ _ _ _ => rfl
  unfold nodeAt
  rw [hr]
  refine node_of_agree ?_ hp
  intro q hq hlen hne i _
  have hlt := hs.ne_zero hq hne
  rw [ptrs_of_lt hlt, ptrs_of_lt (hl.total ▸ hlt), h q hq hlen hne]

/-- Where nothing moves and what is left stays marked, the forest stays sound. -/
theorem Sound.of_nodes (hs : Sound t J) (hl : Like t t') (hc : Counted t')
    (hnode : ∀ p, Place p → nodeAt t' J' p ≠ 0 → nodeAt t' J' p = nodeAt t J p)
    (hmark : ∀ p, Place p → nodeAt t' J' p ≠ 0 → nodeAt t J p < t.total →
      marked t (nodeAt t J p) = true → marked t' (nodeAt t J p) = true) : Sound t' J' := by
  refine ⟨hs.geo.like hl, hc, fun p q hp hq hne he => ?_, fun p hp hne => ?_⟩
  · have h1 := hnode p hp hne
    have h2 := hnode q hq (he.symm.trans_ne hne)
    exact hs.apart p q hp hq (h1.symm.trans_ne hne) (h1.symm.trans (he.trans h2))
  · have h1 := hnode p hp hne
    obtain ⟨hd, hm⟩ := hs.used p hp (h1.symm.trans_ne hne)
    rw [h1]
    exact ⟨hl.dataBlock.2 hd, hmark p hp hne hd.2 hm⟩

theorem Taken.nodeAt (ht : Taken t t' v) (hs : Sound t J) (hp : Place p) :
    nodeAt t' J p = nodeAt t J p := by
  refine nodeAt_of_agree hs ht.like ?_ hp
  intro q hq _ hne
  obtain ⟨hd, hm⟩ := hs.used q hq hne
  refine ht.others _ (.inr hd) ?_
  rintro heq
  rw [heq, ht.was] at hm
  cases hm

theorem Taken.fresh (ht : Taken t t' v) (hs : Sound t J) (hp : Place p) : DiskFs.nodeAt t J p ≠ v := by
  intro heq
  have hv : v ≠ 0 := hs.geo.dataBlock_pos ht.data
  obtain ⟨_, hm⟩ := hs.used p hp (heq ▸ hv)
  rw [heq, ht.was] at hm
  cases hm

theorem Taken.sound (ht : Taken t t' v) (hs : Sound t J) : Sound t' J :=
  hs.of_nodes ht.like (ht.counted hs.count) (fun p hp _ => ht.nodeAt hs hp) fun p _ _ hlt hm => by
    rw [ht.marks _ hlt, hm, Bool.or_true]

/-! ## Growth -/

/-- The forest may have grown: nothing moved, and every byte of every file is as before. -/
structure Extends (t : Tfs) (J : Nat → TInode) (t' : Tfs) (J' : Nat → TInode) : Prop where
  like : Like t t'
  sound : Sound t' J'
  keeps : ∀ p, Place p → nodeAt t J p ≠ 0 → nodeAt t' J' p = nodeAt t J p
  content : ∀ n x, content t' J' n x = content t J n x
  inodes : ∀ c, InodeBlock t c → block t' c = block t c

/-- One place, empty before, has the new empty block `v`. -/
structure Grown (t : Tfs) (J : Nat → TInode) (t' : Tfs) (J' : Nat → TInode)
    (p : Root × List Nat) (v : Nat) : Prop extends Extends t J t' J' where
  here : nodeAt t' J' p = v
  pos : v ≠ 0
  empty : ∀ i < nind, ptrs t' v i = 0
  count : t'.freeBlocks = t.freeBlocks - 1

theorem Extends.refl (hs : Sound t J) : Extends t J t J :=
  ⟨Like.refl t, hs, fun _ _ _ => rfl, fun _ _ => rfl, fun _ _ => rfl⟩

theorem Extends.trans {J'' : Nat → TInode} (h : Extends t J t' J') (h' : Extends t' J' t'' J'') :
    Extends t J t'' J'' where
  like := h.like.trans h'.like
  sound := h'.sound
  keeps p hp hne := by
    have h1 := h.keeps p hp hne
    rw [h'.keeps p hp (h1 ▸ hne), h1]
  content n x := (h'.content n x).trans (h.content n x)
  inodes c hc := (h'.inodes c (h.like.inodeBlock.2 hc)).trans (h.inodes c hc)

theorem content_eq (h : place (x / bsize) = some (s, is)) :
    content t J n x = if nodeAt t J ((n, s), is) = 0 then 0
      else block t (nodeAt t J ((n, s), is)) (x % bsize) := by
  unfold content blockOf
  rw [h]

theorem content_of_none (h : place (x / bsize) = none) : content t J n x = 0 := by
  unfold content blockOf
  rw [h]
  exact if_pos rfl

/-- A block taken and hung at a place. -/
theorem Taken.grown (ht : Taken t t1 v) (hs : Sound t J) (hz : DiskFs.nodeAt t J p = 0)
    (hl : Like t1 t') (hpl : Planted levels nind (ptrs t1) (roots t1 J) (ptrs t') (roots t' J') p v)
    (hmarks : ∀ c < t.total, marked t' c = marked t1 c) (hfree : t'.freeBlocks = t1.freeBlocks)
    (hinodes : ∀ c, InodeBlock t c → block t' c = block t1 c) (hv : block t' v = fun _ => 0)
    (hleaf : ∀ q, Place q → q.2.length = levels q.1 → DiskFs.nodeAt t1 J q ≠ 0 →
      block t' (DiskFs.nodeAt t1 J q) = block t1 (DiskFs.nodeAt t1 J q)) : Grown t J t' J' p v := by
  have hs1 := ht.sound hs
  have hlike := ht.like.trans hl
  have hvpos : v ≠ 0 := hs.geo.dataBlock_pos ht.data
  have hnew : ∀ q, Place q → q ≠ p → DiskFs.nodeAt t' J' q = DiskFs.nodeAt t J q := fun q hq hqp =>
    (hpl.2 q hq hqp).trans (ht.nodeAt hs hq)
  have hfresh : ∀ q, Place q → node (ptrs t1) (roots t1 J) q ≠ v := fun q hq h =>
    ht.fresh hs hq ((ht.nodeAt hs hq).symm.trans h)
  have hsound : Sound t' J' := by
    refine ⟨hs.geo.like hlike, ?_, hs1.apart.plant hpl hfresh, ?_⟩
    · exact hs1.count.congr hl hfree fun c hc => hmarks c (ht.like.total ▸ hc)
    · intro q hq hne
      by_cases hqp : q = p
      · rw [hqp, show DiskFs.nodeAt t' J' p = v from hpl.1]
        refine ⟨hlike.dataBlock.2 ht.data, ?_⟩
        rw [hmarks v ht.data.2, ht.marks v ht.data.2, decide_eq_true rfl, Bool.true_or]
      · rw [hnew q hq hqp] at hne ⊢
        obtain ⟨hd, hm⟩ := hs.used q hq hne
        refine ⟨hlike.dataBlock.2 hd, ?_⟩
        rw [hmarks _ hd.2, ht.marks _ hd.2, hm, Bool.or_true]
  refine ⟨⟨hlike, hsound, ?_, ?_, ?_⟩, hpl.1, hvpos, ?_, hfree.trans ht.count⟩
  · intro q hq hne
    exact hnew q hq fun h => hne (h ▸ hz)
  · intro n x
    cases hpx : place (x / bsize) with
    | none => rw [content_of_none hpx, content_of_none hpx]
    | some si =>
      obtain ⟨s, is⟩ := si
      obtain ⟨-, hlen, hq⟩ := place_valid (n := n) hpx
      rw [content_eq hpx, content_eq hpx]
      by_cases hqp : ((n, s), is) = p
      · -- a hole became an empty block
        rw [hqp, hz, show DiskFs.nodeAt t' J' p = v from hpl.1, if_neg hvpos, if_pos rfl, hv]
      · rw [hnew _ hq hqp]
        by_cases hne : DiskFs.nodeAt t J ((n, s), is) = 0
        · rw [if_pos hne, if_pos hne]
        · rw [if_neg hne, if_neg hne]
          have h1 := ht.nodeAt hs hq
          have h2 := hleaf _ hq hlen (h1.symm ▸ hne)
          rw [h1] at h2
          rw [h2, ht.others _ (.inr (hs.used _ hq hne).1) (ht.fresh hs hq)]
  · intro c hc
    have hne : c ≠ v := fun h => hs.geo.not_inodeBlock ht.data (h ▸ hc)
    rw [hinodes c hc, ht.others c (.inl hc) hne]
  · intro i _
    rw [ptrs_of_lt (hlike.total.symm ▸ ht.data.2), hv, word_zero]
    rfl

/-- Root `s` of inode `ino` set to `v`. -/
def setSlot (J : Nat → TInode) (ino s v : Nat) : Nat → TInode :=
  update J ino (update (J ino) (iDirect + s) (BitVec.ofNat 32 v))

theorem roots_setSlot (hn : Ino t ino) (hs : s < 15) (hv : v < 4294967296) :
    roots t (setSlot J ino s v) = update (roots t J) (ino, s) v := by
  funext r
  obtain ⟨n, k⟩ := r
  by_cases hr : (n, k) = (ino, s)
  · obtain ⟨rfl, rfl⟩ := Prod.mk.inj hr
    rw [update_self]
    unfold roots setSlot
    rw [if_pos ⟨hn.1, hn.2, hs⟩]
    simp only [update_self, BitVec.toNat_ofNat]
    exact Nat.mod_eq_of_lt hv
  · rw [update_of_ne hr]
    unfold roots
    by_cases hn' : n = ino
    · subst hn'
      have hk : iDirect + k ≠ iDirect + s := by
        intro h
        exact hr (by rw [show k = s by omega])
      simp only [setSlot, update_self, update_of_ne hk]
    · simp only [setSlot, update_of_ne hn']

theorem Taken.grown_root (ht : Taken t t1 v) (hs : Sound t J) (hn : Ino t ino) (hsl : s < 15)
    (hz : roots t J (ino, s) = 0) : Grown t J t1 (setSlot J ino s v) ((ino, s), []) v := by
  have hv : v < 4294967296 := by
    have := hs.geo.count
    have := ht.data.2
    omega
  have hz1 : roots t1 J (ino, s) = 0 := by
    rw [roots_congr ht.like fun _ _ _ _ => rfl, hz]
  have hempty : ∀ i < nind, ptrs t1 v i = 0 := by
    intro i _
    rw [ptrs_of_lt (ht.like.total.symm ▸ ht.data.2), ht.empty, word_zero]
    rfl
  refine ht.grown hs hz (Like.refl t1) ?_ (fun _ _ => rfl) rfl (fun _ _ => rfl) ht.empty
    fun _ _ _ _ => rfl
  rw [roots_setSlot (ht.like.valid.2 hn) hsl hv]
  exact node_plantRoot hz1 hempty

theorem ptrs_setWord (g : Geometry t) (hb : b < t.total) (hv : v < 4294967296) :
    ptrs (setBlock t b (setWord (block t b) i (BitVec.ofNat 32 v))) = setEntry (ptrs t) b i v := by
  funext c j
  unfold setEntry
  by_cases hc : c < t.total
  · have hset : ptrs (setBlock t b (setWord (block t b) i (BitVec.ofNat 32 v))) c j =
        (word (block (setBlock t b (setWord (block t b) i (BitVec.ofNat 32 v))) c) j).toNat :=
      ptrs_of_lt hc
    rw [hset, ptrs_of_lt hc]
    by_cases hcb : c = b
    · subst hcb
      rw [block_setBlock_self]
      by_cases hj : j = i
      · subst hj
        rw [if_pos ⟨rfl, rfl⟩, word_setWord_self, BitVec.toNat_ofNat]
        exact Nat.mod_eq_of_lt hv
      · rw [if_neg (fun h => hj h.2), word_setWord_ne hj]
    · rw [if_neg (fun h => hcb h.1), g.block_setBlock_ne hb hc hcb]
  · have hcb : ¬(c = b ∧ j = i) := fun h => hc (h.1 ▸ hb)
    rw [if_neg hcb]
    exact (if_neg hc).trans (if_neg hc).symm

theorem Taken.grown_entry (ht : Taken t t1 v) (hs : Sound t J) (hp : Place p)
    (hlen : p.2.length < levels p.1) (hne : DiskFs.nodeAt t J p ≠ 0)
    (hz : ptrs t (DiskFs.nodeAt t J p) i = 0) :
    Grown t J (setBlock t1 (DiskFs.nodeAt t J p)
      (setWord (block t1 (DiskFs.nodeAt t J p)) i (BitVec.ofNat 32 v))) J (p.1, p.2 ++ [i]) v := by
  have hs1 := ht.sound hs
  have hv : v < 4294967296 := by
    have := hs.geo.count
    have := ht.data.2
    omega
  have hat : node (ptrs t1) (roots t1 J) p = DiskFs.nodeAt t J p := ht.nodeAt hs hp
  obtain ⟨hd, hm⟩ := hs.used p hp hne
  have hpv : DiskFs.nodeAt t J p ≠ v := ht.fresh hs hp
  have hblk : block t1 (DiskFs.nodeAt t J p) = block t (DiskFs.nodeAt t J p) :=
    ht.others _ (.inr hd) hpv
  have hlt1 : DiskFs.nodeAt t J p < t1.total := ht.like.total.symm ▸ hd.2
  have hz1 : ptrs t1 (DiskFs.nodeAt t J p) i = 0 := by
    rw [ptrs_of_lt hlt1, hblk, ← ptrs_of_lt hd.2, hz]
  have hempty : ∀ j < nind, ptrs t1 v j = 0 := by
    intro j _
    rw [ptrs_of_lt (ht.like.total.symm ▸ ht.data.2), ht.empty, word_zero]
    rfl
  have hzero : DiskFs.nodeAt t J (p.1, p.2 ++ [i]) = 0 := (follow_concat hne).trans hz
  have hne1 : node (ptrs t1) (roots t1 J) p ≠ 0 := hat.symm ▸ hne
  have hplant := node_plantEntry hs1.apart hp hne1 (hat.symm ▸ hz1) hempty (hat.symm ▸ hpv.symm)
  rw [hat] at hplant
  generalize DiskFs.nodeAt t J p = B at *
  have g1 := hs1.geo
  refine ht.grown hs hzero Like.setBlock ?_ ?_ rfl ?_ ?_ ?_
  · rw [ptrs_setWord g1 hlt1 hv]
    exact hplant
  · intro c hc
    exact g1.marked_setBlock (ht.like.dataBlock.2 hd) (ht.like.total.symm ▸ hc)
  · intro c hc
    have hc1 := ht.like.inodeBlock.2 hc
    refine g1.block_setBlock_ne hlt1 (g1.inodeBlock_lt hc1) ?_
    rintro rfl
    exact g1.not_inodeBlock (ht.like.dataBlock.2 hd) hc1
  · rw [g1.block_setBlock_ne hlt1 (ht.like.total.symm ▸ ht.data.2) hpv.symm]
    exact ht.empty
  · intro q hq hqlen hqne
    refine g1.block_setBlock_ne hlt1 (hs1.ne_zero hq hqne) ?_
    intro hqB
    have hqp : q = p := hs1.apart q p hq hp hqne (hqB.trans hat.symm)
    rw [hqp] at hqlen
    omega

end Tortoise.DiskFs
