import Tortoise.Lib.Bits
import Tortoise.Tfs.Model

/-!
# Blocks, inodes and the bitmap

What one transfer, one inode and one allocation do to the disk, in terms of the blocks of a
formatted disk (`Geometry`).

* `inodes_iput`: writing an inode back changes that inode and nothing else.
* `balloc_spec`: while blocks are free an allocation finds one, marks it and empties it; the
  search wraps around once, so it misses none.
* `bfree_spec`: freeing a used block clears its mark.
-/

namespace Tortoise.DiskFs

open Function BitVec

/-- The contents of a block. -/
def block (t : Tfs) (b : Nat) : Block := t.disk (sector b)

/-- How `mkfs` lays out a disk: superblock, inodes, bitmap, data. -/
structure Geometry (t : Tfs) : Prop where
  super : 1 ≤ t.istart
  inodes : t.istart + (t.ninodes + 3) / 4 ≤ t.bmstart
  bitmap : t.bmstart + bitmapBlocks t ≤ t.dstart
  data : t.dstart ≤ t.total
  disk : fsSector0 + t.total ≤ t.nsectors
  works : ∀ write b, b < t.total → t.fails write (sector b) = false
  small : t.nsectors < 4294967296
  count : t.total + 4095 < 4294967296

/-- Two states of the same disk layout. -/
structure Like (t t' : Tfs) : Prop where
  nsectors : t'.nsectors = t.nsectors
  fails : t'.fails = t.fails
  total : t'.total = t.total
  ninodes : t'.ninodes = t.ninodes
  istart : t'.istart = t.istart
  bmstart : t'.bmstart = t.bmstart
  dstart : t'.dstart = t.dstart

/-- Block `b` replaced. -/
def setBlock (t : Tfs) (b : Nat) (buf : Block) : Tfs :=
  { t with disk := update t.disk (sector b) buf }

variable {t t' t'' : Tfs} {b c i j n ino : Nat} {buf : Block} {ip : TInode} {w : Nat} {v : Word}

theorem Like.refl (t : Tfs) : Like t t := ⟨rfl, rfl, rfl, rfl, rfl, rfl, rfl⟩

theorem Like.trans (h : Like t t') (h' : Like t' t'') : Like t t'' :=
  ⟨h'.nsectors.trans h.nsectors, h'.fails.trans h.fails, h'.total.trans h.total,
    h'.ninodes.trans h.ninodes, h'.istart.trans h.istart, h'.bmstart.trans h.bmstart,
    h'.dstart.trans h.dstart⟩

theorem Like.setBlock : Like t (setBlock t b buf) := ⟨rfl, rfl, rfl, rfl, rfl, rfl, rfl⟩

theorem Like.bitmapBlocks (h : Like t t') : bitmapBlocks t' = bitmapBlocks t := by
  unfold DiskFs.bitmapBlocks
  rw [h.total]

theorem Geometry.like (g : Geometry t) (h : Like t t') : Geometry t' where
  super := h.istart ▸ g.super
  inodes := by
    rw [h.istart, h.ninodes, h.bmstart]
    exact g.inodes
  bitmap := by
    rw [h.bitmapBlocks, h.dstart, h.bmstart]
    exact g.bitmap
  data := by
    rw [h.dstart, h.total]
    exact g.data
  disk := by
    rw [h.total, h.nsectors]
    exact g.disk
  works := by
    rw [h.fails, h.total]
    exact g.works
  small := h.nsectors ▸ g.small
  count := h.total ▸ g.count

theorem Geometry.bitmapBlocks_eq (g : Geometry t) : bitmapBlocks t = (t.total + 4095) / 4096 := by
  unfold bitmapBlocks u32
  rw [Nat.mod_eq_of_lt g.count]

/-! ## Transfers -/

theorem Geometry.sector_eq (g : Geometry t) (hb : b < t.total) : sector b = fsSector0 + b := by
  have := g.disk
  have := g.small
  exact Nat.mod_eq_of_lt (by omega)

theorem Geometry.sector_lt (g : Geometry t) (hb : b < t.total) : sector b < t.nsectors := by
  have := g.disk
  rw [g.sector_eq hb]
  omega

theorem Geometry.bread (g : Geometry t) (hb : b < t.total) : bread t b = some (block t b) :=
  if_pos ⟨g.sector_lt hb, g.works _ b hb⟩

theorem Geometry.bwrite (g : Geometry t) (hb : b < t.total) :
    bwrite t b buf = some (setBlock t b buf) :=
  if_pos ⟨g.sector_lt hb, g.works _ b hb⟩

theorem Geometry.bwrite' (g : Geometry t) (hb : b < t.total) :
    bwrite' t b buf = setBlock t b buf := by
  unfold DiskFs.bwrite'
  rw [g.bwrite hb, Option.getD_some]

@[simp]
theorem block_setBlock_self : block (setBlock t b buf) b = buf := by
  simp [block, setBlock]

theorem Geometry.block_setBlock_ne (g : Geometry t) (hb : b < t.total) (hc : c < t.total)
    (h : c ≠ b) : block (setBlock t b buf) c = block t c := by
  have hs : sector c ≠ sector b := by
    rw [g.sector_eq hb, g.sector_eq hc]
    omega
  simp [block, setBlock, update_of_ne hs]

/-! ## Words of a block -/

theorem get32_byteOf (p : Block) (h : ∀ k < 4, p (i + k) = byteOf v k) : get32 p i = v := by
  have h0 := h 0 (by omega)
  rw [Nat.add_zero] at h0
  unfold get32
  rw [h0, h 1 (by omega), h 2 (by omega), h 3 (by omega), Lib.or_bytes]
  exact Lib.append_bytes v

theorem get32_congr {p q : Block} (h : ∀ k < 4, p (i + k) = q (i + k)) : get32 p i = get32 q i := by
  unfold get32
  rw [show p i = q i from h 0 (by omega), h 1 (by omega), h 2 (by omega), h 3 (by omega)]

@[simp]
theorem word_setWord_self : word (setWord buf i v) i = v := by
  apply get32_byteOf
  intro k hk
  unfold setWord put32
  rw [if_pos ⟨by omega, by omega⟩, Nat.add_sub_cancel_left]

theorem word_setWord_ne (h : j ≠ i) : word (setWord buf i v) j = word buf j := by
  apply get32_congr
  intro k hk
  unfold setWord put32
  rw [if_neg (by omega)]

@[simp]
theorem word_zero : word (fun _ => 0) i = 0 := by
  simp [word, get32]

/-! ## Inodes -/

/-- Word `w` of inode `n` on the disk. -/
def inodes (t : Tfs) (n : Nat) : TInode := fun w => word (block t (t.istart + n / 4)) (n % 4 * 32 + w)

/-- An inode in use by its number. -/
def Ino (t : Tfs) (n : Nat) : Prop := 0 < n ∧ n < t.ninodes

instance : Decidable (Ino t n) := inferInstanceAs (Decidable (_ ∧ _))

/-- Block `b` holds inodes. -/
def InodeBlock (t : Tfs) (b : Nat) : Prop := t.istart ≤ b ∧ b < t.bmstart

/-- Block `b` can hold the data of a file. -/
def DataBlock (t : Tfs) (b : Nat) : Prop := t.dstart ≤ b ∧ b < t.total

theorem Like.valid (h : Like t t') : Ino t' n ↔ Ino t n := by
  unfold Ino
  rw [h.ninodes]

theorem Like.inodeBlock (h : Like t t') : InodeBlock t' b ↔ InodeBlock t b := by
  unfold InodeBlock
  rw [h.istart, h.bmstart]

theorem Like.dataBlock (h : Like t t') : DataBlock t' b ↔ DataBlock t b := by
  unfold DataBlock
  rw [h.dstart, h.total]

theorem Geometry.inodeBlock (g : Geometry t) (hn : Ino t n) : InodeBlock t (t.istart + n / 4) := by
  have := g.inodes
  have := hn.2
  constructor
  · omega
  · omega

theorem Geometry.inodeBlock_lt (g : Geometry t) (hb : InodeBlock t b) : b < t.total := by
  have := g.bitmap
  have := g.data
  have := hb.2
  omega

theorem Geometry.not_inodeBlock (g : Geometry t) (hb : DataBlock t b) : ¬InodeBlock t b := by
  intro h
  have := g.bitmap
  have := hb.1
  have := h.2
  omega

theorem Geometry.dataBlock_pos (g : Geometry t) (hb : DataBlock t b) : b ≠ 0 := by
  have := g.super
  have := g.inodes
  have := g.bitmap
  have := hb.1
  omega

theorem Geometry.iget (g : Geometry t) (hn : Ino t n) : iget t n = some (DiskFs.inodes t n) := by
  have hv : ¬(n = 0 ∨ t.ninodes ≤ n) := by
    have := hn.1
    have := hn.2
    omega
  unfold DiskFs.iget
  rw [if_neg hv]
  rw [show t.istart + n / ipb = t.istart + n / 4 from rfl,
    g.bread (g.inodeBlock_lt (g.inodeBlock hn))]
  rfl

/-- The block of inodes after `ip` has been put in. -/
def putInode (buf : Block) (n : Nat) (ip : TInode) : Block := fun j =>
  if j / 128 = n % ipb then byteOf (ip (j % 128 / 4)) (j % 4) else buf j

theorem word_putInode_self (hw : w < 32) : word (putInode buf n ip) (n % 4 * 32 + w) = ip w := by
  apply get32_byteOf
  intro k hk
  unfold putInode
  rw [if_pos (by unfold ipb; omega)]
  congr 2 <;> omega

theorem word_putInode_ne {m : Nat} (h : m % 4 ≠ n % 4) (hw : w < 32) :
    word (putInode buf n ip) (m % 4 * 32 + w) = word buf (m % 4 * 32 + w) := by
  apply get32_congr
  intro k hk
  unfold putInode
  rw [if_neg (by unfold ipb; omega)]

/-- What writing back an inode does. -/
structure Put (t t' : Tfs) (ino : Nat) (ip : TInode) : Prop where
  like : Like t t'
  self : ∀ w < 32, inodes t' ino w = ip w
  others : ∀ n, Ino t n → n ≠ ino → ∀ w < 32, inodes t' n w = inodes t n w
  block : ∀ c < t.total, ¬InodeBlock t c → block t' c = block t c
  freeBlocks : t'.freeBlocks = t.freeBlocks

/-- **Writing back an inode** changes that inode and nothing else. -/
theorem inodes_iput (g : Geometry t) (hn : Ino t ino) (ip : TInode) :
    ∃ t', iput t ino ip = some t' ∧ Put t t' ino ip := by
  have hv : ¬(ino = 0 ∨ t.ninodes ≤ ino) := by
    have := hn.1
    have := hn.2
    omega
  have hlt := g.inodeBlock_lt (g.inodeBlock hn)
  refine ⟨setBlock t (t.istart + ino / 4) (putInode (block t (t.istart + ino / 4)) ino ip), ?_, ?_⟩
  · unfold iput
    rw [if_neg hv, show t.istart + ino / ipb = t.istart + ino / 4 from rfl, g.bread hlt]
    exact g.bwrite hlt
  · refine ⟨Like.setBlock, ?_, ?_, ?_, rfl⟩
    · intro w hw
      show word (block (setBlock t _ _) (t.istart + ino / 4)) _ = _
      rw [block_setBlock_self, word_putInode_self hw]
    · intro m hm hne w hw
      show word (block (setBlock t _ _) (t.istart + m / 4)) _ = _
      by_cases hb : m / 4 = ino / 4
      · -- another inode of the same block
        rw [hb, block_setBlock_self, word_putInode_ne (by omega) hw, ← hb]
        rfl
      · rw [g.block_setBlock_ne hlt (g.inodeBlock_lt (g.inodeBlock hm)) (by omega)]
        rfl
    · intro c hc hni
      apply g.block_setBlock_ne hlt hc
      intro heq
      exact hni (heq ▸ g.inodeBlock hn)

theorem iput'_put (g : Geometry t) (hn : Ino t ino) (ip : TInode) :
    Put t (iput' t ino ip) ino ip := by
  obtain ⟨t', h, hp⟩ := inodes_iput g hn ip
  unfold iput'
  rw [h, Option.getD_some]
  exact hp

/-! ## Marks -/

theorem getLsbD_mask (h : i / 8 = j / 8) : (1#8 <<< (j % 8)).getLsbD (i % 8) = decide (i = j) := by
  rw [← twoPow_eq, getLsbD_twoPow, decide_eq_true (Nat.mod_lt _ (by decide)), Bool.true_and]
  exact decide_eq_decide.2 (by omega)

theorem bit_setBit : bit (setBit buf j) i = (decide (i = j) || bit buf i) := by
  unfold bit setBit
  by_cases hij : i / 8 = j / 8
  · rw [hij, update_self, getLsbD_or, getLsbD_mask hij, Bool.or_comm]
  · rw [update_of_ne hij, decide_eq_false (mt (congrArg (· / 8)) hij), Bool.false_or]

theorem bit_clearBit : bit (clearBit buf j) i = (!decide (i = j) && bit buf i) := by
  unfold bit clearBit
  by_cases hij : i / 8 = j / 8
  · rw [hij, update_self, getLsbD_and, getLsbD_not, getLsbD_mask hij, Bool.and_comm,
      decide_eq_true (Nat.mod_lt _ (by decide)), Bool.true_and]
  · rw [update_of_ne hij, decide_eq_false (mt (congrArg (· / 8)) hij), Bool.not_false,
      Bool.true_and]

/-- The bitmap says that block `b` is used. -/
def marked (t : Tfs) (b : Nat) : Bool := bit (block t (t.bmstart + b / 4096)) (b % 4096)

theorem Geometry.bitmap_lt (g : Geometry t) (hb : b < t.total) : t.bmstart + b / 4096 < t.total := by
  have h1 := g.bitmap
  have h2 := g.data
  rw [g.bitmapBlocks_eq] at h1
  omega

theorem Geometry.bitmap_lt_dstart (g : Geometry t) (hb : b < t.total) :
    t.bmstart + b / 4096 < t.dstart := by
  have h1 := g.bitmap
  rw [g.bitmapBlocks_eq] at h1
  omega

theorem Geometry.total_pos (g : Geometry t) : 0 < t.total := by
  have := g.super
  have := g.inodes
  have := g.bitmap
  have := g.data
  omega

/-- The data blocks the bitmap has as free. -/
def free (t : Tfs) : Finset Nat :=
  (Finset.Ico t.dstart t.total).filter fun b => marked t b = false

/-- The count of free blocks is right. -/
def Counted (t : Tfs) : Prop := t.freeBlocks = (free t).card

instance : Decidable (Counted t) := inferInstanceAs (Decidable (_ = _))

theorem mem_free : b ∈ free t ↔ DataBlock t b ∧ marked t b = false := by
  simp [free, DataBlock]

theorem Geometry.marked_setBlock (g : Geometry t) (hd : DataBlock t b) (hc : c < t.total) :
    marked (setBlock t b buf) c = marked t c := by
  have h1 := g.bitmap_lt hc
  have h2 := g.bitmap_lt_dstart hc
  have h3 := hd.1
  show bit (block (setBlock t b buf) (t.bmstart + c / 4096)) _ = _
  rw [g.block_setBlock_ne hd.2 h1 (by omega)]
  rfl

theorem Counted.congr (hc : Counted t) (hl : Like t t') (hf : t'.freeBlocks = t.freeBlocks)
    (hm : ∀ c < t.total, marked t' c = marked t c) : Counted t' := by
  have hfree : free t' = free t := by
    ext c
    rw [mem_free, mem_free, hl.dataBlock]
    constructor
    · rintro ⟨hd, h⟩
      exact ⟨hd, hm c hd.2 ▸ h⟩
    · rintro ⟨hd, h⟩
      exact ⟨hd, (hm c hd.2).trans h⟩
  unfold Counted at hc ⊢
  rw [hf, hfree, hc]

/-- The superblock is written back: no other block changes. -/
theorem sbSync_spec (g : Geometry t) :
    Like t (sbSync t) ∧ (sbSync t).freeBlocks = t.freeBlocks ∧
      ∀ c < t.total, c ≠ 0 → block (sbSync t) c = block t c := by
  obtain ⟨sb, hs⟩ : ∃ sb, sbSync t = bwrite' { t with sb := sb } 0 sb := ⟨_, rfl⟩
  have gs : Geometry { t with sb := sb } := g.like ⟨rfl, rfl, rfl, rfl, rfl, rfl, rfl⟩
  rw [hs, gs.bwrite' g.total_pos]
  refine ⟨⟨rfl, rfl, rfl, rfl, rfl, rfl, rfl⟩, rfl, ?_⟩
  intro c hc hne
  exact gs.block_setBlock_ne g.total_pos hc hne

theorem Like.marked_eq (h : Like t t') :
    marked t' c = bit (block t' (t.bmstart + c / 4096)) (c % 4096) := by
  unfold marked
  rw [h.bmstart]

/-! ## The search for a free block -/

theorem scanBits_some {js : List Nat} (h : scanBits t buf i js = some b) :
    DataBlock t b ∧ ∃ j ∈ js, b = i * 4096 + j ∧ bit buf j = false := by
  induction js with
  | nil => cases h
  | cons j js ih =>
    rw [scanBits] at h
    have hrest : scanBits t buf i js = some b →
        DataBlock t b ∧ ∃ k ∈ j :: js, b = i * 4096 + k ∧ bit buf k = false := by
      intro h'
      obtain ⟨hd, k, hk, hb⟩ := ih h'
      exact ⟨hd, k, List.mem_cons_of_mem _ hk, hb⟩
    split_ifs at h with h1 h2 h3
    · exact hrest h
    · exact hrest h
    · cases h
      exact ⟨⟨by omega, by omega⟩, j, List.mem_cons_self .., rfl, by simpa using h3⟩

theorem scanBits_none {lo len : Nat} (h : scanBits t buf i (List.range' lo len) = none)
    (hj : lo ≤ j ∧ j < lo + len) (hd : DataBlock t (i * 4096 + j)) : bit buf j = true := by
  induction len generalizing lo with
  | zero => omega
  | succ len ih =>
    rw [List.range'_succ, scanBits] at h
    have hd1 := hd.1
    have hd2 := hd.2
    split_ifs at h with h1 h2 h3
    · -- the bits are taken in order: past the end there is nothing more
      omega
    · exact ih h (by omega)
    · by_cases hjl : j = lo
      · exact hjl ▸ h3
      · exact ih h (by omega)

theorem Geometry.bitmapBlocks_pos (g : Geometry t) : 0 < bitmapBlocks t := by
  have := g.total_pos
  rw [g.bitmapBlocks_eq]
  omega

theorem Geometry.bread_bitmap (g : Geometry t) (k : Nat) :
    DiskFs.bread t (t.bmstart + k % bitmapBlocks t) =
      some (block t (t.bmstart + k % bitmapBlocks t)) := by
  apply g.bread
  have := Nat.mod_lt k g.bitmapBlocks_pos
  have := g.bitmap
  have := g.data
  omega

theorem scan_some (g : Geometry t) {ps : List Nat} (h : scan t ps = some b) :
    DataBlock t b ∧ marked t b = false := by
  induction ps with
  | nil => cases h
  | cons pass ps ih =>
    rw [scan] at h
    simp only [g.bread_bitmap] at h
    cases hs : scanBits t (block t (t.bmstart + (t.bhint / 4096 + pass) % bitmapBlocks t))
        ((t.bhint / 4096 + pass) % bitmapBlocks t)
        (List.range' (if pass = 0 then t.bhint % 4096 else 0)
          (4096 - if pass = 0 then t.bhint % 4096 else 0)) with
    | none =>
      rw [hs] at h
      exact ih h
    | some b' =>
      rw [hs] at h
      cases h
      obtain ⟨hd, j, hj, hb, hbit⟩ := scanBits_some hs
      have hj4 : j < 4096 := by
        have := List.mem_range'_1.1 hj
        omega
      refine ⟨hd, ?_⟩
      unfold marked
      rw [hb, show ((t.bhint / 4096 + pass) % bitmapBlocks t * 4096 + j) / 4096 =
        (t.bhint / 4096 + pass) % bitmapBlocks t by omega,
        show ((t.bhint / 4096 + pass) % bitmapBlocks t * 4096 + j) % 4096 = j by omega]
      exact hbit

theorem scan_none (g : Geometry t) {ps : List Nat} (h : scan t ps = none) {pass : Nat}
    (hp : pass ∈ ps) (hpos : pass ≠ 0) (hd : DataBlock t b)
    (hb : (t.bhint / 4096 + pass) % bitmapBlocks t = b / 4096) : marked t b = true := by
  induction ps with
  | nil => cases hp
  | cons p ps ih =>
    rw [scan] at h
    simp only [g.bread_bitmap] at h
    cases hs : scanBits t (block t (t.bmstart + (t.bhint / 4096 + p) % bitmapBlocks t))
        ((t.bhint / 4096 + p) % bitmapBlocks t)
        (List.range' (if p = 0 then t.bhint % 4096 else 0)
          (4096 - if p = 0 then t.bhint % 4096 else 0)) with
    | some b' =>
      rw [hs] at h
      cases h
    | none =>
      rw [hs] at h
      rcases List.mem_cons.1 hp with rfl | hp'
      · rw [if_neg hpos, hb] at hs
        refine scanBits_none hs (j := b % 4096) (by omega) ?_
        rw [show b / 4096 * 4096 + b % 4096 = b by omega]
        exact hd
      · exact ih h hp'

/-- Every bitmap block is visited from its first bit on in some pass. -/
theorem exists_pass {nb h k : Nat} (hk : k < nb) :
    ∃ pass, pass ≠ 0 ∧ pass < nb + 1 ∧ (h + pass) % nb = k := by
  have hh : h % nb < nb := Nat.mod_lt _ (by omega)
  have hred : ∀ x, (h + x) % nb = (h % nb + x) % nb := fun x => by rw [Nat.mod_add_mod]
  rcases Nat.lt_or_ge (h % nb) k with hlt | hge
  · refine ⟨k - h % nb, by omega, by omega, ?_⟩
    rw [hred, show h % nb + (k - h % nb) = k by omega, Nat.mod_eq_of_lt hk]
  · refine ⟨nb - h % nb + k, by omega, by omega, ?_⟩
    rw [hred, show h % nb + (nb - h % nb + k) = k + nb by omega, Nat.add_mod_right,
      Nat.mod_eq_of_lt hk]

theorem scan_all (g : Geometry t) (h : scan t (List.range (bitmapBlocks t + 1)) = none)
    (hd : DataBlock t b) : marked t b = true := by
  have hb : b / 4096 < bitmapBlocks t := by
    have := hd.2
    rw [g.bitmapBlocks_eq]
    omega
  obtain ⟨pass, hne, hlt, hp⟩ := exists_pass (h := t.bhint / 4096) hb
  exact scan_none g h (List.mem_range.2 hlt) hne hd hp

/-- What an allocation does. -/
structure Taken (t t' : Tfs) (b : Nat) : Prop where
  like : Like t t'
  data : DataBlock t b
  was : marked t b = false
  marks : ∀ c < t.total, marked t' c = (decide (c = b) || marked t c)
  empty : block t' b = fun _ => 0
  others : ∀ c, InodeBlock t c ∨ DataBlock t c → c ≠ b → block t' c = block t c
  count : t'.freeBlocks = t.freeBlocks - 1

/-- Inodes and data are not in the superblock and not in the bitmap. -/
theorem Geometry.other_block (g : Geometry t) (hb : b < t.total)
    (hc : InodeBlock t c ∨ DataBlock t c) : c < t.total ∧ c ≠ 0 ∧ c ≠ t.bmstart + b / 4096 := by
  have hbd := g.bitmap_lt_dstart hb
  have hpos := g.super
  rcases hc with h | h
  · obtain ⟨h1, h2⟩ := h
    exact ⟨g.inodeBlock_lt ⟨h1, h2⟩, by omega, by omega⟩
  · have := h.1
    exact ⟨h.2, g.dataBlock_pos h, by omega⟩

/-- The marks when the bitmap block of `b` has been replaced by one that differs in the bit of `b`
only. -/
theorem Geometry.marked_bitmap {f : Bool → Bool → Bool} (g : Geometry t) (h : Like t t')
    (hb : b < t.total) (hc : c < t.total) (hf : ∀ m, f false m = m)
    (hbuf : ∀ i, bit buf i = f (decide (i = b % 4096)) (bit (block t (t.bmstart + b / 4096)) i))
    (ht' : block t' (t.bmstart + c / 4096) =
      block (setBlock t (t.bmstart + b / 4096) buf) (t.bmstart + c / 4096)) :
    marked t' c = f (decide (c = b)) (marked t c) := by
  rw [h.marked_eq, ht']
  unfold marked
  by_cases hcb : c / 4096 = b / 4096
  · rw [hcb, block_setBlock_self, hbuf]
    congr 1
    exact decide_eq_decide.2 ⟨fun h => by omega, fun h => by omega⟩
  · have hne : c ≠ b := fun h => hcb (h ▸ rfl)
    rw [g.block_setBlock_ne (g.bitmap_lt hb) (g.bitmap_lt hc) (by omega), decide_eq_false hne, hf]

theorem take_spec (g : Geometry t) (hd : DataBlock t b) (hm : marked t b = false) :
    (take t b).2 = b ∧ Taken t (take t b).1 b := by
  have hb := hd.2
  have hd1 := hd.1
  have hpos := g.super
  have hino := g.inodes
  have hbm := g.bitmap_lt hb
  -- the three writes in turn: the bitmap, the block, the superblock
  set t1 := setBlock t (t.bmstart + b / 4096)
    (setBit (block t (t.bmstart + b / 4096)) (b % 4096)) with ht1
  set t2 := setBlock t1 b (fun _ => 0) with ht2
  have g1 : Geometry t1 := g.like Like.setBlock
  have g3 : Geometry { t2 with freeBlocks := t2.freeBlocks - 1 } :=
    g1.like ⟨rfl, rfl, rfl, rfl, rfl, rfl, rfl⟩
  have htake : take t b = ({ sbSync { t2 with freeBlocks := t2.freeBlocks - 1 } with
      bhint := u32 (b + 1) }, b) := by
    unfold take
    rw [g.bread hbm]
    simp only [g.bwrite hbm]
    rw [← ht1, Geometry.bwrite g1 hb]
  obtain ⟨hl, hf, hblk⟩ := sbSync_spec g3
  rw [htake]
  generalize sbSync { t2 with freeBlocks := t2.freeBlocks - 1 } = t3 at hl hf hblk
  have hlike : Like t { t3 with bhint := u32 (b + 1) } :=
    { hl with }
  have hlast : ∀ c < t.total, c ≠ 0 → block { t3 with bhint := u32 (b + 1) } c = block t2 c := hblk
  refine ⟨rfl, hlike, hd, hm, ?_, ?_, ?_, hf⟩
  · intro c hc
    have hcm := g.bitmap_lt hc
    have hcd := g.bitmap_lt_dstart hc
    refine g.marked_bitmap (f := (· || ·)) hlike hb hc (fun _ => rfl) (fun _ => bit_setBit) ?_
    rw [hlast _ hcm (by omega), Geometry.block_setBlock_ne g1 hb hcm (by omega)]
  · rw [hlast b hb (g.dataBlock_pos hd)]
    exact block_setBlock_self
  · intro c hc hne
    obtain ⟨hclt, hc0, hcbm⟩ := g.other_block hb hc
    rw [hlast c hclt hc0, Geometry.block_setBlock_ne g1 hb hclt hne,
      g.block_setBlock_ne hbm hclt hcbm]

theorem rehint_eq : ∃ h, rehint t = { t with bhint := h } := by
  unfold rehint
  split_ifs
  · exact ⟨_, rfl⟩
  · exact ⟨t.bhint, rfl⟩

/-- **Allocation.**  Without free blocks it fails and nothing changes; with free blocks it finds
one. -/
theorem balloc_spec (g : Geometry t) (hc : Counted t) :
    (t.freeBlocks = 0 ∧ balloc t = (t, 0)) ∨
      (t.freeBlocks ≠ 0 ∧ Taken t (balloc t).1 (balloc t).2) := by
  by_cases hz : t.freeBlocks = 0
  · exact .inl ⟨hz, if_pos hz⟩
  refine .inr ⟨hz, ?_⟩
  obtain ⟨h, hh⟩ := rehint_eq (t := t)
  have gh : Geometry { t with bhint := h } := g.like ⟨rfl, rfl, rfl, rfl, rfl, rfl, rfl⟩
  unfold balloc
  rw [if_neg hz, hh]
  simp only
  cases hs : scan { t with bhint := h } (List.range (bitmapBlocks { t with bhint := h } + 1)) with
  | none =>
    -- a right count leaves an unmarked block, and the search would have seen it
    obtain ⟨b, hb⟩ : (free t).Nonempty := by
      rw [← Finset.card_pos, ← hc]
      omega
    obtain ⟨hd, hm⟩ := mem_free.1 hb
    have hd' : DataBlock { t with bhint := h } b := ⟨hd.1, hd.2⟩
    have hm' : marked { t with bhint := h } b = true := scan_all gh hs hd'
    exact absurd (hm.symm.trans hm') (by decide)
  | some b =>
    obtain ⟨hd, hm⟩ := scan_some gh hs
    obtain ⟨hb, ht⟩ := take_spec gh hd hm
    rw [hb]
    have hl : Like t { t with bhint := h } := ⟨rfl, rfl, rfl, rfl, rfl, rfl, rfl⟩
    exact ⟨hl.trans ht.like, hd, ht.was, ht.marks, ht.empty, ht.others, ht.count⟩

theorem Taken.counted (h : Taken t t' b) (hc : Counted t) : Counted t' := by
  have hf : free t' = (free t).erase b := by
    ext c
    rw [mem_free, Finset.mem_erase, mem_free, h.like.dataBlock]
    constructor
    · rintro ⟨hd, hm⟩
      rw [h.marks c hd.2] at hm
      simp only [Bool.or_eq_false_iff, decide_eq_false_iff_not] at hm
      exact ⟨hm.1, hd, hm.2⟩
    · rintro ⟨hne, hd, hm⟩
      rw [h.marks c hd.2]
      exact ⟨hd, by simp [hne, hm]⟩
  unfold Counted at hc ⊢
  rw [h.count, hf, Finset.card_erase_of_mem (mem_free.2 ⟨h.data, h.was⟩), hc]

/-! ## Freeing -/

/-- What freeing a block does. -/
structure Freed (t t' : Tfs) (b : Nat) : Prop where
  like : Like t t'
  marks : ∀ c < t.total, marked t' c = (!decide (c = b) && marked t c)
  others : ∀ c, InodeBlock t c ∨ DataBlock t c → block t' c = block t c
  count : t'.freeBlocks = t.freeBlocks + 1

/-- **Freeing** a used data block. -/
theorem bfree_spec (g : Geometry t) (hd : DataBlock t b) (hm : marked t b = true) :
    Freed t (bfree t b) b := by
  have hb := hd.2
  have hd1 := hd.1
  have hpos := g.super
  have hino := g.inodes
  have hbm := g.bitmap_lt hb
  set t1 := setBlock t (t.bmstart + b / 4096)
    (clearBit (block t (t.bmstart + b / 4096)) (b % 4096))
  have g2 : Geometry { t1 with freeBlocks := t1.freeBlocks + 1 } :=
    g.like ⟨rfl, rfl, rfl, rfl, rfl, rfl, rfl⟩
  have hfree : bfree t b = sbSync { t1 with freeBlocks := t1.freeBlocks + 1 } := by
    unfold bfree
    rw [if_neg (by omega), g.bread hbm]
    simp only
    rw [show bit (block t (t.bmstart + b / 4096)) (b % 4096) = true from hm, if_pos rfl,
      g.bwrite' hbm]
  obtain ⟨hl, hf, hblk⟩ := sbSync_spec g2
  rw [hfree]
  generalize sbSync { t1 with freeBlocks := t1.freeBlocks + 1 } = t2 at hl hf hblk
  have hlike : Like t t2 := { hl with }
  have hlast : ∀ c < t.total, c ≠ 0 → block t2 c = block t1 c := hblk
  refine ⟨hlike, ?_, ?_, hf⟩
  · intro c hc
    exact g.marked_bitmap (f := fun x m => !x && m) hlike hb hc (fun _ => rfl)
      (fun _ => bit_clearBit) (hlast _ (g.bitmap_lt hc) (by omega))
  · intro c hc
    obtain ⟨hclt, hc0, hcbm⟩ := g.other_block hb hc
    rw [hlast c hclt hc0, g.block_setBlock_ne hbm hclt hcbm]

theorem Freed.counted (h : Freed t t' b) (hd : DataBlock t b) (hm : marked t b = true)
    (hc : Counted t) : Counted t' := by
  have hf : free t' = insert b (free t) := by
    ext c
    rw [mem_free, Finset.mem_insert, mem_free, h.like.dataBlock]
    constructor
    · rintro ⟨hdc, hmc⟩
      rw [h.marks c hdc.2] at hmc
      by_cases hcb : c = b
      · exact .inl hcb
      · exact .inr ⟨hdc, by simpa [hcb] using hmc⟩
    · rintro (rfl | ⟨hdc, hmc⟩)
      · exact ⟨hd, by rw [h.marks c hd.2]; simp⟩
      · exact ⟨hdc, by rw [h.marks c hdc.2]; simp [hmc]⟩
  have hnot : b ∉ free t := fun hb => by
    rw [(mem_free.1 hb).2] at hm
    cases hm
  unfold Counted at hc ⊢
  rw [h.count, hf, Finset.card_insert_of_notMem hnot, hc]

end Tortoise.DiskFs
