import Tortoise.Lib.Overwrite
import Tortoise.Tfs.Bmap

/-!
# Reading and writing files

A file is its size and its bytes; behind the size a well-formed disk (`Wf`) has zeros.

* `readi_spec`: a read returns the bytes of the file between the offset and the size.
* `writeLoop_spec`, `writei_spec`: a write puts the first `k` bytes into the file and nothing
  else changes, in this file or another; `k` is zero exactly if there was nothing to write or
  the first block could not be had.
-/

namespace Tortoise.DiskFs

open Function Lib Lib.Forest List

variable {t t' t'' : Tfs} {J J' J'' : Nat → TInode} {b n ino fb off x o fuel done : Nat}
  {is : List Nat} {ip : TInode} {buf : Block} {src rest : List Byte} {now : Word}

/-! ## Writing one block -/

/-- The bytes `src` went into file `ino` at `off`; nothing else changed in any file. -/
structure Wrote (t : Tfs) (J : Nat → TInode) (t' : Tfs) (J' : Nat → TInode) (ino off : Nat)
    (src : List Byte) : Prop where
  like : Like t t'
  sound : Sound t' J'
  content : ∀ n x, content t' J' n x =
    if n = ino ∧ off ≤ x ∧ x < off + src.length then src.getD (x - off) 0 else content t J n x
  others : ∀ n, Ino t n → n ≠ ino → ∀ w < 32, inodes t' n w = inodes t n w

theorem Mapped.wrote (h : Mapped t J t' J' ino) : Wrote t J t' J' ino off [] :=
  ⟨h.like, h.sound, fun n x => by
    rw [h.content n x, if_neg]
    simp only [length_nil]
    omega, h.others⟩

theorem Wrote.trans (h : Wrote t J t' J' ino off src)
    (h' : Wrote t' J' t'' J'' ino (off + src.length) rest) :
    Wrote t J t'' J'' ino off (src ++ rest) where
  like := h.like.trans h'.like
  sound := h'.sound
  content n x := by
    rw [h'.content n x, h.content n x, length_append]
    by_cases hn : n = ino
    · by_cases h1 : off + src.length ≤ x ∧ x < off + src.length + rest.length
      · rw [if_pos ⟨hn, h1⟩, if_pos ⟨hn, by omega, by omega⟩, getD_append_right _ _ _ _ (by omega)]
        congr 1
        omega
      · rw [if_neg (fun h => h1 h.2)]
        by_cases h2 : off ≤ x ∧ x < off + src.length
        · rw [if_pos ⟨hn, h2⟩, if_pos ⟨hn, by omega, by omega⟩, List.getD_append _ _ _ _ (by omega)]
        · rw [if_neg (fun h => h2 h.2), if_neg (by omega)]
    · rw [if_neg (fun h => hn h.1), if_neg (fun h => hn h.1), if_neg (fun h => hn h.1)]
  others n hn hne w hw :=
    (h'.others n (h.like.valid.2 hn) hne w hw).trans (h.others n hn hne w hw)

theorem blockOf_place (hb : blockOf t J n fb ≠ 0) :
    ∃ s is, place fb = some (s, is) ∧ blockOf t J n fb = nodeAt t J ((n, s), is) := by
  unfold blockOf at hb ⊢
  cases hpl : place fb with
  | none =>
    rw [hpl] at hb
    exact absurd rfl hb
  | some si => exact ⟨si.1, si.2, rfl, rfl⟩

theorem Sound.blockOf_lt (hs : Sound t J) (hb : blockOf t J n fb ≠ 0) : blockOf t J n fb < t.total := by
  obtain ⟨s, is, hpl, h⟩ := blockOf_place hb
  rw [h] at hb ⊢
  exact hs.ne_zero (place_valid hpl).2.2 hb

theorem Sound.write (hs : Sound t J) (buf : Block) (hb : blockOf t J ino fb ≠ 0) :
    Like t (setBlock t (blockOf t J ino fb) buf) ∧ Sound (setBlock t (blockOf t J ino fb) buf) J ∧
      (∀ n x, content (setBlock t (blockOf t J ino fb) buf) J n x =
        if n = ino ∧ x / bsize = fb then buf (x % bsize) else content t J n x) ∧
      ∀ n, Ino t n → ∀ w, inodes (setBlock t (blockOf t J ino fb) buf) n w = inodes t n w := by
  have hl : Like t (setBlock t (blockOf t J ino fb) buf) := Like.setBlock
  obtain ⟨s, is, hpl, hB⟩ := blockOf_place hb
  obtain ⟨-, hlen, hp⟩ := place_valid (n := ino) hpl
  rw [hB] at hb hl ⊢
  set u := setBlock t (nodeAt t J ((ino, s), is)) buf with hu
  have g := hs.geo
  obtain ⟨hd, hm⟩ := hs.used _ hp hb
  -- the forest stays, since the block is a leaf of it
  have hother : ∀ q, Place q → q ≠ ((ino, s), is) → nodeAt t J q ≠ 0 →
      block u (nodeAt t J q) = block t (nodeAt t J q) := by
    intro q hq hqne hne
    refine g.block_setBlock_ne hd.2 (hs.ne_zero hq hne) ?_
    intro heq
    exact hqne (hs.apart q _ hq hp hne heq)
  have hnode : ∀ q, Place q → nodeAt u J q = nodeAt t J q := by
    intro q hq
    refine nodeAt_of_agree hs hl ?_ hq
    intro q' hq' hlt hne
    exact hother q' hq' (ne_of_short hpl hlt) hne
  have hmark : ∀ c < t.total, marked u c = marked t c := fun c hc => g.marked_setBlock hd hc
  refine ⟨hl, hs.of_nodes hl (hs.count.congr hl rfl hmark) (fun q hq _ => hnode q hq)
    fun q _ _ hlt hm => (hmark _ hlt).trans hm, ?_, ?_⟩
  · intro n x
    cases hpx : place (x / bsize) with
    | none =>
      rw [content_of_none hpx, content_of_none hpx, if_neg]
      rintro ⟨-, rfl⟩
      rw [hpx] at hpl
      cases hpl
    | some si =>
      obtain ⟨s', is'⟩ := si
      have hq := (place_valid (n := n) hpx).2.2
      rw [content_eq hpx, content_eq hpx, hnode _ hq]
      by_cases hx : n = ino ∧ x / bsize = fb
      · obtain ⟨rfl, rfl⟩ := hx
        rw [hpl] at hpx
        cases hpx
        rw [if_neg hb, block_setBlock_self, if_pos ⟨rfl, rfl⟩]
      · rw [if_neg hx]
        by_cases hz : nodeAt t J ((n, s'), is') = 0
        · rw [if_pos hz, if_pos hz]
        · rw [if_neg hz, if_neg hz, hother _ hq ?_ hz]
          intro heq
          simp only [Prod.mk.injEq] at heq
          obtain ⟨⟨rfl, rfl⟩, rfl⟩ := heq
          exact hx ⟨rfl, place_inj hpx hpl⟩
  · intro n hn w
    have hne : t.istart + n / 4 ≠ nodeAt t J ((ino, s), is) := fun h =>
      g.not_inodeBlock hd (h ▸ g.inodeBlock hn)
    show word (block (setBlock t _ buf) (t.istart + n / 4)) _ = _
    rw [g.block_setBlock_ne hd.2 (g.inodeBlock_lt (g.inodeBlock hn)) hne]
    rfl

theorem copyIn_at {j : Nat} : copyIn buf o src j =
    if o ≤ j ∧ j < o + src.length then src.getD (j - o) 0 else buf j := rfl

theorem Sound.writeBlock (hs : Sound t J) (hb : blockOf t J ino (off / bsize) ≠ 0)
    (hlen : off % bsize + src.length ≤ bsize) :
    ∃ t', writeBlock t (blockOf t J ino (off / bsize)) (off % bsize) src = some t' ∧
      Wrote t J t' J ino off src ∧ t'.freeBlocks = t.freeBlocks := by
  have hlt := hs.blockOf_lt hb
  obtain ⟨buf, hbuf, hwhole⟩ : ∃ buf, (if src.length < bsize then
      bread t (blockOf t J ino (off / bsize)) else some fun _ => 0) = some buf ∧
      (src.length < bsize → buf = block t (blockOf t J ino (off / bsize))) := by
    by_cases hk : src.length < bsize
    · rw [if_pos hk, hs.geo.bread hlt]
      exact ⟨_, rfl, fun _ => rfl⟩
    · rw [if_neg hk]
      exact ⟨_, rfl, fun h => absurd h hk⟩
  obtain ⟨hl, hs', hcont, hino⟩ := hs.write (copyIn buf (off % bsize) src) hb
  refine ⟨setBlock t (blockOf t J ino (off / bsize)) (copyIn buf (off % bsize) src), ?_,
    ⟨hl, hs', ?_, ?_⟩, rfl⟩
  · unfold DiskFs.writeBlock
    rw [hbuf]
    exact hs.geo.bwrite hlt
  · intro n x
    rw [hcont n x]
    by_cases hx : n = ino ∧ x / bsize = off / bsize
    · obtain ⟨rfl, hx⟩ := hx
      rw [if_pos ⟨rfl, hx⟩, copyIn_at]
      unfold bsize at hx hlen hwhole ⊢
      by_cases hin : off ≤ x ∧ x < off + src.length
      · rw [if_pos ⟨by omega, by omega⟩, if_pos ⟨rfl, hin⟩]
        congr 1
        omega
      · rw [if_neg (by omega), if_neg (fun h => hin h.2), hwhole (by omega)]
        have hcont : content t J n x =
            block t (blockOf t J n (off / 512)) (x % 512) := by
          unfold content bsize
          rw [hx]
          exact if_neg hb
        rw [hcont]
    · rw [if_neg hx, if_neg]
      rintro ⟨rfl, h1, h2⟩
      unfold bsize at hx hlen
      exact hx ⟨rfl, by omega⟩
  · intro n hn _ w _
    exact hino n hn w

/-! ## The loop of `writei` -/

theorem place_lt {s : Nat} (h : place fb = some (s, is)) : fb < 2113676 := by
  by_contra hge
  rw [place_none (by omega)] at h
  cases h

theorem Fits.lt (h : Fits t J ino fb) : fb < 2113676 := by
  unfold Fits at h
  cases hpl : place fb with
  | none =>
    rw [hpl] at h
    exact h.elim
  | some si =>
    obtain ⟨s, is⟩ := si
    exact place_lt hpl

/-- How many blocks the bytes from `off` to `off + n` touch. -/
def touched (off n : Nat) : Nat := (off + n + bsize - 1) / bsize - off / bsize

/-- There are blocks for a write, four for each block it touches, and it stays within the reach of
the trees. -/
def Enough (t : Tfs) (off n : Nat) : Prop :=
  off + n ≤ 2113676 * 512 ∧ 4 * touched off n ≤ t.freeBlocks

theorem lacking_le (σ : Store) (b : Nat) (is : List Nat) : lacking σ b is ≤ is.length + 1 := by
  induction is generalizing b with
  | nil =>
    unfold lacking
    split_ifs <;> simp
  | cons i is ih =>
    unfold lacking
    split_ifs
    · simp
    · exact le_trans (ih _) (by simp)

/-- A block within reach can be had from four free blocks. -/
theorem fits_of_free (hfb : fb < 2113676) (hf : 4 ≤ t.freeBlocks) : Fits t J ino fb := by
  unfold Fits
  cases hpl : place fb with
  | none =>
    unfold place at hpl
    split_ifs at hpl
  | some si =>
    obtain ⟨s, is⟩ := si
    obtain ⟨hsl, hlev, -⟩ := place_valid (n := ino) hpl
    have hle := lacking_le (ptrs t) (roots t J (ino, s)) is
    unfold levels at hlev
    simp only at hlev ⊢
    omega

theorem Enough.fits (h : Enough t off src.length) (hz : src.length ≠ 0) :
    Fits t J ino (off / bsize) := by
  have h1 := h.1
  have h2 := h.2
  unfold touched at h2
  unfold bsize at h2 ⊢
  exact fits_of_free (by omega) (by omega)

/-- What the loop of `writei` leaves when it has stored `k` bytes: none exactly if there is nothing
to write or the first block cannot be had, and all of them if there are blocks enough. -/
structure Looped (t : Tfs) (J : Nat → TInode) (t' : Tfs) (di : TInode) (ino off : Nat)
    (src : List Byte) (k : Nat) : Prop where
  le : k ≤ src.length
  wrote : Wrote t J t' (update J ino di) ino off (src.take k)
  low : ∀ w, w < iDirect → di w = J ino w
  zero : k = 0 ↔ src.length = 0 ∨ ¬Fits t J ino (off / bsize)
  reach : 0 < k → off + k ≤ 2113676 * 512
  full : Enough t off src.length → k = src.length

theorem Looped.idle (hs : Sound t J) (hz : src.length = 0) :
    Looped t J t (J ino) ino off src 0 where
  le := Nat.zero_le _
  wrote := by
    rw [update_eq_self, take_zero]
    exact ((Extends.refl hs).mapped hs.geo).wrote
  low _ _ := rfl
  zero := by simp [hz]
  reach := by omega
  full _ := hz.symm

theorem Looped.stuck (hmap : Mapped t J t' (update J ino ip) ino)
    (hlow : ∀ w, w < iDirect → ip w = J ino w) (hz : src.length ≠ 0)
    (hf : ¬Fits t J ino (off / bsize)) : Looped t J t' ip ino off src 0 where
  le := Nat.zero_le _
  wrote := by
    rw [take_zero]
    exact hmap.wrote
  low := hlow
  zero := by simp [hf]
  reach := by omega
  full hen := absurd (hen.fits hz) hf

theorem length_chunk {k : Nat} (hk : k = min (bsize - off % bsize) src.length) :
    (src.take k).length = k := by
  rw [length_take]
  omega

/-- One round stores up to the end of its block, and the rest of the loop goes on behind it. -/
theorem Looped.round {di : TInode} {k k' : Nat} (hf : Fits t J ino (off / bsize))
    (hz : src.length ≠ 0) (hk : k = min (bsize - off % bsize) src.length)
    (hw : Wrote t J t' (update J ino ip) ino off (src.take k))
    (hlow : ∀ w, w < iDirect → ip w = J ino w) (hfree : t.freeBlocks ≤ t'.freeBlocks + 4)
    (h : Looped t' (update J ino ip) t'' di ino (off + k) (src.drop k) k') :
    Looped t J t'' di ino off src (k + k') := by
  have hfb := hf.lt
  have hle := h.le
  rw [length_drop] at hle
  unfold bsize at hk hfb
  refine ⟨by omega, ?_, fun w hlt => ?_, ⟨by omega, ?_⟩, fun _ => ?_, fun hen => ?_⟩
  · have hrest := h.wrote
    rw [update_idem] at hrest
    rw [take_add]
    exact hw.trans (by rwa [length_chunk hk])
  · rw [h.low w hlt, update_self, hlow w hlt]
  · rintro (h0 | h0)
    · exact absurd h0 hz
    · exact absurd hf h0
  · by_cases hk0 : k' = 0
    · omega
    · have := h.reach (by omega)
      omega
  · by_cases hlast : k = src.length
    · omega
    -- there is more to write, and it starts with a block of its own
    have hnext : Enough t' (off + k) (src.drop k).length := by
      have h1 := hen.1
      have h2 := hen.2
      rw [length_drop]
      unfold touched at h2
      constructor
      · omega
      · unfold touched
        unfold bsize at h2 ⊢
        omega
    have := h.full hnext
    rw [length_drop] at this
    omega

/-- **The loop of `writei`** puts the first `k` bytes into the file. -/
theorem writeLoop_spec (hs : Sound t J) (hn : Ino t ino) (done : Nat) (hoff : off < 2 ^ 32)
    (hfuel : src.length ≤ fuel) :
    ∃ t' di k, writeLoop ino fuel t (J ino) src off done = (t', di, off + k, done + k) ∧
      Looped t J t' di ino off src k := by
  induction fuel generalizing t J src off done with
  | zero => exact ⟨t, J ino, 0, rfl, .idle hs (by omega)⟩
  | succ fuel ih =>
    rw [writeLoop]
    by_cases hz : src.length = 0
    · rw [if_pos hz]
      exact ⟨t, J ino, 0, rfl, .idle hs hz⟩
    obtain ⟨t1, ip, r, hbm, hmap, hlow, hyes, hno, hcount⟩ := bmap_spec hs hn (off / bsize)
    rw [if_neg hz, hbm]
    simp only
    by_cases hf : Fits t J ino (off / bsize)
    · -- the block is there: write into it, and go on behind it
      obtain ⟨hr, hrb⟩ := hyes hf
      rw [if_neg hr]
      have hfb := hf.lt
      have hb : blockOf t1 (update J ino ip) ino (off / bsize) ≠ 0 := hrb ▸ hr
      set k := min (bsize - off % bsize) src.length with hk
      have hfit : off % bsize + (src.take k).length ≤ bsize := by
        rw [length_chunk hk]
        unfold bsize at hk ⊢
        omega
      obtain ⟨t2, hw, hwrote, hfree⟩ := hmap.sound.writeBlock hb hfit
      rw [hrb, hw]
      simp only
      have hsmall : off + k < 2 ^ 32 := by
        unfold bsize at hk hfb
        omega
      rw [show u32 (off + k) = off + k from Nat.mod_eq_of_lt hsmall]
      obtain ⟨t3, di, k', hloop, h⟩ :=
        @ih t2 (update J ino ip) (off + k) (src.drop k) hwrote.sound
          (hwrote.like.valid.2 (hmap.like.valid.2 hn)) (done + k) hsmall
          (by rw [length_drop]; unfold bsize at hk; omega)
      have hfirst : Wrote t J t2 (update J ino ip) ino off ([] ++ src.take k) :=
        hmap.wrote.trans (by simpa using hwrote)
      rw [update_self] at hloop
      refine ⟨t3, di, k + k', ?_, .round hf hz hk hfirst hlow (by omega) h⟩
      rw [hloop, Nat.add_assoc, Nat.add_assoc]
    · rw [if_pos (hno hf)]
      exact ⟨t1, ip, 0, rfl, .stuck hmap hlow hz hf⟩

/-! ## Whole calls -/

/-- The size of a file. -/
def size (t : Tfs) (n : Nat) : Nat := (inodes t n iSize).toNat

theorem size_lt : size t n < 2 ^ 32 := (inodes t n iSize).isLt

/-- A file as its size and its reads show it. -/
def view (t : Tfs) (n : Nat) : View Byte := ⟨size t n, readi t n⟩

/-- A disk as the operations leave it: sound, and with zeros behind the end of each file. -/
structure Wf (t : Tfs) : Prop where
  sound : Sound t (inodes t)
  clean : ∀ n, Ino t n → ∀ x, size t n ≤ x → content t (inodes t) n x = 0

theorem content_congr (h : roots t J' = roots t J) : content t J' n x = content t J n x := by
  unfold content blockOf nodeAt
  rw [h]

theorem Sound.congr (hs : Sound t J) (h : roots t J' = roots t J) : Sound t J' :=
  ⟨hs.geo, hs.count, h.symm ▸ hs.apart, by
    unfold nodeAt
    rw [h]
    exact hs.used⟩

theorem readLoop_spec (hs : Sound t J) (hn : Ino t ino) {m : Nat} (hfuel : m ≤ fuel)
    (hm : off + m < 2 ^ 32) :
    readLoop ino fuel t (J ino) off m = some ((List.range' off m).map (content t J ino)) := by
  induction fuel generalizing off m with
  | zero =>
    rw [show m = 0 by omega]
    rfl
  | succ fuel ih =>
    rw [readLoop]
    by_cases hz : m = 0
    · rw [if_pos hz, hz]
      rfl
    rw [if_neg hz, bmap_read hs hn]
    simp only
    set k := min (bsize - off % bsize) m with hk
    have hkpos : 0 < k := by
      unfold bsize at hk
      omega
    have hu : u32 (off + k) = off + k := Nat.mod_eq_of_lt (by omega)
    rw [hu, ih (by omega) (by omega)]
    by_cases hb : blockOf t J ino (off / bsize) = 0
    · rw [if_pos hb, map_range'_block (g := fun _ => 0) (by decide) hk, Option.map_some, map_const',
        length_range']
      intro i hi
      rw [content, hi, if_pos hb]
    · rw [if_neg hb, hs.geo.bread (hs.blockOf_lt hb), map_range'_block (by decide) hk]
      · rfl
      · intro i hi
        rw [content, hi, if_neg hb]

/-- **A read** returns the bytes of the file from the offset to the size. -/
theorem readi_spec (hs : Sound t (inodes t)) (hn : Ino t ino) {m : Nat} (hoff : off < 2 ^ 32)
    (hm : m < 2 ^ 32) :
    readi t ino off m = some (window (content t (inodes t) ino) (size t ino) off m) := by
  have hsize := size_lt (t := t) (n := ino)
  unfold readi
  rw [hs.geo.iget hn, window_eq]
  simp only
  change (if size t ino ≤ off then _ else _) = _
  by_cases hle : size t ino ≤ off
  · rw [if_pos hle, show min m (size t ino - off) = 0 by omega]
    rfl
  · rw [if_neg hle]
    have hn' : (if size t ino < u32 (off + m) ∨ u32 (off + m) < off then size t ino - off else m) =
        min m (size t ino - off) := clip_eq hsize hle hm
    change readLoop ino (if size t ino < u32 (off + m) ∨ u32 (off + m) < off
      then size t ino - off else m) t (inodes t ino) off
      (if size t ino < u32 (off + m) ∨ u32 (off + m) < off then size t ino - off else m) = _
    rw [hn']
    exact readLoop_spec hs hn le_rfl (by omega)

theorem stamp_size {di : TInode} {z : Word} : stamp di z now iSize = z := by
  simp [stamp, iSize, iMtime, iCtime]

theorem stamp_slot {di : TInode} {z : Word} {w : Nat} (hw : iDirect ≤ w) :
    stamp di z now w = di w := by
  unfold iDirect at hw
  unfold stamp iSize iMtime iCtime
  rw [update_of_ne (by omega), update_of_ne (by omega),
    update_of_ne (by omega)]

/-- What a call of `writei` leaves: `k` bytes of `src` in the file. -/
structure Stored (t t' : Tfs) (ino off : Nat) (src : List Byte) (k : Nat) : Prop where
  like : Like t t'
  sound : Sound t' (inodes t')
  content : ∀ n x, content t' (inodes t') n x =
    if n = ino ∧ off ≤ x ∧ x < off + k then src.getD (x - off) 0 else content t (inodes t) n x
  size : size t' ino = max (size t ino) (off + k)
  sizes : ∀ n, Ino t n → n ≠ ino → DiskFs.size t' n = DiskFs.size t n

/-- After an inode is written back, the inodes on the disk have the roots of the copy. -/
theorem roots_put {t1 t' : Tfs} {di : TInode} {z now : Word}
    (hput : Put t1 t' ino (stamp di z now)) (hl : Like t t1)
    (hino : ∀ n, Ino t n → n ≠ ino → ∀ w < 32, inodes t1 n w = inodes t n w) :
    roots t' (inodes t') = roots t' (update (inodes t) ino di) := by
  apply roots_congr (Like.refl _)
  intro n hn' s hs'
  have hwlt : iDirect + s < 32 := by
    unfold iDirect
    omega
  have hnt : Ino t n := (hl.trans hput.like).valid.1 hn'
  by_cases hni : n = ino
  · subst hni
    rw [hput.self _ hwlt, stamp_slot (by omega), update_self]
  · rw [hput.others n (hl.valid.2 hnt) hni _ hwlt, hino n hnt hni _ hwlt, update_of_ne hni]

/-- What is on the disk after the inode of `ino` is written back. -/
theorem put_back {t1 : Tfs} {di : TInode} {z : Word} (hput : Put t1 t' ino (stamp di z now))
    (hl : Like t t1) (hs : Sound t1 (update (inodes t) ino di))
    (hino : ∀ n, Ino t n → n ≠ ino → ∀ w < 32, inodes t1 n w = inodes t n w) :
    Like t t' ∧ Sound t' (inodes t') ∧
      (∀ n x, content t' (inodes t') n x = content t1 (update (inodes t) ino di) n x) ∧
      size t' ino = z.toNat ∧ ∀ n, Ino t n → n ≠ ino → size t' n = size t n := by
  have hroots := roots_put hput hl hino
  refine ⟨hl.trans hput.like, (hput.sound hs).congr hroots, fun n x => ?_, ?_, fun n hnt hni => ?_⟩
  · rw [content_congr hroots, hput.content hs]
  · unfold size
    rw [hput.self iSize (by decide), stamp_size]
  · unfold size
    rw [hput.others n (hl.valid.2 hnt) hni _ (by decide), hino n hnt hni _ (by decide)]

/-- **A write** stores the first `k` bytes; an error is returned exactly if there was something
to write and the first block could not be had. -/
theorem writei_spec (now : Word) (src : List Byte) (hs : Sound t (inodes t)) (hn : Ino t ino)
    (hoff : off < 2 ^ 32) :
    ∃ (t' : Tfs) (k : Nat), writei now t ino src off =
        (t', if src.length ≠ 0 ∧ k = 0 then -enospc else (k : Int)) ∧
      k ≤ src.length ∧ Stored t t' ino off src k ∧
      (k = 0 ↔ src.length = 0 ∨ ¬Fits t (inodes t) ino (off / bsize)) ∧
      (Enough t off src.length → k = src.length) := by
  obtain ⟨t1, di, k, hloop, hk, hw, hlow, hzero, hmax, hfull⟩ :=
    writeLoop_spec hs hn 0 hoff (le_refl src.length)
  have hkmax : 0 < k → k < 2 ^ 31 := fun h => by
    have := hmax h
    omega
  have hsum : off + k < 2 ^ 32 := by
    by_cases h : 0 < k
    · have := hmax h
      omega
    · omega
  set z : Word := if (di iSize).toNat < off + k then BitVec.ofNat 32 (off + k) else di iSize with hz
  have hsz : di iSize = inodes t ino iSize := hlow iSize (by decide)
  refine ⟨iput' t1 ino (stamp di z now), k, ?_, hk, ?_, hzero, hfull⟩
  · unfold writei
    rw [hs.geo.iget hn]
    simp only
    rw [hloop]
    simp only [Nat.zero_add]
    rw [← hz]
    congr 1
    by_cases hc : src.length ≠ 0 ∧ k = 0
    · rw [if_pos hc, if_pos ⟨by omega, hc.2⟩]
    · rw [if_neg hc, if_neg (by omega)]
      rw [BitVec.toInt_eq_toNat_of_lt]
      · rw [BitVec.toNat_ofNat, Nat.mod_eq_of_lt (by omega)]
      · rw [BitVec.toNat_ofNat, Nat.mod_eq_of_lt (by omega)]
        by_cases h : 0 < k
        · have := hkmax h
          omega
        · omega
  · obtain ⟨hlike, hsound, hcont, hsize, hsizes⟩ := put_back
      (iput'_put hw.sound.geo (hw.like.valid.2 hn) (stamp di z now)) hw.like hw.sound hw.others
    refine ⟨hlike, hsound, ?_, ?_, hsizes⟩
    · intro n x
      have hklen : (src.take k).length = k := by
        rw [length_take]
        omega
      rw [hcont n x, hw.content n x, hklen]
      by_cases hc : n = ino ∧ off ≤ x ∧ x < off + k
      · rw [if_pos hc, if_pos hc, getD_eq_getElem?_getD, getD_eq_getElem?_getD,
          List.getElem?_take_of_lt (by omega)]
      · rw [if_neg hc, if_neg hc]
    · rw [hsize, hz, hsz]
      unfold size
      split_ifs with h
      · rw [BitVec.toNat_ofNat, Nat.mod_eq_of_lt hsum]
        omega
      · omega

theorem writei_wf (hw : Wf t) (hn : Ino t ino) (hoff : off < 2 ^ 32) :
    Wf (writei now t ino src off).1 := by
  obtain ⟨t', k, h, hk, hst, -, -⟩ := writei_spec now src hw.sound hn hoff
  rw [h]
  refine ⟨hst.sound, ?_⟩
  show ∀ n, Ino t' n → ∀ x, size t' n ≤ x → content t' (inodes t') n x = 0
  intro n hn' x hx
  rw [hst.content n x]
  have hnt := hst.like.valid.1 hn'
  by_cases hni : n = ino
  · subst hni
    rw [hst.size] at hx
    rw [if_neg (by omega)]
    exact hw.clean n hnt x (by omega)
  · rw [hst.sizes n hnt hni] at hx
    rw [if_neg (fun h => hni h.1)]
    exact hw.clean n hnt x hx

/-! ## What a write leaves -/

/-- **A write obeys** exactly if it has nothing to write, does not start behind the end of the
file, or gets its first block. -/
theorem writei_obeys (hw : Wf t) (hn : Ino t ino) (hoff : off < 2 ^ 32) :
    (view t ino).Obeys (2 ^ 32) (view (writei now t ino src off).1 ino) off src
        (writei now t ino src off).2 ↔
      src.length = 0 ∨ off ≤ size t ino ∨ Fits t (inodes t) ino (off / bsize) := by
  obtain ⟨t', k, h, hk, hst, hzero, -⟩ := writei_spec now src hw.sound hn hoff
  have hn' : Ino t' ino := hst.like.valid.2 hn
  rw [h]
  refine (View.obeys_iff (by decide) (fun o m ho hm => readi_spec hw.sound hn ho hm)
    (fun o m ho hm => readi_spec hst.sound hn' ho hm) size_lt hk ?_ (hw.clean ino hn) hst.size).trans ?_
  · intro x
    rw [hst.content ino x]
    exact if_congr (and_iff_right rfl) rfl rfl
  · change src.length = 0 ∨ off ≤ size t ino ∨ k ≠ 0 ↔ _
    have hnz : k ≠ 0 ↔ src.length ≠ 0 ∧ Fits t (inodes t) ino (off / bsize) := by
      rw [ne_eq, hzero]
      tauto
    rw [hnz]
    tauto

/-! ## A small disk -/

/-- A disk with four inodes, one bitmap block and `data` blocks for files, all free. -/
def smallDisk (data : Nat) : Tfs where
  disk s j := if s = 1026 ∧ j = 0 then 7 else 0
  nsectors := 1027 + data
  fails := fun _ _ => false
  total := 3 + data
  ninodes := 4
  istart := 1
  bmstart := 2
  dstart := 3
  freeBlocks := data
  freeInodes := 3
  bhint := 3
  sb := fun _ => 0

theorem smallDisk_geometry {data : Nat} (h : data ≤ 4093) : Geometry (smallDisk data) := by
  constructor
  case works => exact fun _ _ _ => rfl
  all_goals
    simp only [smallDisk, bitmapBlocks, u32, fsSector0]
    omega

theorem smallDisk_inodes {data n w : Nat} (hn : n < 4) : inodes (smallDisk data) n w = 0 := by
  have hb : block (smallDisk data) ((smallDisk data).istart + n / 4) = fun _ => 0 := by
    funext j
    have hsec : sector (1 + n / 4) = 1025 := by
      unfold sector u32 fsSector0
      omega
    show (if sector (1 + n / 4) = 1026 ∧ j = 0 then _ else _) = _
    rw [hsec]
    simp
  unfold inodes
  rw [hb, word_zero]

theorem smallDisk_wf {data : Nat} (h : data ≤ 4093) (hc : Counted (smallDisk data)) :
    Wf (smallDisk data) := by
  have hroots : ∀ r, roots (smallDisk data) (inodes (smallDisk data)) r = 0 := by
    intro r
    unfold roots
    split_ifs with hr
    · rw [smallDisk_inodes hr.2.1]
      rfl
    · rfl
  have hnode : ∀ p, nodeAt (smallDisk data) (inodes (smallDisk data)) p = 0 := by
    intro p
    unfold nodeAt node
    rw [hroots, follow_zero]
  refine ⟨⟨smallDisk_geometry h, hc, ?_, ?_⟩, ?_⟩
  · intro p q _ _ hne
    exact absurd (hnode p) hne
  · intro p _ hne
    exact absurd (hnode p) hne
  · intro n _ x _
    unfold content blockOf
    cases place (x / bsize) with
    | none => rfl
    | some si =>
      simp only [hnode]
      rfl

end Tortoise.DiskFs
