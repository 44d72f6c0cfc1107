import Tortoise.Tfs.Trees

/-!
# Finding the blocks of a file

`bmap` follows one path of the forest.  All four cases of the source are the same walk: the
root, a new block if it has none, and then one entry after the other (`bmap_eq`).

* `bmap_read`: without allocation `bmap` returns the block of the file and changes nothing.
* `bmap_spec`: with allocation it keeps the state sound and every byte of every file, and it
  has a block exactly if the blocks missing on the way can be had (`Fits`).
-/

namespace Tortoise.DiskFs

open Function Lib.Forest List

/-! ## One walk for all cases -/

/-- The root of a walk: a new block if there is none and `alloc` is set. -/
def ensure (alloc : Bool) (t : Tfs) (b : Nat) : Tfs × Nat :=
  if b = 0 ∧ alloc then balloc t else (t, b)

/-- One entry further. -/
def advance (alloc : Bool) (s : Tfs × Nat) (i : Nat) : Tfs × Nat :=
  if s.2 = 0 then (s.1, 0) else entry s.1 s.2 i alloc

variable {t t' t'' t1 : Tfs} {J J' : Nat → TInode} {b c i n ino fb v s x : Nat} {is js : List Nat}
  {p q : Root × List Nat} {ip : TInode} {buf : Block} {alloc : Bool} {r : Root}

theorem indEntry_eq (t : Tfs) (b i : Nat) (alloc : Bool) :
    ∃ d, (alloc = false → d = false) ∧ indEntry t b i alloc =
    ((advance alloc (ensure alloc t b) i).1, (ensure alloc t b).2, d,
      (advance alloc (ensure alloc t b) i).2) := by
  unfold indEntry ensure advance
  by_cases hb : b = 0
  · cases alloc with
    | false => exact ⟨false, fun _ => rfl, by simp [hb]⟩
    | true =>
      by_cases hn : (balloc t).2 = 0
      · exact ⟨false, nofun, by simp [hb, hn]⟩
      · exact ⟨true, nofun, by simp [hb, hn]⟩
  · exact ⟨false, fun _ => rfl, by simp [hb]⟩

theorem bmapTree_eq {w : Nat} : ∃ d, (alloc = false → d = false) ∧
    bmapTree t ino ip w i is alloc =
      (if d then iput' ((i :: is).foldl (advance alloc) (ensure alloc t (ip w).toNat)).1 ino
          (update ip w (BitVec.ofNat 32 (ensure alloc t (ip w).toNat).2))
        else ((i :: is).foldl (advance alloc) (ensure alloc t (ip w).toNat)).1,
        update ip w (BitVec.ofNat 32 (ensure alloc t (ip w).toNat).2),
        ((i :: is).foldl (advance alloc) (ensure alloc t (ip w).toNat)).2) := by
  obtain ⟨d, hd, h⟩ := indEntry_eq t (ip w).toNat i alloc
  refine ⟨d, hd, ?_⟩
  have hstep : (fun (u : Tfs × Nat) (k : Nat) => if u.2 = 0 then (u.1, 0)
      else ((indEntry u.1 u.2 k alloc).1, (indEntry u.1 u.2 k alloc).2.2.2)) = advance alloc := by
    funext u k
    unfold advance
    by_cases hu : u.2 = 0
    · rw [if_pos hu, if_pos hu]
    · obtain ⟨d', -, h'⟩ := indEntry_eq u.1 u.2 k alloc
      rw [if_neg hu, if_neg hu, h']
      simp [ensure, advance, hu]
  unfold bmapTree
  rw [h]
  simp only [foldl_cons]
  rw [← hstep]

/-- `bmap` follows the path of the place of the block. -/
theorem bmap_eq (t : Tfs) (ino : Nat) (ip : TInode) (alloc : Bool) (h : place fb = some (s, is)) :
    ∃ d, (alloc = false → d = false) ∧
    bmap t ino ip fb alloc =
      (if d then iput' (is.foldl (advance alloc) (ensure alloc t (ip (iDirect + s)).toNat)).1 ino
          (update ip (iDirect + s)
            (BitVec.ofNat 32 (ensure alloc t (ip (iDirect + s)).toNat).2))
        else (is.foldl (advance alloc) (ensure alloc t (ip (iDirect + s)).toNat)).1,
        update ip (iDirect + s)
          (BitVec.ofNat 32 (ensure alloc t (ip (iDirect + s)).toNat).2),
        (is.foldl (advance alloc) (ensure alloc t (ip (iDirect + s)).toNat)).2) := by
  unfold place at h
  unfold bmap
  split_ifs at h with h1 h2 h3 h4
  · cases h
    rw [if_pos h1]
    unfold ensure
    by_cases hr : (ip (iDirect + fb)).toNat = 0 ∧ alloc = true
    · refine ⟨true, fun ha => ?_, ?_⟩
      · rw [ha] at hr
        exact absurd hr.2 (by decide)
      · simp [hr]
    · refine ⟨false, fun _ => rfl, ?_⟩
      simp [hr]
  · cases h
    rw [if_neg h1, if_pos (show fb < 12 + nind by unfold nind; omega)]
    exact bmapTree_eq
  · cases h
    rw [if_neg h1, if_neg (show ¬fb < 12 + nind by unfold nind; omega),
      if_pos (show fb < 12 + nind + nind * nind by unfold nind; omega)]
    exact bmapTree_eq
  · cases h
    rw [if_neg h1, if_neg (show ¬fb < 12 + nind by unfold nind; omega),
      if_neg (show ¬fb < 12 + nind + nind * nind by unfold nind; omega)]
    simp only
    rw [if_neg (show ¬nind * nind * nind ≤ fb - 12 - nind - nind * nind by unfold nind; omega)]
    have e1 : (fb - 12 - nind - nind * nind) / (nind * nind) = (fb - 16524) / 16384 := by
      unfold nind
      omega
    have e2 : (fb - 12 - nind - nind * nind) / nind % nind = (fb - 16524) / 128 % 128 := by
      unfold nind
      omega
    have e3 : (fb - 12 - nind - nind * nind) % nind = (fb - 16524) % 128 := by
      unfold nind
      omega
    rw [e1, e2, e3]
    exact bmapTree_eq

theorem bmap_none (h : place fb = none) : bmap t ino ip fb alloc = (t, ip, 0) := by
  unfold place at h
  split_ifs at h with h1 h2 h3 h4
  unfold bmap
  rw [if_neg h1, if_neg (show ¬fb < 12 + nind by unfold nind; omega),
    if_neg (show ¬fb < 12 + nind + nind * nind by unfold nind; omega)]
  simp only
  rw [if_pos (show nind * nind * nind ≤ fb - 12 - nind - nind * nind by unfold nind; omega)]

/-! ## Without allocation -/

theorem roots_eq (hn : Ino t n) (hs : s < 15) : roots t J (n, s) = (J n (iDirect + s)).toNat :=
  if_pos ⟨hn.1, hn.2, hs⟩

theorem Sound.entry_read (hs : Sound t J) (hp : Place (r, js)) (hne : nodeAt t J (r, js) ≠ 0) :
    entry t (nodeAt t J (r, js)) i false = (t, nodeAt t J (r, js ++ [i])) := by
  have hlt := hs.ne_zero hp hne
  have hcat : nodeAt t J (r, js ++ [i]) = ptrs t (nodeAt t J (r, js)) i := follow_concat hne
  unfold entry
  rw [hs.geo.bread hlt, hcat, ptrs_of_lt hlt]
  simp

theorem Sound.walk_read (hs : Sound t J) (js : List Nat) (hp : Place (r, js ++ is)) :
    is.foldl (advance false) (t, nodeAt t J (r, js)) = (t, nodeAt t J (r, js ++ is)) := by
  induction is generalizing js with
  | nil => simp
  | cons i is ih =>
    have hsplit : js ++ i :: is = (js ++ [i]) ++ is := by simp
    have hstep : advance false (t, nodeAt t J (r, js)) i = (t, nodeAt t J (r, js ++ [i])) := by
      unfold advance
      by_cases hz : nodeAt t J (r, js) = 0
      · rw [if_pos hz]
        have : nodeAt t J (r, js ++ [i]) = 0 := by
          show follow _ _ (js ++ [i]) = 0
          rw [follow_append, show follow (ptrs t) (roots t J r) js = 0 from hz, follow_zero]
        rw [this]
      · rw [if_neg hz]
        exact hs.entry_read hp.of_append hz
    rw [foldl_cons, hstep, hsplit]
    exact ih (js ++ [i]) (hsplit ▸ hp)

/-- **Without allocation** `bmap` returns the block of the file and changes nothing. -/
theorem bmap_read (hs : Sound t J) (hn : Ino t ino) :
    bmap t ino (J ino) fb false = (t, J ino, blockOf t J ino fb) := by
  unfold blockOf
  cases hpl : place fb with
  | none => exact bmap_none hpl
  | some si =>
    obtain ⟨s, is⟩ := si
    obtain ⟨hsl, -, hp⟩ := place_valid (n := ino) hpl
    obtain ⟨d, hd, h⟩ := bmap_eq t ino (J ino) false hpl
    have hroot : ensure false t (J ino (iDirect + s)).toNat = (t, nodeAt t J ((ino, s), [])) := by
      unfold ensure
      rw [if_neg (by simp)]
      exact congrArg _ (roots_eq hn hsl).symm
    have hwalk := hs.walk_read (r := (ino, s)) [] hp
    rw [h, hd rfl, hroot, hwalk]
    have hsame : update (J ino) (iDirect + s)
        (BitVec.ofNat 32 (nodeAt t J ((ino, s), []))) = J ino := by
      rw [show nodeAt t J ((ino, s), []) = (J ino (iDirect + s)).toNat from roots_eq hn hsl]
      simp
    simp only [nil_append, hsame]
    rfl

/-! ## With allocation -/

theorem foldl_advance_zero : is.foldl (advance alloc) (t, 0) = (t, 0) := by
  induction is with
  | nil => rfl
  | cons i is ih => exact ih

/-- What the entry of a block of pointers is after `entry`: what it was, nothing for want of
space, or a new block. -/
theorem Sound.entry_grow (hs : Sound t J) (hp : Place (r, js)) (hlen : js.length < levels r)
    (hne : nodeAt t J (r, js) ≠ 0) :
    (nodeAt t J (r, js ++ [i]) ≠ 0 ∧
      entry t (nodeAt t J (r, js)) i true = (t, nodeAt t J (r, js ++ [i]))) ∨
    (nodeAt t J (r, js ++ [i]) = 0 ∧ t.freeBlocks = 0 ∧
      entry t (nodeAt t J (r, js)) i true = (t, 0)) ∨
    (nodeAt t J (r, js ++ [i]) = 0 ∧ t.freeBlocks ≠ 0 ∧ ∃ t' v,
      entry t (nodeAt t J (r, js)) i true = (t', v) ∧ Grown t J t' J (r, js ++ [i]) v) := by
  have hlt := hs.ne_zero hp hne
  have hcat : nodeAt t J (r, js ++ [i]) = ptrs t (nodeAt t J (r, js)) i := follow_concat hne
  have hrd : ptrs t (nodeAt t J (r, js)) i = (word (block t (nodeAt t J (r, js))) i).toNat :=
    ptrs_of_lt hlt
  unfold entry
  rw [hs.geo.bread hlt, hcat, hrd]
  by_cases hz : (word (block t (nodeAt t J (r, js))) i).toNat = 0
  · right
    simp only [hz, and_self, if_true]
    rcases balloc_spec hs.geo hs.count with ⟨hf, hba⟩ | ⟨hf, ht⟩
    · left
      rw [hba]
      exact ⟨trivial, hf, rfl⟩
    · right
      have hv := hs.geo.dataBlock_pos ht.data
      have g1 := hs.geo.like ht.like
      have hlt1 : nodeAt t J (r, js) < (balloc t).1.total := ht.like.total.symm ▸ hlt
      refine ⟨trivial, hf, _, _, ?_, ht.grown_entry (p := (r, js)) hs hp hlen hne (hrd.trans hz)⟩
      rw [if_neg hv, g1.bread hlt1]
      simp only [g1.bwrite hlt1]
  · left
    exact ⟨hz, by simp [hz]⟩

theorem Grown.lacking (hg : Grown t J t' J' p v) (hi : ∀ i ∈ is, i < nind) :
    lacking (ptrs t') v is = is.length := by
  cases is with
  | nil => exact if_neg hg.pos
  | cons i is =>
    rw [lacking_cons hg.pos, hg.empty i (hi i (mem_cons_self ..)), lacking_zero,
      length_cons]

/-- A walk with allocation: it arrives exactly if what is missing can be had. -/
theorem Sound.walk_grow (hs : Sound t J) (js : List Nat) (hp : Place (r, js ++ is))
    (hne : nodeAt t J (r, js) ≠ 0) :
    ∃ t' v, is.foldl (advance true) (t, nodeAt t J (r, js)) = (t', v) ∧ Extends t J t' J ∧
      (lacking (ptrs t) (nodeAt t J (r, js)) is ≤ t.freeBlocks →
        v ≠ 0 ∧ v = nodeAt t' J (r, js ++ is)) ∧
      (t.freeBlocks < lacking (ptrs t) (nodeAt t J (r, js)) is → v = 0) ∧
      t.freeBlocks ≤ t'.freeBlocks + is.length := by
  induction is generalizing t js with
  | nil =>
    refine ⟨t, nodeAt t J (r, js), rfl, Extends.refl hs, fun _ => ⟨hne, by rw [append_nil]⟩,
      ?_, le_rfl⟩
    intro h
    rw [lacking, if_neg hne] at h
    omega
  | cons i is ih =>
    have hsplit : js ++ i :: is = (js ++ [i]) ++ is := by simp
    have hp' : Place (r, (js ++ [i]) ++ is) := hsplit ▸ hp
    have hlen : js.length < levels r := by
      have := hp.length
      simp only [length_append, length_cons] at this
      omega
    have hind : ∀ k ∈ is, k < nind := fun k hk => hp.index k (by simp [hk])
    have hcat : nodeAt t J (r, js ++ [i]) = ptrs t (nodeAt t J (r, js)) i := follow_concat hne
    have hstep : advance true (t, nodeAt t J (r, js)) i = entry t (nodeAt t J (r, js)) i true :=
      if_neg hne
    rw [foldl_cons, hstep, lacking_cons hne, ← hcat, hsplit]
    rcases hs.entry_grow hp.of_append hlen hne (i := i) with
      ⟨hz, he⟩ | ⟨hz, hf, he⟩ | ⟨hz, hf, t1, v, he, hg⟩
    · rw [he]
      obtain ⟨t2, u, hfold, hext, hyes, hno, hcount⟩ := ih hs (js ++ [i]) hp' hz
      exact ⟨t2, u, hfold, hext, hyes, hno, by rw [length_cons]; omega⟩
    · rw [he, foldl_advance_zero, hz, lacking_zero]
      exact ⟨t, 0, rfl, Extends.refl hs, fun h => by omega, fun _ => rfl, by omega⟩
    · have hv : nodeAt t1 J (r, js ++ [i]) ≠ 0 := hg.here.symm ▸ hg.pos
      obtain ⟨t2, u, hfold, hext, hyes, hno, hcount⟩ := ih hg.sound (js ++ [i]) hp' hv
      rw [hg.here, hg.lacking hind, hg.count] at hyes hno
      rw [hg.here] at hfold
      rw [hg.count] at hcount
      rw [he, hz, lacking_zero]
      exact ⟨t2, u, hfold, hg.toExtends.trans hext, fun h => hyes (by omega),
        fun h => hno (by omega), by rw [length_cons]; omega⟩

/-- The blocks missing on the way to file block `fb` can be had. -/
def Fits (t : Tfs) (J : Nat → TInode) (ino fb : Nat) : Prop :=
  match place fb with
  | none => False
  | some (s, is) => lacking (ptrs t) (roots t J (ino, s)) is ≤ t.freeBlocks

/-- What `bmap` on a copy of inode `ino` can do. -/
structure Mapped (t : Tfs) (J : Nat → TInode) (t' : Tfs) (J' : Nat → TInode) (ino : Nat) : Prop where
  like : Like t t'
  sound : Sound t' J'
  keeps : ∀ p, Place p → nodeAt t J p ≠ 0 → nodeAt t' J' p = nodeAt t J p
  content : ∀ n x, content t' J' n x = content t J n x
  others : ∀ n, Ino t n → n ≠ ino → ∀ w < 32, inodes t' n w = inodes t n w

theorem Extends.mapped (h : Extends t J t' J') (g : Geometry t) : Mapped t J t' J' ino :=
  ⟨h.like, h.sound, h.keeps, h.content, fun n hn _ w _ => by
    show word (block t' (t'.istart + n / 4)) _ = _
    rw [h.like.istart, h.inodes _ (g.inodeBlock hn)]
    rfl⟩

theorem Put.nodeAt (hp : Put t t' ino ip) (hs : Sound t J) (hq : Place q) :
    nodeAt t' J q = nodeAt t J q := by
  refine nodeAt_of_agree hs hp.like ?_ hq
  intro q hq _ hne
  have hd := (hs.used q hq hne).1
  exact hp.block _ hd.2 (hs.geo.not_inodeBlock hd)

theorem Put.marked (hp : Put t t' ino ip) (g : Geometry t) (hc : c < t.total) :
    marked t' c = marked t c := by
  have h1 := g.bitmap_lt hc
  have h2 : ¬InodeBlock t (t.bmstart + c / 4096) := fun h => by
    have := h.2
    omega
  rw [hp.like.marked_eq, hp.block _ h1 h2]
  rfl

theorem Put.sound (hp : Put t t' ino ip) (hs : Sound t J) : Sound t' J :=
  hs.of_nodes hp.like (hs.count.congr hp.like hp.freeBlocks fun _ hc => hp.marked hs.geo hc)
    (fun _ hq _ => hp.nodeAt hs hq) fun _ _ _ hlt hm => (hp.marked hs.geo hlt).trans hm

theorem Put.content (hp : Put t t' ino ip) (hs : Sound t J) : content t' J n x = content t J n x := by
  cases hpx : place (x / bsize) with
  | none => rw [content_of_none hpx, content_of_none hpx]
  | some si =>
    obtain ⟨s, is⟩ := si
    have hq := (place_valid (n := n) hpx).2.2
    rw [content_eq hpx, content_eq hpx, hp.nodeAt hs hq]
    by_cases hz : DiskFs.nodeAt t J ((n, s), is) = 0
    · rw [if_pos hz, if_pos hz]
    · have hd := (hs.used _ hq hz).1
      rw [if_neg hz, if_neg hz, hp.block _ hd.2 (hs.geo.not_inodeBlock hd)]

theorem Mapped.put (h : Mapped t J t' J' ino) (hp : Put t' t'' ino ip) : Mapped t J t'' J' ino where
  like := h.like.trans hp.like
  sound := hp.sound h.sound
  keeps q hq hne := (hp.nodeAt h.sound hq).trans (h.keeps q hq hne)
  content n x := (hp.content h.sound).trans (h.content n x)
  others n hn hne w hw := (hp.others n (h.like.valid.2 hn) hne w hw).trans (h.others n hn hne w hw)

/-- The root of a walk, as it is or as a new block. -/
theorem Sound.fetch (hs : Sound t J) (hn : Ino t ino) (hsl : s < 15) (hp : Place ((ino, s), is)) :
    ∃ b t' v, (ensure true t (J ino (iDirect + s)).toNat).2 = b ∧
      is.foldl (advance true) (ensure true t (J ino (iDirect + s)).toNat) = (t', v) ∧
      Extends t J t' (setSlot J ino s b) ∧
      (lacking (ptrs t) (roots t J (ino, s)) is ≤ t.freeBlocks →
        v ≠ 0 ∧ v = nodeAt t' (setSlot J ino s b) ((ino, s), is)) ∧
      (t.freeBlocks < lacking (ptrs t) (roots t J (ino, s)) is → v = 0) ∧
      t.freeBlocks ≤ t'.freeBlocks + (is.length + 1) := by
  have hroot : roots t J (ino, s) = (J ino (iDirect + s)).toNat := roots_eq hn hsl
  have hsame : setSlot J ino s (roots t J (ino, s)) = J := by
    unfold setSlot
    rw [hroot]
    simp
  rw [← hroot]
  unfold ensure
  by_cases hz : roots t J (ino, s) = 0
  · rw [if_pos ⟨hz, rfl⟩]
    rcases balloc_spec hs.geo hs.count with ⟨hf, hba⟩ | ⟨hf, ht⟩
    · rw [hz] at hsame
      rw [hba, foldl_advance_zero, hz, lacking_zero]
      exact ⟨0, t, 0, rfl, rfl, hsame.symm ▸ Extends.refl hs, fun h => by omega, fun _ => rfl,
        by omega⟩
    · have hg := ht.grown_root hs hn hsl hz
      have hv : nodeAt (balloc t).1 (setSlot J ino s (balloc t).2) ((ino, s), []) ≠ 0 :=
        hg.here.symm ▸ hg.pos
      obtain ⟨t2, u, hfold, hext, hyes, hno, hcount⟩ := hg.sound.walk_grow [] hp hv
      have hlack : lacking (ptrs (balloc t).1) (balloc t).2 is = is.length := hg.lacking hp.index
      rw [hg.here, hlack, hg.count] at hyes hno
      rw [hg.here] at hfold
      rw [hg.count] at hcount
      rw [hz, lacking_zero]
      exact ⟨_, t2, u, rfl, hfold, hg.toExtends.trans hext, fun h => hyes (by omega),
        fun h => hno (by omega), by omega⟩
  · rw [if_neg (fun h => hz h.1)]
    obtain ⟨t2, u, hfold, hext, hyes, hno, hcount⟩ := hs.walk_grow (r := (ino, s)) [] hp hz
    exact ⟨_, t2, u, rfl, hfold, hsame.symm ▸ hext, fun h => hsame.symm ▸ hyes h, hno, by omega⟩

/-- **With allocation** `bmap` keeps the state sound and every byte of every file, and it has a
block exactly if the blocks missing on the way can be had. -/
theorem bmap_spec (hs : Sound t J) (hn : Ino t ino) (fb : Nat) :
    ∃ t' ip' r, bmap t ino (J ino) fb true = (t', ip', r) ∧
      Mapped t J t' (update J ino ip') ino ∧
      (∀ w, w < iDirect → ip' w = J ino w) ∧
      (Fits t J ino fb → r ≠ 0 ∧ r = blockOf t' (update J ino ip') ino fb) ∧
      (¬Fits t J ino fb → r = 0) ∧ t.freeBlocks ≤ t'.freeBlocks + 4 := by
  unfold Fits blockOf
  cases hpl : place fb with
  | none =>
    refine ⟨t, J ino, 0, bmap_none hpl, ?_, fun _ _ => rfl, nofun, fun _ => rfl, by omega⟩
    rw [update_eq_self]
    exact (Extends.refl hs).mapped hs.geo
  | some si =>
    obtain ⟨s, is⟩ := si
    obtain ⟨hsl, hlev, hp⟩ := place_valid (n := ino) hpl
    obtain ⟨d, -, h⟩ := bmap_eq t ino (J ino) true hpl
    obtain ⟨b, t', v, hb, hfold, hext, hyes, hno, hcount⟩ := hs.fetch hn hsl hp
    have hlen : is.length + 1 ≤ 4 := by
      unfold levels at hlev
      simp only at hlev
      omega
    rw [hb, hfold] at h
    have hlow : ∀ w, w < iDirect →
        update (J ino) (iDirect + s) (BitVec.ofNat 32 b) w = J ino w := fun w hw =>
      update_of_ne (by omega) ..
    have hm : Mapped t J t' (setSlot J ino s b) ino := hext.mapped hs.geo
    cases d with
    | false =>
      refine ⟨_, _, _, h, hm, hlow, hyes, fun hf => hno (Nat.lt_of_not_le hf), ?_⟩
      simp only [Bool.false_eq_true, if_false]
      omega
    | true =>
      have hput := iput'_put hext.sound.geo (hext.like.valid.2 hn)
        (update (J ino) (iDirect + s) (BitVec.ofNat 32 b))
      have hfree := hput.freeBlocks
      refine ⟨_, _, _, h, hm.put hput, hlow, ?_, fun hf => hno (Nat.lt_of_not_le hf), ?_⟩
      swap
      · simp only [if_true]
        omega
      intro hf
      refine ⟨(hyes hf).1, ?_⟩
      exact (hyes hf).2.trans (hput.nodeAt hext.sound hp).symm

end Tortoise.DiskFs
