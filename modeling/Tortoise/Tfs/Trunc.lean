import Tortoise.Tfs.File
import Tortoise.Tfs.Free

/-!
# Truncation

`itrunc` frees the direct blocks and the three trees from the first file block behind the new
end, one root after the other (`Sound.cut`), and fills the last block with zeros.

The first block to free is computed in 32 bits.  For a length in the last block below `2 ^ 32`
the sum wraps around to zero, so every block is freed (`itrunc_spec` says what is left).
-/

namespace Tortoise.DiskFs

open Function Lib Lib.Forest List

variable {t t' t'' : Tfs} {J J' J'' : Nat → TInode} {b b' n ino fb s x first len f base : Nat}
  {is js : List Nat} {now : Word} {l l' : List Nat}

/-! ## Cutting one root -/

/-- The root under which file block `fb` hangs. -/
def rootOf (fb : Nat) : Nat := ((place fb).map Prod.fst).getD 15

/-- File block `fb` goes: it is not below `first`, and its root is one of `l`. -/
def gone (first : Nat) (l : List Nat) (fb : Nat) : Bool := decide (first ≤ fb ∧ rootOf fb ∈ l)

/-- Of file `ino` the blocks that go are gone; nothing else changed in any file. -/
structure Trimmed (t : Tfs) (J : Nat → TInode) (t' : Tfs) (J' : Nat → TInode) (ino first : Nat)
    (l : List Nat) : Prop where
  like : Like t t'
  sound : Sound t' J'
  content : ∀ n x, content t' J' n x =
    if n = ino ∧ gone first l (x / bsize) then 0 else content t J n x
  inodes : ∀ c, InodeBlock t c → block t' c = block t c

theorem Trimmed.refl (hs : Sound t J) : Trimmed t J t J ino first [] :=
  ⟨Like.refl t, hs, fun n x => by simp [gone], fun _ _ => rfl⟩

theorem Trimmed.trans (h : Trimmed t J t' J' ino first l) (h' : Trimmed t' J' t'' J'' ino first l') :
    Trimmed t J t'' J'' ino first (l ++ l') where
  like := h.like.trans h'.like
  sound := h'.sound
  content n x := by
    rw [h'.content n x, h.content n x, ← ite_or]
    refine if_congr ?_ rfl rfl
    simp only [gone, decide_eq_true_eq, mem_append]
    tauto
  inodes c hc := (h'.inodes c (h.like.inodeBlock.2 hc)).trans (h.inodes c hc)

/-- A path in the tree under a root. -/
theorem place_iff {r : Root} : Place (r, js) ↔ Path (levels r) js :=
  ⟨fun h => ⟨h.length, h.index⟩, fun h => ⟨h.length, h.index⟩⟩

theorem Sound.tree (hs : Sound t J) (ino s : Nat) : Tree t (roots t J (ino, s)) (levels (ino, s)) := by
  constructor
  · intro js hj hne
    exact hs.used ((ino, s), js) (place_iff.2 hj) hne
  · intro js ks hj hk hne he
    exact (Prod.mk.inj (hs.apart ((ino, s), js) _ (place_iff.2 hj) (place_iff.2 hk) hne he)).2

theorem rootOf_eq (h : place fb = some (s, is)) : rootOf fb = s := by
  unfold rootOf
  rw [h]
  rfl

/-- **One root is cut.** -/
theorem Sound.cut (hs : Sound t J) (hn : Ino t ino) (hsl : s < 15)
    (hcut : Cut t t' (roots t J (ino, s)) (levels (ino, s)) f b') (hb' : b' < 4294967296)
    (hf : ∀ fb is, place fb = some (s, is) → (leafIndex is < f ↔ fb < first)) :
    Trimmed t J t' (setSlot J ino s b') ino first [s] := by
  have hroots : roots t' (setSlot J ino s b') = update (roots t J) (ino, s) b' := by
    rw [roots_setSlot (hcut.like.valid.2 hn) hsl hb', roots_congr hcut.like fun _ _ _ _ => rfl]
  have hin : ∀ js, nodeAt t' (setSlot J ino s b') ((ino, s), js) = follow (ptrs t') b' js := by
    intro js
    unfold nodeAt node
    rw [hroots, update_self]
  -- a node of another root is in no tree that is cut
  have hapart : ∀ {r js}, Place (r, js) → r ≠ (ino, s) → nodeAt t J (r, js) ≠ 0 → ∀ ks,
      Path (levels (ino, s)) ks → follow (ptrs t) (roots t J (ino, s)) ks ≠ nodeAt t J (r, js) := by
    intro r js hq hne hz ks hk he
    have := hs.apart (r, js) ((ino, s), ks) hq (place_iff.2 hk) hz he.symm
    exact hne (congrArg Prod.fst this)
  have hout : ∀ {r js}, Place (r, js) → r ≠ (ino, s) →
      nodeAt t' (setSlot J ino s b') (r, js) = nodeAt t J (r, js) := by
    intro r qs hq hne
    unfold nodeAt node
    rw [hroots, update_of_ne hne]
    refine (place_iff.1 hq).follow_eq hcut.like fun js hj _ hz => ?_
    have hd := (hs.used (r, js) (place_iff.2 hj) hz).1
    exact ⟨hd, hcut.blocks _ (.inr hd) fun ks hk _ => hapart (place_iff.2 hj) hne hz ks hk⟩
  have hnodes : ∀ q, Place q → nodeAt t' (setSlot J ino s b') q ≠ 0 →
      nodeAt t' (setSlot J ino s b') q = nodeAt t J q := by
    rintro ⟨r, js⟩ hq hz
    by_cases hr : r = (ino, s)
    · subst hr
      rw [hin] at hz ⊢
      exact (hcut.nodes js (place_iff.1 hq)).resolve_right hz
    · exact hout hq hr
  refine ⟨hcut.like, hs.of_nodes hcut.like hcut.count hnodes ?_, ?_, ?_⟩
  · rintro ⟨r, js⟩ hp hz hlt hm
    have hz' := (hnodes _ hp hz).symm.trans_ne hz
    by_cases hr : r = (ino, s)
    · subst hr
      rw [hin] at hz
      exact (hcut.left js (place_iff.1 hp) hz').trans (decide_eq_true hz)
    · rw [hcut.marks _ hlt (hapart hp hr hz'), hm]
  · intro n x
    cases hpx : place (x / bsize) with
    | none => rw [content_of_none hpx, content_of_none hpx, ite_self]
    | some si =>
      obtain ⟨s', is⟩ := si
      obtain ⟨-, hlen, hq⟩ := place_valid (n := n) hpx
      -- a leaf that is left holds what it held
      have hleaf : nodeAt t J ((n, s'), is) ≠ 0 →
          block t' (nodeAt t J ((n, s'), is)) = block t (nodeAt t J ((n, s'), is)) := by
        intro hz
        refine hcut.blocks _ (.inr (hs.used _ hq hz).1) ?_
        intro js hj hl he
        have := hs.apart _ _ hq (place_iff.2 hj) hz he.symm
        obtain ⟨⟨rfl, rfl⟩, rfl⟩ := by simpa using this
        omega
      have hgone : (n = ino ∧ gone first [s] (x / bsize) = true) ↔
          (n, s') = (ino, s) ∧ first ≤ x / bsize := by
        simp only [gone, rootOf_eq hpx, mem_singleton, decide_eq_true_eq, Prod.mk.injEq]
        tauto
      have hnode : nodeAt t' (setSlot J ino s b') ((n, s'), is) =
          if (n, s') = (ino, s) ∧ first ≤ x / bsize then 0 else nodeAt t J ((n, s'), is) := by
        by_cases hr : (n, s') = (ino, s)
        · obtain ⟨rfl, rfl⟩ := Prod.mk.inj hr
          rw [hin, hcut.leaves is (place_iff.1 hq) hlen, ← ite_not]
          refine if_congr ?_ rfl rfl
          rw [hf _ is hpx, Nat.not_lt]
          simp
        · rw [hout hq hr, if_neg fun h => hr h.1]
      rw [content_eq hpx, content_eq hpx, hnode, if_congr hgone rfl rfl]
      by_cases hg : (n, s') = (ino, s) ∧ first ≤ x / bsize
      · rw [if_pos hg, if_pos rfl, if_pos hg]
      · rw [if_neg hg, if_neg hg]
        by_cases hz : nodeAt t J ((n, s'), is) = 0
        · rw [if_pos hz, if_pos hz]
        · rw [if_neg hz, if_neg hz, hleaf hz]
  · intro c hc
    refine hcut.blocks c (.inl hc) ?_
    rintro js hj _ rfl
    have hz : follow (ptrs t) (roots t J (ino, s)) js ≠ 0 := by
      have := hs.geo.super
      have := hc.1
      omega
    exact hs.geo.not_inodeBlock (hs.used ((ino, s), js) (place_iff.2 hj) hz).1 hc

/-- The first file block under a root. -/
def rootBase (s : Nat) : Nat :=
  if s < 12 then s else if s = 12 then 12 else if s = 13 then 140 else 16524

theorem place_base (h : place fb = some (s, is)) : fb = rootBase s + leafIndex is := by
  unfold place at h
  split_ifs at h with h1 h2 h3 h4
  · cases h
    simp [rootBase, h1, leafIndex]
  · cases h
    simp only [show rootBase 12 = 12 from rfl, leafIndex, nind, length_nil]
    omega
  · cases h
    simp only [show rootBase 13 = 140 from rfl, leafIndex, nind, length_cons, length_nil]
    omega
  · cases h
    simp only [show rootBase 14 = 16524 from rfl, leafIndex, nind, length_cons,
      length_nil]
    omega

theorem setSlot_eq (J : Nat → TInode) (ino s b : Nat) :
    setSlot J ino s b =
      update J ino (update (J ino) (iDirect + s) (BitVec.ofNat 32 b)) := rfl

/-- What a step of `itrunc` does to the copy of the inode. -/
structure Trims (t : Tfs) (J : Nat → TInode) (s : Tfs × TInode) (ino first : Nat) (l : List Nat) :
    Prop where
  trimmed : Trimmed t J s.1 (update J ino s.2) ino first l
  low : ∀ w, w < iDirect → s.2 w = J ino w

theorem Trims.trans {u u' : Tfs × TInode} (h : Trims t J u ino first l)
    (h' : Trims u.1 (update J ino u.2) u' ino first l') : Trims t J u' ino first (l ++ l') where
  trimmed := by
    have := h'.trimmed
    rw [update_idem] at this
    exact h.trimmed.trans this
  low w hw := by
    rw [h'.low w hw, update_self, h.low w hw]

theorem freeDirect_trims (hs : Sound t J) (hn : Ino t ino) {i : Nat} (hi : first ≤ i ∧ i < 12) :
    Trims t J (freeDirect (t, J ino) i) ino first [i] := by
  have hroot : roots t J (ino, i) = (J ino (iDirect + i)).toNat := roots_eq hn (by omega)
  have hlev : levels (ino, i) = 0 := by
    unfold levels
    simp only
    omega
  have htree := hs.tree ino i
  rw [hlev] at htree
  have hcut : Cut t (freeDirect (t, J ino) i).1 (roots t J (ino, i)) (levels (ino, i)) 0 0 := by
    unfold freeDirect
    simp only
    rw [hlev, ← hroot]
    by_cases hz : roots t J (ino, i) = 0
    · rw [if_pos hz, hz]
      exact Cut.none hs.count
    · rw [if_neg hz]
      exact Cut.leaf hs.geo hs.count htree hz
  constructor
  · refine hs.cut hn (by omega) hcut (by decide) ?_
    intro fb is hpl
    have hbase := place_base hpl
    unfold rootBase at hbase
    rw [if_pos hi.2] at hbase
    omega
  · intro w hw
    exact update_of_ne (by omega) ..

theorem foldl_freeDirect_trims (hs : Sound t J) (hn : Ino t ino)
    (hl : ∀ i ∈ l, first ≤ i ∧ i < 12) : Trims t J (l.foldl freeDirect (t, J ino)) ino first l := by
  induction l generalizing t J with
  | nil =>
    refine ⟨?_, fun _ _ => rfl⟩
    rw [foldl_nil, update_eq_self]
    exact Trimmed.refl hs
  | cons i l ih =>
    have hstep := freeDirect_trims hs hn (hl i (mem_cons_self ..))
    have hself : update J ino (freeDirect (t, J ino) i).2 ino =
        (freeDirect (t, J ino) i).2 := update_self ..
    have hrest := ih hstep.trimmed.sound (hstep.trimmed.like.valid.2 hn)
      fun k hk => hl k (mem_cons_of_mem _ hk)
    rw [hself] at hrest
    exact hstep.trans hrest

theorem freeRoot_trims (first : Nat) (hs : Sound t J) (hn : Ino t ino) {level : Nat}
    (hlevel : level < 3) (hbase : rootBase (12 + level) = base) :
    Trims t J (freeRoot (iDirect + (12 + level)) level base first (t, J ino)) ino first
      [12 + level] := by
  have hroot : roots t J (ino, 12 + level) = (J ino (iDirect + (12 + level))).toNat :=
    roots_eq hn (by omega)
  have hlev : levels (ino, 12 + level) = level + 1 := by
    unfold levels
    simp only
    omega
  have htree := hs.tree ino (12 + level)
  rw [hlev] at htree
  have hcut := freeTree_cut level t (roots t J (ino, 12 + level)) (first - base) hs.geo hs.count htree
  have hf : ∀ fb is, place fb = some (12 + level, is) → (leafIndex is < first - base ↔ fb < first) := by
    intro fb is hpl
    have := place_base hpl
    rw [hbase] at this
    omega
  have hsame : update (J ino) (iDirect + (12 + level))
      (BitVec.ofNat 32 (roots t J (ino, 12 + level))) = J ino := by
    rw [hroot]
    simp
  unfold freeRoot
  simp only
  rw [← hroot]
  rw [← hlev] at hcut
  cases hk : (freeTree level t (roots t J (ino, 12 + level)) (first - base)).2 with
  | true =>
    rw [hk, if_pos rfl] at hcut
    refine ⟨?_, fun _ _ => rfl⟩
    have h := hs.cut hn (by omega) hcut (hroot ▸ (J ino (iDirect + (12 + level))).isLt) hf
    rwa [setSlot_eq, hsame] at h
  | false =>
    rw [hk, if_neg (by decide)] at hcut
    refine ⟨hs.cut hn (by omega) hcut (by decide) hf, ?_⟩
    intro w hw
    exact update_of_ne (by omega) ..

/-- All the roots in turn. -/
theorem free_trims (hs : Sound t J) (hn : Ino t ino) (first : Nat) :
    Trims t J (freeRoot iTind 2 (12 + nind + nind * nind) first
      (freeRoot iDind 1 (12 + nind) first
        (freeRoot iInd 0 12 first
          ((List.range' first (12 - first)).foldl freeDirect (t, J ino))))) ino first
      (List.range' first (12 - first) ++ [12] ++ [13] ++ [14]) := by
  have h1 : Trims t J ((List.range' first (12 - first)).foldl freeDirect (t, J ino)) ino first
      (List.range' first (12 - first)) := by
    apply foldl_freeDirect_trims hs hn
    intro i hi
    have := mem_range'_1.1 hi
    omega
  -- the state and the copy after each step are the starting point of the next
  have hnext : ∀ {u : Tfs × TInode} {l : List Nat}, Trims t J u ino first l → ∀ level base : Nat,
      level < 3 → rootBase (12 + level) = base →
      Trims t J (freeRoot (iDirect + (12 + level)) level base first u) ino first
        (l ++ [12 + level]) := by
    intro u l hu level base hl hb
    have h := freeRoot_trims first hu.trimmed.sound (hu.trimmed.like.valid.2 hn) hl hb
    rw [update_self] at h
    exact hu.trans h
  have h2 := hnext h1 0 12 (by decide) rfl
  have h3 := hnext h2 1 (12 + nind) (by decide) rfl
  exact hnext h3 2 (12 + nind + nind * nind) (by decide) rfl

theorem gone_all (hpl : place fb = some (s, is)) :
    gone first (List.range' first (12 - first) ++ [12] ++ [13] ++ [14]) fb = decide (first ≤ fb) := by
  have hs := (place_valid (n := 0) hpl).1
  have hbase := place_base hpl
  unfold gone
  rw [rootOf_eq hpl]
  apply decide_eq_decide.2
  constructor
  · exact And.left
  · intro hf
    refine ⟨hf, ?_⟩
    by_cases h12 : s < 12
    · have hlen := (place_valid (n := 0) hpl).2.1
      have hnil : is = [] := by
        unfold levels at hlen
        simp only at hlen
        exact length_eq_zero_iff.1 (by omega)
      rw [hnil] at hbase
      simp only [rootBase, h12, if_true, leafIndex, Nat.add_zero] at hbase
      simp only [List.append_assoc, mem_append, mem_range'_1]
      left
      omega
    · simp only [List.append_assoc, mem_append, mem_singleton]
      omega

/-- After all roots: what lay in the blocks from `first` on is gone. -/
theorem Trimmed.content_all {ino first : Nat}
    (h : Trimmed t J t' J' ino first (List.range' first (12 - first) ++ [12] ++ [13] ++ [14]))
    (n x : Nat) : DiskFs.content t' J' n x =
      if n = ino ∧ first ≤ x / bsize then 0 else DiskFs.content t J n x := by
  rw [h.content n x]
  cases hpx : place (x / bsize) with
  | none => rw [content_of_none hpx, ite_self, ite_self]
  | some si =>
    obtain ⟨s, is⟩ := si
    rw [gone_all hpx]
    exact if_congr (by simp) rfl rfl

/-! ## The whole call -/

/-- The last block is filled with zeros behind the new end. -/
theorem zeroTail_spec (hs : Sound t J) (hn : Ino t ino) (hfirst : first = (len + 511) / 512) :
    ∃ t', zeroTail t ino (J ino) len first = (t', J ino) ∧ Like t t' ∧ Sound t' J ∧
      (∀ n x, content t' J n x =
        if n = ino ∧ len ≤ x ∧ x / bsize < first then 0 else content t J n x) ∧
      ∀ n, Ino t n → ∀ w, inodes t' n w = inodes t n w := by
  unfold zeroTail
  by_cases htail : len % bsize ≠ 0 ∧ 0 < first
  · rw [if_pos htail, bmap_read hs hn]
    simp only
    by_cases hb : blockOf t J ino (first - 1) = 0
    · -- a hole has zeros
      rw [if_pos hb]
      refine ⟨t, rfl, Like.refl t, hs, ?_, fun _ _ _ => rfl⟩
      intro n x
      split_ifs with hx
      · obtain ⟨rfl, h1, h2⟩ := hx
        have hfb : x / bsize = first - 1 := by
          unfold bsize at h2 htail ⊢
          omega
        unfold content
        rw [hfb, if_pos hb]
      · rfl
    · rw [if_neg hb, hs.geo.bread (hs.blockOf_lt hb)]
      simp only
      rw [hs.geo.bwrite' (hs.blockOf_lt hb)]
      obtain ⟨hl, hs', hcont, hino⟩ := hs.write (fun j => if len % bsize ≤ j ∧ j < bsize then 0
        else block t (blockOf t J ino (first - 1)) j) hb
      refine ⟨_, rfl, hl, hs', ?_, hino⟩
      intro n x
      rw [hcont n x]
      by_cases hx : n = ino ∧ x / bsize = first - 1
      · obtain ⟨rfl, hx⟩ := hx
        rw [if_pos ⟨rfl, hx⟩]
        have hiff : len % bsize ≤ x % bsize ∧ x % bsize < bsize ↔
            n = n ∧ len ≤ x ∧ x / bsize < first := by
          unfold bsize at hx htail ⊢
          omega
        refine if_congr hiff rfl ?_
        unfold content
        rw [hx, if_neg hb]
      · rw [if_neg hx, if_neg]
        rintro ⟨rfl, h1, h2⟩
        unfold bsize at hx h2 htail
        omega
  · rw [if_neg htail]
    refine ⟨t, rfl, Like.refl t, hs, ?_, fun _ _ _ => rfl⟩
    intro n x
    rw [if_neg]
    rintro ⟨-, h1, h2⟩
    unfold bsize at h2 htail
    omega

/-- What a truncation of `ino` to `len` leaves, when the blocks from `first` on go. -/
structure Truncated (t t' : Tfs) (ino len : Nat) (lost : Nat → Prop) [DecidablePred lost] : Prop where
  like : Like t t'
  sound : Sound t' (inodes t')
  size : size t' ino = len
  sizes : ∀ n, Ino t n → n ≠ ino → DiskFs.size t' n = DiskFs.size t n
  content : ∀ n x, content t' (inodes t') n x =
    if n = ino ∧ lost x then 0 else content t (inodes t) n x

/-- The final `iput` of a truncation. -/
theorem iput_truncated (now : Word) (di : TInode) (lost : Nat → Prop) [DecidablePred lost]
    (hn : Ino t ino) (hlen : len < 2 ^ 32) {t1 : Tfs} (hl : Like t t1)
    (hs1 : Sound t1 (update (inodes t) ino di))
    (hcont : ∀ n x, content t1 (update (inodes t) ino di) n x =
      if n = ino ∧ lost x then 0 else content t (inodes t) n x)
    (hino : ∀ n, Ino t n → n ≠ ino → ∀ w < 32, inodes t1 n w = inodes t n w) :
    ∃ t', iput t1 ino (stamp di (BitVec.ofNat 32 len) now) = some t' ∧
      Truncated t t' ino len lost := by
  obtain ⟨t', h, hput⟩ := inodes_iput hs1.geo (hl.valid.2 hn) (stamp di (BitVec.ofNat 32 len) now)
  obtain ⟨hlike, hsound, hcont', hsize, hsizes⟩ := put_back hput hl hs1 hino
  refine ⟨t', h, hlike, hsound, ?_, hsizes, fun n x => (hcont' n x).trans (hcont n x)⟩
  rw [hsize, BitVec.toNat_ofNat, Nat.mod_eq_of_lt hlen]

/-- The lengths for which the first block to free comes out as zero. -/
def Wraps (len : Nat) : Prop := 2 ^ 32 - 512 < len

instance (len : Nat) : Decidable (Wraps len) := inferInstanceAs (Decidable (_ < _))

/-- **Truncation.**  A longer or equal length only changes the size.  A shorter one takes away
what lies behind it, and everything if the length wraps. -/
theorem itrunc_spec (now : Word) (hs : Sound t (inodes t)) (hn : Ino t ino) (hlen : len < 2 ^ 32) :
    ∃ t', itrunc now t ino len = (t', 0) ∧
      Truncated t t' ino len fun x => len < size t ino ∧ (len ≤ x ∨ Wraps len) := by
  unfold itrunc
  rw [hs.geo.iget hn]
  simp only
  by_cases hle : size t ino ≤ len
  · have hle' : (inodes t ino iSize).toNat ≤ len := hle
    rw [if_pos hle']
    obtain ⟨t', h, htr⟩ := iput_truncated now (inodes t ino)
      (fun x => len < size t ino ∧ (len ≤ x ∨ Wraps len)) hn hlen (Like.refl t)
      (by rw [update_eq_self]; exact hs)
      (by
        intro n x
        rw [update_eq_self, if_neg]
        rintro ⟨-, h, -⟩
        omega)
      fun _ _ _ _ _ => rfl
    rw [h]
    exact ⟨t', rfl, htr⟩
  · have hle' : ¬(inodes t ino iSize).toNat ≤ len := hle
    rw [if_neg hle']
    set first := u32 (len + bsize - 1) / bsize with hfirst
    have htrim := free_trims hs hn first
    generalize freeRoot iTind 2 (12 + nind + nind * nind) first
      (freeRoot iDind 1 (12 + nind) first (freeRoot iInd 0 12 first
        ((List.range' first (12 - first)).foldl freeDirect (t, inodes t ino)))) = u at htrim ⊢
    have htr := htrim.trimmed
    have hself : update (inodes t) ino u.2 ino = u.2 := update_self ..
    have hino1 : ∀ n, Ino t n → ∀ w, inodes u.1 n w = inodes t n w := by
      intro n hnt w
      show word (block u.1 (u.1.istart + n / 4)) _ = _
      rw [htr.like.istart, htr.inodes _ (hs.geo.inodeBlock hnt)]
      rfl
    have hall := htr.content_all
    have hlast : ∃ t2, zeroTail u.1 ino u.2 len first = (t2, u.2) ∧ Like u.1 t2 ∧
        Sound t2 (update (inodes t) ino u.2) ∧
        (∀ n x, content t2 (update (inodes t) ino u.2) n x =
          if n = ino ∧ (len ≤ x ∨ Wraps len) then 0 else content t (inodes t) n x) ∧
        ∀ n, Ino t n → ∀ w, inodes t2 n w = inodes u.1 n w := by
      by_cases hwrap : Wraps len
      · -- every block is gone, and there is no last block to fill
        have h0 : first = 0 := by
          unfold Wraps at hwrap
          unfold u32 bsize at hfirst
          omega
        refine ⟨u.1, ?_, Like.refl _, htr.sound, ?_, fun _ _ _ => rfl⟩
        · unfold zeroTail
          rw [if_neg (by omega)]
        · intro n x
          rw [hall n x]
          refine if_congr ?_ rfl rfl
          simp only [h0, hwrap, or_true, and_true, Nat.zero_le]
      · have hf : first = (len + 511) / 512 := by
          unfold Wraps at hwrap
          unfold u32 bsize at hfirst
          omega
        obtain ⟨t2, h2, hl2, hs2, hc2, hi2⟩ := zeroTail_spec htr.sound (htr.like.valid.2 hn) hf
        rw [hself] at h2
        refine ⟨t2, h2, hl2, hs2, ?_, fun n hnt w => hi2 n (htr.like.valid.2 hnt) w⟩
        intro n x
        rw [hc2 n x, hall n x, ← ite_or]
        refine if_congr ?_ rfl rfl
        simp only [hwrap, or_false]
        unfold bsize
        omega
    obtain ⟨t2, h2, hl2, hs2, hc2, hi2⟩ := hlast
    rw [h2]
    simp only
    have hlt : len < size t ino := by omega
    obtain ⟨t', h, htrunc⟩ := iput_truncated now u.2
      (fun x => len < size t ino ∧ (len ≤ x ∨ Wraps len)) hn hlen (htr.like.trans hl2) hs2
      (by
        intro n x
        rw [hc2 n x]
        exact if_congr (by simp [hlt]) rfl rfl)
      fun n hnt _ w _ => (hi2 n hnt w).trans (hino1 n hnt w)
    rw [h]
    exact ⟨t', rfl, htrunc⟩

theorem itrunc_wf (hw : Wf t) (hn : Ino t ino) (hlen : len < 2 ^ 32) :
    Wf (itrunc now t ino len).1 := by
  obtain ⟨t', h, htr⟩ := itrunc_spec now hw.sound hn hlen
  rw [h]
  refine ⟨htr.sound, ?_⟩
  show ∀ n, Ino t' n → ∀ x, size t' n ≤ x → content t' (inodes t') n x = 0
  intro n hn' x hx
  have hnt := htr.like.valid.1 hn'
  rw [htr.content n x]
  split_ifs with hc
  · rfl
  · refine hw.clean n hnt x ?_
    by_cases hni : n = ino
    · subst hni
      rw [htr.size] at hx
      omega
    · rw [htr.sizes n hnt hni] at hx
      exact hx

end Tortoise.DiskFs
