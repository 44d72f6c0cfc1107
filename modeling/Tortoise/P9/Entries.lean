import Tortoise.P9.Encode

/-!
# Directory entries

The format of a directory entry, and `convD2M` and `convM2D` against it.  The size field of an
entry has 16 bits and is stored truncated; `convM2D` follows the parser but leaves what comes after
the four strings unread.
-/

namespace Tortoise.P9

open Lib.Cursor List

variable {d : Stat9 (List Byte)}

/-! ## The format -/

/-- The bytes of an entry after its size. -/
def Stat9.print (d : Stat9 (List Byte)) : List Byte :=
  p16 (d.type.setWidth 32) ++ p32 d.dev ++ pqid d.qid ++ p32 d.mode ++ p32 d.atime ++ p32 d.mtime
    ++ p32 d.length ++ p32 d.lengthhi ++ str d.name ++ str d.uid ++ str d.gid ++ str d.muid

def Stat9.cut (d : Stat9 (List Byte)) : Stat9 (List Byte) :=
  { d with name := text d.name, uid := text d.uid, gid := text d.gid, muid := text d.muid }

def Stat9.strings (d : Stat9 (List Byte)) : List (List Byte) := [d.name, d.uid, d.gid, d.muid]

/-- The bytes of an entry. -/
def entry (d : Stat9 (List Byte)) : List Byte :=
  p16 (BitVec.ofNat 32 d.print.length) ++ d.print

/-- The bytes are that entry: the declared size and all inner lengths fit exactly. -/
structure ExactEntry (l : List Byte) (d : Stat9 (List Byte)) : Prop where
  strings : ∀ x ∈ d.strings, x.length < 65536
  size_lt : d.print.length < 65536
  eq : l = entry d

/-- The fixed fields of an entry. -/
abbrev StatHead := Word × Word × Qid × Word × Word × Word × Word × Word

def statHead : Parser StatHead :=
  pair half (pair word (pair qid (pair word (pair word (pair word (pair word word))))))

/-- The entry of fixed fields and strings. -/
def mkStat (x : StatHead) (name uid gid muid : List Byte) : Stat9 (List Byte) :=
  { type := x.1.setWidth 16, dev := x.2.1, qid := x.2.2.1, mode := x.2.2.2.1
    atime := x.2.2.2.2.1, mtime := x.2.2.2.2.2.1, length := x.2.2.2.2.2.2.1
    lengthhi := x.2.2.2.2.2.2.2, name := name, uid := uid, gid := gid, muid := muid }

def parseStat : Parser (Stat9 (List Byte)) := do
  let x ← statHead
  let name ← counted
  let uid ← counted
  let gid ← counted
  let muid ← counted
  pure (mkStat x name uid gid muid)

theorem parseStat_sound {l r : List Byte} (h : parseStat l = some (d, r)) :
    (∀ x ∈ d.strings, x.length < 65536) ∧ l = d.print ++ r := by
  obtain ⟨x, _, h₁, h⟩ := bind_eq_some.mp h
  obtain ⟨name, _, h₂, h⟩ := bind_eq_some.mp h
  obtain ⟨uid, _, h₃, h⟩ := bind_eq_some.mp h
  obtain ⟨gid, _, h₄, h⟩ := bind_eq_some.mp h
  obtain ⟨muid, _, h₅, h⟩ := bind_eq_some.mp h
  obtain ⟨rfl, rfl⟩ := pure_eq_some.mp h
  simp only [statHead, pair_eq_some, word_eq_some, half_eq_some, qid_eq_some] at h₁
  obtain ⟨_, ⟨ht, rfl⟩, _, rfl, _, rfl, _, rfl, _, rfl, _, rfl, _, rfl, rfl⟩ := h₁
  obtain ⟨hname, rfl⟩ := counted_eq_some.mp h₂
  obtain ⟨huid, rfl⟩ := counted_eq_some.mp h₃
  obtain ⟨hgid, rfl⟩ := counted_eq_some.mp h₄
  obtain ⟨hmuid, rfl⟩ := counted_eq_some.mp h₅
  refine ⟨by simp [Stat9.strings, mkStat, hname, huid, hgid, hmuid], ?_⟩
  simp [Stat9.print, mkStat, setWidth_setWidth_of_lt ht]

theorem parseStat_print (hs : ∀ x ∈ d.strings, x.length < 65536) (r : List Byte)
    : parseStat (d.print ++ r) = some (d, r) := by
  have ht : (d.type.setWidth 32).toNat < 65536 := by
    rw [BitVec.toNat_setWidth]
    have := d.type.isLt
    omega
  refine bind_eq_some.mpr ⟨(d.type.setWidth 32, d.dev, d.qid, d.mode, d.atime, d.mtime, d.length,
    d.lengthhi), str d.name ++ (str d.uid ++ (str d.gid ++ (str d.muid ++ r))), ?_, ?_⟩
  · simp only [statHead, pair_eq_some, word_eq_some, half_eq_some, qid_eq_some]
    exact ⟨_, ⟨ht, by simp [Stat9.print]⟩, _, rfl, _, rfl, _, rfl, _, rfl, _, rfl, _, rfl, rfl⟩
  refine bind_eq_some.mpr ⟨d.name, _, counted_eq_some.mpr ⟨hs _ (by simp [Stat9.strings]), rfl⟩, ?_⟩
  refine bind_eq_some.mpr ⟨d.uid, _, counted_eq_some.mpr ⟨hs _ (by simp [Stat9.strings]), rfl⟩, ?_⟩
  refine bind_eq_some.mpr ⟨d.gid, _, counted_eq_some.mpr ⟨hs _ (by simp [Stat9.strings]), rfl⟩, ?_⟩
  refine bind_eq_some.mpr ⟨d.muid, r, counted_eq_some.mpr ⟨hs _ (by simp [Stat9.strings]), rfl⟩, ?_⟩
  refine pure_eq_some.mpr ⟨?_, rfl⟩
  rw [mkStat, BitVec.setWidth_setWidth_of_le _ (by decide), BitVec.setWidth_eq]

/-! ## The decoder -/

theorem fixed_statHead : Fixed statHead 39 fun l =>
    (g16 l 0, g32 l 2, getQid l 6, g32 l 19, g32 l 23, g32 l 27, g32 l 31, g32 l 35) :=
  Fixed.congr (fixed_half.pair (fixed_word.pair (fixed_qid.pair (fixed_word.pair (fixed_word.pair
    (fixed_word.pair fixed_word_word)))))) fun l => by
      simp only [g32_drop, getQid, g8_drop]

theorem sim_getStatHead (e : Word) (old : Qid) :
    Sim e (getStatHead e old) statHead
      (fun _ a b => b = (g16 a.1 0, g32 a.1 2, a.2, g32 a.1 19, g32 a.1 23, g32 a.1 27, g32 a.1 31,
        g32 a.1 35)) 39 := by
  refine .step (g := fun m p => (window m p 39, if p + 6 = 0 ∨ p + 6 + 13 > e then old
    else getQid (window m p 39) 6)) fixed_statHead (by decide) (fun m p => ?_)
    fun m m₂ p hp hs => ?_
  · change (gn e 39 (m, p) >>= fun q => some ((q.1, if p + 6 = 0 ∨ p + 6 + 13 > e then old
      else getQid q.1 6), q.2)) = _
    have hg : gn e 39 (m, p) = if p = 0 ∨ p + BitVec.ofNat 32 39 > e then none
      else some (window m p 39, m, p + BitVec.ofNat 32 39) := rfl
    rw [hg]
    by_cases h : p = 0 ∨ p + BitVec.ofNat 32 39 > e
    · rw [if_pos h, if_pos h]
      rfl
    · rw [if_neg h, if_neg h]
      rfl
  · have := e.isLt
    have h6 : (p + 6).toNat = p.toNat + 6 := toNat_add_ofNat (k := 6) (by omega)
    have h19 : (p + 6 + 13).toNat = p.toNat + 6 + 13 := h6 ▸ toNat_add_ofNat (k := 13) (by omega)
    rw [if_neg]
    rintro (h0 | hgt)
    · have hz : (0 : Word).toNat = 0 := rfl
      rw [h0] at h6
      omega
    · have : e.toNat < (p + 6 + 13).toNat := hgt
      omega

theorem sim_getStat (e : Word) (d : Stat9 Word) :
    Sim e (getStat e d) parseStat (fun m a b => a.read m = b.cut) (39 + 4 * 65537) := by
  refine Sim.mono (Sim.bind (sim_getStatHead e d.qid) (fun _ _ _ h => h) (fun a => ⟨_, rfl⟩)
    fun a b h => (sim_gstr e).bindAny fun q₁ s₁ => (sim_gstr e).bindAny fun q₂ s₂ =>
      (sim_gstr e).bindAny fun q₃ s₃ => (sim_gstr e).bindAny fun q₄ s₄ => Sim.pure _ _) ?_
      (by decide)
  rintro m d' b ⟨a, x, rfl, q₁, s₁, h₁, q₂, s₂, h₂, q₃, s₃, h₃, q₄, s₄, h₄, rfl, rfl⟩
  simp only [Stat9.read, Stat9.cut, mkStat, h₁, h₂, h₃, h₄]

/-! ## Round trips -/

theorem putStat_eq (d : Stat9 (List Byte)) : putStat d = d.cut.print := rfl

theorem length_print_stat (d : Stat9 (List Byte)) : d.print.length =
    47 + d.name.length + d.uid.length + d.gid.length + d.muid.length := by
  simp only [Stat9.print, length_append, length_p16, length_p32, length_pqid, length_str]
  omega

theorem sizeD2M_eq (d : Stat9 (List Byte)) :
    sizeD2M d = BitVec.ofNat 32 (2 + d.cut.print.length) := by
  simp only [length_print_stat, BitVec.ofNat_add, ← BitVec.add_assoc]
  rfl

theorem cut_stat_eq_self (h : ∀ x ∈ d.strings, 0 ∉ x) : d.cut = d := by
  have hmap : ∀ x ∈ d.strings, text x = x := fun x hx => text_eq_self_iff.mpr (h x hx)
  simp only [Stat9.strings, forall_mem_cons] at hmap
  obtain ⟨h₁, h₂, h₃, h₄, -⟩ := hmap
  rw [Stat9.cut, h₁, h₂, h₃, h₄]

theorem cut_cut_stat (d : Stat9 (List Byte)) : d.cut.cut = d.cut := by
  simp only [Stat9.cut, text_text]

theorem length_cut_stat (d : Stat9 (List Byte)) :
    d.print.length = d.cut.print.length + lost d.strings := by
  have := length_text_le d.name
  have := length_text_le d.uid
  have := length_text_le d.gid
  have := length_text_le d.muid
  simp only [length_print_stat, Stat9.cut, Stat9.strings, lost, map_cons, map_nil, sum_cons, sum_nil]
  omega

theorem convD2M_fst {n : Word} (h : sizeD2M d ≤ n) :
    convD2M d n = (sizeD2M d, p16 (sizeD2M d - 2) ++ putStat d) :=
  if_neg (BitVec.not_lt.mpr h)

section Run

variable {m m' : Mem} {buf n size : Word} {d d' : Stat9 Word}

theorem ahead_entry (m : Mem) (hle : buf.toNat + size.toNat < 2 ^ 32) (h2 : 2 ≤ size.toNat) :
    (buf + 2).toNat = buf.toNat + 2 ∧ (buf + size).toNat = buf.toNat + size.toNat ∧
      window m buf size.toNat = window m buf 2 ++ ahead m (buf + 2) (buf + size) :=
  window_eq_append_ahead m h2 hle

theorem toNat_entry_size (l : List Byte) : (g16 l 0 + 2).toNat = (g16 l 0).toNat + 2 :=
  toNat_add_ofNat (k := 2) (by have := g16_lt l 0; omega)

theorem convM2D_eq_some (h : convM2D m buf n d = some (size, d', m')) :
    size = g16 (window m buf 2) 0 + 2 ∧ size.toNat ≤ n.toNat ∧
      ∃ p, getStat (buf + size) d (m, buf + 2) = some (d', m', p) := by
  simp only [convM2D] at h
  split at h
  · cases h
  split at h
  · cases h
  case isFalse hsize =>
    split at h
    · cases h
    case h_2 g k p hbody =>
      split at h
      · cases h
      · cases h
        exact ⟨rfl, Nat.le_of_not_lt hsize, p, hbody⟩

/-- An entry is accepted, and read for what it is. -/
theorem convM2D_complete {x : Stat9 (List Byte)} (hn : buf.toNat + n.toNat < 2 ^ 32)
    (hle : size.toNat ≤ n.toNat) (h : ExactEntry (window m buf size.toNat) x) (d : Stat9 Word) :
    ∃ d' m', convM2D m buf n d = some (size, d', m') ∧ d'.read m' = x.cut := by
  have hlen := congrArg List.length h.eq
  rw [length_window, entry, length_append, length_p16] at hlen
  have hroom : buf.toNat + size.toNat < 2 ^ 32 := by omega
  obtain ⟨hp, he, hw⟩ := ahead_entry m hroom (by omega)
  have hsplit := hw.symm.trans h.eq
  have h2 : window m buf 2 = p16 (BitVec.ofNat 32 x.print.length) :=
    append_inj_left hsplit (by simp)
  have hrest : ahead m (buf + 2) (buf + size) = x.print :=
    append_inj_right hsplit (by simp)
  have hsize : g16 (window m buf 2) 0 + 2 = size := by
    apply BitVec.eq_of_toNat_eq
    have hlt := h.size_lt
    rw [toNat_entry_size, h2, ← append_nil (p16 _), g16_p16, toNat_ofNat_of_lt (by omega)]
    · omega
    · rw [toNat_ofNat_of_lt (by omega)]
      exact hlt
  have hparse : parseStat (ahead m (buf + 2) (buf + size)) = some (x, []) := by
    rw [hrest, ← append_nil x.print]
    exact parseStat_print h.strings []
  obtain ⟨d', m', hd, hread⟩ := (sim_getStat (buf + size) d).complete (p := buf + 2) (by omega)
    (by omega) hparse
  refine ⟨d', m', ?_, hread⟩
  have h0 : ¬buf + size = 0 := fun h0 => by
    have hzero : (0 : Word).toNat = 0 := rfl
    rw [h0] at he
    omega
  simp only [convM2D, hsize, hd]
  rw [if_neg, if_neg, if_neg h0]
  · intro hlt
    have : n.toNat < size.toNat := hlt
    omega
  · intro hlt
    have : n.toNat < 2 := hlt
    omega

end Run

end Tortoise.P9
