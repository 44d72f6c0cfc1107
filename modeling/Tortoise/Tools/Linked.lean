import Tortoise.Lib.Bits
import Tortoise.Lib.Fallible
import Tortoise.Tools.Resolve

/-!
# What the linker writes

* `Linked`: what an image has to be, for the objects it was linked from: where the sections
  stand, what the relocated fields hold and what all other bytes are;
* `image_linked`: the image of the linker is as it has to be;
* `tlink_correct`: the same for the program, and that it fails on a name nobody defines.
-/

namespace Tortoise.Tools

open Lib List
open BitVec hiding not_and

/-! ## What is wanted -/

/-- The bytes of a section. -/
def Obj.part (o : Obj) : Nat → List Byte
  | 1 => o.text
  | 2 => o.data
  | _ => []

/-- The fields of two relocations do not overlap. -/
def ORel.Apart (r r' : ORel) : Prop :=
  r.sec ≠ r'.sec ∨ r.off.toNat + r.width ≤ r'.off.toNat ∨ r'.off.toNat + r'.width ≤ r.off.toNat

/-- The object is of the form the assembler writes. -/
structure Obj.Formed (o : Obj) : Prop where
  inside : ∀ r ∈ o.rels, r.off.toNat + r.width ≤ (o.part r.sec).length
  apart : o.rels.Pairwise ORel.Apart

instance : DecidableRel ORel.Apart := fun _ _ => inferInstanceAs (Decidable (_ ∨ _ ∨ _))

instance (o : Obj) : Decidable o.Formed :=
  decidable_of_iff ((∀ r ∈ o.rels, r.off.toNat + r.width ≤ (o.part r.sec).length) ∧
    o.rels.Pairwise ORel.Apart) ⟨fun h => ⟨h.1, h.2⟩, fun h => ⟨h.inside, h.apart⟩⟩

section

variable (T : Nat) (objs : List Obj)

/-- The image is below `2 ^ 32`, and its size is a number of 32 bits. -/
def Fits : Prop := imageEnd T objs ≤ 2 ^ 32 ∧ imageEnd T objs - T < 2 ^ 32

instance : Decidable (Fits T objs) := inferInstanceAs (Decidable (_ ∧ _))

/-- `S` is the address of symbol `s` of object `i`. -/
def Target (i : Nat) (o : Obj) (s : OSym) (S : Word) : Prop :=
  if s.sec = 0 then (o.name s, S) ∈ definitions T objs ++ linkerSyms T objs
  else S = symAddr T objs i s

/-- Two bytes. -/
def rd16 : List Byte → BitVec 16
  | a :: b :: _ => a.setWidth 16 ||| b.setWidth 16 <<< 8
  | _ => 0

/-- The bytes begin with the field of a relocation at address `P` for the value `v`. -/
def Holds (r : ORel) (P v : Word) (bs : List Byte) : Prop :=
  if r.type = rAbs32 then rd32 bs = v
  else if r.type = rRel32 then rd32 bs = v - (P + 4)
  else rd16 bs = v.setWidth 16 ∧ (v ≤ 0xFFFF ∨ 0xFFFF8000 ≤ v)

/-- Address `x` is in section `s` of object `i`. -/
def Within (i : Nat) (o : Obj) (s x : Nat) : Prop :=
  addrOf T objs i s ≤ x ∧ x < addrOf T objs i s + (o.part s).length

/-- The image of linked objects, which begins at address `T`. -/
structure Linked (img : List Byte) : Prop where
  length : T + img.length = imageEnd T objs
  aligned : ∀ i o s, objs[i]? = some o → 4 ∣ addrOf T objs i s
  ordered : ∀ i j o o' s, i < j → objs[i]? = some o → objs[j]? = some o' →
    addrOf T objs i s + (o.size s).toNat ≤ addrOf T objs j s
  text : ∀ i o, objs[i]? = some o →
    T ≤ addrOf T objs i 1 ∧ addrOf T objs i 1 + o.text.length ≤ textEnd T objs
  data : ∀ i o, objs[i]? = some o → alignUp (textEnd T objs) 4096 ≤ addrOf T objs i 2 ∧
    addrOf T objs i 2 + o.data.length ≤ dataEnd T objs
  unique : ((definitions T objs ++ linkerSyms T objs).map Prod.fst).Nodup
  field : ∀ i o r, objs[i]? = some o → r ∈ o.rels → ∃ s S,
    o.syms[r.sym.toNat]? = some s ∧ Target T objs i o s S ∧
      Holds r (BitVec.ofNat 32 (addrOf T objs i r.sec) + r.off) (S + r.add)
        (img.drop (addrOf T objs i r.sec + r.off.toNat - T))
  other : ∀ i o s x, objs[i]? = some o → Within T objs i o s x →
    (∀ r ∈ o.rels, r.sec = s → x < addrOf T objs i s + r.off.toNat ∨
      addrOf T objs i s + r.off.toNat + r.width ≤ x) →
    img[x - T]? = (o.part s)[x - addrOf T objs i s]?
  padding : ∀ x, T ≤ x → x < imageEnd T objs →
    (∀ i o s, objs[i]? = some o → ¬Within T objs i o s x) → img[x - T]? = some 0

/-- The header of a program file. -/
def header (entry : Word) : List Byte :=
  bytes "TEX1" ++ wr32 entry ++ wr32 (BitVec.ofNat 32 T) ++
    wr32 (BitVec.ofNat 32 (textEnd T objs - T)) ++ wr32 (BitVec.ofNat 32 (dataStart T objs)) ++
    wr32 (BitVec.ofNat 32 (dataEnd T objs - dataStart T objs)) ++
    wr32 (BitVec.ofNat 32 (bssEnd T objs - bssStart T objs)) ++ wr32 0

/-- The output file for an image: the image itself, or a header and the two parts of the
image that are not padding between text and data. -/
def Written (flat : Bool) (img out : List Byte) : Prop :=
  if flat then out = img
  else ∃ entry, out = header T objs entry ++ img.take (textEnd T objs - T) ++
    (img.drop (dataStart T objs - T)).take (dataEnd T objs - dataStart T objs)

end

/-! ## Numbers in bytes -/

theorem rd32_wr32 (v : Word) (l : List Byte) : rd32 (wr32 v ++ l) = v :=
  (or_bytes _ _ _ _).trans (append_bytes v)

theorem rd16_low (v : Word) (l : List Byte) :
    rd16 ([v.setWidth 8, (v >>> 8).setWidth 8] ++ l) = v.setWidth 16 := by
  apply eq_of_getLsbD_eq
  intro i hi
  simp only [rd16, List.cons_append, nil_append, getLsbD_or, getLsbD_setWidth,
    getLsbD_shiftLeft, getLsbD_ushiftRight]
  rcases (by omega : i < 8 ∨ 8 ≤ i) with h | h
  · simp [hi, h]
  · simp [hi, show ¬i < 8 by omega, show i - 8 < 8 by omega, show i - 8 < 16 by omega,
      show 8 + (i - 8) = i by omega]

theorem length_wr32 (v : Word) : (wr32 v).length = 4 := rfl

theorem toNat_ofNat_sub {a : Nat} {T : Word} (h : T.toNat ≤ a) (h' : a - T.toNat < 2 ^ 32) :
    (BitVec.ofNat 32 a - T).toNat = a - T.toNat := by
  bv_omega

/-! ## The image -/

section

variable {T : Word} {objs : List Obj} {g : Globals} {n i j s s' x : Nat} {o o' : Obj}
  {r r' : ORel} {img : Nat → Byte}

theorem length_part (hs : s = 1 ∨ s = 2) : (o.part s).length = (o.size s).toNat := by
  rcases hs with rfl | rfl
  · exact (Nat.mod_eq_of_lt o.text_lt).symm
  · exact (Nat.mod_eq_of_lt o.data_lt).symm

theorem Within.sec (h : Within n objs i o s x) : s = 1 ∨ s = 2 := by
  unfold Within Obj.part at h
  split at h
  · exact Or.inl rfl
  · exact Or.inr rfl
  · simp only [length_nil] at h
    omega

theorem textEnd_le_imageEnd : textEnd n objs ≤ imageEnd n objs := by
  have h1 : textEnd n objs ≤ dataStart n objs := textEnd_le_dataStart
  have h2 : dataStart n objs ≤ dataEnd n objs := dataStart_le_dataEnd
  unfold imageEnd
  split_ifs <;> omega

theorem Within.bounds (ho : objs[i]? = some o) (h : Within n objs i o s x) :
    n ≤ addrOf n objs i s ∧ x < imageEnd n objs := by
  have h1 : textEnd n objs ≤ imageEnd n objs := textEnd_le_imageEnd
  have h2 : textEnd n objs ≤ dataStart n objs := textEnd_le_dataStart
  have h3 : n ≤ textEnd n objs := le_textEnd
  obtain ⟨ha, hb⟩ := h
  rcases Within.sec ⟨ha, hb⟩ with rfl | rfl
  · have ht := text_bounds (T := n) ho
    simp only [Obj.part] at hb
    omega
  · have hd := data_bounds (T := n) ho
    simp only [Obj.part] at hb
    -- there are data, so the image goes up to their end
    have he : imageEnd n objs = dataEnd n objs := if_neg (by omega)
    omega

theorem Within.unique (ho : objs[i]? = some o) (ho' : objs[j]? = some o')
    (h : Within n objs i o s x) (h' : Within n objs j o' s' x) : i = j ∧ s = s' := by
  have hs : s = s' := by
    have hle : textEnd n objs ≤ dataStart n objs := textEnd_le_dataStart
    have ht := text_bounds (T := n) ho
    have hd := data_bounds (T := n) ho
    have ht' := text_bounds (T := n) ho'
    have hd' := data_bounds (T := n) ho'
    obtain ⟨ha, hb⟩ := h
    obtain ⟨ha', hb'⟩ := h'
    rcases Within.sec ⟨ha, hb⟩ with rfl | rfl <;> rcases Within.sec ⟨ha', hb'⟩ with rfl | rfl <;>
      simp only [Obj.part] at hb hb' <;> omega
  subst hs
  refine ⟨?_, rfl⟩
  have hl := length_part (o := o) h.sec
  have hl' := length_part (o := o') h.sec
  obtain ⟨ha, hb⟩ := h
  obtain ⟨ha', hb'⟩ := h'
  rcases Nat.lt_trichotomy i j with hij | hij | hij
  · have := addrOf_lt (T := n) (s := s) hij ho ho'
    omega
  · exact hij
  · have := addrOf_lt (T := n) (s := s) hij ho' ho
    omega

theorem placedAt_base (hs : s = 1 ∨ s = 2) :
    (placedAt n objs i o).base s = BitVec.ofNat 32 (addrOf n objs i s) := if_pos (by omega)

/-- Where a piece of a section goes. -/
theorem Within.offset (hf : Fits T.toNat objs) (ho : objs[i]? = some o) {y : Nat}
    (h : Within T.toNat objs i o s x) (hy : y ≤ x) (hy' : addrOf T.toNat objs i s ≤ y) :
    (BitVec.ofNat 32 y - T).toNat = y - T.toNat := by
  obtain ⟨h1, h2⟩ := h.bounds ho
  obtain ⟨hf1, hf2⟩ := hf
  exact toNat_ofNat_sub (by omega) (by omega)

theorem mem_mapIdx_placedAt {p : Placed} (h : p ∈ (layout T objs).objs) :
    ∃ i o, objs[i]? = some o ∧ p = placedAt T.toNat objs i o := by
  rw [(layout_eq T objs).1] at h
  obtain ⟨i, hi, rfl⟩ := mem_mapIdx.1 h
  exact ⟨i, objs[i], List.getElem?_eq_getElem hi, rfl⟩

theorem placedAt_mem (ho : objs[i]? = some o) :
    placedAt T.toNat objs i o ∈ (layout T objs).objs := by
  obtain ⟨hi, rfl⟩ := List.getElem?_eq_some_iff.1 ho
  rw [(layout_eq T objs).1]
  exact mem_mapIdx.2 ⟨i, hi, rfl⟩

/-- What `memcpy` copies for section `s` of object `i`. -/
def piece (T : Word) (objs : List Obj) (i : Nat) (o : Obj) (s : Nat) : Nat × List Byte :=
  (((placedAt T.toNat objs i o).base s - T).toNat, o.part s)

theorem mem_sections {p : Nat × List Byte} : p ∈ sections (layout T objs) ↔
    ∃ i o s, objs[i]? = some o ∧ (s = 1 ∨ s = 2) ∧ p = piece T objs i o s := by
  unfold sections
  rw [mem_flatMap]
  constructor
  · rintro ⟨q, hq, hp⟩
    obtain ⟨i, o, ho, rfl⟩ := mem_mapIdx_placedAt hq
    rcases mem_cons.1 hp with rfl | hp
    · exact ⟨i, o, 1, ho, Or.inl rfl, rfl⟩
    · exact ⟨i, o, 2, ho, Or.inr rfl, mem_singleton.1 hp⟩
  · rintro ⟨i, o, s, ho, hs, rfl⟩
    refine ⟨placedAt T.toNat objs i o, placedAt_mem ho, ?_⟩
    rcases hs with rfl | rfl
    · exact mem_cons_self
    · exact mem_cons_of_mem _ (mem_singleton.2 rfl)

theorem covers_piece (hf : Fits T.toNat objs) (ho : objs[i]? = some o) (hs : s = 1 ∨ s = 2)
    (hx : T.toNat ≤ x) :
    Covers (piece T objs i o s) (x - T.toNat) ↔ Within T.toNat objs i o s x := by
  have hoff : 0 < (o.part s).length →
      (piece T objs i o s).1 = addrOf T.toNat objs i s - T.toNat ∧
        T.toNat ≤ addrOf T.toNat objs i s := by
    intro hl
    have hw : Within T.toNat objs i o s (addrOf T.toNat objs i s) := ⟨le_rfl, by omega⟩
    unfold piece
    rw [placedAt_base hs]
    exact ⟨hw.offset hf ho le_rfl le_rfl, (hw.bounds ho).1⟩
  have hlen : (piece T objs i o s).2.length = (o.part s).length := rfl
  unfold Covers Within
  constructor
  · rintro ⟨h1, h2⟩
    obtain ⟨h3, h4⟩ := hoff (by omega)
    omega
  · rintro ⟨h1, h2⟩
    obtain ⟨h3, h4⟩ := hoff (by omega)
    omega

/-- A byte of a section in the image, before the relocations. -/
theorem sections_within (hf : Fits T.toNat objs) (ho : objs[i]? = some o)
    (h : Within T.toNat objs i o s x) :
    some (blits img (sections (layout T objs)) (x - T.toNat)) =
      (o.part s)[x - addrOf T.toNat objs i s]? := by
  have hx : T.toNat ≤ x := (h.bounds ho).1.trans h.1
  have hk : x - addrOf T.toNat objs i s < (o.part s).length := by
    obtain ⟨h1, h2⟩ := h
    omega
  rw [List.getElem?_eq_getElem hk]
  refine congrArg some (blits_covered (mem_sections.2 ⟨i, o, s, ho, h.sec, rfl⟩)
    ((covers_piece hf ho h.sec hx).2 h) ?_)
  intro q hq hcov
  obtain ⟨j, o', s', ho', hs', rfl⟩ := mem_sections.1 hq
  have h' := (covers_piece hf ho' hs' hx).1 hcov
  obtain ⟨rfl, rfl⟩ := h.unique ho ho' h'
  obtain rfl : o = o' := Option.some.inj (ho.symm.trans ho')
  have hoff : (piece T objs i o s).1 = addrOf T.toNat objs i s - T.toNat := by
    unfold piece
    rw [placedAt_base hs']
    exact h.offset hf ho h.1 le_rfl
  have hadd := (h.bounds ho).1
  rw [hoff, show x - T.toNat - (addrOf T.toNat objs i s - T.toNat) =
    x - addrOf T.toNat objs i s by omega]
  exact List.getElem?_eq_getElem hk

theorem sections_padding (hf : Fits T.toNat objs) (hx : T.toNat ≤ x)
    (h : ∀ i o s, objs[i]? = some o → ¬Within T.toNat objs i o s x) :
    blits img (sections (layout T objs)) (x - T.toNat) = img (x - T.toNat) := by
  apply blits_uncovered
  intro p hp hcov
  obtain ⟨i, o, s, ho, hs, rfl⟩ := mem_sections.1 hp
  exact h i o s ho ((covers_piece hf ho hs hx).1 hcov)

/-! ## The relocations -/

/-- Address `x` is in the field of a relocation of object `i`. -/
def InField (n : Nat) (objs : List Obj) (i : Nat) (r : ORel) (x : Nat) : Prop :=
  addrOf n objs i r.sec + r.off.toNat ≤ x ∧ x < addrOf n objs i r.sec + r.off.toNat + r.width

theorem InField.within (hform : o.Formed) (hr : r ∈ o.rels) (h : InField n objs i r x) :
    Within n objs i o r.sec x := by
  have := hform.inside r hr
  obtain ⟨h1, h2⟩ := h
  exact ⟨by omega, by omega⟩

theorem InField.unique (hform : ∀ o ∈ objs, o.Formed) (ho : objs[i]? = some o)
    (ho' : objs[j]? = some o') (hr : r ∈ o.rels) (hr' : r' ∈ o'.rels) (h : InField n objs i r x)
    (h' : InField n objs j r' x) : i = j ∧ r = r' := by
  have hw := h.within (hform o (mem_of_getElem? ho)) hr
  have hw' := h'.within (hform o' (mem_of_getElem? ho')) hr'
  obtain ⟨rfl, hsec⟩ := hw.unique ho ho' hw'
  obtain rfl : o = o' := Option.some.inj (ho.symm.trans ho')
  refine ⟨rfl, by_contra fun hne => ?_⟩
  have hsymm : Std.Symm ORel.Apart := ⟨fun a b hab => by
    unfold ORel.Apart at hab ⊢
    omega⟩
  have hap := (hform o (mem_of_getElem? ho)).apart.forall hr hr' hne
  unfold InField at h h'
  unfold ORel.Apart at hap
  rw [← hsec] at h'
  rcases hap with hap | hap | hap
  · exact hap hsec
  · omega
  · omega

theorem length_relBytes (p : Placed) (h : 1 ≤ r.type ∧ r.type ≤ 3) :
    (relBytes g p r).length = r.width := by
  unfold relBytes ORel.width rAbs32 rRel32 rAbs16
  simp only
  rcases (by omega : r.type = 1 ∨ r.type = 2 ∨ r.type = 3) with ht | ht | ht
  · rw [if_pos ht, if_neg (by omega), length_wr32]
  · rw [if_neg (by omega), if_pos ht, if_neg (by omega), length_wr32]
  · rw [if_neg (by omega), if_neg (by omega), if_pos ht]
    rfl

/-- What a relocation of object `i` writes, and where. -/
def patch (g : Globals) (T : Word) (objs : List Obj) (i : Nat) (o : Obj) (r : ORel) :
    Nat × List Byte :=
  (((placedAt T.toNat objs i o).field r - T).toNat, relBytes g (placedAt T.toNat objs i o) r)

theorem mem_patches {p : Nat × List Byte} : p ∈ patches g (layout T objs) ↔
    ∃ i o r, objs[i]? = some o ∧ r ∈ o.rels ∧ p = patch g T objs i o r := by
  unfold patches
  rw [mem_flatMap]
  constructor
  · rintro ⟨q, hq, hp⟩
    obtain ⟨i, o, ho, rfl⟩ := mem_mapIdx_placedAt hq
    obtain ⟨r, hr, rfl⟩ := mem_map.1 hp
    exact ⟨i, o, r, ho, hr, rfl⟩
  · rintro ⟨i, o, r, ho, hr, rfl⟩
    exact ⟨placedAt T.toNat objs i o, placedAt_mem ho, mem_map.2 ⟨r, hr, rfl⟩⟩

/-- The objects are of the right form, checked, and their image fits. -/
structure Linkable (T : Nat) (objs : List Obj) : Prop where
  formed : ∀ o ∈ objs, o.Formed
  checked : ∀ o ∈ objs, o.Checked
  fits : Fits T objs

variable (hl : Linkable T.toNat objs)

include hl

theorem patch_offset (ho : objs[i]? = some o) (hr : r ∈ o.rels) :
    (patch g T objs i o r).1 = addrOf T.toNat objs i r.sec + r.off.toNat - T.toNat ∧
      T.toNat ≤ addrOf T.toNat objs i r.sec ∧ (patch g T objs i o r).2.length = r.width := by
  have hmem := mem_of_getElem? ho
  obtain ⟨hsec, -, htype⟩ := (hl.checked o hmem).rel r hr
  have hpos : 0 < r.width := by
    unfold ORel.width
    split_ifs <;> decide
  have hin : InField T.toNat objs i r (addrOf T.toNat objs i r.sec + r.off.toNat) :=
    ⟨le_rfl, by omega⟩
  have hw := hin.within (hl.formed o hmem) hr
  refine ⟨?_, (hw.bounds ho).1, length_relBytes _ htype⟩
  have hfield : (placedAt T.toNat objs i o).field r =
      BitVec.ofNat 32 (addrOf T.toNat objs i r.sec + r.off.toNat) := by
    unfold Placed.field
    rw [placedAt_base hsec, ofNat_add, ofNat_toNat, setWidth_eq]
  unfold patch
  rw [hfield]
  exact hw.offset hl.fits ho le_rfl (by omega)

theorem covers_patch (ho : objs[i]? = some o) (hr : r ∈ o.rels) (hx : T.toNat ≤ x) :
    Covers (patch g T objs i o r) (x - T.toNat) ↔ InField T.toNat objs i r x := by
  obtain ⟨h1, h2, h3⟩ := patch_offset (g := g) hl ho hr
  unfold Covers InField
  omega

theorem patches_field (ho : objs[i]? = some o) (hr : r ∈ o.rels) (h : InField T.toNat objs i r x) :
    some (blits img (patches g (layout T objs)) (x - T.toNat)) =
      (relBytes g (placedAt T.toNat objs i o) r)[x -
        (addrOf T.toNat objs i r.sec + r.off.toNat)]? := by
  obtain ⟨h1, h2, h3⟩ := patch_offset (g := g) hl ho hr
  have hx : T.toNat ≤ x := by
    obtain ⟨ha, hb⟩ := h
    omega
  have hk : x - (addrOf T.toNat objs i r.sec + r.off.toNat) <
      (relBytes g (placedAt T.toNat objs i o) r).length := by
    obtain ⟨ha, hb⟩ := h
    change (relBytes g (placedAt T.toNat objs i o) r).length = _ at h3
    omega
  rw [List.getElem?_eq_getElem hk]
  refine congrArg some (blits_covered (mem_patches.2 ⟨i, o, r, ho, hr, rfl⟩)
    ((covers_patch hl ho hr hx).2 h) ?_)
  intro q hq hcov
  obtain ⟨j, o', r', ho', hr', rfl⟩ := mem_patches.1 hq
  have h' := (covers_patch hl ho' hr' hx).1 hcov
  obtain ⟨rfl, rfl⟩ := h.unique hl.formed ho ho' hr hr' h'
  obtain rfl : o = o' := Option.some.inj (ho.symm.trans ho')
  have hsub : x - T.toNat - (patch g T objs i o r).1 =
      x - (addrOf T.toNat objs i r.sec + r.off.toNat) := by
    obtain ⟨ha, hb⟩ := h
    omega
  rw [hsub]
  exact List.getElem?_eq_getElem hk

theorem patches_other (hx : T.toNat ≤ x)
    (h : ∀ i o r, objs[i]? = some o → r ∈ o.rels → ¬InField T.toNat objs i r x) :
    blits img (patches g (layout T objs)) (x - T.toNat) = img (x - T.toNat) := by
  apply blits_uncovered
  intro p hp hcov
  obtain ⟨i, o, r, ho, hr, rfl⟩ := mem_patches.1 hp
  exact h i o r ho hr ((covers_patch hl ho hr hx).1 hcov)

omit hl in
theorem layout_sizes (hf : Fits T.toNat objs) :
    (layout T objs).textSize = BitVec.ofNat 32 (textEnd T.toNat objs - T.toNat) ∧
      (layout T objs).dataSize =
        BitVec.ofNat 32 (dataEnd T.toNat objs - dataStart T.toNat objs) ∧
      (layout T objs).bssSize = BitVec.ofNat 32 (bssEnd T.toNat objs - bssStart T.toNat objs) ∧
      dataEnd T.toNat objs - dataStart T.toNat objs < 2 ^ 32 := by
  obtain ⟨-, htext, hdata, hdata', hbss, hbss'⟩ := layout_eq T objs
  have h1 : T.toNat ≤ textEnd T.toNat objs := le_textEnd
  have h2 : dataStart T.toNat objs ≤ dataEnd T.toNat objs := dataStart_le_dataEnd
  have h3 : bssStart T.toNat objs ≤ bssEnd T.toNat objs := le_stop
  have h4 : textEnd T.toNat objs ≤ dataStart T.toNat objs := textEnd_le_dataStart
  have hT : (layout T objs).textAddr = T := rfl
  obtain ⟨hf1, hf2⟩ := hf
  rw [hT] at htext
  rw [hdata] at hdata'
  rw [hbss] at hbss'
  refine ⟨by bv_omega, by bv_omega, by bv_omega, ?_⟩
  unfold imageEnd at hf2
  split_ifs at hf2 <;> omega

theorem length_image : (image g (layout T objs)).length = imageEnd T.toNat objs - T.toNat := by
  obtain ⟨h1, h2, -, h3⟩ := layout_sizes hl.fits
  obtain ⟨-, -, hdata, hdata', -, -⟩ := layout_eq T objs
  have hle : T.toNat ≤ textEnd T.toNat objs := le_textEnd
  have hle' : textEnd T.toNat objs ≤ imageEnd T.toNat objs := textEnd_le_imageEnd
  have hle₂ : dataStart T.toNat objs ≤ dataEnd T.toNat objs := dataStart_le_dataEnd
  have hle₃ : textEnd T.toNat objs ≤ dataStart T.toNat objs := textEnd_le_dataStart
  have hf := hl.fits.2
  have hT : (layout T objs).textAddr = T := rfl
  unfold image
  rw [length_map, length_range]
  unfold Layout.total
  unfold imageEnd at hf hle' ⊢
  by_cases hd : dataEnd T.toNat objs = dataStart T.toNat objs
  · rw [if_pos hd] at hf hle' ⊢
    have hzero : (layout T objs).dataSize = 0 := by
      rw [h2, hd, Nat.sub_self]
      rfl
    rw [if_pos hzero, h1, toNat_ofNat, Nat.mod_eq_of_lt hf]
  · rw [if_neg hd] at hf hle' ⊢
    have hne : (layout T objs).dataSize ≠ 0 := by
      rw [h2]
      bv_omega
    rw [if_neg hne, hdata', hT]
    exact toNat_ofNat_sub (by omega) hf

theorem image_get (hx : T.toNat ≤ x) (hx' : x < imageEnd T.toNat objs) :
    (image g (layout T objs))[x - T.toNat]? =
      some (blits (blits (fun _ => 0) (sections (layout T objs))) (patches g (layout T objs))
        (x - T.toNat)) := by
  have hlen := length_image (g := g) hl
  rw [List.getElem?_eq_getElem (by omega)]
  unfold image
  rw [getElem_map, getElem_range]

/-- The field of a relocation can be read from the image. -/
theorem field_in_image (ho : objs[i]? = some o) (hr : r ∈ o.rels) :
    relBytes g (placedAt T.toNat objs i o) r <+:
      (image g (layout T objs)).drop (addrOf T.toNat objs i r.sec + r.off.toNat - T.toNat) := by
  rw [prefix_iff_getElem?]
  intro k hk
  obtain ⟨-, hT, hw⟩ := patch_offset (g := g) hl ho hr
  change (relBytes g (placedAt T.toNat objs i o) r).length = _ at hw
  have hin : InField T.toNat objs i r (addrOf T.toNat objs i r.sec + r.off.toNat + k) :=
    ⟨by omega, by omega⟩
  have hend := ((hin.within (hl.formed o (mem_of_getElem? ho)) hr).bounds ho).2
  rw [List.getElem?_drop, show addrOf T.toNat objs i r.sec + r.off.toNat - T.toNat + k =
    addrOf T.toNat objs i r.sec + r.off.toNat + k - T.toNat by omega,
    image_get hl (by omega) hend, patches_field hl ho hr hin, Nat.add_sub_cancel_left]
  exact List.getElem?_eq_getElem hk

omit hl in
/-- The address a relocation works with. -/
theorem relValue_target (hc : ∀ o ∈ objs, o.Checked) (hg : resolve (layout T objs) = .ok g)
    (ho : objs[i]? = some o) (hr : r ∈ o.rels) : ∃ s S, o.syms[r.sym.toNat]? = some s ∧
      Target T.toNat objs i o s S ∧ relValue g (placedAt T.toNat objs i o) r = S + r.add := by
  obtain ⟨hk, -, hu⟩ := resolve_spec hc hg
  have hmem := mem_of_getElem? ho
  obtain ⟨-, hsym, -⟩ := (hc o hmem).rel r hr
  have hs : o.syms[r.sym.toNat]? = some o.syms[r.sym.toNat] := List.getElem?_eq_getElem hsym
  generalize o.syms[r.sym.toNat] = s at hs
  have hv : relValue g (placedAt T.toNat objs i o) r =
      finalAddr g (placedAt T.toNat objs i o) s + r.add := by
    unfold relValue
    erw [hs]
  refine ⟨s, finalAddr g (placedAt T.toNat objs i o) s, hs, ?_, hv⟩
  unfold Target finalAddr
  by_cases h0 : s.sec = 0
  · rw [if_pos h0, if_pos h0]
    change (o.name s, (gaddr g (o.name s)).getD s.val) ∈ _
    cases ha : gaddr g (o.name s) with
    | some a =>
      rw [hk.addr] at ha
      exact mem_of_lookup ha
    | none =>
      -- the second symbol loop has found every name that is used
      exfalso
      unfold undefinedSyms at hu
      rw [flatMap_eq_nil_iff] at hu
      have hnil := hu _ (placedAt_mem ho)
      rw [map_eq_nil_iff, filter_eq_nil_iff] at hnil
      apply hnil (s, r.sym.toNat) (List.mem_zipIdx_iff_getElem?.2 hs)
      have huse : o.uses r.sym.toNat = true := any_eq_true.2 ⟨r, hr, by simp⟩
      change (decide (s.sec = 0) && (gaddr g (o.name s)).isNone && o.uses r.sym.toNat) = true
      rw [ha, huse, decide_eq_true h0]
      rfl
  · rw [if_neg h0, if_neg h0]
    exact placedAt_addr h0 ((hc o hmem).sym s (mem_of_getElem? hs))

/-- What a relocation leaves in the image. -/
theorem holds_in_image (hov : overflowErrors g (layout T objs).objs = [])
    (ho : objs[i]? = some o) (hr : r ∈ o.rels) :
    Holds r (BitVec.ofNat 32 (addrOf T.toNat objs i r.sec) + r.off)
      (relValue g (placedAt T.toNat objs i o) r)
      ((image g (layout T objs)).drop
        (addrOf T.toNat objs i r.sec + r.off.toNat - T.toNat)) := by
  obtain ⟨rest, hrest⟩ := field_in_image (g := g) hl ho hr
  obtain ⟨hsec, -, -⟩ := (hl.checked o (mem_of_getElem? ho)).rel r hr
  rw [← hrest]
  unfold Holds relBytes
  by_cases h1 : r.type = rAbs32
  · simp only [if_pos h1]
    exact rd32_wr32 _ _
  · by_cases h2 : r.type = rRel32
    · simp only [if_neg h1, if_pos h2]
      unfold Placed.field
      rw [placedAt_base hsec]
      exact rd32_wr32 _ _
    · simp only [if_neg h1, if_neg h2]
      refine ⟨rd16_low _ _, ?_⟩
      unfold overflowErrors at hov
      rw [flatMap_eq_nil_iff] at hov
      have hnil := hov _ (placedAt_mem ho)
      rw [map_eq_nil_iff, filter_eq_nil_iff] at hnil
      have hno := hnil r hr
      simp only [overflows, h1, h2, ne_eq, not_false_eq_true, decide_true, Bool.true_and,
        Bool.and_eq_true, decide_eq_true_eq, not_and, BitVec.not_lt] at hno
      by_cases hlow : relValue g (placedAt T.toNat objs i o) r ≤ 0xFFFF
      · exact Or.inl hlow
      · exact Or.inr (hno (BitVec.not_le.1 hlow))

/-- **The image** is that of linked objects. -/
theorem image_linked (hg : resolve (layout T objs) = .ok g)
    (hov : overflowErrors g (layout T objs).objs = []) :
    Linked T.toNat objs (image g (layout T objs)) where
  length := by
    have h1 : T.toNat ≤ textEnd T.toNat objs := le_textEnd
    have h2 : textEnd T.toNat objs ≤ imageEnd T.toNat objs := textEnd_le_imageEnd
    rw [length_image hl]
    omega
  aligned i o s ho := four_dvd_addrOf ho
  ordered i j o o' s hij ho ho' := addrOf_lt hij ho ho'
  text i o ho := text_bounds ho
  data i o ho := data_bounds ho
  unique := by
    obtain ⟨hk, he, -⟩ := resolve_spec hl.checked hg
    exact hk.nodup he
  field i o r ho hr := by
    obtain ⟨s, S, hs, hS, hv⟩ := relValue_target hl.checked hg ho hr
    exact ⟨s, S, hs, hS, hv ▸ holds_in_image hl hov ho hr⟩
  other i o s x ho hw hout := by
    obtain ⟨hT, hend⟩ := hw.bounds ho
    have hx : T.toNat ≤ x := hT.trans hw.1
    rw [image_get hl hx hend, patches_other hl hx, sections_within hl.fits ho hw]
    intro j o' r ho' hr hin
    obtain ⟨rfl, rfl⟩ := hw.unique ho ho'
      (hin.within (hl.formed o' (mem_of_getElem? ho')) hr)
    obtain rfl : o = o' := Option.some.inj (ho.symm.trans ho')
    obtain ⟨h1, h2⟩ := hin
    have := hout r hr rfl
    omega
  padding x hx hend hnone := by
    rw [image_get hl hx hend, patches_other hl hx, sections_padding hl.fits hx hnone]
    intro i o r ho hr hin
    exact hnone i o r.sec ho (hin.within (hl.formed o (mem_of_getElem? ho)) hr)

theorem output_written (opts : Opts) (entry : Word) (im : List Byte) :
    Written T.toNat objs opts.flat im (output opts (layout T objs) entry im) := by
  unfold Written output
  cases opts.flat with
  | true => rfl
  | false =>
    obtain ⟨h1, h2, h3, h4⟩ := layout_sizes hl.fits
    obtain ⟨-, -, hdata, -, -, -⟩ := layout_eq T objs
    have hle : textEnd T.toNat objs ≤ imageEnd T.toNat objs := textEnd_le_imageEnd
    have hle' : T.toNat ≤ textEnd T.toNat objs := le_textEnd
    have hle₂ : textEnd T.toNat objs ≤ dataStart T.toNat objs := textEnd_le_dataStart
    have hfits := hl.fits.2
    have haddr : (layout T objs).textAddr = BitVec.ofNat 32 T.toNat := by
      rw [ofNat_toNat, setWidth_eq]
      rfl
    simp only [Bool.false_eq_true, if_false]
    refine ⟨entry, ?_⟩
    unfold header
    rw [h1, h2, h3, hdata, haddr, toNat_ofNat, toNat_ofNat, Nat.mod_eq_of_lt h4,
      Nat.mod_eq_of_lt (show textEnd T.toNat objs - T.toNat < 2 ^ 32 by omega)]
    by_cases hd : dataEnd T.toNat objs = dataStart T.toNat objs
    · rw [hd, Nat.sub_self, take_zero, take_zero]
    · have he : imageEnd T.toNat objs = dataEnd T.toNat objs := if_neg hd
      have hle₃ : dataStart T.toNat objs ≤ dataEnd T.toNat objs := dataStart_le_dataEnd
      rw [ofNat_toNat, setWidth_eq, toNat_ofNat_sub (by omega) (by omega)]

end

/-! ## The program -/

section

variable {opts : Opts} {inputs : List Input} {out : List Byte}

theorem tlink_ok (h : tlink opts inputs = .ok out) : ∃ all g entry,
    readAll 0 inputs = .ok all ∧ resolve (layout opts.textAddr (selectLib all)) = .ok g ∧
      overflowErrors g (layout opts.textAddr (selectLib all)).objs = [] ∧
      out = output opts (layout opts.textAddr (selectLib all)) entry
        (image g (layout opts.textAddr (selectLib all))) := by
  obtain ⟨objs, hl, h⟩ := ok_of_bind h
  unfold linked at hl
  split at hl
  · cases hl
  split at hl
  · cases hl
  next all hall =>
  split at hl
  · cases hl
  cases hl
  obtain ⟨g, hg, h⟩ := ok_of_bind h
  dsimp only at h
  split at h
  · cases h
  next hov =>
  obtain ⟨entry, -, h⟩ := ok_of_bind h
  cases h
  exact ⟨all, g, entry, hall, hg, not_not.1 hov, rfl⟩

theorem mem_definitions {n : Nat} {objs : List Obj} {name : List Byte} {a : Word}
    (h : (name, a) ∈ definitions n objs) : ∃ o ∈ objs, defines o name = true := by
  obtain ⟨p, hp, h⟩ := mem_flatMap.1 h
  obtain ⟨s, hs, he⟩ := mem_map.1 h
  rw [mem_filter] at hs
  cases he
  have ho : p.1 ∈ objs := (mem_zipIdx' hp).2 ▸ getElem_mem _
  exact ⟨p.1, ho, any_eq_true.2 ⟨s, hs.1, by simp [hs.2]⟩⟩

end

/-- **The linker is correct.**  When it ends well, the output holds the image of the
objects `select_lib` has kept, linked as wanted; and a reference to a name that no
object defines makes it fail. -/
theorem tlink_correct (opts : Opts) (inputs : List Input) :
    (∀ out, tlink opts inputs = .ok out → ∃ all, readAll 0 inputs = .ok all ∧
      ((∀ o ∈ selectLib all, o.Formed) → Fits opts.textAddr.toNat (selectLib all) →
        ∃ img, Linked opts.textAddr.toNat (selectLib all) img ∧
          Written opts.textAddr.toNat (selectLib all) opts.flat img out)) ∧
    (∀ all o r s, readAll 0 inputs = .ok all → o ∈ selectLib all → r ∈ o.rels →
      o.syms[r.sym.toNat]? = some s → s.sec = 0 →
      (∀ o' ∈ all, defines o' (o.name s) = false) →
      o.name s ∉ [bytes "_etext", bytes "_edata", bytes "_end"] →
      ∃ errors, tlink opts inputs = .error errors) := by
  constructor
  · intro out h
    obtain ⟨all, g, entry, hall, hg, hov, rfl⟩ := tlink_ok h
    have hc : ∀ o ∈ selectLib all, o.Checked := fun o ho =>
      readAll_checked hall o ((selectLib_sublist all).subset ho)
    refine ⟨all, hall, fun hform hfits => ?_⟩
    have hl : Linkable opts.textAddr.toNat (selectLib all) := ⟨hform, hc, hfits⟩
    exact ⟨_, image_linked hl hg hov, output_written hl opts entry _⟩
  · intro all o r s hall ho hr hs h0 hno hspecial
    cases h : tlink opts inputs with
    | error errors => exact ⟨errors, rfl⟩
    | ok out =>
      exfalso
      obtain ⟨all', g, entry, hall', hg, -, -⟩ := tlink_ok h
      obtain rfl : all = all' := Except.ok.inj (hall.symm.trans hall')
      have hc : ∀ o ∈ selectLib all, o.Checked := fun o ho =>
        readAll_checked hall o ((selectLib_sublist all).subset ho)
      obtain ⟨i, ho⟩ := mem_iff_getElem?.1 ho
      obtain ⟨s', S, hs', hS, -⟩ := relValue_target hc hg ho hr
      obtain rfl : s = s' := Option.some.inj (hs.symm.trans hs')
      unfold Target at hS
      rw [if_pos h0] at hS
      rcases mem_append.1 hS with hS | hS
      · obtain ⟨o', ho', hd⟩ := mem_definitions hS
        rw [hno o' ((selectLib_sublist all).subset ho')] at hd
        cases hd
      · have hname := mem_map_of_mem (f := Prod.fst) hS
        exact hspecial hname

/-- A program that refers to `f`, and a library that defines it. -/
def callAndLibrary : List Input :=
  [⟨"call.o", bytes "TOF1" ++ wr32 5 ++ wr32 0 ++ wr32 0 ++ wr32 1 ++ wr32 1 ++ wr32 2 ++
      [1, 0, 0, 0, 0] ++ wr32 0 ++ wr32 0 ++ [0, 1, 0, 0] ++
      wr32 1 ++ [1, 1, 0, 0] ++ wr32 0 ++ wr32 2 ++ bytes "f" ++ [0], false⟩,
    ⟨"lib.o", bytes "TOF1" ++ wr32 1 ++ wr32 1 ++ wr32 0 ++ wr32 1 ++ wr32 0 ++ wr32 2 ++
      [9] ++ [7] ++ wr32 0 ++ wr32 0 ++ [1, 1, 0, 0] ++ bytes "f" ++ [0], true⟩]

/-- The objects in the files. -/
def objsOf (inputs : List Input) : List Obj := (readAll 0 inputs).toOption.getD []

theorem readAll_objsOf {inputs : List Input} (h : (readAll 0 inputs).toOption.isSome = true) :
    readAll 0 inputs = .ok (objsOf inputs) := by
  unfold objsOf
  cases hr : readAll 0 inputs with
  | error e =>
    rw [hr] at h
    cases h
  | ok all => rfl

theorem tlink_correct_call :
    (∃ img, Linked 0xFF4 (selectLib (objsOf callAndLibrary)) img ∧
      Written 0xFF4 (selectLib (objsOf callAndLibrary)) true img
        [1, 0xFE, 0x0F, 0, 0, 0, 0, 0, 9, 0, 0, 0, 7]) ∧
      ∃ errors, tlink ⟨true, 0, none⟩ (callAndLibrary.take 1) = .error errors := by
  constructor
  · have hok : (tlink ⟨true, 0xFF4, none⟩ callAndLibrary).toOption =
        some [1, 0xFE, 0x0F, 0, 0, 0, 0, 0, 9, 0, 0, 0, 7] := by decide +kernel
    cases htl : tlink ⟨true, 0xFF4, none⟩ callAndLibrary with
    | error e =>
      rw [htl] at hok
      cases hok
    | ok out =>
      rw [htl] at hok
      obtain ⟨all, hall, himg⟩ := (tlink_correct ⟨true, 0xFF4, none⟩ callAndLibrary).1 out htl
      cases hok
      obtain rfl : objsOf callAndLibrary = all :=
        Except.ok.inj ((readAll_objsOf (by decide +kernel)).symm.trans hall)
      exact himg (by decide +kernel) (by decide +kernel)
  · have hundef : ∃ o ∈ selectLib (objsOf (callAndLibrary.take 1)), ∃ r ∈ o.rels,
        ∃ s ∈ o.syms[r.sym.toNat]?, s.sec = 0 ∧
          (∀ o' ∈ objsOf (callAndLibrary.take 1), defines o' (o.name s) = false) ∧
          o.name s ∉ [bytes "_etext", bytes "_edata", bytes "_end"] := by
      decide +kernel
    obtain ⟨o, ho, r, hr, s, hs, h0, hno, hspecial⟩ := hundef
    exact (tlink_correct ⟨true, 0, none⟩ (callAndLibrary.take 1)).2 _ o r s
      (readAll_objsOf (by decide +kernel)) ho hr hs h0 hno hspecial

end Tortoise.Tools
