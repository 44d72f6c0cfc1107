import Tortoise.Emu.TranslationRuns

/-!
# What translation does to memory

Where the page tables lie in RAM and the translation cache agrees with them
(`TlbAgrees`), a translation either raises the page fault of the walk or returns
its address, and changes memory only by setting accessed and dirty bits in
page-table entries (`Marks`), as `translate_marked` says.
-/

namespace Tortoise.Emu

open Lib
open BitVec hiding and_self

variable {s t u : Machine} {pa va : Word}

/-! ## Consecutive addresses -/

theorem toNat_frame (x y : Word) :
    (pageOf x ||| pageOff y).toNat = x.toNat / 4096 * 4096 + y.toNat % 4096 := by
  have hx := toNat_pageOf x
  have hy := toNat_pageOff y
  rw [toNat_or, hx, hy, Nat.mul_comm, ← Nat.two_pow_add_eq_or_of_lt (i := 12) (by omega)]

/-- Inside a page the walk leads to consecutive addresses. -/
theorem walk_add {acc : Acc} {user : Bool} {i : Nat} (h : walk s va acc user = .ok pa)
    (hi : (pageOff va).toNat + i < 4096) :
    walk s (va + BitVec.ofNat 32 i) acc user = .ok (pa + BitVec.ofNat 32 i) := by
  have hva := toNat_pageOff va
  have hp : pageNum (va + BitVec.ofNat 32 i) = pageNum va := by
    unfold pageNum
    rw [toNat_add, toNat_ofNat]
    omega
  rw [walk_page hp h, walk_ok h]
  congr 1
  apply eq_of_toNat_eq
  rw [toNat_add, toNat_frame, toNat_frame, toNat_add, toNat_ofNat]
  have := (pteOf s va).isLt
  omega

/-- When the last byte of a word follows the first at distance three, the bytes
between them do too: a word touches at most two pages. -/
theorem walk_contiguous {acc : Acc} {user : Bool} {p : Nat → Word}
    (h : ∀ k, k < 4 → walk s (va + BitVec.ofNat 32 k) acc user = .ok (p k)) (h₃ : p 3 = p 0 + 3)
    {k : Nat} (hk : k < 4) : p k = p 0 + BitVec.ofNat 32 k := by
  have hoff := toNat_pageOff va
  by_cases hpage : (pageOff va).toNat + k < 4096
  · -- the byte is on the page of the first
    have h₀ := h 0 (by decide)
    rw [show va + BitVec.ofNat 32 0 = va by bv_omega] at h₀
    have hw := walk_add h₀ hpage
    rw [h k hk] at hw
    exact Except.ok.inj hw
  · -- the byte is on the page of the last
    have hoffk := toNat_pageOff (va + BitVec.ofNat 32 k)
    rw [toNat_add, toNat_ofNat] at hoffk
    have hw := walk_add (h k hk) (i := 3 - k) (by omega)
    rw [show va + BitVec.ofNat 32 k + BitVec.ofNat 32 (3 - k) = va + BitVec.ofNat 32 3 by bv_omega,
      h 3 (by decide)] at hw
    have hp := Except.ok.inj hw
    rw [h₃] at hp
    bv_omega

/-! ## Agreeing caches and marks -/

/-- The page tables lie in RAM and every live entry of the translation cache
agrees with them. -/
structure TlbAgrees (s : Machine) : Prop where
  tables : ∀ va, Tables s va
  tlb : ∀ va, (s.tlb (pageNum va)).gen = s.tlbGen → TlbOk s va (s.tlb (pageNum va))

/-- The low byte of a page-table entry, where the accessed and dirty bits are. -/
def PteByte (s : Machine) (a : Word) : Prop :=
  ∃ va, pdeOf s va &&& pteP ≠ 0 ∧ a = pteAddr (pdeOf s va) va

/-- The memory of `u` is that of `s` with accessed and dirty bits of page-table
entries set. -/
structure Marks (s u : Machine) : Prop where
  kept : ∀ va, Kept s u va
  mem : ∀ a, u.mem a ≠ s.mem a → PteByte s a ∧ Gains 0x30 (s.mem a) (u.mem a)

theorem Marks.refl (s : Machine) : Marks s s := ⟨fun va => .refl s va, fun _ h => absurd rfl h⟩

theorem Kept.trans (h : Kept s t va) (h' : Kept t u va) : Kept s u va where
  cfg := h'.cfg.trans h.cfg
  addr := h'.addr.trans h.addr
  dir := h.dir.trans h'.dir
  table hp := (h.table hp).trans (h'.table (by rw [h.present]; exact hp))

theorem PteByte.of_kept (h : ∀ va, Kept s t va) {a : Word} (ha : PteByte t a) : PteByte s a := by
  obtain ⟨va, hp, rfl⟩ := ha
  refine ⟨va, ?_, pteAddr_gains (h va).dir va⟩
  rw [← (h va).present]
  exact hp

theorem Marks.trans (h : Marks s t) (h' : Marks t u) : Marks s u where
  kept va := (h.kept va).trans (h'.kept va)
  mem a ha := by
    by_cases h₁ : t.mem a = s.mem a
    · rw [← h₁] at ha
      obtain ⟨hb, hg⟩ := h'.mem a ha
      exact ⟨hb.of_kept h.kept, h₁ ▸ hg⟩
    · obtain ⟨hb, hg⟩ := h.mem a h₁
      by_cases h₂ : u.mem a = t.mem a
      · exact ⟨hb, h₂ ▸ hg⟩
      · exact ⟨hb, hg.trans (h'.mem a h₂).2⟩

/-- Whether an address is mapped, and where, does not depend on marks. -/
theorem Marks.walk (h : Marks s u) (va : Word) (acc : Acc) (user : Bool) :
    walk u va acc user = walk s va acc user := (h.kept va).walk acc user

theorem Kept.congr (hc : t.cfg = s.cfg) (hb : t.crOf crPtbase = s.crOf crPtbase)
    (hm : t.mem = s.mem) (va : Word) : Kept s t va := by
  have ha : pdeAddr t va = pdeAddr s va := by
    unfold pdeAddr
    rw [hb]
  have hd : pdeOf t va = pdeOf s va := by
    unfold pdeOf
    rw [ha, hm]
  have ht : pteOf t va = pteOf s va := by
    unfold pteOf
    rw [hd, hm]
  exact ⟨hc, ha, by rw [hd]; exact .refl _ _, fun _ => by rw [ht]; exact .refl _ _⟩

theorem TlbAgrees.of_kept (h : TlbAgrees s) (hk : ∀ va, Kept s t va) (htlb : t.tlb = s.tlb)
    (hg : t.tlbGen = s.tlbGen) : TlbAgrees t := by
  refine ⟨fun va => (hk va).tables.2 (h.tables va), fun va hl => ?_⟩
  rw [htlb] at hl ⊢
  rw [hg] at hl
  exact (h.tlb va hl).kept (hk va)

/-! ## The bytes of a marked entry -/

theorem byteOf_rd32 (b₀ b₁ b₂ b₃ : Byte) :
    byteOf (rd32 b₀ b₁ b₂ b₃) 0 = b₀ ∧ byteOf (rd32 b₀ b₁ b₂ b₃) 1 = b₁ ∧
      byteOf (rd32 b₀ b₁ b₂ b₃) 2 = b₂ ∧ byteOf (rd32 b₀ b₁ b₂ b₃) 3 = b₃ := by
  unfold byteOf rd32
  refine ⟨?_, ?_, ?_, ?_⟩
  all_goals
    ext i hi
    simp [getElem_extractLsb']
    grind

/-- A word that gains accessed and dirty bits changes in its low byte only. -/
theorem byteOf_gains {w w' : Word} (h : Gains pteAD w w') (i : Nat) :
    Gains (if i = 0 then 0x30 else 0) (byteOf w i) (byteOf w' i) := by
  rw [gains_iff] at h ⊢
  intro j hj
  unfold byteOf
  rw [getElem_extractLsb', getElem_extractLsb']
  by_cases hlt : 8 * i + j < 32
  · rw [getLsbD_eq_getElem hlt, getLsbD_eq_getElem hlt, h _ hlt]
    by_cases hi : i = 0
    · subst hi
      have hm : pteAD[8 * 0 + j] = (0x30 : Byte)[j] := by
        revert j
        decide
      simp only [↓reduceIte, hm]
      cases w[8 * 0 + j] <;> cases w'[8 * 0 + j] <;> simp
    · have hm : pteAD[8 * i + j] = false := by
        have hall : ∀ k (hk : k < 32), 8 ≤ k → pteAD[k] = false := by decide
        exact hall _ hlt (by omega)
      simp only [hi, ↓reduceIte, hm]
      simp
  · rw [getLsbD_of_ge _ _ (by omega), getLsbD_of_ge _ _ (by omega)]
    rfl

theorem gains_zero {n : Nat} {w w' : BitVec n} (h : Gains 0 w w') : w' = w := by
  unfold Gains at h
  simpa using h

/-- Writing the marked entry of `va` marks the state. -/
theorem Marks.of_store {w : Word} (hp : pdeOf s va &&& pteP ≠ 0) (hg : Gains pteAD (pteOf s va) w)
    (hm : t.mem = storeBytes s.mem (pteAddr (pdeOf s va) va) 4 (byteOf w)) (hc : t.cfg = s.cfg)
    (hb : t.crOf crPtbase = s.crOf crPtbase) : Marks s t where
  kept := Kept.store (pteAddr_aligned _ va) hg hm hc hb
  mem a ha := by
    rw [hm] at ha ⊢
    unfold storeBytes at ha ⊢
    by_cases hlt : (a - pteAddr (pdeOf s va) va).toNat < 4
    · rw [if_pos hlt] at ha ⊢
      have hbytes := byteOf_rd32 (s.mem (pteAddr (pdeOf s va) va + 0))
        (s.mem (pteAddr (pdeOf s va) va + 1)) (s.mem (pteAddr (pdeOf s va) va + 2))
        (s.mem (pteAddr (pdeOf s va) va + 3))
      -- the byte of the old entry at this offset is the one in memory
      have hold : ∀ i, i < 4 → byteOf (pteOf s va) i =
          s.mem (pteAddr (pdeOf s va) va + BitVec.ofNat 32 i) := by
        intro i hi
        match i, hi with
        | 0, _ => exact hbytes.1
        | 1, _ => exact hbytes.2.1
        | 2, _ => exact hbytes.2.2.1
        | 3, _ => exact hbytes.2.2.2
      have haddr : pteAddr (pdeOf s va) va +
          BitVec.ofNat 32 (a - pteAddr (pdeOf s va) va).toNat = a := by bv_omega
      have hgain := byteOf_gains hg (a - pteAddr (pdeOf s va) va).toNat
      rw [hold _ hlt, haddr] at hgain
      by_cases h0 : (a - pteAddr (pdeOf s va) va).toNat = 0
      · rw [h0] at hgain ⊢
        exact ⟨⟨va, hp, by bv_omega⟩, hgain⟩
      · rw [if_neg h0] at hgain
        exact absurd (gains_zero hgain) ha
    · rw [if_neg hlt] at ha
      exact absurd rfl ha

/-! ## Translation -/

/-- What a translation may change: memory by marks, and the caches. -/
structure Touched (s t : Machine) : Prop where
  form : ∃ mem tlb dc, t = { s with mem := mem, tlb := tlb, dcTab := dc }
  marks : Marks s t

theorem Touched.refl (s : Machine) : Touched s s := ⟨⟨s.mem, s.tlb, s.dcTab, rfl⟩, .refl s⟩

theorem Touched.trans (h : Touched s t) (h' : Touched t u) : Touched s u where
  form := by
    obtain ⟨mem, tlb, dc, rfl⟩ := h.form
    obtain ⟨mem', tlb', dc', rfl⟩ := h'.form
    exact ⟨mem', tlb', dc', rfl⟩
  marks := h.marks.trans h'.marks

section Translate

variable {s : Machine} {va : Word} {acc : Acc} {user : Bool}

theorem markPte_touched (hp : pdeOf s va &&& pteP ≠ 0) : Touched s (markPte s va acc) := by
  unfold markPte
  split
  · obtain ⟨d, hd⟩ := ramWrite_form (pteAddr (pdeOf s va) va) (touch (pteOf s va) acc) 4 s
    rw [hd]
    exact ⟨⟨_, _, _, rfl⟩, .of_store hp (touch_gains _ acc) rfl rfl rfl⟩
  · exact .refl s

theorem setTlb_touched (p : Nat) (e : TlbEnt) (s : Machine) : Touched s (setTlb p e s) :=
  ⟨⟨_, _, _, rfl⟩, ⟨fun _ => ⟨rfl, rfl, .refl _ _, fun _ => .refl _ _⟩, fun _ h => absurd rfl h⟩⟩

theorem pgMiss_touched (F : Fault) (ht : Tables s va) (h : pgMiss F va acc user s = .ok pa t) :
    Touched s t := by
  rw [pgMiss_eq F ht] at h
  cases hw : walk s va acc user with
  | error code =>
    rw [hw] at h
    cases h
  | ok pa' =>
    rw [hw] at h
    cases h
    exact (markPte_touched (walk_present hw)).trans (setTlb_touched _ _ _)

theorem pgHit_touched (F : Fault) (ht : Tables s va) (he : TlbOk s va (s.tlb (pageNum va)))
    (h : pgHit F va acc user (s.tlb (pageNum va)) s = .ok pa t) : Touched s t := by
  generalize hE : s.tlb (pageNum va) = e at he h
  unfold pgHit at h
  by_cases hd : pteDenied e.pte acc user = true
  · simp only [hd, ↓reduceIte] at h
    cases h
  · simp only [hd, Bool.false_eq_true, ↓reduceIte] at h
    by_cases hw : acc = .w ∧ e.pte &&& pteD = 0
    · simp only [hw, and_self, ↓reduceIte] at h
      let s₁ := setTlb (pageNum va) { e with pte := e.pte ||| pteD } s
      have hr : inRam s₁ e.ptePa 4 = true := by
        have hram : inRam s e.ptePa 4 = true := by
          rw [he.ptePa]
          exact ht.table he.dir
        exact hram
      have hread : physRead F e.ptePa 4 s₁ = .ok (pteOf s va) s₁ := by
        have h := physRead_ram (s := s₁) F hr
        rwa [show ramRead s₁.mem e.ptePa 4 = pteOf s va by rw [he.ptePa]; rfl] at h
      have hwrite := physWrite_ram (v := pteOf s va ||| pteD ||| pteA) F hr
      rw [modify_bind_apply, bind_ok hread, bind_ok hwrite] at h
      cases h
      refine (setTlb_touched (pageNum va) { e with pte := e.pte ||| pteD } s).trans ?_
      obtain ⟨d, hd⟩ := ramWrite_form e.ptePa (pteOf s va ||| pteD ||| pteA) 4 s₁
      change Touched s₁ _
      rw [hd]
      have hg : Gains pteAD (pteOf s₁ va) (pteOf s va ||| pteD ||| pteA) :=
        (Gains.or _ (by decide)).trans (Gains.or _ (by decide))
      exact ⟨⟨_, _, _, rfl⟩, .of_store he.dir hg (by rw [he.ptePa]; rfl) rfl rfl⟩
    · simp only [hw, ↓reduceIte] at h
      cases h
      exact .refl _

theorem TlbAgrees.translate {F : Fault} (hc : TlbAgrees s) (hx : s.extOn = true)
    (hp : s.pgOn = true) (h : translate F va acc user s = .ok pa t) (ht : Touched s t) :
    TlbAgrees t where
  tables va' := (ht.marks.kept va').tables.2 (hc.tables va')
  tlb va' hg := by
    have hb := translate_beside h
    by_cases hva : pageNum va' = pageNum va
    · have href := translate_refines F hx hp (hc.tables va) acc user (hc.tlb va)
      unfold Refines at href
      rw [h] at href
      split at href
      · cases href
      · obtain ⟨t', heq, -, htlb⟩ := href
        cases heq
        rw [hva]
        exact htlb.page hva
    · rw [hb.tlb _ hva] at hg ⊢
      rw [hb.tlbGen] at hg
      exact (hc.tlb va' hg).kept (ht.marks.kept va')

/-- **Translation with an agreeing cache** gives what the walk gives, and changes
memory only by marks. -/
theorem translate_marked (F : Fault) (hc : TlbAgrees s) (hx : s.extOn = true) (hp : s.pgOn = true)
    (va : Word) (acc : Acc) (user : Bool) :
    (∃ code, translate F va acc user s = .error .longjmp (F vecPf code (s.setCr crFaddr va)) ∧
      walk s va acc user = .error code) ∨
    ∃ pa t, translate F va acc user s = .ok pa t ∧ walk s va acc user = .ok pa ∧
      Touched s t ∧ TlbAgrees t := by
  have href := translate_refines F hx hp (hc.tables va) acc user (hc.tlb va)
  unfold Refines at href
  cases hw : walk s va acc user with
  | error code =>
    rw [hw] at href
    exact .inl ⟨code, href, rfl⟩
  | ok pa =>
    rw [hw] at href
    obtain ⟨t, heq, -, -⟩ := href
    have ht : Touched s t := by
      have h := heq
      rw [translate_paging F hx hp] at h
      split at h
      · next hg => exact pgHit_touched F (hc.tables va) (hc.tlb va hg) h
      · exact pgMiss_touched F (hc.tables va) h
    exact .inr ⟨pa, t, heq, rfl, ht, hc.translate hx hp heq ht⟩

end Translate

end Tortoise.Emu
