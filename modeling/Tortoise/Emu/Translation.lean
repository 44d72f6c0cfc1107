import Tortoise.Lib.Routine
import Tortoise.Emu.DevFrame

/-!
# The page walk and the translation cache

What an access to a virtual address should give, and what the translation cache
gives in one state.

* `walk` — the uncached two-level walk: a physical address, or the error code of
  a page fault.
* `Kept s t va` — the page-directory and page-table words of `va` are the same
  in `t` as in `s`, but for accessed and dirty bits that have been set.
* `TlbOk` — a live entry of the translation cache agrees with the tables.
* `translate_spec` — with an agreeing entry or without any, `translate` gives
  what the walk gives, marks the page-table entry in memory and leaves an
  agreeing entry behind.
-/

namespace Tortoise.Emu

open Tortoise.Lib

variable {s : Machine} {w va w' : Word}

/-! ## The walk -/

/-- The page-directory entry for `va`. -/
def pdeOf (s : Machine) (va : Word) : Word := ramRead s.mem (pdeAddr s va) 4

/-- The page-table entry for `va`. -/
def pteOf (s : Machine) (va : Word) : Word := ramRead s.mem (pteAddr (pdeOf s va) va) 4

/-- The uncached walk: the physical address of `va`, or the code of the page
fault. -/
def walk (s : Machine) (va : Word) (acc : Acc) (user : Bool) : Except Word Word :=
  if pdeOf s va &&& pteP = 0 then .error (pfCode acc user false)
  else if pteOf s va &&& pteP = 0 then .error (pfCode acc user false)
  else if pteDenied (pteOf s va) acc user then .error (pfCode acc user true)
  else .ok (pageOf (pteOf s va) ||| pageOff va)

/-- The words the walk for `va` looks at are in RAM. -/
structure Tables (s : Machine) (va : Word) : Prop where
  dir : inRam s (pdeAddr s va) 4 = true
  table : pdeOf s va &&& pteP ≠ 0 → inRam s (pteAddr (pdeOf s va) va) 4 = true

/-- The entry in memory is marked as an access of kind `acc` leaves it. -/
structure Marked (s : Machine) (va : Word) (acc : Acc) : Prop where
  accessed : pteOf s va &&& pteA ≠ 0
  dirty : acc = .w → pteOf s va &&& pteD ≠ 0

/-- The bits the processor itself sets in page-table entries. -/
def pteAD : Word := pteA ||| pteD

/-- From `s` to `t` the two words for `va` have at most gained accessed and
dirty bits. -/
structure Kept (s t : Machine) (va : Word) : Prop where
  cfg : t.cfg = s.cfg
  addr : pdeAddr t va = pdeAddr s va
  dir : Gains pteAD (pdeOf s va) (pdeOf t va)
  table : pdeOf s va &&& pteP ≠ 0 → Gains pteAD (pteOf s va) (pteOf t va)

theorem Kept.refl (s : Machine) (va : Word) : Kept s s va :=
  ⟨rfl, rfl, .refl _ _, fun _ => .refl _ _⟩

theorem pageOf_gains (h : Gains pteAD w w') : pageOf w' = pageOf w :=
  h.and_eq (by decide)

theorem pteAddr_gains (h : Gains pteAD w w') (va : Word) :
    pteAddr w' va = pteAddr w va := by
  unfold pteAddr
  rw [pageOf_gains h]

theorem pteDenied_gains (h : Gains pteAD w w') (acc : Acc) (user : Bool) :
    pteDenied w' acc user = pteDenied w acc user := by
  have hu : w' &&& pteU = w &&& pteU := h.and_eq (by decide)
  have hw : w' &&& pteW = w &&& pteW := h.and_eq (by decide)
  have hx : w' &&& pteX = w &&& pteX := h.and_eq (by decide)
  unfold pteDenied
  rw [hu, hw, hx]

section Kept

variable {s t : Machine} {va : Word} (h : Kept s t va)

include h

theorem Kept.present : pdeOf t va &&& pteP = pdeOf s va &&& pteP := h.dir.and_eq (by decide)

theorem Kept.walk (acc : Acc) (user : Bool) : walk t va acc user = walk s va acc user := by
  unfold Emu.walk
  rw [h.present]
  by_cases hp : pdeOf s va &&& pteP = 0
  · rw [if_pos hp, if_pos hp]
  · have hg := h.table hp
    have hP : pteOf t va &&& pteP = pteOf s va &&& pteP := hg.and_eq (by decide)
    rw [hP, pteDenied_gains hg, pageOf_gains hg]

theorem Kept.tables : Tables t va ↔ Tables s va := by
  have hr (a : Word) : inRam t a 4 = inRam s a 4 := by
    unfold inRam
    rw [h.cfg]
  refine ⟨fun ht => ⟨?_, fun hp => ?_⟩, fun ht => ⟨?_, fun hp => ?_⟩⟩
  · rw [← h.addr, ← hr]
    exact ht.dir
  · rw [← pteAddr_gains h.dir, ← hr]
    exact ht.table (by rw [h.present]; exact hp)
  · rw [h.addr, hr]
    exact ht.dir
  · rw [pteAddr_gains h.dir, hr]
    exact ht.table (by rw [← h.present]; exact hp)

end Kept

/-! ## Entries that agree with the tables -/

/-- The entry `e` of the translation cache agrees with the tables for `va`. -/
structure TlbOk (s : Machine) (va : Word) (e : TlbEnt) : Prop where
  dir : pdeOf s va &&& pteP ≠ 0
  ptePa : e.ptePa = pteAddr (pdeOf s va) va
  pte : Gains pteAD e.pte (pteOf s va)
  present : e.pte &&& pteP ≠ 0
  accessed : e.pte &&& pteA ≠ 0

theorem TlbOk.kept {t : Machine} {e : TlbEnt} (h : TlbOk s va e) (hk : Kept s t va)
    : TlbOk t va e where
  dir := by
    rw [hk.present]
    exact h.dir
  ptePa := by rw [h.ptePa, pteAddr_gains hk.dir]
  pte := h.pte.trans (hk.table h.dir)
  present := h.present
  accessed := h.accessed

theorem TlbOk.walk {e : TlbEnt} (h : TlbOk s va e) (acc : Acc) (user : Bool) : walk s va acc user =
      if pteDenied e.pte acc user then .error (pfCode acc user true)
      else .ok (pageOf e.pte ||| pageOff va) := by
  have hP : pteOf s va &&& pteP = e.pte &&& pteP := h.pte.and_eq (by decide)
  unfold Emu.walk
  rw [if_neg h.dir, hP, if_neg h.present, pteDenied_gains h.pte, pageOf_gains h.pte]

/-! ## Updates of the tables -/

/-- The address of a whole word of a table. -/
def Aligned (a : Word) : Prop := a.toNat % 4 = 0

theorem pdeAddr_aligned (s : Machine) (va : Word) : Aligned (pdeAddr s va) := by
  have hp := toNat_pageOf (s.crOf crPtbase)
  unfold Aligned pdeAddr
  rw [BitVec.toNat_add, BitVec.toNat_mul, hp, show (4 : Word).toNat = 4 from rfl]
  omega

theorem pteAddr_aligned (pde va : Word) : Aligned (pteAddr pde va) := by
  have hp := toNat_pageOf pde
  unfold Aligned pteAddr
  rw [BitVec.toNat_add, BitVec.toNat_mul, hp, show (4 : Word).toNat = 4 from rfl]
  omega

theorem ramRead_store_aligned (mem : Word → Byte) {a b : Word} (v : Word) (ha : Aligned a)
    (hb : Aligned b) :
    ramRead (storeBytes mem a 4 (byteOf v)) b 4 = if b = a then v else ramRead mem b 4 := by
  by_cases h : b = a
  · rw [if_pos h, h]
    exact ramRead_store mem a v
  · rw [if_neg h]
    have hne : b.toNat ≠ a.toNat := fun hn => h (BitVec.eq_of_toNat_eq hn)
    unfold Aligned at ha hb
    exact ramRead_store_apart mem _ (by bv_omega) (by bv_omega)

/-- An update of one table word that only sets accessed and dirty bits keeps the
words of every address. -/
theorem Kept.store {t : Machine} {a : Word} (ha : Aligned a)
    (hg : Gains pteAD (ramRead s.mem a 4) w) (hm : t.mem = storeBytes s.mem a 4 (byteOf w))
    (hc : t.cfg = s.cfg) (hb : t.crOf crPtbase = s.crOf crPtbase) (va : Word) : Kept s t va := by
  have hword (b : Word) (hb : Aligned b) : Gains pteAD (ramRead s.mem b 4) (ramRead t.mem b 4) := by
    rw [hm, ramRead_store_aligned _ _ ha hb]
    split
    · rename_i hba
      rw [hba]
      exact hg
    · exact .refl _ _
  have haddr : pdeAddr t va = pdeAddr s va := by
    unfold pdeAddr
    rw [hb]
  have hdir : Gains pteAD (pdeOf s va) (pdeOf t va) := by
    unfold pdeOf
    rw [haddr]
    exact hword _ (pdeAddr_aligned s va)
  refine ⟨hc, haddr, hdir, fun _ => ?_⟩
  unfold pteOf
  rw [pteAddr_gains hdir]
  exact hword _ (pteAddr_aligned _ va)

/-- A store to RAM changes nothing but RAM and the decoded instructions. -/
theorem ramWrite_form (a w : Word) (n : Nat) (s : Machine) :
    ∃ d, ramWrite a w n s = { s with mem := storeBytes s.mem a n (byteOf w), dcTab := d } := by
  unfold ramWrite dcDrop cpuMemWritten
  split
  · split <;> exact ⟨_, rfl⟩
  · exact ⟨_, rfl⟩

/-- The state after the entry of `va` has been written. -/
theorem pteWrite_kept (hg : Gains pteAD (pteOf s va) w) :
    Kept s (ramWrite (pteAddr (pdeOf s va) va) w 4 s) va ∧
      pteOf (ramWrite (pteAddr (pdeOf s va) va) w 4 s) va = w := by
  obtain ⟨d, hd⟩ := ramWrite_form (pteAddr (pdeOf s va) va) w 4 s
  have hk : Kept s (ramWrite (pteAddr (pdeOf s va) va) w 4 s) va := by
    rw [hd]
    refine Kept.store (pteAddr_aligned _ va) hg ?_ ?_ ?_ va <;> rfl
  refine ⟨hk, ?_⟩
  unfold pteOf
  rw [pteAddr_gains hk.dir]
  exact ramRead_store s.mem _ w

theorem touch_gains (pte : Word) (acc : Acc) : Gains pteAD pte (touch pte acc) := by
  unfold touch
  cases acc
  all_goals exact (Gains.or pte (by decide)).trans (Gains.or _ (by decide))

/-! ## One translation -/

section Spec

variable {s : Machine} {va : Word}

theorem physRead_ram (F : Fault) {pa : Word} {n : Nat} (h : inRam s pa n = true) :
    physRead F pa n s = .ok (ramRead s.mem pa n) s := if_pos h

theorem physWrite_ram (F : Fault) {pa v : Word} {n : Nat} (h : inRam s pa n = true) :
    physWrite F pa v n s = .ok () (ramWrite pa v n s) := if_pos h

theorem or_ne_zero_right (w k : Word) (hk : k ≠ 0) : (w ||| k) &&& k ≠ 0 := by
  intro h
  apply hk
  ext i hi
  have h₀ := congrArg (fun v => v.getLsbD i) h
  have hz : (0 : Word)[i] = false := BitVec.getElem_zero hi
  simp only [BitVec.getLsbD_eq_getElem hi, BitVec.getElem_and, BitVec.getElem_or, hz] at h₀ ⊢
  revert h₀
  cases w[i] <;> cases k[i] <;> decide

theorem touch_accessed (pte : Word) (acc : Acc) : touch pte acc &&& pteA ≠ 0 := by
  unfold touch
  exact (Gains.or (m := pteAD) (pte ||| pteA)
    (by cases acc <;> decide)).and_ne (or_ne_zero_right pte pteA (by decide))

theorem touch_dirty (pte : Word) : touch pte .w &&& pteD ≠ 0 :=
  or_ne_zero_right _ pteD (by decide)

/-- The result `r` of an access to `va` is that of the walk in `s`: the fault of
the walk, or its address with the entry in memory marked and an agreeing entry
in the cache. -/
def Refines (F : Fault) (s : Machine) (va : Word) (acc : Acc) (user : Bool)
    (r : EStateM.Result Exit Machine Word) : Prop :=
  match walk s va acc user with
  | .error code => r = .error .longjmp (F vecPf code (s.setCr crFaddr va))
  | .ok pa => ∃ t, r = .ok pa t ∧ Marked t va acc ∧ TlbOk t va (t.tlb (pageNum va))

/-- The state in which the entry of `va` is marked in memory for an access. -/
def markPte (s : Machine) (va : Word) (acc : Acc) : Machine :=
  if touch (pteOf s va) acc ≠ pteOf s va then
    ramWrite (pteAddr (pdeOf s va) va) (touch (pteOf s va) acc) 4 s
  else s

theorem markPte_kept (s : Machine) (va : Word) (acc : Acc) :
    Kept s (markPte s va acc) va ∧ pteOf (markPte s va acc) va = touch (pteOf s va) acc := by
  unfold markPte
  split
  · exact pteWrite_kept (touch_gains _ acc)
  · rename_i h
    exact ⟨.refl s va, (not_not.1 h).symm⟩

/-- The miss path when the tables are in RAM. -/
theorem pgMiss_eq (F : Fault) (ht : Tables s va) (acc : Acc) (user : Bool) :
    pgMiss F va acc user s =
      match walk s va acc user with
      | .error code => .error .longjmp (F vecPf code (s.setCr crFaddr va))
      | .ok pa =>
        let u := markPte s va acc
        .ok pa (setTlb (pageNum va)
          ⟨u.tlbGen, touch (pteOf s va) acc, pteAddr (pdeOf s va) va⟩ u) := by
  have hdir : physRead F (pdeAddr s va) 4 s = .ok (pdeOf s va) s := physRead_ram F ht.dir
  unfold pgMiss walk
  rw [get_bind_apply, bind_ok hdir]
  by_cases hp : pdeOf s va &&& pteP = 0
  · simp only [hp, ↓reduceIte]
    rfl
  · have htab : physRead F (pteAddr (pdeOf s va) va) 4 s = .ok (pteOf s va) s :=
      physRead_ram F (ht.table hp)
    simp only [hp, ↓reduceIte]
    rw [bind_ok htab]
    by_cases hq : pteOf s va &&& pteP = 0
    · simp only [hq, ↓reduceIte]
      rfl
    · by_cases hd : pteDenied (pteOf s va) acc user = true
      · simp only [hq, hd, ↓reduceIte]
        rfl
      · simp only [hq, hd, ↓reduceIte, pageOf_gains (touch_gains (pteOf s va) acc)]
        unfold markPte
        by_cases hn : touch (pteOf s va) acc = pteOf s va
        · simp only [hn, ne_eq, not_true_eq_false, ↓reduceIte]
          rfl
        · simp only [hn, ne_eq, not_false_eq_true, Bool.false_eq_true, ↓reduceIte]
          rw [bind_ok (physWrite_ram F (ht.table hp))]
          rfl

theorem pdeOf_setTlb (p : Nat) (e : TlbEnt) (u : Machine) : pdeOf (setTlb p e u) va = pdeOf u va :=
  rfl

theorem pteOf_setTlb (p : Nat) (e : TlbEnt) (u : Machine) : pteOf (setTlb p e u) va = pteOf u va :=
  rfl

theorem pgMiss_refines (F : Fault) (ht : Tables s va) (acc : Acc) (user : Bool) :
    Refines F s va acc user (pgMiss F va acc user s) := by
  unfold Refines
  rw [pgMiss_eq F ht]
  cases hw : walk s va acc user with
  | error code => rfl
  | ok pa =>
    obtain ⟨hk, hpte⟩ := markPte_kept s va acc
    have hp : pdeOf s va &&& pteP ≠ 0 ∧ pteOf s va &&& pteP ≠ 0 := by
      unfold walk at hw
      split at hw
      · cases hw
      · split at hw
        · cases hw
        · exact ⟨‹_›, ‹_›⟩
    refine ⟨_, rfl, ⟨?_, ?_⟩, ?_⟩
    · rw [pteOf_setTlb, hpte]
      exact touch_accessed _ acc
    · rintro rfl
      rw [pteOf_setTlb, hpte]
      exact touch_dirty _
    · have hent : (setTlb (pageNum va) ⟨(markPte s va acc).tlbGen, touch (pteOf s va) acc,
          pteAddr (pdeOf s va) va⟩ (markPte s va acc)).tlb (pageNum va) =
          ⟨(markPte s va acc).tlbGen, touch (pteOf s va) acc, pteAddr (pdeOf s va) va⟩ :=
        if_pos rfl
      rw [hent]
      exact {
        dir := by
          rw [pdeOf_setTlb, hk.present]
          exact hp.1
        ptePa := by rw [pdeOf_setTlb, pteAddr_gains hk.dir]
        pte := by
          rw [pteOf_setTlb, hpte]
          exact .refl _ _
        present := (touch_gains _ acc).and_ne hp.2
        accessed := touch_accessed _ acc }

theorem pgHit_refines (F : Fault) (ht : Tables s va) (acc : Acc) (user : Bool)
    (he : TlbOk s va (s.tlb (pageNum va))) :
    Refines F s va acc user (pgHit F va acc user (s.tlb (pageNum va)) s) := by
  generalize hE : s.tlb (pageNum va) = e at he
  unfold Refines pgHit
  rw [he.walk acc user]
  by_cases hd : pteDenied e.pte acc user = true
  · simp only [hd, ↓reduceIte]
    rfl
  · simp only [hd, Bool.false_eq_true, ↓reduceIte]
    by_cases hw : acc = .w ∧ e.pte &&& pteD = 0
    · -- the first write since the refill: entry and memory get the dirty bit
      have hr : inRam s e.ptePa 4 = true := by
        rw [he.ptePa]
        exact ht.table he.dir
      let s₁ := setTlb (pageNum va) { e with pte := e.pte ||| pteD } s
      have hread : physRead F e.ptePa 4 s₁ = .ok (pteOf s va) s₁ := by
        have h := physRead_ram (s := s₁) F hr
        rwa [show ramRead s₁.mem e.ptePa 4 = pteOf s va by rw [he.ptePa]; rfl] at h
      have hg : Gains pteAD (pteOf s₁ va) (pteOf s va ||| pteD ||| pteA) :=
        (Gains.or _ (by decide)).trans (Gains.or _ (by decide))
      obtain ⟨hk, hpte⟩ := pteWrite_kept (s := s₁) hg
      rw [show pteAddr (pdeOf s₁ va) va = e.ptePa from he.ptePa.symm] at hk hpte
      have htlb : (ramWrite e.ptePa (pteOf s va ||| pteD ||| pteA) 4 s₁).tlb (pageNum va) =
          { e with pte := e.pte ||| pteD } := by
        obtain ⟨d, hd⟩ := ramWrite_form e.ptePa (pteOf s va ||| pteD ||| pteA) 4 s₁
        rw [hd]
        exact if_pos rfl
      have hr₁ : inRam s₁ e.ptePa 4 = true := hr
      simp only [hw, and_self, ↓reduceIte]
      rw [modify_bind_apply]
      change ∃ t, (physRead F e.ptePa 4 >>= _) s₁ = _ ∧ _
      rw [bind_ok hread, bind_ok (physWrite_ram F hr₁)]
      refine ⟨_, rfl, ⟨?_, fun _ => ?_⟩, ?_⟩
      · rw [hpte]
        exact or_ne_zero_right _ pteA (by decide)
      · rw [hpte]
        exact (Gains.or (m := pteAD) _ (by decide)).and_ne (or_ne_zero_right _ pteD (by decide))
      · rw [htlb]
        have hs₁ : TlbOk s₁ va e := { he with }
        have hk' := hs₁.kept hk
        exact {
          dir := hk'.dir
          ptePa := hk'.ptePa
          pte := by
            rw [hpte]
            exact (he.pte.or_or pteD).trans (Gains.or _ (by decide))
          present := (Gains.or (m := pteAD) _ (by decide)).and_ne he.present
          accessed := (Gains.or (m := pteAD) _ (by decide)).and_ne he.accessed }
    · simp only [hw, ↓reduceIte]
      refine ⟨s, rfl, ⟨he.pte.and_ne he.accessed, fun ha => he.pte.and_ne fun h0 => hw ⟨ha, h0⟩⟩, ?_⟩
      rw [hE]
      exact he

/-- With paging on a translation is a hit or a miss. -/
theorem translate_paging (F : Fault) (hx : s.extOn = true) (hp : s.pgOn = true) {acc : Acc}
    {user : Bool} : translate F va acc user s =
      if (s.tlb (pageNum va)).gen = s.tlbGen then pgHit F va acc user (s.tlb (pageNum va)) s
      else pgMiss F va acc user s := by
  unfold translate pgTranslate
  rw [get_bind_apply]
  simp only [hx, hp, Bool.not_true, Bool.false_eq_true, ↓reduceIte]
  rw [get_bind_apply, ite_not]
  exact apply_ite (fun x : M Word => x s) _ _ _

/-- Without paging it checks the limit of a user program. -/
theorem translate_direct (F : Fault) (h : (s.extOn && s.pgOn) = false) {acc : Acc} {user : Bool} :
    translate F va acc user s =
      if s.extOn && s.protOn && user then
        if s.crOf crLimit ≤ va then .error .longjmp (F vecGp 0 (s.setCr crFaddr va))
        else .ok (s.crOf crBase + va) s
      else .ok va s := by
  unfold translate
  rw [get_bind_apply]
  cases hx : s.extOn with
  | false => rfl
  | true =>
    rw [hx, Bool.true_and] at h
    simp only [h, Bool.not_true, Bool.true_and, Bool.false_eq_true, ↓reduceIte]
    split_ifs <;> rfl

/-- **One translation.**  With the tables in RAM and the entry of the page dead
or agreeing with them, `translate` gives what the walk gives. -/
theorem translate_refines (F : Fault) (hx : s.extOn = true) (hp : s.pgOn = true)
    (ht : Tables s va) (acc : Acc) (user : Bool)
    (he : (s.tlb (pageNum va)).gen = s.tlbGen → TlbOk s va (s.tlb (pageNum va))) :
    Refines F s va acc user (translate F va acc user s) := by
  rw [translate_paging F hx hp]
  split
  · next hg => exact pgHit_refines F ht acc user (he hg)
  · exact pgMiss_refines F ht acc user

end Spec

end Tortoise.Emu
