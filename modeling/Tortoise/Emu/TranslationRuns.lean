import Tortoise.Emu.Closure
import Tortoise.Emu.Translation

/-!
# Runs with the translation cache and the cached fetch page

A run is cut into the actions that matter to address translation (`Tick`):
accesses, instruction fetches, flushes, invalidations, and everything else,
which leaves the caches alone.  Beside the machine a run keeps the set of
virtual pages that are *stale*: those whose page-directory or page-table word
has changed, other than by gaining accessed and dirty bits, since the last flush
or the last invalidation of the page.

* `Coh` — for every page that is not stale and whose tables are in RAM, a live
  entry agrees with the tables, and so does the cached fetch page.
* `tick_coh`, `run_coh` — every action, hence every run, keeps it.
* `executes`, `Drops` — the instruction a step executes, and the pages whose
  translations it has to drop: all of them for `TLBFLUSH` and a write of `CR0` or
  `CR3`, one for `INVLPG`.
* `runActs_acts` — every sequence of steps and pokes is such a run, in which these
  instructions clear the stale pages.
* `caches_refine_walk` — every access and every fetch gives what the uncached
  walk gives.
-/

namespace Tortoise.Emu

open Lib

variable {acc : Acc} {user : Bool} {F : Fault} {s t u : Machine} {p : Nat} {e : TlbEnt} {α : Type}
  {pa pc va : Word}

/-! ## Actions -/

/-- The virtual pages, by number, whose table words have changed. -/
abbrev Stale := Nat → Prop

variable {S : Stale}

/-- The stale pages after a change of the machine from `s` to `t`. -/
def changed (S : Stale) (s t : Machine) : Stale :=
  fun p => S p ∨ ∃ va, pageNum va = p ∧ ¬ Kept s t va

/-- A change that leaves the caches alone, but for dropping the fetch page.
Without dropping it the mode may only change to supervisor, except on the 16-bit
machine. -/
structure Steady (s t : Machine) : Prop where
  cfg : t.cfg = s.cfg
  tlb : t.tlb = s.tlb
  tlbGen : t.tlbGen = s.tlbGen
  fPtr : t.fPtr = s.fPtr
  ctrl : t.crOf crCtrl = s.crOf crCtrl
  base : t.crOf crPtbase = s.crOf crPtbase
  fetch : t.fTag = 1 ∨ (t.fTag = s.fTag ∧
    (t.cpu.mode = s.cpu.mode ∨ t.cpu.mode = .supervisor ∨ s.extOn = false))

/-- One action of a run, with the pages that are stale before and after it. -/
inductive Tick : Machine × Stale → Machine × Stale → Prop
  | other {s t : Machine} (S : Stale) : Steady s t → Tick (s, S) (t, changed S s t)
  | access {s t : Machine} {F : Fault} {va pa : Word} {acc : Acc} {user : Bool} (S : Stale) :
      translate F va acc user s = .ok pa t → Tick (s, S) (t, changed S s t)
  | fetch {s t : Machine} {F : Fault} {pc : Word} {b : Byte} (S : Stale) :
      fetchAt F pc s = .ok b t → Tick (s, S) (t, changed S s t)
  /-- The dirty bit goes to an entry whose word in memory cannot be updated. -/
  | mark {s : Machine} {p : Nat} {e : TlbEnt} (S : Stale) :
      s.tlb p = e → inRam s e.ptePa 4 = false →
        Tick (s, S) (setTlb p { e with pte := e.pte ||| pteD } s, S)
  | flush (s : Machine) (S : Stale) : Tick (s, S) (cpuFlushTlb s, fun _ => False)
  | cr (s : Machine) (S : Stale) (n : BitVec 4) (v : Word) :
      Tick (s, S) (cpuFlushTlb (s.setCr n v), fun _ => False)
  | invlpg (s : Machine) (S : Stale) (va : Word) :
      Tick (s, S) (cpuInvlpg va s, fun p => S p ∧ p ≠ pageNum va)

/-- A run. -/
abbrev Run := Relation.ReflTransGen Tick

/-! ## Addresses of one page -/

section Page

variable {s : Machine} {va va' : Word} (h : pageNum va' = pageNum va)

include h

theorem pdeAddr_page : pdeAddr s va' = pdeAddr s va := by
  have hs : va' >>> 22 = va >>> 22 := by
    apply BitVec.eq_of_toNat_eq
    unfold pageNum at h
    rw [toNat_shiftRight, toNat_shiftRight]
    omega
  unfold pdeAddr
  rw [hs]

theorem pteAddr_page (pde : Word) : pteAddr pde va' = pteAddr pde va := by
  have hs : va' >>> 12 = va >>> 12 := by
    apply BitVec.eq_of_toNat_eq
    rw [toNat_shiftRight, toNat_shiftRight]
    exact h
  unfold pteAddr
  rw [hs]

theorem pdeOf_page : pdeOf s va' = pdeOf s va := by
  unfold pdeOf
  rw [pdeAddr_page h]

theorem pteOf_page : pteOf s va' = pteOf s va := by
  unfold pteOf
  rw [pdeOf_page h, pteAddr_page h]

theorem Tables.page (ht : Tables s va') : Tables s va := by
  refine ⟨?_, fun hp => ?_⟩
  · rw [← pdeAddr_page h]
    exact ht.dir
  · rw [← pdeOf_page h, ← pteAddr_page h]
    exact ht.table (by rw [pdeOf_page h]; exact hp)

theorem TlbOk.page (he : TlbOk s va e) : TlbOk s va' e where
  dir := by
    rw [pdeOf_page h]
    exact he.dir
  ptePa := by rw [pdeOf_page h, pteAddr_page h, he.ptePa]
  pte := by
    rw [pteOf_page h]
    exact he.pte
  present := he.present
  accessed := he.accessed

end Page

theorem pageNum_of_pageOf {va' : Word} (h : pageOf va' = pageOf va) : pageNum va' = pageNum va := by
  have hn := congrArg BitVec.toNat h
  rw [toNat_pageOf, toNat_pageOf] at hn
  unfold pageNum
  omega

theorem walk_eq_ok :
    walk s va acc user = .ok pa ↔ pdeOf s va &&& pteP ≠ 0 ∧ pteOf s va &&& pteP ≠ 0 ∧
      pteDenied (pteOf s va) acc user ≠ true ∧ pageOf (pteOf s va) ||| pageOff va = pa := by
  unfold walk
  split_ifs <;> simp_all

theorem walk_ok (h : walk s va acc user = .ok pa) : pa = pageOf (pteOf s va) ||| pageOff va :=
  (walk_eq_ok.1 h).2.2.2.symm

theorem walk_present (h : walk s va acc user = .ok pa) :
    pdeOf s va &&& pteP ≠ 0 := (walk_eq_ok.1 h).1

theorem walk_page {va' : Word} (hp : pageNum va' = pageNum va) (h : walk s va acc user = .ok pa) :
    walk s va' acc user = .ok (pageOf (pteOf s va) ||| pageOff va') := by
  obtain ⟨h₁, h₂, h₃, -⟩ := walk_eq_ok.1 h
  rw [walk_eq_ok, pdeOf_page hp, pteOf_page hp]
  exact ⟨h₁, h₂, h₃, rfl⟩

/-- What a user program may fetch the supervisor may. -/
theorem walk_supervisor (user : Bool) (h : walk s va .x user = .ok pa) :
    walk s va .x false = .ok pa := by
  obtain ⟨h₁, h₂, h₃, h₄⟩ := walk_eq_ok.1 h
  refine walk_eq_ok.2 ⟨h₁, h₂, ?_, h₄⟩
  simp only [pteDenied] at h₃ ⊢
  simp_all

/-! ## The invariant -/

/-- The physical address of the cached fetch page. -/
def fetchBase : FetchPtr → Word
  | .ram pb => pb
  | .rom off => off + romBase

/-- The cached fetch page is a whole page of RAM or of the ROM. -/
def PtrOk (c : Config) : FetchPtr → Prop
  | .ram pb => pageOf pb = pb ∧ pb < c.ramSize ∧ 0x1000 ≤ c.ramSize - pb
  | .rom off => pageOf (off + romBase) = off + romBase ∧ romBase ≤ off + romBase ∧ c.romPresent

/-- The cached fetch page is where the walk for `va` leads. -/
structure FetchOk (s : Machine) (va : Word) : Prop where
  ptr : PtrOk s.cfg s.fPtr
  walk : walk s va .x s.isUser = .ok (fetchBase s.fPtr ||| pageOff va)
  accessed : pteOf s va &&& pteA ≠ 0

/-- For the pages that are not stale and whose tables are in RAM, the caches
agree with the tables. -/
structure Coh (s : Machine) (S : Stale) : Prop where
  gen_ne : s.tlbGen ≠ 0
  gen_le : ∀ p, (s.tlb p).gen ≤ s.tlbGen
  tlb : s.extOn = true → s.pgOn = true → ∀ va, ¬ S (pageNum va) → Tables s va →
    (s.tlb (pageNum va)).gen = s.tlbGen → TlbOk s va (s.tlb (pageNum va))
  fetch : s.extOn = true → s.pgOn = true → ∀ va, pageOf va = s.fTag → ¬ S (pageNum va) →
    Tables s va → FetchOk s va

theorem not_changed (h : ¬ changed S s t (pageNum va)) : ¬ S (pageNum va) ∧ Kept s t va :=
  ⟨fun hs => h (.inl hs), not_not.1 fun hk => h (.inr ⟨va, rfl, hk⟩)⟩

theorem modes_congr (h : t.crOf crCtrl = s.crOf crCtrl) : t.extOn = s.extOn ∧ t.pgOn = s.pgOn := by
  unfold Machine.crOf at h
  unfold Machine.extOn Machine.pgOn
  rw [h]
  exact ⟨rfl, rfl⟩

/-- The fetch page after a change that keeps the words of the page. -/
theorem FetchOk.kept (h : FetchOk s va) (hk : Kept s t va) (hp : t.fPtr = s.fPtr)
    (hm : t.isUser = s.isUser ∨ t.isUser = false) (hd : pdeOf s va &&& pteP ≠ 0) :
    FetchOk t va where
  ptr := by
    rw [hk.cfg, hp]
    exact h.ptr
  walk := by
    rw [hk.walk, hp]
    rcases hm with hm | hm
    · rw [hm]
      exact h.walk
    · rw [hm]
      exact walk_supervisor _ h.walk
  accessed := (hk.table hd).and_ne h.accessed

theorem other_coh (h : Coh s S) (hst : Steady s t) : Coh t (changed S s t) := by
  obtain ⟨hext, hpg⟩ := modes_congr hst.ctrl
  refine ⟨?_, fun p => ?_, ?_, ?_⟩
  · rw [hst.tlbGen]
    exact h.gen_ne
  · rw [hst.tlb, hst.tlbGen]
    exact h.gen_le p
  · intro hx hp va hS ht hg
    obtain ⟨hS, hk⟩ := not_changed hS
    rw [hst.tlb] at hg ⊢
    rw [hst.tlbGen] at hg
    exact (h.tlb (hext ▸ hx) (hpg ▸ hp) va hS (hk.tables.1 ht) hg).kept hk
  · intro hx hp va hva hS ht
    obtain ⟨hS, hk⟩ := not_changed hS
    rcases hst.fetch with h1 | ⟨htag, hmode⟩
    · exact absurd (hva.trans h1) (pageOf_ne_one va)
    · have hf := h.fetch (hext ▸ hx) (hpg ▸ hp) va (hva.trans htag) hS (hk.tables.1 ht)
      refine hf.kept hk hst.fPtr ?_ (walk_present hf.walk)
      unfold Machine.isUser
      rcases hmode with hm | hm | hm
      · exact .inl (by rw [hm])
      · exact .inr (by rw [hm]; rfl)
      · rw [hext, hm] at hx
        cases hx

theorem flush_coh (hle : ∀ p, (s.tlb p).gen ≤ s.tlbGen) : Coh (cpuFlushTlb s) (fun _ => False) := by
  have hfetch (t : Machine) (ht : t.fTag = 1) (va : Word) (h : pageOf va = t.fTag) :
      FetchOk t va :=
    absurd (h.trans ht) (pageOf_ne_one va)
  unfold cpuFlushTlb
  split
  · -- the generation wraps: every entry is zeroed
    have h01 : (1 : Word) ≠ 0 ∧ (0 : Word) ≤ 1 := by decide
    refine ⟨h01.1, fun _ => h01.2, ?_, fun _ _ va h _ _ => hfetch _ rfl va h⟩
    intro _ _ va _ _ hg
    cases hg
  · rename_i hw
    have hlt (p : Nat) : (s.tlb p).gen < s.tlbGen + 1 := by
      have := hle p
      bv_omega
    refine ⟨hw, fun p => BitVec.le_of_lt (hlt p), ?_, fun _ _ va h _ _ => hfetch _ rfl va h⟩
    intro _ _ va _ _ hg
    exact absurd hg (BitVec.ne_of_lt (hlt _))

theorem invlpg_coh (h : Coh s S) (a : Word) :
    Coh (cpuInvlpg a s) (fun p => S p ∧ p ≠ pageNum a) := by
  have hent (p : Nat) : (cpuInvlpg a s).tlb p =
      if p = pageNum a then { s.tlb (pageNum a) with gen := 0 } else s.tlb p := rfl
  refine ⟨h.gen_ne, fun p => ?_, ?_, ?_⟩
  · rw [hent]
    split
    · change (0 : Word) ≤ s.tlbGen
      bv_omega
    · exact h.gen_le p
  · intro hx hp va hS ht hg
    rw [hent] at hg ⊢
    by_cases hva : pageNum va = pageNum a
    · rw [if_pos hva] at hg
      exact absurd hg.symm h.gen_ne
    · rw [if_neg hva] at hg ⊢
      have he := h.tlb hx hp va (fun hs => hS ⟨hs, hva⟩) ⟨ht.dir, ht.table⟩ hg
      exact { he with }
  · intro _ _ va hva
    exact absurd hva (pageOf_ne_one va)

theorem mark_coh (h : Coh s S) (he : s.tlb p = e) (hr : inRam s e.ptePa 4 = false) :
    Coh (setTlb p { e with pte := e.pte ||| pteD } s) S := by
  have hent (q : Nat) : (setTlb p { e with pte := e.pte ||| pteD } s).tlb q =
      if q = p then { e with pte := e.pte ||| pteD } else s.tlb q := rfl
  refine ⟨h.gen_ne, fun q => ?_, ?_, ?_⟩
  · rw [hent]
    split
    · have := h.gen_le p
      rw [he] at this
      exact this
    · exact h.gen_le q
  · intro hx hp va hS ht hg
    rw [hent] at hg ⊢
    have ht' : Tables s va := ⟨ht.dir, ht.table⟩
    by_cases hva : pageNum va = p
    · -- an agreeing entry has its word in RAM
      rw [if_pos hva] at hg
      rw [← hva] at he
      have hok := h.tlb hx hp va hS ht' (by rw [he]; exact hg)
      rw [he] at hok
      have hin := ht'.table hok.dir
      rw [← hok.ptePa, hr] at hin
      cases hin
    · rw [if_neg hva] at hg ⊢
      have hok := h.tlb hx hp va hS ht' hg
      exact { hok with }
  · intro hx hp va hva hS ht
    have hf := h.fetch hx hp va hva hS ⟨ht.dir, ht.table⟩
    exact ⟨hf.ptr, hf.walk, hf.accessed⟩

/-! ## Accesses -/

/-- What a translation for page `p` leaves alone. -/
structure Beside (p : Nat) (s t : Machine) : Prop where
  cfg : t.cfg = s.cfg
  cr : t.cpu.cr = s.cpu.cr
  mode : t.cpu.mode = s.cpu.mode
  tlbGen : t.tlbGen = s.tlbGen
  fTag : t.fTag = s.fTag
  fPtr : t.fPtr = s.fPtr
  tlb : ∀ q, q ≠ p → t.tlb q = s.tlb q
  gen : (t.tlb p).gen = (s.tlb p).gen ∨ (t.tlb p).gen = s.tlbGen

theorem Beside.refl (p : Nat) (s : Machine) : Beside p s s :=
  ⟨rfl, rfl, rfl, rfl, rfl, rfl, fun _ _ => rfl, .inl rfl⟩

theorem Beside.core (h : Beside p s t) (hc : u.core = t.core) : Beside p s u where
  cfg := (congrArg Core.cfg hc).trans h.cfg
  cr := (congrArg Core.cr hc).trans h.cr
  mode := (congrArg Core.mode hc).trans h.mode
  tlbGen := (congrArg Core.tlbGen hc).trans h.tlbGen
  fTag := (congrArg Core.fTag hc).trans h.fTag
  fPtr := (congrArg Core.fPtr hc).trans h.fPtr
  tlb q hq := (congrFun (congrArg Core.tlb hc) q).trans (h.tlb q hq)
  gen := by
    have ht : u.tlb p = t.tlb p := congrFun (congrArg Core.tlb hc) p
    rw [ht]
    exact h.gen

theorem Beside.setTlb (h : Beside p s t) (he : e.gen = (s.tlb p).gen ∨ e.gen = s.tlbGen) :
    Beside p s (setTlb p e t) where
  __ := h
  tlb q hq := (if_neg hq).trans (h.tlb q hq)
  gen := by
    have ht : (Emu.setTlb p e t).tlb p = e := if_pos rfl
    rw [ht]
    exact he

/-- When it returns, the routine has changed nothing beside page `p`. -/
def Keeps (p : Nat) (s : Machine) {α : Type} (x : M α) : Prop :=
  ∀ u, Beside p s u → Ends x (fun _ t => Beside p s t) (fun _ _ => True) u

theorem keeps_sequenced (p : Nat) (s : Machine) : Sequenced (fun {_} x => Keeps p s x) where
  pure _ _ hu := hu
  bind hx hf u hu := (hx u hu).bind fun a u' _ hu' => hf a u' hu'

theorem keeps_read {f : Machine → M α} (hf : ∀ t, Keeps p s (f t)) :
    Keeps p s (get >>= f) := fun u hu => hf u u hu

section Keeps

variable {p : Nat} {s : Machine} (F : Fault)

theorem physRead_keeps (pa : Word) (n : Nat) : Keeps p s (physRead F pa n) := fun u hu =>
  (physRead_ends F pa n u).mono (fun _ _ h => hu.core h.core) fun _ _ _ => trivial

theorem physWrite_keeps (pa v : Word) : Keeps p s (physWrite F pa v 4) := fun u hu =>
  (physWrite_ends F pa v le_rfl u).mono (fun _ _ h => hu.core h.core) fun _ _ _ => trivial

theorem pgMiss_keeps (va : Word) (acc : Acc) (user : Bool) :
    Keeps (pageNum va) s (pgMiss F va acc user) :=
  pgMiss_of (keeps_sequenced _ s) (physRead_keeps F) (physWrite_keeps F) (fun _ _ _ => trivial)
    (fun _ => keeps_read) fun _ _ _ ht => ht.setTlb (.inr ht.tlbGen)

theorem pgHit_keeps (va : Word) (acc : Acc) (user : Bool) (he : s.tlb (pageNum va) = e) :
    Keeps (pageNum va) s (pgHit F va acc user e) :=
  pgHit_of (keeps_sequenced _ s) (physRead_keeps F) (physWrite_keeps F) (fun _ _ _ => trivial)
    fun _ ht => ht.setTlb (.inl (by rw [he]))

theorem translate_keeps (va : Word) (acc : Acc) (user : Bool) :
    Ends (translate F va acc user) (fun _ t => Beside (pageNum va) s t) (fun _ _ => True) s := by
  have hr := Beside.refl (pageNum va) s
  unfold translate
  rw [ends_get]
  split
  · exact hr
  · split
    · unfold pgTranslate
      rw [ends_get]
      split
      · exact pgMiss_keeps F va acc user s hr
      · exact pgHit_keeps F va acc user rfl s hr
    · split
      · split
        · trivial
        · exact hr
      · exact hr

end Keeps

theorem translate_beside (h : translate F va acc user s = .ok pa t) : Beside (pageNum va) s t :=
  (ends_of_ok h).1 (translate_keeps F va acc user)

/-- A successful translation for a page that is not stale. -/
theorem Coh.access (h : Coh s S) (hx : s.extOn = true) (hp : s.pgOn = true) (hS : ¬ S (pageNum va))
    (ht : Tables s va) (hr : translate F va acc user s = .ok pa t) :
    walk s va acc user = .ok pa ∧ Marked t va acc ∧ TlbOk t va (t.tlb (pageNum va)) := by
  have href := translate_refines F hx hp ht acc user (h.tlb hx hp va hS ht)
  unfold Refines at href
  rw [hr] at href
  cases hw : walk s va acc user with
  | error code =>
    rw [hw] at href
    cases href
  | ok pa' =>
    rw [hw] at href
    obtain ⟨t', heq, hmark, htlb⟩ := href
    cases heq
    exact ⟨rfl, hmark, htlb⟩

theorem access_coh (h : Coh s S) (hr : translate F va acc user s = .ok pa t) :
    Coh t (changed S s t) := by
  have hb := translate_beside hr
  obtain ⟨hext, hpg⟩ := modes_congr (congrFun hb.cr crCtrl)
  refine ⟨?_, fun q => ?_, ?_, ?_⟩
  · rw [hb.tlbGen]
    exact h.gen_ne
  · rw [hb.tlbGen]
    by_cases hq : q = pageNum va
    · rw [hq]
      rcases hb.gen with hg | hg
      · rw [hg]
        exact h.gen_le _
      · rw [hg]
        exact BitVec.le_refl _
    · rw [hb.tlb q hq]
      exact h.gen_le q
  · intro hx hp va' hS ht hg
    obtain ⟨hS, hk⟩ := not_changed hS
    rw [hext] at hx
    rw [hpg] at hp
    by_cases hva : pageNum va' = pageNum va
    · rw [hva] at hS ⊢
      have hts := (hk.tables.1 ht).page hva
      exact (h.access hx hp hS hts hr).2.2.page hva
    · rw [hb.tlb _ hva] at hg ⊢
      rw [hb.tlbGen] at hg
      exact (h.tlb hx hp va' hS (hk.tables.1 ht) hg).kept hk
  · intro hx hp va' hva hS ht
    obtain ⟨hS, hk⟩ := not_changed hS
    have hf := h.fetch (hext ▸ hx) (hpg ▸ hp) va' (hva.trans hb.fTag) hS (hk.tables.1 ht)
    refine hf.kept hk hb.fPtr (.inl ?_) (walk_present hf.walk)
    unfold Machine.isUser
    rw [hb.mode]

/-! ## Fetches -/

/-- The state after `fetch_slow` has remembered the page of `pc`. -/
def refill (pc : Word) (ptr : FetchPtr) (n : Option Nat) (u : Machine) : Machine :=
  { u with fTag := pageOf pc, fPtr := ptr, fPpn := n }

theorem pageOf_or (x y : Word) : pageOf (pageOf x ||| pageOff y) = pageOf x := by
  have h0 : (0xFFF : Word) &&& 0xFFFFF000 = 0 := by decide
  have h1 : (0xFFFFF000 : Word) &&& 0xFFFFF000 = 0xFFFFF000 := by decide
  unfold pageOf pageOff
  rw [BitVec.and_comm, BitVec.and_or_distrib_left, BitVec.and_comm _ (x &&& _),
    BitVec.and_comm _ (y &&& _), BitVec.and_assoc, BitVec.and_assoc, h0, h1]
  simp

/-- After the translation `fetch_slow` remembers the page and takes the byte from
it, or reads the one byte. -/
theorem fetchSlow_ok (h : translate F pc .x s.isUser s = .ok pa u) :
    (∃ ptr n, PtrOk u.cfg ptr ∧ fetchBase ptr = pageOf pa ∧
      fetchSlow F pc s = .ok (fetchPage u ptr pc) (refill pc ptr n u)) ∨
    fetchSlow F pc s = (physRead F pa 1 >>= fun v => pure (v.setWidth 8)) u := by
  unfold fetchSlow
  rw [get_bind_apply]
  by_cases hb : (s.xlActive && !s.pgOn && s.isUser) = true
  · right
    have hu : s.isUser = true := by
      rw [Bool.and_eq_true] at hb
      exact hb.2
    rw [hu] at h
    rw [if_pos hb, bind_ok h]
  · rw [if_neg hb, bind_ok h]
    change (_ ∨ (ite _ _ (ite _ _ _) : M Byte) u = _)
    by_cases hr : pageOf pa < u.cfg.ramSize ∧ 0x1000 ≤ u.cfg.ramSize - pageOf pa
    · left
      refine ⟨.ram (pageOf pa), some (pageNum (pageOf pa)), ⟨pageOf_pageOf pa, hr⟩, rfl, ?_⟩
      rw [get_bind_apply, if_pos hr]
      rfl
    · by_cases ho : romBase ≤ pageOf pa ∧ u.cfg.romPresent
      · left
        have hsub : pageOf pa - romBase + romBase = pageOf pa := by bv_omega
        refine ⟨.rom (pageOf pa - romBase), none, ⟨?_, ?_, ho.2⟩, hsub, ?_⟩
        · rw [hsub, pageOf_pageOf]
        · rw [hsub]
          exact ho.1
        · rw [get_bind_apply, if_neg hr, if_pos ho]
          rfl
      · right
        rw [if_neg hr, if_neg ho]

theorem fetchSlow_error {e : Exit} (h : translate F pc .x s.isUser s = .error e u) :
    fetchSlow F pc s = .error e u := by
  unfold fetchSlow
  rw [get_bind_apply]
  by_cases hb : (s.xlActive && !s.pgOn && s.isUser) = true
  · have hu : s.isUser = true := by
      rw [Bool.and_eq_true] at hb
      exact hb.2
    rw [hu] at h
    rw [if_pos hb, bind_error h]
  · rw [if_neg hb, bind_error h]

theorem physRead_byte {v : Word} (h : physRead F pa 1 s = .ok v t) : t = s := by
  have hdev : inDev pa 1 = false := by simp [inDev]
  unfold physRead at h
  rw [hdev] at h
  split at h
  · cases h
    rfl
  · split at h
    · cases h
      rfl
    · cases h

/-- The states a successful fetch ends in. -/
theorem fetchAt_cases {b : Byte} (h : fetchAt F pc s = .ok b t) :
    t = s ∨ ∃ pa u, translate F pc .x s.isUser s = .ok pa u ∧
      (t = u ∨ ∃ ptr n, PtrOk u.cfg ptr ∧ fetchBase ptr = pageOf pa ∧ t = refill pc ptr n u) := by
  unfold fetchAt at h
  rw [get_bind_apply] at h
  split at h
  · cases h
    exact .inl rfl
  · right
    cases htr : translate F pc .x s.isUser s with
    | error e u =>
      rw [fetchSlow_error htr] at h
      cases h
    | ok pa u =>
      refine ⟨pa, u, rfl, ?_⟩
      rcases fetchSlow_ok htr with ⟨ptr, n, hp, hb, hf⟩ | hf
      · rw [hf] at h
        cases h
        exact .inr ⟨ptr, n, hp, hb, rfl⟩
      · left
        rw [hf] at h
        obtain ⟨v, t', hr, h⟩ := bind_eq_ok h
        cases h
        exact physRead_byte hr

theorem changed_kept (hk : ∀ va, Kept s t va) : changed S s t = S := by
  funext p
  refine propext ⟨fun h => h.resolve_right ?_, .inl⟩
  rintro ⟨va, -, hn⟩
  exact hn (hk va)

theorem refill_coh {ptr : FetchPtr} (n : Option Nat) (h : Coh s S)
    (hr : translate F pc .x s.isUser s = .ok pa u) (hptr : PtrOk u.cfg ptr)
    (hb : fetchBase ptr = pageOf pa) :
    Coh (refill pc ptr n u) (changed S s (refill pc ptr n u)) := by
  have hcu := access_coh h hr
  have hbes := translate_beside hr
  have hkeep (va : Word) : Kept s (refill pc ptr n u) va → Kept s u va :=
    fun hk => { hk with }
  have hS (va : Word) (hS : ¬ changed S s (refill pc ptr n u) (pageNum va)) :
      ¬ changed S s u (pageNum va) := by
    intro hc
    refine hS (hc.imp id ?_)
    rintro ⟨va', hp, hk⟩
    exact ⟨va', hp, fun hk' => hk (hkeep va' hk')⟩
  refine ⟨hcu.gen_ne, hcu.gen_le, ?_, ?_⟩
  · intro hx hp va hst ht hg
    have he := hcu.tlb hx hp va (hS va hst) ⟨ht.dir, ht.table⟩ hg
    exact { he with }
  · intro hx hp va hva hst ht
    obtain ⟨hst', hk⟩ := not_changed hst
    have hk := hkeep va hk
    have hpage : pageNum va = pageNum pc := pageNum_of_pageOf hva
    obtain ⟨hext, hpg⟩ := modes_congr (congrFun hbes.cr crCtrl)
    have hts : Tables s pc := (hk.tables.1 ⟨ht.dir, ht.table⟩).page hpage
    rw [hpage] at hst'
    obtain ⟨hw, hmark, -⟩ := h.access (hext.symm.trans hx) (hpg.symm.trans hp) hst' hts hr
    have huser : u.isUser = s.isUser := by
      unfold Machine.isUser
      rw [hbes.mode]
    refine ⟨hptr, ?_, ?_⟩
    · have hwu : walk u va .x s.isUser = .ok (pageOf (pteOf s pc) ||| pageOff va) := by
        rw [hk.walk]
        exact walk_page hpage hw
      have hpa : fetchBase ptr = pageOf (pteOf s pc) := by
        rw [hb, walk_ok hw, pageOf_or]
      change walk u va .x u.isUser = .ok (fetchBase ptr ||| pageOff va)
      rw [huser, hwu, hpa]
    · change pteOf u va &&& pteA ≠ 0
      rw [pteOf_page hpage]
      exact hmark.accessed

theorem fetch_coh {b : Byte} (h : Coh s S) (hf : fetchAt F pc s = .ok b t) :
    Coh t (changed S s t) := by
  rcases fetchAt_cases hf with rfl | ⟨pa, u, hr, rfl | ⟨ptr, n, hp, hb, rfl⟩⟩
  · rw [changed_kept (.refl t)]
    exact h
  · exact access_coh h hr
  · exact refill_coh n h hr hp hb

/-! ## Runs -/

theorem tick_coh {x y : Machine × Stale} (h : Coh x.1 x.2) (ht : Tick x y) : Coh y.1 y.2 := by
  cases ht with
  | other S hst => exact other_coh h hst
  | access S hr => exact access_coh h hr
  | fetch S hf => exact fetch_coh h hf
  | mark S he hr => exact mark_coh h he hr
  | flush s S => exact flush_coh h.gen_le
  | cr s S n v => exact flush_coh (s := s.setCr n v) h.gen_le
  | invlpg s S va => exact invlpg_coh h va

theorem run_coh {x y : Machine × Stale} (h : Coh x.1 x.2) (hr : Run x y) : Coh y.1 y.2 := by
  induction hr with
  | refl => exact h
  | tail _ ht ih => exact tick_coh ih ht

/-! ## Steps are runs -/

/-- From `s` a run leads to `t`, whatever is stale at its beginning. -/
def Leads (s t : Machine) : Prop := ∀ S, ∃ S', Run (s, S) (t, S')

theorem Leads.refl (s : Machine) : Leads s s := fun S => ⟨S, .refl⟩

theorem Leads.trans (h : Leads s t) (h' : Leads t u) : Leads s u := by
  intro S
  obtain ⟨S₁, h₁⟩ := h S
  obtain ⟨S₂, h₂⟩ := h' S₁
  exact ⟨S₂, h₁.trans h₂⟩

theorem Leads.of_tick (h : ∀ S, ∃ S', Tick (s, S) (t, S')) : Leads s t := by
  intro S
  obtain ⟨S', ht⟩ := h S
  exact ⟨S', .single ht⟩

theorem Steady.leads (h : Steady s t) : Leads s t :=
  .of_tick fun S => ⟨_, .other S h⟩

theorem Steady.of_core (h : t.core = s.core) : Steady s t where
  cfg := congrArg Core.cfg h
  tlb := congrArg Core.tlb h
  tlbGen := congrArg Core.tlbGen h
  fPtr := congrArg Core.fPtr h
  ctrl := congrFun (congrArg Core.cr h) crCtrl
  base := congrFun (congrArg Core.cr h) crPtbase
  fetch := .inr ⟨congrArg Core.fTag h, .inl (congrArg Core.mode h)⟩

/-- Control registers that have nothing to do with translation. -/
theorem Steady.setCr (s : Machine) {n : BitVec 4} (v : Word) (h₀ : crCtrl ≠ n)
    (h₁ : crPtbase ≠ n) : Steady s (s.setCr n v) where
  cfg := rfl
  tlb := rfl
  tlbGen := rfl
  fPtr := rfl
  ctrl := if_neg h₀
  base := if_neg h₁
  fetch := .inr ⟨rfl, .inl rfl⟩

/-- A change of registers other than control registers. -/
theorem Steady.cpu (s : Machine) {c : Cpu} (hc : c.cr = s.cpu.cr)
    (hm : c.mode = s.cpu.mode ∨ c.mode = .supervisor ∨ s.extOn = false) :
    Steady s { s with cpu := c } where
  cfg := rfl
  tlb := rfl
  tlbGen := rfl
  fPtr := rfl
  ctrl := congrFun hc crCtrl
  base := congrFun hc crPtbase
  fetch := .inr ⟨rfl, hm⟩

/-- Every execution of the routine is a run. -/
abbrev Runs {α : Type} (x : M α) : Prop := Follows Leads x

theorem runs_sequenced : Sequenced (fun {_} x => Runs x) :=
  Follows.sequenced Leads.refl fun h h' => h.trans h'

theorem runs_read {f : Machine → M α} (hf : ∀ s, Runs (f s)) : Runs (get >>= f) :=
  fun s => hf s s

theorem runs_modify {f : Machine → Machine} (hf : ∀ s, Steady s (f s)) : Runs (modify f) :=
  fun s => (hf s).leads

/-- The fault handler is made of runs. -/
def FaultRuns (F : Fault) : Prop := ∀ vec code s, Leads s (F vec code s)

/-- When the routine leaves early, its execution is a run. -/
def FailsInRun {α : Type} (x : M α) (s : Machine) : Prop :=
  Ends x (fun _ _ => True) (fun _ t => Leads s t) s

theorem Runs.fails {x : M α} (h : Runs x) (s : Machine) : FailsInRun x s := by
  have hs := h s
  unfold FailsInRun Ends
  cases hr : x s with
  | ok a t => trivial
  | error e t =>
    rw [hr] at hs
    exact hs

theorem Runs.bind_fails {β : Type} {x : M α} {f : α → M β} (hx : Runs x)
    (hf : ∀ a t, FailsInRun (f a) t) (s : Machine) : FailsInRun (x >>= f) s := by
  have hs := hx s
  unfold FailsInRun Ends
  rw [bind_apply]
  cases hr : x s with
  | error e t =>
    rw [hr] at hs
    exact hs
  | ok a t =>
    rw [hr] at hs
    refine (hf a t).mono (fun _ _ h => h) fun _ u h => ?_
    exact hs.trans h

theorem pure_fails (a : α) (s : Machine) : FailsInRun (pure a) s := trivial

theorem modify_pure_fails (f : Machine → Machine) (a : α) (s : Machine) :
    FailsInRun (do modify f; pure a) s := trivial

theorem busSteps_leads : BusSteps Leads where
  refl := .refl
  trans h h' := h.trans h'
  devRead hd := (Steady.of_core (devRead_dma hd).core).leads
  devWrite hd := (Steady.of_core (devWrite_dma hd).core).leads
  ramWrite hn hr := (Steady.of_core (ramWrite_dma hn hr).core).leads
  faddr va s := (Steady.setCr s va (by decide) (by decide)).leads
  stop n s := (Steady.of_core (Serves.stop s n).dma.core).leads

section FaultHandler

variable {F : Fault} (hF : FaultRuns F)

include hF

theorem pgMiss_fails (va : Word) (acc : Acc) (user : Bool) (s : Machine) :
    FailsInRun (pgMiss F va acc user) s := by
  unfold FailsInRun pgMiss
  rw [ends_get]
  refine Runs.bind_fails (busSteps_leads.physRead hF _ _) (fun pde t => ?_) s
  have hpf (present : Bool) (u : Machine) : FailsInRun (pageFault F va acc user present : M Word) u :=
    Runs.fails (busSteps_leads.faultAt hF va _ _) u
  split
  · exact hpf _ t
  · refine Runs.bind_fails (busSteps_leads.physRead hF _ _) (fun pte u => ?_) t
    split
    · exact hpf _ u
    · split
      · exact hpf _ u
      · simp only
        split
        · exact Runs.bind_fails (busSteps_leads.physWrite hF _ _ _ le_rfl)
            (fun _ t => modify_pure_fails _ _ t) u
        · exact modify_pure_fails _ _ u

theorem pgHit_fails (va : Word) (acc : Acc) (user : Bool) (s : Machine) :
    FailsInRun (pgHit F va acc user (s.tlb (pageNum va))) s := by
  unfold pgHit
  split
  · exact Runs.fails (busSteps_leads.faultAt hF va _ _) s
  · simp only
    split
    · generalize he : s.tlb (pageNum va) = e
      unfold FailsInRun
      rw [ends_modify]
      -- with its word in RAM the update cannot fail
      by_cases hr : inRam s e.ptePa 4 = true
      · have hr' : inRam (setTlb (pageNum va) { e with pte := e.pte ||| pteD } s) e.ptePa 4 = true :=
          hr
        unfold Ends
        rw [bind_ok (physRead_ram F hr'), bind_ok (physWrite_ram F hr')]
        trivial
      · have hm : Leads s (setTlb (pageNum va) { e with pte := e.pte ||| pteD } s) :=
          .of_tick fun S => ⟨_, .mark S he (Bool.eq_false_iff.2 hr)⟩
        refine (Runs.bind_fails (busSteps_leads.physRead hF _ _) (fun w t => ?_) _).mono
          (fun _ _ h => h) fun _ t h => hm.trans h
        exact Runs.bind_fails (busSteps_leads.physWrite hF _ _ _ le_rfl)
          (fun _ u => pure_fails _ u) t
    · trivial

theorem translate_runs (va : Word) (acc : Acc) (user : Bool) : Runs (translate F va acc user) := by
  have hfail (s : Machine) : FailsInRun (translate F va acc user) s := by
    unfold FailsInRun translate
    rw [ends_get]
    split
    · trivial
    · split
      · unfold pgTranslate
        rw [ends_get]
        split
        · exact pgMiss_fails hF va acc user s
        · exact pgHit_fails hF va acc user s
      · split
        · split
          · exact (Steady.setCr s va (by decide) (by decide)).leads.trans (hF _ _ _)
          · trivial
        · trivial
  intro s
  have hs := hfail s
  unfold FailsInRun Ends at hs
  cases hr : translate F va acc user s with
  | ok pa t => exact .of_tick fun S => ⟨_, .access S hr⟩
  | error e t =>
    rw [hr] at hs
    exact hs

theorem fetchAt_runs (pc : Word) : Runs (fetchAt F pc) := by
  intro s
  cases hr : fetchAt F pc s with
  | ok b t => exact .of_tick fun S => ⟨_, .fetch S hr⟩
  | error e t =>
    unfold fetchAt at hr
    rw [get_bind_apply] at hr
    split at hr
    · cases hr
    · have htr := translate_runs hF pc .x s.isUser s
      cases h : translate F pc .x s.isUser s with
      | error e' u =>
        rw [fetchSlow_error h] at hr
        rw [h] at htr
        cases hr
        exact htr
      | ok pa u =>
        rw [h] at htr
        rcases fetchSlow_ok h with ⟨ptr, n, -, -, hf⟩ | hf
        · rw [hf] at hr
          cases hr
        · have hrest := runs_sequenced.bind (f := fun v : Word => pure (v.setWidth 8 : Byte))
            (busSteps_leads.physRead hF pa 1) (fun _ => runs_sequenced.pure _) u
          rw [← hf, hr] at hrest
          exact htr.trans hrest

end FaultHandler

/-- Register changes that keep the mode, or change it to supervisor. -/
theorem modifyCpu_runs {f : Cpu → Cpu} (hc : ∀ c, (f c).cr = c.cr)
    (hm : ∀ c, (f c).mode = c.mode ∨ (f c).mode = .supervisor) : Runs (modifyCpu f) :=
  runs_modify fun s => .cpu s (hc _) ((hm _).imp id .inl)

theorem entrySteps_leads : EntrySteps Leads where
  toBusSteps := busSteps_leads
  translate := translate_runs
  entryRegs _ _ _ _ _ := Steady.leads ⟨rfl, rfl, rfl, rfl, rfl, rfl, .inl rfl⟩
  depth d s := Steady.leads (t := setDepth d s) (.cpu s rfl (.inl rfl))
  back s := Steady.leads (t := { s with cpu := _ }) (.cpu s rfl (.inl rfl))

theorem cpuFault_runs : FaultRuns cpuFault := entrySteps_leads.cpuFaultN 2

theorem getCpu_runs (f : Cpu → α) : Runs (getCpu f) := fun s => .refl s

theorem setFlagsWord_runs (f : Word) : Runs (setFlagsWord f) :=
  runs_modify fun _ => ⟨rfl, rfl, rfl, rfl, rfl, rfl, .inl rfl⟩

theorem setReg_runs (r : BitVec 3) (v : Word) : Runs (setReg r v) :=
  modifyCpu_runs (fun _ => rfl) fun _ => .inl rfl

theorem setPc_runs (v : Word) : Runs (setPc v) := modifyCpu_runs (fun _ => rfl) fun _ => .inl rfl

theorem setSp_runs (v : Word) : Runs (setSp v) := modifyCpu_runs (fun _ => rfl) fun _ => .inl rfl

/-- `OP_SYSRET`: the form that keeps the fetch page belongs to the 16-bit
machine. -/
theorem opSysretM_runs : Runs opSysretM := by
  have hext := extIret_of runs_sequenced getCpu_runs entrySteps_leads.memRead setPc_runs setSp_runs
    setFlagsWord_runs
  intro s
  have he : extM s = .ok s.extOn s := rfl
  unfold opSysretM
  rw [bind_ok he]
  cases hx : s.extOn with
  | true => exact hext s
  | false =>
    refine (Steady.cpu s ?_ (.inr (.inr hx))).leads
    dsimp only
    split <;> rfl

theorem crWrite_runs (n : BitVec 4) (v : Word) : Runs (crWrite n v) := by
  intro s
  change Leads s (if n = crRamsize then s else _)
  split
  · exact .refl s
  · split
    · exact .of_tick fun S => ⟨_, .cr s S n v⟩
    · rename_i hn
      refine (Steady.setCr s v (fun h => hn (.inl h.symm)) fun h => hn (.inr (.inl h.symm))).leads

theorem actions_runs : Actions (fun {_} x => Runs x) where
  toSequenced := runs_sequenced
  getCpu := getCpu_runs
  setReg := setReg_runs
  setPc := setPc_runs
  setSp := setSp_runs
  setFlags _ := modifyCpu_runs (fun _ => rfl) fun _ => .inl rfl
  setIntEnabled _ := modifyCpu_runs (fun _ => rfl) fun _ => .inl rfl
  memRead := entrySteps_leads.memRead
  memWrite := entrySteps_leads.memWrite
  fault vec code s := cpuFault_runs vec code s
  stop _ := modifyCpu_runs (fun _ => rfl) fun _ => .inl rfl
  abort s := .refl s
  cpuDeliver := entrySteps_leads.cpuDeliver
  legacyMode := modifyCpu_runs (fun _ => rfl) fun _ => .inr rfl
  legacySyscallEntry := modifyCpu_runs (fun _ => rfl) fun _ => .inr rfl
  opSysretM := opSysretM_runs
  setFlagsWord := setFlagsWord_runs
  crWrite := crWrite_runs
  flush s := .of_tick fun S => ⟨_, .flush s S⟩
  invlpg va s := .of_tick fun S => ⟨_, .invlpg s S va⟩
  cpuWfi s := by
    unfold cpuWfi
    cases hw : devWfi s.cfg.patience s with
    | none => exact .refl s
    | some t => exact (Steady.of_core (devWfi_dma hw).core).leads
  haltCpu := modifyCpu_runs (fun _ => rfl) fun _ => .inl rfl
  portIn port s := (Steady.of_core (legacyIn_serves port s).dma.core).leads
  portOut port v := runs_modify fun s => .of_core (legacyOut_routine port v s).serves.dma.core

/-! ## Whole steps -/

theorem nextInstruction_runs (pc : Word) : Runs (nextInstruction pc) :=
  nextInstruction_of runs_sequenced runs_read (fetchAt_runs cpuFault_runs)
    (fun _ _ => runs_modify fun _ => .of_core rfl) pc

theorem stepOne_runs : Runs stepOne :=
  stepOne_of actions_runs runs_read nextInstruction_runs
    (fun _ => modifyCpu_runs (fun _ => rfl) fun _ => .inl rfl)
    (modifyCpu_runs (fun _ => rfl) fun _ => .inl rfl)
    (runs_modify fun s => .of_core (devEvents_dma s).core)

/-- The instruction that `step_one` executes and the state in which it does, after
the device events and the entry for an interrupt, if one is taken. -/
def executes (s : Machine) : Option (DEnt × Machine) :=
  let d := afterEvents s
  if s.dev.devNext ≤ s.cpu.icount ∧ d.cpu.halted = true then none
  else
    match takeIrq d with
    | .error _ _ => none
    | .ok _ e =>
      match nextInstruction e.cpu.pc { e with cpu := { e.cpu with instPc := e.cpu.pc } } with
      | .error _ _ => none
      | .ok i u =>
        some (i, { u with cpu := { u.cpu with pc := e.cpu.pc + BitVec.ofNat 32 i.length } })

/-- The instruction `i`, executed in `u`, is one after which page `p` is translated
anew. -/
def DropsPage (i : DEnt) (u : Machine) (p : Nat) : Prop :=
  u.cpu.mode = .supervisor ∧
    (Opcode.ofByte (i.b 0) = some .opTlbflush ∨
      (Opcode.ofByte (i.b 0) = some .opMtcr ∧ i.lo ≤ 7 ∧ (i.hi = 0 ∨ i.hi = 3)) ∨
      (Opcode.ofByte (i.b 0) = some .opInvlpg ∧ i.lo ≤ 7 ∧
        p = pageNum (u.cpu.regs (i.lo.setWidth 3))))

/-- The action executes an instruction after which page `p` is translated anew. -/
def Act.Drops (a : Act) (s : Machine) (p : Nat) : Prop :=
  a = .step ∧ s.cpu.halted = false ∧ ∃ i u, executes s = some (i, u) ∧ DropsPage i u p

/-- The actions, each made of ticks; the instructions that drop translations leave
no page stale whose translation they drop. -/
inductive Acts : List Act → Machine × Stale → Machine × Stale → Prop
  | nil (x : Machine × Stale) : Acts [] x x
  | cons {a : Act} {as : List Act} {s t : Machine} {S S' : Stale} {y : Machine × Stale} :
      a.run s = some t → Run (s, S) (t, S') → (∀ p, a.Drops s p → ¬ S' p) →
        Acts as (t, S') y → Acts (a :: as) (s, S) y

theorem Acts.run {as : List Act} {x y : Machine × Stale} (h : Acts as x y) : Run x y := by
  induction h with
  | nil x => exact .refl
  | cons _ hr _ _ ih => exact hr.trans ih

theorem takeIrq_runs : Runs takeIrq := by
  refine runs_read fun s => ?_
  split
  · exact Sequenced.branch (runs_sequenced.bind (modifyCpu_runs (fun _ => rfl) fun _ => .inl rfl)
      fun _ => entrySteps_leads.cpuDeliver _ _ _) (runs_sequenced.pure _)
  · exact runs_sequenced.pure _

theorem afterEvents_leads (s : Machine) : Leads s (afterEvents s) := by
  unfold afterEvents
  split
  · exact (Steady.of_core (devEvents_dma s).core).leads
  · exact .refl s

/-- What comes before the instruction is a run, and what follows is its execution. -/
theorem executes_spec {i : DEnt} (h : executes s = some (i, u)) :
    Leads s u ∧ stepOne s = (executeInstruction i >>= fun _ =>
      modifyCpu fun c => { c with icount := c.icount + 1 }) u := by
  unfold executes at h
  simp only at h
  split at h
  · cases h
  · rename_i hrun
    have hirq := takeIrq_runs (afterEvents s)
    split at h
    · cases h
    · rename_i e he
      rw [he] at hirq
      have hnote : Leads e { e with cpu := { e.cpu with instPc := e.cpu.pc } } :=
        (Steady.cpu e (c := { e.cpu with instPc := e.cpu.pc }) rfl (.inl rfl)).leads
      have hnext := nextInstruction_runs e.cpu.pc
        { e with cpu := { e.cpu with instPc := e.cpu.pc } }
      split at h
      · cases h
      · rename_i j v hj
        cases h
        rw [hj] at hnext
        refine ⟨(afterEvents_leads s).trans (hirq.trans (hnote.trans (hnext.trans ?_))), ?_⟩
        · exact (Steady.cpu v (c := { v.cpu with pc := e.cpu.pc + BitVec.ofNat 32 i.length })
            rfl (.inl rfl)).leads
        · have hrest : stepRest (afterEvents s) = (executeInstruction i >>= fun _ =>
              modifyCpu fun c => { c with icount := c.icount + 1 })
              { v with cpu := { v.cpu with pc := e.cpu.pc + BitVec.ofNat 32 i.length } } := by
            unfold stepRest
            rw [bind_ok he]
            change (nextInstruction e.cpu.pc >>= _)
              { e with cpu := { e.cpu with instPc := e.cpu.pc } } = _
            rw [bind_ok hj]
            rfl
          rw [← hrest]
          unfold stepOne
          rw [get_bind_apply]
          by_cases hdue : s.dev.devNext ≤ s.cpu.icount
          · have hev : afterEvents s = devEvents s := if_pos hdue
            have hgo : (devEvents s).cpu.halted = false := by
              rw [← hev]
              exact Bool.eq_false_iff.2 fun hh => hrun ⟨hdue, hh⟩
            rw [if_pos hdue, hev]
            change (if (devEvents s).cpu.halted = true then _ else stepRest : M Unit) _ = _
            rw [hgo]
            rfl
          · rw [if_neg hdue, show afterEvents s = s from if_neg hdue]

theorem steady_tick (h : Steady s t) (hk : ∀ va, Kept s t va) : Tick (s, S) (t, S) := by
  have ht := Tick.other S h
  rwa [changed_kept hk] at ht

/-- In supervisor mode a privileged instruction is executed. -/
theorem executeInstruction_sup {i : DEnt} {op : Opcode} (hm : u.cpu.mode = .supervisor)
    (hop : Opcode.ofByte (i.b 0) = some op) : executeInstruction i u = dispatch op i u := by
  have hno (c : Prop) : ¬ (u.cpu.mode = .user ∧ c) := by
    rintro ⟨h, -⟩
    rw [hm] at h
    cases h
  unfold executeInstruction
  rw [hop]
  change (if u.cpu.mode = .user ∧ _ then _ else if u.cpu.mode = .user ∧ _ then _ else _ :
    M Unit) u = _
  rw [if_neg (hno _), if_neg (hno _)]

theorem priv_sup (hm : u.cpu.mode = .supervisor) {k : Unit → M α} : (priv >>= k) u = k () u := by
  have hp : priv u = .ok () u := by
    have hbad : (u.cpu.cr crCtrl &&& cr0Ext != 0 && u.cpu.mode == .user) = false := by
      rw [hm]
      exact Bool.and_false _
    change (if (u.cpu.cr crCtrl &&& cr0Ext != 0 && u.cpu.mode == .user) = true then _ else _ :
      M Unit) u = _
    rw [hbad]
    rfl
  rw [bind_ok hp]

/-- The instructions that drop translations do it. -/
theorem drops_ticks {i : DEnt} (h : DropsPage i u p) :
    ∃ t, executeInstruction i u = .ok () t ∧
      ∀ S, ∃ S', Tick (u, S) (t, S') ∧ ∀ q, DropsPage i u q → ¬ S' q := by
  obtain ⟨hm, hop | ⟨hop, hr, hn⟩ | ⟨hop, hr, -⟩⟩ := h
  · refine ⟨cpuFlushTlb u, ?_, fun S => ⟨_, .flush u S, fun _ _ h => h⟩⟩
    rw [executeInstruction_sup hm hop]
    change opTlbflushM u = _
    unfold opTlbflushM
    rw [priv_sup hm]
    rfl
  · have h7 : ¬ 7 < i.lo := BitVec.not_lt.2 hr
    have h9 : ¬ 9 ≤ i.hi := by
      rcases hn with hn | hn <;> rw [hn] <;> decide
    have hcr : i.hi.setWidth 4 ≠ crRamsize ∧ (i.hi.setWidth 4 = crCtrl ∨
        i.hi.setWidth 4 = crPtbase ∨ i.hi.setWidth 4 = crBase ∨ i.hi.setWidth 4 = crLimit) := by
      rcases hn with hn | hn <;> rw [hn] <;> decide
    refine ⟨cpuFlushTlb (u.setCr (i.hi.setWidth 4) (u.cpu.regs (i.lo.setWidth 3))), ?_,
      fun S => ⟨_, .cr u S _ _, fun _ _ h => h⟩⟩
    rw [executeInstruction_sup hm hop]
    change opMtcrM i u = _
    unfold opMtcrM needReg
    rw [if_neg h7]
    dsimp only
    rw [if_neg h9, priv_sup hm]
    change EStateM.Result.ok () (if i.hi.setWidth 4 = crRamsize then u else _) = _
    rw [if_neg hcr.1, if_pos hcr.2]
  · have h7 : ¬ 7 < i.lo := BitVec.not_lt.2 hr
    refine ⟨cpuInvlpg (u.cpu.regs (i.lo.setWidth 3)) u, ?_, fun S => ⟨_, .invlpg u S _, ?_⟩⟩
    · rw [executeInstruction_sup hm hop]
      change opInvlpgM i u = _
      unfold opInvlpgM needReg
      rw [if_neg h7]
      dsimp only
      rw [priv_sup hm]
      rfl
    · rintro q ⟨-, hq | ⟨hq, -⟩ | ⟨-, -, hq⟩⟩ ⟨-, hne⟩
      · rw [hop] at hq
        cases hq
      · rw [hop] at hq
        cases hq
      · exact hne hq

/-- One action is a run, which leaves no page stale whose translation it drops. -/
theorem act_ticks (a : Act) (h : a.run s = some t) (S : Stale) :
    ∃ S', Run (s, S) (t, S') ∧ ∀ p, a.Drops s p → ¬ S' p := by
  cases a with
  | poke va b =>
    obtain rfl := Option.some.inj h
    obtain ⟨S', hr⟩ := (Steady.of_core (memPoke_dma va b s).core).leads S
    exact ⟨S', hr, fun p hd => nomatch hd.1⟩
  | step =>
    unfold Act.run at h
    simp only at h
    split at h
    · rename_i hh
      cases h
      refine ⟨S, .refl, fun p hd => ?_⟩
      rw [hd.2.1] at hh
      cases hh
    · by_cases hd : ∃ p i u, executes s = some (i, u) ∧ DropsPage i u p
      · obtain ⟨p, i, u, he, hd⟩ := hd
        obtain ⟨hlead, hstep⟩ := executes_spec he
        obtain ⟨v, hv, htick⟩ := drops_ticks hd
        have hend : stepOne s =
            .ok () { v with cpu := { v.cpu with icount := v.cpu.icount + 1 } } := by
          rw [hstep, bind_ok hv]
          rfl
        obtain rfl : { v with cpu := { v.cpu with icount := v.cpu.icount + 1 } } = t := by
          rcases cpuStep_cases h with hs | hs
          · rw [hend] at hs
            cases hs
            rfl
          · rw [hend] at hs
            cases hs
        obtain ⟨S₁, hr₁⟩ := hlead S
        obtain ⟨S₂, ht, hclear⟩ := htick S₁
        have hlast := steady_tick (S := S₂) (Steady.cpu v
          (c := { v.cpu with icount := v.cpu.icount + 1 }) rfl (.inl rfl))
          fun _ => ⟨rfl, rfl, .refl _ _, fun _ => .refl _ _⟩
        refine ⟨S₂, (hr₁.tail ht).tail hlast, ?_⟩
        rintro q ⟨-, -, j, w, hj, hq⟩
        rw [he] at hj
        cases hj
        exact hclear q hq
      · have hr := stepOne_runs s
        have hlead : Leads s t := by
          rcases cpuStep_cases h with hs | hs
          · rw [hs] at hr
            exact hr
          · rw [hs] at hr
            exact hr
        obtain ⟨S', hr⟩ := hlead S
        exact ⟨S', hr, fun p hp => absurd ⟨p, hp.2.2⟩ hd⟩

/-- Every sequence of steps and pokes is a run. -/
theorem runActs_acts (as : List Act) (h : runActs as s = some t) (S : Stale) :
    ∃ S', Acts as (s, S) (t, S') := by
  induction as generalizing s S with
  | nil =>
    obtain rfl := Option.some.inj h
    exact ⟨S, .nil _⟩
  | cons a as ih =>
    unfold runActs at h
    obtain ⟨u, ha, hu⟩ := Option.bind_eq_some_iff.1 h
    obtain ⟨S₁, hr, hd⟩ := act_ticks a ha S
    obtain ⟨S₂, hrest⟩ := ih hu S₁
    exact ⟨S₂, .cons ha hr hd hrest⟩

/-! ## The result -/

/-- One byte of physical memory. -/
def readByte (F : Fault) (pa : Word) : M Byte := physRead F pa 1 >>= fun v => pure (v.setWidth 8)

/-- The result `r` of a fetch at `pc` is that of the walk in `s`: its fault, or
the byte at its address with the entry in memory marked. -/
def FetchRefines (F : Fault) (s : Machine) (pc : Word) (r : EStateM.Result Exit Machine Byte) :
    Prop :=
  match walk s pc .x s.isUser with
  | .error code => r = .error .longjmp (F vecPf code (s.setCr crFaddr pc))
  | .ok pa => ∃ u, Marked u pc .x ∧
      (r = readByte F pa u ∨ ∃ b ptr n, readByte F pa u = .ok b u ∧ r = .ok b (refill pc ptr n u))

/-- The bytes of the cached fetch page are those of physical memory. -/
theorem fetchPage_eq (F : Fault) {ptr : FetchPtr} (hp : PtrOk s.cfg ptr) (pc : Word) :
    readByte F (fetchBase ptr ||| pageOff pc) s = .ok (fetchPage s ptr pc) s := by
  have hadd (pb : Word) (h : pageOf pb = pb) : pb ||| pageOff pc = pb + pageOff pc := by
    rw [← h]
    unfold pageOf pageOff
    refine (BitVec.add_eq_or_of_and_eq_zero _ _ ?_).symm
    have h0 : (0xFFFFF000 : Word) &&& 0xFFF = 0 := by decide
    rw [BitVec.and_comm pc, ← BitVec.and_assoc, BitVec.and_assoc pb, h0]
    simp
  have hram := s.cfg.ram_le
  have hoff : (pageOff pc).toNat < 4096 := by
    rw [toNat_pageOff]
    omega
  unfold readByte
  cases ptr with
  | ram pb =>
    obtain ⟨hpb, hlt, hle⟩ := hp
    have hin : inRam s (pb + pageOff pc) 1 = true := by
      rw [inRam_iff]
      bv_omega
    have hr : physRead F (pb + pageOff pc) 1 s =
        .ok (ramRead s.mem (pb + pageOff pc) 1) s := physRead_ram F hin
    rw [fetchBase, hadd pb hpb, bind_ok hr]
    simp [ramRead, rdBytes, fetchPage]
  | rom off =>
    obtain ⟨hpb, hle, hrom⟩ := hp
    have hnum := congrArg BitVec.toNat hpb
    rw [toNat_pageOf] at hnum
    have hout : inRam s (off + romBase + pageOff pc) 1 = false := by
      unfold inRam
      rw [Bool.and_eq_false_iff, decide_eq_false_iff_not]
      left
      unfold romBase at *
      bv_omega
    have hin : inRom s (off + romBase + pageOff pc) 1 = true := by
      unfold inRom
      rw [hrom, Bool.and_eq_true, Bool.and_eq_true, decide_eq_true_eq, decide_eq_true_eq]
      unfold romBase romSize at *
      refine ⟨⟨?_, rfl⟩, ?_⟩
      · bv_omega
      · bv_omega
    have hr : physRead F (off + romBase + pageOff pc) 1 s =
        .ok (ramRead s.cfg.rom (off + romBase + pageOff pc - romBase) 1) s := by
      unfold physRead
      rw [hout, hin]
      rfl
    have hsub : off + romBase + pageOff pc - romBase = off + pageOff pc := by bv_omega
    rw [fetchBase, hadd _ hpb, bind_ok hr, hsub]
    simp [ramRead, rdBytes, fetchPage]

theorem Coh.fetchAt (h : Coh s S) (hx : s.extOn = true) (hp : s.pgOn = true) (hS : ¬ S (pageNum pc))
    (ht : Tables s pc) (F : Fault) : FetchRefines F s pc (fetchAt F pc s) := by
  unfold FetchRefines Emu.fetchAt
  rw [get_bind_apply]
  by_cases htag : pageOf pc = s.fTag
  · -- through the cached fetch page
    have hf := h.fetch hx hp pc htag hS ht
    rw [hf.walk, if_pos htag]
    refine ⟨s, ⟨hf.accessed, fun hw => nomatch hw⟩, .inl ?_⟩
    exact (fetchPage_eq F hf.ptr pc).symm
  · rw [if_neg htag]
    have href := translate_refines F hx hp ht .x s.isUser (h.tlb hx hp pc hS ht)
    unfold Refines at href
    cases hw : walk s pc .x s.isUser with
    | error code =>
      rw [hw] at href
      exact fetchSlow_error href
    | ok pa =>
      rw [hw] at href
      obtain ⟨u, htr, hmark, -⟩ := href
      refine ⟨u, hmark, ?_⟩
      rcases fetchSlow_ok htr with ⟨ptr, n, hptr, hb, hf⟩ | hf
      · right
        have hpa : fetchBase ptr ||| pageOff pc = pa := by rw [hb, walk_ok hw, pageOf_or]
        have hread := fetchPage_eq F hptr pc
        rw [hpa] at hread
        exact ⟨_, ptr, n, hread, hf⟩
      · exact .inl hf

/-- The caches hold nothing: as after switching on, or after a flush. -/
structure Cold (s : Machine) : Prop where
  gen_ne : s.tlbGen ≠ 0
  gen_lt : ∀ p, (s.tlb p).gen < s.tlbGen
  fTag : s.fTag = 1

theorem Cold.coh (h : Cold s) : Coh s (fun _ => False) where
  gen_ne := h.gen_ne
  gen_le p := BitVec.le_of_lt (h.gen_lt p)
  tlb _ _ _ _ _ hg := absurd hg (BitVec.ne_of_lt (h.gen_lt _))
  fetch _ _ va hva := absurd (hva.trans h.fTag) (pageOf_ne_one va)

/-- A directory at `base` and behind it one table that maps page `0` for
everything and page `1` for reading and writing, accessed but not dirty. -/
def twoPages (base : Word) (a : Word) : Byte :=
  let w : Word :=
    if a.toNat / 4 = 0 then base + 0x1001
    else if a.toNat / 4 = 0x400 then 0x3B
    else if a.toNat / 4 = 0x401 then 0x1013
    else 0
  byteOf w (a.toNat % 4)

/-- `LDW R1, [R0 + 0x1000]` and `STW R1, [R0 + 0x1000]` with paging on, the
tables at `base`, and a bus error leading back to the store. -/
def pagedMachine (rom : Bool) (base : Word) : Machine :=
  let s := loadProgram [0x72, 0x10, 0x00, 0x10, 0, 0, 0x75, 0x10, 0x00, 0x10, 0, 0]
    (cpuInitSize { bareConfig with rom := twoPages base, romPresent := rom } bareHost)
  let s := ((s.setCr crCtrl (cr0Ext ||| cr0Pg)).setCr crPtbase base).setCr crEvt 0x200
  { s with
    cpu := { s.cpu with sp := 0x800 }
    mem := fun a =>
      if base ≤ a then twoPages base (a - base) else storeBytes s.mem 0x214 4 (byteOf 6) a }

theorem pagedMachine_cold (rom : Bool) (base : Word) : Cold (pagedMachine rom base) := by
  have h01 : (1 : Word) ≠ 0 ∧ (0 : Word) < 1 := by decide
  exact ⟨h01.1, fun _ => h01.2, rfl⟩

end Tortoise.Emu
