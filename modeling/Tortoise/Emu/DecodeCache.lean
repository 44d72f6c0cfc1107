import Tortoise.Emu.Closure

/-!
# The decoded-instruction cache is transparent

`step_one` keeps decoded instructions in `dc_tab`, one table for each physical
page, filled through the cached fetch page and emptied by whoever writes RAM.
This file shows that the cache cannot be observed: a machine that runs with the
cache and one that runs without it go through the same states, cache apart.

* `Coherent` — every cached entry is what decoding the RAM at its address gives
  now, and the cached fetch page is the page of RAM it claims to be.
* `Coherent.overwrite` — a writer that drops the tables of the pages it touches
  keeps this; stores, page-table updates, disk and network transfers, the legacy
  disk port and debugger pokes are all such writers.
* `dcLookup_commutes` — on a coherent machine a lookup is a decoding.
* `dcache_transparent` — the runs agree, for every sequence of steps and pokes.
-/

namespace Tortoise.Emu

open Tortoise.Lib
open Sequenced (branch)

variable {F : Fault} {s s' : Machine} {n p : Nat} {α : Type}

/-! ## Coherence -/

/-- The bytes of the instruction at `a`. -/
def instrAt (mem : Word → Byte) (a : Word) : DEnt :=
  (List.range (opLen (mem a))).map fun i => mem (a + BitVec.ofNat 32 i)

/-- The address of offset `off` in physical page `p`. -/
def pageAddr (p off : Nat) : Word := BitVec.ofNat 32 (p * 4096 + off)

/-- The cached fetch page is a whole page of RAM whose number is `f_ppn`. -/
def FetchPage (s : Machine) : Prop :=
  ∀ p, s.fPpn = some p → (p + 1) * 4096 ≤ s.cfg.ramSize.toNat ∧ s.fPtr = .ram (pageAddr p 0)

/-- Every decoded instruction in the cache is the one in RAM, and the cached
fetch page, if there is one, is what its number says. -/
structure Coherent (s : Machine) : Prop where
  fetch : s.fTag = 1 ∨ FetchPage s
  entry : ∀ p t off, s.dcTab p = some t → t off ≠ [] →
    off ≤ 0xFFA ∧ (p + 1) * 4096 ≤ s.cfg.ramSize.toNat ∧ t off = instrAt s.mem (pageAddr p off)

theorem instrAt_length (mem : Word → Byte) (a : Word) : (instrAt mem a).length = opLen (mem a) := by
  simp [instrAt]

theorem toNat_pageAddr {off : Nat} (hp : (p + 1) * 4096 ≤ s.cfg.ramSize.toNat) (ho : off < 4096) :
    (pageAddr p off).toNat = p * 4096 + off := by
  have hr := s.cfg.ram_le
  rw [pageAddr, BitVec.toNat_ofNat, Nat.mod_eq_of_lt]
  omega

theorem pageAddr_add (p off i : Nat) :
    pageAddr p off + BitVec.ofNat 32 i = pageAddr p (off + i) := by
  rw [pageAddr, pageAddr, ← BitVec.ofNat_add, Nat.add_assoc]

/-- Instructions inside a page depend only on the bytes of that page. -/
theorem instrAt_congr {mem : Word → Byte} {off : Nat} (hp : (p + 1) * 4096 ≤ s.cfg.ramSize.toNat)
    (ho : off ≤ 0xFFA) (hm : ∀ x : Word, pageNum x = p → mem x = s.mem x) :
    instrAt mem (pageAddr p off) = instrAt s.mem (pageAddr p off) := by
  have hb (i : Nat) (hi : i < 6) : mem (pageAddr p (off + i)) = s.mem (pageAddr p (off + i)) := by
    refine hm _ ?_
    rw [pageNum, toNat_pageAddr hp (by omega)]
    omega
  have h0 := hb 0 (by omega)
  have hl := opLen_le (s.mem (pageAddr p off))
  rw [Nat.add_zero] at h0
  unfold instrAt
  rw [h0]
  refine List.map_congr_left fun i hi => ?_
  rw [List.mem_range] at hi
  rw [pageAddr_add]
  exact hb i (by omega)

/-- A change that leaves the pages of the tables it keeps alone keeps
coherence. -/
theorem Coherent.overwrite (h : Coherent s) (hc : s'.core = s.core)
    (hk : ∀ p t, s'.dcTab p = some t → s.dcTab p = some t ∧
      ((p + 1) * 4096 ≤ s.cfg.ramSize.toNat → ∀ x : Word, pageNum x = p → s'.mem x = s.mem x)) :
    Coherent s' := by
  have hcfg : s'.cfg = s.cfg := congrArg Core.cfg hc
  refine ⟨?_, fun p t off ht hne => ?_⟩
  · refine h.fetch.imp (fun h => (congrArg Core.fTag hc).trans h) fun h p hp => ?_
    have hp' : s.fPpn = some p := (congrArg Core.fPpn hc).symm.trans hp
    rw [hcfg, show s'.fPtr = s.fPtr from congrArg Core.fPtr hc]
    exact h p hp'
  · obtain ⟨hold, hm⟩ := hk p t ht
    obtain ⟨ho, hp, he⟩ := h.entry p t off hold hne
    exact ⟨ho, hcfg ▸ hp, he.trans (instrAt_congr hp ho (hm hp)).symm⟩

/-- The tables that `cpu_mem_written` keeps belong to pages outside the range. -/
theorem cpuMemWritten_keeps {a : Word} {t : Nat → DEnt} (hn : 0 < n)
    (ha : a.toNat + n ≤ s.cfg.ramSize.toNat)
    (h : (cpuMemWritten a (BitVec.ofNat 32 n) s).dcTab p = some t) :
    s.dcTab p = some t ∧ ((p + 1) * 4096 ≤ s.cfg.ramSize.toNat →
      p < pageNum a ∨ pageNum (a + BitVec.ofNat 32 n - 1) < p) := by
  have hr := s.cfg.ram_le
  unfold cpuMemWritten at h
  have hz : BitVec.ofNat 32 n ≠ 0 := by
    intro h0
    have hz := congrArg BitVec.toNat h0
    rw [BitVec.toNat_ofNat] at hz
    change n % 2 ^ 32 = 0 at hz
    omega
  rw [if_neg hz] at h
  simp only at h
  split at h
  · cases h
  · rename_i hout
    refine ⟨h, fun hp => ?_⟩
    omega

/-- The addresses a block write changes lie in the pages it drops. -/
theorem storeBytes_outside {a : Word} (f : Nat → Byte) {x : Word} (hn : 0 < n)
    (ha : a.toNat + n ≤ s.cfg.ramSize.toNat) (hx : pageNum x = p)
    (hp : p < pageNum a ∨ pageNum (a + BitVec.ofNat 32 n - 1) < p) :
    storeBytes s.mem a n f x = s.mem x := by
  have hr := s.cfg.ram_le
  have hl : (a + BitVec.ofNat 32 n - 1).toNat = a.toNat + n - 1 := by bv_omega
  unfold pageNum at hx hp
  rw [hl] at hp
  unfold storeBytes
  rw [if_neg]
  intro hlt
  have hd : x.toNat = a.toNat + (x - a).toNat := by bv_omega
  omega

theorem Coherent.dma (h : Coherent s) (hd : Dma s s') : Coherent s' := by
  induction hd with
  | quiet hc hm ht =>
    exact h.overwrite hc fun p t hp => ⟨ht ▸ hp, fun _ x _ => congrFun hm x⟩
  | drop s a n =>
    refine h.overwrite (Dma.drop s a n).core fun p t hp => ?_
    unfold cpuMemWritten at hp ⊢
    split at hp
    · rename_i hz
      rw [if_pos hz]
      exact ⟨hp, fun _ _ _ => rfl⟩
    · rename_i hz
      rw [if_neg hz]
      simp only at hp
      split at hp
      · cases hp
      · exact ⟨hp, fun _ _ _ => rfl⟩
  | write s a n f ha =>
    refine h.overwrite (Dma.write s a n f ha).core fun p t hp => ?_
    rcases Nat.eq_zero_or_pos n with rfl | hn
    · refine ⟨hp, fun _ x _ => ?_⟩
      simp [dmaWrite, cpuMemWritten, storeBytes]
    · have hk := cpuMemWritten_keeps (s := { s with mem := storeBytes s.mem a n f }) hn ha hp
      refine ⟨hk.1, fun hr x hx => ?_⟩
      have hm : (dmaWrite a n f s).mem = storeBytes s.mem a n f := by
        unfold dmaWrite cpuMemWritten
        split <;> rfl
      rw [hm]
      exact storeBytes_outside f hn ha hx (hk.2 hr)
  | trans _ _ ih₁ ih₂ => exact ih₂ (ih₁ h)

/-- A change outside RAM, the tables and the configuration, which may drop the
cached fetch page. -/
theorem Coherent.congr (h : Coherent s) (hc : s'.cfg = s.cfg) (hm : s'.mem = s.mem)
    (ht : s'.dcTab = s.dcTab) (hp : s'.fPtr = s.fPtr) (hn : s'.fPpn = s.fPpn)
    (hf : s'.fTag = s.fTag ∨ s'.fTag = 1) : Coherent s' := by
  refine ⟨?_, ?_⟩
  · rcases hf with hf | hf
    · rw [hf]
      refine h.fetch.imp_right fun h p hq => ?_
      rw [hc, hp]
      exact h p (hn ▸ hq)
    · exact Or.inl hf
  · rw [hc, hm, ht]
    exact h.entry

/-! ## Accesses commute with forgetting the cache -/

/-- The routine does the same with the cache forgotten, and keeps coherence. -/
abbrev Blind {α : Type} (x : M α) : Prop := Commutes Machine.erase Coherent x

theorem blind_sequenced : Sequenced (fun {_} x => Blind x) := Commutes.sequenced

theorem blind_read {f : Machine → M α} (he : ∀ s, f s.erase = f s) (hf : ∀ s, Blind (f s)) :
    Blind (get >>= f) := by
  intro s hs
  rw [get_bind_apply, get_bind_apply, he]
  exact hf s s hs

theorem blind_modify {f : Machine → Machine} (he : ∀ s, f s.erase = (f s).erase)
    (hf : ∀ s, Coherent s → Coherent (f s)) : Blind (modify f) :=
  fun s hs => ⟨congrArg (EStateM.Result.ok PUnit.unit) (he s), hf s hs⟩

/-- What the fault handler must satisfy for the accesses to be blind. -/
def BlindFault (F : Fault) : Prop :=
  ∀ vec code s, Coherent s → F vec code s.erase = (F vec code s).erase ∧ Coherent (F vec code s)

theorem Coherent.setCr (h : Coherent s) (n : BitVec 4) (v : Word) : Coherent (s.setCr n v) :=
  h.congr rfl rfl rfl rfl rfl (.inl rfl)

section Accesses

variable {F : Fault} (hF : BlindFault F)

include hF

theorem raise_blind (vec code : Word) : Blind (raise F vec code : M α) := by
  intro s hs
  obtain ⟨he, hi⟩ := hF vec code s hs
  exact ⟨congrArg (EStateM.Result.error Exit.longjmp) he, hi⟩

theorem cpuBusError_blind (a : Word) : Blind (cpuBusError F a : M α) := by
  intro s hs
  unfold cpuBusError busState
  rw [show s.erase.extOn = s.extOn from rfl]
  split
  · exact raise_blind hF vecBus 0 (s.setCr crFaddr a) (hs.setCr _ _)
  · exact ⟨rfl, hs.congr rfl rfl rfl rfl rfl (.inl rfl)⟩

theorem physRead_blind (pa : Word) (n : Nat) : Blind (physRead F pa n) := by
  intro s hs
  unfold physRead
  rw [show inRam s.erase pa n = inRam s pa n from rfl, show inRom s.erase pa n = inRom s pa n from rfl,
    devRead_erase]
  split
  · exact ⟨rfl, hs⟩
  · split
    · exact ⟨rfl, hs⟩
    · split
      · cases hd : devRead pa s with
        | none => exact cpuBusError_blind hF pa s hs
        | some r => exact ⟨rfl, hs.dma (devRead_dma hd)⟩
      · exact cpuBusError_blind hF pa s hs

theorem physWrite_blind (pa v : Word) (n : Nat) (hn : n ≤ 4) : Blind (physWrite F pa v n) := by
  intro s hs
  unfold physWrite
  rw [show inRam s.erase pa n = inRam s pa n from rfl, devWrite_erase, ramWrite_erase]
  split
  · rename_i hr
    exact ⟨rfl, hs.dma (ramWrite_dma hn hr)⟩
  · split
    · cases hd : devWrite pa v s with
      | none => exact cpuBusError_blind hF pa s hs
      | some s' => exact ⟨rfl, hs.dma (devWrite_dma hd)⟩
    · exact cpuBusError_blind hF pa s hs

omit hF in
theorem setTlb_blind (f : Machine → TlbEnt) (he : ∀ s, f s.erase = f s) (p : Nat) :
    Blind (modify fun s => setTlb p (f s) s) :=
  blind_modify (fun s => by rw [he]; rfl) fun _ hs => hs.congr rfl rfl rfl rfl rfl (.inl rfl)

theorem memActions_blind : MemActions F (fun {_} x => Blind x) :=
  .of_phys blind_sequenced blind_read (physRead_blind hF) (physWrite_blind hF)
    (fun va vec code _ s hs => raise_blind hF vec code (s.setCr crFaddr va) (hs.setCr _ _))
    fun p f he => setTlb_blind f he p

theorem enter_blind (vec savepc code : Word) : Blind (enter F vec savepc code) :=
  (memActions_blind hF).enter (fun _ _ _ _ => blind_modify (fun _ => rfl) fun _ hs =>
    hs.congr rfl rfl rfl rfl rfl (.inr rfl)) vec savepc code

end Accesses

/-! ## The exception entry -/

theorem Coherent.setPc (h : Coherent s) (v : Word) :
    Coherent { s with cpu := { s.cpu with pc := v } } :=
  h.congr rfl rfl rfl rfl rfl (.inl rfl)

theorem Coherent.setDepth (h : Coherent s) (d : Nat) : Coherent (setDepth d s) :=
  h.congr rfl rfl rfl rfl rfl (.inl rfl)

theorem enterFault_blind (hF : BlindFault F) (vec code : Word) (hs : Coherent s) :
    enterFault F vec code s.erase = (enterFault F vec code s).erase ∧
      Coherent (enterFault F vec code s) := by
  obtain ⟨he, hi⟩ := enter_blind hF vec s.cpu.instPc code s hs
  unfold enterFault
  rw [erase_cpu, he]
  cases hr : enter F vec s.cpu.instPc code s with
  | ok a s' =>
    rw [hr] at hi
    exact ⟨rfl, hi.setDepth 0⟩
  | error e s' =>
    rw [hr] at hi
    exact ⟨rfl, hi⟩

theorem tripleFault_blind (hs : Coherent s) :
    tripleFault s.erase = (tripleFault s).erase ∧ Coherent (tripleFault s) :=
  ⟨rfl, hs.congr rfl rfl rfl rfl rfl (.inl rfl)⟩

theorem cpuFaultN_blind (n : Nat) : BlindFault (cpuFaultN n) := by
  induction n with
  | zero => exact fun vec code s hs => tripleFault_blind (hs.setPc _)
  | succ n ih =>
    intro vec code s hs
    unfold cpuFaultN
    simp only [erase_cpu]
    split
    · exact enterFault_blind ih vec code ((hs.setPc _).setDepth 1)
    · exact enterFault_blind ih vecDf 0 ((hs.setPc _).setDepth 2)
    · exact tripleFault_blind (hs.setPc _)

theorem cpuFault_blind : BlindFault cpuFault := cpuFaultN_blind 2

theorem cpuDeliver_blind (vec savepc code : Word) : Blind (cpuDeliver vec savepc code) := by
  have hs := blind_sequenced
  have hd (d : Nat) : Blind (modify (setDepth d)) :=
    blind_modify (fun _ => rfl) fun _ h => h.setDepth d
  refine blind_read (fun _ => rfl) fun s => branch (raise_blind cpuFault_blind _ _) ?_
  exact hs.bind (hd 1) fun _ => hs.bind (enter_blind cpuFault_blind _ _ _) fun _ => hd 0

/-! ## Instructions -/

@[simp] theorem cpuFlushTlb_erase (s : Machine) : cpuFlushTlb s.erase = (cpuFlushTlb s).erase := by
  rw [cpuFlushTlb, cpuFlushTlb, erase_ite]
  rfl

theorem Coherent.cpuFlushTlb (h : Coherent s) : Coherent (cpuFlushTlb s) := by
  unfold Emu.cpuFlushTlb
  split <;> exact h.congr rfl rfl rfl rfl rfl (.inr rfl)

theorem crWrite_blind (n : BitVec 4) (v : Word) : Blind (crWrite n v) := by
  refine blind_modify (fun s => ?_) fun s hs => ?_
  · simp only [erase_ite, ← cpuFlushTlb_erase]
    rfl
  · split
    · exact hs
    · simp only
      split
      · exact (hs.setCr n v).cpuFlushTlb
      · exact hs.setCr n v

theorem cpuWfi_blind : Blind cpuWfi := by
  intro s hs
  unfold cpuWfi
  rw [devWfi_erase, erase_cfg]
  cases hw : devWfi s.cfg.patience s with
  | none => exact ⟨rfl, hs⟩
  | some s' => exact ⟨rfl, hs.dma (devWfi_dma hw)⟩

theorem modifyCpu_blind (f : Cpu → Cpu) : Blind (modifyCpu f) :=
  blind_modify (fun _ => rfl) fun _ hs => hs.congr rfl rfl rfl rfl rfl (.inl rfl)

theorem getCpu_blind (f : Cpu → α) : Blind (getCpu f) :=
  blind_read (fun _ => rfl) fun _ => blind_sequenced.pure _

theorem setFlagsWord_blind (f : Word) : Blind (setFlagsWord f) :=
  blind_modify (fun _ => rfl) fun _ hs => hs.congr rfl rfl rfl rfl rfl (.inr rfl)

theorem memRead_blind (va : Word) (n : Nat) : Blind (memRead va n) :=
  blind_read (fun _ => rfl) fun _ =>
    branch (blind_sequenced.pure _) ((memActions_blind cpuFault_blind).vmRead _ _ _)

theorem memWrite_blind (va v : Word) (n : Nat) (hn : n ≤ 4) : Blind (memWrite va v n) :=
  blind_read (fun _ => rfl) fun _ => (memActions_blind cpuFault_blind).vmWrite _ _ _ _ hn

theorem opSysretM_blind : Blind opSysretM := by
  refine blind_sequenced.bind (getCpu_blind _) fun _ => branch ?_ (modifyCpu_blind _)
  exact extIret_of blind_sequenced getCpu_blind memRead_blind (fun _ => modifyCpu_blind _)
    (fun _ => modifyCpu_blind _) setFlagsWord_blind

theorem actions_blind : Actions (fun {_} x => Blind x) where
  toSequenced := blind_sequenced
  getCpu := getCpu_blind
  setReg _ _ := modifyCpu_blind _
  setPc _ := modifyCpu_blind _
  setSp _ := modifyCpu_blind _
  setFlags _ := modifyCpu_blind _
  setIntEnabled _ := modifyCpu_blind _
  memRead := memRead_blind
  memWrite := memWrite_blind
  fault := raise_blind cpuFault_blind
  stop _ := modifyCpu_blind _
  abort _ hs := ⟨rfl, hs⟩
  cpuDeliver := cpuDeliver_blind
  legacyMode := modifyCpu_blind _
  legacySyscallEntry := modifyCpu_blind _
  opSysretM := opSysretM_blind
  setFlagsWord := setFlagsWord_blind
  crWrite := crWrite_blind
  flush := blind_modify cpuFlushTlb_erase fun _ hs => hs.cpuFlushTlb
  invlpg _ := blind_modify (fun _ => rfl) fun _ hs => hs.congr rfl rfl rfl rfl rfl (.inr rfl)
  cpuWfi := cpuWfi_blind
  haltCpu := modifyCpu_blind _
  portIn port s hs := by
    refine ⟨?_, hs.dma (legacyIn_serves port s).dma⟩
    unfold portIn
    rw [legacyIn_erase]
    rfl
  portOut port v := blind_modify (fun s => (legacyOut_routine port v s).erase) fun s hs =>
    hs.dma (legacyOut_routine port v s).serves.dma

/-! ## Fetching and decoding -/

theorem fetchSlow_blind (hF : BlindFault F) (pc : Word) : Blind (fetchSlow F pc) := by
  have hs := blind_sequenced
  refine blind_read (fun _ => rfl) fun s => branch ?_ ?_
  · exact hs.bind ((memActions_blind hF).translate _ _ _) fun _ =>
      hs.bind (physRead_blind hF _ _) fun _ => hs.pure _
  · refine hs.bind ((memActions_blind hF).translate _ _ _) fun pa t ht => ?_
    simp only [get_bind_apply, erase_cfg]
    by_cases hr : pageOf pa < t.cfg.ramSize ∧ 0x1000 ≤ t.cfg.ramSize - pageOf pa
    · simp only [hr, and_self, ↓reduceIte]
      refine ⟨rfl, .inr fun p hp => ?_, ht.entry⟩
      have hp' : pageNum (pageOf pa) = p := Option.some.inj hp
      subst hp'
      have hpb := toNat_pageOf pa
      refine ⟨?_, congrArg FetchPtr.ram (BitVec.eq_of_toNat_eq ?_)⟩
      · change (pageNum (pageOf pa) + 1) * 4096 ≤ t.cfg.ramSize.toNat
        rw [pageNum]
        bv_omega
      · have hlt := pa.isLt
        rw [pageAddr, BitVec.toNat_ofNat, pageNum, hpb]
        omega
    · simp only [hr, ↓reduceIte]
      by_cases hm : romBase ≤ pageOf pa ∧ t.cfg.romPresent = true
      · simp only [hm, and_self, ↓reduceIte]
        refine ⟨rfl, .inr fun p hp => ?_, ht.entry⟩
        cases hp
      · simp only [hm, ↓reduceIte]
        exact hs.bind (physRead_blind hF _ _) (fun _ => hs.pure _) t ht

theorem fetchAt_blind (hF : BlindFault F) (pc : Word) : Blind (fetchAt F pc) :=
  blind_read (fun _ => rfl) fun _ => branch (blind_sequenced.pure _) (fetchSlow_blind hF pc)

theorem decodeRest_blind (pc : Word) (n i : Nat) : Blind (decodeRest pc n i) := by
  have hs := blind_sequenced
  induction n generalizing i with
  | zero => exact hs.pure _
  | succ n ih =>
    exact hs.bind (fetchAt_blind cpuFault_blind _) fun _ => hs.bind (ih _) fun _ => hs.pure _

theorem decode_blind (pc : Word) : Blind (decode pc) := by
  have hs := blind_sequenced
  exact hs.bind (fetchAt_blind cpuFault_blind _) fun _ => hs.bind (decodeRest_blind _ _ _) fun _ =>
    hs.pure _

/-! ## The lookup -/

/-- The entries of one table that belongs to page `p`. -/
def TableOk (s : Machine) (p : Nat) (t : Nat → DEnt) : Prop :=
  ∀ off, t off ≠ [] → off ≤ 0xFFA ∧ t off = instrAt s.mem (pageAddr p off)

theorem Coherent.table (h : Coherent s) (p : Nat) : TableOk s p ((s.dcTab p).getD fun _ => []) := by
  intro off hne
  cases hd : s.dcTab p with
  | none =>
    rw [hd] at hne
    exact absurd rfl hne
  | some t =>
    rw [hd] at hne
    obtain ⟨ho, -, he⟩ := h.entry p t off hd hne
    exact ⟨ho, he⟩

theorem Coherent.setTable (h : Coherent s) {t : Nat → DEnt}
    (hp : (p + 1) * 4096 ≤ s.cfg.ramSize.toNat) (ht : TableOk s p t) :
    Coherent (setTable p t s) := by
  refine ⟨h.fetch, fun q u off hu hne => ?_⟩
  simp only [Emu.setTable] at hu
  split at hu
  · rename_i hq
    subst hq
    cases hu
    exact ⟨(ht off hne).1, hp, (ht off hne).2⟩
  · exact h.entry q u off hu hne

section Lookup

variable {s : Machine} (hs : Coherent s) {pc : Word} {p : Nat} (hp : s.fPpn = some p)
  (ht : pageOf pc = s.fTag) (ho : pageOff pc ≤ 0xFFA)

include hs hp ht ho

omit hp ho in
theorem fetchPage_of_tag : FetchPage s :=
  hs.fetch.resolve_left fun h1 => pageOf_ne_one pc (ht.trans h1)

/-- The bytes of an instruction in the cached page come from RAM, without any
change of state. -/
theorem fetchAt_tag {i : Nat} (hi : i < 6) :
    fetchAt cpuFault (pc + BitVec.ofNat 32 i) s =
      .ok (s.mem (pageAddr p ((pageOff pc).toNat + i))) s := by
  have ho' : (pageOff pc).toNat ≤ 0xFFA := ho
  obtain ⟨hpg, hoff⟩ := pageOf_add (x := pc) (i := i) (by omega)
  obtain ⟨-, hptr⟩ := fetchPage_of_tag hs ht p hp
  unfold fetchAt
  rw [get_bind_apply, if_pos (hpg.trans ht), pure_apply, hptr]
  simp only [fetchPage]
  congr 2
  apply BitVec.eq_of_toNat_eq
  rw [BitVec.toNat_add, hoff, pageAddr, pageAddr, BitVec.toNat_ofNat, BitVec.toNat_ofNat]
  omega

theorem decodeRest_tag {i : Nat} (hi : i + n ≤ 6) :
    decodeRest pc n i s = .ok ((List.range' i n).map fun k =>
      s.mem (pageAddr p ((pageOff pc).toNat + k))) s := by
  induction n generalizing i with
  | zero => rfl
  | succ n ih =>
    unfold decodeRest
    rw [bind_ok (fetchAt_tag hs hp ht ho (by omega)), bind_ok (ih (by omega))]
    rfl

/-- Decoding in the cached page gives the instruction in RAM. -/
theorem decode_tag : decode pc s = .ok (instrAt s.mem (pageAddr p (pageOff pc).toNat)) s := by
  have h0 := fetchAt_tag hs hp ht ho (i := 0) (by omega)
  rw [BitVec.add_zero, Nat.add_zero] at h0
  have hl := opLen_le (s.mem (pageAddr p (pageOff pc).toNat))
  have hpos := opLen_pos (s.mem (pageAddr p (pageOff pc).toNat))
  unfold decode
  rw [bind_ok h0, bind_ok (decodeRest_tag hs hp ht ho (by omega)), pure_apply]
  congr 1
  unfold instrAt
  obtain ⟨m, hm⟩ : ∃ m, opLen (s.mem (pageAddr p (pageOff pc).toNat)) = m + 1 :=
    ⟨_, (Nat.sub_add_cancel hpos).symm⟩
  rw [hm, Nat.add_sub_cancel, List.range_eq_range', List.range'_succ, List.map_cons]
  refine congrArg₂ List.cons ?_ (List.map_congr_left fun i _ => ?_)
  · rw [pageAddr_add, Nat.add_zero]
  · rw [pageAddr_add]

/-- A lookup returns the instruction in RAM and only fills the cache. -/
theorem dcLookup_spec : ∃ s', dcLookup pc p s =
    .ok (instrAt s.mem (pageAddr p (pageOff pc).toNat)) s' ∧ s'.erase = s.erase ∧ Coherent s' := by
  have ho' : (pageOff pc).toNat ≤ 0xFFA := ho
  have hpage := (fetchPage_of_tag hs ht p hp).1
  have hold := hs.table p
  have hs₁ := hs.setTable hpage hold
  unfold dcLookup
  simp only [get_bind_apply, modify_bind_apply]
  generalize hg : (s.dcTab p).getD (fun _ => []) = t at hold hs₁
  by_cases hne : t (pageOff pc).toNat ≠ []
  · rw [if_pos hne, pure_apply, (hold _ hne).2]
    exact ⟨setTable p t s, rfl, rfl, hs₁⟩
  · have hfit := opLen_le (s.mem (pageAddr p (pageOff pc).toNat))
    rw [if_neg hne, bind_ok (decode_tag (s := setTable p t s) hs₁ hp ht ho),
      if_pos (by rw [instrAt_length]; change _ + opLen (s.mem _) ≤ _; omega)]
    refine ⟨_, rfl, ?_, ?_⟩
    · rfl
    · refine hs₁.setTable hpage fun off hoff => ?_
      split at hoff
      · rename_i heq
        rw [if_pos heq, heq]
        exact ⟨ho', rfl⟩
      · rename_i heq
        rw [if_neg heq]
        exact hold off hoff

end Lookup

theorem nextInstruction_blind (pc : Word) : Blind (nextInstruction pc) := by
  intro s hs
  have hd := decode_blind pc s hs
  unfold nextInstruction
  simp only [get_bind_apply, erase_fPpn, erase_fTag]
  cases hp : s.fPpn with
  | none => exact hd
  | some p =>
    simp only [show s.erase.dcOn = false from rfl, Bool.false_eq_true, false_and, ↓reduceIte]
    by_cases hc : s.dcOn = true ∧ pageOf pc = s.fTag ∧ pageOff pc ≤ 0xFFA
    · rw [if_pos hc]
      obtain ⟨s', hl, he, hi⟩ := dcLookup_spec hs hp hc.2.1 hc.2.2
      rw [hd.1, hl, decode_tag hs hp hc.2.1 hc.2.2, mapState_ok, mapState_ok, he]
      exact ⟨rfl, hi⟩
    · rw [if_neg hc]
      exact hd

/-! ## Steps and runs -/

theorem takeIrq_blind : Blind takeIrq := by
  have hs := blind_sequenced
  refine blind_read (fun _ => rfl) fun s => ?_
  split
  · exact branch (hs.bind (modifyCpu_blind _) fun _ => cpuDeliver_blind _ _ _) (hs.pure _)
  · exact hs.pure _

theorem runInstruction_blind : Blind runInstruction := by
  have hs := blind_sequenced
  exact hs.bind (getCpu_blind _) fun _ => hs.bind (modifyCpu_blind _) fun _ =>
    hs.bind (nextInstruction_blind _) fun _ => hs.bind (modifyCpu_blind _) fun _ =>
      hs.bind (actions_blind.executeInstruction _) fun _ => modifyCpu_blind _

theorem stepOne_blind : Blind stepOne := by
  have hs := blind_sequenced
  have hr : Blind stepRest := hs.bind takeIrq_blind fun _ => runInstruction_blind
  refine blind_read (fun _ => rfl) fun s => branch ?_ hr
  refine hs.bind (blind_modify devEvents_erase fun s h => h.dma (devEvents_dma s)) fun _ => ?_
  exact hs.bind (getCpu_blind _) fun _ => branch (hs.pure _) hr

/-- One action with and without the cache. -/
theorem act_blind (a : Act) (hs : Coherent s) :
    a.run s.erase = (a.run s).map Machine.erase ∧ ∀ s', a.run s = some s' → Coherent s' := by
  cases a with
  | step =>
    obtain ⟨he, hi⟩ := stepOne_blind s hs
    simp only [Act.run, erase_cpu, cpuStep]
    by_cases hh : s.cpu.halted = true
    · simp only [hh, ↓reduceIte]
      exact ⟨rfl, fun s' h => Option.some.inj h ▸ hs⟩
    · simp only [hh, Bool.false_eq_true, ↓reduceIte, he]
      cases hr : stepOne s with
      | ok a s' =>
        rw [hr] at hi
        exact ⟨rfl, fun s'' h => Option.some.inj h ▸ hi⟩
      | error e s' =>
        rw [hr] at hi
        cases e with
        | longjmp => exact ⟨rfl, fun s'' h => Option.some.inj h ▸ hi⟩
        | diverged => exact ⟨rfl, fun s'' h => nomatch h⟩
  | poke va b =>
    have hd := memPoke_dma va b s
    refine ⟨congrArg some ?_, fun s' h => Option.some.inj h ▸ hs.dma hd⟩
    unfold memPoke
    rw [show peekAddr s.erase va = peekAddr s va from rfl]
    split
    · rfl
    · rw [dmaWrite_erase, erase_ite]
      rfl

/-- A run with and without the cache. -/
theorem runActs_blind (as : List Act) (hs : Coherent s) :
    runActs as s.erase = (runActs as s).map Machine.erase := by
  induction as generalizing s with
  | nil => rfl
  | cons a as ih =>
    obtain ⟨he, hi⟩ := act_blind a hs
    simp only [runActs, he]
    cases hr : a.run s with
    | none => rfl
    | some s' => exact ih (hi s' hr)

/-- **The cache cannot be observed.**  Whatever the machine holds when the cache
is switched on or off and the fetch page is dropped, every sequence of steps and
pokes leads to the same state with the cache and without it: all of the machine
but the cache itself, and in particular whether a step ends. -/
theorem dcache_transparent (s : Machine) (as : List Act) :
    (runActs as (cpuSetDcache true (fetchInval s))).map Machine.erase =
      runActs as (cpuSetDcache false (fetchInval s)) := by
  have hs : Coherent (cpuSetDcache true (fetchInval s)) :=
    ⟨.inl rfl, fun p t off ht => by cases ht⟩
  exact (runActs_blind as hs).symm

end Tortoise.Emu
