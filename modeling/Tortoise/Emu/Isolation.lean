import Tortoise.Emu.Phases
import Tortoise.Emu.Marks

/-!
# What a user program cannot change

With paging on, and no user page outside RAM, a step of a user program that does
not leave user mode changes no control register, no device and no memory but the
pages mapped writable for it (`user_isolated`).

* `Guarded` — the part of the state that is out of a user program's reach.
* `Out` — where an exception leads: to supervisor mode, or to a machine that has
  stopped.  Every access that fails ends so (`memActions_exits`).
* `Before` and `Isolated` — the two phases of an instruction (`isolationRules`).
-/

namespace Tortoise.Emu

open Tortoise.Lib

variable {s t u : Machine} {pa : Word}

/-! ## The guarded part of the state -/

/-- What a user program cannot change. -/
structure Guarded where
  cfg : Config
  cr : BitVec 4 → Word
  intEnabled : Bool
  mode : Mode
  syscallPc : Word
  diskSector : Word
  diskBuffer : Word
  dev : Dev
  net : Net
  host : Host

/-- The guarded part of `s`. -/
def Machine.guarded (s : Machine) : Guarded where
  cfg := s.cfg
  cr := s.cpu.cr
  intEnabled := s.cpu.intEnabled
  mode := s.cpu.mode
  syscallPc := s.cpu.syscallPc
  diskSector := s.cpu.diskSector
  diskBuffer := s.cpu.diskBuffer
  dev := s.dev
  net := s.net
  host := s.host

/-- The page tables map `a` with `U` and `W` from some virtual address. -/
def Writable (s : Machine) (a : Word) : Prop := ∃ va, walk s va .w true = .ok a

/-- No page whose entry has the `U` bit is outside RAM. -/
def UserInRam (s : Machine) : Prop :=
  ∀ va, pdeOf s va &&& pteP ≠ 0 → pteOf s va &&& pteP ≠ 0 → pteOf s va &&& pteU ≠ 0 →
    pageOf (pteOf s va) ||| pageOff va < s.cfg.ramSize

/-- Inside an instruction of a user program, before it commits. -/
structure Before (s u : Machine) : Prop where
  guarded : u.guarded = s.guarded
  marks : Marks s u
  tlb : TlbAgrees u

/-- What a user program may have done. -/
structure Isolated (s u : Machine) : Prop where
  guarded : u.guarded = s.guarded
  mem : ∀ a, u.mem a ≠ s.mem a → Writable s a ∨ (PteByte s a ∧ Gains 0x30 (s.mem a) (u.mem a))

theorem Before.isolated (h : Before s u) : Isolated s u :=
  ⟨h.guarded, fun a ha => .inr (h.marks.mem a ha)⟩

theorem TlbAgrees.congr (h : TlbAgrees s) (hc : t.cfg = s.cfg) (hcr : t.cpu.cr = s.cpu.cr)
    (hm : t.mem = s.mem) (htlb : t.tlb = s.tlb) (hg : t.tlbGen = s.tlbGen) : TlbAgrees t :=
  h.of_kept (Kept.congr hc (congrFun hcr _) hm) htlb hg

theorem Marks.congr (h : Marks s t) (hc : u.cfg = t.cfg) (hcr : u.cpu.cr = t.cpu.cr)
    (hm : u.mem = t.mem) : Marks s u :=
  h.trans ⟨Kept.congr hc (congrFun hcr _) hm, fun a ha => absurd (congrFun hm a) ha⟩

/-- A change of registers that are not guarded, or of the fetch and instruction
caches. -/
theorem Before.congr (h : Before s t) (hg : u.guarded = t.guarded) (hm : u.mem = t.mem)
    (htlb : u.tlb = t.tlb) (hgen : u.tlbGen = t.tlbGen) : Before s u where
  guarded := hg.trans h.guarded
  marks := h.marks.congr (congrArg Guarded.cfg hg) (congrArg Guarded.cr hg) hm
  tlb := h.tlb.congr (congrArg Guarded.cfg hg) (congrArg Guarded.cr hg) hm htlb hgen

theorem Isolated.congr (h : Isolated s t) (hg : u.guarded = t.guarded) (hm : u.mem = t.mem) :
    Isolated s u :=
  ⟨hg.trans h.guarded, fun a ha => by rw [hm] at ha ⊢; exact h.mem a ha⟩

/-! ## Where a failed access leads -/

/-- Supervisor mode, or a machine that has stopped. -/
def Out (e : Machine) : Prop := e.cpu.mode = .supervisor ∨ e.cpu.halted = true

/-- The routine keeps the mode or ends `Out`. -/
def Exits {α : Type} (x : M α) : Prop :=
  ∀ u, Ends x (fun _ t => t.cpu.mode = u.cpu.mode) (fun _ e => Out e) u

theorem exits_sequenced : Sequenced (fun {_} x => Exits x) where
  pure _ _ := rfl
  bind hx hf u := (hx u).bind fun a t _ ht =>
    (hf a t).mono (fun _ _ h => h.trans ht) fun _ _ h => h

theorem exits_read {α : Type} {f : Machine → M α} (hf : ∀ t, Exits (f t)) : Exits (get >>= f) :=
  fun u => hf u u

theorem mode_stable (m : Mode) : Phase.Stable (fun u => u.cpu.mode = m) where
  core hu hc := (congrArg Core.mode hc).trans hu
  tlb _ _ hu := hu
  faddr _ hu := hu

section Exits

variable {F : Fault} (hF : ∀ vec code u, Out (F vec code u))

include hF

theorem busState_out (a : Word) (u : Machine) : Out (busState F a u) :=
  Phase.busState_left (mode_stable u.cpu.mode) (fun _ _ _ _ _ => hF _ _ _)
    (fun _ => .inr rfl) rfl a

theorem memActions_exits : MemActions F (fun {_} x => Exits x) :=
  have hm (m : Mode) := Phase.memActions (mode_stable m) (Q := Out) (F := F)
    (fun _ _ _ _ _ => hF _ _ _) fun _ => .inr rfl
  { toSequenced := exits_sequenced
    read := fun _ hf => exits_read hf
    physRead := fun pa n u => (hm u.cpu.mode).physRead pa n u rfl
    physWrite := fun pa v n hn u => (hm u.cpu.mode).physWrite pa v n hn u rfl
    translate := fun va acc user u => (hm u.cpu.mode).translate va acc user u rfl }

theorem enter_out (vec savepc code : Word) (u : Machine) :
    Ends (enter F vec savepc code) (fun _ e => e.cpu.mode = .supervisor) (fun _ e => Out e) u := by
  have hm := Phase.memActions (mode_stable u.cpu.mode) (Q := Out) (F := F)
    (fun _ _ _ _ _ => hF _ _ _) fun _ => .inr rfl
  refine (Phase.enter_left hm vec savepc code rfl).mono (fun _ e h => ?_) fun _ _ h => h
  obtain ⟨t, h, -, rfl⟩ := h
  rfl

end Exits

theorem cpuFaultN_out (n : Nat) (vec code : Word) (u : Machine) : Out (cpuFaultN n vec code u) := by
  induction n generalizing vec code u with
  | zero => exact .inr rfl
  | succ n ih =>
    have hent (vec code : Word) (u : Machine) : Out (enterFault (cpuFaultN n) vec code u) :=
      Phase.enterFault_of_ends
        ((enter_out ih vec u.cpu.instPc code u).mono (fun _ _ h => .inl h) fun _ _ h => h)
    unfold cpuFaultN
    simp only
    split
    · exact hent _ _ _
    · exact hent _ _ _
    · exact .inr rfl

theorem cpuFault_out (vec code : Word) (u : Machine) : Out (cpuFault vec code u) :=
  cpuFaultN_out 2 vec code u

theorem memRead_exits (va : Word) (n : Nat) : Exits (memRead va n) :=
  exits_read fun _ => Sequenced.branch (exits_sequenced.pure _)
    ((memActions_exits cpuFault_out).vmRead _ _ _)

theorem memWrite_exits (va v : Word) (n : Nat) (hn : n ≤ 4) : Exits (memWrite va v n) :=
  exits_read fun _ => (memActions_exits cpuFault_out).vmWrite _ _ _ _ hn

theorem modifyCpu_exits {f : Cpu → Cpu} (hf : ∀ c, (f c).mode = c.mode) : Exits (modifyCpu f) :=
  fun u => hf u.cpu

theorem pushWord_exits (v : Word) : Exits (pushWord v) :=
  exits_sequenced.bind (fun _ => rfl) fun _ =>
    exits_sequenced.bind (memWrite_exits _ _ _ (by decide)) fun _ => modifyCpu_exits fun _ => rfl

theorem cpuInterrupt_out (vec : Word) (u : Machine) :
    Ends (cpuInterrupt vec) (fun _ e => e.cpu.mode = .supervisor) (fun _ e => Out e) u := by
  unfold cpuInterrupt
  rw [Phase.ends_getCpu]
  refine (pushWord_exits _ u).bind fun _ t₁ _ _ => ?_
  rw [Phase.ends_getCpu]
  refine (pushWord_exits _ t₁).bind fun _ t₂ _ _ => ?_
  unfold legacyMode
  rw [Phase.ends_modifyCpu]
  exact (memRead_exits _ _ _).bind fun _ t₃ _ h => h

/-! ## Accesses of a user program -/

section Accesses

variable {s : Machine} (hx : s.extOn = true) (hp : s.pgOn = true) (hm : s.cpu.mode = .user)
  (hU : UserInRam s)

theorem Before.extOn (h : Before s u) : u.extOn = s.extOn :=
  (modes_congr (congrFun (congrArg Guarded.cr h.guarded) crCtrl)).1

theorem Before.pgOn (h : Before s u) : u.pgOn = s.pgOn :=
  (modes_congr (congrFun (congrArg Guarded.cr h.guarded) crCtrl)).2

theorem Before.mode (h : Before s u) : u.cpu.mode = s.cpu.mode :=
  congrArg Guarded.mode h.guarded

include hm in
theorem Before.isUser (h : Before s u) : u.isUser = true := by
  unfold Machine.isUser
  rw [h.mode, hm]
  rfl

include hU in
/-- A user program reaches RAM only. -/
theorem walk_user_ram {va : Word} {acc : Acc} (h : walk s va acc true = .ok pa) :
    pa < s.cfg.ramSize := by
  obtain ⟨hdir, hpte, hden, rfl⟩ := walk_eq_ok.1 h
  refine hU va hdir hpte fun h0 => hden ?_
  unfold pteDenied
  rw [h0]
  rfl

include hx hp

theorem translate_before (va : Word) (acc : Acc) (hu : Before s u) :
    Ends (translate cpuFault va acc true)
      (fun pa t => Before s t ∧ walk s va acc true = .ok pa) (fun _ e => Out e) u := by
  rcases translate_marked cpuFault hu.tlb (hu.extOn.trans hx) (hu.pgOn.trans hp) va acc true with
    ⟨code, h, -⟩ | ⟨pa, t, h, hw, ht, hc⟩
  · exact (ends_of_error h).2 (cpuFault_out _ _ _)
  · refine (ends_of_ok h).2 ⟨⟨?_, hu.marks.trans ht.marks, hc⟩, ?_⟩
    · obtain ⟨mem, tlb, dc, rfl⟩ := ht.form
      exact hu.guarded
    · rw [← hu.marks.walk]
      exact hw

/-- The bytes of an access that crosses a page. -/
theorem translateBytes_before (va : Word) (acc : Acc) (n i : Nat) (hu : Before s u) :
    Ends (translateBytes cpuFault va acc true n i)
      (fun ps t => Before s t ∧
        (∀ k, k < n → walk s (va + BitVec.ofNat 32 (i + k)) acc true = .ok (ps.getD k 0)) ∧
        ∀ q ∈ ps, ∃ va', walk s va' acc true = .ok q) (fun _ e => Out e) u := by
  induction n generalizing i u with
  | zero =>
    refine ⟨hu, nofun, fun q hq => ?_⟩
    cases hq
  | succ n ih =>
    unfold translateBytes
    refine (translate_before hx hp _ acc hu).bind fun q t₁ _ h₁ => ?_
    refine (ih (i + 1) h₁.1).bind fun qs t₂ _ h₂ => ⟨h₂.1, fun k hk => ?_, fun r hr => ?_⟩
    · cases k with
      | zero => exact h₁.2
      | succ k =>
        have hk' := h₂.2.1 k (by omega)
        rwa [show i + 1 + k = i + (k + 1) by omega] at hk'
    · rcases List.mem_cons.1 hr with rfl | hr
      · exact ⟨_, h₁.2⟩
      · exact h₂.2.2 r hr

omit hx hp in
/-- An address of RAM is in no other window. -/
theorem not_window {n : Nat} (h : pa < u.cfg.ramSize) :
    inRom u pa n = false ∧ inDev pa n = false := by
  have hle := u.cfg.ram_le
  refine ⟨?_, ?_⟩
  · unfold inRom
    have hr : decide (romBase ≤ pa) = false := decide_eq_false (by unfold romBase; bv_omega)
    rw [hr]
    rfl
  · unfold inDev
    have hd : decide (devBase ≤ pa) = false := decide_eq_false (by unfold devBase; bv_omega)
    rw [hd]
    rfl

omit hx hp in
theorem physRead_before (n : Nat) (hpa : pa < s.cfg.ramSize) (hu : Before s u) :
    Ends (physRead cpuFault pa n) (fun _ t => Before s t) (fun _ e => Out e) u := by
  have hcfg : u.cfg = s.cfg := congrArg Guarded.cfg hu.guarded
  obtain ⟨hrom, hdev⟩ := not_window (u := u) (n := n) (by rw [hcfg]; exact hpa)
  unfold Ends physRead
  rw [hrom, hdev]
  split
  · rename_i h
    split at h
    · cases h
      exact hu
    · cases h
  · rename_i h
    split at h
    · cases h
    · cases h
      exact busState_out cpuFault_out pa u

omit hx hp in
theorem physReadBytes_before {ps : List Word} (i : Nat) (hps : ∀ q ∈ ps, q < s.cfg.ramSize)
    (hu : Before s u) :
    Ends (physReadBytes cpuFault ps i) (fun _ t => Before s t) (fun _ e => Out e) u := by
  induction ps generalizing i u with
  | nil => exact hu
  | cons q qs ih =>
    refine (physRead_before 1 (hps q List.mem_cons_self) hu).bind fun _ t₁ _ h₁ => ?_
    exact (ih (i + 1) (fun r hr => hps r (List.mem_cons_of_mem q hr)) h₁).bind fun _ t₂ _ h₂ => h₂

omit hx hp in
theorem physWrite_isolated (v : Word) {n : Nat} (hpa : pa < s.cfg.ramSize)
    (hw : ∀ k, k < n → Writable s (pa + BitVec.ofNat 32 k)) (hu : Isolated s u) :
    Ends (physWrite cpuFault pa v n) (fun _ t => Isolated s t) (fun _ e => Out e) u := by
  have hcfg : u.cfg = s.cfg := congrArg Guarded.cfg hu.guarded
  obtain ⟨-, hdev⟩ := not_window (u := u) (n := n) (by rw [hcfg]; exact hpa)
  unfold Ends physWrite
  rw [hdev]
  split
  · rename_i h
    split at h
    · cases h
      obtain ⟨d, hd⟩ := ramWrite_form pa v n u
      rw [hd]
      refine ⟨hu.guarded, fun a ha => ?_⟩
      by_cases hlt : (a - pa).toNat < n
      · have ha' : pa + BitVec.ofNat 32 (a - pa).toNat = a := by bv_omega
        exact .inl (ha' ▸ hw _ hlt)
      · have hsame : storeBytes u.mem pa n (byteOf v) a = u.mem a := if_neg hlt
        change storeBytes u.mem pa n (byteOf v) a ≠ s.mem a at ha
        change _ ∨ (_ ∧ Gains 0x30 (s.mem a) (storeBytes u.mem pa n (byteOf v) a))
        rw [hsame] at ha ⊢
        exact hu.mem a ha
    · cases h
  · rename_i h
    split at h
    · cases h
    · cases h
      exact busState_out cpuFault_out pa u

omit hx hp in
theorem physWriteBytes_isolated (v : Word) {ps : List Word} (i : Nat)
    (hps : ∀ q ∈ ps, q < s.cfg.ramSize ∧ Writable s q) (hu : Isolated s u) :
    Ends (physWriteBytes cpuFault v ps i) (fun _ t => Isolated s t) (fun _ e => Out e) u := by
  induction ps generalizing i u with
  | nil => exact hu
  | cons q qs ih =>
    obtain ⟨hq, hw⟩ := hps q List.mem_cons_self
    have hone : ∀ k, k < 1 → Writable s (q + BitVec.ofNat 32 k) := by
      intro k hk
      rw [show q + BitVec.ofNat 32 k = q by bv_omega]
      exact hw
    refine (physWrite_isolated _ hq hone hu).bind fun _ t₁ _ h₁ => ?_
    exact ih (i + 1) (fun r hr => hps r (List.mem_cons_of_mem q hr)) h₁

omit hx hp in
theorem pos_of_bytewise {va : Word} {n : Nat} (h : bytewise u va n user = true) : 0 < n := by
  unfold bytewise at h
  rw [Bool.and_eq_true, decide_eq_true_eq] at h
  omega

theorem Before.xlActive (hu : Before s u) : u.xlActive = true := by
  unfold Machine.xlActive
  rw [hu.extOn, hu.pgOn, hx, hp]
  rfl

include hU

theorem vmRead_before (va : Word) (n : Nat) (hu : Before s u) :
    Ends (vmRead cpuFault va n true) (fun _ t => Before s t) (fun _ e => Out e) u := by
  unfold vmRead
  rw [ends_get, hu.xlActive hx hp]
  simp only [Bool.not_true, Bool.false_eq_true, ↓reduceIte]
  by_cases hbw : bytewise u va n true = true
  · rw [if_pos hbw]
    refine (translateBytes_before hx hp va .r n 0 hu).bind fun ps t _ ht => ?_
    obtain ⟨hb, hwalk, hmem⟩ := ht
    have hram : ∀ q ∈ ps, q < s.cfg.ramSize := by
      intro q hq
      obtain ⟨va', h⟩ := hmem q hq
      exact walk_user_ram hU h
    split
    · exact physRead_before n (walk_user_ram hU (hwalk 0 (pos_of_bytewise hbw))) hb
    · exact physReadBytes_before 0 hram hb
  · rw [if_neg hbw]
    refine (translate_before hx hp va .r hu).bind fun pa t _ ht => ?_
    exact physRead_before n (walk_user_ram hU ht.2) ht.1

theorem vmWrite_isolated (va v : Word) (n : Nat) (hu : Before s u) :
    Ends (vmWrite cpuFault va v n true) (fun _ t => Isolated s t) (fun _ e => Out e) u := by
  unfold vmWrite
  rw [ends_get, hu.xlActive hx hp]
  simp only [Bool.not_true, Bool.false_eq_true, ↓reduceIte]
  by_cases hbw : bytewise u va n true = true
  · rw [if_pos hbw]
    refine (translateBytes_before hx hp va .w n 0 hu).bind fun ps t _ ht => ?_
    obtain ⟨hb, hwalk, hmem⟩ := ht
    have hps : ∀ q ∈ ps, q < s.cfg.ramSize ∧ Writable s q := by
      intro q hq
      obtain ⟨va', h⟩ := hmem q hq
      exact ⟨walk_user_ram hU h, va', h⟩
    split
    · rename_i hcont
      have hwalk' : ∀ k, k < n → walk s (va + BitVec.ofNat 32 k) .w true = .ok (ps.getD k 0) := by
        intro k hk
        have h := hwalk k hk
        rwa [Nat.zero_add] at h
      refine physWrite_isolated v (walk_user_ram hU (hwalk 0 (pos_of_bytewise hbw)))
        (fun k hk => ?_) hb.isolated
      -- the physical addresses follow each other
      have hk' : ps.getD k 0 = ps.getD 0 0 + BitVec.ofNat 32 k := by
        unfold contiguous at hcont
        simp only [Bool.or_eq_true, Bool.and_eq_true, beq_iff_eq] at hcont
        rcases hcont with ⟨rfl, hlast⟩ | ⟨rfl, hlast⟩
        · exact walk_contiguous hwalk' hlast hk
        · match k, hk with
          | 0, _ => bv_omega
          | 1, _ => exact hlast
      rw [← hk']
      exact ⟨_, hwalk' k hk⟩
    · exact physWriteBytes_isolated v 0 hps hb.isolated
  · rw [if_neg hbw]
    refine (translate_before hx hp va .w hu).bind fun pa t _ ht => ?_
    refine physWrite_isolated v (walk_user_ram hU ht.2) (fun k hk => ?_) ht.1.isolated
    refine ⟨_, walk_add ht.2 ?_⟩
    -- the access does not cross the page
    unfold bytewise at hbw
    rw [hu.pgOn, hp] at hbw
    simp only [Bool.not_true, Bool.false_and, Bool.or_false, Bool.and_eq_true, decide_eq_true_eq,
      not_and, not_lt] at hbw
    have hoff := toNat_pageOff va
    by_cases h1 : 1 < n
    · have := hbw h1
      omega
    · omega

end Accesses

/-! ## Fetch and instructions -/

section Step

variable {s : Machine} (hx : s.extOn = true) (hp : s.pgOn = true) (hm : s.cpu.mode = .user)
  (hU : UserInRam s)

/-- The routine belongs to the first phase. -/
abbrev Stays (s : Machine) {α : Type} (x : M α) : Prop := Phase.Settles (Before s) (fun _ => Out) x

include hx hp hm hU

theorem memRead_stays (va : Word) (n : Nat) : Stays s (memRead va n) := by
  intro u hu
  unfold memRead
  rw [ends_get, hu.isUser hm, hu.extOn, hx]
  exact vmRead_before hx hp hU va n hu

theorem memWrite_commits (va v : Word) (n : Nat) :
    Phase.Commits (Before s) (Isolated s) (fun _ => Out) (memWrite va v n) := by
  intro u hu
  unfold memWrite
  rw [ends_get, hu.isUser hm]
  exact vmWrite_isolated hx hp hU va v n hu

theorem fetchSlow_stays (pc : Word) : Stays s (fetchSlow cpuFault pc) := by
  intro u hu
  unfold fetchSlow
  rw [ends_get, hu.isUser hm, hu.pgOn, hp]
  simp only [Bool.not_true, Bool.and_false, Bool.false_and, Bool.false_eq_true, ↓reduceIte]
  refine (translate_before hx hp pc .x hu).bind fun pa t _ ht => ?_
  rw [ends_get]
  split
  · exact ht.1.congr rfl rfl rfl rfl
  · split
    · exact ht.1.congr rfl rfl rfl rfl
    · exact (physRead_before 1 (walk_user_ram hU ht.2) ht.1).bind fun _ _ _ h => h

theorem fetchAt_stays (pc : Word) : Stays s (fetchAt cpuFault pc) :=
  Phase.settles_read fun _ => Sequenced.branch (Phase.settles_sequenced.pure _)
    (fetchSlow_stays hx hp hm hU pc)

theorem nextInstruction_stays (pc : Word) : Stays s (nextInstruction pc) :=
  nextInstruction_of Phase.settles_sequenced Phase.settles_read (fetchAt_stays hx hp hm hU)
    (fun _ _ _ hu => hu.congr rfl rfl rfl rfl) pc

omit hx hp hm hU in
/-- The flags a user program pops keep its interrupt and mode bits. -/
theorem popFlags_guarded (hu : u.cpu.mode = .user) (v : Word) :
    (cpuSetFlags ((v &&& ~~~(flagI ||| flagU)) |||
      ((if u.cpu.intEnabled then flagI else 0) ||| flagU)) u).guarded = u.guarded := by
  have hI : (((v &&& ~~~(flagI ||| flagU)) |||
      ((if u.cpu.intEnabled then flagI else 0) ||| flagU)) &&& flagI != 0) = u.cpu.intEnabled := by
    have hv : (v &&& ~~~(flagI ||| flagU)) &&& flagI = 0 := by
      rw [BitVec.and_assoc, show ~~~(flagI ||| flagU) &&& flagI = 0 by decide]
      exact BitVec.and_zero
    rw [BitVec.and_comm, BitVec.and_or_distrib_left, BitVec.and_comm flagI, hv]
    cases u.cpu.intEnabled <;> simp [flagI, flagU]
  have hM : (((v &&& ~~~(flagI ||| flagU)) |||
      ((if u.cpu.intEnabled then flagI else 0) ||| flagU)) &&& flagU != 0) = true := by
    rw [bne_iff_ne]
    intro h
    have h5 := congrArg (fun w => w.getLsbD 5) h
    simp [flagU] at h5
  have hform : ∀ f : Word, (cpuSetFlags f u).guarded = { u.guarded with
      intEnabled := f &&& flagI != 0
      mode := if f &&& flagU != 0 then .user else .supervisor } := fun _ => rfl
  rw [hform, hI, hM, if_pos rfl, ← hu]
  rfl

omit hx hp hm hU in
theorem modifyCpu_isolated {f : Cpu → Cpu}
    (hf : ∀ u : Machine, ({ u with cpu := f u.cpu } : Machine).guarded = u.guarded) :
    Phase.Plain (Isolated s) (modifyCpu f) := fun u hu => hu.congr (hf u) rfl

/-- The phases of an instruction of a user program. -/
theorem isolationRules : Phase.Rules (Before s) (Isolated s)
    (fun e => e.cpu.mode = .supervisor) (fun _ => Out) where
  ext hu := hu.extOn.trans hx
  commit hu := hu.isolated
  setReg _ _ := modifyCpu_isolated fun _ => rfl
  setPc _ := modifyCpu_isolated fun _ => rfl
  setSp _ := modifyCpu_isolated fun _ => rfl
  setFlags _ := modifyCpu_isolated fun _ => rfl
  popFlags v u hu := by
    have hmode : u.cpu.mode = .user := (congrArg Guarded.mode hu.guarded).trans hm
    rw [Phase.ends_getCpu]
    simp only [hmode, ↓reduceIte]
    exact hu.congr (popFlags_guarded hmode v) rfl
  memRead va n := memRead_stays hx hp hm hU va n
  memWrite va v n _ := memWrite_commits hx hp hm hU va v n
  fault _ _ := cpuFault_out _ _ _
  deliver {vec u} _ _ := by
    unfold cpuDeliver
    rw [ends_get]
    split
    · exact cpuFault_out _ _ _
    · rw [ends_modify]
      exact (enter_out cpuFault_out _ _ _ _).bind fun _ _ _ h => h
  wfi hu hs := by
    rw [hu.mode, hm] at hs
    cases hs
  mode := .inl fun _ hu => hu.mode.trans hm

theorem runInstruction_isolated (hc : TlbAgrees s) :
    Ends runInstruction (fun _ t => Isolated s t ∨ t.cpu.mode = .supervisor) (fun _ e => Out e) s := by
  have h₀ : Before s s := ⟨rfl, .refl s, hc⟩
  unfold runInstruction
  rw [Phase.ends_getCpu, Phase.ends_modifyCpu]
  have h₁ : Before s { s with cpu := { s.cpu with instPc := s.cpu.pc } } :=
    h₀.congr rfl rfl rfl rfl
  refine (nextInstruction_stays hx hp hm hU _ _ h₁).bind fun i u _ hu => ?_
  unfold setPc
  rw [Phase.ends_modifyCpu]
  have h₂ : Before s { u with cpu := { u.cpu with pc := s.cpu.pc + BitVec.ofNat 32 i.length } } :=
    hu.congr rfl rfl rfl rfl
  have hint : Phase.Finishes (Before s) (Isolated s) (fun e => e.cpu.mode = .supervisor)
      (fun _ => Out) (cpuInterrupt 0) :=
    fun u _ => (cpuInterrupt_out 0 u).mono (fun _ _ h => .inr h) fun _ _ h => h
  refine ((isolationRules hx hp hm hU).executeInstruction (.inl hint) _ h₂).bind fun _ t _ ht => ?_
  exact ht.imp (fun h => h.congr rfl rfl) id

end Step

/-- A step in which no device event is due and no interrupt is taken. -/
theorem stepOne_goesOn (hd : s.cpu.icount < s.dev.devNext) (hg : goesOn s = true) :
    stepOne s = runInstruction s := by
  have hdue : ¬ s.dev.devNext ≤ s.cpu.icount := by bv_omega
  have hev : afterEvents s = s := if_neg hdue
  have hirq : takeIrq s = .ok () s := by
    unfold goesOn at hg
    simp only [hev] at hg
    unfold takeIrq
    rw [get_bind_apply]
    cases hn : pendingLine s with
    | none => rfl
    | some n =>
      rw [hn] at hg
      simp only [decide_eq_false hdue, Bool.false_and, Bool.not_false, Option.isSome_some,
        Bool.true_and, Bool.not_eq_true'] at hg
      simp only [hg, Bool.false_eq_true, ↓reduceIte]
      rfl
  unfold stepOne stepRest
  rw [get_bind_apply, if_neg hdue, bind_ok hirq]

/-- **Isolation of user programs.**  With paging on, the tables in RAM, an
agreeing translation cache and no user page outside RAM, a step of a user program
in which the devices have nothing to do, and after which the machine is still
running in user mode, changes nothing guarded, and memory only where the tables
grant the user program write access or by accessed and dirty bits. -/
theorem user_isolated (s s' : Machine) (hx : s.extOn = true) (hp : s.pgOn = true)
    (hm : s.cpu.mode = .user) (hU : UserInRam s) (hc : TlbAgrees s)
    (hd : s.cpu.icount < s.dev.devNext) (hg : goesOn s = true) (h : cpuStep s = some s')
    (hm' : s'.cpu.mode = .user) (hrun : s'.cpu.halted = false) :
    s'.guarded = s.guarded ∧
      ∀ a, s'.mem a ≠ s.mem a →
        Writable s a ∨ (PteByte s a ∧ Gains 0x30 (s.mem a) (s'.mem a)) := by
  have hend := runInstruction_isolated hx hp hm hU hc
  have hout : ¬ Out s' := by
    rintro (h | h)
    · rw [hm'] at h
      cases h
    · rw [hrun] at h
      cases h
  have hstep := cpuStep_cases h
  rw [stepOne_goesOn hd hg] at hstep
  rcases hstep with hr | hr
  · rcases (ends_of_ok hr).1 hend with hi | hs
    · exact ⟨hi.guarded, hi.mem⟩
    · exact absurd (.inl hs) hout
  · exact absurd ((ends_of_error hr).1 hend) hout

/-! ## A user program in a single page -/

/-- A user program in extended mode with paging: the entries of the directory at
`0x1000` are all `pde`, those of the table at `0x2000` all `pte`, and the page at
`0x3000` holds `code`. -/
def paged (pde pte : Word) (code : List Byte) : Machine :=
  let s := cpuInitSize bareConfig bareHost
  let s := (((s.setCr crCtrl (cr0Ext ||| cr0Pg)).setCr crPtbase 0x1000).setCr crKsp 0x800).setCr
    crEvt 0x100
  { s with
    cpu := { s.cpu with mode := .user, sp := 0x700, regs := fun _ => 0x11223344 }
    mem := fun a =>
      if a < 0x1000 then 0
      else if a < 0x2000 then byteOf pde (a.toNat % 4)
      else if a < 0x3000 then byteOf pte (a.toNat % 4)
      else code.getD (a - 0x3000).toNat 0 }

/-- Every entry of the directory names the table at `0x2000`. -/
abbrev onePage : Word → List Byte → Machine := paged 0x2007

section OnePage

variable (pde pte : Word) (code : List Byte)

/-- A word of a block whose words are all `w`. -/
theorem ramRead_block {mem : Word → Byte} {a w : Word} (ha : Aligned a)
    (h : ∀ i, i < 4 → mem (a + BitVec.ofNat 32 i) =
      byteOf w ((a + BitVec.ofNat 32 i).toNat % 4)) : ramRead mem a 4 = w := by
  have hb (i : Nat) (hi : i < 4) : mem (a + BitVec.ofNat 32 i) = byteOf w i := by
    unfold Aligned at ha
    rw [h i hi, show (a + BitVec.ofNat 32 i).toNat % 4 = i by bv_omega]
  simp only [ramRead, rdBytes, hb 0 (by decide), hb 1 (by decide), hb 2 (by decide),
    hb 3 (by decide)]
  exact rd32_byteOf w

theorem paged_pdeAddr (va : Word) :
    (pdeAddr (paged pde pte code) va).toNat = 0x1000 + va.toNat / 2 ^ 22 * 4 := by
  change (pageOf 0x1000 + (va >>> 22) * 4).toNat = _
  have hp : pageOf (0x1000 : Word) = 0x1000 := by decide
  have hs := toNat_shiftRight va 22
  have hv := va.isLt
  rw [hp, BitVec.toNat_add, BitVec.toNat_mul, hs, show (4 : Word).toNat = 4 from rfl,
    show (0x1000 : Word).toNat = 0x1000 from rfl]
  omega

theorem onePage_pteAddr (va : Word) :
    (pteAddr 0x2007 va).toNat = 0x2000 + va.toNat / 2 ^ 12 % 2 ^ 10 * 4 := by
  have hp : pageOf (0x2007 : Word) = 0x2000 := by decide
  have hs := toNat_shiftRight va 12
  have hm : ((va >>> 12) &&& 0x3FF).toNat = (va >>> 12).toNat % 2 ^ 10 :=
    toNat_and_low _ 10 (by decide)
  unfold pteAddr
  rw [hp, BitVec.toNat_add, BitVec.toNat_mul, hm, hs, show (4 : Word).toNat = 4 from rfl,
    show (0x2000 : Word).toNat = 0x2000 from rfl]
  omega

theorem paged_pde (va : Word) : pdeOf (paged pde pte code) va = pde := by
  have ha := paged_pdeAddr pde pte code va
  have hv := va.isLt
  refine ramRead_block (pdeAddr_aligned _ va) fun i hi => ?_
  have h₁ : ¬ pdeAddr (paged pde pte code) va + BitVec.ofNat 32 i < 0x1000 := by bv_omega
  have h₂ : pdeAddr (paged pde pte code) va + BitVec.ofNat 32 i < 0x2000 := by bv_omega
  exact (if_neg h₁).trans (if_pos h₂)

theorem onePage_pte (va : Word) : pteOf (onePage pte code) va = pte := by
  have ha := onePage_pteAddr va
  unfold pteOf
  rw [paged_pde]
  refine ramRead_block (pteAddr_aligned _ va) fun i hi => ?_
  have h₁ : ¬ pteAddr 0x2007 va + BitVec.ofNat 32 i < 0x1000 := by bv_omega
  have h₂ : ¬ pteAddr 0x2007 va + BitVec.ofNat 32 i < 0x2000 := by bv_omega
  have h₃ : pteAddr 0x2007 va + BitVec.ofNat 32 i < 0x3000 := by bv_omega
  exact (if_neg h₁).trans ((if_neg h₂).trans (if_pos h₃))

theorem onePage_userInRam (h : pageOf pte = 0x3000) : UserInRam (onePage pte code) := by
  intro va _ _ _
  rw [onePage_pte]
  change pageOf pte ||| pageOff va < 0x100000
  have hf := toNat_frame pte va
  have hp := toNat_pageOf pte
  rw [h] at hp
  rw [BitVec.lt_def, hf, ← hp]
  change 0x3000 + va.toNat % 4096 < 0x100000
  omega

theorem onePage_agrees : TlbAgrees (onePage pte code) where
  tables va := by
    have hd : (pdeAddr (onePage pte code) va).toNat = _ := paged_pdeAddr 0x2007 pte code va
    have ht := onePage_pteAddr va
    have hv := va.isLt
    refine ⟨?_, fun _ => ?_⟩
    · rw [inRam_iff]
      change _ < (0x100000 : Word) ∧ 4 ≤ ((0x100000 : Word) - _).toNat
      bv_omega
    · rw [paged_pde, inRam_iff]
      change _ < (0x100000 : Word) ∧ 4 ≤ ((0x100000 : Word) - _).toNat
      bv_omega
  tlb va hg := by
    change (0 : Word) = 1 at hg
    cases hg

end OnePage

/-- What a step does to mode and running, and one more fact about its end. -/
theorem exists_step_with (s : Machine) (m : Mode) (b : Bool) (P : Machine → Bool)
    (h : (cpuStep s).any (fun s' => s'.cpu.mode == m && s'.cpu.halted == b && P s') = true) :
    ∃ s', cpuStep s = some s' ∧ s'.cpu.mode = m ∧ s'.cpu.halted = b ∧ P s' = true := by
  obtain ⟨s', hs, h⟩ := (Option.any_eq_true _ _).1 h
  simp only [Bool.and_eq_true, beq_iff_eq] at h
  exact ⟨s', hs, h.1.1, h.1.2, h.2⟩

/-- `STORE32 R0, 0x500`. -/
def storeProgram : List Byte := [0x21, 0x00, 0x00, 0x05, 0x00, 0x00]

/-- A store of a user program to its own page. -/
theorem user_isolated_store : ∃ s', cpuStep (onePage 0x303F storeProgram) = some s' ∧
    s'.mem 0x3500 = 0x44 ∧ s'.guarded = (onePage 0x303F storeProgram).guarded := by
  obtain ⟨s', hs, hm, hr, hv⟩ := exists_step_with (onePage 0x303F storeProgram) .user false
    (fun s' => s'.mem 0x3500 == 0x44) (by decide +kernel)
  refine ⟨s', hs, beq_iff_eq.1 hv, ?_⟩
  exact (user_isolated _ s' rfl rfl rfl (onePage_userInRam _ _ (by decide)) (onePage_agrees _ _)
    (by decide +kernel) (by decide +kernel) hs hm hr).1

/-- A step that starts and ends in user mode, with paging on and no user page
outside RAM. -/
structure UserStep (s s' : Machine) : Prop where
  ext : s.extOn = true
  pg : s.pgOn = true
  user : s.cpu.mode = .user
  inRam : UserInRam s
  step : cpuStep s = some s'
  user' : s'.cpu.mode = .user

/-- The same program when a device event is due. -/
def dueMachine : Machine :=
  let s := onePage 0x303F storeProgram
  { s with cpu := { s.cpu with icount := 1000 } }

/-- An interrupt is pending, and its handler is a single `IRET`. -/
def irqMachine : Machine :=
  let s := onePage 0x303F (List.replicate 0x180 0 ++ [0x00, 0x02] ++ List.replicate 0x7E 0 ++ [0x19])
  { s with dev := { s.dev with picPending := 1, picMask := 1 } }

/-- The translation cache still has an old entry for the page stored to. -/
def staleMachine : Machine :=
  let s := onePage 0x303F storeProgram
  { s with tlb := fun _ => ⟨1, 0x503F, 0x2000⟩, fTag := 0, fPtr := .ram 0x3000, fPpn := some 3 }

/-- The only page is not writable, so the entry for the page fault faults too. -/
def tripleMachine : Machine := onePage 0x303D storeProgram

/-- The tables are the registers of the timer, of which the first is an entry for the page. -/
def deviceMachine : Machine :=
  let s := paged 0xF0001007 0 storeProgram
  { s with cpu := { s.cpu with icount := 1 }, dev := { s.dev with tCount := 0x303F } }

/-- No entry that is in RAM has the `U` bit. -/
theorem deviceMachine_userInRam : UserInRam deviceMachine := by
  intro va _ hp _
  refine absurd ?_ hp
  have hpde : pdeOf deviceMachine va = 0xF0001007 := paged_pde ..
  have hpte : pteOf deviceMachine va = 0 := by
    unfold pteOf
    rw [hpde]
    refine ramRead_block (pteAddr_aligned _ va) fun i hi => ?_
    have hs := toNat_shiftRight va 12
    have hm : ((va >>> 12) &&& 0x3FF).toNat = (va >>> 12).toNat % 2 ^ 10 :=
      toNat_and_low _ 10 (by decide)
    have hpage : pageOf (0xF0001007 : Word) = 0xF0001000 := by decide
    unfold pteAddr
    rw [hpage]
    generalize (va >>> 12) &&& 0x3FF = k at hm
    have h₁ : ¬ 0xF0001000 + k * 4 + BitVec.ofNat 32 i < 0x1000 := by bv_omega
    have h₂ : ¬ 0xF0001000 + k * 4 + BitVec.ofNat 32 i < 0x2000 := by bv_omega
    have h₃ : ¬ 0xF0001000 + k * 4 + BitVec.ofNat 32 i < 0x3000 := by bv_omega
    have h₄ : storeProgram.length ≤ (0xF0001000 + k * 4 + BitVec.ofNat 32 i - 0x3000).toNat := by
      change 6 ≤ _
      bv_omega
    refine (if_neg h₁).trans ((if_neg h₂).trans ((if_neg h₃).trans ?_))
    rw [List.getD_eq_default _ _ h₄]
    simp [byteOf]
  rw [hpte]
  rfl

/-- No page of a machine with one page leads outside of it. -/
theorem onePage_writable {pte a : Word} {code : List Byte} (hp : pageOf pte = 0x3000)
    (h : Writable (onePage pte code) a) : pageOf a = 0x3000 := by
  obtain ⟨va, h⟩ := h
  rw [walk_ok h, onePage_pte, pageOf_or, hp]

/-- Where a step of a user program does reach further: a device event that is
due, an interrupt whose handler returns at once, an old entry in the translation
cache, tables in a device, and an exception that stops the machine. -/
theorem user_step_reaches_further :
    (∃ s', UserStep dueMachine s' ∧ s'.cpu.halted = false ∧
      s'.dev.pollAt ≠ dueMachine.dev.pollAt) ∧
    (∃ s', UserStep irqMachine s' ∧ s'.cpu.halted = false ∧
      s'.crOf crCause ≠ irqMachine.crOf crCause) ∧
    (∃ s', UserStep staleMachine s' ∧ s'.cpu.halted = false ∧
      s'.mem 0x5500 ≠ staleMachine.mem 0x5500 ∧ ¬ Writable staleMachine 0x5500) ∧
    (∃ s', UserStep deviceMachine s' ∧ s'.cpu.halted = false ∧
      s'.dev.tLast ≠ deviceMachine.dev.tLast) ∧
    ∃ s', UserStep tripleMachine s' ∧ s'.cpu.halted = true ∧
      s'.crOf crFaddr ≠ tripleMachine.crOf crFaddr := by
  refine ⟨?_, ?_, ?_, ?_, ?_⟩
  · obtain ⟨s', hs, hm, hr, hv⟩ := exists_step_with dueMachine .user false
      (fun s' => s'.dev.pollAt != dueMachine.dev.pollAt) (by decide +kernel)
    exact ⟨s', ⟨rfl, rfl, rfl, onePage_userInRam 0x303F storeProgram (by decide), hs, hm⟩, hr,
      bne_iff_ne.1 hv⟩
  · obtain ⟨s', hs, hm, hr, hv⟩ := exists_step_with irqMachine .user false
      (fun s' => s'.crOf crCause != irqMachine.crOf crCause) (by decide +kernel)
    exact ⟨s', ⟨rfl, rfl, rfl, onePage_userInRam 0x303F _ (by decide), hs, hm⟩, hr,
      bne_iff_ne.1 hv⟩
  · obtain ⟨s', hs, hm, hr, hv⟩ := exists_step_with staleMachine .user false
      (fun s' => s'.mem 0x5500 != staleMachine.mem 0x5500) (by decide +kernel)
    refine ⟨s', ⟨rfl, rfl, rfl, onePage_userInRam 0x303F storeProgram (by decide), hs, hm⟩, hr,
      bne_iff_ne.1 hv, fun h => ?_⟩
    have hw : Writable (onePage 0x303F storeProgram) 0x5500 := h
    exact absurd (onePage_writable (by decide) hw) (by decide)
  · obtain ⟨s', hs, hm, hr, hv⟩ := exists_step_with deviceMachine .user false
      (fun s' => s'.dev.tLast != deviceMachine.dev.tLast) (by decide +kernel)
    exact ⟨s', ⟨rfl, rfl, rfl, deviceMachine_userInRam, hs, hm⟩, hr, bne_iff_ne.1 hv⟩
  · obtain ⟨s', hs, hm, hr, hv⟩ := exists_step_with tripleMachine .user true
      (fun s' => s'.crOf crFaddr != tripleMachine.crOf crFaddr) (by decide +kernel)
    exact ⟨s', ⟨rfl, rfl, rfl, onePage_userInRam 0x303D storeProgram (by decide), hs, hm⟩, hr,
      bne_iff_ne.1 hv⟩

end Tortoise.Emu
