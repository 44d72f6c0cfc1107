import Tortoise.Emu.Phases
import Tortoise.Emu.ByteAccess

/-!
# Exception frames

An exception entry pushes the saved words on the supervisor stack, through the
same translation as every other access.  Where the stack lies in RAM and apart
from the page tables (`StackInRam`), the pushes change nothing but the frame and
accessed and dirty bits, and what they wrote can be read back.

* `Pushed s W w d j u`: on the way from `s` to `u` the bytes of the frame from `j`
  on have been written, as `w` gives them; memory has changed only in `W` and by
  marks, and the devices by reads of their registers.  With `j` the length of the
  frame nothing is written yet.
* `vmWrite_pushed` is one push, `enter_entered` the whole entry; `Entered` says
  what the handler finds.
* `extIret_restores`: `IRET` undoes the entry.
-/

namespace Tortoise.Emu

open Lib List
open BitVec hiding not_and

variable {acc : Acc} {s t u t' : Machine} {i : Nat} {p : Nat → Word} {a v w va : Word}

/-! ## Where the supervisor's bytes are -/

/-- The physical address of a supervisor access. -/
def supAddr (s : Machine) (va : Word) (acc : Acc) : Option Word :=
  if s.pgOn then (walk s va acc false).toOption else some va

/-- With paging on, the tables are in RAM and the translation cache agrees with
them. -/
def Agrees (s : Machine) : Prop := s.pgOn = true → TlbAgrees s

/-- The length of the frame: a user program's stack pointer is part of it. -/
def frameLen (s : Machine) : Nat := if s.isUser then 12 else 8

theorem frameLen_bounds (s : Machine) : 8 ≤ frameLen s ∧ frameLen s ≤ 12 := by
  unfold frameLen
  split <;> decide

/-- The stack pointer an entry from `s` leaves, the address of the frame. -/
def frameBase (s : Machine) : Word :=
  (if s.isUser then s.crOf crKsp else s.cpu.sp) - BitVec.ofNat 32 (frameLen s)

/-- A physical byte of the frame. -/
def InFrame (s : Machine) (a : Word) : Prop :=
  ∃ k, k < frameLen s ∧ supAddr s (frameBase s + BitVec.ofNat 32 k) .w = some a

/-- A byte that belongs to no word of the page tables. -/
def Apart (s : Machine) (a : Word) : Prop :=
  ∀ va, 4 ≤ (a - pdeAddr s va).toNat ∧
    (pdeOf s va &&& pteP ≠ 0 → 4 ≤ (a - pteAddr (pdeOf s va) va).toNat)

/-- The frame goes to RAM, and with paging on to no word of the page tables. -/
def StackInRam (s : Machine) : Prop :=
  ∀ a, InFrame s a → a < s.cfg.ramSize ∧ (s.pgOn = true → Apart s a)

theorem supAddr_walk (hp : s.pgOn = true) :
    supAddr s va acc = some a ↔ walk s va acc false = .ok a := by
  unfold supAddr
  rw [if_pos hp]
  cases walk s va acc false with
  | error code => exact ⟨nofun, nofun⟩
  | ok pa => exact ⟨fun h => congrArg _ (Option.some.inj h), fun h => congrArg _ (Except.ok.inj h)⟩

theorem supAddr_off (h : supAddr s va acc = some a) : pageOff a = pageOff va := by
  by_cases hp : s.pgOn = true
  · rw [walk_ok ((supAddr_walk hp).1 h)]
    apply eq_of_toNat_eq
    rw [toNat_pageOff, toNat_frame, toNat_pageOff]
    omega
  · rw [supAddr, if_neg hp] at h
    cases h
    rfl

/-- Bytes less than a page apart do not meet. -/
theorem supAddr_ne {b : Word} {k : Nat} (ha : supAddr s (va + BitVec.ofNat 32 i) acc = some a)
    (hb : supAddr s (va + BitVec.ofNat 32 k) acc = some b) (hi : i < 4096) (hk : k < 4096)
    (hne : i ≠ k) : a ≠ b := by
  rintro rfl
  have h := (supAddr_off ha).symm.trans (supAddr_off hb)
  have hn := congrArg BitVec.toNat h
  rw [toNat_pageOff, toNat_pageOff, toNat_add, toNat_add, toNat_ofNat,
    toNat_ofNat] at hn
  omega

/-- What can be stored to can be read. -/
theorem supAddr_read (h : supAddr s va .w = some a) : supAddr s va .r = some a := by
  by_cases hp : s.pgOn = true
  · rw [supAddr_walk hp] at h ⊢
    obtain ⟨h₁, h₂, -, h₃⟩ := walk_eq_ok.1 h
    exact walk_eq_ok.2 ⟨h₁, h₂, by simp [pteDenied], h₃⟩
  · unfold supAddr at h ⊢
    rw [if_neg hp] at h ⊢
    exact h

/-- The state in which `step_one` fetches. -/
def fetching (s : Machine) : Machine := { s with cpu := { s.cpu with instPc := s.cpu.pc } }

theorem Agrees.fetching (h : Agrees s) : Agrees (fetching s) :=
  fun hp => (h hp).of_kept (Kept.congr rfl rfl rfl) rfl rfl

/-! ## What an entry keeps -/

/-- The registers that accesses keep.  A fault changes the fault address. -/
structure Held where
  cfg : Config
  regs : BitVec 3 → Word
  sp : Word
  flags : Byte
  intEnabled : Bool
  mode : Mode
  instPc : Word
  syscallPc : Word
  dcOn : Bool
  cr : BitVec 4 → Word

/-- What of `s` accesses keep. -/
def Machine.held (s : Machine) : Held where
  cfg := s.cfg
  regs := s.cpu.regs
  sp := s.cpu.sp
  flags := s.cpu.flags
  intEnabled := s.cpu.intEnabled
  mode := s.cpu.mode
  instPc := s.cpu.instPc
  syscallPc := s.cpu.syscallPc
  dcOn := s.dcOn
  cr := fun k => if k = crFaddr then 0 else s.cpu.cr k

theorem crOf_held (h : u.held = s.held) {k : BitVec 4} (hk : k ≠ crFaddr) :
    u.crOf k = s.crOf k := by
  have hc := congrFun (congrArg Held.cr h) k
  change (if k = crFaddr then 0 else u.cpu.cr k) = if k = crFaddr then 0 else s.cpu.cr k at hc
  rwa [if_neg hk, if_neg hk] at hc

theorem faddr_held (s : Machine) (v : Word) : (s.setCr crFaddr v).held = s.held := by
  have hcr : (fun k => if k = crFaddr then 0 else if k = crFaddr then v else s.cpu.cr k) =
      fun k => if k = crFaddr then 0 else s.cpu.cr k := by
    funext k
    by_cases hk : k = crFaddr
    · rw [if_pos hk, if_pos hk]
    · rw [if_neg hk, if_neg hk, if_neg hk]
  unfold Machine.held
  congr 1

/-- The devices, the host, and the registers of the processor that devices use. -/
structure Outside where
  halted : Bool
  exitCode : Nat
  diskSector : Word
  diskBuffer : Word
  icount : BitVec 64
  dev : Dev
  net : Net
  host : Host

/-- The devices of `s` and what is behind them. -/
def Machine.outside (s : Machine) : Outside where
  halted := s.cpu.halted
  exitCode := s.cpu.exitCode
  diskSector := s.cpu.diskSector
  diskBuffer := s.cpu.diskBuffer
  icount := s.cpu.icount
  dev := s.dev
  net := s.net
  host := s.host

/-- The devices have changed by reads of their registers alone. -/
inductive Loads (c : Config) (o : Outside) : Outside → Prop
  | refl : Loads c o o
  | read {pa v : Word} {s t : Machine} : Loads c o s.outside → s.cfg = c →
      devRead pa s = some (v, t) → Loads c o t.outside

/-- From `s` to `u` the bytes `w j, w (j + 1), …` of the frame have been written,
and memory has changed only in `W` and by marks. -/
structure Pushed (s : Machine) (W : Word → Prop) (w : Nat → Byte) (d j : Nat) (u : Machine) :
    Prop where
  held : u.held = s.held
  depth : u.cpu.depth = d
  loads : Loads s.cfg s.outside u.outside
  agrees : Agrees u
  kept : s.pgOn = true → ∀ va, Kept s u va
  bytes : ∀ k, j ≤ k → k < frameLen s →
    ∃ a, supAddr s (frameBase s + BitVec.ofNat 32 k) .w = some a ∧ u.mem a = w k
  mem : ∀ a, u.mem a ≠ s.mem a →
    W a ∨ (s.pgOn = true ∧ PteByte s a ∧ Gains 0x30 (s.mem a) (u.mem a))

theorem Apart.not_pteByte (h : Apart s a) : ¬ PteByte s a := by
  rintro ⟨va, hp, rfl⟩
  have h4 := (h va).2 hp
  rw [BitVec.sub_self] at h4
  exact absurd h4 (by decide)

theorem apart_kept (hk : ∀ va, Kept s u va) : Apart u a ↔ Apart s a := by
  refine forall_congr' fun va => ?_
  rw [(hk va).addr, (hk va).present, pteAddr_gains (hk va).dir]

theorem supAddr_kept (hp : u.pgOn = s.pgOn) (hk : s.pgOn = true → ∀ va, Kept s u va) (va : Word)
    (acc : Acc) : supAddr u va acc = supAddr s va acc := by
  unfold supAddr
  rw [hp]
  by_cases h : s.pgOn = true
  · rw [if_pos h, if_pos h, (hk h va).walk]
  · rw [if_neg h, if_neg h]

/-- Stores apart from the tables keep them. -/
theorem Kept.of_apart (hc : t.cfg = s.cfg) (hb : t.crOf crPtbase = s.crOf crPtbase)
    (h : ∀ a, t.mem a ≠ s.mem a → Apart s a) (va : Word) : Kept s t va := by
  have haddr : pdeAddr t va = pdeAddr s va := by
    unfold pdeAddr
    rw [hb]
  have hword {b : Word} (hb : ∀ a, Apart s a → 4 ≤ (a - b).toNat) :
      ramRead t.mem b 4 = ramRead s.mem b 4 := by
    have hbyte (i : Nat) (hi : i < 4) :
        t.mem (b + BitVec.ofNat 32 i) = s.mem (b + BitVec.ofNat 32 i) := by
      by_contra hne
      have h4 := hb _ (h _ hne)
      rw [show b + BitVec.ofNat 32 i - b = BitVec.ofNat 32 i by bv_omega,
        toNat_ofNat] at h4
      omega
    unfold ramRead rdBytes
    simp only [show ¬ (4 : Nat) = 1 by decide, show ¬ (4 : Nat) = 2 by decide, ↓reduceIte]
    rw [hbyte 0 (by decide), hbyte 1 (by decide), hbyte 2 (by decide), hbyte 3 (by decide)]
  have hd : pdeOf t va = pdeOf s va := by
    unfold pdeOf
    rw [haddr]
    exact hword fun a ha => (ha va).1
  refine ⟨hc, haddr, by rw [hd]; exact .refl _ _, fun hp => ?_⟩
  have ht : pteOf t va = pteOf s va := by
    unfold pteOf
    rw [hd]
    exact hword fun a ha => (ha va).2 hp
  rw [ht]
  exact .refl _ _

section Pushed

variable {s u t : Machine} {W : Word → Prop} {w : Nat → Byte} {d j : Nat}

theorem Pushed.start (hc : Agrees s) (W : Word → Prop) (w : Nat → Byte) :
    Pushed s W w s.cpu.depth (frameLen s) s where
  held := rfl
  depth := rfl
  loads := .refl
  agrees := hc
  kept _ va := .refl s va
  bytes _ h h' := absurd h' (Nat.not_lt.2 h)
  mem _ h := absurd rfl h

theorem Pushed.extOn (h : Pushed s W w d j u) : u.extOn = s.extOn :=
  (modes_congr (crOf_held h.held (by decide))).1

theorem Pushed.pgOn (h : Pushed s W w d j u) : u.pgOn = s.pgOn :=
  (modes_congr (crOf_held h.held (by decide))).2

theorem Pushed.isUser (h : Pushed s W w d j u) : u.isUser = s.isUser := by
  have hm : u.cpu.mode = s.cpu.mode := congrArg Held.mode h.held
  unfold Machine.isUser
  rw [hm]

theorem Pushed.supAddr (h : Pushed s W w d j u) (va : Word) (acc : Acc) :
    supAddr u va acc = supAddr s va acc :=
  supAddr_kept h.pgOn h.kept va acc

theorem Pushed.cfg (h : Pushed s W w d j u) : u.cfg = s.cfg := congrArg Held.cfg h.held

/-- With nothing of the frame counted as written, what is to be written may still
change. -/
theorem Pushed.restart (h : Pushed s W w d j u) (w' : Nat → Byte) :
    Pushed s W w' d (frameLen s) u :=
  { h with bytes := fun _ hk hk' => absurd hk' (Nat.not_lt.2 hk) }

/-- A change of what is not held: the depth apart, of the program counter, the
fetch page and the instruction cache, and of the devices by reads. -/
theorem Pushed.congr (h : Pushed s W w d j u) (hh : t.held = u.held) (hm : t.mem = u.mem)
    (htlb : t.tlb = u.tlb) (hg : t.tlbGen = u.tlbGen)
    (ho : Loads s.cfg s.outside t.outside) : Pushed s W w t.cpu.depth j t := by
  have hk : ∀ va, Kept u t va := Kept.congr (congrArg Held.cfg hh) (crOf_held hh (by decide)) hm
  have hpg : t.pgOn = u.pgOn := (modes_congr (crOf_held hh (by decide))).2
  exact {
    held := hh.trans h.held
    depth := rfl
    loads := ho
    agrees := fun hp => (h.agrees (hpg ▸ hp)).of_kept hk htlb hg
    kept := fun hp va => (h.kept hp va).trans (hk va)
    bytes := fun k hj hl => by
      rw [hm]
      exact h.bytes k hj hl
    mem := fun a ha => by
      rw [hm] at ha ⊢
      exact h.mem a ha }

theorem Pushed.faddr (h : Pushed s W w d j u) (v : Word) :
    Pushed s W w d j (u.setCr crFaddr v) := by
  have hc := h.congr (faddr_held u v) rfl rfl rfl h.loads
  exact h.depth ▸ hc

/-- Marks keep the frame, which is apart from the tables. -/
theorem Pushed.touched (hs : StackInRam s) (hp : s.pgOn = true) (h : Pushed s W w d j u)
    (ht : Touched u t) (hc : TlbAgrees t) : Pushed s W w d j t where
  held := by
    obtain ⟨mem, tlb, dc, rfl⟩ := ht.form
    exact h.held
  depth := by
    obtain ⟨mem, tlb, dc, rfl⟩ := ht.form
    exact h.depth
  loads := by
    obtain ⟨mem, tlb, dc, rfl⟩ := ht.form
    exact h.loads
  agrees _ := hc
  kept _ va := (h.kept hp va).trans (ht.marks.kept va)
  bytes k hj hl := by
    obtain ⟨a, ha, hw⟩ := h.bytes k hj hl
    refine ⟨a, ha, ?_⟩
    have hap : Apart s a := (hs a ⟨k, hl, ha⟩).2 hp
    by_contra hne
    rw [← hw] at hne
    exact hap.not_pteByte ((ht.marks.mem a hne).1.of_kept (h.kept hp))
  mem a ha := by
    by_cases h₁ : u.mem a = s.mem a
    · rw [← h₁] at ha ⊢
      obtain ⟨hb, hg⟩ := ht.marks.mem a ha
      exact .inr ⟨hp, hb.of_kept (h.kept hp), hg⟩
    · rcases h.mem a h₁ with hW | ⟨-, hb, hg⟩
      · exact .inl hW
      · by_cases h₂ : t.mem a = u.mem a
        · exact .inr ⟨hp, hb, h₂ ▸ hg⟩
        · exact .inr ⟨hp, hb, hg.trans (ht.marks.mem a h₂).2⟩

/-- Stores apart from the tables. -/
theorem Pushed.overwrite (h : Pushed s W w d j u) {m : Word → Byte} (dc : Nat → Option (Nat → DEnt))
    (hm : ∀ a, m a ≠ u.mem a → W a ∧ (s.pgOn = true → Apart s a)) :
    Pushed s W w d (frameLen s) { u with mem := m, dcTab := dc } := by
  have hkept (hpg : s.pgOn = true) (va : Word) : Kept u { u with mem := m, dcTab := dc } va :=
    Kept.of_apart (s := u) (t := { u with mem := m, dcTab := dc }) rfl rfl
      (fun a ha => (apart_kept (h.kept hpg)).2 ((hm a ha).2 hpg)) va
  exact {
    held := h.held
    depth := h.depth
    loads := h.loads
    agrees := fun hpg => by
      have hpu : u.pgOn = true := hpg
      exact (h.agrees hpu).of_kept (hkept (h.pgOn ▸ hpu)) rfl rfl
    kept := fun hpg va => (h.kept hpg va).trans (hkept hpg va)
    bytes := fun _ hk hk' => absurd hk' (Nat.not_lt.2 hk)
    mem := fun a ha => by
      by_cases hsame : m a = u.mem a
      · change m a ≠ s.mem a at ha
        change W a ∨ (s.pgOn = true ∧ PteByte s a ∧ Gains 0x30 (s.mem a) (m a))
        rw [hsame] at ha ⊢
        exact h.mem a ha
      · exact .inl (hm a hsame).1 }

/-- Four more bytes of the frame. -/
theorem Pushed.store (hs : StackInRam s) (hW : ∀ a, InFrame s a → W a)
    (h : Pushed s W w d (j + 4) u) {m : Word → Byte} {dc : Nat → Option (Nat → DEnt)}
    (hj : j + 4 ≤ frameLen s)
    (hp : ∀ k, k < 4 → Emu.supAddr s (frameBase s + BitVec.ofNat 32 (j + k)) .w = some (p k))
    (hw : ∀ k, k < 4 → m (p k) = w (j + k)) (hm : ∀ a, (∀ k, k < 4 → a ≠ p k) → m a = u.mem a) :
    Pushed s W w d j { u with mem := m, dcTab := dc } := by
  have hin (k : Nat) (hk : k < 4) : InFrame s (p k) := ⟨j + k, by omega, hp k hk⟩
  have hchanged (a : Word) (ha : m a ≠ u.mem a) : InFrame s a := by
    by_contra hno
    exact ha (hm a fun k hk hak => hno (hak ▸ hin k hk))
  have hlen := (frameLen_bounds s).2
  exact {
    h.overwrite dc fun a ha => ⟨hW a (hchanged a ha), (hs a (hchanged a ha)).2⟩ with
    bytes := fun k hjk hl => by
      by_cases hk : k < j + 4
      · refine ⟨p (k - j), ?_, ?_⟩
        · have h' := hp (k - j) (by omega)
          rwa [show j + (k - j) = k by omega] at h'
        · have h' := hw (k - j) (by omega)
          rwa [show j + (k - j) = k by omega] at h'
      · obtain ⟨a, ha, hb⟩ := h.bytes k (by omega) hl
        refine ⟨a, ha, (hm a fun i hi => ?_).trans hb⟩
        exact supAddr_ne ha (hp i hi) (by omega) (by omega) (by omega) }

end Pushed

/-! ## Accesses -/

section Accesses

variable {s : Machine} {W : Word → Prop} {w : Nat → Byte} {d j : Nat} {F : Fault}
  {Q : Machine → Prop} (hs : StackInRam s) (hx : s.extOn = true)
  (hF : ∀ vec code u, vec = vecBus ∨ vec = vecPf ∨ vec = vecGp → Pushed s W w d j u →
    Q (F vec code u))

include hx hF

theorem busState_pushed (hu : Pushed s W w d j u) (a : Word) : Q (busState F a u) := by
  unfold busState
  rw [if_pos (hu.extOn.trans hx)]
  exact hF _ _ _ (.inl rfl) (hu.faddr a)

theorem physRead_pushed (pa : Word) (n : Nat) :
    Phase.Settles (Pushed s W w d j) (fun _ => Q) (physRead F pa n) := by
  intro u hu
  rcases physRead_cases F pa n u with ⟨v, h⟩ | ⟨v, t, hd, h⟩ | h
  · exact (ends_of_ok h).2 hu
  · have hc := (devRead_dma hd).core
    -- all that is held is part of the core
    have hh : t.held = u.held := congrArg (fun c : Core => (⟨c.cfg, c.regs, c.sp, c.flags,
      c.intEnabled, c.mode, c.instPc, c.syscallPc, c.dcOn,
      fun k => if k = crFaddr then 0 else c.cr k⟩ : Held)) hc
    have hp := hu.congr hh (devRead_mem hd) (congrArg Core.tlb hc) (congrArg Core.tlbGen hc)
      (hu.loads.read hu.cfg hd)
    have hdep : t.cpu.depth = d := (congrArg Core.depth hc).trans hu.depth
    exact (ends_of_ok h).2 (hdep ▸ hp)
  · exact (ends_of_error h).2 (busState_pushed hx hF hu pa)

include hs

/-- A translation either faults or gives the address of the start. -/
theorem translate_pushed (va : Word) (acc : Acc) (user : Bool) (hu : Pushed s W w d j u) :
    Ends (translate F va acc user)
      (fun pa t => Pushed s W w d j t ∧ (user = false → supAddr s va acc = some pa) ∧
        (s.pgOn = true → walk s va acc user = .ok pa))
      (fun _ => Q) u := by
  by_cases hp : s.pgOn = true
  · rcases translate_marked F (hu.agrees (hu.pgOn.trans hp)) (hu.extOn.trans hx)
      (hu.pgOn.trans hp) va acc user with ⟨code, h, -⟩ | ⟨pa, t, h, hw, ht, hc⟩
    · exact (ends_of_error h).2 (hF _ _ _ (.inr (.inl rfl)) (hu.faddr va))
    · rw [(hu.kept hp va).walk] at hw
      refine (ends_of_ok h).2 ⟨hu.touched hs hp ht hc, ?_, fun _ => hw⟩
      rintro rfl
      exact (supAddr_walk hp).2 hw
  · have hpf : u.pgOn = false := by
      rw [hu.pgOn]
      exact Bool.eq_false_iff.2 hp
    have hsup : supAddr s va acc = some va := by
      unfold supAddr
      rw [if_neg hp]
    unfold translate
    rw [ends_get, hu.extOn, hx, hpf]
    simp only [Bool.not_true, Bool.false_eq_true, ↓reduceIte]
    split
    · rename_i hprot
      split
      · exact hF _ _ _ (.inr (.inr rfl)) (hu.faddr va)
      · refine ⟨hu, ?_, fun h => absurd h hp⟩
        rintro rfl
        rw [Bool.and_false] at hprot
        cases hprot
    · exact ⟨hu, fun _ => hsup, fun h => absurd h hp⟩

theorem translate_settles_pushed (va : Word) (acc : Acc) (user : Bool) :
    Phase.Settles (Pushed s W w d j) (fun _ => Q) (translate F va acc user) :=
  fun _ hu => (translate_pushed hs hx hF va acc user hu).mono (fun _ _ h => h.1) fun _ _ h => h

/-- The bytes of an access, translated one by one. -/
theorem translateBytes_pushed (va : Word) (acc : Acc) (user : Bool) (n i : Nat)
    (hu : Pushed s W w d j u) :
    Ends (translateBytes F va acc user n i)
      (fun ps t => Pushed s W w d j t ∧ ps.length = n ∧ (user = false → ∀ k, k < n →
        supAddr s (va + BitVec.ofNat 32 (i + k)) acc = some (ps.getD k 0)) ∧
        ∀ q ∈ ps, s.pgOn = true → ∃ va, walk s va acc user = .ok q)
      (fun _ => Q) u := by
  induction n generalizing i u with
  | zero => exact ⟨hu, rfl, fun _ => nofun, fun _ h => absurd h not_mem_nil⟩
  | succ n ih =>
    unfold translateBytes
    refine (translate_pushed hs hx hF _ acc user hu).bind fun q t₁ _ h₁ => ?_
    refine (ih (i + 1) h₁.1).bind fun qs t₂ _ h₂ => ?_
    refine ⟨h₂.1, congrArg (· + 1) h₂.2.1, fun huser k hk => ?_, fun p hp hpg => ?_⟩
    · cases k with
      | zero => exact h₁.2.1 huser
      | succ k =>
        have hk' := h₂.2.2.1 huser k (by omega)
        rwa [show i + 1 + k = i + (k + 1) by omega] at hk'
    · rcases mem_cons.1 hp with rfl | hp
      · exact ⟨_, h₁.2.2 hpg⟩
      · exact h₂.2.2.2 p hp hpg

omit hs in
theorem physReadBytes_pushed (ps : List Word) (i : Nat) :
    Phase.Settles (Pushed s W w d j) (fun _ => Q) (physReadBytes F ps i) := by
  have hseq := Phase.settles_sequenced (A := Pushed s W w d j) (L := fun _ => Q)
  induction ps generalizing i with
  | nil => exact hseq.pure _
  | cons p ps ih =>
    exact hseq.bind (physRead_pushed hx hF p 1) fun _ => hseq.bind (ih _) fun _ => hseq.pure _

theorem vmRead_pushed (va : Word) (n : Nat) (user : Bool) :
    Phase.Settles (Pushed s W w d j) (fun _ => Q) (vmRead F va n user) := by
  have hseq := Phase.settles_sequenced (A := Pushed s W w d j) (L := fun _ => Q)
  have hread := physRead_pushed hx hF
  refine Phase.settles_read fun t => Sequenced.branch (hread _ _) (Sequenced.branch ?_ ?_)
  · intro u hu
    refine (translateBytes_pushed hs hx hF va .r user n 0 hu).bind fun ps t _ ht => ?_
    exact (Sequenced.branch (hread _ _) (physReadBytes_pushed hx hF _ _) :
      Phase.Settles (Pushed s W w d j) (fun _ => Q) _) t ht.1
  · exact hseq.bind (translate_settles_pushed hs hx hF _ _ _) fun _ => hread _ _

theorem fetchAt_pushed (pc : Word) :
    Phase.Settles (Pushed s W w d j) (fun _ => Q) (fetchAt F pc) := by
  refine fetchAt_of Phase.settles_sequenced Phase.settles_read
    (translate_settles_pushed hs hx hF) (physRead_pushed hx hF) (fun tag ptr ppn u hu => ?_) pc
  have h := hu.congr (t := { u with fTag := tag, fPtr := ptr, fPpn := ppn }) rfl rfl rfl rfl
    hu.loads
  exact hu.depth ▸ h

end Accesses

/-! ## A store of the program -/

/-- A byte that the entry or a user program may store to. -/
def Storable (s : Machine) (a : Word) : Prop :=
  InFrame s a ∨ (s.pgOn = true → ∃ va, walk s va .w true = .ok a)

section Store

variable {s : Machine} {w : Nat → Byte} {d : Nat} {F : Fault} {Q : Machine → Prop}
  (hs : StackInRam s) (hx : s.extOn = true)
  (ht : s.pgOn = true → ∀ va a, walk s va .w true = .ok a → Apart s a)
  (hF : ∀ vec code u, vec = vecBus ∨ vec = vecPf ∨ vec = vecGp →
    Pushed s (Storable s) w d (frameLen s) u → Q (F vec code u))

include hx hF

/-- A bus error leaves nothing stored, unless the store is made byte by byte. -/
theorem physWrite_stored (pa v : Word) (n : Nat) (hu : Pushed s (Storable s) w d (frameLen s) u) :
    Ends (physWrite F pa v n) (fun _ _ => True) (fun _ => Q) u := by
  rcases physWrite_cases F pa v n u with ⟨-, h⟩ | ⟨t, -, h⟩ | h
  · exact (ends_of_ok h).2 trivial
  · exact (ends_of_ok h).2 trivial
  · exact (ends_of_error h).2 (busState_pushed hx hF hu pa)

include ht

theorem physWriteBytes_stored (v : Word) (ps : List Word) (i : Nat)
    (hps : ∀ q ∈ ps, s.pgOn = true → ∃ va, walk s va .w true = .ok q)
    (hu : Pushed s (Storable s) w d (frameLen s) u) :
    Ends (physWriteBytes F v ps i) (fun _ _ => True) (fun _ => Q) u := by
  induction ps generalizing i u with
  | nil => trivial
  | cons q ps ih =>
    have hq := hps q mem_cons_self
    refine Ends.bind (P := fun _ => Pushed s (Storable s) w d (frameLen s)) ?_
      fun _ t _ ht' => ih (i + 1) (fun p hp => hps p (mem_cons_of_mem q hp)) ht'
    unfold physWrite
    -- a device takes whole words only
    have hdev : inDev q 1 = false := by simp [inDev]
    rw [hdev]
    by_cases hr : inRam u q 1 = true
    · obtain ⟨dc, hdc⟩ := ramWrite_form q ((byteOf v i).setWidth 32) 1 u
      have hok : Pushed s (Storable s) w d (frameLen s)
          (ramWrite q ((byteOf v i).setWidth 32) 1 u) := by
        rw [hdc]
        refine hu.overwrite dc fun a ha => ?_
        obtain rfl : a = q := by
          by_contra hne
          refine ha ?_
          unfold storeBytes
          rw [if_neg]
          intro hlt
          exact hne (by bv_omega)
        refine ⟨.inr hq, fun hp => ?_⟩
        obtain ⟨va, hva⟩ := hq hp
        exact ht hp va a hva
      unfold Ends
      simp only [hr, ↓reduceIte]
      exact hok
    · unfold Ends
      simp only [hr, Bool.false_eq_true, ↓reduceIte]
      exact busState_pushed hx hF hu q

include hs

/-- **A store of a user program** succeeds or faults before it has changed the page
tables. -/
theorem vmWrite_stored (va v : Word) (n : Nat) (hu : Pushed s (Storable s) w d (frameLen s) u) :
    Ends (vmWrite F va v n true) (fun _ _ => True) (fun _ => Q) u := by
  unfold vmWrite
  rw [ends_get]
  split
  · exact physWrite_stored hx hF va v n hu
  · split
    · refine (translateBytes_pushed hs hx hF va .w true n 0 hu).bind fun ps t _ hps => ?_
      split
      · exact physWrite_stored hx hF _ v n hps.1
      · exact physWriteBytes_stored hx ht hF v ps 0 hps.2.2.2 hps.1
    · exact (translate_pushed hs hx hF va .w true hu).bind fun pa t _ ht =>
        physWrite_stored hx hF pa v n ht.1

end Store

/-! ## A push -/

section Push

variable {s : Machine} {W : Word → Prop} {w : Nat → Byte} {d j : Nat} {F : Fault}
  {Q : Machine → Prop} (hs : StackInRam s) (hx : s.extOn = true)
  (hW : ∀ a, InFrame s a → W a)

include hs hx hW

/-- **One push.** -/
theorem vmWrite_pushed
    (hF : ∀ vec code u, vec = vecBus ∨ vec = vecPf ∨ vec = vecGp → Pushed s W w d (j + 4) u →
      Q (F vec code u)) (hj : j + 4 ≤ frameLen s) (hv : ∀ k, k < 4 → byteOf v k = w (j + k))
    (hu : Pushed s W w d (j + 4) u) :
    Ends (vmWrite F (frameBase s + BitVec.ofNat 32 j) v 4 false)
      (fun _ t => Pushed s W w d j t) (fun _ => Q) u := by
  unfold Ends
  rw [vmWrite_eq (.inr rfl)]
  refine (translateBytes_pushed hs hx hF _ .w false 4 0 hu).bind fun ps t htr ht => ?_
  obtain ⟨htp, hl, hps, -⟩ := ht
  have hp (k : Nat) (hk : k < 4) :
      supAddr s (frameBase s + BitVec.ofNat 32 (j + k)) .w = some (ps.getD k 0) := by
    have h := hps rfl k hk
    rwa [Nat.zero_add, BitVec.add_assoc, ← ofNat_add] at h
  have hget {q : Word} (hq : q ∈ ps) : ∃ k, k < 4 ∧ q = ps.getD k 0 := by
    obtain ⟨k, hk, rfl⟩ := mem_iff_getElem.1 hq
    exact ⟨k, hl ▸ hk, (getD_eq_getElem _ _ hk).symm⟩
  have hram : ∀ q ∈ ps, inRam t q 1 = true := by
    intro q hq
    obtain ⟨k, hk, rfl⟩ := hget hq
    have hlt := (hs _ ⟨j + k, by omega, hp k hk⟩).1
    rw [← htp.cfg] at hlt
    exact inRam_iff.2 ⟨hlt, by bv_omega⟩
  -- the bytes of the frame are less than a page apart
  have hlen := (frameLen_bounds s).2
  have hnd : ps.Nodup := by
    rw [nodup_iff_injective_get]
    rintro ⟨a, ha⟩ ⟨b, hb⟩ hab
    by_contra hne
    have hne' : a ≠ b := fun h => hne (Fin.ext h)
    rw [get_eq_getElem, get_eq_getElem, ← getD_eq_getElem _ 0 ha,
      ← getD_eq_getElem _ 0 hb] at hab
    exact supAddr_ne (hp a (by omega)) (hp b (by omega)) (by omega) (by omega) (by omega) hab
  obtain ⟨dc, hw⟩ := writeAll_ram (v := v) (.inr rfl) htr hram
  refine (ends_of_ok hw).2 (htp.store hs hW hj hp (fun k hk => ?_) fun a ha => ?_)
  · rw [overlay_data hnd (hl ▸ hk), Nat.zero_add]
    exact hv k hk
  · refine overlay_of_not_mem fun x hx hxa => ?_
    obtain ⟨k, hk, hxk⟩ := hget (mem_data 0 ps hx)
    exact ha k hk (hxa.symm.trans hxk)

end Push

/-! ## Reading a frame back -/

/-- The supervisor's word at `va` is `w`, in RAM and apart from the page tables. -/
def HoldsWord (t : Machine) (va w : Word) : Prop :=
  ∀ k, k < 4 → ∃ a, supAddr t (va + BitVec.ofNat 32 k) .r = some a ∧ a < t.cfg.ramSize ∧
    (t.pgOn = true → Apart t a) ∧ t.mem a = byteOf w k

/-- What supervisor accesses that do not fault may change: marks with paging on,
and the caches. -/
structure Looked (t t' : Machine) : Prop where
  form : ∃ mem tlb dc, t' = { t with mem := mem, tlb := tlb, dcTab := dc }
  kept : ∀ va, Kept t t' va
  mem : ∀ a, t'.mem a ≠ t.mem a → t.pgOn = true ∧ PteByte t a
  agrees : Agrees t'

theorem Looked.refl (hc : Agrees t) : Looked t t :=
  ⟨⟨_, _, _, rfl⟩, .refl t, fun _ h => absurd rfl h, hc⟩

theorem Looked.cpu (h : Looked t t') : t'.cpu = t.cpu := by
  obtain ⟨mem, tlb, dc, rfl⟩ := h.form
  rfl

theorem Looked.pgOn (h : Looked t t') : t'.pgOn = t.pgOn := by
  unfold Machine.pgOn
  rw [h.cpu]

theorem Looked.extOn (h : Looked t t') : t'.extOn = t.extOn := by
  unfold Machine.extOn
  rw [h.cpu]

theorem Looked.trans {v : Machine} (h : Looked t u) (h' : Looked u v) : Looked t v where
  form := by
    obtain ⟨mem, tlb, dc, rfl⟩ := h.form
    obtain ⟨mem', tlb', dc', rfl⟩ := h'.form
    exact ⟨mem', tlb', dc', rfl⟩
  kept va := (h.kept va).trans (h'.kept va)
  mem a ha := by
    by_cases hu : u.mem a = t.mem a
    · rw [← hu] at ha
      obtain ⟨hp, hb⟩ := h'.mem a ha
      exact ⟨h.pgOn ▸ hp, hb.of_kept h.kept⟩
    · exact h.mem a hu
  agrees := h'.agrees

theorem Looked.supAddr (h : Looked t t') (va : Word) (acc : Acc) :
    supAddr t' va acc = supAddr t va acc :=
  supAddr_kept h.pgOn (fun _ => h.kept) va acc

theorem Looked.mem_apart (h : Looked t t') (ha : t.pgOn = true → Apart t a) :
    t'.mem a = t.mem a := by
  by_contra hne
  obtain ⟨hp, hpte⟩ := h.mem a hne
  exact (ha hp).not_pteByte hpte

/-- A held word stays where the tables and what is apart from them stay. -/
theorem HoldsWord.of_kept (h : HoldsWord t va w) (hc : u.cfg = t.cfg) (hp : u.pgOn = t.pgOn)
    (hk : t.pgOn = true → ∀ va, Kept t u va)
    (hm : ∀ a, (t.pgOn = true → Apart t a) → u.mem a = t.mem a) : HoldsWord u va w := by
  intro k hk4
  obtain ⟨a, ha, hr, hap, hb⟩ := h k hk4
  refine ⟨a, (supAddr_kept hp hk _ _).trans ha, hc ▸ hr, fun hu => ?_, (hm a hap).trans hb⟩
  rw [hp] at hu
  exact (apart_kept (hk hu)).2 (hap hu)

theorem HoldsWord.looked (hw : HoldsWord t va w) (h : Looked t t') : HoldsWord t' va w :=
  hw.of_kept (h.kept va).cfg h.pgOn (fun _ => h.kept) fun _ => h.mem_apart

/-- A mapped address is translated without a fault. -/
theorem translate_sup (F : Fault) (hx : t.extOn = true) (hc : Agrees t)
    (h : supAddr t va acc = some a) :
    ∃ t', translate F va acc false t = .ok a t' ∧ Looked t t' := by
  by_cases hp : t.pgOn = true
  · have hw := (supAddr_walk hp).1 h
    rcases translate_marked F (hc hp) hx hp va acc false with
      ⟨code, -, hno⟩ | ⟨pa, t', he, hok, ht, hc'⟩
    · rw [hw] at hno
      cases hno
    · rw [hw] at hok
      cases hok
      exact ⟨t', he, ht.form, ht.marks.kept, fun a ha => ⟨hp, (ht.marks.mem a ha).1⟩, fun _ => hc'⟩
  · have hpf := Bool.eq_false_iff.2 hp
    refine ⟨t, ?_, .refl hc⟩
    unfold supAddr at h
    rw [if_neg hp] at h
    cases h
    unfold translate
    rw [get_bind_apply, hx, hpf]
    simp

theorem translateBytes_sup (F : Fault) (hx : t.extOn = true) (hc : Agrees t) (n i : Nat)
    (h : ∀ k, k < i + n → supAddr t (va + BitVec.ofNat 32 k) acc = some (p k)) :
    ∃ t', translateBytes F va acc false n i t = .ok ((List.range' i n).map p) t' ∧ Looked t t' := by
  induction n generalizing i t with
  | zero => exact ⟨t, rfl, .refl hc⟩
  | succ n ih =>
    obtain ⟨t₁, h₁, hl₁⟩ := translate_sup F hx hc (h i (by omega))
    obtain ⟨t₂, h₂, hl₂⟩ := ih (hl₁.extOn.trans hx) hl₁.agrees (i + 1) fun k hk => by
      rw [hl₁.supAddr]
      exact h k (by omega)
    refine ⟨t₂, ?_, hl₁.trans hl₂⟩
    unfold translateBytes
    rw [bind_ok h₁, bind_ok h₂, List.range'_succ, map_cons]
    rfl

/-- **A word that is held is read.** -/
theorem vmRead_word (F : Fault) (hx : t.extOn = true) (hc : Agrees t) (hw : HoldsWord t va w) :
    ∃ t', vmRead F va 4 false t = .ok w t' ∧ Looked t t' := by
  choose! p hp hr hap hb using hw
  obtain ⟨t', h, hl⟩ := translateBytes_sup F hx hc 4 0 fun k hk => hp k (by omega)
  refine ⟨t', ?_, hl⟩
  have hram : ∀ q ∈ (List.range' 0 4).map p, inRam t' q 1 = true := by
    intro q hq
    obtain ⟨k, hk, rfl⟩ := mem_map.1 hq
    have hlt := hr k (mem_range'_1.1 hk).2
    rw [← (hl.kept va).cfg] at hlt
    exact inRam_iff.2 ⟨hlt, by bv_omega⟩
  have hb' (k : Nat) (hk : k < 4) : t'.mem (p k) = byteOf w k :=
    (hl.mem_apart (hap k hk)).trans (hb k hk)
  have hval : valueOf t'.mem 0 ((List.range' 0 4).map p) = w := by
    rw [← rd32_byteOf w, rd32_eq, ← hb' 0 (by decide), ← hb' 1 (by decide), ← hb' 2 (by decide),
      ← hb' 3 (by decide)]
    rfl
  rw [vmRead_eq (.inr rfl), bind_ok h, readAll_ram (.inr rfl) h hram, hval]

/-! ## The entry -/

/-- The bytes of the frame: the saved program counter, the flags and, from a user
program, its stack pointer. -/
def frameByte (s : Machine) (savepc : Word) (k : Nat) : Byte :=
  byteOf (if k < 4 then savepc else if k < 8 then cpuGetFlags s else s.cpu.sp) (k % 4)

theorem Pushed.getFlags {W : Word → Prop} {w : Nat → Byte} {d j : Nat} (h : Pushed s W w d j u) :
    cpuGetFlags u = cpuGetFlags s := by
  have hf : u.cpu.flags = s.cpu.flags := congrArg Held.flags h.held
  have hi : u.cpu.intEnabled = s.cpu.intEnabled := congrArg Held.intEnabled h.held
  unfold cpuGetFlags
  rw [hf, hi, h.isUser]

section Entry

variable {s : Machine} {W : Word → Prop} {w : Nat → Byte} {d j : Nat} {e : Machine}

theorem frame_savedPc (s : Machine) (savepc : Word) (k : Nat) (hk : k < 4) :
    byteOf savepc k = frameByte s savepc (0 + k) := by
  unfold frameByte
  rw [if_pos (by omega), show (0 + k) % 4 = k by omega]

theorem frame_flags (s : Machine) (savepc : Word) (k : Nat) (hk : k < 4) :
    byteOf (cpuGetFlags s) k = frameByte s savepc (4 + k) := by
  unfold frameByte
  rw [if_neg (by omega), if_pos (by omega), show (4 + k) % 4 = k by omega]

theorem frame_sp (s : Machine) (savepc : Word) (k : Nat) (hk : k < 4) :
    byteOf s.cpu.sp k = frameByte s savepc (8 + k) := by
  unfold frameByte
  rw [if_neg (by omega), if_neg (by omega), show (8 + k) % 4 = k by omega]

theorem frameLen_user (h : s.isUser = true) : frameLen s = 12 := by
  unfold frameLen
  rw [if_pos h]

/-- A stored frame can be read back. -/
theorem Pushed.holdsWord (hs : StackInRam s) (h : Pushed s W w d 0 t) {j : Nat}
    (hj : j + 4 ≤ frameLen s) (hv : ∀ k, k < 4 → byteOf v k = w (j + k)) :
    HoldsWord t (frameBase s + BitVec.ofNat 32 j) v := by
  intro k hk
  obtain ⟨a, ha, hb⟩ := h.bytes (j + k) (Nat.zero_le _) (by omega)
  obtain ⟨hr, hap⟩ := hs a ⟨j + k, by omega, ha⟩
  refine ⟨a, ?_, h.cfg ▸ hr, fun hp => ?_, hb.trans (hv k hk).symm⟩
  · rw [BitVec.add_assoc, ← BitVec.ofNat_add, h.supAddr]
    exact supAddr_read ha
  · rw [h.pgOn] at hp
    exact (apart_kept (h.kept hp)).2 (hap hp)

theorem Pushed.base (h : Pushed s W w d j u) : frameBase u = frameBase s := by
  have hsp : u.cpu.sp = s.cpu.sp := congrArg Held.sp h.held
  unfold frameBase frameLen
  rw [h.isUser, hsp, crOf_held h.held (by decide)]

/-- The frame has its place in all states of an entry. -/
theorem Pushed.stackInRam (hs : StackInRam s) (h : Pushed s W w d j u) : StackInRam u := by
  rintro a ⟨k, hk, ha⟩
  have hlen : frameLen u = frameLen s := by
    unfold frameLen
    rw [h.isUser]
  rw [h.base, h.supAddr] at ha
  obtain ⟨hr, hap⟩ := hs a ⟨k, hlen ▸ hk, ha⟩
  refine ⟨h.cfg ▸ hr, fun hp => ?_⟩
  rw [h.pgOn] at hp
  exact (apart_kept (h.kept hp)).2 (hap hp)

/-- A word that a read finds was there before the read. -/
theorem Pushed.held_before (h : Pushed u (fun _ => False) w d j t) (hw : HoldsWord t va v) :
    HoldsWord u va v := by
  intro k hk
  obtain ⟨a, ha, hr, hap, hb⟩ := hw k hk
  have hap' : u.pgOn = true → Apart u a := fun hp =>
    (apart_kept (h.kept hp)).1 (hap (h.pgOn.trans hp))
  refine ⟨a, (h.supAddr _ _).symm.trans ha, h.cfg ▸ hr, hap', ?_⟩
  rw [← hb]
  by_contra hne
  rcases h.mem a (Ne.symm hne) with hno | ⟨hp, hpte, -⟩
  · exact hno
  · exact (hap' hp).not_pteByte hpte

theorem HoldsWord.congr (h : HoldsWord t va v) (hm : e.mem = t.mem) (hcfg : e.cfg = t.cfg)
    (hctrl : e.crOf crCtrl = t.crOf crCtrl) (hpt : e.crOf crPtbase = t.crOf crPtbase) :
    HoldsWord e va v :=
  h.of_kept hcfg (modes_congr hctrl).2 (fun _ => Kept.congr hcfg hpt hm) fun a _ => congrFun hm a

/-- What the handler of vector `vec` finds after an entry from `s` that saves
`savepc`: the frame is where the stack pointer says, the handler is the word of
the vector, where that is in RAM, and the rest is as it was in `s`, but for the
fault address and for memory in `W`. -/
structure Entered (s : Machine) (W : Word → Prop) (vec savepc : Word) (e : Machine) : Prop where
  regs : e.cpu.regs = s.cpu.regs
  flags : e.cpu.flags = s.cpu.flags
  mode : e.cpu.mode = .supervisor
  intEnabled : e.cpu.intEnabled = false
  sp : e.cpu.sp = frameBase s
  cause : e.crOf crCause &&& 0xFF = vec
  cr : ∀ k, k ≠ crCause → k ≠ crFaddr → e.crOf k = s.crOf k
  handler : ∀ w, HoldsWord e (s.crOf crEvt + 4 * vec) w → e.cpu.pc = w
  mem : ∀ a, e.mem a ≠ s.mem a →
    W a ∨ (s.pgOn = true ∧ PteByte s a ∧ Gains 0x30 (s.mem a) (e.mem a))
  savedPc : HoldsWord e e.cpu.sp savepc
  savedFlags : HoldsWord e (e.cpu.sp + 4) (cpuGetFlags s)
  savedSp : s.isUser = true → HoldsWord e (e.cpu.sp + 8) s.cpu.sp

theorem Entered.setDepth {vec savepc : Word} (h : Entered s W vec savepc e) (n : Nat) :
    Entered s W vec savepc (setDepth n e) := { h with }

theorem cause_low (vec code : Word) :
    ((vec &&& 0xFF) ||| ((code &&& 0xFF) <<< 8)) &&& 0xFF = vec &&& 0xFF := by
  apply BitVec.eq_of_toNat_eq
  have h8 (x : Word) : (x &&& 0xFF).toNat = x.toNat % 2 ^ 8 := toNat_and_low x 8 (by decide)
  rw [h8, BitVec.toNat_or, Nat.or_mod_two_pow, h8, BitVec.toNat_shiftLeft, Nat.shiftLeft_eq]
  have hz : (code &&& 0xFF).toNat * 2 ^ 8 % 2 ^ 32 % 2 ^ 8 = 0 := by omega
  rw [hz, Nat.or_zero]
  change (vec &&& 0xFF).toNat % 2 ^ 8 = _
  rw [h8, Nat.mod_mod]

/-- The handler finds what was pushed. -/
theorem Pushed.entered (hs : StackInRam s) {vec savepc code h : Word}
    (ht : Pushed s W (frameByte s savepc) d 0 t) (hv : vec &&& 0xFF = vec)
    (hh : ∀ w, HoldsWord t (s.crOf crEvt + 4 * vec) w → h = w) :
    Entered s W vec savepc (entryRegs vec code (frameBase s) h t) := by
  have hword {j : Nat} (hj : j + 4 ≤ frameLen s) {v : Word}
      (hv : ∀ k, k < 4 → byteOf v k = frameByte s savepc (j + k)) :
      HoldsWord (entryRegs vec code (frameBase s) h t) (frameBase s + BitVec.ofNat 32 j) v :=
    (ht.holdsWord hs hj hv).congr rfl rfl rfl rfl
  have hlen := (frameLen_bounds s).1
  exact {
    regs := congrArg Held.regs ht.held
    flags := congrArg Held.flags ht.held
    mode := rfl
    intEnabled := rfl
    sp := rfl
    cause := (cause_low vec code).trans hv
    cr := fun k hk hk' => (if_neg hk).trans (crOf_held ht.held hk')
    handler := fun w hw => hh w (hw.congr rfl rfl rfl rfl)
    mem := ht.mem
    savedPc := by
      have h0 := hword (j := 0) (by omega) (frame_savedPc s savepc)
      rwa [show frameBase s + BitVec.ofNat 32 0 = frameBase s by bv_omega] at h0
    savedFlags := hword (j := 4) hlen (frame_flags s savepc)
    savedSp := fun hu => hword (j := 8) (frameLen_user hu).ge (frame_sp s savepc) }

end Entry

section Enter

variable {s : Machine} {W : Word → Prop} {d : Nat} {F : Fault} {Q : Machine → Prop}
  {savepc : Word} (hs : StackInRam s) (hx : s.extOn = true) (hW : ∀ a, InFrame s a → W a)
  (hF : ∀ j vec code u, vec = vecBus ∨ vec = vecPf ∨ vec = vecGp →
    Pushed s W (frameByte s savepc) d j u → Q (F vec code u))

include hs hx hW hF

/-- The stack pointer of a user program goes into the frame first. -/
theorem entryStack_entered (hu : Pushed s W (frameByte s savepc) d (frameLen s) u) :
    Ends (entryStack F)
      (fun sp t => sp = frameBase s + BitVec.ofNat 32 8 ∧ Pushed s W (frameByte s savepc) d 8 t)
      (fun _ => Q) u := by
  have hsp : u.cpu.sp = s.cpu.sp := congrArg Held.sp hu.held
  unfold entryStack
  rw [ends_get, hu.isUser]
  by_cases hm : s.isUser = true
  · have hlen := frameLen_user hm
    have hksp : u.crOf crKsp - 4 = frameBase s + BitVec.ofNat 32 8 := by
      unfold frameBase
      rw [if_pos hm, hlen, crOf_held hu.held (by decide)]
      bv_omega
    rw [if_pos hm, hksp, hsp]
    rw [hlen] at hu
    exact (vmWrite_pushed hs hx hW (hF 12) hlen.ge (frame_sp s savepc) hu).bind
      fun _ t _ ht => ⟨rfl, ht⟩
  · have hlen : frameLen s = 8 := by
      unfold frameLen
      rw [if_neg hm]
    rw [if_neg hm]
    rw [hlen] at hu
    refine ⟨?_, hu⟩
    unfold frameBase
    rw [if_neg hm, hlen, hsp]
    bv_omega

omit hW hF in
/-- The handler is the word of its vector. -/
theorem vmRead_handler {w : Nat → Byte} {j : Nat} {h : Word} (hu : Pushed s W w d j u)
    (hr : vmRead F va 4 false u = .ok h t) (hv : HoldsWord t va v) : h = v := by
  have hread := vmRead_pushed (Q := fun _ => True) (F := F) (hu.stackInRam hs) (hu.extOn.trans hx)
    (fun _ _ _ _ _ => trivial) va 4 false u (Pushed.start hu.agrees (fun _ => False) w)
  have ht := (ends_of_ok hr).1 hread
  obtain ⟨t', hr', -⟩ := vmRead_word F (hu.extOn.trans hx) hu.agrees (ht.held_before hv)
  rw [hr] at hr'
  cases hr'
  rfl

/-- **The entry** stores the whole frame and goes to the handler, or a fault inside
it is raised. -/
theorem enter_entered {vec : Word} (code : Word)
    (hu : Pushed s W (frameByte s savepc) d (frameLen s) u) :
    Ends (enter F vec savepc code)
      (fun _ e => ∃ t h, Pushed s W (frameByte s savepc) d 0 t ∧
        (∀ w, HoldsWord t (s.crOf crEvt + 4 * vec) w → h = w) ∧
        e = entryRegs vec code (frameBase s) h t) (fun _ => Q) u := by
  have hlen := (frameLen_bounds s).1
  unfold enter
  rw [ends_get, hu.getFlags]
  refine (entryStack_entered hs hx hW hF hu).bind fun sp t ht₀ ht => ?_
  obtain ⟨rfl, ht⟩ := ht
  rw [show frameBase s + BitVec.ofNat 32 8 - 4 = frameBase s + BitVec.ofNat 32 4 by bv_omega,
    show frameBase s + BitVec.ofNat 32 8 - 8 = frameBase s + BitVec.ofNat 32 0 by bv_omega]
  refine (vmWrite_pushed hs hx hW (hF 8) hlen (frame_flags s savepc) ht).bind fun _ t₁ _ h₁ => ?_
  refine (vmWrite_pushed hs hx hW (hF 4) (by omega) (frame_savedPc s savepc) h₁).bind
    fun _ t₂ _ h₂ => ?_
  rw [ends_get, crOf_held h₂.held (by decide)]
  refine (vmRead_pushed hs hx (hF 0) _ 4 false t₂ h₂).bind fun h t₃ hr h₃ =>
    ⟨t₃, h, h₃, fun w hw => vmRead_handler hs hx h₂ hr hw, ?_⟩
  rw [show frameBase s + BitVec.ofNat 32 0 = frameBase s by bv_omega]

end Enter

/-! ## `IRET` -/

theorem memRead_word (hx : t.extOn = true) (hm : t.cpu.mode = .supervisor) (hc : Agrees t)
    (hw : HoldsWord t va w) : ∃ t', memRead va 4 t = .ok w t' ∧ Looked t t' := by
  obtain ⟨t', h, hl⟩ := vmRead_word cpuFault hx hc hw
  refine ⟨t', ?_, hl⟩
  have hu : t.isUser = false := by
    unfold Machine.isUser
    rw [hm]
    rfl
  unfold memRead
  rw [get_bind_apply, hx, hu]
  exact h

/-- **`IRET` takes the saved words back**: the program counter, the flags with the
mode and the interrupt enable, and the stack pointer, which for a user program is
the saved one and otherwise the one above the frame. -/
theorem extIret_restores (hx : t.extOn = true) (hm : t.cpu.mode = .supervisor) (hc : Agrees t)
    {pc fl sp : Word} (h₀ : HoldsWord t t.cpu.sp pc) (h₁ : HoldsWord t (t.cpu.sp + 4) fl)
    (h₂ : if fl &&& flagU ≠ 0 then HoldsWord t (t.cpu.sp + 8) sp else sp = t.cpu.sp + 8) :
    ∃ t', Looked t t' ∧ extIret t = .ok () (fetchInval { t' with cpu := { t.cpu with
      pc := pc
      flags := fl.setWidth 8 &&& 0x0F
      intEnabled := fl &&& flagI != 0
      mode := if fl &&& flagU != 0 then Mode.user else Mode.supervisor
      sp := sp } }) := by
  obtain ⟨t₁, hr₁, hl₁⟩ := memRead_word hx hm hc h₀
  have hm₁ : t₁.cpu.mode = .supervisor := by rw [hl₁.cpu, hm]
  obtain ⟨t₂, hr₂, hl₂⟩ := memRead_word (hl₁.extOn.trans hx) hm₁ hl₁.agrees (h₁.looked hl₁)
  have hl := hl₁.trans hl₂
  have hsp : ∃ t₃, iretSp fl (t.cpu.sp + 8) t₂ = .ok sp t₃ ∧ Looked t t₃ := by
    unfold iretSp
    by_cases hu : fl &&& flagU ≠ 0
    · rw [if_pos hu] at h₂ ⊢
      have hm₂ : t₂.cpu.mode = .supervisor := by rw [hl.cpu, hm]
      obtain ⟨t₃, hr₃, hl₃⟩ := memRead_word (hl.extOn.trans hx) hm₂ hl.agrees (h₂.looked hl)
      exact ⟨t₃, hr₃, hl.trans hl₃⟩
    · rw [if_neg hu] at h₂ ⊢
      exact ⟨t₂, by rw [h₂]; rfl, hl⟩
  obtain ⟨t₃, hr₃, hl₃⟩ := hsp
  refine ⟨t₃, hl₃, ?_⟩
  have hget : getCpu (·.sp) t = .ok t.cpu.sp t := rfl
  unfold extIret
  rw [bind_ok hget, bind_ok hr₁, bind_ok hr₂, bind_ok hr₃, ← hl₃.cpu]
  rfl

end Tortoise.Emu
