import Tortoise.Emu.Closure
import Tortoise.Emu.Translation

/-!
# Translation does not look at data

Two machines that differ in bytes written so far (`Over`) translate alike, as long as those bytes
are in no table entry that is looked at and the entry that is marked is not a device register:
`translate_alike` gives the same address or the same fault, and machines that still differ in
those bytes only.  Bytes can therefore be written before or after the translation of the next ones.

The condition on the marked entry is needed: a write to the network interface can make it deliver a
frame into RAM.
-/

namespace Tortoise.Emu

open Function Lib

variable {W : List (Word × Byte)} {s' : Machine} {α : Type} {a : Word}

/-! ## Bytes written so far -/

/-- A memory under bytes written later, the newest first. -/
def overlay : List (Word × Byte) → (Word → Byte) → Word → Byte
  | [], m => m
  | (a, b) :: W, m => update (overlay W m) a b

/-- None of the bytes is in the word at `a`. -/
def Off (W : List (Word × Byte)) (a : Word) : Prop := ∀ w ∈ W, 4 ≤ (w.1 - a).toNat

theorem overlay_of_not_mem {m : Word → Byte} {x : Word} (h : ∀ w ∈ W, w.1 ≠ x) :
    overlay W m x = m x := by
  induction W with
  | nil => rfl
  | cons w W ih =>
    obtain ⟨a, b⟩ := w
    rw [overlay, update_of_ne (h (a, b) List.mem_cons_self).symm]
    exact ih fun w hw => h w (List.mem_cons_of_mem _ hw)

theorem overlay_off (h : Off W a) (m : Word → Byte) {x : Word} (hx : (x - a).toNat < 4) :
    overlay W m x = m x := by
  refine overlay_of_not_mem fun w hw hwx => ?_
  have := h w hw
  rw [hwx] at this
  omega

theorem ramRead_overlay (h : Off W a) (m : Word → Byte) :
    ramRead (overlay W m) a 4 = ramRead m a 4 := by
  have hb (i : Nat) (hi : i < 4) :
      overlay W m (a + BitVec.ofNat 32 i) = m (a + BitVec.ofNat 32 i) :=
    overlay_off h m (by bv_omega)
  simp only [ramRead, rdBytes, hb 0 (by decide), hb 1 (by decide), hb 2 (by decide),
    hb 3 (by decide)]

theorem storeBytes_overlay (h : Off W a) (m : Word → Byte) (f : Nat → Byte) :
    storeBytes (overlay W m) a 4 f = overlay W (storeBytes m a 4 f) := by
  funext x
  unfold storeBytes
  by_cases hx : (x - a).toNat < 4
  · rw [if_pos hx, overlay_off h _ hx, if_pos hx]
  · rw [if_neg hx]
    induction W with
    | nil =>
      show m x = _
      rw [overlay, if_neg hx]
    | cons w W ih =>
      obtain ⟨b, c⟩ := w
      rw [overlay, overlay]
      by_cases hb : x = b
      · rw [hb, update_self, update_self]
      · rw [update_of_ne hb, update_of_ne hb]
        exact ih fun w hw => h w (List.mem_cons_of_mem _ hw)

/-! ## Machines that differ in data only -/

/-- The machine with another memory and other decoded instructions. -/
def Machine.putData (m : Word → Byte) (d : Nat → Option (Nat → DEnt)) (s : Machine) : Machine :=
  { s with mem := m, dcTab := d }

/-- A device is read alike whatever the memory holds. -/
theorem devRead_putData (m : Word → Byte) (d : Nat → Option (Nat → DEnt)) (s : Machine)
    (pa : Word) :
    devRead pa (s.putData m d) = (devRead pa s).map fun r => (r.1, r.2.putData m d) :=
  devRead_recast (fun x => { x with mem := m, dcTab := d }) s pa

theorem devRead_mem {pa : Word} {s : Machine} {r : Word × Machine} (h : devRead pa s = some r) :
    r.2.mem = s.mem := by
  have h' := devRead_putData s.mem s.dcTab s pa
  rw [show s.putData s.mem s.dcTab = s from rfl, h] at h'
  exact congrArg (fun r => r.2.mem) (Option.some.inj h')

/-- `t` is `s` with the bytes `W` written, whatever has happened to the decoded instructions. -/
def Over (W : List (Word × Byte)) (s t : Machine) : Prop :=
  ∃ d, t = s.putData (overlay W s.mem) d

/-- From `s₀` to `s` memory has changed in the words at `E` only. -/
def Untouched (E : List Word) (s₀ s : Machine) : Prop :=
  ∀ x, (∀ a ∈ E, 4 ≤ (x - a).toNat) → s.mem x = s₀.mem x

/-- Two results of one routine on such machines, the first from `s₀`: the same value or the same
fault, with no more than the words at `E` changed. -/
inductive Alike {α : Type} (F : Fault) (W : List (Word × Byte)) (E : List Word) (s₀ : Machine) :
    EStateM.Result Exit Machine α → EStateM.Result Exit Machine α → Prop
  | ok (v : α) {s t : Machine} (h : Over W s t) (hs : Untouched E s₀ s) :
      Alike F W E s₀ (.ok v s) (.ok v t)
  | fault (vec code : Word) {s t : Machine} (h : Over W s t) (hs : Untouched E s₀ s) :
      Alike F W E s₀ (.error .longjmp (F vec code s)) (.error .longjmp (F vec code t))

section

variable {F : Fault} {W : List (Word × Byte)} {E : List Word} {s₀ s t : Machine}

theorem Over.cfg (h : Over W s t) : t.cfg = s.cfg := by
  obtain ⟨d, rfl⟩ := h
  rfl

theorem Over.cpu (h : Over W s t) : t.cpu = s.cpu := by
  obtain ⟨d, rfl⟩ := h
  rfl

theorem Over.tlb (h : Over W s t) : t.tlb = s.tlb ∧ t.tlbGen = s.tlbGen := by
  obtain ⟨d, rfl⟩ := h
  exact ⟨rfl, rfl⟩

theorem Over.inRam (h : Over W s t) (a : Word) (n : Nat) : inRam t a n = inRam s a n := by
  unfold Emu.inRam
  rw [h.cfg]

theorem Over.setCr (h : Over W s t) (k : BitVec 4) (v : Word) :
    Over W (s.setCr k v) (t.setCr k v) := by
  obtain ⟨d, rfl⟩ := h
  exact ⟨d, rfl⟩

theorem Over.setTlb (h : Over W s t) (p : Nat) (e : TlbEnt) :
    Over W (setTlb p e s) (setTlb p e t) := by
  obtain ⟨d, rfl⟩ := h
  exact ⟨d, rfl⟩

theorem Untouched.refl (s : Machine) : Untouched E s s := fun _ _ => rfl

theorem Alike.bind {β : Type} {x y : M α} {f g : α → M β} (h : Alike F W E s₀ (x s) (y t))
    (hf : ∀ v s' t', x s = .ok v s' → Over W s' t' → Untouched E s₀ s' →
      Alike F W E s₀ (f v s') (g v t')) : Alike F W E s₀ ((x >>= f) s) ((y >>= g) t) := by
  rw [bind_apply, bind_apply]
  generalize hx : x s = r at h
  generalize y t = r' at h
  cases h with
  | ok v h hs => exact hf v _ _ hx h hs
  | fault vec code h hs => exact .fault vec code h hs

theorem pageFault_alike (h : Over W s t) (hs : Untouched E s₀ s) (va : Word) (acc : Acc)
    (user present : Bool) : Alike F W E s₀ (pageFault (α := α) F va acc user present s)
      (pageFault F va acc user present t) :=
  .fault _ _ (h.setCr _ _) hs

theorem cpuBusError_alike (h : Over W s t) (hs : Untouched E s₀ s) (hx : s.extOn = true)
    (a : Word) : Alike F W E s₀ (cpuBusError (α := α) F a s) (cpuBusError F a t) := by
  have hx' : t.extOn = true := by
    rw [Machine.extOn, h.cpu]
    exact hx
  rw [cpuBusError, cpuBusError, busState, busState, if_pos hx, if_pos hx']
  exact .fault _ _ (h.setCr _ _) hs

theorem physRead_alike (h : Over W s t) (hs : Untouched E s₀ s) (hx : s.extOn = true)
    (ha : Off W a) : Alike F W E s₀ (physRead F a 4 s) (physRead F a 4 t) := by
  unfold physRead
  rw [h.inRam, show inRom t a 4 = inRom s a 4 by unfold inRom; rw [h.cfg], h.cfg]
  split_ifs with hram hrom hdev
  · obtain ⟨d, rfl⟩ := h
    rw [show (s.putData (overlay W s.mem) d).mem = overlay W s.mem from rfl, ramRead_overlay ha]
    exact .ok _ ⟨d, rfl⟩ hs
  · exact .ok _ h hs
  · obtain ⟨d, rfl⟩ := h
    rw [devRead_putData]
    cases hr : devRead a s with
    | none => exact cpuBusError_alike ⟨d, rfl⟩ hs hx a
    | some r =>
      have hmem := devRead_mem hr
      refine .ok r.1 ⟨d, by rw [hmem]⟩ fun y hy => ?_
      rw [hmem]
      exact hs y hy
  · exact cpuBusError_alike h hs hx a

theorem ramWrite_over (h : Over W s t) (ha : Off W a) (v : Word) :
    Over W (ramWrite a v 4 s) (ramWrite a v 4 t) := by
  obtain ⟨d, rfl⟩ := h
  obtain ⟨d₁, h₁⟩ := ramWrite_form a v 4 s
  obtain ⟨d₂, h₂⟩ := ramWrite_form a v 4 (s.putData (overlay W s.mem) d)
  refine ⟨d₂, ?_⟩
  rw [h₁, h₂]
  unfold Machine.putData
  simp only [storeBytes_overlay ha]

theorem physWrite_alike (h : Over W s t) (hs : Untouched E s₀ s) (hx : s.extOn = true)
    (ha : Off W a) (haE : a ∈ E) (hdev : inDev a 4 = false) (v : Word) :
    Alike F W E s₀ (physWrite F a v 4 s) (physWrite F a v 4 t) := by
  unfold physWrite
  simp only [h.inRam, hdev, Bool.false_eq_true, ↓reduceIte]
  split_ifs with hram
  · refine .ok _ (ramWrite_over h ha v) fun x hE => ?_
    obtain ⟨d, hd⟩ := ramWrite_form a v 4 s
    have hfar := hE a haE
    rw [hd, ← hs x hE]
    exact if_neg (by omega)
  · exact cpuBusError_alike h hs hx a

theorem physRead_core {n : Nat} {v : Word} (h : physRead F a n s = .ok v s') : s'.core = s.core :=
  ((ends_of_ok h).1 (physRead_ends F a n s)).core

theorem physWrite_core {v : Word} (h : physWrite F a v 4 s = .ok () s') : s'.core = s.core :=
  ((ends_of_ok h).1 (physWrite_ends F a v le_rfl s)).core

theorem extOn_of_core (h : s'.core = s.core) : s'.extOn = s.extOn := by
  have hcr : s'.cpu.cr = s.cpu.cr := congrArg Core.cr h
  rw [Machine.extOn, hcr]
  rfl

end

/-! ## One translation -/

/-- The translation of `va` goes through the page tables. -/
def Machine.paged (s : Machine) : Bool := s.extOn && s.pgOn

/-- The table entries that `translate` looks at. -/
def uses (F : Fault) (va : Word) (acc : Acc) (user : Bool) (s : Machine) : List Word :=
  let e := s.tlb (pageNum va)
  if !s.paged then []
  else if e.gen ≠ s.tlbGen then
    match physRead F (pdeAddr s va) 4 s with
    | .ok pde _ =>
      if pde &&& pteP = 0 then [pdeAddr s va] else [pdeAddr s va, pteAddr pde va]
    | .error _ _ => [pdeAddr s va]
  else if !pteDenied e.pte acc user && acc = .w && e.pte &&& pteD = 0 then [e.ptePa]
  else []

/-- The entry that `translate` marks as accessed or dirty. -/
def marks (F : Fault) (va : Word) (acc : Acc) (user : Bool) (s : Machine) : List Word :=
  let e := s.tlb (pageNum va)
  if !s.paged then []
  else if e.gen ≠ s.tlbGen then
    match physRead F (pdeAddr s va) 4 s with
    | .ok pde s' =>
      if pde &&& pteP = 0 then []
      else
        match physRead F (pteAddr pde va) 4 s' with
        | .ok pte _ =>
          if pte &&& pteP = 0 || pteDenied pte acc user || touch pte acc = pte then []
          else [pteAddr pde va]
        | .error _ _ => []
    | .error _ _ => []
  else if !pteDenied e.pte acc user && acc = .w && e.pte &&& pteD = 0 then [e.ptePa]
  else []

section

variable {F : Fault} {W : List (Word × Byte)} {s t : Machine} {va : Word} {acc : Acc} {user : Bool}

variable (h : Over W s t)
  (hu : ∀ a ∈ uses F va acc user s, Off W a)
  (hm : ∀ a ∈ marks F va acc user s, inDev a 4 = false)

include h hu hm

theorem pgMiss_alike (hp : s.paged = true) (hmiss : (s.tlb (pageNum va)).gen ≠ s.tlbGen) :
    Alike F W (marks F va acc user s) s (pgMiss F va acc user s) (pgMiss F va acc user t) := by
  have hx : s.extOn = true := (Bool.and_eq_true_iff.1 hp).1
  have haddr : pdeAddr t va = pdeAddr s va := by
    unfold pdeAddr Machine.crOf
    rw [h.cpu]
  unfold pgMiss
  rw [get_bind_apply, get_bind_apply, haddr]
  have hdir : Off W (pdeAddr s va) := by
    refine hu _ ?_
    unfold uses
    simp only [hp, Bool.not_true, Bool.false_eq_true, ↓reduceIte, if_pos hmiss]
    split
    · split_ifs <;> simp
    · simp
  refine (physRead_alike h (Untouched.refl s) hx hdir).bind fun pde s₁ t₁ hpde h₁ hs₁ => ?_
  have hx₁ : s₁.extOn = true := (extOn_of_core (physRead_core hpde)).trans hx
  by_cases hP : pde &&& pteP = 0
  · simp only [hP, ↓reduceIte]
    exact pageFault_alike h₁ hs₁ va acc user false
  · simp only [hP, ↓reduceIte]
    have htab : Off W (pteAddr pde va) := by
      refine hu _ ?_
      unfold uses
      simp only [hp, Bool.not_true, Bool.false_eq_true, ↓reduceIte, if_pos hmiss, hpde, hP]
      simp
    refine (physRead_alike h₁ hs₁ hx₁ htab).bind fun pte s₂ t₂ hpte h₂ hs₂ => ?_
    have hx₂ : s₂.extOn = true := (extOn_of_core (physRead_core hpte)).trans hx₁
    by_cases hQ : pte &&& pteP = 0
    · simp only [hQ, ↓reduceIte]
      exact pageFault_alike h₂ hs₂ va acc user false
    · simp only [hQ, ↓reduceIte]
      by_cases hd : pteDenied pte acc user = true
      · simp only [hd, ↓reduceIte]
        exact pageFault_alike h₂ hs₂ va acc user true
      · simp only [hd, Bool.false_eq_true, ↓reduceIte]
        by_cases hn : touch pte acc = pte
        · simp only [hn, ne_eq, not_true_eq_false, ↓reduceIte]
          refine .ok _ ?_ hs₂
          dsimp only
          rw [h₂.tlb.2]
          exact h₂.setTlb _ _
        · simp only [hn, ne_eq, not_false_eq_true, ↓reduceIte]
          have hmark : pteAddr pde va ∈ marks F va acc user s := by
            unfold marks
            simp only [hp, Bool.not_true, Bool.false_eq_true, ↓reduceIte, if_pos hmiss, hpde, hP,
              hpte, hQ, hd, hn, decide_false, Bool.or_self]
            simp
          refine (physWrite_alike h₂ hs₂ hx₂ htab hmark (hm _ hmark) _).bind ?_
          intro _ s₃ t₃ _ h₃ hs₃
          refine .ok _ ?_ hs₃
          dsimp only
          rw [h₃.tlb.2]
          exact h₃.setTlb _ _

theorem pgHit_alike (hp : s.paged = true) (hhit : ¬(s.tlb (pageNum va)).gen ≠ s.tlbGen) :
    Alike F W (marks F va acc user s) s (pgHit F va acc user (s.tlb (pageNum va)) s)
      (pgHit F va acc user (s.tlb (pageNum va)) t) := by
  have hx : s.extOn = true := (Bool.and_eq_true_iff.1 hp).1
  unfold uses at hu
  unfold marks at hm ⊢
  simp only [hp, Bool.not_true, Bool.false_eq_true, ↓reduceIte, if_neg hhit] at hu hm ⊢
  generalize s.tlb (pageNum va) = e at hu hm ⊢
  unfold pgHit
  by_cases hd : pteDenied e.pte acc user = true
  · simp only [hd, ↓reduceIte]
    exact pageFault_alike h (Untouched.refl s) va acc user true
  · simp only [hd, Bool.false_eq_true, ↓reduceIte] at hu hm ⊢
    by_cases hw : acc = .w ∧ e.pte &&& pteD = 0
    · simp only [hw, and_self, decide_true, Bool.not_false, Bool.and_self, ↓reduceIte] at hu hm ⊢
      have hoff := hu e.ptePa (List.mem_singleton_self _)
      rw [modify_bind_apply, modify_bind_apply]
      refine (physRead_alike (h.setTlb _ _) (Untouched.refl s) hx hoff).bind ?_
      intro w s₁ t₁ hw₁ h₁ hs₁
      have hx₁ : s₁.extOn = true := (extOn_of_core (physRead_core hw₁)).trans hx
      refine (physWrite_alike h₁ hs₁ hx₁ hoff (List.mem_singleton_self _)
        (hm _ (List.mem_singleton_self _)) _).bind ?_
      intro _ s₂ t₂ _ h₂ hs₂
      exact .ok _ h₂ hs₂
    · simp only [hw, ↓reduceIte]
      exact .ok _ h (Untouched.refl s)

/-- **Translation does not look at data.**  On machines that differ in bytes outside the entries
looked at, a translation gives the same address or the same fault, and the machines still differ
in those bytes only. -/
theorem translate_alike :
    Alike F W (marks F va acc user s) s (translate F va acc user s)
      (translate F va acc user t) := by
  have hext : t.extOn = s.extOn := by unfold Machine.extOn; rw [h.cpu]
  have hpg : t.pgOn = s.pgOn := by unfold Machine.pgOn; rw [h.cpu]
  cases hp : s.paged with
  | true =>
    obtain ⟨hx, hg⟩ := Bool.and_eq_true_iff.1 hp
    rw [translate_paging F hx hg, translate_paging F (hext.trans hx) (hpg.trans hg), h.tlb.1,
      h.tlb.2]
    split_ifs with hhit
    · exact pgHit_alike h hu hm hp (not_not.2 hhit)
    · exact pgMiss_alike h hu hm hp hhit
  | false =>
    rw [translate_direct F hp, translate_direct F (by rw [hext, hpg]; exact hp), hext,
      show t.protOn = s.protOn by unfold Machine.protOn; rw [h.cpu],
      show t.crOf crLimit = s.crOf crLimit by unfold Machine.crOf; rw [h.cpu],
      show t.crOf crBase = s.crOf crBase by unfold Machine.crOf; rw [h.cpu]]
    split_ifs
    · exact .fault _ _ (h.setCr _ _) (Untouched.refl s)
    · exact .ok _ h (Untouched.refl s)
    · exact .ok _ h (Untouched.refl s)

end

end Tortoise.Emu
