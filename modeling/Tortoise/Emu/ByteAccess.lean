import Tortoise.Emu.Marks
import Tortoise.Emu.Overlay

/-!
# Wide accesses and byte accesses

An access of two or four bytes is translated once, or byte by byte with a short cut when the
physical addresses turn out to be consecutive.  It is compared with the accesses to its bytes, one
after the other.

* After one translation the others of the same page are hits that change nothing
  (`translate_again`), so the single translation stands for all of them, and consecutive bytes of
  one page are consecutive in memory.  Two to four bytes touch two pages at most, so the last byte
  decides whether all are consecutive (`contiguous_run`).
* The bytes are written, or read, in the machines of `Tortoise.Emu.Overlay`.

The results are `memRead_eq_bytes`, an equation between routines, and `wide_access_bytes`.  Both need
one thing besides: an entry that is marked as accessed or dirty must not be a device register.
The network interface delivers a frame into RAM when its status is written, and then the order
matters (`memWrite_device_entry`).
-/

namespace Tortoise.Emu

open Function Lib List
open BitVec hiding not_or not_and

variable {F : Fault} {ps : List Word} {s₁ s₂ : Machine} {i n : Nat}

/-! ## The same page again -/

/-- The translation cache holds a live entry for `va` that lets the access pass without a change,
and `p` is the address it gives. -/
structure Live (s : Machine) (va : Word) (acc : Acc) (user : Bool) (p : Word) : Prop where
  gen : (s.tlb (pageNum va)).gen = s.tlbGen
  allowed : pteDenied (s.tlb (pageNum va)).pte acc user = false
  dirty : acc = .w → (s.tlb (pageNum va)).pte &&& pteD ≠ 0
  addr : p = pageOf (s.tlb (pageNum va)).pte ||| pageOff va

section

variable {F : Fault} {s s' : Machine} {va va' p q : Word} {acc : Acc} {user : Bool}

theorem setTlb_self (p : Nat) (e : TlbEnt) (s : Machine) : (setTlb p e s).tlb p = e := if_pos rfl

theorem core_tlb (h : s'.core = s.core) : s'.tlb = s.tlb ∧ s'.tlbGen = s.tlbGen :=
  ⟨congrArg Core.tlb h, congrArg Core.tlbGen h⟩

/-- What a translation leaves of the processor and the configuration. -/
structure SameMode (s s' : Machine) : Prop where
  cr : s'.cpu.cr = s.cpu.cr
  mode : s'.cpu.mode = s.cpu.mode
  cfg : s'.cfg = s.cfg

theorem SameMode.refl (s : Machine) : SameMode s s := ⟨rfl, rfl, rfl⟩

theorem SameMode.of_beside (h : Beside n s s') : SameMode s s' := ⟨h.cr, h.mode, h.cfg⟩

theorem SameMode.trans {s₃ : Machine} (h₁ : SameMode s₁ s₂) (h₂ : SameMode s₂ s₃) :
    SameMode s₁ s₃ :=
  ⟨h₂.cr.trans h₁.cr, h₂.mode.trans h₁.mode, h₂.cfg.trans h₁.cfg⟩

theorem SameMode.inRam (h : SameMode s s') (a : Word) (n : Nat) : inRam s' a n = inRam s a n := by
  unfold Emu.inRam
  rw [h.cfg]

theorem SameMode.paged (h : SameMode s s') : s'.paged = s.paged := by
  unfold Machine.paged Machine.extOn Machine.pgOn
  rw [h.cr]

theorem pgMiss_live (h : pgMiss F va acc user s = .ok p s') : Live s' va acc user p := by
  unfold pgMiss at h
  rw [get_bind_apply] at h
  obtain ⟨pde, s₁, -, h⟩ := bind_eq_ok h
  split at h
  · cases h
  obtain ⟨pte, s₂, -, h⟩ := bind_eq_ok h
  split at h
  · cases h
  split at h
  · cases h
  next hd =>
  -- the refill, once the entry in memory has been seen to
  have hfill (u : Machine) : Live (setTlb (pageNum va) ⟨u.tlbGen, touch pte acc, pteAddr pde va⟩ u)
      va acc user (pageOf (touch pte acc) ||| pageOff va) := by
    constructor
    · rw [setTlb_self]
      rfl
    · rw [setTlb_self, pteDenied_gains (touch_gains pte acc)]
      simpa using hd
    · rintro rfl
      rw [setTlb_self]
      exact touch_dirty pte
    · rw [setTlb_self]
  dsimp only at h
  split at h
  · obtain ⟨_, s₃, -, h⟩ := bind_eq_ok h
    cases h
    exact hfill s₃
  · cases h
    exact hfill s₂

theorem pgHit_live (hgen : (s.tlb (pageNum va)).gen = s.tlbGen)
    (h : pgHit F va acc user (s.tlb (pageNum va)) s = .ok p s') : Live s' va acc user p := by
  unfold pgHit at h
  split at h
  · cases h
  next hd =>
  have hallowed : pteDenied (s.tlb (pageNum va)).pte acc user = false := by simpa using hd
  dsimp only at h
  split at h
  · rw [modify_bind_apply] at h
    obtain ⟨w, s₁, hr, h⟩ := bind_eq_ok h
    obtain ⟨_, s₂, hw, h⟩ := bind_eq_ok h
    cases h
    obtain ⟨htlb, htgen⟩ := core_tlb ((physWrite_core hw).trans (physRead_core hr))
    have hent : s'.tlb (pageNum va) =
        { s.tlb (pageNum va) with pte := (s.tlb (pageNum va)).pte ||| pteD } := by
      rw [htlb, setTlb_self]
    have hgains : Gains pteAD (s.tlb (pageNum va)).pte ((s.tlb (pageNum va)).pte ||| pteD) :=
      Gains.or _ (by decide)
    constructor
    · rw [hent, htgen]
      exact hgen
    · rw [hent, pteDenied_gains hgains]
      exact hallowed
    · intro _
      rw [hent]
      exact or_ne_zero_right _ pteD (by decide)
    · rw [hent, pageOf_gains hgains]
  · next hw =>
    cases h
    exact ⟨hgen, hallowed, fun ha h0 => hw ⟨ha, h0⟩, rfl⟩

/-- A translation leaves the mode alone, and a live entry if it went through the tables. -/
theorem translate_live (h : translate F va acc user s = .ok p s') :
    (s.paged = true → Live s' va acc user p) ∧ SameMode s s' ∧
      (s.paged = false → s' = s ∧
        p = if s.extOn && s.protOn && user then s.crOf crBase + va else va) := by
  refine ⟨fun hp => ?_, SameMode.of_beside (translate_beside h), fun hp => ?_⟩
  · obtain ⟨hx, hg⟩ := Bool.and_eq_true_iff.1 hp
    rw [translate_paging F hx hg] at h
    split_ifs at h with hhit
    · exact pgHit_live hhit h
    · exact pgMiss_live h
  · rw [translate_direct F hp] at h
    split_ifs at h ⊢
    · cases h
      exact ⟨rfl, rfl⟩
    · cases h
      exact ⟨rfl, rfl⟩

/-- **After one translation**, those of the same page change nothing. -/
theorem translate_again (hp : s.paged = true) (h : translate F va acc user s = .ok p s')
    (hpage : pageNum va' = pageNum va) :
    translate F va' acc user s' = .ok (pageOf p ||| pageOff va') s' := by
  obtain ⟨hlive, hmode, -⟩ := translate_live h
  have hl := hlive hp
  have hp' : s'.paged = true := hmode.paged.trans hp
  obtain ⟨hx, hg⟩ := Bool.and_eq_true_iff.1 hp'
  have hframe : pageOf p = pageOf (s'.tlb (pageNum va)).pte := by
    rw [hl.addr, pageOf_or]
  rw [translate_paging F hx hg, hpage, if_pos hl.gen]
  unfold pgHit
  simp only [hl.allowed, Bool.false_eq_true, ↓reduceIte]
  have hw : ¬(acc = .w ∧ (s'.tlb (pageNum va)).pte &&& pteD = 0) := fun hw => hl.dirty hw.1 hw.2
  simp only [hw, ↓reduceIte, hframe]
  rfl

/-- Neither the page of the last byte nor anything else lies between two neighbouring bytes. -/
theorem translate_next {s'' : Machine}
    (hpage : s.paged = true → pageNum (va + BitVec.ofNat 32 (i + 1)) =
      pageNum (va + BitVec.ofNat 32 i))
    (h : translate F (va + BitVec.ofNat 32 i) acc user s = .ok p s')
    (h' : translate F (va + BitVec.ofNat 32 (i + 1)) acc user s' = .ok q s'') : q = p + 1 := by
  have hadd : va + BitVec.ofNat 32 (i + 1) = va + BitVec.ofNat 32 i + 1 := by
    rw [ofNat_add, BitVec.add_assoc]
    rfl
  cases hp : s.paged with
  | true =>
    rw [translate_again hp h (hpage hp)] at h'
    cases h'
    have hframe := ((translate_live h).1 hp).addr
    have hsame : (va + BitVec.ofNat 32 i + 1).toNat / 4096 =
        (va + BitVec.ofNat 32 i).toNat / 4096 := by
      rw [← hadd]
      exact hpage hp
    apply eq_of_toNat_eq
    rw [hadd, toNat_frame, hframe]
    generalize (s'.tlb (pageNum (va + BitVec.ofNat 32 i))).pte = e
    generalize va + BitVec.ofNat 32 i = x at hsame ⊢
    have hx := x.isLt
    have he := e.isLt
    have hone : (1 : Word).toNat = 1 := rfl
    simp only [toNat_add, hone, toNat_frame] at hsame ⊢
    omega
  | false =>
    obtain ⟨-, hmode, hsame⟩ := translate_live h
    obtain ⟨rfl, hpeq⟩ := hsame hp
    obtain ⟨-, -, hsame'⟩ := translate_live h'
    obtain ⟨-, hq⟩ := hsame' hp
    rw [hq, hpeq, hadd]
    split_ifs
    · exact (BitVec.add_assoc _ _ _).symm
    · rfl

end

/-! ## Consecutive addresses -/

/-- `n` consecutive addresses from `p + i` on. -/
def run (p : Word) : Nat → Nat → List Word
  | 0, _ => []
  | n + 1, i => (p + BitVec.ofNat 32 i) :: run p n (i + 1)

section

variable {F : Fault} {s s' : Machine} {va p : Word} {acc : Acc} {user : Bool}

theorem frame_add {e : Word} (hp : p = pageOf e ||| pageOff va)
    (hi : (pageOff va).toNat + i < 4096) :
    pageOf p ||| pageOff (va + BitVec.ofNat 32 i) = p + BitVec.ofNat 32 i := by
  have hv := va.isLt
  have he := e.isLt
  rw [toNat_pageOff] at hi
  apply eq_of_toNat_eq
  rw [hp]
  simp only [toNat_add, toNat_ofNat, toNat_frame]
  omega

theorem pageNum_add (hi : (pageOff va).toNat + i < 4096) :
    pageNum (va + BitVec.ofNat 32 i) = pageNum va := by
  have hv := va.isLt
  rw [toNat_pageOff] at hi
  unfold pageNum
  rw [toNat_add, toNat_ofNat]
  omega

/-- The bytes of one page behind the first one. -/
theorem translateBytes_page (hp : s.paged = true) (h : translate F va acc user s = .ok p s') :
    ∀ n i, (pageOff va).toNat + i + n ≤ 4096 →
      translateBytes F va acc user n i s' = .ok (run p n i) s' := by
  intro n
  induction n with
  | zero => exact fun i _ => rfl
  | succ n ih =>
    intro i hi
    have hnext : translate F (va + BitVec.ofNat 32 i) acc user s' =
        .ok (p + BitVec.ofNat 32 i) s' := by
      rw [translate_again hp h (pageNum_add (by omega)),
        frame_add ((translate_live h).1 hp).addr (by omega)]
    rw [translateBytes, bind_ok hnext, bind_ok (ih (i + 1) (by omega))]
    rfl

theorem translate_flat (hp : s.paged = false) (hprot : (s.extOn && s.protOn && user) = false) :
    translate F va acc user s = .ok va s := by
  rw [translate_direct F hp, hprot]
  rfl

/-- Without a translation every address is its own. -/
theorem flat_of_inactive (h : s.xlActive = false) :
    s.paged = false ∧ (s.extOn && s.protOn && user) = false := by
  unfold Machine.xlActive at h
  unfold Machine.paged
  cases hx : s.extOn <;> cases hg : s.pgOn <;> cases hpr : s.protOn <;> simp_all

theorem translateBytes_flat (hp : s.paged = false) (hprot : (s.extOn && s.protOn && user) = false) :
    ∀ n i, translateBytes F va acc user n i s = .ok (run va n i) s := by
  intro n
  induction n with
  | zero => exact fun i => rfl
  | succ n ih =>
    intro i
    rw [translateBytes, bind_ok (translate_flat hp hprot), bind_ok (ih (i + 1))]
    rfl

theorem translateBytes_cons (h : translateBytes F va acc user (n + 1) i s = .ok ps s') :
    ∃ p s₁ qs, translate F (va + BitVec.ofNat 32 i) acc user s = .ok p s₁ ∧
      translateBytes F va acc user n (i + 1) s₁ = .ok qs s' ∧ ps = p :: qs := by
  rw [translateBytes] at h
  obtain ⟨p, s₁, hp, h⟩ := bind_eq_ok h
  obtain ⟨qs, u, hq, h⟩ := bind_eq_ok h
  cases h
  exact ⟨p, s₁, qs, hp, hq, rfl⟩

/-- The bytes `i` and `i + 1` are neighbours in memory, unless a page ends between them. -/
theorem neighbours {q : Word} (h : translate F (va + BitVec.ofNat 32 i) acc user s = .ok p s₁)
    (h' : translate F (va + BitVec.ofNat 32 (i + 1)) acc user s₁ = .ok q s₂) :
    q = p + 1 ∨ (va.toNat + i) % 4096 = 4095 := by
  by_cases hend : (va.toNat + i) % 4096 = 4095
  · exact .inr hend
  · refine .inl (translate_next (fun _ => ?_) h h')
    have hv := va.isLt
    unfold pageNum
    rw [toNat_add, toNat_add, toNat_ofNat, toNat_ofNat]
    omega

/-- **The short cut.**  Two to four bytes meet the end of a page at most once, so when the last
address fits the first one they are consecutive. -/
theorem contiguous_run (hn : n = 2 ∨ n = 4) (h : translateBytes F va acc user n 0 s = .ok ps s')
    (hc : contiguous ps n = true) : ps = run (ps.getD 0 0) n 0 := by
  rcases hn with rfl | rfl
  · obtain ⟨p₀, s₁, _, h₀, t₀, rfl⟩ := translateBytes_cons h
    obtain ⟨p₁, s₂, _, h₁, t₁, rfl⟩ := translateBytes_cons t₀
    cases t₁
    have hlast : p₁ = p₀ + 1 := by simpa [contiguous] using hc
    simp [run, hlast]
  · obtain ⟨p₀, s₁, _, h₀, t₀, rfl⟩ := translateBytes_cons h
    obtain ⟨p₁, s₂, _, h₁, t₁, rfl⟩ := translateBytes_cons t₀
    obtain ⟨p₂, s₃, _, h₂, t₂, rfl⟩ := translateBytes_cons t₁
    obtain ⟨p₃, s₄, _, h₃, t₃, rfl⟩ := translateBytes_cons t₂
    cases t₃
    have hlast : p₃ = p₀ + 3 := by simpa [contiguous] using hc
    have h01 := neighbours h₀ h₁
    have h12 := neighbours h₁ h₂
    have h23 := neighbours h₂ h₃
    have h1 : p₁ = p₀ + 1 := by bv_omega
    have h2 : p₂ = p₀ + 2 := by bv_omega
    simp [run, hlast, h1, h2]

theorem contiguous_of_run (hn : n = 2 ∨ n = 4) : contiguous (run p n 0) n = true := by
  rcases hn with rfl | rfl
  · simp [run, contiguous]
  · simp [run, contiguous]

/-- The addresses of a wide access and what is done with them. -/
def writeAll (F : Fault) (v : Word) (n : Nat) (ps : List Word) : M Unit :=
  if contiguous ps n then physWrite F (ps.getD 0 0) v n else physWriteBytes F v ps 0

def readAll (F : Fault) (n : Nat) (ps : List Word) : M Word :=
  if contiguous ps n then physRead F (ps.getD 0 0) n else physReadBytes F ps 0

/-- Whatever path a wide access takes, its bytes are translated one by one. -/
theorem wide_eq {α : Type} (hn : n = 2 ∨ n = 4) (x : Word → M α) (y : List Word → M α)
    (hy : ∀ p u, y (run p n 0) u = x p u) :
    (if !s.xlActive then x va
      else if bytewise s va n user then translateBytes F va acc user n 0 >>= y
      else translate F va acc user >>= x) s =
    (translateBytes F va acc user n 0 >>= y) s := by
  have hpos : 1 < n := by omega
  by_cases hxl : s.xlActive = true
  · simp only [hxl, Bool.not_true, Bool.false_eq_true, ↓reduceIte]
    by_cases hbw : bytewise s va n user = true
    · rw [if_pos hbw]
    · rw [if_neg hbw]
      simp only [bytewise, hpos, decide_true, Bool.true_and, Bool.or_eq_true, decide_eq_true_eq,
        Bool.and_eq_true, Bool.not_eq_true', not_or, not_lt, not_and] at hbw
      obtain ⟨hcross, hpg⟩ := hbw
      obtain ⟨m, rfl⟩ : ∃ m, n = m + 1 := ⟨n - 1, by omega⟩
      cases hp : s.paged with
      | true =>
        rw [translateBytes, BitVec.add_zero]
        cases ht : translate F va acc user s with
        | error e u =>
          rw [bind_error ht, bind_apply, bind_error ht]
        | ok p u =>
          have hb := translateBytes_page hp ht m 1 (by omega)
          rw [bind_ok ht, bind_apply, bind_ok ht, bind_ok hb]
          show x p u = y (p :: run p m 1) u
          rw [← hy p u, run, BitVec.add_zero]
      | false =>
        have hx : s.extOn = true := by
          unfold Machine.xlActive at hxl
          exact (Bool.and_eq_true_iff.1 hxl).1
        have hg : s.pgOn = false := by
          rw [Machine.paged, hx, Bool.true_and] at hp
          exact hp
        have hu : user = false := by simpa using hpg hg
        have hprot : (s.extOn && s.protOn && user) = false := by rw [hu, Bool.and_false]
        rw [bind_ok (translate_flat hp hprot), bind_ok (translateBytes_flat hp hprot _ _), hy]
  · rw [Bool.not_eq_true] at hxl
    obtain ⟨hp, hprot⟩ := flat_of_inactive (s := s) hxl
    simp only [hxl, Bool.not_false, ↓reduceIte]
    rw [bind_ok (translateBytes_flat hp hprot _ _), hy]

theorem vmWrite_eq (hn : n = 2 ∨ n = 4) (v : Word) :
    vmWrite F va v n user s = (translateBytes F va .w user n 0 >>= writeAll F v n) s := by
  have hrun : ∀ p u, writeAll F v n (run p n 0) u = physWrite F p v n u := by
    intro p u
    rw [writeAll, if_pos (contiguous_of_run hn)]
    rcases hn with rfl | rfl <;> simp [run]
  exact wide_eq hn (fun p => physWrite F p v n) (writeAll F v n) hrun

theorem vmRead_eq (hn : n = 2 ∨ n = 4) :
    vmRead F va n user s = (translateBytes F va .r user n 0 >>= readAll F n) s := by
  have hrun : ∀ p u, readAll F n (run p n 0) u = physRead F p n u := by
    intro p u
    rw [readAll, if_pos (contiguous_of_run hn)]
    rcases hn with rfl | rfl <;> simp [run]
  exact wide_eq hn (fun p => physRead F p n) (readAll F n) hrun

end

/-! ## All bytes of an access -/

/-- The physical addresses of the bytes up to a fault. -/
def reached (F : Fault) (va : Word) (acc : Acc) (user : Bool) : Nat → Nat → Machine → List Word
  | 0, _, _ => []
  | n + 1, i, s =>
    match translate F (va + BitVec.ofNat 32 i) acc user s with
    | .ok p s' => p :: reached F va acc user n (i + 1) s'
    | .error _ _ => []

/-- A condition on every translation of an access and the state before it, up to a fault. -/
def Along (F : Fault) (va : Word) (acc : Acc) (user : Bool) (C : Word → Machine → Prop) :
    Nat → Nat → Machine → Prop
  | 0, _, _ => True
  | n + 1, i, s =>
    C (va + BitVec.ofNat 32 i) s ∧
      match translate F (va + BitVec.ofNat 32 i) acc user s with
      | .ok _ s' => Along F va acc user C n (i + 1) s'
      | .error _ _ => True

/-- The entries an access marks, up to a fault. -/
def allMarks (F : Fault) (va : Word) (acc : Acc) (user : Bool) : Nat → Nat → Machine → List Word
  | 0, _, _ => []
  | n + 1, i, s =>
    marks F (va + BitVec.ofNat 32 i) acc user s ++
      match translate F (va + BitVec.ofNat 32 i) acc user s with
      | .ok _ s' => allMarks F va acc user n (i + 1) s'
      | .error _ _ => []

/-- The access is one to plain memory: its bytes are in RAM, none of them is in a table entry it
uses, and no entry it marks is a device register. -/
structure Plain (F : Fault) (va : Word) (acc : Acc) (user : Bool) (n : Nat) (s : Machine) :
    Prop where
  ram : ∀ p ∈ reached F va acc user n 0 s, inRam s p 1 = true
  apart : Along F va acc user (fun x u => ∀ a ∈ uses F x acc user u,
    ∀ p ∈ reached F va acc user n 0 s, 4 ≤ (p - a).toNat) n 0 s
  noDevice : Along F va acc user (fun x u => ∀ a ∈ marks F x acc user u, inDev a 4 = false) n 0 s

/-! ## Bytes in RAM -/

/-- The bytes of `v` from byte `i` on at the given addresses, the newest first. -/
def data (v : Word) : Nat → List Word → List (Word × Byte)
  | _, [] => []
  | i, p :: ps => data v (i + 1) ps ++ [(p, byteOf v i)]

/-- The bytes at the given addresses as a word, with the first one at byte `i`. -/
def valueOf (m : Word → Byte) : Nat → List Word → Word
  | _, [] => 0
  | i, p :: ps => ((m p).setWidth 32 <<< (8 * i)) ||| valueOf m (i + 1) ps

section

variable {F : Fault} {s s' : Machine} {va v p : Word} {acc : Acc} {user : Bool} {n i : Nat}

theorem overlay_append (W W' : List (Word × Byte)) (m : Word → Byte) :
    overlay (W ++ W') m = overlay W (overlay W' m) := by
  induction W with
  | nil => rfl
  | cons w W ih =>
    rw [List.cons_append, overlay, overlay, ih]

theorem mem_data {w : Word × Byte} : ∀ (i : Nat) (ps : List Word), w ∈ data v i ps → w.1 ∈ ps := by
  intro i ps
  induction ps generalizing i with
  | nil => exact nofun
  | cons p ps ih =>
    intro h
    rcases mem_append.1 h with h | h
    · exact mem_cons_of_mem _ (ih (i + 1) h)
    · rw [mem_singleton.1 h]
      exact mem_cons_self

theorem overlay_data {k : Nat} (hnd : ps.Nodup) (hk : k < ps.length) (m : Word → Byte) :
    overlay (data v i ps) m (ps.getD k 0) = byteOf v (i + k) := by
  induction ps generalizing i k m with
  | nil => cases hk
  | cons p ps ih =>
    obtain ⟨hp, hnd⟩ := nodup_cons.1 hnd
    rw [data, overlay_append]
    cases k with
    | zero =>
      have hne : ∀ x ∈ data v (i + 1) ps, x.1 ≠ p := fun x hx h => hp (h ▸ mem_data _ _ hx)
      exact (overlay_of_not_mem hne).trans (update_self ..)
    | succ k =>
      rw [getD_cons_succ, ih hnd (Nat.lt_of_succ_lt_succ hk), Nat.add_assoc, Nat.add_comm 1]

theorem storeBytes_one (m : Word → Byte) (p : Word) (f : Nat → Byte) :
    storeBytes m p 1 f = update m p (f 0) := by
  funext x
  unfold storeBytes
  by_cases hx : x = p
  · rw [hx, update_self, BitVec.sub_self]
    rfl
  · rw [update_of_ne hx, if_neg]
    intro h
    apply hx
    bv_omega

theorem byteOf_setWidth (b : Byte) : byteOf (b.setWidth 32) 0 = b := by
  unfold byteOf
  ext j hj
  simp [getElem_extractLsb', getLsbD_setWidth, hj]
  omega

theorem physWrite_byte (hr : inRam s p 1 = true) (b : Byte) :
    ∃ d, physWrite F p (b.setWidth 32) 1 s =
      .ok () (s.putData (update s.mem p b) d) := by
  obtain ⟨d, hd⟩ := ramWrite_form p (b.setWidth 32) 1 s
  refine ⟨d, ?_⟩
  rw [physWrite_ram F hr, hd, storeBytes_one, byteOf_setWidth]
  rfl

theorem physWriteBytes_overlay : ∀ (ps : List Word) (i : Nat) (s : Machine),
    (∀ p ∈ ps, inRam s p 1 = true) → ∃ d, physWriteBytes F v ps i s =
      .ok () (s.putData (overlay (data v i ps) s.mem) d) := by
  intro ps
  induction ps with
  | nil => exact fun i s _ => ⟨s.dcTab, rfl⟩
  | cons p ps ih =>
    intro i s hr
    obtain ⟨d, hd⟩ := physWrite_byte (F := F) (hr p mem_cons_self) (byteOf v i)
    obtain ⟨d', hd'⟩ := ih (i + 1) (s.putData (update s.mem p (byteOf v i)) d)
      fun q hq => hr q (mem_cons_of_mem _ hq)
    refine ⟨d', ?_⟩
    rw [physWriteBytes, bind_ok hd, hd', data, overlay_append]
    rfl

theorem physRead_one (hr : inRam s p 1 = true) :
    physRead F p 1 s = .ok ((s.mem p).setWidth 32) s := by
  rw [physRead_ram F hr]
  show EStateM.Result.ok ((s.mem (p + 0#32)).setWidth 32) s = _
  rw [BitVec.add_zero]

theorem physReadBytes_value : ∀ (ps : List Word) (i : Nat), (∀ p ∈ ps, inRam s p 1 = true) →
    physReadBytes F ps i s = .ok (valueOf s.mem i ps) s := by
  intro ps
  induction ps with
  | nil => exact fun i _ => rfl
  | cons p ps ih =>
    intro i hr
    have htail := ih (i + 1) fun q hq => hr q (mem_cons_of_mem _ hq)
    rw [physReadBytes, bind_ok (physRead_one (hr p mem_cons_self)), bind_ok htail]
    rfl

/-- Consecutive addresses of which the first and the last are in RAM. -/
theorem inRam_run (hn : n = 2 ∨ n = 4) (hr : ∀ q ∈ run p n 0, inRam s q 1 = true) :
    inRam s p n = true := by
  have hsize := s.cfg.ram_le
  rcases hn with rfl | rfl
  · have h₀ := inRam_le (hr (p + 0#32) (by simp [run]))
    have h₁ := inRam_le (hr (p + 1#32) (by simp [run]))
    rw [inRam_iff]
    bv_omega
  · have h₀ := inRam_le (hr (p + 0#32) (by simp [run]))
    have h₃ := inRam_le (hr (p + 3#32) (by simp [run]))
    rw [inRam_iff]
    bv_omega

theorem storeBytes_run (hn : n = 2 ∨ n = 4) (m : Word → Byte) :
    storeBytes m p n (byteOf v) = overlay (data v 0 (run p n 0)) m := by
  funext x
  obtain ⟨k, rfl⟩ : ∃ k, x = p + k := ⟨x - p, by bv_omega⟩
  have hsub : p + k - p = k := by bv_omega
  rcases hn with rfl | rfl
  · simp only [storeBytes, hsub, run, data, overlay, nil_append, List.cons_append,
      update_apply, BitVec.add_right_inj]
    by_cases hk : k.toNat < 2
    · have hcases : k = 0#32 ∨ k = 1#32 := by bv_omega
      rcases hcases with rfl | rfl <;> rfl
    · rw [if_neg hk, if_neg (by bv_omega), if_neg (by bv_omega)]
  · simp only [storeBytes, hsub, run, data, overlay, nil_append, List.cons_append,
      update_apply, BitVec.add_right_inj]
    by_cases hk : k.toNat < 4
    · have hcases : k = 0#32 ∨ k = 1#32 ∨ k = 2#32 ∨ k = 3#32 := by bv_omega
      rcases hcases with rfl | rfl | rfl | rfl <;> rfl
    · rw [if_neg hk, if_neg (by bv_omega), if_neg (by bv_omega), if_neg (by bv_omega),
        if_neg (by bv_omega)]

theorem rd16_eq (a b : Byte) :
    rd16 a b = (a.setWidth 32 <<< 0) ||| ((b.setWidth 32 <<< 8) ||| 0) := by
  apply eq_of_getLsbD_eq
  intro j hj
  have ha : 8 ≤ j → a.getLsbD j = false := getLsbD_of_ge _ _
  simp only [rd16, getLsbD_setWidth, getLsbD_append, getLsbD_or,
    getLsbD_shiftLeft, ofNat_eq_ofNat, getLsbD_zero]
  by_cases h8 : j < 8
  · simp [h8, hj]
  · simp [h8, hj, ha (by omega), show j - 8 < 32 by omega]

theorem rd32_eq (a b c d : Byte) : rd32 a b c d = (a.setWidth 32 <<< 0) |||
    ((b.setWidth 32 <<< 8) ||| ((c.setWidth 32 <<< 16) ||| ((d.setWidth 32 <<< 24) ||| 0))) := by
  rw [shiftLeft_zero, ← BitVec.or_assoc, ← BitVec.or_assoc, ← BitVec.or_assoc]
  exact (or_bytes a b c d).symm.trans (or_zero).symm

theorem ramRead_run (hn : n = 2 ∨ n = 4) (m : Word → Byte) :
    ramRead m p n = valueOf m 0 (run p n 0) := by
  rcases hn with rfl | rfl
  · exact rd16_eq _ _
  · exact rd32_eq _ _ _ _

theorem writeAll_ram (hn : n = 2 ∨ n = 4) (h : translateBytes F va .w user n 0 s = .ok ps s')
    (hr : ∀ p ∈ ps, inRam s' p 1 = true) :
    ∃ d, writeAll F v n ps s' = .ok () (s'.putData (overlay (data v 0 ps) s'.mem) d) := by
  unfold writeAll
  split_ifs with hc
  · have hrun := contiguous_run hn h hc
    rw [hrun] at hr
    obtain ⟨d, hd⟩ := ramWrite_form (ps.getD 0 0) v n s'
    refine ⟨d, ?_⟩
    rw [physWrite_ram F (inRam_run hn hr), hd, storeBytes_run hn, ← hrun]
    rfl
  · exact physWriteBytes_overlay ps 0 s' hr

theorem readAll_ram (hn : n = 2 ∨ n = 4) (h : translateBytes F va .r user n 0 s = .ok ps s')
    (hr : ∀ p ∈ ps, inRam s' p 1 = true) : readAll F n ps s' = .ok (valueOf s'.mem 0 ps) s' := by
  unfold readAll
  split_ifs with hc
  · have hrun := contiguous_run hn h hc
    rw [hrun] at hr
    rw [physRead_ram F (inRam_run hn hr), ramRead_run hn, ← hrun]
  · exact physReadBytes_value ps 0 hr

end

/-! ## Byte accesses -/

/-- `n` byte reads from `va + i` on, as the word they make up. -/
def memReadBytes (va : Word) : Nat → Nat → M Word
  | 0, _ => pure 0
  | n + 1, i => do
    let b ← memRead (va + BitVec.ofNat 32 i) 1
    let v ← memReadBytes va n (i + 1)
    pure ((b <<< (8 * i)) ||| v)

/-- `n` byte writes from `va + i` on, of the bytes of `v`. -/
def memWriteBytes (va v : Word) : Nat → Nat → M Unit
  | 0, _ => pure ()
  | n + 1, i => do
    memWrite (va + BitVec.ofNat 32 i) ((byteOf v i).setWidth 32) 1
    memWriteBytes va v n (i + 1)

section

variable {s s' t : Machine} {va v : Word} {acc : Acc} {user : Bool} {n i : Nat}

/-- One byte is translated on its own whatever the mode. -/
theorem single_eq {α : Type} (x : Word → M α) (y : List Word → M α) :
    (if !s.xlActive then x va
      else if bytewise s va 1 user then translateBytes F va acc user 1 0 >>= y
      else translate F va acc user >>= x) s = (translate F va acc user >>= x) s := by
  cases hxl : s.xlActive with
  | true => rfl
  | false =>
    obtain ⟨hp, hprot⟩ := flat_of_inactive (s := s) hxl
    rw [bind_ok (translate_flat hp hprot)]
    rfl

theorem memWrite_byte (va w : Word) (s : Machine) : memWrite va w 1 s =
    (translate cpuFault va .w s.isUser >>= fun p => physWrite cpuFault p w 1) s :=
  single_eq (fun p => physWrite cpuFault p w 1) fun ps =>
    if contiguous ps 1 then physWrite cpuFault (ps.getD 0 0) w 1 else physWriteBytes cpuFault w ps 0

theorem memRead_vm (va : Word) (n : Nat) (s : Machine) :
    memRead va n s = vmRead cpuFault va n s.isUser s := by
  unfold memRead
  rw [get_bind_apply]
  split_ifs with h
  · obtain ⟨hx, hr⟩ := Bool.and_eq_true_iff.1 h
    have hxl : s.xlActive = false := by
      rw [Machine.xlActive, show s.extOn = false by simpa using hx, Bool.false_and]
    unfold vmRead
    rw [get_bind_apply]
    simp only [hxl, Bool.not_false, ↓reduceIte]
    exact (physRead_ram cpuFault hr).symm
  · rfl

theorem memRead_byte (va : Word) (s : Machine) : memRead va 1 s =
    (translate cpuFault va .r s.isUser >>= fun p => physRead cpuFault p 1) s := by
  rw [memRead_vm]
  exact single_eq (fun p => physRead cpuFault p 1) fun ps =>
    if contiguous ps 1 then physRead cpuFault (ps.getD 0 0) 1 else physReadBytes cpuFault ps 0

/-- What becomes of the byte writes when all addresses are translated first: the same bytes are
written, or the same fault comes after some of them. -/
inductive Wrote (F : Fault) (v : Word) (i : Nat) (W : List (Word × Byte)) (D E : List Word)
    (s₀ : Machine) : EStateM.Result Exit Machine (List Word) → EStateM.Result Exit Machine Unit →
      Prop
  | ok (ps : List Word) {s t : Machine} (h : Over (data v i ps ++ W) s t) :
      Wrote F v i W D E s₀ (.ok ps s) (.ok () t)
  | fault (vec code : Word) (ps : List Word) {s t : Machine} (h : Over (data v i ps ++ W) s t)
      (hD : ∀ p ∈ ps, p ∈ D) (hs : Untouched E s₀ s) :
      Wrote F v i W D E s₀ (.error .longjmp (F vec code s)) (.error .longjmp (F vec code t))

theorem Untouched.mono {E E' : List Word} {s₀ : Machine} (h : Untouched E s₀ s) (hE : E ⊆ E') :
    Untouched E' s₀ s := fun x hx => h x fun a ha => hx a (hE ha)

theorem Untouched.trans {E : List Word} {s₃ : Machine} (h₁ : Untouched E s₁ s₂)
    (h₂ : Untouched E s₂ s₃) : Untouched E s₁ s₃ := fun x hx => (h₂ x hx).trans (h₁ x hx)

theorem memWriteBytes_wrote (D : List Word) : ∀ (n i : Nat) (W : List (Word × Byte))
    (s t : Machine), Over W s t → s.isUser = user → (∀ w ∈ W, w.1 ∈ D) →
    (∀ p ∈ reached cpuFault va .w user n i s, p ∈ D ∧ inRam s p 1 = true) →
    Along cpuFault va .w user (fun x u => ∀ a ∈ uses cpuFault x .w user u,
      ∀ p ∈ D, 4 ≤ (p - a).toNat) n i s →
    Along cpuFault va .w user (fun x u => ∀ a ∈ marks cpuFault x .w user u,
      inDev a 4 = false) n i s →
    Wrote cpuFault v i W D (allMarks cpuFault va .w user n i s) s
      (translateBytes cpuFault va .w user n i s) (memWriteBytes va v n i t) := by
  intro n
  induction n with
  | zero => exact fun i W s t h _ _ _ _ _ => .ok [] h
  | succ n ih =>
    intro i W s t h huser hW hreach hap hdev
    obtain ⟨hap₀, hap⟩ := hap
    obtain ⟨hdev₀, hdev⟩ := hdev
    have hoff : ∀ a ∈ uses cpuFault (va + BitVec.ofNat 32 i) .w user s, Off W a :=
      fun a ha w hw => hap₀ a ha w.1 (hW w hw)
    have halike := translate_alike h hoff hdev₀
    have huser' : t.isUser = user := by
      rw [Machine.isUser, h.cpu]
      exact huser
    rw [translateBytes, memWriteBytes, bind_apply, bind_apply, memWrite_byte, huser', bind_apply]
    rw [reached] at hreach
    rw [allMarks]
    generalize hrs : translate cpuFault (va + BitVec.ofNat 32 i) .w user s = rs at *
    generalize translate cpuFault (va + BitVec.ofNat 32 i) .w user t = rt at *
    cases halike with
    | fault vec code h₁ hs₁ =>
      exact .fault vec code [] h₁ (by simp) (hs₁.mono (subset_append_left _ _))
    | ok p h₁ hs₁ =>
      rename_i s₁ t₁
      obtain ⟨-, hmode, -⟩ := translate_live hrs
      simp only at hreach hap hdev ⊢
      obtain ⟨hpD, hpr⟩ := hreach p mem_cons_self
      obtain ⟨d, hd⟩ := physWrite_byte (F := cpuFault) (s := t₁) (p := p)
        (by rw [h₁.inRam, hmode.inRam]; exact hpr) (byteOf v i)
      have h₂ : Over ((p, byteOf v i) :: W) s₁
          (t₁.putData (update t₁.mem p (byteOf v i)) d) := by
        obtain ⟨d₁, rfl⟩ := h₁
        exact ⟨d, rfl⟩
      have hrest := ih (i + 1) ((p, byteOf v i) :: W) s₁ _ h₂
        (by rw [Machine.isUser, hmode.mode]; exact huser)
        (forall_mem_cons.2 ⟨hpD, hW⟩)
        (by
          intro q hq
          obtain ⟨hqD, hqr⟩ := hreach q (mem_cons_of_mem _ hq)
          exact ⟨hqD, by rw [hmode.inRam]; exact hqr⟩) hap hdev
      rw [hd]
      simp only
      rw [bind_apply]
      generalize translateBytes cpuFault va .w user n (i + 1) s₁ = r at hrest
      generalize memWriteBytes va v n (i + 1) _ = r' at hrest
      cases hrest with
      | ok ps h₃ =>
        refine .ok (p :: ps) ?_
        rw [data, List.append_assoc]
        exact h₃
      | fault vec code ps h₃ hD hs =>
        refine .fault vec code (p :: ps) ?_ ?_ ?_
        · rw [data, List.append_assoc]
          exact h₃
        · exact forall_mem_cons.2 ⟨hpD, hD⟩
        · exact (hs₁.mono (subset_append_left _ _)).trans
            (hs.mono (subset_append_right _ _))

theorem reached_of_ok : ∀ (n i : Nat) (s : Machine) (ps : List Word),
    translateBytes F va acc user n i s = .ok ps s' →
      reached F va acc user n i s = ps ∧ SameMode s s' := by
  intro n
  induction n with
  | zero =>
    intro i s ps h
    cases h
    exact ⟨rfl, .refl _⟩
  | succ n ih =>
    intro i s ps h
    obtain ⟨p, s₁, qs, hp, hq, rfl⟩ := translateBytes_cons h
    obtain ⟨hreach, hmode⟩ := ih (i + 1) s₁ qs hq
    obtain ⟨-, hmode₁, -⟩ := translate_live hp
    rw [reached, hp]
    exact ⟨congrArg (p :: ·) hreach, hmode₁.trans hmode⟩

theorem marks_subset_uses (F : Fault) (va : Word) (acc : Acc) (user : Bool) (s : Machine) :
    marks F va acc user s ⊆ uses F va acc user s := by
  intro a ha
  unfold marks at ha
  unfold uses
  simp only at ha ⊢
  split_ifs at ha ⊢ with hp hmiss hD
  · exact ha
  · cases hr : physRead F (pdeAddr s va) 4 s with
    | error e u => simp [hr] at ha
    | ok pde u =>
      simp only [hr] at ha ⊢
      split_ifs at ha ⊢ with hP
      · simp at ha
      · split at ha
        · split_ifs at ha
          · simp at ha
          · exact mem_cons_of_mem _ ha
        · simp at ha
  · exact ha
  · exact ha

theorem allMarks_apart (D : List Word) : ∀ (n i : Nat) (s : Machine),
    Along F va acc user (fun x u => ∀ a ∈ uses F x acc user u,
      ∀ p ∈ D, 4 ≤ (p - a).toNat) n i s →
    ∀ a ∈ allMarks F va acc user n i s, ∀ p ∈ D, 4 ≤ (p - a).toNat := by
  intro n
  induction n with
  | zero => exact fun i s _ a ha => absurd ha not_mem_nil
  | succ n ih =>
    intro i s hap a ha
    obtain ⟨hap₀, hap⟩ := hap
    rcases mem_append.1 ha with ha | ha
    · exact hap₀ a (marks_subset_uses _ _ _ _ _ ha)
    · cases hp : translate F (va + BitVec.ofNat 32 i) acc user s with
      | error e u =>
        rw [hp] at ha
        simp at ha
      | ok p s₁ =>
        rw [hp] at ha hap
        exact ih (i + 1) s₁ hap a ha

theorem translateBytes_untouched : ∀ (n i : Nat) (s : Machine) (ps : List Word),
    translateBytes F va acc user n i s = .ok ps s' →
    Along F va acc user (fun x u => ∀ a ∈ marks F x acc user u, inDev a 4 = false) n i s →
    Untouched (allMarks F va acc user n i s) s s' := by
  intro n
  induction n with
  | zero =>
    intro i s ps h _
    cases h
    exact Untouched.refl _
  | succ n ih =>
    intro i s ps h hdev
    obtain ⟨hdev₀, hdev⟩ := hdev
    obtain ⟨p, s₁, qs, hp, hq, rfl⟩ := translateBytes_cons h
    rw [hp] at hdev
    have hself : Over [] s s := ⟨s.dcTab, rfl⟩
    have hoff : ∀ a ∈ uses F (va + BitVec.ofNat 32 i) acc user s, Off [] a :=
      fun a _ w hw => absurd hw not_mem_nil
    have halike := translate_alike hself hoff hdev₀
    rw [hp] at halike
    rw [allMarks, hp]
    cases halike with
    | ok _ _ hs =>
      exact (hs.mono (subset_append_left _ _)).trans
        ((ih (i + 1) s₁ qs hq hdev).mono (subset_append_right _ _))

/-- The byte reads when all addresses are translated first. -/
theorem memReadBytes_eq (D : List Word) : ∀ (n i : Nat) (s : Machine), s.isUser = user →
    (∀ p ∈ reached cpuFault va .r user n i s, p ∈ D ∧ inRam s p 1 = true) →
    Along cpuFault va .r user (fun x u => ∀ a ∈ uses cpuFault x .r user u,
      ∀ p ∈ D, 4 ≤ (p - a).toNat) n i s →
    Along cpuFault va .r user (fun x u => ∀ a ∈ marks cpuFault x .r user u,
      inDev a 4 = false) n i s →
    memReadBytes va n i s =
      match translateBytes cpuFault va .r user n i s with
      | .ok ps s' => .ok (valueOf s'.mem i ps) s'
      | .error e u => .error e u := by
  intro n
  induction n with
  | zero => exact fun i s _ _ _ _ => rfl
  | succ n ih =>
    intro i s huser hreach hap hdev
    obtain ⟨-, hap⟩ := hap
    obtain ⟨-, hdev⟩ := hdev
    rw [reached] at hreach
    rw [memReadBytes, translateBytes, bind_apply, bind_apply, memRead_byte, huser, bind_apply]
    cases hp : translate cpuFault (va + BitVec.ofNat 32 i) .r user s with
    | error e u => rfl
    | ok p s₁ =>
      obtain ⟨-, hmode, -⟩ := translate_live hp
      rw [hp] at hreach hap hdev
      simp only at hreach hap hdev ⊢
      obtain ⟨hpD, hpr⟩ := hreach p mem_cons_self
      rw [physRead_one (by rw [hmode.inRam]; exact hpr)]
      simp only
      rw [bind_apply, bind_apply, ih (i + 1) s₁ (by rw [Machine.isUser, hmode.mode]; exact huser)
        (by
          intro q hq
          obtain ⟨hqD, hqr⟩ := hreach q (mem_cons_of_mem _ hq)
          exact ⟨hqD, by rw [hmode.inRam]; exact hqr⟩) hap hdev]
      cases hq : translateBytes cpuFault va .r user n (i + 1) s₁ with
      | error e u => rfl
      | ok qs s' =>
        -- the byte is still there when the other addresses have been translated
        have hstay : s'.mem p = s₁.mem p :=
          translateBytes_untouched n (i + 1) s₁ qs hq hdev p
            fun a ha => allMarks_apart D n (i + 1) s₁ hap a ha p hpD
        show EStateM.Result.ok _ s' = EStateM.Result.ok (valueOf s'.mem i (p :: qs)) s'
        rw [valueOf, hstay]

end

/-! ## Wide accesses -/

section

variable {va v : Word} {n : Nat} {s : Machine}

/-- **A wide read is its byte reads**: the same value, state and fault, for every machine and
every address, when the bytes lie in RAM, none of them in a table entry the access uses, and no
entry it marks is a device register. -/
theorem memRead_eq_bytes (hn : n = 2 ∨ n = 4) (h : Plain cpuFault va .r s.isUser n s) :
    memRead va n s = memReadBytes va n 0 s := by
  rw [memRead_vm, vmRead_eq hn, bind_apply, memReadBytes_eq _ n 0 s rfl
    (fun p hp => ⟨hp, h.ram p hp⟩) h.apart h.noDevice]
  cases ht : translateBytes cpuFault va .r s.isUser n 0 s with
  | error e u => rfl
  | ok ps s' =>
    obtain ⟨hreach, hmode⟩ := reached_of_ok n 0 s ps ht
    refine readAll_ram hn ht fun p hp => ?_
    rw [hmode.inRam]
    exact h.ram p (hreach ▸ hp)

/-- **Wide accesses are byte accesses.**  For every machine, every address and two or four bytes
that lie in RAM, none of them in a table entry the access uses, with no marked entry among the
device registers: a read gives what the byte reads give, in the same state or with the same fault;
a write leaves what the byte writes leave, up to dropped decoded instructions, or faults as they do,
with the same vector, code and `FADDR`, without having written a byte. -/
theorem wide_access_bytes (hn : n = 2 ∨ n = 4) :
    (Plain cpuFault va .r s.isUser n s → memRead va n s = memReadBytes va n 0 s) ∧
    (Plain cpuFault va .w s.isUser n s →
      (∃ s' t' d, memWrite va v n s = .ok () s' ∧ memWriteBytes va v n 0 s = .ok () t' ∧
        t' = { s' with dcTab := d }) ∨
      ∃ vec code s₁ t₁ W, memWrite va v n s = .error .longjmp (cpuFault vec code s₁) ∧
        memWriteBytes va v n 0 s = .error .longjmp (cpuFault vec code t₁) ∧ Over W s₁ t₁ ∧
        (∀ w ∈ W, w.1 ∈ reached cpuFault va .w s.isUser n 0 s) ∧
        Untouched (allMarks cpuFault va .w s.isUser n 0 s) s s₁) := by
  refine ⟨memRead_eq_bytes hn, fun h => ?_⟩
  -- all addresses are translated before the first byte is written, so a fault comes before it
  have hloop := memWriteBytes_wrote (v := v) (reached cpuFault va .w s.isUser n 0 s) n 0 [] s s
    ⟨s.dcTab, rfl⟩ rfl (by simp) (fun p hp => ⟨hp, h.ram p hp⟩) h.apart h.noDevice
  have hwide : memWrite va v n s =
      (translateBytes cpuFault va .w s.isUser n 0 >>= writeAll cpuFault v n) s := vmWrite_eq hn v
  rw [hwide, bind_apply]
  generalize ht : translateBytes cpuFault va .w s.isUser n 0 s = r at hloop
  generalize memWriteBytes va v n 0 s = r' at hloop
  cases hloop with
  | ok ps hover =>
    rename_i s' t'
    obtain ⟨hreach, hmode⟩ := reached_of_ok n 0 s ps ht
    obtain ⟨d, hd⟩ := writeAll_ram (v := v) hn ht fun p hp => by
      rw [hmode.inRam]
      exact h.ram p (hreach ▸ hp)
    rw [append_nil] at hover
    obtain ⟨d', rfl⟩ := hover
    exact .inl ⟨_, _, d', hd, rfl, rfl⟩
  | fault vec code ps hover hD hs =>
    rename_i s₁ t₁
    refine .inr ⟨vec, code, s₁, t₁, data v 0 ps ++ [], rfl, rfl, hover, ?_, hs⟩
    intro w hw
    rw [append_nil] at hw
    exact hD w.1 (mem_data 0 ps hw)

end

/-! ## Two machines with page tables -/

/-- The two bytes on both sides of the page boundary at `0x3000`. -/
theorem along_crossing {acc : Acc} {user : Bool} {C : Word → Machine → Prop} {s : Machine}
    {p q : Word} (hr : reached F 0x2FFF acc user 2 0 s = [p, q]) (hc : C 0x2FFF s)
    (hc₁ : C 0x3000 (endState (translate F 0x2FFF acc user s))) :
    Along F 0x2FFF acc user C 2 0 s := by
  have h₀ : (0x2FFF : Word) + BitVec.ofNat 32 0 = 0x2FFF := by decide
  have h₁ : (0x2FFF : Word) + BitVec.ofNat 32 1 = 0x3000 := by decide
  rw [reached, h₀] at hr
  rw [Along, h₀]
  cases hx : translate F 0x2FFF acc user s with
  | error e s' =>
    rw [hx] at hr
    cases hr
  | ok p' s' =>
    rw [hx] at hc₁
    refine ⟨hc, ?_⟩
    simp only
    rw [Along, h₁]
    refine ⟨hc₁, ?_⟩
    cases translate F 0x3000 acc user s' with
    | ok q' s'' => trivial
    | error e s'' => trivial

/-- Paging is on, every entry of the directory at `0x1000` is `pde`, every word of the page at
`0x2000` is `0x3007`, and the network interface is in the given state. -/
def tabled (pde : Word) (net : Net) : Machine :=
  let s := cpuInitSize bareConfig bareHost
  let s := (s.setCr crCtrl (cr0Ext ||| cr0Pg)).setCr crPtbase 0x1000
  { s with
    net := net
    mem := fun a =>
      if a < 0x1000 then 0
      else if a < 0x2000 then byteOf pde (a.toNat % 4)
      else if a < 0x3000 then byteOf 0x3007 (a.toNat % 4)
      else 0xAA }

theorem forall_pair {P : Word → Prop} {a b : Word} (h : P a ∧ P b) : ∀ x ∈ [a, b], P x :=
  forall_mem_cons.2 ⟨h.1, forall_mem_singleton.2 h.2⟩

theorem tabled_plain {acc : Acc} (h : acc = .r ∨ acc = .w) :
    Plain cpuFault 0x2FFF acc false 2 (tabled 0x2007 netReset) := by
  have hr : reached cpuFault 0x2FFF acc false 2 0 (tabled 0x2007 netReset) = [0x3FFF, 0x3000] := by
    rcases h with rfl | rfl <;> decide +kernel
  -- each translation looks at an entry of the directory and one of the table, and marks the latter
  have huses : uses cpuFault 0x2FFF acc false (tabled 0x2007 netReset) = [0x1000, 0x2008] := by
    rcases h with rfl | rfl <;> decide +kernel
  have huses₁ : uses cpuFault 0x3000 acc false (endState (translate cpuFault 0x2FFF acc false
      (tabled 0x2007 netReset))) = [0x1000, 0x200C] := by
    rcases h with rfl | rfl <;> decide +kernel
  have hmarks : marks cpuFault 0x2FFF acc false (tabled 0x2007 netReset) = [0x2008] := by
    rcases h with rfl | rfl <;> decide +kernel
  have hmarks₁ : marks cpuFault 0x3000 acc false (endState (translate cpuFault 0x2FFF acc false
      (tabled 0x2007 netReset))) = [0x200C] := by
    rcases h with rfl | rfl <;> decide +kernel
  constructor
  · rw [hr]
    exact forall_pair (by decide +kernel)
  · rw [hr]
    apply along_crossing hr
    · rw [huses]
      exact forall_pair ⟨forall_pair (by decide), forall_pair (by decide)⟩
    · rw [huses₁]
      exact forall_pair ⟨forall_pair (by decide), forall_pair (by decide)⟩
  · apply along_crossing hr
    · rw [hmarks, forall_mem_singleton]
      decide
    · rw [hmarks₁, forall_mem_singleton]
      decide

theorem wide_access_bytes_crossing :
    memRead 0x2FFF 2 (tabled 0x2007 netReset) = memReadBytes 0x2FFF 2 0 (tabled 0x2007 netReset) ∧
    ((∃ s' t' d, memWrite 0x2FFF 0x2211 2 (tabled 0x2007 netReset) = .ok () s' ∧
        memWriteBytes 0x2FFF 0x2211 2 0 (tabled 0x2007 netReset) = .ok () t' ∧
        t' = { s' with dcTab := d }) ∨
      ∃ vec code s₁ t₁ W, memWrite 0x2FFF 0x2211 2 (tabled 0x2007 netReset) =
          .error .longjmp (cpuFault vec code s₁) ∧
        memWriteBytes 0x2FFF 0x2211 2 0 (tabled 0x2007 netReset) =
          .error .longjmp (cpuFault vec code t₁) ∧ Over W s₁ t₁ ∧
        (∀ w ∈ W, w.1 ∈ reached cpuFault 0x2FFF .w false 2 0 (tabled 0x2007 netReset)) ∧
        Untouched (allMarks cpuFault 0x2FFF .w false 2 0 (tabled 0x2007 netReset))
          (tabled 0x2007 netReset) s₁) := by
  have h := @wide_access_bytes 0x2FFF 0x2211 2 (tabled 0x2007 netReset) (.inl rfl)
  have huser : (tabled 0x2007 netReset).isUser = false := by decide +kernel
  rw [huser] at h
  exact ⟨h.1 (tabled_plain (.inl rfl)), h.2 (tabled_plain (.inr rfl))⟩

/-- A frame has been delivered, another one waits, and one is being sent. -/
def busyNet : Net :=
  { netReset with
    ctrl := 3
    status := 1
    rxAddr := 0xFF0
    txPending := true
    queue := [⟨List.replicate 20 0x55, by decide⟩] }

/-- **Tables in the device window.**  The table is the network interface: the entry of the first
page is its control register, that of the second its status.  Marking the status lets the waiting
frame into RAM, over the byte of the first page: the wide write comes after it, the byte writes
before. -/
theorem memWrite_device_entry :
    (∀ p ∈ reached cpuFault 0x2FFF .w false 2 0 (tabled 0xF0008007 busyNet),
      inRam (tabled 0xF0008007 busyNet) p 1 = true) ∧
    Along cpuFault 0x2FFF .w false (fun x u => ∀ a ∈ uses cpuFault x .w false u,
      ∀ p ∈ reached cpuFault 0x2FFF .w false 2 0 (tabled 0xF0008007 busyNet),
        4 ≤ (p - a).toNat) 2 0 (tabled 0xF0008007 busyNet) ∧
    (endState (memWrite 0x2FFF 0x2211 2 (tabled 0xF0008007 busyNet))).mem 0xFFF = 0x11 ∧
    (endState (memWriteBytes 0x2FFF 0x2211 2 0 (tabled 0xF0008007 busyNet))).mem 0xFFF =
      0x55 := by
  have hr : reached cpuFault 0x2FFF .w false 2 0 (tabled 0xF0008007 busyNet) = [0xFFF, 0] := by
    decide +kernel
  have huses : uses cpuFault 0x2FFF .w false (tabled 0xF0008007 busyNet) =
      [0x1000, 0xF0008008] := by
    decide +kernel
  have huses₁ : uses cpuFault 0x3000 .w false (endState (translate cpuFault 0x2FFF .w false
      (tabled 0xF0008007 busyNet))) = [0x1000, 0xF000800C] := by
    decide +kernel
  refine ⟨?_, ?_, ?_, ?_⟩
  · rw [hr]
    exact forall_pair (by decide +kernel)
  · rw [hr]
    apply along_crossing hr
    · rw [huses]
      exact forall_pair ⟨forall_pair (by decide), forall_pair (by decide)⟩
    · rw [huses₁]
      exact forall_pair ⟨forall_pair (by decide), forall_pair (by decide)⟩
  · decide +kernel
  · decide +kernel

end Tortoise.Emu
