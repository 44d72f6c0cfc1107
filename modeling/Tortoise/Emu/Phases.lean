import Tortoise.Emu.Closure

/-!
# The phases of an instruction

In extended mode every instruction runs in phases.  First it reads operands and
makes accesses that can fault, with nothing of its own done yet; then it commits,
by a store or a change of registers; after that it only changes registers and
cannot fault any more.  The exceptions are the divisions of the 16-bit machine,
which push two words when they divide by zero.

`Rules A B D L` says what the phases are for a particular property: `A` holds
before the commit, `B` after it, `D` after the delivery of a trap and `L` where
the instruction leaves early.  The phases are grades (`Rules.graded`), so
`Rules.executeInstruction` concludes the same of every instruction.  For a predicate
that looks at no memory, `memActions` shows that all accesses belong to the first phase.
-/

namespace Tortoise.Emu

open Lib

variable {u : Machine} {vec : Word}

/-- The division of the 16-bit machine that takes its interrupt. -/
def legacyDivZero (op : Opcode) (e : DEnt) (c : Cpu) : Bool :=
  match op with
  | .opDiv => decide (e.b 1 < 8) && e.w16 2 == 0
  | .opDiv32 => decide (e.b 1 < 8) && e.w32 2 == 0
  | .opDivReg => decide (e.hi < 8) && decide (e.lo < 8) && c.regs (e.lo.setWidth 3) == 0
  | _ => false

namespace Phase

/-! ## Phases -/

section Defs

variable (A B D : Machine → Prop) (L : Exit → Machine → Prop) {α : Type} (x : M α)

/-- The routine belongs to the first phase. -/
def Settles : Prop := ∀ u, A u → Ends x (fun _ => A) L u

/-- The routine belongs to the last phase. -/
def Plain : Prop := ∀ u, B u → Ends x (fun _ => B) (fun _ _ => False) u

/-- The routine begins in the first phase and ends in the last. -/
def Commits : Prop := ∀ u, A u → Ends x (fun _ => B) L u

/-- The routine ends in the last phase or with a trap delivered. -/
def Finishes : Prop := ∀ u, A u → Ends x (fun _ t => B t ∨ D t) L u

end Defs

/-- What has to be shown of the actions of instructions. -/
structure Rules (A B D : Machine → Prop) (L : Exit → Machine → Prop) : Prop where
  ext : ∀ {u}, A u → u.extOn = true
  commit : ∀ {u}, A u → B u
  setReg : ∀ r v, Plain B (setReg r v)
  setPc : ∀ v, Plain B (setPc v)
  setSp : ∀ v, Plain B (setSp v)
  setFlags : ∀ f, Plain B (setFlags f)
  popFlags : ∀ v : Word, Plain B (do
    let c ← getCpu fun c => (c.intEnabled, c.mode)
    let keep := (if c.1 then flagI else 0) ||| (if c.2 = .user then flagU else 0)
    setFlagsWord (if c.2 = .user then (v &&& ~~~(flagI ||| flagU)) ||| keep else v))
  memRead : ∀ va n, Settles A L (memRead va n)
  memWrite : ∀ va v n, n ≤ 4 → Commits A B L (memWrite va v n)
  fault : ∀ {vec : Word} {u}, vec = vecDiv ∨ vec = vecUd ∨ vec = vecGp → A u →
    L .longjmp (cpuFault vec 0 u)
  deliver : ∀ {vec : Word} {u}, vec &&& 0xFF = vec → A u →
    Ends (cpuDeliver vec u.cpu.pc 0) (fun _ => D) L u
  wfi : ∀ {u}, A u → u.cpu.mode = .supervisor → Ends cpuWfi (fun _ => B) L u
  /-- A property of user programs, or one that says nothing about the last
  phase but that it does not fail. -/
  mode : (∀ u, A u → u.cpu.mode = .user) ∨ ∀ u, B u

variable {A B D : Machine → Prop} {L : Exit → Machine → Prop} {α β : Type}

theorem settles_sequenced : Sequenced (fun {_} x => Settles A L x) where
  pure _ _ hu := hu
  bind hx hf u hu := (hx u hu).bind fun a u' _ hu' => hf a u' hu'

theorem plain_sequenced : Sequenced (fun {_} x => Plain B x) where
  pure _ _ hu := hu
  bind hx hf u hu := (hx u hu).bind fun a u' _ hu' => hf a u' hu'

theorem settles_read {f : Machine → M α} (hf : ∀ t, Settles A L (f t)) :
    Settles A L (get >>= f) := fun u hu => hf u u hu

theorem getCpu_settles (f : Cpu → α) : Settles A L (getCpu f) := fun _ hu => hu

theorem ends_getCpu {f : Cpu → α} {k : α → M β} {P : β → Machine → Prop} :
    Ends (getCpu f >>= k) P L u ↔ Ends (k (f u.cpu)) P L u := Iff.rfl

theorem ends_modifyCpu {f : Cpu → Cpu} {k : Unit → M β} {P : β → Machine → Prop} :
    Ends (modifyCpu f >>= k) P L u ↔ Ends (k ()) P L { u with cpu := f u.cpu } := Iff.rfl

theorem Commits.finishes {x : M α} (h : Commits A B L x) : Finishes A B D L x :=
  fun u hu => (h u hu).mono (fun _ _ h => .inl h) fun _ _ h => h

theorem Settles.bindCommits {x : M α} {f : α → M β} (h : Settles A L x)
    (hf : ∀ a, Commits A B L (f a)) : Commits A B L (x >>= f) :=
  fun u hu => (h u hu).bind fun a u' _ hu' => hf a u' hu'

theorem Settles.bindFinishes {x : M α} {f : α → M β} (h : Settles A L x)
    (hf : ∀ a, Finishes A B D L (f a)) : Finishes A B D L (x >>= f) :=
  fun u hu => (h u hu).bind fun a u' _ hu' => hf a u' hu'

/-! ## Accesses that a predicate survives -/

/-- The predicate looks at nothing that devices, memory accesses and the caches
change. -/
structure Stable (I : Machine → Prop) : Prop where
  core : ∀ {u t : Machine}, I u → t.core = u.core → I t
  tlb : ∀ {u : Machine} (p : Nat) (e : TlbEnt), I u → I (setTlb p e u)
  faddr : ∀ {u : Machine} (v : Word), I u → I (u.setCr crFaddr v)

section Accesses

variable {I : Machine → Prop} (hI : Stable I) {Q : Machine → Prop} {F : Fault}
  (hF : ∀ vec code u, vec = vecBus ∨ vec = vecPf ∨ vec = vecGp → I u → Q (F vec code u))
  (hQ : ∀ u, Q (cpuStop exitInvalid u))

include hI hF hQ

theorem busState_left (hu : I u) (a : Word) : Q (busState F a u) := by
  unfold busState
  split
  · exact hF _ _ _ (.inl rfl) (hI.faddr a hu)
  · exact hQ u

theorem physRead_settles (pa : Word) (n : Nat) : Settles I (fun _ => Q) (physRead F pa n) :=
  fun u hu => (physRead_ends F pa n u).mono (fun _ _ h => hI.core hu h.core) fun _ _ h =>
    h ▸ busState_left hI hF hQ hu pa

theorem physWrite_settles (pa v : Word) (n : Nat) (hn : n ≤ 4) :
    Settles I (fun _ => Q) (physWrite F pa v n) :=
  fun u hu => (physWrite_ends F pa v hn u).mono (fun _ _ h => hI.core hu h.core) fun _ _ h =>
    h ▸ busState_left hI hF hQ hu pa

/-- Every access of memory keeps a stable predicate, or leaves through the fault
handler. -/
theorem memActions : MemActions F (fun {_} x => Settles I (fun _ => Q) x) :=
  .of_phys settles_sequenced (fun _ hf => settles_read hf) (physRead_settles hI hF hQ)
    (physWrite_settles hI hF hQ) (fun va _ _ hv _ hu => hF _ _ _ (.inr hv) (hI.faddr va hu))
    fun p _ _ _ hu => hI.tlb p _ hu

end Accesses

/-- The stack pointer an entry from `u` leaves. -/
def entrySp (u : Machine) : Word := (if u.isUser then u.crOf crKsp - 4 else u.cpu.sp) - 8

/-- An entry that stores its frame succeeds or leaves early. -/
theorem enter_left {I Q : Machine → Prop} {F : Fault}
    (hm : MemActions F (fun {_} x => Settles I (fun _ => Q) x)) (vec savepc code : Word)
    (hu : I u) :
    Ends (enter F vec savepc code)
      (fun _ e => ∃ t h, I t ∧ e = entryRegs vec code (entrySp u) h t) (fun _ => Q) u := by
  have hstack : Ends (entryStack F)
      (fun sp t => sp = (if u.isUser then u.crOf crKsp - 4 else u.cpu.sp) ∧ I t)
      (fun _ => Q) u := by
    unfold entryStack
    rw [ends_get]
    split
    · exact (hm.vmWrite _ _ 4 false le_rfl u hu).bind fun _ t _ ht => ⟨rfl, ht⟩
    · exact ⟨rfl, hu⟩
  unfold enter
  rw [ends_get]
  refine hstack.bind fun sp t₁ _ h₁ => ?_
  obtain ⟨rfl, h₁⟩ := h₁
  refine (hm.vmWrite _ _ _ _ le_rfl t₁ h₁).bind fun _ t₂ _ h₂ => ?_
  refine (hm.vmWrite _ _ _ _ le_rfl t₂ h₂).bind fun _ t₃ _ h₃ => ?_
  rw [ends_get]
  exact (hm.vmRead _ _ _ t₃ h₃).bind fun h t₄ _ h₄ => ⟨t₄, h, h₄, rfl⟩

theorem enterFault_of_ends {F : Fault} {code : Word} {P : Machine → Prop}
    (h : Ends (enter F vec u.cpu.instPc code) (fun _ e => P (setDepth 0 e)) (fun _ => P) u) :
    P (enterFault F vec code u) := by
  unfold Ends at h
  unfold enterFault
  cases hr : enter F vec u.cpu.instPc code u with
  | ok a e =>
    rw [hr] at h
    exact h
  | error x e =>
    rw [hr] at h
    exact h

namespace Rules

variable (h : Rules A B D L)

include h

variable (op : Opcode) (e : DEnt)

/-! ## Grades -/

theorem plain {x : M α} (hx : Plain B x) : Commits A B L x :=
  fun u hu => (hx u (h.commit hu)).mono (fun _ _ h => h) fun _ _ h => h.elim

theorem fault_commits (hv : vec = vecDiv ∨ vec = vecUd ∨ vec = vecGp) :
    Commits A B L (Emu.fault vec 0 : M α) := fun _ hu => h.fault hv hu

theorem extM_true {k : Bool → M α} {P : α → Machine → Prop} (hu : A u) (hk : Ends (k true) P L u) :
    Ends (extM >>= k) P L u := by
  have hx : extM u = .ok true u := congrArg (EStateM.Result.ok · u) (h.ext hu)
  unfold Ends at hk ⊢
  rw [bind_ok hx]
  exact hk

/-- What follows a privilege check runs in supervisor mode. -/
theorem priv {k : Unit → M α}
    (hk : ∀ u, A u → u.cpu.mode = .supervisor → Ends (k ()) (fun _ => B) L u) :
    Commits A B L (Emu.priv >>= k) := by
  intro u hu
  have hx : (u.cpu.cr crCtrl &&& cr0Ext != 0) = true := h.ext hu
  have hpriv : Emu.priv u =
      (if u.cpu.mode == .user then Emu.fault vecGp 0 else pure () : M Unit) u := by
    change (if (u.cpu.cr crCtrl &&& cr0Ext != 0 && u.cpu.mode == .user) then Emu.fault vecGp 0
      else pure () : M Unit) u = _
    rw [hx, Bool.true_and]
  cases hm : u.cpu.mode with
  | user =>
    rw [hm] at hpriv
    exact (ends_of_error (bind_error hpriv)).2 (h.fault (.inr (.inr rfl)) hu)
  | supervisor =>
    rw [hm] at hpriv
    have hb := bind_ok (f := k) (hpriv : Emu.priv u = .ok () u)
    unfold Ends
    rw [hb]
    exact hk u hu hm

/-- In supervisor mode only failures matter. -/
theorem supervisor (hu : A u) (hm : u.cpu.mode = .supervisor) (t : Machine) : B t := by
  rcases h.mode with hmode | hB
  · rw [hmode u hu] at hm
    cases hm
  · exact hB t

theorem cpuDeliver (hv : vec &&& 0xFF = vec) :
    Finishes A B D L (getCpu (·.pc) >>= fun pc => Emu.cpuDeliver vec pc 0) :=
  fun _ hu => ends_getCpu.2 ((h.deliver hv hu).mono (fun _ _ h => .inr h) fun _ _ h => h)

/-- The phases are grades, with nothing to show of the 16-bit machine. -/
theorem graded : Graded False (fun {_} x => Settles A L x) (fun {_} x => Commits A B L x)
    (fun {_} x => Plain B x) (fun {_} x => Finishes A B D L x) where
  last := plain_sequenced
  seq := Settles.bindCommits
  after hx hf u hu := (hx u hu).bind fun a u' _ hu' =>
    (hf a u' hu').mono (fun _ _ h => h) fun _ _ h => h.elim
  commit := h.plain
  finish := Commits.finishes
  ext hx _ u hu := h.extM_true hu (hx u hu)
  getCpu _ := ⟨getCpu_settles _, fun _ hu => hu⟩
  setReg := h.setReg
  setPc := h.setPc
  setSp := h.setSp
  setFlags := h.setFlags
  popFlags := h.popFlags
  memRead := h.memRead
  memWrite := h.memWrite
  fault := h.fault_commits
  stop := nofun
  interrupt := nofun
  trap hv _ hu := ends_getCpu.2 (h.extM_true hu
    ((h.deliver hv hu).mono (fun _ _ h => .inr h) fun _ _ h => h))
  opIntM hv u hu := by
    refine h.extM_true hu ((getCpu_settles _).bindFinishes (fun user => ?_) u hu)
    exact Sequenced.branch (G := fun {_} x => Finishes A B D L x)
      (h.fault_commits (.inr (.inr rfl))).finishes (h.cpuDeliver hv)
  opSyscallM u hu := h.extM_true hu (h.cpuDeliver (by decide) u hu)
  mfcr _ _ := h.priv fun _ hu hm => h.supervisor hu hm _
  mtcr _ _ := h.priv fun _ hu hm => h.supervisor hu hm _
  opTlbflushM := h.priv fun _ hu hm => h.supervisor hu hm _
  invlpg _ := h.priv fun _ hu hm => h.supervisor hu hm _
  opWfiM := h.priv fun _ hu hm => h.wfi hu hm

/-! ## Divisions of the 16-bit machine -/

theorem opDivImm {x : Byte} {v : Word} {f : Word → Word → Byte × Word}
    (hd : Finishes A B D L (cpuInterrupt 0) ∨ (decide (x < 8) && v == 0) = false) :
    Finishes A B D L (opDivImm x v f) := by
  unfold Emu.opDivImm Emu.withReg
  split
  · rename_i hx
    split
    · rename_i hv
      refine hd.elim id fun hd => ?_
      rw [decide_eq_true hx, hv] at hd
      cases hd
    · exact (h.graded.onCpu fun _ => h.graded.setRes _ _).finishes
  · exact (h.graded.pure _).finishes

theorem opDivRR {e : DEnt} (hd : Finishes A B D L (cpuInterrupt 0) ∨ ∀ u, A u →
    (decide (e.hi < 8) && decide (e.lo < 8) && u.cpu.regs (e.lo.setWidth 3) == 0) = false) :
    Finishes A B D L (opDivRR e) := by
  unfold Emu.opDivRR Emu.withRegs Emu.withReg
  split
  · rename_i hi
    split
    · rename_i hlo
      intro u hu
      change Ends (if u.cpu.regs (e.lo.setWidth 3) = 0 then _ else _) _ _ u
      split
      · rename_i hz
        refine hd.elim (fun hd => hd u hu) fun hd => ?_
        have hb := hd u hu
        rw [decide_eq_true hi, decide_eq_true hlo, hz] at hb
        cases hb
      · exact (h.graded.onCpu fun _ => h.graded.setRes _ _).finishes u hu
    · exact (h.graded.pure _).finishes
  · exact (h.graded.pure _).finishes

/-! ## Privileged instructions -/

/-- The return from an exception, in supervisor mode. -/
theorem extIret (hu : A u) (hm : u.cpu.mode = .supervisor) : Ends extIret (fun _ => B) L u := by
  refine (getCpu_settles _).bindCommits (fun sp => (h.memRead _ _).bindCommits fun pc =>
    (h.memRead _ _).bindCommits fun fl => Settles.bindCommits ?_ fun sp' => ?_) u hu
  · exact Sequenced.branch (G := fun {_} x => Settles A L x) (h.memRead _ _)
      (settles_sequenced.pure _)
  · intro t ht
    exact h.supervisor hu hm _

theorem iretOr (hu : A u) (hm : u.cpu.mode = .supervisor) (k : M Unit) :
    Ends (do if ← extM then Emu.extIret else k) (fun _ t => B t ∨ D t) L u :=
  h.extM_true hu ((h.extIret hu hm).mono (fun _ _ h => .inl h) fun _ _ h => h)

theorem opInM (hB : ∀ t, B t) (e : DEnt) : Finishes A B D L (opInM e) := by
  refine (h.graded.withReg _ fun r u _ => ?_).finishes
  unfold Ends
  rw [bind_apply]
  cases hi : (legacyIn (e.w16 2) u).1 with
  | none =>
    simp only [portIn, hi]
    exact hB _
  | some v =>
    simp only [portIn, hi]
    exact hB _

theorem opOutM (hB : ∀ t, B t) (e : DEnt) : Finishes A B D L (opOutM e) := by
  unfold Emu.opOutM Emu.withReg
  split
  · split
    · refine (getCpu_settles _).bindFinishes fun on => ?_
      exact Sequenced.branch (G := fun {_} x => Finishes A B D L x) (h.graded.trap (by decide))
        (h.graded.pure _).finishes
    · split
      · exact fun _ _ => .inl (hB _)
      · exact fun _ _ => .inl (hB _)
  · exact (h.graded.pure _).finishes

/-- The instructions only the supervisor may execute. -/
theorem privileged (hp : op.privileged = true) (hu : A u) (hm : u.cpu.mode = .supervisor) :
    Ends (dispatch op e) (fun _ t => B t ∨ D t) L u := by
  have hB := h.supervisor hu hm
  cases op
  case opIret => exact h.iretOr hu hm _
  case opSysret => exact h.iretOr hu hm _
  case opIn => exact h.opInM hB e u hu
  case opOut => exact h.opOutM hB e u hu
  case opCli => exact .inl (hB (endState (setIntEnabled false u)))
  case opSti => exact .inl (hB (endState (setIntEnabled true u)))
  case opHalt => exact .inl (hB (endState (haltCpu u)))
  all_goals cases hp

/-- The `switch`.  The divisions by zero of the 16-bit machine are to be dealt
with or excluded. -/
theorem dispatch (hp : op.privileged = false)
    (hd : Finishes A B D L (cpuInterrupt 0) ∨ ∀ u, A u → legacyDivZero op e u.cpu = false)
    (hA : ∃ u, A u) : Finishes A B D L (dispatch op e) := by
  obtain ⟨u₀, hu₀⟩ := hA
  refine h.graded.dispatch op e hp ?_
  rintro (rfl | rfl | rfl)
  · exact h.opDivImm (hd.imp id fun hd => hd u₀ hu₀)
  · exact h.opDivImm (hd.imp id fun hd => hd u₀ hu₀)
  · exact h.opDivRR hd

/-- **Every instruction runs in phases**, if the divisions by zero of the 16-bit
machine do or are excluded. -/
theorem executeInstruction {e : DEnt}
    (hd : Finishes A B D L (cpuInterrupt 0) ∨ ∀ op, Opcode.ofByte (e.b 0) = some op →
      ∀ u, A u → legacyDivZero op e u.cpu = false) : Finishes A B D L (executeInstruction e) := by
  unfold Emu.executeInstruction
  split
  · exact h.graded.invalidOpcode.finishes
  · rename_i op hop
    intro u hu
    have hx : (u.cpu.cr crCtrl &&& cr0Ext != 0) = true := h.ext hu
    change Ends (if u.cpu.mode = .user ∧ (u.cpu.cr crCtrl &&& cr0Ext != 0) = true ∧ _ then _
      else if u.cpu.mode = .user ∧ (!(u.cpu.cr crCtrl &&& cr0Ext != 0)) = true ∧ _ then _
      else Emu.dispatch op e) _ _ u
    simp only [hx, true_and, Bool.not_true, Bool.false_eq_true, false_and, and_false, ↓reduceIte]
    cases hp : op.privileged with
    | false =>
      simp only [Bool.false_eq_true, and_false, ↓reduceIte]
      exact h.dispatch op e hp (hd.imp id fun hd => hd op hop) ⟨u, hu⟩ u hu
    | true =>
      cases hm : u.cpu.mode with
      | user =>
        simp only [and_self, ↓reduceIte]
        exact (h.fault_commits (.inr (.inr rfl))).finishes u hu
      | supervisor =>
        simp only [reduceCtorEq, false_and, ↓reduceIte]
        exact h.privileged op e hp hu hm

end Rules

end Phase

end Tortoise.Emu
