import Tortoise.Emu.Phases
import Tortoise.Emu.TimerRuns

/-!
# Every step is made of the timer's events

`Goes` is a sequence of events inside a step.  Every routine of the processor goes along it
(`Evolves`): device accesses are the events themselves, and everything else is quiet.

* `cpuStep_events`: a step of the machine is the look at the devices, a sequence of events, and
  the instruction counted or not.
* `cpuStep_path`: so the runs of the machine are runs of the timer, as long as the events of each
  step meet their conditions.
-/

namespace Tortoise.Emu

open Lib

variable {s t : Machine}

/-- The event happens inside a step. -/
def Event.inside : Event → Bool
  | .next _ => false
  | _ => true

/-- One event inside a step. -/
def Moved (s t : Machine) : Prop := ∃ e : Event, e.inside = true ∧ Does e s t

/-- Events inside a step. -/
abbrev Goes : Machine → Machine → Prop := Relation.ReflTransGen Moved

theorem Still.goes (h : Still s t) : Goes s t := .single ⟨.still, rfl, .still h⟩

/-! ## Devices -/

theorem Serves.goes (h : Serves s t) : Goes s t := h.still.goes

theorem picWr_goes (off v : Word) (s : Machine) : Goes s (picWr off v s) := by
  by_cases h8 : off = 0x08
  · subst h8
    exact .single ⟨.clear v, rfl, .clear s v⟩
  · unfold picWr
    split
    · exact Serves.goes (.quiet rfl)
    · exact .refl

theorem netWr_goes (off v : Word) (s : Machine) : Goes s (netWr off v s) := by
  obtain h | ⟨t, h, he⟩ := netWr_cases off v s
  · exact h.goes
  · exact he ▸ .single ⟨.resched, rfl, .resched h.still⟩

theorem devRead_goes {pa : Word} {r : Word × Machine} (h : devRead pa s = some r) : Goes s r.2 := by
  unfold devRead at h
  simp only at h
  split at h <;> first
    | (cases h
       first
         | exact .refl
         | exact .single ⟨.read _, rfl, .read s _⟩
         | exact (uartRd_serves _ s).goes
         | exact (kbdRd_serves _ s).goes
         | exact (rtcRd_serves _ s).goes)
    | cases h

theorem devWrite_goes {pa v : Word} {s' : Machine} (h : devWrite pa v s = some s') : Goes s s' := by
  unfold devWrite at h
  simp only at h
  split at h <;> first
    | (cases h
       first
         | exact .refl
         | exact picWr_goes _ v s
         | exact .single ⟨.write _ v, rfl, .write s _ v⟩
         | exact (uartWr_routine _ v s).serves.goes
         | exact (diskRegWr_routine _ _ v s).serves.goes
         | exact (kbdWr_routine _ v s).serves.goes
         | exact (fbWr_routine _ v s).serves.goes
         | exact (sysWr_routine _ v s).serves.goes
         | exact netWr_goes _ v s)
    | cases h

theorem devWfi_goes {fuel : Nat} (h : devWfi fuel s = some t) : Goes s t := by
  induction fuel generalizing s with
  | zero =>
    unfold devWfi at h
    split at h
    · rw [Option.some.inj h]
    · cases h
  | succ fuel ih =>
    rw [devWfi_succ] at h
    split at h
    · rw [Option.some.inj h]
    · rename_i hgo
      rw [not_or, not_not, Bool.not_eq_true] at hgo
      exact .head ⟨.round, rfl, .round hgo.1 hgo.2⟩ (ih h)

/-! ## Routines -/

/-- Every execution of the routine is a sequence of events. -/
abbrev Evolves {α : Type} (x : M α) : Prop := Follows Goes x

theorem evolves_sequenced : Sequenced (fun {_} x => Evolves x) :=
  Follows.sequenced (fun _ => .refl) fun h h' => h.trans h'

theorem evolves_read {α : Type} {f : Machine → M α} (hf : ∀ s, Evolves (f s)) :
    Evolves (get >>= f) := fun s => hf s s

theorem evolves_modify {f : Machine → Machine} (hf : ∀ s, Still s (f s)) : Evolves (modify f) :=
  fun s => (hf s).goes

/-- Register changes that leave the instruction count alone and do not restart the machine. -/
theorem modifyCpu_evolves {f : Cpu → Cpu}
    (h : ∀ c, (f c).icount = c.icount ∧ (c.halted → (f c).halted)) : Evolves (modifyCpu f) :=
  evolves_modify fun s => ⟨rfl, rfl, (h s.cpu).1, rfl, .inl rfl, (h s.cpu).2⟩

theorem setCr_still (n : BitVec 4) (v : Word) (s : Machine) : Still s (s.setCr n v) :=
  ⟨rfl, rfl, rfl, rfl, .inl rfl, id⟩

theorem cpuFlushTlb_still (s : Machine) : Still s (cpuFlushTlb s) := by
  unfold cpuFlushTlb
  split <;> exact .outside rfl rfl rfl

theorem busSteps_goes : BusSteps Goes where
  refl _ := .refl
  trans h h' := h.trans h'
  devRead := devRead_goes
  devWrite := devWrite_goes
  ramWrite {pa v n s} _ _ := by
    have hdrop : Serves s (dcDrop pa n s) := .ite (.drop s _ _) (.refl s)
    exact Still.goes (hdrop.still.trans (.outside rfl rfl rfl))
  faddr va s := (setCr_still _ va s).goes
  stop n s := (Serves.stop s n).goes

theorem entrySteps_goes : EntrySteps Goes where
  toBusSteps := busSteps_goes
  translate hF := (MemActions.of_phys evolves_sequenced (fun _ hf => evolves_read hf)
    (busSteps_goes.physRead hF) (busSteps_goes.physWrite hF)
    (fun va vec code _ => busSteps_goes.faultAt hF va vec code)
    fun _ _ _ => evolves_modify fun _ => .outside rfl rfl rfl).translate
  entryRegs _ _ _ _ _ := Still.goes ⟨rfl, rfl, rfl, rfl, .inl rfl, id⟩
  depth _ _ := Still.goes ⟨rfl, rfl, rfl, rfl, .inl rfl, id⟩
  back _ := Still.goes ⟨rfl, rfl, rfl, rfl, .inl rfl, id⟩

theorem setFlagsWord_evolves (f : Word) : Evolves (setFlagsWord f) :=
  evolves_modify fun _ => ⟨rfl, rfl, rfl, rfl, .inl rfl, id⟩

theorem actions_evolves : Actions (fun {_} x => Evolves x) where
  toSequenced := evolves_sequenced
  getCpu _ _ := .refl
  setReg _ _ := modifyCpu_evolves fun _ => ⟨rfl, id⟩
  setPc _ := modifyCpu_evolves fun _ => ⟨rfl, id⟩
  setSp _ := modifyCpu_evolves fun _ => ⟨rfl, id⟩
  setFlags _ := modifyCpu_evolves fun _ => ⟨rfl, id⟩
  setIntEnabled _ := modifyCpu_evolves fun _ => ⟨rfl, id⟩
  memRead := entrySteps_goes.memRead
  memWrite := entrySteps_goes.memWrite
  fault vec code s := entrySteps_goes.cpuFaultN 2 vec code s
  stop _ := modifyCpu_evolves fun _ => ⟨rfl, fun _ => rfl⟩
  abort _ := .refl
  cpuDeliver := entrySteps_goes.cpuDeliver
  legacyMode := modifyCpu_evolves fun _ => ⟨rfl, id⟩
  legacySyscallEntry := modifyCpu_evolves fun _ => ⟨rfl, id⟩
  opSysretM := by
    refine evolves_sequenced.bind (fun _ => .refl) fun ext => Sequenced.branch ?_ ?_
    · exact extIret_of evolves_sequenced (fun _ _ => .refl) entrySteps_goes.memRead
        (fun _ => modifyCpu_evolves fun _ => ⟨rfl, id⟩)
        (fun _ => modifyCpu_evolves fun _ => ⟨rfl, id⟩) setFlagsWord_evolves
    · refine modifyCpu_evolves fun c => ?_
      split <;> exact ⟨rfl, id⟩
  setFlagsWord := setFlagsWord_evolves
  crWrite n v := evolves_modify fun s => by
    split
    · exact .refl s
    · split
      · exact (setCr_still n v s).trans (cpuFlushTlb_still _)
      · exact setCr_still n v s
  flush := evolves_modify cpuFlushTlb_still
  invlpg _ := evolves_modify fun _ => .outside rfl rfl rfl
  cpuWfi s := by
    unfold cpuWfi
    cases hw : devWfi s.cfg.patience s with
    | none => exact .refl
    | some t => exact devWfi_goes hw
  haltCpu := modifyCpu_evolves fun _ => ⟨rfl, fun _ => rfl⟩
  portIn port s := (legacyIn_serves port s).goes
  portOut port v := evolves_modify fun s => (legacyOut_routine port v s).serves.still

theorem nextInstruction_evolves (pc : Word) : Evolves (nextInstruction pc) := by
  have hm := entrySteps_goes.memActions (entrySteps_goes.cpuFaultN 2)
  have hfetch := fetchAt_of evolves_sequenced evolves_read hm.translate hm.physRead
    fun _ _ _ => evolves_modify fun _ => .outside rfl rfl rfl
  exact nextInstruction_of evolves_sequenced evolves_read hfetch
    (fun _ _ => evolves_modify fun _ => .outside rfl rfl rfl) pc

/-! ## Whole steps -/

/-- Events inside a step, and then the instruction is counted or not. -/
def Counts (s t : Machine) : Prop :=
  ∃ u c, Goes s u ∧ t = setIcount (countAfter c u) u

theorem Goes.counts (h : Goes s t) : Counts s t := ⟨t, false, h, rfl⟩

/-- A routine of events before one that counts the instruction. -/
theorem Follows.bind_counts {α β : Type} {x : M α} {f : α → M β} (hx : Evolves x)
    (hf : ∀ a, Follows Counts (f a)) : Follows Counts (x >>= f) := by
  intro s
  have h := hx s
  rw [bind_apply]
  cases hr : x s with
  | ok a t =>
    rw [hr] at h
    obtain ⟨u, c, hu, ht⟩ := hf a t
    exact ⟨u, c, h.trans hu, ht⟩
  | error e t =>
    rw [hr] at h
    exact h.counts

theorem takeIrq_evolves : Evolves takeIrq := by
  refine evolves_read fun s => ?_
  cases pendingLine s with
  | none => exact evolves_sequenced.pure _
  | some n =>
    refine Sequenced.branch ?_ (evolves_sequenced.pure _)
    exact evolves_sequenced.bind (modifyCpu_evolves fun _ => ⟨rfl, id⟩) fun _ =>
      entrySteps_goes.cpuDeliver _ _ _

theorem stepRest_counts : Follows Counts stepRest := by
  refine Follows.bind_counts takeIrq_evolves fun _ => ?_
  refine Follows.bind_counts (actions_evolves.getCpu _) fun pc => ?_
  refine Follows.bind_counts (modifyCpu_evolves fun _ => ⟨rfl, id⟩) fun _ => ?_
  refine Follows.bind_counts (nextInstruction_evolves pc) fun e => ?_
  refine Follows.bind_counts (actions_evolves.setPc _) fun _ => ?_
  refine Follows.bind_counts (actions_evolves.executeInstruction e) fun _ => ?_
  exact fun s => ⟨s, true, .refl, rfl⟩

/-- **Every step is made of the timer's events**: the look at the devices, what the interrupt and
the instruction do, and the instruction counted unless it was left early. -/
theorem cpuStep_events (h : cpuStep s = some t) : Counts (afterEvents s) t := by
  have hend : endState (stepOne s) = t := by
    rcases cpuStep_cases h with hr | hr <;> rw [hr] <;> rfl
  rw [← hend]
  unfold stepOne afterEvents
  rw [get_bind_apply]
  split
  · rw [modify_bind_apply]
    change Counts _ (endState ((if (devEvents s).cpu.halted then pure () else stepRest : M Unit)
      (devEvents s)))
    split
    · exact Goes.counts .refl
    · exact stepRest_counts _
  · exact stepRest_counts s

/-- A sequence of events with the states before them. -/
inductive Path : Machine → List (Event × Machine) → Machine → Prop
  | nil (s : Machine) : Path s [] s
  | cons {s t u : Machine} {e : Event} {l : List (Event × Machine)} :
      Does e s t → Path t l u → Path s ((e, s) :: l) u

theorem Path.snoc {u : Machine} {e : Event} {l : List (Event × Machine)} (h : Path s l t)
    (hd : Does e t u) : Path s (l ++ [(e, t)]) u := by
  induction h with
  | nil s => exact .cons hd (.nil _)
  | cons hd' _ ih => exact .cons hd' (ih hd)

theorem Goes.path (h : Goes s t) : ∃ l, Path s l t := by
  induction h with
  | refl => exact ⟨[], .nil s⟩
  | tail _ hmove ih =>
    obtain ⟨l, hl⟩ := ih
    obtain ⟨e, -, hd⟩ := hmove
    exact ⟨_, hl.snoc hd⟩

/-- A run goes on along events that meet their conditions. -/
theorem TimerRun.path {cfg : Config} {host : Host} {r : Ref} {l : List (Event × Machine)}
    (h : TimerRun cfg host s r) (hp : Path s l t) (hm : ∀ p ∈ l, Meets p.1 p.2) :
    ∃ r', TimerRun cfg host t r' := by
  induction hp generalizing r with
  | nil s => exact ⟨r, h⟩
  | @cons s t u e l hd _ ih =>
    obtain ⟨he, hl⟩ := List.forall_mem_cons.1 hm
    exact ih (h.step e hd he) hl

/-- **The machine's own steps**: from one look at the devices to the next there are events, and if
they meet their conditions the run of the timer goes on. -/
theorem cpuStep_path (h : cpuStep s = some t) :
    ∃ l, Path (afterEvents s) l (afterEvents t) ∧
      ∀ {cfg host r}, TimerRun cfg host (afterEvents s) r → (∀ p ∈ l, Meets p.1 p.2) →
        ∃ r', TimerRun cfg host (afterEvents t) r' := by
  obtain ⟨u, c, hu, rfl⟩ := cpuStep_events h
  obtain ⟨l, hl⟩ := Goes.path hu
  have hpath := hl.snoc (.next u c)
  exact ⟨_, hpath, fun hr hm => hr.path hpath hm⟩

/-- The sixth instruction of `waitProgram` switches the timer on. -/
theorem cpuStep_path_switchOn : ∃ s t l, waiting 5 = some s ∧ cpuStep s = some t ∧
    s.dev.tCtrl = 0 ∧ t.dev.tCtrl = 1 ∧ Path (afterEvents s) l (afterEvents t) ∧
    ∀ {cfg host r}, TimerRun cfg host (afterEvents s) r → (∀ p ∈ l, Meets p.1 p.2) →
      ∃ r', TimerRun cfg host (afterEvents t) r' := by
  have h : ((waiting 5).bind fun s => (cpuStep s).map fun t => (s.dev.tCtrl, t.dev.tCtrl)) =
      some (0, 1) := by decide +kernel
  obtain ⟨s, hs, h⟩ := Option.bind_eq_some_iff.1 h
  obtain ⟨t, ht, h⟩ := Option.map_eq_some_iff.1 h
  obtain ⟨hoff, hon⟩ := Prod.mk.inj h
  obtain ⟨l, hl, hrun⟩ := cpuStep_path ht
  exact ⟨s, t, l, hs, ht, hoff, hon, hl, hrun⟩

end Tortoise.Emu
