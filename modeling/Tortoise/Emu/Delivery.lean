import Tortoise.Emu.Step

/-!
# What the network device hands to the guest

Frames arrive at the device of `src/net.c` from outside (`net_poll`, `net_inject`) and, with the
loop backend, from its own transmitter (`net_events`); the guest writes its registers in between.
A frame of the right length and destination is queued, or counted as dropped when the receiver is
off or the queue full; `try_deliver` copies the oldest one to the guest when the guest is ready.

* `accepted`, `copies`: what is to become of the frames, by the events alone: which are kept, and
  which event makes a copy of which frame, and where;
* `Handed` relates a state to the frames that have arrived and the copies: memory is what the copies
  leave, and the copies and the queue together are the frames that were kept;
* `frames_delivered`: this holds after any sequence of events, no frame waits when the guest is
  ready, a copy stays until the guest clears the status bit, and the counters count, modulo
  `2 ^ 32`.
-/

namespace Tortoise.Emu

open List

inductive NetEvent where
  /-- a frame from outside -/
  | frame (d : List Byte)
  /-- the guest writes a register -/
  | write (off v : Word)
  /-- `net_events` at the instruction count -/
  | events (icount : BitVec 64)

def netStep (s : Machine) : NetEvent → Machine
  | .frame d => receive d s
  | .write off v => netWr off v s
  | .events n => netEvents { s with cpu := { s.cpu with icount := n } }

def netRun (s : Machine) (evs : List NetEvent) : Machine := evs.foldl netStep s

/-- The frame that an event brings to the receiver. -/
def NetEvent.frame? (s : Machine) : NetEvent → Option (List Byte)
  | .frame d => some d
  | .write _ _ => none
  | .events n =>
    if s.net.txPending ∧ s.net.txDone ≤ n ∧ s.cfg.backend = .loop then some s.net.txbuf else none

/-- The frame has the right length and destination. -/
def Machine.accepts (s : Machine) (d : List Byte) : Bool :=
  decide (frameMin ≤ d.length ∧ d.length ≤ frameMax) &&
    decide (s.net.ctrl &&& 8 ≠ 0 ∨ d.take 6 = s.cfg.mac ∨ d.take 6 = List.replicate 6 0xFF)

/-- The receiver is on and the queue not full. -/
def Machine.keeps (s : Machine) : Bool := decide (s.net.ctrl &&& 1 ≠ 0 ∧ s.net.queue.length ≠ 64)

/-- The accepted frames of a run, in order, each with whether it was kept. -/
def accepted : Machine → List NetEvent → List (List Byte × Bool)
  | _, [] => []
  | s, e :: es =>
    ((e.frame? s).toList.filter s.accepts).map (·, s.keeps) ++ accepted (netStep s e) es

/-- The guest clears the status bit. -/
def NetEvent.clears : NetEvent → Bool
  | .write off v => off == 0x0C && v &&& 1 != 0
  | _ => false

/-- The control register after the event. -/
def NetEvent.ctrl (c : Word) : NetEvent → Word
  | .write off v => if off = 0x08 then v &&& 15 else c
  | _ => c

/-- The receive address after the event. -/
def NetEvent.addr (a : Word) : NetEvent → Word
  | .write off v => if off = 0x18 then v else a
  | _ => a

/-- The receiver is on and the address that of a buffer in RAM. -/
def Machine.takes (s : Machine) (ctrl addr : Word) : Bool :=
  decide (ctrl &&& 1 ≠ 0 ∧ addr ≠ 0 ∧ addr.toNat + rxbufSize ≤ s.cfg.ramSize.toNat)

/-- The guest is ready for a frame: also, it has taken the last one. -/
def Machine.ready (s : Machine) : Prop :=
  s.takes s.net.ctrl s.net.rxAddr = true ∧ s.net.status &&& 1 = 0

/-- The copy that an event is to make: of the first frame in line, to the receive address, if the
guest is ready then. -/
def Machine.copy (s : Machine) (e : NetEvent) : Option (Word × List Byte) :=
  if s.takes (e.ctrl s.net.ctrl) (e.addr s.net.rxAddr) = true ∧
    (e.clears = true ∨ s.net.status &&& 1 = 0) then
    (s.net.queue.map (·.d) ++ (e.frame? s).toList.filter fun d => s.accepts d && s.keeps).head?.map
      (e.addr s.net.rxAddr, ·)
  else none

/-- The copies of a run. -/
def copies : Machine → List NetEvent → List (Word × List Byte)
  | _, [] => []
  | s, e :: es => (s.copy e).toList ++ copies (netStep s e) es

/-- A frame copied to an address. -/
def copyFrame (mem : Word → Byte) (c : Word × List Byte) : Word → Byte :=
  storeBytes mem c.1 c.2.length fun i => c.2.getD i 0

/-- What the device has made of the frames `acc`: the copies `log`, and a queue. -/
structure Handed (mem : Word → Byte) (acc : List (List Byte × Bool)) (log : List (Word × List Byte))
    (s : Machine) : Prop where
  mem : s.mem = log.foldl copyFrame mem
  order : log.map (·.2) ++ s.net.queue.map (·.d) = (acc.filter (·.2)).map (·.1)
  room : s.net.queue.length ≤ 64
  received : s.net.srx = BitVec.ofNat 32 log.length
  dropped : s.net.sdrop = BitVec.ofNat 32 (acc.countP (!·.2))
  last : s.net.status &&& 1 ≠ 0 → ∃ c, log.getLast? = some c ∧
    s.net.rxLen = BitVec.ofNat 32 c.2.length ∧ c.2.length ≤ frameMax

/-- Also, no frame waits when the guest is ready. -/
structure Settled (mem : Word → Byte) (acc : List (List Byte × Bool)) (log : List (Word × List Byte))
    (s : Machine) : Prop extends Handed mem acc log s where
  idle : s.ready → s.net.queue = []

section

variable {mem : Word → Byte} {acc : List (List Byte × Bool)} {log : List (Word × List Byte)}
  {s s' : Machine}

/-- A frame goes to memory, when the guest is ready. -/
theorem tryDeliver_cases (s : Machine) :
    (tryDeliver s = s ∧ (s.ready → s.net.queue = [])) ∨
    ∃ f q, s.ready ∧ s.net.queue = f :: q ∧
      (tryDeliver s).mem = copyFrame s.mem (s.net.rxAddr, f.d) ∧
      (tryDeliver s).net = { s.net with
        rxLen := BitVec.ofNat 32 f.d.length
        status := s.net.status ||| 1
        queue := q
        srx := s.net.srx + 1 } := by
  have hready : s.ready ↔ ¬(s.net.ctrl &&& 1 = 0 ∨ s.net.status &&& 1 ≠ 0 ∨ s.net.rxAddr = 0) ∧
      ¬s.cfg.ramSize.toNat < s.net.rxAddr.toNat + rxbufSize := by
    simp only [Machine.ready, Machine.takes, decide_eq_true_eq, not_or, not_not, not_lt]
    tauto
  rw [hready]
  unfold tryDeliver
  split
  · next hg => exact .inl ⟨rfl, fun h => absurd hg h.1⟩
  next hg =>
  split
  · next hr => exact .inl ⟨rfl, fun h => absurd hr h.2⟩
  next hr =>
  split
  · next hq => exact .inl ⟨rfl, fun _ => hq⟩
  · next f q hq =>
      refine .inr ⟨f, q, ⟨hg, hr⟩, hq, ?_⟩
      unfold dmaWrite cpuMemWritten picRaise
      dsimp only
      split <;> split <;> exact ⟨rfl, rfl⟩

theorem tryDeliver_of_status (h : s.net.status &&& 1 ≠ 0) : tryDeliver s = s := by
  obtain ⟨he, -⟩ | ⟨f, q, hr, _⟩ := tryDeliver_cases s
  · exact he
  · exact absurd hr.2 h

theorem receive_cases (d : List Byte) (s : Machine) :
    (s.accepts d = false ∧ receive d s = s) ∨
    (s.accepts d ∧ s.keeps = false ∧
      receive d s = { s with net := { s.net with sdrop := s.net.sdrop + 1 } }) ∨
    ∃ f : Frame, f.d = d ∧ s.accepts d ∧ s.keeps ∧ s.net.queue.length ≠ 64 ∧
      receive d s = tryDeliver { s with net := { s.net with queue := s.net.queue ++ [f] } } := by
  unfold receive
  split
  · next hl => exact .inl ⟨by simp [Machine.accepts]; omega, rfl⟩
  next hl =>
  split
  · next hd => exact .inl ⟨by simp_all [Machine.accepts], rfl⟩
  next hd =>
  have ha : s.accepts d = true := by
    simp only [Machine.accepts, Bool.and_eq_true, decide_eq_true_eq]
    exact ⟨by omega, by tauto⟩
  split
  · next hk =>
      refine .inr (.inl ⟨ha, ?_, rfl⟩)
      simp only [Machine.keeps, decide_eq_false_iff_not]
      tauto
  · next hk =>
      refine .inr (.inr ⟨⟨d, by omega⟩, rfl, ha, ?_, by tauto, rfl⟩)
      simp only [Machine.keeps, decide_eq_true_eq]
      tauto

section

variable (h : Handed mem acc log s)

include h

theorem Handed.congr (hm : s'.mem = s.mem) (hq : s'.net.queue = s.net.queue)
    (hr : s'.net.srx = s.net.srx) (hd : s'.net.sdrop = s.net.sdrop)
    (hl : s'.net.rxLen = s.net.rxLen) (hs : s'.net.status &&& 1 ≠ 0 → s.net.status &&& 1 ≠ 0) :
    Handed mem acc log s' where
  mem := hm.trans h.mem
  order := hq ▸ h.order
  room := hq ▸ h.room
  received := hr.trans h.received
  dropped := hd.trans h.dropped
  last := fun h1 => hl ▸ h.last (hs h1)

/-- What `try_deliver` hands over. -/
theorem Handed.tryDeliver {c : Option (Word × List Byte)} (hready : s.ready →
      c = (s.net.queue.map (·.d)).head?.map (s.net.rxAddr, ·)) (hnot : ¬s.ready → c = none) :
    Settled mem acc (log ++ c.toList) (tryDeliver s) := by
  obtain ⟨he, hq⟩ | ⟨f, q, hr, hq, hm, hn⟩ := tryDeliver_cases s
  · obtain rfl : c = none := by
      by_cases hr : s.ready
      · simpa [hq hr] using hready hr
      · exact hnot hr
    rw [he]
    exact ⟨by simpa using h, hq⟩
  · obtain rfl : c = some (s.net.rxAddr, f.d) := by simpa [hq] using hready hr
    refine ⟨⟨?_, ?_, ?_, ?_, ?_, fun _ => ⟨(s.net.rxAddr, f.d), ?_, ?_, f.length_le⟩⟩, fun h' => ?_⟩
    · rw [hm, h.mem, foldl_append]
      rfl
    · simpa [hn, hq] using h.order
    · have := h.room
      simp only [hq, length_cons] at this
      simp only [hn]
      omega
    · simp [hn, h.received, BitVec.ofNat_add]
    · simpa [hn] using h.dropped
    · simp
    · rw [hn]
    · -- the status bit is set now
      have hone : (s.net.status ||| 1) &&& 1 = 1 := by
        rw [BitVec.and_comm, BitVec.and_or_distrib_left, BitVec.and_self, BitVec.and_comm, hr.2]
        rfl
      have hstatus := h'.2
      rw [hn] at hstatus
      exact absurd (hone.symm.trans hstatus) (by decide)

end

section

variable (h : Settled mem acc log s)

include h

/-- Nothing is handed over where no register changes and no frame is kept. -/
theorem Settled.still {e : NetEvent} (hc : e.ctrl s.net.ctrl = s.net.ctrl)
    (ha : e.addr s.net.rxAddr = s.net.rxAddr) (hcl : e.clears = false)
    (hf : (e.frame? s).toList.filter (fun d => s.accepts d && s.keeps) = []) :
    s.copy e = none := by
  rw [Machine.copy, hc, ha, hcl, hf]
  split
  · next hr =>
    have hq := h.idle ⟨hr.1, by simpa using hr.2⟩
    simp [hq]
  · rfl

theorem Settled.receive (d : List Byte) :
    Settled mem (acc ++ ([d].filter s.accepts).map (·, s.keeps))
      (log ++ (s.copy (.frame d)).toList) (receive d s) := by
  have hnone (hk : (s.accepts d && s.keeps) = false) : s.copy (.frame d) = none :=
    h.still rfl rfl rfl (by simp [NetEvent.frame?, hk])
  obtain ⟨ha, he⟩ | ⟨ha, hk, he⟩ | ⟨f, rfl, ha, hk, hn, he⟩ := receive_cases d s
  · rw [he, hnone (by simp [ha])]
    simpa [ha] using h
  · rw [he, hnone (by simp [hk])]
    refine ⟨⟨by simpa using h.mem, ?_, h.room, by simpa using h.received, ?_,
      by simpa using h.last⟩, h.idle⟩
    · simpa [ha, hk] using h.order
    · simp [ha, hk, h.dropped, BitVec.ofNat_add]
  · rw [he]
    refine Handed.tryDeliver (?_ : Handed mem _ log _) (fun hr => ?_) fun hr => ?_
    · refine ⟨h.mem, ?_, ?_, h.received, ?_, h.last⟩
      · simp [ha, hk, ← h.order]
      · have := h.room
        simp only [length_append, length_singleton]
        omega
      · simpa [ha, hk] using h.dropped
    · refine (if_pos ⟨hr.1, .inr hr.2⟩).trans ?_
      simp [NetEvent.frame?, NetEvent.addr, ha, hk]
    · exact if_neg fun hr' => hr ⟨hr'.1, by simpa [NetEvent.clears] using hr'.2⟩

theorem Settled.netWr (off v : Word) :
    Settled mem acc (log ++ (s.copy (.write off v)).toList) (netWr off v s) := by
  -- the registers of `try_deliver` are those after the event
  have hdeliver {u : Machine} (hu : Handed mem acc log u) (hcfg : u.cfg = s.cfg)
      (hq : u.net.queue = s.net.queue)
      (hc : (NetEvent.write off v).ctrl s.net.ctrl = u.net.ctrl)
      (ha : (NetEvent.write off v).addr s.net.rxAddr = u.net.rxAddr)
      (hs : (NetEvent.write off v).clears = true ∨ s.net.status &&& 1 = 0 ↔
        u.net.status &&& 1 = 0) :
      Settled mem acc (log ++ (s.copy (.write off v)).toList) (tryDeliver u) := by
    have hcopy : s.copy (.write off v) = if u.takes u.net.ctrl u.net.rxAddr = true ∧
        u.net.status &&& 1 = 0 then (u.net.queue.map (·.d)).head?.map (u.net.rxAddr, ·)
        else none := by
      rw [Machine.copy, hc, ha, hq]
      refine if_congr (and_congr (by simp only [Machine.takes, hcfg]) hs) ?_ rfl
      simp [NetEvent.frame?]
    rw [hcopy]
    exact hu.tryDeliver (fun hr => if_pos hr) fun hr => if_neg hr
  have hstill (hne : off ≠ 0x08 ∧ off ≠ 0x18 ∧ (NetEvent.write off v).clears = false) :
      s.copy (.write off v) = none :=
    h.still (if_neg hne.1) (if_neg hne.2.1) hne.2.2 rfl
  have hlog : Settled mem acc (log ++ []) s := by simpa using h
  unfold Emu.netWr
  split
  · next hoff =>
    refine hdeliver (h.congr rfl rfl rfl rfl rfl id) rfl rfl (if_pos hoff)
      (by simp [hoff, NetEvent.addr]) (by simp [NetEvent.clears, hoff])
  split
  · next hoff =>
    split
    · next hv =>
      refine hdeliver (h.congr rfl rfl rfl rfl rfl fun h1 => absurd ?_ h1) rfl rfl
        (by simp [hoff, NetEvent.ctrl]) (by simp [hoff, NetEvent.addr]) ?_
      · simp [BitVec.and_assoc]
      · exact iff_of_true (.inl (by simpa [NetEvent.clears, hoff] using hv))
          (by simp [BitVec.and_assoc])
    · next hv =>
      rw [hstill (by simp_all [NetEvent.clears])]
      exact hlog
  split
  · next hoff =>
    rw [hstill (by simp [NetEvent.clears, hoff])]
    exact ⟨hlog.congr rfl rfl rfl rfl rfl id, h.idle⟩
  split
  · next hoff =>
    rw [hstill (by simp [NetEvent.clears, hoff])]
    dsimp only
    split
    · exact ⟨hlog.congr rfl rfl rfl rfl rfl id, h.idle⟩
    · exact ⟨hlog.congr rfl rfl rfl rfl rfl id, h.idle⟩
  split
  · next hoff =>
    refine hdeliver (h.congr rfl rfl rfl rfl rfl id) rfl rfl (by simp [hoff, NetEvent.ctrl])
      (if_pos hoff) (by simp [NetEvent.clears, hoff])
  · rw [hstill (by simp_all [NetEvent.clears])]
    exact hlog

theorem Settled.txCheck : Settled mem acc log (txCheck s) := by
  unfold Emu.txCheck
  split
  · exact ⟨h.congr rfl rfl rfl rfl rfl id, h.idle⟩
  · exact h

theorem Settled.netEvents : Settled mem
    (acc ++ (((NetEvent.events s.cpu.icount).frame? s).toList.filter s.accepts).map (·, s.keeps))
    (log ++ (s.copy (.events s.cpu.icount)).toList) (netEvents s) := by
  set e := NetEvent.events s.cpu.icount with he
  by_cases hf : s.net.txPending ∧ s.net.txDone ≤ s.cpu.icount ∧ s.cfg.backend = .loop
  · -- the frame comes back
    have hframe : e.frame? s = some s.net.txbuf := if_pos hf
    have hcopy : s.copy e = Machine.copy { s with net := { s.net with
        txPending := false, stx := s.net.stx + 1 } } (.frame s.net.txbuf) := by
      simp only [Machine.copy, hframe]
      rfl
    rw [hframe, hcopy, Emu.netEvents, if_pos ⟨hf.1, hf.2.1⟩, txSend]
    simp only [hf.2.2]
    refine Settled.txCheck ?_
    exact Settled.receive (s := { s with net := { s.net with
      txPending := false, stx := s.net.stx + 1 } }) ⟨h.congr rfl rfl rfl rfl rfl id, h.idle⟩ _
  · have hframe : e.frame? s = none := if_neg hf
    rw [h.still rfl rfl rfl (by rw [hframe]; rfl), hframe]
    have hlog : Settled mem (acc ++ []) (log ++ []) s := by simpa using h
    unfold Emu.netEvents
    split
    · next hp =>
      refine Settled.txCheck ?_
      unfold txSend
      split
      · next hb => exact absurd ⟨hp.1, hp.2, hb⟩ hf
      · exact ⟨hlog.congr rfl rfl rfl rfl rfl id, hlog.idle⟩
      · exact ⟨hlog.congr rfl rfl rfl rfl rfl id, hlog.idle⟩
    · exact hlog

theorem Settled.step (e : NetEvent) : Settled mem
    (acc ++ ((e.frame? s).toList.filter s.accepts).map (·, s.keeps))
    (log ++ (s.copy e).toList) (netStep s e) := by
  cases e with
  | frame d => exact h.receive d
  | write off v => simpa [NetEvent.frame?, netStep] using h.netWr off v
  | events n =>
    exact Settled.netEvents (s := { s with cpu := { s.cpu with icount := n } })
      ⟨h.congr rfl rfl rfl rfl rfl id, h.idle⟩

theorem Settled.run (evs : List NetEvent) :
    Settled mem (acc ++ accepted s evs) (log ++ copies s evs) (netRun s evs) := by
  induction evs generalizing s acc log with
  | nil => simpa [accepted, copies, netRun] using h
  | cons e es ih => simpa [accepted, copies, netRun] using ih (h.step e)

/-- Each accepted frame was copied, is queued, or was dropped. -/
theorem Settled.sum :
    (s.net.srx.toNat + s.net.sdrop.toNat + s.net.queue.length) % 2 ^ 32 = acc.length % 2 ^ 32 := by
  have hkept := congrArg List.length h.order
  have hall : acc.length = acc.countP (·.2) + acc.countP (!·.2) := by
    simpa using length_eq_countP_add_countP (l := acc) (·.2)
  simp only [length_append, length_map, ← countP_eq_length_filter] at hkept
  simp only [h.received, h.dropped, BitVec.toNat_ofNat]
  omega

end

theorem copies_last {a : Word} {d : List Byte} (hl : log.getLast? = some (a, d))
    (hd : d.length ≤ frameMax) {i : Nat} (hi : i < d.length) :
    log.foldl copyFrame mem (a + BitVec.ofNat 32 i) = d.getD i 0 := by
  obtain ⟨l, rfl⟩ := List.getLast?_eq_some_iff.1 hl
  have hsub : (a + BitVec.ofNat 32 i - a).toNat = i := by
    unfold frameMax at hd
    bv_omega
  rw [foldl_append, foldl_cons, foldl_nil, copyFrame, storeBytes, hsub, if_pos hi]

/-- Nothing is copied while the status bit is set. -/
theorem netStep_of_status (h : s.net.status &&& 1 ≠ 0) {e : NetEvent} (he : e.clears = false) :
    (netStep s e).mem = s.mem ∧ (netStep s e).net.rxLen = s.net.rxLen ∧
      (netStep s e).net.status = s.net.status := by
  have hreceive (d : List Byte) {s : Machine} (h : s.net.status &&& 1 ≠ 0) :
      (receive d s).mem = s.mem ∧ (receive d s).net.rxLen = s.net.rxLen ∧
        (receive d s).net.status = s.net.status := by
    obtain ⟨-, he⟩ | ⟨-, -, he⟩ | ⟨f, -, -, -, -, he⟩ := receive_cases d s
    · simp [he]
    · simp [he]
    · rw [he, tryDeliver_of_status (by exact h)]
      exact ⟨rfl, rfl, rfl⟩
  cases e with
  | frame d => exact hreceive d h
  | write off v =>
    simp only [netStep, netWr, schedule]
    grind [tryDeliver_of_status, NetEvent.clears]
  | events n =>
    simp only [netStep, netEvents, txCheck, txSend, picRaise]
    grind

end

/-- What `net_reset` leaves. -/
def Machine.netReset (s : Machine) : Machine := { s with net := Emu.netReset }

theorem netReset_settled (s : Machine) (evs : List NetEvent) :
    Settled s.mem (accepted s.netReset evs) (copies s.netReset evs) (netRun s.netReset evs) := by
  have h0 : Settled s.mem [] [] s.netReset := by
    refine ⟨⟨rfl, rfl, Nat.zero_le 64, rfl, rfl, fun h => ?_⟩, fun _ => rfl⟩
    simp [Machine.netReset, Emu.netReset] at h
  exact h0.run evs

/-- The registers hold what was last written to them. -/
theorem netStep_registers (s : Machine) (e : NetEvent) :
    (netStep s e).net.ctrl = e.ctrl s.net.ctrl ∧
      (netStep s e).net.rxAddr = e.addr s.net.rxAddr := by
  have hdeliver (s : Machine) : (tryDeliver s).net.ctrl = s.net.ctrl ∧
      (tryDeliver s).net.rxAddr = s.net.rxAddr := by
    obtain ⟨he, -⟩ | ⟨f, q, -, -, -, hn⟩ := tryDeliver_cases s
    · rw [he]
      exact ⟨rfl, rfl⟩
    · rw [hn]
      exact ⟨rfl, rfl⟩
  have hreceive (d : List Byte) (s : Machine) : (receive d s).net.ctrl = s.net.ctrl ∧
      (receive d s).net.rxAddr = s.net.rxAddr := by
    obtain ⟨-, he⟩ | ⟨-, -, he⟩ | ⟨f, -, -, -, -, he⟩ := receive_cases d s
    · simp [he]
    · simp [he]
    · rw [he]
      exact hdeliver _
  cases e with
  | frame d => exact hreceive d s
  | write off v =>
    simp only [netStep, netWr, schedule, NetEvent.ctrl, NetEvent.addr]
    grind
  | events n =>
    simp only [netStep, netEvents, txCheck, txSend, picRaise, NetEvent.ctrl, NetEvent.addr]
    grind

theorem netRun_registers (s : Machine) (evs : List NetEvent) :
    (netRun s evs).net.ctrl = evs.foldl NetEvent.ctrl s.net.ctrl ∧
      (netRun s evs).net.rxAddr = evs.foldl NetEvent.addr s.net.rxAddr := by
  induction evs generalizing s with
  | nil => exact ⟨rfl, rfl⟩
  | cons e es ih =>
    obtain ⟨hc, ha⟩ := netStep_registers s e
    rw [foldl_cons, foldl_cons, ← hc, ← ha]
    exact ih (netStep s e)

theorem accepted_replicate {d : List Byte} (h : ∀ s : Machine, s.accepts d = true) (s : Machine)
    (n : Nat) : (accepted s (List.replicate n (.frame d))).length = n := by
  induction n generalizing s with
  | zero => rfl
  | succ n ih => simp [List.replicate_succ, accepted, NetEvent.frame?, h, ih]

/-- The receiver is turned on, and then `n` frames for all stations arrive. -/
def flood (n : Nat) : List NetEvent :=
  .write 0x08 1 :: List.replicate n (.frame (List.replicate 14 0xFF))

theorem flood_accepted (s : Machine) (n : Nat) : (accepted s (flood n)).length = n :=
  accepted_replicate (fun s => by simp [Machine.accepts, frameMin, frameMax])
    (netStep s (.write 0x08 1)) n

theorem flood_short (s : Machine) {n : Nat} (hn : 2 ^ 34 ≤ n) :
    let t := netRun s.netReset (flood n)
    t.net.srx.toNat + t.net.sdrop.toNat + t.net.queue.length ≠
      (accepted s.netReset (flood n)).length := by
  intro t
  have h := netReset_settled s (flood n)
  have hroom : t.net.queue.length ≤ 64 := h.room
  have hr := t.net.srx.isLt
  have hd := t.net.sdrop.isLt
  rw [flood_accepted]
  omega

end Tortoise.Emu
