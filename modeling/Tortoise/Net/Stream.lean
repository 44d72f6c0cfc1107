import Tortoise.Net.Receive

/-!
# The stream arrives

Both ends and every segment ever sent are in order after every step, whatever the
calls, the timers and the network do.  So what `tcp_recv` has given at one end is
always a beginning of what `tcp_send` has accepted at the other, and the end of the
stream is reported behind its last byte.
-/

namespace Tortoise.Net

open Function Lib List

variable {ep : Endpoint} {f : Flight} {out : List Seg} {r : Option Recv} {m : Seg}

/-! ## Ends and worlds in order -/

/-- The bytes an end holds for its program. -/
def Endpoint.rx : Endpoint → List Byte
  | .fresh _ => []
  | .live s _ => s.rx.toList
  | .dead (some s) => s.rx.toList
  | .dead none => []

/-- The end accepts no more bytes from its program. -/
def Endpoint.final : Endpoint → Prop
  | .fresh _ => False
  | .live s _ => s.shutWr = true
  | .dead _ => True

/-- The end keeps what arrives for its program. -/
def Endpoint.reading : Endpoint → Prop
  | .fresh _ => True
  | .live s _ => s.shutRd = false
  | .dead (some s) => s.shutRd = false
  | .dead none => False

/-- The track of an end that has done nothing. -/
def Track.blank (iss : Seq) : Track := ⟨iss, 0, 0, 0, [], [], false⟩

structure SideOk (strict : Prop) (ep : Endpoint) (k p : Track) (pfinal : Prop) : Prop where
  linked : Linked strict k p ep.final pfinal ep.rx ep.reading
  tied : ∀ s t, ep = .live s t → Tied strict k p s.tx s.shutWr t.core
  fresh : ∀ l, ep = .fresh l → k = .blank k.iss

/-- What a segment on its way says is true of the end that sent it. -/
def FlightOk (strict : Prop) (k p : Track) (final : Prop) (f : Flight) : Prop :=
  f.seg.flags.rst = true ∨
    (f.seg.seq = serialAt k.iss f.seqN ∧ Carries strict k final f.seqN f.seg) ∧
      (f.seg.flags.ack = true →
        f.seg.ack = serialAt p.iss f.ackN ∧ 1 ≤ f.ackN ∧ f.ackN ≤ k.rcv)

structure WorldOk (strict : Prop) (w : World) : Prop where
  side : ∀ x, SideOk strict (w.side x).ep (w.side x).track (w.side !x).track (w.side !x).ep.final
  wire : ∀ x, ∀ f ∈ w.wire x,
    FlightOk strict (w.side x).track (w.side !x).track (w.side x).ep.final f

/-- What a call at an end has to do. -/
structure Turn (strict : Prop) (ep : Endpoint) (k p : Track) (pfinal : Prop) (e : Effect) : Prop where
  grow : Grow k (k.follow ep e) ep.final e.ep.final
  side : SideOk strict e.ep (k.follow ep e) p pfinal
  out : ∀ m ∈ e.out, Emits strict (k.follow ep e) p e.ep.final m

section

variable {strict : Prop} {k k' p : Track} {pfinal : Prop} {s s' : Sock} {t t' : Tcb} {iss : Seq}

/-! ## The track follows the control block -/

theorem Tied.max_pos {tx : RingBuf Byte} {w : Bool} {q : Core} (h : Tied strict k p tx w q)
    (hle : k.una ≤ k.max) : 1 ≤ k.max := by
  by_cases hst : handshaking q.state = true
  · rw [(h.shaking hst).2.1]
  · have := h.shaken (Bool.not_eq_true _ ▸ hst)
    omega

theorem unwrap_serialAt {a b : Nat} (hab : a ≤ b) (hb : b < a + 2 ^ 32) :
    unwrap a (serialAt iss a) (serialAt iss b) = b := by
  unfold unwrap
  rw [serialAt_sub_toNat hab hb]
  omega

/-- How far `rcv` goes in one call. -/
theorem follow_rcv (h : Tied strict k p s.tx s.shutWr t.core)
    (h' : Tied strict k' p s'.tx s'.shutWr t'.core) (hr : k.rcv ≤ k'.rcv)
    (hb : k'.rcv < k.rcv + 2 ^ 32) :
    (if t.state = .synSent then (t'.rcvNxt - t'.irs).toNat else unwrap k.rcv t.rcvNxt t'.rcvNxt) =
      k'.rcv := by
  by_cases hst : t.state = .synSent
  · obtain ⟨h0, -, -⟩ := h.unheard hst
    rw [if_pos hst]
    by_cases hst' : t'.state = .synSent
    · obtain ⟨h1, h2, h3⟩ := h'.unheard hst'
      rw [show t'.rcvNxt = 0 from h2, show t'.irs = 0 from h3, h1]
      rfl
    · obtain ⟨-, h2, h3⟩ := h'.heard hst'
      rw [show t'.rcvNxt = _ from h2, show t'.irs = _ from h3]
      have := serialAt_sub_toNat (s := p.iss) (Nat.zero_le k'.rcv) (by omega)
      rwa [serialAt_zero] at this
  · rw [if_neg hst]
    obtain ⟨h1, h2, -⟩ := h.heard hst
    have hst' : t'.core.state ≠ .synSent := by
      intro hs
      have := (h'.unheard hs).1
      omega
    obtain ⟨-, h2', -⟩ := h'.heard hst'
    rw [show t.rcvNxt = _ from h2, show t'.rcvNxt = _ from h2']
    exact unwrap_serialAt hr hb

/-- **The track follows**: unwrapping the control block gives the numbers it is tied to. -/
theorem follow_live {final final' : Prop} {more taken : List Byte} {rx : List Byte} {reading : Prop}
    (h : Tied strict k p s.tx s.shutWr t.core) (h' : Tied strict k' p s'.tx s'.shutWr t'.core)
    (hl : Linked strict k p final pfinal rx reading) (hg : Grow k k' final final')
    (hm : k'.sent = k.sent ++ more) (ht : k'.got = k.got ++ taken) (hu : k'.una < k.una + 2 ^ 32)
    (hx : k'.max < k.max + 2 ^ 32) (hr : k'.rcv < k.rcv + 2 ^ 32) :
    k.follow (.live s t) ⟨.live s' t', out, more, taken, r⟩ = k' := by
  have hiss : k'.iss = k.iss := hg.iss (h.max_pos hl.una_le)
  have e1 : unwrap k.una t.sndUna t'.sndUna = k'.una := by
    rw [show t.sndUna = _ from h.una, show t'.sndUna = _ from h'.una, hiss]
    exact unwrap_serialAt hg.una hu
  have e2 : unwrap k.max t.sndMax t'.sndMax = k'.max := by
    rw [show t.sndMax = _ from h.max, show t'.sndMax = _ from h'.max, hiss]
    exact unwrap_serialAt hg.max hx
  have e3 := follow_rcv h h' hg.rcv hr
  have e4 : (k.fin || t'.finRcvd) = k'.fin := by
    rw [show t'.finRcvd = _ from h'.finRcvd]
    cases hf : k.fin with
    | false => rfl
    | true => simp [hg.fin hf]
  unfold Track.follow
  simp only [e1, e2, e3, e4, ← hm, ← ht, ← hiss]

/-! ## One call -/

/-- A call that leaves a connection in order. -/
theorem turn_live {more taken : List Byte} {c : Conn} {prx : List Byte} {preading : Prop}
    (h : SideOk strict (.live s t) k p pfinal)
    (hp : Linked strict p k pfinal (s.shutWr = true) prx preading)
    (hn : Next strict k p (s.shutWr = true) pfinal more taken c) :
    Turn strict (.live s t) k p pfinal ⟨.live c.sock c.tcb, c.out, more, taken, r⟩ := by
  obtain ⟨k', hg, hm, ht, hc⟩ := hn
  have h1 := hc.linked.una_rcv
  have h2 := hp.rcv_le
  have h3 := h.linked.max_near
  have h4 := hc.linked.max_near
  have h5 := hc.linked.rcv_le
  have h6 := hp.max_near
  have h7 := hp.una_rcv
  have h8 := h.linked.una_le
  unfold ringSize at h3 h4 h6
  have he : k.follow (.live s t) ⟨.live c.sock c.tcb, c.out, more, taken, r⟩ = k' :=
    follow_live (h.tied s t rfl) hc.tied h.linked hg hm ht (by omega) (by omega) (by omega)
  refine ⟨?_, ?_, ?_⟩
  · rw [he]
    exact hg
  · rw [he]
    exact
      { linked := hc.linked
        tied := by
          rintro s₁ t₁ ⟨⟩
          exact hc.tied
        fresh := fun _ hd => by cases hd }
  · rw [he]
    exact hc.out

/-- A call that frees the control block. -/
theorem turn_closed {s'' : Option Sock} (h : SideOk strict (.live s t) k p pfinal)
    (ha : AfterOk strict k p pfinal s (.closed s'' out)) :
    Turn strict (.live s t) k p pfinal ⟨.dead s'', out, [], [], none⟩ := by
  have he : k.follow (.live s t) ⟨.dead s'', out, [], [], none⟩ = k := by
    simp [Track.follow]
  obtain ⟨ho, hs⟩ := ha
  refine ⟨?_, ?_, ?_⟩
  · rw [he]
    exact { Grow.refl k _ with final := fun _ => trivial }
  · rw [he]
    refine ⟨?_, (fun _ _ hd => by cases hd), (fun _ hd => by cases hd)⟩
    cases s'' with
    | none =>
      exact
        { h.linked with
          max_final := fun _ => trivial
          una_final := fun _ => trivial
          got := by
            change k.got ++ [] <+: p.sent
            rw [append_nil]
            exact (prefix_append _ _).trans h.linked.got
          all := nofun }
    | some s₁ =>
      obtain ⟨hrx, hrd⟩ := hs s₁ rfl
      exact
        { h.linked with
          max_final := fun _ => trivial
          una_final := fun _ => trivial
          got := by
            change k.got ++ s₁.rx.toList <+: p.sent
            rw [hrx]
            exact h.linked.got
          all := fun hr => by
            change k.got ++ s₁.rx.toList = _
            rw [hrx]
            exact h.linked.all (hrd hr) }
  · intro m hm
    exact Or.inl (ho m hm)

theorem turn_after {a : After} {prx : List Byte} {preading : Prop}
    (h : SideOk strict (.live s t) k p pfinal)
    (hp : Linked strict p k pfinal (s.shutWr = true) prx preading)
    (ha : AfterOk strict k p pfinal s a) : Turn strict (.live s t) k p pfinal a.effect := by
  cases a with
  | live c => exact turn_live h hp ha
  | closed s' out => exact turn_closed h ha

/-- A call that changes nothing, and sends nothing but resets. -/
theorem turn_none (h : SideOk strict ep k p pfinal) (hl : ∀ s t, ep ≠ .live s t)
    (ho : ∀ m ∈ out, m.flags.rst = true) : Turn strict ep k p pfinal ⟨ep, out, [], [], r⟩ := by
  have he : k.follow ep ⟨ep, out, [], [], r⟩ = k := by
    cases ep with
    | live s t => exact absurd rfl (hl s t)
    | fresh l => simp [Track.follow]
    | dead s => simp [Track.follow]
  refine ⟨?_, ?_, ?_⟩
  · rw [he]
    exact .refl k _
  · rw [he]
    exact h
  · intro m hm
    exact Or.inl (ho m hm)

theorem turn_idle (h : SideOk strict ep k p pfinal) (hl : ∀ s t, ep ≠ .live s t) :
    Turn strict ep k p pfinal (.none ep) :=
  turn_none h hl nofun

/-! ## Opening -/

theorem connOk_new (iss : Seq) (parent : Bool) :
    ConnOk strict ⟨iss, 0, 1, 0, [], [], false⟩ p pfinal
      ⟨newSock parent, newTcb .synSent iss, []⟩ where
  linked :=
    { una_le := Nat.zero_le _
      max_le := by simp [Track.top]
      max_final := by simp [Track.top]
      una_final := by simp
      buffered := by simp
      one_fin := by simp
      una_rcv := Nat.zero_le _
      rcv_le := Nat.zero_le _
      rcv_max := fun _ => Nat.zero_le _
      rcv_pos := by simp
      rcv_final := by simp
      eof := nofun
      got := nil_prefix
      all := fun _ => rfl }
  tied :=
    { opened := ⟨nofun, nofun⟩
      size := rfl
      una := (serialAt_zero iss).symm
      max := rfl
      nxt := ⟨1, rfl, Nat.zero_le _, le_rfl⟩
      text := rfl
      finSent := nofun
      finAcked := by simp
      shaking := fun _ => ⟨rfl, rfl, rfl, rfl, rfl, rfl⟩
      shaken := nofun
      unheard := fun _ => ⟨rfl, rfl, rfl⟩
      heard := fun hne => absurd rfl hne
      finRcvd := rfl }
  out := nofun

/-- The first call at a fresh end that makes a connection. -/
theorem turn_fresh {l : Bool} {c : Conn} {r : Nat} (h : SideOk strict (.fresh l) k p pfinal)
    (hiss : c.tcb.iss = iss) (hr : (c.tcb.rcvNxt - c.tcb.irs).toNat = r)
    (hc : ConnOk strict ⟨iss, 0, 1, r, [], [], false⟩ p pfinal c) :
    Turn strict (.fresh l) k p pfinal (After.live c).effect := by
  have hk := h.fresh l rfl
  have he : k.follow (.fresh l) (After.live c).effect = ⟨iss, 0, 1, r, [], [], false⟩ := by
    rw [hk]
    simp [Track.follow, After.effect, After.ep, Track.blank, hiss, hr]
  refine ⟨?_, ?_, ?_⟩
  · rw [he, hk]
    exact
      { iss := by simp [Track.blank]
        una := le_rfl
        max := Nat.zero_le _
        rcv := Nat.zero_le _
        sent := prefix_rfl
        frozen := fun hf => hf.elim
        fin := nofun
        final := fun hf => hf.elim }
  · rw [he]
    refine ⟨hc.linked, ?_, fun _ hd => by cases hd⟩
    rintro s t ⟨⟩
    exact hc.tied
  · rw [he]
    exact hc.out

theorem connOk_connect (env : Env) (iss : Seq) :
    ConnOk strict ⟨iss, 0, 1, 0, [], [], false⟩ p pfinal (tcpConnect env iss) :=
  ((connOk_new iss false).syn env ⟨false, true, false, false, false⟩ rfl rfl rfl nofun).arm env

/-- The control block with which a listener answers a `SYN`. -/
def acceptTcb (env : Env) (iss : Seq) (m : Seg) : Tcb :=
  parseMss env m
    { newTcb .synReceived iss with irs := m.seq, rcvNxt := m.seq + 1, sndWnd := m.win }

theorem core_acceptTcb (env : Env) (iss : Seq) (m : Seg) : (acceptTcb env iss m).core =
    { (newTcb .synReceived iss).core with irs := m.seq, rcvNxt := m.seq + 1 } :=
  core_parseMss env m _

theorem connOk_accept (env : Env) (iss : Seq) (hseq : m.seq = p.iss) (hp : 1 ≤ p.max) :
    ConnOk strict ⟨iss, 0, 1, 1, [], [], false⟩ p pfinal (tcpAccept env iss m) := by
  have h : ConnOk strict ⟨iss, 0, 1, 1, [], [], false⟩ p pfinal
      ⟨newSock true, acceptTcb env iss m, []⟩ :=
    ConnOk.hear (connOk_new iss true) rfl rfl hseq hp (core_acceptTcb env iss m)
  have hst : (acceptTcb env iss m).state = .synReceived :=
    congrArg Core.state (core_acceptTcb env iss m)
  have hiss : (acceptTcb env iss m).iss = iss := congrArg Core.iss (core_acceptTcb env iss m)
  have h' := (h.syn env { fAck with syn := true } (congrArg handshaking hst) rfl rfl
    (fun _ => by rw [show Conn.tcb _ = acceptTcb env iss m from rfl, hst]; decide)).arm env
  rw [show (Conn.mk (newSock true) (acceptTcb env iss m) []).tcb.iss = iss from hiss] at h'
  exact h'

/-! ## Any call -/

variable {prx : List Byte} {preading : Prop}

theorem turn_inputNone {l room : Bool} (env : Env) (h : SideOk strict ep k p pfinal)
    (hl : ∀ s t, ep ≠ .live s t) (hep : l = true → ep = .fresh l)
    (hm : Arrives strict k p pfinal m) :
    Turn strict ep k p pfinal (inputNone env l m iss room ep) := by
  unfold inputNone
  by_cases hcond : (!l || !m.flags.syn || m.flags.ack || m.flags.rst) = true
  · rw [if_pos hcond]
    refine turn_none h hl ?_
    intro r hr
    split at hr
    · cases hr
    · exact rst_sendReset hr
  · rw [if_neg hcond]
    cases room with
    | false => exact turn_idle h hl
    | true =>
      simp only [Bool.or_eq_true, Bool.not_eq_true', not_or, Bool.not_eq_false,
        Bool.not_eq_true] at hcond
      obtain ⟨⟨⟨hlis, hsyn⟩, -⟩, hrst⟩ := hcond
      rw [hep hlis] at h ⊢
      obtain ⟨⟨n, hseq, hc, -⟩, -⟩ := hm.resolve_left (by simp [hrst])
      have hseq0 : m.seq = p.iss := by rw [hseq, (hc.syn hsyn).1, serialAt_zero]
      refine turn_fresh (r := 1) h ?_ ?_ (connOk_accept env iss hseq0 hc.sent)
      · exact congrArg Core.iss ((core_arm env _).trans (core_acceptTcb env iss m))
      · have he := (core_arm env (acceptTcb env iss m)).trans (core_acceptTcb env iss m)
        change ((arm env (acceptTcb env iss m)).rcvNxt - (arm env (acceptTcb env iss m)).irs).toNat = 1
        rw [show (arm env (acceptTcb env iss m)).rcvNxt = m.seq + 1 from congrArg Core.rcvNxt he,
          show (arm env (acceptTcb env iss m)).irs = m.seq from congrArg Core.irs he]
        have := serialAt_sub_toNat (s := m.seq) (Nat.zero_le 1) (by decide)
        rwa [serialAt_zero] at this

theorem turn_recvClosed {n : Nat} {peek : Bool} (h : SideOk strict (.dead (some s)) k p pfinal) :
    Turn strict (.dead (some s)) k p pfinal
      ⟨.dead (some (recvClosed n peek s).1), [], [], (recvClosed n peek s).2.taken peek,
        some (recvClosed n peek s).2⟩ := by
  have hrd : (recvClosed n peek s).1.shutRd = s.shutRd := by
    unfold recvClosed
    split_ifs <;> rfl
  have hmove : k.got ++ (recvClosed n peek s).2.taken peek ++ (recvClosed n peek s).1.rx.toList =
      k.got ++ s.rx.toList := by
    unfold recvClosed
    split_ifs
    · obtain ⟨h1, h2⟩ := s.rx.get_eq n peek
      simp only [Recv.taken, h1, h2]
      cases peek <;> simp
    · simp [Recv.taken]
    · simp [Recv.taken]
  have he : k.follow (.dead (some s)) ⟨.dead (some (recvClosed n peek s).1), [], [],
      (recvClosed n peek s).2.taken peek, some (recvClosed n peek s).2⟩ =
      { k with got := k.got ++ (recvClosed n peek s).2.taken peek } := by
    simp [Track.follow]
  refine ⟨?_, ?_, by simp⟩
  · rw [he]
    exact { Grow.refl k _ with }
  · rw [he]
    refine ⟨?_, (fun _ _ hd => by cases hd), (fun _ hd => by cases hd)⟩
    exact
      { h.linked with
        got := by
          change k.got ++ _ ++ (recvClosed n peek s).1.rx.toList <+: p.sent
          rw [hmove]
          exact h.linked.got
        all := fun hr => by
          change k.got ++ _ ++ (recvClosed n peek s).1.rx.toList = _
          rw [hmove]
          exact h.linked.all (hrd.symm.trans hr) }

/-- The program closes a socket whose control block is gone. -/
theorem turn_forget (h : SideOk strict (.dead (some s)) k p pfinal) :
    Turn strict (.dead (some s)) k p pfinal (.none (.dead none)) := by
  have he : k.follow (.dead (some s)) (.none (.dead none)) = k := by
    simp [Track.follow, Effect.none]
  have hgot : k.got ++ [] <+: p.sent := by
    rw [append_nil]
    exact (prefix_append _ _).trans h.linked.got
  refine ⟨?_, ?_, nofun⟩
  · rw [he]
    exact .refl k _
  · rw [he]
    exact ⟨{ h.linked with got := hgot, all := nofun }, (fun _ _ hd => by cases hd),
      (fun _ hd => by cases hd)⟩

theorem Linked.near {final : Prop} (h : Linked strict p k pfinal final prx preading) :
    Near strict k p where
  max := by
    have h1 := h.max_near
    have h2 := h.una_rcv
    omega
  rcv := h.rcv_le
  rcv_max := h.rcv_max

/-- **Every call keeps its end in order.** -/
theorem turn_call (env : Env) (c : Call) (h : SideOk strict ep k p pfinal)
    (hp : Linked strict p k pfinal ep.final prx preading)
    (hm : ∀ m i r, c = .segment m i r → Arrives strict k p pfinal m ∧
      (strict → ∀ s t, ep = .live s t → ¬ Overrun p s m ∧ ¬ Withdrawn s t m)) :
    Turn strict ep k p pfinal (ep.call env c) := by
  cases ep with
  | fresh l =>
    have hl : ∀ s t, Endpoint.fresh l ≠ .live s t := fun _ _ hd => by cases hd
    cases c with
    | connect iss =>
      cases l with
      | false =>
        have hcore := core_arm env (newTcb .synSent iss)
        refine turn_fresh (r := 0) h (congrArg Core.iss hcore) ?_ (connOk_connect env iss)
        rw [show (tcpConnect env iss).tcb.rcvNxt = 0 from congrArg Core.rcvNxt hcore,
          show (tcpConnect env iss).tcb.irs = 0 from congrArg Core.irs hcore]
        rfl
      | true => exact turn_idle h hl
    | segment m iss room =>
      cases l <;>
        exact turn_inputNone env h hl (fun _ => by simp_all) (hm m iss room rfl).1
    | send data => cases l <;> exact turn_idle h hl
    | recv n peek => cases l <;> exact turn_idle h hl
    | shutdown rd wr => cases l <;> exact turn_idle h hl
    | close => cases l <;> exact turn_idle h hl
    | icmp err => cases l <;> exact turn_idle h hl
    | tick => cases l <;> exact turn_idle h hl
  | live s t =>
    have hc : ConnOk strict k p pfinal ⟨s, t, []⟩ := ⟨h.linked, h.tied s t rfl, nofun⟩
    cases c with
    | connect iss => exact turn_live h hp hc.next
    | send data => exact turn_live h hp (hc.tcpSend env rfl)
    | recv n peek => exact turn_live h hp (hc.tcpRecv env rfl)
    | shutdown rd wr => exact turn_after h hp (hc.sockShutdown env rfl)
    | close => exact turn_after h hp (hc.tcpClose env rfl)
    | icmp err => exact turn_after h hp (hc.tcpIcmpError rfl)
    | tick => exact turn_after h hp (hc.tcpTick env rfl)
    | segment m iss room =>
      obtain ⟨h1, h2⟩ := hm m iss room rfl
      exact turn_after h hp (hc.tcpInput env rfl hp.near h1 (fun hs => h2 hs s t rfl))
  | dead o =>
    have hl : ∀ s t, Endpoint.dead o ≠ .live s t := fun _ _ hd => by cases hd
    cases c with
    | recv n peek =>
      cases o with
      | none => exact turn_idle h hl
      | some s => exact turn_recvClosed h
    | close =>
      cases o with
      | none => exact turn_idle h hl
      | some s => exact turn_forget h
    | segment m iss room =>
      cases o <;>
        exact turn_inputNone env h hl nofun (hm m iss room rfl).1
    | connect iss => cases o <;> exact turn_idle h hl
    | send data => cases o <;> exact turn_idle h hl
    | shutdown rd wr => cases o <;> exact turn_idle h hl
    | icmp err => cases o <;> exact turn_idle h hl
    | tick => cases o <;> exact turn_idle h hl

/-! ## Any step -/

/-- A segment of the wire that may arrive. -/
theorem FlightOk.arrives (h : FlightOk strict p k pfinal f) (hr : Recent p k f) :
    Arrives strict k p pfinal f.seg := by
  rcases h with h | ⟨⟨hseq, hc⟩, hack⟩
  · exact Or.inl h
  · refine Or.inr ⟨⟨f.seqN, hseq, hc, hr.1⟩, ?_⟩
    intro hflag
    obtain ⟨h1, h2, h3⟩ := hack hflag
    exact ⟨f.ackN, h1, h2, h3, hr.2 hflag⟩

/-- A segment that was in order stays so when the end that sent it goes on. -/
theorem FlightOk.grow {final final' : Prop} (h : FlightOk strict k p final f)
    (hg : Grow k k' final final') : FlightOk strict k' p final' f := by
  rcases h with h | ⟨⟨hseq, hc⟩, hack⟩
  · exact Or.inl h
  · refine Or.inr ⟨⟨?_, hc.grow hg⟩, ?_⟩
    · rw [hg.iss hc.sent]
      exact hseq
    · intro hflag
      obtain ⟨h1, h2, h3⟩ := hack hflag
      exact ⟨h1, h2, h3.trans hg.rcv⟩

/-- And when the other end goes on. -/
theorem FlightOk.peer {final : Prop} {p' : Track} (h : FlightOk strict k p final f)
    (hi : 1 ≤ k.rcv → p'.iss = p.iss) : FlightOk strict k p' final f := by
  rcases h with h | ⟨hseq, hack⟩
  · exact Or.inl h
  · refine Or.inr ⟨hseq, ?_⟩
    intro hflag
    obtain ⟨h1, h2, h3⟩ := hack hflag
    exact ⟨by rw [hi (h2.trans h3)]; exact h1, h2, h3⟩

/-- A segment is in order when it is sent. -/
theorem Emits.flight {final : Prop} {rx : List Byte} {reading : Prop} (h : Emits strict k p final m)
    (hl : Linked strict k p final pfinal rx reading) : FlightOk strict k p final (k.flight m) := by
  rcases h with h | ⟨⟨n, hseq, hu, hc⟩, hack⟩
  · exact Or.inl h
  · have h1 := hl.max_near
    have h2 := hc.stop
    unfold ringSize at h1
    have hn : (k.flight m).seqN = n := by
      unfold Track.flight
      simp only
      rw [hseq, serialAt_sub_toNat hu (by omega)]
      omega
    refine Or.inr ⟨⟨?_, ?_⟩, ?_⟩
    · rw [hn]
      exact hseq
    · rw [hn]
      exact hc
    · intro hflag
      obtain ⟨h3, h4⟩ := hack hflag
      exact ⟨h3, h4, le_rfl⟩

end

/-- No step of this kind spoils the numbers: the segment that arrives carries no byte the
other end does not count, and acknowledges no withdrawn `FIN`. -/
def Clean (w : World) (x : Bool) : Call → Prop
  | .segment m _ _ =>
    match (w.side x).ep with
    | .live s t => ¬ Overrun (w.side !x).track s m ∧ ¬ Withdrawn s t m
    | _ => True
  | _ => True

theorem Clean.live {w : World} {x : Bool} {i : Seq} {r : Bool} (h : Clean w x (.segment m i r))
    (s : Sock) (t : Tcb) (he : (w.side x).ep = .live s t) :
    ¬ Overrun (w.side !x).track s m ∧ ¬ Withdrawn s t m := by
  unfold Clean at h
  rw [he] at h
  exact h

section

variable {strict : Prop} {w : World} {x : Bool}

theorem act_side_self (env : Env) (c : Call) : (w.act x env c).side x =
    ⟨((w.side x).ep.call env c).ep,
      (w.side x).track.follow (w.side x).ep ((w.side x).ep.call env c)⟩ :=
  update_self ..

theorem act_side_other (env : Env) (c : Call) : (w.act x env c).side (!x) = w.side (!x) :=
  update_of_ne (by simp) ..

theorem act_wire_self (env : Env) (c : Call) : (w.act x env c).wire x =
    w.wire x ++ ((w.side x).ep.call env c).out.map
      ((w.side x).track.follow (w.side x).ep ((w.side x).ep.call env c)).flight :=
  update_self ..

theorem act_wire_other (env : Env) (c : Call) : (w.act x env c).wire (!x) = w.wire (!x) :=
  update_of_ne (by simp) ..

/-- **One step** keeps the world in order. -/
theorem WorldOk.act (h : WorldOk strict w) (env : Env) {c : Call} (ha : Allowed w x c)
    (hc : strict → Clean w x c) : WorldOk strict (w.act x env c) := by
  have hx := h.side x
  have hy := h.side (!x)
  rw [Bool.not_not] at hy
  have hturn : Turn strict (w.side x).ep (w.side x).track (w.side !x).track (w.side !x).ep.final
      ((w.side x).ep.call env c) := by
    refine turn_call env c hx hy.linked ?_
    rintro m i r rfl
    obtain ⟨f, hf, rfl, hrec⟩ := ha
    have hfl := h.wire (!x) f hf
    rw [Bool.not_not] at hfl
    exact ⟨hfl.arrives hrec, fun hs => (hc hs).live⟩
  have hiss : 1 ≤ (w.side !x).track.rcv →
      ((w.side x).track.follow (w.side x).ep ((w.side x).ep.call env c)).iss =
        (w.side x).track.iss := fun hr => hturn.grow.iss (hy.linked.rcv_pos hr)
  have hself : ∀ y, y = x ∨ y = !x := by
    intro y
    cases x <;> cases y <;> simp
  constructor
  · intro y
    rcases hself y with rfl | rfl
    · rw [act_side_self, act_side_other]
      exact hturn.side
    · rw [Bool.not_not, act_side_self, act_side_other]
      exact
        { linked := hy.linked.peer hturn.grow
          tied := fun s t he => (hy.tied s t he).peer hiss
          fresh := hy.fresh }
  · intro y
    rcases hself y with rfl | rfl
    · rw [act_side_self, act_side_other, act_wire_self]
      intro f hf
      rcases mem_append.1 hf with hf | hf
      · exact (h.wire y f hf).grow hturn.grow
      · obtain ⟨m, hm, rfl⟩ := mem_map.1 hf
        exact (hturn.out m hm).flight hturn.side.linked
    · rw [Bool.not_not, act_side_self, act_side_other, act_wire_other]
      intro f hf
      have hfl := h.wire (!x) f hf
      rw [Bool.not_not] at hfl
      exact hfl.peer hiss

theorem worldOk_start (listens : Bool → Bool) : WorldOk strict (.start listens) where
  side x :=
    { linked :=
        { una_le := le_rfl
          max_le := Nat.zero_le _
          max_final := nofun
          una_final := nofun
          buffered := Nat.zero_le _
          one_fin := fun _ => Nat.zero_le _
          una_rcv := Nat.zero_le _
          rcv_le := Nat.zero_le _
          rcv_max := fun _ => Nat.zero_le _
          rcv_pos := nofun
          rcv_final := nofun
          eof := nofun
          got := nil_prefix
          all := fun _ => rfl }
      tied := fun _ _ hd => by cases hd
      fresh := fun _ _ => rfl }
  wire _ := nofun

/-- **Every reachable world is in order.** -/
theorem Reach.worldOk {ok : World → Bool → Call → Prop} (hok : strict → ∀ w x c, ok w x c → Clean w x c)
    (h : Reach ok w) : WorldOk strict w := by
  induction h with
  | start listens => exact worldOk_start listens
  | step _ x env c ha hc ih => exact ih.act env ha (fun hs => hok hs _ _ _ hc)

end

/-! ## The stream -/

section

variable {strict : Prop} {k p : Track} {pfinal : Prop} {ep : Endpoint} {env : Env} {n : Nat}
  {peek : Bool}

/-- The socket an end still has. -/
def Endpoint.sock : Endpoint → Option Sock
  | .fresh _ => none
  | .live s _ => some s
  | .dead s => s

/-- The bytes `tcp_recv` returns are the first ones of the buffer, and it returns `0` only when the
buffer is empty. -/
theorem recv_result {r : Recv} (h : (ep.call env (.recv n peek)).result = some r) :
    (∀ bytes, r = .data bytes → bytes <+: ep.rx) ∧ (r = .zero → ep.rx = []) := by
  have hget : ∀ (s : Sock) bytes, .data (s.rx.get n peek).1 = Recv.data bytes →
      bytes <+: s.rx.toList := by
    rintro s _ ⟨⟩
    rw [(s.rx.get_eq n peek).1]
    exact take_prefix _ _
  have hnil : ∀ s : Sock, ¬ s.rx.len ≠ 0 → s.rx.toList = [] := by
    intro s hs
    rw [← length_eq_zero_iff, RingBuf.length_toList]
    omega
  cases ep with
  | fresh l => cases l <;> cases h
  | live s t =>
    change some (tcpRecv env n peek ⟨s, t, []⟩).2 = _ at h
    unfold tcpRecv at h
    split_ifs at h with h1 <;> cases h
    · exact ⟨hget s, nofun⟩
    all_goals exact ⟨nofun, fun _ => hnil s h1⟩
  | dead o =>
    cases o with
    | none => cases h
    | some s =>
      change some (recvClosed n peek s).2 = _ at h
      unfold recvClosed at h
      split_ifs at h with h1 <;> cases h
      · exact ⟨hget s, nofun⟩
      all_goals exact ⟨nofun, fun _ => hnil s h1⟩

/-- When the `FIN` has been received and the buffer is empty, everything has been given. -/
theorem SideOk.complete (h : SideOk strict ep k p pfinal) (hfin : k.fin = true) (hr : ep.reading)
    (hrx : ep.rx = []) : k.got = p.sent := by
  have hall := h.linked.all hr
  have heof := h.linked.eof hfin
  rw [hrx, append_nil, take_of_length_le (by omega)] at hall
  exact hall

end

/-- **Stream integrity.**  In every reachable world the bytes `tcp_recv` has taken from the
buffer at one end are a beginning of the bytes `tcp_send` has accepted at the other.  What
a call returns, with `MSG_PEEK` or without, continues them.  When a call returns `0` and
the `FIN` is what it is for (it has been received, and reading has not been shut), they are
all of them. -/
theorem received_prefix_of_sent {w : World} (h : Reach (fun _ _ _ => True) w) (x : Bool) :
    (w.side x).track.got <+: (w.side !x).track.sent ∧
    (∀ env n peek bytes, ((w.side x).ep.call env (.recv n peek)).result = some (.data bytes) →
      (w.side x).track.got ++ bytes <+: (w.side !x).track.sent) ∧
    (∀ env n peek, ((w.side x).ep.call env (.recv n peek)).result = some .zero →
      (w.side x).track.fin = true → (w.side x).ep.reading →
      (w.side x).track.got = (w.side !x).track.sent) := by
  have hw : WorldOk False w := h.worldOk (fun hf => hf.elim)
  have hx := hw.side x
  refine ⟨?_, ?_, ?_⟩
  · exact (prefix_append _ _).trans hx.linked.got
  · intro env n peek bytes hres
    exact ((prefix_append_right_inj _).2 ((recv_result hres).1 _ rfl)).trans hx.linked.got
  · intro env n peek hres hfin hr
    exact hx.complete hfin hr ((recv_result hres).2 rfl)

/-- A machine whose two ends have local addresses, at a tick. -/
def host (ticks : Seq) : Env := ⟨ticks, true, true, 4096⟩

/-- One end connects, the other listens, and the handshake goes through. -/
def meet : List (Bool × Env × Move) :=
  [(false, host 0, .call (.connect 1000)), (true, host 0, .arrive 0 5000 true),
    (false, host 0, .arrive 0 0 true), (true, host 0, .arrive 1 0 true)]

/-- Two bytes and the end of the stream, which arrive in the wrong order at first. -/
def twoBytes : List (Bool × Env × Move) :=
  meet ++ [(false, host 0, .call (.send [1, 2])), (false, host 0, .call (.shutdown false true)),
    (true, host 0, .arrive 3 0 true), (true, host 0, .arrive 2 0 true),
    (true, host 0, .arrive 3 0 true), (true, host 0, .call (.recv 5 false))]

theorem received_prefix_of_sent_twoBytes :
    ∃ w, (World.start id).run twoBytes = some w ∧
      ((w.side true).ep.call (host 0) (.recv 1 false)).result = some .zero ∧
      (w.side true).track.got = [1, 2] ∧ (w.side true).track.got = (w.side false).track.sent := by
  have hrun : ((World.start id).run twoBytes).map (fun w =>
      (((w.side true).ep.call (host 0) (.recv 1 false)).result, (w.side true).track.got,
        (w.side true).track.fin, (w.side true).ep.sock.map Sock.shutRd)) =
      some (some .zero, [1, 2], true, some false) := by decide +kernel
  obtain ⟨w, hw, he⟩ := Option.map_eq_some_iff.1 hrun
  simp only [Prod.mk.injEq] at he
  obtain ⟨h1, h2, h3, h4⟩ := he
  refine ⟨w, hw, h1, h2, ?_⟩
  refine (received_prefix_of_sent (Reach.run (.start id) hw) true).2.2 (host 0) 1 false h1 h3 ?_
  generalize (w.side true).ep = ep at h4
  cases ep with
  | fresh l => cases h4
  | live s t => exact Option.some.inj h4
  | dead o =>
    cases o with
    | none => cases h4
    | some s => exact Option.some.inj h4

/-- All that `tcp_recv` returns at end `y` in a run, looking and taking. -/
def World.returned (w : World) (y : Bool) : List (Bool × Env × Move) → List Byte
  | [] => []
  | (x, env, m) :: l =>
    match w.pick x m with
    | some c =>
      (match ((w.side x).ep.call env c).result with
        | some (.data bytes) => if x = y then bytes else []
        | _ => []) ++ (w.act x env c).returned y l
    | none => []

/-- Two bytes are looked at and then taken. -/
def looked : List (Bool × Env × Move) :=
  meet ++ [(false, host 0, .call (.send [1, 2])), (true, host 0, .arrive 2 0 true),
    (true, host 0, .call (.recv 2 true)), (true, host 0, .call (.recv 2 false))]

/-- With `MSG_PEEK` bytes are returned more than once. -/
theorem peeked_bytes_returned_twice :
    ∃ w, (World.start id).run looked = some w ∧
      (World.start id).returned true looked = [1, 2, 1, 2] ∧
      (w.side false).track.sent = [1, 2] ∧
      ¬ (World.start id).returned true looked <+: (w.side false).track.sent := by
  have hrun : ((World.start id).run looked).map (fun w => (w.side false).track.sent) =
      some [1, 2] := by decide +kernel
  have hret : (World.start id).returned true looked = [1, 2, 1, 2] := by decide +kernel
  obtain ⟨w, hw, he⟩ := Option.map_eq_some_iff.1 hrun
  refine ⟨w, hw, hret, he, ?_⟩
  rw [hret, he]
  decide

end Tortoise.Net
