import Tortoise.Net.Track

/-!
# What `tcp_output` keeps

`tcp_output` sends bytes of the buffer, the end of the stream and
acknowledgements.  All it changes of the track is `max`, and every segment it
sends is true of the end.  The retransmission and the probe of `tcp_tick` follow,
and the calls of the program that end in `tcp_output`.
-/

namespace Tortoise.Net

open Lib BitVec

variable {b : Bool} {n : Nat} {t : Tcb} {st : TcpState}

section

variable {strict : Prop} {k p : Track} {pfinal : Prop} {c : Conn} (env : Env)

theorem not_synSent (h : handshaking st = false) : st ≠ .synSent := by
  rintro rfl
  cases h

/-- A segment without data, `SYN` and `FIN` is true with every number from `una` to
`max`. -/
theorem carries_bare {m : Seg} {final : Prop} (hd : m.data = []) (hs : m.flags.syn = false)
    (hf : m.flags.fin = false) (h1 : 1 ≤ n) (h2 : n ≤ k.max) : Carries strict k final n m where
  sent := h1.trans h2
  stop := by simp [hd]; omega
  syn := by simp [hs]
  pos _ := h1
  text := by simp [hd]
  fin := by simp [hf]

theorem handshaking_finSentState (h : handshaking st = false) :
    handshaking (finSentState st) = false := by
  cases st <;> first | rfl | cases h

theorem opened_of_shaken (h : handshaking st = false) : st ≠ .closed ∧ st ≠ .listen := by
  constructor <;> (rintro rfl; cases h)

theorem armClosed_eq : armClosed env c = c ∨ armClosed env c = c.upd (arm env) := by
  unfold armClosed
  split
  · exact Or.inr rfl
  · exact Or.inl rfl

theorem sock_sendAck : (sendAck env (c, b)).sock = c.sock := by
  unfold sendAck
  have h1 : (armClosed env c).sock = c.sock := by
    rcases armClosed_eq env (c := c) with he | he <;> rw [he]
    rfl
  generalize armClosed env c = c' at h1
  by_cases hack : (c'.tcb.ackNow && !b) = true
  · simp only [if_pos hack]
    exact h1
  · simp only [if_neg hack]
    exact h1

/-! ## Raising `max` -/

theorem Linked.raise {final : Prop} {rx : List Byte} {reading : Prop}
    (h : Linked strict k p final pfinal rx reading) (hn : k.max ≤ n) (ht : n ≤ k.top + 1)
    (hf : k.top < n → final) (hs : strict → n ≤ k.sent.length + 2) :
    Linked strict { k with max := n } p final pfinal rx reading :=
  { h with
    una_le := h.una_le.trans hn
    max_le := ht
    max_final := hf
    one_fin := hs }

theorem Grow.raise {final : Prop} (hn : k.max ≤ n) : Grow k { k with max := n } final final :=
  { Grow.refl k final with max := hn }

theorem Emits.raise {final : Prop} {m : Seg} (h : Emits strict k p final m) (hn : k.max ≤ n) :
    Emits strict { k with max := n } p final m := by
  rcases h with h | ⟨⟨i, hi, hu, hc⟩, ha⟩
  · exact Or.inl h
  · exact Or.inr ⟨⟨i, hi, hu, hc.grow (.raise hn)⟩, ha⟩

@[simp] theorem core_arm (t : Tcb) : (arm env t).core = t.core := by
  unfold arm
  split <;> rfl

theorem core_raiseMax {a b : Nat} (hm : t.sndMax = serialAt k.iss a)
    (hn : t.sndNxt = serialAt k.iss b) (hab : a < b + 2 ^ 31) (hba : b ≤ a + 2 ^ 31) :
    (raiseMax t).core = { t.core with sndMax := serialAt k.iss (max a b) } := by
  have hlt : seqLt t.sndMax t.sndNxt = true ↔ a < b := by
    rw [hm, hn]
    exact serialAt_slt hab hba
  unfold raiseMax
  by_cases h : a < b
  · rw [if_pos (hlt.2 h), show max a b = b from Nat.max_eq_right h.le, ← hn]
    rfl
  · rw [if_neg (mt hlt.1 h), show max a b = a from Nat.max_eq_left (Nat.le_of_not_lt h), ← hm]
    rfl

theorem core_advance {a b l : Nat} (hm : t.sndMax = serialAt k.iss a)
    (hn : t.sndNxt = serialAt k.iss b) (hab : a < b + l + 2 ^ 31) (hba : b + l ≤ a + 2 ^ 31) :
    (Net.advance env (BitVec.ofNat 32 l) t).core =
      { t.core with
        sndNxt := serialAt k.iss (b + l), sndMax := serialAt k.iss (max a (b + l)) } := by
  have hn' : t.sndNxt + BitVec.ofNat 32 l = serialAt k.iss (b + l) := by rw [hn, serialAt_add]
  unfold Net.advance
  rw [core_arm env, core_raiseMax (t := { t with sndNxt := t.sndNxt + BitVec.ofNat 32 l }) hm hn' hab
    hba]
  simp only [Tcb.core, hn']

/-- A segment goes out before or after the control block is changed. -/
theorem tcbSeg_upd {seq : Seq} {flags : Flags} {data : List Byte} {f : Tcb → Tcb}
    (hf : (f c.tcb).rcvNxt = c.tcb.rcvNxt) :
    (tcbSeg env seq flags data b c).upd f = tcbSeg env seq flags data b (c.upd f) := by
  simp only [tcbSeg, Conn.upd, hf]

/-! ## The bytes to send -/

@[simp] theorem state_advance (n : Seq) (t : Tcb) : (Net.advance env n t).state = t.state := by
  unfold Net.advance Net.arm raiseMax
  split_ifs <;> rfl

theorem toNat_cut_le (a b : Seq) : (if b < a then b else a).toNat ≤ a.toNat := by
  split
  · exact le_of_lt (by assumption)
  · exact le_rfl

/-- A turn of the loop sends bytes that are in the buffer. -/
theorem chunk_le {s : Sock} (hlen : s.tx.len < 2 ^ 32) (hn : chunk s t ≠ 0) :
    0 < (chunk s t).toNat ∧ (t.sndNxt - t.sndUna).toNat + (chunk s t).toNat ≤ s.tx.len := by
  have hle : (chunk s t).toNat ≤
      (if t.sndNxt - t.sndUna < BitVec.ofNat 32 s.tx.len then
        BitVec.ofNat 32 s.tx.len - (t.sndNxt - t.sndUna) else 0 : Seq).toNat :=
    le_trans (toNat_cut_le _ _) (le_trans (toNat_cut_le _ _) (toNat_cut_le _ _))
  have hpos : 0 < (chunk s t).toNat := by
    rcases Nat.eq_zero_or_pos (chunk s t).toNat with h0 | h0
    · exact absurd (eq_of_toNat_eq h0) hn
    · exact h0
  refine ⟨hpos, ?_⟩
  have hval : (BitVec.ofNat 32 s.tx.len).toNat = s.tx.len := by
    rw [toNat_ofNat, Nat.mod_eq_of_lt hlen]
  generalize chunk s t = n at *
  generalize t.sndNxt - t.sndUna = off at *
  by_cases hoff : off < BitVec.ofNat 32 s.tx.len
  · rw [if_pos hoff, BitVec.toNat_sub_of_le (BitVec.le_of_lt hoff), hval] at hle
    rw [lt_def, hval] at hoff
    omega
  · rw [if_neg hoff] at hle
    exact absurd hle (Nat.not_le.2 hpos)

/-- The buffer holds what has been accepted and not acknowledged. -/
theorem Tied.len_eq {tx : RingBuf Byte} {w : Bool} {q : Core} (h : Tied strict k p tx w q) :
    tx.len = k.sent.length - (k.una - 1) := by
  rw [tx.len_eq, h.text, List.length_drop]

theorem Tied.len_lt {tx : RingBuf Byte} {w : Bool} {q : Core} (h : Tied strict k p tx w q) :
    tx.len < 2 ^ 32 := by
  have h1 := tx.len_le
  rw [h.size] at h1
  unfold ringSize at h1
  omega

/-! ## The parts of `tcp_output` -/

variable (h : ConnOk strict k p pfinal c)

include h

/-- What does not touch the socket, the numbers and the segments keeps the order. -/
theorem ConnOk.congr {c' : Conn} (hs : c'.sock = c.sock) (ht : c'.tcb.core = c.tcb.core)
    (ho : c'.out = c.out) : ConnOk strict k p pfinal c' := by
  obtain ⟨sock, tcb, out⟩ := c
  obtain ⟨sock', tcb', out'⟩ := c'
  subst hs ho
  exact ⟨h.linked, ht ▸ h.tied, h.out⟩

theorem ConnOk.arm : ConnOk strict k p pfinal (c.upd (Net.arm env)) :=
  h.congr rfl (core_arm env c.tcb) rfl

theorem ConnOk.tcbSeg {seq : Seq} {flags : Flags} {data : List Byte} (hseq : seq = serialAt k.iss n)
    (hn : k.una ≤ n)
    (hc : ∀ m : Seg, m.flags = flags → m.data = data →
      Carries strict k (c.sock.shutWr = true) n m)
    (ha : flags.ack = true → c.tcb.state ≠ .synSent) :
    ConnOk strict k p pfinal (Net.tcbSeg env seq flags data b c) where
  linked := h.linked
  tied := h.tied
  out := by
    refine List.forall_mem_append.2 ⟨h.out, List.forall_mem_singleton.2 ?_⟩
    refine Or.inr ⟨⟨n, hseq, hn, hc _ rfl rfl⟩, ?_⟩
    intro hack
    obtain ⟨h1, h2, -⟩ := h.tied.heard (ha hack)
    exact ⟨h2, h1⟩

theorem ConnOk.ack (hst : handshaking c.tcb.state = false) :
    ConnOk strict k p pfinal (Net.tcbSeg env c.tcb.sndNxt fAck [] false c) := by
  obtain ⟨n, he, hn, hm⟩ := h.tied.nxt
  have hu : 1 ≤ k.una := h.tied.shaken hst
  refine h.tcbSeg env he hn ?_ (fun _ => not_synSent hst)
  intro m hfl hd
  exact carries_bare hd (by rw [hfl]; rfl) (by rw [hfl]; rfl) (by omega) hm

/-- `snd_nxt` goes on to number `m`, and `snd_max` is kept at or above it. -/
theorem ConnOk.advance {f : Tcb → Tcb} {m : Nat} (hst : handshaking c.tcb.state = false)
    (hfs : c.tcb.finSent = false)
    (hf : (f c.tcb).core =
      { c.tcb.core with sndNxt := serialAt k.iss m, sndMax := serialAt k.iss n }) (hum : k.una ≤ m)
    (hmn : m ≤ n) (hn : k.max ≤ n) (ht : n ≤ k.top + 1) (hfin : k.top < n → c.sock.shutWr = true)
    (hs : strict → n ≤ k.sent.length + 2) :
    ConnOk strict { k with max := n } p pfinal (c.upd f) where
  linked := h.linked.raise hn ht hfin hs
  tied := by
    have hcore : (c.upd f).tcb.core = _ := hf
    rw [hcore]
    exact
      { h.tied with
        max := rfl
        nxt := ⟨m, rfl, hum, hmn⟩
        finSent := fun hp => absurd (hfs.symm.trans hp) (by decide)
        shaking := fun hp => absurd (hst.symm.trans hp) (by decide) }
  out m hm := (h.out m hm).raise hn

/-- How far `snd_nxt` is behind `snd_una`. -/
theorem ConnOk.offset (he : c.tcb.sndNxt = serialAt k.iss n) (hn : k.una ≤ n) (hm : n ≤ k.max) :
    (c.tcb.sndNxt - c.tcb.sndUna).toNat = n - k.una := by
  have hnear := h.linked.max_near
  unfold ringSize at hnear
  rw [he, show c.tcb.sndUna = _ from h.tied.una]
  exact serialAt_sub_toNat hn (by omega)

theorem ConnOk.sendChunk (hst : handshaking c.tcb.state = false) (hfs : c.tcb.finSent = false)
    (hn : chunk c.sock c.tcb ≠ 0) :
    ∃ n, k.max ≤ n ∧ ConnOk strict { k with max := n } p pfinal
      ((Net.tcbSeg env c.tcb.sndNxt { fAck with psh := true }
        (c.sock.tx.peekAt (c.tcb.sndNxt - c.tcb.sndUna).toNat (chunk c.sock c.tcb).toNat) false
        c).upd (Net.advance env (chunk c.sock c.tcb))) := by
  obtain ⟨n, he, hun, hnm⟩ := h.tied.nxt
  have hu : 1 ≤ k.una := h.tied.shaken hst
  have hoff := h.offset he hun hnm
  have hlen := h.tied.len_eq
  obtain ⟨hpos, hchunk⟩ := chunk_le h.tied.len_lt hn
  have hnear := h.linked.max_near
  have hbuf := h.linked.buffered
  have htop := k.sent_le_top
  have hmaxle := h.linked.max_le
  unfold ringSize at hnear hbuf
  obtain ⟨l, hl⟩ : ∃ l, chunk c.sock c.tcb = BitVec.ofNat 32 l ∧ (chunk c.sock c.tcb).toNat = l :=
    ⟨_, by rw [ofNat_toNat, setWidth_eq], rfl⟩
  rw [hl.2] at hpos hchunk ⊢
  rw [hl.1]
  -- the bytes end where the accepted ones do, or before
  have hstop : n + l ≤ 1 + k.sent.length := by omega
  have hcore := core_advance env (l := l) h.tied.max he (by omega) (by omega)
  refine ⟨max k.max (n + l), Nat.le_max_left .., ?_⟩
  rw [tcbSeg_upd env (congrArg Core.rcvNxt hcore)]
  have h' : ConnOk strict { k with max := max k.max (n + l) } p pfinal
      (c.upd (Net.advance env (BitVec.ofNat 32 l))) :=
    h.advance hst hfs hcore (by omega) (Nat.le_max_right ..) (Nat.le_max_left ..) (by omega)
      (fun hlt => h.linked.max_final (by omega))
      (fun hs => Nat.max_le.2 ⟨h.linked.one_fin hs, by omega⟩)
  refine h'.tcbSeg env he hun ?_
    (fun _ h0 => not_synSent hst ((congrArg Core.state hcore).symm.trans h0))
  intro m hfl hd
  have hdl : m.data.length = l := by rw [hd]; simp [RingBuf.peekAt]
  exact
    { sent := le_trans (by omega) (Nat.le_max_right k.max (n + l))
      stop := by
        change n + m.data.length ≤ max k.max (n + l) + 1
        omega
      syn := by simp [hfl, fAck]
      pos := fun _ => by omega
      text := by
        rw [hd, RingBuf.peekAt_eq _ hchunk, h.tied.text, List.drop_drop, hoff,
          show k.una - 1 + (n - k.una) = n - 1 by omega]
        exact List.take_prefix _ _
      fin := by simp [hfl, fAck] }

omit h in
theorem ConnOk.sendLoop (fuel : Nat) : ∀ {k : Track} {c : Conn} (b : Bool),
    ConnOk strict k p pfinal c → handshaking c.tcb.state = false →
    ∃ n, k.max ≤ n ∧ ConnOk strict { k with max := n } p pfinal (Net.sendLoop env fuel c b).1 ∧
      (Net.sendLoop env fuel c b).1.sock = c.sock ∧
      (Net.sendLoop env fuel c b).1.tcb.state = c.tcb.state := by
  induction fuel with
  | zero => exact fun _ h _ => ⟨_, le_rfl, h, rfl, rfl⟩
  | succ fuel ih =>
    intro k c b h hst
    unfold Net.sendLoop
    by_cases hfs : c.tcb.finSent = true
    · rw [if_pos hfs]
      exact ⟨_, le_rfl, h, rfl, rfl⟩
    rw [if_neg hfs]
    by_cases hn : chunk c.sock c.tcb = 0
    · simp only [if_pos hn]
      exact ⟨_, le_rfl, h, trivial, trivial⟩
    simp only [if_neg hn]
    obtain ⟨m, hm, h'⟩ := h.sendChunk env hst (by simpa using hfs) hn
    have hstate := state_advance env (chunk c.sock c.tcb) c.tcb
    obtain ⟨n, hn, h'', hs, hst''⟩ := ih true h' (by
      rw [← hst]
      exact congrArg handshaking hstate)
    exact ⟨n, hm.trans hn, h'', hs, hst''.trans hstate⟩

/-- `fin_sent` is set, when the `FIN` has got the last number. -/
theorem ConnOk.setFin (hst : handshaking c.tcb.state = false) (hwr : c.sock.shutWr = true)
    (hmax : k.max = k.top + 1) (hfa : strict → k.una ≠ k.sent.length + 2) :
    ConnOk strict k p pfinal
      (c.upd fun t => { t with finSent := true, state := finSentState t.state }) where
  linked := h.linked
  tied :=
    { h.tied with
      opened := opened_of_shaken (handshaking_finSentState hst)
      finSent := fun _ => ⟨hwr, Or.inl hmax⟩
      finAcked := fun hs hu => absurd hu (hfa hs)
      shaking := fun hp => absurd ((handshaking_finSentState hst).symm.trans hp) (by decide)
      shaken := fun _ => h.tied.shaken hst
      unheard := fun hp => absurd hp (not_synSent (handshaking_finSentState hst))
      heard := fun _ => h.tied.heard (not_synSent hst) }
  out := h.out

/-- The `FIN` is sent: it gets the number behind everything that was accepted. -/
theorem ConnOk.sendFin (hst : handshaking c.tcb.state = false) :
    ∃ n, k.max ≤ n ∧ ConnOk strict { k with max := n } p pfinal (Net.sendFin env (c, b)).1 ∧
      (Net.sendFin env (c, b)).1.sock = c.sock ∧
      handshaking (Net.sendFin env (c, b)).1.tcb.state = false := by
  unfold Net.sendFin
  by_cases hcond : (!c.tcb.finSent && c.sock.shutWr &&
      c.tcb.sndNxt - c.tcb.sndUna == BitVec.ofNat 32 c.sock.tx.len) = true
  swap
  · simp only [if_neg hcond]
    exact ⟨_, le_rfl, h, trivial, hst⟩
  simp only [if_pos hcond]
  simp only [Bool.and_eq_true, Bool.not_eq_true', beq_iff_eq] at hcond
  obtain ⟨⟨hfs, hwr⟩, heq⟩ := hcond
  obtain ⟨n, he, hun, hnm⟩ := h.tied.nxt
  have hu : 1 ≤ k.una := h.tied.shaken hst
  have hoff := h.offset he hun hnm
  have hlen := h.tied.len_eq
  have hnear := h.linked.max_near
  have hmaxle := h.linked.max_le
  unfold ringSize at hnear
  rw [heq, toNat_ofNat, Nat.mod_eq_of_lt h.tied.len_lt, hlen] at hoff
  -- so `snd_nxt` is behind the last byte
  have hn : n = k.top := by
    have htop : k.top = max k.una (1 + k.sent.length) := rfl
    omega
  have hsent := k.sent_le_top
  -- a `FIN` that is acknowledged is not sent again
  have hsu : strict → n = 1 + k.sent.length := by
    intro hs
    have htop : k.top = max k.una (1 + k.sent.length) := rfl
    have h2 := h.linked.one_fin hs
    have h3 := h.linked.una_le
    by_contra hne
    have h4 := (h.tied.finAcked hs (by omega)).1
    exact absurd (hfs.symm.trans h4) (by decide)
  have hcore := core_advance env (l := 1) h.tied.max he (by omega) (by omega)
  rw [show max k.max (n + 1) = n + 1 by omega] at hcore
  have h' : ConnOk strict { k with max := n + 1 } p pfinal (c.upd (Net.advance env 1)) :=
    h.advance hst hfs hcore (by omega) le_rfl (by omega) (by omega) (fun _ => hwr)
      (fun hs => by have := hsu hs; omega)
  have hst' : handshaking (c.upd (Net.advance env 1)).tcb.state = false :=
    (congrArg handshaking (state_advance env 1 c.tcb)).trans hst
  refine ⟨n + 1, by omega, ?_, rfl, handshaking_finSentState hst'⟩
  rw [tcbSeg_upd env (f := Net.advance env 1) (congrArg Core.rcvNxt hcore)]
  refine ConnOk.setFin (ConnOk.tcbSeg env (n := n) h' he hun ?_ (fun _ => not_synSent hst')) hst' hwr
    (by rw [hn]; rfl) (fun hs hu' => ?_)
  · intro m hfl hd
    exact
      { sent := by change 1 ≤ n + 1; omega
        stop := by simp [hd]; omega
        syn := by simp [hfl, fAck]
        pos := fun _ => by omega
        text := by simp [hd]
        fin := fun _ => ⟨hwr, hd, by change 1 + k.sent.length ≤ n; omega, le_rfl, hsu⟩ }
  · have := hsu hs
    change k.una = k.sent.length + 2 at hu'
    omega

theorem ConnOk.sendAck (hst : handshaking c.tcb.state = false) :
    ConnOk strict k p pfinal (Net.sendAck env (c, b)) := by
  have h1 : ConnOk strict k p pfinal (armClosed env c) ∧
      handshaking (armClosed env c).tcb.state = false := by
    rcases armClosed_eq env (c := c) with he | he
    · rw [he]
      exact ⟨h, hst⟩
    · rw [he]
      exact ⟨h.arm env, (congrArg (fun q : Core => handshaking q.state) (core_arm env c.tcb)).trans hst⟩
  unfold Net.sendAck
  generalize armClosed env c = c' at h1
  by_cases hack : (c'.tcb.ackNow && !b) = true
  · simp only [if_pos hack]
    exact (h1.1.ack env h1.2).congr rfl rfl rfl
  · simp only [if_neg hack]
    exact h1.1.congr rfl rfl rfl

/-- The answer to a `SYN` is sent, or the `SYN`. -/
theorem ConnOk.syn (flags : Flags) (hst : handshaking c.tcb.state = true) (hs : flags.syn = true)
    (hf : flags.fin = false) (ha : flags.ack = true → c.tcb.state ≠ .synSent) :
    ConnOk strict k p pfinal (Net.tcbSeg env c.tcb.iss flags [] true c) := by
  obtain ⟨h1, h2, -, -, -, h6⟩ := h.tied.shaking hst
  refine h.tcbSeg env (n := 0) ?_ (by omega) ?_ ha
  · rw [serialAt_zero]
    exact h6
  · intro m hfl hd
    exact
      { sent := by omega
        stop := by simp [hd]
        syn := fun _ => ⟨rfl, hd, by rw [hfl, hf]⟩
        pos := fun hp => absurd ((hfl ▸ hp : flags.syn = false).symm.trans hs) (by decide)
        text := by simp [hd]
        fin := fun hp => absurd ((hfl ▸ hp : flags.fin = true).symm.trans hf) (by decide) }

/-- **`tcp_output` keeps the connection in order**, and raises `max` at most. -/
theorem ConnOk.tcpOutput :
    ∃ n, k.max ≤ n ∧ ConnOk strict { k with max := n } p pfinal (Net.tcpOutput env c) ∧
      (Net.tcpOutput env c).sock = c.sock := by
  unfold Net.tcpOutput
  by_cases hst : handshaking c.tcb.state = true
  · rw [if_pos hst]
    refine ⟨k.max, le_rfl, ?_, ?_⟩
    · simp only
      split
      · rename_i hc
        simp only [Bool.and_eq_true, decide_eq_true_eq] at hc
        exact (h.syn env { fAck with syn := true } hst rfl rfl
          (fun _ => by rw [hc.2]; decide)).congr rfl rfl rfl
      · exact h.congr rfl rfl rfl
    · simp only
      split <;> rfl
  · rw [Bool.not_eq_true] at hst
    rw [if_neg (by simp [hst])]
    split
    · exact ⟨_, le_rfl, h, rfl⟩
    · obtain ⟨n₁, hn₁, h₁, hs₁, hst₁⟩ := h.sendLoop env (c.sock.tx.len + 1) false hst
      generalize Net.sendLoop env (c.sock.tx.len + 1) c false = r₁ at h₁ hs₁ hst₁
      obtain ⟨n₂, hn₂, h₂, hs₂, hst₂⟩ := h₁.sendFin env (b := r₁.2) (by rw [hst₁]; exact hst)
      change _ ≤ n₂ at hn₂
      exact ⟨n₂, hn₁.trans hn₂, h₂.sendAck env hst₂, (sock_sendAck env).trans (hs₂.trans hs₁)⟩

end

end Tortoise.Net
