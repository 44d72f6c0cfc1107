import Tortoise.Net.Calls

/-!
# What `tcp_input` keeps

A segment of the other end arrives.  What lies in front of `rcv_nxt` is cut off, and
what is left begins with the byte that is next (`trim_spec`).  Its acknowledgement
moves `snd_una` and frees the bytes in front of it, its data goes behind what the
buffer holds, and its `FIN` counts only when everything in front of it is there.
-/

namespace Tortoise.Net

open Lib List

variable {flags : Flags} {data : List Byte} {a n : Nat} {m : Seg} {s : Sock} {t : Tcb}

/-- A segment the other end has sent, and that is not too old. -/
def Arrives (strict : Prop) (k p : Track) (pfinal : Prop) (m : Seg) : Prop :=
  m.flags.rst = true ∨
    (∃ n, m.seq = serialAt p.iss n ∧ Carries strict p pfinal n m ∧ p.max < n + 2 ^ 31) ∧
      (m.flags.ack = true →
        ∃ a, m.ack = serialAt k.iss a ∧ 1 ≤ a ∧ a ≤ p.rcv ∧ k.max < a + 2 ^ 31)

/-- The other end is not far. -/
structure Near (strict : Prop) (k p : Track) : Prop where
  max : p.max ≤ k.rcv + ringSize + 2
  rcv : p.rcv ≤ k.max + 1
  rcv_max : strict → p.rcv ≤ k.max

/-- The segment carries a byte that the other end does not count as sent, and there is
room for it. -/
def Overrun (p : Track) (s : Sock) (m : Seg) : Prop :=
  m.data ≠ [] ∧ m.seq + BitVec.ofNat 32 m.data.length = serialAt p.iss (p.max + 1) ∧
    (s.shutRd = true ∨ 0 < s.rx.space)

/-- The segment acknowledges a `FIN` that has been withdrawn for retransmission and not
been sent again. -/
def Withdrawn (s : Sock) (t : Tcb) (m : Seg) : Prop :=
  handshaking t.state = false ∧ t.finSent = false ∧ m.flags.ack = true ∧ m.ack = t.sndMax ∧
    (t.sndMax - t.sndUna).toNat = s.tx.len + 1

instance (p : Track) (s : Sock) (m : Seg) : Decidable (Overrun p s m) := by
  unfold Overrun
  infer_instance

instance (s : Sock) (t : Tcb) (m : Seg) : Decidable (Withdrawn s t m) := by
  unfold Withdrawn
  infer_instance

section

variable {strict : Prop} {k p : Track} {pfinal : Prop} {c : Conn} (env : Env)

/-! ## Cutting -/

/-- What is left of a segment. -/
structure Trimmed (k p : Track) (pfinal : Prop) (m : Seg) (flags : Flags) (data : List Byte) :
    Prop where
  rst : flags.rst = m.flags.rst
  ack : flags.ack = m.flags.ack
  syn : flags.syn = false
  text : data <+: p.sent.drop (k.rcv - 1)
  stop : data ≠ [] → k.rcv + data.length ≤ p.max + 1 ∧ m.data ≠ [] ∧
    m.seq + BitVec.ofNat 32 m.data.length = serialAt p.iss (k.rcv + data.length)
  fin : flags.fin = true → pfinal ∧ data = [] ∧ 1 + p.sent.length ≤ k.rcv ∧ k.rcv + 1 ≤ p.max

theorem cut_some {fl : Flags} {d : List Byte} {skip : Seq}
    (h : cut fl data skip = some (flags, d)) :
    flags = fl ∧ d = data.drop (if BitVec.ofNat 32 data.length < skip then
      BitVec.ofNat 32 data.length else skip).toNat := by
  simp only [cut, Option.ite_none_left_eq_some, Option.some.injEq, Prod.mk.injEq] at h
  exact ⟨h.2.1.symm, h.2.2.symm⟩

theorem cut_spec {fl : Flags} {d : List Byte} {j : Nat} (hl : data.length + 1 < 2 ^ 32)
    (hj : j < 2 ^ 32) (hj0 : 0 < j) (h : cut fl data (BitVec.ofNat 32 j) = some (flags, d)) :
    flags = fl ∧ d = data.drop j ∧ j < data.length + (if fl.fin then 1 else 0) := by
  obtain ⟨hfl, hd⟩ := cut_some h
  have hj' : (BitVec.ofNat 32 j).toNat = j := by rw [BitVec.toNat_ofNat, Nat.mod_eq_of_lt hj]
  have hl' : (BitVec.ofNat 32 data.length).toNat = data.length := by
    rw [BitVec.toNat_ofNat, Nat.mod_eq_of_lt (by omega)]
  have hseglen : (BitVec.ofNat 32 data.length + (if fl.fin then 1 else 0)).toNat =
      data.length + (if fl.fin then 1 else 0) := by
    split
    · rw [BitVec.toNat_add, hl']
      exact Nat.mod_eq_of_lt hl
    · simp [hl']
  refine ⟨hfl, ?_, ?_⟩
  · rw [hd]
    split
    · rename_i hlt
      rw [BitVec.lt_def, hl', hj'] at hlt
      rw [hl', drop_length, drop_eq_nil_of_le hlt.le]
    · rw [hj']
  · by_contra hge
    unfold cut at h
    simp only at h
    rw [if_pos] at h
    · cases h
    · refine ⟨?_, ?_⟩
      · rw [BitVec.le_def, hseglen, hj']
        omega
      · rintro ⟨-, h0⟩
        have := congrArg BitVec.toNat h0
        rw [hj'] at this
        exact hj0.ne' this

theorem trim_rst (h : trim t m = some (flags, data)) : flags.rst = m.flags.rst := by
  unfold trim at h
  split at h
  · rw [(cut_some h).1]
  · split at h
    · cases h
      rfl
    · cases h

/-- An old segment: what is left of it when `skip` bytes have been cut off. -/
theorem trimmed_old (hseq : m.seq = serialAt p.iss n) (hc : Carries strict p pfinal n m)
    (hsyn : m.flags.syn = false) (hlt : n < k.rcv)
    (hskip : k.rcv - n < m.data.length + (if m.flags.fin then 1 else 0)) :
    Trimmed k p pfinal m { m.flags with syn := false } (m.data.drop (k.rcv - n)) := by
  have hpos := hc.pos hsyn
  have hfin : m.flags.fin = false := by
    by_contra hf
    rw [Bool.not_eq_false] at hf
    rw [(hc.fin hf).2.1, if_pos hf] at hskip
    simp at hskip
    omega
  rw [hfin, if_neg (by decide), Nat.add_zero] at hskip
  have hstop := hc.stop
  exact
    { rst := rfl
      ack := rfl
      syn := rfl
      text := by
        obtain ⟨more, he⟩ := hc.text
        refine ⟨more, ?_⟩
        rw [← drop_append_of_le_length hskip.le, he, drop_drop]
        congr 1
        omega
      stop := by
        intro hd
        refine ⟨?_, ?_, ?_⟩
        · rw [length_drop]
          omega
        · rintro h0
          rw [h0] at hd
          exact hd drop_nil
        · rw [hseq, serialAt_add, length_drop]
          congr 1
          omega
      fin := fun hf => absurd (hfin.symm.trans hf) (by decide) }

/-- **What `trim` leaves begins with the byte that is next.** -/
theorem trim_spec (h : ConnOk strict k p pfinal c) (hst : c.tcb.state ≠ .synSent)
    (hnear : Near strict k p) (hseq : m.seq = serialAt p.iss n) (hc : Carries strict p pfinal n m)
    (hold : p.max < n + 2 ^ 31) (ht : trim c.tcb m = some (flags, data)) :
    Trimmed k p pfinal m flags data := by
  obtain ⟨hr1, hrcv, -⟩ := h.tied.heard hst
  have hrcv' : c.tcb.rcvNxt = serialAt p.iss k.rcv := hrcv
  have hrle := h.linked.rcv_le
  have hstop := hc.stop
  have hmax := hnear.max
  unfold ringSize at hmax
  have hlt : seqLt m.seq c.tcb.rcvNxt = true ↔ n < k.rcv := by
    rw [hseq, hrcv']
    exact serialAt_slt (by omega) (by omega)
  unfold trim at ht
  by_cases hlt' : n < k.rcv
  · rw [if_pos (hlt.2 hlt')] at ht
    by_cases hsyn : m.flags.syn = true
    · -- a `SYN` carries nothing else
      obtain ⟨-, hd, hf⟩ := hc.syn hsyn
      obtain ⟨rfl, hd'⟩ := cut_some ht
      rw [hd, drop_nil] at hd'
      exact
        { rst := rfl
          ack := rfl
          syn := rfl
          text := by simp [hd']
          stop := by simp [hd']
          fin := by simp [hf] }
    · have hskip : c.tcb.rcvNxt - m.seq = BitVec.ofNat 32 (k.rcv - n) := by
        rw [hrcv', hseq, serialAt_sub_eq hlt'.le]
      simp only [if_neg hsyn, hskip] at ht
      obtain ⟨rfl, rfl, hj⟩ := cut_spec (by omega) (by omega) (by omega) ht
      exact trimmed_old hseq hc (Bool.not_eq_true _ ▸ hsyn) hlt' hj
  · rw [if_neg (mt hlt.1 hlt')] at ht
    split at ht
    · rename_i heq
      rw [hseq, hrcv', serialAt_inj (by omega) (by omega)] at heq
      subst heq
      cases ht
      have hsyn : m.flags.syn = false := by
        by_contra hs
        rw [Bool.not_eq_false] at hs
        have := (hc.syn hs).1
        omega
      exact
        { rst := rfl
          ack := rfl
          syn := hsyn
          text := hc.text
          stop := fun hd => ⟨hstop, hd, by rw [hseq, serialAt_add]⟩
          fin := fun hf => by
            obtain ⟨h1, h2, h3, h4, -⟩ := hc.fin hf
            exact ⟨h1, h2, h3, h4⟩ }
    · cases ht

/-! ## Acknowledgements -/

/-- What is acknowledged is free, and no more. -/
theorem drop_acked {sent : List Byte} {una d : Nat} (hu : 1 ≤ una) (hua : una < a)
    (hd : d = a - una ∨ sent.length - (una - 1) ≤ d ∧ sent.length ≤ a - 1) :
    (sent.drop (una - 1)).drop d = sent.drop (a - 1) := by
  rw [drop_drop]
  rcases hd with rfl | ⟨h1, h2⟩
  · congr 1
    omega
  · rw [drop_eq_nil_of_le h2, drop_eq_nil_of_le (by omega)]

theorem Linked.acked {final : Prop} {rx : List Byte} {reading : Prop}
    (h : Linked strict k p final pfinal rx reading) (hua : k.una < a) (ham : a ≤ k.max)
    (har : a ≤ p.rcv) : Linked strict { k with una := a } p final pfinal rx reading := by
  have h1 := h.max_le
  have htop : k.top = max k.una (1 + k.sent.length) := rfl
  have htop' : Track.top { k with una := a } = max a (1 + k.sent.length) := rfl
  exact
    { h with
      una_le := ham
      max_le := by
        change k.max ≤ _
        omega
      max_final := fun hlt => h.max_final (by
        change _ < k.max at hlt
        omega)
      una_final := fun hlt => h.max_final (by
        change 1 + k.sent.length < a at hlt
        omega)
      buffered := h.buffered.trans (by change _ ≤ a + ringSize; omega)
      una_rcv := har }

/-- The bytes that `acked` takes from the buffer. -/
theorem toNat_dacked {l : Nat} {b : Bool} (hn : 0 < n) (hn' : n < 2 ^ 32) (hl : l < 2 ^ 32) :
    (if BitVec.ofNat 32 l < (if b then BitVec.ofNat 32 n - 1 else BitVec.ofNat 32 n) then
      BitVec.ofNat 32 l
    else if b then BitVec.ofNat 32 n - 1 else BitVec.ofNat 32 n : Seq).toNat =
      min (if b then n - 1 else n) l := by
  have hm : (if b then BitVec.ofNat 32 n - 1 else BitVec.ofNat 32 n : Seq) =
      BitVec.ofNat 32 (if b then n - 1 else n) := by
    split
    · rw [show (1 : Seq) = BitVec.ofNat 32 1 from rfl, ← BitVec.ofNat_sub_ofNat_of_le]
      · omega
      · omega
    · rfl
  rw [hm]
  have hb : (if b then n - 1 else n) < 2 ^ 32 := by split <;> omega
  generalize (if b then n - 1 else n) = d at hb
  have hd' : (BitVec.ofNat 32 d).toNat = d := by rw [BitVec.toNat_ofNat, Nat.mod_eq_of_lt hb]
  have hl' : (BitVec.ofNat 32 l).toNat = l := by rw [BitVec.toNat_ofNat, Nat.mod_eq_of_lt hl]
  by_cases hlt : BitVec.ofNat 32 l < BitVec.ofNat 32 d
  · rw [if_pos hlt, hl']
    rw [BitVec.lt_def, hl', hd'] at hlt
    omega
  · rw [if_neg hlt, hd']
    rw [BitVec.lt_def, hl', hd'] at hlt
    omega

/-- **An acknowledgement of something new** moves `snd_una`. -/
theorem ConnOk.acked {ack : Seq} (h : ConnOk strict k p pfinal c)
    (hst : handshaking c.tcb.state = false) (ho : c.out = []) (hack : ack = serialAt k.iss a)
    (hua : k.una < a) (ham : a ≤ k.max) (har : a ≤ p.rcv)
    (hfin : strict → a = k.sent.length + 2 → c.tcb.finSent = true) :
    ConnOk strict { k with una := a } p pfinal (Net.acked env ack c) := by
  have hu : 1 ≤ k.una := h.tied.shaken hst
  obtain ⟨n, he, hun, hnm⟩ := h.tied.nxt
  have he' : c.tcb.sndNxt = serialAt k.iss n := he
  have hnear := h.linked.max_near
  have hmaxle := h.linked.max_le
  have hlen := h.tied.len_eq
  unfold ringSize at hnear
  have htop : k.top = max k.una (1 + k.sent.length) := rfl
  have hmax : ack = c.tcb.sndMax ↔ a = k.max := by
    rw [hack, show c.tcb.sndMax = _ from h.tied.max, serialAt_inj (by omega) (by omega)]
  -- the `FIN` has the last number
  have hlast : c.tcb.finSent = true → a = k.max → k.max = k.top + 1 := by
    intro hf ha
    rcases (h.tied.finSent hf).2 with h1 | h1
    · exact h1
    · omega
  have hlt : seqLt c.tcb.sndNxt ack = true ↔ n < a := by
    rw [hack, he']
    exact serialAt_slt (by omega) (by omega)
  have hn : ack - c.tcb.sndUna = BitVec.ofNat 32 (a - k.una) := by
    rw [hack, show c.tcb.sndUna = _ from h.tied.una, serialAt_sub_eq hua.le]
  refine ⟨h.linked.acked hua ham har, ?_, ?_⟩
  · exact
      { h.tied with
        size := h.tied.size
        una := hack
        nxt := by
          by_cases hna : n < a
          · exact ⟨a, (if_pos (hlt.2 hna)).trans hack, le_rfl, ham⟩
          · exact ⟨n, (if_neg (mt hlt.1 hna)).trans he', Nat.le_of_not_lt hna, hnm⟩
        text := by
          simp only [Net.acked]
          rw [RingBuf.toList_drop, hn, toNat_dacked (by omega) (by omega) h.tied.len_lt, h.tied.text]
          refine drop_acked hu hua ?_
          rw [hlen]
          by_cases hof : (c.tcb.finSent && ack == c.tcb.sndMax) = true
          · rw [if_pos hof]
            simp only [Bool.and_eq_true, beq_iff_eq, hmax] at hof
            have := hlast hof.1 hof.2
            right
            omega
          · rw [if_neg hof]
            by_cases hle : a - k.una ≤ k.sent.length - (k.una - 1)
            · left
              omega
            · right
              omega
        finSent := fun hp => by
          obtain ⟨hwr, -⟩ := h.tied.finSent hp
          refine ⟨hwr, ?_⟩
          have htop' : Track.top { k with una := a } = max a (1 + k.sent.length) := rfl
          change k.max = _ + 1 ∨ k.max = a
          rcases (h.tied.finSent hp).2 with h1 | h1
          · omega
          · omega
        finAcked := fun hs ha => by
          change a = k.sent.length + 2 at ha
          have hf := hfin hs ha
          have := h.linked.one_fin hs
          refine ⟨hf, ?_⟩
          simp only [Net.acked, Tcb.core, Bool.or_eq_true, Bool.and_eq_true, beq_iff_eq]
          exact Or.inr ⟨hf, hmax.2 (by omega)⟩
        shaking := fun hp => absurd (hst.symm.trans hp) (by decide)
        shaken := fun _ => by change 1 ≤ a; omega }
  · exact none_out ho

/-- The handshake is over: the `SYN` is acknowledged. -/
theorem ConnOk.shaken (h : ConnOk strict k p pfinal c) (hst : handshaking c.tcb.state = true)
    (ho : c.out = []) (har : 1 ≤ p.rcv) (hheard : 1 ≤ k.rcv ∧
      c.tcb.rcvNxt = serialAt p.iss k.rcv ∧ c.tcb.irs = p.iss)
    (hs : s = { c.sock with state := .connected })
    (ht : t.core = { c.tcb.core with state := .established, sndUna := serialAt k.iss 1 }) :
    ConnOk strict { k with una := 1 } p pfinal ⟨s, t, c.out⟩ := by
  obtain ⟨h1, h2, h3, h4, h5, h6⟩ := h.tied.shaking hst
  subst hs
  refine ⟨h.linked.acked (by omega) (by omega) har, ?_, ?_⟩
  · rw [show (Conn.tcb ⟨_, t, c.out⟩).core = _ from ht]
    exact
      { h.tied with
        opened := ⟨nofun, nofun⟩
        size := h.tied.size
        una := rfl
        nxt := ⟨1, h3, le_rfl, h2.ge⟩
        text := by
          rw [show c.sock.tx.toList = _ from h.tied.text, h4]
          simp
        finSent := fun hp => absurd (h5.symm.trans hp) (by decide)
        finAcked := fun _ hu => by
          change 1 = k.sent.length + 2 at hu
          omega
        shaking := nofun
        shaken := fun _ => le_rfl
        unheard := nofun
        heard := fun _ => hheard }
  · exact none_out ho

/-- What the handling of the acknowledgement leaves: the call is over, or it goes on
with `snd_una` at some `a`. -/
def AckOk (strict : Prop) (k p : Track) (pfinal : Prop) (s : Sock) : Except After Conn → Prop
  | .error gone => AfterOk strict k p pfinal s gone
  | .ok c => ∃ a, k.una ≤ a ∧ ConnOk strict { k with una := a } p pfinal c ∧ c.out = [] ∧
      c.sock.rx = s.rx ∧ c.sock.shutRd = s.shutRd ∧ c.sock.shutWr = s.shutWr ∧
      handshaking c.tcb.state = false

theorem Grow.ack {final : Prop} (h : k.una ≤ a) : Grow k { k with una := a } final final :=
  { Grow.refl k final with una := h }

/-- What a call leaves counts from the track before as well. -/
theorem AfterOk.ack {s' : Sock} {x : After} (ha : k.una ≤ a)
    (h : AfterOk strict { k with una := a } p pfinal s' x) (h1 : s'.rx = s.rx)
    (h2 : s'.shutRd = s.shutRd) (h3 : s'.shutWr = s.shutWr) : AfterOk strict k p pfinal s x := by
  cases x with
  | live c =>
    obtain ⟨k', hg, hm, ht, h⟩ := h
    rw [h3] at hg
    exact ⟨k', (Grow.ack ha).trans hg, hm, ht, h⟩
  | closed s'' out =>
    refine ⟨h.1, ?_⟩
    intro s₁ hs₁
    rw [← h1, ← h2]
    exact h.2 s₁ hs₁

theorem AckOk.ack {s' : Sock} {x : Except After Conn} (ha : k.una ≤ a)
    (h : AckOk strict { k with una := a } p pfinal s' x) (h1 : s'.rx = s.rx)
    (h2 : s'.shutRd = s.shutRd) (h3 : s'.shutWr = s.shutWr) : AckOk strict k p pfinal s x := by
  cases x with
  | error gone => exact AfterOk.ack ha h h1 h2 h3
  | ok c =>
    obtain ⟨b, hb, hc, ho, e1, e2, e3, hst⟩ := h
    exact ⟨b, ha.trans hb, hc, ho, e1.trans h1, e2.trans h2, e3.trans h3, hst⟩

theorem AckOk.bind {x : Except After Conn} {f : Conn → Except After Conn}
    (hx : AckOk strict k p pfinal s x)
    (hf : ∀ a c, ConnOk strict { k with una := a } p pfinal c → c.out = [] →
      handshaking c.tcb.state = false → AckOk strict { k with una := a } p pfinal c.sock (f c)) :
    AckOk strict k p pfinal s (x >>= f) := by
  cases x with
  | error gone => exact hx
  | ok c =>
    obtain ⟨a, ha, hc, ho, h1, h2, h3, hst⟩ := hx
    exact AckOk.ack ha (hf a c hc ho hst) h1 h2 h3

theorem rst_sendReset {r : Seg} (h : r ∈ sendReset m n) : r.flags.rst = true := by
  unfold sendReset at h
  split at h
  · cases h
  · split at h
    · rw [mem_singleton.1 h]
      rfl
    · rw [mem_singleton.1 h]
      rfl

theorem ConnOk.reset {l : List Seg} (h : ConnOk strict k p pfinal c)
    (hl : ∀ m ∈ l, m.flags.rst = true) : ConnOk strict k p pfinal { c with out := c.out ++ l } where
  linked := h.linked
  tied := h.tied
  out := forall_mem_append.2 ⟨h.out, fun m hm => .inl (hl m hm)⟩

/-- How `established` ends: the listener has no room for the connection, or it is one. -/
theorem established_cases (ho : c.out = []) :
    (∃ out, (∀ r ∈ out, r.flags.rst = true) ∧ established env c = .closed none out) ∨
    established env c = .live
      ⟨{ c.sock with state := .connected }, { c.tcb with state := .established }, c.out⟩ := by
  unfold established
  simp only
  split_ifs
  · exact Or.inl ⟨c.out ++ [⟨c.tcb.sndNxt, c.tcb.rcvNxt, fRst, rwin c.sock, [], 0⟩],
      by simp [ho, fRst], rfl⟩
  · exact Or.inr rfl

/-- The third segment of the handshake. -/
theorem ConnOk.inputAckSyn {dlen : Nat} (h : ConnOk strict k p pfinal c) (ho : c.out = [])
    (hst : c.tcb.state ≠ .synSent) (hack : m.ack = serialAt k.iss a) (ha : 1 ≤ a) (har : a ≤ p.rcv)
    (hnear : Near strict k p) : AckOk strict k p pfinal c.sock (Net.inputAckSyn env m dlen c) := by
  unfold Net.inputAckSyn
  by_cases hsr : c.tcb.state = .synReceived
  swap
  · rw [if_neg hsr]
    exact ⟨k.una, le_rfl, h, ho, rfl, rfl, rfl, shaken_of_opened h.tied.opened hst hsr⟩
  rw [if_pos hsr]
  have hsh : handshaking c.tcb.state = true := by rw [hsr]; rfl
  obtain ⟨h1, h2, h3, h4, h5, h6⟩ := h.tied.shaking hsh
  have hrcv := hnear.rcv
  have hle : seqLe m.ack c.tcb.sndNxt = true ↔ a ≤ 1 := by
    rw [hack, show c.tcb.sndNxt = _ from h3]
    exact serialAt_sle (by omega) (by omega)
  by_cases hcond : (seqLt c.tcb.sndUna m.ack && seqLe m.ack c.tcb.sndNxt) = true
  · rw [if_pos hcond]
    rw [Bool.and_eq_true, hle] at hcond
    obtain rfl : a = 1 := by omega
    rcases established_cases env (c := c.upd fun t =>
      { t with sndUna := m.ack, sndWnd := m.win, rtxAt := 0, retries := 0, rto := rtoInit }) ho
      with ⟨out, hrst, he⟩ | he
    · rw [he]
      exact ⟨hrst, nofun⟩
    · rw [he]
      refine ⟨1, by omega, ?_, ho, rfl, rfl, rfl, rfl⟩
      refine h.shaken hsh ho har (h.tied.heard hst) rfl ?_
      rw [← hack]
      rfl
  · rw [if_neg hcond]
    exact (h.reset (fun r hr => rst_sendReset hr)).next

/-- The window of the other end. -/
def window (m : Seg) (c : Conn) : Conn :=
  if seqLe c.tcb.sndUna m.ack then c.upd fun t => { t with sndWnd := m.win } else c

theorem inputAck_eq (m : Seg) (c : Conn) : inputAck env m c =
    if seqLt c.tcb.sndUna m.ack && seqLe m.ack c.tcb.sndMax then .ok (window m (acked env m.ack c))
    else if seqLt c.tcb.sndMax m.ack then .error (.live (ackNow env c))
    else .ok (window m c) := rfl

theorem AckOk.window (h : AckOk strict k p pfinal s (.ok c)) :
    AckOk strict k p pfinal s (.ok (window m c)) := by
  obtain ⟨a, h1, h2, h3, h4, h5, h6, h7⟩ := h
  unfold Net.window
  split
  · exact ⟨a, h1, h2.congr rfl rfl rfl, h3, h4, h5, h6, h7⟩
  · exact ⟨a, h1, h2, h3, h4, h5, h6, h7⟩

/-- The other end's bytes go behind those that are there. -/
theorem take_append_next {sent : List Byte} {r : Nat} (h : data <+: sent.drop r) (i : Nat) :
    sent.take r ++ data.take i = sent.take (r + min data.length i) := by
  obtain ⟨more, he⟩ := h
  rw [take_add, ← he, take_append_of_le_length (Nat.min_le_left ..), Nat.min_comm,
    ← take_eq_take_min]

theorem handshaking_finState (h : handshaking t.state = false) :
    handshaking (finState t) = false := by
  unfold finState
  split_ifs <;> first | rfl | exact h

theorem after_inputRst (ho : c.out = []) : AfterOk strict k p pfinal c.sock (inputRst c) := by
  unfold inputRst
  split_ifs
  · exact after_tcbFree (by simp [Conn.upd, ho]) rfl id
  · exact after_tcbFree (by simp [ho]) rfl id
  · exact after_tcbFree (by simp [ho]) rfl id

theorem core_parseMss (m : Seg) (t : Tcb) : (parseMss env m t).core = t.core := by
  unfold parseMss
  simp only
  split_ifs <;> rfl

theorem Tied.setState {tx : RingBuf Byte} {b : Bool} {q : Core} {st : TcpState}
    (h : Tied strict k p tx b q) (hst : handshaking q.state = false)
    (hst' : handshaking st = false) : Tied strict k p tx b { q with state := st } :=
  { h with
    opened := opened_of_shaken hst'
    shaking := fun hp => absurd (hst'.symm.trans hp) (by decide)
    shaken := fun _ => h.shaken hst
    unheard := fun hp => absurd hp (not_synSent hst')
    heard := fun _ => h.heard (not_synSent hst) }

variable (h : ConnOk strict k p pfinal c)

include h

/-- Only the state changes, between states behind the handshake. -/
theorem ConnOk.setState {c' : Conn} (st : TcpState) (hst : handshaking c.tcb.state = false)
    (hst' : handshaking st = false) (hs : c'.sock = c.sock)
    (ht : c'.tcb.core = { c.tcb.core with state := st }) (ho : c'.out = c.out) :
    ConnOk strict k p pfinal c' := by
  obtain ⟨sock, tcb, out⟩ := c'
  subst hs ho
  refine ⟨h.linked, ?_, h.out⟩
  rw [show (Conn.tcb ⟨c.sock, tcb, c.out⟩).core = _ from ht]
  exact h.tied.setState hst hst'

/-- Behind the last byte only a `FIN` that is not withdrawn is acknowledged. -/
theorem ConnOk.finSent_of_ack (hst : handshaking c.tcb.state = false)
    (hack : m.ack = serialAt k.iss a) (hflag : m.flags.ack = true) (hw : ¬ Withdrawn c.sock c.tcb m)
    (hmax : a ≤ k.max) (hs : strict) (ha : a = k.sent.length + 2) (hua : k.una < a) :
    c.tcb.finSent = true := by
  by_contra hf
  rw [Bool.not_eq_true] at hf
  have h1 := h.linked.one_fin hs
  have h2 := h.tied.shaken hst
  have h3 := h.linked.max_near
  have hlen := h.tied.len_eq
  unfold ringSize at h3
  have hm : c.tcb.sndMax = serialAt k.iss a := by
    rw [show c.tcb.sndMax = _ from h.tied.max]
    congr 1
    omega
  refine hw ⟨hst, hf, hflag, hack.trans hm.symm, ?_⟩
  rw [hm, show c.tcb.sndUna = _ from h.tied.una, serialAt_sub_toNat hua.le (by omega)]
  omega

variable (ho : c.out = [])

include ho

theorem ConnOk.inputFinAcked (hst : handshaking c.tcb.state = false) :
    AckOk strict k p pfinal c.sock (Net.inputFinAcked env c) := by
  unfold Net.inputFinAcked
  split_ifs
  · exact ⟨k.una, le_rfl, h.setState .finWait2 hst rfl rfl rfl rfl, ho, rfl, rfl, rfl, rfl⟩
  · exact ⟨k.una, le_rfl, h.setState .timeWait hst rfl rfl rfl rfl, ho, rfl, rfl, rfl, rfl⟩
  · change AfterOk strict k p pfinal c.sock (tcbFree c)
    exact after_tcbFree (by simp [ho]) rfl id
  · exact ⟨k.una, le_rfl, h, ho, rfl, rfl, rfl, hst⟩
  · exact ⟨k.una, le_rfl, h, ho, rfl, rfl, rfl, hst⟩

/-- The acknowledgement of a segment, and what follows from it. -/
theorem ConnOk.inputAcks (hst : handshaking c.tcb.state = false) (hack : m.ack = serialAt k.iss a)
    (har : a ≤ p.rcv) (hold : k.max < a + 2 ^ 31) (hnear : Near strict k p)
    (hfin : strict → a = k.sent.length + 2 → k.una < a → c.tcb.finSent = true) :
    AckOk strict k p pfinal c.sock (do
      let c ← Net.inputAck env m c
      Net.inputFinAcked env c) := by
  refine AckOk.bind ?_ fun b c₁ h₁ ho₁ hst₁ => h₁.inputFinAcked env ho₁ hst₁
  have hle := h.linked.una_le
  have hmn := h.linked.max_near
  have hrcv := hnear.rcv
  unfold ringSize at hmn
  have h1 : seqLt c.tcb.sndUna m.ack = true ↔ k.una < a := by
    rw [hack, show c.tcb.sndUna = _ from h.tied.una]
    exact serialAt_slt (by omega) (by omega)
  have h2 : seqLe m.ack c.tcb.sndMax = true ↔ a ≤ k.max := by
    rw [hack, show c.tcb.sndMax = _ from h.tied.max]
    exact serialAt_sle (by omega) (by omega)
  rw [inputAck_eq]
  by_cases hnew : (seqLt c.tcb.sndUna m.ack && seqLe m.ack c.tcb.sndMax) = true
  · rw [if_pos hnew]
    rw [Bool.and_eq_true, h1, h2] at hnew
    refine AckOk.window ⟨a, hnew.1.le, ?_, ho, rfl, rfl, rfl, hst⟩
    exact h.acked env hst ho hack hnew.1 hnew.2 har (fun hs ha => hfin hs ha hnew.1)
  · rw [if_neg hnew]
    split_ifs
    · exact h.next.ackNow env
    · exact AckOk.window ⟨k.una, le_rfl, h, ho, rfl, rfl, rfl, hst⟩

theorem ConnOk.acknowledge (dlen : Nat) (hst : c.tcb.state ≠ .synSent)
    (hack : m.ack = serialAt k.iss a) (ha : 1 ≤ a) (har : a ≤ p.rcv) (hold : k.max < a + 2 ^ 31)
    (hnear : Near strict k p) (hflag : m.flags.ack = true)
    (hw : strict → ¬ Withdrawn c.sock c.tcb m) :
    AckOk strict k p pfinal c.sock (do
      let c ← Net.inputAckSyn env m dlen c
      let c ← Net.inputAck env m c
      Net.inputFinAcked env c) := by
  by_cases hsr : c.tcb.state = .synReceived
  · refine (h.inputAckSyn env ho hst hack ha har hnear).bind fun b c₁ h₁ ho₁ hst₁ =>
      h₁.inputAcks env ho₁ hst₁ hack har hold ⟨hnear.max, hnear.rcv, hnear.rcv_max⟩ ?_
    -- nothing but the `SYN` has been sent
    intro hs he
    obtain ⟨-, hmax, -, hsent, -⟩ := h.tied.shaking (by rw [show c.tcb.core.state = _ from hsr]; rfl)
    have := hnear.rcv_max hs
    change a = k.sent.length + 2 at he
    omega
  · have hst' := shaken_of_opened h.tied.opened hst hsr
    have he : Net.inputAckSyn env m dlen c = .ok c := if_neg hsr
    rw [he]
    refine h.inputAcks env ho hst' hack har hold hnear ?_
    intro hs ha hua
    exact h.finSent_of_ack hst' hack hflag (hw hs) (har.trans (hnear.rcv_max hs)) hs ha hua

/-! ## Data and the end of the stream -/

/-- **Data goes into the buffer**: as much as there is room for, or nothing when nobody
reads any more. -/
theorem ConnOk.inputData (fin : Bool) (hst : handshaking c.tcb.state = false) (hd : data ≠ [])
    (htext : data <+: p.sent.drop (k.rcv - 1)) (hstop : k.rcv + data.length ≤ p.max + 1)
    (hs : strict → k.rcv + data.length ≤ p.max ∨ c.sock.shutRd = false ∧ c.sock.rx.space = 0) :
    ∃ r, ConnOk strict { k with rcv := k.rcv + r } p pfinal (Net.inputData fin data c).1 ∧
      (Net.inputData fin data c).1.sock.shutWr = c.sock.shutWr := by
  unfold Net.inputData
  by_cases hrec : receiving c.tcb.state = true
  swap
  · rw [if_neg (fun hh => hrec hh.2), if_pos hd]
    exact ⟨0, h.congr rfl rfl rfl, rfl⟩
  rw [if_pos ⟨hd, hrec⟩]
  obtain ⟨hr1, hrcv, hirs⟩ := h.tied.heard (not_synSent hst)
  have hpos : 0 < data.length := length_pos_iff.2 hd
  have hin : k.rcv - 1 + data.length ≤ p.sent.length := by
    have := htext.length_le
    rw [length_drop] at this
    omega
  refine ⟨if c.sock.shutRd then data.length else min data.length c.sock.rx.space, ?_, rfl⟩
  have hle : (if c.sock.shutRd then data.length else min data.length c.sock.rx.space) ≤
      data.length := by
    split
    · exact le_rfl
    · exact Nat.min_le_left ..
  generalize hi : (if c.sock.shutRd then data.length else min data.length c.sock.rx.space) = i at hle
  refine ⟨?_, ?_, ?_⟩
  · exact
      { h.linked with
        rcv_le := by change k.rcv + i ≤ p.max + 1; omega
        rcv_max := fun hst => by
          change k.rcv + i ≤ p.max
          have h0 := h.linked.rcv_max hst
          rcases hs hst with hs | ⟨hrd, hsp⟩
          · omega
          · rw [hrd, if_neg (by decide), hsp, Nat.min_zero] at hi
            omega
        rcv_pos := fun _ => h.linked.rcv_pos hr1
        rcv_final := fun hlt => by
          change 1 + p.sent.length < k.rcv + i at hlt
          omega
        eof := fun hf => by
          have := h.linked.eof hf
          omega
        got := by
          by_cases hrd : c.sock.shutRd = true
          · simp only [hrd, if_true]
            exact h.linked.got
          · have hall := h.linked.all (by simpa using hrd)
            simp only [if_neg hrd, RingBuf.toList_put]
            rw [← List.append_assoc, hall, take_append_next htext]
            exact take_prefix _ _
        all := fun hrd => by
          have hall := h.linked.all hrd
          change c.sock.shutRd = false at hrd
          simp only [hrd] at hi ⊢
          rw [if_neg (by decide)] at hi ⊢
          rw [RingBuf.toList_put, ← List.append_assoc, hall, take_append_next htext, hi]
          congr 1
          omega }
  · exact
      { h.tied with
        shaking := fun hp => absurd (hst.symm.trans hp) (by decide)
        unheard := fun hp => absurd hp (not_synSent hst)
        heard := fun _ => ⟨by change 1 ≤ k.rcv + i; omega, by
          change c.tcb.rcvNxt + _ = _
          rw [show c.tcb.rcvNxt = _ from hrcv, serialAt_add], hirs⟩ }
  · exact none_out ho

/-- **The `FIN` counts** when everything in front of it is there. -/
theorem ConnOk.inputFin (hst : handshaking c.tcb.state = false) (hfinal : pfinal)
    (hend : 1 + p.sent.length ≤ k.rcv) (hmax : k.rcv + 1 ≤ p.max) :
    ConnOk strict { k with rcv := k.rcv + 1, fin := true } p pfinal (Net.inputFin env c) := by
  obtain ⟨hr1, hrcv, hirs⟩ := h.tied.heard (not_synSent hst)
  refine ⟨?_, ?_, ?_⟩
  · exact
      { h.linked with
        rcv_le := by change k.rcv + 1 ≤ p.max + 1; omega
        rcv_max := fun _ => hmax
        rcv_pos := fun _ => by omega
        rcv_final := fun _ => hfinal
        eof := fun _ => by change 2 + p.sent.length ≤ k.rcv + 1; omega
        all := fun hrd => by
          have hall := h.linked.all hrd
          rw [take_of_length_le (by omega)] at hall
          change k.got ++ c.sock.rx.toList = p.sent.take (k.rcv + 1 - 1)
          rw [hall, take_of_length_le (by omega)] }
  · have hst' : handshaking (finState c.tcb) = false := handshaking_finState hst
    exact
      { h.tied.setState hst hst' with
        unheard := fun hp => absurd hp (not_synSent hst')
        heard := fun _ => ⟨by change 1 ≤ k.rcv + 1; omega, by
          change c.tcb.rcvNxt + 1 = _
          rw [show c.tcb.rcvNxt = _ from hrcv, serialAt_succ], hirs⟩
        finRcvd := rfl }
  · exact none_out ho

/-- The rest of `tcp_input`, behind the acknowledgement. -/
theorem ConnOk.inputText (hst : handshaking c.tcb.state = false)
    (ht : Trimmed k p pfinal m flags data) (hs : strict → ¬ Overrun p c.sock m) :
    AfterOk strict k p pfinal c.sock (Net.inputText env m flags.fin data c) := by
  unfold Net.inputText
  by_cases horphan : data ≠ [] ∧ c.tcb.orphan = true
  · rw [if_pos horphan]
    exact after_tcbFree (by simp [ho, fRst]) rfl id
  rw [if_neg horphan]
  by_cases hd : data = []
  · subst hd
    have he : Net.inputData flags.fin [] c = (c, flags.fin) := by simp [Net.inputData]
    simp only [he]
    by_cases hf : flags.fin = true
    · rw [if_pos hf]
      obtain ⟨h1, -, h3, h4⟩ := ht.fin hf
      refine Next.tcpOutput env ⟨_, ?_, by simp, by simp, h.inputFin env ho hst h1 h3 h4⟩
      exact { Grow.refl k _ with rcv := by change k.rcv ≤ k.rcv + 1; omega, fin := fun _ => rfl }
    · rw [if_neg hf]
      exact h.next.tcpOutput env
  · -- a segment with data has no `FIN` that counts
    have hf : flags.fin = false := by
      by_contra hf
      rw [Bool.not_eq_false] at hf
      exact hd (ht.fin hf).2.1
    obtain ⟨hstop, hmd, hseq⟩ := ht.stop hd
    obtain ⟨r, h', hwr⟩ := h.inputData ho flags.fin hst hd ht.text hstop (by
      intro hst
      by_contra hno
      rw [not_or, not_and] at hno
      refine hs hst ⟨hmd, ?_, ?_⟩
      · rw [hseq]
        congr 1
        omega
      · by_cases hrd : c.sock.shutRd = true
        · exact Or.inl hrd
        · exact Or.inr (Nat.pos_of_ne_zero (hno.2 (by simpa using hrd))))
    have hsnd : (Net.inputData flags.fin data c).2 = false := by
      unfold Net.inputData
      split_ifs <;> simp [hf]
    simp only [hsnd]
    rw [if_neg (by decide)]
    refine Next.tcpOutput env ⟨_, ?_, by simp, by simp, h'⟩
    rw [hwr]
    exact { Grow.refl k _ with rcv := Nat.le_add_right .. }

theorem ConnOk.inputSync (hst : c.tcb.state ≠ .synSent) (hnear : Near strict k p)
    (ht : Trimmed k p pfinal m flags data) (hack : m.flags.ack = true →
      ∃ a, m.ack = serialAt k.iss a ∧ 1 ≤ a ∧ a ≤ p.rcv ∧ k.max < a + 2 ^ 31)
    (hs : strict → ¬ Overrun p c.sock m ∧ ¬ Withdrawn c.sock c.tcb m) (hrst : m.flags.rst = false) :
    AfterOk strict k p pfinal c.sock (Net.inputSync env m flags data c) := by
  unfold Net.inputSync
  rw [if_neg (by rw [ht.rst, hrst]; decide), if_neg (by rw [ht.syn]; decide)]
  by_cases hf : flags.ack = true
  swap
  · rw [if_pos (by simp [hf])]
    exact h.next
  rw [if_neg (by simp [hf])]
  obtain ⟨a, ha, ha1, har, hold⟩ := hack (ht.ack ▸ hf)
  have hchain := h.acknowledge env ho data.length hst ha ha1 har hold hnear (ht.ack ▸ hf)
    (fun hstrict => (hs hstrict).2)
  generalize (do
      let c ← Net.inputAckSyn env m data.length c
      let c ← Net.inputAck env m c
      Net.inputFinAcked env c) = x at hchain
  cases x with
  | error gone => exact hchain
  | ok c' =>
    obtain ⟨b, hb, h', ho', e1, e2, e3, hst'⟩ := hchain
    refine AfterOk.ack hb (h'.inputText env ho' hst' ?_ ?_) e1 e2 e3
    · exact { ht with }
    · intro hstrict hov
      refine (hs hstrict).1 ⟨hov.1, hov.2.1, ?_⟩
      rw [← e1, ← e2]
      exact hov.2.2

/-- The other end's `SYN` is heard. -/
theorem ConnOk.hear (hst : c.tcb.state = .synSent) (hseq : m.seq = p.iss) (hp : 1 ≤ p.max)
    (ht : t.core = { c.tcb.core with state := .synReceived, irs := m.seq, rcvNxt := m.seq + 1 }) :
    ConnOk strict { k with rcv := 1 } p pfinal ⟨c.sock, t, c.out⟩ := by
  obtain ⟨hr0, -, -⟩ := h.tied.unheard hst
  have hfin : k.fin = false := by
    by_contra hf
    rw [Bool.not_eq_false] at hf
    have := h.linked.eof hf
    omega
  refine ⟨?_, ?_, ?_⟩
  · exact
      { h.linked with
        rcv_le := by change 1 ≤ p.max + 1; omega
        rcv_max := fun _ => hp
        rcv_pos := fun _ => hp
        rcv_final := fun hlt => by
          change 1 + p.sent.length < 1 at hlt
          omega
        eof := fun hf => absurd (hfin.symm.trans hf) (by decide)
        all := fun hrd => by
          have := h.linked.all hrd
          rw [hr0] at this
          exact this }
  · rw [show (Conn.tcb ⟨c.sock, t, c.out⟩).core = _ from ht]
    exact
      { h.tied with
        opened := ⟨nofun, nofun⟩
        shaking := fun _ => h.tied.shaking (by rw [show c.tcb.core.state = _ from hst]; rfl)
        shaken := nofun
        unheard := nofun
        heard := fun _ => ⟨le_rfl, by rw [hseq, ← serialAt_zero p.iss, serialAt_succ, serialAt_zero],
          hseq⟩ }
  · exact none_out ho

theorem ConnOk.inputSynSent (hst : c.tcb.state = .synSent) (hnear : Near strict k p)
    (hm : Arrives strict k p pfinal m) :
    AfterOk strict k p pfinal c.sock (Net.inputSynSent env m c) := by
  have hsh : handshaking c.tcb.state = true := by rw [hst]; rfl
  obtain ⟨hu0, hm1, hnxt, -, -, hiss⟩ := h.tied.shaking hsh
  unfold Net.inputSynSent
  by_cases hbad : (m.flags.ack && (seqLe m.ack c.tcb.iss || seqLt c.tcb.sndNxt m.ack)) = true
  · rw [if_pos hbad]
    exact (h.reset (fun r hr => rst_sendReset hr)).next
  rw [if_neg hbad]
  by_cases hrst : m.flags.rst = true
  · rw [if_pos hrst]
    split_ifs
    · exact after_tcbFree (by simp [ho]) rfl id
    · exact h.next
  rw [if_neg hrst]
  by_cases hsyn : m.flags.syn = true
  swap
  · rw [if_pos (by simp [hsyn])]
    exact h.next
  rw [if_neg (by simp [hsyn])]
  obtain ⟨⟨n, hseq, hc, -⟩, hack⟩ := hm.resolve_left hrst
  have hseq0 : m.seq = p.iss := by rw [hseq, (hc.syn hsyn).1, serialAt_zero]
  have hgrow : ∀ {a : Nat}, k.una ≤ a → Grow k { k with rcv := 1, una := a }
      (c.sock.shutWr = true) (c.sock.shutWr = true) := by
    intro a ha
    have hr0 := (h.tied.unheard hst).1
    exact { Grow.refl k _ with una := ha, rcv := by change k.rcv ≤ 1; omega }
  by_cases hflag : m.flags.ack = true
  · -- the answer to our `SYN`
    simp only [if_pos hflag]
    obtain ⟨a, ha, ha1, har, hold⟩ := hack hflag
    have hrcv := hnear.rcv
    have hlt : seqLt c.tcb.sndNxt m.ack = true ↔ 1 < a := by
      rw [ha, show c.tcb.sndNxt = _ from hnxt]
      exact serialAt_slt (by omega) (by omega)
    obtain rfl : a = 1 := by
      simp only [hflag, Bool.true_and, Bool.or_eq_true, not_or, hlt] at hbad
      omega
    rcases established_cases env (c := (c.upd fun t =>
      parseMss env m { t with irs := m.seq, rcvNxt := m.seq + 1, sndWnd := m.win }).upd fun t =>
      { t with sndUna := m.ack, rtxAt := 0, retries := 0, rto := rtoInit }) ho
      with ⟨out, hout, he⟩ | he
    · rw [he]
      exact ⟨hout, nofun⟩
    · rw [he]
      have h₁ := h.hear (t := { c.tcb with
        state := .synReceived, irs := m.seq, rcvNxt := m.seq + 1 }) ho hst hseq0 hc.sent rfl
      refine Next.ackNow env ⟨_, hgrow (a := 1) (by omega), by simp, by simp, ?_⟩
      refine h₁.shaken rfl ho har (h₁.tied.heard nofun) rfl ?_
      have hpm := core_parseMss env m
        { c.tcb with irs := m.seq, rcvNxt := m.seq + 1, sndWnd := m.win }
      rw [← ha]
      exact congrArg (fun q : Core => { q with state := .established, sndUna := m.ack }) hpm
  · -- both ends have begun
    simp only [if_neg hflag]
    have h₁ : ConnOk strict { k with rcv := 1 } p pfinal ((c.upd fun t =>
        parseMss env m { t with irs := m.seq, rcvNxt := m.seq + 1, sndWnd := m.win }).upd fun t =>
        { t with state := .synReceived }) := by
      refine h.hear ho hst hseq0 hc.sent ?_
      have hpm := core_parseMss env m
        { c.tcb with irs := m.seq, rcvNxt := m.seq + 1, sndWnd := m.win }
      exact congrArg (fun q : Core => { q with state := .synReceived }) hpm
    refine ⟨_, hgrow (a := k.una) le_rfl, by simp, by simp, ?_⟩
    exact h₁.syn env { fAck with syn := true } rfl rfl rfl nofun

/-- **`tcp_input` keeps the connection in order.** -/
theorem ConnOk.tcpInput (hnear : Near strict k p) (hm : Arrives strict k p pfinal m)
    (hs : strict → ¬ Overrun p c.sock m ∧ ¬ Withdrawn c.sock c.tcb m) :
    AfterOk strict k p pfinal c.sock (Net.tcpInput env m c) := by
  unfold Net.tcpInput
  by_cases hst : c.tcb.state = .synSent
  · rw [if_pos hst]
    exact h.inputSynSent env ho hst hnear hm
  rw [if_neg hst]
  cases htrim : trim c.tcb m with
  | none =>
    simp only
    by_cases hrst : m.flags.rst = true
    · rw [if_pos hrst]
      exact h.next
    · rw [if_neg hrst]
      exact h.next.ackNow env
  | some r =>
    obtain ⟨flags, data⟩ := r
    simp only
    by_cases hrst : m.flags.rst = true
    · rw [Net.inputSync, if_pos ((trim_rst htrim).trans hrst)]
      exact after_inputRst ho
    · obtain ⟨⟨n, hseq, hc, hold⟩, hack⟩ := hm.resolve_left hrst
      exact h.inputSync env ho hst hnear (trim_spec h hst hnear hseq hc hold htrim) hack hs
        (Bool.not_eq_true _ ▸ hrst)

end

end Tortoise.Net
