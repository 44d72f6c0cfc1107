import Tortoise.Net.Send

/-!
# What the calls and the timer keep

The calls of the program and `tcp_tick`, each from a connection in order to a
connection in order.  `tcp_send` adds to the bytes accepted, `tcp_recv` moves bytes
from the buffer to the program, and a retransmission goes back to `snd_una`.
-/

namespace Tortoise.Net

open Lib List

section

variable {strict : Prop} {k p : Track} {pfinal : Prop} {c : Conn} (env : Env)

theorem ConnOk.next (h : ConnOk strict k p pfinal c) :
    Next strict k p (c.sock.shutWr = true) pfinal [] [] c :=
  ⟨k, .refl k _, by simp, by simp, h⟩

theorem Next.tcpOutput {final : Prop} {more taken : List Byte}
    (h : Next strict k p final pfinal more taken c) :
    Next strict k p final pfinal more taken (Net.tcpOutput env c) := by
  obtain ⟨k', hg, hm, ht, h⟩ := h
  obtain ⟨n, hn, h', hs⟩ := h.tcpOutput env
  refine ⟨{ k' with max := n }, hg.trans ?_, hm, ht, h'⟩
  rw [hs]
  exact .raise hn

theorem Next.ackNow {final : Prop} {more taken : List Byte}
    (h : Next strict k p final pfinal more taken c) :
    Next strict k p final pfinal more taken (Net.ackNow env c) := by
  obtain ⟨k', hg, hm, ht, h⟩ := h
  exact Next.tcpOutput env ⟨k', hg, hm, ht, h.congr rfl rfl rfl⟩

/-- Freeing the control block, when only resets have been sent. -/
theorem after_tcbFree {s : Sock} (ho : ∀ m ∈ c.out, m.flags.rst = true)
    (hx : c.sock.rx = s.rx) (hr : c.sock.shutRd = false → s.shutRd = false) :
    AfterOk strict k p pfinal s (tcbFree c) := by
  refine ⟨ho, ?_⟩
  intro s' hs'
  split at hs'
  · cases hs'
  · cases hs'
    exact ⟨by rw [← hx], hr⟩

theorem shaken_of_opened {st : TcpState} (ho : st ≠ .closed ∧ st ≠ .listen) (h1 : st ≠ .synSent)
    (h2 : st ≠ .synReceived) : handshaking st = false := by
  cases st <;> simp_all [handshaking]

variable (h : ConnOk strict k p pfinal c)

include h

/-! ## The timer -/

/-- The probe of a closed window carries the first byte that is not acknowledged. -/
theorem ConnOk.probe (hst : handshaking c.tcb.state = false) (hlen : c.sock.tx.len ≠ 0) :
    ConnOk strict k p pfinal (Net.probe env c) := by
  have hu : 1 ≤ k.una := h.tied.shaken hst
  have hle := h.linked.una_le
  have hs : ConnOk strict k p pfinal
      (Net.tcbSeg env c.tcb.sndUna fAck (c.sock.tx.peekAt 0 1) false c) := by
    refine h.tcbSeg env h.tied.una le_rfl ?_ (fun _ => not_synSent hst)
    intro m hfl hd
    have hdl : m.data.length = 1 := by rw [hd]; simp [RingBuf.peekAt]
    exact
      { sent := hu.trans hle
        stop := by omega
        syn := by simp [hfl, fAck]
        pos := fun _ => hu
        text := by
          rw [hd, RingBuf.peekAt_eq _ (by omega), h.tied.text, drop_zero]
          exact take_prefix _ _
        fin := by simp [hfl, fAck] }
  exact hs.congr rfl (core_arm env _) rfl

/-- A retransmission begins again at `snd_una`, and withdraws the `FIN`. -/
theorem ConnOk.rewind (hst : handshaking c.tcb.state = false) :
    ConnOk strict k p pfinal (c.upd fun t =>
      { t with sndNxt := t.sndUna, finSent := t.finSent && t.finAcked }) where
  linked := h.linked
  tied :=
    { h.tied with
      nxt := ⟨k.una, h.tied.una, le_rfl, h.linked.una_le⟩
      finSent := fun hp => h.tied.finSent (Bool.and_eq_true .. ▸ hp).1
      finAcked := fun hs hu => by
        obtain ⟨h1, h2⟩ := h.tied.finAcked hs hu
        exact ⟨Bool.and_eq_true .. ▸ ⟨h1, h2⟩, h2⟩
      shaking := fun hp => absurd (hst.symm.trans hp) (by decide) }
  out := h.out

theorem ConnOk.retransmit :
    Next strict k p (c.sock.shutWr = true) pfinal [] [] (Net.retransmit env c) := by
  have h0 : ConnOk strict k p pfinal (c.upd fun t => { t with rto := t.rto * 2 }) :=
    h.congr rfl rfl rfl
  have harm : ∀ {c' : Conn}, Next strict k p (c.sock.shutWr = true) pfinal [] [] c' →
      Next strict k p (c.sock.shutWr = true) pfinal [] [] (c'.upd (Net.arm env)) := by
    rintro c' ⟨k', hg, hm, ht, h'⟩
    exact ⟨k', hg, hm, ht, h'.arm env⟩
  unfold Net.retransmit
  refine harm ?_
  simp only
  split_ifs with h1 h2
  · exact (h0.syn env _ (congrArg handshaking h1) rfl rfl (by intro hp; cases hp)).next
  · exact (h0.syn env { fAck with syn := true } (congrArg handshaking h2) rfl rfl
      (fun _ => h1)).next
  · exact Next.tcpOutput env (h0.rewind (shaken_of_opened h.tied.opened h1 h2)).next

variable (ho : c.out = [])

include ho

/-- **The timer keeps the connection in order.** -/
theorem ConnOk.tcpTick :
    AfterOk strict k p pfinal c.sock (Net.tcpTick env c) := by
  unfold Net.tcpTick
  have h0 : ConnOk strict k p pfinal (c.upd fun t => { t with rtxAt := 0 }) := h.congr rfl rfl rfl
  split_ifs with htw hat harm
  · exact after_tcbFree (by simp [ho]) rfl id
  · exact h.next
  · exact h.next
  · simp only
    split_ifs with hprobe heq hmax
    · refine ConnOk.next (c := Net.probe env _) (h0.probe env ?_ hprobe.2.2)
      -- before the handshake is over `snd_una` is not `snd_max`
      by_contra hst
      rw [Bool.not_eq_false] at hst
      obtain ⟨h1, h2, -⟩ := h.tied.shaking hst
      have he : serialAt k.iss k.una = serialAt k.iss k.max :=
        h.tied.una.symm.trans (hprobe.1.trans h.tied.max)
      rw [h1, h2, serialAt_inj (by omega) (by omega)] at he
      cases he
    · exact h0.next
    · refine after_tcbFree (forall_mem_append.2 ⟨?_, forall_mem_singleton.2 rfl⟩) rfl id
      simp [Conn.upd, ho]
    · exact (h0.congr rfl rfl rfl : ConnOk strict k p pfinal
        (c.upd fun t => { t with rtxAt := 0, retries := t.retries + 1 })).retransmit env

/-! ## Reading and writing -/

theorem ConnOk.put {data : List Byte} (hst : handshaking c.tcb.state = false)
    (hwr : c.sock.shutWr = false) :
    ConnOk strict { k with sent := k.sent ++ data.take c.sock.tx.space } p pfinal
      { c with sock := { c.sock with tx := c.sock.tx.put data } } := by
  have hopen : ¬ c.sock.shutWr = true := by simp [hwr]
  have hu : 1 ≤ k.una := h.tied.shaken hst
  have huna : k.una ≤ 1 + k.sent.length := by
    by_contra hlt
    exact hopen (h.linked.una_final (by omega))
  have hmax : k.max ≤ 1 + k.sent.length := by
    by_contra hlt
    exact hopen (h.linked.max_final (lt_of_le_of_lt (Track.top_le huna le_rfl) (by omega)))
  have htext : (c.sock.tx.put data).toList =
      (k.sent ++ data.take c.sock.tx.space).drop (k.una - 1) := by
    rw [RingBuf.toList_put, h.tied.text, drop_append_of_le_length (by omega)]
  have hfull := (c.sock.tx.put data).len_le
  rw [RingBuf.len_eq, htext, RingBuf.size_put, h.tied.size, length_drop] at hfull
  have hlen : k.sent.length ≤ (k.sent ++ data.take c.sock.tx.space).length := by simp
  constructor
  · exact
      { h.linked with
        max_le := by
          have := Track.sent_le_top { k with sent := k.sent ++ data.take c.sock.tx.space }
          simp only at this ⊢
          omega
        max_final := by
          have := Track.sent_le_top { k with sent := k.sent ++ data.take c.sock.tx.space }
          intro hlt
          simp only at this hlt
          omega
        una_final := by
          intro hlt
          simp only at hlt
          omega
        buffered := by
          simp only
          omega
        one_fin := fun hs => by
          have := h.linked.one_fin hs
          simp only
          omega }
  · exact
      { h.tied with
        size := h.tied.size
        text := htext
        finSent := fun hp => absurd (h.tied.finSent hp).1 hopen
        finAcked := fun hs hu' => by
          simp only at hu'
          omega
        shaking := fun hp => absurd (hst.symm.trans hp) (by decide) }
  · exact none_out ho

/-- **`tcp_send`** accepts bytes into the stream. -/
theorem ConnOk.tcpSend {data : List Byte} :
    Next strict k p (c.sock.shutWr = true) pfinal
      (data.take ((Net.tcpSend env data c).2.getD 0)) [] (Net.tcpSend env data c).1 := by
  have h0 : ConnOk strict k p pfinal { c with sock := { c.sock with error := 0 } } :=
    ⟨h.linked, h.tied, h.out⟩
  unfold Net.tcpSend
  simp only
  split_ifs with herr hst hnil
  · exact h0.next
  · exact h0.next
  · exact h0.next
  · simp only [Bool.or_eq_true, Bool.not_eq_true', decide_eq_false_iff_not, not_or,
      Bool.not_eq_true, Bool.or_eq_false_iff, not_and] at hst
    have hsh : handshaking c.tcb.state = false := by
      rcases hst with ⟨-, hst⟩
      cases hs : c.tcb.state <;> simp_all [handshaking]
    refine Next.tcpOutput env ⟨_, ?_, ?_, ?_, h0.put ho hsh hst.1⟩
    · exact
        { Grow.refl k _ with
          sent := prefix_append _ _
          frozen := fun hf => absurd hf (by simp [hst.1]) }
    · simp only [Option.getD_some]
      rw [Nat.min_comm, ← take_take, take_length]
    · simp

/-- Bytes are given to the program, or shown to it. -/
theorem ConnOk.get (n : Nat) (peek : Bool) :
    ConnOk strict { k with got := k.got ++ Recv.taken peek (.data (c.sock.rx.get n peek).1) } p pfinal
      { c with sock := { c.sock with rx := (c.sock.rx.get n peek).2 } } := by
  have he : k.got ++ Recv.taken peek (.data (c.sock.rx.get n peek).1) ++
      (c.sock.rx.get n peek).2.toList = k.got ++ c.sock.rx.toList := by
    obtain ⟨h1, h2⟩ := c.sock.rx.get_eq n peek
    rw [h1, h2]
    cases peek with
    | true => simp [Recv.taken]
    | false => simp [Recv.taken]
  constructor
  · exact
      { h.linked with
        got := by
          simp only
          rw [he]
          exact h.linked.got
        all := fun hr => by
          simp only
          rw [he]
          exact h.linked.all hr }
  · exact { h.tied with }
  · exact none_out ho

/-- **`tcp_recv`** gives bytes of the stream to the program. -/
theorem ConnOk.tcpRecv {n : Nat} {peek : Bool} :
    Next strict k p (c.sock.shutWr = true) pfinal [] ((Net.tcpRecv env n peek c).2.taken peek)
      (Net.tcpRecv env n peek c).1 := by
  unfold Net.tcpRecv
  by_cases hlen : c.sock.rx.len ≠ 0
  · rw [if_pos hlen]
    have hget : Next strict k p (c.sock.shutWr = true) pfinal []
        (Recv.taken peek (.data (c.sock.rx.get n peek).1))
        { c with sock := { c.sock with rx := (c.sock.rx.get n peek).2 } } :=
      ⟨{ k with got := k.got ++ Recv.taken peek (.data (c.sock.rx.get n peek).1) },
        { Grow.refl k _ with }, by simp, rfl, h.get ho n peek⟩
    simp only
    unfold tcpAfterRead
    split_ifs
    · exact hget.ackNow env
    · exact hget
    · exact hget
  · rw [if_neg hlen]
    split_ifs
    · exact ConnOk.next (c := { c with sock := { c.sock with error := 0 } }) ⟨h.linked, h.tied, h.out⟩
    · exact h.next
    · exact h.next
    · exact h.next

/-! ## Closing -/

theorem ConnOk.shut (rd wr : Bool) :
    ConnOk strict k p pfinal { c with sock := { c.sock with
      shutRd := c.sock.shutRd || rd, shutWr := c.sock.shutWr || wr } } where
  linked :=
    { h.linked with
      max_final := fun hlt => by simp [h.linked.max_final hlt]
      una_final := fun hlt => by simp [h.linked.una_final hlt]
      all := fun hr => h.linked.all (Bool.or_eq_false_iff.1 hr).1 }
  tied :=
    { h.tied with
      finSent := fun hp => by
        obtain ⟨h1, h2⟩ := h.tied.finSent hp
        exact ⟨by simp [h1], h2⟩ }
  out := none_out ho

theorem ConnOk.sockShutdown {rd wr : Bool} :
    AfterOk strict k p pfinal c.sock (Net.sockShutdown env rd wr c) := by
  unfold Net.sockShutdown
  simp only
  split_ifs with hst
  · refine after_tcbFree (by simp [Conn.upd, ho]) rfl ?_
    intro hr
    exact (Bool.or_eq_false_iff.1 hr).1
  · refine Next.tcpOutput env ⟨k, ?_, by simp, by simp, h.shut ho rd wr⟩
    exact { Grow.refl k _ with final := fun hf => by simp [hf] }

theorem ConnOk.tcpClose :
    AfterOk strict k p pfinal c.sock (Net.tcpClose env c) := by
  unfold Net.tcpClose
  simp only
  split_ifs with hst hrx
  · exact after_tcbFree (by simp [ho]) rfl id
  · exact after_tcbFree (forall_mem_append.2 ⟨by simp [ho], forall_mem_singleton.2 rfl⟩) rfl id
  · have h' := h.shut ho false true
    refine Next.tcpOutput env ⟨k, ?_, by simp, by simp, ?_⟩
    · exact { Grow.refl k _ with final := fun _ => rfl }
    · simp only [Bool.or_false, Bool.or_true] at h'
      exact ⟨h'.linked, h'.tied, h'.out⟩

theorem ConnOk.tcpIcmpError {err : Nat} :
    AfterOk strict k p pfinal c.sock (Net.tcpIcmpError err c) := by
  unfold Net.tcpIcmpError
  split_ifs
  · exact after_tcbFree (by simp [ho]) rfl id
  · exact h.next

end

end Tortoise.Net
