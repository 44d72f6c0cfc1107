import Tortoise.Net.Wire

/-!
# What holds between two ends

The invariant of a connection, in three parts.

* `Linked`: how far each end is, in numbers that do not wrap, and which bytes it
  has given to its program.  This part outlives the control block.
* `Tied`: the control block says what the track says.
* `Carries`: what a segment says is true of the end that sent it.

The end of the stream is not always where it should be: a probe of a closed
window is sent without being counted, and a `FIN` that has been withdrawn for
retransmission can be sent twice.  The bounds that hold in spite of that are
those without `strict`; with `strict` they are the ones a connection has as long
as neither has happened.
-/

namespace Tortoise.Net

open Lib

/-- The number behind everything that has been accepted, or acknowledged. -/
def Track.top (k : Track) : Nat := Nat.max k.una (1 + k.sent.length)

theorem Track.sent_le_top (k : Track) : 1 + k.sent.length ≤ k.top := Nat.le_max_right ..

theorem Track.top_le {k : Track} {n : Nat} (h₁ : k.una ≤ n) (h₂ : 1 + k.sent.length ≤ n) :
    k.top ≤ n := Nat.max_le.2 ⟨h₁, h₂⟩

/-- What holds between an end and the other one.  `final` says that the end
accepts no more bytes from its program, `rx` are the bytes it holds for it, and
`reading` that it still keeps what arrives. -/
structure Linked (strict : Prop) (k p : Track) (final pfinal : Prop) (rx : List Byte)
    (reading : Prop) : Prop where
  una_le : k.una ≤ k.max
  max_le : k.max ≤ k.top + 1
  max_final : k.top < k.max → final
  una_final : 1 + k.sent.length < k.una → final
  buffered : k.sent.length ≤ k.una + ringSize
  one_fin : strict → k.max ≤ k.sent.length + 2
  una_rcv : k.una ≤ p.rcv
  rcv_le : k.rcv ≤ p.max + 1
  rcv_max : strict → k.rcv ≤ p.max
  rcv_pos : 1 ≤ k.rcv → 1 ≤ p.max
  rcv_final : 1 + p.sent.length < k.rcv → pfinal
  eof : k.fin = true → 2 + p.sent.length ≤ k.rcv
  got : k.got ++ rx <+: p.sent
  all : reading → k.got ++ rx = p.sent.take (k.rcv - 1)

/-- The fields of a control block that number the bytes. -/
structure Core where
  state : TcpState
  iss : Seq
  sndUna : Seq
  sndNxt : Seq
  sndMax : Seq
  irs : Seq
  rcvNxt : Seq
  finSent : Bool
  finAcked : Bool
  finRcvd : Bool

def Tcb.core (t : Tcb) : Core :=
  ⟨t.state, t.iss, t.sndUna, t.sndNxt, t.sndMax, t.irs, t.rcvNxt, t.finSent, t.finAcked, t.finRcvd⟩

/-- The control block says what the track says. -/
structure Tied (strict : Prop) (k p : Track) (tx : RingBuf Byte) (shutWr : Bool) (q : Core) :
    Prop where
  opened : q.state ≠ .closed ∧ q.state ≠ .listen
  size : tx.size = ringSize
  una : q.sndUna = serialAt k.iss k.una
  max : q.sndMax = serialAt k.iss k.max
  nxt : ∃ n, q.sndNxt = serialAt k.iss n ∧ k.una ≤ n ∧ n ≤ k.max
  text : tx.toList = k.sent.drop (k.una - 1)
  finSent : q.finSent = true → shutWr = true ∧ (k.max = k.top + 1 ∨ k.max = k.una)
  finAcked : strict → k.una = k.sent.length + 2 → q.finSent = true ∧ q.finAcked = true
  shaking : handshaking q.state = true →
    k.una = 0 ∧ k.max = 1 ∧ q.sndNxt = serialAt k.iss 1 ∧ k.sent = [] ∧ q.finSent = false ∧
      q.iss = k.iss
  shaken : handshaking q.state = false → 1 ≤ k.una
  unheard : q.state = .synSent → k.rcv = 0 ∧ q.rcvNxt = 0 ∧ q.irs = 0
  heard : q.state ≠ .synSent →
    1 ≤ k.rcv ∧ q.rcvNxt = serialAt p.iss k.rcv ∧ q.irs = p.iss
  finRcvd : q.finRcvd = k.fin

/-- What segment `m` with number `n` says is true of the end that sent it. -/
structure Carries (strict : Prop) (k : Track) (final : Prop) (n : Nat) (m : Seg) : Prop where
  sent : 1 ≤ k.max
  stop : n + m.data.length ≤ k.max + 1
  syn : m.flags.syn = true → n = 0 ∧ m.data = [] ∧ m.flags.fin = false
  pos : m.flags.syn = false → 1 ≤ n
  text : m.data <+: k.sent.drop (n - 1)
  fin : m.flags.fin = true →
    final ∧ m.data = [] ∧ 1 + k.sent.length ≤ n ∧ n + 1 ≤ k.max ∧
      (strict → n = 1 + k.sent.length)

/-- A segment the end may send now. -/
def Emits (strict : Prop) (k p : Track) (final : Prop) (m : Seg) : Prop :=
  m.flags.rst = true ∨
    (∃ n, m.seq = serialAt k.iss n ∧ k.una ≤ n ∧ Carries strict k final n m) ∧
      (m.flags.ack = true → m.ack = serialAt p.iss k.rcv ∧ 1 ≤ k.rcv)

/-- A connection in order. -/
structure ConnOk (strict : Prop) (k p : Track) (pfinal : Prop) (c : Conn) : Prop where
  linked : Linked strict k p (c.sock.shutWr = true) pfinal c.sock.rx.toList (c.sock.shutRd = false)
  tied : Tied strict k p c.sock.tx c.sock.shutWr c.tcb.core
  out : ∀ m ∈ c.out, Emits strict k p (c.sock.shutWr = true) m

theorem none_out {l : List Seg} {P : Seg → Prop} (h : l = []) : ∀ m ∈ l, P m := by simp [h]

/-- How a track changes: the numbers grow, and the bytes of an end that is final do
not. -/
structure Grow (k k' : Track) (final final' : Prop) : Prop where
  iss : 1 ≤ k.max → k'.iss = k.iss
  una : k.una ≤ k'.una
  max : k.max ≤ k'.max
  rcv : k.rcv ≤ k'.rcv
  sent : k.sent <+: k'.sent
  frozen : final → k'.sent = k.sent
  fin : k.fin = true → k'.fin = true
  final : final → final'

theorem Grow.refl (k : Track) (final : Prop) : Grow k k final final :=
  ⟨fun _ => rfl, le_rfl, le_rfl, le_rfl, List.prefix_rfl, fun _ => rfl, id, id⟩

theorem Grow.trans {k₁ k₂ k₃ : Track} {f₁ f₂ f₃ : Prop} (h : Grow k₁ k₂ f₁ f₂)
    (h' : Grow k₂ k₃ f₂ f₃) : Grow k₁ k₃ f₁ f₃ where
  iss hm := (h'.iss (hm.trans h.max)).trans (h.iss hm)
  una := h.una.trans h'.una
  max := h.max.trans h'.max
  rcv := h.rcv.trans h'.rcv
  sent := h.sent.trans h'.sent
  frozen hf := (h'.frozen (h.final hf)).trans (h.frozen hf)
  fin hf := h'.fin (h.fin hf)
  final hf := h'.final (h.final hf)

/-- The connection is in order after a call that has accepted the bytes `more` and
given the bytes `taken`. -/
def Next (strict : Prop) (k p : Track) (final pfinal : Prop) (more taken : List Byte) (c : Conn) :
    Prop :=
  ∃ k', Grow k k' final (c.sock.shutWr = true) ∧ k'.sent = k.sent ++ more ∧
    k'.got = k.got ++ taken ∧ ConnOk strict k' p pfinal c

/-- What a call leaves: a connection in order, or nothing but resets and a socket with
the bytes that were there. -/
def AfterOk (strict : Prop) (k p : Track) (pfinal : Prop) (s : Sock) : After → Prop
  | .live c => Next strict k p (s.shutWr = true) pfinal [] [] c
  | .closed s' out => (∀ m ∈ out, m.flags.rst = true) ∧
      ∀ s'', s' = some s'' → s''.rx.toList = s.rx.toList ∧ (s''.shutRd = false → s.shutRd = false)

section

variable {strict : Prop} {k k' p p' : Track} {final final' pfinal pfinal' : Prop}

/-- What the end was linked to has gone on. -/
theorem Linked.peer {rx : List Byte} {reading : Prop}
    (h : Linked strict k p final pfinal rx reading) (hg : Grow p p' pfinal pfinal') :
    Linked strict k p' final pfinal' rx reading where
  __ := h
  una_rcv := h.una_rcv.trans hg.rcv
  rcv_le := by have := h.rcv_le; have := hg.max; omega
  rcv_max hs := (h.rcv_max hs).trans hg.max
  rcv_pos hr := (h.rcv_pos hr).trans hg.max
  rcv_final hr := by
    have hl := hg.sent.length_le
    exact hg.final (h.rcv_final (by omega))
  eof hf := by
    have he := h.eof hf
    rw [hg.frozen (h.rcv_final (by omega))]
    exact he
  got := h.got.trans hg.sent
  all hr := by
    rw [h.all hr]
    by_cases hn : 1 + p.sent.length < k.rcv
    · rw [hg.frozen (h.rcv_final hn)]
    · exact List.prefix_iff_eq_take.1 ((List.take_prefix _ _).trans hg.sent) |>.trans (by
        rw [List.length_take, Nat.min_eq_left (by omega)])

/-- The control block does not see how far the other end is. -/
theorem Tied.peer {tx : RingBuf Byte} {shutWr : Bool} {q : Core} (h : Tied strict k p tx shutWr q)
    (hi : 1 ≤ k.rcv → p'.iss = p.iss) : Tied strict k p' tx shutWr q :=
  { h with
    heard := by
      intro hs
      obtain ⟨h1, h2, h3⟩ := h.heard hs
      exact ⟨h1, by rw [hi h1, h2], by rw [hi h1, h3]⟩ }

/-- A segment stays true when the end that sent it goes on. -/
theorem Carries.grow {n : Nat} {m : Seg} (h : Carries strict k final n m)
    (hg : Grow k k' final final') : Carries strict k' final' n m where
  sent := h.sent.trans hg.max
  stop := by have := h.stop; have := hg.max; omega
  syn := h.syn
  pos := h.pos
  text := by
    obtain ⟨more, he⟩ := hg.sent
    refine h.text.trans ?_
    rw [← he, List.drop_append]
    exact List.prefix_append ..
  fin hf := by
    obtain ⟨h1, h2, h3, h4, h5⟩ := h.fin hf
    rw [hg.frozen h1]
    exact ⟨hg.final h1, h2, h3, h4.trans hg.max, h5⟩

/-- The other end is at most one buffer ahead of what has been received. -/
theorem Linked.max_near {rx : List Byte} {reading : Prop}
    (h : Linked strict k p final pfinal rx reading) : k.max ≤ k.una + ringSize + 2 := by
  have h1 := h.max_le
  have h2 := h.buffered
  have h3 : k.top ≤ k.una + ringSize + 1 := Track.top_le (by omega) (by omega)
  omega

end

end Tortoise.Net
