import Tortoise.Lib.Serial
import Tortoise.Net.Tcp

/-!
# Two ends and the network between them

A connection has two ends, each with the calls of its program, its timer and the
segments that reach it.  The network keeps every segment ever sent: one that is
never taken was lost, one that is taken twice was duplicated, and they are taken
in any order.  It does not alter or forge segments, and it does not deliver one
that is more than `2 ^ 31` sequence numbers old.

Sequence numbers wrap, so how old a segment is cannot be read from it.  Each end
therefore has a `Track`: the numbers of its control block without the wrapping,
counted from its initial sequence number, and the bytes it has accepted from its
program and given to it.  The track follows the control block and nothing in the
code reads it.
-/

namespace Tortoise.Net

open Lib

/-- One end: before the connection, during it, and after its control block has
been freed. -/
inductive Endpoint where
  | fresh (listening : Bool)
  | live (sock : Sock) (tcb : Tcb)
  | dead (sock : Option Sock)

/-- What is done at an end. -/
inductive Call where
  /-- `tcp_connect`, with the number `kernel_random` gives -/
  | connect (iss : Seq)
  /-- one turn of `tcp_send` -/
  | send (data : List Byte)
  /-- one turn of `tcp_recv` -/
  | recv (n : Nat) (peek : Bool)
  | shutdown (rd wr : Bool)
  | close
  | icmp (err : Nat)
  | tick
  /-- `tcp_input`; for a listener with the number `kernel_random` gives and
  whether there is room for one more connection -/
  | segment (m : Seg) (iss : Seq) (room : Bool)

/-- What a call does: the end after it, the segments it sends, the bytes it
accepts from the program, the bytes it gives to the program, and what `tcp_recv`
returns. -/
structure Effect where
  ep : Endpoint
  out : List Seg
  accepted : List Byte
  taken : List Byte
  result : Option Recv

/-- Nothing happens. -/
def Effect.none (ep : Endpoint) : Effect := ⟨ep, [], [], [], .none⟩

def After.ep : After → Endpoint
  | .live c => .live c.sock c.tcb
  | .closed s _ => .dead s

def After.out : After → List Seg
  | .live c => c.out
  | .closed _ out => out

/-- The effect of a call that only sends. -/
def After.effect (a : After) : Effect := ⟨a.ep, a.out, [], [], .none⟩

/-- The bytes that leave the buffer. -/
def Recv.taken (peek : Bool) : Recv → List Byte
  | .data bytes => if peek then [] else bytes
  | _ => []

/-- `tcp_input` where there is no control block. -/
def inputNone (env : Env) (listening : Bool) (m : Seg) (iss : Seq) (room : Bool) (ep : Endpoint) :
    Effect :=
  if !listening || !m.flags.syn || m.flags.ack || m.flags.rst then
    ⟨ep, if listening && !m.flags.syn && !m.flags.ack then [] else sendReset m m.data.length, [], [],
      .none⟩
  else if room then (After.live (tcpAccept env iss m)).effect
  else .none ep

/-- A call at an end. -/
def Endpoint.call (env : Env) : Endpoint → Call → Effect
  | .fresh false, .connect iss => (After.live (tcpConnect env iss)).effect
  | .fresh l, .segment m iss room => inputNone env l m iss room (.fresh l)
  | .fresh l, _ => .none (.fresh l)
  | .live s t, .send data =>
    let r := tcpSend env data ⟨s, t, []⟩
    ⟨.live r.1.sock r.1.tcb, r.1.out, data.take (r.2.getD 0), [], .none⟩
  | .live s t, .recv n peek =>
    let r := tcpRecv env n peek ⟨s, t, []⟩
    ⟨.live r.1.sock r.1.tcb, r.1.out, [], r.2.taken peek, some r.2⟩
  | .live s t, .shutdown rd wr => (sockShutdown env rd wr ⟨s, t, []⟩).effect
  | .live s t, .close => (tcpClose env ⟨s, t, []⟩).effect
  | .live s t, .icmp err => (tcpIcmpError err ⟨s, t, []⟩).effect
  | .live s t, .tick => (tcpTick env ⟨s, t, []⟩).effect
  | .live s t, .segment m _ _ => (tcpInput env m ⟨s, t, []⟩).effect
  | .live s t, .connect _ => .none (.live s t)
  | .dead (some s), .recv n peek =>
    let r := recvClosed n peek s
    ⟨.dead (some r.1), [], [], r.2.taken peek, some r.2⟩
  | .dead (some _), .close => .none (.dead none)
  | .dead s, .segment m iss room => inputNone env false m iss room (.dead s)
  | .dead s, _ => .none (.dead s)

/-! ## Numbers that do not wrap -/

/-- The numbers of an end without the wrapping, `una` and `max` counted from its own
`iss` and `rcv` from the other's, with the bytes accepted and given, and whether a
`FIN` has been received. -/
structure Track where
  iss : Seq
  una : Nat
  max : Nat
  rcv : Nat
  sent : List Byte
  got : List Byte
  fin : Bool

/-- How far the control block has gone on. -/
def unwrap (n : Nat) (old new : Seq) : Nat := n + (new - old).toNat

/-- The track after a call. -/
def Track.follow (k : Track) (before : Endpoint) (e : Effect) : Track :=
  let k := { k with sent := k.sent ++ e.accepted, got := k.got ++ e.taken }
  match before, e.ep with
  | .live _ t, .live _ t' =>
    { k with
      una := unwrap k.una t.sndUna t'.sndUna
      max := unwrap k.max t.sndMax t'.sndMax
      rcv := if t.state = .synSent then (t'.rcvNxt - t'.irs).toNat
        else unwrap k.rcv t.rcvNxt t'.rcvNxt
      fin := k.fin || t'.finRcvd }
  | .fresh _, .live _ t' =>
    { k with iss := t'.iss, una := 0, max := 1, rcv := (t'.rcvNxt - t'.irs).toNat }
  | _, _ => k

/-- A segment on its way, with its numbers unwrapped. -/
structure Flight where
  seg : Seg
  seqN : Nat
  ackN : Nat
  deriving DecidableEq

/-- A segment as the end with track `k` sends it. -/
def Track.flight (k : Track) (m : Seg) : Flight :=
  ⟨m, k.una + (m.seq - serialAt k.iss k.una).toNat, k.rcv⟩

structure Side where
  ep : Endpoint
  track : Track

/-- Both ends, and every segment each of them has sent. -/
structure World where
  side : Bool → Side
  wire : Bool → List Flight

/-- The segment is not more than `2 ^ 31` sequence numbers old: the end that sent
it has not gone on that far from its number, nor the other end from the number it
acknowledges. -/
def Recent (sender receiver : Track) (f : Flight) : Prop :=
  sender.max < f.seqN + 2 ^ 31 ∧ (f.seg.flags.ack = true → receiver.max < f.ackN + 2 ^ 31)

instance (k k' : Track) (f : Flight) : Decidable (Recent k k' f) := by
  unfold Recent
  infer_instance

/-- The world after a call at end `x`. -/
def World.act (w : World) (x : Bool) (env : Env) (c : Call) : World :=
  let s := w.side x
  let e := s.ep.call env c
  let k := s.track.follow s.ep e
  { side := Function.update w.side x ⟨e.ep, k⟩
    wire := Function.update w.wire x (w.wire x ++ e.out.map k.flight) }

/-- What can happen: a call of the program or the timer, or the arrival of a
segment the other end has sent. -/
def Allowed (w : World) (x : Bool) : Call → Prop
  | .segment m _ _ => ∃ f ∈ w.wire (!x), f.seg = m ∧
      Recent (w.side (!x)).track (w.side x).track f
  | _ => True

/-- Two ends that have not met: `x` may connect, the other listens or connects
too. -/
def World.start (listens : Bool → Bool) : World where
  side x := ⟨.fresh (listens x), ⟨0, 0, 0, 0, [], [], false⟩⟩
  wire _ := []

/-- The worlds that can be reached. -/
inductive Reach (ok : World → Bool → Call → Prop) : World → Prop
  | start (listens : Bool → Bool) : Reach ok (.start listens)
  | step {w : World} (h : Reach ok w) (x : Bool) (env : Env) (c : Call) (ha : Allowed w x c)
      (hok : ok w x c) : Reach ok (w.act x env c)

/-! ## Runs written down -/

/-- A step of a run: a call, or the arrival of the segment the other end has sent as its
`i`-th. -/
inductive Move where
  | call (c : Call)
  | arrive (i : Nat) (iss : Seq) (room : Bool)

/-- The call a step stands for. -/
def World.pick (w : World) (x : Bool) : Move → Option Call
  | .call (.segment _ _ _) => none
  | .call c => some c
  | .arrive i iss room =>
    match (w.wire !x)[i]? with
    | some f =>
      if Recent (w.side !x).track (w.side x).track f then some (.segment f.seg iss room) else none
    | none => none

/-- The worlds after a run, or nothing when a step is not possible. -/
def World.run (w : World) : List (Bool × Env × Move) → Option World
  | [] => some w
  | (x, env, m) :: l =>
    match w.pick x m with
    | some c => (w.act x env c).run l
    | none => none

theorem allowed_of_pick {w : World} {x : Bool} {m : Move} {c : Call} (h : w.pick x m = some c) :
    Allowed w x c := by
  cases m with
  | call c' => cases c' <;> cases h <;> trivial
  | arrive i iss room =>
    unfold World.pick at h
    cases hf : (w.wire !x)[i]? with
    | none => simp [hf] at h
    | some f =>
      simp only [hf, Option.ite_none_right_eq_some, Option.some.injEq] at h
      obtain ⟨hr, rfl⟩ := h
      exact ⟨f, List.mem_of_getElem? hf, rfl, hr⟩

theorem Reach.run {l : List (Bool × Env × Move)} : ∀ {w w' : World},
    Reach (fun _ _ _ => True) w → w.run l = some w' → Reach (fun _ _ _ => True) w' := by
  induction l with
  | nil =>
    intro w w' h he
    cases he
    exact h
  | cons a l ih =>
    intro w w' h he
    obtain ⟨x, env, m⟩ := a
    unfold World.run at he
    cases hp : w.pick x m with
    | none => simp [hp] at he
    | some c =>
      simp only [hp] at he
      exact ih (.step h x env c (allowed_of_pick hp) trivial) he

end Tortoise.Net
