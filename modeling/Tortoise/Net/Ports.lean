import Tortoise.Net.Tcp

/-!
# Who has which port

`inet_port_used`, `inet_ephemeral` and `inet_bind` of `src/os/kernel/inet.c`, and how
`src/os/kernel/tcp.c` makes control blocks and gives them up: `tcp_connect`, `tcp_listen`, the
passive open in `tcp_input`, `tcp_close` and `tcb_free`.  Only `SOCK_STREAM` sockets are here, the
others have ports of their own.

Segments and ticks do not change the addresses of a control block: besides a passive open they can
only end the `TCP_SYN_SENT` state (`Event.answer`) and free the block (`Event.free`), at any time.
A control block whose socket is closed stays or is freed, as its state wants it (`Event.close`).

* `Inv`: a socket that can still connect shares its port with no open socket.
* `one_connection`: no two control blocks have the same addresses and ports, unless a socket
  connects between addresses and ports between which a connection is still closing.
* `two_connections`: a socket bound with `SO_REUSEADDR` can do that.
-/

namespace Tortoise.Ports

open List

open Net (SockState)

variable {i t addr port : Nat}

/-- Entries of the socket table. -/
def nsock : Nat := 64

/-- Entries of the TCB table. -/
def ntcb : Nat := 32

/-- What the ports need of a socket. -/
structure Sock where
  used : Bool
  state : SockState
  reuse : Bool
  laddr : Nat
  lport : Nat
  tcb : Option Nat
  parent : Option Nat

/-- A free entry. -/
def Sock.zero : Sock := ⟨false, .unconn, false, 0, 0, none, none⟩

/-- What the ports need of a TCB. -/
structure Tcb where
  used : Bool
  orphan : Bool
  laddr : Nat
  lport : Nat
  faddr : Nat
  fport : Nat
  s : Nat
  /-- `TCP_SYN_SENT` -/
  opening : Bool

/-- The sockets, the control blocks, and the next port `inet_ephemeral` tries. -/
structure World where
  socks : Nat → Sock
  tcbs : Nat → Tcb
  next : Nat

/-- Nothing in use. -/
def World.init : World := ⟨fun _ => .zero, fun _ => ⟨false, false, 0, 0, 0, 0, 0, false⟩, 49152⟩

/-- Replace a socket. -/
def World.setSock (w : World) (i : Nat) (s : Sock) : World :=
  { w with socks := fun j => if j = i then s else w.socks j }

/-- Replace a TCB. -/
def World.setTcb (w : World) (i : Nat) (t : Tcb) : World :=
  { w with tcbs := fun j => if j = i then t else w.tcbs j }

/-- The first free socket. -/
def World.freeSock (w : World) : Option Nat := (List.range nsock).find? fun i => !(w.socks i).used

/-- The first free TCB. -/
def World.freeTcb (w : World) : Option Nat := (List.range ntcb).find? fun i => !(w.tcbs i).used

/-- The socket is closed, and its connection is not. -/
def World.orphaned (w : World) (i : Nat) : Bool := (w.socks i).tcb.any fun t => (w.tcbs t).orphan

/-- `!a || !b || a == b`. -/
def overlap (a b : Nat) : Bool := a == 0 || b == 0 || a == b

/-- A connection is still closing on the port. -/
def World.closing (w : World) (addr port : Nat) : Bool :=
  (List.range ntcb).any fun t => (w.tcbs t).used && (w.tcbs t).orphan && (w.tcbs t).lport == port &&
    overlap addr (w.tcbs t).laddr

/-- Whether another socket has the port. -/
def inetPortUsed (addr port : Nat) (except : Option Nat) (w : World) : Nat :=
  if (List.range nsock).any fun i => (w.socks i).used && decide (some i ≠ except) &&
      (w.socks i).lport == port && !w.orphaned i && overlap addr (w.socks i).laddr then 1
  else if w.closing addr port then 2
  else 0

/-- `inet_ephemeral`, with `n` turns left. -/
def inetEphemeral : Nat → World → Nat × World
  | 0, w => (0, w)
  | n + 1, w =>
    let w' := { w with next := if 65535 ≤ w.next then 49152 else w.next + 1 }
    if inetPortUsed 0 w.next none w = 0 then (w.next, w') else inetEphemeral n w'

/-- `inet_bind`; `allowed` says that the address is local and the port not a privileged one. -/
def inetBind (i addr port : Nat) (allowed : Bool) (w : World) : Bool × World :=
  if (w.socks i).lport ≠ 0 ∨ !allowed then (false, w)
  else if port = 0 then
    let r := inetEphemeral 16384 w
    if r.1 = 0 then (false, r.2)
    else (true, r.2.setSock i { w.socks i with laddr := addr, lport := r.1 })
  else
    let u := inetPortUsed addr port (some i) w
    if u = 1 ∨ u = 2 ∧ (w.socks i).reuse = false then (false, w)
    else (true, w.setSock i { w.socks i with laddr := addr, lport := port })

/-- A new control block for a socket. -/
def World.attach (w : World) (i t laddr lport faddr fport : Nat) (opening : Bool) : World :=
  (w.setSock i { w.socks i with laddr, lport, tcb := some t, state := .connecting }).setTcb t
    ⟨true, false, laddr, lport, faddr, fport, i, opening⟩

/-- `tcp_connect`; `src` is the answer of `ip_source_for`, and `mem` that of `ring_init`. -/
def tcpConnect (i addr port src : Nat) (mem : Bool) (w : World) : World :=
  let st := (w.socks i).state
  if st = .listen ∨ (w.socks i).tcb.isSome ∨ st = .connected ∨ st = .closed ∨ port = 0 then w
  else
    let r := if (w.socks i).lport = 0 then inetBind i 0 0 true w else (true, w)
    let w := r.2
    let s := w.socks i
    if !r.1 ∨ s.laddr = 0 ∧ src = 0 ∨ !mem then w
    else
      match w.freeTcb with
      | none => w
      | some t => w.attach i t (if s.laddr = 0 then src else s.laddr) s.lport addr port true

/-- A socket starts to listen. -/
def tcpListen (i : Nat) (w : World) : World :=
  if (w.socks i).tcb.isSome ∨ (w.socks i).state = .connected then w
  else
    let r := if (w.socks i).lport = 0 then inetBind i 0 0 true w else (true, w)
    if r.1 then r.2.setSock i { r.2.socks i with state := .listen } else r.2

/-- The control block `tcp_input` hands a segment to. -/
def tcpLookup (src sport dst dport : Nat) (w : World) : Option Nat :=
  (List.range ntcb).find? fun t => (w.tcbs t).used && (w.tcbs t).lport == dport &&
    (w.tcbs t).fport == sport && (w.tcbs t).faddr == src && (w.tcbs t).laddr == dst

/-- `find_listener`: the last one with the address, or else one for any address. -/
def findListener (dst port : Nat) (w : World) : Option Nat :=
  (List.range nsock).foldl (fun best i =>
    let s := w.socks i
    if s.used && s.state = .listen && s.lport == port && (s.laddr == 0 || s.laddr == dst) &&
      (best.isNone || s.laddr ≠ 0) then some i else best) none

/-- The passive open of `tcp_input`; `room` says that the listener takes one more. -/
def tcpOpen (src sport dst dport : Nat) (room mem : Bool) (w : World) : World :=
  match tcpLookup src sport dst dport w, findListener dst dport w, w.freeSock, w.freeTcb with
  | none, some l, some c, some t =>
    if room && mem then
      (w.setSock c { Sock.zero with used := true, parent := some l }).attach c t
        dst dport src sport false
    else w
  | _, _, _, _ => w

/-- A TCB is given back. -/
def tcbFree (t : Nat) (w : World) : World :=
  let i := (w.tcbs t).s
  (w.setTcb t { w.tcbs t with used := false }).setSock i
    (if (w.tcbs t).orphan then .zero else { w.socks i with tcb := none, state := .closed })

/-- The socket of a TCB is closed. -/
def World.setOrphan (w : World) (t : Nat) : World := w.setTcb t { w.tcbs t with orphan := true }

/-- What `tcp_close` of a listener does to a connection nobody has accepted.  One that has ended
already is left behind if it does not wait in `acceptq`. -/
def dropChild (l : Nat) (queued : Nat → Bool) (w : World) (c : Nat) : World :=
  if (w.socks c).used && (w.socks c).parent == some l then
    match (w.socks c).tcb with
    | some t => tcbFree t (w.setOrphan t)
    | none => if queued c then w.setSock c .zero else w
  else w

/-- `tcp_close`; `stays` says that nothing received is left unread and the connection is open,
`queued` which sockets wait in `acceptq`. -/
def tcpClose (i : Nat) (stays : Bool) (queued : Nat → Bool) (w : World) : World :=
  match (w.socks i).tcb with
  | none => ((List.range nsock).foldl (dropChild i queued) w).setSock i .zero
  | some t =>
    let w := (w.setOrphan t).setSock i { w.socks i with parent := none }
    if (w.tcbs t).opening || !stays then tcbFree t w else w

/-- What can happen. -/
inductive Event where
  | socket
  | setReuse (i : Nat) (on : Bool)
  | bind (i addr port : Nat) (allowed : Bool)
  | connect (i addr port src : Nat) (mem : Bool)
  | listen (i : Nat)
  | accept (i : Nat)
  | close (i : Nat) (stays : Bool) (queued : Nat → Bool)
  | segment (src sport dst dport : Nat) (room mem : Bool)
  | answer (t : Nat)
  /-- a segment, a tick or `shutdown` ends a connection, `drop` one that nobody can accept -/
  | free (t : Nat) (drop : Bool)

/-- One event. -/
def step (w : World) : Event → World
  | .socket =>
    match w.freeSock with
    | some i => w.setSock i { Sock.zero with used := true }
    | none => w
  | .setReuse i on => w.setSock i { w.socks i with reuse := on }
  | .bind i addr port allowed => if (w.socks i).used then (inetBind i addr port allowed w).2 else w
  | .connect i addr port src mem => if (w.socks i).used then tcpConnect i addr port src mem w else w
  | .listen i => if (w.socks i).used then tcpListen i w else w
  | .accept i => w.setSock i { w.socks i with parent := none }
  | .close i stays queued => if (w.socks i).used then tcpClose i stays queued w else w
  | .segment src sport dst dport room mem => tcpOpen src sport dst dport room mem w
  | .answer t => w.setTcb t { w.tcbs t with opening := false }
  | .free t drop =>
    if (w.tcbs t).used then tcbFree t (if drop then w.setOrphan t else w) else w

/-- Events in turn. -/
def run (w : World) (evs : List Event) : World := evs.foldl step w

/-- The addresses and ports of a control block. -/
def Tcb.pair (t : Tcb) : Nat × Nat × Nat × Nat := (t.laddr, t.lport, t.faddr, t.fport)

/-- A socket does not connect between addresses and ports between which a connection is still
closing. -/
def World.prudent (w : World) : Event → Bool
  | .connect i addr port src _ => (List.range ntcb).all fun t =>
    !((w.tcbs t).used && (w.tcbs t).orphan && (w.tcbs t).pair ==
      (if (w.socks i).laddr = 0 then src else (w.socks i).laddr, (w.socks i).lport, addr, port))
  | _ => true

/-- Every step of the run is prudent. -/
def Prudent : World → List Event → Bool
  | _, [] => true
  | w, e :: es => w.prudent e && Prudent (step w e) es

/-! ## Ports are not shared -/

/-- `tcp_connect` goes on with the socket. -/
def World.connectable (w : World) (i : Nat) : Prop :=
  (w.socks i).used ∧ (w.socks i).lport ≠ 0 ∧ (w.socks i).tcb = none ∧
    (w.socks i).state ≠ .listen ∧ (w.socks i).state ≠ .connected ∧ (w.socks i).state ≠ .closed

/-- The invariant of a run. -/
structure Inv (w : World) : Prop where
  sockLt : ∀ i, (w.socks i).used → i < nsock
  tcbLt : ∀ t, (w.tcbs t).used → t < ntcb
  owner : ∀ t, (w.tcbs t).used → (w.socks (w.tcbs t).s).used ∧
    (w.socks (w.tcbs t).s).tcb = some t ∧ (w.socks (w.tcbs t).s).lport = (w.tcbs t).lport ∧
    (w.socks (w.tcbs t).s).laddr = (w.tcbs t).laddr
  tcb : ∀ i t, (w.socks i).used → (w.socks i).tcb = some t → (w.tcbs t).used ∧ (w.tcbs t).s = i
  port : ∀ t, (w.tcbs t).used → (w.tcbs t).lport ≠ 0
  listen : ∀ i, (w.socks i).used → (w.socks i).state = .listen →
    (w.socks i).tcb = none ∧ (w.socks i).lport ≠ 0
  clear : ∀ i j, w.connectable i → j ≠ i → (w.socks j).used →
    (w.socks j).lport = (w.socks i).lport → w.orphaned j = false →
    overlap (w.socks i).laddr (w.socks j).laddr = false
  pairs : ∀ t u, (w.tcbs t).used → (w.tcbs u).used → (w.tcbs t).pair = (w.tcbs u).pair → t = u

theorem inv_init : Inv .init := by
  constructor <;> simp [World.init, Sock.zero, World.connectable]

section

variable {w : World}

@[grind =] theorem socks_setSock (i j : Nat) (s : Sock) :
    (w.setSock i s).socks j = if j = i then s else w.socks j := rfl

@[grind =] theorem tcbs_setSock (i j : Nat) (s : Sock) : (w.setSock i s).tcbs j = w.tcbs j := rfl

@[grind =] theorem socks_setTcb (i j : Nat) (t : Tcb) : (w.setTcb i t).socks j = w.socks j := rfl

@[grind =] theorem tcbs_setTcb (i j : Nat) (t : Tcb) :
    (w.setTcb i t).tcbs j = if j = i then t else w.tcbs j := rfl

@[grind =] theorem orphaned_eq_false (i : Nat) :
    w.orphaned i = false ↔ ∀ t, (w.socks i).tcb = some t → (w.tcbs t).orphan = false := by
  unfold World.orphaned
  cases (w.socks i).tcb <;> simp

attribute [grind cases] Inv
attribute [grind] World.connectable Tcb.pair

theorem Inv.tcbFree (h : Inv w) (ht : (w.tcbs t).used) : Inv (tcbFree t w) := by
  unfold Ports.tcbFree
  constructor <;> grind [Sock.zero]

theorem Inv.setOrphan (h : Inv w) (ht : (w.tcbs t).used) : Inv (w.setOrphan t) := by
  unfold World.setOrphan
  constructor <;> grind

theorem Inv.answer (h : Inv w) (t : Nat) : Inv (w.setTcb t { w.tcbs t with opening := false }) := by
  constructor <;> grind

/-- A connection ends, and its socket with it. -/
theorem Inv.drop (h : Inv w) (ht : (w.tcbs t).used) : Inv (Ports.tcbFree t (w.setOrphan t)) :=
  (h.setOrphan ht).tcbFree (by simpa [World.setOrphan, tcbs_setTcb] using ht)

theorem Inv.dropSock (h : Inv w) (hi : (w.socks i).tcb = none) : Inv (w.setSock i .zero) := by
  constructor <;> grind [Sock.zero]

theorem Inv.setSock (h : Inv w) {s : Sock} (hs : s = { w.socks i with
    reuse := s.reuse, parent := s.parent }) : Inv (w.setSock i s) := by
  constructor <;> grind

theorem Inv.alloc (h : Inv w) (hi : w.freeSock = some i) (parent : Option Nat) :
    Inv (w.setSock i { Sock.zero with used := true, parent }) := by
  have hfree : (w.socks i).used = false := by simpa using List.find?_some hi
  have hlt : i < nsock := mem_range.1 (List.mem_of_find?_eq_some hi)
  constructor <;> grind [Sock.zero]

theorem Inv.listens (h : Inv w) (hi : (w.socks i).tcb = none) (hp : (w.socks i).lport ≠ 0) :
    Inv (w.setSock i { w.socks i with state := .listen }) := by
  constructor <;> grind

/-- A socket gets a port that no other open one has. -/
theorem Inv.bound (h : Inv w) (hi : (w.socks i).lport = 0)
    (hs : ∀ j, j ≠ i → (w.socks j).used → (w.socks j).lport = port → w.orphaned j = false →
      overlap addr (w.socks j).laddr = false) :
    Inv (w.setSock i { w.socks i with laddr := addr, lport := port }) := by
  constructor <;> grind [overlap]

/-- A socket gets a control block that no other is like. -/
theorem Inv.attach (h : Inv w) {laddr lport faddr fport : Nat} {opening : Bool}
    (hu : (w.socks i).used) (hi : (w.socks i).tcb = none) (ht : w.freeTcb = some t) (h0 : lport ≠ 0)
    (hs : ∀ j, j ≠ i → w.connectable j → (w.socks j).lport = lport →
      overlap (w.socks j).laddr laddr = false)
    (hp : ∀ u, (w.tcbs u).used → (w.tcbs u).pair ≠ (laddr, lport, faddr, fport)) :
    Inv (w.attach i t laddr lport faddr fport opening) := by
  have hfree : (w.tcbs t).used = false := by simpa using List.find?_some ht
  have hlt : t < ntcb := mem_range.1 (List.mem_of_find?_eq_some ht)
  unfold World.attach
  constructor <;> grind

/-! ## The calls -/

theorem Inv.next (h : Inv w) (n : Nat) : Inv { w with next := n } := { h with }

/-- A port that `inet_port_used` does not report as one of an open socket can be given to a
socket. -/
theorem Inv.bindTo (h : Inv w) {a : Nat} {except : Option Nat} (hi : (w.socks i).lport = 0)
    (ha : a = 0 ∨ a = addr) (he : except = none ∨ except = some i)
    (hu : inetPortUsed a port except w ≠ 1) :
    Inv (w.setSock i { w.socks i with laddr := addr, lport := port }) := by
  refine h.bound hi fun j hj hused hp ho => ?_
  by_contra hov
  refine hu (if_pos (any_eq_true.2 ⟨j, mem_range.2 (h.sockLt j hused), ?_⟩))
  grind [overlap]

/-- The port `inet_ephemeral` finds is used by nobody. -/
theorem inetEphemeral_spec (n : Nat) : ∀ w : World, ∃ m,
    (inetEphemeral n w).2 = { w with next := m } ∧
      ((inetEphemeral n w).1 ≠ 0 → inetPortUsed 0 (inetEphemeral n w).1 none w = 0) := by
  induction n with
  | zero => exact fun w => ⟨w.next, rfl, fun h => absurd rfl h⟩
  | succ n ih =>
    intro w
    simp only [inetEphemeral]
    split
    · next hu => exact ⟨_, rfl, fun _ => hu⟩
    · obtain ⟨m, h1, h2⟩ := ih { w with next := if 65535 ≤ w.next then 49152 else w.next + 1 }
      exact ⟨m, h1, h2⟩

theorem Inv.inetBind (h : Inv w) {allowed : Bool} : Inv (inetBind i addr port allowed w).2 := by
  unfold Ports.inetBind
  split
  · exact h
  next hl =>
  have hl : (w.socks i).lport = 0 := by simp_all
  split
  · obtain ⟨m, h1, h2⟩ := inetEphemeral_spec 16384 w
    simp only [h1]
    split
    · exact h.next m
    · next hr =>
        have hu := h2 hr
        exact (h.bindTo hl (.inl rfl) (.inl rfl) (by omega)).next m
  · next hp =>
    dsimp only
    split
    · exact h
    · next hu => exact h.bindTo hl (.inr rfl) (.inr rfl) (by omega)

/-- No connection is closing on a port that is used by nobody. -/
theorem Inv.lport_ne (h : Inv w) {except : Option Nat} (hu : inetPortUsed 0 port except w = 0)
    (ht : (w.tcbs t).used) (ho : (w.tcbs t).orphan) : (w.tcbs t).lport ≠ port := by
  rintro rfl
  have hc : w.closing 0 (w.tcbs t).lport = false := by grind [inetPortUsed]
  have := any_eq_false.1 hc t (mem_range.2 (h.tcbLt t ht))
  grind [overlap]

/-- `inet_bind` to a port of its own choice. -/
theorem inetBind_any (hr : (inetBind i addr 0 true w).1 = true) :
    ∃ m p, p ≠ 0 ∧ inetPortUsed 0 p none w = 0 ∧ (inetBind i addr 0 true w).2 =
      { w.setSock i { w.socks i with laddr := addr, lport := p } with next := m } := by
  unfold inetBind at hr ⊢
  obtain ⟨m, h1, h2⟩ := inetEphemeral_spec 16384 w
  simp only [h1] at hr ⊢
  split_ifs at hr ⊢ with hl hp
  exact ⟨m, _, hp, h2 hp, rfl⟩

/-- The port a socket connects or listens with: its own, or one on which no connection is
closing. -/
theorem withPort (h : Inv w) {r : Bool × World}
    (hr : r = if (w.socks i).lport = 0 then inetBind i 0 0 true w else (true, w)) :
    Inv r.2 ∧ (r.1 = true → r.2.tcbs = w.tcbs ∧
      ∃ a p, p ≠ 0 ∧ r.2.socks i = { w.socks i with laddr := a, lport := p } ∧
        (a = (w.socks i).laddr ∧ p = (w.socks i).lport ∨
          ∀ t, (w.tcbs t).used → (w.tcbs t).orphan → (w.tcbs t).lport ≠ p)) := by
  subst hr
  split
  · refine ⟨h.inetBind, fun hr => ?_⟩
    obtain ⟨m, p, hp, hu, he⟩ := inetBind_any hr
    rw [he]
    refine ⟨rfl, 0, p, hp, if_pos rfl, .inr fun t ht ho => h.lport_ne hu ht ho⟩
  · next hl => exact ⟨h, fun _ => ⟨rfl, _, _, hl, rfl, .inl ⟨rfl, rfl⟩⟩⟩

/-- A socket that can connect meets no connection between the same addresses but a closing one. -/
theorem Inv.connects (h : Inv w) {laddr : Nat} (hc : w.connectable i) (ht : w.freeTcb = some t)
    (hl : (w.socks i).laddr = 0 ∨ (w.socks i).laddr = laddr)
    (hp : ∀ u, (w.tcbs u).used → (w.tcbs u).orphan →
      (w.tcbs u).pair ≠ (laddr, (w.socks i).lport, addr, port)) :
    Inv (w.attach i t laddr (w.socks i).lport addr port true) := by
  refine h.attach hc.1 hc.2.2.1 ht hc.2.1 (fun j hj hjc hp => ?_) fun u hu hpair => ?_
  · have := h.clear j i hjc hj.symm hc.1 hp.symm (by grind)
    grind [overlap]
  · obtain ⟨hown, htcb, hport, haddr⟩ := h.owner u hu
    by_cases ho : (w.tcbs u).orphan = true
    · exact hp u hu ho hpair
    · have hov := h.clear i (w.tcbs u).s hc (by grind) hown (by grind) (by grind)
      grind [overlap]

theorem Inv.tcpConnect (h : Inv w) (hu : (w.socks i).used) {addr port src : Nat} {mem : Bool}
    (hp : w.prudent (.connect i addr port src mem) = true) :
    Inv (tcpConnect i addr port src mem w) := by
  unfold Ports.tcpConnect
  dsimp only
  split
  · exact h
  next hg =>
  generalize hr : (if (w.socks i).lport = 0 then Ports.inetBind i 0 0 true w else (true, w)) = r
  obtain ⟨h', hsock⟩ := withPort h hr.symm
  split
  · exact h'
  next hn =>
  split
  · exact h'
  · next t ht =>
      obtain ⟨htcbs, a, p, hp0, he, hown⟩ := hsock (by simp_all)
      refine h'.connects (by simp_all [World.connectable]) ht (by grind) fun u hused ho hpair => ?_
      rw [htcbs] at hused ho hpair
      rcases hown with ⟨rfl, rfl⟩ | hfree
      · -- the port is the one the socket had, and the step is prudent
        have := all_eq_true.1 hp u (mem_range.2 (h.tcbLt u hused))
        rw [he] at hpair
        simp_all
      · refine hfree u hused ho ?_
        rw [he] at hpair
        exact congrArg (fun q => q.2.1) hpair

theorem Inv.tcpListen (h : Inv w) (i : Nat) : Inv (tcpListen i w) := by
  unfold Ports.tcpListen
  dsimp only
  split
  · exact h
  next hg =>
  generalize hr : (if (w.socks i).lport = 0 then Ports.inetBind i 0 0 true w else (true, w)) = r
  obtain ⟨h', hsock⟩ := withPort h hr.symm
  split
  · next h1 =>
      obtain ⟨-, a, p, hp, he, -⟩ := hsock h1
      exact h'.listens (by simp_all) (by simp_all)
  · exact h'

/-- The socket takes connections to the address and port. -/
def World.takes (w : World) (dst port l : Nat) : Prop :=
  (w.socks l).used ∧ (w.socks l).state = .listen ∧ (w.socks l).lport = port ∧
    ((w.socks l).laddr = 0 ∨ (w.socks l).laddr = dst)

theorem findListener_spec {dst : Nat} : ∀ l ∈ findListener dst port w, w.takes dst port l := by
  -- whatever the loop has in hand is a listener that fits
  refine List.foldlRecOn (motive := fun best => ∀ l ∈ best, w.takes dst port l)
    (List.range nsock) _ (fun _ h => nomatch h) fun best ih i _ => ?_
  dsimp only
  split
  · next hg =>
      simp only [Bool.and_eq_true, Bool.or_eq_true, beq_iff_eq, decide_eq_true_eq] at hg
      rintro l ⟨rfl⟩
      exact ⟨hg.1.1.1.1, hg.1.1.1.2, hg.1.1.2, hg.1.2⟩
  · exact ih

theorem Inv.tcpOpen (h : Inv w) (src sport dst dport : Nat) (room mem : Bool) :
    Inv (tcpOpen src sport dst dport room mem w) := by
  unfold Ports.tcpOpen
  split
  · next l c t hlook hl hc ht =>
      obtain ⟨hlu, hls, hlp, hla⟩ := findListener_spec l hl
      split
      · refine (h.alloc hc (some l)).attach ?_ ?_ ht ?_ (fun j hj hjc hp => ?_) fun u hu hpair => ?_
        · simp [socks_setSock]
        · simp [socks_setSock, Sock.zero]
        · exact hlp ▸ (h.listen l hlu hls).2
        · have := h.clear j l (by grind) (by grind) hlu (by grind) (by grind)
          grind [overlap]
        · have := List.find?_eq_none.1 hlook u (mem_range.2 (h.tcbLt u hu))
          grind
      · exact h
  · exact h

theorem Inv.dropChild (h : Inv w) (l : Nat) (queued : Nat → Bool) (c : Nat) :
    Inv (dropChild l queued w c) := by
  unfold Ports.dropChild
  split
  · next hc =>
      split
      · next t ht => exact h.drop (h.tcb c t (by simp_all) ht).1
      · next ht =>
          split
          · exact h.dropSock ht
          · exact h
  · exact h

theorem dropChild_tcb (hn : (w.socks i).tcb = none) (queued : Nat → Bool) (c : Nat) :
    ((dropChild i queued w c).socks i).tcb = none := by
  unfold dropChild
  split
  · split <;> grind [tcbFree, World.setOrphan, Sock.zero]
  · exact hn

theorem Inv.tcpClose (h : Inv w) (hu : (w.socks i).used) (stays : Bool) (queued : Nat → Bool) :
    Inv (tcpClose i stays queued w) := by
  unfold Ports.tcpClose
  split
  · next hn =>
      -- freeing the children leaves the listener without a connection
      have hfold := List.foldlRecOn (List.range nsock) (Ports.dropChild i queued)
        (motive := fun w => Inv w ∧ (w.socks i).tcb = none) ⟨h, hn⟩
        fun w hw c _ => ⟨hw.1.dropChild i queued c, dropChild_tcb hw.2 queued c⟩
      exact hfold.1.dropSock hfold.2
  · next t ht =>
      have hused := (h.tcb i t hu ht).1
      have h' : Inv ((w.setOrphan t).setSock i { w.socks i with parent := none }) :=
        (h.setOrphan hused).setSock rfl
      dsimp only
      split
      · exact h'.tcbFree (by simpa [World.setOrphan, tcbs_setSock, tcbs_setTcb] using hused)
      · exact h'

theorem Inv.step (h : Inv w) (e : Event) (hp : w.prudent e = true) : Inv (step w e) := by
  cases e with
  | socket =>
    simp only [Ports.step]
    split
    · next i hi => exact h.alloc hi none
    · exact h
  | setReuse i on => exact h.setSock rfl
  | bind i addr port allowed =>
    simp only [Ports.step]
    split
    · exact h.inetBind
    · exact h
  | connect i addr port src mem =>
    simp only [Ports.step]
    split
    · next hu => exact h.tcpConnect hu hp
    · exact h
  | listen i =>
    simp only [Ports.step]
    split
    · exact h.tcpListen i
    · exact h
  | accept i => exact h.setSock rfl
  | close i stays queued =>
    simp only [Ports.step]
    split
    · next hu => exact h.tcpClose hu stays queued
    · exact h
  | segment src sport dst dport room mem => exact h.tcpOpen src sport dst dport room mem
  | answer t => exact h.answer t
  | free t drop =>
    simp only [Ports.step]
    split
    · next ht =>
        split
        · exact h.drop ht
        · exact h.tcbFree ht
    · exact h

theorem Inv.lookup (h : Inv w) (ht : (w.tcbs t).used) :
    tcpLookup (w.tcbs t).faddr (w.tcbs t).fport (w.tcbs t).laddr (w.tcbs t).lport w = some t := by
  obtain ⟨u, hu⟩ : ∃ u, tcpLookup (w.tcbs t).faddr (w.tcbs t).fport (w.tcbs t).laddr
      (w.tcbs t).lport w = some u := by
    refine Option.isSome_iff_exists.1 (List.find?_isSome.2 ⟨t, ?_, ?_⟩)
    · exact mem_range.2 (h.tcbLt t ht)
    · simp [ht]
  have hfit := List.find?_some hu
  simp only [Bool.and_eq_true, beq_iff_eq] at hfit
  exact hu.trans (congrArg some (h.pairs u t hfit.1.1.1.1 ht (by simp [Tcb.pair, hfit])))

theorem Inv.run (h : Inv w) (evs : List Event) (hp : Prudent w evs = true) : Inv (run w evs) := by
  induction evs generalizing w with
  | nil => exact h
  | cons e evs ih =>
    rw [Prudent, Bool.and_eq_true] at hp
    exact ih (h.step e hp.1) hp.2

end

/-- **One connection for a pair of addresses and ports**, so that a segment is handed to the one it
belongs to, as long as no socket connects between addresses and ports between which a connection is
still closing. -/
theorem one_connection (evs : List Event) (h : Prudent .init evs = true) :
    (∀ t u, ((run .init evs).tcbs t).used → ((run .init evs).tcbs u).used →
      ((run .init evs).tcbs t).pair = ((run .init evs).tcbs u).pair → t = u) ∧
    ∀ t, ((run .init evs).tcbs t).used →
      let c := (run .init evs).tcbs t
      tcpLookup c.faddr c.fport c.laddr c.lport (run .init evs) = some t := by
  have hinv := inv_init.run evs h
  refine ⟨hinv.pairs, fun t ht => ?_⟩
  exact hinv.lookup ht

/-- A server takes a connection, closes it and ends, and is bound to its port again while the
connection still closes; then it takes another one. -/
def served : List Event :=
  [.socket, .bind 0 0 80 true, .listen 0, .segment 7 5000 1 80 true true, .accept 1,
    .close 1 true fun _ => true, .close 0 true fun _ => true, .socket, .setReuse 0 true,
    .bind 0 0 80 true, .listen 0, .segment 7 5001 1 80 true true]

theorem one_connection_sample : Prudent .init served = true ∧
    tcpLookup 7 5001 1 80 (run .init served) = some 1 := by
  have h : Prudent .init served = true := by decide +kernel
  have hpair : ((run .init served).tcbs 1).pair = (1, 80, 7, 5001) := by decide +kernel
  have hlook := (one_connection served h).2 1 (by decide +kernel)
  simp only [Tcb.pair, Prod.mk.injEq] at hpair
  simp only [hpair] at hlook
  exact ⟨h, hlook⟩

/-- A socket connects and is closed, another is bound to its port with `SO_REUSEADDR` and connects
to the same place while the first connection still closes: both control blocks have the same
addresses and ports, and the segments for the second go to the first. -/
theorem two_connections :
    let w := run .init [.socket, .bind 0 1 5000 true, .connect 0 7 80 1 true, .answer 0,
      .close 0 true fun _ => true, .socket, .setReuse 1 true, .bind 1 1 5000 true,
      .connect 1 7 80 1 true]
    (w.tcbs 0).used ∧ (w.tcbs 1).used ∧ (w.tcbs 0).orphan ∧ (w.tcbs 0).pair = (w.tcbs 1).pair ∧
      tcpLookup 7 80 1 5000 w = some 0 := by
  decide +kernel

end Tortoise.Ports
