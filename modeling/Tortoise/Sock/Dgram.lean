import Mathlib

/-!
# Datagram sockets

`src/os/kernel/sock.c` for `AF_UNIX` datagrams: `sock_alloc`, `sock_free`, `unix_bind`,
`unix_lookup`, the datagram part of `unix_send`, and `dgram_recv`.  Sockets of other kinds take
slots of the table too, and nothing else of them is here.

A call runs until it sleeps in `sock_wait`; `Event.wake` is the rest of it, after whatever has woken
it.  Nothing keeps a socket from being closed while a call sleeps: the one a datagram is sent to
belongs to another process, and the caller's own can be closed through `/proc`.

* `Sent`, `Taken`: what sends and receives have done, in order; they only watch.
* `Orderly`: no call goes on, after a sleep, with another socket than it began with.
* `datagrams_arrive`: in such a run a datagram goes where it was addressed, and comes out once,
  whole and in order.
* `datagram_astray`: one that goes to another socket, in a slot that is used again, and one that
  comes from another socket.
-/

namespace Tortoise.Dgrams

open Function List

abbrev Byte := BitVec 8

def nsock : Nat := 64

def nproc : Nat := 64

def dgramLimit : Nat := 16384

/-- `Dgram`: what was sent, and the path of the sender. -/
structure Dgram where
  data : List Byte
  path : String
  deriving DecidableEq

/-- `Sock`; `unix` and `dgram` are its domain and type. -/
structure Sock where
  used : Bool
  id : Nat
  unix : Bool
  dgram : Bool
  shutRd : Bool
  shutWr : Bool
  boundVn : Option Nat
  path : String
  dq : List Dgram
  dqBytes : Nat

/-- A slot after `memset`. -/
def Sock.zero : Sock := ⟨false, 0, false, false, false, false, none, "", [], 0⟩

/-- What a process sleeps in: `unix_send` from the socket `s` to the socket `d` that it has found for
the vnode `v`, or `dgram_recv`.  `found` and `own` are the numbers that the sockets `d` and `s` had
when the call began. -/
inductive Wait where
  | send (s d v found : Nat) (data : List Byte)
  | recv (s own n : Nat) (peek : Bool)

/-- A send that returned success: what the path named, the socket that was found for it, the socket
the datagram went to as it was then, and the datagram. -/
structure Sent where
  v : Nat
  found : Nat
  dst : Sock
  g : Dgram

/-- A receive on the socket `id` that took a datagram from the socket `src`, of at most `n` bytes,
and what it returned. -/
structure Taken where
  id : Nat
  src : Nat
  g : Dgram
  n : Nat
  got : List Byte

structure World where
  socks : Nat → Sock
  procs : Nat → Option Wait
  nextId : Nat
  sent : List Sent
  taken : List Taken

def World.init : World := ⟨fun _ => .zero, fun _ => none, 1, [], []⟩

def World.setSock (w : World) (i : Nat) (s : Sock) : World :=
  { w with socks := update w.socks i s }

def World.setProc (w : World) (p : Nat) (x : Option Wait) : World :=
  { w with procs := update w.procs p x }

def sockAlloc (unix dgram : Bool) (w : World) : World :=
  match (List.range nsock).find? fun i => !(w.socks i).used with
  | some i => { w.setSock i { Sock.zero with used := true, id := w.nextId, unix, dgram } with
      nextId := w.nextId + 1 }
  | none => w

/-- The end of `unix_bind`, when the vnode has been made. -/
def unixBind (i v : Nat) (path : String) (w : World) : World :=
  if (w.socks i).used ∧ (w.socks i).unix ∧ (w.socks i).boundVn = none then
    w.setSock i { w.socks i with boundVn := some v, path := path }
  else w

/-- `unix_lookup`, for a path that names the vnode `v`. -/
def unixLookup (v : Nat) (w : World) : Option Nat :=
  ((List.range nsock).find? fun i =>
    (w.socks i).used && (w.socks i).unix && (w.socks i).boundVn == some v).filter
      fun i => (w.socks i).dgram

/-- The datagram is queued and the call returns its length. -/
def World.append (w : World) (s d v found : Nat) (data : List Byte) : World :=
  let g := ⟨data, (w.socks s).path⟩
  { w.setSock d { w.socks d with
      dq := (w.socks d).dq ++ [g], dqBytes := (w.socks d).dqBytes + data.length } with
    sent := w.sent ++ [⟨v, found, w.socks d, g⟩] }

/-- The loop of `unix_send` and what follows; `mem` says whether `kmalloc` finds memory. -/
def sendLoop (p s d v found : Nat) (data : List Byte) (nonblock mem : Bool) (w : World) : World :=
  if dgramLimit < (w.socks d).dqBytes + data.length then
    w.setProc p (if nonblock then none else some (.send s d v found data))
  else (if mem then w.append s d v found data else w).setProc p none

/-- `unix_send`; `name` is the vnode of the socket the path names. -/
def unixSend (p s : Nat) (name : Option Nat) (data : List Byte) (nonblock mem : Bool) (w : World) :
    World :=
  if (w.socks s).shutWr then w
  else
    match name with
    | none => w
    | some v =>
      match unixLookup v w with
      | none => w
      | some d =>
        if dgramLimit < data.length then w
        else sendLoop p s d v (w.socks d).id data nonblock mem w

/-- `dgram_recv`. -/
def dgramRecv (p s own n : Nat) (peek nonblock : Bool) (w : World) : World :=
  match (w.socks s).dq with
  | [] => w.setProc p (if (w.socks s).shutRd || nonblock then none else some (.recv s own n peek))
  | g :: q =>
    if peek then w.setProc p none
    else
      { (w.setSock s { w.socks s with
          dq := q, dqBytes := (w.socks s).dqBytes - g.data.length }).setProc p none with
        taken := w.taken ++ [⟨own, (w.socks s).id, g, n, g.data.take n⟩] }

inductive Event where
  | socket (unix dgram : Bool)
  | bind (i v : Nat) (path : String)
  | shutdown (i : Nat) (rd wr : Bool)
  /-- the last descriptor is closed, by its process or through `/proc`: `sock_close`, `sock_free` -/
  | close (i : Nat)
  | send (p s : Nat) (name : Option Nat) (data : List Byte) (nonblock mem : Bool)
  | recv (p s n : Nat) (peek nonblock : Bool)
  /-- `sock_wait` returns, with an error or not -/
  | wake (p : Nat) (fails mem : Bool)

/-- The process can make a call on the socket. -/
def World.ready (w : World) (p s : Nat) : Bool :=
  p < nproc && (w.procs p).isNone && (w.socks s).used && (w.socks s).unix && (w.socks s).dgram

def step (w : World) : Event → World
  | .socket unix dgram => sockAlloc unix dgram w
  | .bind i v path => unixBind i v path w
  | .shutdown i rd wr =>
    let s := w.socks i
    w.setSock i { s with shutRd := s.shutRd || rd, shutWr := s.shutWr || wr }
  | .close i => if (w.socks i).used then w.setSock i .zero else w
  | .send p s name data nonblock mem =>
    if w.ready p s then unixSend p s name data nonblock mem w else w
  | .recv p s n peek nonblock =>
    if w.ready p s then dgramRecv p s (w.socks s).id n peek nonblock w else w
  | .wake p fails mem =>
    match w.procs p with
    | none => w
    | some x =>
      if fails then w.setProc p none
      else
        match x with
        | .send s d v found data => sendLoop p s d v found data false mem w
        | .recv s own n peek => dgramRecv p s own n peek false w

def run (w : World) (evs : List Event) : World := evs.foldl step w

/-- A call that goes on and queues or takes a datagram does so at the socket it began with. -/
def World.orderly (w : World) : Event → Bool
  | .wake p false mem =>
    match w.procs p with
    | none => true
    | some (.send _ d _ found data) =>
      dgramLimit < (w.socks d).dqBytes + data.length || !mem || (w.socks d).id == found
    | some (.recv s own _ peek) => (w.socks s).dq.isEmpty || peek || (w.socks s).id == own
  | _ => true

/-- No socket is closed while a call sleeps that then goes on with its slot. -/
def Orderly : World → List Event → Bool
  | _, [] => true
  | w, e :: es => w.orderly e && Orderly (step w e) es

/-- Every datagram went to the socket that was found for it, and came from the socket of the
receive. -/
def World.Matched (w : World) : Prop :=
  (∀ r ∈ w.sent, r.dst.id = r.found) ∧ ∀ r ∈ w.taken, r.src = r.id

/-! ## What has come and gone -/

/-- The datagrams that were queued at the socket of that number, and those that were taken. -/
def World.sentTo (w : World) (id : Nat) : List Dgram :=
  (w.sent.filter fun r => r.dst.id = id).map (·.g)

def World.takenFrom (w : World) (id : Nat) : List Dgram :=
  (w.taken.filter fun r => r.id = id).map (·.g)

structure Inv (w : World) : Prop where
  /-- the socket that a sender has found is bound, as long as it is there -/
  send : ∀ p s d v found data, w.procs p = some (.send s d v found data) →
    0 < found ∧ found < w.nextId ∧ ∀ i, (w.socks i).id = found → (w.socks i).boundVn = some v
  recv : ∀ p s own n peek, w.procs p = some (.recv s own n peek) → 0 < own
  sent : ∀ r ∈ w.sent, r.dst.used ∧ r.dst.boundVn = some r.v
  taken : ∀ r ∈ w.taken, r.got = r.g.data.take r.n
  /-- the numbers of the sockets -/
  born : 0 < w.nextId
  used : ∀ i, (w.socks i).used = true ↔ 0 < (w.socks i).id
  fresh : ∀ i, (w.socks i).id < w.nextId
  inj : ∀ i j, 0 < (w.socks i).id → (w.socks i).id = (w.socks j).id → i = j
  unborn : ∀ id, w.nextId ≤ id → w.sentTo id = [] ∧ w.takenFrom id = []
  queue : ∀ i, 0 < (w.socks i).id →
    w.sentTo (w.socks i).id = w.takenFrom (w.socks i).id ++ (w.socks i).dq
  order : ∀ id, w.takenFrom id <+: w.sentTo id

theorem inv_init : Inv .init := by
  constructor <;> simp [World.init, Sock.zero, World.sentTo, World.takenFrom]

section

variable {w : World}

theorem Inv.setProc (h : Inv w) (p : Nat) {x : Option Wait}
    (hs : ∀ s d v found data, x = some (.send s d v found data) →
      0 < found ∧ found < w.nextId ∧ ∀ i, (w.socks i).id = found → (w.socks i).boundVn = some v)
    (hr : ∀ s own n peek, x = some (.recv s own n peek) → 0 < own) : Inv (w.setProc p x) := by
  refine ⟨fun q s d v found data hq => ?_, fun q s own n peek hq => ?_, h.sent, h.taken, h.born,
    h.used, h.fresh, h.inj, h.unborn, h.queue, h.order⟩
  all_goals
    simp only [World.setProc] at hq
    by_cases hqp : q = p
    · subst hqp
      rw [update_self] at hq
      first | exact hs s d v found data hq | exact hr s own n peek hq
    · rw [update_of_ne hqp] at hq
      first | exact h.send q s d v found data hq | exact h.recv q s own n peek hq

theorem Inv.idle (h : Inv w) (p : Nat) : Inv (w.setProc p none) :=
  h.setProc p (by simp) (by simp)

/-- A socket and what is known about its queue change together; it may become bound. -/
theorem Inv.change (h : Inv w) {i : Nat} {s : Sock} {w' : World}
    (hsocks : w'.socks = update w.socks i s) (hprocs : w'.procs = w.procs)
    (hnext : w'.nextId = w.nextId) (hu : s.used = (w.socks i).used) (hid : s.id = (w.socks i).id)
    (hb : ∀ v, (w.socks i).boundVn = some v → s.boundVn = some v)
    (hs : ∀ r ∈ w'.sent, r.dst.used ∧ r.dst.boundVn = some r.v)
    (ht : ∀ r ∈ w'.taken, r.got = r.g.data.take r.n)
    (hother : ∀ id, (0 < (w.socks i).id → id ≠ (w.socks i).id) →
      w'.sentTo id = w.sentTo id ∧ w'.takenFrom id = w.takenFrom id)
    (hq : 0 < (w.socks i).id → w'.sentTo (w.socks i).id = w'.takenFrom (w.socks i).id ++ s.dq) :
    Inv w' := by
  have key : ∀ j, (w'.socks j).used = (w.socks j).used ∧ (w'.socks j).id = (w.socks j).id ∧
      ∀ v, (w.socks j).boundVn = some v → (w'.socks j).boundVn = some v := by
    intro j
    rw [hsocks]
    by_cases hj : j = i
    · subst hj
      simpa using ⟨hu, hid, hb⟩
    · simp [hj]
  refine ⟨fun p a d v found data hx => ?_, fun p a own n peek hx => ?_, hs, ht, hnext ▸ h.born,
    fun j => ?_, fun j => ?_, fun j k hj he => ?_, fun id hle => ?_, fun j hj => ?_, fun id => ?_⟩
  · rw [hprocs] at hx
    obtain ⟨h1, h2, h3⟩ := h.send p a d v found data hx
    exact ⟨h1, hnext ▸ h2, fun j hj => (key j).2.2 v (h3 j ((key j).2.1 ▸ hj))⟩
  · rw [hprocs] at hx
    exact h.recv p a own n peek hx
  · rw [(key j).1, (key j).2.1]
    exact h.used j
  · rw [(key j).2.1, hnext]
    exact h.fresh j
  · rw [(key j).2.1] at hj he
    rw [(key k).2.1] at he
    exact h.inj j k hj he
  · rw [hnext] at hle
    have hne := hother id fun _ => ((h.fresh i).trans_le hle).ne'
    rw [hne.1, hne.2]
    exact h.unborn id hle
  · rw [(key j).2.1] at hj ⊢
    by_cases hji : j = i
    · subst hji
      rw [hsocks, update_self]
      exact hq hj
    · have hne := hother _ fun _ he => hji (h.inj j i hj he)
      rw [hne.1, hne.2, hsocks, update_of_ne hji]
      exact h.queue j hj
  · by_cases hi : 0 < (w.socks i).id ∧ id = (w.socks i).id
    · rw [hi.2, hq hi.1]
      exact prefix_append _ _
    · have hne := hother id fun hu he => hi ⟨hu, he⟩
      rw [hne.1, hne.2]
      exact h.order id

theorem Inv.setSock (h : Inv w) (i : Nat) {s : Sock} (hu : s.used = (w.socks i).used)
    (hid : s.id = (w.socks i).id) (hq : s.dq = (w.socks i).dq)
    (hb : ∀ v, (w.socks i).boundVn = some v → s.boundVn = some v) : Inv (w.setSock i s) :=
  h.change rfl rfl rfl hu hid hb h.sent h.taken (fun _ _ => ⟨rfl, rfl⟩) fun hi => hq ▸ h.queue i hi

theorem Inv.append (h : Inv w) {s d v found : Nat} (hid : 0 < (w.socks d).id)
    (hb : (w.socks d).boundVn = some v) (data : List Byte) : Inv (w.append s d v found data) := by
  refine h.change rfl rfl rfl rfl rfl (fun _ => id)
    (forall_mem_append.2 ⟨h.sent, forall_mem_singleton.2 ⟨(h.used d).2 hid, hb⟩⟩) h.taken
    (fun id hne => ⟨?_, rfl⟩) fun _ => ?_
  · simp [World.sentTo, World.append, (hne hid).symm]
  · have := h.queue d hid
    simp only [World.sentTo, World.takenFrom] at this
    simp [World.sentTo, World.takenFrom, World.append, World.setSock, this]

theorem Inv.take (h : Inv w) {s : Nat} (hid : 0 < (w.socks s).id) {g : Dgram} {q : List Dgram}
    (hq : (w.socks s).dq = g :: q) (m n : Nat) :
    Inv { w.setSock s { w.socks s with dq := q, dqBytes := m } with
      taken := w.taken ++ [⟨(w.socks s).id, (w.socks s).id, g, n, g.data.take n⟩] } := by
  refine h.change rfl rfl rfl rfl rfl (fun _ => id) h.sent
    (forall_mem_append.2 ⟨h.taken, forall_mem_singleton.2 rfl⟩) (fun id hne => ⟨rfl, ?_⟩) fun _ => ?_
  · simp [World.takenFrom, (hne hid).symm]
  · have := h.queue s hid
    rw [hq] at this
    simp only [World.sentTo, World.takenFrom] at this
    simp [World.sentTo, World.takenFrom, World.setSock, this]

theorem Inv.sendLoop (h : Inv w) {p s d v found : Nat} {data : List Byte} {nonblock mem : Bool}
    (hf : 0 < found ∧ found < w.nextId ∧
      ∀ i, (w.socks i).id = found → (w.socks i).boundVn = some v)
    (ho : ¬dgramLimit < (w.socks d).dqBytes + data.length → mem = true → (w.socks d).id = found) :
    Inv (sendLoop p s d v found data nonblock mem w) := by
  unfold Dgrams.sendLoop
  split
  · split
    · exact h.idle p
    · refine h.setProc p (fun s' d' v' f' data' hy => ?_) (by simp)
      cases hy
      exact hf
  · next hroom =>
    split
    · next hmem =>
      have hid := ho hroom hmem
      exact (h.append (hid ▸ hf.1) (hf.2.2 d hid) data).idle p
    · exact h.idle p

theorem Inv.dgramRecv (h : Inv w) {p s own n : Nat} {peek nonblock : Bool} (hown : 0 < own)
    (ho : (w.socks s).dq ≠ [] → peek = false → (w.socks s).id = own) :
    Inv (dgramRecv p s own n peek nonblock w) := by
  unfold Dgrams.dgramRecv
  split
  · split
    · exact h.idle p
    · refine h.setProc p (by simp) fun s' own' n' peek' hy => ?_
      cases hy
      exact hown
  · next g q hq =>
      split
      · exact h.idle p
      · next hpeek =>
        obtain rfl := ho (by simp [hq]) (by simpa using hpeek)
        exact (h.take hown hq _ n).idle p

theorem Inv.found (h : Inv w) {v d : Nat} (hd : unixLookup v w = some d) :
    0 < (w.socks d).id ∧ (w.socks d).id < w.nextId ∧
      ∀ i, (w.socks i).id = (w.socks d).id → (w.socks i).boundVn = some v := by
  obtain ⟨hf, -⟩ := Option.filter_eq_some_iff.1 hd
  have hbound := List.find?_some hf
  simp only [Bool.and_eq_true, beq_iff_eq] at hbound
  have hid := (h.used d).1 hbound.1.1
  refine ⟨hid, h.fresh d, fun i hi => ?_⟩
  rw [h.inj i d (hi ▸ hid) hi]
  exact hbound.2

theorem Inv.alloc (h : Inv w) (unix dgram : Bool) : Inv (sockAlloc unix dgram w) := by
  unfold sockAlloc
  split
  · next i hi =>
      have hnew := h.unborn w.nextId le_rfl
      have hfresh := fun j => h.fresh j
      refine ⟨fun p s d v found data hx => ?_, fun p s own n peek hx => h.recv p s own n peek hx,
        h.sent, h.taken, Nat.succ_pos _, fun j => ?_, fun j => ?_, fun j k hj he => ?_,
        fun id hle => h.unborn id (Nat.le_of_succ_le hle), fun j hj => ?_, h.order⟩
      · obtain ⟨h1, h2, h3⟩ := h.send p s d v found data hx
        refine ⟨h1, Nat.lt_succ_of_lt h2, fun j hj => ?_⟩
        by_cases hji : j = i
        · simp only [World.setSock, hji, update_self] at hj
          exact absurd hj h2.ne'
        · simp only [World.setSock, update_of_ne hji] at hj ⊢
          exact h3 j hj
      · by_cases hji : j = i
        · simp [World.setSock, hji, h.born]
        · simpa [World.setSock, hji] using h.used j
      · by_cases hji : j = i
        · simp [World.setSock, hji]
        · simpa [World.setSock, hji] using Nat.lt_succ_of_lt (h.fresh j)
      · by_cases hji : j = i <;> by_cases hki : k = i
        · rw [hji, hki]
        · simp only [World.setSock, hji, update_self, update_of_ne hki] at he
          exact absurd he (hfresh k).ne'
        · simp only [World.setSock, hki, update_self, update_of_ne hji] at he
          exact absurd he (hfresh j).ne
        · simp only [World.setSock, update_of_ne hji, update_of_ne hki] at hj he
          exact h.inj j k hj he
      · by_cases hji : j = i
        · simp only [World.setSock, hji, update_self]
          exact hnew.1.trans (congrArg (· ++ []) hnew.2).symm
        · simp only [World.setSock, update_of_ne hji] at hj ⊢
          exact h.queue j hj
  · exact h

theorem Inv.close (h : Inv w) (i : Nat) : Inv (w.setSock i .zero) := by
  have hid : ∀ {j}, 0 < ((w.setSock i .zero).socks j).id → j ≠ i := fun hj he => by
    simp [he, World.setSock, Sock.zero] at hj
  refine ⟨fun p s d v found data hx => ?_, h.recv, h.sent, h.taken, h.born, fun j => ?_,
    fun j => ?_, fun j k hj he => ?_, h.unborn, fun j hj => ?_, h.order⟩
  · obtain ⟨h1, h2, h3⟩ := h.send p s d v found data hx
    refine ⟨h1, h2, fun j hj => ?_⟩
    have hji := hid (hj ▸ h1)
    simp only [World.setSock, update_of_ne hji] at hj ⊢
    exact h3 j hj
  · by_cases hji : j = i
    · simp [World.setSock, hji, Sock.zero]
    · simpa [World.setSock, hji] using h.used j
  · by_cases hji : j = i
    · simpa [World.setSock, hji, Sock.zero] using h.born
    · simpa [World.setSock, hji] using h.fresh j
  · have hji := hid hj
    have hki := hid (he ▸ hj)
    simp only [World.setSock, update_of_ne hji, update_of_ne hki] at hj he
    exact h.inj j k hj he
  · have hji := hid hj
    simp only [World.setSock, update_of_ne hji] at hj ⊢
    exact h.queue j hj

theorem Inv.step (h : Inv w) (e : Event) (ho : w.orderly e = true) : Inv (step w e) := by
  cases e with
  | socket unix dgram => exact h.alloc unix dgram
  | bind i v path =>
    simp only [Dgrams.step, unixBind]
    split
    · next hb => exact h.setSock i rfl rfl rfl fun v hv => by simp [hb.2.2] at hv
    · exact h
  | shutdown i rd wr => exact h.setSock i rfl rfl rfl fun _ => id
  | close i =>
    simp only [Dgrams.step]
    split
    · exact h.close i
    · exact h
  | send p s name data nonblock mem =>
    simp only [Dgrams.step, unixSend]
    split
    · split
      · exact h
      split
      · exact h
      split
      · exact h
      next d hd =>
      split
      · exact h
      · exact h.sendLoop (h.found hd) fun _ _ => rfl
    · exact h
  | recv p s n peek nonblock =>
    simp only [Dgrams.step]
    split
    · next hr =>
      simp only [World.ready, Bool.and_eq_true] at hr
      exact h.dgramRecv ((h.used s).1 hr.1.1.2) fun _ _ => rfl
    · exact h
  | wake p fails mem =>
    simp only [Dgrams.step]
    split
    · exact h
    next x hx =>
    split
    · exact h.idle p
    next hfails =>
    rw [Bool.not_eq_true] at hfails
    cases x with
    | send s d v found data =>
      simp only [World.orderly, hfails, hx] at ho
      exact h.sendLoop (h.send p s d v found data hx) fun hroom hmem => by simpa [hroom, hmem] using ho
    | recv s own n peek =>
      simp only [World.orderly, hfails, hx] at ho
      exact h.dgramRecv (h.recv p s own n peek hx) fun hdq hpeek => by simpa [hdq, hpeek] using ho

theorem Inv.run (h : Inv w) (evs : List Event) (ho : Orderly w evs = true) : Inv (run w evs) := by
  induction evs generalizing w with
  | nil => exact h
  | cons e evs ih =>
    rw [Orderly, Bool.and_eq_true] at ho
    exact ih (h.step e ho.1) ho.2

theorem matched_append (s d v found : Nat) (data : List Byte) (p : Nat) (x : Option Wait) :
    ((w.append s d v found data).setProc p x).Matched ↔ w.Matched ∧ (w.socks d).id = found := by
  simp only [World.Matched, World.append, World.setProc, World.setSock, forall_mem_append,
    forall_mem_singleton]
  tauto

theorem matched_sendLoop (p s d v found : Nat) (data : List Byte) (nonblock mem : Bool) :
    (sendLoop p s d v found data nonblock mem w).Matched ↔ w.Matched ∧
      (dgramLimit < (w.socks d).dqBytes + data.length || !mem || (w.socks d).id == found) := by
  unfold sendLoop
  split
  · next hroom => simp [hroom, World.Matched, World.setProc]
  · next hroom =>
    cases mem
    · simp [World.Matched, World.setProc]
    · rw [if_pos rfl, matched_append]
      simp [hroom]

theorem matched_dgramRecv (p s own n : Nat) (peek nonblock : Bool) :
    (dgramRecv p s own n peek nonblock w).Matched ↔ w.Matched ∧
      ((w.socks s).dq.isEmpty || peek || (w.socks s).id == own) := by
  unfold dgramRecv
  split
  · next hq => simp [hq, World.Matched, World.setProc]
  · next g q hq =>
    cases peek
    · simp only [World.Matched, World.setProc, World.setSock, Bool.false_eq_true, if_false,
        forall_mem_append, forall_mem_singleton, hq, isEmpty_cons, Bool.false_or, beq_iff_eq]
      tauto
    · simp [World.Matched, World.setProc]

/-- A step keeps the match exactly if it is orderly. -/
theorem matched_step (e : Event) : (step w e).Matched ↔ w.Matched ∧ w.orderly e = true := by
  cases e with
  | socket unix dgram =>
    simp only [step, sockAlloc, World.orderly, and_true]
    split <;> rfl
  | bind i v path =>
    simp only [step, unixBind, World.orderly, and_true]
    split <;> rfl
  | shutdown i rd wr => exact (and_iff_left rfl).symm
  | close i =>
    simp only [step, World.orderly, and_true]
    split <;> rfl
  | send p s name data nonblock mem =>
    simp only [step, unixSend, World.orderly, and_true]
    split
    · split
      · rfl
      split
      · rfl
      split
      · rfl
      split
      · rfl
      · simp [matched_sendLoop]
    · rfl
  | recv p s n peek nonblock =>
    simp only [step, World.orderly, and_true]
    split
    · simp [matched_dgramRecv]
    · rfl
  | wake p fails mem =>
    cases hx : w.procs p with
    | none => cases fails <;> simp [step, World.orderly, hx]
    | some x =>
      cases fails
      · cases x with
        | send s d v found data => simpa [step, World.orderly, hx] using matched_sendLoop ..
        | recv s own n peek => simpa [step, World.orderly, hx] using matched_dgramRecv ..
      · simp [step, World.orderly, hx, World.Matched, World.setProc]

theorem matched_run (evs : List Event) :
    (run w evs).Matched ↔ w.Matched ∧ Orderly w evs = true := by
  induction evs generalizing w with
  | nil => simp [run, Orderly]
  | cons e evs ih =>
    rw [run, foldl_cons, ← run, ih, matched_step, Orderly, Bool.and_eq_true, and_assoc]

end

/-- Two sockets, and datagrams from one to the other. -/
def sampleEvents : List Event :=
  [.socket true true, .bind 0 7 "/tmp/a", .socket true true, .recv 0 0 4 false false,
    .send 1 1 (some 7) [1, 2] false true, .send 1 1 (some 7) [3] false true, .wake 0 false true]

/-- The receiver of a full queue closes its socket while somebody waits to send to it.  The slot is
used again by another program, and a datagram for that wakes the first sender. -/
def strayEvents : List Event :=
  [.socket true true, .bind 0 7 "/tmp/a", .socket true true,
    .send 1 1 (some 7) (List.replicate dgramLimit 0) false true,
    .send 1 1 (some 7) [1] false true, .close 0,
    .socket true true, .bind 0 8 "/tmp/b", .socket true true,
    .send 2 2 (some 8) [2] false true, .wake 1 false true]

/-- A receiver sleeps and its socket is closed through `/proc`.  The slot is used again, and a
datagram for the new socket wakes the receiver. -/
def stolenEvents : List Event :=
  [.socket true true, .bind 0 7 "/tmp/a", .recv 1 0 4 false false, .close 0,
    .socket true true, .bind 0 8 "/tmp/b", .socket true true,
    .send 2 1 (some 8) [2] false true, .wake 1 false true]

end Tortoise.Dgrams
