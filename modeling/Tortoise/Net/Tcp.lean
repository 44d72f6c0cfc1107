import Tortoise.Lib.Ring

/-!
# One end of a TCP connection

`src/os/kernel/tcp.c` for one connection: what a segment, the timer and the
system calls do to the socket and its control block, and the segments they send.

Segments are records; the header with its checksum is left out, since the
network of this model neither alters nor forges segments.  Waking sleepers is
left out, and a call that sleeps is one call for each turn of its loop.  What
the rest of the system decides is in `Env`: the clock, whether `tcp_output` gets
its buffer, whether the listener still has room.

A control block that is freed is gone: `After.closed`.  The socket goes with it
when nobody holds it any more.
-/

namespace Tortoise.Net

open Lib

abbrev Byte := BitVec 8

/-- Sequence numbers, and the other 32-bit quantities of the control block. -/
abbrev Seq := BitVec 32

def seqLt (a b : Seq) : Bool := (a - b).slt 0

def seqLe (a b : Seq) : Bool := (a - b).sle 0

/-- The states of a connection. -/
inductive TcpState where
  | closed | listen | synSent | synReceived | established | finWait1 | finWait2 | closeWait
  | closing | lastAck | timeWait
  deriving DecidableEq, Repr

/-- The states of a socket. -/
inductive SockState where
  | unconn | listen | connecting | connected | closed
  deriving DecidableEq, Repr

structure Flags where
  fin : Bool
  syn : Bool
  rst : Bool
  psh : Bool
  ack : Bool
  deriving DecidableEq, Repr

def fAck : Flags := ⟨false, false, false, false, true⟩

def fRst : Flags := ⟨false, false, true, false, false⟩

/-- A segment.  `mss` is the option of that name, `0` when it is missing. -/
structure Seg where
  seq : Seq
  ack : Seq
  flags : Flags
  win : Seq
  data : List Byte
  mss : Seq
  deriving DecidableEq, Repr

def ringSize : Nat := 8192

def rtoInit : Seq := 100

def maxRetries : Seq := 6

def timeWaitTicks : Seq := 200

def econnreset : Nat := 104

def enotconn : Nat := 107

def etimedout : Nat := 110

def econnrefused : Nat := 111

/-- The fields of a socket that TCP uses.  `parent` says that it was made by a
listener. -/
structure Sock where
  rx : RingBuf Byte
  tx : RingBuf Byte
  shutRd : Bool
  shutWr : Bool
  error : Nat
  state : SockState
  parent : Bool

/-- The control block. -/
structure Tcb where
  state : TcpState
  iss : Seq
  sndUna : Seq
  sndNxt : Seq
  sndWnd : Seq
  sndMax : Seq
  irs : Seq
  rcvNxt : Seq
  mss : Seq
  finSent : Bool
  finAcked : Bool
  finRcvd : Bool
  rto : Seq
  retries : Seq
  rtxAt : Seq
  twAt : Seq
  ackNow : Bool
  orphan : Bool

/-- What the rest of the system decides during a call. -/
structure Env where
  /-- the clock -/
  ticks : Seq
  /-- `kmalloc` in `tcp_output` succeeds -/
  mem : Bool
  /-- the listener is still there and its queue has room -/
  accepts : Bool
  /-- `our_mss` of the other address -/
  ourMss : Seq

/-- A connection, and what it has sent during this call. -/
structure Conn where
  sock : Sock
  tcb : Tcb
  out : List Seg

/-- What is left of a connection after a call. -/
inductive After where
  | live (c : Conn)
  | closed (sock : Option Sock) (out : List Seg)

/-- Change the control block. -/
def Conn.upd (c : Conn) (f : Tcb → Tcb) : Conn := { c with tcb := f c.tcb }

/-! ## Sending -/

/-- `rwin`, as the header can carry it. -/
def rwin (s : Sock) : Seq := BitVec.ofNat 32 (min s.rx.space 65535)

def tcbSeg (env : Env) (seq : Seq) (flags : Flags) (data : List Byte) (withMss : Bool) (c : Conn) :
    Conn :=
  { c with out := c.out ++
      [⟨seq, c.tcb.rcvNxt, flags, rwin c.sock, data, if withMss then env.ourMss else 0⟩] }

def arm (env : Env) (t : Tcb) : Tcb :=
  if t.rtxAt = 0 then { t with rtxAt := env.ticks + t.rto } else t

/-- `if (SEQ_LT(t->snd_max, t->snd_nxt)) t->snd_max = t->snd_nxt`. -/
def raiseMax (t : Tcb) : Tcb := if seqLt t.sndMax t.sndNxt then { t with sndMax := t.sndNxt } else t

/-- `snd_nxt` behind `n` more numbers, when they have been sent. -/
def advance (env : Env) (n : Seq) (t : Tcb) : Tcb :=
  arm env (raiseMax { t with sndNxt := t.sndNxt + n })

/-- How many bytes the next turn of the loop in `tcp_output` sends. -/
def chunk (s : Sock) (t : Tcb) : Seq :=
  let off := t.sndNxt - t.sndUna
  let len := BitVec.ofNat 32 s.tx.len
  let avail := if off < len then len - off else 0
  let win := t.sndUna + t.sndWnd - t.sndNxt
  let win := if win.slt 0 then 0 else win
  let n := avail
  let n := if win < n then win else n
  let n := if t.mss < n then t.mss else n
  if 4096 < n then 4096 else n

/-- The loop of `tcp_output`, and whether it sent something.  Each turn sends at
least one byte of the buffer, so as many turns as it has bytes are enough. -/
def sendLoop (env : Env) : Nat → Conn → Bool → Conn × Bool
  | 0, c, sent => (c, sent)
  | fuel + 1, c, sent =>
    if c.tcb.finSent then (c, sent)
    else
      let n := chunk c.sock c.tcb
      if n = 0 then (c, sent)
      else
        let off := c.tcb.sndNxt - c.tcb.sndUna
        let data := c.sock.tx.peekAt off.toNat n.toNat
        let c := tcbSeg env c.tcb.sndNxt { fAck with psh := true } data false c
        sendLoop env fuel (c.upd (advance env n)) true

/-- The state when our `FIN` has been sent. -/
def finSentState (st : TcpState) : TcpState :=
  if st = .established then .finWait1 else if st = .closeWait then .lastAck else st

/-- The end of the stream in `tcp_output`. -/
def sendFin (env : Env) (r : Conn × Bool) : Conn × Bool :=
  let c := r.1
  let t := c.tcb
  if !t.finSent && c.sock.shutWr && t.sndNxt - t.sndUna == BitVec.ofNat 32 c.sock.tx.len then
    let c := tcbSeg env t.sndNxt { fAck with fin := true } [] false c
    let c := c.upd (advance env 1)
    (c.upd fun t => { t with finSent := true, state := finSentState t.state }, true)
  else r

/-- The timer runs while the window is closed to bytes of the buffer. -/
def armClosed (env : Env) (c : Conn) : Conn :=
  if c.tcb.sndNxt - c.tcb.sndUna < BitVec.ofNat 32 c.sock.tx.len ∧ c.tcb.sndWnd = 0 then
    c.upd (arm env)
  else c

/-- The last part of `tcp_output`: the timer, and the acknowledgement that no
segment has carried. -/
def sendAck (env : Env) (r : Conn × Bool) : Conn :=
  let c := armClosed env r.1
  let c := if c.tcb.ackNow && !r.2 then tcbSeg env c.tcb.sndNxt fAck [] false c else c
  c.upd fun t => { t with ackNow := false }

/-- Before the handshake is over only the answer to a `SYN` is repeated. -/
def handshaking (st : TcpState) : Bool :=
  st = .synSent || st = .synReceived || st = .closed || st = .listen

def tcpOutput (env : Env) (c : Conn) : Conn :=
  if handshaking c.tcb.state then
    let c := if c.tcb.ackNow && c.tcb.state = .synReceived then
      tcbSeg env c.tcb.iss { fAck with syn := true } [] true c else c
    c.upd fun t => { t with ackNow := false }
  else if !env.mem then c
  else sendAck env (sendFin env (sendLoop env (c.sock.tx.len + 1) c false))

/-- `ack_now = 1` followed by `tcp_output`. -/
def ackNow (env : Env) (c : Conn) : Conn :=
  tcpOutput env (c.upd fun t => { t with ackNow := true })

/-! ## Giving up -/

def tcbFree (c : Conn) : After :=
  .closed (if c.tcb.orphan then none else some { c.sock with state := .closed }) c.out

def tcpFail (err : Nat) (c : Conn) : After := tcbFree { c with sock := { c.sock with error := err } }

/-- `send_reset`, for a segment of which `dlen` bytes are left. -/
def sendReset (m : Seg) (dlen : Nat) : List Seg :=
  if m.flags.rst then []
  else if m.flags.ack then [⟨m.ack, 0, fRst, 0, [], 0⟩]
  else [⟨0, m.seq + BitVec.ofNat 32 dlen + (if m.flags.syn then 1 else 0) +
      (if m.flags.fin then 1 else 0), { fRst with ack := true }, 0, [], 0⟩]

/-! ## Segments -/

def parseMss (env : Env) (m : Seg) (t : Tcb) : Tcb :=
  let t := if 64 ≤ m.mss then { t with mss := m.mss } else t
  if env.ourMss < t.mss then { t with mss := env.ourMss } else t

def established (env : Env) (c : Conn) : After :=
  let c := { c with
    sock := { c.sock with state := .connected }
    tcb := { c.tcb with state := .established } }
  if c.sock.parent && !env.accepts then
    tcbFree ((tcbSeg env c.tcb.sndNxt fRst [] false c).upd fun t => { t with orphan := true })
  else .live c

/-- The state `TCP_SYN_SENT` of `tcp_input`. -/
def inputSynSent (env : Env) (m : Seg) (c : Conn) : After :=
  if m.flags.ack && (seqLe m.ack c.tcb.iss || seqLt c.tcb.sndNxt m.ack) then
    .live { c with out := c.out ++ sendReset m m.data.length }
  else if m.flags.rst then
    if m.flags.ack then tcpFail econnrefused c else .live c
  else if !m.flags.syn then .live c
  else
    let c := c.upd fun t =>
      parseMss env m { t with irs := m.seq, rcvNxt := m.seq + 1, sndWnd := m.win }
    if m.flags.ack then
      match established env (c.upd fun t =>
        { t with sndUna := m.ack, rtxAt := 0, retries := 0, rto := rtoInit }) with
      | .live c => .live (ackNow env c)
      | gone => gone
    else
      let c := c.upd fun t => { t with state := .synReceived }
      .live (tcbSeg env c.tcb.iss { fAck with syn := true } [] true c)

/-- A segment without its first `skip` bytes, or nothing when no part of it is left. -/
def cut (flags : Flags) (data : List Byte) (skip : Seq) : Option (Flags × List Byte) :=
  let dlen := BitVec.ofNat 32 data.length
  let seglen := dlen + (if flags.fin then 1 else 0)
  if seglen ≤ skip ∧ ¬ (seglen = 0 ∧ skip = 0) then none
  else some (flags, data.drop (if dlen < skip then dlen else skip).toNat)

/-- The part of a segment that is new: its flags and data after what lies in
front of `rcv_nxt` has been cut off, or nothing when no part of it is next. -/
def trim (t : Tcb) (m : Seg) : Option (Flags × List Byte) :=
  if seqLt m.seq t.rcvNxt then
    let skip := t.rcvNxt - m.seq
    cut { m.flags with syn := false } m.data
      (if m.flags.syn then (if 0 < skip then skip - 1 else 0) else skip)
  else if m.seq = t.rcvNxt then some (m.flags, m.data)
  else none

/-- A reset in sequence. -/
def inputRst (c : Conn) : After :=
  if c.tcb.state = .synReceived ∧ c.sock.parent then
    tcbFree (c.upd fun t => { t with orphan := true })
  else if c.tcb.state = .timeWait ∨ c.tcb.state = .lastAck ∨ c.tcb.state = .closing then tcbFree c
  else tcpFail econnreset c

/-- The acknowledgement of the handshake, in the state `TCP_SYN_RECEIVED`. -/
def inputAckSyn (env : Env) (m : Seg) (dlen : Nat) (c : Conn) : Except After Conn :=
  if c.tcb.state = .synReceived then
    if seqLt c.tcb.sndUna m.ack && seqLe m.ack c.tcb.sndNxt then
      match established env (c.upd fun t =>
        { t with sndUna := m.ack, sndWnd := m.win, rtxAt := 0, retries := 0, rto := rtoInit }) with
      | .live c => .ok c
      | gone => .error gone
    else .error (.live { c with out := c.out ++ sendReset m dlen })
  else .ok c

/-- What an acknowledgement of new bytes does. -/
def acked (env : Env) (ack : Seq) (c : Conn) : Conn :=
  let t := c.tcb
  let n := ack - t.sndUna
  let ofFin := t.finSent && ack == t.sndMax
  let dacked := if ofFin then n - 1 else n
  let len := BitVec.ofNat 32 c.sock.tx.len
  let dacked := if len < dacked then len else dacked
  { c with
    sock := { c.sock with tx := c.sock.tx.drop dacked.toNat }
    tcb := { t with
      finAcked := t.finAcked || ofFin
      sndUna := ack
      sndNxt := if seqLt t.sndNxt ack then ack else t.sndNxt
      retries := 0
      rto := rtoInit
      rtxAt := if ack = t.sndMax then 0 else env.ticks + rtoInit } }

/-- The acknowledgement of a segment. -/
def inputAck (env : Env) (m : Seg) (c : Conn) : Except After Conn :=
  let t := c.tcb
  let window (c : Conn) : Conn :=
    if seqLe c.tcb.sndUna m.ack then c.upd fun t => { t with sndWnd := m.win } else c
  if seqLt t.sndUna m.ack && seqLe m.ack t.sndMax then .ok (window (acked env m.ack c))
  else if seqLt t.sndMax m.ack then .error (.live (ackNow env c))
  else .ok (window c)

/-- What follows when our `FIN` has been acknowledged. -/
def inputFinAcked (env : Env) (c : Conn) : Except After Conn :=
  if c.tcb.finAcked then
    if c.tcb.state = .finWait1 then .ok (c.upd fun t => { t with state := .finWait2 })
    else if c.tcb.state = .closing then
      .ok (c.upd fun t => { t with state := .timeWait, twAt := env.ticks + timeWaitTicks })
    else if c.tcb.state = .lastAck then .error (tcbFree c)
    else .ok c
  else .ok c

/-- The states in which data is taken. -/
def receiving (st : TcpState) : Bool := st = .established || st = .finWait1 || st = .finWait2

/-- The data of a segment, and whether its `FIN` still counts. -/
def inputData (fin : Bool) (data : List Byte) (c : Conn) : Conn × Bool :=
  if data ≠ [] ∧ receiving c.tcb.state then
    let k := if c.sock.shutRd then data.length else min data.length c.sock.rx.space
    let rx := if c.sock.shutRd then c.sock.rx else c.sock.rx.put data
    ({ c with
        sock := { c.sock with rx := rx }
        tcb := { c.tcb with rcvNxt := c.tcb.rcvNxt + BitVec.ofNat 32 k, ackNow := true } },
      fin && !decide (k < data.length))
  else if data ≠ [] then (c.upd fun t => { t with ackNow := true }, false)
  else (c, fin)

/-- The state after a `FIN` has arrived. -/
def finState (t : Tcb) : TcpState :=
  if t.state = .established then .closeWait
  else if t.state = .finWait1 then (if t.finAcked then .timeWait else .closing)
  else if t.state = .finWait2 then .timeWait
  else t.state

/-- The `FIN` of a segment. -/
def inputFin (env : Env) (c : Conn) : Conn :=
  c.upd fun t =>
    { t with
      rcvNxt := t.rcvNxt + 1
      finRcvd := true
      ackNow := true
      state := finState t
      twAt := if finState t = .timeWait then env.ticks + timeWaitTicks else t.twAt }

/-- `tcp_input` behind the handling of acknowledgements. -/
def inputText (env : Env) (m : Seg) (fin : Bool) (data : List Byte) (c : Conn) : After :=
  if data ≠ [] ∧ c.tcb.orphan then
    tcbFree { c with out := c.out ++ [⟨m.ack, 0, fRst, 0, [], 0⟩] }
  else
    let r := inputData fin data c
    .live (tcpOutput env (if r.2 then inputFin env r.1 else r.1))

/-- `tcp_input` behind the trimming, in a synchronised state. -/
def inputSync (env : Env) (m : Seg) (flags : Flags) (data : List Byte) (c : Conn) : After :=
  if flags.rst then inputRst c
  else if flags.syn then tcpFail econnreset (tcbSeg env c.tcb.sndNxt fRst [] false c)
  else if !flags.ack then .live c
  else
    match do
      let c ← inputAckSyn env m data.length c
      let c ← inputAck env m c
      inputFinAcked env c with
    | .error gone => gone
    | .ok c => inputText env m flags.fin data c

/-- `tcp_input` for a segment of the connection. -/
def tcpInput (env : Env) (m : Seg) (c : Conn) : After :=
  if c.tcb.state = .synSent then inputSynSent env m c
  else
    match trim c.tcb m with
    | none => .live (if m.flags.rst then c else ackNow env c)
    | some (flags, data) => inputSync env m flags data c

/-! ## Opening -/

/-- An empty ring, as `ring_init` leaves it. -/
def ringInit : RingBuf Byte := .empty 0 ringSize (by decide)

/-- A control block as `tcb_alloc` and its callers begin with it. -/
def newTcb (st : TcpState) (iss : Seq) : Tcb where
  state := st
  iss := iss
  sndUna := iss
  sndNxt := iss + 1
  sndWnd := 0
  sndMax := iss + 1
  irs := 0
  rcvNxt := 0
  mss := 536
  finSent := false
  finAcked := false
  finRcvd := false
  rto := rtoInit
  retries := 0
  rtxAt := 0
  twAt := 0
  ackNow := false
  orphan := false

/-- A socket that is being connected. -/
def newSock (parent : Bool) : Sock := ⟨ringInit, ringInit, false, false, 0, .connecting, parent⟩

/-- `tcp_connect` up to the first segment. -/
def tcpConnect (env : Env) (iss : Seq) : Conn :=
  (tcbSeg env iss ⟨false, true, false, false, false⟩ [] true
    ⟨newSock false, newTcb .synSent iss, []⟩).upd (arm env)

/-- The child a listener makes for a `SYN`. -/
def tcpAccept (env : Env) (iss : Seq) (m : Seg) : Conn :=
  let t := parseMss env m
    { newTcb .synReceived iss with irs := m.seq, rcvNxt := m.seq + 1, sndWnd := m.win }
  (tcbSeg env iss { fAck with syn := true } [] true ⟨newSock true, t, []⟩).upd (arm env)

/-! ## System calls and the timer -/

/-- One turn of the loop of `tcp_send`: the connection and the number of bytes
accepted, or nothing when the call ends or sleeps before it gets to the buffer. -/
def tcpSend (env : Env) (data : List Byte) (c : Conn) : Conn × Option Nat :=
  let err := c.sock.error
  let c := { c with sock := { c.sock with error := 0 } }
  if err = econnreset ∨ err = etimedout then (c, none)
  else if c.sock.shutWr || !(c.tcb.state = .established || c.tcb.state = .closeWait) then (c, none)
  else if data = [] then (c, none)
  else
    (tcpOutput env { c with sock := { c.sock with tx := c.sock.tx.put data } },
      some (min data.length c.sock.tx.space))

/-- How a call of `tcp_recv` ends. -/
inductive Recv where
  /-- bytes from the buffer -/
  | data (bytes : List Byte)
  | error (err : Nat)
  /-- the call returns `0` -/
  | zero
  /-- the call sleeps, or would -/
  | wait
  deriving DecidableEq, Repr

def tcpAfterRead (env : Env) (c : Conn) : Conn := if receiving c.tcb.state then ackNow env c else c

/-- One turn of `tcp_recv` on a connection. -/
def tcpRecv (env : Env) (n : Nat) (peek : Bool) (c : Conn) : Conn × Recv :=
  if c.sock.rx.len ≠ 0 then
    let r := c.sock.rx.get n peek
    let c' := { c with sock := { c.sock with rx := r.2 } }
    let c' := if !peek ∧ c.sock.rx.space < 4096 ∧ 4096 ≤ r.2.space then tcpAfterRead env c' else c'
    (c', .data r.1)
  else if c.sock.error ≠ 0 then
    ({ c with sock := { c.sock with error := 0 } }, .error c.sock.error)
  else if c.sock.shutRd || c.tcb.finRcvd then (c, .zero)
  else if c.sock.state ≠ .connected ∧ c.sock.state ≠ .connecting then (c, .error enotconn)
  else (c, .wait)

/-- `tcp_recv` on a socket whose control block is gone. -/
def recvClosed (n : Nat) (peek : Bool) (s : Sock) : Sock × Recv :=
  if s.rx.len ≠ 0 then
    let r := s.rx.get n peek
    ({ s with rx := r.2 }, .data r.1)
  else if s.error ≠ 0 then ({ s with error := 0 }, .error s.error)
  else (s, .zero)

def sockShutdown (env : Env) (rd wr : Bool) (c : Conn) : After :=
  let c := { c with sock := { c.sock with
    shutRd := c.sock.shutRd || rd, shutWr := c.sock.shutWr || wr } }
  if c.tcb.state = .synSent then tcbFree (c.upd fun t => { t with orphan := false })
  else .live (tcpOutput env c)

def tcpClose (env : Env) (c : Conn) : After :=
  let c := { c with
    sock := { c.sock with parent := false }
    tcb := { c.tcb with orphan := true } }
  if c.tcb.state = .synSent ∨ c.tcb.state = .closed then tcbFree c
  else if c.sock.rx.len ≠ 0 ∧ c.tcb.state ≠ .timeWait then
    tcbFree (tcbSeg env c.tcb.sndNxt { fRst with ack := true } [] false c)
  else .live (tcpOutput env { c with sock := { c.sock with shutWr := true } })

def tcpIcmpError (err : Nat) (c : Conn) : After :=
  if c.tcb.state = .synSent then tcpFail err c else .live c

/-- The zero-window probe of `tcp_tick`: one byte that is not counted as sent. -/
def probe (env : Env) (c : Conn) : Conn :=
  (tcbSeg env c.tcb.sndUna fAck (c.sock.tx.peekAt 0 1) false c).upd fun t =>
    arm env { t with rto := if (3200 : Seq).slt (t.rto * 2) then 3200 else t.rto * 2 }

/-- The retransmission of `tcp_tick`. -/
def retransmit (env : Env) (c : Conn) : Conn :=
  let c := c.upd fun t => { t with rto := t.rto * 2 }
  let c :=
    if c.tcb.state = .synSent then
      tcbSeg env c.tcb.iss ⟨false, true, false, false, false⟩ [] true c
    else if c.tcb.state = .synReceived then
      tcbSeg env c.tcb.iss { fAck with syn := true } [] true c
    else
      tcpOutput env (c.upd fun t =>
        { t with sndNxt := t.sndUna, finSent := t.finSent && t.finAcked })
  c.upd (arm env)

/-- `tcp_tick` for one control block. -/
def tcpTick (env : Env) (c : Conn) : After :=
  if c.tcb.state = .timeWait then
    if c.tcb.twAt.sle env.ticks then tcbFree c else .live c
  else if c.tcb.rtxAt = 0 ∨ env.ticks.slt c.tcb.rtxAt then .live c
  else
    let c := c.upd fun t => { t with rtxAt := 0 }
    if c.tcb.sndUna = c.tcb.sndMax ∧ c.tcb.sndWnd = 0 ∧ c.sock.tx.len ≠ 0 then .live (probe env c)
    else if c.tcb.sndUna = c.tcb.sndMax then .live c
    else
      let c := c.upd fun t => { t with retries := t.retries + 1 }
      if maxRetries.slt c.tcb.retries then
        tcpFail etimedout (tcbSeg env c.tcb.sndNxt { fRst with ack := true } [] false c)
      else .live (retransmit env c)

end Tortoise.Net
