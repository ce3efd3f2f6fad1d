import Bashket.Tcp.Input
import Bashket.Tcp.Output

/-!
# Timers and what a socket's owner calls

The critical sections that change a socket other than `tcp_input` and `output`: the timers, the
calls of its owner, ICMP errors, and what happens to a connection when its listener accepts it or
closes. A call that sleeps is modelled by the section in which it gets its work done.
-/

namespace Bashket.Tcp

open Serial

/-- Go back to the oldest thing not acknowledged.  `first`: the first time for this data. -/
def goBack (s : Sending) (first : Bool) : Sending :=
  { s with
    cc := if s.synAcked ∧ s.sndWnd ≠ 0 then
        ccTimeout s.cc s.mss (s.sndMax - s.sndUna).toNat s.sndMax first
      else s.cc
    dupacks := 0
    retransmitOne := false
    sacked := []
    sndNxt := if s.synAcked then s.sndUna else s.iss }

/-- Send what is outstanding again and wait twice as long this time, or give up. -/
def retransmitTimeout (s : Socket) (now : ℕ) : Socket :=
  if s.tmr.retries + 1 > maxRetries then
    abortConnection { s with tmr := { s.tmr with retries := s.tmr.retries + 1 } }
      (if s.softError ≠ 0 then s.softError else ETIMEDOUT)
  else
    let rto := if s.tmr.rto * 2 > rtoMax then rtoMax else s.tmr.rto * 2
    { s with
      snd := goBack s.snd (s.tmr.retries + 1 = 1)
      tmr := { s.tmr with
        retries := s.tmr.retries + 1
        timing := false
        rto := rto
        rtoDeadline := now + rto } }

def runTimers (s : Socket) (now : ℕ) : Socket :=
  if s.tmr.reapDeadline ≠ 0 ∧ now ≥ s.tmr.reapDeadline then
    if s.userOpen then
      { s with state := .closed, tmr := { s.tmr with reapDeadline := 0, rtoDeadline := 0 } }
    else Socket.zero
  else if s.tmr.rtoDeadline ≠ 0 ∧ now ≥ s.tmr.rtoDeadline then
    if s.snd.sndUna = s.snd.sndMax then { s with tmr := { s.tmr with rtoDeadline := 0 } }
    else retransmitTimeout s now
  else s

/-- `tcp_icmp_error` for the connection the quoted segment belongs to. -/
def tcpIcmpError (s : Socket) (seq : Seq) (type code : ℕ) : Socket :=
  if !lt seq s.snd.sndUna && lt seq s.snd.sndMax then
    if type = 3 ∧ (code = 2 ∨ code = 3 ∨ code = 4) then
      abortConnection s (if code = 4 then EMSGSIZE else ECONNREFUSED)
    else if type = 3 then
      { s with softError := if code = 0 ∨ code = 6 ∨ code = 9 then ENETUNREACH else EHOSTUNREACH }
    else s
  else s

/-- `tcp_open`, on a free slot. -/
def tcpOpen (tx rx : Option Memory) (refuseSack : Bool) : Option Socket :=
  (allocSocket tx rx refuseSack).map fun s => { s with userOpen := true }

/-- `accept_syn`: a SYN for the listening socket `listener` starts a connection in a free slot. -/
def acceptSyn (listener : ℕ) (localPort : BitVec 16) (src : BitVec 32) (g : Segment)
    (tx rx : Option Memory) (refuseSack : Bool) (iss : Seq) : Option Socket :=
  (allocSocket tx rx refuseSack).map fun s =>
    { s with
      listener := some listener
      state := .synReceived
      localPort := localPort
      remoteIp := src
      remotePort := g.srcPort
      snd := startSequence (applySynOptions { s.snd with sndWnd := g.window.toNat } g.options) iss
      rcv := { s.rcv with irs := g.seq, rcvNxt := g.seq + 1 } }

/-- `tcp_bind`, for a port no socket uses. -/
def tcpBind (s : Socket) (port : BitVec 16) : Socket :=
  if s.state ≠ .closed ∨ s.localPort ≠ 0 ∨ s.error ≠ 0 then s else { s with localPort := port }

/-- `tcp_listen`; `backlog` is within its limits already. -/
def tcpListen (s : Socket) (backlog : ℕ) : Socket :=
  if s.state ≠ .closed ∨ s.localPort = 0 ∨ s.error ≠ 0 then s
  else { s with state := .listen, backlog := backlog }

/-- Up to its `output()`; `port`: the ephemeral port found for a socket without one; `iss`: the
random number drawn. -/
def tcpConnect (s : Socket) (ip : BitVec 32) (remotePort port : BitVec 16) (iss : Seq) : Socket :=
  if s.state ≠ .closed ∨ s.error ≠ 0 then s
  else if s.localPort = 0 ∧ port = 0 then s
  else
    { s with
      localPort := if s.localPort = 0 then port else s.localPort
      remoteIp := ip
      remotePort := remotePort
      snd := startSequence s.snd iss
      state := .synSent }

/-- `tcp_connect` gives up: it was interrupted while it waited. -/
def connectInterrupted (s : Socket) : Socket :=
  if s.state = .synSent then
    { s with error := EINTR, state := .closed, tmr := { s.tmr with rtoDeadline := 0 } }
  else s

/-- `tcp_accept` takes this connection from its listener. -/
def tcpAccept (s : Socket) : Socket :=
  if s.listener.isSome ∧ (s.state = .established ∨ s.state = .closeWait) then
    { s with listener := none, userOpen := true }
  else s

/-- Once a window that was used up is read empty: a larger ring, if there is memory for it. -/
def offerMore (limit : ℕ) (r : Receiving) (kmalloc : Option Memory) : Receiving × Bool :=
  if r.rxFilled && r.rxLen = 0 then
    match growRing limit r.rx r.rxSize r.rxHead kmalloc with
    | some (ring, size) =>
      ({ r with rxFilled := false, rx := ring, rxSize := size, rxHead := 0 }, true)
    | none => ({ r with rxFilled := false }, false)
  else (r, false)

/-- `tcp_read`: the bytes it returns, and the socket after it. -/
def tcpRead (s : Socket) (len : ℕ) (kmalloc : Option Memory) : Socket × List UInt8 :=
  if len = 0 ∨ s.rcv.rxLen = 0 then (s, [])
  else
    let n := if len < s.rcv.rxLen then len else s.rcv.rxLen
    let r := offerMore (ringLimit s.snd)
      { s.rcv with
        rxHead := (s.rcv.rxHead + n) % s.rcv.rxSize
        rxLen := s.rcv.rxLen - n } kmalloc
    let roomBefore := if r.2 then 0 else rxFree s.rcv
    ({ s with rcv := { r.1 with
        ackPending := r.1.ackPending || (roomBefore < s.snd.mss && rxFree r.1 ≥ s.snd.mss) } },
      Ring.read s.rcv.rx s.rcv.rxSize s.rcv.rxHead n)

/-- Room in the send ring for one more round of `tcp_write`: a full ring may grow first. -/
def makeRoom (s : Sending) (kmalloc : Option Memory) : Sending :=
  if s.txLen < s.txSize then s
  else if s.synAcked ∧ min s.sndWnd s.cc.cwnd > s.txSize then
    match growRing (ringLimit s) s.tx s.txSize s.txHead kmalloc with
    | some (ring, size) => { s with tx := ring, txSize := size, txHead := 0 }
    | none => s
  else s

/-- One round of `tcp_write`: how many bytes it takes, and the socket after it. -/
def tcpWrite (s : Socket) (bytes : List UInt8) (kmalloc : Option Memory) : Socket × ℕ :=
  if s.error ≠ 0 ∨ (s.state ≠ .established ∧ s.state ≠ .closeWait) then (s, 0)
  else
    let snd := makeRoom s.snd kmalloc
    let room := snd.txSize - snd.txLen
    let n := if bytes.length < room then bytes.length else room
    let tail := (snd.txHead + snd.txLen) % snd.txSize
    ({ s with snd := { snd with
        tx := Ring.write snd.txSize snd.tx tail (bytes.take n)
        txLen := snd.txLen + n } }, n)

theorem tcpWrite_cases (s : Socket) (bytes : List UInt8) (kmalloc : Option Memory) :
    (tcpWrite s bytes kmalloc).1 = s ∨
      (s.error = 0 ∧ (s.state = .established ∨ s.state = .closeWait)) ∧ ∃ ring size head len,
        (tcpWrite s bytes kmalloc).1 = { s with
          snd := { s.snd with tx := ring, txSize := size, txHead := head, txLen := len } } := by
  have hroom : ∃ ring size head, makeRoom s.snd kmalloc =
      { s.snd with tx := ring, txSize := size, txHead := head } := by
    unfold makeRoom
    split_ifs
    · exact ⟨_, _, _, rfl⟩
    · split <;> exact ⟨_, _, _, rfl⟩
    · exact ⟨_, _, _, rfl⟩
  obtain ⟨ring, size, head, hroom⟩ := hroom
  unfold tcpWrite
  split_ifs with hc
  · exact .inl rfl
  · rw [hroom]
    exact .inr ⟨by tauto, _, _, _, _, rfl⟩

def tcpShutdown (s : Socket) : Socket :=
  match s.state with
  | .established => { s with state := .finWait1, snd := { s.snd with finQueued := true } }
  | .closeWait => { s with state := .lastAck, snd := { s.snd with finQueued := true } }
  | _ => s

/-- `tcp_close` of this socket. -/
def tcpClose (s : Socket) (now : ℕ) : Socket :=
  let s := { s with userOpen := false, rcv := { s.rcv with rxLen := 0, ooo := [] } }
  let reaped := { s with tmr := { s.tmr with reapDeadline := now + orphanTicks } }
  match s.state with
  | .established => { reaped with state := .finWait1, snd := { s.snd with finQueued := true } }
  | .closeWait => { reaped with state := .lastAck, snd := { s.snd with finQueued := true } }
  | .finWait1 | .finWait2 | .closing | .lastAck => reaped
  | .timeWait => s
  | _ => Socket.zero

/-- What `tcp_close` of its listener does to a connection nobody has accepted. -/
def listenerClosed (s : Socket) (now : ℕ) : Socket :=
  if s.listener.isSome then
    let s := { s with listener := none }
    let reaped := { s with tmr := { s.tmr with reapDeadline := now + orphanTicks } }
    match s.state with
    | .established => { reaped with state := .finWait1, snd := { s.snd with finQueued := true } }
    | .closeWait => { reaped with state := .lastAck, snd := { s.snd with finQueued := true } }
    | .synReceived => reaped
    | _ => Socket.zero
  else s

end Bashket.Tcp
