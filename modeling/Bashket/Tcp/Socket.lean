import Bashket.Lib.Ring
import Bashket.Tcp.Congestion
import Bashket.Tcp.Segment

/-!
# Sockets

`struct tcp_socket` of `tcp.c`, its fields grouped as the comments of the struct group them, and the
helpers that work on one socket. A ring is a memory `ℕ → UInt8` with its size; `kmalloc` is answered
by the environment, with a memory of unknown contents or with nothing. Left out are the flags of
`output`, the statistics and the traces for tests.
-/

namespace Bashket.Tcp

open Serial

/-- The states of RFC 9293, figure 5. -/
inductive State where
  | closed
  | listen
  | synSent
  | synReceived
  | established
  | finWait1
  | finWait2
  | closeWait
  | closing
  | lastAck
  | timeWait
deriving DecidableEq, Repr

/-- Memory as `kmalloc` hands it out. -/
abbrev Memory := ℕ → UInt8

/-- Sending.  The ring holds data that is not yet acknowledged, sent or not. -/
structure Sending where
  iss : Seq
  sndUna : Seq
  sndNxt : Seq
  sndMax : Seq
  sndWnd : ℕ
  mss : ℕ
  scaling : Bool
  sndShift : ℕ
  rcvShift : ℕ
  offerSack : Bool
  sackOk : Bool
  sacked : List Range
  rexmitNext : Seq
  synAcked : Bool
  finQueued : Bool
  tx : Memory
  txHead : ℕ
  txLen : ℕ
  txSize : ℕ
  dupacks : ℕ
  retransmitOne : Bool
  cc : Cc

/-- Receiving.  The ring holds data not yet read, then data kept out of order. -/
structure Receiving where
  irs : Seq
  rcvNxt : Seq
  peerFin : Bool
  ackPending : Bool
  dupAcksOwed : ℕ
  rx : Memory
  rxHead : ℕ
  rxLen : ℕ
  rxSize : ℕ
  rxFilled : Bool
  rcvAdv : Seq
  ooo : List Range
  oooRecent : Seq
  finKnown : Bool
  finSeq : Seq

/-- Timers in ticks (0: not running), and the measurement of round trips. -/
structure Timers where
  rtoDeadline : ℕ
  rto : ℕ
  retries : ℕ
  rtt : Rtt
  timing : Bool
  timedEnd : Seq
  timedAtNs : ℕ
  reapDeadline : ℕ

structure Socket where
  used : Bool
  userOpen : Bool
  state : State
  error : ℕ
  softError : ℕ
  localPort : BitVec 16
  remotePort : BitVec 16
  remoteIp : BitVec 32
  snd : Sending
  rcv : Receiving
  tmr : Timers
  listener : Option ℕ
  backlog : ℕ

def Socket.zero : Socket where
  used := false
  userOpen := false
  state := .closed
  error := 0
  softError := 0
  localPort := 0
  remotePort := 0
  remoteIp := 0
  snd := { iss := 0, sndUna := 0, sndNxt := 0, sndMax := 0, sndWnd := 0, mss := 0, scaling := false
           sndShift := 0, rcvShift := 0, offerSack := false, sackOk := false, sacked := []
           rexmitNext := 0, synAcked := false, finQueued := false, tx := fun _ => 0, txHead := 0
           txLen := 0, txSize := 0, dupacks := 0, retransmitOne := false
           cc := { cwnd := 0, ssthresh := 0, inRecovery := false, recover := 0 } }
  rcv := { irs := 0, rcvNxt := 0, peerFin := false, ackPending := false, dupAcksOwed := 0
           rx := fun _ => 0, rxHead := 0, rxLen := 0, rxSize := 0, rxFilled := false, rcvAdv := 0
           ooo := [], oooRecent := 0, finKnown := false, finSeq := 0 }
  tmr := { rtoDeadline := 0, rto := 0, retries := 0
           rtt := { srttUs := 0, rttvarUs := 0, rtoUs := 0, measured := false }
           timing := false, timedEnd := 0, timedAtNs := 0, reapDeadline := 0 }
  listener := none
  backlog := 0

/-- What the clocks say during a step: `timer_ticks()` and `clock_ns()`. -/
structure Clock where
  ticks : ℕ
  ns : ℕ

/-! ### Constants -/

def rtoInitial : ℕ := 20

def rtoMax : ℕ := 300

def usPerTick : ℕ := 10000

def maxRetries : ℕ := 8

def timeWaitTicks : ℕ := 200

def orphanTicks : ℕ := 2000

def dupAcksOwedMax : ℕ := 4

def bufferSize : ℕ := 8192

def bufferMaxUnscaled : ℕ := 65536

/-- Error numbers, as `kerrno.h` has them. -/
def EINTR : ℕ := 4
def EMSGSIZE : ℕ := 90
def ECONNRESET : ℕ := 104
def ETIMEDOUT : ℕ := 110
def ECONNREFUSED : ℕ := 111
def ENETUNREACH : ℕ := 101
def EHOSTUNREACH : ℕ := 113

/-! ### Helpers -/

@[irreducible] def sub64 (a b : ℕ) : ℕ := (a + 2 ^ 64 - b) % 2 ^ 64

theorem sub64_of_le {a b : ℕ} (h : b ≤ a) (ha : a < 2 ^ 64) : sub64 a b = a - b := by
  unfold sub64
  omega

def startCongestionControl (s : Sending) : Sending :=
  { s with cc := { ccInit s.mss s.iss with ssthresh := 65535 <<< s.sndShift } }

def baseRto (t : Timers) : ℕ :=
  if !t.rtt.measured then rtoInitial else (t.rtt.rtoUs + usPerTick - 1) / usPerTick

def abortConnection (s : Socket) (error : ℕ) : Socket :=
  if s.listener.isSome || !s.userOpen then Socket.zero
  else { s with error := error, state := .closed
                tmr := { s.tmr with rtoDeadline := 0 }, rcv := { s.rcv with ackPending := false } }

/-- `rx_free`: room left in the receive ring. -/
def rxFree (r : Receiving) : ℕ := r.rxSize - r.rxLen

def ringLimit (s : Sending) : ℕ := if s.scaling then bufferMax else bufferMaxUnscaled

/-- The ring in a memory twice as large, if it may grow and there is memory; its head is then at
cell 0. -/
def growRing (limit : ℕ) (ring : Memory) (size head : ℕ) (kmalloc : Option Memory) :
    Option (Memory × ℕ) :=
  if size * 2 > limit then none
  else kmalloc.map fun bigger => (Ring.grow ring size head bigger, size * 2)

/-- `alloc_socket`: a free slot set up as a closed socket with both rings allocated. -/
def allocSocket (tx rx : Option Memory) (refuseSack : Bool) : Option Socket :=
  match tx, rx with
  | some tx, some rx => some
      { Socket.zero with
        used := true
        snd := { Socket.zero.snd with tx := tx, txSize := bufferSize, mss := defaultMss
                                      offerSack := !refuseSack }
        rcv := { Socket.zero.rcv with rx := rx, rxSize := bufferSize }
        tmr := { Socket.zero.tmr with rto := rtoInitial } }
  | _, _ => none

/-- `start_sequence`: our first sequence number, the random number `iss`. -/
def startSequence (s : Sending) (iss : Seq) : Sending :=
  { s with iss := iss, sndUna := iss, sndNxt := iss, sndMax := iss }

/-- `apply_syn_options`: what the options of the other end's SYN say. -/
def applySynOptions (s : Sending) (options : List UInt8) : Sending :=
  let o := parseOptions options
  { s with
    mss := match o.mss with
      | some mss => if mss ≥ 64 then (if mss < ourMss then mss else ourMss) else defaultMss
      | none => defaultMss
    scaling := o.wscale.isSome
    sndShift := o.wscale.getD 0
    rcvShift := if o.wscale.isSome then wscaleOurs else 0
    sackOk := s.offerSack && o.sackPermitted }

/-- `peer_window`: the window field of a segment that is not a SYN, in bytes. -/
def peerWindow (s : Sending) (g : Segment) : ℕ := g.window.toNat <<< s.sndShift

end Bashket.Tcp
