import Bashket.Tcp.Socket

/-!
# Sending

`sendWhatIsDue` is one critical section of `send_what_is_due`, which sends one segment. The four
ways a segment is chosen (`fastRetransmit`, `sackRepair`, `sendSyn`, `sendNew`) are functions of
their own, and `emitChoice` is what the source does with whatever was chosen.
-/

namespace Bashket.Tcp

open Serial

/-- What a branch of `send_what_is_due` has chosen to send, and the state it leaves. `fast`: sent
without moving `snd_nxt`. -/
structure Choice where
  snd : Sending
  timing : Bool
  dupAcksOwed : ℕ
  seq : Seq
  data : List UInt8
  flags : Flags
  fast : Bool

def dueBlocks (s : Socket) : List Range :=
  if s.snd.sackOk && !s.rcv.ooo.isEmpty then sackBlocks s.rcv.ooo s.rcv.oooRecent sackBlocksMax
  else []

/-- `segment_max`: what fits in one segment beside the SACK blocks. -/
def segmentMax (s : Socket) : ℕ :=
  s.snd.mss - (if (dueBlocks s).isEmpty then 0 else 4 + 8 * (dueBlocks s).length)

def sackRecovery (s : Sending) : Bool := s.sackOk && s.cc.inRecovery && s.synAcked

def holesFrom (s : Sending) : Seq := if gt s.rexmitNext s.sndUna then s.rexmitNext else s.sndUna

/-- `pipe`: an estimate of what is still in the network; `none` if `tcp_sack_hole_bytes` never
returns. -/
def pipeOf (s : Sending) : Option ℕ :=
  (sackHoleBytes s.sacked (holesFrom s)).map fun holes =>
    let outstanding := s.sndMax - s.sndUna
    let gone := sackBytes s.sacked + holes
    if outstanding.toNat > gone.toNat then (outstanding - gone).toNat else 0

def dueHole (s : Sending) : Option (Seq × Seq) :=
  match sackNextHole s.sacked (holesFrom s) with
  | some (start, len) =>
    if lt start (s.sndUna + BitVec.ofNat 32 s.txLen) then some (start, len) else none
  | none => none

/-- The branch of a fast retransmit: the oldest unacknowledged segment, once. -/
def fastRetransmit (s : Socket) : Choice :=
  let len := if s.snd.txLen < segmentMax s then s.snd.txLen else segmentMax s
  { snd := { s.snd with
      retransmitOne := false
      rexmitNext := if s.snd.sackOk then s.snd.sndUna + BitVec.ofNat 32 len else s.snd.rexmitNext }
    timing := s.tmr.timing
    dupAcksOwed := s.rcv.dupAcksOwed
    seq := s.snd.sndUna
    data := Ring.read s.snd.tx s.snd.txSize s.snd.txHead len
    flags := { Flags.none with ack := true, psh := true }
    fast := true }

/-- The branch that sends the next hole of the scoreboard again. -/
def sackRepair (s : Socket) (holeStart holeLen : Seq) : Choice :=
  let offset := (holeStart - s.snd.sndUna).toNat
  let len := if holeLen.toNat < segmentMax s then holeLen.toNat else segmentMax s
  -- wraps if the hole starts past the ring's end
  let left := sub64 s.snd.txLen offset
  let len := if len > left then left else len
  { snd := { s.snd with rexmitNext := holeStart + BitVec.ofNat 32 len }
    timing := false
    dupAcksOwed := s.rcv.dupAcksOwed
    seq := holeStart
    data := Ring.read s.snd.tx s.snd.txSize (s.snd.txHead + offset) len
    flags := { Flags.none with ack := true, psh := true }
    fast := true }

/-- The branch of a connection still opening: the SYN, once per (re)transmission. -/
def sendSyn (s : Socket) : Choice :=
  let due : Bool := s.snd.sndNxt = s.snd.iss
  { snd := if due then { s.snd with sndNxt := s.snd.iss + 1 } else s.snd
    timing := s.tmr.timing
    dupAcksOwed := s.rcv.dupAcksOwed
    seq := s.snd.sndNxt
    data := []
    flags := if due then { Flags.none with syn := true, ack := decide (s.state = .synReceived) }
      else Flags.none
    fast := false }

/-- How many bytes from `snd_nxt` on both windows let out now. -/
def usable (s : Socket) (pipe : ℕ) : ℕ :=
  let offset := (s.snd.sndNxt - s.snd.sndUna).toNat
  let unsent := s.snd.txLen - offset
  let congestion := s.snd.cc.cwnd +
    (if !s.snd.cc.inRecovery && 0 < s.snd.dupacks && s.snd.dupacks < 3 then
      s.snd.dupacks * s.snd.mss else 0)
  let window := if s.snd.sndWnd < congestion then s.snd.sndWnd else congestion
  let usable :=
    if sackRecovery s.snd then
      -- one segment of new data while `pipe` is below the window
      min (if pipe < s.snd.cc.cwnd then segmentMax s else 0) (s.snd.sndWnd - offset)
    else window - offset
  -- the receiver's window is closed and nothing is on its way: one byte to get an answer
  if s.snd.sndWnd = 0 ∧ offset = 0 ∧ unsent > 0 then 1 else usable

/-- From `snd_nxt` on: data, the FIN after the last byte, or a bare acknowledgement. -/
def sendNew (s : Socket) (pipe : ℕ) : Choice :=
  let offset := (s.snd.sndNxt - s.snd.sndUna).toNat
  let len := min (min (s.snd.txLen - offset) (usable s pipe)) (segmentMax s)
  let nxt := s.snd.sndNxt + BitVec.ofNat 32 len
  -- the sum of `snd_una` and `tx_len` has 64 bits: it does not wrap where sequence numbers do
  let fin : Bool := s.snd.finQueued && offset + len = s.snd.txLen &&
    nxt.toNat = s.snd.sndUna.toNat + s.snd.txLen
  let bare : Bool := len = 0 && !fin && (s.rcv.ackPending || s.rcv.dupAcksOwed > 0)
  { snd := { s.snd with sndNxt := if fin then nxt + 1 else nxt }
    timing := s.tmr.timing
    dupAcksOwed := if bare then s.rcv.dupAcksOwed - 1 else s.rcv.dupAcksOwed
    seq := s.snd.sndNxt
    data := Ring.read s.snd.tx s.snd.txSize (s.snd.txHead + offset) len
    flags := { fin := fin, syn := false, rst := false, psh := decide (len > 0)
               ack := decide (len > 0) || fin || bare }
    fast := false }

/-- What is due on a socket that may send; `none` if the estimate of `pipe` never returns. -/
def choose (s : Socket) : Option Choice :=
  let recovering := sackRecovery s.snd
  (if recovering then pipeOf s.snd else some 0).map fun pipe =>
    if s.snd.retransmitOne then fastRetransmit s
    else match (if recovering && pipe < s.snd.cc.cwnd then dueHole s.snd else none) with
      | some (holeStart, holeLen) => sackRepair s holeStart holeLen
      | none => if !s.snd.synAcked then sendSyn s else sendNew s pipe

/-- The window to offer, and the shift it is scaled by: in a SYN never scaled. -/
def offeredWindow (s : Socket) (syn : Bool) : ℕ × ℕ :=
  let shift := if syn then 0 else s.snd.rcvShift
  (min (rxFree s.rcv >>> shift) 0xFFFF, shift)

def dueOptions (s : Socket) (flags : Flags) : List UInt8 :=
  if flags.syn then
    let connecting : Bool := s.state = .synSent
    synOptions (if connecting || s.snd.scaling then some wscaleOurs else none)
      (if connecting then s.snd.offerSack else s.snd.sackOk)
  else if flags.ack && !(dueBlocks s).isEmpty then sackOption (dueBlocks s)
  else []

/-- The socket, the segment transmitted, and whether the loop goes round again. -/
structure SendResult where
  sock : Socket
  segment : Option OutSegment
  again : Bool

def emitChoice (s : Socket) (c : Choice) (clk : Clock) : SendResult :=
  if c.flags = Flags.none then
    { sock := { s with snd := c.snd, tmr := { s.tmr with timing := c.timing }
                       rcv := { s.rcv with dupAcksOwed := c.dupAcksOwed } }
      segment := none
      again := false }
  else
    let takes : Bool := !c.data.isEmpty || c.flags.syn || c.flags.fin
    let counted := takes && !c.fast
    -- Karn's rule: only what is sent for the first time is timed
    let starts := counted && !c.timing && !lt c.seq s.snd.sndMax
    let win := offeredWindow s c.flags.syn
    { sock := { s with
        snd := { c.snd with
          sndMax := if counted && gt c.snd.sndNxt c.snd.sndMax then c.snd.sndNxt
            else c.snd.sndMax }
        rcv := { s.rcv with
          dupAcksOwed := c.dupAcksOwed
          ackPending := s.rcv.ackPending && !c.flags.ack
          rcvAdv := s.rcv.rcvNxt + BitVec.ofNat 32 (win.1 <<< win.2) }
        tmr := { s.tmr with
          rtoDeadline := if counted && s.tmr.rtoDeadline = 0 then clk.ticks + s.tmr.rto
            else s.tmr.rtoDeadline
          timing := c.timing || starts
          timedEnd := if starts then c.snd.sndNxt else s.tmr.timedEnd
          timedAtNs := if starts then clk.ns else s.tmr.timedAtNs } }
      segment := some
        { ip := s.remoteIp, localPort := s.localPort, remotePort := s.remotePort
          seq := c.seq
          ack := if c.flags.ack then s.rcv.rcvNxt else 0
          flags := c.flags
          window := BitVec.ofNat 16 win.1
          options := dueOptions s c.flags
          data := c.data }
      again := takes || c.dupAcksOwed > 0 }

/-- One critical section of `send_what_is_due`; `none` if it never ends. -/
def sendWhatIsDue (s : Socket) (clk : Clock) : Option SendResult :=
  if !s.used || s.state = .closed || s.state = .listen then
    some { sock := s, segment := none, again := false }
  else (choose s).map fun c => emitChoice s c clk

theorem sendWhatIsDue_cases {s : Socket} {clk : Clock} {r : SendResult}
    (h : sendWhatIsDue s clk = some r) : r = ⟨s, none, false⟩ ∨ s.used = true ∧
      (s.state ≠ .closed ∧ s.state ≠ .listen) ∧ ∃ c, choose s = some c ∧ r = emitChoice s c clk := by
  unfold sendWhatIsDue at h
  split_ifs at h with hidle
  · exact .inl (Option.some.inj h).symm
  · obtain ⟨c, hc, rfl⟩ := Option.map_eq_some_iff.1 h
    simp only [Bool.or_eq_true, Bool.not_eq_true', decide_eq_true_eq, not_or,
      Bool.not_eq_false] at hidle
    exact .inr ⟨hidle.1.1, ⟨hidle.1.2, hidle.2⟩, c, hc, rfl⟩

end Bashket.Tcp
