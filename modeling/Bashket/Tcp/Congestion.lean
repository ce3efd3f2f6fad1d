import Bashket.Tcp.Ranges

/-!
# Round trips and the congestion window

The round-trip estimate (`tcp_rtt_sample`) and congestion control (`tcp_cc_…`) of `tcp.c`. Sizes and
times are natural numbers here: every one of them stays far below the 32 bits it has in the source.
`recover` is a sequence number and wraps.
-/

namespace Bashket.Tcp

open Serial

def rtoMinUs : ℕ := 200000

def rtoMaxUs : ℕ := 3000000

def clockGranularityUs : ℕ := 10000

/-- `TCP_BUFFER_MAX`: what a ring may grow to with window scaling. -/
def bufferMax : ℕ := 256 * 1024

def cwndMax : ℕ := 4 * bufferMax

structure Rtt where
  srttUs : ℕ
  rttvarUs : ℕ
  rtoUs : ℕ
  measured : Bool
deriving DecidableEq, Repr

/-- `tcp_rtt_sample`: fold one measurement `r` into the estimate. -/
def rttSample (t : Rtt) (r : ℕ) : Rtt :=
  let rttvar := if !t.measured then r / 2 else
    t.rttvarUs - t.rttvarUs / 4 + (if t.srttUs > r then t.srttUs - r else r - t.srttUs) / 4
  let srtt := if !t.measured then r else t.srttUs - t.srttUs / 8 + r / 8
  let variance := 4 * rttvar
  let rto := srtt + (if variance > clockGranularityUs then variance else clockGranularityUs)
  let rto := if rto < rtoMinUs then rtoMinUs else rto
  let rto := if rto > rtoMaxUs then rtoMaxUs else rto
  { srttUs := srtt, rttvarUs := rttvar, rtoUs := rto, measured := true }

structure Cc where
  cwnd : ℕ
  ssthresh : ℕ
  inRecovery : Bool
  recover : Seq
deriving DecidableEq, Repr

/-- `half_flight`: the new ssthresh after a loss. -/
def halfFlight (smss flight : ℕ) : ℕ :=
  let half := flight / 2
  if half > 2 * smss then half else 2 * smss

/-- `grown`: a window grown by `by`, no further than `cwndMax`. -/
def grown (cwnd more : ℕ) : ℕ :=
  if cwnd ≥ cwndMax then cwndMax
  else if more > cwndMax - cwnd then cwndMax else cwnd + more

def ccInit (smss : ℕ) (iss : Seq) : Cc where
  cwnd := if smss > 2190 then 2 * smss else if smss > 1095 then 3 * smss else 4 * smss
  ssthresh := 65535
  inRecovery := false
  recover := iss

/-- `tcp_cc_new_ack`: the new state, and whether this was a partial acknowledgement. -/
def ccNewAck (cc : Cc) (smss acked : ℕ) (ack : Seq) (flight : ℕ) : Cc × Bool :=
  if cc.inRecovery then
    if gt ack cc.recover then
      let floor := (if flight > smss then flight else smss) + smss
      ({ cc with cwnd := if cc.ssthresh < floor then cc.ssthresh else floor
                 inRecovery := false }, false)
    else
      let cwnd := if cc.cwnd > acked then cc.cwnd - acked else 0
      let cwnd := if acked ≥ smss then cwnd + smss else cwnd
      ({ cc with cwnd := if cwnd < smss then smss else cwnd }, true)
  else if cc.cwnd < cc.ssthresh then
    ({ cc with cwnd := grown cc.cwnd (if acked < smss then acked else smss) }, false)
  else
    let step := smss * smss / cc.cwnd
    ({ cc with cwnd := grown cc.cwnd (if step > 0 then step else 1) }, false)

/-- `tcp_cc_dup_ack`: the new state, and whether the segment at `ack` must be sent again now. -/
def ccDupAck (cc : Cc) (smss count : ℕ) (ack sndMax : Seq) (flight : ℕ) : Cc × Bool :=
  if cc.inRecovery then ({ cc with cwnd := grown cc.cwnd smss }, false)
  else if count ≠ 3 then (cc, false)
  else if !gt ack cc.recover then (cc, false)
  else
    let ssthresh := halfFlight smss flight
    ({ cwnd := grown ssthresh (3 * smss), ssthresh := ssthresh, inRecovery := true
       recover := sndMax - 1 }, true)

def ccTimeout (cc : Cc) (smss flight : ℕ) (sndMax : Seq) (first : Bool) : Cc where
  cwnd := smss
  ssthresh := if first then halfFlight smss flight else cc.ssthresh
  inRecovery := false
  recover := sndMax - 1

theorem ccNewAck_inRecovery (cc : Cc) (smss acked : ℕ) (ack : Seq) (flight : ℕ) :
    (ccNewAck cc smss acked ack flight).1.inRecovery =
      (cc.inRecovery && !gt ack cc.recover) := by
  unfold ccNewAck
  split_ifs with hr hg hs <;> simp_all

@[simp] theorem ccNewAck_recover (cc : Cc) (smss acked : ℕ) (ack : Seq) (flight : ℕ) :
    (ccNewAck cc smss acked ack flight).1.recover = cc.recover := by
  unfold ccNewAck
  split_ifs <;> rfl

/-- It leaves `recover` alone unless it starts a recovery, which ends just below the highest byte
sent. -/
theorem ccDupAck_cases (cc : Cc) (smss count : ℕ) (ack sndMax : Seq) (flight : ℕ) :
    ((ccDupAck cc smss count ack sndMax flight).2 = false ∧
      (ccDupAck cc smss count ack sndMax flight).1.inRecovery = cc.inRecovery ∧
      (ccDupAck cc smss count ack sndMax flight).1.recover = cc.recover) ∨
    ((ccDupAck cc smss count ack sndMax flight).2 = true ∧ cc.inRecovery = false ∧
      (ccDupAck cc smss count ack sndMax flight).1.inRecovery = true ∧
      (ccDupAck cc smss count ack sndMax flight).1.recover = sndMax - 1) := by
  unfold ccDupAck
  split_ifs with hr <;> simp_all

end Bashket.Tcp
