import Bashket.Tcp.Socket

/-!
# Receiving

`tcp_input` on the socket a segment belongs to (the one `find_connection` found). The function is
cut at its comments into stages: the answer to our SYN (`inputSynSent`), the scoreboard
(`noteSack`), the acknowledgement (`takeAck`, with `process_ack`), the window (`takeWindow`) and
what the segment carries (`takeData`).
-/

namespace Bashket.Tcp

open Serial

/-- Where a stage of `tcp_input` leaves: at `goto done`, or on to the next stage. -/
inductive Stage where
  | done (s : Socket)
  | next (s : Socket)

/-- `ack_timed`: if the segment being timed is covered by `ack`, that is a round trip. -/
def ackTimed (t : Timers) (ack : Seq) (clk : Clock) : Timers :=
  if !t.timing || lt ack t.timedEnd then t
  else
    let elapsedUs := sub64 clk.ns t.timedAtNs / 1000
    let t := { t with timing := false, rtt := rttSample t.rtt (min elapsedUs 0xFFFFFFFF) }
    { t with rto := baseRto t }

/-- The first part of `process_ack`: the ring and the sequence numbers. -/
def ackRing (s : Sending) (ack : Seq) : Sending :=
  let acked := (ack - s.sndUna).toNat
  let dataAcked := if acked < s.txLen then acked else s.txLen
  { s with
    txHead := (s.txHead + dataAcked) % s.txSize
    txLen := s.txLen - dataAcked
    sndUna := ack
    sndNxt := if lt s.sndNxt ack then ack else s.sndNxt
    dupacks := 0
    retransmitOne := false
    sacked := sackPrune s.sacked ack }

/-- The second part: congestion control, and whether the segment the acknowledgement points at is
sent again. -/
def ackCongestion (s : Sending) (acked : ℕ) (ack : Seq) : Sending :=
  if s.sackOk && s.cc.inRecovery && !gt ack s.cc.recover then
    { s with retransmitOne := (sackNextHole s.sacked s.sndUna).isNone && s.txLen > 0 }
  else
    let r := ccNewAck s.cc s.mss acked ack (s.sndMax - ack).toNat
    { s with cc := r.1, retransmitOne := r.2 && s.txLen > 0 }

/-- `process_ack` up to the question whether our FIN is acknowledged too. -/
def ackTaken (s : Socket) (ack : Seq) (clk : Clock) : Socket :=
  let snd := ackCongestion (ackRing s.snd ack) (ack - s.snd.sndUna).toNat ack
  let tmr := ackTimed { s.tmr with timing := s.tmr.timing && !snd.retransmitOne } ack clk
  { s with
    snd := snd
    tmr := { tmr with
      rtoDeadline := if snd.sndUna = snd.sndMax then 0 else clk.ticks + tmr.rto } }

/-- The end of `process_ack`: our FIN has been acknowledged. -/
def finAcknowledged (s : Socket) (clk : Clock) : Socket :=
  let s := { s with snd := { s.snd with finQueued := false } }
  match s.state with
  | .finWait1 => { s with state := .finWait2 }
  | .closing => { s with state := .timeWait
                         tmr := { s.tmr with reapDeadline := clk.ticks + timeWaitTicks } }
  | .lastAck => if !s.userOpen then Socket.zero else { s with state := .closed }
  | _ => s

/-- `process_ack`: the other end acknowledged everything up to `ack`. -/
def processAck (s : Socket) (ack : Seq) (clk : Clock) : Socket :=
  if s.snd.finQueued && (ack - s.snd.sndUna).toNat > s.snd.txLen then
    finAcknowledged (ackTaken s ack clk) clk
  else ackTaken s ack clk

def inputSynSent (s : Socket) (g : Segment) (clk : Clock) : Socket :=
  let ackOk := g.flags.ack && g.ack = s.snd.iss + 1
  if g.flags.ack && !ackOk then s
  else if g.flags.rst then (if ackOk then abortConnection s ECONNREFUSED else s)
  else if g.flags.syn && ackOk then
    let snd := { s.snd with sndUna := g.ack, synAcked := true, sndWnd := g.window.toNat }
    { s with
      state := .established
      snd := startCongestionControl (applySynOptions snd g.options)
      rcv := { s.rcv with irs := g.seq, rcvNxt := g.seq + 1, ackPending := true }
      tmr := { ackTimed { s.tmr with rto := rtoInitial } g.ack clk with
        rtoDeadline := 0, retries := 0 } }
  else s

/-- A block goes on the scoreboard, unless it lies outside what the acknowledgement and `snd_max`
allow or there is no room. -/
def noteBlock (sndMax ack : Seq) (sacked : List Range) (b : Range) : List Range :=
  if !lt b.start b.stop || !gt b.start ack || gt b.stop sndMax then sacked
  else (oooAdd sacked b.start b.stop).getD sacked

def noteSack (s : Sending) (g : Segment) : Sending :=
  if s.sackOk && !g.options.isEmpty then
    { s with sacked := (parseOptions g.options).sack.foldl (noteBlock s.sndMax g.ack) s.sacked }
  else s

def handshakeDone (s : Socket) (ack : Seq) (clk : Clock) : Socket :=
  let s := { s with
    state := .established
    snd := startCongestionControl { s.snd with sndUna := ack, synAcked := true }
    tmr := { ackTimed { s.tmr with rto := rtoInitial } ack clk with rtoDeadline := 0, retries := 0 } }
  -- its listener closed during the handshake: nobody will accept it, so it closes now
  if s.listener.isNone && !s.userOpen then
    { s with state := .finWait1, snd := { s.snd with finQueued := true } }
  else s

/-- A duplicate acknowledgement of `snd_una`. -/
def dupAck (s : Socket) (ack : Seq) : Socket :=
  let snd := { s.snd with dupacks := if s.snd.dupacks < 255 then s.snd.dupacks + 1 else s.snd.dupacks }
  if snd.sackOk && snd.cc.inRecovery then { s with snd := snd }
  else
    let r := ccDupAck snd.cc snd.mss snd.dupacks ack snd.sndMax (snd.sndMax - snd.sndUna).toNat
    if r.2 then
      { s with
        snd := { snd with
          cc := if snd.sackOk then { r.1 with cwnd := r.1.ssthresh } else r.1
          retransmitOne := true
          rexmitNext := if snd.sackOk then snd.sndUna else snd.rexmitNext }
        tmr := { s.tmr with timing := false } }
    else { s with snd := { snd with cc := r.1 } }

/-- Is this segment a duplicate acknowledgement (RFC 5681, 2)? -/
def isDupAck (s : Sending) (g : Segment) : Bool :=
  g.ack = s.sndUna && g.data.isEmpty && !g.flags.fin && s.txLen > 0 &&
    s.sndUna ≠ s.sndMax && peerWindow s g = s.sndWnd

def takeAck (s : Socket) (g : Segment) (clk : Clock) : Stage :=
  if s.state = .synReceived then
    if g.ack ≠ s.snd.iss + 1 then .done s else .next (handshakeDone s g.ack clk)
  else if gt g.ack s.snd.sndMax then
    .done { s with rcv := { s.rcv with ackPending := true } }
  else if gt g.ack s.snd.sndUna then
    let s := processAck s g.ack clk
    if !s.used then .done s else .next s
  else if isDupAck s.snd g then .next (dupAck s g.ack)
  else .next s

/-- Any acceptable segment shows the other end is alive and tells its window. -/
def takeWindow (s : Socket) (g : Segment) (clk : Clock) : Socket :=
  let opened := s.snd.sndWnd = 0 && peerWindow s.snd g > 0
  let snd := { s.snd with sndWnd := peerWindow s.snd g }
  if opened && s.snd.sndUna ≠ s.snd.sndMax then
    { s with
      snd := { snd with sndNxt := s.snd.sndUna }
      tmr := { s.tmr with retries := 0, rto := rtoInitial, rtoDeadline := clk.ticks + rtoInitial } }
  else { s with snd := snd, tmr := { s.tmr with retries := 0 } }

def State.receiving : State → Bool
  | .established | .finWait1 | .finWait2 => true
  | _ => false

def Socket.keeping (s : Socket) : Bool := s.userOpen || s.listener.isSome

/-- Noted in the reassembly list; `none` if there is no room for it there. -/
def notedAhead (r : Receiving) (seq : Seq) (fits : ℕ) : Option (List Range) :=
  if fits = 0 then some r.ooo else oooAdd r.ooo seq (seq + BitVec.ofNat 32 fits)

/-- Data ahead of a gap is put at its place in the ring, `offset` cells after what is in order;
`fits` bytes of it fit. -/
def keepAt (r : Receiving) (seq : Seq) (data : List UInt8) (fin : Bool) (offset fits : ℕ)
    (ooo : List Range) : Receiving :=
  let tail := (r.rxHead + r.rxLen) % r.rxSize
  let keepsFin := fin && fits = data.length
  { r with
    ooo := ooo
    oooRecent := if fits > 0 then seq else r.oooRecent
    rx := Ring.write r.rxSize r.rx (tail + offset) (data.take fits)
    finKnown := r.finKnown || keepsFin
    finSeq := if keepsFin then seq + BitVec.ofNat 32 data.length else r.finSeq }

/-- Data ahead of a gap: what fits of it in the window is kept. -/
def keepOutOfOrder (r : Receiving) (seq : Seq) (data : List UInt8) (fin : Bool) : Receiving :=
  let offset := (seq - r.rcvNxt).toNat
  let room := rxFree r
  if offset < room then
    let fits := min data.length (room - offset)
    match notedAhead r seq fits with
    | none => r
    | some ooo => keepAt r seq data fin offset fits ooo
  else r

/-- Data that continues what is there, and what was kept ahead and is now reached. -/
def takeInOrder (r : Receiving) (keeping : Bool) (data : List UInt8) (fin : Bool) : Receiving :=
  let accepted := if !keeping then data.length
    else if data.length < rxFree r then data.length else rxFree r
  let tail := (r.rxHead + r.rxLen) % r.rxSize
  let nxt := r.rcvNxt + BitVec.ofNat 32 accepted
  let keepsFin := fin && accepted = data.length
  let reached := oooTake r.ooo nxt
  let nxt' := if r.ooo.isEmpty then nxt else reached.2
  { r with
    rx := if keeping then Ring.write r.rxSize r.rx tail (data.take accepted) else r.rx
    finKnown := r.finKnown || keepsFin
    finSeq := if keepsFin then nxt else r.finSeq
    ooo := reached.1
    dupAcksOwed := if r.ooo.isEmpty then r.dupAcksOwed else 0
    rcvNxt := nxt'
    rxLen := if keeping then r.rxLen + (nxt' - r.rcvNxt).toNat else r.rxLen
    rxFilled := r.rxFilled || (keeping && lt r.rcvAdv (nxt' + BitVec.ofNat 32 ourMss)) }

def takeFin (s : Socket) (receiving : Bool) (clk : Clock) : Socket :=
  if s.rcv.finKnown && s.rcv.finSeq = s.rcv.rcvNxt && receiving then
    let s := { s with
      rcv := { s.rcv with finKnown := false, rcvNxt := s.rcv.rcvNxt + 1, peerFin := true } }
    match s.state with
    | .established => { s with state := .closeWait }
    | .finWait1 => { s with state := .closing }
    | _ => { s with state := .timeWait
                    tmr := { s.tmr with reapDeadline := clk.ticks + timeWaitTicks } }
  else s

def takeAhead (s : Socket) (seq : Seq) (data : List UInt8) (fin : Bool) : Socket :=
  let rcv := if s.state.receiving && s.keeping then keepOutOfOrder s.rcv seq data fin else s.rcv
  { s with rcv := { rcv with
      dupAcksOwed := if rcv.dupAcksOwed < dupAcksOwedMax then rcv.dupAcksOwed + 1
        else rcv.dupAcksOwed
      ackPending := true } }

/-- Data (or a FIN) at `rcv_nxt`. -/
def takeNext (s : Socket) (data : List UInt8) (fin : Bool) (clk : Clock) : Socket :=
  let rcv := if s.state.receiving then takeInOrder s.rcv s.keeping data fin else s.rcv
  let t := takeFin { s with rcv := rcv } s.state.receiving clk
  { t with rcv := { t.rcv with ackPending := true } }

/-- How much of what a segment carries is a repeat of what is already in. -/
def repeated (r : Receiving) (g : Segment) : ℕ :=
  if lt g.seq r.rcvNxt then (r.rcvNxt - g.seq).toNat else 0

def takeData (s : Socket) (g : Segment) (clk : Clock) : Socket :=
  if g.data.isEmpty && !g.flags.fin then s
  else if lt g.seq s.rcv.rcvNxt && repeated s.rcv g ≥ g.data.length + g.flags.fin.toNat then
    { s with rcv := { s.rcv with ackPending := true } }
  else
    let skip := min (repeated s.rcv g) g.data.length
    let data := g.data.drop skip
    let seq := g.seq + BitVec.ofNat 32 skip
    if seq ≠ s.rcv.rcvNxt then takeAhead s seq data g.flags.fin
    else takeNext s data g.flags.fin clk

/-- `tcp_input` for the socket the segment belongs to.  (A reset sent in answer is no part of the
socket.) -/
def tcpInput (s : Socket) (g : Segment) (clk : Clock) : Socket :=
  if s.state = .synSent then inputSynSent s g clk
  else if g.flags.rst then
    if g.seq = s.rcv.rcvNxt then
      abortConnection s (if s.state = .synReceived then ECONNREFUSED else ECONNRESET)
    else s
  else if g.flags.syn then
    -- the other end did not get our SYN+ACK and is asking again
    if s.state = .synReceived ∧ g.seq = s.rcv.irs then
      { s with snd := { s.snd with sndNxt := s.snd.iss } }
    else s
  else if !g.flags.ack then s
  else
    match takeAck { s with snd := noteSack s.snd g } g clk with
    | .done s => s
    | .next s => takeData (takeWindow s g clk) g clk

theorem tcpInput_next {s s' : Socket} {g : Segment} {clk : Clock} (hs : s.state ≠ .synSent)
    (hrst : g.flags.rst = false) (hsyn : g.flags.syn = false) (hack : g.flags.ack = true)
    (h : takeAck { s with snd := noteSack s.snd g } g clk = .next s') :
    tcpInput s g clk = takeData (takeWindow s' g clk) g clk := by
  simp [tcpInput, hs, hrst, hsyn, hack, h]

/-! ### What a segment does -/

/-- What the window and the data of a segment do to the rest of a socket. -/
inductive Tail (s : Socket) (clk : Clock) : Socket → Prop
  | kept (wnd : ℕ) (rcv : Receiving) :
      Tail s clk { s with snd := { s.snd with sndWnd := wnd }, rcv := rcv
                          tmr := { s.tmr with retries := 0 } }
  | reopened (hne : s.snd.sndUna ≠ s.snd.sndMax) (wnd : ℕ) (rcv : Receiving) :
      Tail s clk
        { s with
          snd := { s.snd with sndWnd := wnd, sndNxt := s.snd.sndUna }
          rcv := rcv
          tmr := { s.tmr with
            retries := 0
            rto := rtoInitial
            rtoDeadline := clk.ticks + rtoInitial } }
  | fin {t : Socket} (ht : Tail s clk t) (rcv : Receiving) {st : State}
      (hst : t.state = .established ∧ st = .closeWait ∨ t.state = .finWait1 ∧ st = .closing) :
      Tail s clk { t with state := st, rcv := rcv }
  | lastFin {t : Socket} (ht : Tail s clk t) (rcv : Receiving) (hst : t.state = .finWait2) :
      Tail s clk
        { t with
          state := .timeWait
          rcv := rcv
          tmr := { t.tmr with reapDeadline := clk.ticks + timeWaitTicks } }

theorem taken_tail (s : Socket) (g : Segment) (clk : Clock) :
    Tail s clk (takeData (takeWindow s g clk) g clk) := by
  have hw (rcv : Receiving) : Tail s clk { takeWindow s g clk with rcv := rcv } := by
    unfold takeWindow
    simp only
    split_ifs with hopen
    · rw [Bool.and_eq_true, decide_eq_true_eq] at hopen
      exact .reopened hopen.2 _ rcv
    · exact .kept _ rcv
  generalize takeWindow s g clk = t at hw
  unfold takeData
  simp only
  split_ifs
  · exact hw t.rcv
  · exact hw _
  · exact hw _
  · unfold takeNext
    generalize (if t.state.receiving then takeInOrder _ _ _ _ else _) = rcv
    unfold takeFin
    simp only
    split_ifs with hfin
    · rw [Bool.and_eq_true] at hfin
      cases hst : t.state with
      | established => exact .fin (hw _) _ (.inl ⟨hst, rfl⟩)
      | finWait1 => exact .fin (hw _) _ (.inr ⟨hst, rfl⟩)
      | finWait2 => exact .lastFin (hw _) _ hst
      | _ =>
        rw [hst] at hfin
        cases hfin.2
    · exact hw _

theorem Tail.snd {s t : Socket} {clk : Clock} (ht : Tail s clk t) :
    ∃ wnd nxt, t.snd = { s.snd with sndWnd := wnd, sndNxt := nxt } ∧
      (nxt = s.snd.sndNxt ∨ s.snd.sndUna ≠ s.snd.sndMax ∧ nxt = s.snd.sndUna) := by
  induction ht with
  | kept wnd => exact ⟨wnd, _, rfl, .inl rfl⟩
  | reopened hne wnd => exact ⟨wnd, _, rfl, .inr ⟨hne, rfl⟩⟩
  | fin _ _ _ ih | lastFin _ _ _ ih => exact ih

theorem Tail.state {s t : Socket} {clk : Clock} (ht : Tail s clk t) :
    t.state = s.state ∨ s.state.receiving = true ∧
      (t.state = .closeWait ∨ t.state = .closing ∨ t.state = .timeWait) := by
  induction ht with
  | kept | reopened => exact .inl rfl
  | fin _ _ hst ih =>
    rcases hst with ⟨hst, rfl⟩ | ⟨hst, rfl⟩ <;> rw [hst] at ih
    · exact .inr ⟨ih.elim (fun h0 => h0 ▸ rfl) And.left, .inl rfl⟩
    · exact .inr ⟨ih.elim (fun h0 => h0 ▸ rfl) And.left, .inr (.inl rfl)⟩
  | lastFin _ _ hst ih =>
    rw [hst] at ih
    exact .inr ⟨ih.elim (fun h0 => h0 ▸ rfl) And.left, .inr (.inr rfl)⟩

theorem noteSack_eq (s : Sending) (g : Segment) :
    noteSack s g = { s with sacked := (noteSack s g).sacked } := by
  unfold noteSack
  split_ifs <;> rfl

abbrev Socket.noted (s : Socket) (g : Segment) : Socket :=
  { s with snd := { s.snd with sacked := (noteSack s.snd g).sacked } }

/-- The answer to our SYN has come. -/
def synAnswered (s : Socket) (g : Segment) (clk : Clock) : Socket :=
  { s with
    state := .established
    snd := startCongestionControl (applySynOptions
      { s.snd with sndUna := g.ack, synAcked := true, sndWnd := g.window.toNat } g.options)
    rcv := { s.rcv with irs := g.seq, rcvNxt := g.seq + 1, ackPending := true }
    tmr := { ackTimed { s.tmr with rto := rtoInitial } g.ack clk with
      rtoDeadline := 0, retries := 0 } }

/-- A segment whose acknowledgement is looked at outside `SYN_SENT`. -/
def Segment.Acks (g : Segment) : Prop :=
  g.flags.rst = false ∧ g.flags.syn = false ∧ g.flags.ack = true

/-- What `tcp_input` makes of a segment. -/
inductive Receives (s : Socket) (g : Segment) (clk : Clock) : Socket → Prop
  | ignored (hg : s.state ≠ .synSent → ¬g.Acks) : Receives s g clk s
  | reset {error : ℕ} (he : error ≠ 0) : Receives s g clk (abortConnection s error)
  | connected (hst : s.state = .synSent) (hack : g.ack = s.snd.iss + 1)
      (hg : g.flags.ack = true ∧ g.flags.rst = false ∧ g.flags.syn = true) :
      Receives s g clk (synAnswered s g clk)
  | again (hst : s.state = .synReceived) :
      Receives s g clk { s with snd := { s.snd with sndNxt := s.snd.iss } }
  | stray (hst : s.state = .synReceived) (hg : g.Acks) (hack : g.ack ≠ s.snd.iss + 1) :
      Receives s g clk (s.noted g)
  | opened (hst : s.state = .synReceived) (hg : g.Acks) (hack : g.ack = s.snd.iss + 1) :
      Receives s g clk
        (takeData (takeWindow (handshakeDone (s.noted g) g.ack clk) g clk) g clk)
  | beyond (hst : s.state ≠ .synSent ∧ s.state ≠ .synReceived) (hg : g.Acks)
      (hmax : gt g.ack s.snd.sndMax = true) :
      Receives s g clk
        { s.noted g with rcv := { s.rcv with ackPending := true } }
  | freed (hst : s.state ≠ .synSent ∧ s.state ≠ .synReceived) (hg : g.Acks)
      (hmax : gt g.ack s.snd.sndMax = false) (huna : gt g.ack s.snd.sndUna = true) :
      Receives s g clk (processAck (s.noted g) g.ack clk)
  | acked (hst : s.state ≠ .synSent ∧ s.state ≠ .synReceived) (hg : g.Acks)
      (hmax : gt g.ack s.snd.sndMax = false) (huna : gt g.ack s.snd.sndUna = true)
      (hu : (processAck (s.noted g) g.ack clk).used = true) :
      Receives s g clk
        (takeData (takeWindow (processAck (s.noted g) g.ack clk) g clk) g clk)
  | dup (hst : s.state ≠ .synSent ∧ s.state ≠ .synReceived) (hg : g.Acks)
      (hmax : gt g.ack s.snd.sndMax = false) (huna : gt g.ack s.snd.sndUna = false)
      (hd : isDupAck s.snd g = true) :
      Receives s g clk (takeData (takeWindow (dupAck (s.noted g) g.ack) g clk) g clk)
  | old (hst : s.state ≠ .synSent ∧ s.state ≠ .synReceived) (hg : g.Acks)
      (hd : isDupAck s.snd g = false) :
      Receives s g clk (takeData (takeWindow (s.noted g) g clk) g clk)

theorem tcpInput_receives (s : Socket) (g : Segment) (clk : Clock) :
    Receives s g clk (tcpInput s g clk) := by
  unfold tcpInput
  by_cases hsyn : s.state = .synSent
  · rw [if_pos hsyn]
    unfold inputSynSent
    simp only
    split_ifs with hnack hrst hok hgsyn
    · exact .ignored fun h0 => absurd hsyn h0
    · exact .reset (by decide)
    · exact .ignored fun h0 => absurd hsyn h0
    · simp only [Bool.and_eq_true, decide_eq_true_eq] at hgsyn
      exact .connected hsyn hgsyn.2.2 ⟨hgsyn.2.1, Bool.not_eq_true _ ▸ hrst, hgsyn.1⟩
    · exact .ignored fun h0 => absurd hsyn h0
  rw [if_neg hsyn]
  split_ifs with hrst hseq hst hgsyn hagain hack
  · exact .reset (by decide)
  · exact .reset (by decide)
  · exact .ignored fun _ h => by simp [h.1] at hrst
  · exact .again hagain.1
  · exact .ignored fun _ h => by simp [h.2.1] at hgsyn
  · exact .ignored fun _ h => by simp [h.2.2] at hack
  · have hg : g.Acks := by simpa [Segment.Acks, hrst, hgsyn] using hack
    rw [noteSack_eq]
    unfold takeAck
    simp only
    by_cases hrec : s.state = .synReceived
    · rw [if_pos hrec]
      split_ifs with hne
      · exact .stray hrec hg hne
      · exact .opened hrec hg (not_not.1 hne)
    rw [if_neg hrec]
    split_ifs with h1 h2 h3 h4
    · exact .beyond ⟨hsyn, hrec⟩ hg h1
    · exact .freed ⟨hsyn, hrec⟩ hg (Bool.not_eq_true _ ▸ h1) h2
    · exact .acked ⟨hsyn, hrec⟩ hg (Bool.not_eq_true _ ▸ h1) h2 (by simpa using h3)
    · exact .dup ⟨hsyn, hrec⟩ hg (Bool.not_eq_true _ ▸ h1) (Bool.not_eq_true _ ▸ h2) h4
    · exact .old ⟨hsyn, hrec⟩ hg (Bool.not_eq_true _ ▸ h4)

end Bashket.Tcp
