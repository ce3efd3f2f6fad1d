import Bashket.Tcp.StreamRuns

/-!
# What goes out

`OnStream`: a segment carries the bytes written, at their numbers, and a FIN only after the last.
`WithinLimits`: the numbers it takes are below `snd_max` once it is sent, and what is sent for the
first time is in the receiver's window. Both hold in every run in which the scoreboard stays near
(`SackNear`) and, for the second, a fast retransmit finds a whole segment already sent
(`RetransmitSent`).
-/

namespace Bashket.Tcp

open Serial Run

/-- Each byte is the byte of the stream that its number says, among the last `bufferMax` written,
and a FIN follows the last byte written. -/
def OnStream (c : Conn) (g : OutSegment) : Prop :=
  (∀ i < g.data.length, ∃ k < c.written.length, g.data[i]? = c.written[k]? ∧
    c.written.length ≤ k + bufferMax ∧
    g.seq + BitVec.ofNat 32 i = c.sock.snd.iss + 1 + BitVec.ofNat 32 k) ∧
  (g.flags.fin = true → g.seq + BitVec.ofNat 32 g.data.length =
    c.sock.snd.iss + 1 + BitVec.ofNat 32 c.written.length)

def EmitsStream (c : Conn) (e : Event) : Prop := ∀ g ∈ (emitted c e).toList, OnStream c g

/-- Every number is below `snd_max` once it is sent, and every byte not sent before is in the
receiver's window, or is a probe of a closed one. -/
def WithinLimits (c c' : Conn) (g : OutSegment) : Prop :=
  (∀ i < g.data.length + g.flags.fin.toNat,
    lt (g.seq + BitVec.ofNat 32 i) c'.sock.snd.sndMax = true) ∧
  (∀ i < g.data.length, ¬WasSent c.sent (c.posOf g.seq + i) →
    (g.seq + BitVec.ofNat 32 i - c.sock.snd.sndUna).toNat < c.sock.snd.sndWnd ∨
    c.sock.snd.sndWnd = 0 ∧ g.data.length = 1 ∧ g.seq = c.sock.snd.sndUna)

def EmitsWithinLimits (c : Conn) (e : Event) : Prop :=
  ∀ g ∈ (emitted c e).toList, g.data ≠ [] → WithinLimits c (step c e) g

/-- A fast retransmit finds the segment it sends already sent. -/
def RetransmitSent (c : Conn) : Event → Prop
  | .send _ => c.sock.connected = true → c.sock.snd.retransmitOne = true →
      min c.sock.snd.txLen (segmentMax c.sock) ≤ (c.sock.snd.sndMax - c.sock.snd.sndUna).toNat
  | _ => True

/-- A segment that completes the handshake finds the SYN sent. -/
def SynWasSent (c : Conn) : Event → Prop
  | .input g _ => c.sock.connected = true → completesHandshake c.sock g = true →
      c.sock.snd.sndMax ≠ c.sock.snd.iss
  | _ => True

instance (sent : List Emission) (p : ℕ) : Decidable (WasSent sent p) := by
  unfold WasSent
  infer_instance

instance (c : Conn) (g : OutSegment) : Decidable (OnStream c g) := by
  unfold OnStream
  infer_instance

instance (c : Conn) (e : Event) : Decidable (EmitsStream c e) := by
  unfold EmitsStream
  infer_instance

instance (c c' : Conn) (g : OutSegment) : Decidable (WithinLimits c c' g) := by
  unfold WithinLimits
  infer_instance

instance (c : Conn) (e : Event) : Decidable (EmitsWithinLimits c e) := by
  unfold EmitsWithinLimits
  infer_instance

/-! ### The segment chosen -/

section Choice

variable {late : Prop} {s : Socket} {ch : Choice} {W : List UInt8} {sent : List Emission}

theorem Phase.sends (hp : Phase late s.state s.snd) (hr : RingOk s.snd)
    (hst : s.state ≠ .closed ∧ s.state ≠ .listen) (hc : choose s = some ch)
    (hd : ch.data ≠ [] ∨ ch.flags.fin = true) :
    Normal s.snd ∧ s.snd.synAcked = true ∧ (s.state = .established ∨ s.state = .closeWait ∨
      s.state = .finWait1 ∨ s.state = .closing ∨ s.state = .lastAck) := by
  have hquiet (hq : Quiet s.snd) (hnxt : s.snd.synAcked = true → s.snd.sndNxt = s.snd.sndUna) :
      False := by
    rcases choose_cases hc with ⟨hone, rfl⟩ | ⟨-, hrec, a, b, -, rfl⟩ | ⟨-, -, rfl⟩ | ⟨-, ha, p, rfl⟩
    · rw [hq.retransmitOne] at hone
      cases hone
    · rw [sackRecovery, hq.inRecovery] at hrec
      simp at hrec
    · rcases hd with hd | hd
      · exact hd rfl
      · simp only [Tcp.sendSyn] at hd
        split_ifs at hd <;> cases hd
    · obtain ⟨h1, h2⟩ := sendNew_counted_false (sendNew_idle hr hq.txLen hq.finQueued (hnxt ha) p).1
      rcases hd with hd | hd
      · exact hd h1
      · exact Bool.false_ne_true (h2.symm.trans hd)
  generalize hs : s.state = st at hp hst
  cases st with
  | closed | listen => simp at hst
  | synSent => exact (hquiet hp.1.quiet fun ha => (hp.2 ha).1.trans hp.1.una.symm).elim
  | synReceived => exact (hquiet hp.1.quiet fun ha => absurd (hp.2.symm.trans ha) (by decide)).elim
  | established | closeWait | finWait1 | closing | lastAck =>
    refine ⟨?_, hp.2.1, by decide⟩
    rcases hp.1 with hn | ⟨-, hb⟩
    · exact hn
    · obtain ⟨-, h1, h2⟩ := choose_behind ⟨0, 0⟩ hb hr hp.2.1 hc
      rcases hd with hd | hd
      · exact absurd h1 hd
      · exact absurd (h2.symm.trans hd) (by decide)
  | finWait2 | timeWait => exact (hquiet hp.1.quiet fun _ => hp.1.nxt).elim

theorem Stream.inRing (hs : Stream W sent s.snd) (hn : Normal s.snd) (hr : RingOk s.snd)
    (ha : s.snd.synAcked = true) (hc : choose s = some ch)
    (hd : ch.data ≠ [] ∨ ch.flags.fin = true) : ∃ off, InRing s.snd ch off := by
  rcases choose_cases hc with ⟨-, rfl⟩ | ⟨-, hrec, a, b, hhole, rfl⟩ | ⟨-, hna, rfl⟩ | ⟨-, -, p, rfl⟩
  · exact ⟨0, fastRetransmit_inRing s⟩
  · rw [sackRecovery, Bool.and_eq_true, Bool.and_eq_true] at hrec
    exact ⟨_, sackRepair_inRing _ (dueHole_spec hn hr ha hs.scored hs.rexmitting hrec.1.2 hrec.1.1
      hhole).1 hr⟩
  · rw [ha] at hna
    cases hna
  · refine ⟨_, sendNew_inRing hn hr ?_⟩
    by_contra hcount
    obtain ⟨h1, h2⟩ := sendNew_counted_false (Bool.not_eq_true _ ▸ hcount)
    rcases hd with hd | hd
    · exact hd h1
    · exact Bool.false_ne_true (h2.symm.trans hd)

end Choice

variable {c c' : Conn} {e : Event} {g : OutSegment} {ch : Choice} {off : ℕ} {late : Prop}

/-! ### The stream -/

theorem emitted_spec (h : g ∈ (emitted c e).toList) :
    ∃ clk ch, e = .send clk ∧ c.sock.used = true ∧
      (c.sock.state ≠ .closed ∧ c.sock.state ≠ .listen) ∧ choose c.sock = some ch ∧
      (step c e).sock = (emitChoice c.sock ch clk).sock ∧ g.seq = ch.seq ∧ g.data = ch.data ∧
      g.flags = ch.flags := by
  cases e with
  | send clk =>
    simp only [emitted, Option.mem_toList, Option.bind_eq_some_iff] at h
    obtain ⟨r, hr, hg⟩ := h
    have hstep : (step c (.send clk)).sock = r.sock := by simp only [step, hr]
    rcases sendWhatIsDue_cases hr with rfl | ⟨hu, hopen, ch, hc, rfl⟩
    · cases hg
    · rcases emitChoice_segment c.sock ch clk with ⟨-, h0⟩ | ⟨g', h0, h1, h2, h3⟩
      · rw [h0] at hg
        cases hg
      · rw [h0] at hg
        cases hg
        exact ⟨clk, ch, rfl, hu, hopen, hc, hstep, h1, h2, h3⟩
  | _ => cases h

theorem Stream.byte {W : List UInt8} {sent : List Emission} {s : Sending} (hs : Stream W sent s)
    {i : ℕ} (hi : i < s.txLen) :
    W[s.first W + i]? = some (s.tx ((s.txHead + i) % s.txSize)) := by
  rw [← List.getElem?_drop, ← hs.ring, List.getElem?_eq_getElem (by simpa using hi),
    Ring.getElem_read]

theorem InRing.onStream (h : InRing c.sock.snd ch off) (hs : Stream c.written c.sent c.sock.snd)
    (hr : RingOk c.sock.snd) (hseq : g.seq = ch.seq) (hdata : g.data = ch.data)
    (hflags : g.flags = ch.flags) : OnStream c g := by
  have hlen := hs.len
  have hfits := h.fits
  have hmax := hr.txLen_le
  have hfirst : c.sock.snd.first c.written + c.sock.snd.txLen = c.written.length := by
    rw [Sending.first]
    omega
  have hnum (n : ℕ) : g.seq + BitVec.ofNat 32 n =
      c.sock.snd.iss + 1 + BitVec.ofNat 32 (c.sock.snd.first c.written + (off + n)) := by
    rw [hseq, h.seq, hs.una]
    simp only [BitVec.ofNat_add, BitVec.add_assoc]
  refine ⟨fun i hi => ?_, fun hfin => ?_⟩
  · rw [hdata] at hi
    refine ⟨c.sock.snd.first c.written + (off + i), by omega, ?_, ?_, hnum i⟩
    · rw [hs.byte (by omega), hdata, h.data,
        List.getElem?_eq_getElem (by rwa [Ring.length_read]), Ring.getElem_read, Nat.add_assoc]
    · rw [bufferMax_eq]
      omega
  · rw [hflags] at hfin
    rw [hnum, hdata, (h.fin hfin).2, hfirst]

theorem along_carries {es : List Event} (hready : Along step (HandshakeReady late) Conn.init es)
    (hnear : Along step SackNear Conn.init es) :
    Along step (fun c _ => SocketInv late c.sock ∧ Carries c.written c.sent c.sock)
      Conn.init es := by
  refine (Along.with_invariant (I := fun c => SocketInv late c.sock ∧
    Carries c.written c.sent c.sock) (fun c e hI hP => ?_) ?_ (hready.and hnear)).mono
    fun c e h => h.1
  · exact ⟨step_inv c e hI.1 hP.1, step_carries c e hI.1 hI.2 hP.1 hP.2⟩
  · exact ⟨SocketInv.zero, Carries.zero⟩

theorem emitsStream_of_carries (hinv : SocketInv late c.sock)
    (hc : Carries c.written c.sent c.sock) : EmitsStream c e := by
  intro g hg
  obtain ⟨clk, ch, rfl, hu, hst, hch, -, hseq, hdata, hflags⟩ := emitted_spec hg
  have he := hinv.error_eq_zero hst.1
  have hr := hinv.ring hu
  by_cases hd : ch.data ≠ [] ∨ ch.flags.fin = true
  · obtain ⟨hn, ha, hopen⟩ := (hinv.phase hu he).sends hr hst hch hd
    have hs := (hc hu he).stream hopen
    obtain ⟨off, hin⟩ := hs.inRing hn hr ha hch hd
    exact hin.onStream hs hr hseq hdata hflags
  · rw [not_or, not_not] at hd
    refine ⟨fun i hi => ?_, fun hfin => ?_⟩
    · rw [hdata, hd.1] at hi
      exact absurd hi (Nat.not_lt_zero i)
    · rw [hflags] at hfin
      exact absurd hfin hd.2

/-- If the sender's numbers stay in order and the scoreboard near, everything sent is on the
stream. -/
theorem emitsStream_of_sackNear (es : List Event) (hord : Always step SeqOrdered Conn.init es)
    (hnear : Along step SackNear Conn.init es) : Along step EmitsStream Conn.init es := by
  have hsyn := (always_iff_noSynPending (fun _ h => (senderInOrder_of_inv h).seqOrdered)
    (fun _ h => h) es SocketInv.zero).1 hord
  have hready := hsyn.mono fun c e h => (noSynPending_iff c e).1 h
  exact (along_carries hready hnear).mono fun c e h => emitsStream_of_carries h.1 h.2

/-! ### The limits -/

/-- Sent again from the ring, below `snd_max`: nothing in it is sent for the first time. -/
theorem InRing.resent (h : InRing c.sock.snd ch off) (hs : Stream c.written c.sent c.sock.snd)
    (hn : Normal c.sock.snd) (hr : RingOk c.sock.snd) (hseq : g.seq = ch.seq)
    (hdata : g.data = ch.data) (hfin : g.flags.fin = false)
    (hmax : c'.sock.snd.sndMax = c.sock.snd.sndMax)
    (hle : off + ch.data.length ≤ ahead c.sock.snd.sndUna c.sock.snd.sndMax) :
    WithinLimits c c' g := by
  have hm := hn.maxOff_le hr
  have hfits := h.fits
  have hoff : ahead c.sock.snd.sndUna g.seq = off := by
    rw [hseq, h.seq, ahead_add _ (by omega)]
  refine ⟨fun i hi => ?_, fun i hi hnot => absurd ?_ hnot⟩
  · rw [hfin, hdata, Bool.toNat_false, Nat.add_zero] at hi
    have hnum : ahead c.sock.snd.sndUna (g.seq + BitVec.ofNat 32 i) = off + i := by
      rw [ahead_add_of_lt (by omega), hoff]
    rw [hmax, lt_iff (u := c.sock.snd.sndUna) (by omega) (by omega)]
    omega
  · rw [hdata] at hi
    change WasSent c.sent (c.sock.snd.first c.written + ahead c.sock.snd.sndUna g.seq + i)
    rw [hoff, Nat.add_assoc]
    exact hs.wasSent _ (by omega)

theorem sendNew_withinLimits {pipe : ℕ} {clk : Clock} (hn : Normal c.sock.snd)
    (hr : RingOk c.sock.snd) (hseq : g.seq = (sendNew c.sock pipe).seq)
    (hdata : g.data = (sendNew c.sock pipe).data) (hflags : g.flags = (sendNew c.sock pipe).flags)
    (hc' : c'.sock = (emitChoice c.sock (sendNew c.sock pipe) clk).sock) (hd : g.data ≠ []) :
    WithinLimits c c' g := by
  have hnxt := hn.nxt
  have hmax := hn.max
  have hm := hn.maxOff_le hr
  have hfq := Bool.toNat_le c.sock.snd.finQueued
  have hlen := hr.txLen_le
  rw [hdata] at hd
  have hseq' : g.seq = c.sock.snd.sndNxt := hseq
  rcases sendNew_nxt hr pipe (by omega) with h | ⟨hcount, hsnd, hoff, hfits, -, -⟩
  · exact absurd (sendNew_counted_false h.1).1 hd
  · have hnum (i : ℕ) (hi : i < g.data.length + g.flags.fin.toNat) :
        ahead c.sock.snd.sndUna (g.seq + BitVec.ofNat 32 i) =
          ahead c.sock.snd.sndUna c.sock.snd.sndNxt + i := by
      have := Bool.toNat_le g.flags.fin
      rw [hdata] at hi
      rw [hseq', ahead_add_of_lt (by omega)]
    refine ⟨fun i hi => ?_, fun i hi _ => ?_⟩
    · have hn' : Normal c'.sock.snd := hc' ▸ hn.sendNew hr pipe clk
      have hfr : SendFrame c.sock.snd c'.sock.snd :=
        hc' ▸ emitChoice_frame clk (sendNew_frame c.sock pipe)
      have hm' := hn'.maxOff_le (hfr.ringOk hr)
      have hle := hn'.nxt
      have hnxt' : c'.sock.snd.sndNxt = (sendNew c.sock pipe).snd.sndNxt := by
        rw [hc', emitChoice_snd clk sendNew_flags_none]
        split_ifs <;> rfl
      rw [hfr.sndUna, hnxt', hoff] at hle
      rw [hfr.sndUna] at hm'
      rw [hdata, hflags] at hi
      rw [lt_iff (u := c.sock.snd.sndUna) (by rw [hnum i (by rw [hdata, hflags]; exact hi)]; omega)
        (by omega), hnum i (by rw [hdata, hflags]; exact hi)]
      omega
    · have hoffs : (g.seq + BitVec.ofNat 32 i - c.sock.snd.sndUna).toNat =
          ahead c.sock.snd.sndUna c.sock.snd.sndNxt + i := hnum i (by omega)
      rw [hoffs]
      rw [hdata] at hi
      rcases sendNew_window c.sock pipe hd with hw | ⟨h0, h1, h2⟩
      · exact .inl (by omega)
      · refine .inr ⟨h0, by rw [hdata, h2], ?_⟩
        rw [hseq']
        exact ahead_eq_zero.1 h1

theorem emitsWithinLimits_of_carries (hinv : SocketInv late c.sock)
    (hc : Carries c.written c.sent c.sock) (hsent : RetransmitSent c e) :
    EmitsWithinLimits c e := by
  intro g hg hd
  obtain ⟨clk, ch, rfl, hu, hst, hch, hstep, hseq, hdata, hflags⟩ := emitted_spec hg
  have he := hinv.error_eq_zero hst.1
  have hr := hinv.ring hu
  have hd' : ch.data ≠ [] := hdata ▸ hd
  obtain ⟨hn, ha, hopen⟩ := (hinv.phase hu he).sends hr hst hch (.inl hd')
  have hs := (hc hu he).stream hopen
  have hconn : c.sock.connected = true := by simp [Socket.connected, hu, hst.1, hst.2]
  rcases choose_cases hch with ⟨hone, rfl⟩ | ⟨-, hrec, a, b, hhole, rfl⟩ | ⟨-, hna, rfl⟩ |
    ⟨-, -, p, rfl⟩
  · have hmax : (step c (.send clk)).sock.snd.sndMax = c.sock.snd.sndMax := by
      rw [hstep, emitChoice_fast clk rfl (by simp [fastRetransmit, Flags.none])]
      exact choose_sndMax hch
    refine (fastRetransmit_inRing c.sock).resent hs hn hr hseq hdata (by rw [hflags]; rfl) hmax ?_
    rw [Nat.zero_add, fastRetransmit_length]
    exact hsent hconn hone
  · rw [sackRecovery, Bool.and_eq_true, Bool.and_eq_true] at hrec
    obtain ⟨hoff, hend⟩ := dueHole_spec hn hr ha hs.scored hs.rexmitting hrec.1.2 hrec.1.1 hhole
    have hmax : (step c (.send clk)).sock.snd.sndMax = c.sock.snd.sndMax := by
      rw [hstep, emitChoice_fast clk rfl (by simp [sackRepair, Flags.none])]
      exact choose_sndMax hch
    have hlen := (sackRepair_length b hoff hr).1
    exact (sackRepair_inRing b hoff hr).resent hs hn hr hseq hdata (by rw [hflags]; rfl) hmax
      (by omega)
  · rw [ha] at hna
    cases hna
  · exact sendNew_withinLimits hn hr hseq hdata hflags hstep hd

/-- If fast retransmits find their segment sent, the scoreboard stays near and the handshake finds
the SYN sent, everything sent is within the limits. -/
theorem emitsWithinLimits_of_retransmitSent (es : List Event)
    (hsent : Along step RetransmitSent Conn.init es) (hnear : Along step SackNear Conn.init es)
    (hsyn : Along step SynWasSent Conn.init es) : Along step EmitsWithinLimits Conn.init es := by
  have hready : Along step (HandshakeReady True) Conn.init es := hsyn.mono fun c e h => by
    cases e with
    | input g clk => exact fun hc hcomp => .inr ⟨trivial, h hc hcomp⟩
    | _ => trivial
  exact ((along_carries hready hnear).and hsent).mono fun c e h =>
    emitsWithinLimits_of_carries h.1.1 h.1.2 h.2

/-! ### Runs for illustration -/

def synAckSegment (options : List UInt8) (window : BitVec 16) : Segment :=
  { srcPort := 80, dstPort := 1000, seq := 500, ack := 1001
    flags := { Flags.none with syn := true, ack := true }
    window := window, options := options, data := [] }

def ackSegment (ack : Seq) (options : List UInt8) (window : BitVec 16) : Segment :=
  { srcPort := 80, dstPort := 1000, seq := 501, ack := ack
    flags := { Flags.none with ack := true }, window := window, options := options, data := [] }

/-- A connection is opened, and `bytes` are written to it. -/
def openingRun (synAck : Segment) (bytes : List UInt8) : List Event :=
  [.tcpOpen (some fun _ => 0) (some fun _ => 0) false, .connect 1 80 1000 1000, .send ⟨5, 5000⟩,
    .input synAck ⟨6, 6000⟩, .write bytes none]

/-- The peer reports a block that starts at `snd_max` and is half a turn long, then one that lies in
what was sent; three duplicate acknowledgements start a recovery. -/
def farBlockRun : List Event :=
  openingRun (synAckSegment [2, 4, 0, 64, 4, 2, 0, 0] 100) [1, 2, 3, 4, 5, 6, 7, 8, 9, 10] ++
    [.send ⟨7, 7000⟩, .send ⟨7, 7000⟩,
      .input (ackSegment 1001 (sackOption [⟨1011, 1011 + 0x80000000⟩]) 100) ⟨8, 8000⟩,
      .input (ackSegment 1001 (sackOption [⟨1005, 1007⟩]) 100) ⟨9, 9000⟩,
      .input (ackSegment 1001 [] 100) ⟨10, 10000⟩, .send ⟨11, 11000⟩]

/-- The numbers stay in order in this run, but then 64 bytes that were never written go out. -/
theorem farBlockRun_off_stream : Always step SeqOrdered Conn.init farBlockRun ∧
    ¬EmitsStream (run step Conn.init farBlockRun) (.send ⟨12, 12000⟩) := by
  decide +kernel

def nearBlockRun : List Event :=
  openingRun (synAckSegment [2, 4, 0, 64, 4, 2, 0, 0] 100) [1, 2, 3, 4, 5, 6, 7, 8, 9, 10] ++
    [.send ⟨7, 7000⟩, .input (ackSegment 1001 (sackOption [⟨1005, 1007⟩]) 100) ⟨8, 8000⟩,
      .input (ackSegment 1001 [] 100) ⟨9, 9000⟩, .input (ackSegment 1001 [] 100) ⟨10, 10000⟩,
      .send ⟨11, 11000⟩]

theorem emitsStream_nearBlockRun :
    (run step Conn.init nearBlockRun).sent.map (·.segment.data) =
      [[], [1, 2, 3, 4, 5, 6, 7, 8, 9, 10], [1, 2, 3, 4, 5, 6, 7, 8, 9, 10]] ∧
    Along step EmitsStream Conn.init nearBlockRun :=
  ⟨by decide +kernel, emitsStream_of_sackNear nearBlockRun (by decide +kernel) (by decide +kernel)⟩

/-- The peer's window is one byte. Of four bytes one goes out; three duplicate acknowledgements of
it make the sender repeat a whole segment. -/
def smallWindowRun : List Event :=
  openingRun (synAckSegment [] 1) [1, 2, 3, 4] ++
    [.send ⟨7, 7000⟩, .input (ackSegment 1001 [] 1) ⟨8, 8000⟩,
      .input (ackSegment 1001 [] 1) ⟨9, 9000⟩, .input (ackSegment 1001 [] 1) ⟨10, 10000⟩]

/-- Three bytes that were never sent go out, beyond `snd_max` and beyond the window. -/
theorem smallWindowRun_beyond_limits :
    ¬EmitsWithinLimits (run step Conn.init smallWindowRun) (.send ⟨11, 11000⟩) := by
  decide +kernel

instance (c : Conn) (e : Event) : Decidable (RetransmitSent c e) := by
  rcases e with ⟨⟩ <;> unfold RetransmitSent <;> infer_instance

instance (c : Conn) (e : Event) : Decidable (SynWasSent c e) := by
  rcases e with ⟨⟩ <;> unfold SynWasSent <;> infer_instance

theorem emitsWithinLimits_nearBlockRun :
    (run step Conn.init nearBlockRun).sent.map (·.segment.data.length) = [0, 10, 10] ∧
    Along step EmitsWithinLimits Conn.init nearBlockRun :=
  ⟨by decide +kernel, emitsWithinLimits_of_retransmitSent nearBlockRun (by decide +kernel)
    (by decide +kernel) (by decide +kernel)⟩

end Bashket.Tcp
