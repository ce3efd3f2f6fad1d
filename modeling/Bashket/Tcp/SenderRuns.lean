import Bashket.Tcp.SenderInput

/-!
# The sender's numbers over whole runs

Every critical section keeps `SocketInv`, so it holds all along every run in which each segment that
completes the handshake finds the SYN sent. `snd_una`, `snd_nxt` and `snd_max` are in order in every
state exactly in the runs in which none of these segments finds the SYN waiting to be sent again.
-/

namespace Bashket.Tcp

open Serial Run

section Calls

variable {late : Prop} {s : Socket} {tx rx : Option Memory} {refuseSack : Bool}

theorem allocSocket_spec (h : allocSocket tx rx refuseSack = some s) :
    s.used = true ∧ s.error = 0 ∧ s.state = .closed ∧ s.userOpen = false ∧ s.listener = none ∧
    s.tmr.reapDeadline = 0 ∧ RingOk s.snd ∧ Quiet s.snd ∧ s.snd.synAcked = false := by
  unfold allocSocket at h
  split at h
  · cases h
    have hpos : 0 < bufferSize := by decide
    have hmax : bufferSize ≤ bufferMax := by decide
    exact ⟨rfl, rfl, rfl, rfl, rfl, rfl, ⟨hpos, hpos.le, hmax⟩, ⟨rfl, rfl, rfl, rfl⟩, rfl⟩
  · cases h

theorem tcpOpen_inv (h : tcpOpen tx rx refuseSack = some s) : SocketInv late s := by
  obtain ⟨s, hs, rfl⟩ := Option.map_eq_some_iff.1 h
  obtain ⟨hu, he, hst, -, hl, hreap, hr, hq, -⟩ := allocSocket_spec hs
  refine .of_live hu he hr (fun h0 => absurd hreap h0) (fun h0 => ?_) ?_
  · simp [hl] at h0
  · simp only [hst]
    exact hq

theorem acceptSyn_inv {listener : ℕ} {localPort : BitVec 16} {src : BitVec 32} {g : Segment}
    {iss : Seq} (h : acceptSyn listener localPort src g tx rx refuseSack iss = some s) :
    SocketInv late s := by
  obtain ⟨s, hs, rfl⟩ := Option.map_eq_some_iff.1 h
  obtain ⟨hu, he, hst, ho, hl, hreap, hr, hq, ha⟩ := allocSocket_spec hs
  refine .of_live hu he ⟨hr.pos, hr.fits, hr.small⟩ (fun h0 => absurd hreap h0)
    (fun h0 => ⟨ho, hreap, .inl rfl⟩) ?_
  exact ⟨⟨⟨hq.1, hq.2, hq.3, hq.4⟩, rfl, .inl ⟨rfl, .inl rfl⟩⟩, ha⟩

theorem tcpConnect_inv (h : SocketInv late s) (hu : s.used = true) (ho : s.userOpen = true)
    (ip : BitVec 32) (remotePort port : BitVec 16) (iss : Seq) :
    SocketInv late (tcpConnect s ip remotePort port iss) := by
  unfold tcpConnect
  by_cases hc : s.state ≠ .closed ∨ s.error ≠ 0
  · rw [if_pos hc]
    exact h
  rw [if_neg hc]
  by_cases hport : s.localPort = 0 ∧ port = 0
  · rw [if_pos hport]
    exact h
  rw [if_neg hport]
  simp only [not_or, not_not] at hc
  obtain ⟨hq, hreap⟩ := h.closed hu ho hc.1 hc.2
  have hr := h.ring hu
  exact .of_live hu hc.2 ⟨hr.pos, hr.fits, hr.small⟩ (fun h0 => absurd hreap h0)
    (fun h0 => absurd ((h.not_waiting ho).symm.trans h0) (by decide))
    ⟨⟨⟨hq.1, hq.2, hq.3, hq.4⟩, rfl, .inl ⟨rfl, .inl rfl⟩⟩, fun _ => ⟨rfl, rfl⟩⟩

theorem tcpRead_inv (h : SocketInv late s) (hu : s.used = true) (len : ℕ)
    (kmalloc : Option Memory) : SocketInv late (tcpRead s len kmalloc).1 := by
  unfold tcpRead
  simp only
  by_cases hlen : len = 0 ∨ s.rcv.rxLen = 0
  · rw [if_pos hlen]
    exact h
  · rw [if_neg hlen]
    exact h.of_snd hu ⟨rfl, rfl, rfl, rfl, rfl, rfl⟩ rfl

theorem growRing_size {limit size head : ℕ} {ring bigger : Memory} {kmalloc : Option Memory}
    {size' : ℕ} (h : growRing limit ring size head kmalloc = some (bigger, size')) :
    size' = size * 2 ∧ size * 2 ≤ limit := by
  unfold growRing at h
  split_ifs at h with hl
  obtain ⟨m, -, hm⟩ := Option.map_eq_some_iff.1 h
  exact ⟨(Prod.mk.inj hm).2.symm, Nat.not_lt.1 hl⟩

theorem ringLimit_le (s : Sending) : ringLimit s ≤ bufferMax := by
  unfold ringLimit
  split_ifs <;> decide

theorem makeRoom_spec {s : Sending} (hr : RingOk s) (kmalloc : Option Memory) :
    RingOk (makeRoom s kmalloc) ∧ SameNumbers s (makeRoom s kmalloc) := by
  have hsame : SameNumbers s s := ⟨rfl, rfl, rfl, rfl, rfl, rfl, rfl, rfl, rfl⟩
  unfold makeRoom
  split_ifs with hroom hgrow
  · exact ⟨hr, hsame⟩
  · split
    · rename_i ring size heq
      obtain ⟨rfl, hle⟩ := growRing_size heq
      have hpos := hr.pos
      have hfits := hr.fits
      refine ⟨⟨by simp only; omega, by simp only; omega, hle.trans (ringLimit_le s)⟩, ?_⟩
      exact ⟨rfl, rfl, rfl, rfl, rfl, rfl, rfl, rfl, rfl⟩
    · exact ⟨hr, hsame⟩
  · exact ⟨hr, hsame⟩

theorem tcpWrite_inv (h : SocketInv late s) (hu : s.used = true) (bytes : List UInt8)
    (kmalloc : Option Memory) : SocketInv late (tcpWrite s bytes kmalloc).1 := by
  unfold tcpWrite
  by_cases hc : s.error ≠ 0 ∨ (s.state ≠ .established ∧ s.state ≠ .closeWait)
  · rw [if_pos hc]
    exact h
  rw [if_neg hc]
  simp only [not_or, not_and, not_not] at hc
  obtain ⟨hr, hsame⟩ := makeRoom_spec (h.ring hu) kmalloc
  have hp := hsame.phase (h.phase hu hc.1)
  generalize makeRoom s.snd kmalloc = snd at hr hp
  have hfits := hr.fits
  refine h.of_frame hu ⟨rfl, rfl, rfl, rfl, rfl, rfl⟩ ⟨hr.pos, ?_, hr.small⟩ fun _ => ?_
  · simp only
    split_ifs <;> omega
  · have hopen : Open late snd ∧ snd.synAcked = true ∧ snd.finQueued = false := by
      by_cases hst : s.state = .established
      · rw [hst] at hp
        exact hp
      · rw [hc.2 hst] at hp
        exact hp
    have hnew : Open late { snd with
        tx := Ring.write snd.txSize snd.tx ((snd.txHead + snd.txLen) % snd.txSize)
          (bytes.take (if bytes.length < snd.txSize - snd.txLen then bytes.length
            else snd.txSize - snd.txLen))
        txLen := snd.txLen + (if bytes.length < snd.txSize - snd.txLen then bytes.length
          else snd.txSize - snd.txLen) } :=
      hopen.1.extend rfl rfl rfl (Nat.le_add_right _ _) id rfl rfl
    by_cases hst : s.state = .established
    · rw [hst]
      exact ⟨hnew, hopen.2⟩
    · rw [hc.2 hst]
      exact ⟨hnew, hopen.2⟩

end Calls

variable {c : Conn} {s : Socket} {g : Segment}

/-! ### Runs -/

/-- A segment that completes the handshake finds the SYN sent, and `late` or not waiting to be
sent again. -/
def HandshakeReady (late : Prop) (c : Conn) : Event → Prop
  | .input g _ => c.sock.connected = true → Ready late c.sock g
  | _ => True

theorem step_inv {late : Prop} (c : Conn) (e : Event) (h : SocketInv late c.sock)
    (hready : HandshakeReady late c e) : SocketInv late (step c e).sock := by
  have hacts := step_acts c e
  generalize step c e = c' at hacts ⊢
  cases hacts with
  | nothing => exact h
  | tcpOpen hs => exact tcpOpen_inv hs
  | acceptSyn hs => exact acceptSyn_inv hs
  | connect ip remotePort port iss hc =>
    obtain ⟨hu, ho⟩ := Socket.held_iff.1 (connects_ready hc).1
    exact tcpConnect_inv h hu ho ip remotePort port iss
  | input g clk hu => exact tcpInput_inv h hu (hready hu)
  | send hs => exact sendWhatIsDue_inv h hs
  | write bytes kmalloc hu => exact tcpWrite_inv h hu bytes kmalloc
  | read len kmalloc hu => exact tcpRead_inv h hu len kmalloc
  | calls hu hc => exact hc.inv h hu

/-! ### The order of the sender's numbers -/

/-- Once our SYN has been acknowledged, `snd_una`, `snd_nxt` and `snd_max` are in this order, and
what is outstanding is in the ring or is the FIN. -/
def SenderInOrder (c : Conn) : Prop :=
  c.sock.snd.synAcked = true → c.sock.state ≠ .closed → c.sock.state ≠ .listen →
    leq c.sock.snd.sndUna c.sock.snd.sndNxt = true ∧ leq c.sock.snd.sndNxt c.sock.snd.sndMax = true ∧
    (c.sock.snd.sndMax - c.sock.snd.sndUna).toNat ≤
      c.sock.snd.txLen + c.sock.snd.finQueued.toNat

def SeqOrdered (c : Conn) : Prop :=
  c.sock.snd.synAcked = true → c.sock.state ≠ .closed → c.sock.state ≠ .listen →
    leq c.sock.snd.sndUna c.sock.snd.sndNxt = true ∧ leq c.sock.snd.sndNxt c.sock.snd.sndMax = true

theorem SenderInOrder.seqOrdered (h : SenderInOrder c) : SeqOrdered c :=
  fun ha h1 h2 => ⟨(h ha h1 h2).1, (h ha h1 h2).2.1⟩

/-- No segment completes the handshake while the SYN is waiting to be sent again. -/
def NoSynPending (c : Conn) : Event → Prop
  | .input g _ => c.sock.connected = true → completesHandshake c.sock g = true →
      c.sock.snd.sndNxt ≠ c.sock.snd.iss
  | _ => True

theorem noSynPending_iff (c : Conn) (e : Event) :
    NoSynPending c e ↔ HandshakeReady False c e := by
  cases e <;> simp [NoSynPending, HandshakeReady, Ready]

theorem leq_self (a : Seq) : leq a a = true := by simp [leq]

theorem Normal.inOrder {s : Sending} (hn : Normal s) (hr : RingOk s) :
    leq s.sndUna s.sndNxt = true ∧ leq s.sndNxt s.sndMax = true ∧
    (s.sndMax - s.sndUna).toNat ≤ s.txLen + s.finQueued.toNat := by
  have hm := hn.maxOff_le hr
  have hnxt := hn.nxt
  refine ⟨?_, ?_, hn.max⟩
  · rw [leq_iff (u := s.sndUna) (by rw [ahead_self]; omega) (by omega), ahead_self]
    exact Nat.zero_le _
  · rw [leq_iff (u := s.sndUna) (by omega) (by omega)]
    exact hnxt

theorem senderInOrder_of_inv (h : SocketInv False c.sock) : SenderInOrder c := by
  intro ha hclosed hlisten
  have he := h.error_eq_zero hclosed
  have hu : c.sock.used = true := by
    by_contra hu
    rw [h.free (Bool.not_eq_true _ ▸ hu)] at ha
    cases ha
  have hr := h.ring hu
  have hp := h.phase hu he
  -- with nothing outstanding the three numbers are the same
  have hidle (h1 : c.sock.snd.sndNxt = c.sock.snd.sndUna)
      (h2 : c.sock.snd.sndMax = c.sock.snd.sndUna) :
      leq c.sock.snd.sndUna c.sock.snd.sndNxt = true ∧
      leq c.sock.snd.sndNxt c.sock.snd.sndMax = true ∧
      (c.sock.snd.sndMax - c.sock.snd.sndUna).toNat ≤
        c.sock.snd.txLen + c.sock.snd.finQueued.toNat := by
    rw [h1, h2, BitVec.sub_self]
    exact ⟨leq_self _, leq_self _, Nat.zero_le _⟩
  cases hst : c.sock.state with
  | closed => exact absurd hst hclosed
  | listen => exact absurd hst hlisten
  | synSent =>
    rw [hst] at hp
    obtain ⟨h1, h2⟩ := hp.2 ha
    exact hidle (h1.trans hp.1.una.symm) (h2.trans hp.1.una.symm)
  | synReceived =>
    rw [hst] at hp
    exact absurd (hp.2.symm.trans ha) (by decide)
  | established | closeWait | finWait1 | closing | lastAck =>
    rw [hst] at hp
    exact (hp.1.resolve_right fun hb => hb.1).inOrder hr
  | finWait2 | timeWait =>
    rw [hst] at hp
    exact hidle hp.1.nxt hp.1.max

/-- A handshake that completes with `snd_nxt` back at the SYN puts the numbers out of order. -/
theorem SeqOrdered.not_of_una (hst : c.sock.state ≠ .closed ∧ c.sock.state ≠ .listen)
    (ha : c.sock.snd.synAcked = true) (iss : Seq) (huna : c.sock.snd.sndUna = iss + 1)
    (hnum : c.sock.snd.sndNxt = iss ∨ c.sock.snd.sndNxt = iss + 1 ∧ c.sock.snd.sndMax = iss) :
    ¬SeqOrdered c := by
  intro h
  obtain ⟨h1, h2⟩ := h ha hst.1 hst.2
  have hback : leq (iss + 1) iss = false := by
    rw [leq_eq_not_gt, Bool.not_eq_false', gt_iff_ahead]
    simp [ahead, BitVec.add_comm iss]
  rcases hnum with hn | ⟨hn, hm⟩
  · rw [huna, hn, hback] at h1
    cases h1
  · rw [hn, hm, hback] at h2
    cases h2

/-- The numbers right after a handshake. -/
structure Completed (s t : Socket) : Prop where
  state : t.state ≠ .closed ∧ t.state ≠ .listen
  synAcked : t.snd.synAcked = true
  iss : t.snd.iss = s.snd.iss
  una : t.snd.sndUna = s.snd.iss + 1
  max : t.snd.sndMax = s.snd.sndMax
  nxt : t.snd.sndNxt = s.snd.sndNxt ∨ s.snd.iss + 1 ≠ s.snd.sndMax ∧ t.snd.sndNxt = s.snd.iss + 1
  recover : t.snd.cc.recover = s.snd.iss
  inRecovery : t.snd.cc.inRecovery = false

theorem handshakeDone_completed (g : Segment) (hack : g.ack = s.snd.iss + 1) (clk : Clock) :
    Completed s (takeData (takeWindow (handshakeDone (s.noted g) g.ack clk) g clk) g clk) := by
  have hdone : Completed s (handshakeDone (s.noted g) g.ack clk) := by
    unfold handshakeDone
    simp only
    split_ifs <;> exact ⟨by simp, rfl, rfl, hack, rfl, .inl rfl, rfl, rfl⟩
  generalize handshakeDone (s.noted g) g.ack clk = t at hdone ⊢
  obtain ⟨wnd, nxt, hsnd, hnxt⟩ := (taken_tail t g clk).snd
  have hst := (taken_tail t g clk).state
  generalize takeData (takeWindow t g clk) g clk = t' at hsnd hst
  refine ⟨?_, ?_, ?_, ?_, ?_, ?_, ?_, ?_⟩ <;> try rw [hsnd]
  · rcases hst with h0 | ⟨-, h0 | h0 | h0⟩ <;> rw [h0]
    · exact hdone.state
    all_goals decide
  · exact hdone.synAcked
  · exact hdone.iss
  · exact hdone.una
  · exact hdone.max
  · rcases hnxt with rfl | ⟨hne, rfl⟩
    · exact hdone.nxt
    · rw [hdone.una, hdone.max] at hne
      exact .inr ⟨hne, hdone.una⟩
  · exact hdone.recover
  · exact hdone.inRecovery

theorem tcpInput_completed (clk : Clock) (hc : completesHandshake s g = true) :
    Completed s (tcpInput s g clk) := by
  cases hst : s.state with
  | synSent =>
    simp only [completesHandshake, hst, Bool.and_eq_true, decide_eq_true_eq,
      Bool.not_eq_true'] at hc
    obtain ⟨⟨⟨h1, h2⟩, h3⟩, h4⟩ := hc
    have hdone : tcpInput s g clk = synAnswered s g clk := by
      simp [tcpInput, inputSynSent, hst, h1, h2, h3, h4, synAnswered]
    rw [hdone]
    exact ⟨by simp [synAnswered], rfl, rfl, h2, rfl, .inl rfl, rfl, rfl⟩
  | synReceived =>
    simp only [completesHandshake, hst, Bool.and_eq_true, decide_eq_true_eq,
      Bool.not_eq_true'] at hc
    obtain ⟨⟨⟨h1, h2⟩, h3⟩, h4⟩ := hc
    have hdone : tcpInput s g clk =
        takeData (takeWindow (handshakeDone (s.noted g) g.ack clk) g clk) g clk := by
      unfold tcpInput
      rw [if_neg (by simp [hst]), if_neg (by simp [h1]), if_neg (by simp [h2]),
        if_neg (by simp [h3]), noteSack_eq]
      unfold takeAck
      rw [if_pos hst, if_neg (not_not.2 h4)]
    rw [hdone]
    exact handshakeDone_completed g h4 clk
  | _ =>
    rw [completesHandshake, hst] at hc
    cases hc

theorem not_seqOrdered_of_synPending {e : Event} (h : SocketInv False c.sock)
    (hpend : ¬NoSynPending c e) : ¬SeqOrdered (step c e) := by
  cases e with
  | input g clk =>
    simp only [NoSynPending, not_forall, not_not] at hpend
    obtain ⟨hconn, hcomp, hnxt⟩ := hpend
    simp only [step, if_pos hconn]
    simp only [Socket.connected, Bool.and_eq_true, decide_eq_true_eq] at hconn
    have hp := h.phase hconn.1.1 (h.error_eq_zero hconn.1.2)
    have hdone := tcpInput_completed clk hcomp
    refine SeqOrdered.not_of_una hdone.state hdone.synAcked c.sock.snd.iss hdone.una ?_
    rcases hdone.nxt with h0 | ⟨hne, h0⟩
    · exact .inl (h0.trans hnxt)
    · refine .inr ⟨h0, hdone.max.trans ?_⟩
      unfold completesHandshake at hcomp
      split at hcomp
      all_goals rename_i hst
      · rw [hst] at hp
        exact hp.1.max_cases.resolve_right (Ne.symm hne)
      · rw [hst] at hp
        exact hp.1.max_cases.resolve_right (Ne.symm hne)
      · cases hcomp
  | _ => exact absurd trivial hpend

/-- The numbers stay in order exactly as long as no handshake completes while the SYN is waiting to
be sent again. -/
theorem always_iff_noSynPending {P : Conn → Prop} (hinv : ∀ c, SocketInv False c.sock → P c)
    (hord : ∀ c, P c → SeqOrdered c) (es : List Event) (h : SocketInv False c.sock) :
    Always step P c es ↔ Along step NoSynPending c es := by
  induction es generalizing c with
  | nil => exact ⟨fun _ => trivial, fun _ => hinv c h⟩
  | cons e es ih =>
    by_cases hpend : NoSynPending c e
    · have hstep := step_inv c e h ((noSynPending_iff c e).1 hpend)
      rw [Always, Along, ih hstep]
      exact ⟨fun hr => ⟨hpend, hr.2⟩, fun hr => ⟨hinv c h, hr.2⟩⟩
    · refine ⟨fun hr => ?_, fun hr => absurd hr.1 hpend⟩
      refine absurd (hord _ ?_) (not_seqOrdered_of_synPending h hpend)
      exact ((always_iff _ _).1 hr) [e] es rfl

/-- The sender's numbers are in order exactly if no handshake completes while the SYN is waiting to
be sent again. -/
theorem senderInOrder_iff_noSynPending (es : List Event) :
    Always step SenderInOrder Conn.init es ↔ Along step NoSynPending Conn.init es :=
  always_iff_noSynPending (fun _ => senderInOrder_of_inv) (fun _ h => h.seqOrdered) es
    SocketInv.zero

/-- The peer acknowledges only what was sent: the last number acknowledged is one that a segment
has carried. -/
def AcksSent (c : Conn) : Event → Prop
  | .input g _ => g.flags.ack = true →
      ∃ m ∈ c.sent, (g.ack - 1 - m.segment.seq).toNat < m.segment.seqLen
  | _ => True

instance (c : Conn) (e : Event) : Decidable (AcksSent c e) := by
  rcases e with ⟨⟩ <;> unfold AcksSent <;> infer_instance

instance (c : Conn) : Decidable (SenderInOrder c) := by
  unfold SenderInOrder
  infer_instance

instance (c : Conn) : Decidable (SeqOrdered c) := by
  unfold SeqOrdered
  infer_instance

/-- A SYN is sent and times out; before it is sent again, the answer to it arrives. -/
def synTimeoutRun : List Event :=
  [.tcpOpen (some fun _ => 0) (some fun _ => 0) false, .connect 1 80 1000 1000, .send ⟨5, 5000⟩,
    .timers 25,
    .input { srcPort := 80, dstPort := 1000, seq := 500, ack := 1001
             flags := { Flags.none with syn := true, ack := true }
             window := 1000, options := [], data := [] } ⟨26, 26000⟩]

/-- `snd_nxt` ends up behind `snd_una`, although the peer acknowledges only what it got. -/
theorem synTimeoutRun_outOfOrder : Along step AcksSent Conn.init synTimeoutRun ∧
    ¬SenderInOrder (run step Conn.init synTimeoutRun) := by
  decide

end Bashket.Tcp
