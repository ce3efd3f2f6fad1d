import Bashket.Tcp.Opening
import Bashket.Tcp.Stream

/-!
# The retransmission timer

While something is outstanding the retransmission timer runs, and the timeout it is set to stays
between its bounds (`TimerCovers`). Completing the handshake stops the timer, which is right as long
as the SYN it acknowledges is all that was sent (`Unsent`).
-/

namespace Bashket.Tcp

open Serial Run

/-- The timeout is within its bounds, and so is the estimate it is computed from. -/
structure RtoOk (t : Timers) : Prop where
  low : rtoInitial ≤ t.rto
  high : t.rto ≤ rtoMax
  estimate : t.rtt.measured = true → rtoMinUs ≤ t.rtt.rtoUs ∧ t.rtt.rtoUs ≤ rtoMaxUs

/-- The timeout is within its bounds, and the timer runs while something is outstanding. -/
structure Covered (s : Socket) : Prop where
  rto : s.used = true → RtoOk s.tmr
  covers : s.state ≠ .closed → s.state ≠ .listen → s.snd.sndUna ≠ s.snd.sndMax →
    s.tmr.rtoDeadline ≠ 0

/-! ### The timeout -/

section Rto

variable {t t' : Timers}

theorem RtoOk.pos (h : RtoOk t) (now : ℕ) : now + t.rto ≠ 0 := by
  have := h.low
  rw [rtoInitial] at this
  omega

theorem RtoOk.of_eq (h : RtoOk t) (hrto : t'.rto = t.rto) (hrtt : t'.rtt = t.rtt) : RtoOk t' where
  low := hrto ▸ h.low
  high := hrto ▸ h.high
  estimate := hrtt ▸ h.estimate

theorem RtoOk.set (h : RtoOk t) (hrtt : t'.rtt = t.rtt) (hlow : rtoInitial ≤ t'.rto)
    (hhigh : t'.rto ≤ rtoMax) : RtoOk t' :=
  ⟨hlow, hhigh, hrtt ▸ h.estimate⟩

theorem rttSample_bounds (e : Rtt) (r : ℕ) :
    rtoMinUs ≤ (rttSample e r).rtoUs ∧ (rttSample e r).rtoUs ≤ rtoMaxUs := by
  have hle : rtoMinUs ≤ rtoMaxUs := by decide
  unfold rttSample
  simp only
  generalize (_ + if _ > clockGranularityUs then _ else clockGranularityUs : ℕ) = rto
  split_ifs <;> omega

theorem baseRto_bounds (h : t.rtt.measured = true → rtoMinUs ≤ t.rtt.rtoUs ∧ t.rtt.rtoUs ≤ rtoMaxUs) :
    rtoInitial ≤ baseRto t ∧ baseRto t ≤ rtoMax := by
  unfold baseRto
  split_ifs with hm
  · decide
  · obtain ⟨h1, h2⟩ := h (by simpa using hm)
    simp only [rtoMinUs, rtoMaxUs, rtoInitial, rtoMax, usPerTick] at *
    omega

theorem RtoOk.ackTimed (h : RtoOk t) (ack : Seq) (clk : Clock) : RtoOk (ackTimed t ack clk) := by
  unfold Tcp.ackTimed
  split_ifs
  · exact h
  · simp only
    have hb := rttSample_bounds t.rtt (min (sub64 clk.ns t.timedAtNs / 1000) 0xFFFFFFFF)
    generalize rttSample t.rtt (min (sub64 clk.ns t.timedAtNs / 1000) 0xFFFFFFFF) = e at hb
    obtain ⟨h1, h2⟩ := baseRto_bounds (t := { t with timing := false, rtt := e }) fun _ => hb
    exact ⟨h1, h2, fun _ => hb⟩

end Rto

/-! ### Timers, calls and sending -/

section

variable {s t : Socket} {g : Segment} {clk : Clock}

theorem Covered.zero : Covered Socket.zero where
  rto h := absurd h Bool.false_ne_true
  covers h := absurd rfl h

/-- A section that leaves the timer and the outer numbers of the sender alone. -/
theorem Covered.keep (h : Covered s) (hu : t.used = s.used)
    (hst : t.state ≠ .closed → t.state ≠ .listen → s.state ≠ .closed ∧ s.state ≠ .listen)
    (huna : t.snd.sndUna = s.snd.sndUna) (hmax : t.snd.sndMax = s.snd.sndMax)
    (hrto : t.tmr.rto = s.tmr.rto) (hrtt : t.tmr.rtt = s.tmr.rtt)
    (hdl : t.tmr.rtoDeadline = s.tmr.rtoDeadline) : Covered t where
  rto h0 := (h.rto (hu ▸ h0)).of_eq hrto hrtt
  covers h1 h2 := by
    rw [huna, hmax, hdl]
    exact h.covers (hst h1 h2).1 (hst h1 h2).2

theorem Covered.same (h : Covered s) (hu : t.used = s.used) (hst : t.state = s.state)
    (huna : t.snd.sndUna = s.snd.sndUna) (hmax : t.snd.sndMax = s.snd.sndMax)
    (htmr : t.tmr = s.tmr) : Covered t :=
  h.keep hu (fun h1 h2 => ⟨hst ▸ h1, hst ▸ h2⟩) huna hmax (htmr ▸ rfl) (htmr ▸ rfl) (htmr ▸ rfl)

theorem Covered.idle (hr : t.used = true → RtoOk t.tmr) (h : t.snd.sndUna = t.snd.sndMax) :
    Covered t :=
  ⟨hr, fun _ _ h0 => absurd h h0⟩

theorem Covered.closed (hr : t.used = true → RtoOk t.tmr) (h : t.state = .closed) : Covered t :=
  ⟨hr, fun h0 => absurd h h0⟩

theorem Calls.covered {e : Event} (hc : Calls s e t) (h : Covered s) (hu : s.used = true) :
    Covered t := by
  have hr := h.rto hu
  cases hc with
  | same => exact h
  | gone => exact .zero
  | noted | accepted => exact h.same rfl rfl rfl rfl rfl
  | failed | reaped => exact .closed (fun _ => hr.of_eq rfl rfl) rfl
  | listening => exact ⟨fun _ => hr, fun _ h0 => absurd rfl h0⟩
  | idle now huna => exact .idle (fun _ => hr.of_eq rfl rfl) huna
  | @timeout now huna rto hrto =>
    have hlow := hr.low
    have hle : rtoInitial ≤ rtoMax := by decide
    have hnew : rtoInitial ≤ rto ∧ rto ≤ rtoMax := by
      rw [hrto]
      split_ifs <;> omega
    have hok : RtoOk { s.tmr with
        retries := s.tmr.retries + 1, timing := false, rto := rto, rtoDeadline := now + rto } :=
      hr.set rfl hnew.1 hnew.2
    exact ⟨fun _ => hok, fun _ _ _ => hok.pos now⟩
  | shutdown _ hst | closeFin _ _ _ hst | leftFin _ _ _ hst =>
    have hne := State.past_iff.1 hst.past.1
    exact h.keep rfl (fun _ _ => ⟨hne.1, hne.2.1⟩) rfl rfl rfl rfl rfl
  | close _ _ _ hst | left _ _ _ hst =>
    exact h.keep rfl (fun h1 h2 => hst ▸ ⟨h1, h2⟩) rfl rfl rfl rfl rfl

theorem allocSocket_rto {tx rx : Option Memory} {refuseSack : Bool}
    (h : allocSocket tx rx refuseSack = some s) : RtoOk s.tmr := by
  unfold allocSocket at h
  split at h
  · cases h
    exact ⟨le_rfl, (by decide : rtoInitial ≤ rtoMax), fun h0 => nomatch h0⟩
  · cases h

theorem emitChoice_covered (h : Covered s) (hu : s.used = true) {c : Choice}
    (hc : choose s = some c) :
    Covered (emitChoice s c clk).sock := by
  have hf := emitChoice_sock_frame s c clk
  have huna := (emitChoice_frame clk (choose_frame hc)).sndUna
  have hmax := choose_sndMax hc
  unfold emitChoice at hf huna ⊢
  by_cases hflags : c.flags = Flags.none
  · rw [if_pos hflags] at hf huna ⊢
    exact h.keep hf.used (fun h1 h2 => ⟨h1, h2⟩) huna hmax rfl rfl rfl
  · rw [if_neg hflags] at hf huna ⊢
    simp only at huna ⊢
    refine ⟨fun h0 => (h.rto h0).of_eq rfl rfl, fun h1 h2 hne => ?_⟩
    cases hcount : (!c.data.isEmpty || c.flags.syn || c.flags.fin) && !c.fast with
    | true =>
      simp only [Bool.true_and, decide_eq_true_eq]
      split_ifs with hzero
      · exact (h.rto hu).pos clk.ticks
      · exact hzero
    | false =>
      simp only [hcount, Bool.false_and, Bool.false_eq_true, if_false] at hne ⊢
      rw [huna, hmax] at hne
      exact h.covers h1 h2 hne

theorem sendWhatIsDue_covered (h : Covered s) {r : SendResult}
    (hr : sendWhatIsDue s clk = some r) : Covered r.sock := by
  rcases sendWhatIsDue_cases hr with rfl | ⟨hu, -, c, hc, rfl⟩
  · exact h
  · exact emitChoice_covered h hu hc

theorem tcpWrite_covered (h : Covered s) (bytes : List UInt8) (kmalloc : Option Memory) :
    Covered (tcpWrite s bytes kmalloc).1 := by
  rcases tcpWrite_cases s bytes kmalloc with h0 | ⟨-, _, _, _, _, h0⟩ <;> rw [h0]
  · exact h
  · exact h.same rfl rfl rfl rfl rfl

theorem tcpRead_covered (h : Covered s) (len : ℕ) (kmalloc : Option Memory) :
    Covered (tcpRead s len kmalloc).1 := by
  unfold tcpRead
  by_cases hlen : len = 0 ∨ s.rcv.rxLen = 0
  · rw [if_pos hlen]
    exact h
  · rw [if_neg hlen]
    exact h.same rfl rfl rfl rfl rfl

/-! ### Segments -/

theorem ackTaken_covered (h : RtoOk s.tmr) (ack : Seq) : Covered (ackTaken s ack clk) := by
  have hstopped (timing : Bool) : RtoOk { s.tmr with timing := timing } := h.of_eq rfl rfl
  unfold ackTaken
  simp only
  have hok := (hstopped (s.tmr.timing &&
    !(ackCongestion (ackRing s.snd ack) (ack - s.snd.sndUna).toNat ack).retransmitOne)).ackTimed
      ack clk
  generalize ackTimed { s.tmr with timing := s.tmr.timing &&
      !(ackCongestion (ackRing s.snd ack) (ack - s.snd.sndUna).toNat ack).retransmitOne } ack clk =
    tmr at hok ⊢
  refine ⟨fun _ => hok.of_eq rfl rfl, fun _ _ hne => ?_⟩
  simp only at hne ⊢
  rw [if_neg hne]
  exact hok.pos clk.ticks

theorem processAck_covered (h : RtoOk s.tmr) (hst : s.state ≠ .closed ∧ s.state ≠ .listen)
    (ack : Seq) : Covered (processAck s ack clk) := by
  have hack : Covered (ackTaken s ack clk) := ackTaken_covered h ack
  have hstate := (ackTaken_frame s ack clk).1.state
  unfold processAck
  split_ifs
  · generalize ackTaken s ack clk = t at hack hstate
    rw [← hstate] at hst
    unfold finAcknowledged
    cases ht : t.state with
    | lastAck =>
      simp only
      split_ifs
      · exact .zero
      · exact hack.keep rfl (fun _ _ => hst) rfl rfl rfl rfl rfl
    | _ => exact hack.keep rfl (fun _ _ => hst) rfl rfl rfl rfl rfl
  · exact hack

theorem dupAck_covered (h : Covered s) (ack : Seq) : Covered (dupAck s ack) := by
  unfold dupAck
  simp only
  split_ifs <;> exact h.keep rfl (fun h1 h2 => ⟨h1, h2⟩) rfl rfl rfl rfl rfl

theorem Tail.covered (ht : Tail s clk t) (h : Covered s) : Covered t := by
  induction ht with
  | kept => exact h.keep rfl (fun h1 h2 => ⟨h1, h2⟩) rfl rfl rfl rfl rfl
  | reopened hne wnd rcv =>
    have hok (hu : s.used = true) : RtoOk { s.tmr with
        retries := 0, rto := rtoInitial, rtoDeadline := clk.ticks + rtoInitial } :=
      (h.rto hu).set rfl le_rfl (by decide : rtoInitial ≤ rtoMax)
    refine ⟨hok, fun _ _ _ => ?_⟩
    have : rtoInitial ≠ 0 := by decide
    simp only
    omega
  | fin _ _ hst ih =>
    exact ih.keep rfl (fun _ _ => by rcases hst with hst | hst <;> rw [hst.1] <;> decide)
      rfl rfl rfl rfl rfl
  | lastFin _ _ hst ih => exact ih.keep rfl (fun _ _ => by rw [hst]; decide) rfl rfl rfl rfl rfl

theorem Opening.max_of_sent {s : Sending} (h : Opening s) (hsent : s.sndMax ≠ s.iss) :
    s.sndMax = s.iss + 1 :=
  h.max_cases.resolve_left hsent

theorem synAnswered_covered (h : RtoOk s.tmr) (hmax : g.ack = s.snd.sndMax) :
    Covered (synAnswered s g clk) := by
  have hok : RtoOk { s.tmr with rto := rtoInitial } :=
    h.set rfl le_rfl (by decide : rtoInitial ≤ rtoMax)
  exact .idle (fun _ => (hok.ackTimed g.ack clk).of_eq rfl rfl) hmax

theorem handshakeDone_covered (h : RtoOk s.tmr) {ack : Seq} (hmax : ack = s.snd.sndMax)
    (clk : Clock) : Covered (handshakeDone s ack clk) := by
  have hok : RtoOk { s.tmr with rto := rtoInitial } :=
    h.set rfl le_rfl (by decide : rtoInitial ≤ rtoMax)
  have hack := hok.ackTimed ack clk
  unfold handshakeDone
  simp only
  split_ifs
  · exact .idle (fun _ => hack.of_eq rfl rfl) hmax
  · exact .idle (fun _ => hack.of_eq rfl rfl) hmax

theorem tcpInput_covered (h : Covered s) (hinv : SocketInv True s) (hc : s.connected = true)
    (hsent : completesHandshake s g = true → s.snd.sndMax ≠ s.snd.iss) :
    Covered (tcpInput s g clk) := by
  obtain ⟨hu, hclosed, hlisten⟩ := Socket.connected_iff.1 hc
  have hp := hinv.phase hu (hinv.error_eq_zero hclosed)
  have hn : Covered (s.noted g) := h.same rfl rfl rfl rfl rfl
  have hr := tcpInput_receives s g clk
  generalize tcpInput s g clk = s' at hr ⊢
  cases hr with
  | ignored => exact h
  | reset he => exact (Calls.abort (.input g clk) he).covered h hu
  | connected hst hack hg =>
    rw [hst] at hp
    have hmax := hp.1.max_of_sent (hsent (by simp [completesHandshake, hst, hack, hg]))
    exact synAnswered_covered (h.rto hu) (hack.trans hmax.symm)
  | again => exact h.same rfl rfl rfl rfl rfl
  | stray => exact hn
  | opened hst hg hack =>
    rw [hst] at hp
    have hmax := hp.1.max_of_sent
      (hsent (by simp [completesHandshake, hst, hack, hg.1, hg.2.1, hg.2.2]))
    exact (taken_tail _ g clk).covered
      (handshakeDone_covered (hn.rto hu) (hack.trans hmax.symm) clk)
  | beyond => exact hn.same rfl rfl rfl rfl rfl
  | freed => exact processAck_covered (hn.rto hu) ⟨hclosed, hlisten⟩ g.ack
  | acked =>
    exact (taken_tail _ g clk).covered (processAck_covered (hn.rto hu) ⟨hclosed, hlisten⟩ g.ack)
  | dup => exact (taken_tail _ g clk).covered (dupAck_covered hn g.ack)
  | old => exact (taken_tail _ g clk).covered hn

end

/-! ### Runs -/

def Unsent (c : Conn) : Prop :=
  c.sock.state.opening = true → c.sock.snd.sndMax = c.sock.snd.iss →
    ∀ m ∈ c.sent, m.segment.seqLen = 0

theorem Unsent.synSent {c : Conn} (h : Unsent c) {g : Segment} {clk : Clock}
    (hack : AcksSent c (.input g clk)) (hc : completesHandshake c.sock g = true) :
    c.sock.snd.sndMax ≠ c.sock.snd.iss := by
  intro hmax
  have hboth : c.sock.state.opening = true ∧ g.flags.ack = true := by
    unfold completesHandshake at hc
    cases hst : c.sock.state <;> simp [hst] at hc
    · exact ⟨rfl, hc.1.1.1⟩
    · exact ⟨rfl, hc.1.2⟩
  obtain ⟨m, hm, hlt⟩ := hack hboth.2
  rw [h hboth.1 hmax m hm] at hlt
  exact absurd hlt (Nat.not_lt_zero _)

theorem opening_sends_nothing {s : Socket} {ch : Choice} (hinv : SocketInv True s)
    (ho : s.state.opening = true) (hc : choose s = some ch) (clk : Clock)
    (hmax : (emitChoice s ch clk).sock.snd.sndMax = s.snd.iss) :
    (ch.data = [] ∧ ch.flags.syn = false ∧ ch.flags.fin = false) ∧ s.snd.sndMax = s.snd.iss := by
  have hclosed : s.state ≠ .closed := fun h0 => by
    rw [h0] at ho
    cases ho
  have hu : s.used = true := by
    by_contra hu
    exact hclosed (by rw [hinv.free (Bool.not_eq_true _ ▸ hu)]; rfl)
  have hp := hinv.phase hu (hinv.error_eq_zero hclosed)
  have hopen : Opening s.snd ∧ (s.snd.synAcked = true → s.snd.sndNxt = s.snd.iss ∧
      s.snd.sndMax = s.snd.iss) := by
    cases hst : s.state with
    | synSent =>
      rw [hst] at hp
      exact hp
    | synReceived =>
      rw [hst] at hp
      exact ⟨hp.1, fun ha => absurd (hp.2.symm.trans ha) (by decide)⟩
    | _ =>
      rw [hst] at ho
      cases ho
  obtain ⟨hop, hnxt⟩ := hopen
  have hq := hop.quiet
  rcases choose_cases hc with ⟨hone, rfl⟩ | ⟨-, hrec, a, b, -, rfl⟩ | ⟨-, -, rfl⟩ | ⟨-, ha, p, rfl⟩
  · rw [hq.retransmitOne] at hone
    cases hone
  · rw [sackRecovery, hq.inRecovery] at hrec
    simp at hrec
  · -- the SYN is out now
    have hfr := emitChoice_frame clk (sendSyn_frame s)
    have hnew : (emitChoice s (sendSyn s) clk).sock.snd.sndNxt = s.snd.iss + 1 := by
      rw [emitChoice_snd clk (fun _ => rfl)]
      rcases hop.numbers with ⟨hn, -⟩ | ⟨hn, -⟩ <;> split_ifs <;> simp [sendSyn, hn]
    rcases (hop.sendSyn clk).numbers with ⟨hn, -⟩ | ⟨-, hm⟩
    · rw [hnew, hfr.iss] at hn
      simp at hn
    · rw [hmax, hfr.iss] at hm
      simp at hm
  · have hidle := sendNew_idle (hinv.ring hu) hq.txLen hq.finQueued
      ((hnxt ha).1.trans hop.una.symm) p
    obtain ⟨h1, h2⟩ := sendNew_counted_false hidle.1
    exact ⟨⟨h1, rfl, h2⟩, (hnxt ha).2⟩

theorem step_unsent (c : Conn) (e : Event) (hinv : SocketInv True c.sock) (h : Unsent c) :
    Unsent (step c e) := by
  intro ho hmax
  rcases step_opening c e ho with h0 | ⟨ip, remotePort, port, iss, rfl, hc⟩ | ⟨clk, rfl, h1, hf⟩ |
    ⟨h1, h2⟩
  · rw [h0.2]
    exact fun m hm => absurd hm List.not_mem_nil
  · rw [step_connect hc]
    exact fun m hm => absurd hm List.not_mem_nil
  · simp only [step] at ho hmax hf ⊢
    cases hs : sendWhatIsDue c.sock clk with
    | none =>
      rw [hs] at hmax
      exact h h1 hmax
    | some r =>
      rw [hs] at hmax hf
      simp only at hmax hf
      rcases sendWhatIsDue_cases hs with rfl | ⟨-, -, ch, hc, rfl⟩
      · simpa using h h1 hmax
      · rw [hf.iss] at hmax
        obtain ⟨⟨hd, hsyn, hfin⟩, hiss⟩ := opening_sends_nothing hinv h1 hc clk hmax
        intro m hm
        rcases List.mem_append.1 hm with hm | hm
        · exact h h1 hiss m hm
        · obtain ⟨g, hg, rfl⟩ := List.mem_map.1 hm
          rcases emitChoice_segment c.sock ch clk with ⟨-, h0⟩ | ⟨g', h0, -, h2, h3⟩
          · rw [h0] at hg
            cases hg
          · rw [h0, Option.toList_some, List.mem_singleton] at hg
            subst hg
            simp [OutSegment.seqLen, h2, h3, hd, hsyn, hfin]
  · rw [h2]
    exact h h1.opening (by rw [← h1.sndMax, ← h1.iss, hmax])

theorem step_covered (c : Conn) (e : Event) (h : Covered c.sock) (hinv : SocketInv True c.sock)
    (hsent : Unsent c) (hack : AcksSent c e) : Covered (step c e).sock := by
  have hacts := step_acts c e
  generalize step c e = c' at hacts ⊢
  cases hacts with
  | nothing => exact h
  | tcpOpen hs =>
    obtain ⟨s, hs', rfl⟩ := Option.map_eq_some_iff.1 hs
    have hr := allocSocket_rto hs'
    exact .closed (fun _ => hr) (allocSocket_spec hs').2.2.1
  | acceptSyn hs =>
    obtain ⟨s, hs', rfl⟩ := Option.map_eq_some_iff.1 hs
    have hr := allocSocket_rto hs'
    exact .idle (fun _ => hr) rfl
  | connect ip remotePort port iss hc =>
    rw [tcpConnect_of_connects hc]
    exact .idle h.rto rfl
  | input g clk hu => exact tcpInput_covered h hinv hu (hsent.synSent hack)
  | send hs => exact sendWhatIsDue_covered h hs
  | write bytes kmalloc => exact tcpWrite_covered h bytes kmalloc
  | read len kmalloc => exact tcpRead_covered h len kmalloc
  | calls hu hc => exact hc.covered h hu

/-- While something is outstanding the timer runs, and its timeout stays between its bounds. -/
def TimerCovers (c : Conn) : Prop :=
  c.sock.state ≠ .closed → c.sock.state ≠ .listen →
    (c.sock.snd.sndUna ≠ c.sock.snd.sndMax → c.sock.tmr.rtoDeadline ≠ 0) ∧
    20 ≤ c.sock.tmr.rto ∧ c.sock.tmr.rto ≤ 300

/-- What holds along the runs in which the peer acknowledges only what was sent. -/
structure SentInv (c : Conn) : Prop where
  inv : SocketInv True c.sock
  unsent : Unsent c
  covered : Covered c.sock

theorem SentInv.ready {c : Conn} {e : Event} (h : Unsent c) (hack : AcksSent c e) :
    HandshakeReady True c e := by
  cases e with
  | input g clk => exact fun _ hc => .inr ⟨trivial, h.synSent hack hc⟩
  | _ => trivial

theorem step_sentInv (c : Conn) (e : Event) (h : SentInv c) (hack : AcksSent c e) :
    SentInv (step c e) where
  inv := step_inv c e h.inv (SentInv.ready h.unsent hack)
  unsent := step_unsent c e h.inv h.unsent
  covered := step_covered c e h.covered h.inv h.unsent hack

theorem SentInv.init : SentInv Conn.init where
  inv := SocketInv.zero
  unsent h := nomatch h
  covered := Covered.zero

/-- As long as the peer acknowledges only what was sent, the retransmission timer covers everything
outstanding. -/
theorem timerCovers_of_acksSent (es : List Event) (h : Along step AcksSent Conn.init es) :
    Always step TimerCovers Conn.init es := by
  refine (always_of_induction step_sentInv SentInv.init h).mono fun c hc h1 h2 => ?_
  have hu : c.sock.used = true := by
    by_contra hu
    exact h1 (by rw [hc.inv.free (Bool.not_eq_true _ ▸ hu)]; rfl)
  have hr := hc.covered.rto hu
  exact ⟨hc.covered.covers h1 h2, hr.low, hr.high⟩

def timeoutRun : List Event :=
  [.tcpOpen (some fun _ => 0) (some fun _ => 0) false, .connect 1 80 1000 1000, .send ⟨5, 5000⟩,
    .input (peerSegment 500 1001 { Flags.none with syn := true, ack := true }) ⟨6, 6000⟩,
    .write [7] none, .send ⟨7, 7000⟩, .timers 27, .send ⟨28, 28000⟩,
    .input (peerSegment 501 1002 { Flags.none with ack := true }) ⟨29, 29000⟩]

theorem timerCovers_timeoutRun :
    (run step Conn.init (timeoutRun.take 8)).sock.tmr.rtoDeadline = 67 ∧
    (run step Conn.init timeoutRun).sock.tmr.rtoDeadline = 0 ∧
    Always step TimerCovers Conn.init timeoutRun :=
  ⟨by decide +kernel, by decide +kernel, timerCovers_of_acksSent timeoutRun (by decide +kernel)⟩

end Bashket.Tcp
