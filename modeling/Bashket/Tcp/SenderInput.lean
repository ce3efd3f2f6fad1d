import Bashket.Tcp.SenderInvariant

/-!
# Segments keep the invariant

`tcp_input` keeps `SocketInv late`, as long as a segment that completes the handshake finds the SYN
sent (`Ready late`). With `late` false this also rules out that the SYN is waiting to be sent again
at that moment.
-/

namespace Bashket.Tcp

open Serial

section

variable {late : Prop} {s t : Socket} {g : Segment} {clk : Clock}

/-! ### The handshake -/

theorem Opening.max_cases {s : Sending} (h : Opening s) : s.sndMax = s.iss ∨ s.sndMax = s.iss + 1 := by
  rcases h.numbers with ⟨-, hm⟩ | ⟨-, hm⟩
  · exact hm
  · exact .inr hm

def completesHandshake (s : Socket) (g : Segment) : Bool :=
  match s.state with
  | .synSent => g.flags.ack && g.ack = s.snd.iss + 1 && !g.flags.rst && g.flags.syn
  | .synReceived => !g.flags.rst && !g.flags.syn && g.flags.ack && g.ack = s.snd.iss + 1
  | _ => false

/-- A segment that completes the handshake finds the SYN sent and (unless `late`) not waiting to be
sent again. -/
def Ready (late : Prop) (s : Socket) (g : Segment) : Prop :=
  completesHandshake s g = true →
    s.snd.sndNxt ≠ s.snd.iss ∨ late ∧ s.snd.sndMax ≠ s.snd.iss

theorem Opening.completed {s t : Sending} (ho : Opening s)
    (hready : s.sndNxt ≠ s.iss ∨ late ∧ s.sndMax ≠ s.iss) (huna : t.sndUna = s.iss + 1)
    (hnxt : t.sndNxt = s.sndNxt) (hmax : t.sndMax = s.sndMax)
    (hone : t.retransmitOne = s.retransmitOne) (hrec : t.cc.inRecovery = false) : Open late t := by
  have hone' := hone.trans ho.quiet.retransmitOne
  rcases ho.numbers with ⟨hn, hm⟩ | ⟨hn, hm⟩
  · rcases hready with hne | ⟨hl, hne⟩
    · exact absurd hn hne
    · have hm' : s.sndMax = s.iss + 1 := hm.resolve_left hne
      exact .inr ⟨hl, by rw [hnxt, hn, huna], by rw [hmax, hm', huna], hone', hrec⟩
  · refine .inl ⟨?_, ?_, ?_, ?_⟩
    · rw [hnxt, hmax, hn, hm]
    · rw [hmax, hm, huna, ahead_self]
      exact Nat.zero_le _
    · rw [hone']
      exact fun h => absurd h Bool.false_ne_true
    · rw [hrec]
      exact fun h => absurd h Bool.false_ne_true

theorem ackTimed_reapDeadline (t : Timers) (ack : Seq) (clk : Clock) :
    (ackTimed t ack clk).reapDeadline = t.reapDeadline := by
  unfold ackTimed
  split_ifs <;> rfl

theorem synAnswered_inv (h : SocketInv late s) (hu : s.used = true) (hst : s.state = .synSent)
    (hack : g.ack = s.snd.iss + 1)
    (hready : s.snd.sndNxt ≠ s.snd.iss ∨ late ∧ s.snd.sndMax ≠ s.snd.iss) :
    SocketInv late (synAnswered s g clk) := by
  have he : s.error = 0 := h.error_eq_zero (by rw [hst]; decide)
  have hp := h.phase hu he
  rw [hst] at hp
  have hr := h.ring hu
  refine .of_live hu he ⟨hr.pos, hr.fits, hr.small⟩ (fun h0 ho => ?_) (fun hl => ?_)
    ⟨hp.1.completed hready hack rfl rfl rfl rfl, rfl, hp.1.quiet.finQueued⟩
  · have h0' : s.tmr.reapDeadline ≠ 0 := by rwa [synAnswered, ackTimed_reapDeadline] at h0
    have := h.reap he h0' ho
    rw [hst] at this
    cases this
  · obtain ⟨h1, h2, h3⟩ := h.waiting hl
    rw [hst] at h3
    simp at h3

theorem handshakeDone_inv (h : SocketInv late s) (hu : s.used = true)
    (hst : s.state = .synReceived) {ack : Seq} (hack : ack = s.snd.iss + 1)
    (hready : s.snd.sndNxt ≠ s.snd.iss ∨ late ∧ s.snd.sndMax ≠ s.snd.iss) :
    SocketInv late (handshakeDone s ack clk) := by
  have he : s.error = 0 := h.error_eq_zero (by rw [hst]; decide)
  have hp := h.phase hu he
  rw [hst] at hp
  have hr := h.ring hu
  have hreap : s.tmr.reapDeadline ≠ 0 → s.userOpen = false :=
    h.not_reaped he (by rw [hst]; decide)
  unfold handshakeDone
  simp only
  split_ifs with hclosed
  · rw [Bool.and_eq_true, Bool.not_eq_true'] at hclosed
    refine .of_live hu he ⟨hr.pos, hr.fits, hr.small⟩
      (fun _ ho => absurd (hclosed.2.symm.trans ho) (by decide)) (fun hl => ?_) ⟨?_, rfl, rfl⟩
    · have := hclosed.1
      rw [Option.isNone_iff_eq_none] at this
      simp [this] at hl
    · exact hp.1.completed hready hack rfl rfl rfl rfl
  · refine .of_live hu he ⟨hr.pos, hr.fits, hr.small⟩ (fun h0 ho => ?_) (fun hl => ?_)
      ⟨?_, rfl, hp.1.quiet.finQueued⟩
    · have h0' : s.tmr.reapDeadline ≠ 0 := by rwa [ackTimed_reapDeadline] at h0
      rw [hreap h0'] at ho
      cases ho
    · obtain ⟨h1, h2, -⟩ := h.waiting hl
      exact ⟨h1, by rw [ackTimed_reapDeadline]; exact h2, .inr (.inl rfl)⟩
    · exact hp.1.completed hready hack rfl rfl rfl rfl

theorem handshakeDone_used (s : Socket) (ack : Seq) (clk : Clock) :
    (handshakeDone s ack clk).used = s.used := by
  unfold handshakeDone
  simp only
  split_ifs <;> rfl

/-! ### Acknowledgements -/

/-- An acknowledgement of something new can only come while the numbers are in order. -/
theorem Phase.acknowledgeable {st : State} {s : Sending} {ack : Seq} (hp : Phase late st s)
    (hst : st ≠ .closed ∧ st ≠ .listen ∧ st ≠ .synSent ∧ st ≠ .synReceived)
    (h1 : gt ack s.sndUna = true) (h2 : gt ack s.sndMax = false) :
    Normal s ∧ s.synAcked = true ∧
      ((st = .established ∨ st = .closeWait) ∧ s.finQueued = false ∨
        (st = .finWait1 ∨ st = .closing ∨ st = .lastAck) ∧ s.finQueued = true) := by
  have hmax : s.sndMax = s.sndUna → False := fun h => by
    rw [h, h1] at h2
    cases h2
  have hopen : Open late s → Normal s := fun h => h.resolve_right fun hb => hmax hb.2.max
  cases st with
  | closed | listen | synSent | synReceived => simp at hst
  | established | closeWait => exact ⟨hopen hp.1, hp.2.1, .inl ⟨by decide, hp.2.2⟩⟩
  | finWait1 | closing | lastAck => exact ⟨hopen hp.1, hp.2.1, .inr ⟨by decide, hp.2.2⟩⟩
  | finWait2 | timeWait => exact (hmax hp.1.max).elim

theorem ackRing_congestion_ringOk {s : Sending} (hr : RingOk s) (acked : ℕ) (ack : Seq) :
    RingOk (ackCongestion (ackRing s ack) acked ack) := by
  have hr' : RingOk (ackRing s ack) := ackRing_ringOk hr
  obtain ⟨-, -, -, hlen, -, hsize, -⟩ := ackCongestion_frame (ackRing s ack) acked ack
  exact ⟨hsize ▸ hr'.pos, by rw [hlen, hsize]; exact hr'.fits, hsize ▸ hr'.small⟩

theorem finAcknowledged_inv (h : SocketInv late s) (hu : s.used = true) (he : s.error = 0)
    (hst : s.state = .finWait1 ∨ s.state = .closing ∨ s.state = .lastAck) (hr : RingOk t.snd)
    (hfin : Finished { t.snd with finQueued := false }) (ha : t.snd.synAcked = true)
    (hf : Frame s t) : SocketInv late (finAcknowledged t clk) := by
  have hr' : RingOk { t.snd with finQueued := false } := ⟨hr.pos, hr.fits, hr.small⟩
  have hnr : t.tmr.reapDeadline ≠ 0 → t.userOpen = true → False := by
    rw [hf.reapDeadline, hf.userOpen]
    intro h0 ho
    rw [h.not_reaped he (by rintro h1; rw [h1] at hst; simp at hst) h0] at ho
    cases ho
  have hnw : t.listener.isSome = true → False := by
    rw [hf.listener]
    intro hl
    have := (h.waiting hl).2.2
    rcases hst with h1 | h1 | h1 <;> simp [h1] at this
  have hu' := hf.used.trans hu
  have he' := hf.error.trans he
  unfold finAcknowledged
  rcases hst with h1 | h1 | h1
  · simp only [hf.state, h1]
    exact .of_live hu' he' hr' (fun h0 ho => (hnr h0 ho).elim) (fun hl => (hnw hl).elim) ⟨hfin, ha⟩
  · simp only [hf.state, h1]
    exact .of_live hu' he' hr' (fun _ _ => rfl) (fun hl => (hnw hl).elim) ⟨hfin, ha⟩
  · simp only [hf.state, h1]
    split_ifs
    · exact .zero
    · exact .of_live hu' he' hr' (fun h0 ho => (hnr h0 ho).elim) (fun hl => (hnw hl).elim) hfin.quiet

theorem processAck_inv (clk : Clock) (h : SocketInv late s) (hu : s.used = true)
    (hst : s.state ≠ .closed ∧ s.state ≠ .listen ∧ s.state ≠ .synSent ∧ s.state ≠ .synReceived)
    {ack : Seq} (h1 : gt ack s.snd.sndUna = true) (h2 : gt ack s.snd.sndMax = false) :
    SocketInv late (processAck s ack clk) := by
  have he : s.error = 0 := h.error_eq_zero hst.1
  have hr := h.ring hu
  obtain ⟨hn, ha, hstate⟩ := (h.phase hu he).acknowledgeable hst h1 h2
  obtain ⟨-, -, -, -, hq, -, -, -, -, hack⟩ :=
    ackCongestion_frame (ackRing s.snd ack) (ahead s.snd.sndUna ack) ack
  have hr' := ackRing_congestion_ringOk hr (ahead s.snd.sndUna ack) ack
  have hfr : Frame s (ackTaken s ack clk) :=
    ⟨rfl, rfl, rfl, rfl, rfl, ackTimed_reapDeadline _ _ _⟩
  unfold processAck
  change SocketInv late (if (s.snd.finQueued && decide (ahead s.snd.sndUna ack > s.snd.txLen)) = true
    then _ else _)
  split_ifs with hfin
  · rw [Bool.and_eq_true, decide_eq_true_eq] at hfin
    have hst' := (hstate.resolve_left fun hc => by rw [hc.2] at hfin; cases hfin.1).1
    exact finAcknowledged_inv h hu he hst' hr' (hn.acked_fin hr h1 h2 hfin.1 hfin.2)
      (hack.trans ha) hfr
  · rw [Bool.and_eq_true, decide_eq_true_eq] at hfin
    have hn' := hn.acked hr h1 h2 hfin
    refine h.of_frame hu hfr hr' fun _ => ?_
    rcases hstate with ⟨hs | hs, hf⟩ | ⟨hs | hs | hs, hf⟩ <;> rw [hs] <;>
      exact ⟨.inl hn', hack.trans ha, hq.trans hf⟩

theorem dupAck_frame (s : Socket) (ack : Seq) :
    Frame s (dupAck s ack) ∧ (dupAck s ack).snd.synAcked = s.snd.synAcked ∧
    (dupAck s ack).snd.finQueued = s.snd.finQueued ∧ (dupAck s ack).snd.txLen = s.snd.txLen ∧
    (dupAck s ack).snd.txSize = s.snd.txSize := by
  unfold dupAck
  simp only
  split_ifs <;> exact ⟨⟨rfl, rfl, rfl, rfl, rfl, rfl⟩, rfl, rfl, rfl, rfl⟩

/-- With something outstanding, the numbers of a connection past its handshake are in order. -/
theorem Phase.normal_of_outstanding {st : State} {s : Sending} (hp : Phase late st s)
    (hlen : 0 < s.txLen) (hne : s.sndUna ≠ s.sndMax) :
    Normal s ∧ s.synAcked = true ∧ ∀ t : Sending, Normal t → t.synAcked = s.synAcked →
      t.finQueued = s.finQueued → Phase late st t := by
  refine hp.normal (fun hq => ?_) fun hb => hne hb.max.symm
  rw [hq.txLen] at hlen
  exact absurd hlen (lt_irrefl 0)

theorem dupAck_inv (h : SocketInv late s) (hu : s.used = true) (hd : isDupAck s.snd g = true)
    (ack : Seq) : SocketInv late (dupAck s ack) := by
  obtain ⟨hfr, ha, hf, hlen, hsize⟩ := dupAck_frame s ack
  have hr := h.ring hu
  simp only [isDupAck, Bool.and_eq_true, decide_eq_true_eq] at hd
  refine h.of_frame hu hfr ⟨hsize ▸ hr.pos, by rw [hlen, hsize]; exact hr.fits, hsize ▸ hr.small⟩
    fun he => ?_
  obtain ⟨hn, -, hphase⟩ := (h.phase hu he).normal_of_outstanding hd.1.1.2 hd.1.2
  exact hphase _ (hn.dupAck hr hd.1.1.2 hd.1.2 ack) ha hf

/-! ### What a segment carries -/

theorem Tail.inv (ht : Tail s clk t) (h : SocketInv late s) (hu : s.used = true) :
    SocketInv late t ∧ t.used = true := by
  have hr := h.ring hu
  induction ht with
  | kept wnd rcv =>
    refine ⟨h.of_frame hu ⟨rfl, rfl, rfl, rfl, rfl, rfl⟩ ⟨hr.pos, hr.fits, hr.small⟩
      fun he => ?_, hu⟩
    refine SameNumbers.phase ?_ (h.phase hu he)
    exact ⟨rfl, rfl, rfl, rfl, rfl, rfl, rfl, rfl, rfl⟩
  | reopened hne wnd rcv =>
    refine ⟨h.of_frame hu ⟨rfl, rfl, rfl, rfl, rfl, rfl⟩ ⟨hr.pos, hr.fits, hr.small⟩
      fun he => ?_, hu⟩
    refine Rewound.phase ?_ hne (h.phase hu he)
    exact ⟨rfl, rfl, .inl rfl, rfl, rfl, rfl, rfl, id, fun _ => rfl⟩
  | @fin t _ rcv st hst ih =>
    obtain ⟨h, hu⟩ := ih
    have he : t.error = 0 := h.error_eq_zero (by rcases hst with hst | hst <;> rw [hst.1] <;> decide)
    have hp := h.phase hu he
    refine ⟨.of_live hu he (h.ring hu) (fun h0 ho => ?_) (fun hl => ?_) ?_, hu⟩
    · have hreap := h.not_reaped he (by rcases hst with hst | hst <;> rw [hst.1] <;> decide) h0
      rw [hreap] at ho
      cases ho
    · obtain ⟨h1, h2, h3⟩ := h.waiting hl
      rcases hst with ⟨hst, rfl⟩ | ⟨hst, rfl⟩
      · exact ⟨h1, h2, .inr (.inr rfl)⟩
      · simp [hst] at h3
    · rcases hst with ⟨hst, rfl⟩ | ⟨hst, rfl⟩ <;> rw [hst] at hp <;> exact hp
  | @lastFin t _ rcv hst ih =>
    obtain ⟨h, hu⟩ := ih
    have he : t.error = 0 := h.error_eq_zero (by rw [hst]; decide)
    have hp := h.phase hu he
    rw [hst] at hp
    refine ⟨.of_live hu he (h.ring hu) (fun _ _ => rfl) (fun hl => ?_) hp, hu⟩
    have := (h.waiting hl).2.2
    simp [hst] at this

theorem noted_inv (h : SocketInv late s) (hu : s.used = true) (g : Segment) :
    SocketInv late (s.noted g) := by
  have hr := h.ring hu
  refine h.of_frame hu ⟨rfl, rfl, rfl, rfl, rfl, rfl⟩ ⟨hr.pos, hr.fits, hr.small⟩ fun he => ?_
  refine SameNumbers.phase ?_ (h.phase hu he)
  exact ⟨rfl, rfl, rfl, rfl, rfl, rfl, rfl, rfl, rfl⟩

theorem tcpInput_inv (h : SocketInv late s) (hc : s.connected = true) (hready : Ready late s g) :
    SocketInv late (tcpInput s g clk) := by
  obtain ⟨hu, hclosed, hlisten⟩ := Socket.connected_iff.1 hc
  have hn := noted_inv h hu g
  have htail {t : Socket} (ht : SocketInv late t) (hu' : t.used = true) :
      SocketInv late (takeData (takeWindow t g clk) g clk) := ((taken_tail t g clk).inv ht hu').1
  have hr := tcpInput_receives s g clk
  generalize tcpInput s g clk = s' at hr ⊢
  cases hr with
  | ignored => exact h
  | reset he => exact (Calls.abort (.input g clk) he).inv h hu
  | connected hst hack hg =>
    exact synAnswered_inv h hu hst hack (hready (by simp [completesHandshake, hst, hack, hg]))
  | again hst =>
    have hr := h.ring hu
    refine h.of_frame hu ⟨rfl, rfl, rfl, rfl, rfl, rfl⟩ ⟨hr.pos, hr.fits, hr.small⟩ fun he => ?_
    have hp := h.phase hu he
    rw [hst] at hp ⊢
    exact ⟨⟨⟨hp.1.quiet.1, hp.1.quiet.2, hp.1.quiet.3, hp.1.quiet.4⟩, hp.1.una,
      .inl ⟨rfl, hp.1.max_cases⟩⟩, hp.2⟩
  | stray => exact hn
  | opened hst hg hack =>
    have hc : completesHandshake s g = true := by simp [completesHandshake, hst, hack, hg.1, hg.2]
    exact htail (handshakeDone_inv hn hu hst hack (hready hc))
      ((handshakeDone_used _ g.ack clk).trans hu)
  | beyond => exact hn.of_snd hu ⟨rfl, rfl, rfl, rfl, rfl, rfl⟩ rfl
  | freed hst _ hmax huna => exact processAck_inv clk hn hu ⟨hclosed, hlisten, hst⟩ huna hmax
  | acked hst _ hmax huna hused =>
    exact htail (processAck_inv clk hn hu ⟨hclosed, hlisten, hst⟩ huna hmax) hused
  | dup _ _ _ _ hd =>
    exact htail (dupAck_inv hn hu hd g.ack) ((dupAck_frame _ g.ack).1.used.trans hu)
  | old => exact htail hn hu

end

end Bashket.Tcp
