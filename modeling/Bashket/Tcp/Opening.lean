import Bashket.Tcp.Lifecycle

/-!
# Connections still opening

What a connection in SYN_SENT or SYN_RECEIVED may have left over from an earlier one in the same
socket: it inherits something exactly if `tcp_connect` is called on a socket that has been connected
before, or if a segment that does not answer our SYN leaves blocks on the scoreboard.
-/

namespace Bashket.Tcp

open Serial Run

section

variable {s t : Socket} {g : Segment} {clk : Clock}

/-! ### Staying in the handshake -/

/-- A section that leaves a connection in its handshake found it there, and moved none of its
numbers. -/
structure StillOpening (s t : Socket) : Prop where
  opening : s.state.opening = true
  synAcked : t.snd.synAcked = s.snd.synAcked
  iss : t.snd.iss = s.snd.iss
  sndMax : t.snd.sndMax = s.snd.sndMax

theorem StillOpening.refl (h : s.state.opening = true) : StillOpening s s := ⟨h, rfl, rfl, rfl⟩

theorem abortConnection_state (s : Socket) (e : ℕ) : (abortConnection s e).state = .closed := by
  unfold abortConnection
  split_ifs <;> rfl

theorem not_opening_of_eq {st st' : State} (h : st'.opening = true) (hst : st' = st)
    (hno : st.opening = false) : False := by
  rw [hst, hno] at h
  cases h

theorem Calls.opening {e : Event} (hc : Calls s e t) (h : t.state.opening = true) :
    StillOpening s t := by
  have hpast {st : State} (hp : st.past = true) (ho : st.opening = true) : False := by
    cases st <;> simp_all [State.past, State.opening]
  cases hc with
  | same => exact .refl h
  | noted | accepted | idle | timeout => exact ⟨h, rfl, rfl, rfl⟩
  | gone | failed | listening | reaped => cases h
  | shutdown _ hst | closeFin _ _ _ hst | leftFin _ _ _ hst => exact (hpast hst.past.2 h).elim
  | close _ _ _ _ hp => exact (hpast hp h).elim
  | left _ _ _ hst => exact ⟨hst ▸ h, rfl, rfl, rfl⟩

theorem tcpWrite_opening {bytes : List UInt8} {kmalloc : Option Memory}
    (h : (tcpWrite s bytes kmalloc).1.state.opening = true) :
    StillOpening s (tcpWrite s bytes kmalloc).1 := by
  rcases tcpWrite_cases s bytes kmalloc with h0 | ⟨⟨-, hst⟩, _, _, _, _, h0⟩ <;> rw [h0] at h ⊢
  · exact .refl h
  · rcases hst with hst | hst <;> exact (not_opening_of_eq h hst rfl).elim

theorem tcpRead_opening {len : ℕ} {kmalloc : Option Memory}
    (h : (tcpRead s len kmalloc).1.state.opening = true) :
    StillOpening s (tcpRead s len kmalloc).1 := by
  unfold tcpRead at h ⊢
  by_cases hlen : len = 0 ∨ s.rcv.rxLen = 0
  · rw [if_pos hlen] at h ⊢
    exact .refl h
  · rw [if_neg hlen] at h ⊢
    exact ⟨h, rfl, rfl, rfl⟩

theorem processAck_opening (ho : s.state.opening = false) (ack : Seq) (clk : Clock) :
    (processAck s ack clk).state.opening = false := by
  have hfin (t : Socket) (ht : t.state.opening = false) :
      (finAcknowledged t clk).state.opening = false := by
    unfold finAcknowledged
    cases hst : t.state <;> simp only
    case lastAck => split_ifs <;> rfl
    all_goals first | rfl | (rw [hst] at ht; exact ht)
  unfold processAck
  split_ifs
  · exact hfin _ ho
  · exact ho

theorem Tail.opening (ht : Tail s clk t) (ho : s.state.opening = false) :
    t.state.opening = false := by
  rcases ht.state with h0 | ⟨-, h0 | h0 | h0⟩ <;> rw [h0]
  · exact ho
  all_goals rfl

theorem tcpInput_opening (h : (tcpInput s g clk).state.opening = true) :
    StillOpening s (tcpInput s g clk) := by
  have hno (hst : s.state ≠ .synSent ∧ s.state ≠ .synReceived) :
      (s.noted g).state.opening = false := by
    cases h0 : s.state <;> simp_all [State.opening]
  have htail {t : Socket} (ht : t.state.opening = false)
      (h0 : (takeData (takeWindow t g clk) g clk).state.opening = true) : False :=
    absurd (((taken_tail t g clk).opening ht).symm.trans h0) (by decide)
  have hr := tcpInput_receives s g clk
  generalize tcpInput s g clk = s' at hr h ⊢
  cases hr with
  | ignored => exact .refl h
  | reset =>
    rw [abortConnection_state] at h
    cases h
  | connected => cases h
  | again | stray => exact ⟨h, rfl, rfl, rfl⟩
  | opened =>
    refine (htail ?_ h).elim
    unfold handshakeDone
    simp only
    split_ifs <;> rfl
  | beyond hst => exact absurd ((hno hst).symm.trans h) (by decide)
  | freed hst =>
    exact absurd ((processAck_opening (hno hst) g.ack clk).symm.trans h) (by decide)
  | acked hst => exact (htail (processAck_opening (hno hst) g.ack clk) h).elim
  | dup hst =>
    refine (htail ?_ h).elim
    rw [(dupAck_frame _ g.ack).1.state]
    exact hno hst
  | old hst => exact (htail (hno hst) h).elim

end

/-! ### Runs -/

/-- A connection begins in a socket that was never connected, and a segment that does not complete
the handshake has no block to note. -/
def StartsBlank (c : Conn) : Event → Prop
  | .connect _ _ port _ => connects c.sock port = true → c.sock.snd.synAcked = false
  | .input g _ => c.sock.connected = true → strayAck c.sock g = true →
      notedBlocks c.sock.snd g = []
  | _ => True

/-- While the handshake is under way nothing of an earlier connection is left. -/
def InheritsNothing (c : Conn) : Prop :=
  c.sock.state = .synSent ∨ c.sock.state = .synReceived →
    c.sock.snd.synAcked = false ∧ c.sock.rcv.peerFin = false ∧ c.sock.snd.finQueued = false ∧
    c.sock.snd.txLen = 0 ∧ c.sock.rcv.rxLen = 0 ∧ c.sock.rcv.ooo = [] ∧ c.sock.snd.sacked = []

/-- A `tcp_connect` that passes its checks is followed by a SYN. -/
def SynFollows (c : Conn) : Event → Prop
  | .connect ip remotePort port iss => connects c.sock port = true → ∀ clk,
      ∃ g ∈ emitted (step c (.connect ip remotePort port iss)) (.send clk), g.flags.syn = true
  | _ => True

/-- It begins, something is sent, or an event leaves it where it was. -/
theorem step_opening (c : Conn) (e : Event) (h : (step c e).sock.state.opening = true) :
    ((step c e).sock.snd.synAcked = false ∧ (step c e).sent = []) ∨
    (∃ ip remotePort port iss, e = .connect ip remotePort port iss ∧
      connects c.sock port = true) ∨
    (∃ clk, e = .send clk ∧ c.sock.state.opening = true ∧
      SendFrame c.sock.snd (step c e).sock.snd) ∨
    StillOpening c.sock (step c e).sock ∧ (step c e).sent = c.sent := by
  have hacts := step_acts c e
  generalize step c e = c' at h hacts ⊢
  cases hacts with
  | nothing => exact .inr (.inr (.inr ⟨.refl h, rfl⟩))
  | tcpOpen hs =>
    obtain ⟨s, hs', rfl⟩ := Option.map_eq_some_iff.1 hs
    exact (not_opening_of_eq h (allocSocket_spec hs').2.2.1 rfl).elim
  | acceptSyn hs => exact .inl ⟨(acceptSyn_blank hs).2.1, rfl⟩
  | connect ip remotePort port iss hc =>
    exact .inr (.inl ⟨ip, remotePort, port, iss, rfl, hc⟩)
  | @send clk r hs =>
    refine .inr (.inr (.inl ⟨clk, rfl, ?_⟩))
    rcases sendWhatIsDue_cases hs with rfl | ⟨-, -, ch, hc, rfl⟩
    · exact ⟨h, SendFrame.update _ _ _ id⟩
    · exact ⟨(congrArg State.opening (emitChoice_sock_frame c.sock ch clk).state).symm.trans h,
        emitChoice_frame clk (choose_frame hc)⟩
  | input => exact .inr (.inr (.inr ⟨tcpInput_opening h, rfl⟩))
  | write => exact .inr (.inr (.inr ⟨tcpWrite_opening h, rfl⟩))
  | read => exact .inr (.inr (.inr ⟨tcpRead_opening h, rfl⟩))
  | calls _ hc => exact .inr (.inr (.inr ⟨hc.opening h, rfl⟩))

theorem step_lifecycle (c : Conn) (e : Event) (h : Lifecycle c.sock) (hb : StartsBlank c e) :
    Lifecycle (step c e).sock := by
  have hacts := step_acts c e
  generalize step c e = c' at hacts ⊢
  cases hacts with
  | nothing => exact h
  | tcpOpen hs =>
    obtain ⟨s, hs', rfl⟩ := Option.map_eq_some_iff.1 hs
    have hst := (allocSocket_spec hs').2.2.1
    have hblank := allocSocket_blank hs'
    exact ⟨fun h0 => by simp [hst, State.past] at h0, fun _ => hblank⟩
  | acceptSyn hs =>
    obtain ⟨hst, -, hblank⟩ := acceptSyn_blank hs
    exact ⟨fun h0 => by simp [hst, State.past] at h0, fun _ => hblank⟩
  | connect ip remotePort port iss hc =>
    rw [tcpConnect_of_connects hc]
    exact ⟨nofun, h.blank⟩
  | input g clk hu => exact tcpInput_lifecycle h hu (hb hu)
  | send hs => exact sendWhatIsDue_lifecycle h hs
  | write => exact tcpWrite_lifecycle h _ _
  | read => exact tcpRead_lifecycle h _ _
  | calls _ hc => exact hc.lifecycle h

structure Unopened (c : Conn) : Prop where
  life : Lifecycle c.sock
  opening : c.sock.state.opening = true → c.sock.snd.synAcked = false

theorem step_unopened (c : Conn) (e : Event) (h : Unopened c) (hb : StartsBlank c e) :
    Unopened (step c e) := by
  refine ⟨step_lifecycle c e h.life hb, fun ho => ?_⟩
  rcases step_opening c e ho with h0 | ⟨ip, remotePort, port, iss, rfl, hc⟩ | ⟨clk, -, h1, hf⟩ |
    ⟨h1, -⟩
  · exact h0.1
  · rw [step_connect hc, tcpConnect_of_connects hc]
    exact hb hc
  · exact hf.synAcked.trans (h.opening h1)
  · exact h1.synAcked.trans (h.opening h1.opening)

theorem Unopened.init : Unopened Conn.init := ⟨Lifecycle.zero, fun h => nomatch h⟩

theorem Unopened.inheritsNothing {c : Conn} (h : Unopened c) : InheritsNothing c := by
  intro hst
  have ho : c.sock.state.opening = true := by
    rcases hst with h0 | h0 <;> rw [h0] <;> rfl
  have ha := h.opening ho
  obtain ⟨⟨h1, h2, h3, -⟩, h6, h7, h8⟩ := h.life.blank ha
  exact ⟨ha, h6, h1, h2, h7, h8, h3⟩

theorem synFollows_of_blank {c : Conn} {e : Event} (h : Lifecycle c.sock) (hb : StartsBlank c e) :
    SynFollows c e := by
  cases e with
  | connect ip remotePort port iss =>
    intro hc clk
    have ha := hb hc
    have hparts := hc
    simp only [connects, Bool.and_eq_true, decide_eq_true_eq, Socket.held_iff] at hparts
    obtain ⟨⟨⟨⟨hu, -⟩, -⟩, -⟩, -⟩ := hparts
    obtain ⟨⟨-, -, -, h4, h5⟩, -⟩ := h.blank ha
    rw [step_connect hc, tcpConnect_of_connects hc]
    simp [emitted, sendWhatIsDue, choose, sackRecovery, sendSyn, emitChoice, startSequence, hu, ha,
      h4, h5, Flags.none]
  | _ => trivial

theorem noteBlock_ne_nil {sndMax ack : Seq} {q : List Range} {b : Range}
    (h : q ≠ [] ∨ (lt b.start b.stop && gt b.start ack && !gt b.stop sndMax) = true) :
    noteBlock sndMax ack q b ≠ [] := by
  unfold noteBlock
  split_ifs with hc
  · refine h.resolve_right fun h0 => ?_
    simp only [Bool.and_eq_true, Bool.not_eq_true'] at h0
    simp [h0.1.1, h0.1.2, h0.2] at hc
  · cases ho : oooAdd q b.start b.stop with
    | none =>
      rintro rfl
      simp [oooAdd, joinRanges, oooRanges] at ho
    | some q' =>
      unfold oooAdd at ho
      simp only at ho
      split_ifs at ho
      cases ho
      simp

theorem noteSack_ne_nil {s : Sending} {g : Segment} (h : notedBlocks s g ≠ []) :
    (noteSack s g).sacked ≠ [] := by
  unfold noteSack
  unfold notedBlocks at h
  split_ifs with hc
  · rw [if_pos hc] at h
    have hkeep (blocks q : List Range) (hq : q ≠ []) :
        blocks.foldl (noteBlock s.sndMax g.ack) q ≠ [] := by
      induction blocks generalizing q with
      | nil => exact hq
      | cons b rest ih => exact ih _ (noteBlock_ne_nil (.inl hq))
    simp only
    generalize (parseOptions g.options).sack = blocks at h
    generalize s.sacked = q
    induction blocks generalizing q with
    | nil => exact absurd rfl h
    | cons b rest ih =>
      cases hb : (lt b.start b.stop && gt b.start g.ack && !gt b.stop s.sndMax) with
      | true => exact hkeep rest _ (noteBlock_ne_nil (.inr hb))
      | false =>
        rw [List.filter_cons, hb] at h
        exact ih h _
  · rw [if_neg hc] at h
    exact absurd rfl h

theorem tcpInput_of_stray {s : Socket} {g : Segment} (clk : Clock) (h : strayAck s g = true) :
    tcpInput s g clk = { s with snd := noteSack s.snd g } ∧ s.state = .synReceived := by
  simp only [strayAck, Bool.and_eq_true, decide_eq_true_eq, Bool.not_eq_true'] at h
  obtain ⟨⟨⟨⟨hst, hrst⟩, hsyn⟩, hack⟩, hiss⟩ := h
  refine ⟨?_, hst⟩
  unfold tcpInput
  rw [if_neg (by rw [hst]; decide), if_neg (by simp [hrst]), if_neg (by simp [hsyn]),
    if_neg (by simp [hack]), noteSack_eq]
  unfold takeAck
  rw [if_pos hst, if_pos hiss]

theorem not_inheritsNothing_of_not_blank {c : Conn} {e : Event} (hb : ¬StartsBlank c e) :
    ¬InheritsNothing (step c e) := by
  intro hnone
  cases e with
  | connect ip remotePort port iss =>
    simp only [StartsBlank, not_forall, Bool.not_eq_false] at hb
    obtain ⟨hc, ha⟩ := hb
    rw [step_connect hc, tcpConnect_of_connects hc] at hnone
    exact absurd ((hnone (.inl rfl)).1.symm.trans ha) (by decide)
  | input g clk =>
    simp only [StartsBlank, not_forall] at hb
    obtain ⟨hconn, hstray, hne⟩ := hb
    obtain ⟨heq, hst⟩ := tcpInput_of_stray clk hstray
    simp only [step, if_pos hconn, heq, InheritsNothing] at hnone
    obtain ⟨-, -, -, -, -, -, hnil⟩ := hnone (.inr hst)
    exact noteSack_ne_nil hne hnil
  | _ => exact hb trivial

/-- Nothing is inherited, and every `tcp_connect` is followed by a SYN, exactly if connections begin
in sockets never connected before and no block is noted during a handshake. -/
theorem inheritsNothing_iff_startsBlank (es : List Event) :
    Always step InheritsNothing Conn.init es ∧ Along step SynFollows Conn.init es ↔
      Along step StartsBlank Conn.init es := by
  suffices hgen : ∀ c, Unopened c → (Always step InheritsNothing c es ∧ Along step SynFollows c es ↔
      Along step StartsBlank c es) from hgen _ Unopened.init
  induction es with
  | nil => exact fun c h => ⟨fun _ => trivial, fun _ => ⟨h.inheritsNothing, trivial⟩⟩
  | cons e es ih =>
    intro c h
    by_cases hb : StartsBlank c e
    · have hrest := ih _ (step_unopened c e h hb)
      constructor
      · rintro ⟨⟨-, h1⟩, -, h2⟩
        exact ⟨hb, hrest.1 ⟨h1, h2⟩⟩
      · rintro ⟨-, h1⟩
        obtain ⟨h2, h3⟩ := hrest.2 h1
        exact ⟨⟨h.inheritsNothing, h2⟩, synFollows_of_blank h.life hb, h3⟩
    · refine ⟨fun hr => ?_, fun hr => absurd hr.1 hb⟩
      exact absurd ((always_iff _ _).1 hr.1 [e] es rfl) (not_inheritsNothing_of_not_blank hb)

def peerSegment (seq ack : Seq) (flags : Flags) : Segment :=
  { srcPort := 80, dstPort := 1000, seq := seq, ack := ack, flags := flags
    window := 1000, options := [], data := [] }

/-- A connection is closed by the peer and then by its owner, who connects the socket again. -/
def reconnectRun : List Event :=
  [.tcpOpen (some fun _ => 0) (some fun _ => 0) false, .connect 1 80 1000 1000, .send ⟨5, 5000⟩,
    .input (peerSegment 500 1001 { Flags.none with syn := true, ack := true }) ⟨6, 6000⟩,
    .input (peerSegment 501 1001 { Flags.none with fin := true, ack := true }) ⟨7, 7000⟩,
    .shutdown, .send ⟨8, 8000⟩,
    .input (peerSegment 502 1002 { Flags.none with ack := true }) ⟨9, 9000⟩,
    .connect 1 80 1000 2000]

/-- The second connection starts with `syn_acked` and `peer_fin` set, and its SYN is never sent. -/
theorem reconnectRun_inherits :
    ¬InheritsNothing (run step Conn.init reconnectRun) ∧
    (emitted (run step Conn.init reconnectRun) (.send ⟨10, 10000⟩)).all (!·.flags.syn) = true := by
  refine ⟨?_, by decide +kernel⟩
  unfold InheritsNothing
  decide +kernel

end Bashket.Tcp
