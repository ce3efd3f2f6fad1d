import Bashket.Tcp.Scoreboard
import Bashket.Tcp.SenderRuns

/-!
# The life of a socket

`Lifecycle` is what holds of a slot of the socket table whatever segments arrive, the sender's
numbers apart: past the handshake `syn_acked` is set, and a socket on which it is not set is as
`alloc_socket` made it (`Blank`). Every critical section keeps it, except that a segment that comes
during the handshake without completing it may leave blocks on the scoreboard.
-/

namespace Bashket.Tcp

open Serial

def State.opening : State → Bool
  | .synSent | .synReceived => true
  | _ => false

def Blank (s : Socket) : Prop :=
  (s.snd.finQueued = false ∧ s.snd.txLen = 0 ∧ s.snd.sacked = [] ∧ s.snd.retransmitOne = false ∧
    s.snd.cc.inRecovery = false) ∧ s.rcv.peerFin = false ∧ s.rcv.rxLen = 0 ∧ s.rcv.ooo = []

/-- What holds of a slot in every run, whatever segments arrive. -/
structure Lifecycle (s : Socket) : Prop where
  acked : s.state.past = true → s.snd.synAcked = true
  blank : s.snd.synAcked = false → Blank s

section

variable {s t : Socket} {g : Segment} {clk : Clock} {tx rx : Option Memory} {refuseSack : Bool}

theorem Lifecycle.zero : Lifecycle Socket.zero where
  acked h := nomatch h
  blank _ := ⟨⟨rfl, rfl, rfl, rfl, rfl⟩, rfl, rfl, rfl⟩

theorem Lifecycle.of_acked (ha : t.snd.synAcked = true) : Lifecycle t where
  acked _ := ha
  blank h0 := absurd (ha.symm.trans h0) (by decide)

theorem Calls.lifecycle {e : Event} (hc : Calls s e t) (h : Lifecycle s) : Lifecycle t := by
  cases hc with
  | same => exact h
  | gone => exact .zero
  | noted | accepted | idle => exact ⟨h.acked, h.blank⟩
  | failed | listening | reaped | left => exact ⟨nofun, h.blank⟩
  | timeout =>
    refine ⟨h.acked, fun ha => ?_⟩
    have ha' : s.snd.synAcked = false := ha
    obtain ⟨⟨h1, h2, -, -, h5⟩, hrcv⟩ := h.blank ha'
    exact ⟨⟨h1, h2, rfl, rfl, by simp [goBack, ha', h5]⟩, hrcv⟩
  | shutdown _ hst | closeFin _ _ _ hst | leftFin _ _ _ hst => exact .of_acked (h.acked hst.past.1)
  | close _ _ _ hst hp => exact .of_acked (h.acked (hst ▸ hp))

theorem allocSocket_blank (h : allocSocket tx rx refuseSack = some s) : Blank s := by
  unfold allocSocket at h
  split at h
  · cases h
    exact ⟨⟨rfl, rfl, rfl, rfl, rfl⟩, rfl, rfl, rfl⟩
  · cases h

theorem acceptSyn_blank {listener : ℕ} {localPort : BitVec 16} {src : BitVec 32} {iss : Seq}
    (h : acceptSyn listener localPort src g tx rx refuseSack iss = some s) :
    s.state = .synReceived ∧ s.snd.synAcked = false ∧ Blank s := by
  obtain ⟨s, hs, rfl⟩ := Option.map_eq_some_iff.1 h
  obtain ⟨-, -, -, -, -, -, -, -, ha⟩ := allocSocket_spec hs
  have hb := allocSocket_blank hs
  exact ⟨rfl, ha, hb⟩

theorem tcpRead_lifecycle (h : Lifecycle s) (len : ℕ) (kmalloc : Option Memory) :
    Lifecycle (tcpRead s len kmalloc).1 := by
  unfold tcpRead
  by_cases hlen : len = 0 ∨ s.rcv.rxLen = 0
  · rw [if_pos hlen]
    exact h
  · rw [if_neg hlen]
    exact ⟨h.acked, fun ha => absurd (.inr (h.blank ha).2.2.1) hlen⟩

theorem tcpWrite_lifecycle (h : Lifecycle s) (bytes : List UInt8) (kmalloc : Option Memory) :
    Lifecycle (tcpWrite s bytes kmalloc).1 := by
  rcases tcpWrite_cases s bytes kmalloc with h0 | ⟨⟨-, hst⟩, _, _, _, _, h0⟩ <;> rw [h0]
  · exact h
  · exact .of_acked (h.acked (by rcases hst with hst | hst <;> rw [hst] <;> rfl))

theorem sendWhatIsDue_lifecycle (h : Lifecycle s) {r : SendResult}
    (hr : sendWhatIsDue s clk = some r) : Lifecycle r.sock := by
  rcases sendWhatIsDue_cases hr with rfl | ⟨-, -, c, hc, rfl⟩
  · exact h
  · have hf := emitChoice_frame clk (choose_frame hc)
    have hrcv : (emitChoice s c clk).sock.rcv.peerFin = s.rcv.peerFin ∧
        (emitChoice s c clk).sock.rcv.rxLen = s.rcv.rxLen ∧
        (emitChoice s c clk).sock.rcv.ooo = s.rcv.ooo := by
      unfold emitChoice
      by_cases hflags : c.flags = Flags.none
      · rw [if_pos hflags]
        exact ⟨rfl, rfl, rfl⟩
      · rw [if_neg hflags]
        exact ⟨rfl, rfl, rfl⟩
    refine ⟨?_, fun ha => ?_⟩
    · rw [(emitChoice_sock_frame s c clk).state, hf.synAcked]
      exact h.acked
    · obtain ⟨⟨h1, h2, h3, h4, h5⟩, h6, h7, h8⟩ := h.blank (hf.synAcked.symm.trans ha)
      have hq := hf.quiet ⟨h2, h1, h4, h5⟩
      exact ⟨⟨hq.finQueued, hq.txLen, hf.sacked.trans h3, hq.retransmitOne, hq.inRecovery⟩,
        hrcv.1.trans h6, hrcv.2.1.trans h7, hrcv.2.2.trans h8⟩

/-! ### Segments -/

/-- It comes during the handshake and does not complete it, but its SACK option is looked at. -/
def strayAck (s : Socket) (g : Segment) : Bool :=
  s.state = .synReceived && !g.flags.rst && !g.flags.syn && g.flags.ack && g.ack ≠ s.snd.iss + 1

theorem finAcknowledged_acked (ha : s.snd.synAcked = true) (clk : Clock) :
    (finAcknowledged s clk).snd.synAcked = true ∨ finAcknowledged s clk = Socket.zero := by
  unfold finAcknowledged
  cases hst : s.state with
  | lastAck =>
    simp only
    split_ifs
    · exact .inr rfl
    · exact .inl ha
  | _ => exact .inl ha

theorem ackTaken_frame (s : Socket) (ack : Seq) (clk : Clock) :
    Frame s (ackTaken s ack clk) ∧ (ackTaken s ack clk).snd.synAcked = s.snd.synAcked := by
  refine ⟨⟨rfl, rfl, rfl, rfl, rfl, ackTimed_reapDeadline _ _ _⟩, ?_⟩
  obtain ⟨-, -, -, -, -, -, -, -, -, ha⟩ :=
    ackCongestion_frame (ackRing s.snd ack) (ack - s.snd.sndUna).toNat ack
  exact ha

theorem noteBlock_of_refused {sndMax ack : Seq} {q : List Range} {b : Range}
    (h : (lt b.start b.stop && gt b.start ack && !gt b.stop sndMax) = false) :
    noteBlock sndMax ack q b = q := by
  unfold noteBlock
  rw [if_pos]
  cases h1 : lt b.start b.stop <;> cases h2 : gt b.start ack <;> cases h3 : gt b.stop sndMax <;>
    simp_all

theorem noteSack_of_nil {s : Sending} (h : notedBlocks s g = []) :
    noteSack s g = s := by
  unfold noteSack
  unfold notedBlocks at h
  split_ifs with hc
  · rw [if_pos hc] at h
    have hsame : (parseOptions g.options).sack.foldl (noteBlock s.sndMax g.ack) s.sacked =
        s.sacked := by
      generalize (parseOptions g.options).sack = blocks at h
      induction blocks with
      | nil => rfl
      | cons b rest ih =>
        rw [List.filter_eq_nil_iff] at h ih
        rw [List.foldl_cons, noteBlock_of_refused (by simpa using h b List.mem_cons_self)]
        exact ih fun a ha => h a (List.mem_cons_of_mem _ ha)
    rw [hsame]
  · rfl

theorem processAck_acked (ha : s.snd.synAcked = true) (ack : Seq) (clk : Clock) :
    (processAck s ack clk).snd.synAcked = true ∨ processAck s ack clk = Socket.zero := by
  have htaken := (ackTaken_frame s ack clk).2.trans ha
  unfold processAck
  split_ifs
  · exact finAcknowledged_acked htaken clk
  · exact .inl htaken

theorem Tail.synAcked (ht : Tail s clk t) : t.snd.synAcked = s.snd.synAcked := by
  obtain ⟨_, _, hsnd, -⟩ := ht.snd
  rw [hsnd]

theorem tcpInput_lifecycle (h : Lifecycle s) (hc : s.connected = true)
    (hstray : strayAck s g = true → notedBlocks s.snd g = []) : Lifecycle (tcpInput s g clk) := by
  obtain ⟨-, hclosed, hlisten⟩ := Socket.connected_iff.1 hc
  have ha (hst : s.state ≠ .synSent ∧ s.state ≠ .synReceived) : s.snd.synAcked = true :=
    h.acked (State.past_iff.2 ⟨hclosed, hlisten, hst⟩)
  have htail {t : Socket} (ht : t.snd.synAcked = true) :
      Lifecycle (takeData (takeWindow t g clk) g clk) :=
    .of_acked ((taken_tail t g clk).synAcked.trans ht)
  have hr := tcpInput_receives s g clk
  generalize tcpInput s g clk = s' at hr ⊢
  cases hr with
  | ignored => exact h
  | reset he => exact (Calls.abort (.input g clk) he).lifecycle h
  | connected => exact .of_acked rfl
  | again => exact ⟨h.acked, h.blank⟩
  | stray hst hg hack =>
    have hnil : notedBlocks s.snd g = [] :=
      hstray (by simpa [strayAck, hst, hg.1, hg.2.1, hg.2.2] using hack)
    unfold Socket.noted
    rw [noteSack_of_nil hnil]
    exact h
  | opened =>
    refine htail ?_
    unfold handshakeDone
    simp only
    split_ifs <;> rfl
  | beyond hst => exact .of_acked (ha hst)
  | freed hst =>
    rcases processAck_acked (s := s.noted g) (ha hst) g.ack clk with h0 | h0
    · exact .of_acked h0
    · rw [h0]
      exact .zero
  | acked hst _ _ _ hused =>
    rcases processAck_acked (s := s.noted g) (ha hst) g.ack clk with h0 | h0
    · exact htail h0
    · rw [h0] at hused
      cases hused
  | dup hst => exact htail ((dupAck_frame _ g.ack).2.1.trans (ha hst))
  | old hst => exact htail (ha hst)

end

end Bashket.Tcp
