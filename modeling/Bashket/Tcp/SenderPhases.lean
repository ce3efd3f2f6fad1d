import Bashket.Tcp.System

/-!
# What holds of the sending side, phase by phase

`Phase st s` is what holds of the sending half `s` of a socket in state `st`. While a connection is
open, either the three sequence numbers of the sender are in order (`Normal`), or the handshake was
completed while the SYN was waiting to be sent again, and `snd_nxt` has been left behind (`Behind`).
-/

namespace Bashket.Tcp

open Serial

/-- The send ring is allocated, and holds no more than it has room for. -/
structure RingOk (s : Sending) : Prop where
  pos : 0 < s.txSize
  fits : s.txLen ≤ s.txSize
  small : s.txSize ≤ bufferMax

structure Quiet (s : Sending) : Prop where
  txLen : s.txLen = 0
  finQueued : s.finQueued = false
  retransmitOne : s.retransmitOne = false
  inRecovery : s.cc.inRecovery = false

/-- The sender's numbers are in order, and everything sent is in the ring (or is the FIN). -/
structure Normal (s : Sending) : Prop where
  nxt : ahead s.sndUna s.sndNxt ≤ ahead s.sndUna s.sndMax
  max : ahead s.sndUna s.sndMax ≤ s.txLen + s.finQueued.toNat
  retransmitOne : s.retransmitOne = true → 0 < s.txLen
  recover : s.cc.inRecovery = true → ahead s.sndUna s.cc.recover < ahead s.sndUna s.sndMax

/-- The handshake ended while `snd_nxt` was back at the SYN: it is one short of `snd_una`. -/
structure Behind (s : Sending) : Prop where
  nxt : s.sndNxt + 1 = s.sndUna
  max : s.sndMax = s.sndUna
  retransmitOne : s.retransmitOne = false
  inRecovery : s.cc.inRecovery = false

/-- The SYN is the only thing there is to send: not yet sent, sent, or to be sent again. -/
structure Opening (s : Sending) : Prop where
  quiet : Quiet s
  una : s.sndUna = s.iss
  numbers : s.sndNxt = s.iss ∧ (s.sndMax = s.iss ∨ s.sndMax = s.iss + 1) ∨
    s.sndNxt = s.iss + 1 ∧ s.sndMax = s.iss + 1

/-- Everything ever queued has been acknowledged, and nothing will follow. -/
structure Finished (s : Sending) : Prop where
  quiet : Quiet s
  nxt : s.sndNxt = s.sndUna
  max : s.sndMax = s.sndUna

/-- `late`: the handshake may have ended while the SYN was waiting to be sent again. -/
def Open (late : Prop) (s : Sending) : Prop := Normal s ∨ late ∧ Behind s

/-- The sending half of a socket in a given state (without an error). -/
def Phase (late : Prop) : State → Sending → Prop
  | .closed, s | .listen, s => Quiet s
  -- a socket that has been connected before still has `syn_acked` set
  | .synSent, s => Opening s ∧ (s.synAcked = true → s.sndNxt = s.iss ∧ s.sndMax = s.iss)
  | .synReceived, s => Opening s ∧ s.synAcked = false
  | .established, s | .closeWait, s => Open late s ∧ s.synAcked = true ∧ s.finQueued = false
  | .finWait1, s | .closing, s | .lastAck, s =>
    Open late s ∧ s.synAcked = true ∧ s.finQueued = true
  | .finWait2, s | .timeWait, s => Finished s ∧ s.synAcked = true

/-- Two sending states that agree in everything the phases are about. -/
structure SameNumbers (s t : Sending) : Prop where
  iss : t.iss = s.iss
  sndUna : t.sndUna = s.sndUna
  sndNxt : t.sndNxt = s.sndNxt
  sndMax : t.sndMax = s.sndMax
  synAcked : t.synAcked = s.synAcked
  finQueued : t.finQueued = s.finQueued
  txLen : t.txLen = s.txLen
  retransmitOne : t.retransmitOne = s.retransmitOne
  cc : t.cc = s.cc

section SameNumbers

variable {s t : Sending} (h : SameNumbers s t)
include h

theorem SameNumbers.quiet (hq : Quiet s) : Quiet t where
  txLen := h.txLen.trans hq.txLen
  finQueued := h.finQueued.trans hq.finQueued
  retransmitOne := h.retransmitOne.trans hq.retransmitOne
  inRecovery := h.cc ▸ hq.inRecovery

theorem SameNumbers.normal (hn : Normal s) : Normal t where
  nxt := by rw [h.sndUna, h.sndNxt, h.sndMax]; exact hn.nxt
  max := by rw [h.sndUna, h.sndMax, h.txLen, h.finQueued]; exact hn.max
  retransmitOne := by rw [h.retransmitOne, h.txLen]; exact hn.retransmitOne
  recover := by rw [h.sndUna, h.sndMax, h.cc]; exact hn.recover

theorem SameNumbers.behind (hb : Behind s) : Behind t where
  nxt := by rw [h.sndUna, h.sndNxt]; exact hb.nxt
  max := by rw [h.sndUna, h.sndMax]; exact hb.max
  retransmitOne := h.retransmitOne.trans hb.retransmitOne
  inRecovery := h.cc ▸ hb.inRecovery

theorem SameNumbers.open {late : Prop} : Open late s → Open late t :=
  Or.imp h.normal (And.imp_right h.behind)

theorem SameNumbers.opening (ho : Opening s) : Opening t where
  quiet := h.quiet ho.quiet
  una := by rw [h.sndUna, h.iss]; exact ho.una
  numbers := by rw [h.sndNxt, h.sndMax, h.iss]; exact ho.numbers

theorem SameNumbers.finished (hf : Finished s) : Finished t where
  quiet := h.quiet hf.quiet
  nxt := by rw [h.sndNxt, h.sndUna]; exact hf.nxt
  max := by rw [h.sndMax, h.sndUna]; exact hf.max

theorem SameNumbers.phase {late : Prop} {st : State} (hp : Phase late st s) : Phase late st t := by
  cases st with
  | closed | listen => exact h.quiet hp
  | synSent =>
    refine ⟨h.opening hp.1, ?_⟩
    rw [h.synAcked, h.sndNxt, h.sndMax, h.iss]
    exact hp.2
  | synReceived => exact ⟨h.opening hp.1, h.synAcked.trans hp.2⟩
  | established | closeWait | finWait1 | closing | lastAck =>
    exact ⟨h.open hp.1, h.synAcked.trans hp.2.1, h.finQueued.trans hp.2.2⟩
  | finWait2 | timeWait => exact ⟨h.finished hp.1, h.synAcked.trans hp.2⟩

end SameNumbers

/-! ### Distances of the sender's numbers -/

theorem bufferMax_eq : bufferMax = 262144 := rfl

theorem RingOk.txLen_le {s : Sending} (h : RingOk s) : s.txLen ≤ 262144 :=
  h.fits.trans h.small

theorem Normal.maxOff_le {s : Sending} (h : Normal s) (hr : RingOk s) :
    ahead s.sndUna s.sndMax ≤ 262145 := by
  have h1 := h.max
  have h2 := hr.txLen_le
  have h3 := Bool.toNat_le s.finQueued
  omega

theorem ahead_add_one_left {a b : Seq} (h : a + 1 = b) : ahead b a = 2 ^ 32 - 1 := by
  subst h
  simp only [ahead]
  bv_omega

theorem ack_between {una ack max : Seq} (hm : ahead una max ≤ 262145) (h1 : gt ack una = true)
    (h2 : gt ack max = false) : 0 < ahead una ack ∧ ahead una ack ≤ ahead una max := by
  obtain ⟨hpos, hlt⟩ := gt_iff_ahead.1 h1
  refine ⟨hpos, ?_⟩
  by_contra hc
  have : gt ack max = true := (gt_iff (u := una) (by omega) (by omega)).2 (by omega)
  rw [this] at h2
  cases h2

/-! ### Acknowledgements -/

section Ack

variable {s : Sending} {ack : Seq}

theorem ackCongestion_frame (s : Sending) (acked : ℕ) (ack : Seq) :
    (ackCongestion s acked ack).sndUna = s.sndUna ∧ (ackCongestion s acked ack).sndNxt = s.sndNxt ∧
    (ackCongestion s acked ack).sndMax = s.sndMax ∧ (ackCongestion s acked ack).txLen = s.txLen ∧
    (ackCongestion s acked ack).finQueued = s.finQueued ∧
    (ackCongestion s acked ack).txSize = s.txSize ∧ (ackCongestion s acked ack).txHead = s.txHead ∧
    (ackCongestion s acked ack).tx = s.tx ∧ (ackCongestion s acked ack).iss = s.iss ∧
    (ackCongestion s acked ack).synAcked = s.synAcked := by
  unfold ackCongestion
  split_ifs <;> simp

theorem ackCongestion_retransmitOne (s : Sending) (acked : ℕ) (ack : Seq)
    (h : (ackCongestion s acked ack).retransmitOne = true) : 0 < s.txLen := by
  unfold ackCongestion at h
  split_ifs at h <;> simp at h <;> exact h.2

theorem ackCongestion_cc (s : Sending) (acked : ℕ) (ack : Seq) :
    (ackCongestion s acked ack).cc.inRecovery = (s.cc.inRecovery && !gt ack s.cc.recover) ∧
    (ackCongestion s acked ack).cc.recover = s.cc.recover := by
  unfold ackCongestion
  split_ifs with h
  · simp only [Bool.and_eq_true] at h
    simp [h.1.2, h.2]
  · exact ⟨ccNewAck_inRecovery .., ccNewAck_recover ..⟩

theorem ackRing_ringOk (hr : RingOk s) : RingOk (ackRing s ack) where
  pos := hr.pos
  fits := (Nat.sub_le _ _).trans hr.fits
  small := hr.small

/-- What `process_ack` does to the sequence numbers and the ring, in distances from the old
`snd_una`. -/
theorem ackRing_offsets (hn : Normal s) (hr : RingOk s) (h1 : gt ack s.sndUna = true)
    (h2 : gt ack s.sndMax = false) :
    ahead ack (ackRing s ack).sndMax = ahead s.sndUna s.sndMax - ahead s.sndUna ack ∧
    ahead ack (ackRing s ack).sndNxt ≤ ahead ack (ackRing s ack).sndMax ∧
    (ackRing s ack).txLen = s.txLen - ahead s.sndUna ack := by
  have hm := hn.maxOff_le hr
  obtain ⟨hpos, hle⟩ := ack_between hm h1 h2
  have hnxt := hn.nxt
  have hmax : ahead ack s.sndMax = ahead s.sndUna s.sndMax - ahead s.sndUna ack := ahead_rebase hle
  refine ⟨hmax, ?_, ?_⟩
  · simp only [ackRing]
    split_ifs with hlt
    · simp
    · have : ¬ahead s.sndUna s.sndNxt < ahead s.sndUna ack := fun h =>
        hlt ((lt_iff (u := s.sndUna) (by omega) (by omega)).2 h)
      rw [ahead_rebase (u := s.sndUna) (by omega), hmax]
      omega
  · simp only [ackRing]
    change s.txLen - (if ahead s.sndUna ack < s.txLen then ahead s.sndUna ack else s.txLen) = _
    split_ifs <;> omega

theorem Normal.acked (hn : Normal s) (hr : RingOk s) (h1 : gt ack s.sndUna = true)
    (h2 : gt ack s.sndMax = false) (hf : ¬(s.finQueued = true ∧ s.txLen < ahead s.sndUna ack)) :
    Normal (ackCongestion (ackRing s ack) (ahead s.sndUna ack) ack) := by
  have hm := hn.maxOff_le hr
  obtain ⟨hpos, hle⟩ := ack_between hm h1 h2
  obtain ⟨hmax, hnxt, hlen⟩ := ackRing_offsets hn hr h1 h2
  obtain ⟨e1, e2, e3, e4, e5, -⟩ := ackCongestion_frame (ackRing s ack) (ahead s.sndUna ack) ack
  obtain ⟨c1, c2⟩ := ackCongestion_cc (ackRing s ack) (ahead s.sndUna ack) ack
  constructor
  · rw [e1, e2, e3]
    exact hnxt
  · rw [e1, e3, e4, e5, hlen]
    have := hn.max
    change ahead ack (ackRing s ack).sndMax ≤ _ + s.finQueued.toNat
    rw [hmax]
    cases hq : s.finQueued
    · simp [hq] at this ⊢
      omega
    · simp [hq] at this hf ⊢
      omega
  · intro h
    rw [e4]
    exact ackCongestion_retransmitOne _ _ _ h
  · intro h
    rw [c1, Bool.and_eq_true, Bool.not_eq_true'] at h
    rw [c2, e1, e3]
    obtain ⟨hin, hgt⟩ := h
    have hrec : ahead s.sndUna s.cc.recover < ahead s.sndUna s.sndMax := hn.recover hin
    have hge : ahead s.sndUna ack ≤ ahead s.sndUna s.cc.recover := by
      by_contra hc
      have : gt ack s.cc.recover = true := (gt_iff (u := s.sndUna) (by omega) (by omega)).2 (by omega)
      exact absurd hgt (by simp [ackRing, this])
    change ahead ack s.cc.recover < ahead ack (ackRing s ack).sndMax
    rw [ahead_rebase hge, hmax]
    omega

theorem Normal.acked_fin (hn : Normal s) (hr : RingOk s) (h1 : gt ack s.sndUna = true)
    (h2 : gt ack s.sndMax = false) (hq : s.finQueued = true) (hf : s.txLen < ahead s.sndUna ack) :
    Finished { ackCongestion (ackRing s ack) (ahead s.sndUna ack) ack with finQueued := false } := by
  have hm := hn.maxOff_le hr
  obtain ⟨hpos, hle⟩ := ack_between hm h1 h2
  obtain ⟨hmax, hnxt, hlen⟩ := ackRing_offsets hn hr h1 h2
  obtain ⟨e1, e2, e3, e4, -⟩ := ackCongestion_frame (ackRing s ack) (ahead s.sndUna ack) ack
  obtain ⟨c1, c2⟩ := ackCongestion_cc (ackRing s ack) (ahead s.sndUna ack) ack
  have hall := hn.max
  rw [hq, Bool.toNat_true] at hall
  have hzero : ahead ack (ackRing s ack).sndMax = 0 := by omega
  have hlen0 : (ackRing s ack).txLen = 0 := by omega
  refine ⟨⟨e4.trans hlen0, rfl, ?_, ?_⟩, ?_, ?_⟩
  · by_contra hc
    rw [Bool.not_eq_false] at hc
    have := ackCongestion_retransmitOne _ _ _ hc
    omega
  · change (ackCongestion (ackRing s ack) (ahead s.sndUna ack) ack).cc.inRecovery = false
    rw [c1]
    by_contra hc
    rw [Bool.not_eq_false, Bool.and_eq_true, Bool.not_eq_true'] at hc
    have hrec : ahead s.sndUna s.cc.recover < ahead s.sndUna s.sndMax := hn.recover hc.1
    have : gt ack s.cc.recover = true := (gt_iff (u := s.sndUna) (by omega) (by omega)).2 (by omega)
    exact absurd hc.2 (by simp [ackRing, this])
  · have hnxt0 : ahead ack (ackRing s ack).sndNxt = 0 := by omega
    exact e2.trans ((ahead_eq_zero.1 hnxt0).trans e1.symm)
  · exact e3.trans ((ahead_eq_zero.1 hzero).trans e1.symm)

/-- A duplicate acknowledgement starts a recovery below `snd_max`, or changes no number. -/
theorem Normal.dupAck {s : Socket} (hn : Normal s.snd) (hr : RingOk s.snd) (hlen : 0 < s.snd.txLen)
    (hne : s.snd.sndUna ≠ s.snd.sndMax) (ack : Seq) : Normal (dupAck s ack).snd := by
  have hm := hn.maxOff_le hr
  have hpos : 0 < ahead s.snd.sndUna s.snd.sndMax := by
    rw [Nat.pos_iff_ne_zero, Ne, ahead_eq_zero]
    exact Ne.symm hne
  have hrec : ahead s.snd.sndUna (s.snd.sndMax - 1) < ahead s.snd.sndUna s.snd.sndMax := by
    simp only [ahead] at hpos ⊢
    bv_omega
  unfold Tcp.dupAck
  simp only
  generalize (if s.snd.dupacks < 255 then s.snd.dupacks + 1 else s.snd.dupacks) = count
  have hcases := ccDupAck_cases s.snd.cc s.snd.mss count ack s.snd.sndMax
    (s.snd.sndMax - s.snd.sndUna).toNat
  generalize ccDupAck s.snd.cc s.snd.mss count ack s.snd.sndMax
    (s.snd.sndMax - s.snd.sndUna).toNat = r at hcases ⊢
  rcases hcases with ⟨h2, hin, hre⟩ | ⟨h2, hold, hin, hre⟩
  · simp only [h2, Bool.false_eq_true, if_false]
    split_ifs with h1
    · exact ⟨hn.nxt, hn.max, fun _ => hlen, hn.recover⟩
    · refine ⟨hn.nxt, hn.max, fun _ => hlen, fun h => ?_⟩
      simp only at h ⊢
      rw [hin] at h
      rw [hre]
      exact hn.recover h
  · rw [h2, hold, Bool.and_false, if_neg Bool.false_ne_true, if_pos rfl]
    refine ⟨hn.nxt, hn.max, fun _ => hlen, fun _ => ?_⟩
    simp only
    split_ifs <;> simpa only [hre] using hrec

end Ack

/-! ### Sending -/

section Send

variable {s : Socket} {c : Choice}

theorem choose_cases (h : choose s = some c) :
    s.snd.retransmitOne = true ∧ c = fastRetransmit s ∨
    s.snd.retransmitOne = false ∧ sackRecovery s.snd = true ∧
      (∃ start len, dueHole s.snd = some (start, len) ∧ c = sackRepair s start len) ∨
    s.snd.retransmitOne = false ∧ s.snd.synAcked = false ∧ c = sendSyn s ∨
    s.snd.retransmitOne = false ∧ s.snd.synAcked = true ∧ ∃ pipe, c = sendNew s pipe := by
  unfold choose at h
  obtain ⟨pipe, -, h⟩ := Option.map_eq_some_iff.1 h
  cases hone : s.snd.retransmitOne
  · simp only [hone, Bool.false_eq_true, if_false] at h
    split at h
    · rename_i start len hhole
      split_ifs at hhole with hrec
      rw [Bool.and_eq_true] at hrec
      exact .inr (.inl ⟨rfl, hrec.1, start, len, hhole, h.symm⟩)
    · cases hack : s.snd.synAcked
      · exact .inr (.inr (.inl ⟨rfl, rfl, by simpa [hack] using h.symm⟩))
      · exact .inr (.inr (.inr ⟨rfl, rfl, pipe, by simpa [hack] using h.symm⟩))
  · exact .inl ⟨rfl, by simpa [hone] using h.symm⟩

/-- Sending moves `snd_nxt` and `snd_max`, and notes what was sent again; nothing else. -/
structure SendFrame (s t : Sending) : Prop where
  iss : t.iss = s.iss
  sndUna : t.sndUna = s.sndUna
  sndWnd : t.sndWnd = s.sndWnd
  sackOk : t.sackOk = s.sackOk
  sacked : t.sacked = s.sacked
  synAcked : t.synAcked = s.synAcked
  finQueued : t.finQueued = s.finQueued
  tx : t.tx = s.tx
  txHead : t.txHead = s.txHead
  txLen : t.txLen = s.txLen
  txSize : t.txSize = s.txSize
  cc : t.cc = s.cc
  retransmitOne : t.retransmitOne = true → s.retransmitOne = true

theorem SendFrame.ringOk {s t : Sending} (h : SendFrame s t) (hr : RingOk s) : RingOk t where
  pos := h.txSize ▸ hr.pos
  fits := by rw [h.txLen, h.txSize]; exact hr.fits
  small := h.txSize ▸ hr.small

theorem SendFrame.quiet {s t : Sending} (h : SendFrame s t) (hq : Quiet s) : Quiet t where
  txLen := h.txLen.trans hq.txLen
  finQueued := h.finQueued.trans hq.finQueued
  retransmitOne := by
    by_contra hc
    rw [Bool.not_eq_false] at hc
    exact absurd (h.retransmitOne hc) (by rw [hq.retransmitOne]; exact Bool.false_ne_true)
  inRecovery := by rw [h.cc]; exact hq.inRecovery

theorem SendFrame.update (s : Sending) (nxt rexmit : Seq) {one : Bool}
    (h : one = true → s.retransmitOne = true) :
    SendFrame s { s with sndNxt := nxt, rexmitNext := rexmit, retransmitOne := one } :=
  ⟨rfl, rfl, rfl, rfl, rfl, rfl, rfl, rfl, rfl, rfl, rfl, rfl, h⟩

theorem fastRetransmit_frame (s : Socket) : SendFrame s.snd (fastRetransmit s).snd :=
  SendFrame.update s.snd s.snd.sndNxt _ (fun h => absurd h Bool.false_ne_true)

theorem sackRepair_frame (s : Socket) (start len : Seq) :
    SendFrame s.snd (sackRepair s start len).snd :=
  SendFrame.update s.snd s.snd.sndNxt _ id

theorem sendSyn_frame (s : Socket) : SendFrame s.snd (sendSyn s).snd := by
  unfold sendSyn
  simp only
  split_ifs
  · exact SendFrame.update s.snd _ s.snd.rexmitNext id
  · exact SendFrame.update s.snd s.snd.sndNxt s.snd.rexmitNext id

theorem sendNew_frame (s : Socket) (pipe : ℕ) : SendFrame s.snd (sendNew s pipe).snd :=
  SendFrame.update s.snd _ s.snd.rexmitNext id

theorem choose_frame (h : choose s = some c) : SendFrame s.snd c.snd := by
  rcases choose_cases h with ⟨-, rfl⟩ | ⟨-, -, a, b, -, rfl⟩ | ⟨-, -, rfl⟩ | ⟨-, -, p, rfl⟩
  · exact fastRetransmit_frame s
  · exact sackRepair_frame s a b
  · exact sendSyn_frame s
  · exact sendNew_frame s p

theorem sndMax_update (s : Sending) (nxt rexmit : Seq) (one : Bool) :
    ({ s with sndNxt := nxt, rexmitNext := rexmit, retransmitOne := one } : Sending).sndMax =
      s.sndMax := rfl

theorem choose_sndMax (h : choose s = some c) : c.snd.sndMax = s.snd.sndMax := by
  rcases choose_cases h with ⟨-, rfl⟩ | ⟨-, -, a, b, -, rfl⟩ | ⟨-, -, rfl⟩ | ⟨-, -, p, rfl⟩
  · exact sndMax_update s.snd s.snd.sndNxt _ _
  · exact sndMax_update s.snd s.snd.sndNxt _ _
  · simp only [sendSyn]
    split_ifs <;> rfl
  · exact sndMax_update s.snd _ s.snd.rexmitNext _

/-- Does the segment chosen take sequence numbers that `snd_nxt` has moved over? -/
def Choice.counted (c : Choice) : Bool := (!c.data.isEmpty || c.flags.syn || c.flags.fin) && !c.fast

theorem emitChoice_snd (clk : Clock) (h : c.flags = Flags.none → c.data = []) :
    (emitChoice s c clk).sock.snd =
      if c.counted && gt c.snd.sndNxt c.snd.sndMax then { c.snd with sndMax := c.snd.sndNxt }
      else c.snd := by
  unfold emitChoice
  by_cases hf : c.flags = Flags.none
  · rw [if_pos hf]
    simp [Choice.counted, h hf, hf, Flags.none]
  · rw [if_neg hf]
    by_cases hm : (c.counted && gt c.snd.sndNxt c.snd.sndMax) = true
    · rw [if_pos hm]
      rw [Choice.counted] at hm
      simp only [if_pos hm]
    · rw [if_neg hm]
      rw [Choice.counted] at hm
      simp only [if_neg hm]

theorem emitChoice_frame (clk : Clock) (h : SendFrame s.snd c.snd) :
    SendFrame s.snd (emitChoice s c clk).sock.snd := by
  unfold emitChoice
  by_cases hf : c.flags = Flags.none
  · rw [if_pos hf]
    exact h
  · rw [if_neg hf]
    exact ⟨h.iss, h.sndUna, h.sndWnd, h.sackOk, h.sacked, h.synAcked, h.finQueued, h.tx, h.txHead,
      h.txLen, h.txSize, h.cc, h.retransmitOne⟩

theorem emitChoice_fast (clk : Clock) (h : c.fast = true) (hf : c.flags ≠ Flags.none) :
    (emitChoice s c clk).sock.snd = c.snd := by
  rw [emitChoice_snd clk (fun e => absurd e hf), Choice.counted, h]
  simp

theorem sendNew_flags_none {pipe : ℕ} (h : (sendNew s pipe).flags = Flags.none) :
    (sendNew s pipe).data = [] := by
  simp only [sendNew, Flags.none, Flags.mk.injEq, decide_eq_false_iff_not] at h
  have hlen := Nat.eq_zero_of_not_pos h.2.2.2.1
  simp only [sendNew, hlen]
  rfl

theorem sendNew_nxt (hr : RingOk s.snd) (pipe : ℕ)
    (hoff : ahead s.snd.sndUna s.snd.sndNxt ≤ s.snd.txLen + 1) :
    (sendNew s pipe).counted = false ∧ (sendNew s pipe).snd = s.snd ∨
    (sendNew s pipe).counted = true ∧
      (sendNew s pipe).snd = { s.snd with sndNxt := (sendNew s pipe).snd.sndNxt } ∧
      ahead s.snd.sndUna (sendNew s pipe).snd.sndNxt =
        ahead s.snd.sndUna s.snd.sndNxt + (sendNew s pipe).data.length +
          (sendNew s pipe).flags.fin.toNat ∧
      ahead s.snd.sndUna s.snd.sndNxt + (sendNew s pipe).data.length ≤ s.snd.txLen ∧
      ((sendNew s pipe).flags.fin = true → s.snd.finQueued = true ∧
        ahead s.snd.sndUna s.snd.sndNxt + (sendNew s pipe).data.length = s.snd.txLen) ∧
      ((sendNew s pipe).data ≠ [] ∨ (sendNew s pipe).flags.fin = true) := by
  have hlen := hr.txLen_le
  simp only [sendNew, Choice.counted, Ring.length_read]
  change _ ∨ _
  generalize hl : min (min (s.snd.txLen - (s.snd.sndNxt - s.snd.sndUna).toNat) (usable s pipe))
    (segmentMax s) = len
  have hle : len ≤ s.snd.txLen - ahead s.snd.sndUna s.snd.sndNxt := by
    rw [← hl]
    exact (min_le_left _ _).trans (min_le_left _ _)
  have hoffs : (s.snd.sndNxt - s.snd.sndUna).toNat = ahead s.snd.sndUna s.snd.sndNxt := rfl
  rw [hoffs]
  have hdata (r : Memory) (a b : ℕ) : Ring.read r a b len ≠ [] ↔ 0 < len := by
    rw [← List.length_pos_iff, Ring.length_read]
  have hempty (r : Memory) (a b : ℕ) : (Ring.read r a b len).isEmpty = decide (len = 0) := by
    rw [Bool.eq_iff_iff, List.isEmpty_iff, decide_eq_true_iff, ← List.length_eq_zero_iff,
      Ring.length_read]
  have hstep : ahead s.snd.sndUna (s.snd.sndNxt + BitVec.ofNat 32 len) =
      ahead s.snd.sndUna s.snd.sndNxt + len := ahead_add_of_lt (by omega)
  cases hfin : (s.snd.finQueued && decide (ahead s.snd.sndUna s.snd.sndNxt + len = s.snd.txLen) &&
    decide ((s.snd.sndNxt + BitVec.ofNat 32 len).toNat = s.snd.sndUna.toNat + s.snd.txLen))
  · rcases Nat.eq_zero_or_pos len with rfl | hpos
    · left
      simp [hempty]
    · right
      refine ⟨by simp [hempty, hpos.ne'], by simp, ?_, by omega, by simp, .inl ((hdata _ _ _).2 hpos)⟩
      simp [hstep]
  · right
    simp only [Bool.and_eq_true, decide_eq_true_eq] at hfin
    refine ⟨by simp, by simp, ?_, by omega, fun _ => ⟨hfin.1.1, hfin.1.2⟩, .inr rfl⟩
    have h1 : s.snd.sndNxt + BitVec.ofNat 32 len + 1 =
        s.snd.sndNxt + BitVec.ofNat 32 len + BitVec.ofNat 32 1 := rfl
    simp only [if_true, Bool.toNat_true]
    rw [h1, ahead_add_of_lt (by omega), hstep]

end Send

end Bashket.Tcp
