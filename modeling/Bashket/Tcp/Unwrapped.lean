import Bashket.Tcp.SackRuns

/-!
# Unwrapped sequence numbers in loss recovery

Beside a connection run the numbers that `snd_una` and `cc.recover` would be if sequence numbers did
not wrap. `tcp_cc_dup_ack` and `tcp_cc_new_ack` compare an acknowledgement with `recover` through
`SEQ_GT`. During recovery the two are never far apart. Outside it `recover` stays where the last
loss left it (or the handshake), however much is transferred since, and the comparison is right only
while that is less than half the number space.
-/

namespace Bashket.Tcp

open Serial Run

/-- Does `tcp_input` get to look at the acknowledgement number of this segment, and accept it? -/
def looksAtAck (s : Socket) (g : Segment) : Bool :=
  s.state.past && !g.flags.rst && !g.flags.syn && g.flags.ack && !gt g.ack s.snd.sndMax

/-- A new acknowledgement during recovery: `tcp_cc_new_ack` compares it with `recover`. -/
def ackInRecovery (s : Socket) (g : Segment) : Bool :=
  looksAtAck s g && gt g.ack s.snd.sndUna && s.snd.cc.inRecovery

/-- The third duplicate acknowledgement outside recovery: `tcp_cc_dup_ack` compares it with
`recover`. -/
def thirdDupAck (s : Socket) (g : Segment) : Bool :=
  looksAtAck s g && !gt g.ack s.snd.sndUna && isDupAck s.snd g && !s.snd.cc.inRecovery &&
    s.snd.dupacks = 2

/-- The retransmission timer runs out, and that counts as a loss (`tcp_cc_timeout`). -/
def timeoutLoss (s : Socket) (now : ℕ) : Bool :=
  !(s.tmr.reapDeadline ≠ 0 && now ≥ s.tmr.reapDeadline) &&
    (s.tmr.rtoDeadline ≠ 0 && now ≥ s.tmr.rtoDeadline) && s.snd.sndUna ≠ s.snd.sndMax &&
    s.tmr.retries + 1 ≤ maxRetries && s.snd.synAcked && s.snd.sndWnd ≠ 0

/-- Does this event begin a recovery, so that `recover` becomes the last number sent? -/
def marksLoss (c : Conn) : Event → Bool
  | .input g _ => c.sock.connected && thirdDupAck c.sock g && gt g.ack c.sock.snd.cc.recover
  | .timers now => c.sock.used && timeoutLoss c.sock now
  | _ => false

def completes (c : Conn) : Event → Bool
  | .input g _ => c.sock.connected && completesHandshake c.sock g
  | _ => false

/-- A connection with the unwrapped values of `snd_una` and `cc.recover`. -/
structure Unwrapped where
  conn : Conn
  una : ℕ
  recover : ℕ

def Unwrapped.init : Unwrapped := ⟨Conn.init, 0, 0⟩

/-- The unwrapped value of a sequence number from `snd_una` on. -/
def Unwrapped.value (u : Unwrapped) (x : Seq) : ℕ := u.una + ahead u.conn.sock.snd.sndUna x

/-- A handshake starts the count at `iss`, an acknowledgement moves `snd_una` forward, and a loss
sets `recover` to the last number sent. -/
def Unwrapped.step (u : Unwrapped) (e : Event) : Unwrapped where
  conn := Tcp.step u.conn e
  una := if completes u.conn e then u.conn.sock.snd.iss.toNat + 1
    else u.value (Tcp.step u.conn e).sock.snd.sndUna
  recover := if completes u.conn e then u.conn.sock.snd.iss.toNat
    else if marksLoss u.conn e then u.value (u.conn.sock.snd.sndMax - 1)
    else u.recover

/-- The unwrapped values stand for the sequence numbers, and `recover` was sent. -/
structure Numbered (m r : ℕ) (s : Sending) : Prop where
  una : BitVec.ofNat 32 m = s.sndUna
  recover : BitVec.ofNat 32 r = s.cc.recover
  begun : s.iss.toNat < m
  sent : r < m + ahead s.sndUna s.sndMax
  inRecovery : s.cc.inRecovery = true → m ≤ r

/-- A connection past its handshake is numbered. -/
def NumberedInv (u : Unwrapped) : Prop :=
  u.conn.sock.state.past = true → Numbered u.una u.recover u.conn.sock.snd

section

variable {m r : ℕ} {s t : Sending} {ack : Seq}

/-- Something that leaves `snd_una` and congestion control's view of losses alone. -/
theorem Numbered.keep (h : Numbered m r s) (huna : t.sndUna = s.sndUna)
    (hiss : t.iss = s.iss) (hcc : t.cc = s.cc)
    (hmax : ahead s.sndUna s.sndMax ≤ ahead s.sndUna t.sndMax) : Numbered m r t where
  una := h.una.trans huna.symm
  recover := hcc ▸ h.recover
  begun := hiss ▸ h.begun
  sent := by
    have := h.sent
    rw [huna]
    omega
  inRecovery := hcc ▸ h.inRecovery

theorem Numbered.marked (h : Numbered m r s) (huna : t.sndUna = s.sndUna)
    (hiss : t.iss = s.iss) (hmax : t.sndMax = s.sndMax) (hne : s.sndUna ≠ s.sndMax)
    (hrec : t.cc.recover = s.sndMax - 1) :
    Numbered m (m + ahead s.sndUna (s.sndMax - 1)) t := by
  have hpos : 0 < ahead s.sndUna s.sndMax :=
    Nat.pos_of_ne_zero fun h0 => hne (ahead_eq_zero.1 h0).symm
  have hlast : ahead s.sndUna (s.sndMax - 1) + 1 = ahead s.sndUna s.sndMax := by
    have hlt := ahead_lt s.sndUna s.sndMax
    simp only [ahead] at hpos hlt ⊢
    bv_omega
  refine ⟨h.una.trans huna.symm, ?_, hiss ▸ h.begun, ?_, fun _ => Nat.le_add_right _ _⟩
  · rw [BitVec.ofNat_add, h.una, add_ahead, hrec]
  · rw [huna, hmax]
    omega

/-- A new acknowledgement moves `snd_una` forward; recovery goes on while it stays below
`recover`. -/
theorem Numbered.acked (h : Numbered m r s) (hm : ahead s.sndUna s.sndMax ≤ 262145)
    (hle : ahead s.sndUna ack ≤ ahead s.sndUna s.sndMax) (huna : t.sndUna = ack)
    (hiss : t.iss = s.iss) (hmax : t.sndMax = s.sndMax) (hrec : t.cc.recover = s.cc.recover)
    (hin : t.cc.inRecovery = true → s.cc.inRecovery = true ∧ m + ahead s.sndUna ack ≤ r) :
    Numbered (m + ahead s.sndUna ack) r t where
  una := by rw [BitVec.ofNat_add, h.una, add_ahead, huna]
  recover := h.recover.trans hrec.symm
  begun := by
    have := h.begun
    rw [hiss]
    omega
  sent := by
    have := h.sent
    rw [huna, hmax, ahead_rebase hle]
    omega
  inRecovery h0 := (hin h0).2

end

/-! ### The comparison -/

section

variable {m r : ℕ} {s : Sending} {ack : Seq}

theorem ahead_of_numbered {a b : ℕ} {x y : Seq} (hx : BitVec.ofNat 32 a = x)
    (hy : BitVec.ofNat 32 b = y) (hle : a ≤ b) (hlt : b - a < 2 ^ 32) : ahead x y = b - a := by
  have := ahead_ofNat 0#32 hle hlt
  rwa [BitVec.zero_add, BitVec.zero_add, hx, hy] at this

/-- Numbers less than half the number space apart compare as their unwrapped values do. -/
theorem gt_iff_unwrapped {a b : ℕ} {x y : Seq} (hx : BitVec.ofNat 32 a = x)
    (hy : BitVec.ofNat 32 b = y) (h1 : a < b + 2 ^ 31) (h2 : b < a + 2 ^ 31) :
    gt x y = true ↔ b < a := by
  rw [gt_iff_ahead]
  rcases Nat.lt_or_ge b a with h | h
  · rw [ahead_of_numbered hy hx h.le (by omega)]
    omega
  · rw [ahead_swap x y, ahead_of_numbered hx hy h (by omega)]
    rcases Nat.eq_or_lt_of_le h with rfl | hlt
    · simp
    · omega

theorem Numbered.value_ack (h : Numbered m r s) (ack : Seq) :
    BitVec.ofNat 32 (m + ahead s.sndUna ack) = ack := by
  rw [BitVec.ofNat_add, h.una, add_ahead]

theorem Numbered.compare_inRecovery (h : Numbered m r s)
    (hm : ahead s.sndUna s.sndMax ≤ 262145) (hle : ahead s.sndUna ack ≤ ahead s.sndUna s.sndMax)
    (hin : s.cc.inRecovery = true) :
    gt ack s.cc.recover = true ↔ r < m + ahead s.sndUna ack := by
  have h1 := h.inRecovery hin
  have h2 := h.sent
  exact gt_iff_unwrapped (h.value_ack ack) h.recover (by omega) (by omega)

end

/-! ### What each section does -/

/-- A section that concerns neither `snd_una` nor losses, seen from a connection past its
handshake. -/
structure Kept (s t : Socket) : Prop where
  past : s.state.past = true
  una : t.snd.sndUna = s.snd.sndUna
  iss : t.snd.iss = s.snd.iss
  cc : t.snd.cc = s.snd.cc
  max : ahead s.snd.sndUna s.snd.sndMax ≤ ahead s.snd.sndUna t.snd.sndMax

section

variable {s t : Socket} {m r : ℕ} {st : State} {kmalloc : Option Memory} {now : ℕ} {clk : Clock}
  {g : Segment} {ack : Seq}

theorem Kept.of_snd (hst : s.state.past = true) (h : t.snd = s.snd) : Kept s t :=
  ⟨hst, by rw [h], by rw [h], by rw [h], le_of_eq (by rw [h])⟩

theorem Kept.refl (hst : s.state.past = true) : Kept s s := .of_snd hst rfl

theorem Kept.numbered (hk : Kept s t) (h : Numbered m r s.snd) : Numbered m r t.snd :=
  h.keep hk.una hk.iss hk.cc hk.max

theorem not_past_of_closed (h : st = .closed) (hp : st.past = true) : False := by
  rw [h] at hp
  cases hp

theorem Calls.kept {e : Event} (hc : Calls s e t) (htm : ∀ now, e ≠ .timers now)
    (h : t.state.past = true) : Kept s t := by
  cases hc with
  | same => exact .refl h
  | noted | accepted => exact .of_snd h rfl
  | gone | failed | listening | left => cases h
  | reaped now | idle now | timeout now => exact (htm now rfl).elim
  | shutdown _ hst | closeFin _ _ _ hst | leftFin _ _ _ hst =>
    exact ⟨hst.past.1, rfl, rfl, rfl, le_rfl⟩
  | close _ _ _ hst => exact .of_snd (hst ▸ h) rfl

theorem tcpWrite_kept {bytes : List UInt8} (h : (tcpWrite s bytes kmalloc).1.state.past = true) :
    Kept s (tcpWrite s bytes kmalloc).1 := by
  rcases tcpWrite_cases s bytes kmalloc with h0 | ⟨-, _, _, _, _, h0⟩ <;> rw [h0] at h ⊢
  · exact .refl h
  · exact ⟨h, rfl, rfl, rfl, le_rfl⟩

theorem tcpRead_kept {len : ℕ} (h : (tcpRead s len kmalloc).1.state.past = true) :
    Kept s (tcpRead s len kmalloc).1 := by
  unfold tcpRead at h ⊢
  by_cases hc : len = 0 ∨ s.rcv.rxLen = 0
  · rw [if_pos hc] at h ⊢
    exact .refl h
  · rw [if_neg hc] at h ⊢
    exact .of_snd h rfl

theorem sendWhatIsDue_kept {late : Prop} (hinv : SocketInv late s) {r : SendResult}
    (hr : sendWhatIsDue s clk = some r) (h : r.sock.state.past = true) : Kept s r.sock := by
  rcases sendWhatIsDue_cases hr with rfl | ⟨hu, hopen, c, hc, rfl⟩
  · exact .refl h
  · have hfr := emitChoice_frame clk (choose_frame hc)
    exact ⟨(emitChoice_sock_frame s c clk).state ▸ h, hfr.sndUna, hfr.iss, hfr.cc,
      emitChoice_grows hinv hu hopen hc clk⟩

/-! ### Losses and acknowledgements -/

theorem runTimers_numbered (h : s.state.past = true → Numbered m r s.snd)
    (hp : (runTimers s now).state.past = true) :
    (runTimers s now).snd.sndUna = s.snd.sndUna ∧
    Numbered m (if timeoutLoss s now then m + ahead s.snd.sndUna (s.snd.sndMax - 1) else r)
      (runTimers s now).snd := by
  unfold runTimers at hp ⊢
  by_cases hreap : s.tmr.reapDeadline ≠ 0 ∧ now ≥ s.tmr.reapDeadline
  · split_ifs at hp <;> cases hp
  rw [if_neg hreap] at hp ⊢
  by_cases hrto : s.tmr.rtoDeadline ≠ 0 ∧ now ≥ s.tmr.rtoDeadline
  swap
  · rw [if_neg hrto] at hp ⊢
    have hl : timeoutLoss s now = false := by
      simp only [timeoutLoss, Bool.and_eq_false_iff, decide_eq_false_iff_not]
      tauto
    rw [hl]
    exact ⟨rfl, h hp⟩
  rw [if_pos hrto] at hp ⊢
  by_cases huna : s.snd.sndUna = s.snd.sndMax
  · rw [if_pos huna] at hp ⊢
    have hl : timeoutLoss s now = false := by simp [timeoutLoss, huna]
    rw [hl]
    exact ⟨rfl, h hp⟩
  rw [if_neg huna] at hp ⊢
  unfold retransmitTimeout at hp ⊢
  by_cases hretry : s.tmr.retries + 1 > maxRetries
  · rw [if_pos hretry] at hp
    exact (not_past_of_closed (abortConnection_state _ _) hp).elim
  rw [if_neg hretry] at hp ⊢
  have hl : timeoutLoss s now = (s.snd.synAcked && decide (s.snd.sndWnd ≠ 0)) := by
    have hr0 : (decide (s.tmr.reapDeadline ≠ 0) && decide (now ≥ s.tmr.reapDeadline)) = false := by
      rw [← Bool.decide_and]
      exact decide_eq_false hreap
    rw [timeoutLoss, hr0]
    simp [hrto.1, hrto.2, huna, Nat.not_lt.1 hretry]
  refine ⟨rfl, ?_⟩
  by_cases hloss : s.snd.synAcked = true ∧ s.snd.sndWnd ≠ 0
  · have : timeoutLoss s now = true := by simp [hl, hloss.1, hloss.2]
    rw [this]
    refine (h hp).marked rfl rfl rfl huna ?_
    simp only [goBack]
    rw [if_pos hloss]
    rfl
  · have : timeoutLoss s now = false := by
      rw [hl]
      by_contra hc
      simp only [Bool.not_eq_false, Bool.and_eq_true, decide_eq_true_eq] at hc
      exact hloss hc
    rw [this]
    refine (h hp).keep rfl rfl ?_ le_rfl
    simp only [goBack]
    rw [if_neg hloss]

theorem Tail.numbered (ht : Tail s clk t) (h : Numbered m r s.snd) :
    Numbered m r t.snd ∧ t.snd.sndUna = s.snd.sndUna := by
  obtain ⟨_, _, hsnd, -⟩ := ht.snd
  rw [hsnd]
  exact ⟨h.keep rfl rfl rfl le_rfl, rfl⟩

theorem Tail.past (ht : Tail s clk t) (hp : t.state.past = true) : s.state.past = true := by
  rcases ht.state with h0 | ⟨h0, -⟩
  · exact h0 ▸ hp
  · cases hst : s.state <;> rw [hst] at h0 <;> first | rfl | cases h0

theorem Numbered.begin {s : Sending} {iss : Seq} (huna : s.sndUna = iss + 1) (hiss : s.iss = iss)
    (hrec : s.cc.recover = iss) (hin : s.cc.inRecovery = false) :
    Numbered (iss.toNat + 1) iss.toNat s where
  una := by rw [huna, BitVec.ofNat_add, BitVec.ofNat_toNat]; rfl
  recover := by rw [hrec, BitVec.ofNat_toNat, BitVec.setWidth_eq]
  begun := by rw [hiss]; exact Nat.lt_succ_self _
  sent := by omega
  inRecovery h := absurd (hin.symm.trans h) Bool.false_ne_true

theorem tcpInput_begins (clk : Clock) (hc : completesHandshake s g = true) :
    Numbered (s.snd.iss.toNat + 1) s.snd.iss.toNat (tcpInput s g clk).snd := by
  have hdone := tcpInput_completed clk hc
  exact .begin hdone.una hdone.iss hdone.recover hdone.inRecovery

theorem dupAck_snd (s : Socket) (ack : Seq) :
    (dupAck s ack).snd.sndUna = s.snd.sndUna ∧ (dupAck s ack).snd.iss = s.snd.iss ∧
    (dupAck s ack).snd.sndMax = s.snd.sndMax := by
  unfold dupAck
  simp only
  split_ifs <;> exact ⟨rfl, rfl, rfl⟩

/-- Only the third duplicate acknowledgement outside recovery, if it is beyond `recover`, begins a
recovery. -/
theorem dupAck_losses (s : Socket) (ack : Seq) :
    (s.snd.cc.inRecovery = false ∧ s.snd.dupacks = 2 ∧ gt ack s.snd.cc.recover = true ∧
      (dupAck s ack).snd.cc.inRecovery = true ∧
      (dupAck s ack).snd.cc.recover = s.snd.sndMax - 1) ∨
    (¬(s.snd.cc.inRecovery = false ∧ s.snd.dupacks = 2 ∧ gt ack s.snd.cc.recover = true) ∧
      (dupAck s ack).snd.cc.inRecovery = s.snd.cc.inRecovery ∧
      (dupAck s ack).snd.cc.recover = s.snd.cc.recover) := by
  have hcount : (if s.snd.dupacks < 255 then s.snd.dupacks + 1 else s.snd.dupacks) ≠ 3 ↔
      s.snd.dupacks ≠ 2 := by
    split_ifs <;> omega
  unfold dupAck ccDupAck
  simp only [hcount]
  cases hin : s.snd.cc.inRecovery with
  | true => by_cases hs : s.snd.sackOk = true <;> simp [hs, hin]
  | false =>
    by_cases hd : s.snd.dupacks = 2
    · cases hg : gt ack s.snd.cc.recover with
      | true => by_cases hs : s.snd.sackOk = true <;> simp [hs, hd]
      | false => simp [hin]
    · simp [hd, hin]

/-- A new acknowledgement.  If recovery goes on, the acknowledgement is not beyond `recover`. -/
theorem ackTaken_numbered (clk : Clock) (h : Numbered m r s.snd)
    (hm : ahead s.snd.sndUna s.snd.sndMax ≤ 262145) (h1 : gt ack s.snd.sndUna = true)
    (h2 : gt ack s.snd.sndMax = false) :
    Numbered (m + ahead s.snd.sndUna ack) r (ackTaken s ack clk).snd ∧
      (ackTaken s ack clk).snd.sndUna = ack := by
  obtain ⟨hpos, hle⟩ := ack_between hm h1 h2
  obtain ⟨e1, -, e3, -, -, -, -, -, e9, -⟩ :=
    ackCongestion_frame (ackRing s.snd ack) (ack - s.snd.sndUna).toNat ack
  obtain ⟨c1, c2⟩ := ackCongestion_cc (ackRing s.snd ack) (ack - s.snd.sndUna).toNat ack
  refine ⟨h.acked hm hle e1 e9 e3 c2 fun hin => ?_, e1⟩
  change (ackCongestion _ _ _).cc.inRecovery = true at hin
  rw [c1, Bool.and_eq_true, Bool.not_eq_true'] at hin
  refine ⟨hin.1, Nat.not_lt.1 fun hlt => ?_⟩
  have hgt := (h.compare_inRecovery hm hle hin.1).2 hlt
  exact absurd (hgt.symm.trans hin.2) (by decide)

theorem processAck_numbered (clk : Clock) (h : Numbered m r s.snd)
    (hm : ahead s.snd.sndUna s.snd.sndMax ≤ 262145) (h1 : gt ack s.snd.sndUna = true)
    (h2 : gt ack s.snd.sndMax = false) (hp : (processAck s ack clk).state.past = true) :
    Numbered (m + ahead s.snd.sndUna ack) r (processAck s ack clk).snd ∧
      (processAck s ack clk).snd.sndUna = ack := by
  obtain ⟨ht, huna⟩ := ackTaken_numbered clk h hm h1 h2
  unfold processAck at hp ⊢
  split_ifs at hp ⊢
  · generalize ackTaken s ack clk = t at ht huna hp ⊢
    unfold finAcknowledged at hp ⊢
    cases hst : t.state <;> simp only [hst] at hp ⊢
    case lastAck => split_ifs at hp <;> cases hp
    all_goals exact ⟨ht.keep rfl rfl rfl le_rfl, huna⟩
  · exact ⟨ht, huna⟩

/-- A duplicate acknowledgement.  The third one outside recovery marks a loss if it is beyond
`recover`. -/
theorem dupAck_numbered (h : Numbered m r s.snd) (hl : looksAtAck s g = true)
    (huna : gt g.ack s.snd.sndUna = false) (hd : isDupAck s.snd g = true) :
    Numbered m (if thirdDupAck s g && gt g.ack s.snd.cc.recover then
      m + ahead s.snd.sndUna (s.snd.sndMax - 1) else r) (dupAck s g.ack).snd := by
  have hne : s.snd.sndUna ≠ s.snd.sndMax := by
    simp only [isDupAck, Bool.and_eq_true, decide_eq_true_eq] at hd
    exact hd.1.2
  obtain ⟨e1, e2, e3⟩ := dupAck_snd s g.ack
  rcases dupAck_losses s g.ack with ⟨h1, h2, h3, -, h5⟩ | ⟨hno, h4, h5⟩
  · have hthird : thirdDupAck s g = true := by
      simp [thirdDupAck, hl, huna, hd, h1, h2]
    rw [hthird, h3]
    exact h.marked e1 e2 e3 hne h5
  · rw [if_neg fun hc => hno ?_]
    · refine ⟨h.una.trans e1.symm, h.recover.trans h5.symm, by rw [e2]; exact h.begun, ?_, ?_⟩
      · rw [e1, e3]
        exact h.sent
      · rw [h4]
        exact h.inRecovery
    · simp only [thirdDupAck, Bool.and_eq_true, Bool.not_eq_true', decide_eq_true_eq] at hc
      exact ⟨hc.1.1.2, hc.1.2, hc.2⟩

theorem tcpInput_numbered (clk : Clock) (hinv : SocketInv True s) (hc : s.connected = true)
    (hno : completesHandshake s g = false) (h : s.state.past = true → Numbered m r s.snd)
    (hp : (tcpInput s g clk).state.past = true) :
    Numbered (m + ahead s.snd.sndUna (tcpInput s g clk).snd.sndUna)
      (if thirdDupAck s g && gt g.ack s.snd.cc.recover then
        m + ahead s.snd.sndUna (s.snd.sndMax - 1) else r) (tcpInput s g clk).snd := by
  obtain ⟨hu, hclosed, hlisten⟩ := Socket.connected_iff.1 hc
  have hm := (hinv.phase hu (hinv.error_eq_zero hclosed)).outstanding_le (hinv.ring hu)
    ⟨hclosed, hlisten⟩
  have hpast (hst : s.state ≠ .synSent ∧ s.state ≠ .synReceived) : s.state.past = true :=
    State.past_iff.2 ⟨hclosed, hlisten, hst⟩
  have hn (hp' : s.state.past = true) : Numbered m r (s.noted g).snd :=
    (h hp').keep rfl rfl rfl le_rfl
  have hquiet (hq : thirdDupAck s g = false) : (if thirdDupAck s g && gt g.ack s.snd.cc.recover then
      m + ahead s.snd.sndUna (s.snd.sndMax - 1) else r) = r := by simp [hq]
  have hr := tcpInput_receives s g clk
  generalize tcpInput s g clk = s' at hr hp ⊢
  cases hr with
  | ignored hg =>
    have hl : looksAtAck s g = false := Bool.eq_false_iff.2 fun hl => by
      simp only [looksAtAck, Bool.and_eq_true, Bool.not_eq_true'] at hl
      exact hg (State.past_iff.1 hp).2.2.1 ⟨hl.1.1.1.2, hl.1.1.2, hl.1.2⟩
    rw [hquiet (by simp [thirdDupAck, hl]), ahead_self]
    exact h hp
  | reset => exact (not_past_of_closed (abortConnection_state _ _) hp).elim
  | connected hst hack hg => simp [completesHandshake, hst, hack, hg] at hno
  | again hst | stray hst =>
    simp only [hst] at hp
    cases hp
  | opened hst hg hack => simp [completesHandshake, hst, hack, hg.1, hg.2.1, hg.2.2] at hno
  | beyond hst hg hmax =>
    rw [hquiet (by simp [thirdDupAck, looksAtAck, hmax]), ahead_self]
    exact hn (hpast hst)
  | freed hst hg hmax huna =>
    rw [hquiet (by simp [thirdDupAck, huna])]
    obtain ⟨h1, h2⟩ := processAck_numbered clk (hn (hpast hst)) hm huna hmax hp
    rwa [h2]
  | acked hst hg hmax huna =>
    rw [hquiet (by simp [thirdDupAck, huna])]
    obtain ⟨h1, h2⟩ := processAck_numbered clk (hn (hpast hst)) hm huna hmax
      ((taken_tail _ g clk).past hp)
    obtain ⟨h3, h4⟩ := (taken_tail _ g clk).numbered h1
    rwa [h4, h2]
  | dup hst hg hmax huna hd =>
    have hl : looksAtAck s g = true := by simp [looksAtAck, hpast hst, hg.1, hg.2.1, hg.2.2, hmax]
    obtain ⟨h1, h2⟩ := (taken_tail _ g clk).numbered
      (dupAck_numbered (s := s.noted g) (hn (hpast hst)) hl huna hd)
    rw [h2, (dupAck_snd _ _).1, ahead_self]
    exact h1
  | old hst hg hd =>
    obtain ⟨h1, h2⟩ := (taken_tail _ g clk).numbered (hn (hpast hst))
    rw [hquiet (by simp [thirdDupAck, hd]), h2, ahead_self]
    exact h1

end

/-! ### Runs -/

/-- Events other than segments and timers concern neither `snd_una` nor losses. -/
theorem step_kept {c : Conn} {e : Event} (hinv : SocketInv True c.sock)
    (hin : ∀ g clk, e ≠ .input g clk) (htm : ∀ now, e ≠ .timers now)
    (hp : (step c e).sock.state.past = true) : Kept c.sock (step c e).sock := by
  have hacts := step_acts c e
  generalize step c e = c' at hp hacts ⊢
  cases hacts with
  | nothing => exact .refl hp
  | tcpOpen hs =>
    obtain ⟨s, hs', rfl⟩ := Option.map_eq_some_iff.1 hs
    exact (not_past_of_closed (allocSocket_spec hs').2.2.1 hp).elim
  | acceptSyn hs =>
    obtain ⟨s, hs', rfl⟩ := Option.map_eq_some_iff.1 hs
    cases hp
  | connect ip remotePort port iss hc =>
    rw [tcpConnect_of_connects hc] at hp
    cases hp
  | input g clk => exact (hin g clk rfl).elim
  | send hs => exact sendWhatIsDue_kept hinv hs hp
  | write => exact tcpWrite_kept hp
  | read => exact tcpRead_kept hp
  | calls _ hc => exact hc.kept htm hp

@[simp] theorem Unwrapped.value_una (u : Unwrapped) : u.value u.conn.sock.snd.sndUna = u.una := by
  simp [Unwrapped.value]

theorem Unwrapped.step_of_neither {u : Unwrapped} {e : Event} (hc : completes u.conn e = false)
    (hl : marksLoss u.conn e = false) : u.step e =
      ⟨Tcp.step u.conn e, u.value (Tcp.step u.conn e).sock.snd.sndUna, u.recover⟩ := by
  simp [Unwrapped.step, hc, hl]

theorem NumberedInv.kept {u : Unwrapped} {e : Event} (h : NumberedInv u)
    (hc : completes u.conn e = false) (hl : marksLoss u.conn e = false)
    (hk : (step u.conn e).sock.state.past = true → Kept u.conn.sock (step u.conn e).sock) :
    NumberedInv (u.step e) := by
  intro hp
  have hkept := hk hp
  rw [Unwrapped.step_of_neither hc hl, hkept.una, Unwrapped.value_una]
  exact hkept.numbered (h hkept.past)

theorem step_numbered (u : Unwrapped) (e : Event) (h : NumberedInv u)
    (hinv : SocketInv True u.conn.sock) : NumberedInv (u.step e) := by
  cases e with
  | input g clk =>
    cases hconn : u.conn.sock.connected with
    | false =>
      refine h.kept (by simp [completes, hconn]) (by simp [marksLoss, hconn]) fun hp => ?_
      simp only [step, hconn] at hp ⊢
      exact .refl hp
    | true =>
      intro hp
      simp only [Unwrapped.step, completes, marksLoss, step, hconn] at hp ⊢
      cases hc : completesHandshake u.conn.sock g with
      | true => exact tcpInput_begins clk hc
      | false => exact tcpInput_numbered clk hinv hconn hc h hp
  | timers now =>
    cases hu : u.conn.sock.used with
    | false =>
      refine h.kept rfl (by simp [marksLoss, hu]) fun hp => ?_
      simp only [step, hu] at hp ⊢
      exact .refl hp
    | true =>
      intro hp
      simp only [Unwrapped.step, marksLoss, step, hu, if_true] at hp ⊢
      obtain ⟨h1, h2⟩ := runTimers_numbered h hp
      rw [h1, Unwrapped.value_una]
      exact h2
  | _ => exact h.kept rfl rfl (step_kept hinv (by simp) (by simp))

/-- Whenever an acknowledgement is compared with `recover`, the answer is that of the unwrapped
values. -/
def ComparesRight (u : Unwrapped) : Event → Prop
  | .input g _ => u.conn.sock.connected = true →
      (ackInRecovery u.conn.sock g || thirdDupAck u.conn.sock g) = true →
      (gt g.ack u.conn.sock.snd.cc.recover = true ↔ u.recover < u.value g.ack)
  | _ => True

/-- Without a loss so far, where `recover` is still `iss`, the third duplicate acknowledgement
begins a recovery. -/
def ThirdStartsRecovery (u : Unwrapped) (e : Event) : Prop :=
  match e with
  | .input g _ => u.conn.sock.connected = true → u.recover = u.conn.sock.snd.iss.toNat →
      thirdDupAck u.conn.sock g = true → (step u.conn e).sock.snd.cc.inRecovery = true
  | _ => True

/-- At a third duplicate acknowledgement, less than half the number space was acknowledged since
`recover` was set. -/
def RecoverNear (u : Unwrapped) : Event → Prop
  | .input g _ => u.conn.sock.connected = true → thirdDupAck u.conn.sock g = true →
      u.una < u.recover + 2 ^ 31
  | _ => True

instance (u : Unwrapped) (e : Event) : Decidable (RecoverNear u e) := by
  rcases e with ⟨⟩ <;> unfold RecoverNear <;> infer_instance

section

variable {s : Socket} {g : Segment}

theorem thirdDupAck_iff : thirdDupAck s g = true ↔ looksAtAck s g = true ∧
    gt g.ack s.snd.sndUna = false ∧ isDupAck s.snd g = true ∧ s.snd.cc.inRecovery = false ∧
    s.snd.dupacks = 2 := by
  simp [thirdDupAck, and_assoc]

theorem tcpInput_dupAck (clk : Clock) (hl : looksAtAck s g = true)
    (huna : gt g.ack s.snd.sndUna = false) (hd : isDupAck s.snd g = true) :
    tcpInput s g clk = takeData (takeWindow (dupAck (s.noted g) g.ack) g clk) g clk := by
  simp only [looksAtAck, Bool.and_eq_true, Bool.not_eq_true'] at hl
  obtain ⟨⟨⟨⟨hst, hrst⟩, hsyn⟩, hack⟩, hmax⟩ := hl
  obtain ⟨-, -, h3, h4⟩ := State.past_iff.1 hst
  unfold tcpInput
  rw [if_neg h3, hrst, if_neg Bool.false_ne_true, hsyn, if_neg Bool.false_ne_true, hack,
    noteSack_eq, if_neg (by decide)]
  unfold takeAck
  rw [if_neg h4]
  simp only [hmax, huna]
  rw [if_neg (by decide), if_neg (by decide),
    if_pos (show isDupAck (s.noted g).snd g = true from hd)]

theorem tcpInput_thirdDupAck (clk : Clock) (h : thirdDupAck s g = true) :
    (tcpInput s g clk).snd.cc.inRecovery = gt g.ack s.snd.cc.recover := by
  obtain ⟨hl, huna, hd, hin, htwo⟩ := thirdDupAck_iff.1 h
  obtain ⟨_, _, hsnd, -⟩ := (taken_tail (dupAck (s.noted g) g.ack) g clk).snd
  rw [tcpInput_dupAck clk hl huna hd, hsnd]
  rcases dupAck_losses (s.noted g) g.ack with ⟨-, -, h3, h4, -⟩ | ⟨hno, h4, -⟩
  · rw [h4]
    exact h3.symm
  · rw [h4]
    rw [hin]
    cases hg : gt g.ack s.snd.cc.recover with
    | false => rfl
    | true => exact (hno ⟨hin, htwo, hg⟩).elim

end

/-- The third duplicate acknowledgement compares `snd_una` with `recover`. -/
theorem Numbered.compare_third {m r : ℕ} {s : Sending} (h : Numbered m r s)
    (hm : ahead s.sndUna s.sndMax ≤ 262145) (hnear : m < r + 2 ^ 31) :
    gt s.sndUna s.cc.recover = true ↔ r < m := by
  have := h.sent
  exact gt_iff_unwrapped h.una h.recover hnear (by omega)

/-- What holds along the runs whose handshakes find the SYN sent. -/
structure UnwrappedInv (u : Unwrapped) : Prop where
  inv : SocketInv True u.conn.sock
  numbered : NumberedInv u

theorem step_unwrappedInv (u : Unwrapped) (e : Event) (h : UnwrappedInv u)
    (hs : SynWasSent u.conn e) : UnwrappedInv (u.step e) where
  inv := by
    refine step_inv u.conn e h.inv ?_
    cases e with
    | input g clk => exact fun hc hdone => .inr ⟨trivial, hs hc hdone⟩
    | _ => trivial
  numbered := step_numbered u e h.numbered h.inv

theorem UnwrappedInv.compares {u : Unwrapped} {e : Event} (h : UnwrappedInv u)
    (hnear : RecoverNear u e) : ComparesRight u e ∧ ThirdStartsRecovery u e := by
  cases e with
  | input g clk =>
    have hfacts (hc : u.conn.sock.connected = true) (hp : u.conn.sock.state.past = true) :
        Numbered u.una u.recover u.conn.sock.snd ∧
          ahead u.conn.sock.snd.sndUna u.conn.sock.snd.sndMax ≤ 262145 := by
      simp only [Socket.connected, Bool.and_eq_true, decide_eq_true_eq] at hc
      exact ⟨h.numbered hp, (h.inv.phase hc.1.1 (h.inv.error_eq_zero hc.1.2)).outstanding_le
        (h.inv.ring hc.1.1) ⟨hc.1.2, hc.2⟩⟩
    have hthird (hc : u.conn.sock.connected = true) (ht : thirdDupAck u.conn.sock g = true) :
        g.ack = u.conn.sock.snd.sndUna ∧
          (gt g.ack u.conn.sock.snd.cc.recover = true ↔ u.recover < u.una) := by
      obtain ⟨hl, -, hd, -, -⟩ := thirdDupAck_iff.1 ht
      simp only [looksAtAck, Bool.and_eq_true] at hl
      simp only [isDupAck, Bool.and_eq_true, decide_eq_true_eq] at hd
      obtain ⟨hn, hm⟩ := hfacts hc hl.1.1.1.1
      have hack := hd.1.1.1.1.1
      exact ⟨hack, by rw [hack]; exact hn.compare_third hm (hnear hc ht)⟩
    refine ⟨fun hc hcmp => ?_, fun hc hfresh ht => ?_⟩
    · rcases Bool.or_eq_true _ _ ▸ hcmp with hrec | ht
      · simp only [ackInRecovery, looksAtAck, Bool.and_eq_true, Bool.not_eq_true'] at hrec
        obtain ⟨⟨⟨⟨⟨⟨hp, -⟩, -⟩, -⟩, hmax⟩, huna⟩, hin⟩ := hrec
        obtain ⟨hn, hm⟩ := hfacts hc hp
        exact hn.compare_inRecovery hm (ack_between hm huna hmax).2 hin
      · obtain ⟨hack, hiff⟩ := hthird hc ht
        rw [hiff, hack, Unwrapped.value_una]
    · have hp : u.conn.sock.state.past = true := by
        have := (thirdDupAck_iff.1 ht).1
        simp only [looksAtAck, Bool.and_eq_true] at this
        exact this.1.1.1.1
      simp only [step, hc, if_true]
      rw [tcpInput_thirdDupAck clk ht, (hthird hc ht).2, hfresh]
      exact (hfacts hc hp).1.begun
  | _ => exact ⟨trivial, trivial⟩

/-- While less than half the number space was acknowledged since `recover` was set, the comparisons
with it are right, and without a loss so far the third duplicate acknowledgement begins a
recovery. -/
theorem comparesRight_of_recoverNear (es : List Event)
    (hsyn : Along Unwrapped.step (fun u e => SynWasSent u.conn e) Unwrapped.init es)
    (hnear : Along Unwrapped.step RecoverNear Unwrapped.init es) :
    Along Unwrapped.step (fun u e => ComparesRight u e ∧ ThirdStartsRecovery u e)
      Unwrapped.init es := by
  have h0 : UnwrappedInv Unwrapped.init := ⟨SocketInv.zero, fun h => nomatch h⟩
  refine ((Along.with_invariant step_unwrappedInv h0 hsyn).and hnear).mono ?_
  rintro u e ⟨⟨hu, -⟩, hn⟩
  exact hu.compares hn

theorem comparesRight_nearBlockRun :
    (run Unwrapped.step Unwrapped.init nearBlockRun).recover = 1010 ∧
    (run Unwrapped.step Unwrapped.init nearBlockRun).conn.sock.snd.cc.inRecovery = true ∧
    Along Unwrapped.step (fun u e => ComparesRight u e ∧ ThirdStartsRecovery u e)
      Unwrapped.init nearBlockRun :=
  ⟨by decide +kernel, by decide +kernel,
    comparesRight_of_recoverNear nearBlockRun (by decide +kernel) (by decide +kernel)⟩

/-! ### A connection that carries half the number space without a loss -/

/-- Began at 1000, no loss so far. `una` numbers after the SYN are acknowledged, `len` bytes are in
the ring, `out` of them sent, and `dups` duplicate acknowledgements have arrived. -/
def carrying (una len out dups cwnd txHead : ℕ) (tx : Memory) (rcv : Receiving) (tmr : Timers) :
    Socket where
  used := true
  userOpen := true
  state := .established
  error := 0
  softError := 0
  localPort := 1000
  remotePort := 80
  remoteIp := 1
  snd := { iss := 1000, sndUna := 1001 + BitVec.ofNat 32 una
           sndNxt := 1001 + BitVec.ofNat 32 (una + out), sndMax := 1001 + BitVec.ofNat 32 (una + out)
           sndWnd := 100, mss := 536, scaling := false, sndShift := 0, rcvShift := 0
           offerSack := true, sackOk := false, sacked := [], rexmitNext := 0, synAcked := true
           finQueued := false, tx := tx, txHead := txHead, txLen := len, txSize := 8192
           dupacks := dups, retransmitOne := false
           cc := { cwnd := cwnd, ssthresh := 65535, inRecovery := false, recover := 1000 } }
  rcv := rcv
  tmr := tmr
  listener := none
  backlog := 0

def Lossless (una len out dups : ℕ) (u : Unwrapped) : Prop :=
  (∃ cwnd txHead tx rcv tmr, 0 < cwnd ∧
    u.conn.sock = carrying una len out dups cwnd txHead tx rcv tmr) ∧
  u.una = 1001 + una ∧ u.recover = 1000

abbrev seqAt (k : ℕ) : Seq := 1001 + BitVec.ofNat 32 k

abbrev ackOf (k : ℕ) : Segment := ackSegment (seqAt k) [] 100

structure Rest where
  cwnd : ℕ
  txHead : ℕ
  tx : Memory
  rcv : Receiving
  tmr : Timers

abbrev carry (una len out dups : ℕ) (x : Rest) : Socket :=
  carrying una len out dups x.cwnd x.txHead x.tx x.rcv x.tmr

section

variable {k d : ℕ} {u : Unwrapped} {x : Rest}

theorem Lossless.of_step {len out : ℕ} {e : Event} (h : u.una = 1001 + k ∧ u.recover = 1000)
    (hs : u.conn.sock.snd.sndUna = seqAt k) (hcwnd : 0 < x.cwnd)
    (hsock : (Tcp.step u.conn e).sock = carry k len out d x)
    (hdone : completes u.conn e = false) (hloss : marksLoss u.conn e = false) :
    Lossless k len out d (u.step e) := by
  rw [Unwrapped.step_of_neither hdone hloss]
  refine ⟨⟨_, _, _, _, _, hcwnd, hsock⟩, ?_, h.2⟩
  rw [hsock, ← h.1, Unwrapped.value, hs]
  exact congrArg (u.una + ·) (ahead_self _)

theorem Lossless.write (h : Lossless k 0 0 0 u) : Lossless k 1 0 0 (u.step (.write [0] none)) := by
  obtain ⟨⟨cwnd, txHead, tx, rcv, tmr, hcwnd, hs⟩, hnum⟩ := h
  refine .of_step (x := ⟨cwnd, txHead, Ring.write 8192 tx ((txHead + 0) % 8192) [0], rcv, tmr⟩) hnum
    (congrArg (·.snd.sndUna) hs) hcwnd ?_ rfl rfl
  simp only [step, hs]
  rfl

theorem usable_carrying (hcwnd : 0 < x.cwnd) : 0 < usable (carry k 1 0 0 x) 0 := by
  simp only [usable, carrying, sackRecovery]
  simp
  split_ifs <;> omega

theorem sendNew_carrying (hcwnd : 0 < x.cwnd) : sendNew (carry k 1 0 0 x) 0 =
    { snd := { (carry k 1 0 0 x).snd with sndNxt := seqAt (k + 1) }
      timing := x.tmr.timing
      dupAcksOwed := x.rcv.dupAcksOwed
      seq := seqAt k
      data := Ring.read x.tx 8192 (x.txHead + 0) 1
      flags := { Flags.none with ack := true, psh := true }
      fast := false } := by
  have hu := usable_carrying (k := k) hcwnd
  have hoff : ((carry k 1 0 0 x).snd.sndNxt - (carry k 1 0 0 x).snd.sndUna).toNat = 0 := by
    simp [carrying]
  have hlen : min (min ((carry k 1 0 0 x).snd.txLen - 0) (usable (carry k 1 0 0 x) 0))
      (segmentMax (carry k 1 0 0 x)) = 1 := by
    have h1 : segmentMax (carry k 1 0 0 x) = 536 := rfl
    have h2 : (carry k 1 0 0 x).snd.txLen = 1 := rfl
    omega
  have hnxt : seqAt (k + 0) + BitVec.ofNat 32 1 = seqAt (k + 1) := by
    rw [BitVec.add_assoc, ← BitVec.ofNat_add]
  unfold sendNew
  simp only [hoff, hlen]
  rw [← hnxt]
  rfl

theorem emitChoice_carrying (hcwnd : 0 < x.cwnd) (clk : Clock) : ∃ rcv tmr,
    (emitChoice (carry k 1 0 0 x) (sendNew (carry k 1 0 0 x) 0) clk).sock =
      carry k 1 1 0 { x with rcv, tmr } := by
  have hgt : gt (seqAt (k + 1)) (seqAt (k + 0)) = true := by
    rw [gt_iff_ahead, ahead_ofNat _ (by omega) (by omega)]
    omega
  refine ⟨(emitChoice (carry k 1 0 0 x) (sendNew (carry k 1 0 0 x) 0) clk).sock.rcv,
    (emitChoice (carry k 1 0 0 x) (sendNew (carry k 1 0 0 x) 0) clk).sock.tmr, ?_⟩
  rw [sendNew_carrying hcwnd]
  unfold emitChoice
  have hmax : (carry k 1 0 0 x).snd.sndMax = seqAt (k + 0) := rfl
  rw [hmax, hgt]
  rfl

theorem Lossless.send (h : Lossless k 1 0 0 u) (clk : Clock) :
    Lossless k 1 1 0 (u.step (.send clk)) := by
  obtain ⟨⟨cwnd, txHead, tx, rcv, tmr, hcwnd, hs⟩, hnum⟩ := h
  obtain ⟨rcv', tmr', hsock⟩ :=
    emitChoice_carrying (k := k) (x := ⟨cwnd, txHead, tx, rcv, tmr⟩) hcwnd clk
  refine .of_step (x := ⟨cwnd, txHead, tx, rcv', tmr'⟩) hnum (congrArg (·.snd.sndUna) hs) hcwnd ?_
    rfl rfl
  simp only [step, hs]
  exact hsock

theorem ccNewAck_lossless {cc : Cc} (smss acked flight : ℕ) (ack : Seq)
    (hin : cc.inRecovery = false) (hcwnd : 0 < cc.cwnd) :
    ∃ cwnd, 0 < cwnd ∧ ccNewAck cc smss acked ack flight = ({ cc with cwnd := cwnd }, false) := by
  have hgrown (more : ℕ) : 0 < grown cc.cwnd more := by
    have : 0 < cwndMax := by decide
    unfold grown
    split_ifs <;> omega
  unfold ccNewAck
  rw [hin]
  by_cases hss : cc.cwnd < cc.ssthresh
  · rw [if_pos hss]
    exact ⟨_, hgrown _, rfl⟩
  · rw [if_neg hss]
    exact ⟨_, hgrown _, rfl⟩

theorem ackTaken_carrying (hcwnd : 0 < x.cwnd) (clk : Clock) : ∃ cwnd txHead tmr, 0 < cwnd ∧
    ackTaken (carry k 1 1 0 x) (seqAt (k + 1)) clk =
      carry (k + 1) 0 0 0 { x with cwnd, txHead, tmr } := by
  have hacked : (seqAt (k + 1) - seqAt k).toNat = 1 :=
    (ahead_ofNat (1001 : Seq) (Nat.le_succ k) (by omega)).trans (by omega)
  have hlt : lt (seqAt (k + 1)) (seqAt (k + 1)) = false := by simp [lt]
  set y : Rest := { x with txHead := (x.txHead + 1) % 8192 }
  have hring : ackRing (carry k 1 1 0 x).snd (seqAt (k + 1)) = (carry (k + 1) 0 0 0 y).snd := by
    simp only [ackRing, carrying, hacked, hlt]
    rfl
  obtain ⟨cwnd, hpos, hcc⟩ := ccNewAck_lossless 536 1
    ((carry (k + 1) 0 0 0 y).snd.sndMax - seqAt (k + 1)).toNat (seqAt (k + 1))
    (show (carry (k + 1) 0 0 0 y).snd.cc.inRecovery = false from rfl) hcwnd
  have hcong : ackCongestion (carry (k + 1) 0 0 0 y).snd 1 (seqAt (k + 1)) =
      (carry (k + 1) 0 0 0 { y with cwnd }).snd := by
    unfold ackCongestion
    have hmss : (carry (k + 1) 0 0 0 y).snd.mss = 536 := rfl
    rw [hmss, hcc]
    rfl
  refine ⟨cwnd, y.txHead, (ackTaken (carry k 1 1 0 x) (seqAt (k + 1)) clk).tmr, hpos, ?_⟩
  have huna : (carry k 1 1 0 x).snd.sndUna = seqAt k := rfl
  unfold ackTaken
  simp only [huna, hacked, hring, hcong]
  rfl

theorem takeAck_carrying (hcwnd : 0 < x.cwnd) (clk : Clock) : ∃ cwnd txHead tmr, 0 < cwnd ∧
    takeAck (carry k 1 1 0 x) (ackOf (k + 1)) clk =
      .next (carry (k + 1) 0 0 0 { x with cwnd, txHead, tmr }) := by
  obtain ⟨cwnd, txHead, tmr, hpos, htaken⟩ := ackTaken_carrying (k := k) hcwnd clk
  refine ⟨cwnd, txHead, tmr, hpos, ?_⟩
  have h1 : gt (seqAt (k + 1)) (seqAt (k + 1)) = false := by simp [gt]
  have h2 : gt (seqAt (k + 1)) (seqAt k) = true := by
    rw [gt_iff_ahead, ahead_ofNat _ (by omega) (by omega)]
    omega
  have hp : processAck (carry k 1 1 0 x) (seqAt (k + 1)) clk =
      carry (k + 1) 0 0 0 { x with cwnd, txHead, tmr } := by
    rw [← htaken]
    rfl
  have e1 : (carry k 1 1 0 x).snd.sndMax = seqAt (k + 1) := rfl
  have e2 : (carry k 1 1 0 x).snd.sndUna = seqAt k := rfl
  unfold takeAck
  simp only [ackSegment, e1, e2, h1, h2, hp]
  rfl

theorem Lossless.ack (h : Lossless k 1 1 0 u) (clk : Clock) :
    Lossless (k + 1) 0 0 0 (u.step (.input (ackOf (k + 1)) clk)) := by
  obtain ⟨⟨cwnd, txHead, tx, rcv, tmr, hcwnd, hs⟩, huna, hrec⟩ := h
  set x : Rest := ⟨cwnd, txHead, tx, rcv, tmr⟩
  obtain ⟨cwnd', txHead', tmr', hpos, hack⟩ := takeAck_carrying (k := k) (x := x) hcwnd clk
  have hsock : (Tcp.step u.conn (.input (ackOf (k + 1)) clk)).sock =
      carrying (k + 1) 0 0 0 cwnd' txHead' tx rcv { tmr' with retries := 0 } := by
    simp only [step, hs]
    have hest : (carry k 1 1 0 x).state ≠ .synSent := by simp [carrying]
    exact tcpInput_next hest rfl rfl rfl hack
  have hdone : completes u.conn (.input (ackOf (k + 1)) clk) = false := by
    simp only [completes, hs]
    rfl
  have hloss : marksLoss u.conn (.input (ackOf (k + 1)) clk) = false := by
    simp [marksLoss, thirdDupAck, hs, carrying]
  rw [Unwrapped.step_of_neither hdone hloss]
  refine ⟨⟨cwnd', txHead', tx, rcv, _, hpos, hsock⟩, ?_, hrec⟩
  rw [hsock, Unwrapped.value, huna, hs]
  change 1001 + k + ahead (seqAt k) (seqAt (k + 1)) = _
  rw [ahead_ofNat _ (Nat.le_succ k) (by omega)]
  omega

theorem dupAck_carrying (x : Rest) : looksAtAck (carry k 1 1 d x) (ackOf k) = true ∧
    gt (ackOf k).ack (carry k 1 1 d x).snd.sndUna = false ∧
    isDupAck (carry k 1 1 d x).snd (ackOf k) = true := by
  have hone : ahead (seqAt k) (seqAt (k + 1)) = 1 :=
    (ahead_ofNat _ (Nat.le_succ k) (by omega)).trans (by omega)
  have hgt : gt (seqAt k) (seqAt (k + 1)) = false := by
    rw [← Bool.not_eq_true, gt_iff_ahead, ahead_swap, hone]
    decide
  have hne : seqAt k ≠ seqAt (k + 1) := fun h0 => by
    rw [← h0, ahead_self] at hone
    cases hone
  refine ⟨?_, by simp [gt, carrying, ackSegment], ?_⟩
  · change (true && !gt (seqAt k) (seqAt (k + 1))) = true
    rw [hgt]
    rfl
  · unfold isDupAck
    simp only [carrying, ackSegment, ne_eq, hne]
    rfl

theorem ccDupAck_below {cc : Cc} {smss count flight : ℕ} {ack sndMax : Seq}
    (hin : cc.inRecovery = false) (hgt : gt ack cc.recover = false) :
    ccDupAck cc smss count ack sndMax flight = (cc, false) := by
  unfold ccDupAck
  rw [hin, hgt, if_neg Bool.false_ne_true, if_pos (c := (!false) = true) rfl, ite_self]

theorem dupAck_carrying_eq (x : Rest) (hd : d < 3) (hgt : gt (seqAt k) 1000 = false) :
    Tcp.dupAck (carry k 1 1 d x) (seqAt k) = carry k 1 1 (d + 1) x := by
  have hcc : ccDupAck (carry k 1 1 d x).snd.cc 536 (d + 1) (seqAt k) (carry k 1 1 d x).snd.sndMax
      ((carry k 1 1 d x).snd.sndMax - (carry k 1 1 d x).snd.sndUna).toNat =
      ((carry k 1 1 d x).snd.cc, false) := ccDupAck_below rfl hgt
  have hcount : (if (carry k 1 1 d x).snd.dupacks < 255 then (carry k 1 1 d x).snd.dupacks + 1
      else (carry k 1 1 d x).snd.dupacks) = d + 1 := if_pos (show d < 255 by omega)
  have hmss : (carry k 1 1 d x).snd.mss = 536 := rfl
  unfold Tcp.dupAck
  simp only [hcount, hmss, hcc]
  rfl

/-- The acknowledgement is repeated; a third time it is compared with `recover`. -/
theorem Lossless.dupAck (h : Lossless k 1 1 d u) (clk : Clock) (hd : d < 3)
    (hgt : gt (seqAt k) 1000 = false) : Lossless k 1 1 (d + 1) (u.step (.input (ackOf k) clk)) := by
  obtain ⟨⟨cwnd, txHead, tx, rcv, tmr, hcwnd, hs⟩, hnum⟩ := h
  set x : Rest := ⟨cwnd, txHead, tx, rcv, tmr⟩
  obtain ⟨hlooks, hnew, hdup⟩ := dupAck_carrying (k := k) (d := d) x
  refine .of_step (x := { x with tmr := { tmr with retries := 0 } }) hnum
    (congrArg (·.snd.sndUna) hs) hcwnd ?_ ?_ ?_
  · simp only [step, hs]
    rw [tcpInput_dupAck clk hlooks hnew hdup]
    change takeData (takeWindow (Tcp.dupAck (carry k 1 1 d x) (seqAt k)) (ackOf k) clk) (ackOf k)
      clk = _
    rw [dupAck_carrying_eq x hd hgt]
    rfl
  · simp only [completes, hs]
    rfl
  · simp only [marksLoss, hs]
    change (_ && gt (seqAt k) 1000) = false
    rw [hgt, Bool.and_false]

end

/-- One byte after another is written, sent and acknowledged, `k` times. -/
def carryRun : ℕ → List Event
  | 0 => openingRun (synAckSegment [] 100) []
  | k + 1 => carryRun k ++ [.write [0] none, .send ⟨7, 7000⟩,
      .input (ackSegment (1001 + BitVec.ofNat 32 (k + 1)) [] 100) ⟨8, 8000⟩]

theorem carryRun_lossless (k : ℕ) :
    Lossless k 0 0 0 (run Unwrapped.step Unwrapped.init (carryRun k)) := by
  induction k with
  | zero =>
    refine ⟨⟨_, _, _, _, _, ?_, rfl⟩, ?_, ?_⟩ <;> decide +kernel
  | succ k ih =>
    rw [carryRun, run_append]
    exact (ih.write.send _).ack _

/-- One more byte is on its way, and its acknowledgement is repeated twice. -/
def lateLossRun (k : ℕ) : List Event :=
  carryRun k ++ [.write [0] none, .send ⟨7, 7000⟩,
    .input (ackSegment (1001 + BitVec.ofNat 32 k) [] 100) ⟨8, 8000⟩,
    .input (ackSegment (1001 + BitVec.ofNat 32 k) [] 100) ⟨9, 9000⟩]

theorem lateLossRun_lossless {k : ℕ} (hgt : gt (seqAt k) 1000 = false) :
    Lossless k 1 1 2 (run Unwrapped.step Unwrapped.init (lateLossRun k)) := by
  rw [lateLossRun, run_append]
  exact (((carryRun_lossless k).write.send _).dupAck _ (by decide) hgt).dupAck _ (by decide) hgt

theorem lateLossRun_of_not_gt {k : ℕ} (hgt : gt (seqAt k) 1000 = false) :
    (run Unwrapped.step Unwrapped.init (lateLossRun k)).recover = 1000 ∧
    (run Unwrapped.step Unwrapped.init (lateLossRun k)).una = 1001 + k ∧
    ¬ComparesRight (run Unwrapped.step Unwrapped.init (lateLossRun k))
      (.input (ackOf k) ⟨10, 10000⟩) ∧
    ¬ThirdStartsRecovery (run Unwrapped.step Unwrapped.init (lateLossRun k))
      (.input (ackOf k) ⟨10, 10000⟩) := by
  have h := lateLossRun_lossless hgt
  generalize run Unwrapped.step Unwrapped.init (lateLossRun k) = u at h
  obtain ⟨⟨cwnd, txHead, tx, rcv, tmr, hcwnd, hs⟩, huna, hrec⟩ := id h
  obtain ⟨hlooks, hnew, hdup⟩ := dupAck_carrying (k := k) (d := 2) ⟨cwnd, txHead, tx, rcv, tmr⟩
  have hthird : thirdDupAck u.conn.sock
      (ackOf k) = true := by
    rw [hs]
    exact thirdDupAck_iff.2 ⟨hlooks, hnew, hdup, rfl, rfl⟩
  have hconn : u.conn.sock.connected = true := by
    rw [hs]
    rfl
  refine ⟨hrec, huna, fun hc => ?_, fun hc => ?_⟩
  · have hval : u.value (ackOf k).ack = u.una := by
      rw [Unwrapped.value, hs]
      exact congrArg (u.una + ·) (ahead_self _)
    have hbad := (hc hconn (by rw [hthird, Bool.or_true])).2 (by omega)
    rw [hs] at hbad
    exact absurd (hgt.symm.trans hbad) (by decide)
  · obtain ⟨⟨_, _, _, _, _, -, hs'⟩, -⟩ := h.dupAck ⟨10, 10000⟩ (by decide) hgt
    have hbad := hc hconn (by rw [hrec, hs]; rfl) hthird
    change (u.step _).conn.sock.snd.cc.inRecovery = true at hbad
    rw [hs'] at hbad
    cases hbad

/-- After half the number space without a loss, the third duplicate acknowledgement begins no
recovery. -/
theorem lateLossRun_no_recovery :
    (run Unwrapped.step Unwrapped.init (lateLossRun (2 ^ 31))).recover = 1000 ∧
    (run Unwrapped.step Unwrapped.init (lateLossRun (2 ^ 31))).una = 1001 + 2 ^ 31 ∧
    ¬ComparesRight (run Unwrapped.step Unwrapped.init (lateLossRun (2 ^ 31)))
      (.input (ackSegment (1001 + BitVec.ofNat 32 (2 ^ 31)) [] 100) ⟨10, 10000⟩) ∧
    ¬ThirdStartsRecovery (run Unwrapped.step Unwrapped.init (lateLossRun (2 ^ 31)))
      (.input (ackSegment (1001 + BitVec.ofNat 32 (2 ^ 31)) [] 100) ⟨10, 10000⟩) :=
  lateLossRun_of_not_gt (by decide)

end Bashket.Tcp
