import Bashket.Tcp.SenderPhases

/-!
# The invariant of a slot

`SocketInv late` is what holds of a slot of the socket table in every run.  This file has the
invariant with the rules for showing it, and that `Calls` and `send_what_is_due` keep it;
`SenderInput` does the same for `tcp_input`, and `SenderRuns` for whole runs.
-/

namespace Bashket.Tcp

open Serial

structure SocketInv (late : Prop) (s : Socket) : Prop where
  free : s.used = false → s = Socket.zero
  ring : s.used = true → RingOk s.snd
  error : s.error ≠ 0 → s.state = .closed
  /-- A connection is only reaped while its owner holds it if it is in TIME_WAIT. -/
  reap : s.error = 0 → s.tmr.reapDeadline ≠ 0 → s.userOpen = true → s.state = .timeWait
  /-- A connection not yet accepted has no owner and is not being reaped. -/
  waiting : s.listener.isSome = true → s.userOpen = false ∧ s.tmr.reapDeadline = 0 ∧
    (s.state = .synReceived ∨ s.state = .established ∨ s.state = .closeWait)
  phase : s.used = true → s.error = 0 → Phase late s.state s.snd

/-- The fields of a socket, besides its sending half, that the invariant is about. -/
structure Frame (s t : Socket) : Prop where
  used : t.used = s.used
  userOpen : t.userOpen = s.userOpen
  state : t.state = s.state
  error : t.error = s.error
  listener : t.listener = s.listener
  reapDeadline : t.tmr.reapDeadline = s.tmr.reapDeadline

section

variable {late : Prop} {s t : Socket} {g : Segment} {clk : Clock}

theorem SocketInv.zero : SocketInv late Socket.zero where
  free _ := rfl
  ring h := absurd h Bool.false_ne_true
  error h := absurd rfl h
  reap _ h := absurd rfl h
  waiting h := absurd h Bool.false_ne_true
  phase h := absurd h Bool.false_ne_true

theorem SocketInv.of_live (hu : t.used = true) (he : t.error = 0) (hr : RingOk t.snd)
    (hreap : t.tmr.reapDeadline ≠ 0 → t.userOpen = true → t.state = .timeWait)
    (hwait : t.listener.isSome = true → t.userOpen = false ∧ t.tmr.reapDeadline = 0 ∧
      (t.state = .synReceived ∨ t.state = .established ∨ t.state = .closeWait))
    (hp : Phase late t.state t.snd) : SocketInv late t where
  free h0 := absurd (hu.symm.trans h0) (by decide)
  ring _ := hr
  error h0 := absurd he h0
  reap _ := hreap
  waiting := hwait
  phase _ _ := hp

theorem SocketInv.of_frame (h : SocketInv late s) (hu : s.used = true) (hf : Frame s t)
    (hr : RingOk t.snd) (hp : s.error = 0 → Phase late s.state t.snd) : SocketInv late t where
  free h0 := absurd (hf.used.symm.trans h0) (by rw [hu]; exact Bool.true_eq_false_eq_False)
  ring _ := hr
  error := by rw [hf.error, hf.state]; exact h.error
  reap := by rw [hf.error, hf.reapDeadline, hf.userOpen, hf.state]; exact h.reap
  waiting := by rw [hf.listener, hf.userOpen, hf.reapDeadline, hf.state]; exact h.waiting
  phase _ he := by rw [hf.state]; exact hp (hf.error.symm.trans he)

theorem SocketInv.of_snd (h : SocketInv late s) (hu : s.used = true) (hf : Frame s t)
    (hs : t.snd = s.snd) : SocketInv late t :=
  h.of_frame hu hf (hs ▸ h.ring hu) fun he => hs ▸ h.phase hu he

theorem SocketInv.error_eq_zero (h : SocketInv late s) (hc : s.state ≠ .closed) : s.error = 0 := by
  by_contra he
  exact hc (h.error he)

theorem SocketInv.not_reaped (h : SocketInv late s) (he : s.error = 0) (ht : s.state ≠ .timeWait)
    (hr : s.tmr.reapDeadline ≠ 0) : s.userOpen = false := by
  by_contra hu
  exact ht (h.reap he hr (Bool.not_eq_false _ ▸ hu))

theorem SocketInv.not_waiting (h : SocketInv late s) (ho : s.userOpen = true) :
    s.listener.isSome = false := by
  by_contra hl
  rw [(h.waiting (Bool.not_eq_false _ ▸ hl)).1] at ho
  cases ho

theorem SocketInv.closed (h : SocketInv late s) (hu : s.used = true) (ho : s.userOpen = true)
    (hst : s.state = .closed) (he : s.error = 0) : Quiet s.snd ∧ s.tmr.reapDeadline = 0 := by
  have hp := h.phase hu he
  rw [hst] at hp
  refine ⟨hp, ?_⟩
  by_contra hreap
  rw [h.not_reaped he (by rw [hst]; decide) hreap] at ho
  cases ho

theorem SocketInv.orphan {t : Socket} (hu : t.used = true) (he : t.error = 0) (hr : RingOk t.snd)
    (ho : t.userOpen = false) (hl : t.listener.isSome = false) (hp : Phase late t.state t.snd) :
    SocketInv late t :=
  .of_live hu he hr (fun _ h0 => absurd (ho.symm.trans h0) (by decide))
    (fun h0 => absurd (hl.symm.trans h0) (by decide)) hp

/-! ### Going back -/

/-- `t` is `s` with `snd_nxt` put back to the oldest number not acknowledged. -/
structure Rewound (s t : Sending) : Prop where
  iss : t.iss = s.iss
  sndUna : t.sndUna = s.sndUna
  sndNxt : t.sndNxt = s.sndUna ∨ s.synAcked = false ∧ t.sndNxt = s.iss
  sndMax : t.sndMax = s.sndMax
  synAcked : t.synAcked = s.synAcked
  finQueued : t.finQueued = s.finQueued
  txLen : t.txLen = s.txLen
  retransmitOne : t.retransmitOne = true → s.retransmitOne = true
  cc : t.cc.inRecovery = true → t.cc = s.cc

theorem Rewound.quiet {s t : Sending} (h : Rewound s t) (hq : Quiet s) : Quiet t where
  txLen := h.txLen.trans hq.txLen
  finQueued := h.finQueued.trans hq.finQueued
  retransmitOne := by
    by_contra hc
    have := h.retransmitOne (Bool.not_eq_false _ ▸ hc)
    rw [hq.retransmitOne] at this
    exact Bool.false_ne_true this
  inRecovery := by
    by_contra hc
    have := h.cc (Bool.not_eq_false _ ▸ hc)
    rw [this, hq.inRecovery] at hc
    exact hc rfl

theorem Rewound.opening {s t : Sending} (h : Rewound s t) (ho : Opening s) : Opening t where
  quiet := h.quiet ho.quiet
  una := by rw [h.sndUna, h.iss, ho.una]
  numbers := by
    left
    rw [h.sndMax, h.iss]
    refine ⟨?_, ?_⟩
    · rcases h.sndNxt with he | ⟨-, he⟩
      · rw [he, ho.una]
      · exact he
    · rcases ho.numbers with ⟨-, hm⟩ | ⟨-, hm⟩
      · exact hm
      · exact .inr hm

theorem Rewound.normal {s t : Sending} (h : Rewound s t) (ha : s.synAcked = true) (hn : Normal s) :
    Normal t := by
  have hnxt : t.sndNxt = s.sndUna := by
    rcases h.sndNxt with he | ⟨he, -⟩
    · exact he
    · rw [ha] at he
      cases he
  constructor
  · rw [hnxt, h.sndUna, ahead_self]
    exact Nat.zero_le _
  · rw [h.sndUna, h.sndMax, h.txLen, h.finQueued]
    exact hn.max
  · intro hr
    rw [h.txLen]
    exact hn.retransmitOne (h.retransmitOne hr)
  · intro hr
    rw [h.sndUna, h.sndMax, h.cc hr]
    exact hn.recover (h.cc hr ▸ hr)

theorem Rewound.open {s t : Sending} (h : Rewound s t) (hne : s.sndUna ≠ s.sndMax)
    (ha : s.synAcked = true) : Open late s → Open late t := by
  rintro (hn | ⟨-, hb⟩)
  · exact .inl (h.normal ha hn)
  · exact absurd hb.max.symm hne

theorem Rewound.phase {s t : Sending} (h : Rewound s t) (hne : s.sndUna ≠ s.sndMax) {st : State}
    (hp : Phase late st s) : Phase late st t := by
  cases st with
  | closed | listen => exact h.quiet hp
  | synSent =>
    refine ⟨h.opening hp.1, fun ha => ?_⟩
    have := (hp.2 (h.synAcked.symm.trans ha)).2
    exact absurd (hp.1.una.trans this.symm) hne
  | synReceived => exact ⟨h.opening hp.1, h.synAcked.trans hp.2⟩
  | established | closeWait | finWait1 | closing | lastAck =>
    exact ⟨h.open hne hp.2.1 hp.1, h.synAcked.trans hp.2.1, h.finQueued.trans hp.2.2⟩
  | finWait2 | timeWait => exact absurd hp.1.max.symm hne

/-! ### The calls -/

theorem goBack_rewound (s : Sending) (first : Bool) : Rewound s (goBack s first) := by
  refine ⟨rfl, rfl, ?_, rfl, rfl, rfl, rfl, fun h0 => absurd h0 Bool.false_ne_true, ?_⟩
  · simp only [goBack]
    cases ha : s.synAcked
    · exact .inr ⟨rfl, if_neg Bool.false_ne_true⟩
    · exact .inl (if_pos rfl)
  · simp only [goBack]
    split_ifs
    · exact fun h0 => absurd h0 Bool.false_ne_true
    · exact fun _ => rfl

/-- More data behind what is there, or a FIN, keeps the numbers in order. -/
theorem Open.extend {s t : Sending} (h : Open late s) (huna : t.sndUna = s.sndUna)
    (hnxt : t.sndNxt = s.sndNxt) (hmax : t.sndMax = s.sndMax)
    (hlen : s.txLen ≤ t.txLen) (hfin : s.finQueued = true → t.finQueued = true)
    (hone : t.retransmitOne = s.retransmitOne) (hcc : t.cc = s.cc) : Open late t := by
  rcases h with hn | ⟨hl, hb⟩
  · refine .inl ⟨?_, ?_, ?_, ?_⟩
    · rw [huna, hnxt, hmax]
      exact hn.nxt
    · rw [huna, hmax]
      have := hn.max
      have hf : s.finQueued.toNat ≤ t.finQueued.toNat := by
        cases hq : s.finQueued
        · exact Nat.zero_le _
        · rw [hfin hq]
      omega
    · rw [hone]
      exact fun h1 => (hn.retransmitOne h1).trans_le hlen
    · rw [huna, hmax, hcc]
      exact hn.recover
  · exact .inr ⟨hl, by rw [hnxt, huna, hb.nxt], by rw [hmax, huna, hb.max],
      hone.trans hb.retransmitOne, hcc ▸ hb.inRecovery⟩

theorem State.Ends.phase {st st' : State} (hst : st.Ends st') {s : Sending}
    (hp : Phase late st s) : Phase late st' { s with finQueued := true } := by
  rcases hst with ⟨rfl, rfl⟩ | ⟨rfl, rfl⟩ <;>
    exact ⟨hp.1.extend rfl rfl rfl le_rfl (fun _ => rfl) rfl rfl, hp.2.1, rfl⟩

theorem State.Ends.ne {st st' : State} (hst : st.Ends st') : st ≠ .closed ∧ st ≠ .timeWait := by
  rcases hst with ⟨rfl, -⟩ | ⟨rfl, -⟩ <;> decide

theorem Calls.inv {e : Event} (hc : Calls s e t) (h : SocketInv late s) (hu : s.used = true) :
    SocketInv late t := by
  have hr := h.ring hu
  have hfin : RingOk { s.snd with finQueued := true } := ⟨hr.pos, hr.fits, hr.small⟩
  cases hc with
  | same => exact h
  | gone => exact .zero
  | noted | idle => exact h.of_snd hu ⟨rfl, rfl, rfl, rfl, rfl, rfl⟩ rfl
  | failed _ he _ _ hl =>
    exact
      { free := fun h0 => absurd (hu.symm.trans h0) (by decide)
        ring := fun _ => hr
        error := fun _ => rfl
        reap := fun h0 => absurd h0 he
        waiting := fun h0 => absurd ((hl.elim id h.not_waiting).symm.trans h0) (by decide)
        phase := fun _ h0 => absurd h0 he }
  | listening backlog ho hst he =>
    obtain ⟨hq, hreap⟩ := h.closed hu ho hst he
    exact .of_live hu he hr (fun h0 => absurd hreap h0)
      (fun h0 => absurd ((h.not_waiting ho).symm.trans h0) (by decide)) hq
  | accepted hl hst =>
    have he : s.error = 0 := h.error_eq_zero (by rcases hst with h1 | h1 <;> rw [h1] <;> decide)
    exact .of_live hu he hr (fun h0 => absurd (h.waiting hl).2.1 h0)
      (fun h0 => absurd h0 Bool.false_ne_true) (h.phase hu he)
  | reaped now hreap ho =>
    refine
      { free := fun h0 => absurd (hu.symm.trans h0) (by decide)
        ring := fun _ => hr
        error := fun _ => rfl
        reap := fun _ h0 => absurd rfl h0
        waiting := fun h0 => absurd ((h.not_waiting ho).symm.trans h0) (by decide)
        phase := fun _ he => ?_ }
    have hp := h.phase hu he
    rw [h.reap he hreap ho] at hp
    exact hp.1.quiet
  | timeout now huna =>
    exact h.of_frame hu ⟨rfl, rfl, rfl, rfl, rfl, rfl⟩ ⟨hr.pos, hr.fits, hr.small⟩
      fun he => (goBack_rewound _ _).phase huna (h.phase hu he)
  | shutdown ho hst =>
    have he := h.error_eq_zero hst.ne.1
    refine .of_live hu he hfin (fun h0 _ => ?_)
      (fun h0 => absurd ((h.not_waiting ho).symm.trans h0) (by decide)) (hst.phase (h.phase hu he))
    exact absurd ((h.not_reaped he hst.ne.2 h0).symm.trans ho) (by decide)
  | closeFin now deadline ho hst =>
    have he := h.error_eq_zero hst.ne.1
    exact .orphan hu he hfin rfl (h.not_waiting ho) (hst.phase (h.phase hu he))
  | close now deadline ho hst hp =>
    have he := h.error_eq_zero (hst ▸ (State.past_iff.1 hp).1)
    exact .orphan hu he hr rfl (h.not_waiting ho) (hst ▸ h.phase hu he)
  | leftFin now deadline hl hst =>
    have he := h.error_eq_zero hst.ne.1
    exact .orphan hu he hfin (h.waiting hl).1 rfl (hst.phase (h.phase hu he))
  | left now deadline hl hst =>
    have he := h.error_eq_zero (by rw [hst]; decide)
    exact .orphan hu he hr (h.waiting hl).1 rfl (hst ▸ h.phase hu he)

/-! ### Sending -/

theorem sendNew_idle (hr : RingOk s.snd) (hlen : s.snd.txLen = 0) (hf : s.snd.finQueued = false)
    (hnxt : s.snd.sndNxt = s.snd.sndUna) (pipe : ℕ) :
    (sendNew s pipe).counted = false ∧ (sendNew s pipe).snd = s.snd := by
  rcases sendNew_nxt hr pipe (by rw [hnxt, ahead_self]; omega) with h | ⟨-, -, -, hd, hfin, hor⟩
  · exact h
  · rcases hor with hne | hfin'
    · have := List.length_pos_iff.2 hne
      omega
    · rw [(hfin hfin').1] at hf
      cases hf

theorem sendNew_behind (hr : RingOk s.snd) (hb : Behind s.snd) (pipe : ℕ) :
    (sendNew s pipe).counted = false ∧ (sendNew s pipe).snd = s.snd := by
  have hoff : s.snd.txLen < (s.snd.sndNxt - s.snd.sndUna).toNat := by
    have := hr.txLen_le
    rw [show (s.snd.sndNxt - s.snd.sndUna).toNat = _ from ahead_add_one_left hb.nxt]
    omega
  generalize hg : (s.snd.sndNxt - s.snd.sndUna).toNat = offset at hoff
  have h0 : s.snd.txLen - offset = 0 := by omega
  have hne : offset ≠ s.snd.txLen := by omega
  simp [sendNew, Choice.counted, hg, h0, hne, Ring.read]

theorem emitChoice_idle {c : Choice} (h : c.counted = false ∧ c.snd = s.snd)
    (hf : c.flags = Flags.none → c.data = []) (clk : Clock) :
    (emitChoice s c clk).sock.snd = s.snd := by
  rw [emitChoice_snd clk hf, h.1, h.2]
  rfl

theorem Normal.sendNew (hn : Normal s.snd) (hr : RingOk s.snd) (pipe : ℕ) (clk : Clock) :
    Normal (emitChoice s (sendNew s pipe) clk).sock.snd := by
  have hm := hn.maxOff_le hr
  have hnxt := hn.nxt
  have hmax := hn.max
  have hfq := Bool.toNat_le s.snd.finQueued
  rcases sendNew_nxt hr pipe (by omega) with h | ⟨hc, hs, hoff, hd, hfin, -⟩
  · rw [emitChoice_idle h sendNew_flags_none]
    exact hn
  · rw [emitChoice_snd clk sendNew_flags_none, hc, Bool.true_and]
    have hle : ahead s.snd.sndUna (Tcp.sendNew s pipe).snd.sndNxt ≤
        s.snd.txLen + s.snd.finQueued.toNat := by
      cases hf : (Tcp.sendNew s pipe).flags.fin
      · simp only [hf, Bool.toNat_false] at hoff
        omega
      · simp only [(hfin hf).1, hf, Bool.toNat_true] at hoff ⊢
        omega
    have hsize := hr.txLen_le
    rw [hs]
    generalize (Tcp.sendNew s pipe).snd.sndNxt = nxt at hle hoff
    have hgt : gt nxt s.snd.sndMax = true ↔ ahead s.snd.sndUna s.snd.sndMax < ahead s.snd.sndUna nxt :=
      gt_iff (by omega) (by omega)
    by_cases hg : gt nxt s.snd.sndMax = true
    · rw [if_pos hg]
      have hlt := hgt.1 hg
      exact ⟨le_refl _, hle, hn.retransmitOne, fun h => (hn.recover h).trans hlt⟩
    · rw [if_neg hg]
      have hge := fun h => hg (hgt.2 h)
      exact ⟨Nat.not_lt.1 hge, hmax, hn.retransmitOne, hn.recover⟩

theorem Opening.sendSyn (ho : Opening s.snd) (clk : Clock) :
    Opening (emitChoice s (sendSyn s) clk).sock.snd := by
  have hfr := emitChoice_frame clk (sendSyn_frame s)
  have hflags : (Tcp.sendSyn s).flags = Flags.none → (Tcp.sendSyn s).data = [] := fun _ => rfl
  refine ⟨hfr.quiet ho.quiet, by rw [hfr.sndUna, hfr.iss, ho.una], ?_⟩
  rw [hfr.iss, emitChoice_snd clk hflags]
  by_cases hdue : s.snd.sndNxt = s.snd.iss
  · have hcount : (Tcp.sendSyn s).counted = true := by simp [Tcp.sendSyn, Choice.counted, hdue]
    have hsnd : (Tcp.sendSyn s).snd = { s.snd with sndNxt := s.snd.iss + 1 } := by
      simp [Tcp.sendSyn, hdue]
    rw [hcount, Bool.true_and, hsnd]
    simp only
    rcases ho.numbers with ⟨-, hm | hm⟩ | ⟨-, hm⟩
    · have hgt : gt (s.snd.iss + 1) s.snd.iss = true := by
        rw [gt_iff_ahead]
        simp [ahead, BitVec.add_comm s.snd.iss]
      rw [hm, if_pos hgt]
      exact .inr ⟨rfl, rfl⟩
    · simp [hm, gt]
    · simp [hm, gt]
  · have hsnd : (Tcp.sendSyn s).snd = s.snd := by simp [Tcp.sendSyn, hdue]
    have hcount : (Tcp.sendSyn s).counted = false := by
      simp [Tcp.sendSyn, Choice.counted, hdue, Flags.none]
    rw [hcount, Bool.false_and, hsnd]
    exact ho.numbers

/-- A loss is only repaired while the numbers are in order, and the phase then allows any other
numbers that are. -/
theorem Phase.normal {st : State} {s : Sending} (hp : Phase late st s) (hq : ¬Quiet s)
    (hb : ¬Behind s) : Normal s ∧ s.synAcked = true ∧
      ∀ t : Sending, Normal t → t.synAcked = s.synAcked → t.finQueued = s.finQueued →
        Phase late st t := by
  cases st with
  | closed | listen => exact absurd hp hq
  | synSent | synReceived => exact absurd hp.1.quiet hq
  | established | closeWait | finWait1 | closing | lastAck =>
    exact ⟨hp.1.resolve_right fun h0 => hb h0.2, hp.2.1,
      fun t ht ha hf => ⟨.inl ht, ha.trans hp.2.1, hf.trans hp.2.2⟩⟩
  | finWait2 | timeWait => exact absurd hp.1.quiet hq

theorem Phase.repairing {st : State} {s : Sending} (hp : Phase late st s)
    (hl : s.retransmitOne = true ∨ s.cc.inRecovery = true) :
    Normal s ∧ s.synAcked = true ∧
    ∀ t : Sending, Normal t → t.synAcked = s.synAcked → t.finQueued = s.finQueued →
      Phase late st t := by
  refine hp.normal (fun hq => ?_) fun hb => ?_
  · rw [hq.retransmitOne, hq.inRecovery] at hl
    rcases hl with hl | hl <;> cases hl
  · rw [hb.retransmitOne, hb.inRecovery] at hl
    rcases hl with hl | hl <;> cases hl

theorem Phase.sendNew (hp : Phase late s.state s.snd) (hr : RingOk s.snd)
    (ha : s.snd.synAcked = true) (pipe : ℕ) (clk : Clock) :
    Phase late s.state (emitChoice s (sendNew s pipe) clk).sock.snd := by
  have hfr := emitChoice_frame clk (sendNew_frame s pipe)
  have hidle (hq : Quiet s.snd) (hnxt : s.snd.sndNxt = s.snd.sndUna) :
      (emitChoice s (Tcp.sendNew s pipe) clk).sock.snd = s.snd :=
    emitChoice_idle (sendNew_idle hr hq.txLen hq.finQueued hnxt pipe) sendNew_flags_none clk
  generalize hst : s.state = st at hp
  cases st with
  | closed | listen => exact hfr.quiet hp
  | synSent =>
    rw [hidle hp.1.quiet ((hp.2 ha).1.trans hp.1.una.symm)]
    exact hp
  | synReceived =>
    rw [hp.2] at ha
    cases ha
  | established | closeWait | finWait1 | closing | lastAck =>
    refine ⟨?_, hfr.synAcked.trans hp.2.1, hfr.finQueued.trans hp.2.2⟩
    rcases hp.1 with hn | ⟨hl, hb⟩
    · exact .inl (hn.sendNew hr pipe clk)
    · rw [emitChoice_idle (sendNew_behind hr hb pipe) sendNew_flags_none]
      exact .inr ⟨hl, hb⟩
  | finWait2 | timeWait =>
    rw [hidle hp.1.quiet hp.1.nxt]
    exact hp

theorem Phase.sendSyn (hp : Phase late s.state s.snd) (ha : s.snd.synAcked = false)
    (clk : Clock) : Phase late s.state (emitChoice s (sendSyn s) clk).sock.snd := by
  have hfr := emitChoice_frame clk (sendSyn_frame s)
  have hna : (emitChoice s (Tcp.sendSyn s) clk).sock.snd.synAcked = false := hfr.synAcked.trans ha
  generalize hst : s.state = st at hp
  cases st with
  | closed | listen => exact hfr.quiet hp
  | synSent =>
    refine ⟨hp.1.sendSyn clk, fun h => ?_⟩
    rw [hna] at h
    cases h
  | synReceived => exact ⟨hp.1.sendSyn clk, hna⟩
  | established | closeWait | finWait1 | closing | lastAck =>
    rw [hp.2.1] at ha
    cases ha
  | finWait2 | timeWait =>
    rw [hp.2] at ha
    cases ha

theorem Normal.retransmitted {s : Sending} (hn : Normal s) (rexmit : Seq) :
    Normal { s with retransmitOne := false, rexmitNext := rexmit } :=
  ⟨hn.nxt, hn.max, fun h => absurd h Bool.false_ne_true, hn.recover⟩

theorem SameNumbers.rexmitNext (s : Sending) (rexmit : Seq) :
    SameNumbers s { s with rexmitNext := rexmit } :=
  ⟨rfl, rfl, rfl, rfl, rfl, rfl, rfl, rfl, rfl⟩

theorem Phase.emitChoice {c : Choice} (hp : Phase late s.state s.snd) (hr : RingOk s.snd)
    (hc : choose s = some c) (clk : Clock) : Phase late s.state (emitChoice s c clk).sock.snd := by
  rcases choose_cases hc with ⟨hone, rfl⟩ | ⟨-, hrec, a, b, -, rfl⟩ | ⟨-, ha, rfl⟩ | ⟨-, ha, p, rfl⟩
  · rw [emitChoice_fast clk rfl (by simp [fastRetransmit, Flags.none])]
    obtain ⟨hn, -, hphase⟩ := hp.repairing (.inl hone)
    exact hphase _ (hn.retransmitted _) rfl rfl
  · rw [emitChoice_fast clk rfl (by simp [sackRepair, Flags.none])]
    exact (SameNumbers.rexmitNext s.snd _).phase hp
  · exact hp.sendSyn ha clk
  · exact hp.sendNew hr ha p clk

theorem emitChoice_sock_frame (s : Socket) (c : Choice) (clk : Clock) :
    Frame s (emitChoice s c clk).sock := by
  unfold emitChoice
  by_cases hf : c.flags = Flags.none
  · rw [if_pos hf]
    exact ⟨rfl, rfl, rfl, rfl, rfl, rfl⟩
  · rw [if_neg hf]
    exact ⟨rfl, rfl, rfl, rfl, rfl, rfl⟩

theorem sendWhatIsDue_inv (h : SocketInv late s) {r : SendResult}
    (hr : sendWhatIsDue s clk = some r) : SocketInv late r.sock := by
  rcases sendWhatIsDue_cases hr with rfl | ⟨hu, -, c, hc, rfl⟩
  · exact h
  · exact h.of_frame hu (emitChoice_sock_frame s c clk)
      ((emitChoice_frame clk (choose_frame hc)).ringOk (h.ring hu))
      fun he => (h.phase hu he).emitChoice (h.ring hu) hc clk

end

end Bashket.Tcp
