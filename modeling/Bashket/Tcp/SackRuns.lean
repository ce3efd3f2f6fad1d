import Bashket.Tcp.Opening
import Bashket.Tcp.SackRanges
import Bashket.Tcp.Sent

/-!
# The scoreboard over whole runs

A scoreboard is in order if its stretches are sorted, apart and between `snd_una` and `snd_max`.
`tcp_input` checks the blocks of a segment against the segment's own acknowledgement number, which
may be older than `snd_una`; the scoreboard stays in order in the runs in which every block that
passes this check would also pass it with `snd_una` in its place (`SackBeyond`).
-/

namespace Bashket.Tcp

open Serial Run List

/-- In order between `snd_una` and `snd_max`. With `k = 1` the first may begin at `snd_una`, with `k
= 0` it begins after it. -/
def ScoreIn (k : ℕ) (s : Sending) : Prop :=
  Sorted (s.sndUna - BitVec.ofNat 32 k) (k + ahead s.sndUna s.sndMax) 0 s.sacked

section

variable {k : ℕ} {s t : Sending} {g : Segment}

theorem ahead_floor (una x : Seq) (h : k + ahead una x < 2 ^ 32) :
    ahead (una - BitVec.ofNat 32 k) x = k + ahead una x := by
  rw [ahead_sub_base _ _ (by omega), Nat.mod_eq_of_lt (by omega)]

theorem ScoreIn.eq_nil (h : ScoreIn k s) (hk : k ≤ 1) (hmax : s.sndMax = s.sndUna) :
    s.sacked = [] := by
  refine Sorted.eq_nil h fun x hx => ?_
  have := hx.bounds h
  rw [hmax, ahead_self] at this
  omega

theorem ScoreIn.of_nil (h : s.sacked = []) : ScoreIn k s := by
  unfold ScoreIn
  rw [h]
  trivial

theorem ScoreIn.grow (h : ScoreIn k s) (huna : t.sndUna = s.sndUna) (hs : t.sacked = s.sacked)
    (hmax : ahead s.sndUna s.sndMax ≤ ahead s.sndUna t.sndMax) : ScoreIn k t := by
  unfold ScoreIn
  rw [huna, hs]
  exact h.mono_hi (by omega)

theorem noteBlock_sorted {una sndMax ack : Seq} {q : List Range} {b : Range} (hk : k ≤ 1)
    (hm : ahead una sndMax ≤ 262145)
    (hq : Sorted (una - BitVec.ofNat 32 k) (k + ahead una sndMax) 0 q)
    (hb : (lt b.start b.stop && gt b.start ack && !gt b.stop sndMax) = true →
      gt b.start una = true ∧ 2 * ahead una b.stop < 2 ^ 32) :
    Sorted (una - BitVec.ofNat 32 k) (k + ahead una sndMax) 0 (noteBlock sndMax ack q b) ∧
    (2 * ahead una ack < 2 ^ 32 →
      Cover (una - BitVec.ofNat 32 k) (noteBlock sndMax ack q b) (k + ahead una ack) →
      Cover (una - BitVec.ofNat 32 k) q (k + ahead una ack)) := by
  cases hok : (lt b.start b.stop && gt b.start ack && !gt b.stop sndMax) with
  | false =>
    rw [noteBlock_of_refused hok]
    exact ⟨hq, fun _ h => h⟩
  | true =>
    obtain ⟨h1, h2⟩ := hb hok
    simp only [Bool.and_eq_true, Bool.not_eq_true'] at hok
    obtain ⟨⟨hlt, hgt⟩, hmax⟩ := hok
    obtain ⟨hpos, hhalf⟩ := gt_iff_ahead.1 h1
    have horder := (lt_iff (u := una) (by omega) (by omega)).1 hlt
    have hle : ahead una b.stop ≤ ahead una sndMax := by
      by_contra hc
      rw [(gt_iff (u := una) (by omega) (by omega)).2 (by omega)] at hmax
      cases hmax
    have hs := ahead_floor (k := k) una b.start (by omega)
    have hp := ahead_floor (k := k) una b.stop (by omega)
    unfold noteBlock
    rw [if_neg (by simp [hlt, hgt, hmax])]
    cases ho : oooAdd q b.start b.stop with
    | none => exact ⟨hq, fun _ h => h⟩
    | some q' =>
      obtain ⟨i1, i2⟩ := oooAdd_some (by omega) hq (by omega) (by omega) (by omega) ho
      refine ⟨i1, fun hack hc => ((i2 _).1 hc).resolve_right fun hin => ?_⟩
      have := (gt_iff (u := una) (by omega) (by omega)).1 hgt
      omega

theorem ScoreIn.noted (h : ScoreIn k s) (hk : k ≤ 1) (hm : ahead s.sndUna s.sndMax ≤ 262145)
    (hb : ∀ b ∈ notedBlocks s g, gt b.start s.sndUna = true ∧ 2 * ahead s.sndUna b.stop < 2 ^ 32) :
    ScoreIn k (noteSack s g) ∧ (2 * ahead s.sndUna g.ack < 2 ^ 32 →
      Cover (s.sndUna - BitVec.ofNat 32 k) (noteSack s g).sacked (k + ahead s.sndUna g.ack) →
      Cover (s.sndUna - BitVec.ofNat 32 k) s.sacked (k + ahead s.sndUna g.ack)) := by
  unfold noteSack
  unfold notedBlocks at hb
  split_ifs with hc
  · rw [if_pos hc] at hb
    unfold ScoreIn at h ⊢
    generalize (parseOptions g.options).sack = blocks at hb
    generalize s.sacked = q at h
    induction blocks generalizing q with
    | nil => exact ⟨h, fun _ hc => hc⟩
    | cons b rest ih =>
      obtain ⟨i1, i2⟩ := noteBlock_sorted hk hm h fun hok =>
        hb b (mem_filter.2 ⟨mem_cons_self, hok⟩)
      obtain ⟨j1, j2⟩ := ih (fun r hr => hb r (by
        rw [mem_filter] at hr ⊢
        exact ⟨mem_cons_of_mem _ hr.1, hr.2⟩)) _ i1
      exact ⟨j1, fun hack hc => i2 hack (j2 hack hc)⟩
  · exact ⟨h, fun _ hc => hc⟩

/-- A new acknowledgement keeps the order; with `k = 0` it must not fall into a stretch. -/
theorem ScoreIn.acked {ack : Seq} (h : ScoreIn k s) (hk : k ≤ 1) (hn : Normal s) (hr : RingOk s)
    (h1 : gt ack s.sndUna = true) (h2 : gt ack s.sndMax = false)
    (hout : k = 0 → ¬Cover (s.sndUna - BitVec.ofNat 32 k) s.sacked (k + ahead s.sndUna ack)) :
    ScoreIn k (ackRing s ack) := by
  have hm := hn.maxOff_le hr
  obtain ⟨hpos, hle⟩ := ack_between hm h1 h2
  obtain ⟨hmax, -, -⟩ := ackRing_offsets hn hr h1 h2
  have hack : ahead (s.sndUna - BitVec.ofNat 32 k) ack = ahead s.sndUna ack + k := by
    rw [ahead_floor _ _ (by omega), Nat.add_comm]
  have hpruned := sackPrune_sorted (d := ahead s.sndUna ack) (k := k) (by omega) (by omega) h hack
    (by omega) fun h0 r hr' => ?_
  · have hbase : s.sndUna - BitVec.ofNat 32 k + BitVec.ofNat 32 (ahead s.sndUna ack) =
        ack - BitVec.ofNat 32 k := by
      conv_rhs => rw [← add_ahead s.sndUna ack]
      rw [BitVec.sub_eq_add_neg, BitVec.sub_eq_add_neg, BitVec.add_assoc, BitVec.add_assoc,
        BitVec.add_comm (-_)]
    have hhi : k + ahead s.sndUna s.sndMax - ahead s.sndUna ack = k + ahead ack (ackRing s ack).sndMax := by
      omega
    rw [hbase, hhi, Nat.zero_sub] at hpruned
    exact hpruned
  · intro hin
    refine hout h0 ⟨r, hr', ?_⟩
    rw [h0] at hin ⊢
    rwa [Nat.zero_add]

/-! ### The invariant -/

/-- The scoreboard of a socket in a given state (without an error). -/
def Scoring (k : ℕ) : State → Sending → Prop
  | .closed, s | .listen, s | .synSent, s | .synReceived, s => s.sacked = []
  | .established, s | .finWait1, s | .finWait2, s | .closeWait, s | .closing, s | .lastAck, s
  | .timeWait, s => ScoreIn k s

/-- The scoreboard of a socket in use without an error is in order. -/
def ScoreInv (k : ℕ) (s : Socket) : Prop := s.used = true → s.error = 0 → Scoring k s.state s.snd

theorem Scoring.of_nil (h : s.sacked = []) (st : State) : Scoring k st s := by
  cases st <;> first | exact h | exact ScoreIn.of_nil h

theorem Scoring.same {st : State} (h : Scoring k st s) (huna : t.sndUna = s.sndUna)
    (hmax : t.sndMax = s.sndMax) (hs : t.sacked = s.sacked) : Scoring k st t := by
  cases st with
  | closed | listen | synSent | synReceived => exact hs.trans h
  | _ => exact ScoreIn.grow h huna hs (le_of_eq (by rw [hmax]))

theorem Scoring.scoreIn {st : State} (h : Scoring k st s) : ScoreIn k s := by
  cases st with
  | closed | listen | synSent | synReceived => exact .of_nil h
  | _ => exact h

theorem ScoreIn.scoring (h : ScoreIn k s) {st : State} (hst : st.past = true) :
    Scoring k st s := by
  cases st with
  | closed | listen | synSent | synReceived => cases hst
  | _ => exact h

end

section

variable {k : ℕ} {late : Prop} {s t : Socket} {g : Segment} {clk : Clock}

theorem ScoreInv.zero : ScoreInv k Socket.zero := fun h => absurd h Bool.false_ne_true

theorem ScoreInv.of_nil (h : t.snd.sacked = []) : ScoreInv k t := fun _ _ => .of_nil h _

theorem ScoreInv.same (h : ScoreInv k s) (hf : Frame s t) (huna : t.snd.sndUna = s.snd.sndUna)
    (hmax : t.snd.sndMax = s.snd.sndMax) (hs : t.snd.sacked = s.snd.sacked) : ScoreInv k t := by
  intro hu he
  rw [hf.state]
  exact (h (hf.used ▸ hu) (hf.error ▸ he)).same huna hmax hs

theorem ScoreInv.move (h : ScoreInv k s) (hu : t.used = s.used) (he : t.error = s.error)
    (hst : t.state.past = true) (huna : t.snd.sndUna = s.snd.sndUna)
    (hmax : t.snd.sndMax = s.snd.sndMax) (hs : t.snd.sacked = s.snd.sacked) : ScoreInv k t := by
  intro hu' he'
  have := (h (hu ▸ hu') (he ▸ he')).scoreIn
  exact (this.grow huna hs (le_of_eq (by rw [hmax]))).scoring hst

theorem Opening.outstanding_le {s : Sending} (ho : Opening s) : ahead s.sndUna s.sndMax ≤ 1 := by
  rw [ho.una]
  rcases ho.max_cases with h0 | h0 <;> rw [h0]
  · simp
  · simp [ahead]

theorem Phase.outstanding_le {s : Sending} {st : State} (hp : Phase late st s) (hr : RingOk s)
    (hst : st ≠ .closed ∧ st ≠ .listen) : ahead s.sndUna s.sndMax ≤ 262145 := by
  cases st with
  | closed | listen => simp at hst
  | synSent | synReceived => exact hp.1.outstanding_le.trans (by decide)
  | established | closeWait | finWait1 | closing | lastAck =>
    rcases hp.1 with hn | ⟨-, hb⟩
    · exact hn.maxOff_le hr
    · rw [hb.max, ahead_self]
      exact Nat.zero_le _
  | finWait2 | timeWait =>
    rw [hp.1.max, ahead_self]
    exact Nat.zero_le _

theorem Calls.scoreInv {e : Event} (hc : Calls s e t) (h : ScoreInv k s) (hk : k ≤ 1)
    (hinv : SocketInv late s) : ScoreInv k t := by
  cases hc with
  | same | noted | accepted | idle => exact h
  | gone => exact .zero
  | failed _ he => exact fun _ h0 => absurd h0 he
  | listening _ _ hst =>
    intro hu he
    have hs := h hu he
    rw [hst] at hs
    exact hs
  | reaped now hreap ho =>
    intro hu he
    have hp := hinv.phase hu he
    have hs := h hu he
    rw [hinv.reap he hreap ho] at hp hs
    exact ScoreIn.eq_nil hs hk hp.1.max
  | timeout => exact .of_nil rfl
  | shutdown _ hst | closeFin _ _ _ hst | leftFin _ _ _ hst =>
    exact h.move rfl rfl hst.past.2 rfl rfl rfl
  | close _ _ _ _ hp => exact h.move rfl rfl hp rfl rfl rfl
  | left _ _ _ hst => exact fun hu he => hst ▸ h hu he

theorem emitChoice_grows (hinv : SocketInv late s) (hu : s.used = true)
    (hst : s.state ≠ .closed ∧ s.state ≠ .listen) {c : Choice} (hc : choose s = some c)
    (clk : Clock) : ahead s.snd.sndUna s.snd.sndMax ≤
      ahead s.snd.sndUna (emitChoice s c clk).sock.snd.sndMax := by
  have he := hinv.error_eq_zero hst.1
  have hf := emitChoice_sock_frame s c clk
  have hfr := emitChoice_frame clk (choose_frame hc)
  have hm := (hinv.phase hu he).outstanding_le (hinv.ring hu) hst
  have hinv' := hinv.of_frame hu hf (hfr.ringOk (hinv.ring hu))
    fun he => (hinv.phase hu he).emitChoice (hinv.ring hu) hc clk
  have hu' := hf.used.trans hu
  have hm' := (hinv'.phase hu' (hf.error.trans he)).outstanding_le (hinv'.ring hu')
    (by rw [hf.state]; exact hst)
  rw [hfr.sndUna] at hm'
  rcases emitChoice_sndMax clk hc with heq | hgt
  · rw [heq]
  · exact ((gt_iff (u := s.snd.sndUna) (by omega) (by omega)).1 hgt).le

theorem sendWhatIsDue_scoreInv (h : ScoreInv k s) (hinv : SocketInv late s) {r : SendResult}
    (hr : sendWhatIsDue s clk = some r) : ScoreInv k r.sock := by
  rcases sendWhatIsDue_cases hr with rfl | ⟨-, hopen, c, hc, rfl⟩
  · exact h
  · have hf := emitChoice_sock_frame s c clk
    have hfr := emitChoice_frame clk (choose_frame hc)
    intro hu he
    have hu' : s.used = true := hf.used ▸ hu
    have he' : s.error = 0 := hf.error ▸ he
    have hs := h hu' he'
    have hgrow := emitChoice_grows hinv hu' hopen hc clk
    rw [hf.state]
    generalize s.state = st at hs
    cases st with
    | closed | listen | synSent | synReceived => exact hfr.sacked.trans hs
    | _ => exact ScoreIn.grow hs hfr.sndUna hfr.sacked hgrow

/-! ### Segments -/

/-- The blocks that pass the check during the handshake: none beyond `snd_una`. -/
theorem Opening.notedBlocks_eq_nil {s : Sending} (ho : Opening s)
    (hb : ∀ b ∈ notedBlocks s g, gt b.start s.sndUna = true ∧ 2 * ahead s.sndUna b.stop < 2 ^ 32) :
    notedBlocks s g = [] := by
  rw [eq_nil_iff_forall_not_mem]
  intro b hmem
  obtain ⟨h1, h2⟩ := hb b hmem
  unfold notedBlocks at hmem
  split_ifs at hmem
  · simp only [mem_filter, Bool.and_eq_true] at hmem
    obtain ⟨-, ⟨hlt, -⟩, hmax⟩ := hmem
    obtain ⟨hpos, hhalf⟩ := gt_iff_ahead.1 h1
    have horder := (lt_iff (u := s.sndUna) (by omega) (by omega)).1 hlt
    have hone : ahead s.sndUna s.sndMax ≤ 1 := ho.outstanding_le
    rw [(gt_iff (u := s.sndUna) (by omega) (by omega)).2 (by omega)] at hmax
    cases hmax
  · cases hmem

theorem noted_scoreInv (h : ScoreInv k s) (hk : k ≤ 1) (hinv : SocketInv late s)
    (hst : s.state ≠ .closed ∧ s.state ≠ .listen ∧ s.state ≠ .synSent)
    (hb : ∀ b ∈ notedBlocks s.snd g,
      gt b.start s.snd.sndUna = true ∧ 2 * ahead s.snd.sndUna b.stop < 2 ^ 32) :
    ScoreInv k (s.noted g) := by
  intro hu he
  have hs := h hu he
  have hp := hinv.phase hu he
  have hm := hp.outstanding_le (hinv.ring hu) ⟨hst.1, hst.2.1⟩
  change Scoring k s.state { s.snd with sacked := (noteSack s.snd g).sacked }
  rw [← noteSack_eq]
  generalize s.state = st at hs hp hst
  cases st with
  | closed | listen | synSent => simp at hst
  | synReceived =>
    rw [noteSack_of_nil (hp.1.notedBlocks_eq_nil hb)]
    exact hs
  | _ => exact (ScoreIn.noted hs hk hm hb).1

theorem handshakeDone_scoreInv (h : s.snd.sacked = []) (ack : Seq) :
    ScoreInv k (handshakeDone s ack clk) := by
  unfold handshakeDone
  simp only
  split_ifs <;> exact .of_nil h

theorem processAck_scoreInv (h : ScoreInv k s) (hk : k ≤ 1) (hinv : SocketInv late s)
    (hu : s.used = true)
    (hst : s.state ≠ .closed ∧ s.state ≠ .listen ∧ s.state ≠ .synSent ∧ s.state ≠ .synReceived)
    {ack : Seq} (h1 : gt ack s.snd.sndUna = true) (h2 : gt ack s.snd.sndMax = false)
    (hout : k = 0 →
      ¬Cover (s.snd.sndUna - BitVec.ofNat 32 k) s.snd.sacked (k + ahead s.snd.sndUna ack)) :
    ScoreInv k (processAck s ack clk) := by
  have he : s.error = 0 := hinv.error_eq_zero hst.1
  have hr := hinv.ring hu
  obtain ⟨hn, -, hstate⟩ := (hinv.phase hu he).acknowledgeable hst h1 h2
  have hacked := (h hu he).scoreIn.acked hk hn hr h1 h2 hout
  obtain ⟨e1, -, e3, -⟩ := ackCongestion_frame (ackRing s.snd ack) (ahead s.snd.sndUna ack) ack
  have hsack : (ackCongestion (ackRing s.snd ack) (ahead s.snd.sndUna ack) ack).sacked =
      (ackRing s.snd ack).sacked := by
    unfold ackCongestion
    split_ifs <;> rfl
  have hscore : ScoreIn k (ackTaken s ack clk).snd :=
    hacked.grow e1 hsack (le_of_eq (congrArg (ahead _) e3.symm))
  have hpast : s.state.past = true := by
    cases h0 : s.state <;> simp_all [State.past]
  unfold processAck
  split_ifs with hfin
  · rw [Bool.and_eq_true, decide_eq_true_eq] at hfin
    have hdone := hn.acked_fin hr h1 h2 hfin.1 hfin.2
    have hnil : (ackTaken s ack clk).snd.sacked = [] := hscore.eq_nil hk hdone.max
    generalize ackTaken s ack clk = t at hnil
    unfold finAcknowledged
    cases t.state with
    | lastAck =>
      simp only
      split_ifs
      · exact .zero
      · exact .of_nil hnil
    | _ => exact .of_nil hnil
  · intro _ _
    exact hscore.scoring hpast

theorem dupAck_scoreInv (h : ScoreInv k s) (ack : Seq) : ScoreInv k (dupAck s ack) := by
  unfold dupAck
  simp only
  split_ifs <;> exact h.same ⟨rfl, rfl, rfl, rfl, rfl, rfl⟩ rfl rfl rfl

theorem Tail.scoreInv (ht : Tail s clk t) (h : ScoreInv k s) : ScoreInv k t := by
  induction ht with
  | kept | reopened => exact h.same ⟨rfl, rfl, rfl, rfl, rfl, rfl⟩ rfl rfl rfl
  | fin _ _ hst ih =>
    exact ih.move rfl rfl (by rcases hst with ⟨-, rfl⟩ | ⟨-, rfl⟩ <;> rfl) rfl rfl rfl
  | lastFin _ _ _ ih => exact ih.move rfl rfl rfl rfl rfl rfl

theorem tcpInput_scoreInv (h : ScoreInv k s) (hk : k ≤ 1) (hinv : SocketInv late s)
    (hc : s.connected = true)
    (hb : notesSack s g = true → ∀ b ∈ notedBlocks s.snd g,
      gt b.start s.snd.sndUna = true ∧ 2 * ahead s.snd.sndUna b.stop < 2 ^ 32)
    (hout : notesSack s g = true → gt g.ack s.snd.sndUna = true → k = 0 →
      ¬Cover (s.snd.sndUna - BitVec.ofNat 32 k) s.snd.sacked (k + ahead s.snd.sndUna g.ack)) :
    ScoreInv k (tcpInput s g clk) := by
  obtain ⟨hu, hclosed, hlisten⟩ := Socket.connected_iff.1 hc
  have he := hinv.error_eq_zero hclosed
  have hp := hinv.phase hu he
  have hs := h hu he
  have hnotes (hst : s.state ≠ .synSent) (hg : g.Acks) : notesSack s g = true := by
    simp [notesSack, hst, hg.1, hg.2]
  have hn (hst : s.state ≠ .synSent) (hg : g.Acks) : ScoreInv k (s.noted g) :=
    noted_scoreInv h hk hinv ⟨hclosed, hlisten, hst⟩ (hb (hnotes hst hg))
  have hacked (hst : s.state ≠ .synSent ∧ s.state ≠ .synReceived) (hg : g.Acks)
      (hmax : gt g.ack s.snd.sndMax = false) (huna : gt g.ack s.snd.sndUna = true) :
      ScoreInv k (processAck (s.noted g) g.ack clk) := by
    refine processAck_scoreInv (hn hst.1 hg) hk (noted_inv hinv hu g) hu
      ⟨hclosed, hlisten, hst⟩ huna hmax fun h0 hin => ?_
    have hm := hp.outstanding_le (hinv.ring hu) ⟨hclosed, hlisten⟩
    exact hout (hnotes hst.1 hg) huna h0
      ((hs.scoreIn.noted hk hm (hb (hnotes hst.1 hg))).2 (gt_iff_ahead.1 huna).2 hin)
  have hr := tcpInput_receives s g clk
  generalize tcpInput s g clk = s' at hr ⊢
  cases hr with
  | ignored => exact h
  | reset he => exact (Calls.abort (.input g clk) he).scoreInv h hk hinv
  | connected hst =>
    rw [hst] at hs
    exact .of_nil hs
  | again => exact h.same ⟨rfl, rfl, rfl, rfl, rfl, rfl⟩ rfl rfl rfl
  | stray hst hg => exact hn (by rw [hst]; decide) hg
  | opened hst hg =>
    rw [hst] at hp hs
    refine (taken_tail _ g clk).scoreInv (handshakeDone_scoreInv ?_ _)
    have hnil := hp.1.notedBlocks_eq_nil (hb (hnotes (by rw [hst]; decide) hg))
    rw [Socket.noted, noteSack_of_nil hnil]
    exact hs
  | beyond hst hg => exact (hn hst.1 hg).same ⟨rfl, rfl, rfl, rfl, rfl, rfl⟩ rfl rfl rfl
  | freed hst hg hmax huna => exact hacked hst hg hmax huna
  | acked hst hg hmax huna => exact (taken_tail _ g clk).scoreInv (hacked hst hg hmax huna)
  | dup hst hg => exact (taken_tail _ g clk).scoreInv (dupAck_scoreInv (hn hst.1 hg) g.ack)
  | old hst hg => exact (taken_tail _ g clk).scoreInv (hn hst.1 hg)

/-! ### Calls -/

theorem tcpConnect_scoreInv (h : ScoreInv k s) (hh : s.held = true) (ip : BitVec 32)
    (remotePort port : BitVec 16) (iss : Seq) :
    ScoreInv k (tcpConnect s ip remotePort port iss) := by
  cases hc : connects s port with
  | false => rwa [tcpConnect_of_not hh hc]
  | true =>
    rw [tcpConnect_of_connects hc]
    simp only [connects, Bool.and_eq_true, decide_eq_true_eq] at hc
    intro hu he
    have hs := h hu he
    rw [hc.1.1.2] at hs
    exact hs

theorem tcpWrite_scoreInv (h : ScoreInv k s) (bytes : List UInt8) (kmalloc : Option Memory) :
    ScoreInv k (tcpWrite s bytes kmalloc).1 := by
  rcases tcpWrite_cases s bytes kmalloc with h0 | ⟨-, _, _, _, _, h0⟩ <;> rw [h0]
  · exact h
  · exact h.same ⟨rfl, rfl, rfl, rfl, rfl, rfl⟩ rfl rfl rfl

theorem tcpRead_scoreInv (h : ScoreInv k s) (len : ℕ) (kmalloc : Option Memory) :
    ScoreInv k (tcpRead s len kmalloc).1 := by
  unfold tcpRead
  by_cases hlen : len = 0 ∨ s.rcv.rxLen = 0
  · rw [if_pos hlen]
    exact h
  · rw [if_neg hlen]
    exact h.same ⟨rfl, rfl, rfl, rfl, rfl, rfl⟩ rfl rfl rfl

end

variable {s : Sending} {k : ℕ}

/-! ### Runs -/

/-- Every block that passes the check would also pass it with `snd_una` in place of the segment's
acknowledgement number, and ends less than half a turn beyond `snd_una`. -/
def SackBeyond (c : Conn) : Event → Prop
  | .input g _ => c.sock.connected = true → notesSack c.sock g = true →
      ∀ b ∈ notedBlocks c.sock.snd g, gt b.start c.sock.snd.sndUna = true ∧
        2 * (b.stop - c.sock.snd.sndUna).toNat < 2 ^ 32
  | _ => True

/-- No new acknowledgement falls into a stretch that the peer has reported. -/
def AckOutside (c : Conn) : Event → Prop
  | .input g _ => c.sock.connected = true → notesSack c.sock g = true →
      gt g.ack c.sock.snd.sndUna = true →
      ∀ r ∈ c.sock.snd.sacked, (leq r.start g.ack && lt g.ack r.stop) = false
  | _ => True

instance (c : Conn) (e : Event) : Decidable (SackBeyond c e) := by
  rcases e with ⟨⟩ <;> unfold SackBeyond <;> infer_instance

instance (c : Conn) (e : Event) : Decidable (AckOutside c e) := by
  rcases e with ⟨⟩ <;> unfold AckOutside <;> infer_instance

theorem not_cover_of_outside {ack : Seq} (h : ScoreIn 0 s) (hm : ahead s.sndUna s.sndMax ≤ 262145)
    (hack : gt ack s.sndUna = true)
    (hout : ∀ r ∈ s.sacked, (leq r.start ack && lt ack r.stop) = false) :
    ¬Cover (s.sndUna - BitVec.ofNat 32 0) s.sacked (0 + ahead s.sndUna ack) := by
  have hzero : s.sndUna - BitVec.ofNat 32 0 = s.sndUna := BitVec.sub_zero _
  unfold ScoreIn at h
  rw [hzero, Nat.zero_add] at h ⊢
  rintro ⟨r, hr, h1, h2⟩
  obtain ⟨i1, i2, i3⟩ := h.mem hr
  have hnot := hout r hr
  rw [(leq_iff (u := s.sndUna) (by omega) (by omega)).2 h1,
    (lt_iff (u := s.sndUna) (by omega) (by omega)).2 h2] at hnot
  cases hnot

theorem step_scoreInv (hk : k ≤ 1) (c : Conn) (e : Event) (h : ScoreInv k c.sock)
    (hinv : SocketInv True c.sock) (hb : SackBeyond c e) (hout : k = 0 → AckOutside c e) :
    ScoreInv k (step c e).sock := by
  have hacts := step_acts c e
  generalize step c e = c' at hacts ⊢
  cases hacts with
  | nothing => exact h
  | tcpOpen hs =>
    obtain ⟨s, hs', rfl⟩ := Option.map_eq_some_iff.1 hs
    have := (allocSocket_blank hs').1.2.2.1
    exact .of_nil this
  | acceptSyn hs =>
    obtain ⟨s, hs', rfl⟩ := Option.map_eq_some_iff.1 hs
    have := (allocSocket_blank hs').1.2.2.1
    exact .of_nil this
  | connect ip remotePort port iss hc =>
    exact tcpConnect_scoreInv h (connects_ready hc).1 ip remotePort port iss
  | input g clk hu =>
    refine tcpInput_scoreInv h hk hinv hu (hb hu) fun hnotes hack h0 => ?_
    subst h0
    have hc := hu
    simp only [Socket.connected, Bool.and_eq_true, decide_eq_true_eq] at hc
    have he := hinv.error_eq_zero hc.1.2
    have hm := (hinv.phase hc.1.1 he).outstanding_le (hinv.ring hc.1.1) ⟨hc.1.2, hc.2⟩
    exact not_cover_of_outside (h hc.1.1 he).scoreIn hm hack (hout rfl hu hnotes hack)
  | send hs => exact sendWhatIsDue_scoreInv h hinv hs
  | write bytes kmalloc => exact tcpWrite_scoreInv h bytes kmalloc
  | read len kmalloc => exact tcpRead_scoreInv h len kmalloc
  | calls _ hc => exact hc.scoreInv h hk hinv

/-! ### What a scoreboard in order means -/

/-- The stretches are sorted, apart and between `snd_una` and `snd_max`, hold no more than is
outstanding, and `pipe` is what is outstanding, less the stretches and the holes between them. -/
def ScoreboardValid (c : Conn) : Prop :=
  c.sock.connected = true →
    (∀ r ∈ c.sock.snd.sacked, ahead c.sock.snd.sndUna r.start < ahead c.sock.snd.sndUna r.stop ∧
      ahead c.sock.snd.sndUna r.stop ≤ ahead c.sock.snd.sndUna c.sock.snd.sndMax) ∧
    c.sock.snd.sacked.Pairwise (fun a b =>
      ahead c.sock.snd.sndUna a.stop < ahead c.sock.snd.sndUna b.start) ∧
    (sackBytes c.sock.snd.sacked).toNat ≤ (c.sock.snd.sndMax - c.sock.snd.sndUna).toNat ∧
    ∃ holes, sackHoleBytes c.sock.snd.sacked (holesFrom c.sock.snd) = some holes ∧
      (sackBytes c.sock.snd.sacked).toNat + holes.toNat ≤
        (c.sock.snd.sndMax - c.sock.snd.sndUna).toNat ∧
      pipeOf c.sock.snd = some ((c.sock.snd.sndMax - c.sock.snd.sndUna).toNat -
        ((sackBytes c.sock.snd.sacked).toNat + holes.toNat))

/-- No stretch begins at `snd_una` itself. -/
def BeyondUna (c : Conn) : Prop :=
  c.sock.connected = true → ∀ r ∈ c.sock.snd.sacked, 0 < ahead c.sock.snd.sndUna r.start

theorem Sorted.pairwise {u : Seq} {hi lo : ℕ} {q : List Range} (h : Sorted u hi lo q) :
    q.Pairwise fun a b => ahead u a.stop < ahead u b.start := by
  induction q generalizing lo with
  | nil => exact List.Pairwise.nil
  | cons r rest ih =>
    exact pairwise_cons.2 ⟨fun b hb => (h.2.2.2.mem hb).1, ih h.2.2.2⟩

theorem ahead_of_floor {una x : Seq} (h : k ≤ ahead (una - BitVec.ofNat 32 k) x) :
    ahead una x = ahead (una - BitVec.ofNat 32 k) x - k := by
  rw [← ahead_moved h, BitVec.sub_add_cancel]

theorem holesFrom_half (s : Sending) : 2 * ahead s.sndUna (holesFrom s) < 2 ^ 32 := by
  unfold holesFrom
  split_ifs with h
  · exact (gt_iff_ahead.1 h).2
  · rw [ahead_self]
    decide

theorem ScoreIn.pipe (h : ScoreIn 1 s) (hm : ahead s.sndUna s.sndMax ≤ 262145) :
    (sackBytes s.sacked).toNat ≤ (s.sndMax - s.sndUna).toNat ∧
    ∃ holes, sackHoleBytes s.sacked (holesFrom s) = some holes ∧
      (sackBytes s.sacked).toNat + holes.toNat ≤ (s.sndMax - s.sndUna).toNat ∧
      pipeOf s = some ((s.sndMax - s.sndUna).toNat - ((sackBytes s.sacked).toNat + holes.toNat)) := by
  have hfrom := holesFrom_half s
  have hpos := ahead_floor (k := 1) s.sndUna (holesFrom s) (by omega)
  have hsum := bytesIn_add_gaps_le (m := 1)
    (p := ahead (s.sndUna - BitVec.ofNat 32 1) (holesFrom s)) h (by omega) (by omega) (by omega)
  have hbytes := sackBytes_eq h
  have hholes := sackHoleBytes_eq (holesFrom s) (by omega) h (by omega) (by omega)
  generalize bytesIn (s.sndUna - BitVec.ofNat 32 1) s.sacked = bytes at hsum hbytes
  generalize gaps (s.sndUna - BitVec.ofNat 32 1) _ s.sacked = holes at hsum hholes
  have hout : (s.sndMax - s.sndUna).toNat = ahead s.sndUna s.sndMax := rfl
  have hb : (sackBytes s.sacked).toNat = bytes := by
    rw [hbytes, BitVec.toNat_ofNat, Nat.mod_eq_of_lt (by omega)]
  have hh : (BitVec.ofNat 32 holes).toNat = holes := by
    rw [BitVec.toNat_ofNat, Nat.mod_eq_of_lt (by omega)]
  refine ⟨by omega, _, hholes, by omega, ?_⟩
  have hgone : (sackBytes s.sacked + BitVec.ofNat 32 holes).toNat = bytes + holes := by
    rw [BitVec.toNat_add, hb, hh, Nat.mod_eq_of_lt (by omega)]
  simp only [pipeOf, hholes, Option.map_some, hb, hh]
  split_ifs with hgt
  · rw [BitVec.toNat_sub_of_le (by rw [BitVec.le_def]; omega), hgone]
  · congr 1
    omega

theorem ScoreIn.valid (h : ScoreIn 1 s) :
    (∀ r ∈ s.sacked, ahead s.sndUna r.start < ahead s.sndUna r.stop ∧
      ahead s.sndUna r.stop ≤ ahead s.sndUna s.sndMax) ∧
    s.sacked.Pairwise fun a b => ahead s.sndUna a.stop < ahead s.sndUna b.start := by
  refine ⟨fun r hr => ?_, (Sorted.pairwise h).imp_of_mem fun {a b} ha hb hlt => ?_⟩
  · obtain ⟨h1, h2, h3⟩ := Sorted.mem h hr
    rw [ahead_of_floor (k := 1) (x := r.start) (by omega),
      ahead_of_floor (k := 1) (x := r.stop) (by omega)]
    omega
  · obtain ⟨h1, h2, h3⟩ := Sorted.mem h ha
    rw [ahead_of_floor (k := 1) (x := a.stop) (by omega),
      ahead_of_floor (k := 1) (x := b.start) (by omega)]
    omega

theorem ScoreIn.beyond (h : ScoreIn 0 s) :
    ∀ r ∈ s.sacked, 0 < ahead s.sndUna r.start := by
  intro r hr
  have hzero : s.sndUna - BitVec.ofNat 32 0 = s.sndUna := BitVec.sub_zero _
  have := (Sorted.mem h hr).1
  rwa [hzero] at this

theorem always_scoreInv (hk : k ≤ 1) {es : List Event} (hsyn : Along step SynWasSent Conn.init es)
    (hb : Along step SackBeyond Conn.init es) (hout : k = 0 → Along step AckOutside Conn.init es) :
    Always step (fun c => SocketInv True c.sock ∧ ScoreInv k c.sock) Conn.init es := by
  have hall : Along step (fun c e => (SynWasSent c e ∧ SackBeyond c e) ∧ (k = 0 → AckOutside c e))
      Conn.init es := by
    refine (hsyn.and hb).and ?_
    by_cases h0 : k = 0
    · exact (hout h0).mono fun c e h _ => h
    · exact Along.of_forall fun c e h1 => absurd h1 h0
  refine always_of_induction (fun c e h hP => ?_) ⟨SocketInv.zero, ScoreInv.zero⟩ hall
  have hready : HandshakeReady True c e := by
    cases e with
    | input g clk => exact fun hc hcomp => .inr ⟨trivial, hP.1.1 hc hcomp⟩
    | _ => trivial
  exact ⟨step_inv c e h.1 hready, step_scoreInv hk c e h.2 h.1 hP.1.2 hP.2⟩

/-- If every block that passes the check lies beyond `snd_una`, the scoreboard is in order, and
begins after `snd_una` if no acknowledgement falls into a stretch. -/
theorem scoreboardValid_of_sackBeyond (es : List Event)
    (hsyn : Along step SynWasSent Conn.init es) (hb : Along step SackBeyond Conn.init es) :
    Always step ScoreboardValid Conn.init es ∧
    (Along step AckOutside Conn.init es → Always step BeyondUna Conn.init es) := by
  constructor
  · refine (always_scoreInv (k := 1) le_rfl hsyn hb (fun h => absurd h one_ne_zero)).mono
      fun c hc hconn => ?_
    simp only [Socket.connected, Bool.and_eq_true, decide_eq_true_eq] at hconn
    have he := hc.1.error_eq_zero hconn.1.2
    have hs := (hc.2 hconn.1.1 he).scoreIn
    have hm := (hc.1.phase hconn.1.1 he).outstanding_le (hc.1.ring hconn.1.1) ⟨hconn.1.2, hconn.2⟩
    exact ⟨hs.valid.1, hs.valid.2, hs.pipe hm⟩
  · intro hout
    refine (always_scoreInv (k := 0) (by decide) hsyn hb fun _ => hout).mono fun c hc hconn => ?_
    simp only [Socket.connected, Bool.and_eq_true, decide_eq_true_eq] at hconn
    exact (hc.2 hconn.1.1 (hc.1.error_eq_zero hconn.1.2)).scoreIn.beyond

/-- Ten bytes go out and five are acknowledged; then an older acknowledgement arrives, with a block
acknowledged since. -/
def staleAckRun : List Event :=
  openingRun (synAckSegment [2, 4, 0, 64, 4, 2, 0, 0] 100) [1, 2, 3, 4, 5, 6, 7, 8, 9, 10] ++
    [.send ⟨7, 7000⟩, .input (ackSegment 1006 [] 100) ⟨8, 8000⟩,
      .input (ackSegment 1001 (sackOption [⟨1002, 1004⟩]) 100) ⟨9, 9000⟩]

/-- The scoreboard then has a stretch below `snd_una`. -/
theorem staleAckRun_below_una :
    (run step Conn.init staleAckRun).sock.snd.sacked = [⟨1002, 1004⟩] ∧
    (run step Conn.init staleAckRun).sock.snd.sndUna = 1006 ∧
    (run step Conn.init staleAckRun).sock.snd.sndMax = 1011 ∧
    ¬ScoreboardValid (run step Conn.init staleAckRun) := by
  refine ⟨by decide +kernel, by decide +kernel, by decide +kernel, fun h => ?_⟩
  have hconn : (run step Conn.init staleAckRun).sock.connected = true := by decide +kernel
  have hbad : ¬∀ r ∈ (run step Conn.init staleAckRun).sock.snd.sacked,
      ahead (run step Conn.init staleAckRun).sock.snd.sndUna r.start <
        ahead (run step Conn.init staleAckRun).sock.snd.sndUna r.stop ∧
      ahead (run step Conn.init staleAckRun).sock.snd.sndUna r.stop ≤
        ahead (run step Conn.init staleAckRun).sock.snd.sndUna
          (run step Conn.init staleAckRun).sock.snd.sndMax := by
    decide +kernel
  exact hbad (h hconn).1

theorem scoreboardValid_nearBlockRun :
    (run step Conn.init nearBlockRun).sock.snd.sacked = [⟨1005, 1007⟩] ∧
    Always step ScoreboardValid Conn.init nearBlockRun ∧
    Always step BeyondUna Conn.init nearBlockRun :=
  ⟨by decide +kernel,
    (scoreboardValid_of_sackBeyond nearBlockRun (by decide +kernel) (by decide +kernel)).1,
    (scoreboardValid_of_sackBeyond nearBlockRun (by decide +kernel) (by decide +kernel)).2
      (by decide +kernel)⟩

end Bashket.Tcp
