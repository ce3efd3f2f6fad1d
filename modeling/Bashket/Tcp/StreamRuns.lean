import Bashket.Tcp.Stream

/-!
# The stream over whole runs

`Carried` holds all along every run in which every block let onto the scoreboard lies within a
quarter of a turn of `snd_max` (`SackNear`) and the handshake finds the SYN sent.
-/

namespace Bashket.Tcp

open Serial Run

def Carries (W : List UInt8) (sent : List Emission) (s : Socket) : Prop :=
  s.used = true → s.error = 0 → Carried W sent s.state s.snd

/-- Does `tcp_input` look at the SACK option of this segment? -/
def notesSack (s : Socket) (g : Segment) : Bool :=
  s.state ≠ .synSent && !g.flags.rst && !g.flags.syn && g.flags.ack

/-- Every block let onto the scoreboard lies within a quarter of a turn of `snd_max`. -/
def SackNear (c : Conn) : Event → Prop
  | .input g _ => c.sock.connected = true → notesSack c.sock g = true →
      Edges (fun x => (c.sock.snd.sndMax - x).toNat < 2 ^ 30) (notedBlocks c.sock.snd g)
  | _ => True

instance (c : Conn) (e : Event) : Decidable (SackNear c e) := by
  rcases e with ⟨⟩ <;> unfold SackNear <;> infer_instance

section Steps

variable {late : Prop} {W : List UInt8} {sent : List Emission} {s t : Socket} {g : Segment}
  {clk : Clock} {ack : Seq} {st : State} {c : Choice}

theorem Carries.zero : Carries W sent Socket.zero := fun h => absurd h Bool.false_ne_true

theorem Carries.of_eq (h : Carries W sent s) (hf : Frame s t) (hs : t.snd = s.snd) :
    Carries W sent t := by
  intro hu he
  rw [hf.state, hs]
  exact h (hf.used.symm.trans hu) (hf.error.symm.trans he)

theorem Carries.of_same (h : Carries W sent s) (hf : Frame s t) (hs : SameStream s.snd t.snd) :
    Carries W sent t := by
  intro hu he
  rw [hf.state]
  exact hs.carried (h (hf.used.symm.trans hu) (hf.error.symm.trans he))

theorem goBack_sameStream (s : Sending) (first : Bool) : SameStream s (goBack s first) := by
  refine ⟨rfl, rfl, rfl, rfl, rfl, .inr rfl, rfl, rfl, rfl, rfl, rfl, ?_⟩
  simp only [goBack]
  split_ifs
  · exact fun h => absurd h Bool.false_ne_true
  · exact fun h _ => ⟨h, rfl⟩

theorem State.Ends.carried {st' : State} (hst : st.Ends st') {s : Sending}
    (h : Carried W sent st s) : Carried W sent st' { s with finQueued := true } := by
  rcases hst with ⟨rfl, rfl⟩ | ⟨rfl, rfl⟩ <;>
    exact ⟨h.len, h.ring, h.una, h.scored, h.rexmitting, h.wasSent⟩

theorem Calls.carries {e : Event} (hc : Calls s e t) (h : Carries W sent s)
    (hinv : SocketInv late s) (hu : s.used = true) : Carries W sent t := by
  cases hc with
  | same | noted | accepted | idle => exact h
  | gone => exact .zero
  | failed _ he => exact fun _ h0 => absurd h0 he
  | listening _ _ hst =>
    intro _ he
    have hc := h hu he
    rw [hst] at hc
    exact hc
  | reaped now hreap ho =>
    intro _ he
    have hp := hinv.phase hu he
    rw [hinv.reap he hreap ho] at hp
    exact fun ha => absurd (ha.symm.trans hp.2) (by decide)
  | timeout => exact h.of_same ⟨rfl, rfl, rfl, rfl, rfl, rfl⟩ (goBack_sameStream _ _)
  | shutdown _ hst | closeFin _ _ _ hst | leftFin _ _ _ hst =>
    exact fun _ he => hst.carried (h hu he)
  | close _ _ _ hst | left _ _ _ hst => exact fun _ he => hst ▸ h hu he

/-! ### Segments -/

theorem synAnswered_carries (h : Carries W sent s) (hinv : SocketInv late s) (hu : s.used = true)
    (hst : s.state = .synSent) (hack : g.ack = s.snd.iss + 1)
    (hready : s.snd.sndNxt ≠ s.snd.iss ∨ late ∧ s.snd.sndMax ≠ s.snd.iss) :
    Carries W sent (synAnswered s g clk) := by
  have he : s.error = 0 := hinv.error_eq_zero (by rw [hst]; decide)
  have hp := hinv.phase hu he
  have hc := h hu he
  rw [hst] at hp hc
  -- a socket that was connected before has not sent its SYN
  have ha : s.snd.synAcked = false := by
    by_contra ha
    obtain ⟨h1, h2⟩ := hp.2 (Bool.not_eq_false _ ▸ ha)
    rcases hready with hne | ⟨-, hne⟩
    · exact hne h1
    · exact hne h2
  have hscored : Scored s.snd := by
    unfold Scored
    rw [hc.2 ha]
    exact Edges.nil
  intro _ _
  rw [hc.1]
  exact Stream.begin ha hscored hp.1.quiet.txLen hack rfl rfl rfl rfl rfl

theorem handshakeDone_carries (h : Carries W sent s) (hinv : SocketInv late s) (hu : s.used = true)
    (hst : s.state = .synReceived) (hack : ack = s.snd.iss + 1) :
    Carries W sent (handshakeDone s ack clk) := by
  have he : s.error = 0 := hinv.error_eq_zero (by rw [hst]; decide)
  have hp := hinv.phase hu he
  have hc := h hu he
  rw [hst] at hp hc
  intro _ _
  rw [hc.1]
  unfold handshakeDone
  simp only
  split_ifs
  · exact Stream.begin hp.2 hc.2 hp.1.quiet.txLen hack rfl rfl rfl rfl rfl
  · exact Stream.begin hp.2 hc.2 hp.1.quiet.txLen hack rfl rfl rfl rfl rfl

theorem Phase.view_max {s : Sending} (hp : Phase late st s) (hr : RingOk s)
    (hst : st ≠ .closed ∧ st ≠ .listen ∧ st ≠ .synSent ∧ st ≠ .finWait2 ∧ st ≠ .timeWait) :
    2 ^ 30 - 1 ≤ ahead s.view s.sndMax := by
  have hopen (h : Open late s) (ha : s.synAcked = true) : 2 ^ 30 - 1 ≤ ahead s.view s.sndMax := by
    rcases h with hn | ⟨-, hb⟩
    · rw [hn.view_max hr ha]
      omega
    · rw [hb.max, ahead_view_of_le ha (by rw [ahead_self]; omega)]
      omega
  cases st with
  | closed | listen | synSent | finWait2 | timeWait => simp at hst
  | synReceived =>
    have hbase : s.base = s.iss + 1 := by rw [Sending.base, hp.2]; rfl
    rw [ahead_view, hbase]
    rcases hp.1.max_cases with hm | hm
    · rw [hm, ahead_add_one_left rfl]
      omega
    · rw [hm, ahead_self]
      omega
  | established | closeWait | finWait1 | closing | lastAck => exact hopen hp.1 hp.2.1

theorem Scored.noted {s : Sending} (hs : Scored s) (hv : 2 ^ 30 - 1 ≤ ahead s.view s.sndMax)
    (hb : Edges (fun x => (s.sndMax - x).toNat < 2 ^ 30) (notedBlocks s g)) :
    Edges (fun x => ahead s.view x ≤ ahead s.view s.sndMax) (noteSack s g).sacked := by
  refine noteSack_edges hs (hb.mono fun x hx => ?_)
  have htrans := ahead_trans s.view x s.sndMax
  have hlt := ahead_lt s.view x
  have hx' : ahead x s.sndMax < 2 ^ 30 := hx
  omega

theorem noted_carries (h : Carries W sent s) (hinv : SocketInv late s) (hu : s.used = true)
    (hst : s.state ≠ .closed ∧ s.state ≠ .listen ∧ s.state ≠ .synSent)
    (hb : Edges (fun x => (s.snd.sndMax - x).toNat < 2 ^ 30) (notedBlocks s.snd g)) :
    Carries W sent (s.noted g) := by
  intro _ he
  have hc := h hu he
  have hp := hinv.phase hu he
  have hr := hinv.ring hu
  change Carried W sent s.state (s.noted g).snd
  generalize s.state = st at hc hp hst
  have hnoted (hs : Scored s.snd)
      (hst' : st ≠ .closed ∧ st ≠ .listen ∧ st ≠ .synSent ∧ st ≠ .finWait2 ∧ st ≠ .timeWait) :
      Edges (fun x => ahead s.snd.view x ≤ ahead s.snd.view s.snd.sndMax)
        (noteSack s.snd g).sacked := hs.noted (hp.view_max hr hst') hb
  cases st with
  | closed | listen | synSent => simp at hst
  | synReceived => exact ⟨hc.1, hnoted hc.2 (by decide)⟩
  | established | closeWait | finWait1 | closing | lastAck =>
    exact ⟨hc.len, hc.ring, hc.una, hnoted hc.scored (by decide), hc.rexmitting, hc.wasSent⟩
  | finWait2 | timeWait => trivial

theorem Carried.stream {s : Sending} (h : Carried W sent st s)
    (hst : st = .established ∨ st = .closeWait ∨ st = .finWait1 ∨ st = .closing ∨ st = .lastAck) :
    Stream W sent s := by
  rcases hst with rfl | rfl | rfl | rfl | rfl <;> exact h

theorem Stream.carried {s : Sending} (h : Stream W sent s)
    (hst : st = .established ∨ st = .closeWait ∨ st = .finWait1 ∨ st = .closing ∨ st = .lastAck) :
    Carried W sent st s := by
  rcases hst with rfl | rfl | rfl | rfl | rfl <;> exact h

theorem finAcknowledged_carries
    (hst : t.state = .finWait1 ∨ t.state = .closing ∨ t.state = .lastAck)
    (ha : t.snd.synAcked = true) : Carries W sent (finAcknowledged t clk) := by
  unfold finAcknowledged
  rcases hst with h1 | h1 | h1
  · simp only [h1]
    exact fun _ _ => trivial
  · simp only [h1]
    exact fun _ _ => trivial
  · simp only [h1]
    split_ifs
    · exact .zero
    · exact fun _ _ h0 => absurd (h0.symm.trans ha) (by decide)

theorem processAck_carries (clk : Clock) (h : Carries W sent s) (hinv : SocketInv late s)
    (hu : s.used = true)
    (hst : s.state ≠ .closed ∧ s.state ≠ .listen ∧ s.state ≠ .synSent ∧ s.state ≠ .synReceived)
    (h1 : gt ack s.snd.sndUna = true) (h2 : gt ack s.snd.sndMax = false) :
    Carries W sent (processAck s ack clk) := by
  have he : s.error = 0 := hinv.error_eq_zero hst.1
  have hr := hinv.ring hu
  obtain ⟨hn, ha, hstate⟩ := (hinv.phase hu he).acknowledgeable hst h1 h2
  obtain ⟨-, -, -, -, -, -, -, -, -, hack⟩ :=
    ackCongestion_frame (ackRing s.snd ack) (ahead s.snd.sndUna ack) ack
  obtain ⟨-, hle⟩ := ack_between (hn.maxOff_le hr) h1 h2
  have hmax := hn.max
  unfold processAck
  change Carries W sent (if (s.snd.finQueued && decide (ahead s.snd.sndUna ack > s.snd.txLen)) = true
    then _ else _)
  split_ifs with hfin
  · rw [Bool.and_eq_true, decide_eq_true_eq] at hfin
    have hst' := (hstate.resolve_left fun hc => by rw [hc.2] at hfin; cases hfin.1).1
    exact finAcknowledged_carries hst' (hack.trans ha)
  · rw [Bool.and_eq_true, decide_eq_true_eq] at hfin
    have hd : ahead s.snd.sndUna ack ≤ s.snd.txLen := by
      cases hq : s.snd.finQueued
      · rw [hq, Bool.toNat_false] at hmax
        omega
      · rw [hq] at hfin
        simpa using hfin
    have hst' : s.state = .established ∨ s.state = .closeWait ∨ s.state = .finWait1 ∨
        s.state = .closing ∨ s.state = .lastAck := by
      rcases hstate with ⟨hs | hs, -⟩ | ⟨hs | hs | hs, -⟩ <;> simp [hs]
    intro _ _
    refine Stream.carried ?_ hst'
    exact (ackCongestion_sameStream _ _ _).stream (((h hu he).stream hst').acked hn hr ha h1 h2 hd)

theorem dupAck_carries (h : Carries W sent s) (hinv : SocketInv late s) (hu : s.used = true)
    (hd : isDupAck s.snd g = true) (ack : Seq) : Carries W sent (dupAck s ack) := by
  have hfr := (dupAck_frame s ack).1
  have hr := hinv.ring hu
  simp only [isDupAck, Bool.and_eq_true, decide_eq_true_eq] at hd
  intro _ he
  have he' : s.error = 0 := hfr.error.symm.trans he
  have hp := hinv.phase hu he'
  obtain ⟨hn, -, -⟩ := hp.normal_of_outstanding hd.1.1.2 hd.1.2
  have hc := h hu he'
  rw [hfr.state]
  generalize s.state = st at hp hc
  have hquiet : Quiet s.snd → False := fun hq => by
    have := hd.1.1.2
    rw [hq.txLen] at this
    exact absurd this (lt_irrefl 0)
  cases st with
  | closed | listen => exact (hquiet hp).elim
  | synSent | synReceived => exact (hquiet hp.1.quiet).elim
  | established | closeWait | finWait1 | closing | lastAck =>
    exact Stream.dupAck hc hn hr hd.1.1.2 hd.1.2 ack
  | finWait2 | timeWait => trivial

theorem Tail.carries (ht : Tail s clk t) (h : Carries W sent s) : Carries W sent t := by
  induction ht with
  | kept | reopened =>
    exact h.of_same ⟨rfl, rfl, rfl, rfl, rfl, rfl⟩
      ⟨rfl, rfl, rfl, rfl, rfl, .inl rfl, rfl, rfl, rfl, rfl, rfl, fun h _ => ⟨h, rfl⟩⟩
  | fin _ _ hst ih =>
    intro hu he
    have := ih hu he
    rcases hst with ⟨hst, rfl⟩ | ⟨hst, rfl⟩ <;> rw [hst] at this <;> exact this
  | lastFin => exact fun _ _ => trivial

theorem tcpInput_carries (h : Carries W sent s) (hinv : SocketInv late s)
    (hc : s.connected = true) (hready : Ready late s g)
    (hb : notesSack s g = true →
      Edges (fun x => (s.snd.sndMax - x).toNat < 2 ^ 30) (notedBlocks s.snd g)) :
    Carries W sent (tcpInput s g clk) := by
  obtain ⟨hu, hclosed, hlisten⟩ := Socket.connected_iff.1 hc
  have hn (hst : s.state ≠ .synSent) (hg : g.Acks) : Carries W sent (s.noted g) :=
    noted_carries h hinv hu ⟨hclosed, hlisten, hst⟩ (hb (by simp [notesSack, hst, hg.1, hg.2]))
  have hninv := noted_inv hinv hu g
  have hr := tcpInput_receives s g clk
  generalize tcpInput s g clk = s' at hr ⊢
  cases hr with
  | ignored => exact h
  | reset he => exact (Calls.abort (.input g clk) he).carries h hinv hu
  | connected hst hack hg =>
    exact synAnswered_carries h hinv hu hst hack
      (hready (by simp [completesHandshake, hst, hack, hg]))
  | again =>
    exact h.of_same ⟨rfl, rfl, rfl, rfl, rfl, rfl⟩
      ⟨rfl, rfl, rfl, rfl, rfl, .inl rfl, rfl, rfl, rfl, rfl, rfl, fun h _ => ⟨h, rfl⟩⟩
  | stray hst hg => exact hn (by rw [hst]; decide) hg
  | opened hst hg hack =>
    exact (taken_tail _ g clk).carries
      (handshakeDone_carries (hn (by rw [hst]; decide) hg) hninv hu hst hack)
  | beyond hst hg => exact (hn hst.1 hg).of_eq ⟨rfl, rfl, rfl, rfl, rfl, rfl⟩ rfl
  | freed hst hg hmax huna =>
    exact processAck_carries clk (hn hst.1 hg) hninv hu ⟨hclosed, hlisten, hst⟩ huna hmax
  | acked hst hg hmax huna =>
    exact (taken_tail _ g clk).carries
      (processAck_carries clk (hn hst.1 hg) hninv hu ⟨hclosed, hlisten, hst⟩ huna hmax)
  | dup hst hg _ _ hd =>
    exact (taken_tail _ g clk).carries (dupAck_carries (hn hst.1 hg) hninv hu hd g.ack)
  | old hst hg => exact (taken_tail _ g clk).carries (hn hst.1 hg)

/-! ### Sending and the owner's calls -/

theorem emitChoice_sndMax (clk : Clock) (hc : choose s = some c) :
    (emitChoice s c clk).sock.snd.sndMax = s.snd.sndMax ∨
      gt (emitChoice s c clk).sock.snd.sndMax s.snd.sndMax = true := by
  have hmax := choose_sndMax hc
  unfold emitChoice
  by_cases hf : c.flags = Flags.none
  · rw [if_pos hf]
    exact .inl hmax
  · rw [if_neg hf]
    simp only
    split_ifs with hg
    · rw [Bool.and_eq_true, hmax] at hg
      exact .inr hg.2
    · exact .inl hmax

theorem emitChoice_carried (h : Carries W sent s) (hinv : SocketInv late s) (hu : s.used = true)
    (hc : choose s = some c) :
    Carries W (sent ++ emissions s W (emitChoice s c clk)) (emitChoice s c clk).sock := by
  have hfr := emitChoice_sock_frame s c clk
  have hsf := emitChoice_frame clk (choose_frame hc)
  intro _ he
  have he' : s.error = 0 := hfr.error.symm.trans he
  have hp := hinv.phase hu he'
  have hr := hinv.ring hu
  have hcar := h hu he'
  have hp' := hp.emitChoice hr hc clk
  rw [hfr.state]
  generalize s.state = st at hp hcar hp'
  have hopen (ho : Open late s.snd) (ha : s.snd.synAcked = true) (hs : Stream W sent s.snd) :
      Stream W (sent ++ emissions s W (emitChoice s c clk)) (emitChoice s c clk).sock.snd := by
    rcases ho with hn | ⟨-, hb⟩
    · exact hs.emitChoice hn hr ha hc
    · rw [(choose_behind clk hb hr ha hc).1]
      exact hs.mono_sent
  have hnil (h0 : s.snd.synAcked = false → s.snd.sacked = []) :
      (emitChoice s c clk).sock.snd.synAcked = false →
        (emitChoice s c clk).sock.snd.sacked = [] := by
    rw [hsf.synAcked, hsf.sacked]
    exact h0
  cases st with
  | closed | listen => exact hnil hcar
  | synSent => exact ⟨hcar.1, hnil hcar.2⟩
  | synReceived =>
    have hview : (emitChoice s c clk).sock.snd.view = s.snd.view := by
      simp only [Sending.view, Sending.base, hsf.synAcked, hsf.sndUna, hsf.iss]
    refine ⟨hcar.1, ?_⟩
    unfold Scored
    rw [hview, hsf.sacked]
    refine hcar.2.mono fun x hx => hx.trans ?_
    -- the SYN only moves `snd_max` from `iss` to `iss + 1`
    have hbase : s.snd.base = s.snd.iss + 1 := by rw [Sending.base, hp.2]; rfl
    rw [ahead_view, ahead_view, hbase]
    rcases hp'.1.max_cases with hm | hm
    · rcases hp.1.max_cases with hm0 | hm0
      · rw [hm, hsf.iss, hm0]
      · rw [hsf.iss] at hm
        rcases emitChoice_sndMax clk hc with heq | hgt
        · rw [heq]
        · rw [hm, hm0, gt_iff_ahead, ahead_add_one_left rfl] at hgt
          omega
    · rw [hm, hsf.iss, ahead_self]
      rcases hp.1.max_cases with hm0 | hm0
      · rw [hm0, ahead_add_one_left rfl]
        omega
      · rw [hm0, ahead_self]
  | established | closeWait | finWait1 | closing | lastAck => exact hopen hp.1 hp.2.1 hcar
  | finWait2 | timeWait => trivial

theorem sendWhatIsDue_carries (h : Carries W sent s) (hinv : SocketInv late s) {r : SendResult}
    (hr : sendWhatIsDue s clk = some r) : Carries W (sent ++ emissions s W r) r.sock := by
  rcases sendWhatIsDue_cases hr with rfl | ⟨hu, -, c, hc, rfl⟩
  · exact fun hu he => (h hu he).mono_sent
  · exact emitChoice_carried h hinv hu hc

theorem tcpWrite_carries (h : Carries W sent s) (hinv : SocketInv late s) (hu : s.used = true)
    (bytes : List UInt8) (kmalloc : Option Memory) :
    Carries (W ++ bytes.take (tcpWrite s bytes kmalloc).2) sent (tcpWrite s bytes kmalloc).1 := by
  unfold tcpWrite
  by_cases hc : s.error ≠ 0 ∨ (s.state ≠ .established ∧ s.state ≠ .closeWait)
  · rw [if_pos hc, List.take_zero, List.append_nil]
    exact h
  rw [if_neg hc]
  simp only [not_or, not_and, not_not] at hc
  have hst : s.state = .established ∨ s.state = .closeWait ∨ s.state = .finWait1 ∨
      s.state = .closing ∨ s.state = .lastAck := by
    by_cases hst : s.state = .established
    · exact .inl hst
    · exact .inr (.inl (hc.2 hst))
  obtain ⟨hr, hsame⟩ := makeRoom_spec (hinv.ring hu) kmalloc
  have hs := ((h hu hc.1).stream hst).makeRoom (hinv.ring hu) kmalloc
  have hp := hsame.phase (hinv.phase hu hc.1)
  generalize makeRoom s.snd kmalloc = snd at hr hp hs
  have hopen : Open late snd ∧ snd.finQueued = false := by
    by_cases hest : s.state = .established
    · rw [hest] at hp
      exact ⟨hp.1, hp.2.2⟩
    · rw [hc.2 hest] at hp
      exact ⟨hp.1, hp.2.2⟩
  intro _ _
  refine Stream.carried ?_ hst
  simp only
  generalize hn : (if bytes.length < snd.txSize - snd.txLen then bytes.length
    else snd.txSize - snd.txLen) = n
  have hlen : (bytes.take n).length = n := by
    rw [List.length_take, ← hn]
    split_ifs <;> omega
  have hwrite := hs.write (bytes.take n) hr hopen.1 hopen.2 (by
    rw [hlen, ← hn]
    split_ifs <;> omega)
  rwa [hlen] at hwrite

end Steps

variable {s : Socket} {tx rx : Option Memory} {refuseSack : Bool}

/-! ### Runs -/

theorem allocSocket_sacked (h : allocSocket tx rx refuseSack = some s) : s.snd.sacked = [] := by
  unfold allocSocket at h
  split at h
  · cases h
    rfl
  · cases h

theorem tcpOpen_carries (h : tcpOpen tx rx refuseSack = some s) : Carries [] [] s := by
  obtain ⟨s, hs, rfl⟩ := Option.map_eq_some_iff.1 h
  intro _ _
  simp only [(allocSocket_spec hs).2.2.1]
  exact fun _ => allocSocket_sacked hs

theorem acceptSyn_carries {listener : ℕ} {localPort : BitVec 16} {src : BitVec 32} {g : Segment}
    {iss : Seq} (h : acceptSyn listener localPort src g tx rx refuseSack iss = some s) :
    Carries [] [] s := by
  obtain ⟨s, hs, rfl⟩ := Option.map_eq_some_iff.1 h
  refine fun _ _ => ⟨rfl, ?_⟩
  have hnil : (startSequence (applySynOptions { s.snd with sndWnd := g.window.toNat } g.options)
      iss).sacked = [] := allocSocket_sacked hs
  unfold Scored
  simp only [hnil]
  exact Edges.nil

theorem step_carries {late : Prop} (c : Conn) (e : Event) (hinv : SocketInv late c.sock)
    (h : Carries c.written c.sent c.sock) (hready : HandshakeReady late c e)
    (hnear : SackNear c e) : Carries (step c e).written (step c e).sent (step c e).sock := by
  have hacts := step_acts c e
  generalize step c e = c' at hacts ⊢
  cases hacts with
  | nothing => exact h
  | tcpOpen hs => exact tcpOpen_carries hs
  | acceptSyn hs => exact acceptSyn_carries hs
  | connect ip remotePort port iss hc =>
    obtain ⟨hh, hst, he⟩ := connects_ready hc
    rw [tcpConnect_of_connects hc]
    refine fun _ _ => ⟨rfl, ?_⟩
    have := h (Socket.held_iff.1 hh).1 he
    rw [hst] at this
    exact this
  | input g clk hu => exact tcpInput_carries h hinv hu (hready hu) (hnear hu)
  | send hs => exact sendWhatIsDue_carries h hinv hs
  | write bytes kmalloc hu => exact tcpWrite_carries h hinv hu bytes kmalloc
  | read len =>
    simp only [tcpRead]
    by_cases hlen : len = 0 ∨ c.sock.rcv.rxLen = 0
    · rw [if_pos hlen]
      exact h
    · rw [if_neg hlen]
      exact h
  | calls hu hc => exact hc.carries h hinv hu

end Bashket.Tcp
