import Bashket.Tcp.Receiver
import Bashket.Tcp.SenderRuns

/-!
# The received stream over whole runs

From the moment the sequence numbers are agreed on, as long as somebody wants the data, whatever
segments of `S` arrive in whatever order and whoever reads how much when, what was read and what is
in the ring is the beginning of `S` (`received_of_honest`).
-/

namespace Bashket.Tcp

open Serial Run List

def State.expecting : State → Bool
  | .synReceived | .established | .finWait1 | .finWait2 => true
  | _ => false

theorem State.expecting_of_receiving {st : State} (h : st.receiving = true) :
    st.expecting = true := by
  cases st <;> first | rfl | cases h

/-- A socket that receives `S`, of which `received` was read. -/
def Reading (S received : List UInt8) (s : Socket) : Prop :=
  s.used = true → s.keeping = true ∧ s.state ≠ .synSent ∧ Holds S received s.rcv ∧
    (s.state.expecting = true → s.rcv.peerFin = false)

/-- Bytes of `S` at their place: of the places its sequence number can stand for, the one less than
half a turn from what is expected. -/
def Honest (S received : List UInt8) (r : Receiving) (g : Segment) : Prop :=
  g.data = [] ∧ g.flags.fin = false ∨
  ∃ k ≤ S.length, g.seq = r.irs + 1 + BitVec.ofNat 32 k ∧ Carry S k g.data g.flags.fin ∧
    received.length + r.rxLen + r.peerFin.toNat ≤ k + 2 ^ 31 ∧
    k < received.length + r.rxLen + r.peerFin.toNat + 2 ^ 31

/-- None that begins another connection in the slot or gives the connection up. -/
def OfConnection : Event → Bool
  | .tcpOpen .. | .acceptSyn .. | .connect .. | .close .. | .listenerClosed .. => false
  | _ => true

section Segments

variable {S received : List UInt8} {s t : Socket} {g : Segment} {clk : Clock} {r : Receiving}
  {k : ℕ} {seq : Seq} {data : List UInt8} {fin : Bool}

theorem Reading.zero : Reading S received Socket.zero := fun h => absurd h Bool.false_ne_true

/-- A section that leaves the receiving half alone, and does not go back to a state that expects
data. -/
theorem Reading.of_same (h : Reading S received s) (hu : t.used = s.used)
    (ho : t.userOpen = s.userOpen) (hl : t.listener = s.listener) (hst : t.state ≠ .synSent)
    (he : t.state.expecting = true → s.state.expecting = true) (hr : SameRecv s.rcv t.rcv) :
    Reading S received t := by
  intro hu'
  obtain ⟨h1, h2, h3, h4⟩ := h (hu.symm.trans hu')
  refine ⟨?_, hst, hr.holds h3, fun hx => hr.peerFin.trans (h4 (he hx))⟩
  rw [Socket.keeping, ho, hl]
  exact h1

theorem SameRecv.refl (r : Receiving) : SameRecv r r :=
  ⟨rfl, rfl, rfl, rfl, rfl, rfl, rfl, rfl, rfl, rfl⟩

theorem Reading.of_frame (h : Reading S received s) (hst : s.state ≠ .synSent) (hf : Frame s t)
    (hr : SameRecv s.rcv t.rcv) : Reading S received t :=
  h.of_same hf.used hf.userOpen hf.listener (by rwa [hf.state]) (by rw [hf.state]; exact id) hr

theorem Calls.reading {e : Event} (hc : Calls s e t) (h : Reading S received s)
    (he : OfConnection e = true) : Reading S received t := by
  cases hc with
  | same | noted | idle | timeout => exact h
  | gone => exact .zero
  | failed =>
    exact h.of_same rfl rfl rfl (by simp) (fun h0 => absurd h0 Bool.false_ne_true)
      ⟨rfl, rfl, rfl, rfl, rfl, rfl, rfl, rfl, rfl, rfl⟩
  | listening | reaped =>
    exact h.of_same rfl rfl rfl (by simp) (fun h0 => absurd h0 Bool.false_ne_true) (.refl _)
  | accepted => exact fun hu => ⟨rfl, (h hu).2⟩
  | shutdown _ hst =>
    rcases hst with ⟨h0, rfl⟩ | ⟨h0, rfl⟩ <;>
      exact h.of_same rfl rfl rfl (by simp) (by rw [h0]; exact id) (.refl _)
  | closeFin | close | leftFin | left => exact absurd he Bool.false_ne_true

/-! ### Where a segment lies -/

theorem Holds.place (h : Holds S received r) (hseq : seq = r.irs + 1 + BitVec.ofNat 32 k)
    (h1 : received.length + r.rxLen + r.peerFin.toNat ≤ k + 2 ^ 31)
    (h2 : k < received.length + r.rxLen + r.peerFin.toNat + 2 ^ 31) :
    (lt seq r.rcvNxt = true ↔ k < received.length + r.rxLen + r.peerFin.toNat) ∧
    (k ≤ received.length + r.rxLen + r.peerFin.toNat →
      (r.rcvNxt - seq).toNat = received.length + r.rxLen + r.peerFin.toNat - k) ∧
    (seq = r.rcvNxt ↔ k = received.length + r.rxLen + r.peerFin.toNat) := by
  have hnxt := h.nxt
  generalize received.length + r.rxLen + r.peerFin.toNat = p at *
  have hback (hle : k ≤ p) : ahead seq r.rcvNxt = p - k := by
    rw [hnxt, hseq]
    exact ahead_ofNat _ hle (by omega)
  have hfwd (hle : p ≤ k) : ahead r.rcvNxt seq = k - p := by
    rw [hnxt, hseq]
    exact ahead_ofNat _ hle (by omega)
  refine ⟨?_, hback, ?_⟩
  · rw [lt_iff_ahead]
    constructor
    · intro hge
      by_contra hc
      rw [hfwd (by omega)] at hge
      omega
    · intro hlt
      rw [ahead_swap, hback hlt.le]
      omega
  · constructor
    · intro heq
      by_contra hne
      rcases Nat.lt_or_ge k p with hlt | hge
      · have := hback hlt.le
        rw [heq, ahead_self] at this
        omega
      · have := hfwd hge
        rw [heq, ahead_self] at this
        omega
    · intro heq
      have := hfwd heq.ge
      rw [heq, Nat.sub_self] at this
      exact ahead_eq_zero.1 this

theorem Carry.drop {n : ℕ} (h : Carry S k data fin) (hn : n ≤ data.length) :
    Carry S (k + n) (data.drop n) fin := by
  refine ⟨fun i hi => ?_, ?_, fun hf => ?_⟩
  · rw [length_drop] at hi
    rw [getElem?_drop, Nat.add_assoc]
    exact h.bytes (n + i) (by omega)
  · rw [length_drop]
    have := h.le
    omega
  · rw [length_drop]
    have := h.fin hf
    omega

/-! ### What a segment carries -/

theorem keepOutOfOrder_peerFin (r : Receiving) (seq : Seq) (data : List UInt8) (fin : Bool) :
    (keepOutOfOrder r seq data fin).peerFin = r.peerFin := by
  unfold keepOutOfOrder
  simp only
  split_ifs
  · split <;> rfl
  · rfl

theorem takeAhead_reading (h : Reading S received s)
    (hseq : seq = s.rcv.irs + 1 + BitVec.ofNat 32 k) (hc : Carry S k data fin)
    (hk : received.length + s.rcv.rxLen + s.rcv.peerFin.toNat < k)
    (hnear : k < received.length + s.rcv.rxLen + s.rcv.peerFin.toNat + 2 ^ 31) :
    Reading S received (takeAhead s seq data fin) := by
  intro hu
  obtain ⟨h1, h2, h3, h4⟩ := h hu
  have hin : Reading S received { s with
      rcv := if s.state.receiving && s.keeping then keepOutOfOrder s.rcv seq data fin
        else s.rcv } := by
    intro _
    by_cases hrecv : (s.state.receiving && s.keeping) = true
    · simp only [if_pos hrecv]
      rw [Bool.and_eq_true] at hrecv
      have hp := h4 (State.expecting_of_receiving hrecv.1)
      rw [hp, Bool.toNat_false, Nat.add_zero] at hk hnear
      exact ⟨h1, h2, h3.keepOutOfOrder hp hc hk hnear hseq,
        fun hx => (keepOutOfOrder_peerFin ..).trans (h4 hx)⟩
    · simp only [if_neg hrecv]
      exact ⟨h1, h2, h3, h4⟩
  exact hin.of_same rfl rfl rfl h2 id ⟨rfl, rfl, rfl, rfl, rfl, rfl, rfl, rfl, rfl, rfl⟩ hu

theorem takeFin_reading (clk : Clock) (h : Reading S received s) :
    Reading S received (takeFin s s.state.receiving clk) := by
  unfold takeFin
  split_ifs with hfin
  · simp only [Bool.and_eq_true, decide_eq_true_eq] at hfin
    obtain ⟨⟨hknown, hseq⟩, hrecv⟩ := hfin
    intro hu
    have hu' : s.used = true := by
      cases hst : s.state <;> simp only [hst] at hu <;> exact hu
    obtain ⟨h1, h2, h3, h4⟩ := h hu'
    have hholds := h3.takeFin (h4 (State.expecting_of_receiving hrecv)) hknown hseq
    cases hst : s.state with
    | established | finWait1 | finWait2 =>
      exact ⟨h1, by simp, hholds, fun hx => absurd hx Bool.false_ne_true⟩
    | closed | listen | synSent | synReceived | closeWait | closing | lastAck | timeWait =>
      rw [hst] at hrecv
      cases hrecv
  · exact h

theorem takeNext_reading (h : Reading S received s)
    (hc : Carry S (received.length + s.rcv.rxLen + s.rcv.peerFin.toNat) data fin) :
    Reading S received (takeNext s data fin clk) := by
  have hin : Reading S received { s with
      rcv := if s.state.receiving then takeInOrder s.rcv s.keeping data fin else s.rcv } := by
    intro hu
    obtain ⟨h1, h2, h3, h4⟩ := h hu
    by_cases hrecv : s.state.receiving = true
    · simp only [if_pos hrecv]
      have hp := h4 (State.expecting_of_receiving hrecv)
      rw [hp, Bool.toNat_false, Nat.add_zero] at hc
      rw [h1]
      exact ⟨h1, h2, h3.takeInOrder hp hc, fun hx => h4 hx⟩
    · simp only [if_neg hrecv]
      exact ⟨h1, h2, h3, h4⟩
  have hfin := takeFin_reading clk hin
  intro hu
  exact hfin.of_same rfl rfl rfl (hfin hu).2.1 id ⟨rfl, rfl, rfl, rfl, rfl, rfl, rfl, rfl, rfl, rfl⟩
    hu

/-- What is left of a segment once the part already in is cut off begins at `rcv_nxt` or after
it. -/
theorem Holds.rest_of_segment (h : Holds S received r) (hg : Honest S received r g)
    (hempty : ¬(g.data.isEmpty && !g.flags.fin) = true)
    (hold : ¬(lt g.seq r.rcvNxt &&
      decide (repeated r g ≥ g.data.length + g.flags.fin.toNat)) = true) :
    ∃ k, g.seq + BitVec.ofNat 32 (min (repeated r g) g.data.length) =
        r.irs + 1 + BitVec.ofNat 32 k ∧
      Carry S k (g.data.drop (min (repeated r g) g.data.length)) g.flags.fin ∧
      received.length + r.rxLen + r.peerFin.toNat ≤ k ∧
      k < received.length + r.rxLen + r.peerFin.toNat + 2 ^ 31 := by
  rcases hg with ⟨h1, h2⟩ | ⟨k, -, hseq, hc, hlo, hhi⟩
  · simp [h1, h2] at hempty
  · obtain ⟨p1, p2, -⟩ := h.place hseq hlo hhi
    generalize received.length + r.rxLen + r.peerFin.toNat = p at *
    by_cases hlt : k < p
    · have hrep : repeated r g = p - k := by
        rw [repeated, if_pos (p1.2 hlt), p2 hlt.le]
      rw [p1.2 hlt, Bool.true_and, decide_eq_true_eq, hrep] at hold
      have hfin := Bool.toNat_le g.flags.fin
      rw [hrep, Nat.min_eq_left (by omega)]
      refine ⟨k + (p - k), ?_, hc.drop (by omega), by omega, by omega⟩
      rw [hseq, BitVec.ofNat_add, ← BitVec.add_assoc]
    · have hrep : repeated r g = 0 := by
        rw [repeated, if_neg fun h0 => hlt (p1.1 h0)]
      rw [hrep, Nat.zero_min]
      refine ⟨k, ?_, hc.drop (Nat.zero_le _), by omega, hhi⟩
      rw [hseq]
      exact BitVec.add_zero _

theorem takeData_used (h : (takeData s g clk).used = true) : s.used = true := by
  revert h
  unfold takeData
  simp only
  split_ifs
  · exact id
  · exact id
  · exact id
  · simp only [takeNext, takeFin]
    split_ifs
    · cases s.state <;> exact id
    · exact id
    · cases s.state <;> exact id
    · exact id

theorem takeData_reading (h : Reading S received s) (hg : Honest S received s.rcv g) :
    Reading S received (takeData s g clk) := by
  intro hu
  obtain ⟨-, hst, hholds, -⟩ := h (takeData_used hu)
  revert hu
  change Reading S received (takeData s g clk)
  unfold takeData
  simp only
  split_ifs with hempty hold hne
  · exact h
  · exact h.of_same rfl rfl rfl hst id ⟨rfl, rfl, rfl, rfl, rfl, rfl, rfl, rfl, rfl, rfl⟩
  · obtain ⟨k, hseq, hc, hlo, hhi⟩ := hholds.rest_of_segment hg hempty hold
    have hplace := (hholds.place hseq (by omega) hhi).2.2
    exact takeAhead_reading h hseq hc (lt_of_le_of_ne hlo fun he => hne (hplace.2 he.symm)) hhi
  · obtain ⟨k, hseq, hc, hlo, hhi⟩ := hholds.rest_of_segment hg hempty hold
    have hplace := (hholds.place hseq (by omega) hhi).2.2
    rw [hplace.1 (not_not.1 hne)] at hc
    exact takeNext_reading h hc

/-! ### The other stages -/

theorem processAck_reading (clk : Clock) (h : Reading S received s) (hst : s.state ≠ .synSent) (ack : Seq) :
    Reading S received (processAck s ack clk) := by
  have htaken : Reading S received (ackTaken s ack clk) :=
    h.of_same rfl rfl rfl hst id (SameRecv.refl _)
  have hst' : (ackTaken s ack clk).state = s.state := rfl
  unfold processAck
  split_ifs
  · unfold finAcknowledged
    generalize ackTaken s ack clk = t at htaken hst'
    simp only
    cases hs : t.state with
    | finWait1 =>
      exact htaken.of_same rfl rfl rfl (by simp) (fun _ => by rw [hs]; rfl) (SameRecv.refl _)
    | closing =>
      exact htaken.of_same rfl rfl rfl (by simp) (fun h0 => absurd h0 Bool.false_ne_true)
        (SameRecv.refl _)
    | lastAck =>
      simp only
      split_ifs
      · exact .zero
      · exact htaken.of_same rfl rfl rfl (by simp) (fun h0 => absurd h0 Bool.false_ne_true)
          (SameRecv.refl _)
    | synSent => exact absurd (hst'.symm.trans hs) hst
    | closed | listen | synReceived | established | finWait2 | closeWait | timeWait =>
      exact htaken.of_same rfl rfl rfl (by simp) (by rw [hs]; exact id) (SameRecv.refl _)
  · exact htaken

theorem processAck_rcv (s : Socket) (ack : Seq) (clk : Clock)
    (h : (processAck s ack clk).used = true) : (processAck s ack clk).rcv = s.rcv := by
  have htaken : (ackTaken s ack clk).rcv = s.rcv := rfl
  unfold processAck at h ⊢
  by_cases hfin : (s.snd.finQueued && decide ((ack - s.snd.sndUna).toNat > s.snd.txLen)) = true
  · rw [if_pos hfin] at h ⊢
    generalize ackTaken s ack clk = t at h htaken ⊢
    unfold finAcknowledged at h ⊢
    cases hs : t.state <;> simp only [hs] at h ⊢
    case lastAck =>
      split_ifs at h ⊢
      · exact absurd h Bool.false_ne_true
      · exact htaken
    all_goals exact htaken
  · rw [if_neg hfin]
    exact htaken

/-- The window and the data of a segment, on a socket that the acknowledgement left as it was. -/
theorem taken_reading (h : Reading S received s) (hg : Honest S received s.rcv g) (clk : Clock) :
    Reading S received (takeData (takeWindow s g clk) g clk) := by
  have hw : Reading S received (takeWindow s g clk) ∧ (takeWindow s g clk).rcv = s.rcv := by
    unfold takeWindow
    simp only
    split_ifs <;>
      exact ⟨fun hu => h.of_same rfl rfl rfl (h hu).2.1 id (SameRecv.refl _) hu, rfl⟩
  exact takeData_reading hw.1 (hw.2 ▸ hg)

theorem tcpInput_reading (h : Reading S received s) (hg : Honest S received s.rcv g) :
    Reading S received (tcpInput s g clk) := by
  have hn (hst : s.state ≠ .synSent) : Reading S received (s.noted g) :=
    h.of_same rfl rfl rfl hst id (SameRecv.refl _)
  have hr := tcpInput_receives s g clk
  generalize tcpInput s g clk = s' at hr ⊢
  cases hr with
  | ignored => exact h
  | reset he => exact (Calls.abort (.input g clk) he).reading h rfl
  | connected hst =>
    -- not a socket that receives, unless its slot is free
    exact fun hu => absurd hst (h hu).2.1
  | again hst => exact h.of_same rfl rfl rfl (by simp [hst]) id (SameRecv.refl _)
  | stray hst => exact hn (by simp [hst])
  | opened hst =>
    have hx : (s.noted g).state.expecting = true := by rw [hst]; rfl
    have hn' := hn (by simp [hst])
    refine taken_reading ?_ ?_ clk
    · simp only [handshakeDone]
      split_ifs
      · exact hn'.of_same rfl rfl rfl (by simp) (fun _ => hx) (SameRecv.refl _)
      · exact hn'.of_same rfl rfl rfl (by simp) (fun _ => hx) (SameRecv.refl _)
    · simp only [handshakeDone]
      split_ifs <;> exact hg
  | beyond hst =>
    exact (hn hst.1).of_same rfl rfl rfl hst.1 id
      ⟨rfl, rfl, rfl, rfl, rfl, rfl, rfl, rfl, rfl, rfl⟩
  | freed hst => exact processAck_reading clk (hn hst.1) hst.1 g.ack
  | acked hst _ _ _ hused =>
    refine taken_reading (processAck_reading clk (hn hst.1) hst.1 g.ack) ?_ clk
    rw [processAck_rcv _ g.ack clk hused]
    exact hg
  | dup hst =>
    have hrcv : (dupAck (s.noted g) g.ack).rcv = s.rcv := by
      unfold dupAck
      simp only
      split_ifs <;> rfl
    refine taken_reading ((hn hst.1).of_frame hst.1 (dupAck_frame _ g.ack).1 ?_) (hrcv ▸ hg) clk
    rw [hrcv]
    exact SameRecv.refl _
  | old hst => exact taken_reading (hn hst.1) hg clk

end Segments

/-! ### Sending, writing and reading -/

section Calls

variable {S received : List UInt8} {s t : Socket} {clk : Clock}

theorem emitChoice_sameRecv (s : Socket) (c : Choice) (clk : Clock) :
    SameRecv s.rcv (emitChoice s c clk).sock.rcv := by
  unfold emitChoice
  split_ifs <;> exact ⟨rfl, rfl, rfl, rfl, rfl, rfl, rfl, rfl, rfl, rfl⟩

theorem sendWhatIsDue_reading (h : Reading S received s) {r : SendResult}
    (hr : sendWhatIsDue s clk = some r) : Reading S received r.sock := by
  unfold sendWhatIsDue at hr
  split_ifs at hr with hidle
  · cases hr
    exact h
  · obtain ⟨c, -, rfl⟩ := Option.map_eq_some_iff.1 hr
    have hu : s.used = true := by
      simp only [Bool.or_eq_true, not_or, Bool.not_eq_true', Bool.not_eq_false] at hidle
      exact hidle.1.1
    exact h.of_frame (h hu).2.1 (emitChoice_sock_frame s c clk) (emitChoice_sameRecv s c clk)

theorem tcpWrite_reading (h : Reading S received s) (bytes : List UInt8)
    (kmalloc : Option Memory) : Reading S received (tcpWrite s bytes kmalloc).1 := by
  unfold tcpWrite
  split_ifs
  · exact h
  · exact fun hu => h hu

theorem Holds.offerMore {r : Receiving} {limit : ℕ} (h : Holds S received r)
    (hlimit : limit ≤ bufferMax) (kmalloc : Option Memory) :
    Holds S received (offerMore limit r kmalloc).1 ∧
      (Tcp.offerMore limit r kmalloc).1.peerFin = r.peerFin := by
  unfold Tcp.offerMore
  split_ifs
  · cases hg : growRing limit r.rx r.rxSize r.rxHead kmalloc with
    | none =>
      refine ⟨SameRecv.holds ?_ h, rfl⟩
      exact ⟨rfl, rfl, rfl, rfl, rfl, rfl, rfl, rfl, rfl, rfl⟩
    | some grown =>
      refine ⟨SameRecv.holds ?_ (h.grow hlimit hg), rfl⟩
      exact ⟨rfl, rfl, rfl, rfl, rfl, rfl, rfl, rfl, rfl, rfl⟩
  · exact ⟨h, rfl⟩

theorem tcpRead_reading (h : Reading S received s) (len : ℕ) (kmalloc : Option Memory) :
    Reading S (received ++ (tcpRead s len kmalloc).2) (tcpRead s len kmalloc).1 := by
  unfold tcpRead
  by_cases hempty : len = 0 ∨ s.rcv.rxLen = 0
  · rw [if_pos hempty]
    simpa using h
  rw [if_neg hempty]
  simp only
  generalize hn : (if len < s.rcv.rxLen then len else s.rcv.rxLen) = n
  have hle : n ≤ s.rcv.rxLen := by
    rw [← hn]
    split_ifs <;> omega
  intro hu
  obtain ⟨h1, h2, h3, h4⟩ := h hu
  obtain ⟨h5, h6⟩ := (h3.read hle).offerMore (ringLimit_le s.snd) kmalloc
  refine ⟨h1, h2, SameRecv.holds ?_ h5, fun he => h6.trans (h4 he)⟩
  exact ⟨rfl, rfl, rfl, rfl, rfl, rfl, rfl, rfl, rfl, rfl⟩

end Calls

/-! ### Whole runs -/

/-- A connection whose sequence numbers have just been agreed on: nothing has come in yet. -/
structure FreshReceiver (c : Conn) : Prop where
  received : c.received = []
  keeping : c.sock.keeping = true
  state : c.sock.state = .synReceived ∨ c.sock.state = .established
  pos : 0 < c.sock.rcv.rxSize
  small : c.sock.rcv.rxSize ≤ bufferMax
  nxt : c.sock.rcv.rcvNxt = c.sock.rcv.irs + 1
  rxLen : c.sock.rcv.rxLen = 0
  ooo : c.sock.rcv.ooo = []
  finKnown : c.sock.rcv.finKnown = false
  peerFin : c.sock.rcv.peerFin = false

/-- A segment that arrives carries bytes of `S`. -/
def HonestInput (S : List UInt8) (c : Conn) : Event → Prop
  | .input g _ => c.sock.connected = true → Honest S c.received c.sock.rcv g
  | _ => True

/-- The bytes read and in the ring are the first of `S`, as many as `rcv_nxt` counts; they fit in
the ring, and the FIN is counted only after all of `S`. -/
def Received (S : List UInt8) (c : Conn) : Prop :=
  c.sock.used = true →
    let n := (c.sock.rcv.rcvNxt - c.sock.rcv.irs - 1 - BitVec.ofNat 32 c.sock.rcv.peerFin.toNat)
    c.received ++ Ring.read c.sock.rcv.rx c.sock.rcv.rxSize c.sock.rcv.rxHead c.sock.rcv.rxLen =
      S.take (c.received.length + c.sock.rcv.rxLen) ∧
    c.received.length + c.sock.rcv.rxLen ≤ S.length ∧
    n = BitVec.ofNat 32 (c.received.length + c.sock.rcv.rxLen) ∧
    c.sock.rcv.rxLen ≤ c.sock.rcv.rxSize ∧
    (c.sock.rcv.peerFin = true → c.received.length + c.sock.rcv.rxLen = S.length)

theorem FreshReceiver.reading {c : Conn} (h : FreshReceiver c) (S : List UInt8) :
    Reading S c.received c.sock := by
  intro _
  have hne : c.sock.state ≠ .synSent := by
    rcases h.state with hs | hs <;> rw [hs] <;> decide
  refine ⟨h.keeping, hne, ?_, fun _ => h.peerFin⟩
  refine ⟨h.pos, h.small, h.rxLen.symm ▸ Nat.zero_le _, ?_, ?_, ?_, fun i hi => ?_, fun h0 => ?_,
    fun h0 => ?_⟩
  · rw [h.received]
    exact nil_prefix
  · rw [h.nxt, h.received, h.rxLen, h.peerFin]
    simp
  · rw [h.ooo]
    trivial
  · rcases hi with hi | ⟨x, ⟨r, hr, -⟩, -⟩
    · rw [h.rxLen] at hi
      omega
    · rw [h.ooo] at hr
      exact absurd hr not_mem_nil
  · exact absurd (h.finKnown.symm.trans h0) Bool.false_ne_true
  · exact absurd (h.peerFin.symm.trans h0) Bool.false_ne_true

theorem Reading.received {S : List UInt8} {c : Conn} (h : Reading S c.received c.sock) :
    Received S c := by
  intro hu
  obtain ⟨-, -, hh, -⟩ := h hu
  refine ⟨hh.stream, hh.count, ?_, hh.len, hh.done⟩
  rw [hh.nxt, BitVec.ofNat_add]
  bv_omega

theorem step_reading {S : List UInt8} {c : Conn} {e : Event} (h : Reading S c.received c.sock)
    (he : OfConnection e = true) (hin : HonestInput S c e) :
    Reading S (step c e).received (step c e).sock := by
  have hacts := step_acts c e
  generalize step c e = c' at hacts ⊢
  cases hacts with
  | nothing => exact h
  | tcpOpen | acceptSyn | connect => exact absurd he Bool.false_ne_true
  | input g clk hu => exact tcpInput_reading h (hin hu)
  | send hs => exact sendWhatIsDue_reading h hs
  | write bytes kmalloc => exact tcpWrite_reading h bytes kmalloc
  | read len kmalloc => exact tcpRead_reading h len kmalloc
  | calls _ hc => exact hc.reading h he

/-- Whatever segments of `S` arrive, and whoever reads how much when: what was read, with what is in
the ring, is the beginning of `S` that `rcv_nxt` counts. -/
theorem received_of_honest (S : List UInt8) (c : Conn) (es : List Event) (hc : FreshReceiver c)
    (hes : Along step (fun c e => OfConnection e = true ∧ HonestInput S c e) c es) :
    Always step (Received S) c es := by
  have hreading : Always step (fun c => Reading S c.received c.sock) c es := by
    refine always_of_induction ?_ (hc.reading S) hes
    exact fun _ _ h he => step_reading h he.1 he.2
  exact hreading.mono fun _ => Reading.received

/-! ### A run for illustration -/

instance (S : List UInt8) (k : ℕ) (data : List UInt8) (fin : Bool) :
    Decidable (Carry S k data fin) :=
  decidable_of_iff ((∀ i < data.length, S[k + i]? = data[i]?) ∧ k + data.length ≤ S.length ∧
    (fin = true → k + data.length = S.length)) ⟨fun h => ⟨h.1, h.2.1, h.2.2⟩,
      fun h => ⟨h.bytes, h.le, h.fin⟩⟩

instance (S received : List UInt8) (r : Receiving) (g : Segment) :
    Decidable (Honest S received r g) := by
  unfold Honest
  infer_instance

instance (S : List UInt8) (c : Conn) (e : Event) : Decidable (HonestInput S c e) := by
  rcases e with ⟨⟩ <;> unfold HonestInput <;> infer_instance

/-- A listener takes a SYN whose sequence number is about to wrap. -/
def acceptedConn : Conn :=
  step Conn.init (.acceptSyn 0 80 1
    { srcPort := 1000, dstPort := 80, seq := 0xFFFFFFFD, ack := 0
      flags := { Flags.none with syn := true }, window := 100, options := [], data := [] }
    (some fun _ => 0) (some fun _ => 0) false 1000)

/-- The bytes `data` from position `k` of the stream on, for that connection. -/
def streamSegment (k : ℕ) (data : List UInt8) (fin : Bool) : Segment :=
  { srcPort := 1000, dstPort := 80, seq := 0xFFFFFFFE + BitVec.ofNat 32 k, ack := 1001
    flags := { Flags.none with ack := true, fin := fin }, window := 100, options := [], data := data }

/-- The end of the stream comes first, then the beginning, twice. -/
def gapRun : List Event :=
  [.send ⟨4, 4000⟩, .input (streamSegment 0 [] false) ⟨5, 5000⟩, .accept,
    .input (streamSegment 3 [4, 5] true) ⟨6, 6000⟩,
    .input (streamSegment 0 [1, 2] false) ⟨7, 7000⟩, .read 1 none,
    .input (streamSegment 0 [1, 2, 3] false) ⟨8, 8000⟩, .read 10 none]

theorem acceptedConn_fresh : FreshReceiver acceptedConn :=
  ⟨rfl, rfl, .inl rfl, by decide, by decide, rfl, rfl, rfl, rfl, rfl⟩

theorem received_gapRun : (run step acceptedConn gapRun).received = [1, 2, 3, 4, 5] ∧
    (run step acceptedConn gapRun).sock.rcv.peerFin = true ∧
    Always step (Received [1, 2, 3, 4, 5]) acceptedConn gapRun :=
  ⟨by decide +kernel, by decide +kernel,
    received_of_honest [1, 2, 3, 4, 5] acceptedConn gapRun acceptedConn_fresh
      (by decide +kernel)⟩

end Bashket.Tcp
