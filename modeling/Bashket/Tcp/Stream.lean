import Bashket.Tcp.Scoreboard
import Bashket.Tcp.SenderRuns

/-!
# The stream in the send ring

`Stream W sent s` ties the sending half `s` of an open connection to the stream `W` that `tcp_write`
has accepted so far: the ring holds its last `tx_len` bytes, `snd_una` is the number of the first of
them, the scoreboard lies in view of it, and every byte below `snd_max` is in one of the segments
`sent`.
-/

namespace Bashket.Tcp

open Serial List

/-- The oldest number not acknowledged; during the handshake, that of the first byte. -/
def Sending.base (s : Sending) : Seq := if s.synAcked then s.sndUna else s.iss + 1

/-- A quarter of a turn before the oldest number not acknowledged. -/
def Sending.view (s : Sending) : Seq := s.base - BitVec.ofNat 32 (2 ^ 30)

/-- The scoreboard lies between `view` and `snd_max`. -/
def Scored (s : Sending) : Prop :=
  Edges (fun x => ahead s.view x ≤ ahead s.view s.sndMax) s.sacked

def Rexmitting (s : Sending) : Prop :=
  s.cc.inRecovery = true → s.sackOk = true →
    ahead (s.cc.recover - BitVec.ofNat 32 (2 ^ 19)) s.rexmitNext ≤
      ahead (s.cc.recover - BitVec.ofNat 32 (2 ^ 19)) (s.sndUna + BitVec.ofNat 32 s.txLen)

def WasSent (sent : List Emission) (p : ℕ) : Prop :=
  ∃ m ∈ sent, m.pos ≤ p ∧ p < m.pos + m.segment.data.length

/-- The position in the stream `W` of the oldest byte in the ring. -/
def Sending.first (s : Sending) (W : List UInt8) : ℕ := W.length - s.txLen

/-- The sending half of an open connection on which `W` was written and `sent` was sent. -/
structure Stream (W : List UInt8) (sent : List Emission) (s : Sending) : Prop where
  len : s.txLen ≤ W.length
  ring : Ring.read s.tx s.txSize s.txHead s.txLen = W.drop (s.first W)
  una : s.sndUna = s.iss + 1 + BitVec.ofNat 32 (s.first W)
  scored : Scored s
  rexmitting : Rexmitting s
  wasSent : ∀ i < min (ahead s.sndUna s.sndMax) s.txLen, WasSent sent (s.first W + i)

/-- What holds of the stream in a given state of the connection. -/
def Carried (W : List UInt8) (sent : List Emission) : State → Sending → Prop
  | .closed, s | .listen, s => s.synAcked = false → s.sacked = []
  | .synSent, s => W = [] ∧ (s.synAcked = false → s.sacked = [])
  | .synReceived, s => W = [] ∧ Scored s
  | .established, s | .closeWait, s | .finWait1, s | .closing, s | .lastAck, s => Stream W sent s
  | .finWait2, _ | .timeWait, _ => True

/-! ### What is seen from where -/

section View

variable {s : Sending} {x y : Seq}

theorem ahead_sub_base (b x : Seq) {k : ℕ} (hk : k < 2 ^ 32) :
    ahead (b - BitVec.ofNat 32 k) x = (k + ahead b x) % 2 ^ 32 := by
  rw [ahead_trans _ b x]
  rw [ahead, show b - (b - BitVec.ofNat 32 k) = BitVec.ofNat 32 k by bv_omega, BitVec.toNat_ofNat,
    Nat.mod_eq_of_lt hk]

theorem ahead_view (s : Sending) (x : Seq) :
    ahead s.view x = (2 ^ 30 + ahead s.base x) % 2 ^ 32 :=
  ahead_sub_base s.base x (by decide)

theorem base_of_synAcked (h : s.synAcked = true) : s.base = s.sndUna := by
  rw [Sending.base, if_pos h]

theorem ahead_view_of_le (h : s.synAcked = true) (hx : ahead s.sndUna x < 3 * 2 ^ 30) :
    ahead s.view x = 2 ^ 30 + ahead s.sndUna x := by
  rw [ahead_view, base_of_synAcked h, Nat.mod_eq_of_lt (by omega)]

theorem ahead_una_of_view (h : s.synAcked = true) (hx : 2 ^ 30 ≤ ahead s.view x) :
    ahead s.view x = 2 ^ 30 + ahead s.sndUna x := by
  have hlt := ahead_lt s.sndUna x
  rw [ahead_view, base_of_synAcked h] at hx ⊢
  omega

end View

section Normal

variable {s : Sending} (hn : Normal s) (hr : RingOk s) (ha : s.synAcked = true)
include hn hr ha

theorem Normal.view_max : ahead s.view s.sndMax = 2 ^ 30 + ahead s.sndUna s.sndMax :=
  ahead_view_of_le ha (by have := hn.maxOff_le hr; omega)

theorem Normal.scored_half (hs : Scored s) :
    Edges (fun x => 2 * ahead s.view x < 2 ^ 32) s.sacked := by
  have hm := hn.view_max hr ha
  have := hn.maxOff_le hr
  exact hs.mono fun x hx => by omega

end Normal

theorem Normal.ahead_recover {s : Sending} (hn : Normal s) (hr : RingOk s)
    (hin : s.cc.inRecovery = true) {k : ℕ} (hk : k ≤ s.txLen) :
    ahead (s.cc.recover - BitVec.ofNat 32 (2 ^ 19)) (s.sndUna + BitVec.ofNat 32 k) =
      2 ^ 19 - ahead s.sndUna s.cc.recover + k := by
  have hrec := hn.recover hin
  have hm := hn.maxOff_le hr
  have hlen := hr.txLen_le
  have hback : ahead s.cc.recover (s.sndUna) = (2 ^ 32 - ahead s.sndUna s.cc.recover) % 2 ^ 32 := by
    simp only [ahead]
    bv_omega
  rw [ahead_sub_base _ _ (by decide), ahead_step]
  omega

theorem Normal.rexmitting {s : Sending} (hn : Normal s) (hr : RingOk s) {k : ℕ} (hk : k ≤ s.txLen)
    (h : s.rexmitNext = s.sndUna + BitVec.ofNat 32 k) : Rexmitting s := by
  intro hin _
  rw [h, hn.ahead_recover hr hin hk, hn.ahead_recover hr hin le_rfl]
  omega

/-! ### Moves that leave the stream where it is -/

/-- Up to what the stream does not depend on; the scoreboard may be dropped and the recovery given
up. -/
structure SameStream (s t : Sending) : Prop where
  iss : t.iss = s.iss
  sndUna : t.sndUna = s.sndUna
  sndMax : t.sndMax = s.sndMax
  synAcked : t.synAcked = s.synAcked
  sackOk : t.sackOk = s.sackOk
  sacked : t.sacked = s.sacked ∨ t.sacked = []
  rexmitNext : t.rexmitNext = s.rexmitNext
  tx : t.tx = s.tx
  txHead : t.txHead = s.txHead
  txLen : t.txLen = s.txLen
  txSize : t.txSize = s.txSize
  cc : t.cc.inRecovery = true → t.sackOk = true →
    s.cc.inRecovery = true ∧ t.cc.recover = s.cc.recover

section SameStream

variable {s t : Sending} {W : List UInt8} {sent : List Emission} (h : SameStream s t)
include h

theorem SameStream.view : t.view = s.view := by
  simp only [Sending.view, Sending.base, h.synAcked, h.sndUna, h.iss]

theorem SameStream.scored (hs : Scored s) : Scored t := by
  unfold Scored
  rcases h.sacked with he | he
  · rw [he, h.view, h.sndMax]
    exact hs
  · rw [he]
    exact Edges.nil

theorem SameStream.rexmitting (hs : Rexmitting s) : Rexmitting t := by
  intro hin hok
  obtain ⟨hin', hrec⟩ := h.cc hin hok
  rw [h.rexmitNext, h.sndUna, h.txLen, hrec]
  exact hs hin' (h.sackOk.symm.trans hok)

theorem SameStream.stream (hs : Stream W sent s) : Stream W sent t := by
  have hfirst : t.first W = s.first W := by rw [Sending.first, Sending.first, h.txLen]
  refine ⟨?_, ?_, ?_, h.scored hs.scored, h.rexmitting hs.rexmitting, ?_⟩
  · rw [h.txLen]
    exact hs.len
  · rw [h.tx, h.txSize, h.txHead, h.txLen, hfirst]
    exact hs.ring
  · rw [h.sndUna, h.iss, hfirst]
    exact hs.una
  · rw [h.sndUna, h.sndMax, h.txLen, hfirst]
    exact hs.wasSent

theorem SameStream.carried {st : State} (hs : Carried W sent st s) : Carried W sent st t := by
  have hnil (hs : s.synAcked = false → s.sacked = []) : t.synAcked = false → t.sacked = [] := by
    rw [h.synAcked]
    intro ha
    rcases h.sacked with he | he
    · rw [he, hs ha]
    · exact he
  cases st with
  | closed | listen => exact hnil hs
  | synSent => exact ⟨hs.1, hnil hs.2⟩
  | synReceived => exact ⟨hs.1, h.scored hs.2⟩
  | established | closeWait | finWait1 | closing | lastAck => exact h.stream hs
  | finWait2 | timeWait => trivial

end SameStream

variable {sent sent' : List Emission} {W : List UInt8} {s : Sending}

theorem WasSent.mono {p : ℕ} (h : WasSent sent p) :
    WasSent (sent ++ sent') p := by
  obtain ⟨m, hm, hp⟩ := h
  exact ⟨m, mem_append_left _ hm, hp⟩

theorem Stream.mono_sent (h : Stream W sent s) : Stream W (sent ++ sent') s :=
  ⟨h.len, h.ring, h.una, h.scored, h.rexmitting, fun i hi => (h.wasSent i hi).mono⟩

theorem Carried.mono_sent {st : State} (h : Carried W sent st s) :
    Carried W (sent ++ sent') st s := by
  cases st with
  | closed | listen | synSent | synReceived | finWait2 | timeWait => exact h
  | established | closeWait | finWait1 | closing | lastAck => exact Stream.mono_sent h

/-! ### The handshake -/

theorem Stream.begin {t : Sending} (ha : s.synAcked = false) (hs : Scored s) (hlen : t.txLen = 0)
    (huna : t.sndUna = s.iss + 1) (hiss : t.iss = s.iss) (hmax : t.sndMax = s.sndMax)
    (hack : t.synAcked = true) (hsacked : t.sacked = s.sacked) (hrec : t.cc.inRecovery = false) :
    Stream [] sent t := by
  have hview : t.view = s.view := by
    simp [Sending.view, Sending.base, hack, ha, huna]
  refine ⟨by rw [hlen]; exact le_rfl, ?_, ?_, ?_, ?_, ?_⟩
  · rw [hlen, drop_nil]
    rfl
  · rw [huna, hiss]
    simp [Sending.first]
  · unfold Scored
    rw [hview, hsacked, hmax]
    exact hs
  · intro hin
    rw [hrec] at hin
    cases hin
  · rw [hlen, Nat.min_zero]
    exact fun i hi => absurd hi (Nat.not_lt_zero i)

/-! ### Acknowledgements -/

section Ack

variable {W : List UInt8} {sent : List Emission} {s : Sending} {ack : Seq}

/-- Of the scoreboard, what lies beyond the acknowledgement is in view of it too. -/
theorem Scored.pruned (hs : Scored s) (hn : Normal s) (hr : RingOk s) (ha : s.synAcked = true)
    (h1 : gt ack s.sndUna = true) (h2 : gt ack s.sndMax = false) : Scored (ackRing s ack) := by
  have hm := hn.maxOff_le hr
  have hvm := hn.view_max hr ha
  obtain ⟨hpos, hle⟩ := ack_between hm h1 h2
  have hva : ahead s.view ack = 2 ^ 30 + ahead s.sndUna ack := ahead_view_of_le ha (by omega)
  have hmax : ahead ack s.sndMax = ahead s.sndUna s.sndMax - ahead s.sndUna ack := ahead_rebase hle
  have hedge (x : Seq) (hx : ahead s.view x ≤ ahead s.view s.sndMax)
      (hb : ahead s.view ack ≤ ahead s.view x) :
      ahead (ackRing s ack).view x ≤ ahead (ackRing s ack).view s.sndMax := by
    have hx' := ahead_una_of_view ha (x := x) (by omega)
    have hxa : ahead ack x = ahead s.sndUna x - ahead s.sndUna ack := ahead_rebase (by omega)
    have hview (y : Seq) (hy : ahead ack y < 3 * 2 ^ 30) :
        ahead (ackRing s ack).view y = 2 ^ 30 + ahead ack y :=
      ahead_view_of_le (s := ackRing s ack) ha hy
    rw [hview x (by omega), hview s.sndMax (by omega)]
    omega
  intro r hr'
  have hedges := sackPrune_edges ack hs (by omega) r hr'
  obtain ⟨hstart, hstop⟩ := sackPrune_beyond r hr'
  refine ⟨hedge r.start hedges.1 ?_, hedge r.stop hedges.2 ?_⟩
  · by_contra hc
    rw [(lt_iff (u := s.view) (by omega) (by omega)).2 (by omega)] at hstart
    cases hstart
  · exact ((gt_iff (u := s.view) (by omega) (by omega)).1 hstop).le

theorem Stream.acked (hs : Stream W sent s) (hn : Normal s) (hr : RingOk s)
    (ha : s.synAcked = true) (h1 : gt ack s.sndUna = true) (h2 : gt ack s.sndMax = false)
    (hle : ahead s.sndUna ack ≤ s.txLen) : Stream W sent (ackRing s ack) := by
  obtain ⟨hmax, -, hlen⟩ := ackRing_offsets hn hr h1 h2
  have hack : ack = s.sndUna + BitVec.ofNat 32 (ahead s.sndUna ack) := (add_ahead _ _).symm
  have hWlen := hs.len
  have hfirst : (ackRing s ack).first W = s.first W + ahead s.sndUna ack := by
    simp only [Sending.first]
    omega
  refine ⟨?_, ?_, ?_, hs.scored.pruned hn hr ha h1 h2, ?_, ?_⟩
  · omega
  · have hhead : (ackRing s ack).txHead = (s.txHead + ahead s.sndUna ack) % s.txSize := by
      have hd : (if ahead s.sndUna ack < s.txLen then ahead s.sndUna ack else s.txLen) =
          ahead s.sndUna ack := by
        split_ifs <;> omega
      change (s.txHead + if ahead s.sndUna ack < s.txLen then ahead s.sndUna ack else s.txLen) %
        s.txSize = _
      rw [hd]
    rw [hhead, hlen, hfirst]
    change Ring.read s.tx s.txSize _ _ = _
    rw [Ring.read_mod, ← Ring.drop_read s.tx s.txSize s.txHead hle, hs.ring, drop_drop]
  · rw [hfirst, BitVec.ofNat_add, ← BitVec.add_assoc]
    change ack = s.iss + 1 + _ + _
    rw [← hs.una]
    exact hack
  · intro hin hok
    have hend : ack + BitVec.ofNat 32 (ackRing s ack).txLen = s.sndUna + BitVec.ofNat 32 s.txLen := by
      rw [hlen]
      generalize ahead s.sndUna ack = d at hack hle
      rw [hack, BitVec.add_assoc, ← BitVec.ofNat_add, Nat.add_sub_cancel' hle]
    change _ ≤ ahead _ (ack + BitVec.ofNat 32 (ackRing s ack).txLen)
    rw [hend]
    exact hs.rexmitting hin hok
  · intro i hi
    rw [hfirst, Nat.add_assoc]
    change i < min (ahead ack (ackRing s ack).sndMax) _ at hi
    exact hs.wasSent _ (by omega)

theorem ackCongestion_sameStream (s : Sending) (acked : ℕ) (ack : Seq) :
    SameStream s (ackCongestion s acked ack) := by
  obtain ⟨c1, c2⟩ := ackCongestion_cc s acked ack
  have hcc : (ackCongestion s acked ack).cc.inRecovery = true →
      s.cc.inRecovery = true ∧ (ackCongestion s acked ack).cc.recover = s.cc.recover := by
    intro hin
    rw [c1, Bool.and_eq_true] at hin
    exact ⟨hin.1, c2⟩
  unfold ackCongestion at hcc ⊢
  split_ifs at hcc ⊢ <;>
    exact ⟨rfl, rfl, rfl, rfl, rfl, .inl rfl, rfl, rfl, rfl, rfl, rfl, fun hin _ => hcc hin⟩

theorem Stream.dupAck {s : Socket} (hs : Stream W sent s.snd) (hn : Normal s.snd)
    (hr : RingOk s.snd) (hlen : 0 < s.snd.txLen) (hne : s.snd.sndUna ≠ s.snd.sndMax) (ack : Seq) :
    Stream W sent (dupAck s ack).snd := by
  have hn' := hn.dupAck hr hlen hne ack
  unfold Tcp.dupAck at hn' ⊢
  simp only at hn' ⊢
  generalize (if s.snd.dupacks < 255 then s.snd.dupacks + 1 else s.snd.dupacks) = count at hn' ⊢
  have hcases := ccDupAck_cases s.snd.cc s.snd.mss count ack s.snd.sndMax
    (s.snd.sndMax - s.snd.sndUna).toNat
  rcases hcases with ⟨h2, hin, hre⟩ | ⟨h2, hold, hin, hre⟩
  · simp only [h2, Bool.false_eq_true, if_false]
    split_ifs with h1
    · exact ⟨hs.len, hs.ring, hs.una, hs.scored, hs.rexmitting, hs.wasSent⟩
    · refine ⟨hs.len, hs.ring, hs.una, hs.scored, fun h => ?_, hs.wasSent⟩
      rw [hin] at h
      rw [hre]
      exact hs.rexmitting h
  · rw [h2, hold, Bool.and_false, if_neg Bool.false_ne_true, if_pos rfl] at hn' ⊢
    refine ⟨hs.len, hs.ring, hs.una, hs.scored, fun h hok => ?_, hs.wasSent⟩
    refine hn'.rexmitting (k := 0) ⟨hr.pos, hr.fits, hr.small⟩ (Nat.zero_le _) ?_ h hok
    rw [if_pos hok]
    simp

end Ack

/-! ### What is sent -/

/-- The segment chosen carries the bytes of the ring from `off` on, and a FIN only after the
last. -/
structure InRing (s : Sending) (c : Choice) (off : ℕ) : Prop where
  seq : c.seq = s.sndUna + BitVec.ofNat 32 off
  data : c.data = Ring.read s.tx s.txSize (s.txHead + off) c.data.length
  fits : off + c.data.length ≤ s.txLen
  fin : c.flags.fin = true → s.finQueued = true ∧ off + c.data.length = s.txLen

section Send

variable {s : Socket} {start : Seq} {pipe : ℕ} {c : Choice}

theorem fastRetransmit_length (s : Socket) :
    (fastRetransmit s).data.length = min s.snd.txLen (segmentMax s) := by
  simp only [fastRetransmit, Ring.length_read]
  split_ifs <;> omega

theorem fastRetransmit_inRing (s : Socket) : InRing s.snd (fastRetransmit s) 0 where
  seq := by simp [fastRetransmit]
  data := by simp only [fastRetransmit, Ring.length_read, Nat.add_zero]
  fits := by
    rw [fastRetransmit_length]
    omega
  fin h := absurd h Bool.false_ne_true

theorem holesFrom_le {s : Sending} (hn : Normal s) (hr : RingOk s) (hx : Rexmitting s)
    (hin : s.cc.inRecovery = true) (hok : s.sackOk = true) :
    ahead s.sndUna (holesFrom s) ≤ s.txLen := by
  unfold holesFrom
  split_ifs with hgt
  · obtain ⟨-, hlt⟩ := gt_iff_ahead.1 hgt
    have hle := hx hin hok
    have huna := hn.ahead_recover hr hin (Nat.zero_le _)
    rw [hn.ahead_recover hr hin le_rfl, ahead_trans _ s.sndUna s.rexmitNext] at hle
    rw [BitVec.add_zero] at huna
    omega
  · rw [ahead_self]
    exact Nat.zero_le _

/-- The hole that is due starts within the ring and ends at or before `snd_max`. -/
theorem dueHole_spec {s : Sending} {len : Seq} (hn : Normal s) (hr : RingOk s)
    (ha : s.synAcked = true) (hs : Scored s) (hx : Rexmitting s) (hin : s.cc.inRecovery = true)
    (hok : s.sackOk = true) (h : dueHole s = some (start, len)) :
    ahead s.sndUna start < s.txLen ∧
      ahead s.sndUna start + len.toNat ≤ ahead s.sndUna s.sndMax := by
  have hfrom := holesFrom_le hn hr hx hin hok
  have hlen := hr.txLen_le
  have hm := hn.maxOff_le hr
  have hvm := hn.view_max hr ha
  have hhalf := hn.scored_half hr ha hs
  unfold dueHole at h
  cases hnext : sackNextHole s.sacked (holesFrom s) with
  | none => simp [hnext] at h
  | some hole =>
    obtain ⟨start', len'⟩ := hole
    simp only [hnext] at h
    split_ifs at h with hlt
    obtain ⟨rfl, rfl⟩ := Prod.mk.inj (Option.some.inj h)
    have hvp : ahead s.view (holesFrom s) = 2 ^ 30 + ahead s.sndUna (holesFrom s) :=
      ahead_view_of_le ha (by omega)
    obtain ⟨hge, -, r, hr', rfl, hstop⟩ := sackNextHole_spec hhalf (by omega) hnext
    have hrm := (hs r hr').1
    have hvs := ahead_una_of_view ha (x := start') (by omega)
    have hvr := ahead_una_of_view ha (x := r.start) (by omega)
    have hend : ahead s.sndUna (s.sndUna + BitVec.ofNat 32 s.txLen) = s.txLen :=
      ahead_add _ (by omega)
    have hve : ahead s.view (s.sndUna + BitVec.ofNat 32 s.txLen) = 2 ^ 30 + s.txLen := by
      rw [ahead_view_of_le ha (by omega), hend]
    have hoff := (lt_iff (u := s.view) (by omega) (by omega)).1 hlt
    have hhole : (r.start - start').toNat = ahead s.sndUna r.start - ahead s.sndUna start' :=
      ahead_rebase (by omega)
    omega

theorem sackRepair_length (len : Seq) (h : (start - s.snd.sndUna).toNat < s.snd.txLen)
    (hr : RingOk s.snd) :
    (sackRepair s start len).data.length ≤ len.toNat ∧
      (start - s.snd.sndUna).toNat + (sackRepair s start len).data.length ≤ s.snd.txLen := by
  have hlen := hr.txLen_le
  have hleft : sub64 s.snd.txLen (start - s.snd.sndUna).toNat =
      s.snd.txLen - (start - s.snd.sndUna).toNat := sub64_of_le h.le (by omega)
  simp only [sackRepair, Ring.length_read]
  split_ifs <;> omega

theorem sackRepair_inRing (len : Seq) (h : ahead s.snd.sndUna start < s.snd.txLen)
    (hr : RingOk s.snd) :
    InRing s.snd (sackRepair s start len) (ahead s.snd.sndUna start) where
  seq := (add_ahead _ _).symm
  data := by simp only [sackRepair, Ring.length_read, ahead]
  fits := (sackRepair_length len h hr).2
  fin h := absurd h Bool.false_ne_true

theorem usable_le (s : Socket) (pipe : ℕ) :
    usable s pipe ≤ s.snd.sndWnd - ahead s.snd.sndUna s.snd.sndNxt ∨
    s.snd.sndWnd = 0 ∧ ahead s.snd.sndUna s.snd.sndNxt = 0 ∧ usable s pipe = 1 := by
  unfold usable
  change _ ≤ s.snd.sndWnd - (s.snd.sndNxt - s.snd.sndUna).toNat ∨ _ ∧
    (s.snd.sndNxt - s.snd.sndUna).toNat = 0 ∧ _
  generalize (s.snd.sndNxt - s.snd.sndUna).toNat = offset
  by_cases hprobe : s.snd.sndWnd = 0 ∧ offset = 0 ∧ s.snd.txLen - offset > 0
  · rw [if_pos hprobe]
    exact .inr ⟨hprobe.1, hprobe.2.1, rfl⟩
  · rw [if_neg hprobe]
    left
    cases hrec : sackRecovery s.snd
    · simp only [Bool.false_eq_true]
      split_ifs <;> omega
    · exact min_le_right _ _

theorem sendNew_window (s : Socket) (pipe : ℕ) (h : (sendNew s pipe).data ≠ []) :
    ahead s.snd.sndUna s.snd.sndNxt + (sendNew s pipe).data.length ≤ s.snd.sndWnd ∨
    s.snd.sndWnd = 0 ∧ ahead s.snd.sndUna s.snd.sndNxt = 0 ∧
      (sendNew s pipe).data.length = 1 := by
  have hpos := length_pos_iff.2 h
  have hlen : (sendNew s pipe).data.length ≤ usable s pipe := by
    simp only [sendNew, Ring.length_read]
    exact (min_le_left _ _).trans (min_le_right _ _)
  rcases usable_le s pipe with hle | ⟨hw, hoff, hone⟩
  · left
    omega
  · right
    omega

theorem sendNew_inRing (hn : Normal s.snd) (hr : RingOk s.snd)
    (hc : (sendNew s pipe).counted = true) :
    InRing s.snd (sendNew s pipe) (ahead s.snd.sndUna s.snd.sndNxt) := by
  have hnxt := hn.nxt
  have hmax := hn.max
  have hfq := Bool.toNat_le s.snd.finQueued
  rcases sendNew_nxt hr pipe (by omega) with h | ⟨-, -, -, hd, hfin, -⟩
  · rw [h.1] at hc
    cases hc
  · refine ⟨(add_ahead _ _).symm, ?_, hd, hfin⟩
    simp only [sendNew, Ring.length_read, ahead]

theorem emitChoice_segment (s : Socket) (c : Choice) (clk : Clock) :
    c.flags = Flags.none ∧ (emitChoice s c clk).segment = none ∨
    ∃ g, (emitChoice s c clk).segment = some g ∧ g.seq = c.seq ∧ g.data = c.data ∧
      g.flags = c.flags := by
  unfold emitChoice
  by_cases hf : c.flags = Flags.none
  · rw [if_pos hf]
    exact .inl ⟨hf, rfl⟩
  · rw [if_neg hf]
    exact .inr ⟨_, rfl, rfl, rfl, rfl⟩

/-- The segments an event sends, with the places in the stream where they begin. -/
def emissions (s : Socket) (W : List UInt8) (r : SendResult) : List Emission :=
  r.segment.toList.map fun g => ⟨g, s.snd.first W + ahead s.snd.sndUna g.seq⟩

variable {W : List UInt8} {sent : List Emission} {clk : Clock}

/-- New data goes out from `snd_nxt` on: everything below the new `snd_max` has then been sent. -/
theorem Stream.sendNew (hs : Stream W sent s.snd) (hn : Normal s.snd) (hr : RingOk s.snd)
    (ha : s.snd.synAcked = true) (pipe : ℕ) :
    Stream W (sent ++ emissions s W (emitChoice s (sendNew s pipe) clk))
      (emitChoice s (sendNew s pipe) clk).sock.snd := by
  have hnxt := hn.nxt
  have hmax := hn.max
  have hfq := Bool.toNat_le s.snd.finQueued
  have hsize := hr.txLen_le
  rcases sendNew_nxt hr pipe (by omega) with h | ⟨hc, hsnd, hoff, hd, hfin, -⟩
  · rw [emitChoice_idle h sendNew_flags_none]
    exact hs.mono_sent
  · have hnew (i : ℕ) (h1 : ahead s.snd.sndUna s.snd.sndNxt ≤ i)
        (h2 : i < ahead s.snd.sndUna s.snd.sndNxt + (Tcp.sendNew s pipe).data.length) :
        WasSent (sent ++ emissions s W (emitChoice s (Tcp.sendNew s pipe) clk))
          (s.snd.first W + i) := by
      rcases emitChoice_segment s (Tcp.sendNew s pipe) clk with ⟨hf, -⟩ | ⟨g, hg, hseq, hdata, -⟩
      · rw [sendNew_flags_none hf, length_nil] at h2
        omega
      · refine ⟨⟨g, s.snd.first W + ahead s.snd.sndUna g.seq⟩, ?_, ?_, ?_⟩
        · refine mem_append_right _ ?_
          rw [emissions, hg]
          exact mem_singleton_self _
        · rw [hseq]
          change _ + ahead s.snd.sndUna s.snd.sndNxt ≤ _
          omega
        · simp only [hseq, hdata]
          change _ < _ + ahead s.snd.sndUna s.snd.sndNxt + _
          omega
    rw [emitChoice_snd clk sendNew_flags_none, hc, Bool.true_and, hsnd]
    have hle : ahead s.snd.sndUna (Tcp.sendNew s pipe).snd.sndNxt ≤ s.snd.txLen + 1 := by
      have := Bool.toNat_le (Tcp.sendNew s pipe).flags.fin
      omega
    have hfin' : min (ahead s.snd.sndUna (Tcp.sendNew s pipe).snd.sndNxt) s.snd.txLen ≤
        ahead s.snd.sndUna s.snd.sndNxt + (Tcp.sendNew s pipe).data.length := by
      cases hf : (Tcp.sendNew s pipe).flags.fin
      · simp only [hf, Bool.toNat_false] at hoff
        omega
      · have := (hfin hf).2
        omega
    generalize (Tcp.sendNew s pipe).snd.sndNxt = nxt at *
    by_cases hg : gt nxt s.snd.sndMax = true
    · have hlt : ahead s.snd.sndUna s.snd.sndMax < ahead s.snd.sndUna nxt :=
        (gt_iff (u := s.snd.sndUna) (by omega) (by omega)).1 hg
      rw [if_pos hg]
      refine ⟨hs.len, hs.ring, hs.una, hs.scored.mono fun x hx => ?_, hs.rexmitting,
        fun i hi => ?_⟩
      · refine le_trans hx ?_
        change ahead s.snd.view _ ≤ ahead s.snd.view nxt
        rw [hn.view_max hr ha, ahead_view_of_le ha (by omega)]
        omega
      · change i < min (ahead s.snd.sndUna nxt) s.snd.txLen at hi
        by_cases hi' : i < ahead s.snd.sndUna s.snd.sndMax
        · exact (hs.wasSent i (by omega)).mono
        · exact hnew i (by omega) (by omega)
    · rw [if_neg hg]
      exact ⟨hs.len, hs.ring, hs.una, hs.scored, hs.rexmitting,
        fun i hi => (hs.wasSent i hi).mono⟩

theorem Stream.retransmitted {s : Sending} (hs : Stream W sent s) (hn : Normal s) (hr : RingOk s)
    {k : ℕ} {x : Seq} (hk : k ≤ s.txLen) (hx : s.sackOk = true → x = s.sndUna + BitVec.ofNat 32 k)
    (one : Bool) : Stream W sent { s with retransmitOne := one, rexmitNext := x } := by
  refine ⟨hs.len, hs.ring, hs.una, hs.scored, fun hin hok => ?_, hs.wasSent⟩
  rw [hx hok, hn.ahead_recover hr hin hk, hn.ahead_recover hr hin le_rfl]
  omega

theorem Stream.emitChoice (hs : Stream W sent s.snd) (hn : Normal s.snd) (hr : RingOk s.snd)
    (ha : s.snd.synAcked = true) (hc : choose s = some c) :
    Stream W (sent ++ emissions s W (emitChoice s c clk)) (emitChoice s c clk).sock.snd := by
  rcases choose_cases hc with ⟨hone, rfl⟩ | ⟨-, hrec, a, b, hhole, rfl⟩ | ⟨-, hna, rfl⟩ |
    ⟨-, -, p, rfl⟩
  · have hle : (fastRetransmit s).data.length ≤ s.snd.txLen := by
      rw [fastRetransmit_length]
      exact min_le_left _ _
    rw [emitChoice_fast clk rfl (by simp [fastRetransmit, Flags.none])]
    refine (hs.retransmitted hn hr hle (fun hok => ?_) _).mono_sent
    simp only [Ring.length_read, fastRetransmit]
    rw [if_pos hok]
  · rw [sackRecovery, Bool.and_eq_true, Bool.and_eq_true] at hrec
    obtain ⟨hoff, -⟩ := dueHole_spec hn hr ha hs.scored hs.rexmitting hrec.1.2 hrec.1.1 hhole
    have hin := sackRepair_inRing b hoff hr
    rw [emitChoice_fast clk rfl (by simp [sackRepair, Flags.none])]
    refine (hs.retransmitted hn hr hin.fits (fun _ => ?_) _).mono_sent
    rw [BitVec.ofNat_add, ← BitVec.add_assoc, ← hin.seq]
    simp only [sackRepair, Ring.length_read]
  · rw [ha] at hna
    cases hna
  · exact hs.sendNew hn hr ha p

theorem sendNew_counted_false (h : (Tcp.sendNew s pipe).counted = false) :
    (Tcp.sendNew s pipe).data = [] ∧ (Tcp.sendNew s pipe).flags.fin = false := by
  simp only [Choice.counted, Tcp.sendNew, Bool.not_false, Bool.and_true, Bool.or_eq_false_iff,
    Bool.not_eq_false', List.isEmpty_iff] at h
  exact ⟨h.1.1, h.2⟩

theorem choose_behind (clk : Clock) (hb : Behind s.snd) (hr : RingOk s.snd)
    (ha : s.snd.synAcked = true) (hc : choose s = some c) :
    (emitChoice s c clk).sock.snd = s.snd ∧ c.data = [] ∧ c.flags.fin = false := by
  rcases choose_cases hc with ⟨hone, rfl⟩ | ⟨-, hrec, a, b, hhole, rfl⟩ | ⟨-, hna, rfl⟩ |
    ⟨-, -, p, rfl⟩
  · rw [hb.retransmitOne] at hone
    cases hone
  · rw [sackRecovery, hb.inRecovery] at hrec
    simp at hrec
  · rw [ha] at hna
    cases hna
  · have hidle := sendNew_behind hr hb p
    exact ⟨emitChoice_idle hidle sendNew_flags_none clk, sendNew_counted_false hidle.1⟩

end Send

/-! ### Writing -/

section Write

variable {W : List UInt8} {sent : List Emission} {s : Sending}

theorem Stream.makeRoom (hs : Stream W sent s) (hr : RingOk s) (kmalloc : Option Memory) :
    Stream W sent (makeRoom s kmalloc) := by
  unfold Tcp.makeRoom
  split_ifs
  · exact hs
  · split
    · rename_i ring size heq
      unfold growRing at heq
      split_ifs at heq
      obtain ⟨m, -, hm⟩ := Option.map_eq_some_iff.1 heq
      obtain ⟨rfl, rfl⟩ := Prod.mk.inj hm
      refine ⟨hs.len, ?_, hs.una, hs.scored, hs.rexmitting, hs.wasSent⟩
      simp only
      rw [Ring.read_grow s.tx s.txHead m hr.fits (by omega)]
      exact hs.ring
    · exact hs
  · exact hs

theorem Stream.write {late : Prop} (hs : Stream W sent s) (bs : List UInt8) (hr : RingOk s)
    (ho : Open late s) (hf : s.finQueued = false) (hb : bs.length ≤ s.txSize - s.txLen) :
    Stream (W ++ bs) sent
      { s with
        tx := Ring.write s.txSize s.tx ((s.txHead + s.txLen) % s.txSize) bs
        txLen := s.txLen + bs.length } := by
  have hfits := hr.fits
  have hlen := hs.len
  have hfirst : (W ++ bs).length - (s.txLen + bs.length) = s.first W := by
    rw [length_append, Sending.first]
    omega
  have hr' : RingOk { s with
      tx := Ring.write s.txSize s.tx ((s.txHead + s.txLen) % s.txSize) bs
      txLen := s.txLen + bs.length } := ⟨hr.pos, by simp only; omega, hr.small⟩
  refine ⟨?_, ?_, ?_, hs.scored, fun hin hok => ?_, ?_⟩
  · simp only [length_append]
    omega
  · simp only [Sending.first, hfirst]
    rw [Ring.write_start_mod, Ring.read_write_append _ _ _ _ (by omega), hs.ring,
      drop_append_of_le_length (Nat.sub_le _ _)]
    rfl
  · simp only [Sending.first, hfirst]
    exact hs.una
  · have hn : Normal s := ho.resolve_right fun hb' => by
      have := hb'.2.inRecovery
      rw [show s.cc.inRecovery = true from hin] at this
      cases this
    have hn' : Normal { s with
        tx := Ring.write s.txSize s.tx ((s.txHead + s.txLen) % s.txSize) bs
        txLen := s.txLen + bs.length } :=
      ⟨hn.nxt, hn.max.trans (by simp only; omega), fun h => (hn.retransmitOne h).trans_le (by simp),
        hn.recover⟩
    refine (hs.rexmitting hin hok).trans ?_
    have h1 := hn'.ahead_recover hr' hin (k := s.txLen) (by simp)
    have h2 := hn'.ahead_recover hr' hin le_rfl
    simp only at h1 h2 ⊢
    omega
  · simp only [Sending.first, hfirst]
    have hmax : ahead s.sndUna s.sndMax ≤ s.txLen := by
      rcases ho with hn | ⟨-, hb'⟩
      · have := hn.max
        rw [hf] at this
        exact this
      · rw [hb'.max, ahead_self]
        exact Nat.zero_le _
    exact fun i hi => hs.wasSent i (by omega)

end Write

end Bashket.Tcp
