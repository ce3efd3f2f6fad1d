import Bashket.Tcp.Reassembly
import Bashket.Tcp.SenderInput

/-!
# The stream in the receive ring

The peer sends one stream of bytes `S`. `Holds S received r` ties the receiving half `r` of a
connection to it: what was read is the beginning of `S`, and every cell of the ring that is in use,
for data in order or kept ahead of a gap, has the byte of `S` that belongs there.
-/

namespace Bashket.Tcp

open Serial List

/-- The cell `i` places after the head is in use. -/
def InUse (r : Receiving) (i : ℕ) : Prop :=
  i < r.rxLen ∨ ∃ x, Cover r.rcvNxt r.ooo x ∧ i = r.rxLen + x

/-- The receiving half of a connection whose peer sends `S`, after `received` was read. -/
structure Holds (S received : List UInt8) (r : Receiving) : Prop where
  pos : 0 < r.rxSize
  small : r.rxSize ≤ bufferMax
  len : r.rxLen ≤ r.rxSize
  got : received <+: S
  nxt : r.rcvNxt = r.irs + 1 + BitVec.ofNat 32 (received.length + r.rxLen + r.peerFin.toNat)
  sorted : Sorted r.rcvNxt (rxFree r) 0 r.ooo
  cells : ∀ i, InUse r i →
    S[received.length + i]? = some (r.rx ((r.rxHead + i) % r.rxSize))
  fin : r.finKnown = true → r.finSeq = r.irs + 1 + BitVec.ofNat 32 S.length ∧
    S.length ≤ received.length + r.rxLen + bufferMax
  done : r.peerFin = true → received.length + r.rxLen = S.length

section Holds

variable {S received : List UInt8} {r : Receiving} (h : Holds S received r)
include h

theorem Holds.count : received.length + r.rxLen ≤ S.length := by
  rcases Nat.eq_zero_or_pos r.rxLen with h0 | hpos
  · rw [h0]
    exact h.got.length_le
  · have := (List.getElem?_eq_some_iff.1 (h.cells (r.rxLen - 1) (.inl (by omega)))).1
    omega

theorem Holds.free_half : 2 * rxFree r < 2 ^ 32 := by
  have h1 := h.small
  rw [show bufferMax = 262144 from rfl] at h1
  rw [rxFree]
  omega

theorem Holds.inUse_lt {i : ℕ} (hi : InUse r i) : i < r.rxSize := by
  have hlen := h.len
  rcases hi with hi | ⟨x, hx, rfl⟩
  · omega
  · have := (hx.bounds h.sorted).2
    rw [rxFree] at this
    omega

theorem Holds.stream : received ++ Ring.read r.rx r.rxSize r.rxHead r.rxLen =
    S.take (received.length + r.rxLen) := by
  have hcount := h.count
  apply ext_getElem?
  intro i
  by_cases hi : i < received.length + r.rxLen
  · rw [getElem?_take_of_lt hi]
    by_cases hr : i < received.length
    · rw [getElem?_append_left hr]
      exact (prefix_iff_getElem?.1 h.got i hr).symm ▸ getElem?_eq_getElem hr
    · rw [getElem?_append_right (by omega),
        getElem?_eq_getElem (by rw [Ring.length_read]; omega), Ring.getElem_read]
      have := h.cells (i - received.length) (.inl (by omega))
      rw [← this]
      congr 1
      omega
  · rw [getElem?_eq_none (by simp; omega), getElem?_eq_none (by simp; omega)]

end Holds

/-- The receiving halves that agree in everything the stream depends on. -/
structure SameRecv (r t : Receiving) : Prop where
  irs : t.irs = r.irs
  rcvNxt : t.rcvNxt = r.rcvNxt
  peerFin : t.peerFin = r.peerFin
  rx : t.rx = r.rx
  rxHead : t.rxHead = r.rxHead
  rxLen : t.rxLen = r.rxLen
  rxSize : t.rxSize = r.rxSize
  ooo : t.ooo = r.ooo
  finKnown : t.finKnown = r.finKnown
  finSeq : t.finSeq = r.finSeq

theorem SameRecv.holds {S received : List UInt8} {r t : Receiving} (hs : SameRecv r t)
    (h : Holds S received r) : Holds S received t := by
  obtain ⟨irs, rcvNxt, peerFin, ackPending, dupAcksOwed, rx, rxHead, rxLen, rxSize, rxFilled, rcvAdv,
    ooo, oooRecent, finKnown, finSeq⟩ := t
  obtain ⟨rfl, rfl, rfl, rfl, rfl, rfl, rfl, rfl, rfl, rfl⟩ := hs
  exact ⟨h.pos, h.small, h.len, h.got, h.nxt, h.sorted, h.cells, h.fin, h.done⟩

/-! ### Segments ahead of a gap -/

section Segments

variable {S received data : List UInt8} {r : Receiving} {k : ℕ} {seq : Seq} {fin : Bool}

/-- What a segment carries from position `k` of the stream on. -/
structure Carry (S : List UInt8) (k : ℕ) (data : List UInt8) (fin : Bool) : Prop where
  bytes : ∀ i < data.length, S[k + i]? = data[i]?
  le : k + data.length ≤ S.length
  fin : fin = true → k + data.length = S.length

theorem Holds.ahead_nxt (h : Holds S received r) (hp : r.peerFin = false) {x : ℕ}
    (hk : received.length + r.rxLen ≤ k) (hx : k - (received.length + r.rxLen) = x)
    (hlt : x < 2 ^ 32) : ahead r.rcvNxt (r.irs + 1 + BitVec.ofNat 32 k) = x := by
  rw [h.nxt, hp, Bool.toNat_false, Nat.add_zero, ← hx]
  exact ahead_ofNat _ hk (by omega)

/-- Bytes of the stream written where they belong: every cell in use still has its byte, and so
have the cells written. -/
theorem Holds.write_cells (h : Holds S received r) {off : ℕ} {bs : List UInt8}
    (hbs : ∀ j < bs.length, S[received.length + r.rxLen + off + j]? = bs[j]?)
    (hfit : off + bs.length ≤ rxFree r) {i : ℕ}
    (hi : InUse r i ∨ r.rxLen + off ≤ i ∧ i < r.rxLen + off + bs.length) :
    S[received.length + i]? = some (Ring.write r.rxSize r.rx
      ((r.rxHead + r.rxLen) % r.rxSize + off) bs ((r.rxHead + i) % r.rxSize)) := by
  have hlen := h.len
  rw [rxFree] at hfit
  have hlt : i < r.rxSize := by
    rcases hi with hi | hi
    · exact h.inUse_lt hi
    · omega
  rw [Ring.write_congr_mod r.rx (b := r.rxHead + (r.rxLen + off)) (by
      rw [Nat.mod_add_mod, Nat.add_assoc]),
    Ring.write_cell r.rx r.rxHead (r.rxLen + off) bs (by omega) hlt]
  split_ifs with hnew
  · have := hbs (i - (r.rxLen + off)) (by omega)
    rw [get_eq_getElem, ← getElem?_eq_getElem, ← this]
    congr 1
    omega
  · rcases hi with hi | hi
    · exact h.cells i hi
    · exact absurd hi hnew

theorem Carry.take (hc : Carry S k data fin) {n : ℕ} :
    ∀ j < (data.take n).length, S[k + j]? = (data.take n)[j]? := by
  intro j hj
  rw [length_take] at hj
  rw [getElem?_take_of_lt (by omega)]
  exact hc.bytes j (by omega)

theorem Holds.notedAhead (h : Holds S received r) {off fits : ℕ} {ooo : List Range}
    (hahead : ahead r.rcvNxt seq = off) (hpos : 0 < off) (hfit : off + fits ≤ rxFree r)
    (hooo : notedAhead r seq fits = some ooo) :
    Sorted r.rcvNxt (rxFree r) 0 ooo ∧
    ∀ x, Cover r.rcvNxt ooo x → Cover r.rcvNxt r.ooo x ∨ off ≤ x ∧ x < off + fits := by
  have hhalf := h.free_half
  unfold Tcp.notedAhead at hooo
  split_ifs at hooo with h0
  · cases hooo
    exact ⟨h.sorted, fun x hx => .inl hx⟩
  · have hstop : ahead r.rcvNxt (seq + BitVec.ofNat 32 fits) = off + fits := by
      rw [ahead_add_of_lt (by omega), hahead]
    obtain ⟨h1, h2⟩ := oooAdd_some hhalf.le h.sorted (by rw [hahead]; omega)
      (by rw [hahead, hstop]; omega) (by rw [hstop]; omega) hooo
    refine ⟨h1, fun x hx => ?_⟩
    have := (h2 x).1 hx
    rwa [hahead, hstop] at this

theorem Holds.keepAt (h : Holds S received r) (hc : Carry S k data fin)
    (hseq : seq = r.irs + 1 + BitVec.ofNat 32 k) {off fits : ℕ} {ooo : List Range}
    (hk : k = received.length + r.rxLen + off) (hle : fits ≤ data.length)
    (hfit : off + fits ≤ rxFree r) (hsorted : Sorted r.rcvNxt (rxFree r) 0 ooo)
    (hcover : ∀ x, Cover r.rcvNxt ooo x → Cover r.rcvNxt r.ooo x ∨ off ≤ x ∧ x < off + fits) :
    Holds S received (keepAt r seq data fin off fits ooo) := by
  have hlen : (data.take fits).length = fits := by
    rw [length_take]
    omega
  refine ⟨h.pos, h.small, h.len, h.got, h.nxt, hsorted, fun i hi => ?_, fun hfin => ?_, h.done⟩
  · refine h.write_cells (fun j hj => ?_) (by omega) ?_
    · rw [← hk]
      exact hc.take j hj
    · rw [hlen]
      rcases hi with hi | ⟨x, hx, rfl⟩
      · exact .inl (.inl hi)
      · rcases hcover x hx with hx | hx
        · exact .inl (.inr ⟨x, hx, rfl⟩)
        · right
          simp only [Tcp.keepAt]
          omega
  · simp only [Tcp.keepAt, Bool.or_eq_true] at hfin ⊢
    by_cases hkeeps : (fin && decide (fits = data.length)) = true
    · rw [if_pos hkeeps]
      rw [Bool.and_eq_true, decide_eq_true_eq] at hkeeps
      have hend := hc.fin hkeeps.1
      have hsmall := h.small
      rw [rxFree] at hfit
      refine ⟨?_, by omega⟩
      rw [hseq, BitVec.add_assoc, ← BitVec.ofNat_add, hend]
    · rw [if_neg hkeeps]
      exact h.fin (hfin.resolve_right hkeeps)

theorem Holds.keepOutOfOrder (h : Holds S received r) (hp : r.peerFin = false)
    (hc : Carry S k data fin) (hk : received.length + r.rxLen < k)
    (hnear : k < received.length + r.rxLen + 2 ^ 31) (hseq : seq = r.irs + 1 + BitVec.ofNat 32 k) :
    Holds S received (keepOutOfOrder r seq data fin) := by
  obtain ⟨off, hoff⟩ : ∃ off, k - (received.length + r.rxLen) = off := ⟨_, rfl⟩
  have hahead : ahead r.rcvNxt seq = off := by
    rw [hseq]
    exact h.ahead_nxt hp hk.le hoff (by omega)
  have hoffset : (seq - r.rcvNxt).toNat = off := hahead
  unfold Tcp.keepOutOfOrder
  simp only [hoffset]
  split_ifs with hroom
  · split
    · exact h
    · rename_i ooo hooo
      have hfit : off + min data.length (rxFree r - off) ≤ rxFree r := by omega
      obtain ⟨h1, h2⟩ := h.notedAhead hahead (by omega) hfit hooo
      exact h.keepAt hc hseq (by omega) (min_le_left _ _) hfit h1 h2
  · exact h

/-! ### Segments in order -/

/-- Data at `rcv_nxt` is put behind what is there, and what was kept ahead and is now reached is
in order too. -/
theorem Holds.takeInOrder (h : Holds S received r) (hp : r.peerFin = false)
    (hc : Carry S (received.length + r.rxLen) data fin) :
    Holds S received (takeInOrder r true data fin) := by
  have hhalf := h.free_half
  have hlen := h.len
  have hnxt := h.nxt
  rw [hp, Bool.toNat_false, Nat.add_zero] at hnxt
  obtain ⟨accepted, haccepted⟩ : ∃ n, (if data.length < rxFree r then data.length else rxFree r) = n :=
    ⟨_, rfl⟩
  have hacc : accepted ≤ data.length ∧ accepted ≤ rxFree r := by
    split_ifs at haccepted <;> omega
  have htake : (data.take accepted).length = accepted := by
    rw [length_take]
    omega
  have hnext : ahead r.rcvNxt (r.rcvNxt + BitVec.ofNat 32 accepted) = accepted :=
    ahead_add _ (by omega)
  have hle : ahead r.rcvNxt (r.rcvNxt + BitVec.ofNat 32 accepted) ≤ rxFree r := by
    rw [hnext]
    exact hacc.2
  obtain ⟨t1, t2, t3, t4, gone, t5, -⟩ := oooTake_spec hhalf.le (by omega) h.sorted hle
  have hempty : (if r.ooo.isEmpty = true then r.rcvNxt + BitVec.ofNat 32 accepted
      else (oooTake r.ooo (r.rcvNxt + BitVec.ofNat 32 accepted)).2) =
      (oooTake r.ooo (r.rcvNxt + BitVec.ofNat 32 accepted)).2 := by
    cases r.ooo <;> rfl
  rw [hnext] at t1 t3
  generalize hreached : oooTake r.ooo (r.rcvNxt + BitVec.ofNat 32 accepted) = reached at *
  obtain ⟨d, hd⟩ : ∃ d, ahead r.rcvNxt reached.2 = d := ⟨_, rfl⟩
  have hmoved : reached.2 = r.rcvNxt + BitVec.ofNat 32 d := by rw [← hd, add_ahead]
  have hdist : (reached.2 - r.rcvNxt).toNat = d := hd
  rw [hd] at t1 t2 t3 t4
  have hcells : ∀ i, (InUse r i ∨ r.rxLen ≤ i ∧ i < r.rxLen + accepted) →
      S[received.length + i]? = some (Ring.write r.rxSize r.rx ((r.rxHead + r.rxLen) % r.rxSize)
        (data.take accepted) ((r.rxHead + i) % r.rxSize)) := by
    intro i hi
    have := @Holds.write_cells _ _ _ h 0 (data.take accepted) hc.take (by omega) i
      (by rwa [htake, Nat.add_zero])
    rwa [Nat.add_zero] at this
  unfold Tcp.takeInOrder
  simp only [Bool.not_true, Bool.false_eq_true, if_false, if_true, haccepted, hreached, hempty, hdist]
  refine ⟨h.pos, h.small, ?_, h.got, ?_, ?_, fun i hi => ?_, fun hfin => ?_, fun h0 => ?_⟩
  · rw [rxFree] at t2
    simp only
    omega
  · simp only [hp, Bool.toNat_false, Nat.add_zero]
    rw [hmoved, hnxt, ← Nat.add_assoc, BitVec.ofNat_add _ d, ← BitVec.add_assoc]
  · have := t4.moved le_rfl
    rw [Nat.sub_self] at this
    simp only [rxFree] at this ⊢
    rwa [hmoved, ← Nat.sub_sub]
  · refine hcells i ?_
    rcases hi with hi | ⟨x, hx, rfl⟩
    · simp only at hi
      by_cases h1 : i < r.rxLen
      · exact .inl (.inl h1)
      · by_cases h2 : i < r.rxLen + accepted
        · exact .inr (by omega)
        · exact .inl (.inr ⟨i - r.rxLen, t3 _ (by omega) (by omega), by omega⟩)
    · simp only [hmoved] at hx ⊢
      exact .inl (.inr ⟨d + x, t5 ▸ cover_append.2 (.inr (hx.moved t4 le_rfl)), by omega⟩)
  · simp only [Bool.or_eq_true] at hfin ⊢
    by_cases hkeeps : (fin && decide (accepted = data.length)) = true
    · rw [if_pos hkeeps]
      rw [Bool.and_eq_true, decide_eq_true_eq] at hkeeps
      have hend := hc.fin hkeeps.1
      refine ⟨?_, by omega⟩
      rw [hnxt, BitVec.add_assoc, ← BitVec.ofNat_add, hkeeps.2, hend]
    · rw [if_neg hkeeps]
      obtain ⟨h1, h2⟩ := h.fin (hfin.resolve_right hkeeps)
      exact ⟨h1, by omega⟩
  · exact absurd (hp.symm.trans h0) (by decide)

theorem Holds.takeFin (h : Holds S received r) (hp : r.peerFin = false) (hk : r.finKnown = true)
    (hseq : r.finSeq = r.rcvNxt) :
    Holds S received { r with finKnown := false, rcvNxt := r.rcvNxt + 1, peerFin := true } := by
  have hcount := h.count
  have hnxt := h.nxt
  rw [hp, Bool.toNat_false, Nat.add_zero] at hnxt
  obtain ⟨h1, h2⟩ := h.fin hk
  have hall : received.length + r.rxLen = S.length := by
    have hself : ahead r.rcvNxt (r.irs + 1 + BitVec.ofNat 32 S.length) =
        S.length - (received.length + r.rxLen) :=
      h.ahead_nxt hp hcount rfl (by rw [show bufferMax = 262144 from rfl] at h2; omega)
    rw [← h1, hseq, ahead_self] at hself
    omega
  have hnil : r.ooo = [] := h.sorted.eq_nil fun x hx => by
    have := (List.getElem?_eq_some_iff.1 (h.cells _ (.inr ⟨x, hx, rfl⟩))).1
    omega
  refine ⟨h.pos, h.small, h.len, h.got, ?_, ?_, fun i hi => h.cells i ?_,
    fun h0 => absurd h0 Bool.false_ne_true, fun _ => hall⟩
  · simp only [Bool.toNat_true]
    rw [hnxt, BitVec.ofNat_add _ 1, ← BitVec.add_assoc]
    rfl
  · simp only [hnil]
    trivial
  · rcases hi with hi | ⟨x, hx, rfl⟩
    · exact .inl hi
    · simp only [hnil] at hx
      exact absurd hx cover_nil

end Segments

/-! ### Reading -/

section Read

variable {S received : List UInt8} {r : Receiving}

theorem Holds.read (h : Holds S received r) {n : ℕ} (hn : n ≤ r.rxLen) :
    Holds S (received ++ Ring.read r.rx r.rxSize r.rxHead n)
      { r with rxHead := (r.rxHead + n) % r.rxSize, rxLen := r.rxLen - n } := by
  have hlen := h.len
  have hrest : received.length + n + (r.rxLen - n) = received.length + r.rxLen := by omega
  have hinUse (i : ℕ) (hi : InUse { r with rxHead := (r.rxHead + n) % r.rxSize, rxLen := r.rxLen - n } i) :
      InUse r (n + i) := by
    rcases hi with hi | ⟨x, hx, rfl⟩
    · simp only at hi
      exact .inl (by omega)
    · exact .inr ⟨x, hx, by simp only; omega⟩
  refine ⟨h.pos, h.small, ?_, ?_, ?_, ?_, fun i hi => ?_, fun h0 => ?_, fun h0 => ?_⟩
  · simp only
    omega
  · have hs := h.stream
    have htake : received ++ Ring.read r.rx r.rxSize r.rxHead n =
        (S.take (received.length + r.rxLen)).take (received.length + n) := by
      rw [← hs, take_length_add_append, Ring.take_read _ _ _ hn]
    rw [htake]
    exact (List.take_prefix _ _).trans (List.take_prefix _ _)
  · simp only [length_append, Ring.length_read, hrest]
    exact h.nxt
  · exact h.sorted.mono_hi (by simp only [rxFree]; omega)
  · have := h.cells (n + i) (hinUse i hi)
    simp only [length_append, Ring.length_read]
    rw [Nat.mod_add_mod, Nat.add_assoc, Nat.add_assoc]
    exact this
  · simp only [length_append, Ring.length_read, hrest]
    exact h.fin h0
  · simp only [length_append, Ring.length_read, hrest]
    exact h.done h0

theorem Holds.grow (h : Holds S received r) {size limit : ℕ} {ring : Memory}
    {kmalloc : Option Memory} (hlimit : limit ≤ bufferMax)
    (hg : growRing limit r.rx r.rxSize r.rxHead kmalloc = some (ring, size)) :
    Holds S received { r with rx := ring, rxSize := size, rxHead := 0 } := by
  have hpos := h.pos
  have hlen := h.len
  unfold growRing at hg
  split_ifs at hg with hl
  obtain ⟨m, -, hm⟩ := Option.map_eq_some_iff.1 hg
  obtain ⟨rfl, rfl⟩ := Prod.mk.inj hm
  refine ⟨by simp only; omega, by simp only; omega, by simp only; omega, h.got, h.nxt,
    h.sorted.mono_hi (by simp only [rxFree]; omega), fun i hi => ?_, h.fin, h.done⟩
  have hi' : InUse r i := hi
  simp only
  rw [Ring.grow_cell r.rx r.rxHead m (h.inUse_lt hi') (by omega)]
  exact h.cells i hi'

end Read

end Bashket.Tcp
