import Bashket.Tcp.Calls

/-!
# Bounds of the congestion window

The calls of congestion control once more, with every 32-bit sum and product checked, and the
division of congestion avoidance too: a call fails where one of them would wrap or divide by zero.
`Flow.call` makes them as `tcp_input` and `run_timers` do.
-/

namespace Bashket.Tcp

open Serial

namespace Checked

/-- A 32-bit result that has not wrapped. -/
def word (x : ℕ) : Option ℕ := if x < 2 ^ 32 then some x else none

def quotient (x y : ℕ) : Option ℕ := if y = 0 then none else some (x / y)

def halfFlight (smss flight : ℕ) : Option ℕ := do
  let least ← word (2 * smss)
  return if flight / 2 > least then flight / 2 else least

def grown (cwnd more : ℕ) : Option ℕ :=
  if cwnd ≥ cwndMax then some cwndMax
  else if more > cwndMax - cwnd then some cwndMax else word (cwnd + more)

def ccInit (smss : ℕ) (iss : Seq) : Option Cc := do
  let cwnd ← word (if smss > 2190 then 2 * smss else if smss > 1095 then 3 * smss else 4 * smss)
  return { cwnd := cwnd, ssthresh := 65535, inRecovery := false, recover := iss }

def ccNewAck (cc : Cc) (smss acked : ℕ) (ack : Seq) (flight : ℕ) : Option Cc :=
  if cc.inRecovery then
    if gt ack cc.recover then do
      let floor ← word ((if flight > smss then flight else smss) + smss)
      return { cc with cwnd := if cc.ssthresh < floor then cc.ssthresh else floor
                       inRecovery := false }
    else do
      let cwnd := if cc.cwnd > acked then cc.cwnd - acked else 0
      let cwnd ← word (if acked ≥ smss then cwnd + smss else cwnd)
      return { cc with cwnd := if cwnd < smss then smss else cwnd }
  else if cc.cwnd < cc.ssthresh then do
    let cwnd ← grown cc.cwnd (if acked < smss then acked else smss)
    return { cc with cwnd := cwnd }
  else do
    -- the product has 64 bits in the source
    let step ← (quotient (smss * smss) cc.cwnd).bind word
    let cwnd ← grown cc.cwnd (if step > 0 then step else 1)
    return { cc with cwnd := cwnd }

def ccDupAck (cc : Cc) (smss count : ℕ) (ack sndMax : Seq) (flight : ℕ) : Option (Cc × Bool) :=
  if cc.inRecovery then do
    let cwnd ← grown cc.cwnd smss
    return ({ cc with cwnd := cwnd }, false)
  else if count ≠ 3 then some (cc, false)
  else if !gt ack cc.recover then some (cc, false)
  else do
    let ssthresh ← halfFlight smss flight
    let cwnd ← grown ssthresh (← word (3 * smss))
    return ({ cwnd := cwnd, ssthresh := ssthresh, inRecovery := true, recover := sndMax - 1 }, true)

def ccTimeout (cc : Cc) (smss flight : ℕ) (sndMax : Seq) (first : Bool) : Option Cc := do
  let ssthresh ← if first then halfFlight smss flight else some cc.ssthresh
  return { cwnd := smss, ssthresh := ssthresh, inRecovery := false, recover := sndMax - 1 }

end Checked

/-- The segment size, whether selective acknowledgements are used, and the congestion window. -/
structure Flow where
  mss : ℕ
  sackOk : Bool
  cc : Cc

inductive CcCall where
  /-- `start_congestion_control` -/
  | start (mss shift : ℕ) (sackOk : Bool) (iss : Seq)
  /-- `process_ack` -/
  | newAck (acked : ℕ) (ack : Seq) (flight : ℕ)
  /-- `tcp_input`, at a duplicate acknowledgement -/
  | dupAck (count : ℕ) (ack sndMax : Seq) (flight : ℕ)
  /-- `run_timers` -/
  | timeout (flight : ℕ) (sndMax : Seq) (first : Bool)

def Flow.call (f : Flow) : CcCall → Option Flow
  | .start mss shift sackOk iss => do
    let cc ← Checked.ccInit mss iss
    let ssthresh ← Checked.word (65535 <<< shift)
    return { mss := mss, sackOk := sackOk, cc := { cc with ssthresh := ssthresh } }
  | .newAck acked ack flight =>
    if f.sackOk && f.cc.inRecovery && !gt ack f.cc.recover then some f
    else do
      let cc ← Checked.ccNewAck f.cc f.mss acked ack flight
      return { f with cc := cc }
  | .dupAck count ack sndMax flight =>
    if f.sackOk && f.cc.inRecovery then some f
    else do
      let r ← Checked.ccDupAck f.cc f.mss count ack sndMax flight
      return { f with cc := if r.2 && f.sackOk then { r.1 with cwnd := r.1.ssthresh } else r.1 }
  | .timeout flight sndMax first => do
    let cc ← Checked.ccTimeout f.cc f.mss flight sndMax first
    return { f with cc := cc }

/-- The segment sizes and shifts the options of a SYN can give, and what can be in flight. -/
def CcCall.Allowed : CcCall → Prop
  | .start mss shift _ _ => 64 ≤ mss ∧ mss ≤ 1460 ∧ shift ≤ wscaleMax
  | .newAck _ _ flight | .dupAck _ _ _ flight | .timeout flight _ _ => flight ≤ bufferMax + 1

structure Flow.Bounded (f : Flow) : Prop where
  mss : 64 ≤ f.mss ∧ f.mss ≤ 1460
  low : f.mss ≤ f.cc.cwnd
  high : f.cc.cwnd ≤ cwndMax
  ssthresh : 2 * f.mss ≤ f.cc.ssthresh

namespace Checked

variable {cc : Cc} {smss flight x y : ℕ}

theorem word_eq (h : x < 2 ^ 32) : word x = some x := if_pos h

theorem quotient_eq (h : 0 < y) : quotient x y = some (x / y) := if_neg h.ne'

theorem halfFlight_eq (h : smss ≤ 1460) (hf : flight ≤ bufferMax + 1) :
    ∃ half, halfFlight smss flight = some half ∧ 2 * smss ≤ half ∧ half ≤ cwndMax := by
  unfold bufferMax at hf
  refine ⟨if flight / 2 > 2 * smss then flight / 2 else 2 * smss, ?_, ?_, ?_⟩
  · rw [halfFlight, word_eq (by omega)]
    rfl
  · split_ifs <;> omega
  · unfold cwndMax bufferMax
    split_ifs <;> omega

theorem grown_eq (h : x ≤ cwndMax) (more : ℕ) :
    ∃ cwnd, grown x more = some cwnd ∧ x ≤ cwnd ∧ cwnd ≤ cwndMax := by
  unfold grown
  split_ifs with h1 h2
  · exact ⟨_, rfl, h, le_rfl⟩
  · exact ⟨_, rfl, h, le_rfl⟩
  · have hmax : cwndMax < 2 ^ 32 := by decide
    exact ⟨x + more, word_eq (by omega), by omega, by omega⟩

end Checked

namespace Flow.Bounded

open Checked

variable {f : Flow} {flight : ℕ} {ack sndMax : Seq}

theorem newAck (h : f.Bounded) (acked : ℕ) (ack : Seq) (hf : flight ≤ bufferMax + 1) :
    ∃ cc, Checked.ccNewAck f.cc f.mss acked ack flight = some cc ∧ ({ f with cc := cc } : Flow).Bounded := by
  obtain ⟨⟨hm1, hm2⟩, hlow, hhigh, hss⟩ := h
  have hmax : cwndMax = 1048576 := rfl
  have hbuf : bufferMax = 262144 := rfl
  unfold Checked.ccNewAck
  by_cases hrec : f.cc.inRecovery = true
  · rw [if_pos hrec]
    by_cases hfull : gt ack f.cc.recover = true
    · -- a full acknowledgement: `ssthresh`, or what is in flight and a segment more
      rw [if_pos hfull, word_eq (by split_ifs <;> omega)]
      refine ⟨_, rfl, ⟨hm1, hm2⟩, ?_, ?_, hss⟩ <;> simp only <;> split_ifs <;> omega
    · rw [if_neg hfull]
      dsimp only
      rw [word_eq (by split_ifs <;> omega)]
      refine ⟨_, rfl, ⟨hm1, hm2⟩, ?_, ?_, hss⟩ <;> simp only <;> split_ifs <;> omega
  rw [if_neg hrec]
  by_cases hslow : f.cc.cwnd < f.cc.ssthresh
  · rw [if_pos hslow]
    obtain ⟨cwnd, he, h1, h2⟩ := grown_eq hhigh (if acked < f.mss then acked else f.mss)
    rw [he]
    exact ⟨_, rfl, ⟨hm1, hm2⟩, hlow.trans h1, h2, hss⟩
  · have hstep : f.mss * f.mss / f.cc.cwnd < 2 ^ 32 := by
      have := Nat.div_le_self (f.mss * f.mss) f.cc.cwnd
      have := Nat.mul_le_mul hm2 hm2
      omega
    rw [if_neg hslow, quotient_eq (by omega), Option.bind_some, word_eq hstep]
    obtain ⟨cwnd, he, h1, h2⟩ := grown_eq hhigh
      (if f.mss * f.mss / f.cc.cwnd > 0 then f.mss * f.mss / f.cc.cwnd else 1)
    simp only [Option.bind_eq_bind, Option.bind_some, he]
    exact ⟨_, rfl, ⟨hm1, hm2⟩, hlow.trans h1, h2, hss⟩

theorem dupAck (h : f.Bounded) (count : ℕ) (ack sndMax : Seq) (hf : flight ≤ bufferMax + 1) :
    ∃ r, Checked.ccDupAck f.cc f.mss count ack sndMax flight = some r ∧
      ({ f with cc := r.1 } : Flow).Bounded ∧ (r.2 = true → r.1.ssthresh ≤ cwndMax) := by
  obtain ⟨⟨hm1, hm2⟩, hlow, hhigh, hss⟩ := h
  unfold Checked.ccDupAck
  split_ifs
  · obtain ⟨cwnd, he, h1, h2⟩ := grown_eq hhigh f.mss
    rw [he]
    exact ⟨_, rfl, ⟨⟨hm1, hm2⟩, hlow.trans h1, h2, hss⟩, nofun⟩
  · exact ⟨_, rfl, ⟨⟨hm1, hm2⟩, hlow, hhigh, hss⟩, nofun⟩
  · exact ⟨_, rfl, ⟨⟨hm1, hm2⟩, hlow, hhigh, hss⟩, nofun⟩
  · obtain ⟨half, he, h1, h2⟩ := halfFlight_eq hm2 hf
    obtain ⟨cwnd, he', h3, h4⟩ := grown_eq h2 (3 * f.mss)
    rw [he, word_eq (by omega)]
    simp only [Option.bind_eq_bind, Option.bind_some, he']
    have hlow' : f.mss ≤ cwnd := by omega
    exact ⟨_, rfl, ⟨⟨hm1, hm2⟩, hlow', h4, h1⟩, fun _ => h2⟩

theorem start {mss shift : ℕ} (hm : 64 ≤ mss ∧ mss ≤ 1460) (hs : shift ≤ wscaleMax) (f : Flow)
    (sackOk : Bool) (iss : Seq) :
    ∃ f', f.call (.start mss shift sackOk iss) = some f' ∧ f'.Bounded := by
  have hshift : 65535 ≤ 65535 <<< shift ∧ 65535 <<< shift < 2 ^ 32 := by
    rw [Nat.shiftLeft_eq]
    have h1 := Nat.one_le_two_pow (n := shift)
    have h2 := Nat.pow_le_pow_right (n := 2) (by decide) hs
    have h3 : 2 ^ wscaleMax = 16384 := rfl
    omega
  have hmax : cwndMax = 1048576 := rfl
  rw [Flow.call, Checked.ccInit, word_eq (by split_ifs <;> omega), word_eq hshift.2]
  refine ⟨_, rfl, hm, ?_, ?_, ?_⟩
  · simp only
    split_ifs <;> omega
  · simp only
    split_ifs <;> omega
  · have htwo : 2 * mss ≤ 65535 := by omega
    exact htwo.trans hshift.1

theorem call (h : f.Bounded) {k : CcCall} (hk : k.Allowed) :
    ∃ f', f.call k = some f' ∧ f'.Bounded := by
  cases k with
  | start mss shift sackOk iss => exact start ⟨hk.1, hk.2.1⟩ hk.2.2 f sackOk iss
  | newAck acked ack flight =>
    rw [Flow.call]
    split_ifs
    · exact ⟨f, rfl, h⟩
    · obtain ⟨cc, he, hb⟩ := h.newAck acked ack hk
      rw [he]
      exact ⟨_, rfl, hb⟩
  | dupAck count ack sndMax flight =>
    rw [Flow.call]
    split_ifs
    · exact ⟨f, rfl, h⟩
    · obtain ⟨r, he, hb, hss⟩ := h.dupAck count ack sndMax hk
      rw [he]
      refine ⟨_, rfl, ?_⟩
      split_ifs with hr
      · rw [Bool.and_eq_true] at hr
        have hone : f.mss ≤ 2 * f.mss := by omega
        exact ⟨hb.mss, hone.trans hb.ssthresh, hss hr.1, hb.ssthresh⟩
      · exact hb
  | timeout flight sndMax first =>
    have hmax : cwndMax = 1048576 := rfl
    have hlow := h.mss
    rw [Flow.call, Checked.ccTimeout]
    cases first with
    | false => exact ⟨_, rfl, h.mss, le_rfl, by simp only; omega, h.ssthresh⟩
    | true =>
      obtain ⟨half, he, h1, -⟩ := halfFlight_eq h.mss.2 hk
      rw [if_pos rfl, he]
      exact ⟨_, rfl, h.mss, le_rfl, by simp only; omega, h1⟩

theorem calls (h : f.Bounded) {ks : List CcCall} (hks : ∀ k ∈ ks, k.Allowed) :
    ∃ f', ks.foldlM Flow.call f = some f' ∧ f'.Bounded := by
  induction ks generalizing f with
  | nil => exact ⟨f, rfl, h⟩
  | cons k ks ih =>
    obtain ⟨f', he, hb⟩ := h.call (hks k List.mem_cons_self)
    obtain ⟨f'', he', hb'⟩ := ih hb fun k' hk' => hks k' (List.mem_cons_of_mem k hk')
    refine ⟨f'', ?_, hb'⟩
    rw [List.foldlM_cons, he]
    exact he'

end Flow.Bounded

/-- From `start_congestion_control` on no sum wraps, nothing is divided by zero, and the window
stays between one segment and `TCP_CWND_MAX`. -/
theorem congestion_window_bounded (f : Flow) {mss shift : ℕ} (hm : 64 ≤ mss ∧ mss ≤ 1460)
    (hs : shift ≤ wscaleMax) (sackOk : Bool) (iss : Seq) {ks : List CcCall}
    (hks : ∀ k ∈ ks, k.Allowed) :
    ∃ f', (CcCall.start mss shift sackOk iss :: ks).foldlM Flow.call f = some f' ∧
      f'.mss ≤ f'.cc.cwnd ∧ f'.cc.cwnd ≤ cwndMax ∧ 2 * f'.mss ≤ f'.cc.ssthresh ∧
      0 < f'.cc.cwnd := by
  obtain ⟨f', he, hb⟩ := Flow.Bounded.start hm hs f sackOk iss
  obtain ⟨f'', he', hb'⟩ := hb.calls hks
  refine ⟨f'', ?_, hb'.low, hb'.high, hb'.ssthresh, ?_⟩
  · rw [List.foldlM_cons, he]
    exact he'
  · exact lt_of_lt_of_le (by have := hb'.mss.1; omega) hb'.low

theorem congestion_window_bounded_loss :
    ∃ f', ([.start 1460 14 true 0, .dupAck 3 1 262145 262145, .newAck 1460 1461 260685,
        .timeout 260685 262145 true] : List CcCall).foldlM Flow.call ⟨0, false, ⟨0, 0, false, 0⟩⟩ =
        some f' ∧
      f'.mss ≤ f'.cc.cwnd ∧ f'.cc.cwnd ≤ cwndMax ∧ 2 * f'.mss ≤ f'.cc.ssthresh ∧
      0 < f'.cc.cwnd :=
  congestion_window_bounded _ (by decide) (by decide) true 0
    (by simp [CcCall.Allowed, bufferMax])

end Bashket.Tcp
