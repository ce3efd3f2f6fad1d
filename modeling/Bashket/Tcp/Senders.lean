import Bashket.Tcp.System

/-!
# Who sends

`output` may be called for one slot by several threads at a time. The first to set `sending` is the
sender: it calls `send_what_is_due`, which takes and gives back `tcp_lock` for every segment, and
the others only leave the request `send_again` behind. Between the sections of a sender the slot may
be freed and used for another connection; both fill it with zeros, the flags included.
-/

namespace Bashket.Tcp

open Run
open Function (update update_of_ne update_self)

/-- Not there, in `send_what_is_due`, or about to look at `send_again`. -/
inductive Caller where
  | outside
  | sending
  | sent
deriving DecidableEq, Repr

/-- A slot with the flags of `output`, and where each thread is; `setBy`: who set `sending`. -/
structure Slot (ι : Type) where
  conn : Conn
  sending : Bool
  sendAgain : Bool
  setBy : Option ι
  caller : ι → Caller

/-- The critical sections: those of `output`, by a thread, and all others. -/
inductive SlotEvent (ι : Type) where
  | enter (p : ι)
  | send (p : ι) (clk : Clock)
  | finish (p : ι)
  | other (e : Event)

variable {ι : Type} [DecidableEq ι] {s : Slot ι}

def Slot.init : Slot ι := ⟨Conn.init, false, false, none, fun _ => .outside⟩

/-- Any other section.  `free_socket` and `alloc_socket` fill the whole slot with zeros. -/
def Slot.act (s : Slot ι) (e : Event) : Slot ι :=
  let c := step s.conn e
  if c.sock.used = s.conn.sock.used then { s with conn := c }
  else { s with conn := c, sending := false, sendAgain := false, setBy := none }

def Slot.step (s : Slot ι) : SlotEvent ι → Slot ι
  | .enter p =>
    if s.caller p = .outside then
      if !s.conn.sock.used || s.sending then { s with sendAgain := s.sendAgain || s.conn.sock.used }
      else { s with
        sending := true
        setBy := some p
        caller := update s.caller p .sending }
    else s
  | .send p clk =>
    if s.caller p = .sending then
      match sendWhatIsDue s.conn.sock clk with
      | none => s
      | some r => { s with
          conn := Tcp.step s.conn (.send clk)
          caller := update s.caller p (if r.again then .sending else .sent) }
    else s
  | .finish p =>
    if s.caller p = .sent then
      if s.sendAgain then
        { s with sendAgain := false, caller := update s.caller p .sending }
      else { s with
        sending := false
        setBy := none
        caller := update s.caller p .outside }
    else s
  -- segments are sent by `output` only
  | .other (.send _) => s
  | .other e => s.act e

/-! ### The flags -/

/-- While `sending` is set, the thread that set it is in `output`, and only then can a request be
pending. -/
structure FlagsOk (s : Slot ι) : Prop where
  setter : s.sending = true → ∃ p, s.setBy = some p ∧ s.caller p ≠ .outside
  again : s.sendAgain = true → s.sending = true
  free : s.conn.sock.used = false → s.sending = false

omit [DecidableEq ι] in
theorem FlagsOk.init : FlagsOk (Slot.init : Slot ι) where
  setter h := nomatch h
  again h := nomatch h
  free _ := rfl

omit [DecidableEq ι] in
theorem FlagsOk.act (h : FlagsOk s) (e : Event) : FlagsOk (s.act e) := by
  unfold Slot.act
  simp only
  split_ifs with hu
  · exact ⟨h.setter, h.again, fun h0 => h.free (hu ▸ h0)⟩
  · exact ⟨fun h0 => (nomatch h0), fun h0 => (nomatch h0), fun _ => rfl⟩

theorem sendWhatIsDue_used {s : Socket} {clk : Clock} {r : SendResult}
    (h : sendWhatIsDue s clk = some r) : r.sock.used = s.used := by
  rcases sendWhatIsDue_cases h with rfl | ⟨-, -, c, -, rfl⟩
  · rfl
  · unfold emitChoice
    split_ifs <;> rfl

theorem step_send_used (c : Conn) (clk : Clock) :
    (Tcp.step c (.send clk)).sock.used = c.sock.used := by
  simp only [Tcp.step]
  cases hs : sendWhatIsDue c.sock clk with
  | none => rfl
  | some r => exact sendWhatIsDue_used hs

theorem Slot.step_flagsOk (s : Slot ι) (e : SlotEvent ι) (h : FlagsOk s) : FlagsOk (s.step e) := by
  cases e with
  | enter p =>
    simp only [Slot.step]
    split_ifs with hout hbusy
    · refine ⟨h.setter, fun h0 => ?_, h.free⟩
      rcases Bool.or_eq_true _ _ ▸ h0 with h1 | h1
      · exact h.again h1
      · simpa [h1] using hbusy
    · simp only [Bool.or_eq_true, Bool.not_eq_true', not_or, Bool.not_eq_false] at hbusy
      refine ⟨fun _ => ⟨p, rfl, by simp⟩, fun _ => rfl, fun h0 => ?_⟩
      exact absurd (hbusy.1.symm.trans h0) (by decide)
    · exact h
  | send p clk =>
    simp only [Slot.step]
    split_ifs with hin
    · cases hs : sendWhatIsDue s.conn.sock clk with
      | none => exact h
      | some r =>
        refine ⟨fun h0 => ?_, h.again, fun h0 => h.free ?_⟩
        · obtain ⟨q, hq, hne⟩ := h.setter h0
          refine ⟨q, hq, ?_⟩
          by_cases hqp : q = p
          · subst hqp
            simp only [update_self]
            split_ifs <;> decide
          · simpa [update_of_ne hqp] using hne
        · rw [← h0]
          exact (step_send_used _ _).symm
    · exact h
  | finish p =>
    simp only [Slot.step]
    split_ifs with hin hagain
    · refine ⟨fun h0 => ?_, fun h0 => (nomatch h0), h.free⟩
      obtain ⟨q, hq, hne⟩ := h.setter h0
      refine ⟨q, hq, ?_⟩
      by_cases hqp : q = p
      · subst hqp
        simp
      · simpa [update_of_ne hqp] using hne
    · exact ⟨fun h0 => (nomatch h0), fun h0 => absurd h0 hagain, fun _ => rfl⟩
    · exact h
  | other e => cases e <;> first | exact h | exact h.act _

/-! ### One sender -/

/-- The slot is taken for a new connection only while no thread is in `output` for it. -/
def TakenWhenLeft (s : Slot ι) : SlotEvent ι → Prop
  | .other e => s.conn.sock.used = false → (Tcp.step s.conn e).sock.used = true →
      ∀ p, s.caller p = .outside
  | _ => True

/-- At most one thread is in `send_what_is_due`. -/
def OneSender (s : Slot ι) : Prop := ∀ p q, s.caller p = .sending → s.caller q = .sending → p = q

/-- A thread clears `sending` only if it set it for the connection in the slot. -/
def ClearsOwn (s : Slot ι) (e : SlotEvent ι) : Prop :=
  match e with
  | .finish p => s.sending = true → (s.step e).sending = false → s.setBy = some p
  | _ => True

/-- A request stays until a thread sees it and goes back to `send_what_is_due`, unless the
connection ends; until then `sending` is not cleared. -/
def RequestKept (s : Slot ι) (e : SlotEvent ι) : Prop :=
  s.sendAgain = true → (s.step e).conn.sock.used = s.conn.sock.used →
    (s.step e).sending = true ∧
    ((s.step e).sendAgain = true ∨ ∃ p, e = .finish p ∧ (s.step e).caller p = .sending)

/-- A thread that finds another one sending leaves a request. -/
def RequestMade (s : Slot ι) (e : SlotEvent ι) : Prop :=
  match e with
  | .enter p => s.caller p = .outside → s.conn.sock.used = true → s.sending = true →
      (s.step e).sendAgain = true
  | _ => True

/-- Only one thread is in `output`, and while a connection is in the slot it is the one that set
`sending` for it. -/
structure Alone (s : Slot ι) : Prop where
  one : ∀ p q, s.caller p ≠ .outside → s.caller q ≠ .outside → p = q
  own : s.conn.sock.used = true → ∀ p, s.caller p ≠ .outside →
    s.sending = true ∧ s.setBy = some p

omit [DecidableEq ι] in
theorem Alone.act (h : Alone s) {e : Event} (ht : TakenWhenLeft s (.other e)) :
    Alone (s.act e) := by
  unfold Slot.act
  simp only
  split_ifs with hu
  · exact ⟨h.one, fun h0 => h.own (hu ▸ h0)⟩
  · refine ⟨h.one, fun h0 p hp => absurd (ht ?_ h0 p) hp⟩
    rw [← Bool.not_eq_true]
    exact fun h1 => hu (h0.trans h1.symm)

theorem Alone.stay {t : Slot ι} {p : ι} {w : Caller} (h : Alone s) (hp : s.caller p ≠ .outside)
    (hc : t.caller = update s.caller p w) (hu : t.conn.sock.used = s.conn.sock.used)
    (hs : t.sending = s.sending) (hb : t.setBy = s.setBy) : Alone t := by
  have hmem (q : ι) (hq : t.caller q ≠ .outside) : s.caller q ≠ .outside := by
    rw [hc] at hq
    by_cases hqp : q = p
    · rwa [hqp]
    · rwa [update_of_ne hqp] at hq
  refine ⟨fun q r hq hr => h.one q r (hmem q hq) (hmem r hr), fun h0 q hq => ?_⟩
  rw [hs, hb]
  exact h.own (hu ▸ h0) q (hmem q hq)

theorem Slot.step_alone (s : Slot ι) (e : SlotEvent ι) (h : Alone s) (ht : TakenWhenLeft s e) :
    Alone (s.step e) := by
  cases e with
  | enter p =>
    simp only [Slot.step]
    split_ifs with hout hbusy
    · exact ⟨h.one, h.own⟩
    · simp only [Bool.or_eq_true, Bool.not_eq_true', not_or, Bool.not_eq_false] at hbusy
      -- whoever were inside would have set the flag
      have hempty (q : ι) (hq : s.caller q ≠ .outside) : False :=
        hbusy.2 (h.own hbusy.1 q hq).1
      have honly (q : ι) (hq : update s.caller p .sending q ≠ .outside) : q = p := by
        by_contra hqp
        rw [update_of_ne hqp] at hq
        exact hempty q hq
      exact ⟨fun q r hq hr => (honly q hq).trans (honly r hr).symm,
        fun _ q hq => ⟨rfl, by rw [honly q hq]⟩⟩
    · exact h
  | send p clk =>
    simp only [Slot.step]
    split_ifs with hin
    · cases hs : sendWhatIsDue s.conn.sock clk with
      | none => exact h
      | some r =>
        exact h.stay (by rw [hin]; decide) rfl (step_send_used s.conn clk) rfl rfl
    · exact h
  | finish p =>
    simp only [Slot.step]
    split_ifs with hin hagain
    · exact h.stay (by rw [hin]; decide) rfl rfl rfl rfl
    · have hgone (q : ι) (hq : update s.caller p .outside q ≠ .outside) : False := by
        by_cases hqp : q = p
        · rw [hqp, update_self] at hq
          exact hq rfl
        · rw [update_of_ne hqp] at hq
          exact hqp (h.one q p hq (by rw [hin]; decide))
      exact ⟨fun q r hq _ => (hgone q hq).elim, fun _ q hq => (hgone q hq).elim⟩
    · exact h
  | other e => cases e <;> first | exact h | exact h.act ht

theorem Alone.clearsOwn (h : Alone s) (hf : FlagsOk s) (e : SlotEvent ι) :
    ClearsOwn s e := by
  cases e with
  | finish p =>
    intro hs hc
    have hin : s.caller p = .sent := by
      by_contra hin
      simp only [Slot.step, if_neg hin] at hc
      exact absurd (hs.symm.trans hc) (by decide)
    have hu : s.conn.sock.used = true := by
      by_contra hu
      exact absurd (hs.symm.trans (hf.free (Bool.not_eq_true _ ▸ hu))) (by decide)
    exact (h.own hu p (by rw [hin]; decide)).2
  | _ => trivial

theorem requestMade (s : Slot ι) (e : SlotEvent ι) : RequestMade s e := by
  cases e with
  | enter p =>
    intro hout hu hs
    simp only [Slot.step, if_pos hout, hu, hs]
    simp
  | _ => trivial

theorem FlagsOk.requestKept (h : FlagsOk s) (e : SlotEvent ι) : RequestKept s e := by
  intro ha hu
  have hs := h.again ha
  cases e with
  | enter p =>
    simp only [Slot.step] at hu ⊢
    split_ifs at hu ⊢ with hout hbusy
    · exact ⟨hs, .inl (by simp [ha])⟩
    · simp [hs] at hbusy
    · exact ⟨hs, .inl ha⟩
  | send p clk =>
    simp only [Slot.step]
    split_ifs
    · cases sendWhatIsDue s.conn.sock clk with
      | none => exact ⟨hs, .inl ha⟩
      | some r => exact ⟨hs, .inl ha⟩
    · exact ⟨hs, .inl ha⟩
  | finish p =>
    simp only [Slot.step]
    split_ifs
    · exact ⟨hs, .inr ⟨p, rfl, by simp⟩⟩
    · exact ⟨hs, .inl ha⟩
  | other e =>
    have hact (hu : (s.act e).conn.sock.used = s.conn.sock.used) :
        (s.act e).sending = true ∧ (s.act e).sendAgain = true := by
      unfold Slot.act at hu ⊢
      simp only at hu ⊢
      split_ifs at hu ⊢ with h0
      · exact ⟨hs, ha⟩
      · exact absurd hu h0
    cases e <;> first
      | exact ⟨hs, .inl ha⟩
      | exact ⟨(hact hu).1, .inl (hact hu).2⟩

/-- What holds along the runs in which a slot is taken only while no thread is in `output`. -/
theorem Slot.step_inv (s : Slot ι) (e : SlotEvent ι) (h : FlagsOk s ∧ Alone s)
    (ht : TakenWhenLeft s e) : FlagsOk (s.step e) ∧ Alone (s.step e) :=
  ⟨s.step_flagsOk e h.1, s.step_alone e h.2 ht⟩

omit [DecidableEq ι] in
theorem Alone.init : Alone (Slot.init : Slot ι) :=
  ⟨fun _ _ h => absurd rfl h, fun h => nomatch h⟩

/-- As long as a slot is taken only while no thread is in `output` for it, a connection has one
sender at a time, who alone clears `sending`; and no request is lost. -/
theorem oneSender_of_takenWhenLeft (es : List (SlotEvent ι))
    (h : Along Slot.step TakenWhenLeft (Slot.init : Slot ι) es) :
    Always Slot.step OneSender (Slot.init : Slot ι) es ∧
    Along Slot.step (fun s e => ClearsOwn s e ∧ RequestMade s e ∧ RequestKept s e)
      (Slot.init : Slot ι) es := by
  have h0 : FlagsOk (Slot.init : Slot ι) ∧ Alone (Slot.init : Slot ι) := ⟨.init, .init⟩
  refine ⟨(always_of_induction Slot.step_inv h0 h).mono fun s hs p q hp hq => ?_,
    (Along.with_invariant Slot.step_inv h0 h).mono fun s e hs => ?_⟩
  · exact hs.2.one p q (by rw [hp]; decide) (by rw [hq]; decide)
  · exact ⟨hs.1.2.clearsOwn hs.1.1 e, requestMade s e, hs.1.1.requestKept e⟩

/-- Even when a slot is taken while a thread is still in `output` for the connection before, the
flag is not left set by a thread that has gone, and no request to send again is lost. -/
theorem sending_not_left_set (es : List (SlotEvent ι)) :
    Always Slot.step FlagsOk (Slot.init : Slot ι) es ∧
    Along Slot.step (fun s e => RequestMade s e ∧ RequestKept s e) (Slot.init : Slot ι) es := by
  have hstep (s : Slot ι) (e : SlotEvent ι) (h : FlagsOk s) (_ : True) := s.step_flagsOk e h
  have htrue : Along Slot.step (fun _ _ => True) (Slot.init : Slot ι) es :=
    Along.of_forall fun _ _ => trivial
  refine ⟨always_of_induction hstep .init htrue, (Along.with_invariant hstep .init htrue).mono ?_⟩
  rintro s e ⟨h, -⟩
  exact ⟨requestMade s e, h.requestKept e⟩

/-- A connection attempt is under way when its owner closes the socket; the slot is taken again
while the first thread is still in `output`. -/
def reusedSlotRun : List (SlotEvent Bool) :=
  [.other (.tcpOpen (some fun _ => 0) (some fun _ => 0) false), .other (.connect 1 80 1000 1000),
    .enter false, .other .connectInterrupted, .other (.close 5),
    .other (.tcpOpen (some fun _ => 0) (some fun _ => 0) false), .other (.connect 2 80 1001 2000),
    .enter true]

/-- Both threads send for the new connection, and the first clears the flag that the second set. -/
theorem reusedSlotRun_two_senders :
    (run Slot.step Slot.init reusedSlotRun).conn.sock.used = true ∧
    ¬OneSender (run Slot.step Slot.init reusedSlotRun) ∧
    ¬ClearsOwn (run Slot.step Slot.init (reusedSlotRun ++
      [.send false ⟨6, 6000⟩, .send false ⟨7, 7000⟩])) (.finish false) := by
  refine ⟨by decide +kernel, fun h => ?_, fun h => ?_⟩
  · exact absurd (h false true (by decide +kernel) (by decide +kernel)) (by decide)
  · exact absurd (h (by decide +kernel) (by decide +kernel)) (by decide +kernel)

def handedOverRun : List (SlotEvent Bool) :=
  [.other (.tcpOpen (some fun _ => 0) (some fun _ => 0) false), .other (.connect 1 80 1000 1000),
    .enter false, .enter true, .send false ⟨5, 5000⟩, .send false ⟨5, 5000⟩, .finish false,
    .send false ⟨6, 6000⟩, .finish false, .other .connectInterrupted, .other (.close 7),
    .other (.tcpOpen (some fun _ => 0) (some fun _ => 0) false), .enter true]

instance (s : Slot Bool) (e : SlotEvent Bool) : Decidable (TakenWhenLeft s e) := by
  unfold TakenWhenLeft
  split <;> infer_instance

theorem oneSender_handedOverRun :
    (run Slot.step Slot.init (handedOverRun.take 4)).sendAgain = true ∧
    (run Slot.step Slot.init handedOverRun).caller true = .sending ∧
    Always Slot.step OneSender (Slot.init : Slot Bool) handedOverRun ∧
    Along Slot.step (fun s e => ClearsOwn s e ∧ RequestMade s e ∧ RequestKept s e)
      (Slot.init : Slot Bool) handedOverRun :=
  ⟨by decide +kernel, by decide +kernel, oneSender_of_takenWhenLeft handedOverRun (by decide +kernel)⟩

end Bashket.Tcp
