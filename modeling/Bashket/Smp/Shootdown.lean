import Bashket.Lib.Run

/-!
# Stale translations on other CPUs

`smp_tlb_shootdown` and `smp_tlb_service` of `smp.c`, for `n` CPUs. A CPU that changed the page
tables sets the flag `tlb_flush_pending` of every other active CPU and waits until each flag is
clear; a CPU that finds its flag set clears it and then flushes its TLB. Every access to a flag is a
step, and so are the beginning and the end of a flush. `smp_tlb_service` may run anywhere, also in
an interrupt handler that interrupts another `smp_tlb_service`.

The number of the step in which a translation was cached stands for the translation.
-/

namespace Bashket.Smp

open Run List

/-- It has seen the flag set, has cleared it, or is flushing since a step. -/
inductive Service where
  | loaded
  | cleared
  | flushing (start : ℕ)
deriving DecidableEq, Repr

/-- In the loop that sets flags or in the one that waits, at CPU number `i`, or past both; `since`:
the step of the call. -/
inductive Call where
  | idle
  | asking (since i : ℕ)
  | waiting (since i : ℕ)
  | returned (since : ℕ)
deriving DecidableEq, Repr

/-- `services`: the calls of `smp_tlb_service`, innermost first; `flushed`: when its completed
flushes began. -/
structure Cpu where
  active : Bool
  activeFrom : ℕ
  pending : Bool
  services : List Service
  cached : List ℕ
  flushed : List ℕ
  call : Call
deriving DecidableEq, Repr

/-- All CPUs, whether the kernel has stopped (`kernel_halted`), and the number of the next step. -/
structure Machine (n : ℕ) where
  cpu : Fin n → Cpu
  halted : Bool
  now : ℕ

variable {n : ℕ}

def Machine.init : Machine n where
  cpu _ := { active := false, activeFrom := 0, pending := false, services := [], cached := []
             flushed := [], call := .idle }
  halted := false
  now := 0

inductive Event (n : ℕ) where
  | start (c : Fin n)
  | walk (c : Fin n)
  | halt
  | shootdown (p : Fin n)
  | ask (p : Fin n)
  | wait (p : Fin n)
  | service (c : Fin n)
  | exchange (c : Fin n)
  | flushBegin (c : Fin n)
  | flushEnd (c : Fin n)

def Machine.put (m : Machine n) (c : Fin n) (x : Cpu) : Machine n :=
  { m with cpu := Function.update m.cpu c x }

/-- The CPU numbered `i`, unless that is `p` itself or not active. -/
def Machine.other (m : Machine n) (p : Fin n) (i : ℕ) : Option (Fin n) :=
  if h : i < n then if (⟨i, h⟩ : Fin n) = p ∨ !(m.cpu ⟨i, h⟩).active then none else some ⟨i, h⟩
  else none

def Machine.ask (m : Machine n) (p : Fin n) (since i : ℕ) : Machine n :=
  let m' := match m.other p i with
    | some c => m.put c { m.cpu c with pending := true }
    | none => m
  m'.put p { m'.cpu p with call := if i < n then .asking since (i + 1) else .waiting since 0 }

def Machine.wait (m : Machine n) (p : Fin n) (since i : ℕ) : Machine n :=
  if i < n then
    match m.other p i with
    | some c =>
      if (m.cpu c).pending && !m.halted then m
      else m.put p { m.cpu p with call := .waiting since (i + 1) }
    | none => m.put p { m.cpu p with call := .waiting since (i + 1) }
  else m.put p { m.cpu p with call := .returned since }

def Machine.act (m : Machine n) : Event n → Machine n
  | .start c =>
    if (m.cpu c).active then m
    else m.put c { m.cpu c with active := true, activeFrom := m.now + 1 }
  | .walk c => m.put c { m.cpu c with cached := m.now :: (m.cpu c).cached }
  | .halt => { m with halted := true }
  | .shootdown p =>
    match (m.cpu p).call with
    | .idle | .returned _ =>
      m.put p { m.cpu p with call := if n ≤ 1 then .returned m.now else .asking m.now 0 }
    | _ => m
  | .ask p =>
    match (m.cpu p).call with
    | .asking since i => m.ask p since i
    | _ => m
  | .wait p =>
    match (m.cpu p).call with
    | .waiting since i => m.wait p since i
    | _ => m
  | .service c =>
    if (m.cpu c).pending then m.put c { m.cpu c with services := .loaded :: (m.cpu c).services }
    else m
  | .exchange c =>
    match (m.cpu c).services with
    | .loaded :: rest =>
      m.put c { m.cpu c with
        pending := false
        services := if (m.cpu c).pending then .cleared :: rest else rest }
    | _ => m
  | .flushBegin c =>
    match (m.cpu c).services with
    | .cleared :: rest => m.put c { m.cpu c with services := .flushing m.now :: rest }
    | _ => m
  | .flushEnd c =>
    match (m.cpu c).services with
    | .flushing start :: rest =>
      -- what was cached while the flush was going on may survive it
      m.put c { m.cpu c with
        services := rest
        flushed := start :: (m.cpu c).flushed
        cached := (m.cpu c).cached.filter (start ≤ ·) }
    | _ => m

def Machine.step (m : Machine n) (e : Event n) : Machine n := { m.act e with now := m.now + 1 }

/-- Each other CPU that was active from the beginning of a shootdown on has completed a flush that
began after it, and no translation cached before it is left. -/
def Complete (m : Machine n) : Prop :=
  ∀ p since, (m.cpu p).call = .returned since → ∀ c, c ≠ p → (m.cpu c).active = true →
    (m.cpu c).activeFrom ≤ since →
    (∃ start ∈ (m.cpu c).flushed, since ≤ start) ∧ ∀ t ∈ (m.cpu c).cached, since ≤ t

/-- Who waits looks at a clear flag only after the flush that answers it, and does not stop waiting
because the kernel has stopped. -/
def SeenAfterFlush (m : Machine n) : Event n → Prop
  | .wait p =>
    match (m.cpu p).call with
    | .waiting _ i => m.halted = false ∧
        ∀ c, c.val = i → c ≠ p → (m.cpu c).active = true → (m.cpu c).pending = false →
          ∀ v ∈ (m.cpu c).services, v = .loaded
    | _ => True
  | _ => True

/-! ### What a CPU owes to one that waits for it -/

/-- Its flush has yet to begin, or has begun after `since`. -/
def Service.Answers (since : ℕ) : Service → Prop
  | .loaded => False
  | .cleared => True
  | .flushing start => since ≤ start

/-- A flush that began after `since` is complete. -/
def Flushed (since : ℕ) (x : Cpu) : Prop := ∃ start ∈ x.flushed, since ≤ start

def Due (since : ℕ) (x : Cpu) : Prop :=
  x.pending = true ∨ (∃ v ∈ x.services, v.Answers since) ∨ Flushed since x

/-- What a caller of `smp_tlb_shootdown` has reached with the CPU numbered `i`. -/
def Promise (call : Call) (i : ℕ) (x : Cpu) : Prop :=
  match call with
  | .idle => True
  | .asking since k => i < k → Due since x
  | .waiting since k => Due since x ∧ (i < k → Flushed since x)
  | .returned since => Flushed since x

def Call.since : Call → Option ℕ
  | .idle => none
  | .asking since _ | .waiting since _ | .returned since => some since

/-- A change of a CPU that takes nothing back from those that wait for it. -/
structure Improves (now : ℕ) (x x' : Cpu) : Prop where
  due : ∀ since ≤ now, Due since x → Due since x'
  flushed : ∀ since, Flushed since x → Flushed since x'
  active : ∀ since ≤ now, x'.active = true → x'.activeFrom ≤ since →
    x.active = true ∧ x.activeFrom ≤ since
  call : x'.call = x.call

/-- Flushes began in the past, and what is cached is younger than all complete ones. -/
structure Fresh (now : ℕ) (x : Cpu) : Prop where
  flushing : ∀ start, Service.flushing start ∈ x.services → start ≤ now
  flushed : ∀ start ∈ x.flushed, start ≤ now ∧ ∀ t ∈ x.cached, start ≤ t

structure ShootInv (m : Machine n) : Prop where
  promise : ∀ p c, c ≠ p → ∀ since, (m.cpu p).call.since = some since →
    (m.cpu c).active = true → (m.cpu c).activeFrom ≤ since → Promise (m.cpu p).call c (m.cpu c)
  past : ∀ p since, (m.cpu p).call.since = some since → since ≤ m.now
  fresh : ∀ c, Fresh m.now (m.cpu c)

section

variable {m : Machine n} {x x' : Cpu} {now : ℕ} {call : Call} {i since : ℕ} {c p : Fin n}
  {rest : List Service}

theorem Promise.improve (h : Promise call i x) (hi : Improves now x x')
    (hpast : ∀ since, call.since = some since → since ≤ now) : Promise call i x' := by
  cases call with
  | idle => trivial
  | asking since k => exact fun hk => hi.due _ (hpast _ rfl) (h hk)
  | waiting since k => exact ⟨hi.due _ (hpast _ rfl) h.1, fun hk => hi.flushed _ (h.2 hk)⟩
  | returned since => exact hi.flushed _ h

theorem Machine.put_self (m : Machine n) (c : Fin n) (x : Cpu) : (m.put c x).cpu c = x := by
  simp [Machine.put]

theorem Machine.put_of_ne (m : Machine n) {d : Fin n} (x : Cpu) (h : d ≠ c) :
    (m.put c x).cpu d = m.cpu d := by
  simp [Machine.put, h]

theorem ShootInv.tick (h : ShootInv m) : ShootInv { m with now := m.now + 1 } where
  promise := h.promise
  past p since hs := (h.past p since hs).trans (Nat.le_succ _)
  fresh c := ⟨fun b hb => ((h.fresh c).flushing b hb).trans (Nat.le_succ _),
    fun b hb => ⟨((h.fresh c).flushed b hb).1.trans (Nat.le_succ _), ((h.fresh c).flushed b hb).2⟩⟩

theorem ShootInv.improve (h : ShootInv m) (hi : Improves m.now (m.cpu c) x') (hf : Fresh m.now x') :
    ShootInv (m.put c x') := by
  have hcall (p : Fin n) : ((m.put c x').cpu p).call = (m.cpu p).call := by
    by_cases hp : p = c
    · rw [hp, m.put_self, hi.call]
    · rw [m.put_of_ne _ hp]
  refine ⟨fun p d hd since hs ha hfrom => ?_, fun p since hs => h.past p since (hcall p ▸ hs),
    fun d => ?_⟩
  · rw [hcall] at hs ⊢
    by_cases hdc : d = c
    · subst hdc
      rw [m.put_self] at ha hfrom ⊢
      obtain ⟨h1, h2⟩ := hi.active since (h.past p since hs) ha hfrom
      exact (h.promise p d hd since hs h1 h2).improve hi (h.past p)
    · rw [m.put_of_ne _ hdc] at ha hfrom ⊢
      exact h.promise p d hd since hs ha hfrom
  · by_cases hdc : d = c
    · rw [hdc, m.put_self]
      exact hf
    · rw [m.put_of_ne _ hdc]
      exact h.fresh d

theorem ShootInv.move (h : ShootInv m) (hpast : ∀ since, call.since = some since → since ≤ m.now)
    (hp : ∀ c, c ≠ p → ∀ since, call.since = some since → (m.cpu c).active = true →
      (m.cpu c).activeFrom ≤ since → Promise call c (m.cpu c)) :
    ShootInv (m.put p { m.cpu p with call := call }) := by
  have hself (c : Fin n) : ((m.put p { m.cpu p with call := call }).cpu c).active =
      (m.cpu c).active ∧ ((m.put p { m.cpu p with call := call }).cpu c).activeFrom =
      (m.cpu c).activeFrom ∧ (∀ k i, Promise k i (m.cpu c) →
        Promise k i ((m.put p { m.cpu p with call := call }).cpu c)) := by
    by_cases hc : c = p
    · subst hc
      rw [m.put_self]
      refine ⟨rfl, rfl, fun k i hk => ?_⟩
      cases k <;> exact hk
    · rw [m.put_of_ne _ hc]
      exact ⟨rfl, rfl, fun _ _ hk => hk⟩
  refine ⟨fun q c hc since hs ha hfrom => ?_, fun q since hs => ?_, fun c => ?_⟩
  · obtain ⟨e1, e2, e3⟩ := hself c
    rw [e1] at ha
    rw [e2] at hfrom
    by_cases hq : q = p
    · subst hq
      rw [m.put_self] at hs ⊢
      rw [m.put_of_ne _ hc]
      exact hp c hc since hs ha hfrom
    · rw [m.put_of_ne _ hq] at hs ⊢
      exact e3 _ _ (h.promise q c hc since hs ha hfrom)
  · by_cases hq : q = p
    · subst hq
      rw [m.put_self] at hs
      exact hpast since hs
    · rw [m.put_of_ne _ hq] at hs
      exact h.past q since hs
  · by_cases hc : c = p
    · subst hc
      rw [m.put_self]
      exact ⟨(h.fresh c).flushing, (h.fresh c).flushed⟩
    · rw [m.put_of_ne _ hc]
      exact h.fresh c

/-! ### Each step -/

theorem Improves.of_services {b : Bool} {vs : List Service}
    (h : ∀ since ≤ now, (x.pending = true ∨ ∃ v ∈ x.services, v.Answers since) →
      b = true ∨ ∃ v ∈ vs, v.Answers since) :
    Improves now x { x with pending := b, services := vs } where
  due since hs hd := by
    rcases hd with hd | hd | hd
    · exact (h since hs (.inl hd)).imp id .inl
    · exact (h since hs (.inr hd)).imp id .inl
    · exact .inr (.inr hd)
  flushed _ hf := hf
  active _ _ h1 h2 := ⟨h1, h2⟩
  call := rfl

theorem ShootInv.exchange (h : ShootInv m) (hs : (m.cpu c).services = .loaded :: rest) :
    ShootInv (m.put c { m.cpu c with
      pending := false
      services := if (m.cpu c).pending then .cleared :: rest else rest }) := by
  refine h.improve (.of_services fun since _ hd => .inr ?_) ⟨fun b hb => ?_, (h.fresh c).flushed⟩
  · cases hp : (m.cpu c).pending with
    | true => exact ⟨.cleared, mem_cons_self, trivial⟩
    | false =>
      rw [hp, hs] at hd
      obtain ⟨v, hv, ha⟩ := hd.resolve_left (by decide)
      rcases mem_cons.1 hv with rfl | hv
      · exact ha.elim
      · exact ⟨v, hv, ha⟩
  · refine (h.fresh c).flushing b ?_
    rw [hs]
    simp only at hb
    split_ifs at hb
    · rcases mem_cons.1 hb with hb | hb
      · cases hb
      · exact mem_cons_of_mem _ hb
    · exact mem_cons_of_mem _ hb

theorem ShootInv.flushBegin (h : ShootInv m) (hs : (m.cpu c).services = .cleared :: rest) :
    ShootInv (m.put c { m.cpu c with services := .flushing m.now :: rest }) := by
  refine h.improve (.of_services fun since hle hd => ?_) ⟨fun b hb => ?_, (h.fresh c).flushed⟩
  · exact hd.imp id fun _ => ⟨_, mem_cons_self, hle⟩
  · rcases mem_cons.1 hb with hb | hb
    · rw [Service.flushing.inj hb]
    · exact (h.fresh c).flushing b (hs ▸ mem_cons_of_mem _ hb)

theorem ShootInv.flushEnd (h : ShootInv m) {start : ℕ}
    (hs : (m.cpu c).services = .flushing start :: rest) :
    ShootInv (m.put c { m.cpu c with
      services := rest
      flushed := start :: (m.cpu c).flushed
      cached := (m.cpu c).cached.filter (start ≤ ·) }) := by
  have hstart : start ≤ m.now := (h.fresh c).flushing start (hs ▸ mem_cons_self)
  refine h.improve ⟨fun since _ hd => ?_, fun since hf => ?_, fun _ _ h1 h2 => ⟨h1, h2⟩, rfl⟩
    ⟨fun b hb => ?_, fun b hb => ?_⟩
  · rcases hd with hd | ⟨v, hv, ha⟩ | ⟨b, hb, hle⟩
    · exact .inl hd
    · -- the call that ends now is a complete flush
      rw [hs] at hv
      rcases mem_cons.1 hv with rfl | hv
      · exact .inr (.inr ⟨start, mem_cons_self, ha⟩)
      · exact .inr (.inl ⟨v, hv, ha⟩)
    · exact .inr (.inr ⟨b, mem_cons_of_mem _ hb, hle⟩)
  · obtain ⟨b, hb, hle⟩ := hf
    exact ⟨b, mem_cons_of_mem _ hb, hle⟩
  · exact (h.fresh c).flushing b (hs ▸ mem_cons_of_mem _ hb)
  · rcases mem_cons.1 hb with rfl | hb
    · exact ⟨hstart, fun t ht => by simpa using (mem_filter.1 ht).2⟩
    · obtain ⟨h1, h2⟩ := (h.fresh c).flushed b hb
      exact ⟨h1, fun t ht => h2 t (mem_filter.1 ht).1⟩

theorem Machine.other_eq_some (h : m.other p i = some c) :
    c.val = i ∧ c ≠ p ∧ (m.cpu c).active = true := by
  unfold Machine.other at h
  split_ifs at h with hi hc
  · cases h
    simp only [not_or, Bool.not_eq_true, Bool.not_eq_false'] at hc
    exact ⟨rfl, hc.1, hc.2⟩

theorem Machine.other_eq_none (h : m.other p i = none) (hc : c.val = i) (hne : c ≠ p) :
    (m.cpu c).active = false := by
  subst hc
  unfold Machine.other at h
  rw [dif_pos c.isLt] at h
  split_ifs at h with h0
  exact h0.elim (fun h1 => absurd h1 hne) (by simp)

theorem ShootInv.asked (h : ShootInv m) (hc : (m.cpu p).call = .asking since i)
    (hdone : ∀ c : Fin n, c.val = i → c ≠ p → (m.cpu c).active = true → Due since (m.cpu c)) :
    ShootInv (m.put p { m.cpu p with
      call := if i < n then .asking since (i + 1) else .waiting since 0 }) := by
  have hs : (m.cpu p).call.since = some since := by rw [hc]; rfl
  have hold (c : Fin n) (hne : c ≠ p) (ha : (m.cpu c).active = true)
      (hfrom : (m.cpu c).activeFrom ≤ since) (hlt : c.val < i + 1) : Due since (m.cpu c) := by
    rcases Nat.lt_succ_iff_lt_or_eq.1 hlt with hlt | heq
    · have := h.promise p c hne since hs ha hfrom
      rw [hc] at this
      exact this hlt
    · exact hdone c heq hne ha
  refine h.move (fun t ht => ?_) fun c hne t ht ha hfrom => ?_
  · split_ifs at ht <;> exact Option.some.inj ht ▸ h.past p since hs
  · split_ifs at ht ⊢ with hi
    · cases ht
      exact hold c hne ha hfrom
    · cases ht
      have := c.isLt
      exact ⟨hold c hne ha hfrom (by omega), fun h0 => absurd h0 (Nat.not_lt_zero _)⟩

theorem ShootInv.ask (h : ShootInv m) (hc : (m.cpu p).call = .asking since i) :
    ShootInv (m.ask p since i) := by
  unfold Machine.ask
  cases ho : m.other p i with
  | none =>
    refine h.asked hc fun c hi hne ha => ?_
    rw [Machine.other_eq_none ho hi hne] at ha
    cases ha
  | some d =>
    obtain ⟨hi, hne, -⟩ := Machine.other_eq_some ho
    have h' : ShootInv (m.put d { m.cpu d with pending := true }) :=
      h.improve (.of_services fun _ _ _ => .inl rfl) ⟨(h.fresh d).flushing, (h.fresh d).flushed⟩
    refine h'.asked (by rw [m.put_of_ne _ hne.symm, hc]) fun c hci _ _ => ?_
    obtain rfl : c = d := Fin.ext (hci.trans hi.symm)
    rw [m.put_self]
    exact .inl rfl

theorem ShootInv.seen (h : ShootInv m) (hc : (m.cpu p).call = .waiting since i)
    (hdone : ∀ c : Fin n, c.val = i → c ≠ p → (m.cpu c).active = true →
      (m.cpu c).activeFrom ≤ since → Flushed since (m.cpu c)) :
    ShootInv (m.put p { m.cpu p with call := .waiting since (i + 1) }) := by
  have hs : (m.cpu p).call.since = some since := by rw [hc]; rfl
  refine h.move (fun t ht => Option.some.inj ht ▸ h.past p since hs) fun c hne t ht ha hfrom => ?_
  cases ht
  have hold := h.promise p c hne since hs ha hfrom
  rw [hc] at hold
  refine ⟨hold.1, fun hlt => ?_⟩
  rcases Nat.lt_succ_iff_lt_or_eq.1 hlt with hlt | heq
  · exact hold.2 hlt
  · exact hdone c heq hne ha hfrom

theorem ShootInv.wait (h : ShootInv m) (hc : (m.cpu p).call = .waiting since i)
    (hseen : SeenAfterFlush m (.wait p)) :
    ShootInv (m.wait p since i) := by
  have hs : (m.cpu p).call.since = some since := by rw [hc]; rfl
  simp only [SeenAfterFlush, hc] at hseen
  obtain ⟨hhalt, hseen⟩ := hseen
  unfold Machine.wait
  split_ifs with hi
  · cases ho : m.other p i with
    | none =>
      refine h.seen hc fun c hci hne ha _ => ?_
      rw [Machine.other_eq_none ho hci hne] at ha
      cases ha
    | some d =>
      simp only
      split_ifs with hp
      · exact h
      · refine h.seen hc fun c hci hne ha hfrom => ?_
        obtain rfl : c = d := Fin.ext (hci.trans (Machine.other_eq_some ho).1.symm)
        have hclear : (m.cpu c).pending = false := by simpa [hhalt] using hp
        have hdue := h.promise p c hne since hs ha hfrom
        rw [hc] at hdue
        rcases hdue.1 with hd | ⟨v, hv, hans⟩ | hd
        · exact absurd (hclear.symm.trans hd) (by decide)
        · rw [hseen c hci hne ha hclear v hv] at hans
          exact hans.elim
        · exact hd
  · refine h.move (fun t ht => Option.some.inj ht ▸ h.past p since hs) fun c hne t ht ha hfrom => ?_
    cases ht
    have hold := h.promise p c hne since hs ha hfrom
    rw [hc] at hold
    have := c.isLt
    exact hold.2 (by omega)

end

theorem act_inv (m : Machine n) (e : Event n) (h : ShootInv m) (hseen : SeenAfterFlush m e) :
    ShootInv (m.act e) := by
  cases e with
  | start c =>
    simp only [Machine.act]
    split_ifs with ha
    · exact h
    · refine h.improve ⟨fun _ _ hd => hd, fun _ hf => hf, fun since hs _ h2 => ?_, rfl⟩
        ⟨(h.fresh c).flushing, (h.fresh c).flushed⟩
      simp only at h2
      omega
  | walk c =>
    refine h.improve ⟨fun _ _ hd => hd, fun _ hf => hf, fun _ _ h1 h2 => ⟨h1, h2⟩, rfl⟩
      ⟨(h.fresh c).flushing, fun b hb => ?_⟩
    obtain ⟨h1, h2⟩ := (h.fresh c).flushed b hb
    refine ⟨h1, fun t ht => ?_⟩
    rcases mem_cons.1 ht with rfl | ht
    · exact h1
    · exact h2 t ht
  | halt => exact ⟨h.promise, h.past, h.fresh⟩
  | shootdown p =>
    simp only [Machine.act]
    have hbegin : ShootInv (m.put p { m.cpu p with
        call := if n ≤ 1 then .returned m.now else .asking m.now 0 }) := by
      refine h.move (fun t ht => ?_) fun c hne t ht _ _ => ?_
      · split_ifs at ht <;> exact le_of_eq (Option.some.inj ht).symm
      · split_ifs with hn
        · -- there is no other CPU
          have := c.isLt
          have := p.isLt
          exact absurd (Fin.ext (by omega)) hne
        · exact fun h0 => absurd h0 (Nat.not_lt_zero _)
    split <;> first | exact hbegin | exact h
  | ask p =>
    simp only [Machine.act]
    split
    · exact h.ask (by assumption)
    · exact h
  | wait p =>
    simp only [Machine.act]
    split
    · exact h.wait (by assumption) hseen
    · exact h
  | service c =>
    simp only [Machine.act]
    split_ifs
    · refine h.improve (.of_services fun _ _ hd => hd.imp id fun ⟨v, hv, ha⟩ =>
        ⟨v, mem_cons_of_mem _ hv, ha⟩) ⟨fun b hb => ?_, (h.fresh c).flushed⟩
      rcases mem_cons.1 hb with hb | hb
      · cases hb
      · exact (h.fresh c).flushing b hb
    · exact h
  | exchange c =>
    simp only [Machine.act]
    split
    · exact h.exchange (by assumption)
    · exact h
  | flushBegin c =>
    simp only [Machine.act]
    split
    · exact h.flushBegin (by assumption)
    · exact h
  | flushEnd c =>
    simp only [Machine.act]
    split
    · exact h.flushEnd (by assumption)
    · exact h

theorem ask_now (m : Machine n) (p : Fin n) (since i : ℕ) : (m.ask p since i).now = m.now := by
  unfold Machine.ask
  cases m.other p i <;> rfl

theorem wait_now (m : Machine n) (p : Fin n) (since i : ℕ) : (m.wait p since i).now = m.now := by
  unfold Machine.wait
  split_ifs
  · cases m.other p i with
    | none => rfl
    | some c =>
      simp only
      split_ifs <;> rfl
  · rfl

theorem act_now (m : Machine n) (e : Event n) : (m.act e).now = m.now := by
  cases e <;> simp only [Machine.act] <;>
    first
      | rfl
      | (split <;> first | rfl | exact ask_now .. | exact wait_now ..)

theorem step_shootInv (m : Machine n) (e : Event n) (h : ShootInv m) (hseen : SeenAfterFlush m e) :
    ShootInv (m.step e) := by
  have := (act_inv m e h hseen).tick
  rwa [act_now] at this

theorem ShootInv.init : ShootInv (Machine.init : Machine n) where
  promise _ _ _ _ h := nomatch h
  past _ _ h := nomatch h
  fresh _ := ⟨fun _ h => absurd h not_mem_nil, fun _ h => absurd h not_mem_nil⟩

/-- A shootdown is complete when it returns, as long as no CPU sees a flag clear before the flush
that answers it. -/
theorem complete_of_seenAfterFlush (es : List (Event n))
    (h : Along Machine.step SeenAfterFlush (Machine.init : Machine n) es) :
    Always Machine.step Complete (Machine.init : Machine n) es := by
  refine (always_of_induction step_shootInv ShootInv.init h).mono fun m hm p since hp c hne ha hfrom => ?_
  have hdone : Flushed since (m.cpu c) := by
    have := hm.promise p c hne since (by rw [hp]; rfl) ha hfrom
    rwa [hp] at this
  obtain ⟨start, hstart, hle⟩ := id hdone
  exact ⟨hdone, fun t ht => hle.trans (((hm.fresh c).flushed start hstart).2 t ht)⟩

/-- CPU 1 has cleared its flag but not yet flushed when CPU 0 looks. -/
def earlyReturnRun : List (Event 2) :=
  [.start 0, .start 1, .walk 1, .shootdown 0, .ask 0, .ask 0, .ask 0, .service 1, .exchange 1,
    .wait 0, .wait 0, .wait 0]

/-- The shootdown has returned, and CPU 1 still has the translation. -/
theorem earlyReturnRun_stale :
    ((run Machine.step Machine.init earlyReturnRun).cpu 0).call = .returned 3 ∧
    ((run Machine.step Machine.init earlyReturnRun).cpu 1).flushed = [] ∧
    ((run Machine.step Machine.init earlyReturnRun).cpu 1).cached = [2] ∧
    ¬Complete (run Machine.step Machine.init earlyReturnRun) := by
  refine ⟨by decide +kernel, by decide +kernel, by decide +kernel, fun h => ?_⟩
  have hbad := (h 0 3 (by decide +kernel) 1 (by decide) (by decide +kernel) (by decide +kernel)).2 2
    (by decide +kernel)
  exact absurd hbad (by decide)

def lateReturnRun : List (Event 2) :=
  [.start 0, .start 1, .walk 1, .shootdown 0, .ask 0, .ask 0, .ask 0, .service 1, .exchange 1,
    .flushBegin 1, .flushEnd 1, .wait 0, .wait 0, .wait 0]

instance (m : Machine n) (e : Event n) : Decidable (SeenAfterFlush m e) := by
  unfold SeenAfterFlush
  split
  · split <;> infer_instance
  · infer_instance

theorem complete_lateReturnRun :
    ((run Machine.step Machine.init lateReturnRun).cpu 0).call = .returned 3 ∧
    ((run Machine.step Machine.init lateReturnRun).cpu 1).cached = [] ∧
    Always Machine.step Complete Machine.init lateReturnRun :=
  ⟨by decide +kernel, by decide +kernel, complete_of_seenAfterFlush lateReturnRun (by decide +kernel)⟩

end Bashket.Smp
