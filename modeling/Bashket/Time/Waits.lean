import Mathlib

/-!
# Timed waits

When the calls with a time limit return: `nanosleep` (`kernel/time/hrtimer.c`), `sched_sleep_ticks`
(`kernel/time/timer.c`), `poll_wait`, and `futex_wait` and `recvfrom` with `ms_to_ticks`. Real time
is in nanoseconds from the start of the timestamp counter, which is exact; a periodic tick comes
every 10 ms. A sleeping task may be woken at any time, so a call may return its timeout at any time
at which its own look at the clock allows it. The counters themselves do not overflow, the sums of
64 bits made from them may.
-/

namespace Bashket.Time

def nsPerTick : ℕ := 10000000

/-- One-shot timers, or a periodic tick with and without a timestamp counter. -/
inductive Mode
  | oneShot
  | counter
  | ticks
deriving DecidableEq

structure Clock where
  mode : Mode
  /-- In periodic mode, how long before time 0 there was a tick. -/
  phase : ℕ
  tickOffset : ℕ
  ticksAtStart : ℕ

variable (c : Clock)

def Clock.lead : ℕ := if c.mode = .oneShot then 0 else c.phase

def Clock.timerTicks (t : ℕ) : ℕ := (t + c.lead) / nsPerTick + c.tickOffset

def Clock.sinceTick (t : ℕ) : ℕ := (t + c.lead) % nsPerTick

/-- Readings never go back, so that the guard against that has nothing to do. -/
def Clock.clockNs (t : ℕ) : ℕ :=
  if c.mode = .ticks then (c.timerTicks t - c.ticksAtStart) * nsPerTick else t

def add64 (a b : ℕ) : ℕ := (a + b) % 2 ^ 64

/-- `sched_sleep_ticks(count)`, called at `t`, may return true at `t'`. -/
def SchedSleepTicks (count t t' : ℕ) : Prop :=
  t ≤ t' ∧ (count = 0 ∨ add64 (c.timerTicks t) count ≤ c.timerTicks t')

def Nanosleep (ns t t' : ℕ) : Prop :=
  let deadline := add64 (c.clockNs t) ns
  if c.mode = .oneShot then t ≤ t' ∧ deadline ≤ c.clockNs t' else
    let whole := ns / nsPerTick
    ∃ t₀ t₁, t ≤ t₀ ∧ (if 1 < whole then SchedSleepTicks c (whole - 1) t₀ t₁ else t₀ ≤ t₁) ∧
      if c.mode = .counter then t₁ ≤ t' ∧ deadline ≤ c.clockNs t'
      else if deadline ≤ c.clockNs t₁ then t₁ ≤ t' else SchedSleepTicks c 1 t₁ t'

/-- A limit of `ticks` ticks set at `t` is found to be over at `t'`; 0 stands for none. -/
def LimitOver (ticks t t' : ℕ) : Prop :=
  let deadline := add64 (c.timerTicks t) ticks
  t ≤ t' ∧ deadline ≠ 0 ∧ deadline ≤ c.timerTicks t'

/-- The rounding of `poll_wait`. -/
def pollTicks (ms : ℕ) : ℕ := (ms * 100 + 999) % 2 ^ 64 / 1000

def msToTicks (ms : ℕ) : ℕ := (min ms 3600000 * 100 + 999) / 1000

inductive Call
  | nanosleep (ns : ℕ)
  | sleepTicks (count : ℕ)
  | poll (ms : ℕ)
  | futexWait (ms : ℕ)
  | recvfrom (ms : ℕ)

/-- The call, made at `t`, may say at `t'` that its time is over. -/
def Call.Over (t t' : ℕ) : Call → Prop
  | .nanosleep ns => Nanosleep c ns t t'
  | .sleepTicks count => SchedSleepTicks c count t t'
  | .poll ms => if ms = 0 then t ≤ t' else LimitOver c (pollTicks ms) t t'
  | .futexWait ms | .recvfrom ms => ms ≠ 0 ∧ LimitOver c (msToTicks ms) t t'

def Call.requested : Call → ℕ
  | .nanosleep ns => ns
  | .sleepTicks count => count * nsPerTick
  | .poll ms | .futexWait ms | .recvfrom ms => ms * 1000000

/-- The ticks it waits for, if it goes by ticks. -/
def Call.ticks : Call → ℕ
  | .nanosleep ns => max 1 (ns / nsPerTick)
  | .sleepTicks count => count
  | .poll ms => pollTicks ms
  | .futexWait ms | .recvfrom ms => msToTicks ms

/-- No sum of the call overflows and, unless it watches the timestamp counter, its ticks make up for
the part of the present one that is already over. -/
structure Call.Covered (call : Call) (t t' : ℕ) : Prop where
  ticksFit : c.timerTicks t' + call.ticks < 2 ^ 64
  nsFit : ∀ ns, call = .nanosleep ns → c.clockNs t + ns < 2 ^ 64
  covered : (∃ ns, call = .nanosleep ns ∧ c.mode ≠ .ticks) ∨
    call.requested + c.sinceTick t ≤ call.ticks * nsPerTick

variable {c} {n t t' : ℕ}

theorem timerTicks_mono (h : t ≤ t') : c.timerTicks t ≤ c.timerTicks t' :=
  Nat.add_le_add_right (Nat.div_le_div_right (Nat.add_le_add_right h _)) _

theorem elapsed_of_ticks (h : c.timerTicks t + n ≤ c.timerTicks t') :
    n * nsPerTick ≤ t' - t + c.sinceTick t := by
  simp only [Clock.timerTicks, Clock.sinceTick, nsPerTick] at *
  omega

theorem SchedSleepTicks.ticks (h : SchedSleepTicks c n t t') (hfit : c.timerTicks t + n < 2 ^ 64) :
    t ≤ t' ∧ c.timerTicks t + n ≤ c.timerTicks t' := by
  obtain ⟨hle, rfl | hticks⟩ := h
  · exact ⟨hle, timerTicks_mono hle⟩
  · rw [add64, Nat.mod_eq_of_lt hfit] at hticks
    exact ⟨hle, hticks⟩

theorem LimitOver.ticks (h : LimitOver c n t t') (hfit : c.timerTicks t' + n < 2 ^ 64) :
    c.timerTicks t + n ≤ c.timerTicks t' := by
  obtain ⟨hle, -, hticks⟩ := h
  have hmono := timerTicks_mono (c := c) hle
  rwa [add64, Nat.mod_eq_of_lt (by omega)] at hticks

theorem Nanosleep.le_clockNs {ns : ℕ} (h : Nanosleep c ns t t') (hmode : c.mode ≠ .ticks) :
    add64 t ns ≤ t' := by
  simp only [Nanosleep, Clock.clockNs, if_neg hmode] at h
  split at h
  · exact h.2
  next hone =>
    obtain ⟨t₀, t₁, -, -, hlate⟩ := h
    rw [if_pos (by cases hm : c.mode <;> simp_all)] at hlate
    exact hlate.2

/-- Without a timestamp counter it sleeps the whole ticks that it was given, or one. -/
theorem Nanosleep.ticks {ns : ℕ} (h : Nanosleep c ns t t') (hmode : c.mode = .ticks)
    (hfit : c.timerTicks t' + max 1 (ns / nsPerTick) < 2 ^ 64) (hns : c.clockNs t + ns < 2 ^ 64) :
    ns = 0 ∨ c.timerTicks t + max 1 (ns / nsPerTick) ≤ c.timerTicks t' := by
  rw [Nanosleep, add64, Nat.mod_eq_of_lt hns, hmode, if_neg nofun] at h
  obtain ⟨t₀, t₁, h₀, h₁, h₂⟩ := h
  rw [if_neg nofun] at h₂
  have hlate : t₁ ≤ t' := by
    split at h₂
    · exact h₂
    · exact h₂.1
  have hmono := timerTicks_mono (c := c) hlate
  have hfirst : c.timerTicks t + (ns / nsPerTick - 1) ≤ c.timerTicks t₁ := by
    have hcall := timerTicks_mono (c := c) h₀
    split at h₁
    · have hle := timerTicks_mono (c := c) h₁.1
      have := (h₁.ticks (by omega)).2
      omega
    · have := timerTicks_mono (c := c) h₁
      omega
  split at h₂
  next hover =>
    simp only [Clock.clockNs, hmode, nsPerTick, if_true] at hover ⊢
    omega
  next =>
    have := (h₂.ticks (by omega)).2
    omega

/-- Ticks at the whole multiples of 10 ms. -/
def periodic (mode : Mode) : Clock := ⟨mode, 0, 0, 0⟩

end Bashket.Time
