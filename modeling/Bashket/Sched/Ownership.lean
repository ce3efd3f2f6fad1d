import Bashket.Sched.Scheduler

/-!
# Who has a task

At any time a task is in one place: it runs on a CPU, waits in a queue, is put aside by a CPU that
is switching away from it, is in the hands of a CPU that moves it, sleeps, or is an idle task that
is not needed. `Owned` says that the fields of the scheduler's state fit a map of tasks to places,
and which locks protect what. The lemmas here are the moves of a task from one place to another.
-/

namespace Bashket.Sched

open Function (update update_of_ne update_self)

inductive Place (n : ℕ) where
  | absent
  | idle
  | asleep
  | running (c : Cpu n)
  | queued (c : Cpu n)
  | moving (c : Cpu n)
  | hand (c : Cpu n)
  deriving DecidableEq

def Place.Near {n : ℕ} (c : Cpu n) : Place n → Prop
  | .running d | .moving d | .hand d => d = c
  | _ => True

/-- No CPU has the task. -/
def Place.Loose {n : ℕ} : Place n → Prop
  | .absent | .asleep | .queued _ => True
  | _ => False

theorem Place.Loose.apart {n : ℕ} {p : Place n} (h : p.Loose) (c : Cpu n) :
    p.Near c ∧ p ≠ .running c ∧ p ≠ .moving c := by
  cases p <;> first | exact ⟨trivial, nofun, nofun⟩ | cases h

def TaskState.Away (st : TaskState) : Prop := st = .blocked ∨ st = .stopped ∨ st = .zombie

variable {ι κ ν χ : Type*} {n : ℕ}

/-! ### What a place in the code means -/

def Hold.away : Hold κ ν χ → Bool
  | .locked => false
  | .leave _ => true

namespace Ret

def wakes : Ret ι κ ν χ → Bool
  | .woken _ | .wakeup _ _ _ => true
  | _ => false

def sched : Ret ι κ ν χ → Bool
  | .moved _ => false
  | _ => true

def away : Ret ι κ ν χ → Bool
  | .woken h | .wakeup _ _ h => h.away
  | _ => false

def walk : Ret ι κ ν χ → Option (χ × List ι)
  | .wakeup ch rest _ => some (ch, rest)
  | _ => none

end Ret

namespace Pc

def hand : Pc ι κ ν χ n → Option ι
  | .place t _ | .push t _ _ | .commit _ t _ => some t
  | .finishSched moving _ => moving
  | _ => none

def places : Pc ι κ ν χ n → Option ι
  | .place t _ | .push t _ _ => some t
  | .finishSched moving _ => moving
  | _ => none

def wakes : Pc ι κ ν χ n → Bool
  | .place _ r | .push _ _ r => r.wakes
  | _ => false

def away : Pc ι κ ν χ n → Bool
  | .held h | .wakeup _ _ h => h.away
  | .place _ r | .push _ _ r => r.away
  | .release _ stop => !stop
  | .schedule hold _ | .steal hold _ _ | .commit hold _ _ => hold
  | _ => false

/-- The current task's state is set, to STOPPED or ZOMBIE, and others are being woken. -/
def leaving : Pc ι κ ν χ n → Bool
  | .held h | .wakeup _ _ h => h.away
  | .place _ r | .push _ _ r => r.away
  | _ => false

def sleeps : Pc ι κ ν χ n → Bool
  | .sleep _ | .release _ _ => true
  | _ => false

/-- The CPU holds the scheduler lock (but see `State.holdsSched`). -/
def sched : Pc ι κ ν χ n → Bool
  | .held _ | .wakeup _ _ _ | .requeue _ | .unqueue _ _ | .release _ _ | .finishSched _ _ => true
  | .place _ r | .push _ _ r => r.sched
  | .schedule hold _ | .steal hold _ _ | .commit hold _ _ => hold
  | _ => false

def queue : Pc ι κ ν χ n → Bool
  | .give _ | .steal _ _ _ | .commit _ _ _ | .switch _ _ | .finish _ => true
  | _ => false

def switching : Pc ι κ ν χ n → Bool
  | .switch _ _ | .finish _ => true
  | _ => false

def unfinished : Pc ι κ ν χ n → Bool
  | .switch _ _ | .finish _ | .finishSched _ _ => true
  | _ => false

/-- The lock the CPU holds on its way to sleep. -/
def lock : Pc ι κ ν χ n → Option ν
  | .sleep a | .release a _ =>
    match a.lock with
    | .lock l => some l
    | _ => none
  | _ => none

/-- The arguments of the call of `sleep_on`, before it takes the scheduler lock. -/
def call : Pc ι κ ν χ n → Option (Sleep κ ν χ)
  | .sleep a => some a
  | _ => none

/-- The channel on which the CPU wakes tasks, and the tasks it has still to look at. -/
def walk : Pc ι κ ν χ n → Option (χ × List ι)
  | .wakeup ch rest _ => some (ch, rest)
  | .place _ r | .push _ _ r => r.walk
  | _ => none

/-- The task that a call of `task_set_affinity` has still to look at. -/
def rebinds : Pc ι κ ν χ n → Option ι
  | .requeue t | .unqueue t _ => some t
  | _ => none

/-- The task that is about to join a queue, and the queue. -/
def pushes : Pc ι κ ν χ n → Option (ι × Cpu n)
  | .push t cpu _ => some (t, cpu)
  | _ => none

def next : Pc ι κ ν χ n → Option ι
  | .commit _ t _ => some t
  | _ => none

variable {p : Pc ι κ ν χ n}

theorem sched_of_away (h : p.away = true) : p.sched = true := by
  cases p with
  | place t r | push t cpu r => cases r <;> first | rfl | cases h
  | _ => first | rfl | exact h

theorem sched_of_wakes (h : p.wakes = true) : p.sched = true := by
  cases p with
  | place t r | push t cpu r => cases r <;> first | rfl | cases h
  | _ => cases h

theorem switching_of_away (h : p.away = true) : p.switching = false := by
  cases p <;> first | rfl | cases h

theorem away_of_leaving (h : p.leaving = true) : p.away = true := by
  cases p <;> first | exact h | cases h

theorem switching_of_wakes (h : p.wakes = true) : p.switching = false := by
  cases p <;> first | rfl | cases h

theorem switching_of_unfinished (h : p.unfinished = false) : p.switching = false := by
  cases p <;> first | rfl | cases h

end Pc

theorem Ret.pc_eq (r : Ret ι κ ν χ) (n : ℕ) : ∀ p : Pc ι κ ν χ n, p = r.pc →
    (p.unfinished, p.hand, p.away, p.leaving, p.sched, p.queue, p.sleeps, p.lock, p.call, p.walk,
      p.rebinds, p.pushes, p.next) =
      (false, none, r.away, r.away, r.sched, false, false, none, none, r.walk, none, none, none) := by
  rintro _ rfl
  cases r with
  | moved a => cases a <;> rfl
  | _ => rfl

/-- What the CPU does suits the state of its current task; an idle task neither sleeps nor leaves. -/
structure Pc.Suits (p : Pc ι κ ν χ n) (st : TaskState) (idle : Prop) : Prop where
  running : p.away = false → st = .running
  away : p.away = true → st.Away ∧ ¬ idle
  leaving : p.leaving = true → st ≠ .blocked
  sleeps : p.sleeps = true → ¬ idle

theorem Pc.Suits.onward {p p' : Pc ι κ ν χ n} {st : TaskState} {i : Prop} (h : p.Suits st i)
    (ha : p'.away = p.away) (hl : p'.leaving = true → p.leaving = true)
    (hs : p'.sleeps = true → ¬ i) : p'.Suits st i :=
  ⟨fun h0 => h.running (ha ▸ h0), fun h0 => h.away (ha ▸ h0), fun h0 => h.leaving (hl h0), hs⟩

theorem Pc.Suits.of_running {p : Pc ι κ ν χ n} {i : Prop} (ha : p.away = false)
    (hs : p.sleeps = false) : p.Suits .running i := by
  refine ⟨fun _ => rfl, fun h0 => ?_, fun _ => nofun, fun h0 => ?_⟩
  · cases ha.symm.trans h0
  · cases hs.symm.trans h0

/-- The CPU holds the scheduler lock.  During a switch the note in the queue says so. -/
def State.holdsSched (s : State ι κ ν χ n) (c : Cpu n) : Bool :=
  if (s.pc c).switching then s.releaseSched c else (s.pc c).sched

/-! ### The state fits a map of tasks to places -/

/-- `t` is a task the CPU has not finished switching away from: nobody else can get hold of it. -/
def State.Leaving (s : State ι κ ν χ n) (own : ι → Place n) (c : Cpu n) (t : ι) : Prop :=
  (s.pc c).unfinished = true ∧
  if s.holdsSched c then own t = .asleep
  else own t = .queued c ∨ own t = .moving c ∨ (t = s.idle c ∧ own t = .idle)

/-- The task that runs, the one put aside and the one in the CPU's hands are where the map says. -/
structure Seats (own : ι → Place n) (c : Cpu n) (current : ι) (moving hand : Option ι) : Prop where
  current : ∀ t, current = t ↔ own t = .running c
  moving : ∀ t, moving = some t ↔ own t = .moving c
  hand : ∀ t, hand = some t ↔ own t = .hand c

structure State.CpuOk (s : State ι κ ν χ n) (own : ι → Place n) (c : Cpu n) : Prop extends
    Seats own c (s.current c) (s.moving c) (s.pc c).hand,
    (s.pc c).Suits (s.state (s.current c)) (s.current c = s.idle c) where
  idle : own (s.idle c) = .idle ∨ own (s.idle c) = .running c ∨
    own (s.idle c) = .hand c ∧ (s.pc c).places = none
  switching : ∀ t, s.moving c = some t → (s.pc c).switching = true
  sched : s.schedLock = some c ↔ s.holdsSched c = true
  rqLock : s.rqLock c = if (s.pc c).queue then some c else none
  left : ∀ t, s.left c = some t → s.Leaving own c t
  bound : s.affinity (s.idle c) = some c

/-- The state of a task in this place; that of one that runs depends on its CPU. -/
def State.Fits (s : State ι κ ν χ n) (st : TaskState) : Place n → Prop
  | .absent => st = .ready ∨ st = .zombie
  | .idle | .queued _ | .moving _ => st = .ready
  | .asleep => st.Away
  | .running _ => True
  | .hand c => if (s.pc c).wakes then st = .blocked ∨ st = .stopped else st = .ready

structure State.TaskOk (s : State ι κ ν χ n) (own : ι → Place n) (t : ι) : Prop where
  queued : ∀ c, s.rq.queuedOn t = some c ↔ own t = .queued c
  idle : own t = .idle → ∃ c, s.idle c = t
  tasks : t ∈ s.tasks ↔ own t ≠ .absent ∧ ∀ c, s.idle c ≠ t
  state : s.Fits (s.state t) (own t)
  sleeping : s.sleepingOn t ≠ none →
    s.state t = .blocked ∧ (own t = .asleep ∨ ∃ c, own t = .running c)

structure State.Timed (s : State ι κ ν χ n) : Prop where
  mem : ∀ c t, t ∈ s.sleepers c → s.sleepingOn t = some c
  nodup : ∀ c, (s.sleepers c).Nodup

structure State.Owned (s : State ι κ ν χ n) (own : ι → Place n) : Prop where
  cpu : ∀ c, s.CpuOk own c
  task : ∀ t, s.TaskOk own t
  lists : ∃ lists, s.rq.Holds lists
  timed : s.Timed
  nodup : s.tasks.Nodup
  idle_injective : Function.Injective s.idle

namespace State

variable {s s' : State ι κ ν χ n} {own own' : ι → Place n} {c d : Cpu n} {t : ι}

theorem CpuOk.own_current (h : s.CpuOk own c) : own (s.current c) = .running c :=
  (h.current _).1 rfl

namespace Owned

theorem current_inj (h : s.Owned own) (hcd : s.current c = s.current d) : c = d := by
  have h1 := (h.cpu d).own_current
  rw [← hcd, (h.cpu c).own_current] at h1
  exact Place.running.inj h1

theorem sched_unique (h : s.Owned own) (hc : s.holdsSched c = true) (hd : s.holdsSched d = true) :
    c = d :=
  Option.some.inj ((((h.cpu c).sched).2 hc).symm.trans (((h.cpu d).sched).2 hd))

theorem ne_absent (h : s.Owned own) (hst : s.state t = .blocked ∨ s.state t = .stopped) :
    own t ≠ .absent := by
  intro hot
  have hfits := (h.task t).state
  rw [hot] at hfits
  rcases hfits with h1 | h1 <;> rcases hst with h0 | h0 <;> cases h0.symm.trans h1

/-- Whoever holds the scheduler lock and sees a task that may not run sees one that has left its
CPU. -/
theorem asleep_of_away (h : s.Owned own) (hs : s.holdsSched c = true) (hh : (s.pc c).hand = none)
    (ht : t ≠ s.current c) (ho : own t ≠ .absent) (hst : (s.state t).Away) : own t = .asleep := by
  have hfits := (h.task t).state
  have hready : s.state t ≠ .ready := by
    rcases hst with h0 | h0 | h0 <;> rw [h0] <;> decide
  cases hot : own t with
  | asleep => rfl
  | idle | queued d | moving d =>
    rw [hot] at hfits
    exact absurd hfits hready
  | absent => exact absurd hot ho
  | running d =>
    -- the state of a task that runs is set under the scheduler lock only
    obtain rfl := ((h.cpu d).current t).2 hot
    cases haw : (s.pc d).away with
    | false =>
      rw [(h.cpu d).running haw] at hst
      rcases hst with h0 | h0 | h0 <;> cases h0
    | true =>
      have hd : s.holdsSched d = true := by
        rw [holdsSched, Pc.switching_of_away haw]
        exact Pc.sched_of_away haw
      exact absurd (congrArg s.current (h.sched_unique hd hs)) ht
  | hand d =>
    rw [hot, Fits] at hfits
    cases hw : (s.pc d).wakes with
    | false =>
      rw [hw] at hfits
      exact absurd hfits hready
    | true =>
      have hd : s.holdsSched d = true := by
        rw [holdsSched, Pc.switching_of_wakes hw]
        exact Pc.sched_of_wakes hw
      have hht := ((h.cpu d).hand t).2 hot
      rw [h.sched_unique hd hs, hh] at hht
      cases hht

end Owned

theorem TaskOk.awake (h : s.TaskOk own t) (h1 : own t ≠ .asleep) (h2 : ∀ c, own t ≠ .running c) :
    s.sleepingOn t = none := by
  by_contra h0
  rcases (h.sleeping h0).2 with h3 | ⟨c, h3⟩
  · exact h1 h3
  · exact h2 c h3

theorem TaskOk.moved (h : s.TaskOk own t) {q : Place n} (ho : own' t = q) (hi : s'.idle = s.idle)
    (ht : t ∈ s'.tasks ↔ t ∈ s.tasks) (h1 : own t ≠ .absent) (h2 : q ≠ .absent)
    (h3 : q = .idle → ∃ c, s.idle c = t) (hq : ∀ c, s'.rq.queuedOn t = some c ↔ q = .queued c)
    (hst : s'.Fits (s'.state t) q)
    (hs : s'.sleepingOn t ≠ none → s'.state t = .blocked ∧ (q = .asleep ∨ ∃ c, q = .running c)) :
    s'.TaskOk own' t := by
  subst ho
  refine ⟨hq, hi ▸ h3, ?_, hst, hs⟩
  rw [ht, h.tasks, hi]
  exact ⟨fun h0 => ⟨h2, h0.2⟩, fun h0 => ⟨h1, h0.2⟩⟩

/-! ### The step of a CPU leaves the others alone -/

/-- The step does nothing to the task. -/
structure Kept (s s' : State ι κ ν χ n) (t : ι) : Prop where
  state : s'.state t = s.state t
  queued : s'.rq.queuedOn t = s.rq.queuedOn t
  tasks : t ∈ s'.tasks ↔ t ∈ s.tasks
  sleeping : s'.sleepingOn t = s.sleepingOn t

theorem TaskOk.keep (h : s.TaskOk own t) (hk : s.Kept s' t) (ho : own' t = own t)
    (hi : s'.idle = s.idle) (hh : ∀ d, own t = .hand d → (s'.pc d).wakes = (s.pc d).wakes) :
    s'.TaskOk own' t := by
  refine ⟨?_, ?_, ?_, ?_, ?_⟩
  · rw [hk.queued, ho]
    exact h.queued
  · rw [ho, hi]
    exact h.idle
  · rw [hk.tasks, ho, hi]
    exact h.tasks
  · have hf := h.state
    rw [ho, hk.state]
    cases hot : own t with
    | hand d =>
      rw [hot] at hf
      rw [Fits, hh d hot]
      exact hf
    | _ => rw [hot] at hf; exact hf
  · rw [hk.sleeping, hk.state, ho]
    exact h.sleeping

/-- A CPU's part of the state. -/
def view (s : State ι κ ν χ n) (d : Cpu n) :=
  (s.pc d, s.current d, s.moving d, s.releaseSched d, s.rqLock d, s.left d)

/-- A step of the CPU `c`, as the other CPUs see it. -/
structure Apart (s s' : State ι κ ν χ n) (c : Cpu n) : Prop where
  view : ∀ d, d ≠ c → s'.view d = s.view d
  schedLock : ∀ d, d ≠ c → (s'.schedLock = some d ↔ s.schedLock = some d)
  idle : s'.idle = s.idle
  bound : ∀ d, s'.affinity (s.idle d) = s.affinity (s.idle d)

/-- A step of the CPU `c` that moves the tasks of `M` and does nothing to the others. -/
theorem Owned.of_step (h : s.Owned own) (hs : s.Apart s' c) (M : ι → Prop)
    (hkept : ∀ t, ¬ M t → own' t = own t ∧ s.Kept s' t ∧
      (own t = .hand c → (s'.pc c).wakes = (s.pc c).wakes))
    (hmoved : ∀ t, M t → ((own t).Near c ∧ (own' t).Near c) ∧
      (∀ d, d ≠ c → s.left d ≠ some t ∧ s.idle d ≠ t) ∧ s'.TaskOk own' t)
    (hc : s'.CpuOk own' c) (hl : ∃ lists, s'.rq.Holds lists) (ht : s'.Timed)
    (hn : s'.tasks.Nodup) : s'.Owned own' := by
  have hview (d : Cpu n) (hd : d ≠ c) := hs.view d hd
  simp only [view, Prod.mk.injEq] at hview
  refine ⟨fun d => ?_, fun t => ?_, hl, ht, hn, hs.idle ▸ h.idle_injective⟩
  · by_cases hd : d = c
    · exact hd ▸ hc
    have hk := h.cpu d
    obtain ⟨hpc, hcur, hmov, hrel, hrq, hleft⟩ := hview d hd
    have hnear (t : ι) (p : Place n) (hp : ¬ p.Near c) : own' t = p ↔ own t = p := by
      by_cases hm : M t
      · obtain ⟨⟨h0, h1⟩, -⟩ := hmoved t hm
        exact iff_of_false (fun h2 => hp (h2 ▸ h1)) fun h2 => hp (h2 ▸ h0)
      · rw [(hkept t hm).1]
    have hstate : s'.state (s.current d) = s.state (s.current d) := by
      refine (hkept _ fun hm => hd ?_).2.1.state
      have h0 := (hmoved _ hm).1.1
      rwa [hk.own_current] at h0
    have hsched : s'.holdsSched d = s.holdsSched d := by rw [holdsSched, holdsSched, hpc, hrel]
    refine ⟨⟨fun t => ?_, fun t => ?_, fun t => ?_⟩, ?_, ?_, ?_, ?_, ?_, fun t h0 => ?_, ?_⟩
    · rw [hcur, hnear t (.running d) hd, hk.current]
    · rw [hmov, hnear t (.moving d) hd, hk.moving]
    · rw [hpc, hnear t (.hand d) hd, hk.hand]
    · rw [hpc, hcur, hstate, hs.idle]
      exact hk.toSuits
    · rw [hs.idle, (hkept _ fun hm => ((hmoved _ hm).2.1 d hd).2 rfl).1, hpc]
      exact hk.idle
    · rw [hmov, hpc]
      exact hk.switching
    · rw [hs.schedLock d hd, hsched]
      exact hk.sched
    · rw [hrq, hpc]
      exact hk.rqLock
    · rw [hleft] at h0
      rw [Leaving, hpc, hsched, hs.idle, (hkept t fun hm => ((hmoved t hm).2.1 d hd).1 h0).1]
      exact hk.left t h0
    · rw [hs.idle, hs.bound d]
      exact hk.bound
  · by_cases hm : M t
    · exact (hmoved t hm).2.2
    · obtain ⟨h1, h2, h3⟩ := hkept t hm
      refine (h.task t).keep h2 h1 hs.idle fun d h0 => ?_
      by_cases hd : d = c
      · exact hd ▸ h3 (hd ▸ h0)
      · rw [(hview d hd).1]

theorem CpuOk.left_eq_none (h : s.CpuOk own c) (hu : (s.pc c).unfinished = false) :
    s.left c = none := by
  cases hl : s.left c with
  | none => rfl
  | some t => cases hu.symm.trans (h.left t hl).1

theorem CpuOk.moving_eq_none (h : s.CpuOk own c) (hu : (s.pc c).switching = false) :
    s.moving c = none := by
  cases hm : s.moving c with
  | none => rfl
  | some t => cases hu.symm.trans (h.switching t hm)

theorem Owned.ne_current (h : s.Owned own) (ht : own t ≠ .running c) : t ≠ s.current c := by
  rintro rfl
  exact ht (h.cpu c).own_current

theorem Owned.idle_ne (h : s.Owned own) (ht : (own t).Loose ∨ own t = .moving c) :
    ∀ d, s.idle d ≠ t := by
  rintro d rfl
  rcases (h.cpu d).idle with h0 | h0 | ⟨h0, -⟩ <;> rw [h0] at ht <;> rcases ht with ht | ht <;> cases ht

theorem Owned.idle_ne_of_near (h : s.Owned own) (ht : own t = .running c ∨ own t = .hand c)
    (hd : d ≠ c) : s.idle d ≠ t := by
  rintro rfl
  rcases (h.cpu d).idle with h0 | h0 | ⟨h0, -⟩ <;> simp [h0, hd] at ht

theorem Owned.queuedOn_eq_none (h : s.Owned own) (ht : ∀ d, own t ≠ .queued d) :
    s.rq.queuedOn t = none := by
  cases hq : s.rq.queuedOn t with
  | none => rfl
  | some d => exact absurd (((h.task t).queued d).1 hq) (ht d)

theorem Owned.left_ne (h : s.Owned own) (ht : (∃ e, own t = .hand e) ∨ (∃ e, own t = .running e) ∨
    own t = .absent) (d : Cpu n) : s.left d ≠ some t := by
  intro hl
  obtain ⟨-, h0⟩ := (h.cpu d).left t hl
  rcases ht with ⟨e, ht⟩ | ⟨e, ht⟩ | ht <;> rw [ht] at h0 <;> split at h0 <;>
    simp at h0

theorem Owned.left_ne_of_asleep (h : s.Owned own) (hs : s.holdsSched c = true)
    (hu : (s.pc c).unfinished = false) (ht : own t = .asleep) (d : Cpu n) : s.left d ≠ some t := by
  intro hl
  obtain ⟨h1, h0⟩ := (h.cpu d).left t hl
  cases hd : s.holdsSched d with
  | true =>
    rw [h.sched_unique hd hs, hu] at h1
    cases h1
  | false =>
    rw [hd, ht] at h0
    simp at h0

/-- A task in a queue is one its CPU has finished switching away from, unless the lock is held for
the switch. -/
theorem Owned.left_ne_of_queued (h : s.Owned own) {e : Cpu n} (ht : own t = .queued e)
    (he : s.rqLock e = none ∨ (s.pc e).unfinished = false) (d : Cpu n) : s.left d ≠ some t := by
  intro hl
  obtain ⟨h1, h0⟩ := (h.cpu d).left t hl
  cases hd : s.holdsSched d with
  | true =>
    rw [hd, ht] at h0
    simp at h0
  | false =>
    rw [hd, ht] at h0
    have hed : e = d := by simpa using h0
    subst hed
    rcases he with he | he
    · -- during the switch the queue's lock is held
      have hq : (s.pc e).queue = true := by
        revert h1 hd
        rw [holdsSched]
        cases s.pc e <;> simp [Pc.unfinished, Pc.switching, Pc.sched, Pc.queue]
      rw [(h.cpu e).rqLock, hq] at he
      cases he
    · cases he.symm.trans h1

/-! ### Steps outside the switch -/

/-- How `c` handles a lock in a step from a place where it has it, or not, to another. -/
inductive LockStep {α : Type*} (c : α) (had has : Bool) (l l' : Option α) : Prop
  | keeps (h : l' = l) (hb : has = had)
  | takes (h : l = none) (h' : l' = some c) (hb : has = true)
  | drops (hb : had = true) (h' : l' = none) (hb' : has = false)

section LockStep

variable {α : Type*} {x y : α} {had has : Bool} {l l' : Option α}

theorem LockStep.holds (h : LockStep x had has l l') (hl : l = some x ↔ had = true) :
    l' = some x ↔ has = true := by
  cases h with
  | keeps h hb => rw [h, hb, hl]
  | takes _ h' hb | drops _ h' hb => simp [h', hb]

theorem LockStep.other (h : LockStep x had has l l') (hl : l = some x ↔ had = true) (hne : y ≠ x) :
    l' = some y ↔ l = some y := by
  cases h with
  | keeps h _ => rw [h]
  | takes h h' _ => simp [h, h', hne.symm]
  | drops hb h' _ => simp [h', hl.2 hb, hne.symm]

theorem LockStep.free (h : LockStep x had true l l') (hl : l = some x ↔ had = true) (hne : y ≠ x) :
    l ≠ some y := by
  cases h with
  | keeps _ hb => simp [hl.2 hb.symm, hne.symm]
  | takes h => simp [h]
  | drops _ _ hb => cases hb

theorem LockStep.mine (h : LockStep x had has l l') (hl : l = if had then some x else none) :
    l' = if has then some x else none := by
  cases h with
  | keeps h hb => rw [h, hb, hl]
  | takes _ h' hb | drops _ h' hb => simp [h', hb]

end LockStep

/-- The fields of the CPUs that a step outside the switch leaves alone. -/
def fields (s : State ι κ ν χ n) := (s.current, s.idle, s.moving, s.releaseSched, s.left)

/-- A step of the CPU outside the switch, from the place `p` in the code to `p'`. -/
structure Turn (s s' : State ι κ ν χ n) (c : Cpu n) (p p' : Pc ι κ ν χ n) : Prop where
  before : s.pc c = p
  pc : s'.pc = update s.pc c p' := by exact rfl
  fields : s'.fields = s.fields := by exact rfl
  bound : ∀ d, s'.affinity (s.idle d) = s.affinity (s.idle d) := by exact fun _ => rfl
  done : p.unfinished = false := by exact rfl
  done' : p'.unfinished = false := by exact rfl
  sched : LockStep c p.sched p'.sched s.schedLock s'.schedLock := by exact .keeps rfl rfl
  queue : LockStep c p.queue p'.queue (s.rqLock c) (s'.rqLock c) := by exact .keeps rfl rfl
  queues : ∀ d, d ≠ c → s'.rqLock d = s.rqLock d := by exact fun _ _ => rfl

variable {p p' : Pc ι κ ν χ n} {q : Place n}

theorem CpuOk.sched_iff (h : s.CpuOk own c) (hpc : s.pc c = p) (hu : p.unfinished = false) :
    s.schedLock = some c ↔ p.sched = true := by
  have h0 := h.sched
  rwa [holdsSched, hpc, Pc.switching_of_unfinished hu] at h0

theorem Turn.apart (hs : s.Turn s' c p p') (h : s.CpuOk own c) : s.Apart s' c := by
  have hf := hs.fields
  simp only [State.fields, Prod.mk.injEq] at hf
  obtain ⟨h1, h2, h3, h4, h5⟩ := hf
  refine ⟨fun d hd => ?_, fun d => hs.sched.other (h.sched_iff hs.before hs.done), h2, hs.bound⟩
  rw [view, view, hs.pc, update_of_ne hd, h1, h3, h4, h5, hs.queues d hd]

/-- The CPU's own part. -/
theorem Turn.cpu (hs : s.Turn s' c p p') (h : s.CpuOk own c)
    (hcur : ∀ t, own' t = .running c ↔ own t = .running c)
    (hmov : ∀ t, own' t = .moving c ↔ own t = .moving c)
    (hhand : ∀ t, p'.hand = some t ↔ own' t = .hand c)
    (hsuits : p'.Suits (s'.state (s.current c)) (s.current c = s.idle c))
    (hidle : own' (s.idle c) = .idle ∨ own' (s.idle c) = .running c ∨
      own' (s.idle c) = .hand c ∧ p'.places = none) : s'.CpuOk own' c := by
  have hf := hs.fields
  simp only [State.fields, Prod.mk.injEq] at hf
  obtain ⟨h1, h2, h3, -, h5⟩ := hf
  have hpc : s'.pc c = p' := by rw [hs.pc, update_self]
  have hu := hs.done
  rw [← hs.before] at hu
  refine ⟨⟨fun t => ?_, fun t => ?_, ?_⟩, ?_, ?_, fun t ht => ?_, ?_, ?_, fun t ht => ?_, ?_⟩
  · rw [h1, hcur, h.current]
  · rw [h3, hmov, h.moving]
  · rw [hpc]
    exact hhand
  · rw [hpc, h1, h2]
    exact hsuits
  · rw [hpc, h2]
    exact hidle
  · rw [h3, h.moving_eq_none (Pc.switching_of_unfinished hu)] at ht
    cases ht
  · rw [holdsSched, hpc, Pc.switching_of_unfinished hs.done']
    exact hs.sched.holds (h.sched_iff hs.before hs.done)
  · rw [hpc]
    exact hs.queue.mine (hs.before ▸ h.rqLock)
  · rw [h5, h.left_eq_none hu] at ht
    cases ht
  · rw [h2, hs.bound c]
    exact h.bound

/-- A step outside the switch that changes the state of the current task, if any. -/
theorem Owned.quiet (h : s.Owned own) (hs : s.Turn s' c p p') (hhand : p'.hand = p.hand)
    (hplaces : p'.places = p.places) (hwakes : p'.wakes = p.wakes)
    (hsuits : p'.Suits (s'.state (s.current c)) (s.current c = s.idle c))
    (hstate : ∀ u, u ≠ s.current c → s'.state u = s.state u) (hrq : s'.rq = s.rq)
    (htasks : s'.tasks = s.tasks) (ht : s'.Timed)
    (hon : ∀ u, u ≠ s.current c → s'.sleepingOn u = s.sleepingOn u)
    (hself : s'.sleepingOn (s.current c) ≠ none → s'.state (s.current c) = .blocked) :
    s'.Owned own := by
  have hc := h.cpu c
  have ho := hc.own_current
  have hap := hs.apart hc
  refine h.of_step hap (· = s.current c) (fun u hu => ⟨rfl, ⟨hstate u hu, by rw [hrq], by rw [htasks],
    hon u hu⟩, fun _ => ?_⟩) ?_ (hs.cpu hc (fun _ => Iff.rfl) (fun _ => Iff.rfl) ?_ hsuits ?_)
    (hrq ▸ h.lists) ht (htasks ▸ h.nodup)
  · rw [hs.pc, update_self, hwakes, hs.before]
  · rintro u rfl
    have htk := h.task (s.current c)
    refine ⟨by rw [ho]; exact ⟨rfl, rfl⟩, fun d hd => ⟨h.left_ne (.inr (.inl ⟨c, ho⟩)) d,
      h.idle_ne_of_near (.inl ho) hd⟩, hrq ▸ htk.queued, ?_, by rw [htasks, hap.idle]; exact htk.tasks,
      by rw [ho]; trivial, fun h0 => ⟨hself h0, .inr ⟨c, ho⟩⟩⟩
    rw [ho]
    nofun
  · rw [hhand, ← hs.before]
    exact hc.hand
  · rw [hplaces, ← hs.before]
    exact hc.idle

variable [DecidableEq ι]

/-- A step outside the switch that moves the task `t`, to or from the CPU's hands. -/
theorem Owned.move (h : s.Owned own) (p' : Pc ι κ ν χ n) (hs : s.Turn s' c p p')
    (hfrom : (own t).Near c) (hto : q.Near c)
    (hrun : own t ≠ .running c ∧ q ≠ .running c) (hmov : own t ≠ .moving c ∧ q ≠ .moving c)
    (hhand : ∀ u, p'.hand = some u ↔ update own t q u = .hand c)
    (hone : own t = .hand c ∨ p.hand = none)
    (hidle : ∀ d, s.idle d = t → d = c ∧ q = .hand c ∧ p'.places = none)
    (hleft : ∀ d, s.left d ≠ some t) (haway : p'.away = p.away)
    (hleaving : p'.leaving = true → p.leaving = true) (hsleeps : p'.sleeps = false)
    (hkept : ∀ u, u ≠ t → s.Kept s' u) (hlists : ∃ lists, s'.rq.Holds lists) (hnd : s'.tasks.Nodup)
    (ht : s'.Timed) (htask : s'.TaskOk (update own t q) t) : s'.Owned (update own t q) := by
  have hc := h.cpu c
  have hother (u : ι) (hut : u ≠ t) : update own t q u = own u := update_of_ne hut _ _
  -- the CPU has one task in its hands at most
  have hno (u : ι) (hut : u ≠ t) : own u ≠ .hand c := by
    rw [ne_eq, ← hc.hand u]
    rcases hone with h0 | h0
    · rw [(hc.hand t).2 h0]
      exact fun h1 => hut (Option.some.inj h1).symm
    · rw [hs.before, h0]
      nofun
  have hiff (r : Place n) (h1 : own t ≠ r) (h2 : q ≠ r) (u : ι) : update own t q u = r ↔ own u = r := by
    by_cases hut : u = t
    · rw [hut, update_self]
      exact iff_of_false h2 h1
    · rw [hother u hut]
  refine h.of_step (hs.apart hc) (· = t)
    (fun u hu => ⟨hother u hu, hkept u hu, fun h0 => absurd h0 (hno u hu)⟩) ?_
    (hs.cpu hc (hiff _ hrun.1 hrun.2) (hiff _ hmov.1 hmov.2) hhand ?_ ?_) hlists ht hnd
  · rintro u rfl
    rw [update_self]
    exact ⟨⟨hfrom, hto⟩, fun d hd => ⟨hleft d, fun h0 => hd (hidle d h0).1⟩, htask⟩
  · rw [(hkept _ (h.ne_current hrun.1).symm).state]
    refine (hs.before ▸ hc.toSuits).onward haway hleaving fun h0 => ?_
    cases hsleeps.symm.trans h0
  · by_cases hut : s.idle c = t
    · rw [hut, update_self]
      exact .inr (.inr (hidle c hut).2)
    · rw [hother _ hut]
      exact hc.idle.imp_right (·.imp_right fun h0 => absurd h0.1 (hno _ hut))

theorem Owned.grab (h : s.Owned own) (p' : Pc ι κ ν χ n) (hs : s.Turn s' c p p')
    (hnone : p.hand = none) (hhand : p'.hand = some t)
    (hfrom : (own t).Loose ∨ own t = .idle ∧ t = s.idle c ∧ p'.places = none)
    (hleft : ∀ d, s.left d ≠ some t) (haway : p'.away = p.away)
    (hleaving : p'.leaving = true → p.leaving = true) (hsleeps : p'.sleeps = false)
    (hkept : ∀ u, u ≠ t → s.Kept s' u)
    (hfits : if p'.wakes then s'.state t = .blocked ∨ s'.state t = .stopped else s'.state t = .ready)
    (hq : s'.rq.queuedOn t = none) (hlists : ∃ lists, s'.rq.Holds lists)
    (htask : t ∈ s'.tasks ↔ ∀ d, s.idle d ≠ t) (hnd : s'.tasks.Nodup) (hon : s'.sleepingOn t = none)
    (ht : s'.Timed) : s'.Owned (update own t (.hand c)) := by
  have hc := h.cpu c
  have hnear : (own t).Near c ∧ own t ≠ .running c ∧ own t ≠ .moving c := by
    rcases hfrom with h0 | ⟨h0, -⟩
    · exact h0.apart c
    · rw [h0]
      exact ⟨trivial, nofun, nofun⟩
  refine h.move p' hs hnear.1 rfl ⟨hnear.2.1, nofun⟩ ⟨hnear.2.2, nofun⟩ (fun u => ?_) (.inr hnone)
    (fun d hd => ?_) hleft haway hleaving hsleeps hkept hlists hnd ht
    ⟨fun d => ?_, ?_, ?_, ?_, fun h0 => absurd hon h0⟩
  · rw [hhand]
    by_cases hut : u = t
    · rw [hut, update_self]
      exact iff_of_true rfl rfl
    · rw [update_of_ne hut, ← hc.hand u, hs.before, hnone]
      exact iff_of_false (fun h0 => hut (Option.some.inj h0).symm) nofun
  · rcases hfrom with h1 | ⟨-, rfl, h1⟩
    · exact absurd hd (h.idle_ne (c := c) (.inl h1) d)
    · exact ⟨h.idle_injective hd, rfl, h1⟩
  · rw [hq, update_self]
    exact iff_of_false nofun nofun
  · rw [update_self]
    nofun
  · rw [htask, (hs.apart hc).idle, update_self]
    exact ⟨fun h0 => ⟨nofun, h0⟩, fun h0 => h0.2⟩
  · rw [update_self, Fits, hs.pc, update_self]
    exact hfits

end State

attribute [grind =] Pc.hand Pc.lock Pc.sched Pc.switching Pc.unfinished State.Fits State.Leaving
  State.holdsSched State.view

end Bashket.Sched
