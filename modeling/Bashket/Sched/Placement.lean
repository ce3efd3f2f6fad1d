import Bashket.Sched.OwnershipRuns

/-!
# The tasks are well placed

In every run, at every step: no two CPUs run one task, the queues are as their fields say, a task on
the list is READY exactly when a queue has it, or a CPU on its way to a queue or to running it, and
no CPU runs a task that another has not finished switching away from.
-/

namespace Bashket.Sched

open List
open Function (update)

variable {ι κ ν χ : Type*} {n : ℕ}

/-! ### The start -/

namespace Boot

variable [DecidableEq ι] (b : Boot ι n)

def places (t : ι) : Place n :=
  if t = b.main then .running 0
  else
    match (List.finRange (n + 1)).find? fun c => b.idle c = t with
    | some c => if c = 0 then .idle else .running c
    | none => .absent

theorem find_idle (c : Cpu n) :
    ((List.finRange (n + 1)).find? fun d => b.idle d = b.idle c) = some c := by
  cases hf : (List.finRange (n + 1)).find? fun d => b.idle d = b.idle c with
  | none => simpa using find?_eq_none.1 hf c (mem_finRange c)
  | some d =>
    have hd : b.idle d = b.idle c := by simpa using find?_some hf
    rw [b.idle_injective hd]

theorem places_main : b.places b.main = .running 0 := if_pos rfl

theorem places_idle (c : Cpu n) : b.places (b.idle c) = if c = 0 then .idle else .running c := by
  rw [places, if_neg (b.idle_ne_main c), b.find_idle]

theorem places_other {t : ι} (hm : t ≠ b.main) (hi : ∀ c, b.idle c ≠ t) : b.places t = .absent := by
  rw [places, if_neg hm, find?_eq_none.2 fun c _ => by simpa using hi c]

theorem cases (t : ι) : t = b.main ∨ (∃ c, b.idle c = t) ∨ t ≠ b.main ∧ ∀ c, b.idle c ≠ t := by
  by_cases hm : t = b.main
  · exact .inl hm
  · by_cases hi : ∃ c, b.idle c = t
    · exact .inr (.inl hi)
    · exact .inr (.inr ⟨hm, fun c hc => hi ⟨c, hc⟩⟩)

theorem places_running {t : ι} {c : Cpu n} :
    b.places t = .running c ↔ update b.idle 0 b.main c = t := by
  rcases b.cases t with rfl | ⟨d, rfl⟩ | ⟨hm, hi⟩
  · rw [places_main]
    rcases eq_or_ne c 0 with rfl | hc
    · simp
    · rw [Function.update_of_ne hc]
      simp [hc.symm, b.idle_ne_main]
  · rw [places_idle]
    rcases eq_or_ne c 0 with rfl | hc
    · rw [Function.update_self]
      refine iff_of_false ?_ (b.idle_ne_main d).symm
      split_ifs with hd
      · nofun
      · simpa using hd
    · rw [Function.update_of_ne hc, b.idle_injective.eq_iff]
      split_ifs with hd
      · rw [hd]
        exact iff_of_false nofun hc
      · rw [Place.running.injEq, eq_comm]
  · rw [b.places_other hm hi]
    refine iff_of_false nofun fun h => ?_
    rcases eq_or_ne c 0 with rfl | hc
    · exact hm (by simpa using h.symm)
    · exact hi c (by simpa [hc] using h)

theorem places_cases (t : ι) :
    b.places t = .absent ∨ b.places t = .idle ∨ ∃ c, b.places t = .running c := by
  rcases b.cases t with rfl | ⟨c, rfl⟩ | ⟨hm, hi⟩
  · exact .inr (.inr ⟨0, b.places_main⟩)
  · rw [places_idle]
    split_ifs with hc
    · exact .inr (.inl rfl)
    · exact .inr (.inr ⟨c, rfl⟩)
  · exact .inl (b.places_other hm hi)

theorem places_ne (t : ι) {p : Place n} (h1 : p ≠ .absent) (h2 : p ≠ .idle)
    (h3 : ∀ c, p ≠ .running c) : b.places t ≠ p := by
  rcases b.places_cases t with h | h | ⟨c, h⟩ <;> rw [h]
  · exact h1.symm
  · exact h2.symm
  · exact (h3 c).symm

theorem init_cpuOk (cond : κ → Bool) (c : Cpu n) :
    (b.init cond : State ι κ ν χ n).CpuOk b.places c where
  current _ := b.places_running.symm
  moving t := iff_of_false nofun (b.places_ne t nofun nofun fun _ => nofun)
  hand t := iff_of_false nofun (b.places_ne t nofun nofun fun _ => nofun)
  idle := by
    change b.places (b.idle c) = _ ∨ b.places (b.idle c) = _ ∨ _
    rw [places_idle]
    split_ifs
    · exact .inl rfl
    · exact .inr (.inl rfl)
  running _ := by
    refine if_pos ?_
    rcases eq_or_ne c 0 with rfl | hc
    · exact .inl (by simp [init])
    · exact .inr ⟨c, hc, by simp [init, hc]⟩
  away h := nomatch h
  switching _ h := nomatch h
  sched := iff_of_false nofun nofun
  rqLock := rfl
  left _ h := nomatch h
  leaving h := nomatch h
  sleeps h := nomatch h
  bound := by
    change (if b.idle c = b.main then _ else
      (List.finRange (n + 1)).find? fun d => b.idle d = b.idle c) = some c
    rw [if_neg (b.idle_ne_main c), b.find_idle]

theorem init_taskOk (cond : κ → Bool) (t : ι) :
    (b.init cond : State ι κ ν χ n).TaskOk b.places t where
  queued _ := iff_of_false nofun (b.places_ne t nofun nofun fun _ => nofun)
  idle h := by
    rcases b.cases t with rfl | hi | ⟨hm, hi⟩
    · cases b.places_main.symm.trans h
    · exact hi
    · cases (b.places_other hm hi).symm.trans h
  tasks := by
    change t ∈ [b.main] ↔ _ ∧ ∀ c, b.idle c ≠ t
    rw [mem_singleton]
    rcases b.cases t with rfl | ⟨c, rfl⟩ | ⟨hm, hi⟩
    · rw [places_main]
      exact iff_of_true rfl ⟨nofun, b.idle_ne_main⟩
    · exact iff_of_false (b.idle_ne_main c) fun h => h.2 c rfl
    · exact iff_of_false hm fun h => h.1 (b.places_other hm hi)
  state := by
    change State.Fits _ (if t = b.main ∨ ∃ c, c ≠ 0 ∧ b.idle c = t then _ else _) _
    rcases b.cases t with rfl | ⟨c, rfl⟩ | ⟨hm, hi⟩
    · rw [places_main]
      trivial
    · rw [places_idle]
      rcases eq_or_ne c 0 with rfl | hc
      · rw [if_pos rfl, if_neg]
        · rfl
        · rintro (h0 | ⟨d, hd, h0⟩)
          · exact b.idle_ne_main 0 h0
          · exact hd (b.idle_injective h0)
      · rw [if_neg hc]
        trivial
    · rw [b.places_other hm hi, if_neg]
      · exact .inl rfl
      · rintro (h0 | ⟨d, -, h0⟩)
        · exact hm h0
        · exact hi d h0
  sleeping h := absurd rfl h

theorem init_owned (cond : κ → Bool) : (b.init cond : State ι κ ν χ n).Owned b.places where
  cpu := b.init_cpuOk cond
  task := b.init_taskOk cond
  lists := ⟨fun _ => [], fun _ => rfl, fun _ => rfl, fun _ => rfl, fun _ => nodup_nil,
    fun _ _ => iff_of_false not_mem_nil nofun⟩
  timed := ⟨fun _ _ h => absurd h not_mem_nil, fun _ => nodup_nil⟩
  nodup := nodup_singleton _
  idle_injective := b.idle_injective

variable [DecidableEq κ] [DecidableEq ν] [DecidableEq χ]

theorem always_owned (R : Rule κ ν χ) (cond : κ → Bool) (es : List (Event ι κ ν χ n)) :
    Run.Always (State.step R) (fun s => ∃ own, s.Owned own) (b.init cond) es := by
  refine Run.always_of_induction (P := fun _ _ => True) ?_ ⟨_, b.init_owned cond⟩
    (Run.Along.of_forall fun _ _ => trivial)
  rintro s e ⟨own, h⟩ -
  exact h.step e

end Boot

/-! ### What the places mean -/

namespace State

/-- The task is in the CPU's queue: it is met on the way from its head. -/
def InQueue (s : State ι κ ν χ n) (c : Cpu n) (t : ι) : Prop :=
  ∃ l, Chain.Path s.rq.runNext (s.rq.head c) l ∧ t ∈ l

/-- It has taken it out of a queue, has just made it, or had put it aside, and is about to switch to
it or to put it in a queue. -/
def Carries (s : State ι κ ν χ n) (c : Cpu n) (t : ι) : Prop :=
  (s.pc c).hand = some t ∧ (s.pc c).wakes = false

/-- A task on the list is READY exactly when it is in a queue or put aside. -/
def ReadyIffQueued (s : State ι κ ν χ n) : Prop :=
  ∀ t ∈ s.tasks, s.state t = .ready ↔ (∃ c, s.InQueue c t) ∨ ∃ c, s.moving c = some t

structure WellPlaced (s : State ι κ ν χ n) : Prop where
  current : ∀ c d, s.current c = s.current d → c = d
  queue : ∀ c d t, s.InQueue c t → s.InQueue d t → c = d
  currentQueue : ∀ c d, ¬ s.InQueue d (s.current c)
  queuedOn : ∀ c t, s.InQueue c t ↔ s.rq.queuedOn t = some c
  ready : ∀ t ∈ s.tasks, s.state t = .ready ↔
    (∃ c, s.InQueue c t) ∨ (∃ c, s.moving c = some t) ∨ ∃ c, s.Carries c t
  count : ∀ c, ∃ l, Chain.Path s.rq.runNext (s.rq.head c) l ∧ l.Nodup ∧ s.rq.count c = l.length
  switched : ∀ c d, s.left d ≠ some (s.current c)

variable {s : State ι κ ν χ n} {own : ι → Place n}

theorem Owned.inQueue_iff (h : s.Owned own) (c : Cpu n) (t : ι) :
    s.InQueue c t ↔ own t = .queued c := by
  obtain ⟨lists, hl⟩ := h.lists
  rw [← (h.task t).queued, ← hl.queued]
  constructor
  · rintro ⟨l, hp, ht⟩
    rwa [(hl.path c).unique hp]
  · exact fun ht => ⟨_, hl.path c, ht⟩

theorem Owned.ready_iff (h : s.Owned own) {t : ι} (ht : t ∈ s.tasks) :
    s.state t = .ready ↔
      (∃ c, own t = .queued c) ∨ (∃ c, own t = .moving c) ∨
        ∃ c, own t = .hand c ∧ (s.pc c).wakes = false := by
  have hfits := (h.task t).state
  obtain ⟨hab, hid⟩ := (h.task t).tasks.1 ht
  cases hot : own t with
  | absent => exact absurd hot hab
  | idle =>
    obtain ⟨c, hc⟩ := (h.task t).idle hot
    exact absurd hc (hid c)
  | asleep =>
    rw [hot] at hfits
    refine iff_of_false (fun h0 => ?_) (by simp)
    rcases hfits with h1 | h1 | h1 <;> cases h0.symm.trans h1
  | running c =>
    obtain rfl := ((h.cpu c).current t).2 hot
    refine iff_of_false (fun h0 => ?_) (by simp)
    cases haw : (s.pc c).away with
    | false => cases h0.symm.trans ((h.cpu c).running haw)
    | true => rcases ((h.cpu c).away haw).1 with h1 | h1 | h1 <;> cases h0.symm.trans h1
  | queued c =>
    rw [hot] at hfits
    exact iff_of_true hfits (.inl ⟨c, rfl⟩)
  | moving c =>
    rw [hot] at hfits
    exact iff_of_true hfits (.inr (.inl ⟨c, rfl⟩))
  | hand c =>
    rw [hot, Fits] at hfits
    cases hw : (s.pc c).wakes with
    | false =>
      rw [hw] at hfits
      exact iff_of_true hfits (.inr (.inr ⟨c, rfl, hw⟩))
    | true =>
      rw [hw] at hfits
      refine iff_of_false (fun h0 => ?_) (by simp [hw])
      rcases hfits with h1 | h1 <;> cases h0.symm.trans h1

theorem Owned.wellPlaced (h : s.Owned own) : s.WellPlaced where
  current c d hcd := h.current_inj hcd
  queue c d t hc hd :=
    Place.queued.inj (((h.inQueue_iff c t).1 hc).symm.trans ((h.inQueue_iff d t).1 hd))
  currentQueue c d hq := by
    cases ((h.inQueue_iff d _).1 hq).symm.trans (h.cpu c).own_current
  queuedOn c t := (h.inQueue_iff c t).trans ((h.task t).queued c).symm
  ready t ht := by
    rw [h.ready_iff ht]
    refine or_congr (exists_congr fun c => (h.inQueue_iff c t).symm) (or_congr ?_ ?_)
    · exact exists_congr fun c => ((h.cpu c).moving t).symm
    · exact exists_congr fun c => and_congr_left' ((h.cpu c).hand t).symm
  count c := by
    obtain ⟨lists, hl⟩ := h.lists
    exact ⟨lists c, hl.path c, hl.nodup c, hl.count c⟩
  switched c d hd := by
    obtain ⟨-, h0⟩ := (h.cpu d).left _ hd
    rw [(h.cpu c).own_current] at h0
    split at h0
    · cases h0
    · rcases h0 with h0 | h0 | ⟨-, h0⟩ <;> cases h0

/-- Who is not BLOCKED, stopped or dead runs, is in a queue, or is put aside or carried by a CPU;
sleepers with a deadline are BLOCKED, on one list and in no queue; idle tasks stay on their CPU; and
one CPU at a time holds the scheduler lock. -/
structure Accounted (s : State ι κ ν χ n) : Prop where
  tasks : ∀ t ∈ s.tasks, (s.state t).Away ∨
    ∃ c, s.current c = t ∨ s.InQueue c t ∨ s.moving c = some t ∨ (s.pc c).hand = some t
  sleepers : ∀ c, ∀ t ∈ s.sleepers c, s.state t = .blocked ∧
    ∀ d, ¬ s.InQueue d t ∧ (t ∈ s.sleepers d → d = c)
  idle : ∀ c d, ¬ s.InQueue d (s.idle c) ∧ (s.current d = s.idle c → d = c)
  lock : ∀ c d, s.holdsSched c = true → s.holdsSched d = true → c = d

theorem Owned.accounted (h : s.Owned own) : s.Accounted where
  tasks t ht := by
    have hfits := (h.task t).state
    obtain ⟨hab, hid⟩ := (h.task t).tasks.1 ht
    cases hot : own t with
    | absent => exact absurd hot hab
    | idle =>
      obtain ⟨c, hc⟩ := (h.task t).idle hot
      exact absurd hc (hid c)
    | asleep => exact .inl (by rwa [hot] at hfits)
    | running c => exact .inr ⟨c, .inl (((h.cpu c).current t).2 hot)⟩
    | queued c => exact .inr ⟨c, .inr (.inl ((h.inQueue_iff c t).2 hot))⟩
    | moving c => exact .inr ⟨c, .inr (.inr (.inl (((h.cpu c).moving t).2 hot)))⟩
    | hand c => exact .inr ⟨c, .inr (.inr (.inr (((h.cpu c).hand t).2 hot)))⟩
  sleepers c t ht := by
    have hon := h.timed.mem c t ht
    obtain ⟨hb, hplace⟩ := (h.task t).sleeping (by simp [hon])
    refine ⟨hb, fun d => ⟨fun hq => ?_, fun hd => ?_⟩⟩
    · rw [h.inQueue_iff] at hq
      simp [hq] at hplace
    · exact Option.some.inj ((h.timed.mem d t hd).symm.trans hon)
  idle c d := by
    constructor
    · intro hq
      rw [h.inQueue_iff] at hq
      simpa [hq] using (h.cpu c).idle
    · intro hd
      have hrun := ((h.cpu d).current _).1 hd
      simpa [hrun] using (h.cpu c).idle
  lock c d := h.sched_unique

end State

variable [DecidableEq ι] [DecidableEq κ] [DecidableEq ν] [DecidableEq χ]

theorem always_wellPlaced (R : Rule κ ν χ) (b : Boot ι n) (cond : κ → Bool)
    (es : List (Event ι κ ν χ n)) :
    Run.Always (State.step R) State.WellPlaced (b.init cond) es :=
  (b.always_owned R cond es).mono fun _ ⟨_, h⟩ => h.wellPlaced

theorem always_accounted (R : Rule κ ν χ) (b : Boot ι n) (cond : κ → Bool)
    (es : List (Event ι κ ν χ n)) :
    Run.Always (State.step R) State.Accounted (b.init cond) es :=
  (b.always_owned R cond es).mono fun _ ⟨_, h⟩ => h.accounted

/-! ### A task that is carried -/

def twoCpus : Boot (Fin 3) 1 where
  main := 0
  idle c := if c = 0 then 1 else 2
  idle_injective := by decide
  idle_ne_main := by decide

/-- The task on CPU 0 binds itself to CPU 1 and yields: CPU 0 puts it aside, switches to its idle
task and releases its queue's lock, before it puts the task in the queue of CPU 1. -/
def bindToOther : List (Event (Fin 3) Empty Empty Empty 1) :=
  let go : Act (Fin 3) Empty Empty Empty 1 := .go ⟨fun _ => 0, fun _ => 0, 0⟩
  [(1, .join), (0, .lockSched), (0, .setAffinity 0 (some 1)), (0, go), (0, .unlockSched),
    (0, .schedYield), (0, go), (0, go), (0, go), (0, go), (0, go)]

/-- The task is then READY, and neither in a queue nor put aside; nobody holds a lock. -/
theorem not_readyIffQueued_bindToOther :
    let s := Run.run (State.step ⟨nofun, nofun⟩) (twoCpus.init nofun) bindToOther
    s.schedLock = none ∧ (∀ c, s.rqLock c = none) ∧ s.Carries 0 0 ∧ ¬ s.ReadyIffQueued := by
  intro s
  refine ⟨by decide +kernel, by decide +kernel, ⟨by decide +kernel, by decide +kernel⟩, fun h => ?_⟩
  have hempty (c : Cpu 1) : s.rq.head c = none := by revert c; decide +kernel
  have hmoving (c : Cpu 1) : s.moving c = none := by revert c; decide +kernel
  rcases (h 0 (by decide +kernel)).1 (by decide +kernel) with ⟨c, l, hp, hl⟩ | ⟨c, hc⟩
  · rw [hempty c] at hp
    cases l with
    | nil => cases hl
    | cons x l => cases hp.1
  · rw [hmoving c] at hc
    cases hc

end Bashket.Sched
