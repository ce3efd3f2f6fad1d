import Bashket.Sched.Switch

/-!
# What a step does

A step of a CPU is one of few: it goes on in the code, takes or puts a task, falls asleep, wakes
somebody, changes a condition. `Acts` has a case for each, with what the invariants of the scheduler
need of it, and `step_acts` says that every step is one of them.
-/

namespace Bashket.Sched

open Function (update update_eq_self update_of_ne update_self)

variable {ι κ ν χ : Type*} {n : ℕ}

/-- What a place in the code says of the CPU's tasks. -/
def Pc.face (p : Pc ι κ ν χ n) :=
  (p.hand, p.places, p.wakes, p.away, p.leaving, p.rebinds, p.next)

namespace State

/-- The task may run on the CPU. -/
def MayRun (s : State ι κ ν χ n) (t : ι) (c : Cpu n) : Prop :=
  s.affinity t = none ∨ s.affinity t = some c

/-- The fields that say where the tasks are, but for the CPUs' own, and for what they wait. -/
def layout (s : State ι κ ν χ n) :=
  (s.rq, s.tasks, s.sleepers, s.sleepingOn, s.waits, s.waitChannel, s.cond, s.owes, s.setter,
    s.affinity)

/-- The CPU takes free locks, and gives away no locks but its own. -/
def Lent (s : State ι κ ν χ n) (c : Cpu n) (p : Pc ι κ ν χ n) (holder : ν → Option ι) : Prop :=
  ∀ l, holder l = s.lockHolder l ∨ s.lockHolder l = none ∨
    s.lockHolder l = some (s.current c) ∨ p.lock = some l

structure Walk (s s' : State ι κ ν χ n) (c : Cpu n) (p p' : Pc ι κ ν χ n) : Prop extends
    s.Turn s' c p p' where
  state : s'.state = s.state := by exact rfl
  layout : s'.layout = s.layout := by exact rfl
  face : p'.face = p.face := by exact rfl
  sleeps : p'.sleeps = true → s.current c ≠ s.idle c := by exact nofun
  lent : s.Lent c p s'.lockHolder := by exact fun _ => .inl rfl
  lock : p'.lock = none ∨ p'.lock = p.lock ∧ s'.lockHolder = s.lockHolder := by exact .inl rfl
  call : p'.call = none := by exact rfl
  walk : p'.walk = none ∨ p'.walk = p.walk := by first | exact .inl rfl | exact .inr rfl
  pushes : ∀ t cpu, p'.pushes = some (t, cpu) → s.MayRun t cpu := by exact nofun

theorem releaseLock_lent [DecidableEq ν] {a : Sleep κ ν χ} (s : State ι κ ν χ n) (c : Cpu n)
    {p : Pc ι κ ν χ n} (hp : ∀ l, a.lock = .lock l → p.lock = some l) :
    s.Lent c p (s.releaseLock a.lock).lockHolder := by
  intro l
  cases hk : a.lock with
  | lock l' =>
    by_cases hl : l = l'
    · exact .inr (.inr (.inr (hl ▸ hp l' hk)))
    · exact .inl (update_of_ne hl _ _)
  | null | sched => exact .inl rfl

variable [DecidableEq ι] [DecidableEq κ] [DecidableEq χ]

inductive Acts (R : Rule κ ν χ) (s : State ι κ ν χ n) (c : Cpu n) (act : Act ι κ ν χ n) :
    State ι κ ν χ n → Prop
  | join (online : Cpu n → Bool) : Acts R s c act { s with online := online }
  | walk {s' : State ι κ ν χ n} {p : Pc ι κ ν χ n} (p' : Pc ι κ ν χ n) (h : s.Walk s' c p p') :
      Acts R s c act s'
  /-- `sleep_on` is called -/
  | call {a : Sleep κ ν χ} (hpc : s.pc c = .out) (hs : a.lock ≠ .sched) (h : s.MaySleep R c a) :
      Acts R s c act (s.setPc c (.sleep a))
  /-- `sleep_on` sets the task BLOCKED -/
  | block {a : Sleep κ ν χ} {p : Pc ι κ ν χ n} {l : Option (Cpu n)} {k : ι → ℕ}
      {on : ι → Option (Cpu n)} {sleepers : Cpu n → List ι} (hpc : s.pc c = p)
      (hp : p.face = (none, none, false, false, false, none, none) ∧ p.queue = false ∧ p.unfinished = false)
      (hl : LockStep c p.sched true s.schedLock l) (hi : s.current c ≠ s.idle c)
      (hm : p = .sleep a ∨ a.lock = .sched ∧ s.MaySleep R c a)
      (hslp : on = s.sleepingOn ∧ sleepers = s.sleepers ∨
        ∃ i, on = (s.sleeperAdd (s.current c) c i).sleepingOn ∧
          sleepers = (s.sleeperAdd (s.current c) c i).sleepers) :
      Acts R s c act
        { s with
          schedLock := l
          waitChannel := update s.waitChannel (s.current c) a.channel
          waits := update s.waits (s.current c) a.cond
          state := update s.state (s.current c) .blocked
          pc := update s.pc c (.release a false)
          sleepKey := k
          sleepingOn := on
          sleepers := sleepers }
  /-- the task is set STOPPED or ZOMBIE -/
  | leave {s' : State ι κ ν χ n} {p : Pc ι κ ν χ n} {a : After κ ν χ} {st : TaskState}
      (h : s.Turn s' c p (.held (.leave a))) (hp : p.face = (none, none, false, false, false, none, none))
      (hi : s.current c ≠ s.idle c) (hst : s'.state = update s.state (s.current c) st)
      (hz : st = .stopped ∨ st = .zombie) (hs : s'.layout = s.layout) (hl : s.Lent c p s'.lockHolder) :
      Acts R s c act s'
  | depart {a : After κ ν χ} (hpc : s.pc c = .held (.leave a))
      (hz : s.state (s.current c) = .zombie → s.owes (s.current c) = []) :
      Acts R s c act (s.setPc c (.schedule true a))
  | wakeup {k : Hold κ ν χ} (ch : χ) (hpc : s.pc c = .held k) :
      Acts R s c act (s.setPc c (.wakeup ch s.tasks k))
  | pass {t : ι} (ch : χ) (rest : List ι) (k : Hold κ ν χ) (hpc : s.pc c = .wakeup ch (t :: rest) k)
      (ht : ¬ (s.state t = .blocked ∧ s.waitChannel t = some ch)) :
      Acts R s c act (s.setPc c (.wakeup ch rest k))
  | wakeupDone {ch : χ} {k : Hold κ ν χ} (hpc : s.pc c = .wakeup ch [] k) :
      Acts R s c act
        { s with
          pc := update s.pc c (.held k)
          owes := update s.owes (s.current c)
            ((s.owes (s.current c)).filter fun ch' => ch' ≠ ch) }
  | wake {t : ι} {p : Pc ι κ ν χ n} {r : Ret ι κ ν χ} {k : Hold κ ν χ} (kill stop : ι → ℕ)
      (hpc : s.pc c = p) (hp : p = .held k ∧ r = .woken k ∨
        ∃ ch rest, p = .wakeup ch (t :: rest) k ∧ r = .wakeup ch rest k)
      (hst : s.state t = .blocked ∨ s.state t = .stopped) (hne : t ≠ s.current c) :
      Acts R s c act (State.wakeTask { s with killPending := kill, stopPending := stop } c t r)
  | assign (k : κ) (b : Bool) (hk : s.Holds R c k) (hpc : s.pc c = .out ∨ ∃ h, s.pc c = .held h) :
      Acts R s c act (s.assign R c k b)
  | bind {t : ι} {d cpu : Option (Cpu n)} (hact : act = .setAffinity t d)
      (hpc : s.pc c = .held .locked) (ht : t ∈ s.tasks) :
      Acts R s c act
        { s with affinity := update s.affinity t cpu, pc := update s.pc c (.requeue t) }
  | rebound {t : ι} (hpc : s.pc c = .requeue t) (ht : ∀ d, s.rq.queuedOn t = some d → s.MayRun t d) :
      Acts R s c act (s.setPc c (.held .locked))
  | add {t : ι} (affinity : Option (Cpu n)) (priority : Priority) (hpc : s.pc c = .held .locked)
      (ht : t ∉ s.tasks) (hi : ∀ d, s.idle d ≠ t) : Acts R s c act (s.add c t affinity priority)
  | unlinkZombie {t : ι} (hpc : s.pc c = .held .locked) (hz : s.state t = .zombie)
      (hne : t ≠ s.current c) : Acts R s c act { s with tasks := s.tasks.erase t }
  | push {t : ι} {cpu : Cpu n} {r : Ret ι κ ν χ} (hpc : s.pc c = .push t cpu r) :
      Acts R s c act
        { s with
          state := update s.state t .ready
          rq := rqPush s.rq cpu t
          pc := update s.pc c r.pc }
  /-- a task is taken out of a queue -/
  | take {t : ι} {d : Cpu n} {p : Pc ι κ ν χ n} (p' : Pc ι κ ν χ n) {lock : Cpu n → Option (Cpu n)}
      {lists : Cpu n → List ι} {m₁ m₂ : List ι} (hl : s.rq.Holds lists)
      (hm : lists d = m₁ ++ t :: m₂) (hfree : s.rqLock d = none)
      (hw : d = c ∨ s.affinity t = none ∨ p'.next = none)
      (h : s.Turn { s with
        rqLock := lock
        rq := rqUnlink s.rq d m₁.getLast? t
        pc := update s.pc c p' } c p p')
      (hp : (p.hand, p'.hand, p.leaving, p'.leaving, p'.sleeps, p'.wakes, p'.lock, p'.call, p'.walk,
        p'.pushes) = (none, some t, false, false, false, false, none, none, none, none))
      (ha : p'.away = p.away) (hr : p.rebinds = none ∨ p.rebinds = some t) :
      Acts R s c act
        { s with rqLock := lock, rq := rqUnlink s.rq d m₁.getLast? t, pc := update s.pc c p' }
  | takeIdle {hold : Bool} {a : After κ ν χ} (hpc : s.pc c = .steal hold [] a)
      (hstay : s.mayStay c = false) : Acts R s c act (s.setPc c (.commit hold (s.idle c) a))
  /-- `hand_over_work` -/
  | give {t : ι} {target : Cpu n} {lists : Cpu n → List ι} {m₁ m₂ : List ι}
      (hpc : s.pc c = .give target) (hl : s.rq.Holds lists) (hm : lists c = m₁ ++ t :: m₂)
      (hw : s.affinity t = none) :
      Acts R s c act
        { s with
          rq := rqPush (rqUnlink s.rq c m₁.getLast? t) target t
          rqLock := update s.rqLock c none
          pc := update s.pc c .tock }
  | commit {hold : Bool} {next : ι} {a : After κ ν χ} (hpc : s.pc c = .commit hold next a) :
      Acts R s c act (s.commit c hold next a)
  | ctxSwitch {old : ι} {a b : After κ ν χ} (saved : ι → After κ ν χ) (hpc : s.pc c = .switch old a) :
      Acts R s c act { s with saved := saved, pc := update s.pc c (.finish b) }
  | finishSwitch {a : After κ ν χ} (hpc : s.pc c = .finish a) : Acts R s c act (s.finishSwitch c a)
  | finishSched {moving : Option ι} {a : After κ ν χ} (hpc : s.pc c = .finishSched moving a) :
      Acts R s c act (State.placeMoving { s with schedLock := none } c moving a)

variable {R : Rule κ ν χ} {s : State ι κ ν χ n} {own : ι → Place n} {c d : Cpu n} {t : ι}
  {p p' : Pc ι κ ν χ n} {k : Hold κ ν χ} {a : Sleep κ ν χ} {act : Act ι κ ν χ n}

/-! ### Every step is one of these -/

theorem Acts.refl : s.Acts R c act s := .join s.online

/-- A request changes what is asked of the task, and wakes it perhaps. -/
theorem request_acts (h : s.Owned own) (hpc : s.pc c = .held k) (r : Request ι)
    (hr : k = .locked ∨ r.task ≠ s.current c) : s.Acts R c act (s.request c k r) := by
  have hne (hst : s.state r.task = .blocked ∨ s.state r.task = .stopped) : r.task ≠ s.current c := by
    rcases hr with rfl | hr
    · intro h0
      have h1 := (h.cpu c).running (by rw [hpc]; rfl)
      rw [← h0] at h1
      rcases hst with h2 | h2 <;> cases h2.symm.trans h1
    · exact hr
  have hwake (kill stop : ι → ℕ) (hst : s.state r.task = .blocked ∨ s.state r.task = .stopped) :
      s.Acts R c act (State.wakeTask { s with killPending := kill, stopPending := stop } c r.task
        (.woken k)) :=
    .wake kill stop hpc (.inl ⟨rfl, rfl⟩) hst (hne hst)
  have hkeep (kill stop : ι → ℕ) (exiting : ι → Bool) (pending blocked : ι → BitVec 32) :
      s.Acts R c act
        { s with
          killPending := kill
          stopPending := stop
          exiting := exiting
          sigPending := pending
          sigBlocked := blocked } :=
    .walk _ { before := hpc, pc := (hpc ▸ update_eq_self c s.pc).symm }
  cases r with
  | kill t sig =>
    simp only [State.request]
    split_ifs with h1 h2
    · exact hwake _ _ h2
    · exact hkeep _ _ _ _ _
    · exact hkeep _ _ _ _ _
  | stop t sig =>
    simp only [State.request]
    split_ifs with h1 h2
    · exact hkeep _ _ _ _ _
    · exact hwake s.killPending _ (.inl h2)
    · exact hkeep _ _ _ _ _
  | resume t =>
    simp only [State.request]
    split_ifs with h1
    · exact hwake s.killPending _ (.inr h1)
    · exact hkeep _ _ _ _ _
  | interrupt t =>
    simp only [State.request]
    split_ifs with h1
    · exact hwake s.killPending s.stopPending (.inl h1)
    · exact hkeep _ _ _ _ _
  | signals t pending blocked => exact hkeep _ _ _ _ _
  | unkillable t => exact hkeep _ _ _ _ _

/-- The task to run next is looked for in a queue. -/
theorem takeFrom_acts (h : s.Owned own) (lock : Cpu n → Option (Cpu n)) {wanted : ι → Bool}
    {hold : Bool} {b : After κ ν χ} (hw : d = c ∨ wanted = s.movable) (hfree : s.rqLock d = none)
    (hp : p.hand = none ∧ p.leaving = false ∧ p.rebinds = none) (ha : p.away = hold)
    (ht : ∀ t q, s.Turn { s with
      rqLock := lock
      rq := q
      pc := update s.pc c (.commit hold t b) } c p (.commit hold t b))
    (hwalk : s.Walk { s with rqLock := lock, pc := update s.pc c p' } c p p') :
    s.Acts R c act (State.takeFrom { s with rqLock := lock } c d wanted hold b p') := by
  obtain ⟨lists, hl⟩ := h.lists
  rw [State.takeFrom]
  rcases hl.take d wanted with ⟨t, m₁, m₂, hm, hwt, -, htake⟩ | ⟨htake, -⟩ <;> simp only [htake]
  · refine .take _ hl hm hfree ?_ (ht t _) (by rw [hp.1, hp.2.1]; rfl) ha.symm (.inl hp.2.2)
    rcases hw with hw | rfl
    · exact .inl hw
    · exact .inr (.inl (by simpa [movable] using hwt))
  · exact .walk _ hwalk

variable [DecidableEq ν]

/-- Once it holds the scheduler lock it may end the task, stop it, return at once or put it to
sleep. -/
theorem sleepOn_acts {l : Option (Cpu n)} (hpc : s.pc c = p)
    (hp : p.face = (none, none, false, false, false, none, none) ∧ p.queue = false ∧ p.unfinished = false)
    (hm : p = .sleep a ∨ a.lock = .sched ∧ s.MaySleep R c a) (hi : s.current c ≠ s.idle c)
    (hl : LockStep c p.sched true s.schedLock l) (hn : LockStep c p.sched false s.schedLock none) :
    s.Acts R c act (State.sleepOn { s with schedLock := l } c a) := by
  obtain ⟨h1, h2, h3⟩ := hp
  have hlock (l' : ν) (hk : a.lock = .lock l') : p.lock = some l' := by
    rcases hm with rfl | ⟨h0, -⟩
    · rw [Pc.lock, hk]
    · cases h0.symm.trans hk
  have hrel : (Pc.release a true : Pc ι κ ν χ n).lock = none ∨
      (Pc.release a true : Pc ι κ ν χ n).lock = p.lock := by
    rcases hm with rfl | ⟨h0, -⟩
    · exact .inr rfl
    · left
      rw [Pc.lock, h0]
  have hq : LockStep c p.queue false (s.rqLock c) (s.rqLock c) := .keeps rfl h2.symm
  simp only [State.sleepOn]
  split_ifs with g1 g2 g3 g4
  · have hlent := s.releaseLock_lent c hlock
    cases hk : a.lock <;> rw [hk] at hlent <;> exact .walk .ending
      { before := hpc, done := h3, sched := hn, queue := hq, face := h1.symm, lent := hlent }
  · exact .walk (.release a true)
      { before := hpc, done := h3, sched := hl, queue := hq, face := h1.symm, sleeps := fun _ => hi
        lock := hrel.imp_right fun h0 => ⟨h0, rfl⟩ }
  · cases a.lock with
    | sched =>
      exact .walk (.held .locked)
        { before := hpc, done := h3, sched := hl, queue := hq, face := h1.symm }
    | null | lock l' =>
      exact .walk .out { before := hpc, done := h3, sched := hn, queue := hq, face := h1.symm }
  · exact .block hpc ⟨h1, h2, h3⟩ hl hi hm (.inr ⟨a.wakeAt, rfl, rfl⟩)
  · exact .block hpc ⟨h1, h2, h3⟩ hl hi hm (.inl ⟨rfl, rfl⟩) (k := s.sleepKey)

theorem relock_acts (hpc : s.pc c = .relock a) : s.Acts R c act (s.relock c a) := by
  rw [State.relock]
  cases a.lock with
  | null => exact .walk _ { before := hpc }
  | sched =>
    simp only [withSched]
    split_ifs with h0
    · exact .walk _ { before := hpc, sched := .takes h0 rfl rfl }
    · exact .refl
  | lock l =>
    simp only
    split_ifs with h0
    · refine .walk _ { before := hpc, lent := fun l' => ?_ }
      by_cases hl : l' = l
      · exact .inr (.inl (hl ▸ h0))
      · exact .inl (update_of_ne hl _ _)
    · exact .refl

theorem go_acts (h : s.Owned own) (c : Cpu n) (seen : Seen n) :
    s.Acts R c (.go seen) (s.go c seen) := by
  have hc := h.cpu c
  rw [State.go]
  cases hpc : s.pc c with
  | out | held k => exact .refl
  | wakeup ch rest k =>
    cases rest with
    | nil => exact .wakeupDone hpc
    | cons t rest =>
      simp only [State.wakeupLocked]
      split_ifs with h1
      · refine .wake s.killPending s.stopPending hpc (.inr ⟨ch, rest, rfl, rfl⟩) (.inl h1.1) ?_
        rintro rfl
        cases k with
        | locked => cases h1.1.symm.trans (hc.running (by rw [hpc]; rfl))
        | leave a => exact hc.leaving (by rw [hpc]; rfl) h1.1
      · exact .pass ch rest k hpc h1
  | place t r =>
    refine .walk _ { before := hpc, pushes := ?_ }
    rintro _ _ ⟨⟩
    rw [chooseCpu, MayRun]
    cases s.affinity t with
    | none => exact .inl rfl
    | some cpu => exact .inr rfl
  | push t cpu r =>
    simp only
    split_ifs
    · exact .push hpc
    · exact .refl
  | requeue t =>
    simp only
    split
    · rename_i hq
      exact .rebound hpc fun d hd => nomatch hq.symm.trans hd
    · rename_i on hq
      split_ifs with h1
      · exact .rebound hpc fun d hd => Option.some.inj (hq.symm.trans hd) ▸ h1
      · exact .walk _ { before := hpc }
  | unqueue t on =>
    simp only
    split_ifs with h1 h2
    · obtain ⟨lists, hl⟩ := h.lists
      obtain ⟨m₁, m₂, hm, hrem⟩ := hl.remove h2
      rw [hrem]
      exact .take (.place t .requeued) hl hm h1 (.inr (.inr rfl)) { before := hpc } rfl rfl (.inr rfl)
    · exact .walk _ { before := hpc }
    · exact .refl
  | sleep a =>
    simp only [withSched]
    split_ifs with h1
    · exact sleepOn_acts hpc ⟨rfl, rfl, rfl⟩ (.inl rfl) (hc.sleeps (by rw [hpc]; rfl))
        (.takes h1 rfl rfl) (.keeps h1.symm rfl)
    · exact .refl
  | release a stop =>
    have hi := hc.sleeps (by rw [hpc]; rfl)
    have hlent := s.releaseLock_lent (a := a) c (p := .release a stop) fun l hl => by rw [Pc.lock, hl]
    cases stop with
    | true =>
      cases hk : a.lock <;> rw [hk] at hlent <;> simp only [hk, releaseLock, State.stopCurrent, if_true] <;>
        exact .leave { before := hpc } rfl hi rfl (.inl rfl) rfl hlent
    | false =>
      cases hk : a.lock <;> rw [hk] at hlent <;> simp only [hk, releaseLock, setPc] <;>
        exact .walk _ { before := hpc, lent := hlent }
  | woken a =>
    simp only
    split_ifs <;> exact .walk _ { before := hpc }
  | relock a => exact relock_acts hpc
  | ending =>
    simp only [withSched]
    split_ifs with h1
    · exact .walk _ { before := hpc, sched := .takes h1 rfl rfl }
    · exact .refl
  | handOver target =>
    simp only
    split_ifs with h1
    · exact .walk _
        { before := hpc, queue := .takes h1 (update_self ..) rfl, queues := fun d hd => update_of_ne hd _ _ }
    · exact .refl
  | give target =>
    have hwalk : s.Walk { s with rqLock := update s.rqLock c none, pc := update s.pc c .tock } c
        (.give target) .tock :=
      { before := hpc, queue := .drops rfl (update_self ..) rfl
        queues := fun d hd => update_of_ne hd _ _ }
    obtain ⟨lists, hl⟩ := h.lists
    simp only
    split_ifs with hfree
    · rcases hl.take c s.movable with ⟨t, m₁, m₂, hm, hw, -, htake⟩ | ⟨htake, -⟩ <;>
        simp only [htake]
      · exact .give hpc hl hm (by simpa [movable] using hw)
      · exact .walk _ hwalk
    · exact .walk _ hwalk
  | tock =>
    simp only
    split_ifs <;> exact .walk _ { before := hpc }
  | schedule hold a =>
    simp only
    split_ifs with h1
    · exact takeFrom_acts h _ (.inl rfl) h1 ⟨rfl, rfl, rfl⟩ rfl
        (fun t q => { before := hpc, queue := .takes h1 (update_self ..) rfl
                      queues := fun d hd => update_of_ne hd _ _ })
        { before := hpc, queue := .takes h1 (update_self ..) rfl
          queues := fun d hd => update_of_ne hd _ _ }
    · exact .refl
  | steal hold order a =>
    cases order with
    | nil =>
      cases hstay : s.mayStay c with
      | true =>
        -- the task carries on, so its state is not set and the scheduler lock not held
        have hrun : s.state (s.current c) = .running := by
          simp only [mayStay, Bool.and_eq_true, decide_eq_true_eq] at hstay
          exact hstay.1
        have hhold : hold = false := by
          cases hold with
          | false => rfl
          | true =>
            have h0 := (hc.away (by rw [hpc]; rfl)).1
            rw [hrun] at h0
            rcases h0 with h0 | h0 | h0 <;> cases h0
        subst hhold
        cases a <;> exact .walk _
          { before := hpc, queue := .drops rfl (update_self ..) rfl
            queues := fun d hd => update_of_ne hd _ _ }
      | false => exact .takeIdle hpc hstay
    | cons d order =>
      simp only
      split_ifs with h1
      · exact takeFrom_acts h s.rqLock (.inr rfl) h1 ⟨rfl, rfl, rfl⟩ rfl
          (fun t q => { before := hpc }) { before := hpc }
      · exact .refl
  | commit hold next a => exact .commit hpc
  | switch old a => exact .ctxSwitch _ hpc
  | finish a => exact .finishSwitch hpc
  | finishSched moving a => exact .finishSched hpc

theorem stepLocked_acts (h : s.Owned own) (hpc : s.pc c = .held .locked) (act : Act ι κ ν χ n) :
    s.Acts R c act (s.stepLocked R c act) := by
  have hc := h.cpu c
  cases act with
  | unlockSched => exact .walk _ { before := hpc, sched := .drops rfl rfl rfl }
  | sleepOn a =>
    simp only [State.stepLocked]
    split_ifs with h1
    · exact sleepOn_acts (l := s.schedLock) hpc ⟨rfl, rfl, rfl⟩ (.inr h1) h1.2.1 (.keeps rfl rfl)
        (.drops rfl rfl rfl)
    · exact .refl
  | setAffinity t cpu =>
    simp only [State.stepLocked]
    split_ifs with h1
    · exact .bind rfl hpc h1
    · exact .refl
  | add t affinity priority =>
    simp only [State.stepLocked]
    split_ifs with h1
    · exact .add _ _ hpc h1.1 h1.2
    · exact .refl
  | wakeSleeper cpu now =>
    simp only [State.stepLocked]
    split
    · rename_i t rest hslp
      split_ifs
      · have hon := h.timed.mem cpu t (by rw [hslp]; exact List.mem_cons_self)
        have hb := ((h.task t).sleeping (by rw [hon]; nofun)).1
        refine .wake s.killPending s.stopPending hpc (.inl ⟨rfl, rfl⟩) (.inl hb) ?_
        rintro rfl
        cases hb.symm.trans (hc.running (by rw [hpc]; rfl))
      · exact .refl
    · exact .refl
  | stopCurrent =>
    simp only [State.stepLocked]
    split_ifs with h1
    · exact .leave { before := hpc } rfl h1.1 rfl (.inl rfl) rfl fun _ => .inl rfl
    · exact .refl
  | die =>
    simp only [State.stepLocked]
    split_ifs with h1
    · exact .leave { before := hpc } rfl h1.1 rfl (.inr rfl) rfl fun _ => .inl rfl
    · exact .refl
  | unlinkZombie t =>
    simp only [State.stepLocked]
    split_ifs with h1
    · exact .unlinkZombie hpc h1.1 h1.2
    · exact .refl
  | _ => exact .refl

theorem stepOut_acts (hpc : s.pc c = .out) (act : Act ι κ ν χ n) :
    s.Acts R c act (s.stepOut R c act) := by
  cases act with
  | lock l =>
    simp only [State.stepOut]
    split_ifs with h0
    · refine .walk _ { before := hpc, pc := (hpc ▸ update_eq_self c s.pc).symm, lent := fun l' => ?_ }
      by_cases hl : l' = l
      · exact .inr (.inl (hl ▸ h0))
      · exact .inl (update_of_ne hl _ _)
    · exact .refl
  | unlock l =>
    simp only [State.stepOut]
    split_ifs with h0
    · refine .walk _ { before := hpc, pc := (hpc ▸ update_eq_self c s.pc).symm, lent := fun l' => ?_ }
      by_cases hl : l' = l
      · exact .inr (.inr (.inl (hl ▸ h0)))
      · exact .inl (update_of_ne hl _ _)
    · exact .refl
  | assign k b =>
    simp only [State.stepOut]
    split_ifs with h0
    · exact .assign k b h0 (.inl hpc)
    · exact .refl
  | schedYield => exact .walk _ { before := hpc }
  | schedTick seen =>
    simp only [State.stepOut]
    split_ifs
    · exact .walk _ { before := hpc }
    · split <;> exact .walk _ { before := hpc }
  | sleepOn a =>
    simp only [State.stepOut]
    split_ifs with h0
    · exact .call hpc h0.1 h0.2
    · exact .refl
  | taskExit =>
    simp only [State.stepOut]
    split_ifs
    · exact .walk _ { before := hpc }
    · exact .refl
  | lockSched =>
    simp only [State.stepOut, withSched]
    split_ifs with h0
    · exact .walk _ { before := hpc, sched := .takes h0 rfl rfl }
    · exact .refl
  | _ => exact .refl

theorem stepHeld_acts (h : s.Owned own) (hpc : s.pc c = .held k) (act : Act ι κ ν χ n) :
    s.Acts R c act (s.stepHeld R c k act) := by
  have hlocked (hk : k = .locked) : s.Acts R c act (s.stepLocked R c act) :=
    stepLocked_acts h (hk ▸ hpc) act
  cases act with
  | wakeupLocked ch => exact .wakeup ch hpc
  | request r =>
    simp only [State.stepHeld]
    split_ifs with h1
    · exact request_acts h hpc r h1.2
    · exact .refl
  | assign x b =>
    simp only [State.stepHeld]
    split_ifs with h0
    · exact .assign x b h0 (.inr ⟨k, hpc⟩)
    · exact .refl
  | depart =>
    cases k with
    | locked => exact .refl
    | leave a =>
      simp only [State.stepHeld]
      split_ifs with h0
      · exact .depart hpc h0
      · exact .refl
  | _ =>
    cases k with
    | locked => exact hlocked rfl
    | leave a => exact .refl

theorem step_acts (h : s.Owned own) (e : Event ι κ ν χ n) : s.Acts R e.1 e.2 (s.step R e) := by
  obtain ⟨c, act⟩ := e
  simp only [State.step]
  by_cases hon : s.online c = true
  · rw [if_pos hon]
    cases act with
    | go seen => exact go_acts h c seen
    | giveUp =>
      simp only
      split
      · rename_i hold d order a hpc
        split_ifs
        · exact .walk _ { before := hpc }
        · exact .refl
      · exact .refl
    | _ =>
      simp only
      split
      · rename_i hpc
        exact stepOut_acts hpc _
      · rename_i k hpc
        exact stepHeld_acts h hpc _
      · exact .refl
  · rw [if_neg hon]
    cases act with
    | join =>
      simp only
      split_ifs
      · exact .join _
      · exact .refl
    | _ => exact .refl

end State

attribute [grind =] Pc.face State.MayRun State.layout

end Bashket.Sched
