import Bashket.Lib.Run

/-!
# Mutexes and semaphores

A task that finds a mutex taken by another task, or a semaphore without units, sleeps on its
address; `sleep_on` marks it blocked before it lets go of the spinlock. `mutex_unlock` wakes the
sleepers after it has let go of the spinlock, `sem_post` before. A task that wakes up takes the
spinlock again and looks again. A call is split into the steps that others can tell apart.
-/

namespace Bashket.Sync

open Run List
open Function (update update_of_ne update_self)

/-- `mutex_t`; its spinlock is kept apart. -/
structure Mutex where
  taken : Bool
  owner : Option ℕ
  depth : ℕ
deriving DecidableEq

namespace Mutex

/-- `take_if_possible`; `none`: it is not possible. -/
def takeIfPossible (m : Mutex) (self : ℕ) : Option Mutex :=
  if m.taken ∧ m.owner ≠ some self then none
  else some { taken := true, owner := some self, depth := m.depth + 1 }

/-- `mutex_unlock`, under the spinlock: the mutex, and whether it was released. -/
def unlock (m : Mutex) : Mutex × Bool :=
  if 0 < m.depth then
    if m.depth - 1 = 0 then ({ taken := false, owner := none, depth := 0 }, true)
    else ({ m with depth := m.depth - 1 }, false)
  else (m, false)

end Mutex

/-- `sem_t`, with the value it began with and the units taken and posted since. -/
structure Sem where
  value : ℤ
  initial : ℤ
  taken : ℕ
  posted : ℕ

inductive Obj
  | mutex (m : ℕ)
  | sem (n : ℕ)
deriving DecidableEq

inductive Op
  | lock (m : ℕ)
  | tryLock (m : ℕ)
  | unlock (m : ℕ)
  | wait (n : ℕ)
  | tryWait (n : ℕ)
  | post (n : ℕ)
deriving DecidableEq

def Op.obj : Op → Obj
  | .lock m | .tryLock m | .unlock m => .mutex m
  | .wait n | .tryWait n | .post n => .sem n

def Op.interruptible : Op → Bool
  | .wait _ => true
  | _ => false

inductive Pc
  | idle
  | enter (op : Op)
  | inside (op : Op)
  | waits (op : Op)
  | asleep (op : Op)
  /-- `sem_post`, before `sched_wakeup`; with the spinlock -/
  | posted (n : ℕ)
  /-- before it lets go of the spinlock; `wake`: `sched_wakeup` is to follow -/
  | leaves (o : Obj) (wake : Bool)
  /-- `mutex_unlock`, before `sched_wakeup` -/
  | waking (o : Obj)
  | dead
deriving DecidableEq

/-- What is recorded of a mutex: it was locked, or unlocked, which left it at a depth. -/
inductive Entry
  | lock (t : ℕ)
  | unlock (t : ℕ) (left : ℕ)
deriving DecidableEq

/-- The objects, the holders of their spinlocks, the tasks, and what has happened, the latest
first. -/
structure State where
  mutexes : ℕ → Mutex
  sems : ℕ → Sem
  spin : Obj → Option ℕ
  pc : ℕ → Pc
  log : ℕ → List Entry

/-- It sleeps; `sleep_on` returns at once, for a signal or because there is no scheduler yet; the
task is stopped first; it has been killed. -/
inductive Turn
  | sleeps
  | returns
  | stops
  | killed
deriving DecidableEq

inductive Event
  | call (t : ℕ) (op : Op)
  | acquire (t : ℕ)
  | look (t : ℕ)
  | sleep (t : ℕ) (turn : Turn)
  | wakeup (t : ℕ)
  | release (t : ℕ)
  | spurious (t : ℕ)
  | die (t : ℕ)

namespace State

variable (s : State)

def goto (t : ℕ) (pc : Pc) : State := { s with pc := update s.pc t pc }

def setSpin (o : Obj) (l : Option ℕ) : State := { s with spin := update s.spin o l }

def setMutex (m : ℕ) (x : Mutex) (e : Entry) : State :=
  { s with
    mutexes := update s.mutexes m x
    log := update s.log m (e :: s.log m) }

def setSem (n : ℕ) (x : Sem) : State := { s with sems := update s.sems n x }

/-- The look of `mutex_lock` and `mutex_trylock`. -/
def lookLock (t m : ℕ) (otherwise : Pc) : State :=
  match (s.mutexes m).takeIfPossible t with
  | some x => (s.setMutex m x (.lock t)).goto t (.leaves (.mutex m) false)
  | none => s.goto t otherwise

/-- The look of `sem_wait` and `sem_trywait`. -/
def lookWait (t n : ℕ) (otherwise : Pc) : State :=
  let x := s.sems n
  if 0 < x.value then
    (s.setSem n { x with value := x.value - 1, taken := x.taken + 1 }).goto t
      (.leaves (.sem n) false)
  else s.goto t otherwise

def look (t : ℕ) : Op → State
  | .lock m => s.lookLock t m (.waits (.lock m))
  | .tryLock m => s.lookLock t m (.leaves (.mutex m) false)
  | .unlock m =>
    let x := (s.mutexes m).unlock
    (s.setMutex m x.1 (.unlock t x.1.depth)).goto t (.leaves (.mutex m) x.2)
  | .wait n => s.lookWait t n (.waits (.wait n))
  | .tryWait n => s.lookWait t n (.leaves (.sem n) false)
  | .post n =>
    let x := s.sems n
    (s.setSem n { x with value := x.value + 1, posted := x.posted + 1 }).goto t (.posted n)

def sleep (t : ℕ) (op : Op) : Turn → State
  | .sleeps => (s.setSpin op.obj none).goto t (.asleep op)
  | .returns => s.goto t (.inside op)
  | .stops => if op.interruptible then (s.setSpin op.obj none).goto t (.enter op) else s
  | .killed => if op.interruptible then (s.setSpin op.obj none).goto t .dead else s

/-- `sched_wakeup`: all tasks that sleep on the object. -/
def wakeup (o : Obj) : State :=
  { s with
    pc := fun t =>
      match s.pc t with
      | .asleep op => if op.obj = o then .enter op else .asleep op
      | pc => pc }

/-- One that cannot happen changes nothing. -/
def step : Event → State
  | .call t op => if s.pc t = .idle then s.goto t (.enter op) else s
  | .acquire t =>
    match s.pc t with
    | .enter op =>
      if s.spin op.obj = none then (s.setSpin op.obj (some t)).goto t (.inside op) else s
    | _ => s
  | .look t =>
    match s.pc t with
    | .inside op => s.look t op
    | _ => s
  | .sleep t turn =>
    match s.pc t with
    | .waits op => s.sleep t op turn
    | _ => s
  | .wakeup t =>
    match s.pc t with
    | .posted n => (s.wakeup (.sem n)).goto t (.leaves (.sem n) false)
    | .waking o => (s.wakeup o).goto t .idle
    | _ => s
  | .release t =>
    match s.pc t with
    | .leaves o wake => (s.setSpin o none).goto t (if wake then .waking o else .idle)
    | _ => s
  | .spurious t =>
    match s.pc t with
    | .asleep op => s.goto t (.enter op)
    | _ => s
  | .die t =>
    match s.pc t with
    | .asleep op => if op.interruptible then s.goto t .dead else s
    | _ => s

end State

def start (initial : ℕ → ℤ) : State where
  mutexes _ := { taken := false, owner := none, depth := 0 }
  sems n := { value := initial n, initial := initial n, taken := 0, posted := 0 }
  spin _ := none
  pc _ := .idle
  log _ := []

/-! ### What is to hold -/

def since (log : List Entry) : List Entry :=
  log.takeWhile fun | .unlock _ 0 => false | _ => true

def locks (t : ℕ) (log : List Entry) : ℕ := log.count (.lock t)

/-- The number of times a mutex was unlocked by a task that satisfies `p`. -/
def unlocks (p : ℕ → Bool) (log : List Entry) : ℕ :=
  log.countP fun | .unlock t _ => p t | _ => false

/-- A task that may be about to wake the sleepers on `o`. -/
def Pc.wakes (o : Obj) : Pc → Prop
  | .posted n => o = .sem n
  | .leaves o' wake => o = o' ∧ wake
  | .waking o' => o = o'
  | _ => False

namespace State

variable (s : State)

def Holds (m t : ℕ) : Prop := .lock t ∈ since (s.log m)

def Exclusive : Prop := ∀ m t u, s.Holds m t → s.Holds m u → t = u

/-- The depth is the number of times the holder has locked the mutex less those it was unlocked,
since it was last free; a mutex nobody holds is free. -/
def Counted : Prop :=
  ∀ m, (∀ t, s.Holds m t →
      s.mutexes m = ⟨true, some t, (s.mutexes m).depth⟩ ∧ 0 < (s.mutexes m).depth ∧
      locks t (since (s.log m)) =
        unlocks (fun _ => true) (since (s.log m)) + (s.mutexes m).depth) ∧
    ((∀ t, ¬ s.Holds m t) → s.mutexes m = ⟨false, none, 0⟩)

/-- A task has unlocked the mutex as often as it has locked it, but for the depth, if it is the
holder. -/
def Balanced : Prop :=
  ∀ m t, locks t (s.log m) = unlocks (· = t) (s.log m) +
    if (s.mutexes m).owner = some t then (s.mutexes m).depth else 0

/-- No unit of a semaphore is lost or made up. -/
def Conserved : Prop :=
  ∀ n, (s.sems n).value + (s.sems n).taken = (s.sems n).initial + (s.sems n).posted

def Free : Op → Prop
  | .lock m => (s.mutexes m).taken = false
  | .wait n => 0 < (s.sems n).value
  | _ => False

def Noticed : Prop :=
  ∀ t op, s.pc t = .asleep op → s.Free op → ∃ u, (s.pc u).wakes op.obj

def OwnerUnlocks (e : Event) : Prop :=
  ∀ t m, e = .look t → s.pc t = .inside (.unlock m) → (s.mutexes m).owner = some t

end State

/-! ### One mutex -/

@[simp] theorem since_lock (t : ℕ) (log : List Entry) :
    since (.lock t :: log) = .lock t :: since log := rfl

@[simp] theorem since_unlock_zero (t : ℕ) (log : List Entry) : since (.unlock t 0 :: log) = [] :=
  rfl

@[simp] theorem since_unlock_succ (t d : ℕ) (log : List Entry) :
    since (.unlock t (d + 1) :: log) = .unlock t (d + 1) :: since log := rfl

@[simp] theorem unlocks_lock (p : ℕ → Bool) (t : ℕ) (log : List Entry) :
    unlocks p (.lock t :: log) = unlocks p log :=
  countP_cons_of_neg (by simp)

@[simp] theorem unlocks_unlock (p : ℕ → Bool) (t d : ℕ) (log : List Entry) :
    unlocks p (.unlock t d :: log) = unlocks p log + if p t then 1 else 0 :=
  countP_cons

@[simp] theorem locks_lock (t u : ℕ) (log : List Entry) :
    locks t (.lock u :: log) = locks t log + if u = t then 1 else 0 := by
  simp [locks, count_cons]

@[simp] theorem locks_unlock (t u d : ℕ) (log : List Entry) :
    locks t (.unlock u d :: log) = locks t log := by
  simp [locks]

/-- The mutex is held by the task that has locked it since it was last free. -/
structure Held (x : Mutex) (recent : List Entry) (t : ℕ) : Prop where
  eq : x = ⟨true, some t, x.depth⟩
  pos : 0 < x.depth
  only : ∀ u, .lock u ∈ recent → u = t
  count : locks t recent = unlocks (fun _ => true) recent + x.depth

def MutexOk (x : Mutex) (log : List Entry) : Prop :=
  (x = ⟨false, none, 0⟩ ∧ since log = []) ∨ ∃ t, Held x (since log) t

variable {x y : Mutex} {log : List Entry} {t : ℕ}

theorem Held.mem {recent : List Entry} (h : Held x recent t) : .lock t ∈ recent := by
  have := h.pos
  have := h.count
  exact count_pos_iff.1 (by unfold locks at this; omega)

theorem takeIfPossible_eq_some (hx : x.takeIfPossible t = some y) :
    y = ⟨true, some t, x.depth + 1⟩ ∧ ∀ u, x = ⟨true, some u, x.depth⟩ → u = t := by
  unfold Mutex.takeIfPossible at hx
  split at hx
  · cases hx
  next hfree =>
    refine ⟨(Option.some.inj hx).symm, fun u hu => ?_⟩
    by_contra hne
    rw [hu] at hfree
    exact hfree ⟨rfl, fun ht => hne (Option.some.inj ht)⟩

theorem MutexOk.take (h : MutexOk x log) (hx : x.takeIfPossible t = some y) :
    MutexOk y (.lock t :: log) := by
  obtain ⟨rfl, hself⟩ := takeIfPossible_eq_some hx
  rcases h with ⟨rfl, hnil⟩ | ⟨u, h⟩
  · refine .inr ⟨t, rfl, Nat.succ_pos _, fun v hv => ?_, ?_⟩
    · rw [since_lock, hnil] at hv
      simpa using hv
    · rw [since_lock, hnil]
      simp [locks, unlocks]
  · obtain rfl := hself u h.eq
    refine .inr ⟨u, rfl, Nat.succ_pos _, fun v hv => ?_, ?_⟩
    · rcases mem_cons.1 hv with hv | hv
      · exact Entry.lock.inj hv
      · exact h.only v hv
    · have := h.count
      simp only [since_lock, locks_lock, unlocks_lock, if_true]
      omega

theorem MutexOk.unlock (h : MutexOk x log) (u : ℕ) :
    MutexOk x.unlock.1 (.unlock u x.unlock.1.depth :: log) := by
  rcases h with ⟨rfl, -⟩ | ⟨t, h⟩
  · exact .inl ⟨rfl, rfl⟩
  · have hpos := h.pos
    unfold Mutex.unlock
    rw [if_pos hpos]
    split
    · exact .inl ⟨rfl, rfl⟩
    next hmore =>
      obtain ⟨d, hd⟩ : ∃ d, x.depth - 1 = d + 1 := ⟨x.depth - 2, by omega⟩
      refine .inr ⟨t, ?_, Nat.pos_of_ne_zero hmore, fun v hv => ?_, ?_⟩
      · rw [h.eq]
      · simp only [hd, since_unlock_succ, mem_cons, reduceCtorEq, false_or] at hv
        exact h.only v hv
      · have := h.count
        simp only [hd, since_unlock_succ, locks_unlock, unlocks_unlock, if_true]
        omega

/-- A mutex is balanced: what its owner has locked and not unlocked is its depth. -/
def BalancedAt (x : Mutex) (log : List Entry) : Prop :=
  ∀ t, locks t log = unlocks (· = t) log + if x.owner = some t then x.depth else 0

theorem BalancedAt.take (h : BalancedAt x log) (hok : MutexOk x log)
    (hx : x.takeIfPossible t = some y) : BalancedAt y (.lock t :: log) := by
  obtain ⟨rfl, hself⟩ := takeIfPossible_eq_some hx
  intro v
  have hv := h v
  simp only [locks_lock, unlocks_lock, Option.some.injEq]
  rcases hok with ⟨rfl, -⟩ | ⟨u, hheld⟩
  · simp only [reduceCtorEq, if_false] at hv
    rw [hv, Nat.add_zero]
  · obtain rfl := hself u hheld.eq
    have howner : x.owner = some u := by rw [hheld.eq]
    split at hv <;> simp_all
    omega

theorem BalancedAt.unlock (h : BalancedAt x log) (hok : MutexOk x log) (ht : x.owner = some t) :
    BalancedAt x.unlock.1 (.unlock t x.unlock.1.depth :: log) := by
  rcases hok with ⟨rfl, -⟩ | ⟨u, hheld⟩
  · cases ht
  · have hpos := hheld.pos
    intro v
    have hv := h v
    simp only [ht, Option.some.injEq] at hv
    rw [locks_unlock, unlocks_unlock]
    unfold Mutex.unlock
    rw [if_pos hpos]
    by_cases htv : t = v
    · rw [if_pos htv] at hv
      rw [if_pos (by simpa using htv)]
      split
      · rw [if_neg nofun]
        omega
      · rw [if_pos (by rw [ht, htv])]
        dsimp only
        omega
    · rw [if_neg htv] at hv
      rw [if_neg (by simpa using htv)]
      split
      · exact hv
      · rw [if_neg (by simpa [ht] using htv)]
        exact hv

/-! ### What a step can do -/

def Pc.holds : Pc → Option Obj
  | .inside op | .waits op => some op.obj
  | .posted n => some (.sem n)
  | .leaves o _ => some o
  | _ => none

/-- The task neither waits nor sleeps. -/
def Pc.Up (pc : Pc) : Prop := ∀ op, pc ≠ .waits op ∧ pc ≠ .asleep op

namespace State

variable {s s' : State} {m n : ℕ} {e : Event} {pc : Pc} {o : Obj} {op : Op}

/-- A task that goes on to `pc` keeps the spinlock it has, or it takes one or lets go of it. -/
def SpinStep (s : State) (t : ℕ) (pc : Pc) (spin : Obj → Option ℕ) : Prop :=
  (spin = s.spin ∧ ∀ o, pc.holds = some o → (s.pc t).holds = some o) ∨
    ∃ o l, spin = update s.spin o l ∧ (s.spin o = none ∨ (s.pc t).holds = some o) ∧
      ∀ o', pc.holds = some o' → o' = o ∧ l = some t

inductive Does (s : State) (e : Event) : State → Prop
  | same : Does s e s
  | go {t : ℕ} {pc : Pc} {spin : Obj → Option ℕ} (hspin : s.SpinStep t pc spin)
      (hself : ∀ op, pc = .waits op ∨ pc = .asleep op → s.pc t = .waits op ∨ ¬ s.Free op)
      (hwakes : ∀ o, (s.pc t).wakes o → pc.wakes o) :
      Does s e { s with spin, pc := update s.pc t pc }
  | lock {t m : ℕ} {op : Op} {y : Mutex} (hpc : s.pc t = .inside op) (hobj : op.obj = .mutex m)
      (hy : (s.mutexes m).takeIfPossible t = some y) :
      Does s e ((s.setMutex m y (.lock t)).goto t (.leaves (.mutex m) false))
  | unlock {t m : ℕ} (he : e = .look t) (hpc : s.pc t = .inside (.unlock m)) :
      Does s e (s.look t (.unlock m))
  | sem {t n : ℕ} {op : Op} {x : Sem} {pc : Pc} (hpc : s.pc t = .inside op) (hobj : op.obj = .sem n)
      (hholds : pc.holds = some op.obj) (hup : pc.Up)
      (hx : x.value + x.taken - (x.initial + x.posted) =
        (s.sems n).value + (s.sems n).taken - ((s.sems n).initial + (s.sems n).posted))
      (hfree : 0 < x.value → 0 < (s.sems n).value ∨ pc.wakes (.sem n)) :
      Does s e ((s.setSem n x).goto t pc)
  | wakeup {t : ℕ} {o : Obj} {pc : Pc} (hw : ∀ o', (s.pc t).wakes o' → o' = o) (hup : pc.Up)
      (hholds : ∀ o', pc.holds = some o' → (s.pc t).holds = some o') :
      Does s e ((s.wakeup o).goto t pc)

/-- A task that is about to wake nobody goes on to where it does not wait. -/
theorem Does.quiet {pc₀ : Pc} {spin : Obj → Option ℕ} (hpc : s.pc t = pc₀)
    (hno : ∀ o, ¬ pc₀.wakes o) (hup : pc.Up) (hspin : s.SpinStep t pc spin) :
    s.Does e { s with spin, pc := update s.pc t pc } := by
  refine .go hspin (fun op hop => (hop.elim (hup op).1 (hup op).2).elim) fun o ho => ?_
  rw [hpc] at ho
  exact absurd ho (hno o)

theorem look_does (hpc : s.pc t = .inside op) : s.Does (.look t) (s.look t op) := by
  have hheld : (s.pc t).holds = some op.obj := by rw [hpc]; rfl
  have hstay {pc : Pc} (hholds : pc.holds = some op.obj) (hself : ∀ op', pc = .waits op' ∨
      pc = .asleep op' → ¬ s.Free op') : s.Does (.look t) (s.goto t pc) := by
    refine .go (.inl ⟨rfl, fun o ho => hheld.trans (hholds.symm.trans ho)⟩)
      (fun op' hop' => .inr (hself op' hop')) fun o ho => ?_
    rw [hpc] at ho
    exact ho.elim
  cases op with
  | lock m | tryLock m =>
    simp only [look, lookLock]
    split
    next y hy => exact .lock hpc rfl hy
    next hnone =>
      refine hstay rfl fun op' hop' hf => ?_
      rcases hop' with hop' | hop' <;> cases hop'
      all_goals simp [Mutex.takeIfPossible, show (s.mutexes m).taken = false from hf] at hnone
  | unlock m => exact .unlock rfl hpc
  | wait n | tryWait n =>
    simp only [look, lookWait]
    split
    next hpos =>
      refine .sem hpc rfl rfl (by simp [Pc.Up]) ?_ fun _ => .inl hpos
      push_cast
      omega
    next hzero =>
      refine hstay rfl fun op' hop' hf => ?_
      rcases hop' with hop' | hop' <;> cases hop'
      all_goals exact hzero hf
  | post n =>
    refine .sem hpc rfl rfl (by simp [Pc.Up]) ?_ fun _ => .inr rfl
    push_cast
    omega

theorem sleep_does (hpc : s.pc t = .waits op) (turn : Turn) : s.Does e (s.sleep t op turn) := by
  have hheld : (s.pc t).holds = some op.obj := by rw [hpc]; rfl
  have hdrop {pc : Pc} (hholds : pc.holds = none) :
      s.SpinStep t pc (update s.spin op.obj none) :=
    .inr ⟨_, _, rfl, .inr hheld, fun o ho => nomatch hholds.symm.trans ho⟩
  cases turn with
  | sleeps =>
    refine .go (hdrop rfl) (fun op' hop' => .inl ?_) fun o ho => ?_
    · obtain rfl : op = op' := by simpa using hop'
      exact hpc
    · rw [hpc] at ho
      exact ho.elim
  | returns => exact .quiet hpc (fun _ => id) (by simp [Pc.Up]) (.inl ⟨rfl, fun o ho => hheld.trans ho⟩)
  | stops | killed =>
    simp only [sleep]
    split
    · exact .quiet hpc (fun _ => id) (by simp [Pc.Up]) (hdrop rfl)
    · exact .same

theorem step_does (s : State) (e : Event) : s.Does e (s.step e) := by
  cases e with
  | call t op =>
    simp only [step]
    split
    next hpc => exact .quiet hpc (fun _ => id) (by simp [Pc.Up]) (.inl ⟨rfl, nofun⟩)
    · exact .same
  | acquire t =>
    simp only [step]
    split
    next op hpc =>
      split
      next hfree =>
        exact .quiet hpc (fun _ => id) (by simp [Pc.Up])
          (.inr ⟨_, _, rfl, .inl hfree, fun o ho => ⟨(Option.some.inj ho).symm, rfl⟩⟩)
      · exact .same
    · exact .same
  | look t =>
    simp only [step]
    split
    next hpc => exact look_does hpc
    · exact .same
  | sleep t turn =>
    simp only [step]
    split
    next hpc => exact sleep_does hpc turn
    · exact .same
  | wakeup t =>
    simp only [step]
    split
    next n hpc =>
      exact .wakeup (by rw [hpc]; exact fun _ => id) (by simp [Pc.Up]) (by rw [hpc]; exact fun _ => id)
    next o hpc => exact .wakeup (by rw [hpc]; exact fun _ => id) (by simp [Pc.Up]) nofun
    · exact .same
  | release t =>
    simp only [step]
    split
    next o wake hpc =>
      refine .go (.inr ⟨_, _, rfl, .inr (by rw [hpc]; rfl), fun o' ho' => ?_⟩) (fun op hop => ?_)
        fun o' ho' => ?_
      · split at ho' <;> cases ho'
      · split at hop <;> simp at hop
      · rw [hpc] at ho'
        rw [if_pos ho'.2]
        exact ho'.1
    · exact .same
  | spurious t =>
    simp only [step]
    split
    next hpc => exact .quiet hpc (fun _ => id) (by simp [Pc.Up]) (.inl ⟨rfl, nofun⟩)
    · exact .same
  | die t =>
    simp only [step]
    split
    next hpc =>
      split
      · exact .quiet hpc (fun _ => id) (by simp [Pc.Up]) (.inl ⟨rfl, nofun⟩)
      · exact .same
    · exact .same

/-! ### The objects -/

theorem forall_setMutex {P : Mutex → List Entry → Prop} (h : ∀ k, P (s.mutexes k) (s.log k))
    {x : Mutex} {e : Entry} (hm : P x (e :: s.log m)) (k : ℕ) :
    P ((s.setMutex m x e).mutexes k) ((s.setMutex m x e).log k) := by
  unfold setMutex
  rcases eq_or_ne k m with rfl | hne
  · simpa using hm
  · simpa [hne] using h k

/-- Kept if it is kept when the mutex is taken and when it is unlocked. -/
theorem Does.forall_mutex {P : Mutex → List Entry → Prop} (hd : s.Does e s')
    (h : ∀ k, P (s.mutexes k) (s.log k))
    (htake : ∀ t m y, (s.mutexes m).takeIfPossible t = some y → P y (.lock t :: s.log m))
    (hunlock : ∀ t m, e = .look t → s.pc t = .inside (.unlock m) →
      P (s.mutexes m).unlock.1 (.unlock t (s.mutexes m).unlock.1.depth :: s.log m)) (k : ℕ) :
    P (s'.mutexes k) (s'.log k) := by
  cases hd with
  | lock _ _ hy => exact forall_setMutex h (htake _ _ _ hy) k
  | unlock he hpc => exact forall_setMutex h (hunlock _ _ he hpc) k
  | _ => exact h k

theorem Conserved.does (h : s.Conserved) (hd : s.Does e s') : s'.Conserved := by
  cases hd with
  | @sem t n _ x pc _ _ _ _ hx =>
    intro k
    rcases eq_or_ne k n with rfl | hne
    · have := h k
      simp only [goto, setSem, update_self]
      omega
    · simp only [goto, setSem, update_of_ne hne]
      exact h k
  | _ => exact h

/-! ### The spinlocks -/

/-- A task that is at a point where it has a spinlock holds it. -/
def SpinOk (s : State) : Prop := ∀ t o, (s.pc t).holds = some o → s.spin o = some t

theorem SpinOk.go (h : s.SpinOk) {spin : Obj → Option ℕ} (hs : s.SpinStep t pc spin) {u : ℕ}
    (hu : (update s.pc t pc u).holds = some o) : spin o = some u := by
  rcases hs with ⟨rfl, hpc⟩ | ⟨o₀, l, rfl, hfree, hpc⟩
  · rcases eq_or_ne u t with rfl | hne
    · rw [update_self] at hu
      exact h u o (hpc o hu)
    · rw [update_of_ne hne] at hu
      exact h u o hu
  · rcases eq_or_ne u t with rfl | hne
    · rw [update_self] at hu
      obtain ⟨rfl, rfl⟩ := hpc o hu
      exact update_self ..
    · rw [update_of_ne hne] at hu
      have hspin := h u o hu
      rcases eq_or_ne o o₀ with rfl | ho
      · rcases hfree with hfree | hfree
        · cases hfree.symm.trans hspin
        · rw [h t o hfree] at hspin
          exact absurd (Option.some.inj hspin).symm hne
      · rwa [update_of_ne ho]

theorem holds_wakeup (s : State) (o : Obj) (t : ℕ) : ((s.wakeup o).pc t).holds = (s.pc t).holds := by
  simp only [State.wakeup]
  split
  next hpc =>
    rw [hpc]
    split <;> rfl
  · rfl

theorem SpinOk.does (h : s.SpinOk) (hd : s.Does e s') : s'.SpinOk := by
  -- a task that has looked keeps the spinlock
  have hlook {t : ℕ} {op : Op} (hpc : s.pc t = .inside op) {pc : Pc}
      (hholds : pc.holds = some op.obj) : s.SpinStep t pc s.spin :=
    .inl ⟨rfl, fun o ho => by rw [hpc]; exact hholds.symm.trans ho⟩
  cases hd with
  | same => exact h
  | go hspin => exact fun u o hu => h.go hspin hu
  | lock hpc hobj =>
    have hholds := congrArg some hobj.symm
    exact fun u o hu => h.go (hlook hpc (show Pc.holds (.leaves _ false) = _ from hholds)) hu
  | unlock _ hpc => exact fun u o hu => h.go (hlook hpc rfl) hu
  | sem hpc _ hholds => exact fun u o hu => h.go (hlook hpc hholds) hu
  | @wakeup t o pc _ _ hholds =>
    have hwoken : (s.wakeup o).SpinOk := fun u o' hu => h u o' (holds_wakeup s o u ▸ hu)
    refine fun u o' hu => hwoken.go (.inl ⟨rfl, fun o' ho' => ?_⟩) hu
    rw [holds_wakeup]
    exact hholds o' ho'

/-! ### The sleepers -/

structure Sleepers (s : State) : Prop where
  waits : ∀ t op, s.pc t = .waits op → ¬ s.Free op
  asleep : s.Noticed

theorem Sleepers.go (h : s.Sleepers) (spin : Obj → Option ℕ)
    (hself : ∀ op, pc = .waits op ∨ pc = .asleep op → s.pc t = .waits op ∨ ¬ s.Free op)
    (hwakes : ∀ o, (s.pc t).wakes o → pc.wakes o) :
    State.Sleepers { s with spin, pc := update s.pc t pc } := by
  have hself' (op : Op) (hop : pc = .waits op ∨ pc = .asleep op) : ¬ s.Free op :=
    (hself op hop).elim (h.waits t op) id
  constructor
  · intro u op hu
    rcases eq_or_ne u t with rfl | hne
    · exact hself' op (.inl ((update_self ..).symm.trans hu))
    · exact h.waits u op ((update_of_ne hne ..).symm.trans hu)
  · intro u op hu hfree
    rcases eq_or_ne u t with rfl | hne
    · exact absurd hfree (hself' op (.inr ((update_self ..).symm.trans hu)))
    · obtain ⟨v, hv⟩ := h.asleep u op ((update_of_ne hne ..).symm.trans hu) hfree
      refine ⟨v, ?_⟩
      change (update s.pc t pc v).wakes _
      rcases eq_or_ne v t with rfl | hvt
      · rw [update_self]
        exact hwakes _ hv
      · rw [update_of_ne hvt]
        exact hv

theorem Sleepers.change (h : s.Sleepers) (hspin : s.SpinOk) (hpc : s.pc t = .inside op)
    (hs : s'.pc = s.pc) (wake : Prop)
    (hfree : ∀ op', s'.Free op' → s.Free op' ∨ op'.obj = op.obj ∧ wake)
    (hself : pc.Up) (hwake : wake → pc.wakes op.obj) :
    (s'.goto t pc).Sleepers := by
  have hother : ∀ {u}, u ≠ t → (s'.goto t pc).pc u = s.pc u := by
    intro u hne
    rw [← hs]
    exact update_of_ne hne ..
  have hat : (s'.goto t pc).pc t = pc := update_self ..
  constructor
  · intro u op' hu
    rcases eq_or_ne u t with rfl | hne
    · rw [hat] at hu
      exact absurd hu (hself op').1
    · rw [hother hne] at hu
      intro hf
      rcases hfree op' hf with hf | ⟨hobj, -⟩
      · exact h.waits u op' hu hf
      · -- two tasks would have the spinlock
        have h₁ := hspin u op.obj (by rw [hu, ← hobj]; rfl)
        have h₂ := hspin t op.obj (by rw [hpc]; rfl)
        rw [h₁] at h₂
        exact hne (Option.some.inj h₂)
  · intro u op' hu hf
    rcases eq_or_ne u t with rfl | hne
    · rw [hat] at hu
      exact absurd hu (hself op').2
    · rw [hother hne] at hu
      rcases hfree op' hf with hf | ⟨hobj, hw⟩
      · obtain ⟨v, hv⟩ := h.asleep u op' hu hf
        refine ⟨v, ?_⟩
        rw [hother]
        · exact hv
        · rintro rfl
          rw [hpc] at hv
          exact hv
      · refine ⟨t, ?_⟩
        rw [hat, hobj]
        exact hwake hw

theorem Sleepers.wakeup (h : s.Sleepers) (hself : pc.Up)
    (hwakes : ∀ o', (s.pc t).wakes o' → o' = o) : ((s.wakeup o).goto t pc).Sleepers := by
  have hwaits : ∀ u op, (s.wakeup o).pc u = .waits op → s.pc u = .waits op := by
    intro u op hu
    simp only [State.wakeup] at hu
    split at hu
    · split at hu <;> cases hu
    · exact hu
  have hasleep : ∀ u op, (s.wakeup o).pc u = .asleep op → s.pc u = .asleep op ∧ op.obj ≠ o := by
    intro u op hu
    simp only [State.wakeup] at hu
    split at hu
    next op' hpc =>
      split at hu
      · cases hu
      next hne =>
        cases hu
        exact ⟨hpc, hne⟩
    next hno => exact absurd hu (hno op)
  constructor
  · intro u op hu
    rcases eq_or_ne u t with rfl | hne
    · exact absurd ((update_self ..).symm.trans hu) (hself op).1
    · exact h.waits u op (hwaits u op ((update_of_ne hne ..).symm.trans hu))
  · intro u op hu hfree
    rcases eq_or_ne u t with rfl | hne
    · exact absurd ((update_self ..).symm.trans hu) (hself op).2
    · obtain ⟨hu, hobj⟩ := hasleep u op ((update_of_ne hne ..).symm.trans hu)
      obtain ⟨v, hv⟩ := h.asleep u op hu hfree
      have hvt : v ≠ t := by
        rintro rfl
        exact hobj (hwakes _ hv)
      refine ⟨v, ?_⟩
      change (update (s.wakeup o).pc t pc v).wakes _
      rw [update_of_ne hvt]
      simp only [State.wakeup]
      split
      next hpc =>
        rw [hpc] at hv
        cases hv
      · exact hv

theorem free_setMutex {e : Entry} (h : (s.setMutex m x e).Free op) :
    s.Free op ∨ op = .lock m ∧ x.taken = false := by
  cases op with
  | lock k =>
    change (update s.mutexes m x k).taken = false at h
    rcases eq_or_ne k m with rfl | hne
    · rw [update_self] at h
      exact .inr ⟨rfl, h⟩
    · rw [update_of_ne hne] at h
      exact .inl h
  | tryLock | unlock | wait | tryWait | post => exact .inl h

theorem free_setSem {x : Sem} (h : (s.setSem n x).Free op) :
    s.Free op ∨ op = .wait n ∧ 0 < x.value := by
  cases op with
  | wait k =>
    change 0 < (update s.sems n x k).value at h
    rcases eq_or_ne k n with rfl | hne
    · rw [update_self] at h
      exact .inr ⟨rfl, h⟩
    · rw [update_of_ne hne] at h
      exact .inl h
  | lock | tryLock | unlock | tryWait | post => exact .inl h

theorem taken_unlock (h : x.unlock.1.taken = false) :
    x.taken = false ∨ x.unlock.2 = true := by
  unfold Mutex.unlock at h ⊢
  split at h
  next hpos =>
    rw [if_pos hpos]
    split at h
    next h0 => exact .inr (by rw [if_pos h0])
    · exact .inl h
  · exact .inl h

theorem Sleepers.does (h : s.Sleepers) (hspin : s.SpinOk) (hd : s.Does e s') : s'.Sleepers := by
  cases hd with
  | same => exact h
  | go _ hself hwakes => exact h.go _ hself hwakes
  | lock hpc hobj hy =>
    refine h.change hspin hpc rfl False (fun op' hf => .inl ?_) (by simp [Pc.Up]) False.elim
    rcases free_setMutex hf with hf | ⟨-, htaken⟩
    · exact hf
    · rw [(takeIfPossible_eq_some hy).1] at htaken
      cases htaken
  | @unlock t m _ hpc =>
    refine h.change hspin hpc rfl ((s.mutexes m).unlock.2 = true) (fun op' hf => ?_)
      (by simp [Pc.Up]) fun hw => ⟨rfl, hw⟩
    rcases free_setMutex hf with hf | ⟨rfl, htaken⟩
    · exact .inl hf
    · exact (taken_unlock htaken).imp_right fun hw => ⟨rfl, hw⟩
  | @sem t n op x pc hpc hobj _ hup _ hfree =>
    refine h.change hspin hpc rfl (pc.wakes (.sem n)) (fun op' hf => ?_) hup fun hw => hobj ▸ hw
    rcases free_setSem hf with hf | ⟨rfl, hpos⟩
    · exact .inl hf
    · exact (hfree hpos).imp_right fun hw => ⟨hobj.symm, hw⟩
  | wakeup hw hup => exact h.wakeup hup hw

end State

/-! ### Runs -/

namespace State

variable {s : State}

structure Inv (s : State) : Prop where
  mutex : ∀ m, MutexOk (s.mutexes m) (s.log m)
  sem : s.Conserved
  spin : s.SpinOk
  sleepers : s.Sleepers

theorem Inv.step (h : s.Inv) (e : Event) : (s.step e).Inv where
  mutex := (step_does s e).forall_mutex h.mutex (fun _ m _ => (h.mutex m).take)
    fun t m _ _ => (h.mutex m).unlock t
  sem := h.sem.does (step_does s e)
  spin := h.spin.does (step_does s e)
  sleepers := h.sleepers.does h.spin (step_does s e)

theorem Inv.exclusive (h : s.Inv) : s.Exclusive := by
  intro m t u ht hu
  rcases h.mutex m with ⟨-, hnil⟩ | ⟨v, hheld⟩
  · unfold Holds at ht
    rw [hnil] at ht
    cases ht
  · rw [hheld.only t ht, hheld.only u hu]

theorem Inv.counted (h : s.Inv) : s.Counted := by
  intro m
  rcases h.mutex m with ⟨hfree, hnil⟩ | ⟨v, hheld⟩
  · refine ⟨fun t ht => ?_, fun _ => hfree⟩
    unfold Holds at ht
    rw [hnil] at ht
    cases ht
  · refine ⟨fun t ht => ?_, fun hno => absurd hheld.mem (hno v)⟩
    rw [hheld.only t ht]
    exact ⟨hheld.eq, hheld.pos, hheld.count⟩

theorem Balanced.step (hbal : s.Balanced) (h : s.Inv) {e : Event} (he : s.OwnerUnlocks e) :
    (s.step e).Balanced :=
  (step_does s e).forall_mutex (P := BalancedAt) hbal
    (fun _ m _ => BalancedAt.take (hbal m) (h.mutex m))
    fun t m hlook hpc => BalancedAt.unlock (hbal m) (h.mutex m) (he t m hlook hpc)

end State

theorem start_inv (initial : ℕ → ℤ) : (start initial).Inv where
  mutex _ := .inl ⟨rfl, rfl⟩
  sem _ := by simp [start]
  spin _ _ h := nomatch h
  sleepers := ⟨(fun _ _ h => nomatch h), (fun _ _ h => nomatch h)⟩

end Bashket.Sync
