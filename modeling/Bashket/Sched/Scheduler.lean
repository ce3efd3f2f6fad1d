import Bashket.Lib.Run
import Bashket.Sched.RunQueue

/-!
# The scheduler

The scheduler of `kernel/sched/sched.c` as a machine: any number of tasks on up to `n + 1` CPUs. A
step is what one CPU does from one operation on a lock to the next: each CPU has a place in the
code, `Pc`, and a task that does not run keeps the place it will return to in `saved`. The scheduler
lock and the locks of the queues are held by CPUs, across the switch of tasks too.

At `Pc.out` a CPU may begin any call, and under the scheduler lock it may do what the kernel's other
functions do there, in any order. Values that are read without a lock (queue counts and loads) are
given by the event, so that they may be stale.

Conditions are changed under their lock, and whoever makes one true calls `sched_wakeup` on its
channel afterwards. The fields `waits`, `owes` and `setter` record who waits for what and which
calls are still to come; `left` records which task a CPU is switching away from. No step depends on
these.
-/

namespace Bashket.Sched

open Function (update)

inductive TaskState where
  | ready
  | running
  | blocked
  | zombie
  | stopped
  deriving DecidableEq, Repr

inductive Priority where
  | high
  | normal
  | low
  deriving DecidableEq, Repr

def priorityTimeSlice : Priority → ℕ
  | .high => 4
  | .normal => 2
  | .low => 1

/-- The lock handed to `sleep_on`: none, the scheduler's own, or another one. -/
inductive SleepLock (ν : Type*) where
  | null
  | sched
  | lock (l : ν)
  deriving DecidableEq

/-- The arguments of `sleep_on`, and the condition its caller has found false under the lock. -/
structure Sleep (κ ν χ : Type*) where
  cond : Option κ
  channel : Option χ
  lock : SleepLock ν
  wakeAt : ℕ
  interruptible : Bool
  deriving DecidableEq

/-- Where a call of `schedule` returns to. -/
inductive After (κ ν χ : Type*) where
  /-- `sched_yield`, `sched_tick`, `sched_check_kill`; also the start of a new task -/
  | back
  /-- `sleep_on`, after the sleep -/
  | woken (a : Sleep κ ν χ)
  /-- `sleep_on`, after being stopped instead -/
  | continued (a : Sleep κ ν χ)
  deriving DecidableEq

/-- Under the scheduler lock: with the current task RUNNING, or on its way to `schedule`. -/
inductive Hold (κ ν χ : Type*) where
  | locked
  | leave (a : After κ ν χ)
  deriving DecidableEq

/-- Where a call of `place_task` returns to. -/
inductive Ret (ι κ ν χ : Type*) where
  /-- `wake_task`, called for a single task -/
  | woken (h : Hold κ ν χ)
  /-- `wake_task`, called by `wakeup_locked` with these tasks still to look at -/
  | wakeup (ch : χ) (rest : List ι) (h : Hold κ ν χ)
  | created
  | requeued
  /-- `finish_switch` -/
  | moved (a : After κ ν χ)
  deriving DecidableEq

inductive Pc (ι κ ν χ : Type*) (n : ℕ) where
  | out
  | held (h : Hold κ ν χ)
  /-- in the loop of `wakeup_locked` -/
  | wakeup (ch : χ) (rest : List ι) (h : Hold κ ν χ)
  /-- `place_task`, before `choose_cpu` -/
  | place (t : ι) (r : Ret ι κ ν χ)
  /-- `place_task`, before it takes the queue lock -/
  | push (t : ι) (cpu : Cpu n) (r : Ret ι κ ν χ)
  /-- `task_set_affinity`, at the top of its loop -/
  | requeue (t : ι)
  /-- `task_set_affinity`, before it takes the queue lock -/
  | unqueue (t : ι) (on : Cpu n)
  /-- `sleep_on`, before it takes the scheduler lock -/
  | sleep (a : Sleep κ ν χ)
  /-- `sleep_on`, before it releases the caller's lock, to sleep or to stop -/
  | release (a : Sleep κ ν χ) (stop : Bool)
  | woken (a : Sleep κ ν χ)
  /-- `sleep_on`, before it takes the caller's lock back -/
  | relock (a : Sleep κ ν χ)
  | ending
  /-- `hand_over_work`, before it takes this CPU's queue lock -/
  | handOver (target : Cpu n)
  /-- `hand_over_work`, before it tries the other queue's lock -/
  | give (target : Cpu n)
  /-- `sched_tick`, after `hand_over_work` -/
  | tock
  /-- `schedule`, before it takes the queue lock -/
  | schedule (hold : Bool) (a : After κ ν χ)
  /-- `steal`, with these queues still to try -/
  | steal (hold : Bool) (order : List (Cpu n)) (a : After κ ν χ)
  /-- `schedule`, once the next task is found -/
  | commit (hold : Bool) (next : ι) (a : After κ ν χ)
  /-- `schedule`, before `ctx_switch` -/
  | switch (old : ι) (a : After κ ν χ)
  | finish (a : After κ ν χ)
  /-- `finish_switch`, before it releases the scheduler lock -/
  | finishSched (moving : Option ι) (a : After κ ν χ)
  deriving DecidableEq

/-- The lock and the channel of each condition; no lock is the scheduler's. -/
structure Rule (κ ν χ : Type*) where
  lock : κ → Option ν
  chan : κ → χ

/-- The lock handed to `sleep_on` by who waits for a condition. -/
def Rule.sleepLock {κ ν χ : Type*} (R : Rule κ ν χ) (k : κ) : SleepLock ν :=
  match R.lock k with
  | some l => .lock l
  | none => .sched

structure State (ι κ ν χ : Type*) (n : ℕ) where
  -- the tasks
  state : ι → TaskState
  affinity : ι → Option (Cpu n)
  lastCpu : ι → Cpu n
  priority : ι → Priority
  sliceLeft : ι → ℕ
  waitChannel : ι → Option χ
  sleepKey : ι → ℕ
  sleepingOn : ι → Option (Cpu n)
  killPending : ι → ℕ
  stopPending : ι → ℕ
  sigPending : ι → BitVec 32
  sigBlocked : ι → BitVec 32
  exiting : ι → Bool
  saved : ι → After κ ν χ
  -- the list of all tasks, and each CPU's timed sleepers
  tasks : List ι
  sleepers : Cpu n → List ι
  -- the queues
  rq : Queues ι n
  moving : Cpu n → Option ι
  releaseSched : Cpu n → Bool
  -- the CPUs
  current : Cpu n → ι
  idle : Cpu n → ι
  online : Cpu n → Bool
  pc : Cpu n → Pc ι κ ν χ n
  -- the locks
  schedLock : Option (Cpu n)
  rqLock : Cpu n → Option (Cpu n)
  lockHolder : ν → Option ι
  -- the conditions
  cond : κ → Bool
  -- what is only recorded
  left : Cpu n → Option ι
  waits : ι → Option κ
  owes : ι → List χ
  setter : κ → Option ι

/-- Read without a lock: the counts of the queues, the loads, and the load of the task's last CPU,
which `choose_cpu` reads again. -/
structure Seen (n : ℕ) where
  count : Cpu n → ℕ
  load : Cpu n → ℕ
  again : ℕ

/-- What is asked of a task under the scheduler lock, by signals mostly. -/
inductive Request (ι : Type*) where
  | kill (t : ι) (sig : ℕ)
  | stop (t : ι) (sig : ℕ)
  | resume (t : ι)
  | interrupt (t : ι)
  | signals (t : ι) (pending blocked : BitVec 32)
  | unkillable (t : ι)
  deriving DecidableEq

def Request.task {ι : Type*} : Request ι → ι
  | .kill t _ | .stop t _ | .resume t | .interrupt t | .signals t _ _ | .unkillable t => t

/-- What a CPU does next, as far as its place in the code leaves it open. -/
inductive Act (ι κ ν χ : Type*) (n : ℕ) where
  | go (seen : Seen n)
  | giveUp
  | join
  | lock (l : ν)
  | unlock (l : ν)
  | assign (k : κ) (b : Bool)
  | schedYield
  | schedTick (seen : Seen n)
  | sleepOn (a : Sleep κ ν χ)
  | taskExit
  | lockSched
  | unlockSched
  | wakeupLocked (ch : χ)
  | request (r : Request ι)
  | setAffinity (t : ι) (cpu : Option (Cpu n))
  | add (t : ι) (affinity : Option (Cpu n)) (priority : Priority)
  | wakeSleeper (cpu : Cpu n) (now : ℕ)
  | stopCurrent
  | die
  | unlinkZombie (t : ι)
  | depart

abbrev Event (ι κ ν χ : Type*) (n : ℕ) := Cpu n × Act ι κ ν χ n

variable {ι κ ν χ : Type*} {n : ℕ}

/-- Where the CPU goes on after `schedule`. -/
def After.pc : After κ ν χ → Pc ι κ ν χ n
  | .back => .out
  | .woken a => .woken a
  | .continued a => .relock a

/-- Where the CPU goes on after `place_task`. -/
def Ret.pc : Ret ι κ ν χ → Pc ι κ ν χ n
  | .woken h => .held h
  | .wakeup ch rest h => .wakeup ch rest h
  | .created => .held .locked
  | .requeued => .held .locked
  | .moved a => a.pc

/-- Has the task run before?  (`place_task`'s `was_running`) -/
def Ret.wasRunning : Ret ι κ ν χ → Bool
  | .created => false
  | _ => true

namespace State

def signalDeliverable (s : State ι κ ν χ n) (t : ι) : Bool :=
  s.sigPending t &&& ~~~ s.sigBlocked t != 0

/-- The least loaded CPU that is online, of those in the list, and its load. -/
def leastLoaded (s : State ι κ ν χ n) (seen : Seen n) (cpus : List (Cpu n)) (start : Cpu n) :
    Cpu n × ℕ :=
  cpus.foldl (fun least i => if s.online i && seen.load i < least.2 then (i, seen.load i) else least)
    (start, 2 ^ 32 - 1)

def chooseCpu (s : State ι κ ν χ n) (seen : Seen n) (t : ι) (wasRunning : Bool) : Cpu n :=
  match s.affinity t with
  | some cpu => cpu
  | none =>
    let least := s.leastLoaded seen (List.finRange (n + 1)) 0
    let last := s.lastCpu t
    if !wasRunning || !s.online last then least.1
    else if seen.again > least.2 + 1 then least.1 else last

/-- The loop of `steal` that puts a queue in its place in the order: busiest first. -/
def stealInsert (order : List (Cpu n × ℕ)) (x : Cpu n × ℕ) : List (Cpu n × ℕ) :=
  order.rdropWhile (fun y => y.2 < x.2) ++ x :: order.rtakeWhile (fun y => y.2 < x.2)

/-- The queues `steal` tries, in order. -/
def stealOrder (s : State ι κ ν χ n) (seen : Seen n) (here : Cpu n) : List (Cpu n) :=
  (((List.range n).map fun k => here + Fin.ofNat (n + 1) (k + 1)).foldl (fun order i =>
    if seen.count i == 0 || !s.online i then order else stealInsert order (i, seen.count i)) []).map
    Prod.fst

/-- The CPU to which `hand_over_work` hands a task, if there is one. -/
def handOverTarget (s : State ι κ ν χ n) (seen : Seen n) (here : Cpu n) : Option (Cpu n) :=
  if seen.count here = 0 then none
  else
    let others := (List.finRange (n + 1)).filter fun i => i ≠ here && s.online i
    let least := s.leastLoaded seen others here
    if least.1 = here || seen.load here ≤ least.2 + 1 then none else some least.1

variable [DecidableEq ι] [DecidableEq κ] [DecidableEq ν] [DecidableEq χ]

def setPc (s : State ι κ ν χ n) (c : Cpu n) (p : Pc ι κ ν χ n) : State ι κ ν χ n :=
  { s with pc := update s.pc c p }

/-- The code goes on under the scheduler lock, once it is free. -/
def withSched (s : State ι κ ν χ n) (c : Cpu n) (f : State ι κ ν χ n → State ι κ ν χ n) :
    State ι κ ν χ n :=
  if s.schedLock = none then f { s with schedLock := some c } else s

/-! ### Sleeping and waking -/

def sleeperAdd (s : State ι κ ν χ n) (t : ι) (c : Cpu n) (key : ℕ) : State ι κ ν χ n :=
  { s with
    sleepKey := update s.sleepKey t key
    sleepingOn := update s.sleepingOn t (some c)
    sleepers := update s.sleepers c
      ((s.sleepers c).takeWhile (fun u => s.sleepKey u ≤ key) ++
        t :: (s.sleepers c).dropWhile fun u => s.sleepKey u ≤ key) }

def sleeperRemove (s : State ι κ ν χ n) (t : ι) : State ι κ ν χ n :=
  match s.sleepingOn t with
  | none => s
  | some d =>
    { s with
      sleepingOn := update s.sleepingOn t none
      sleepers := update s.sleepers d ((s.sleepers d).erase t) }

/-- `wake_task`, up to its call of `place_task`. -/
def wakeTask (s : State ι κ ν χ n) (c : Cpu n) (t : ι) (r : Ret ι κ ν χ) : State ι κ ν χ n :=
  { s.sleeperRemove t with
    waitChannel := update s.waitChannel t none
    waits := update s.waits t none
    pc := update s.pc c (.place t r) }

/-- One round of the loop of `wakeup_locked`. -/
def wakeupLocked (s : State ι κ ν χ n) (c : Cpu n) (ch : χ) (rest : List ι) (h : Hold κ ν χ) :
    State ι κ ν χ n :=
  match rest with
  | [] =>
    { s with
      pc := update s.pc c (.held h)
      owes := update s.owes (s.current c) ((s.owes (s.current c)).filter fun ch' => ch' ≠ ch) }
  | t :: rest =>
    if s.state t = .blocked ∧ s.waitChannel t = some ch then s.wakeTask c t (.wakeup ch rest h)
    else s.setPc c (.wakeup ch rest h)

/-- `sched_request_kill`, `sched_request_stop`, `sched_continue`, `sched_interrupt_sleep`,
`sched_make_unkillable`, and a change of signals. -/
def request (s : State ι κ ν χ n) (c : Cpu n) (h : Hold κ ν χ) : Request ι → State ι κ ν χ n
  | .kill t sig =>
    if s.state t ≠ .zombie ∧ s.exiting t = false ∧ s.killPending t = 0 then
      let s' :=
        { s with
          killPending := update s.killPending t sig
          stopPending := update s.stopPending t 0 }
      if s.state t = .blocked ∨ s.state t = .stopped then s'.wakeTask c t (.woken h) else s'
    else s
  | .stop t sig =>
    if s.state t = .zombie ∨ s.state t = .stopped ∨ s.exiting t = true ∨ s.killPending t ≠ 0 then s
    else
      let s' := { s with stopPending := update s.stopPending t sig }
      if s.state t = .blocked then s'.wakeTask c t (.woken h) else s'
  | .resume t =>
    let s' := { s with stopPending := update s.stopPending t 0 }
    if s.state t = .stopped then s'.wakeTask c t (.woken h) else s'
  | .interrupt t => if s.state t = .blocked then s.wakeTask c t (.woken h) else s
  | .signals t pending blocked =>
    { s with
      sigPending := update s.sigPending t pending
      sigBlocked := update s.sigBlocked t blocked }
  | .unkillable t =>
    { s with
      exiting := update s.exiting t true
      killPending := update s.killPending t 0
      stopPending := update s.stopPending t 0
      sigPending := update s.sigPending t 0 }

/-- `stop_current`, up to the wake-ups it sends and its call of `schedule`. -/
def stopCurrent (s : State ι κ ν χ n) (c : Cpu n) (a : After κ ν χ) : State ι κ ν χ n :=
  { s with
    stopPending := update s.stopPending (s.current c) 0
    state := update s.state (s.current c) .stopped
    pc := update s.pc c (.held (.leave a)) }

/-- Release the lock handed to `sleep_on`, unless it is the scheduler's. -/
def releaseLock (s : State ι κ ν χ n) : SleepLock ν → State ι κ ν χ n
  | .lock l => { s with lockHolder := update s.lockHolder l none }
  | _ => s

/-- `sleep_on` under the scheduler lock, up to the point where it releases the caller's lock. -/
def sleepOn (s : State ι κ ν χ n) (c : Cpu n) (a : Sleep κ ν χ) : State ι κ ν χ n :=
  let self := s.current c
  if a.interruptible = true ∧ s.killPending self ≠ 0 then
    { s.releaseLock a.lock with
      schedLock := none
      pc := update s.pc c .ending }
  else if a.interruptible = true ∧ s.stopPending self ≠ 0 then s.setPc c (.release a true)
  else if a.interruptible = true ∧ s.signalDeliverable self = true then
    match a.lock with
    | .sched => s.setPc c (.held .locked)
    | _ => { s with schedLock := none, pc := update s.pc c .out }
  else
    let s' :=
      { s with
        waitChannel := update s.waitChannel self a.channel
        waits := update s.waits self a.cond
        state := update s.state self .blocked
        pc := update s.pc c (.release a false) }
    if a.wakeAt ≠ 0 then s'.sleeperAdd self c a.wakeAt else s'

def relock (s : State ι κ ν χ n) (c : Cpu n) (a : Sleep κ ν χ) : State ι κ ν χ n :=
  match a.lock with
  | .null => s.setPc c .out
  | .sched => s.withSched c fun s => s.setPc c (.held .locked)
  | .lock l =>
    if s.lockHolder l = none then
      { s with
        lockHolder := update s.lockHolder l (some (s.current c))
        pc := update s.pc c .out }
    else s

/-! ### Switching -/

def mayStay (s : State ι κ ν χ n) (c : Cpu n) : Bool :=
  s.state (s.current c) = .running &&
    (s.affinity (s.current c) = none || s.affinity (s.current c) = some c)

/-- Take a task out of a queue for this CPU, which then goes on at `p` if there is none. -/
def takeFrom (s : State ι κ ν χ n) (c d : Cpu n) (wanted : ι → Bool) (hold : Bool)
    (a : After κ ν χ) (p : Pc ι κ ν χ n) : State ι κ ν χ n :=
  match rqTake s.rq d wanted with
  | (some t, q) => { s with rq := q, pc := update s.pc c (.commit hold t a) }
  | (none, q) => { s with rq := q, pc := update s.pc c p }

def movable (s : State ι κ ν χ n) (t : ι) : Bool := s.affinity t = none

/-- `schedule`, from the point where the next task is found up to `ctx_switch`. -/
def commit (s : State ι κ ν χ n) (c : Cpu n) (hold : Bool) (next : ι) (a : After κ ν χ) :
    State ι κ ν χ n :=
  let old := s.current c
  let stays := s.state old = .running
  { s with
    rq := if stays ∧ old ≠ s.idle c ∧ s.mayStay c = true then rqPush s.rq c old else s.rq
    moving :=
      if stays ∧ old ≠ s.idle c ∧ s.mayStay c = false then update s.moving c (some old) else s.moving
    state := update (if stays then update s.state old .ready else s.state) next .running
    lastCpu := update s.lastCpu next c
    sliceLeft := update s.sliceLeft next (priorityTimeSlice (s.priority next))
    current := update s.current c next
    releaseSched := update s.releaseSched c hold
    left := update s.left c (some old)
    pc := update s.pc c (.switch old a) }

/-- `finish_switch`, once its locks are released. -/
def placeMoving (s : State ι κ ν χ n) (c : Cpu n) (moving : Option ι) (a : After κ ν χ) :
    State ι κ ν χ n :=
  { s with
    left := update s.left c none
    pc := update s.pc c (match moving with
      | some t => .place t (.moved a)
      | none => a.pc) }

/-- `finish_switch`, up to the release of the queue lock, or of both locks. -/
def finishSwitch (s : State ι κ ν χ n) (c : Cpu n) (a : After κ ν χ) : State ι κ ν χ n :=
  let s' :=
    { s with
      releaseSched := update s.releaseSched c false
      moving := update s.moving c none
      rqLock := update s.rqLock c none }
  if s.releaseSched c then s'.setPc c (.finishSched (s.moving c) a)
  else s'.placeMoving c (s.moving c) a

/-! ### The steps -/

def go (s : State ι κ ν χ n) (c : Cpu n) (seen : Seen n) : State ι κ ν χ n :=
  match s.pc c with
  | .out => s
  | .held _ => s
  | .wakeup ch rest h => s.wakeupLocked c ch rest h
  | .place t r => s.setPc c (.push t (s.chooseCpu seen t r.wasRunning) r)
  | .push t cpu r =>
    if s.rqLock cpu = none then
      { s with
        state := update s.state t .ready
        rq := rqPush s.rq cpu t
        pc := update s.pc c r.pc }
    else s
  | .requeue t =>
    match s.rq.queuedOn t with
    | none => s.setPc c (.held .locked)
    | some on =>
      if s.affinity t = none ∨ s.affinity t = some on then s.setPc c (.held .locked)
      else s.setPc c (.unqueue t on)
  | .unqueue t on =>
    if s.rqLock on = none then
      if s.rq.queuedOn t = some on then
        { s with rq := rqRemove s.rq on t, pc := update s.pc c (.place t .requeued) }
      else s.setPc c (.requeue t)
    else s
  | .sleep a => s.withSched c fun s => s.sleepOn c a
  | .release a stop =>
    let s' := s.releaseLock a.lock
    if stop then s'.stopCurrent c (.continued a) else s'.setPc c (.schedule true (.woken a))
  | .woken a =>
    if a.interruptible = true ∧ s.killPending (s.current c) ≠ 0 then s.setPc c .ending
    else s.setPc c (.relock a)
  | .relock a => s.relock c a
  | .ending =>
    s.withSched c fun s =>
      { s with
        exiting := update s.exiting (s.current c) true
        killPending := update s.killPending (s.current c) 0
        sigPending := update s.sigPending (s.current c) 0
        pc := update s.pc c (.held .locked) }
  | .handOver target =>
    if s.rqLock c = none then
      { s with rqLock := update s.rqLock c (some c), pc := update s.pc c (.give target) }
    else s
  | .give target =>
    { s with
      rq :=
        if s.rqLock target = none then
          match rqTake s.rq c s.movable with
          | (some t, q) => rqPush q target t
          | (none, q) => q
        else s.rq
      rqLock := update s.rqLock c none
      pc := update s.pc c .tock }
  | .tock =>
    let self := s.current c
    if self ≠ s.idle c ∧ s.state self = .running ∧ 1 < s.sliceLeft self then
      { s with
        sliceLeft := update s.sliceLeft self (s.sliceLeft self - 1)
        pc := update s.pc c .out }
    else s.setPc c (.schedule false .back)
  | .schedule hold a =>
    if s.rqLock c = none then
      { s with rqLock := update s.rqLock c (some c) }.takeFrom c c (fun _ => true) hold a
        (.steal hold (s.stealOrder seen c) a)
    else s
  | .steal hold [] a =>
    if s.mayStay c then
      { s with
        rqLock := update s.rqLock c none
        schedLock := if hold then none else s.schedLock
        pc := update s.pc c a.pc }
    else s.setPc c (.commit hold (s.idle c) a)
  | .steal hold (d :: order) a =>
    if s.rqLock d = none then s.takeFrom c d s.movable hold a (.steal hold order a) else s
  | .commit hold next a => s.commit c hold next a
  | .switch old a =>
    let saved := update s.saved old a
    { s with saved := saved, pc := update s.pc c (.finish (saved (s.current c))) }
  | .finish a => s.finishSwitch c a
  | .finishSched moving a => { s with schedLock := none }.placeMoving c moving a

/-- By code that holds its lock. Who makes it true has to call `sched_wakeup` on its channel. -/
def assign (R : Rule κ ν χ) (s : State ι κ ν χ n) (c : Cpu n) (k : κ) (b : Bool) : State ι κ ν χ n :=
  let self := s.current c
  if b = true ∧ s.cond k = false then
    { s with
      cond := update s.cond k true
      owes := update s.owes self (R.chan k :: s.owes self)
      setter := update s.setter k (some self) }
  else { s with cond := update s.cond k b }

def Holds (R : Rule κ ν χ) (s : State ι κ ν χ n) (c : Cpu n) (k : κ) : Prop :=
  match R.lock k with
  | some l => s.lockHolder l = some (s.current c)
  | none => s.schedLock = some c

instance (R : Rule κ ν χ) (s : State ι κ ν χ n) (c : Cpu n) (k : κ) : Decidable (s.Holds R c k) := by
  unfold Holds
  cases R.lock k <;> exact inferInstance

/-- The lock is held and, if the sleep is for a condition, is that condition's, as is the channel,
and the condition has been found false. -/
def MaySleep (R : Rule κ ν χ) (s : State ι κ ν χ n) (c : Cpu n) (a : Sleep κ ν χ) : Prop :=
  s.current c ≠ s.idle c ∧
  (match a.lock with
    | .lock l => s.lockHolder l = some (s.current c)
    | _ => True) ∧
  match a.cond with
  | some k => s.cond k = false ∧ a.channel = some (R.chan k) ∧ a.lock = R.sleepLock k
  | none => True

instance (R : Rule κ ν χ) (s : State ι κ ν χ n) (c : Cpu n) (a : Sleep κ ν χ) :
    Decidable (s.MaySleep R c a) := by
  unfold MaySleep
  cases a.lock <;> cases a.cond <;> exact inferInstance

def stepOut (R : Rule κ ν χ) (s : State ι κ ν χ n) (c : Cpu n) : Act ι κ ν χ n → State ι κ ν χ n
  | .lock l =>
    if s.lockHolder l = none then
      { s with lockHolder := update s.lockHolder l (some (s.current c)) }
    else s
  | .unlock l =>
    if s.lockHolder l = some (s.current c) then
      { s with lockHolder := update s.lockHolder l none }
    else s
  | .assign k b => if s.Holds R c k then s.assign R c k b else s
  | .schedYield => s.setPc c (.schedule false .back)
  | .schedTick seen =>
    if s.current c = s.idle c then s.setPc c .tock
    else
      match s.handOverTarget seen c with
      | some target => s.setPc c (.handOver target)
      | none => s.setPc c .tock
  | .sleepOn a => if a.lock ≠ .sched ∧ s.MaySleep R c a then s.setPc c (.sleep a) else s
  | .taskExit => if s.current c ≠ s.idle c then s.setPc c .ending else s
  | .lockSched => s.withSched c fun s => s.setPc c (.held .locked)
  | _ => s

/-- `task_alloc` and `enqueue_task`, up to its call of `place_task`. -/
def add (s : State ι κ ν χ n) (c : Cpu n) (t : ι) (affinity : Option (Cpu n)) (priority : Priority) :
    State ι κ ν χ n :=
  { s with
    state := update s.state t .ready
    affinity := update s.affinity t affinity
    lastCpu := update s.lastCpu t 0
    priority := update s.priority t priority
    sliceLeft := update s.sliceLeft t 0
    waitChannel := update s.waitChannel t none
    sleepingOn := update s.sleepingOn t none
    killPending := update s.killPending t 0
    stopPending := update s.stopPending t 0
    sigPending := update s.sigPending t 0
    sigBlocked := update s.sigBlocked t 0
    exiting := update s.exiting t false
    saved := update s.saved t .back
    waits := update s.waits t none
    rq := { s.rq with queuedOn := update s.rq.queuedOn t none }
    tasks := s.tasks ++ [t]
    pc := update s.pc c (.place t .created) }

/-- What the kernel's code may do under the scheduler lock with the current task RUNNING. -/
def stepLocked (R : Rule κ ν χ) (s : State ι κ ν χ n) (c : Cpu n) :
    Act ι κ ν χ n → State ι κ ν χ n
  | .unlockSched => { s with schedLock := none, pc := update s.pc c .out }
  | .sleepOn a => if a.lock = .sched ∧ s.MaySleep R c a then s.sleepOn c a else s
  | .setAffinity t cpu =>
    if t ∈ s.tasks then
      { s with
        affinity := update s.affinity t (cpu.filter fun i => s.online i)
        pc := update s.pc c (.requeue t) }
    else s
  | .add t affinity priority =>
    if t ∉ s.tasks ∧ ∀ i, s.idle i ≠ t then s.add c t affinity priority else s
  | .wakeSleeper cpu now =>
    match s.sleepers cpu with
    | t :: _ => if s.sleepKey t ≤ now then s.wakeTask c t (.woken .locked) else s
    | [] => s
  | .stopCurrent =>
    let self := s.current c
    if self ≠ s.idle c ∧ s.stopPending self ≠ 0 ∧ s.killPending self = 0 then s.stopCurrent c .back
    else s
  | .die =>
    let self := s.current c
    if self ≠ s.idle c ∧ s.exiting self = true then
      { s with state := update s.state self .zombie, pc := update s.pc c (.held (.leave .back)) }
    else s
  | .unlinkZombie t =>
    if s.state t = .zombie ∧ t ≠ s.current c then { s with tasks := s.tasks.erase t } else s
  | _ => s

/-- A task that dies has made the calls it owes before it leaves. -/
def stepHeld (R : Rule κ ν χ) (s : State ι κ ν χ n) (c : Cpu n) (h : Hold κ ν χ) :
    Act ι κ ν χ n → State ι κ ν χ n
  | .wakeupLocked ch => s.setPc c (.wakeup ch s.tasks h)
  | .request r =>
    if r.task ∈ s.tasks ∧ (h = .locked ∨ r.task ≠ s.current c) then s.request c h r else s
  | .assign k b => if s.Holds R c k then s.assign R c k b else s
  | .depart =>
    match h with
    | .leave a =>
      if s.state (s.current c) = .zombie → s.owes (s.current c) = [] then
        s.setPc c (.schedule true a)
      else s
    | .locked => s
  | act =>
    match h with
    | .locked => s.stepLocked R c act
    | .leave _ => s

/-- A step of the machine.  A CPU takes part from `sched_join_this_cpu` on. -/
def step (R : Rule κ ν χ) (s : State ι κ ν χ n) (e : Event ι κ ν χ n) : State ι κ ν χ n :=
  let c := e.1
  if s.online c = true then
    match e.2 with
    | .go seen => s.go c seen
    | .giveUp =>
      match s.pc c with
      | .steal hold (d :: order) a =>
        if s.rqLock d ≠ none then s.setPc c (.steal hold order a) else s
      | _ => s
    | act =>
      match s.pc c with
      | .out => s.stepOut R c act
      | .held h => s.stepHeld R c h act
      | _ => s
  else
    match e.2 with
    | .join => if s.schedLock = none then { s with online := update s.online c true } else s
    | _ => s

end State

/-- The boot sequence, and the idle task of each CPU. -/
structure Boot (ι : Type*) (n : ℕ) where
  main : ι
  idle : Cpu n → ι
  idle_injective : Function.Injective idle
  idle_ne_main : ∀ c, idle c ≠ main

/-- After `sched_init`, with the other CPUs' idle tasks as `sched_prepare_cpu` sets them up. -/
def Boot.init [DecidableEq ι] (b : Boot ι n) (cond : κ → Bool) : State ι κ ν χ n where
  state t := if t = b.main ∨ ∃ c, c ≠ 0 ∧ b.idle c = t then .running else .ready
  affinity t := if t = b.main then some 0 else (List.finRange (n + 1)).find? fun c => b.idle c = t
  lastCpu t := ((List.finRange (n + 1)).find? fun c => b.idle c = t).getD 0
  priority t := if ∃ c, b.idle c = t then .low else .normal
  sliceLeft t := if t = b.main then priorityTimeSlice .normal else 0
  waitChannel _ := none
  sleepKey _ := 0
  sleepingOn _ := none
  killPending _ := 0
  stopPending _ := 0
  sigPending _ := 0
  sigBlocked _ := 0
  exiting _ := false
  saved _ := .back
  tasks := [b.main]
  sleepers _ := []
  rq :=
    { runNext := fun _ => none
      queuedOn := fun _ => none
      head := fun _ => none
      tail := fun _ => none
      count := fun _ => 0 }
  moving _ := none
  releaseSched _ := false
  current := update b.idle 0 b.main
  idle := b.idle
  online c := c = 0
  pc _ := .out
  schedLock := none
  rqLock _ := none
  lockHolder _ := none
  cond := cond
  left _ := none
  waits _ := none
  owes _ := []
  setter _ := none

attribute [grind =] State.assign State.finishSwitch State.mayStay State.setPc State.sleeperRemove
  State.wakeTask

end Bashket.Sched
