import Mathlib

/-!
# Signals of a process

A process has a disposition for every signal and any number of threads, each with its own set of
pending and of blocked signals. A signal that is sent becomes pending in a thread that does not
block it; what is pending and not blocked is acted on (`act_on_pending`): it ends or stops the
process, or cuts short a sleep so that its handler can be run when the thread returns to user mode
(`signal_deliver`). Ending and stopping are requests to every thread, which take effect at its next
safe point (`sched_check_kill`, or going to sleep).

Every hold of the scheduler lock is one step, and a thread may take any step at any time its own
state allows.
-/

namespace Bashket.Signal

/-! ### Signal numbers and sets of signals -/

abbrev nsig : ℕ := 32

abbrev sigKill : ℕ := 9

abbrev sigSegv : ℕ := 11

abbrev sigChld : ℕ := 17

abbrev sigCont : ℕ := 18

abbrev sigStop : ℕ := 19

abbrev sigTstp : ℕ := 20

abbrev sigTtin : ℕ := 21

abbrev sigTtou : ℕ := 22

abbrev sigDfl : ℕ := 0

abbrev sigIgn : ℕ := 1

abbrev saRestart : ℕ := 1

abbrev userSpaceEnd : ℕ := 0x800000000000

abbrev maxThreads : ℕ := 16

/-- A set of signals: bit `n` for signal `n`. -/
abbrev Mask : Type := BitVec 32

def bit (sig : ℕ) : Mask := 1#32 <<< sig

def unblockable : Mask := bit sigKill ||| bit sigStop

def validSignal (sig : ℕ) : Bool := 0 < sig && sig < nsig

def defaultIsIgnore (sig : ℕ) : Bool := sig = sigChld || sig = sigCont

/-- `default_is_stop`; these are also the signals of `STOP_SIGNALS`. -/
def defaultIsStop (sig : ℕ) : Bool :=
  sig = sigStop || sig = sigTstp || sig = sigTtin || sig = sigTtou

def signals : List ℕ := List.range' 1 (nsig - 1)

/-! ### Threads and processes -/

/-- The state of a task (one that is ready counts as running). -/
inductive TaskState
  | running
  | blocked
  | stopped
  | zombie
deriving DecidableEq, Repr

inductive Call
  | none
  /-- `signal_deliver` is about to end the process because of this signal -/
  | fatal (sig : ℕ)
  /-- `exec`: waiting for the other threads to go -/
  | execWait
  /-- `exec`: about to reset the dispositions -/
  | execReset
  /-- `exec`: about to act on what is pending -/
  | execAct
  /-- `task_end`: about to stop counting as alive -/
  | ending (status : ℕ)
  /-- `task_end`: about to become a zombie -/
  | left
deriving DecidableEq, Repr

/-- What `task_t` has about signals. -/
structure Thread where
  state : TaskState
  exiting : Bool
  killPending : ℕ
  stopPending : ℕ
  sigPending : Mask
  sigBlocked : Mask
  call : Call

/-- `order`: as the list of tasks has the threads; `leader`: the one the process is found by;
`parentAsleep`: the parent sleeps in `waitpid` with `WUNTRACED`. -/
structure Process where
  handlers : ℕ → ℕ
  masks : ℕ → Mask
  flags : ℕ → ℕ
  restorer : ℕ
  live : ℕ
  groupExit : Bool
  exitStatus : ℕ
  execTid : Option ℕ
  stopSignal : ℕ
  stopReported : Bool
  parentAsleep : Bool
  leader : ℕ
  order : List ℕ
  threads : ℕ → Thread

namespace Thread

variable (t : Thread)

def pends (sig : ℕ) : Bool := t.sigPending.getLsbD sig

/-- `signal_deliverable`, for one signal. -/
def ready (sig : ℕ) : Bool := t.pends sig && !t.sigBlocked.getLsbD sig

def dropPending (sig : ℕ) : Thread := { t with sigPending := t.sigPending &&& ~~~ bit sig }

/-- `wake_task`, for a task that sleeps. -/
def wakeBlocked : Thread := if t.state = .blocked then { t with state := .running } else t

def requestKill (sig : ℕ) : Thread :=
  if t.state ≠ .zombie ∧ !t.exiting ∧ t.killPending = 0 then
    { t with killPending := sig, stopPending := 0, state := .running }
  else t

def requestStop (sig : ℕ) : Thread :=
  if t.state = .zombie ∨ t.state = .stopped ∨ t.exiting ∨ t.killPending ≠ 0 then t
  else { t with stopPending := sig, state := .running }

def cont : Thread :=
  { t with stopPending := 0, state := if t.state = .stopped then .running else t.state }

def exit (status : ℕ) : Thread :=
  { t with exiting := true, killPending := 0, sigPending := 0, call := .ending status }

def usable : Bool := !t.exiting && t.state ≠ .zombie

def free : Bool := t.state = .running && !t.exiting && t.call = .none

end Thread

namespace Process

variable (p : Process)

def update (i : ℕ) (f : Thread → Thread) : Process :=
  { p with threads := Function.update p.threads i (f (p.threads i)) }

def forEachThread (f : Thread → Thread) : Process :=
  { p with threads := fun i => if i ∈ p.order then f (p.threads i) else p.threads i }

def ignores (sig : ℕ) : Bool :=
  p.handlers sig = sigIgn || (p.handlers sig = sigDfl && defaultIsIgnore sig)

def receiver (sig : ℕ) : Option ℕ :=
  let task := p.threads p.leader
  let unblocked := fun i => (p.threads i).usable && !(p.threads i).sigBlocked.getLsbD sig
  if task.usable ∧ !task.sigBlocked.getLsbD sig then some p.leader
  else match p.order.find? unblocked with
    | some i => some i
    | none => if task.usable then some p.leader else p.order.find? fun i => (p.threads i).usable

/-- `act_on_pending`, for one signal that is pending and not blocked. -/
def actOn (i : ℕ) (p : Process) (sig : ℕ) : Process :=
  let handler := p.handlers sig
  if handler = sigDfl then
    let p := p.update i fun t => t.dropPending sig
    if defaultIsStop sig then p.forEachThread fun t => t.requestStop sig
    else if !defaultIsIgnore sig then p.forEachThread fun t => t.requestKill sig
    else p
  else if handler = sigIgn then p.update i fun t => t.dropPending sig
  else p.update i Thread.wakeBlocked

def actOnPending (i : ℕ) : Process :=
  (signals.filter (p.threads i).ready).foldl (actOn i) p

/-- `signal_send_locked`: stopping and continuing cancel each other. -/
def cancel (sig : ℕ) : Process :=
  if sig = sigCont then
    let drop := fun (p : Process) stop => p.forEachThread fun t => t.dropPending stop
    ((signals.filter defaultIsStop).foldl drop p).forEachThread Thread.cont
  else if defaultIsStop sig then p.forEachThread fun t => t.dropPending sigCont
  else p

def raise (i sig : ℕ) : Process :=
  p.update i fun t => { t with sigPending := t.sigPending ||| bit sig }

/-- `signal_send_locked`, to the process. -/
def send (sig : ℕ) : Process :=
  if !validSignal sig ∨ p.live = 0 then p
  else if sig = sigKill then p.forEachThread fun t => t.requestKill sig
  else if sig = sigStop then (p.cancel sig).forEachThread fun t => t.requestStop sig
  -- a signal that would be ignored is dropped at once
  else if (p.cancel sig).ignores sig then p.cancel sig
  else match (p.cancel sig).receiver sig with
    | none => p.cancel sig
    | some i => ((p.cancel sig).raise i sig).actOnPending i

def withAction (sig handler : ℕ) (mask : Mask) (flags restorer : ℕ) : Process :=
  { p with
    handlers := Function.update p.handlers sig handler
    masks := Function.update p.masks sig (mask &&& ~~~ unblockable)
    flags := Function.update p.flags sig flags
    restorer := if handler ≠ sigDfl ∧ handler ≠ sigIgn then restorer else p.restorer }

/-- `signal_set_action`, where it may change the action. -/
def setAction (sig handler : ℕ) (mask : Mask) (flags restorer : ℕ) : Process :=
  let p := p.withAction sig handler mask flags restorer
  -- one that is now ignored has nothing left to deliver
  if p.ignores sig then p.forEachThread fun t => t.dropPending sig else p

/-- The checks of `signal_set_action`. -/
def actionOk (sig handler flags restorer : ℕ) : Prop :=
  validSignal sig ∧ sig ≠ sigKill ∧ sig ≠ sigStop ∧
    (handler ≠ sigDfl → handler ≠ sigIgn →
      handler < userSpaceEnd ∧ restorer ≠ 0 ∧ restorer < userSpaceEnd) ∧
    flags ≤ saRestart

instance (sig handler flags restorer : ℕ) : Decidable (actionOk sig handler flags restorer) :=
  inferInstanceAs (Decidable (_ ∧ _ ∧ _ ∧ _ ∧ _))

/-- The `how` of `signal_change_mask`. -/
inductive How
  | block
  | unblock
  | setmask
deriving DecidableEq, Repr

/-- The set of blocked signals that `signal_change_mask` leaves. -/
def maskAfter (how : How) (set blocked : Mask) : Mask :=
  (match how with
    | .block => blocked ||| set
    | .unblock => blocked &&& ~~~ set
    | .setmask => set) &&& ~~~ (unblockable ||| 1#32)

def setBlocked (i : ℕ) (how : How) (set : Mask) : Process :=
  p.update i fun t => { t with sigBlocked := maskAfter how set t.sigBlocked }

def changeMask (i : ℕ) (how : How) (set : Mask) : Process :=
  (p.setBlocked i how set).actOnPending i

def nextSignal (i : ℕ) : Option ℕ := signals.find? (p.threads i).ready

/-- Up to where the frame is written: the signal is taken, and its handler entered with more signals
blocked (`stack`: there is room for its frame). -/
def deliver (i : ℕ) (stack : Bool) : Process :=
  match p.nextSignal i with
  | none => p
  | some sig =>
    let handler := p.handlers sig
    let p := p.update i fun t => t.dropPending sig
    if handler = sigIgn then p
    else if handler = sigDfl then
      if defaultIsIgnore sig || defaultIsStop sig then p
      else p.update i fun t => { t with call := .fatal sig }
    else
      let more := (p.masks sig ||| bit sig) &&& ~~~ unblockable
      let p := p.update i fun t => { t with sigBlocked := t.sigBlocked ||| more }
      if stack then p else p.update i fun t => { t with call := .fatal sigSegv }

/-- The dispositions after `signal_reset_on_exec`. -/
def resetActions : Process :=
  { p with
    handlers := fun sig => if p.handlers sig ≠ sigIgn then sigDfl else sigIgn
    masks := fun _ => 0
    flags := fun _ => 0
    restorer := 0 }

/-! ### The ends of threads -/

def killOthers (i : ℕ) : Process :=
  if p.live ≤ 1 then p
  else { p with threads := fun j =>
          if j ∈ p.order ∧ j ≠ i then (p.threads j).requestKill sigKill else p.threads j }

/-- The end of thread `i` ends the process: not if another thread is in `exec`. -/
def endsWhole (i : ℕ) (whole : Bool) : Bool :=
  whole && (p.execTid = none || p.execTid = some i) && !p.groupExit

def endGroup (i status : ℕ) : Process :=
  { p with groupExit := true, exitStatus := status }.killOthers i

/-- `task_end`, its first hold of the lock. -/
def taskEnd (i status : ℕ) (whole : Bool) : Process :=
  let gone := p.update i fun t => t.exit status
  if p.endsWhole i whole then gone.endGroup i status else gone

/-- `task_end`: the thread stops counting as alive. -/
def leave (i status : ℕ) : Process :=
  let p := { p with live := p.live - 1 }
  let p := if p.live = 0 ∧ !p.groupExit then { p with exitStatus := status } else p
  p.update i fun t => { t with call := .left }

/-- `task_end`: the thread is a zombie. -/
def becomeZombie (i : ℕ) : Process := p.update i fun t => { t with state := .zombie, call := .none }

def stopped : Bool :=
  p.live ≠ 0 && p.order.all fun i => (p.threads i).state = .stopped || (p.threads i).state = .zombie

def stopCurrent (i : ℕ) : Process :=
  let p := { p with stopSignal := (p.threads i).stopPending, stopReported := false }
  let p := p.update i fun t => { t with stopPending := 0, state := .stopped }
  if p.stopped then { p with parentAsleep := false } else p

def checkKill (i : ℕ) : Process :=
  let t := p.threads i
  if t.killPending ≠ 0 then p.taskEnd i (128 + t.killPending) true
  else if t.stopPending ≠ 0 then p.stopCurrent i
  else p

/-- `sleep_on`, for a sleep that may be cut short. -/
def sleep (i : ℕ) : Process :=
  let t := p.threads i
  if t.killPending ≠ 0 then p.taskEnd i (128 + t.killPending) true
  else if t.stopPending ≠ 0 then p.stopCurrent i
  else if signals.any t.ready then p
  else p.update i fun t => { t with state := .blocked }

theorem sleep_cases (i : ℕ) : p.sleep i = p.checkKill i ∨
    ((p.threads i).killPending = 0 ∧ (p.threads i).stopPending = 0) ∧
      p.sleep i = p.update i fun t => { t with state := .blocked } := by
  unfold sleep checkKill
  dsimp only
  split_ifs with h1 h2
  · exact .inl rfl
  · exact .inl rfl
  · exact .inl rfl
  · exact .inr ⟨⟨not_not.1 h1, not_not.1 h2⟩, rfl⟩

/-- `sched_add_thread`: the thread `i` creates the thread `j`. -/
def addThread (i j : ℕ) : Process :=
  let creator := p.threads i
  if !p.groupExit ∧ p.execTid = none ∧ creator.killPending = 0 ∧ p.live < maxThreads then
    let thread : Thread :=
      { state := .running, exiting := false, killPending := 0, stopPending := 0, sigPending := 0,
        sigBlocked := creator.sigBlocked, call := .none }
    { p with live := p.live + 1, order := p.order ++ [j],
             threads := Function.update p.threads j thread }
  else p

/-! ### `exec` -/

/-- The thread is alone: it is what the process is found by. -/
def execAlone (i : ℕ) : Process :=
  { p with execTid := none, leader := i }.update i fun t => { t with call := .execReset }

/-- `sched_end_other_threads`, at its start. -/
def execBegin (i : ℕ) : Process :=
  if p.groupExit ∨ p.execTid ≠ none then p
  else if p.live > 1 then
    ({ p with execTid := some i }.killOthers i).update i fun t => { t with call := .execWait }
  else p.execAlone i

end Process

/-! ### Steps -/

inductive Event
  | send (sig : ℕ)
  | sigaction (i sig handler : ℕ) (mask : Mask) (flags restorer : ℕ)
  /-- `sigprocmask`, or the end of `signal_return` -/
  | sigmask (i : ℕ) (how : Process.How) (set : Mask)
  /-- `signal_deliver`; `stack`: there is room for a frame -/
  | deliver (i : ℕ) (stack : Bool)
  | exit (i status : ℕ) (whole : Bool)
  | checkKill (i : ℕ)
  | sleep (i : ℕ)
  | wake (i : ℕ)
  | addThread (i j : ℕ)
  | exec (i : ℕ)
  | resume (i : ℕ)
  | reap (i : ℕ)
  /-- the parent looks for a stopped child, and is woken for some other reason -/
  | wait
  | wakeParent

namespace Process

variable (p : Process)

def act (i : ℕ) (f : Process → Process) : Process :=
  if i ∈ p.order ∧ (p.threads i).free then f p else p

def resume (i : ℕ) : Process :=
  match (p.threads i).call with
  | .none => p
  | .fatal sig => p.taskEnd i (128 + sig) true
  | .execWait => if p.live ≤ 1 then p.execAlone i else p
  | .execReset => p.resetActions.update i fun t => { t with call := .execAct }
  | .execAct => (p.update i fun t => { t with call := .none }).actOnPending i
  | .ending status => p.leave i status
  | .left => p.becomeZombie i

/-- One that cannot happen changes nothing. -/
def step : Event → Process
  | .send sig => p.send sig
  | .sigaction i sig handler mask flags restorer =>
    p.act i fun p =>
      if actionOk sig handler flags restorer then p.setAction sig handler mask flags restorer else p
  | .sigmask i how set => p.act i fun p => p.changeMask i how set
  | .deliver i stack => p.act i fun p => p.deliver i stack
  | .exit i status whole => p.act i fun p => p.taskEnd i status whole
  | .checkKill i => p.act i fun p => p.checkKill i
  | .sleep i => p.act i fun p => p.sleep i
  | .wake i => p.update i Thread.wakeBlocked
  | .addThread i j => p.act i fun p => if j ∈ p.order then p else p.addThread i j
  | .exec i => p.act i fun p => p.execBegin i
  | .resume i => if i ∈ p.order then p.resume i else p
  | .reap i =>
    -- (the leader goes when the process does)
    if (p.threads i).state = .zombie ∧ i ≠ p.leader then { p with order := p.order.erase i } else p
  | .wait =>
    if p.parentAsleep then p
    else if p.stopped && !p.stopReported then { p with stopReported := true }
    else { p with parentAsleep := true }
  | .wakeParent => { p with parentAsleep := false }

end Process

attribute [grind =] Thread.exit Thread.usable

end Bashket.Signal
