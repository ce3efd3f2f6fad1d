import Bashket.Ipc.Pipe
import Bashket.Lib.Handles

/-!
# The ends of pipes

A pipe is freed by the one who closes the second of its two ends. The open files over it count their
references. `file_open_pipe` makes a file for each end; a local socket (`file_open_local_pair`)
reads from one pipe and writes to another one. The last `file_close` closes the ends a file has, but
the writing end of a local socket may be closed before, by `file_local_shutdown`.

A step is what a call does with a lock held, or one of its atomic reads and writes of `refs` and
`local_shut`, or one `kfree`; what `pipe_read` and `pipe_write` do under the lock is as in
`Bashket.Pipes`. Pipes and files are numbered as they are made.
-/

namespace Bashket.PipeEnds

open Run Pipes
open Function (update update_eq_self update_of_ne update_self)

inductive Side
  | reader
  | writer
deriving DecidableEq

/-- A file over one end of a pipe (`FILE_PIPE`), or over two pipes (`FILE_LOCAL`). -/
inductive Kind
  | pipe (p : ℕ) (side : Side)
  | socket (localIn localOut : ℕ)
deriving DecidableEq

/-- `file_t`; `calls` are the tasks that have one of the references for a call. -/
structure File where
  kind : Kind
  localShut : Bool
  refs : ℕ
  calls : List ℕ

/-- `close_end` with its lock, the look at `local_shut`, and the `kfree` after a `close_end`. -/
inductive Job
  | close (p : ℕ) (side : Side)
  | exchange
  | kfree (p : ℕ)
deriving DecidableEq

inductive Pc
  | idle
  /-- in `pipe_read` and `pipe_write`, before it has the lock (again) -/
  | read (f p count : ℕ)
  | write (f p : ℕ) (src : List UInt8) (done : ℕ)
  /-- in `pipe_poll` of the reading and of the writing end -/
  | pollIn (f p : ℕ)
  | pollOut (f p : ℕ)
  /-- in `file_write` and `file_poll`, before it looks at `local_shut` -/
  | checkWrite (f : ℕ) (src : List UInt8)
  | checkPoll (f : ℕ)
  /-- closes ends: in `file_local_shutdown`, or (`last`) in the last `file_close` -/
  | work (f : ℕ) (jobs : List Job) (last : Bool)
  | leave (f : ℕ)

/-- `made`, `opened`: how many pipes and files there have been; `freed`: how often each pipe was;
`closed`: the ends that have been closed. -/
structure State where
  pipes : ℕ → Pipe
  made : ℕ
  freed : ℕ → ℕ
  files : ℕ → Option File
  opened : ℕ
  pc : ℕ → Pc
  closed : List ℕ

inductive Event
  /-- `file_open_pipe`, `file_open_local_pair` -/
  | openPipe
  | openLocalPair
  | dup (f : ℕ)
  | drop (t f : ℕ)
  /-- a call of a task: `file_read`, `file_write`, `file_poll`, `file_local_shutdown` -/
  | read (t f count : ℕ)
  | write (t f : ℕ) (src : List UInt8)
  | poll (t f : ℕ)
  | shutdown (t f : ℕ)
  /-- a task takes its next step; `interrupted`: a signal is waiting for it -/
  | turn (t : ℕ) (interrupted : Bool)
  | die (t : ℕ)

abbrev onPipe (x : Pipe) : Pipes.State := { Pipes.start with pipe := x }

/-- `*end = false` -/
def shutEnd (x : Pipe) : Side → Pipe
  | .reader => { x with readerOpen := false }
  | .writer => { x with writerOpen := false }

def BothClosed (x : Pipe) : Prop := x.readerOpen = false ∧ x.writerOpen = false

instance (x : Pipe) : Decidable (BothClosed x) := inferInstanceAs (Decidable (_ ∧ _))

def endId (p : ℕ) : Side → ℕ
  | .reader => 2 * p
  | .writer => 2 * p + 1

/-- What the last `file_close` of a file has to do. -/
def Kind.jobs : Kind → List Job
  | .pipe p side => [.close p side]
  | .socket localIn _ => [.close localIn .reader, .exchange]

namespace State

variable (s : State)

def goto (t : ℕ) (pc : Pc) : State := { s with pc := update s.pc t pc }

def setPipe (p : ℕ) (x : Pipe) : State := { s with pipes := update s.pipes p x }

def setFile (f : ℕ) (x : Option File) : State := { s with files := update s.files f x }

/-- `pipe_create` -/
def createPipe : State := { s.setPipe s.made .create with made := s.made + 1 }

/-- `file_alloc` -/
def allocFile (kind : Kind) : State :=
  { s.setFile s.opened (some ⟨kind, false, 1, []⟩) with opened := s.opened + 1 }

/-- A task begins a call: it takes a reference to a file that is in a descriptor. -/
def enter (t f : ℕ) (next : File → Pc) : State :=
  match s.pc t, s.files f with
  | .idle, some x =>
    if x.calls.length < x.refs then
      (s.setFile f (some { x with refs := x.refs + 1, calls := t :: x.calls })).goto t (next x)
    else s
  | _, _ => s

/-- `file_close`: a reference is given up, by the last one the ends are closed. -/
def fileClose (t f : ℕ) (x : File) (calls : List ℕ) : State :=
  let s' := s.setFile f (some { x with refs := x.refs - 1, calls })
  if x.refs - 1 > 0 then s'.goto t .idle else s'.goto t (.work f x.kind.jobs true)

/-- `pipe_read` with the lock. -/
def pipeRead (t f p count : ℕ) (interrupted : Bool) : State :=
  match (onPipe (s.pipes p)).readTurn count interrupted with
  | none => s
  | some (.error _) => s.goto t (.leave f)
  | some (.ok bytes) => (s.setPipe p ((s.pipes p).take bytes.length)).goto t (.leave f)

/-- `pipe_write` with the lock. -/
def pipeWrite (t f p : ℕ) (src : List UInt8) (done : ℕ) (interrupted : Bool) : State :=
  let bytes := (onPipe (s.pipes p)).room src done
  let done := done + bytes.length
  let s' := s.setPipe p ((s.pipes p).fill bytes)
  match (onPipe (s.pipes p)).writeTurn src done interrupted with
  | none => s'.goto t (.write f p src done)
  | some _ => s'.goto t (.leave f)

/-- `close_end` with the lock; the one who finds both ends closed has to free the pipe. -/
def closeEnd (t f p : ℕ) (side : Side) (rest : List Job) (last : Bool) : State :=
  let x := shutEnd (s.pipes p) side
  let s' := { s.setPipe p x with closed := s.closed ++ [endId p side] }
  if BothClosed x then s'.goto t (.work f (.kfree p :: rest) last)
  else s'.goto t (.work f rest last)

def doJob (t f : ℕ) : List Job → Bool → State
  | .close p side :: rest, last => s.closeEnd t f p side rest last
  | .exchange :: rest, last =>
    match s.files f with
    | some ⟨.socket localIn localOut, false, refs, calls⟩ =>
      (s.setFile f (some ⟨.socket localIn localOut, true, refs, calls⟩)).goto t
        (.work f (.close localOut .writer :: rest) last)
    | _ => s.goto t (.work f rest last)
  | .kfree p :: rest, last =>
    { s with freed := update s.freed p (s.freed p + 1) }.goto t (.work f rest last)
  | [], true => (s.setFile f none).goto t .idle
  | [], false => s.goto t (.leave f)

def turn (t : ℕ) (interrupted : Bool) : State :=
  match s.pc t with
  | .idle => s
  | .read f p count => s.pipeRead t f p count interrupted
  | .write f p src done => s.pipeWrite t f p src done interrupted
  | .pollIn f _ =>
    match s.files f with
    | some ⟨.socket _ _, _, _, _⟩ => s.goto t (.checkPoll f)
    | _ => s.goto t (.leave f)
  | .pollOut f _ => s.goto t (.leave f)
  | .checkWrite f src =>
    match s.files f with
    | some ⟨.socket _ localOut, false, _, _⟩ => s.goto t (.write f localOut src 0)
    | _ => s.goto t (.leave f)
  | .checkPoll f =>
    match s.files f with
    | some ⟨.socket _ localOut, false, _, _⟩ => s.goto t (.pollOut f localOut)
    | _ => s.goto t (.leave f)
  | .work f jobs last => s.doJob t f jobs last
  | .leave f =>
    match s.files f with
    | some x => s.fileClose t f x (x.calls.erase t)
    | none => s

/-- One that cannot happen changes nothing. -/
def step : Event → State
  | .openPipe => (s.createPipe.allocFile (.pipe s.made .reader)).allocFile (.pipe s.made .writer)
  | .openLocalPair =>
    (s.createPipe.createPipe.allocFile (.socket s.made (s.made + 1))).allocFile
      (.socket (s.made + 1) s.made)
  | .dup f =>
    match s.files f with
    | some x => if 0 < x.refs then s.setFile f (some { x with refs := x.refs + 1 }) else s
    | none => s
  | .drop t f =>
    match s.pc t, s.files f with
    | .idle, some x => if x.calls.length < x.refs then s.fileClose t f x x.calls else s
    | _, _ => s
  | .read t f count =>
    s.enter t f fun x =>
      if count = 0 then .leave f
      else match x.kind with
        | .pipe p .reader | .socket p _ => .read f p count
        | .pipe _ .writer => .leave f
  | .write t f src =>
    s.enter t f fun x =>
      if src = [] then .leave f
      else match x.kind with
        | .pipe p .writer => .write f p src 0
        | .socket _ _ => .checkWrite f src
        | .pipe _ .reader => .leave f
  | .poll t f =>
    s.enter t f fun x =>
      match x.kind with
      | .pipe p .reader | .socket p _ => .pollIn f p
      | .pipe p .writer => .pollOut f p
  | .shutdown t f =>
    s.enter t f fun x =>
      match x.kind with
      | .socket _ _ => .work f [.exchange] false
      | .pipe _ _ => .leave f
  | .turn t interrupted => s.turn t interrupted
  | .die t =>
    match s.pc t with
    | .read f _ _ | .write f _ _ _ => s.goto t (.leave f)
    | _ => s

end State

def start : State where
  pipes _ := .create
  made := 0
  freed _ := 0
  files _ := none
  opened := 0
  pc _ := .idle
  closed := []

/-! ### What is to hold -/

/-- The pipe that the next step of a read, write or poll is on. -/
def Pc.uses : Pc → Option ℕ
  | .read _ p _ | .write _ p _ _ | .pollIn _ p | .pollOut _ p => some p
  | _ => none

/-- The file that a task writes to or polls for writing, having looked at `local_shut`. -/
def Pc.writes : Pc → Option ℕ
  | .write f _ _ _ | .pollOut f _ => some f
  | _ => none

def Pc.Frees (p : ℕ) : Pc → Prop
  | .work _ (.kfree q :: _) _ => q = p
  | _ => False

namespace State

variable (s : State)

/-- No step of a read, write or poll is on a pipe with both ends closed. -/
def UsesOpen (e : Event) : Prop :=
  ∀ t interrupted p, e = .turn t interrupted → (s.pc t).uses = some p →
    ¬ BothClosed (s.pipes p) ∧ s.freed p = 0

/-- Not before both ends are closed, and then there is one task to free it until it is freed; when
nobody has a reference any more, all are freed. -/
structure FreedOnce : Prop where
  notYet : ∀ p, ¬ BothClosed (s.pipes p) → s.freed p = 0 ∧ ∀ t, ¬ (s.pc t).Frees p
  closed : ∀ p, BothClosed (s.pipes p) →
    (s.freed p = 1 ∧ ∀ t, ¬ (s.pc t).Frees p) ∨ (s.freed p = 0 ∧ ∃! t, (s.pc t).Frees p)
  allFreed : (∀ t, s.pc t = .idle) → (∀ f x, s.files f = some x → x.refs = 0) →
    ∀ p < s.made, s.freed p = 1

/-- `file_local_shutdown` closes the writing end only while nobody writes or polls for writing. -/
def ShutsQuiet (e : Event) : Prop :=
  ∀ t interrupted f rest, e = .turn t interrupted → s.pc t = .work f (.exchange :: rest) false →
    ∀ u, (s.pc u).writes ≠ some f

end State

/-! ### What a step can do -/

/-- The file a task has a reference to, or (`true`) that it closes for good. -/
def Pc.file : Pc → Option (ℕ × Bool)
  | .idle => none
  | .read f _ _ | .write f _ _ _ | .pollIn f _ | .pollOut f _ | .checkWrite f _ | .checkPoll f
  | .leave f => some (f, false)
  | .work f _ last => some (f, last)

def Job.closes : Job → Option ℕ
  | .close p side => some (endId p side)
  | _ => none

def Pc.ends : Pc → List ℕ
  | .work _ jobs _ => jobs.filterMap Job.closes
  | _ => []

def Kind.source : Kind → Option ℕ
  | .pipe p .reader | .socket p _ => some p
  | .pipe _ .writer => none

def Kind.target : Kind → Option ℕ
  | .pipe p .writer | .socket _ p => some p
  | .pipe _ .reader => none

/-- What a task does fits the file; the writing end of a socket that is closed for good is closed,
or will be. -/
def Pc.Fits (x : File) : Pc → Prop
  | .read _ p _ | .pollIn _ p => x.kind.source = some p
  | .write _ p _ _ | .pollOut _ p => x.kind.target = some p
  | .work _ jobs last =>
    last = true → x.localShut = false → (∃ i o, x.kind = .socket i o) → .exchange ∈ jobs
  | _ => True

structure Pc.Calls (f : ℕ) (pc : Pc) : Prop where
  file : pc.file = some (f, false)
  ends : pc.ends = []
  frees : ∀ p, ¬ pc.Frees p
  jobs : ∀ g jobs last, pc = .work g jobs last → jobs = []

/-- A call that goes on to write to a socket has looked at `local_shut`. -/
def Pc.Checked (x : File) (f : ℕ) (pc : Pc) : Prop :=
  pc.writes = some f → (∃ i o, x.kind = .socket i o) → x.localShut = false

namespace State

variable {s s' : State} {e : Event} {t f p : ℕ}

@[simp] theorem pc_goto_self (s : State) (t : ℕ) (pc : Pc) : (s.goto t pc).pc t = pc :=
  update_self ..

theorem pc_goto_of_ne {u : ℕ} (h : u ≠ t) (pc : Pc) : (s.goto t pc).pc u = s.pc u :=
  update_of_ne h ..

theorem setPipe_self (s : State) (p : ℕ) : s.setPipe p (s.pipes p) = s := by
  simp [setPipe]

inductive Effect (s : State) : Event → State → Prop
  | openPipe : Effect s .openPipe (s.step .openPipe)
  | openLocalPair : Effect s .openLocalPair (s.step .openLocalPair)
  | dup {e : Event} {f : ℕ} {x : File} (hx : s.files f = some x) (hpos : 0 < x.refs) :
      Effect s e (s.setFile f (some { x with refs := x.refs + 1 }))
  | enter {e : Event} {t f : ℕ} {x : File} {pc : Pc} (hpc : s.pc t = .idle)
      (hx : s.files f = some x) (hlt : x.calls.length < x.refs)
      (hcalls : pc.Calls f ∨ pc = .work f [.exchange] false) (hfits : pc.Fits x)
      (hchecked : pc.Checked x f) :
      Effect s e ((s.setFile f (some { x with
        refs := x.refs + 1
        calls := t :: x.calls })).goto t pc)
  | next {e : Event} {t f p : ℕ} {y : Pipe} {pc : Pc} (hpc : (s.pc t).Calls f)
      (hcalls : pc.Calls f)
      (hfits : ∀ x, s.files f = some x → (s.pc t).Fits x → pc.Fits x)
      (hchecked : ∀ x, s.files f = some x → (s.pc t).Checked x f → pc.Checked x f)
      (hreader : y.readerOpen = (s.pipes p).readerOpen)
      (hwriter : y.writerOpen = (s.pipes p).writerOpen) : Effect s e ((s.setPipe p y).goto t pc)
  | drop {e : Event} {t f : ℕ} {x : File} (hpc : s.pc t = .idle) (hx : s.files f = some x)
      (hlt : x.calls.length < x.refs) : Effect s e (s.fileClose t f x x.calls)
  | leave {e : Event} {t f : ℕ} {x : File} (hpc : s.pc t = .leave f) (hx : s.files f = some x) :
      Effect s e (s.fileClose t f x (x.calls.erase t))
  | closeEnd {e : Event} {t f p : ℕ} {side : Side} {rest : List Job} {last : Bool}
      (hpc : s.pc t = .work f (.close p side :: rest) last) :
      Effect s e (s.closeEnd t f p side rest last)
  | exchange {interrupted : Bool} {t f i o refs : ℕ} {calls : List ℕ} {rest : List Job}
      {last : Bool}
      (hpc : s.pc t = .work f (.exchange :: rest) last)
      (hx : s.files f = some ⟨.socket i o, false, refs, calls⟩) :
      Effect s (.turn t interrupted) ((s.setFile f (some ⟨.socket i o, true, refs, calls⟩)).goto t
        (.work f (.close o .writer :: rest) last))
  | skip {e : Event} {t f : ℕ} {rest : List Job} {last : Bool}
      (hpc : s.pc t = .work f (.exchange :: rest) last)
      (hx : ∀ i o refs calls, s.files f ≠ some ⟨.socket i o, false, refs, calls⟩) :
      Effect s e (s.goto t (.work f rest last))
  | kfree {e : Event} {t f p : ℕ} {rest : List Job} {last : Bool}
      (hpc : s.pc t = .work f (.kfree p :: rest) last) :
      Effect s e ({ s with freed := update s.freed p (s.freed p + 1) }.goto t
        (.work f rest last))
  | finish {e : Event} {t f : ℕ} (hpc : s.pc t = .work f [] true) :
      Effect s e ((s.setFile f none).goto t .idle)

theorem Effect.goto {pc : Pc} (hpc : (s.pc t).Calls f) (hcalls : pc.Calls f)
    (hfits : ∀ x, s.files f = some x → (s.pc t).Fits x → pc.Fits x)
    (hchecked : ∀ x, s.files f = some x → (s.pc t).Checked x f → pc.Checked x f) :
    Effect s e (s.goto t pc) := by
  have h := Effect.next (e := e) (p := 0) hpc hcalls hfits hchecked rfl rfl
  rwa [setPipe_self] at h

end State

theorem Pc.calls_of_ne_work {f : ℕ} {pc : Pc} (hfile : pc.file = some (f, false))
    (hwork : ∀ g jobs last, pc ≠ .work g jobs last) : pc.Calls f := by
  refine ⟨hfile, ?_, fun p hp => ?_, fun g jobs last h => absurd h (hwork g jobs last)⟩
  · cases pc with
    | work g jobs last => exact absurd rfl (hwork g jobs last)
    | _ => rfl
  · cases pc with
    | work g jobs last => exact absurd rfl (hwork g jobs last)
    | _ => exact hp

namespace State

variable {s s' : State} {e : Event} {t f p : ℕ}

theorem calls_of_pc {pc : Pc} (hpc : s.pc t = pc) (hfile : pc.file = some (f, false))
    (hwork : ∀ g jobs last, pc ≠ .work g jobs last) : (s.pc t).Calls f := by
  rw [hpc]
  exact Pc.calls_of_ne_work hfile hwork

theorem Effect.goto_leave (hpc : (s.pc t).Calls f) : Effect s e (s.goto t (.leave f)) :=
  .goto hpc (Pc.calls_of_ne_work rfl nofun) (fun _ _ _ => trivial) fun _ _ _ => nofun

theorem effect_enter {next : File → Pc}
    (hcalls : ∀ x, s.files f = some x → (next x).Calls f ∨ next x = .work f [.exchange] false)
    (hfits : ∀ x, s.files f = some x → (next x).Fits x)
    (hchecked : ∀ x, s.files f = some x → (next x).Checked x f) :
    s.enter t f next = s ∨ Effect s e (s.enter t f next) := by
  unfold enter
  split
  next x hpc hx =>
    split
    next hlt => exact .inr (.enter hpc hx hlt (hcalls x hx) (hfits x hx) (hchecked x hx))
    · exact .inl rfl
  · exact .inl rfl

theorem effect_pipeRead {count : ℕ} (hpc : s.pc t = .read f p count) (interrupted : Bool) :
    s.pipeRead t f p count interrupted = s ∨ Effect s e (s.pipeRead t f p count interrupted) := by
  have hcalls := calls_of_pc hpc rfl nofun
  unfold pipeRead
  split
  · exact .inl rfl
  · exact .inr (.goto_leave hcalls)
  · exact .inr (.next hcalls (Pc.calls_of_ne_work rfl nofun) (fun _ _ _ => trivial)
      (fun _ _ _ => nofun) rfl rfl)

theorem effect_pipeWrite {src : List UInt8} {done : ℕ} (hpc : s.pc t = .write f p src done)
    (interrupted : Bool) : Effect s e (s.pipeWrite t f p src done interrupted) := by
  have hcalls := calls_of_pc hpc rfl nofun
  simp only [pipeWrite]
  split
  · refine .next hcalls (Pc.calls_of_ne_work rfl nofun) (fun x _ h => ?_) (fun x _ h => ?_) rfl rfl
    · rwa [hpc] at h
    · rwa [hpc] at h
  · exact .next hcalls (Pc.calls_of_ne_work rfl nofun) (fun _ _ _ => trivial)
      (fun _ _ _ => nofun) rfl rfl

theorem effect_doJob {jobs : List Job} {last : Bool} (hpc : s.pc t = .work f jobs last)
    (interrupted : Bool) :
    Effect s (.turn t interrupted) (s.doJob t f jobs last) := by
  unfold doJob
  split
  · exact .closeEnd hpc
  next rest last =>
    split
    next hx => exact .exchange hpc hx
    next hx => exact .skip hpc fun i o refs calls he => hx i o refs calls he
  · exact .kfree hpc
  · exact .finish hpc
  · refine .goto_leave ?_
    rw [hpc]
    exact ⟨rfl, rfl, fun _ => id, fun _ _ _ h => by cases h; rfl⟩

theorem effect_turn (s : State) (t : ℕ) (interrupted : Bool) :
    s.turn t interrupted = s ∨ Effect s (.turn t interrupted) (s.turn t interrupted) := by
  unfold turn
  split
  · exact .inl rfl
  next hpc => exact effect_pipeRead hpc interrupted
  next hpc => exact .inr (effect_pipeWrite hpc interrupted)
  next f p hpc =>
    have hcalls := calls_of_pc hpc rfl nofun
    split
    · exact .inr (.goto hcalls (Pc.calls_of_ne_work rfl nofun) (fun _ _ _ => trivial)
        fun _ _ _ => nofun)
    · exact .inr (.goto_leave hcalls)
  next f p hpc => exact .inr (.goto_leave (calls_of_pc hpc rfl nofun))
  next f src hpc =>
    have hcalls := calls_of_pc hpc rfl nofun
    split
    next hx =>
      refine .inr (.goto hcalls (Pc.calls_of_ne_work rfl nofun) (fun x hx' _ => ?_)
        fun x hx' _ _ _ => ?_)
      · cases hx.symm.trans hx'
        rfl
      · cases hx.symm.trans hx'
        rfl
    · exact .inr (.goto_leave hcalls)
  next f hpc =>
    have hcalls := calls_of_pc hpc rfl nofun
    split
    next hx =>
      refine .inr (.goto hcalls (Pc.calls_of_ne_work rfl nofun) (fun x hx' _ => ?_)
        fun x hx' _ _ _ => ?_)
      · cases hx.symm.trans hx'
        rfl
      · cases hx.symm.trans hx'
        rfl
    · exact .inr (.goto_leave hcalls)
  next hpc => exact .inr (effect_doJob hpc interrupted)
  next f hpc =>
    split
    next hx => exact .inr (.leave hpc hx)
    · exact .inl rfl

theorem effect_step (s : State) (e : Event) : s.step e = s ∨ Effect s e (s.step e) := by
  cases e with
  | openPipe => exact .inr .openPipe
  | openLocalPair => exact .inr .openLocalPair
  | dup f =>
    simp only [step]
    split
    next hx =>
      split
      next hpos => exact .inr (.dup hx hpos)
      · exact .inl rfl
    · exact .inl rfl
  | drop t f =>
    simp only [step]
    split
    next hpc hx =>
      split
      next hlt => exact .inr (.drop hpc hx hlt)
      · exact .inl rfl
    · exact .inl rfl
  | read t f count =>
    apply effect_enter
    · intro x _
      left
      split
      · exact Pc.calls_of_ne_work rfl nofun
      · split <;> exact Pc.calls_of_ne_work rfl nofun
    · intro x _
      split
      · trivial
      · split
        next hk => exact congrArg Kind.source hk
        next hk => exact congrArg Kind.source hk
        · trivial
    · intro x _ hw
      split at hw
      · cases hw
      · split at hw <;> cases hw
  | write t f src =>
    apply effect_enter
    · intro x _
      left
      split
      · exact Pc.calls_of_ne_work rfl nofun
      · split <;> exact Pc.calls_of_ne_work rfl nofun
    · intro x _
      split
      · trivial
      · split
        next hk => exact congrArg Kind.target hk
        · trivial
        · trivial
    · rintro x _ hw ⟨i, o, hk⟩
      rw [hk] at hw
      split at hw <;> cases hw
  | poll t f =>
    apply effect_enter
    · intro x _
      left
      split <;> exact Pc.calls_of_ne_work rfl nofun
    · intro x _
      split
      next hk => exact congrArg Kind.source hk
      next hk => exact congrArg Kind.source hk
      next hk => exact congrArg Kind.target hk
    · rintro x _ hw ⟨i, o, hk⟩
      rw [hk] at hw
      cases hw
  | shutdown t f =>
    apply effect_enter
    · intro x _
      split
      · exact .inr rfl
      · exact .inl (Pc.calls_of_ne_work rfl nofun)
    · intro x _
      split
      · nofun
      · trivial
    · intro x _ hw
      split at hw <;> cases hw
  | turn t interrupted => exact effect_turn s t interrupted
  | die t =>
    simp only [step]
    split
    next hpc => exact .inr (.goto_leave (calls_of_pc hpc rfl nofun))
    next hpc => exact .inr (.goto_leave (calls_of_pc hpc rfl nofun))
    · exact .inl rfl

/-! ### References -/

def file (s : State) (t : ℕ) : Option (ℕ × Bool) := (s.pc t).file

def refs (s : State) (f : ℕ) : Option (List ℕ × ℕ) := (s.files f).map fun x => (x.calls, x.refs)

structure RefsOk (s : State) : Prop where
  ok : Handles.Ok s.file s.refs
  fresh : ∀ f, s.opened ≤ f → s.files f = none

section

variable {x y : File} {pc : Pc}

theorem file_of_pc (hpc : s.pc t = pc) : s.file t = pc.file := congrArg Pc.file hpc

theorem refs_of_some (hx : s.files f = some x) : s.refs f = some (x.calls, x.refs) := by
  rw [refs, hx]
  rfl

theorem RefsOk.here (h : s.RefsOk) (hx : s.files f = some x) :
    Handles.Counted s.file f x.calls x.refs :=
  h.ok.here (refs_of_some hx)

theorem RefsOk.gone (h : s.RefsOk) (hx : s.files f = none) (t : ℕ) (b : Bool) :
    s.file t ≠ some (f, b) :=
  h.ok.gone (by rw [refs, hx]; rfl) t b

theorem RefsOk.lt (h : s.RefsOk) (hx : s.files f = some x) : f < s.opened := by
  by_contra hlt
  rw [h.fresh f (not_lt.1 hlt)] at hx
  cases hx

theorem file_goto (s : State) (t : ℕ) (pc : Pc) :
    (s.goto t pc).file = update s.file t pc.file :=
  Function.comp_update ..

theorem refs_setFile (s : State) (f : ℕ) (x : Option File) :
    (s.setFile f x).refs = update s.refs f (x.map fun x => (x.calls, x.refs)) :=
  Function.comp_update ..

theorem RefsOk.goto (h : s.RefsOk) (hpc : pc.file = s.file t) : (s.goto t pc).RefsOk := by
  refine ⟨?_, h.fresh⟩
  rw [file_goto, hpc, update_eq_self]
  exact h.ok

theorem RefsOk.setFile (h : s.RefsOk) (hx : s.files f = some x)
    (hok : Handles.Ok s.file (update s.refs f (some (y.calls, y.refs)))) :
    (s.setFile f (some y)).RefsOk := by
  refine ⟨?_, fun g hg => (update_of_ne ((h.lt hx).trans_le hg).ne' ..).trans (h.fresh g hg)⟩
  rw [refs_setFile]
  exact hok

theorem RefsOk.change (h : s.RefsOk) (hx : s.files f = some x)
    (hok : Handles.Ok (update s.file t pc.file)
      (update s.refs f (some (y.calls, y.refs)))) :
    ((s.setFile f (some y)).goto t pc).RefsOk := by
  refine ⟨?_, fun g hg => (update_of_ne ((h.lt hx).trans_le hg).ne' ..).trans (h.fresh g hg)⟩
  rw [file_goto]
  exact (refs_setFile s f (some y)).symm ▸ hok

theorem RefsOk.createPipe (h : s.RefsOk) : s.createPipe.RefsOk := ⟨h.ok, h.fresh⟩

theorem RefsOk.allocFile (h : s.RefsOk) (kind : Kind) : (s.allocFile kind).RefsOk := by
  have hnone : s.refs s.opened = none := by
    rw [refs, h.fresh _ le_rfl]
    rfl
  refine ⟨?_, fun g hg => ?_⟩
  · exact (refs_setFile s s.opened (some ⟨kind, false, 1, []⟩)).symm ▸ h.ok.create hnone
  · have hlt : s.opened < g := hg
    exact (update_of_ne hlt.ne' ..).trans (h.fresh g hlt.le)

theorem RefsOk.fileClose (h : s.RefsOk) {calls : List ℕ} (hx : s.files f = some x)
    (hok : Handles.Ok (update s.file t (Handles.afterwards f (x.refs - 1)))
      (update s.refs f (some (calls, x.refs - 1)))) :
    (s.fileClose t f x calls).RefsOk := by
  unfold Handles.afterwards at hok
  unfold State.fileClose
  split at hok
  next hleft => exact (if_pos hleft).symm ▸ h.change hx hok
  next hlast => exact (if_neg hlast).symm ▸ h.change hx hok

theorem RefsOk.finish (h : s.RefsOk) (hpc : s.pc t = .work f [] true) :
    ((s.setFile f none).goto t .idle).RefsOk := by
  refine ⟨?_, fun g hg => ?_⟩
  · rw [file_goto]
    exact (refs_setFile s f none).symm ▸ h.ok.finish (file_of_pc hpc)
  · rcases eq_or_ne g f with rfl | hne
    · exact update_self ..
    · exact (update_of_ne hne ..).trans (h.fresh g hg)

end

theorem RefsOk.effect (h : s.RefsOk) (he : Effect s e s') : s'.RefsOk := by
  cases he with
  | openPipe => exact (h.createPipe.allocFile _).allocFile _
  | openLocalPair => exact (h.createPipe.createPipe.allocFile _).allocFile _
  | dup hx hpos => exact h.setFile hx (h.ok.dup (refs_of_some hx) hpos)
  | enter hpc hx hlt hcalls hfits hchecked =>
    refine h.change hx ?_
    have hfile := hcalls.elim (fun hcalls => hcalls.file) fun he => he ▸ rfl
    rw [hfile]
    exact h.ok.enter (file_of_pc hpc) (refs_of_some hx) (Nat.zero_lt_of_lt hlt)
  | @next _ t f p y pc hpc hcalls _ _ _ _ =>
    exact RefsOk.goto (s := s.setPipe p y) ⟨h.ok, h.fresh⟩ (hcalls.file.trans hpc.file.symm)
  | drop hpc hx hlt => exact h.fileClose hx (h.ok.drop (file_of_pc hpc) (refs_of_some hx) hlt)
  | leave hpc hx => exact h.fileClose hx (h.ok.leave (file_of_pc hpc) (refs_of_some hx))
  | closeEnd hpc =>
    simp only [State.closeEnd]
    split <;> exact RefsOk.goto (s := { State.setPipe s _ _ with closed := _ }) ⟨h.ok, h.fresh⟩
      (file_of_pc hpc).symm
  | @exchange _ t f i o refs calls rest last hpc hx =>
    have hset : (s.setFile f (some ⟨.socket i o, true, refs, calls⟩)).RefsOk := by
      refine h.setFile hx ?_
      rw [← refs_of_some hx, update_eq_self]
      exact h.ok
    exact hset.goto (file_of_pc hpc).symm
  | skip hpc _ => exact h.goto (file_of_pc hpc).symm
  | kfree hpc =>
    exact RefsOk.goto (s := { s with freed := _ }) ⟨h.ok, h.fresh⟩ (file_of_pc hpc).symm
  | finish hpc => exact h.finish hpc

/-! ### What the tasks do fits their files -/

def FitsOk (s : State) : Prop :=
  ∀ t f last x, s.file t = some (f, last) → s.files f = some x → (s.pc t).Fits x

def CheckedOk (s : State) : Prop :=
  ∀ t f x, s.files f = some x → (s.pc t).Checked x f

def Suits (pc : Pc) (f : ℕ) (x : File) : Prop :=
  (∀ last, pc.file = some (f, last) → pc.Fits x) ∧ pc.Checked x f

def SuitsAll (s : State) : Prop := ∀ t f x, s.files f = some x → Suits (s.pc t) f x

theorem suitsAll_iff : s.SuitsAll ↔ s.FitsOk ∧ s.CheckedOk :=
  ⟨fun h => ⟨fun t f last x hfile hx => (h t f x hx).1 last hfile, fun t f x hx => (h t f x hx).2⟩,
    fun h t f x hx => ⟨fun last hfile => h.1 t f last x hfile hx, h.2 t f x hx⟩⟩

theorem file_of_writes {pc : Pc} (h : pc.writes = some f) : pc.file = some (f, false) := by
  cases pc with
  | write | pollOut => cases h; rfl
  | _ => cases h

section

variable {pc : Pc} {x y : File}

theorem Suits.of_ne (h : ∀ b, pc.file ≠ some (f, b)) : Suits pc f x :=
  ⟨fun last he => absurd he (h last), fun hw => absurd (file_of_writes hw) (h false)⟩

theorem Suits.work {g : ℕ} {jobs : List Job} {last : Bool} (h : (Pc.work g jobs last).Fits x) :
    Suits (.work g jobs last) f x :=
  ⟨fun _ _ => h, nofun⟩

theorem fits_of_file (h : pc.Fits x) (hkind : y.kind = x.kind)
    (hshut : y.localShut = false → x.localShut = false) : pc.Fits y := by
  cases pc with
  | read | pollIn | write | pollOut => exact (congrArg _ hkind).trans h
  | work f jobs last =>
    intro hlast hfalse hsocket
    rw [hkind] at hsocket
    exact h hlast (hshut hfalse) hsocket
  | idle | checkWrite | checkPoll | leave => trivial

theorem Suits.congr (h : Suits pc f x) (hkind : y.kind = x.kind)
    (hshut : y.localShut = x.localShut) : Suits pc f y := by
  refine ⟨fun last hfile => fits_of_file (h.1 last hfile) hkind hshut.symm.trans, fun hw hsocket => ?_⟩
  rw [hkind] at hsocket
  exact hshut.trans (h.2 hw hsocket)

theorem SuitsAll.goto (h : s.SuitsAll) (hpc : ∀ f x, s.files f = some x → Suits pc f x) :
    (s.goto t pc).SuitsAll := by
  intro u f x hx
  rcases eq_or_ne u t with rfl | hne
  · rw [pc_goto_self]
    exact hpc f x hx
  · rw [pc_goto_of_ne hne]
    exact h u f x hx

theorem SuitsAll.goto_of_file (h : s.SuitsAll) {last : Bool} (hfile : pc.file = some (f, last))
    (hpc : ∀ x, s.files f = some x → Suits pc f x) : (s.goto t pc).SuitsAll := by
  refine h.goto fun g x hx => ?_
  rcases eq_or_ne g f with rfl | hne
  · exact hpc x hx
  · refine .of_ne fun b he => hne ?_
    cases hfile.symm.trans he
    rfl

theorem SuitsAll.setFile (h : s.SuitsAll) (hy : ∀ u, Suits (s.pc u) f y) :
    (s.setFile f (some y)).SuitsAll := by
  intro u g z hz
  rcases eq_or_ne g f with rfl | hne
  · cases (update_self ..).symm.trans hz
    exact hy u
  · exact h u g z ((update_of_ne hne ..).symm.trans hz)

theorem SuitsAll.setRefs (h : s.SuitsAll) (hx : s.files f = some x) (refs : ℕ) (calls : List ℕ) :
    (s.setFile f (some { x with refs, calls })).SuitsAll :=
  h.setFile fun u => (h u f x hx).congr rfl rfl

theorem SuitsAll.allocFile (h : s.SuitsAll) (hr : s.RefsOk) (kind : Kind) :
    (s.allocFile kind).SuitsAll :=
  SuitsAll.setFile h fun u => .of_ne (hr.gone (hr.fresh _ le_rfl) u)

theorem SuitsAll.fileClose (h : s.SuitsAll) (hx : s.files f = some x) (calls : List ℕ) :
    (s.fileClose t f x calls).SuitsAll := by
  have hset := h.setRefs hx (x.refs - 1) calls
  simp only [State.fileClose]
  split
  · exact hset.goto fun _ _ _ => .of_ne nofun
  · refine hset.goto_of_file rfl fun y hy => .work ?_
    cases (update_self ..).symm.trans hy
    rintro - - ⟨i, o, hk⟩
    rw [show x.kind = .socket i o from hk]
    exact List.mem_cons_of_mem _ (List.mem_singleton_self _)

end

theorem SuitsAll.work (h : s.SuitsAll) {j : Job} {rest jobs : List Job} {last : Bool}
    (hpc : s.pc t = .work f (j :: rest) last) (hj : j ≠ .exchange) (hjobs : rest ⊆ jobs) :
    (s.goto t (.work f jobs last)).SuitsAll := by
  refine h.goto_of_file rfl fun x hx => .work fun hlast hshut hsocket => ?_
  have hfits := (h t f x hx).1 last (by rw [hpc]; rfl)
  rw [hpc] at hfits
  exact hjobs ((List.mem_cons.1 (hfits hlast hshut hsocket)).resolve_left (Ne.symm hj))

theorem SuitsAll.effect (h : s.SuitsAll) (hr : s.RefsOk) (hquiet : s.ShutsQuiet e)
    (he : Effect s e s') : s'.SuitsAll := by
  cases he with
  | openPipe =>
    have hone := SuitsAll.allocFile (s := s.createPipe) h hr.createPipe (.pipe s.made .reader)
    exact hone.allocFile (hr.createPipe.allocFile _) _
  | openLocalPair =>
    have hone := SuitsAll.allocFile (s := s.createPipe.createPipe) h hr.createPipe.createPipe
      (.socket s.made (s.made + 1))
    exact hone.allocFile (hr.createPipe.createPipe.allocFile _) _
  | dup hx _ => exact h.setRefs hx _ _
  | @enter _ t f x pc hpc hx hlt hcalls hfits hchecked =>
    have hfile : pc.file = some (f, false) := by
      rcases hcalls with hcalls | rfl
      · exact hcalls.file
      · rfl
    refine (h.setRefs hx (x.refs + 1) (t :: x.calls)).goto_of_file hfile fun y hy => ?_
    cases (update_self ..).symm.trans hy
    exact Suits.congr ⟨fun _ _ => hfits, hchecked⟩ rfl rfl
  | @next _ t f p y pc hpc hcalls hfits hchecked _ _ =>
    refine SuitsAll.goto_of_file (s := s.setPipe p y) h hcalls.file fun x hx => ?_
    exact ⟨fun _ _ => hfits x hx ((h t f x hx).1 false hpc.file), hchecked x hx (h t f x hx).2⟩
  | drop hpc hx hlt | leave hpc hx => exact h.fileClose hx _
  | closeEnd hpc =>
    simp only [State.closeEnd]
    split
    · exact h.work hpc nofun (List.subset_cons_self _ _)
    · exact h.work hpc nofun (List.Subset.refl _)
  | @exchange interrupted t f i o refs calls rest last hpc hx =>
    -- nobody writes: the call is alone, or nobody has a reference any more
    have hno : ∀ u, (s.pc u).writes ≠ some f := by
      cases last with
      | false => exact hquiet t interrupted f rest rfl hpc
      | true =>
        intro u hu
        have hrefs := hr.here hx
        exact hrefs.notLast (hrefs.pos (file_of_writes hu)) t (by rw [file, hpc]; rfl)
    have hset : (s.setFile f (some ⟨.socket i o, true, refs, calls⟩)).SuitsAll :=
      h.setFile fun u => ⟨fun b hu => fits_of_file ((h u f _ hx).1 b hu) rfl nofun,
        fun hw => absurd hw (hno u)⟩
    refine hset.goto_of_file rfl fun y hy => .work ?_
    cases (update_self ..).symm.trans hy
    nofun
  | skip hpc hx =>
    refine h.goto_of_file rfl fun y hy => .work ?_
    rintro hlast hshut ⟨i, o, hk⟩
    obtain ⟨kind, shut, refs, calls⟩ := y
    cases hk
    cases hshut
    exact absurd hy (hx i o refs calls)
  | kfree hpc => exact SuitsAll.work (s := { s with freed := _ }) h hpc nofun (List.Subset.refl _)
  | @finish _ t f hpc =>
    have hset : (s.setFile f none).SuitsAll := by
      intro u g z hz
      rcases eq_or_ne g f with rfl | hne
      · cases (update_self ..).symm.trans hz
      · exact h u g z ((update_of_ne hne ..).symm.trans hz)
    exact hset.goto fun _ _ _ => .of_ne nofun

end State

attribute [grind =] State.file State.fileClose State.refs

end Bashket.PipeEnds
