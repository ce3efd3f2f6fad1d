import Bashket.Lib.Handles
import Bashket.Lib.Ledger
import Bashket.Lib.Ring
import Bashket.Lib.Run

/-!
# Local sockets

`local_connect` makes a pair of connected ends, with no lock held, between two looks at the
listener's queue: it keeps one end and queues the other one, or closes both if the listener is gone
or its queue has filled up meanwhile. `local_accept` takes the oldest end out of the queue;
`local_listener_close` closes those that are left.

Pairs are numbered. Each has the end of the connecting task (`mine`) and the other one (`theirs`),
and the log says what becomes of each. A step is what a call does under `table_lock`, and each
`file_close` of an end. Sleepers wake at any time.
-/

namespace Bashket.LocalSockets

open Run List
open Function (update update_apply update_eq_self update_of_ne update_self)

/-- `LOCAL_BACKLOG_MAX`, `LOCAL_LISTENERS_MAX` -/
abbrev localBacklogMax : ℕ := 16
abbrev localListenersMax : ℕ := 32

/-- `struct local_listener`, with the references to its file: those in descriptors and those of
calls. -/
structure Listener where
  queue : ℕ → ℕ
  head : ℕ
  count : ℕ
  capacity : ℕ
  slots : ℕ
  calls : List ℕ

def Listener.contents (x : Listener) : List ℕ := Ring.read x.queue localBacklogMax x.head x.count

inductive Pc
  | idle
  /-- `local_connect` before it takes the lock, with a pair or without -/
  | connect (l : ℕ) (pair : Option ℕ)
  /-- there is room: before `file_open_local_pair` -/
  | make (l : ℕ)
  /-- has to close both ends, or (`mine = false`) the second one, and then to look again or
  return -/
  | discard (l k : ℕ) (mine again : Bool)
  | connectAsleep (l : ℕ)
  /-- `local_accept` before it takes the lock -/
  | accept (l : ℕ)
  | acceptAsleep (l : ℕ)
  | leave (l : ℕ)
  /-- `local_listener_close` before it takes the lock, and with the ends it has to close -/
  | close (l : ℕ)
  | closeAll (waiting : List ℕ)

/-- The ends of a pair are returned to the connecting and to an accepting task, or closed
(`listener`: by `local_listener_close`). -/
inductive Act
  | queued (k l : ℕ)
  | returned (k t : ℕ)
  | accepted (k t l : ℕ)
  | closedMine (k : ℕ)
  | closedTheirs (k : ℕ) (listener : Bool)
deriving DecidableEq

/-- The listeners by their number, how many there are, the next number, the number of pairs made,
the tasks, and what has become of the pairs. -/
structure State where
  table : ℕ → Option Listener
  used : ℕ
  nextId : ℕ
  pairs : ℕ
  pc : ℕ → Pc
  log : List Act

/-- What a wait comes to: it sleeps, a signal ends the call, it has to look again (it was stopped,
or a signal has just come), it has been killed. -/
inductive Turn
  | sleeps
  | interrupted
  | again
  | killed

inductive Event
  /-- `local_listener_create` -/
  | create (backlog : ℤ)
  | dup (l : ℕ)
  | drop (t l : ℕ)
  /-- `local_connect`, its look at the listener, and `file_open_local_pair` -/
  | connect (t l : ℕ)
  | look (t : ℕ) (turn : Turn)
  | make (t : ℕ) (ok : Bool)
  | closeEnd (t : ℕ)
  /-- `local_accept`, its look at the queue, and the end of the system call -/
  | accept (t l : ℕ)
  | take (t : ℕ) (turn : Turn)
  | leave (t : ℕ)
  /-- `local_listener_close` under the lock -/
  | shut (t : ℕ)
  | wake (t : ℕ)

namespace State

variable (s : State)

def goto (t : ℕ) (pc : Pc) : State := { s with pc := update s.pc t pc }

def setListener (l : ℕ) (x : Option Listener) : State :=
  { s with table := update s.table l x }

def record (a : Act) : State := { s with log := s.log ++ [a] }

/-- `backlog`, cut to 1..LOCAL_BACKLOG_MAX. -/
def capacityOf (backlog : ℤ) : ℕ :=
  if backlog < 1 then 1
  else if backlog > localBacklogMax then localBacklogMax
  else backlog.toNat

/-- `local_listener_create` -/
def create (backlog : ℤ) : State :=
  if s.used < localListenersMax then
    { s.setListener s.nextId (some ⟨fun _ => 0, 0, 0, capacityOf backlog, 1, []⟩) with
      used := s.used + 1
      nextId := s.nextId + 1 }
  else s

/-- A reference to the file of the listener is given up; the last one closes the listener. -/
def giveUp (t l : ℕ) (x : Listener) : State :=
  let s' := s.setListener l (some x)
  if x.slots = 0 ∧ x.calls = [] then s'.goto t (.close l) else s'.goto t .idle

/-- `local_connect` under the lock. -/
def look (t l : ℕ) (pair : Option ℕ) (turn : Turn) : State :=
  match s.table l, pair with
  | none, none => s.goto t .idle
  | none, some k => s.goto t (.discard l k true false)
  | some x, none =>
    if x.count < x.capacity then s.goto t (.make l)
    else match turn with
      | .sleeps => s.goto t (.connectAsleep l)
      | .interrupted | .killed => s.goto t .idle
      | .again => s
  | some x, some k =>
    if x.count < x.capacity then
      (((s.setListener l (some { x with
          queue := Ring.write localBacklogMax x.queue (x.head + x.count) [k]
          count := x.count + 1 })).record (.queued k l)).record (.returned k t)).goto t .idle
    else s.goto t (.discard l k true true)

/-- `local_accept` under the lock. -/
def take (t l : ℕ) (x : Listener) (turn : Turn) : State :=
  if x.count = 0 then
    match turn with
    | .sleeps => s.goto t (.acceptAsleep l)
    | .interrupted | .killed => s.goto t (.leave l)
    | .again => s
  else
    ((s.setListener l (some { x with
        head := (x.head + 1) % localBacklogMax
        count := x.count - 1 })).record (.accepted (x.queue x.head) t l)).goto t (.leave l)

/-- One that cannot happen changes nothing. -/
def step : Event → State
  | .create backlog => s.create backlog
  | .dup l =>
    match s.table l with
    | some x => if 0 < x.slots then s.setListener l (some { x with slots := x.slots + 1 }) else s
    | none => s
  | .drop t l =>
    match s.pc t, s.table l with
    | .idle, some x => if 0 < x.slots then s.giveUp t l { x with slots := x.slots - 1 } else s
    | _, _ => s
  | .connect t l =>
    match s.pc t with
    | .idle => s.goto t (.connect l none)
    | _ => s
  | .look t turn =>
    match s.pc t with
    | .connect l pair => s.look t l pair turn
    | _ => s
  | .make t ok =>
    match s.pc t with
    | .make l =>
      if ok then { s with pairs := s.pairs + 1 }.goto t (.connect l (some s.pairs))
      else s.goto t .idle
    | _ => s
  | .closeEnd t =>
    match s.pc t with
    | .discard l k true again => (s.record (.closedMine k)).goto t (.discard l k false again)
    | .discard l k false again =>
      (s.record (.closedTheirs k false)).goto t (if again then .connect l none else .idle)
    | .closeAll (k :: rest) => (s.record (.closedTheirs k true)).goto t (.closeAll rest)
    | .closeAll [] => s.goto t .idle
    | _ => s
  | .accept t l =>
    match s.pc t, s.table l with
    | .idle, some x =>
      if 0 < x.slots then
        (s.setListener l (some { x with calls := t :: x.calls })).goto t (.accept l)
      else s
    | _, _ => s
  | .take t turn =>
    match s.pc t with
    | .accept l =>
      match s.table l with
      | some x => s.take t l x turn
      | none => s
    | _ => s
  | .leave t =>
    match s.pc t with
    | .leave l =>
      match s.table l with
      | some x => s.giveUp t l { x with calls := x.calls.erase t }
      | none => s
    | _ => s
  | .shut t =>
    match s.pc t with
    | .close l =>
      match s.table l with
      | some x => { s.setListener l none with used := s.used - 1 }.goto t (.closeAll x.contents)
      | none => s
    | _ => s
  | .wake t =>
    match s.pc t with
    | .connectAsleep l => s.goto t (.connect l none)
    | .acceptAsleep l => s.goto t (.accept l)
    | _ => s

end State

def start : State where
  table _ := none
  used := 0
  nextId := 1
  pairs := 0
  pc _ := .idle
  log := []

/-! ### What is to hold -/

/-- The end of the connecting side that a task has to return or to close. -/
def Pc.mine : Pc → List ℕ
  | .connect _ (some k) | .discard _ k true _ => [k]
  | _ => []

def Pc.theirs : Pc → List ℕ
  | .connect _ (some k) | .discard _ k _ _ => [k]
  | .closeAll waiting => waiting
  | _ => []

/-- The listener that a call works on with a reference of its own, or as the one that closes it. -/
def Pc.uses : Pc → Option ℕ
  | .accept l | .acceptAsleep l | .leave l | .close l => some l
  | _ => none

/-- The ends of the connecting side that have been returned or closed, and the other ends. -/
def goneMine : List Act → List ℕ :=
  List.filterMap fun | .returned k _ | .closedMine k => some k | _ => none

def goneTheirs : List Act → List ℕ :=
  List.filterMap fun | .accepted k _ _ | .closedTheirs k _ => some k | _ => none

/-- The ends queued at a listener, and those accepted from it, in order. -/
def queuedOn (l : ℕ) : List Act → List ℕ :=
  List.filterMap fun | .queued k l' => if l' = l then some k else none | _ => none

def acceptedFrom (l : ℕ) : List Act → List ℕ :=
  List.filterMap fun | .accepted k _ l' => if l' = l then some k else none | _ => none

namespace State

variable (s : State)

def waiting (l : ℕ) : List ℕ :=
  match s.table l with
  | some x => x.contents
  | none => []

/-- The other ends that a task has, or the queue of a listener. -/
def theirs : ℕ ⊕ ℕ → List ℕ
  | .inl t => (s.pc t).theirs
  | .inr l => s.waiting l

/-- Both ends were returned, or both closed, or the listener was closed before the connection was
accepted. -/
def Settled (k : ℕ) : Prop :=
  (∃ t u l, .returned k t ∈ s.log ∧ .accepted k u l ∈ s.log) ∨
    (.closedMine k ∈ s.log ∧ .closedTheirs k false ∈ s.log) ∨
    ∃ t, .returned k t ∈ s.log ∧ .closedTheirs k true ∈ s.log

/-- Each end is with one task or in one queue, or has been returned or closed once; a listener that
a call works on is there; a queue has no more than its capacity, and gives out ends in order. -/
structure OneOwner : Prop where
  mine : Ledger.Ok (fun t => (s.pc t).mine) (goneMine s.log) s.pairs
  theirs : Ledger.Ok s.theirs (goneTheirs s.log) s.pairs
  settled : ∀ k < s.pairs, (∀ t, k ∉ (s.pc t).mine) → (∀ h, k ∉ s.theirs h) → s.Settled k
  listener : ∀ t l, (s.pc t).uses = some l → ∃ x, s.table l = some x
  capacity : ∀ l x, s.table l = some x → x.count ≤ x.capacity ∧ x.capacity ≤ localBacklogMax
  queue : ∀ l x, s.table l = some x → acceptedFrom l s.log ++ x.contents = queuedOn l s.log
  order : ∀ l, acceptedFrom l s.log <+: queuedOn l s.log

end State

/-! ### References to listeners -/

/-- The listener a task has a reference to for a call, or (`true`) that it closes. -/
def Pc.tie : Pc → Option (ℕ × Bool)
  | .accept l | .acceptAsleep l | .leave l => some (l, false)
  | .close l => some (l, true)
  | _ => none

namespace State

variable {s s' : State} {t l : ℕ} {x y : Listener} {pc pc' : Pc}

def tie (s : State) (t : ℕ) : Option (ℕ × Bool) := (s.pc t).tie

def refs (s : State) (l : ℕ) : Option (List ℕ × ℕ) :=
  (s.table l).map fun x => (x.calls, x.slots + x.calls.length)

/-- Only the last one who had a reference closes a listener. -/
def RefsOk (s : State) : Prop := Handles.Ok s.tie s.refs

theorem tie_of_pc (hpc : s.pc t = pc) : s.tie t = pc.tie := congrArg Pc.tie hpc

theorem refs_of_some (hx : s.table l = some x) :
    s.refs l = some (x.calls, x.slots + x.calls.length) := by
  rw [refs, hx]
  rfl

theorem tie_goto (s : State) (t : ℕ) (pc : Pc) :
    (s.goto t pc).tie = update s.tie t pc.tie :=
  Function.comp_update ..

theorem refs_setListener (s : State) (l : ℕ) (x : Option Listener) : (s.setListener l x).refs =
    update s.refs l (x.map fun x => (x.calls, x.slots + x.calls.length)) :=
  Function.comp_update ..

theorem RefsOk.goto (h : s.RefsOk) (hpc : s.pc t = pc) (htie : pc'.tie = pc.tie) :
    (s.goto t pc').RefsOk := by
  unfold RefsOk
  rw [tie_goto, htie, ← tie_of_pc hpc, update_eq_self]
  exact h

theorem RefsOk.of_set
    (hok : Handles.Ok s.tie
      (update s.refs l (some (y.calls, y.slots + y.calls.length)))) :
    (s.setListener l (some y)).RefsOk := by
  unfold RefsOk
  rw [refs_setListener]
  exact hok

theorem RefsOk.setListener (h : s.RefsOk) (hx : s.table l = some x) (hslots : y.slots = x.slots)
    (hcalls : y.calls = x.calls) : (s.setListener l (some y)).RefsOk := by
  apply RefsOk.of_set
  rw [hslots, hcalls, ← refs_of_some hx, update_eq_self]
  exact h

theorem RefsOk.of_change (hok : Handles.Ok (update s.tie t pc.tie)
      (update s.refs l (some (y.calls, y.slots + y.calls.length)))) :
    ((s.setListener l (some y)).goto t pc).RefsOk := by
  unfold RefsOk
  rw [tie_goto]
  exact (refs_setListener s l (some y)).symm ▸ hok

theorem RefsOk.of_giveUp {refs : ℕ} (hrefs : y.slots + y.calls.length = refs)
    (hok : Handles.Ok (update s.tie t (Handles.afterwards l refs))
      (update s.refs l (some (y.calls, refs)))) : (s.giveUp t l y).RefsOk := by
  subst hrefs
  simp only [State.giveUp]
  split
  next hlast =>
    rw [Handles.afterwards, if_neg (by simp [hlast])] at hok
    exact .of_change hok
  next hleft =>
    have hpos : 0 < y.slots + y.calls.length := by
      by_contra h0
      exact hleft ⟨by omega, length_eq_zero_iff.1 (by omega)⟩
    rw [Handles.afterwards, if_pos hpos] at hok
    exact .of_change hok

/-! ### What a step can do -/

/-- The task has no end of a pair to return or to close. -/
def Bare (pc : Pc) : Prop := (pc.mine, pc.theirs) = ([], [])

inductive Effect (s : State) : State → Prop
  | same : Effect s s
  | goto {t : ℕ} {pc : Pc} (hmine : pc.mine = (s.pc t).mine) (hpc : pc.theirs = pc.mine)
      (hold : (s.pc t).theirs = (s.pc t).mine) (htie : pc.tie = s.tie t) : Effect s (s.goto t pc)
  | dup {l slots : ℕ} {x : Listener} (hx : s.table l = some x)
      (hrefs : s.RefsOk → (s.setListener l (some { x with slots })).RefsOk) :
      Effect s (s.setListener l (some { x with slots }))
  /-- a call begins or ends -/
  | refs {t l slots : ℕ} {calls : List ℕ} {x : Listener} {pc : Pc} (hx : s.table l = some x)
      (hold : Bare (s.pc t)) (hnew : Bare pc)
      (hrefs : s.RefsOk → ((s.setListener l (some { x with slots, calls })).goto t pc).RefsOk) :
      Effect s ((s.setListener l (some { x with slots, calls })).goto t pc)
  | create {c u : ℕ} (hc : c ≤ localBacklogMax) :
      Effect s { s.setListener s.nextId (some ⟨fun _ => 0, 0, 0, c, 1, []⟩) with
        used := u
        nextId := s.nextId + 1 }
  | make {t l : ℕ} (hpc : s.pc t = .make l) :
      Effect s ({ s with pairs := s.pairs + 1 }.goto t (.connect l (some s.pairs)))
  | queue {t l k : ℕ} {x : Listener} (hpc : s.pc t = .connect l (some k)) (hx : s.table l = some x)
      (hroom : x.count < x.capacity) :
      Effect s ((((s.setListener l (some { x with
          queue := Ring.write localBacklogMax x.queue (x.head + x.count) [k]
          count := x.count + 1 })).record (.queued k l)).record (.returned k t)).goto t .idle)
  | accept {t l : ℕ} {x : Listener} (hpc : s.pc t = .accept l) (hx : s.table l = some x)
      (hne : x.count ≠ 0) :
      Effect s (((s.setListener l (some { x with
          head := (x.head + 1) % localBacklogMax
          count := x.count - 1 })).record (.accepted (x.queue x.head) t l)).goto t (.leave l))
  | closeMine {t l k : ℕ} {again : Bool} (hpc : s.pc t = .discard l k true again) :
      Effect s ((s.record (.closedMine k)).goto t (.discard l k false again))
  | closeTheirs {t l k : ℕ} {again : Bool} {pc : Pc} (hpc : s.pc t = .discard l k false again)
      (hnew : Bare pc) (htie : pc.tie = none) :
      Effect s ((s.record (.closedTheirs k false)).goto t pc)
  | closeWaiting {t k : ℕ} {rest : List ℕ} (hpc : s.pc t = .closeAll (k :: rest)) :
      Effect s ((s.record (.closedTheirs k true)).goto t (.closeAll rest))
  | shut {t l u : ℕ} {x : Listener} (hpc : s.pc t = .close l) (hx : s.table l = some x) :
      Effect s ({ s.setListener l none with used := u }.goto t (.closeAll x.contents))

theorem capacityOf_le (backlog : ℤ) : capacityOf backlog ≤ localBacklogMax := by
  unfold capacityOf
  split
  · decide
  · split
    · exact le_rfl
    next h => simpa [Int.toNat_le] using h

theorem Bare.both (h : Bare pc) : pc.mine = [] ∧ pc.theirs = [] := Prod.mk.inj h

theorem Effect.plain (hpc : s.pc t = pc) (hold : Bare pc) (hnew : Bare pc')
    (htie : pc'.tie = pc.tie) : Effect s (s.goto t pc') := by
  subst hpc
  have h1 := hold.both
  have h2 := hnew.both
  exact .goto (h2.1.trans h1.1.symm) (h2.2.trans h2.1.symm) (h1.2.trans h1.1.symm) htie

theorem effect_giveUp {slots : ℕ} {calls : List ℕ} (hx : s.table l = some x) (hold : Bare (s.pc t))
    (hrefs : s.RefsOk → (s.giveUp t l { x with slots, calls }).RefsOk) :
    Effect s (s.giveUp t l { x with slots, calls }) := by
  have hgoto : ∃ pc, Bare pc ∧ s.giveUp t l { x with slots, calls } =
      (s.setListener l (some { x with slots, calls })).goto t pc := by
    unfold giveUp
    split
    · exact ⟨.close l, rfl, rfl⟩
    · exact ⟨.idle, rfl, rfl⟩
  obtain ⟨pc, hpc, he⟩ := hgoto
  rw [he] at hrefs ⊢
  exact .refs hx hold hpc hrefs

theorem effect_look {pair : Option ℕ} (hpc : s.pc t = .connect l pair) (turn : Turn) :
    Effect s (s.look t l pair turn) := by
  cases pair with
  | none =>
    unfold look
    split
    · exact .plain hpc rfl rfl rfl
    next h => cases h
    · split
      · exact .plain hpc rfl rfl rfl
      · cases turn with
        | sleeps | interrupted | killed => exact .plain hpc rfl rfl rfl
        | again => exact .same
    next h => cases h
  | some k =>
    have hmine : (s.pc t).mine = [k] := by rw [hpc]; rfl
    have htheirs : (s.pc t).theirs = (s.pc t).mine := by rw [hpc]; rfl
    unfold look
    split
    next h => cases h
    next h =>
      cases h
      exact .goto hmine.symm rfl htheirs (tie_of_pc hpc).symm
    next h => cases h
    next x k' hx h =>
      cases h
      split
      next hroom => exact .queue hpc hx hroom
      · exact .goto hmine.symm rfl htheirs (tie_of_pc hpc).symm

theorem effect_take (hpc : s.pc t = .accept l) (hx : s.table l = some x) (turn : Turn) :
    Effect s (s.take t l x turn) := by
  unfold take
  split
  · cases turn with
    | sleeps | interrupted | killed => exact .plain hpc rfl rfl rfl
    | again => exact .same
  next hne => exact .accept hpc hx hne

theorem effect_step (s : State) (e : Event) : Effect s (s.step e) := by
  cases e with
  | create backlog =>
    simp only [step, create]
    split
    · exact .create (capacityOf_le backlog)
    · exact .same
  | dup l =>
    simp only [step]
    split
    next x hx =>
      split
      next hpos =>
        refine .dup hx fun h => ?_
        have hdup := Handles.Ok.dup h (refs_of_some hx) (Nat.add_pos_left hpos _)
        rw [Nat.add_right_comm] at hdup
        exact .of_set hdup
      · exact .same
    · exact .same
  | drop t l =>
    simp only [step]
    split
    next x hpc hx =>
      split
      next hpos =>
        refine effect_giveUp hx (by rw [hpc]; rfl) fun h => ?_
        exact .of_giveUp (Nat.sub_add_comm hpos).symm
          (Handles.Ok.drop h (tie_of_pc hpc) (refs_of_some hx) (Nat.lt_add_of_pos_left hpos))
      · exact .same
    · exact .same
  | connect t l =>
    simp only [step]
    split
    next hpc => exact .plain hpc rfl rfl rfl
    · exact .same
  | look t turn =>
    simp only [step]
    split
    next hpc => exact effect_look hpc turn
    · exact .same
  | make t ok =>
    simp only [step]
    split
    next l hpc =>
      split
      · exact .make hpc
      · exact .plain hpc rfl rfl rfl
    · exact .same
  | closeEnd t =>
    simp only [step]
    split
    next hpc => exact .closeMine hpc
    next again hpc =>
      refine .closeTheirs hpc ?_ ?_
      · cases again <;> rfl
      · cases again <;> rfl
    next hpc => exact .closeWaiting hpc
    next hpc => exact .plain hpc rfl rfl rfl
    · exact .same
  | accept t l =>
    simp only [step]
    split
    next x hpc hx =>
      split
      next hpos =>
        refine .refs hx (by rw [hpc]; rfl) rfl fun h => ?_
        exact .of_change
          (Handles.Ok.enter h (tie_of_pc hpc) (refs_of_some hx) (Nat.add_pos_left hpos _))
      · exact .same
    · exact .same
  | take t turn =>
    simp only [step]
    split
    next l hpc =>
      split
      next x hx => exact effect_take hpc hx turn
      · exact .same
    · exact .same
  | leave t =>
    simp only [step]
    split
    next l hpc =>
      split
      next x hx =>
        refine effect_giveUp hx (by rw [hpc]; rfl) fun h => ?_
        have hmem := ((h.here (refs_of_some hx)).mem t).2 (tie_of_pc hpc)
        have hlen := length_pos_of_mem hmem
        refine .of_giveUp ?_ (Handles.Ok.leave h (tie_of_pc hpc) (refs_of_some hx))
        dsimp only
        rw [length_erase_of_mem hmem]
        omega
      · exact .same
    · exact .same
  | shut t =>
    simp only [step]
    split
    next l hpc =>
      split
      next x hx => exact .shut hpc hx
      · exact .same
    · exact .same
  | wake t =>
    simp only [step]
    split
    next hpc => exact .plain hpc rfl rfl rfl
    next hpc => exact .plain hpc rfl rfl rfl
    · exact .same

/-! ### Records -/

@[simp] theorem log_goto (s : State) (t : ℕ) (pc : Pc) : (s.goto t pc).log = s.log := rfl

@[simp] theorem log_setListener (s : State) (l : ℕ) (x : Option Listener) :
    (s.setListener l x).log = s.log := rfl

@[simp] theorem log_record (s : State) (a : Act) : (s.record a).log = s.log ++ [a] := rfl

@[simp] theorem pc_goto_self (s : State) (t : ℕ) (pc : Pc) : (s.goto t pc).pc t = pc :=
  update_self ..

theorem pc_goto_of_ne {u : ℕ} (hne : u ≠ t) (pc : Pc) : (s.goto t pc).pc u = s.pc u :=
  update_of_ne hne ..

@[simp] theorem table_setListener_self (s : State) (l : ℕ) (x : Option Listener) :
    (s.setListener l x).table l = x := update_self ..

theorem table_setListener_of_ne {l m : ℕ} (hne : m ≠ l) (x : Option Listener) :
    (s.setListener l x).table m = s.table m :=
  update_of_ne hne ..

/-! ### The ends of the connecting side -/

/-- Each end of a connecting side is with one task, or was returned or closed, once. -/
def MineOk (s : State) : Prop := Ledger.Ok (fun t => (s.pc t).mine) (goneMine s.log) s.pairs

section

variable {pc pc' : Pc} (h : s.MineOk) (hs : s'.pc = update s.pc t pc')
  (hpairs : s'.pairs = s.pairs) (hpc : s.pc t = pc)

include h hs hpairs hpc

theorem MineOk.keep (hgone : goneMine s'.log = goneMine s.log)
    (hmine : pc'.mine = pc.mine) : s'.MineOk := by
  have hsame : (fun u => (s'.pc u).mine) = fun u => (s.pc u).mine := by
    funext u
    rw [hs]
    rcases eq_or_ne u t with rfl | hne
    · rw [update_self, hmine, hpc]
    · rw [update_of_ne hne]
  unfold MineOk
  rw [hgone, hpairs, hsame]
  exact h

theorem MineOk.drop {k : ℕ} (hgone : goneMine s'.log = goneMine s.log ++ [k])
    (hmine : pc.mine = k :: pc'.mine) : s'.MineOk := by
  unfold MineOk
  rw [hgone, hpairs]
  refine Ledger.Ok.drop h t ?_ fun u hne => ?_
  · rw [hs, update_self, hpc]
    exact hmine
  · rw [hs, update_of_ne hne]

end

theorem MineOk.effect (h : s.MineOk) (he : Effect s s') : s'.MineOk := by
  cases he with
  | same | dup | create => exact h
  | goto hmine _ _ _ => exact h.keep rfl rfl rfl rfl hmine
  | refs _ hold hnew _ => exact h.keep rfl rfl rfl rfl (hnew.both.1.trans hold.both.1.symm)
  | @make t l hpc =>
    refine Ledger.Ok.create h t ?_ fun u hne => ?_
    · rw [pc_goto_self, hpc]
      rfl
    · rw [pc_goto_of_ne hne]
  | queue hpc hx hroom => exact h.drop rfl rfl hpc (by simp [goneMine]) rfl
  | accept hpc hx hne => exact h.keep rfl rfl hpc (by simp [goneMine]) rfl
  | closeMine hpc => exact h.drop rfl rfl hpc (by simp [goneMine]) rfl
  | closeTheirs hpc hnew _ => exact h.keep rfl rfl hpc (by simp [goneMine]) hnew.both.1
  | closeWaiting hpc => exact h.keep rfl rfl hpc (by simp [goneMine]) rfl
  | shut hpc hx => exact h.keep rfl rfl hpc rfl rfl

end State

/-! ### The queues -/

structure Listener.Ok (x : Listener) : Prop where
  head_lt : x.head < localBacklogMax
  count_le : x.count ≤ x.capacity
  capacity_le : x.capacity ≤ localBacklogMax

namespace Listener

variable {x : Listener}

theorem contents_push (h : x.Ok) (hroom : x.count < x.capacity) (k : ℕ) :
    { x with
      queue := Ring.write localBacklogMax x.queue (x.head + x.count) [k]
      count := x.count + 1 }.contents = x.contents ++ [k] :=
  Ring.read_write_append x.queue x.head x.count [k] (hroom.trans_le h.capacity_le)

theorem contents_pop (h : x.Ok) (hne : x.count ≠ 0) :
    x.contents = x.queue x.head ::
      { x with head := (x.head + 1) % localBacklogMax, count := x.count - 1 }.contents := by
  have hcount : x.count = 1 + (x.count - 1) := by omega
  unfold contents
  rw [Ring.read_mod]
  nth_rewrite 1 [hcount]
  rw [Ring.read_append]
  change [x.queue ((x.head + 0) % localBacklogMax)] ++ _ = _
  rw [Nat.add_zero, Nat.mod_eq_of_lt h.head_lt]
  rfl

end Listener

namespace State

variable {s s' : State} {t : ℕ} {l : ℕ} {x : Listener} {pc : Pc}

/-- The queues hold what was queued and not accepted, in order. -/
structure QueuesOk (s : State) : Prop where
  ring : ∀ l x, s.table l = some x → x.Ok
  queue : ∀ l x, s.table l = some x → acceptedFrom l s.log ++ x.contents = queuedOn l s.log
  order : ∀ l, acceptedFrom l s.log <+: queuedOn l s.log
  fresh : ∀ l, s.nextId ≤ l → s.table l = none ∧ queuedOn l s.log = []

theorem QueuesOk.setListener (h : s.QueuesOk) {n : ℕ} {x : Option Listener}
    (htable : s'.table = update s.table l x) (hn : s'.nextId = n) (hle : s.nextId ≤ n)
    (hlt : l < n)
    (hlog : ∀ m ≠ l, acceptedFrom m s'.log = acceptedFrom m s.log ∧
      queuedOn m s'.log = queuedOn m s.log) (horder : acceptedFrom l s'.log <+: queuedOn l s'.log)
    (hx : ∀ y, x = some y → y.Ok ∧ acceptedFrom l s'.log ++ y.contents = queuedOn l s'.log) :
    s'.QueuesOk := by
  refine ⟨fun m y hy => ?_, fun m y hy => ?_, fun m => ?_, fun m hm => ?_⟩
  · rw [htable, update_apply] at hy
    split_ifs at hy
    · exact (hx y hy).1
    · exact h.ring m y hy
  · rw [htable, update_apply] at hy
    split_ifs at hy with hm
    · exact hm ▸ (hx y hy).2
    · rw [(hlog m hm).1, (hlog m hm).2]
      exact h.queue m y hy
  · rcases eq_or_ne m l with rfl | hne
    · exact horder
    · rw [(hlog m hne).1, (hlog m hne).2]
      exact h.order m
  · have hne : m ≠ l := by omega
    rw [htable, update_of_ne hne, (hlog m hne).2]
    exact h.fresh m (by omega)

theorem QueuesOk.record (h : s.QueuesOk) {a : Act} (haccepted : ∀ l, acceptedFrom l [a] = [])
    (hqueued : ∀ l, queuedOn l [a] = []) :
    ((s.record a).goto t pc).QueuesOk := by
  have hacc : ∀ l, acceptedFrom l (s.log ++ [a]) = acceptedFrom l s.log := by
    intro l
    rw [acceptedFrom, filterMap_append, ← acceptedFrom, haccepted, append_nil]
  have hque : ∀ l, queuedOn l (s.log ++ [a]) = queuedOn l s.log := by
    intro l
    rw [queuedOn, filterMap_append, ← queuedOn, hqueued, append_nil]
  refine ⟨h.ring, fun l x hx => ?_, fun l => ?_, fun l hl => ⟨(h.fresh l hl).1, ?_⟩⟩
  · change acceptedFrom l (s.log ++ [a]) ++ _ = queuedOn l (s.log ++ [a])
    rw [hacc, hque]
    exact h.queue l x hx
  · change acceptedFrom l (s.log ++ [a]) <+: queuedOn l (s.log ++ [a])
    rw [hacc, hque]
    exact h.order l
  · change queuedOn l (s.log ++ [a]) = []
    rw [hque]
    exact (h.fresh l hl).2

theorem QueuesOk.lt (h : s.QueuesOk) (hx : s.table l = some x) :
    l < s.nextId := by
  by_contra hle
  rw [(h.fresh l (not_lt.1 hle)).1] at hx
  cases hx

theorem QueuesOk.queued (h : s.QueuesOk) {k : ℕ} (hx : s.table l = some x)
    (hroom : x.count < x.capacity) :
    ((((s.setListener l (some { x with
        queue := Ring.write localBacklogMax x.queue (x.head + x.count) [k]
        count := x.count + 1 })).record (.queued k l)).record (.returned k t)).goto t
          .idle).QueuesOk := by
  have hok := h.ring l x hx
  have hacc (m : ℕ) : acceptedFrom m (s.log ++ [.queued k l] ++ [.returned k t]) =
      acceptedFrom m s.log := by
    simp [acceptedFrom]
  have hque (m : ℕ) : queuedOn m (s.log ++ [.queued k l] ++ [.returned k t]) =
      queuedOn m s.log ++ if l = m then [k] else [] := by
    by_cases hm : l = m <;> simp [queuedOn, hm]
  refine h.setListener rfl rfl le_rfl (h.lt hx) (fun m hm => ⟨hacc m, (hque m).trans ?_⟩)
    ((hacc l).symm ▸ (hque l).symm ▸ (h.order l).trans (prefix_append ..)) fun y hy => ?_
  · rw [if_neg hm.symm, append_nil]
  · cases hy
    refine ⟨⟨hok.head_lt, hroom, hok.capacity_le⟩, (congrArg (· ++ _) (hacc l)).trans ?_⟩
    rw [Listener.contents_push hok hroom, ← append_assoc, h.queue l x hx]
    exact ((hque l).trans (by rw [if_pos rfl])).symm

theorem QueuesOk.accepted (h : s.QueuesOk) (hx : s.table l = some x) (hne : x.count ≠ 0) :
    (((s.setListener l (some { x with
        head := (x.head + 1) % localBacklogMax
        count := x.count - 1 })).record (.accepted (x.queue x.head) t l)).goto t pc).QueuesOk := by
  have hok := h.ring l x hx
  have hque (m : ℕ) : queuedOn m (s.log ++ [.accepted (x.queue x.head) t l]) =
      queuedOn m s.log := by
    simp [queuedOn]
  have hacc (m : ℕ) : acceptedFrom m (s.log ++ [.accepted (x.queue x.head) t l]) =
      acceptedFrom m s.log ++ if l = m then [x.queue x.head] else [] := by
    by_cases hm : l = m <;> simp [acceptedFrom, hm]
  -- the oldest end moves from the queue to the accepted ones
  have hpop : acceptedFrom l (s.log ++ [.accepted (x.queue x.head) t l]) ++
      { x with head := (x.head + 1) % localBacklogMax, count := x.count - 1 }.contents =
        queuedOn l (s.log ++ [.accepted (x.queue x.head) t l]) := by
    rw [hacc, hque, if_pos rfl, append_assoc, singleton_append,
      ← Listener.contents_pop hok hne]
    exact h.queue l x hx
  refine h.setListener rfl rfl le_rfl (h.lt hx) (fun m hm => ⟨(hacc m).trans ?_, hque m⟩)
    (hpop ▸ prefix_append ..) fun y hy => ?_
  · rw [if_neg hm.symm, append_nil]
  · cases hy
    exact ⟨⟨Nat.mod_lt _ (by decide), (Nat.sub_le ..).trans hok.count_le, hok.capacity_le⟩, hpop⟩

theorem QueuesOk.effect (h : s.QueuesOk) (he : Effect s s') : s'.QueuesOk := by
  cases he with
  | same | goto | make => exact ⟨h.ring, h.queue, h.order, h.fresh⟩
  | @dup l slots x hx _ | @refs t l slots calls x pc hx _ _ _ =>
    refine h.setListener rfl rfl le_rfl (h.lt hx) (fun _ _ => ⟨rfl, rfl⟩) (h.order l) fun y hy => ?_
    cases hy
    have hok := h.ring l x hx
    exact ⟨⟨hok.head_lt, hok.count_le, hok.capacity_le⟩, h.queue l x hx⟩
  | @create c u hc =>
    refine h.setListener rfl rfl (Nat.le_succ _) (Nat.lt_succ_self _) (fun _ _ => ⟨rfl, rfl⟩)
      (h.order _) fun y hy => ?_
    cases hy
    refine ⟨⟨Nat.zero_lt_succ _, Nat.zero_le _, hc⟩, ?_⟩
    have hnone := (h.fresh s.nextId le_rfl).2
    have := h.order s.nextId
    rw [hnone, prefix_nil] at this
    exact (congrArg (· ++ _) this).trans hnone.symm
  | queue _ hx hroom => exact h.queued hx hroom
  | accept _ hx hne => exact h.accepted hx hne
  | closeMine | closeTheirs | closeWaiting => exact h.record (fun _ => rfl) fun _ => rfl
  | @shut t l u x _ hx =>
    exact h.setListener rfl rfl le_rfl (h.lt hx) (fun _ _ => ⟨rfl, rfl⟩) (h.order l) nofun

/-! ### The other ends -/

/-- Each other end is with one task or in one queue, or was accepted or closed, once. -/
def TheirsOk (s : State) : Prop := Ledger.Ok s.theirs (goneTheirs s.log) s.pairs

theorem waiting_of_some (hx : s.table l = some x) :
    s.waiting l = x.contents := by
  unfold waiting
  rw [hx]

theorem waiting_of_none (hx : s.table l = none) : s.waiting l = [] := by
  unfold waiting
  rw [hx]

@[simp] theorem waiting_goto (s : State) (t l : ℕ) (pc : Pc) :
    (s.goto t pc).waiting l = s.waiting l := rfl

@[simp] theorem waiting_record (s : State) (a : Act) (l : ℕ) :
    (s.record a).waiting l = s.waiting l := rfl

theorem waiting_setListener_self (s : State) (l : ℕ) (x : Listener) :
    (s.setListener l (some x)).waiting l = x.contents :=
  waiting_of_some (table_setListener_self ..)

theorem theirs_of_ne {h : ℕ ⊕ ℕ} (ht : h ≠ .inl t) (hl : h ≠ .inr l)
    (hpc : s'.pc = update s.pc t pc) (htable : ∀ m, m ≠ l → s'.table m = s.table m) :
    s'.theirs h = s.theirs h := by
  cases h with
  | inl u =>
    have hne : u ≠ t := fun he => ht (he ▸ rfl)
    simp only [theirs, hpc, update_of_ne hne]
  | inr m =>
    have hne : m ≠ l := fun he => hl (he ▸ rfl)
    simp only [theirs, waiting, htable m hne]

theorem theirs_congr (hpc : ∀ u, (s'.pc u).theirs = (s.pc u).theirs)
    (hwaiting : ∀ l, s'.waiting l = s.waiting l) : s'.theirs = s.theirs := by
  funext h
  cases h with
  | inl u => exact hpc u
  | inr l => exact hwaiting l

section

variable {pc pc' : Pc} (h : s.TheirsOk) (hs : s'.pc = update s.pc t pc')
  (hpairs : s'.pairs = s.pairs) (hpc : s.pc t = pc) (htable : s'.table = s.table)

include h hs hpairs hpc htable

theorem TheirsOk.keep (hgone : goneTheirs s'.log = goneTheirs s.log)
    (htheirs : pc'.theirs = pc.theirs) : s'.TheirsOk := by
  have hsame : s'.theirs = s.theirs := by
    refine theirs_congr (fun u => ?_) fun l => by rw [waiting, htable, waiting]
    rw [hs]
    rcases eq_or_ne u t with rfl | hne
    · rw [update_self, htheirs, hpc]
    · rw [update_of_ne hne]
  unfold TheirsOk
  rw [hgone, hpairs, hsame]
  exact h

theorem TheirsOk.drop {k : ℕ} (hgone : goneTheirs s'.log = goneTheirs s.log ++ [k])
    (htheirs : pc.theirs = k :: pc'.theirs) : s'.TheirsOk := by
  unfold TheirsOk
  rw [hgone, hpairs]
  refine Ledger.Ok.drop h (.inl t) ?_ fun y hy => ?_
  · simp only [theirs, hs, update_self, hpc]
    exact htheirs
  · cases y with
    | inl u => simp only [theirs, hs, update_of_ne (fun he => hy (he ▸ rfl) : u ≠ t)]
    | inr l => simp only [theirs, waiting, htable]

end

theorem TheirsOk.setListener (h : s.TheirsOk) {l : ℕ} {x : Option Listener} (hlog : s'.log = s.log)
    (hpairs : s'.pairs = s.pairs) (hpc : ∀ u, (s'.pc u).theirs = (s.pc u).theirs)
    (htable : s'.table = update s.table l x) (hsame : s'.waiting l = s.waiting l) :
    s'.TheirsOk := by
  have htheirs : s'.theirs = s.theirs := by
    refine theirs_congr hpc fun m => ?_
    rcases eq_or_ne m l with rfl | hne
    · exact hsame
    · simp only [waiting, htable, update_of_ne hne]
  unfold TheirsOk
  rw [htheirs, hlog, hpairs]
  exact h

theorem TheirsOk.effect (h : s.TheirsOk) (hq : s.QueuesOk) (he : Effect s s') : s'.TheirsOk := by
  cases he with
  | same => exact h
  | goto hmine hpc hold _ => exact h.keep rfl rfl rfl rfl rfl (hpc.trans (hmine.trans hold.symm))
  | dup hx _ =>
    refine h.setListener rfl rfl (fun _ => rfl) rfl ?_
    rw [waiting_of_some hx, waiting_setListener_self]
    rfl
  | @refs t l _ _ _ _ hx hold hnew _ =>
    refine h.setListener (l := l) rfl rfl (fun u => ?_) rfl ?_
    · rcases eq_or_ne u t with rfl | hne
      · rw [pc_goto_self, hnew.both.2, hold.both.2]
      · rw [pc_goto_of_ne hne]
        rfl
    · rw [waiting_of_some hx, waiting_goto, waiting_setListener_self]
      rfl
  | create hc =>
    refine h.setListener rfl rfl (fun _ => rfl) rfl ?_
    rw [waiting_of_none (hq.fresh s.nextId le_rfl).1]
    exact waiting_setListener_self ..
  | @make t l hpc =>
    refine Ledger.Ok.create h (.inl t) ?_ fun y hy => ?_
    · simp only [theirs, pc_goto_self, hpc]
      rfl
    · cases y with
      | inl u => simp only [theirs, pc_goto_of_ne (fun he => hy (he ▸ rfl) : u ≠ t)]
      | inr m => rfl
  | @queue t l k x hpc hx hroom =>
    have hgone : goneTheirs (s.log ++ [.queued k l] ++ [.returned k t]) = goneTheirs s.log := by
      simp [goneTheirs]
    change Ledger.Ok _ (goneTheirs (s.log ++ [.queued k l] ++ [.returned k t])) _
    rw [hgone]
    refine Ledger.Ok.move h (.inl t) (.inr l) [k] nofun ?_ ?_ fun y ht hl => ?_
    · simp only [theirs, pc_goto_self, hpc]
      rfl
    · have hpush := Listener.contents_push (hq.ring l x hx) hroom k
      simp only [theirs]
      rw [waiting_of_some hx, waiting_goto, waiting_record, waiting_record,
        waiting_setListener_self, hpush]
      exact perm_append_comm
    · exact theirs_of_ne ht hl rfl fun m hm => table_setListener_of_ne hm _
  | @accept t l x hpc hx hne =>
    have hgone : goneTheirs (s.log ++ [.accepted (x.queue x.head) t l]) =
        goneTheirs s.log ++ [x.queue x.head] := by
      simp [goneTheirs]
    change Ledger.Ok _ (goneTheirs (s.log ++ [.accepted (x.queue x.head) t l])) _
    rw [hgone]
    refine Ledger.Ok.drop h (.inr l) ?_ fun y hl => ?_
    · simp only [theirs]
      rw [waiting_of_some hx, waiting_goto, waiting_record, waiting_setListener_self]
      exact Listener.contents_pop (hq.ring l x hx) hne
    · by_cases ht : y = .inl t
      · subst ht
        simp only [theirs, pc_goto_self, hpc]
        rfl
      · exact theirs_of_ne ht hl rfl fun m hm => table_setListener_of_ne hm _
  | closeMine hpc => exact h.keep rfl rfl hpc rfl (by simp [goneTheirs]) rfl
  | @closeTheirs _ _ k _ _ hpc hnew _ =>
    exact h.drop (k := k) rfl rfl hpc rfl (by simp [goneTheirs]) (by rw [hnew.both.2]; rfl)
  | closeWaiting hpc => exact h.drop rfl rfl hpc rfl (by simp [goneTheirs]) rfl
  | @shut t l u x hpc hx =>
    refine Ledger.Ok.move h (.inr l) (.inl t) x.contents nofun ?_ ?_ fun y hl ht => ?_
    · simp only [theirs]
      rw [waiting_of_some hx, waiting_goto]
      have hnone : State.waiting { s.setListener l none with used := u } l = [] :=
        waiting_of_none (table_setListener_self ..)
      rw [hnone, append_nil]
    · simp only [theirs, pc_goto_self, hpc]
      change x.contents.Perm (x.contents ++ [])
      rw [append_nil]
    · exact theirs_of_ne ht hl rfl fun m hm => table_setListener_of_ne hm _

end State

end Bashket.LocalSockets
