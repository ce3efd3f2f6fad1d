import Bashket.Lib.Run

/-!
# A mutex on a futex

`thread_mutex_lock` and `thread_mutex_unlock` work on one word: 0 free, 1 taken, 2 taken and
somebody may be waiting. A thread that finds the mutex taken writes 2 and calls `futex_wait`, which
looks at the word under `futex_lock` and, if it still is 2, registers the thread and sleeps; an
unlock that replaces a 2 calls `futex_wake`.

The steps are the atomic operations on the word, and each hold of `futex_lock` split where the word
may change in between. A sleeping thread may be woken at any time for other reasons (a signal, a
stop); a wait may then be cut short. A process is killed as a whole.
-/

namespace Bashket.Futex

open Run List

inductive Pc
  /-- outside of `lock` and `unlock`, without the mutex -/
  | idle
  /-- `lock`: before the compare-and-exchange -/
  | compare
  /-- `lock`: before the exchange; `woken`: it comes from a `futex_wait` that was woken -/
  | exchange (woken : Bool)
  /-- `lock`: before `futex_wait` takes `futex_lock` -/
  | call
  /-- `futex_wait`: registered, before it sleeps, with `futex_lock` -/
  | look
  /-- `futex_wait`: asleep -/
  | asleep
  /-- `futex_wait`: no longer asleep, before it takes `futex_lock` again -/
  | awake
  /-- between `lock` and `unlock` -/
  | holds
  /-- `unlock`: before `futex_wake` -/
  | wake
  | dead
  /-- has left the program: it exits, or is in `exec` -/
  | gone
deriving DecidableEq, Repr

/-- A thread; `waits`: its `futex_addr` is the address of the word; `killed`: `kill_pending`. -/
structure Thread where
  pc : Pc
  waits : Bool
  killed : Bool

/-- `order`: as the list of tasks has the threads; `ending`: the process has been killed. -/
structure State where
  word : ℕ
  lock : Option ℕ
  order : List ℕ
  threads : ℕ → Thread
  ending : Bool

/-- It sleeps, or a signal cuts the wait short, or the thread is stopped first. -/
inductive Turn
  | sleeps
  | interrupted
  | stops
deriving DecidableEq, Repr

inductive Event
  | lock (i : ℕ)
  | compare (i : ℕ)
  | exchange (i : ℕ)
  /-- `futex_wait` takes `futex_lock` and reads the word -/
  | futexWait (i : ℕ)
  | turn (i : ℕ) (turn : Turn)
  /-- it is woken, but not by `futex_wake` -/
  | spurious (i : ℕ)
  | again (i : ℕ)
  /-- `thread_mutex_unlock`: its exchange, and `futex_wake` -/
  | unlock (i : ℕ)
  | futexWake (i : ℕ)
  /-- the process is killed, by a signal or by the thread `k` -/
  | kill (k : Option ℕ)
  | die (i : ℕ)

namespace Thread

def requestKill (t : Thread) : Thread :=
  { t with killed := true, pc := if t.pc = .asleep then .awake else t.pc }

/-- `sched_futex_wake`, for the thread it has chosen. -/
def wakeUp (t : Thread) : Thread :=
  { t with waits := false, pc := if t.pc = .asleep then .awake else t.pc }

/-- May be chosen by `sched_futex_wake`. -/
def eligible (t : Thread) : Bool := t.waits && t.pc ≠ .dead && !t.killed

end Thread

namespace State

variable (s : State)

def update (i : ℕ) (f : Thread → Thread) : State :=
  { s with threads := Function.update s.threads i (f (s.threads i)) }

def goto (i : ℕ) (pc : Pc) : State := s.update i fun t => { t with pc }

/-- A step that thread `i` makes where it is at `pc`. -/
def act (i : ℕ) (pc : Pc) (f : State → State) : State :=
  if i ∈ s.order ∧ (s.threads i).pc = pc then f s else s

def futexWait (i : ℕ) : State :=
  if s.lock ≠ none then s
  else if s.word ≠ 2 then s.goto i (.exchange false)
  else { s with lock := some i }.update i fun t => { t with waits := true, pc := .look }

/-- `sys_futex_wait`: the body of its loop. -/
def turn (i : ℕ) : Turn → State
  | .interrupted => { s with lock := none }.update i fun t =>
      { t with waits := false, pc := .exchange false }
  | .sleeps =>
    -- a killed thread does not sleep
    if (s.threads i).killed then { s with lock := none }.goto i .dead
    else { s with lock := none }.goto i .asleep
  | .stops => { s with lock := none }.goto i .awake

/-- `sys_futex_wait`, back from its sleep with `futex_lock`. -/
def again (i : ℕ) : State :=
  if s.lock ≠ none then s
  else if (s.threads i).waits then { s with lock := some i }.goto i .look
  else s.goto i (.exchange true)

/-- `sys_futex_wake`, for one thread. -/
def futexWake (i : ℕ) : State :=
  if s.lock ≠ none then s
  else match s.order.find? fun j => (s.threads j).eligible with
    | some j => (s.update j Thread.wakeUp).goto i .idle
    | none => s.goto i .idle

/-- A thread can leave the program: it is not inside `futex_wait`. -/
def canLeave (k : ℕ) : Bool :=
  k ∈ s.order && (s.threads k).pc ∉ [.look, .asleep, .awake, .dead] && !(s.threads k).killed

def kill : Option ℕ → State
  | none => { s with threads := fun j => (s.threads j).requestKill, ending := true }
  | some k =>
    if s.canLeave k then
      { s with
        threads := fun j => if j = k then { s.threads j with pc := .gone }
          else (s.threads j).requestKill
        ending := true }
    else s

/-- A killed thread ends; it lets go of `futex_lock`. -/
def die (i : ℕ) : State :=
  { s with lock := if s.lock = some i then none else s.lock }.goto i .dead

/-- One that cannot happen changes nothing. -/
def step : Event → State
  | .lock i => s.act i .idle fun s => s.goto i .compare
  | .compare i => s.act i .compare fun s =>
      if s.word = 0 then { s with word := 1 }.goto i .holds else s.goto i (.exchange false)
  | .exchange i =>
    if i ∈ s.order ∧ ((s.threads i).pc = .exchange false ∨ (s.threads i).pc = .exchange true) then
      if s.word ≠ 0 then { s with word := 2 }.goto i .call else { s with word := 2 }.goto i .holds
    else s
  | .futexWait i => s.act i .call fun s => s.futexWait i
  | .turn i turn => s.act i .look fun s => s.turn i turn
  | .spurious i => s.act i .asleep fun s => s.goto i .awake
  | .again i => s.act i .awake fun s => s.again i
  | .unlock i => s.act i .holds fun s =>
      if s.word = 2 then { s with word := 0 }.goto i .wake else { s with word := 0 }.goto i .idle
  | .futexWake i => s.act i .wake fun s => s.futexWake i
  | .kill k => s.kill k
  | .die i => if i ∈ s.order ∧ (s.threads i).killed then s.die i else s

structure Init (s : State) : Prop where
  word : s.word = 0
  lock : s.lock = none
  threads : ∀ i, s.threads i = ⟨.idle, false, false⟩
  ending : s.ending = false

end State

/-! ### What is to hold -/

/-- Was woken by `futex_wake` and has not yet run: it has not made its next exchange. -/
def Thread.woken (t : Thread) : Bool := (t.pc = .awake && !t.waits) || t.pc = .exchange true

namespace State

/-- At most one thread is between `lock` and `unlock`. -/
def Exclusive (s : State) : Prop :=
  ∀ i j, (s.threads i).pc = .holds → (s.threads j).pc = .holds → i = j

/-- A thread sleeps on a free mutex only as long as one that was woken has not yet run. -/
def Noticed (s : State) : Prop :=
  s.word = 0 → ∀ i, (s.threads i).pc = .asleep → ∃ j, (s.threads j).woken

/-- The same, or one that has unlocked the mutex has not yet called `futex_wake`. -/
def NoticedSoon (s : State) : Prop :=
  s.word = 0 → ∀ i, (s.threads i).pc = .asleep →
    ∃ j, (s.threads j).woken ∨ (s.threads j).pc = .wake

end State

variable {l : Option ℕ} {order : List ℕ} {ending : Bool} {i : ℕ} {t : Thread}

/-! ### Invariants -/

/-- A thread for which nobody has to be woken again: it will write 2, or wake another one. -/
def Thread.helps (t : Thread) : Bool := t.woken || t.pc = .wake

structure ThreadOk (lock : Option ℕ) (order : List ℕ) (ending : Bool) (i : ℕ) (t : Thread) :
    Prop where
  waits : t.pc = .look ∨ t.pc = .asleep → t.waits
  pc : t.waits → t.pc = .look ∨ t.pc = .asleep ∨ t.pc = .awake ∨ t.pc = .dead
  mem : t.waits → i ∈ order
  look : t.pc = .look → lock = some i
  quiet : t.killed → t.pc ≠ .asleep
  ended : ending → t.killed ∨ t.pc = .gone
  alive : ending = false → t.killed = false ∧ t.pc ≠ .dead

theorem ThreadOk.goto {l' : Option ℕ} (h : ThreadOk l order ending i t) {pc : Pc}
    (hgone : t.pc ≠ .gone) (hpc : pc ∉ [Pc.look, .asleep, .dead])
    (hwaits : t.waits = false ∨ pc = .awake) :
    ThreadOk l' order ending i { t with pc } := by
  simp only [mem_cons, not_mem_nil, or_false, not_or] at hpc
  refine ⟨?_, ?_, h.mem, ?_, ?_, ?_, ?_⟩
  · rintro (he | he)
    · exact absurd he hpc.1
    · exact absurd he hpc.2.1
  · intro hw
    rcases hwaits with hno | rfl
    · rw [hno] at hw
      cases hw
    · exact .inr (.inr (.inl rfl))
  · exact fun he => absurd he hpc.1
  · exact fun _ => hpc.2.1
  · exact fun he => .inl ((h.ended he).resolve_right hgone)
  · exact fun he => ⟨(h.alive he).1, hpc.2.2⟩

theorem ThreadOk.requestKill (h : ThreadOk l order ending i t) :
    ThreadOk l order true i t.requestKill := by
  unfold Thread.requestKill
  by_cases hs : t.pc = .asleep
  · simp only [hs, if_true]
    exact ⟨by simp, by simp, h.mem, nofun, nofun, fun _ => .inl rfl, nofun⟩
  · simp only [hs, if_false]
    exact ⟨h.waits, h.pc, h.mem, h.look, fun _ => hs, fun _ => .inl rfl, nofun⟩

namespace State

structure Inv (s : State) : Prop where
  thread : ∀ i, ThreadOk s.lock s.order s.ending i (s.threads i)
  one : s.Exclusive
  taken : ∀ i, (s.threads i).pc = .holds → s.word ≠ 0
  kept : s.ending = false → ∀ i, (s.threads i).waits → s.word = 2 ∨ ∃ j, (s.threads j).helps

variable {s : State} {i : ℕ} {t : Thread} {pc : Pc}

theorem Init.inv (h : s.Init) : s.Inv where
  thread i := by
    rw [h.threads, h.lock, h.ending]
    constructor <;> simp
  one i j hi := by
    rw [h.threads] at hi
    cases hi
  taken i hi := by
    rw [h.threads] at hi
    cases hi
  kept _ i hi := by
    rw [h.threads] at hi
    cases hi

theorem Inv.noticedSoon (h : s.Inv) : s.NoticedSoon := by
  intro hword i hi
  have ht := h.thread i
  have hending : s.ending = false := by
    by_contra he
    rcases ht.ended (by simpa using he) with hk | hg
    · exact ht.quiet hk hi
    · rw [hi] at hg
      cases hg
  rcases h.kept hending i (ht.waits (.inr hi)) with h2 | ⟨j, hj⟩
  · rw [hword] at h2
    cases h2
  · exact ⟨j, by simpa [Thread.helps] using hj⟩

theorem Inv.change (h : s.Inv) {f : Thread → Thread} (w : ℕ) (l : Option ℕ)
    (hok : ThreadOk l s.order s.ending i (f (s.threads i)))
    (hlock : ∀ j, j ≠ i → (s.threads j).pc = .look → l = some j)
    (hholds : (f (s.threads i)).pc = .holds → w ≠ 0 ∧ ∀ j, j ≠ i → (s.threads j).pc ≠ .holds)
    (hword : ∀ j, j ≠ i → (s.threads j).pc = .holds → w ≠ 0)
    (hkept : s.ending = false → (f (s.threads i)).waits ∨ (∃ k, k ≠ i ∧ (s.threads k).waits) →
      w = 2 ∨ (f (s.threads i)).helps ∨ ∃ k, k ≠ i ∧ (s.threads k).helps) :
    ({ s with word := w, lock := l }.update i f).Inv := by
  have hself : ({ s with word := w, lock := l }.update i f).threads i = f (s.threads i) :=
    Function.update_self ..
  have hother : ∀ {j}, j ≠ i →
      ({ s with word := w, lock := l }.update i f).threads j = s.threads j :=
    fun hj => Function.update_of_ne hj ..
  refine ⟨fun j => ?_, fun j k hj hk => ?_, fun j hj => ?_, fun he j hj => ?_⟩
  · rcases eq_or_ne j i with rfl | hne
    · rw [hself]
      exact hok
    · rw [hother hne]
      exact { h.thread j with look := hlock j hne }
  · by_cases hj' : j = i <;> by_cases hk' : k = i
    · rw [hj', hk']
    · rw [hj', hself] at hj
      rw [hother hk'] at hk
      exact absurd hk ((hholds hj).2 k hk')
    · rw [hk', hself] at hk
      rw [hother hj'] at hj
      exact absurd hj ((hholds hk).2 j hj')
    · rw [hother hj'] at hj
      rw [hother hk'] at hk
      exact h.one j k hj hk
  · rcases eq_or_ne j i with rfl | hne
    · rw [hself] at hj
      exact (hholds hj).1
    · rw [hother hne] at hj
      exact hword j hne hj
  · have hwaits : (f (s.threads i)).waits ∨ ∃ k, k ≠ i ∧ (s.threads k).waits := by
      rcases eq_or_ne j i with rfl | hne
      · rw [hself] at hj
        exact .inl hj
      · rw [hother hne] at hj
        exact .inr ⟨j, hne, hj⟩
    rcases hkept he hwaits with h2 | hhelps | ⟨k, hne, hhelps⟩
    · exact .inl h2
    · exact .inr ⟨i, by rwa [hself]⟩
    · exact .inr ⟨k, by rwa [hother hne]⟩

theorem Inv.kept_other (h : s.Inv) {w : ℕ} (hw : s.word = 2 → w = 2)
    (ht : t.waits → (s.threads i).waits) (hno : (s.threads i).helps = false) (he : s.ending = false)
    (hwaits : t.waits ∨ ∃ k, k ≠ i ∧ (s.threads k).waits) :
    w = 2 ∨ t.helps ∨ ∃ k, k ≠ i ∧ (s.threads k).helps := by
  have hold : ∃ k, (s.threads k).waits := by
    rcases hwaits with hwaits | ⟨k, -, hk⟩
    · exact ⟨i, ht hwaits⟩
    · exact ⟨k, hk⟩
  obtain ⟨k, hk⟩ := hold
  rcases h.kept he k hk with h2 | ⟨m, hm⟩
  · exact .inl (hw h2)
  · refine .inr (.inr ⟨m, ?_, hm⟩)
    rintro rfl
    rw [hno] at hm
    cases hm

/-! ### Steps -/

theorem Inv.not_waits (h : s.Inv)
    (hpc : (s.threads i).pc ∉ [Pc.look, .asleep, .awake, .dead]) : (s.threads i).waits = false := by
  by_contra hw
  have := (h.thread i).pc (by simpa using hw)
  simp only [mem_cons, not_mem_nil, or_false, not_or] at hpc
  tauto


/-- A thread that is no help goes on outside of `futex_wait`, without taking the mutex. -/
theorem Inv.goto (h : s.Inv)
    (hold : (s.threads i).pc ∉ [Pc.look, .asleep, .awake, .dead, .gone, .wake, .exchange true])
    (hpc : pc ∉ [Pc.look, .asleep, .dead, .holds]) : (s.goto i pc).Inv := by
  simp only [mem_cons, not_mem_nil, or_false, not_or] at hold hpc
  have hwaits : (s.threads i).waits = false := h.not_waits (by simp [hold])
  refine h.change s.word s.lock ?_ (fun j _ => (h.thread j).look) (fun he => absurd he hpc.2.2.2)
    (fun j _ => h.taken j) ?_
  · exact (h.thread i).goto hold.2.2.2.2.1 (by simp [hpc]) (.inl hwaits)
  · exact h.kept_other id (by simp) (by simp [Thread.helps, Thread.woken, hold])

theorem Inv.compare (h : s.Inv) (hi : (s.threads i).pc = .compare) (hword : s.word = 0) :
    ({ s with word := 1 }.goto i .holds).Inv := by
  have hfree : ∀ j, (s.threads j).pc ≠ .holds := fun j hj => h.taken j hj hword
  refine h.change 1 s.lock ?_ (fun j _ => (h.thread j).look)
    (fun _ => ⟨by decide, fun j _ => hfree j⟩) (fun j _ hj => absurd hj (hfree j)) ?_
  · exact (h.thread i).goto (by simp [hi]) (by simp) (.inl (h.not_waits (by simp [hi])))
  · refine h.kept_other (fun h2 => ?_) (by simp) (by simp [Thread.helps, Thread.woken, hi])
    rw [hword] at h2
    cases h2

theorem Inv.exchange (h : s.Inv)
    (hi : (s.threads i).pc = .exchange false ∨ (s.threads i).pc = .exchange true)
    (hpc : (pc = .call ∧ s.word ≠ 0) ∨ (pc = .holds ∧ s.word = 0)) :
    ({ s with word := 2 }.goto i pc).Inv := by
  have hgone : (s.threads i).pc ≠ .gone := by rcases hi with hi | hi <;> simp [hi]
  have hwaits : (s.threads i).waits = false :=
    h.not_waits (by rcases hi with hi | hi <;> simp [hi])
  refine h.change 2 s.lock ?_ (fun j _ => (h.thread j).look) (fun he => ⟨by decide, ?_⟩)
    (fun _ _ _ => by decide) (fun _ _ => .inl rfl)
  · exact (h.thread i).goto hgone (by rcases hpc with ⟨rfl, -⟩ | ⟨rfl, -⟩ <;> simp) (.inl hwaits)
  · rcases hpc with ⟨rfl, -⟩ | ⟨-, hword⟩
    · cases he
    · exact fun j _ hj => h.taken j hj hword

theorem Inv.look (h : s.Inv) (hi : i ∈ s.order) (hlock : s.lock = none)
    (hpc : (s.threads i).pc = .call ∨ (s.threads i).pc = .awake)
    (hkept : s.word = 2 ∨ (s.threads i).waits) :
    ({ s with lock := some i }.update i fun t => { t with waits := true, pc := .look }).Inv := by
  have ht := h.thread i
  have hgone : (s.threads i).pc ≠ .gone := by rcases hpc with hpc | hpc <;> simp [hpc]
  refine h.change s.word (some i) ?_ (fun j _ hj => ?_) nofun (fun j _ => h.taken j) ?_
  · refine ⟨fun _ => rfl, fun _ => .inl rfl, fun _ => hi, fun _ => rfl, nofun, fun he => ?_,
      fun he => ⟨(ht.alive he).1, nofun⟩⟩
    exact .inl ((ht.ended he).resolve_right hgone)
  · have := (h.thread j).look hj
    rw [hlock] at this
    cases this
  · rcases hkept with h2 | hw
    · exact fun _ _ => .inl h2
    · refine h.kept_other id (fun _ => hw) ?_
      rcases hpc with hpc | hpc
      · simp [Thread.helps, Thread.woken, hpc]
      · simp [Thread.helps, Thread.woken, hpc, hw]

theorem Inv.turn (h : s.Inv) (hi : (s.threads i).pc = .look) (turn : Turn) :
    (s.turn i turn).Inv := by
  have ht := h.thread i
  have hwaits : (s.threads i).waits := ht.waits (.inl hi)
  have hno : (s.threads i).helps = false := by simp [Thread.helps, Thread.woken, hi]
  have hlock : ∀ j, j ≠ i → (s.threads j).pc = .look → none = some j := by
    intro j hne hj
    have hjl := (h.thread j).look hj
    rw [ht.look hi] at hjl
    exact absurd (Option.some.inj hjl).symm hne
  cases turn with
  | interrupted =>
    unfold State.turn
    refine h.change s.word none ?_ hlock nofun (fun j _ => h.taken j)
      (h.kept_other id nofun hno)
    refine ⟨by simp, nofun, nofun, nofun, nofun, fun he => ?_, fun he => ⟨(ht.alive he).1, nofun⟩⟩
    exact .inl ((ht.ended he).resolve_right (by simp [hi]))
  | sleeps =>
    unfold State.turn
    dsimp only
    split
    · next hk =>
      refine h.change s.word none ?_ hlock nofun (fun j _ => h.taken j)
        (h.kept_other id (fun _ => hwaits) hno)
      refine ⟨fun _ => hwaits, fun _ => by simp, ht.mem, nofun, nofun, fun _ => .inl hk,
        fun he => ?_⟩
      rw [(ht.alive he).1] at hk
      cases hk
    · next hk =>
      refine h.change s.word none ?_ hlock nofun (fun j _ => h.taken j)
        (h.kept_other id (fun _ => hwaits) hno)
      refine ⟨fun _ => hwaits, fun _ => by simp, ht.mem, nofun, fun hk' => absurd hk' hk,
        fun he => ?_, fun he => ⟨(ht.alive he).1, nofun⟩⟩
      exact absurd ((ht.ended he).resolve_right (by simp [hi])) hk
  | stops =>
    unfold State.turn
    refine h.change s.word none ?_ hlock nofun (fun j _ => h.taken j)
      (h.kept_other id (fun _ => hwaits) hno)
    exact ht.goto (by simp [hi]) (by simp) (.inr rfl)

theorem Inv.spurious (h : s.Inv) (hi : (s.threads i).pc = .asleep) : (s.goto i .awake).Inv := by
  refine h.change s.word s.lock ?_ (fun j _ => (h.thread j).look) nofun (fun j _ => h.taken j) ?_
  · exact (h.thread i).goto (by simp [hi]) (by simp) (.inr rfl)
  · exact h.kept_other id id (by simp [Thread.helps, Thread.woken, hi])

theorem Inv.again (h : s.Inv) (hi : i ∈ s.order) (hpc : (s.threads i).pc = .awake) :
    (s.again i).Inv := by
  unfold State.again
  split
  · exact h
  next hlock =>
    split
    · next hw =>
      have heq : ({ s with lock := some i }.goto i .look) =
          { s with lock := some i }.update i fun t => { t with waits := true, pc := .look } := by
        simp [State.goto, State.update, hw]
      rw [heq]
      exact h.look hi (not_not.1 hlock) (.inr hpc) (.inr hw)
    · next hw =>
      refine h.change s.word s.lock ?_ (fun j _ => (h.thread j).look) nofun
        (fun j _ => h.taken j) (fun _ _ => .inr (.inl rfl))
      exact (h.thread i).goto (by simp [hpc]) (by simp) (.inl (by simpa using hw))

theorem Inv.unlock (h : s.Inv) (hi : (s.threads i).pc = .holds)
    (hpc : pc = .wake ∨ (pc = .idle ∧ s.word ≠ 2)) : ({ s with word := 0 }.goto i pc).Inv := by
  have hother : ∀ j, j ≠ i → (s.threads j).pc ≠ .holds := fun j hne hj => hne (h.one j i hj hi)
  have hpc' : pc ∉ [Pc.look, .asleep, .dead, .holds] := by
    rcases hpc with rfl | ⟨rfl, -⟩ <;> simp
  simp only [mem_cons, not_mem_nil, or_false, not_or] at hpc'
  refine h.change 0 s.lock ?_ (fun j _ => (h.thread j).look) (fun he => absurd he hpc'.2.2.2)
    (fun j hne hj => absurd hj (hother j hne)) ?_
  · exact (h.thread i).goto (by simp [hi]) (by simp [hpc']) (.inl (h.not_waits (by simp [hi])))
  · rcases hpc with rfl | ⟨rfl, hword⟩
    · exact fun _ _ => .inr (.inl rfl)
    · exact h.kept_other (fun h2 => absurd h2 hword) (by simp)
        (by simp [Thread.helps, Thread.woken, hi])

theorem Inv.futexWake (h : s.Inv) (hi : (s.threads i).pc = .wake) : (s.futexWake i).Inv := by
  have hgoto : ∀ {q : State}, q.Inv → (q.threads i).pc = .wake →
      (q.ending = false → (∃ k, k ≠ i ∧ (q.threads k).waits) →
        ∃ k, k ≠ i ∧ (q.threads k).helps) → (q.goto i .idle).Inv := by
    intro q hq hqi hhelp
    have hwaits : (q.threads i).waits = false := hq.not_waits (by simp [hqi])
    refine hq.change q.word q.lock ?_ (fun j _ => (hq.thread j).look) nofun
      (fun j _ => hq.taken j) fun he hw => ?_
    · exact (hq.thread i).goto (by simp [hqi]) (by simp) (.inl hwaits)
    · exact .inr (.inr (hhelp he (hw.resolve_left (by simp [hwaits]))))
  unfold State.futexWake
  split
  · exact h
  next hlock =>
    have hlook : ∀ j, (s.threads j).pc ≠ .look := by
      intro j hj
      rw [(h.thread j).look hj] at hlock
      exact hlock nofun
    split
    · next j hj =>
      have helig := find?_some hj
      simp only [Thread.eligible, Bool.and_eq_true, decide_eq_true_eq, Bool.not_eq_true'] at helig
      obtain ⟨⟨hw, hdead⟩, hkill⟩ := helig
      have hne : j ≠ i := by
        rintro rfl
        simpa [hi] using (h.thread j).pc hw
      -- the chosen thread is asleep, or awake already
      have hwoken : (s.threads j).wakeUp = ⟨.awake, false, false⟩ := by
        have hpc := (h.thread j).pc hw
        unfold Thread.wakeUp
        rcases hpc with hpc | hpc | hpc | hpc
        · exact absurd hpc (hlook j)
        · simp [hpc, hkill]
        · simp [hpc, hkill]
        · exact absurd hpc hdead
      have hinv : (s.update j Thread.wakeUp).Inv := by
        refine h.change s.word s.lock ?_ (fun k _ => (h.thread k).look) ?_
          (fun k _ => h.taken k) ?_
        · rw [hwoken]
          refine ⟨by simp, nofun, nofun, nofun, nofun, fun he => ?_, fun _ => ⟨rfl, nofun⟩⟩
          rcases (h.thread j).ended he with hk | hg
          · rw [hkill] at hk
            cases hk
          · have := (h.thread j).pc hw
            simp [hg] at this
        · rw [hwoken]
          exact nofun
        · rw [hwoken]
          exact fun _ _ => .inr (.inl rfl)
      refine hgoto hinv ?_ fun _ _ => ⟨j, hne, ?_⟩
      · simp only [State.update, Function.update_of_ne hne.symm]
        exact hi
      · simp only [State.update, Function.update_self, hwoken]
        rfl
    · next hnone =>
      refine hgoto h hi fun he ⟨k, _, hk⟩ => ?_
      have hok := h.thread k
      have := find?_eq_none.1 hnone k (hok.mem hk)
      simp [Thread.eligible, hk, (hok.alive he).1, (hok.alive he).2] at this

theorem pc_requestKill_eq_holds : t.requestKill.pc = .holds ↔ t.pc = .holds := by
  unfold Thread.requestKill
  dsimp only
  split
  · next h => simp [h]
  · rfl

theorem Inv.kill (h : s.Inv) (k : Option ℕ) : (s.kill k).Inv := by
  unfold State.kill
  cases k with
  | none =>
    refine ⟨fun i => (h.thread i).requestKill, fun i j hi hj => ?_, fun i hi => ?_, nofun⟩
    · exact h.one i j (pc_requestKill_eq_holds.1 hi) (pc_requestKill_eq_holds.1 hj)
    · exact h.taken i (pc_requestKill_eq_holds.1 hi)
  | some k =>
    dsimp only
    split
    · next hk =>
      have hholds : ∀ {j}, (if j = k then { s.threads j with pc := Pc.gone }
          else (s.threads j).requestKill).pc = .holds → (s.threads j).pc = .holds := by
        intro j hj
        split at hj
        · cases hj
        · exact pc_requestKill_eq_holds.1 hj
      simp only [canLeave, Bool.and_eq_true, decide_eq_true_eq, Bool.not_eq_true'] at hk
      refine ⟨fun i => ?_, fun i j hi hj => h.one i j (hholds hi) (hholds hj),
        fun i hi => h.taken i (hholds hi), nofun⟩
      dsimp only
      split
      · next he =>
        subst he
        have hwaits := h.not_waits hk.1.2
        refine ⟨by simp, fun hw => ?_, (h.thread i).mem, nofun, nofun, fun _ => .inr rfl, nofun⟩
        dsimp only at hw
        rw [hwaits] at hw
        cases hw
      · exact (h.thread i).requestKill
    · exact h

theorem Inv.die (h : s.Inv) (hk : (s.threads i).killed) : (s.die i).Inv := by
  have ht := h.thread i
  have hending : s.ending ≠ false := fun he => by
    rw [(ht.alive he).1] at hk
    cases hk
  unfold State.die
  refine h.change s.word _ ?_ (fun j hne hj => ?_) nofun (fun j _ => h.taken j)
    (fun he => absurd he hending)
  · exact ⟨by simp, fun _ => by simp, ht.mem, nofun, nofun, fun _ => .inl hk,
      fun he => absurd he hending⟩
  · have hl := (h.thread j).look hj
    rw [if_neg, hl]
    rw [hl]
    exact fun he => hne (Option.some.inj he)

theorem Inv.act (h : s.Inv) {f : State → State}
    (hf : i ∈ s.order → (s.threads i).pc = pc → (f s).Inv) : (s.act i pc f).Inv := by
  unfold State.act
  split
  · next ha => exact hf ha.1 ha.2
  · exact h

theorem Inv.step (h : s.Inv) (e : Event) : (s.step e).Inv := by
  cases e <;> simp only [State.step]
  case lock i => exact h.act fun _ hpc => h.goto (by simp [hpc]) (by simp)
  case compare i =>
    refine h.act fun _ hpc => ?_
    split
    · next hword => exact h.compare hpc hword
    · exact h.goto (by simp [hpc]) (by simp)
  case exchange i =>
    split
    · next hi =>
      split
      · next hword => exact h.exchange hi.2 (.inl ⟨rfl, hword⟩)
      · next hword => exact h.exchange hi.2 (.inr ⟨rfl, not_not.1 hword⟩)
    · exact h
  case futexWait i =>
    refine h.act fun hi hpc => ?_
    unfold State.futexWait
    split
    · exact h
    next hlock =>
      split
      · exact h.goto (by simp [hpc]) (by simp)
      · next hword => exact h.look hi (not_not.1 hlock) (.inl hpc) (.inl (not_not.1 hword))
  case turn i turn => exact h.act fun _ hpc => h.turn hpc turn
  case spurious i => exact h.act fun _ hpc => h.spurious hpc
  case again i => exact h.act fun hi hpc => h.again hi hpc
  case unlock i =>
    refine h.act fun _ hpc => ?_
    split
    · exact h.unlock hpc (.inl rfl)
    · next hword => exact h.unlock hpc (.inr ⟨rfl, hword⟩)
  case futexWake i => exact h.act fun _ hpc => h.futexWake hpc
  case kill k => exact h.kill k
  case die i =>
    split
    · next hd => exact h.die hd.2
    · exact h

end State

/-- At most one thread is between `lock` and `unlock`, and no thread sleeps on a free mutex unless
one that was woken has not yet run, or one that has unlocked it has not yet called `futex_wake`. -/
theorem mutex_correct {s : State} (h : s.Init) (es : List Event) :
    Always State.step (fun s => s.Exclusive ∧ s.NoticedSoon) s es := by
  have hinv : Always State.step State.Inv s es :=
    always_of_induction (P := fun _ _ => True) (fun _ e h _ => h.step e) h.inv
      (Along.of_forall fun _ _ => trivial)
  exact hinv.mono fun _ h => ⟨h.one, h.noticedSoon⟩

def twoThreads : State := ⟨0, none, [1, 2], fun _ => ⟨.idle, false, false⟩, false⟩

theorem init_twoThreads : twoThreads.Init := ⟨rfl, rfl, fun _ => rfl, rfl⟩

/-- The first thread takes the mutex, the second one goes to sleep, the first one unlocks. -/
def beforeWake : List Event :=
  [.lock 1, .compare 1, .lock 2, .compare 2, .exchange 2, .futexWait 2, .turn 2 .sleeps, .unlock 1]

/-- Between the exchange of `unlock` and `futex_wake` a thread sleeps on a free mutex, and none is
woken. -/
theorem asleep_before_futexWake :
    ¬ (run State.step twoThreads beforeWake).Noticed := by
  intro h
  obtain ⟨j, hj⟩ := h (by decide +kernel) 2 (by decide +kernel)
  revert hj
  by_cases h1 : j = 1
  · subst h1
    decide +kernel
  by_cases h2 : j = 2
  · subst h2
    decide +kernel
  · simp [beforeWake, twoThreads, State.step, State.act, State.goto, State.update, State.futexWait,
      State.turn, h1, h2, Thread.woken]

theorem mutex_correct_twoThreads :
    Always State.step (fun s => s.Exclusive ∧ s.NoticedSoon) twoThreads beforeWake :=
  mutex_correct init_twoThreads beforeWake

end Bashket.Futex
