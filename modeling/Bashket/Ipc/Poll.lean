import Bashket.Lib.Run

/-!
# Poll

`poll_wait` reads the number of notifications so far, looks at its files one after the other and
goes to sleep if it found nothing ready and there was no notification meanwhile. `poll_notify`
counts, and wakes every poller.

A change is whatever alters what the looks find: what a file reports, or which file a descriptor
stands for. It is in `pending` until its `poll_notify`. A look that found nothing stays right until
a change that is still pending (`Stands`), or else there was a notification. `file_poll` looks at a
list of sources for each file, each in a step of its own.
-/

namespace Bashket.Polling

open Run List

abbrev Mask := BitVec 16

/-- `POLLERR`, `POLLHUP`, `POLLNVAL` -/
def pollErr : Mask := 0x008
def pollHup : Mask := 0x010
def pollNval : Mask := 0x020

/-- The events of each source, and the file in each slot of each table of descriptors. -/
structure World where
  mask : ℕ → Mask
  slot : ℕ → ℕ → Option ℕ

/-- `struct pollfd`, as the caller gives it. -/
structure Entry where
  fd : ℤ
  events : Mask

def Entry.wanted (e : Entry) : Mask := e.events ||| pollErr ||| pollHup ||| pollNval

/-- The arguments of `poll_wait`; `waits`: the timeout is not 0. -/
structure Args where
  table : ℕ
  fds : List Entry
  waits : Bool

/-- The entry, the sources still to look at, and the events so far. -/
structure Look where
  entry : Entry
  sources : List ℕ
  events : Mask

/-- The `revents` of the entries looked at, and the entries to come. -/
structure Scan where
  revents : List Mask
  current : Option Look
  todo : List Entry

inductive Pc
  | idle
  | loop (a : Args)
  /-- in `scan`, with the count it has read -/
  | scan (a : Args) (seen : ℕ) (sc : Scan)
  | nothing (a : Args) (seen : ℕ)
  | asleep (a : Args)
  | dead

structure Change where
  before : World
  after : World

/-- `pending`: the changes whose `poll_notify` is still to come. (`generation` has 64 bits.) -/
structure State where
  world : World
  generation : ℕ
  pending : List Change
  pc : ℕ → Pc

/-- What a sleep comes to: it sleeps, returns for a signal, is stopped first, or has been killed. -/
inductive Turn
  | sleeps
  | returns
  | stops
  | killed

inductive Event
  | poll (t : ℕ) (a : Args)
  | read (t : ℕ)
  /-- the next look of `scan` -/
  | look (t : ℕ)
  | giveUp (t : ℕ)
  /-- the count is compared, under `poll_lock` -/
  | sleep (t : ℕ) (turn : Turn)
  | wake (t : ℕ)
  | die (t : ℕ)
  | change (world : World)
  /-- `poll_notify`, for the change number `i` of those that wait for it (if there is one) -/
  | notify (i : ℕ)

section

-- what `file_poll` looks at
variable (sources : ℕ → List ℕ)

/-- One step of `scan`; `none`: it has looked at every entry. -/
def Scan.next (w : World) (table : ℕ) (sc : Scan) : Option Scan :=
  match sc.current with
  | some ⟨e, src :: rest, events⟩ =>
    some { sc with current := some ⟨e, rest, events ||| w.mask src⟩ }
  | some ⟨e, [], events⟩ =>
    some { sc with revents := sc.revents ++ [events &&& e.wanted], current := none }
  | none =>
    match sc.todo with
    | [] => none
    | e :: todo =>
      if e.fd < 0 then some { sc with revents := sc.revents ++ [0], todo }
      else
        match w.slot table e.fd.toNat with
        | none => some { sc with revents := sc.revents ++ [pollNval &&& e.wanted], todo }
        | some file => some { sc with current := some ⟨e, sources file, 0⟩, todo }

def Scan.ready (sc : Scan) : ℕ := sc.revents.countP (· ≠ 0)

namespace State

variable (s : State)

def goto (t : ℕ) (pc : Pc) : State := { s with pc := Function.update s.pc t pc }

def pollNotify : State :=
  { s with
    generation := s.generation + 1
    pc := fun t =>
      match s.pc t with
      | .asleep a => .loop a
      | pc => pc }

/-- One that cannot happen changes nothing. -/
def step : Event → State
  | .poll t a =>
    match s.pc t with
    | .idle => s.goto t (.loop a)
    | _ => s
  | .read t =>
    match s.pc t with
    | .loop a => s.goto t (.scan a s.generation ⟨[], none, a.fds⟩)
    | _ => s
  | .look t =>
    match s.pc t with
    | .scan a seen sc =>
      match sc.next sources s.world a.table with
      | some sc => s.goto t (.scan a seen sc)
      | none =>
        if sc.ready > 0 ∨ a.waits = false then s.goto t .idle else s.goto t (.nothing a seen)
    | _ => s
  | .giveUp t =>
    match s.pc t with
    | .nothing _ _ => s.goto t .idle
    | _ => s
  | .sleep t turn =>
    match s.pc t with
    | .nothing a seen =>
      if s.generation = seen then
        match turn with
        | .sleeps => s.goto t (.asleep a)
        | .returns | .stops => s.goto t (.loop a)
        | .killed => s.goto t .dead
      else s.goto t (.loop a)
    | _ => s
  | .wake t =>
    match s.pc t with
    | .asleep a => s.goto t (.loop a)
    | _ => s
  | .die t =>
    match s.pc t with
    | .asleep _ => s.goto t .dead
    | _ => s
  | .change world => { s with world, pending := s.pending ++ [⟨s.world, world⟩] }
  | .notify i => { s.pollNotify with pending := s.pending.eraseIdx i }

end State

def start (world : World) : State where
  world := world
  generation := 0
  pending := []
  pc _ := .idle

/-! ### What is to hold -/

def World.events (w : World) (file : ℕ) : Mask :=
  (sources file).foldl (fun events src => events ||| w.mask src) 0

/-- The entry is ready: a scan that nobody disturbs would report it. -/
def World.Ready (w : World) (table : ℕ) (e : Entry) : Prop :=
  0 ≤ e.fd ∧
    (match w.slot table e.fd.toNat with
      | none => pollNval
      | some file => w.events sources file) &&& e.wanted ≠ 0

/-- Its descriptor got another file, or a source of its file that had none of the events now has
one. -/
def Change.Concerns (c : Change) (table : ℕ) (e : Entry) (file : Option ℕ) : Prop :=
  c.before.slot table e.fd.toNat ≠ c.after.slot table e.fd.toNat ∨
    ∃ f ∈ file, ∃ src ∈ sources f,
      c.before.mask src &&& e.wanted = 0 ∧ c.after.mask src &&& e.wanted ≠ 0

/-- Whoever sleeps although one of its entries is ready is about to be woken. -/
def State.Noticed (s : State) : Prop :=
  ∀ t a, s.pc t = .asleep a → ∀ e ∈ a.fds, s.world.Ready sources a.table e →
    ∃ c ∈ s.pending, c.Concerns sources a.table e (s.world.slot a.table e.fd.toNat)

/-! ### What has been seen -/

variable {w w' : World} {pending : List Change} {table : ℕ}

/-- What was seen to hold still does, or a change that is pending has altered it. -/
def Stands (w : World) (pending : List Change) (P : World → Prop) : Prop :=
  P w ∨ ∃ c ∈ pending, P c.before ∧ ¬ P c.after

theorem Stands.change {P : World → Prop} (h : Stands w pending P) (w' : World) :
    Stands w' (pending ++ [⟨w, w'⟩]) P := by
  rcases h with h | ⟨c, hc, hP⟩
  · by_cases hP : P w'
    · exact .inl hP
    · exact .inr ⟨⟨w, w'⟩, by simp, h, hP⟩
  · exact .inr ⟨c, mem_append_left _ hc, hP⟩

def Checked (w : World) (pending : List Change) (table : ℕ) (e : Entry) : Prop :=
  0 ≤ e.fd → ∃ file, Stands w pending (fun w => w.slot table e.fd.toNat = some file) ∧
    ∀ src ∈ sources file, Stands w pending fun w => w.mask src &&& e.wanted = 0

variable {sources}

theorem Checked.change {e : Entry} (h : Checked sources w pending table e) (w' : World) :
    Checked sources w' (pending ++ [⟨w, w'⟩]) table e := by
  intro hfd
  obtain ⟨file, hslot, hsrc⟩ := h hfd
  exact ⟨file, hslot.change w', fun src hs => (hsrc src hs).change w'⟩

theorem or_and_eq_zero (x y m : Mask) : (x ||| y) &&& m = 0 ↔ x &&& m = 0 ∧ y &&& m = 0 := by
  rw [BitVec.and_comm, BitVec.and_or_distrib_left, BitVec.and_comm m, BitVec.and_comm m]
  exact BitVec.or_eq_zero_iff

theorem foldl_or_and_eq_zero (mask : ℕ → Mask) (m : Mask) (l : List ℕ) (init : Mask) :
    l.foldl (fun events src => events ||| mask src) init &&& m = 0 ↔
      init &&& m = 0 ∧ ∀ src ∈ l, mask src &&& m = 0 := by
  induction l generalizing init with
  | nil => simp
  | cons src l ih =>
    rw [foldl_cons, ih, or_and_eq_zero, forall_mem_cons, and_assoc]

theorem Checked.concerns {e : Entry} (h : Checked sources w pending table e)
    (hready : w.Ready sources table e) :
    ∃ c ∈ pending, c.Concerns sources table e (w.slot table e.fd.toNat) := by
  obtain ⟨hfd, hevents⟩ := hready
  obtain ⟨file, hslot | ⟨c, hc, hbefore, hafter⟩, hsrc⟩ := h hfd
  · rw [hslot] at hevents ⊢
    have hsome : ∃ src ∈ sources file, w.mask src &&& e.wanted ≠ 0 := by
      by_contra hno
      push Not at hno
      exact hevents ((foldl_or_and_eq_zero ..).2 ⟨by simp, hno⟩)
    obtain ⟨src, hmem, hne⟩ := hsome
    obtain ⟨c, hc, hbefore, hafter⟩ := (hsrc src hmem).resolve_left hne
    exact ⟨c, hc, .inr ⟨file, rfl, src, hmem, hbefore, hafter⟩⟩
  · exact ⟨c, hc, .inl fun heq => hafter (heq.symm.trans hbefore)⟩

/-! ### A scan -/

variable (sources)

/-- What has been found out about the file `scan` looks at. -/
def LookOk (w : World) (pending : List Change) (table : ℕ) (l : Look) : Prop :=
  ∃ file looked, sources file = looked ++ l.sources ∧
    Stands w pending (fun w => w.slot table l.entry.fd.toNat = some file) ∧
    (l.events &&& l.entry.wanted = 0 →
      ∀ src ∈ looked, Stands w pending fun w => w.mask src &&& l.entry.wanted = 0)

/-- What `scan` has found out; it matters only if nothing was ready. -/
structure ScanOk (w : World) (pending : List Change) (a : Args) (sc : Scan) : Prop where
  current : ∀ l, sc.current = some l → LookOk sources w pending a.table l
  looked : ∃ looked, a.fds = looked ++ ((sc.current.map Look.entry).toList ++ sc.todo) ∧
    ((∀ r ∈ sc.revents, r = 0) → ∀ e ∈ looked, Checked sources w pending a.table e)

variable {sources} {a : Args} {sc sc' : Scan}

theorem LookOk.change {l : Look} (h : LookOk sources w pending table l) (w' : World) :
    LookOk sources w' (pending ++ [⟨w, w'⟩]) table l := by
  obtain ⟨file, looked, heq, hslot, hsrc⟩ := h
  exact ⟨file, looked, heq, hslot.change w', fun h0 src hs => (hsrc h0 src hs).change w'⟩

theorem ScanOk.change (h : ScanOk sources w pending a sc) (w' : World) :
    ScanOk sources w' (pending ++ [⟨w, w'⟩]) a sc := by
  obtain ⟨looked, heq, hlooked⟩ := h.looked
  exact ⟨fun l hl => (h.current l hl).change w', looked, heq,
    fun h0 e he => (hlooked h0 e he).change w'⟩

theorem scanOk_start : ScanOk sources w pending a ⟨[], none, a.fds⟩ :=
  ⟨nofun, [], rfl, nofun⟩

theorem ScanOk.done (h : ScanOk sources w pending a sc) {e : Entry} {r : Mask} {todo : List Entry}
    (hnext : (sc.current.map Look.entry).toList ++ sc.todo = e :: todo)
    (hr : r = 0 → Checked sources w pending a.table e) :
    ScanOk sources w pending a ⟨sc.revents ++ [r], none, todo⟩ := by
  obtain ⟨looked, heq, hlooked⟩ := h.looked
  refine ⟨nofun, looked ++ [e], by rw [heq, hnext]; simp, fun h0 e' he' => ?_⟩
  rcases mem_append.1 he' with he' | he'
  · exact hlooked (fun r' hr' => h0 r' (mem_append_left _ hr')) e' he'
  · obtain rfl := mem_singleton.1 he'
    exact hr (h0 r (by simp))

theorem pollNval_and_wanted_ne_zero (e : Entry) : pollNval &&& e.wanted ≠ 0 := by
  have hself : pollNval &&& e.wanted = pollNval := by
    unfold Entry.wanted
    rw [BitVec.and_or_distrib_left, BitVec.and_self]
    apply BitVec.eq_of_getLsbD_eq
    intro i hi
    rw [BitVec.getLsbD_or, BitVec.getLsbD_and]
    cases pollNval.getLsbD i <;> simp
  rw [hself]
  decide

theorem ScanOk.next (h : ScanOk sources w pending a sc)
    (hnext : sc.next sources w a.table = some sc') : ScanOk sources w pending a sc' := by
  obtain ⟨revents, current, todo⟩ := sc
  unfold Scan.next at hnext
  split at hnext
  next e src rest events hcur =>
    -- one more source of the current file
    dsimp only at hcur
    subst hcur
    cases hnext
    obtain ⟨file, looked, heq, hslot, hsrc⟩ := h.current _ rfl
    refine ⟨fun l hl => ?_, h.looked⟩
    cases hl
    refine ⟨file, looked ++ [src], by rw [heq]; simp, hslot, fun h0 src' hs' => ?_⟩
    change (events ||| w.mask src) &&& e.wanted = 0 at h0
    obtain ⟨h1, h2⟩ := (or_and_eq_zero ..).1 h0
    rcases mem_append.1 hs' with hs' | hs'
    · exact hsrc h1 src' hs'
    · obtain rfl := mem_singleton.1 hs'
      exact .inl h2
  next e events hcur =>
    -- the current file is done
    dsimp only at hcur
    subst hcur
    cases hnext
    obtain ⟨file, looked, heq, hslot, hsrc⟩ := h.current _ rfl
    refine h.done rfl fun h0 _ => ⟨file, hslot, fun src hs => hsrc h0 src ?_⟩
    rw [heq, append_nil] at hs
    exact hs
  next hcur =>
    dsimp only at hcur
    subst hcur
    split at hnext
    · cases hnext
    next e rest htodo =>
      dsimp only at htodo
      subst htodo
      split at hnext
      next hneg =>
        cases hnext
        exact h.done rfl fun _ hfd => absurd hneg (not_lt.2 hfd)
      · split at hnext
        · cases hnext
          exact h.done rfl fun h0 => absurd h0 (pollNval_and_wanted_ne_zero e)
        next file hslot =>
          cases hnext
          refine ⟨fun l hl => ?_, h.looked⟩
          cases hl
          exact ⟨file, [], rfl, .inl hslot, fun _ => nofun⟩

theorem ScanOk.nothing (h : ScanOk sources w pending a sc)
    (hnext : sc.next sources w a.table = none) (hready : sc.ready = 0) :
    ∀ e ∈ a.fds, Checked sources w pending a.table e := by
  have hend : sc.current = none ∧ sc.todo = [] := by
    unfold Scan.next at hnext
    split at hnext
    · cases hnext
    · cases hnext
    next hcur =>
      refine ⟨hcur, ?_⟩
      split at hnext
      next htodo => exact htodo
      · split at hnext
        · cases hnext
        · split at hnext <;> cases hnext
  obtain ⟨looked, heq, hlooked⟩ := h.looked
  rw [hend.1, hend.2] at heq
  have hfds : a.fds = looked := by simpa using heq
  rw [hfds]
  refine hlooked fun r hr => ?_
  have := countP_eq_zero.1 hready r hr
  simpa using this

/-! ### Runs -/

variable (sources)

def PcOk (w : World) (pending : List Change) (generation : ℕ) : Pc → Prop
  | .scan a seen sc =>
    seen ≤ generation ∧ (seen = generation → ScanOk sources w pending a sc)
  | .nothing a seen =>
    seen ≤ generation ∧
      (seen = generation → ∀ e ∈ a.fds, Checked sources w pending a.table e)
  | .asleep a => ∀ e ∈ a.fds, Checked sources w pending a.table e
  | _ => True

namespace State

def Inv (s : State) : Prop := ∀ t, PcOk sources s.world s.pending s.generation (s.pc t)

variable {sources} {s : State}

theorem Inv.goto (h : s.Inv sources) {t : ℕ} {pc : Pc}
    (hpc : PcOk sources s.world s.pending s.generation pc) : (s.goto t pc).Inv sources := by
  intro u
  change PcOk _ _ _ _ (Function.update s.pc t pc u)
  rcases eq_or_ne u t with rfl | hne
  · rw [Function.update_self]
    exact hpc
  · rw [Function.update_of_ne hne]
    exact h u

theorem Inv.look (h : s.Inv sources) {t seen : ℕ} {a : Args} {sc : Scan}
    (hpc : s.pc t = .scan a seen sc) :
    (match sc.next sources s.world a.table with
      | some sc => s.goto t (.scan a seen sc)
      | none =>
        if sc.ready > 0 ∨ a.waits = false then s.goto t .idle
        else s.goto t (.nothing a seen)).Inv sources := by
  have ht := h t
  rw [hpc] at ht
  split
  next hnext => exact h.goto ⟨ht.1, fun hseen => (ht.2 hseen).next hnext⟩
  next hnext =>
    split
    · exact h.goto trivial
    next hno =>
      refine h.goto ⟨ht.1, fun hseen => (ht.2 hseen).nothing hnext ?_⟩
      rw [not_or, not_lt, Nat.le_zero] at hno
      exact hno.1

theorem Inv.change (h : s.Inv sources) (w : World) :
    (s.step sources (.change w)).Inv sources := by
  intro t
  have ht := h t
  change PcOk _ _ _ _ (s.pc t)
  cases hpc : s.pc t with
  | scan a seen sc =>
    rw [hpc] at ht
    exact ⟨ht.1, fun hseen => (ht.2 hseen).change w⟩
  | nothing a seen =>
    rw [hpc] at ht
    exact ⟨ht.1, fun hseen e he => (ht.2 hseen e he).change w⟩
  | asleep a =>
    rw [hpc] at ht
    exact fun e he => (ht e he).change w
  | idle | loop | dead => trivial

theorem Inv.notify (h : s.Inv sources) (i : ℕ) :
    (s.step sources (.notify i)).Inv sources := by
  intro t
  have ht := h t
  simp only [State.step, pollNotify]
  split
  · trivial
  next hawake =>
    cases hpc : s.pc t with
    | scan a seen sc =>
      rw [hpc] at ht
      have := ht.1
      exact ⟨by omega, fun hseen => absurd hseen (by omega)⟩
    | nothing a seen =>
      rw [hpc] at ht
      have := ht.1
      exact ⟨by omega, fun hseen => absurd hseen (by omega)⟩
    | asleep a => exact absurd hpc (hawake a)
    | idle | loop | dead => trivial

theorem Inv.step (h : s.Inv sources) (e : Event) : (s.step sources e).Inv sources := by
  cases e with
  | poll t a | wake t | die t | giveUp t =>
    simp only [State.step]
    split
    · exact h.goto trivial
    · exact h
  | read t =>
    simp only [State.step]
    split
    · apply h.goto
      exact ⟨le_rfl, fun _ => scanOk_start⟩
    · exact h
  | look t =>
    simp only [State.step]
    split
    next hpc => exact h.look hpc
    · exact h
  | sleep t turn =>
    simp only [State.step]
    split
    next a seen hpc =>
      split
      next hseen =>
        have ht := h t
        rw [hpc] at ht
        cases turn with
        | sleeps => exact h.goto (ht.2 hseen.symm)
        | returns | stops | killed => exact h.goto trivial
      · exact h.goto trivial
    · exact h
  | change w => exact h.change w
  | notify i => exact h.notify i

theorem Inv.noticed (h : s.Inv sources) : s.Noticed sources := by
  intro t a hpc e he hready
  have ht := h t
  rw [hpc] at ht
  exact (ht e he).concerns hready

end State

/-- Nobody sleeps in `poll_wait` with an entry that is ready, unless the `poll_notify` for the
change that made it ready is still to come. -/
theorem poll_misses_nothing (world : World) (es : List Event) :
    Always (State.step sources) (State.Noticed sources) (start world) es := by
  refine Always.mono (fun s h => h.noticed)
    (always_of_induction (I := State.Inv sources) (P := fun _ _ => True)
      (fun s e h _ => h.step e) (fun _ => trivial) ?_)
  exact Along.of_forall fun _ _ => trivial

end

end Bashket.Polling
