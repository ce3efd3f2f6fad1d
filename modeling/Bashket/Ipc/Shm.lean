import Bashket.Lib.Run

/-!
# Shared memory segments

`shm_get` finds the segment with a key or fills a free slot of the table; the system calls `shmat`
and `shmrm` take a slot number, ask `shm_count_valid` and `shm_may_use` whether the caller may use
the segment there, and then attach or remove it. Each question and each operation is one hold of
`shm_lock`.

A frame that is freed and given out again counts as another frame. So every frame has at most one
user it was ever allocated for by `shm_get`, remembered in `made`.
-/

namespace Bashket.Ipc

open Run List
open Function (update update_of_ne update_self)

abbrev maxSegments : ℕ := 16

abbrev maxPages : ℕ := 256

abbrev pageSize : ℕ := 4096

abbrev uidRoot : ℕ := 0

abbrev userMmapEnd : ℕ := 0x7F0000000000

/-- `shm_segment_t` -/
structure Segment where
  used : Bool
  key : ℕ
  owner : ℕ
  frames : List ℕ
deriving DecidableEq, Repr

inductive Err
  | inval
  | nomem
  | nospc
  | acces
deriving DecidableEq, Repr

inductive Use
  | attach
  | remove
deriving DecidableEq, Repr

inductive Point
  | idle
  /-- in `shm_get`, with the frames for a new segment, about to search the table -/
  | search (key : ℕ) (frames : List ℕ)
  /-- after `shm_get`, about to ask `shm_may_use` -/
  | found (slot : Fin maxSegments)
  /-- about to ask `shm_count_valid` -/
  | valid (u : Use) (id : ℤ)
  | mayUse (u : Use) (id : ℤ)
  /-- about to take the references of `shm_attach`, or in `shm_remove` -/
  | use (u : Use) (id : ℤ)
  /-- in `shm_attach` with a reference to each of the frames, about to map them -/
  | map (frames : List ℕ)
  | undo (addr pages : ℕ)
deriving DecidableEq, Repr

structure Task where
  proc : ℕ
  point : Point
  result : Option (Except Err ℕ)

/-- A process: its user, the next address of its mappings, and what it has mapped where. -/
structure Proc where
  uid : ℕ
  mmapNext : ℕ
  mapped : List (ℕ × ℕ)

structure State where
  segments : Fin maxSegments → Segment
  procs : ℕ → Proc
  tasks : ℕ → Task
  made : ℕ → Option ℕ

inductive Event
  /-- the task calls `shmget`; the frames are those there is memory for -/
  | shmget (t key size : ℕ) (frames : List ℕ)
  /-- the task calls `shmat` or `shmrm` -/
  | shmuse (t : ℕ) (u : Use) (id : ℤ)
  /-- the task takes its next step; `pages` of the pages to map can be mapped -/
  | turn (t pages : ℕ)

namespace State

variable (s : State)

def uid (t : ℕ) : ℕ := (s.procs (s.tasks t).proc).uid

def slot? (id : ℤ) : Option (Fin maxSegments) :=
  if h : 0 ≤ id ∧ id < maxSegments then some ⟨id.toNat, by omega⟩ else none

def goto (t : ℕ) (point : Point) : State :=
  { s with tasks := update s.tasks t { s.tasks t with point } }

def ret (t : ℕ) (result : Except Err ℕ) : State :=
  let task := { s.tasks t with point := .idle, result := some result }
  { s with tasks := update s.tasks t task }

def setProc (t : ℕ) (p : Proc) : State :=
  { s with procs := update s.procs (s.tasks t).proc p }

def setSegment (i : Fin maxSegments) (seg : Segment) : State :=
  { s with segments := update s.segments i seg }

end State

/-- The pages of a segment of `size` bytes, in `size_t`. -/
def pagesOf (size : ℕ) : ℕ := (size + pageSize - 1) % 2 ^ 64 / pageSize

/-- `shm_may_use`: root and the owner may. -/
def MayUse (uid owner : ℕ) : Prop := uid = uidRoot ∨ uid = owner

instance (uid owner : ℕ) : Decidable (MayUse uid owner) := inferInstanceAs (Decidable (_ ∨ _))

namespace State

variable (s : State)

def withKey (key : ℕ) : Option (Fin maxSegments) :=
  (List.finRange maxSegments).find? fun i => (s.segments i).used && (s.segments i).key = key

def freeSlot : Option (Fin maxSegments) :=
  (List.finRange maxSegments).find? fun i => !(s.segments i).used

def fill (t : ℕ) (i : Fin maxSegments) (key : ℕ) (frames : List ℕ) : State :=
  s.setSegment i { used := true, key, owner := s.uid t, frames }

/-- `shm_get`, from where it has its frames. -/
def search (t key : ℕ) (frames : List ℕ) : State :=
  match s.withKey key with
  | some i =>
    -- it exists: is it big enough?
    if frames.length ≤ (s.segments i).frames.length then s.goto t (.found i)
    else s.ret t (.error .inval)
  | none =>
    match s.freeSlot with
    | some i => (s.fill t i key frames).goto t (.found i)
    | none => s.ret t (.error .nospc)

/-- The slot `i` is used and the task's user may use it. -/
def allowed (t : ℕ) (i : Fin maxSegments) : Bool :=
  (s.segments i).used && MayUse (s.uid t) (s.segments i).owner

/-- The critical sections of `shm_attach` and `shm_remove`. -/
def use (t : ℕ) (u : Use) (i : Fin maxSegments) : State :=
  let seg := s.segments i
  match u with
  | .attach => if seg.used && seg.frames ≠ [] then s.goto t (.map seg.frames) else s.ret t (.error .inval)
  | .remove =>
    let s' := s.setSegment i { seg with used := false, frames := [] }
    s'.ret t (if seg.used then .ok 0 else .error .inval)

def pagesFrom (addr : ℕ) (frames : List ℕ) : List (ℕ × ℕ) :=
  frames.mapIdx fun i f => (addr + i * pageSize, f)

/-- The end of `shm_attach`: the frames are mapped, as many as can be. -/
def map (t : ℕ) (frames : List ℕ) (pages : ℕ) : State :=
  let p := s.procs (s.tasks t).proc
  let addr := p.mmapNext
  let size := frames.length * pageSize
  if addr < userMmapEnd ∧ size ≤ userMmapEnd - addr then
    let mapped := p.mapped ++ pagesFrom addr (frames.take pages)
    if frames.length ≤ pages then
      (s.setProc t { p with mapped, mmapNext := addr + size }).ret t (.ok addr)
    else (s.setProc t { p with mapped }).goto t (.undo addr pages)
  else s.ret t (.error .inval)

def undo (t addr pages : ℕ) : State :=
  let p := s.procs (s.tasks t).proc
  let gone := fun m : ℕ × ℕ => addr ≤ m.1 ∧ m.1 < addr + pages * pageSize
  (s.setProc t { p with mapped := p.mapped.filter fun m => ¬ gone m }).ret t (.error .inval)

def turn (t pages : ℕ) : State :=
  match (s.tasks t).point with
  | .idle => s
  | .search key frames => s.search t key frames
  | .found i => s.ret t (if s.allowed t i then .ok i else .error .acces)
  | .valid u id =>
    match slot? id with
    | some i => if (s.segments i).used then s.goto t (.mayUse u id) else s.goto t (.use u id)
    | none => s.goto t (.use u id)
  | .mayUse u id =>
    match slot? id with
    | some i => if s.allowed t i then s.goto t (.use u id) else s.ret t (.error .acces)
    | none => s.ret t (.error .acces)
  | .use u id =>
    match slot? id with
    | some i => s.use t u i
    | none => s.ret t (.error .inval)
  | .map frames => s.map t frames pages
  | .undo addr pages => s.undo t addr pages

def Fresh (frames : List ℕ) (pages : ℕ) : Prop :=
  frames.length = pages ∧ frames.Nodup ∧ ∀ f ∈ frames, s.made f = none

instance (frames : List ℕ) (pages : ℕ) : Decidable (s.Fresh frames pages) :=
  inferInstanceAs (Decidable (_ ∧ _ ∧ _))

/-- `shm_get` up to where it has the frames. -/
def shmget (t key size : ℕ) (frames : List ℕ) : State :=
  let pages := pagesOf size
  if size = 0 ∨ pages = 0 ∨ pages > maxPages then s.ret t (.error .inval)
  else if s.Fresh frames pages then
    { s.goto t (.search key frames) with
      made := fun f => if f ∈ frames then some (s.uid t) else s.made f }
  else s.ret t (.error .nomem)

/-- What an event does.  A task starts a call only when it is in none. -/
def step : Event → State
  | .shmget t key size frames => if (s.tasks t).point = .idle then s.shmget t key size frames else s
  | .shmuse t u id => if (s.tasks t).point = .idle then s.goto t (.valid u id) else s
  | .turn t pages => s.turn t pages

end State

/-! ### Who uses what -/

namespace State

variable (s : State)

/-- Every page a process has mapped is of a segment its user may use. -/
def Private : Prop :=
  ∀ p, ∀ m ∈ (s.procs p).mapped, ∃ owner, s.made m.2 = some owner ∧ MayUse (s.procs p).uid owner

structure Boot : Prop where
  unused : ∀ i, (s.segments i).used = false
  unmapped : ∀ p, (s.procs p).mapped = []
  idle : ∀ t, (s.tasks t).point = .idle

end State

/-- A segment is attached or removed only by root or its owner. -/
def Respects (s : State) : Event → Prop
  | .turn t _ => ∀ u id i, (s.tasks t).point = .use u id → State.slot? id = some i →
      (s.segments i).used → MayUse (s.uid t) (s.segments i).owner
  | _ => True

/-- When `shm_get` fills a slot, every task that has passed its checks for this slot may use what is
put there. -/
def Undisturbed (s : State) : Event → Prop
  | .turn t _ => ∀ key frames i, (s.tasks t).point = .search key frames → s.withKey key = none →
      s.freeSlot = some i → ∀ t' u id, (s.tasks t').point = .use u id → State.slot? id = some i →
        MayUse (s.uid t') (s.uid t)
  | _ => True

namespace State

variable {s : State} {t : ℕ} {i : Fin maxSegments} {frames : List ℕ}

/-- What a task of the user `uid` relies on at a point. -/
def PointOk (s : State) (uid : ℕ) : Point → Prop
  | .search _ frames => ∀ f ∈ frames, s.made f = some uid
  | .use _ id => ∀ i, slot? id = some i → (s.segments i).used → MayUse uid (s.segments i).owner
  | .map frames => ∀ f ∈ frames, ∃ owner, s.made f = some owner ∧ MayUse uid owner
  | _ => True

/-- The invariant: the frames of a segment were made for its owner, and what the tasks rely on. -/
structure Guarded (s : State) : Prop where
  table : ∀ i, (s.segments i).used → ∀ f ∈ (s.segments i).frames,
    s.made f = some (s.segments i).owner
  points : ∀ t, s.PointOk (s.uid t) (s.tasks t).point
  mapped : s.Private

/-! ### What the parts of a step keep -/

@[simp] theorem uid_goto (point : Point) (t' : ℕ) : (s.goto t point).uid t' = s.uid t' := by
  unfold uid goto
  rcases eq_or_ne t' t with rfl | h
  · simp only [update_self]
  · simp only [update_of_ne h]

@[simp] theorem uid_ret (result : Except Err ℕ) (t' : ℕ) :
    (s.ret t result).uid t' = s.uid t' := by
  unfold uid ret
  rcases eq_or_ne t' t with rfl | h
  · simp only [update_self]
  · simp only [update_of_ne h]

theorem pointOk_congr {s' : State} (hseg : s'.segments = s.segments) (hmade : s'.made = s.made)
    (uid : ℕ) (point : Point) : s'.PointOk uid point ↔ s.PointOk uid point := by
  cases point <;> simp only [PointOk, hseg, hmade]

theorem Guarded.goto (h : s.Guarded) {point : Point} (hp : s.PointOk (s.uid t) point) :
    (s.goto t point).Guarded := by
  refine ⟨h.table, fun t' => ?_, h.mapped⟩
  rw [uid_goto]
  refine (pointOk_congr (s := s) rfl rfl _ _).2 ?_
  rcases eq_or_ne t' t with rfl | hne
  · simpa only [State.goto, update_self] using hp
  · simpa only [State.goto, update_of_ne hne] using h.points t'

theorem Guarded.ret (h : s.Guarded) (result : Except Err ℕ) : (s.ret t result).Guarded := by
  refine ⟨h.table, fun t' => ?_, h.mapped⟩
  rw [uid_ret]
  refine (pointOk_congr (s := s) rfl rfl _ _).2 ?_
  rcases eq_or_ne t' t with rfl | hne
  · simp only [State.ret, update_self]
    trivial
  · simpa only [State.ret, update_of_ne hne] using h.points t'

theorem Guarded.setProc (h : s.Guarded) {p : Proc} (huid : p.uid = s.uid t)
    (hm : ∀ m ∈ p.mapped, ∃ owner, s.made m.2 = some owner ∧ MayUse p.uid owner) :
    (s.setProc t p).Guarded := by
  have huids : ∀ t', (s.setProc t p).uid t' = s.uid t' := by
    intro t'
    unfold uid State.setProc
    rcases eq_or_ne (s.tasks t').proc (s.tasks t).proc with he | hne
    · simp only [he, update_self]
      exact huid
    · simp only [update_of_ne hne]
  refine ⟨h.table, fun t' => ?_, fun q m hq => ?_⟩
  · rw [huids]
    exact h.points t'
  · simp only [State.setProc] at hq ⊢
    rcases eq_or_ne q (s.tasks t).proc with rfl | hne
    · rw [update_self] at hq ⊢
      exact hm m hq
    · rw [update_of_ne hne] at hq ⊢
      exact h.mapped q m hq

theorem Guarded.setSegment (h : s.Guarded) {seg : Segment}
    (hseg : seg.used → ∀ f ∈ seg.frames, s.made f = some seg.owner)
    (huse : seg.used → ∀ t u id, (s.tasks t).point = .use u id → slot? id = some i →
      MayUse (s.uid t) seg.owner) : (s.setSegment i seg).Guarded := by
  refine ⟨fun j hj => ?_, fun t' => ?_, h.mapped⟩
  · simp only [State.setSegment] at hj ⊢
    rcases eq_or_ne j i with rfl | hne
    · rw [update_self] at hj ⊢
      exact hseg hj
    · rw [update_of_ne hne] at hj ⊢
      exact h.table j hj
  · have ht := h.points t'
    change (s.setSegment i seg).PointOk (s.uid t') (s.tasks t').point
    cases hpoint : (s.tasks t').point with
    | use u id =>
      intro j hslot hj
      simp only [State.setSegment] at hj ⊢
      rcases eq_or_ne j i with rfl | hne
      · rw [update_self] at hj ⊢
        exact huse hj t' u id hpoint hslot
      · rw [update_of_ne hne] at hj ⊢
        rw [hpoint] at ht
        exact ht j hslot hj
    | idle => trivial
    | found => trivial
    | valid => trivial
    | mayUse => trivial
    | undo => trivial
    | search => rw [hpoint] at ht; exact ht
    | map => rw [hpoint] at ht; exact ht

/-! ### One step -/

theorem Guarded.search (h : s.Guarded) {key : ℕ} (hpoint : (s.tasks t).point = .search key frames)
    (hu : ∀ pages, Undisturbed s (.turn t pages)) :
    (s.search t key frames).Guarded := by
  have hframes : ∀ f ∈ frames, s.made f = some (s.uid t) := by
    have := h.points t
    rwa [hpoint] at this
  unfold State.search
  split
  · split
    · exact h.goto trivial
    · exact h.ret _
  next hkey =>
    split
    next i hfree =>
      refine Guarded.goto (h.setSegment (fun _ => hframes) fun _ t' u id ht' hslot => ?_) trivial
      exact hu 0 key frames i hpoint hkey hfree t' u id ht' hslot
    · exact h.ret _

theorem Guarded.use (h : s.Guarded) {u : Use} {id : ℤ} (hpoint : (s.tasks t).point = .use u id)
    (hslot : slot? id = some i) :
    (s.use t u i).Guarded := by
  have hmay : (s.segments i).used → MayUse (s.uid t) (s.segments i).owner := by
    have := h.points t
    rw [hpoint] at this
    exact this i hslot
  unfold State.use
  cases u with
  | attach =>
    dsimp only
    split
    next hused =>
      have hused : (s.segments i).used = true := by
        simp only [Bool.and_eq_true] at hused
        exact hused.1
      exact h.goto fun f hf => ⟨_, h.table i hused f hf, hmay hused⟩
    · exact h.ret _
  | remove =>
    exact Guarded.ret (h.setSegment (fun hu => by cases hu) fun hu => by cases hu) _

theorem mem_pagesFrom {addr : ℕ} {m : ℕ × ℕ} (h : m ∈ pagesFrom addr frames) :
    m.2 ∈ frames := by
  unfold pagesFrom at h
  obtain ⟨i, hi, rfl⟩ := mem_mapIdx.1 h
  exact getElem_mem hi

theorem Guarded.map (h : s.Guarded) (hpoint : (s.tasks t).point = .map frames) (pages : ℕ) :
    (s.map t frames pages).Guarded := by
  have hframes : ∀ f ∈ frames, ∃ owner, s.made f = some owner ∧ MayUse (s.uid t) owner := by
    have := h.points t
    rwa [hpoint] at this
  have hmapped : ∀ addr, ∀ m ∈ (s.procs (s.tasks t).proc).mapped ++
      pagesFrom addr (frames.take pages), ∃ owner, s.made m.2 = some owner ∧ MayUse (s.uid t) owner := by
    intro addr m hm
    rcases mem_append.1 hm with hm | hm
    · exact h.mapped _ m hm
    · exact hframes _ (mem_of_mem_take (mem_pagesFrom hm))
  unfold State.map
  dsimp only
  split
  · split
    · refine Guarded.ret (h.setProc ?_ ?_) _
      · rfl
      · exact hmapped _
    · refine Guarded.goto (h.setProc ?_ ?_) trivial
      · rfl
      · exact hmapped _
  · exact h.ret _

theorem Guarded.undo (h : s.Guarded) (addr pages : ℕ) : (s.undo t addr pages).Guarded := by
  refine Guarded.ret (h.setProc ?_ fun m hm => ?_) _
  · rfl
  · exact h.mapped _ m (mem_filter.1 hm).1

theorem Guarded.turn (h : s.Guarded) (pages : ℕ) (hu : ∀ pages, Undisturbed s (.turn t pages)) :
    (s.turn t pages).Guarded := by
  unfold State.turn
  split
  next => exact h
  next key frames hpoint => exact h.search hpoint hu
  next => exact h.ret _
  next u id hpoint =>
    split
    next i hslot =>
      split
      · exact h.goto trivial
      next hunused =>
        refine h.goto fun j hj hused => absurd hused ?_
        cases hslot.symm.trans hj
        exact hunused
    next hnone => exact h.goto fun j hj => nomatch hnone.symm.trans hj
  next u id hpoint =>
    split
    next i hslot =>
      split
      next hallowed =>
        refine h.goto fun j hj hused => ?_
        cases hslot.symm.trans hj
        simp only [allowed, Bool.and_eq_true, decide_eq_true_eq] at hallowed
        exact hallowed.2
      · exact h.ret _
    · exact h.ret _
  next u id hpoint =>
    split
    next i hslot => exact h.use hpoint hslot
    · exact h.ret _
  next frames hpoint => exact h.map hpoint pages
  next addr pages' hpoint => exact h.undo addr pages'

theorem Guarded.shmget (h : s.Guarded) (key size : ℕ) (frames : List ℕ) :
    (s.shmget t key size frames).Guarded := by
  unfold State.shmget
  dsimp only
  split
  · exact h.ret _
  split
  next hfresh =>
    obtain ⟨-, -, hfresh⟩ := hfresh
    -- what was made before stays
    have hold : ∀ f owner, s.made f = some owner →
        (if f ∈ frames then some (s.uid t) else s.made f) = some owner := by
      intro f owner hf
      rw [if_neg fun hmem => (nomatch (hfresh f hmem).symm.trans hf), hf]
    refine ⟨fun i hi f hf => hold f _ (h.table i hi f hf), fun t' => ?_, fun q m hm => ?_⟩
    · change PointOk _ ((s.goto t (.search key frames)).uid t') _
      rw [uid_goto]
      rcases eq_or_ne t' t with rfl | hne
      · simp only [State.goto, update_self]
        exact fun f hf => if_pos hf
      · have ht := h.points t'
        simp only [State.goto, update_of_ne hne]
        cases hpoint : (s.tasks t').point <;> rw [hpoint] at ht
        case search => exact fun f hf => hold f _ (ht f hf)
        case map => exact fun f hf => (ht f hf).imp fun owner ho => ⟨hold f owner ho.1, ho.2⟩
        case use => exact ht
        all_goals trivial
    · obtain ⟨owner, ho, hmay⟩ := h.mapped q m hm
      exact ⟨owner, hold _ _ ho, hmay⟩
  · exact h.ret _

theorem Guarded.step (h : s.Guarded) (e : Event) (hu : Undisturbed s e) : (s.step e).Guarded := by
  cases e with
  | shmget t key size frames =>
    unfold State.step
    dsimp only
    split
    · exact h.shmget key size frames
    · exact h
  | shmuse t u id =>
    unfold State.step
    dsimp only
    split
    · exact h.goto trivial
    · exact h
  | turn t pages => exact h.turn pages fun _ => hu

theorem Guarded.respects (h : s.Guarded) (e : Event) : Respects s e := by
  cases e with
  | turn t pages =>
    intro u id i hpoint hslot
    have ht := h.points t
    rw [hpoint] at ht
    exact ht i hslot
  | shmget => trivial
  | shmuse => trivial

theorem Boot.guarded (h : s.Boot) : s.Guarded where
  table i hi := by rw [h.unused i] at hi; cases hi
  points t := by rw [h.idle t]; trivial
  mapped p m hm := by rw [h.unmapped p] at hm; cases hm

end State

/-- If no slot is filled for another user while a task is between its checks and its use, segments
are attached and removed only by root and their owners, and every page mapped is of such a
segment. -/
theorem segments_private (s : State) (hs : s.Boot) (es : List Event)
    (hu : Along State.step Undisturbed s es) :
    Along State.step Respects s es ∧ Always State.step State.Private s es := by
  have hstep : ∀ s e, s.Guarded → Undisturbed s e → (s.step e).Guarded :=
    fun s e h hu => h.step e hu
  refine ⟨?_, (always_of_induction hstep hs.guarded hu).mono fun s h => h.mapped⟩
  have hwith := Along.with_invariant hstep hs.guarded hu
  exact hwith.mono fun s e h => h.1.respects e

def threeTasks : State where
  segments _ := { used := false, key := 0, owner := 0, frames := [] }
  procs p := { uid := if p = 2 then 2 else 1, mmapNext := 0x700000000000, mapped := [] }
  tasks t := { proc := t, point := .idle, result := none }
  made _ := none

theorem threeTasks_boot : threeTasks.Boot where
  unused _ := rfl
  unmapped _ := rfl
  idle _ := rfl

def ownSegment : List Event :=
  [.shmget 0 7 4096 [5], .turn 0 0, .turn 0 0, .shmuse 0 .attach 0, .turn 0 0, .turn 0 0, .turn 0 0,
    .turn 0 1]

theorem segments_private_ownSegment :
    Along State.step Undisturbed threeTasks ownSegment ∧
      Along State.step Respects threeTasks ownSegment ∧
      Always State.step State.Private threeTasks ownSegment ∧
      ((run State.step threeTasks ownSegment).procs 0).mapped = [(0x700000000000, 5)] := by
  have hu : Along State.step Undisturbed threeTasks ownSegment := by
    refine ⟨trivial, fun key frames i _ _ _ t' u id hpoint => ?_, fun _ _ _ h => ?_, trivial,
      fun _ _ _ h => ?_, fun _ _ _ h => ?_, fun _ _ _ h => ?_, fun _ _ _ h => ?_, trivial⟩
    -- when the slot is filled no task is past its checks
    · cases t' with
      | zero => cases hpoint
      | succ t' => cases hpoint
    all_goals cases h
  obtain ⟨h1, h2⟩ := segments_private threeTasks threeTasks_boot ownSegment hu
  exact ⟨hu, h1, h2, by decide +kernel⟩

/-- Task 0 passes the checks of `shmat` for its own segment; task 1 removes it; task 2 gets the
slot; then task 0 attaches what is there. -/
def reusedSlot : List Event :=
  [.shmget 0 7 4096 [5], .turn 0 0, .turn 0 0, .shmuse 0 .attach 0, .turn 0 0, .turn 0 0,
    .shmuse 1 .remove 0, .turn 1 0, .turn 1 0, .turn 1 0,
    .shmget 2 9 4096 [6], .turn 2 0, .turn 2 0, .turn 0 0, .turn 0 1]

/-- User 1 has mapped a page of a segment of user 2. -/
theorem reusedSlot_not_private :
    threeTasks.Boot ∧ ¬ (run State.step threeTasks reusedSlot).Private := by
  have hmapped : ((run State.step threeTasks reusedSlot).procs 0).mapped = [(0x700000000000, 6)] := by
    decide +kernel
  have hmade : (run State.step threeTasks reusedSlot).made 6 = some 2 := by decide +kernel
  have huid : ((run State.step threeTasks reusedSlot).procs 0).uid = 1 := by decide +kernel
  refine ⟨threeTasks_boot, fun h => ?_⟩
  obtain ⟨owner, ho, hmay⟩ :=
    h 0 (0x700000000000, 6) (by rw [hmapped]; exact mem_singleton_self _)
  cases hmade.symm.trans ho
  rw [huid] at hmay
  revert hmay
  decide

end Bashket.Ipc
