import Bashket.Lib.Run

/-!
# Close-on-exec

A process has a table of open files, and a mask of the descriptors that `exec` closes. A slot of the
table changes under the lock of the slots, a bit of the mask by an atomic operation afterwards.

Every descriptor is numbered when it is made, so that two that had the same slot can be told apart.
`Marked` says that the mask is what was asked for, of every descriptor whose call has returned.
-/

namespace Bashket.CloseOnExec

open Run
open Function (update update_of_ne update_self)

abbrev taskMaxFds : ℕ := 16

abbrev Fd := Fin taskMaxFds

/-- `cloexec`: what the call that made it was asked for, or the last `fcntl` since. -/
structure Descriptor where
  id : ℕ
  cloexec : Bool

inductive Pc
  | user
  /-- `sys_dup` and `sys_dup2` have looked up the file -/
  | dup
  | dup2 (fd : Fd)
  /-- the slot has changed, the mark is still to; `made`: the descriptor the call has made -/
  | mark (fd : Fd) (on : Bool) (made : Option ℕ)
  /-- `sys_fcntl` has seen that the descriptor is open -/
  | fcntl (fd : Fd) (on : Bool)
deriving DecidableEq

def Pc.Holds (fd : Fd) : Pc → Prop
  | .mark fd' _ _ | .fcntl fd' _ => fd' = fd
  | _ => False

instance (fd : Fd) (pc : Pc) : Decidable (pc.Holds fd) := by
  unfold Pc.Holds
  split <;> infer_instance

/-- A process with `n` threads; `made`: how many descriptors have been made. -/
structure State (n : ℕ) where
  fds : Fd → Option Descriptor
  fdCloexec : Fd → Bool
  made : ℕ
  pc : Fin n → Pc

/-- What a thread may do; `turn` goes on with the call it is in. -/
inductive Event (n : ℕ)
  | openFile (t : Fin n) (cloexec : Bool)
  | close (t : Fin n) (fd : Fd)
  | dup (t : Fin n) (old : Fd)
  | dup2 (t : Fin n) (old new : Fd)
  | fcntl (t : Fin n) (fd : Fd) (on : Bool)
  | exec (t : Fin n)
  | turn (t : Fin n)

def wanted : Option Descriptor → Bool
  | some d => d.cloexec
  | none => false

variable {n : ℕ}

namespace State

variable (s : State n)

def goto (t : Fin n) (pc : Pc) : State n := { s with pc := update s.pc t pc }

def fdSlotSet (fd : Fd) (x : Option Descriptor) : State n :=
  { s with fds := update s.fds fd x }

/-- `fd_slot_set` with a new descriptor. -/
def fill (fd : Fd) (cloexec : Bool) : State n :=
  { s.fdSlotSet fd (some ⟨s.made, cloexec⟩) with made := s.made + 1 }

/-- The slot `fd_install` takes. -/
def lowest : Option Fd := (List.finRange taskMaxFds).find? fun fd => (s.fds fd).isNone

def setMark (fd : Fd) (on : Bool) : State n :=
  { s with fdCloexec := update s.fdCloexec fd on }

/-- `sys_open` from `fd_install` on. -/
def sysOpen (t : Fin n) (cloexec : Bool) : State n :=
  match s.lowest with
  | none => s
  | some fd =>
    (s.fill fd cloexec).goto t (if cloexec then .mark fd true (some s.made) else .user)

/-- `process_exec`, which is alone by then. -/
def processExec : State n :=
  { s with
    fds := fun fd => if s.fdCloexec fd then none else s.fds fd
    fdCloexec := fun _ => false }

def turn (t : Fin n) : State n :=
  match s.pc t with
  | .user => s
  | .dup =>
    match s.lowest with
    | none => s.goto t .user
    | some fd => (s.fill fd false).goto t .user
  | .dup2 fd => (s.fill fd false).goto t (.mark fd false (some s.made))
  | .mark fd on _ => (s.setMark fd on).goto t .user
  | .fcntl fd on =>
    ((s.setMark fd on).fdSlotSet fd ((s.fds fd).map ({ · with cloexec := on }))).goto t .user

/-- One that cannot happen, or is refused, changes nothing. The other threads end before an `exec`:
none is in a call then. -/
def step : Event n → State n
  | .openFile t cloexec => if s.pc t = .user then s.sysOpen t cloexec else s
  | .close t fd =>
    if s.pc t = .user ∧ (s.fds fd).isSome then
      (s.fdSlotSet fd none).goto t (.mark fd false none)
    else s
  | .dup t old => if s.pc t = .user ∧ (s.fds old).isSome then s.goto t .dup else s
  | .dup2 t old new =>
    if s.pc t = .user ∧ (s.fds old).isSome ∧ old ≠ new then s.goto t (.dup2 new) else s
  | .fcntl t fd on =>
    if s.pc t = .user ∧ (s.fds fd).isSome then s.goto t (.fcntl fd on) else s
  | .exec _ => if ∀ u, s.pc u = .user then s.processExec else s
  | .turn t => s.turn t

end State

def start (fds : Fd → Option Bool) : State n where
  fds fd := (fds fd).map fun cloexec => ⟨fd, cloexec⟩
  fdCloexec fd := (fds fd).getD false
  made := taskMaxFds
  pc _ := .user

namespace State

variable (s : State n)

/-- Every descriptor whose call has returned is marked if that was asked for, and only then. -/
def Marked : Prop :=
  ∀ fd, ∀ d ∈ s.fds fd, (∀ t on, s.pc t ≠ .mark fd on (some d.id)) → s.fdCloexec fd = d.cloexec

instance : Decidable s.Marked :=
  inferInstanceAs (Decidable (∀ fd, ∀ d ∈ s.fds fd, _ → _))

/-- The slot that a step fills, empties or replaces, or that `fcntl` looks at. -/
def touched : Event n → Option Fd
  | .openFile _ _ => s.lowest
  | .close _ fd | .fcntl _ fd _ => some fd
  | .turn t =>
    match s.pc t with
    | .dup => s.lowest
    | .dup2 fd => some fd
    | _ => none
  | _ => none

/-- No slot is touched while a call of another thread has seen it and has its mark to change. -/
def Apart (e : Event n) : Prop := ∀ fd ∈ s.touched e, ∀ t, ¬ (s.pc t).Holds fd

instance (e : Event n) : Decidable (s.Apart e) :=
  inferInstanceAs (Decidable (∀ fd ∈ s.touched e, _))

/-! ### Steps -/

/-- Where a thread may be, that is at a slot with the descriptor `x` and the mark `marked`. -/
def PcOk (x : Option Descriptor) (marked : Bool) : Pc → Prop
  | .mark _ on made => on = wanted x ∧ made = x.map Descriptor.id
  | .fcntl _ _ => x.isSome ∧ marked = wanted x
  | _ => marked = wanted x

/-- What holds of a slot: it has its mark and nobody holds it, or one thread does. -/
def SlotOk (fd : Fd) : Prop :=
  ((∀ t, ¬ (s.pc t).Holds fd) ∧ s.fdCloexec fd = wanted (s.fds fd)) ∨
    ∃ t, (s.pc t).Holds fd ∧ (∀ u, u ≠ t → ¬ (s.pc u).Holds fd) ∧
      PcOk (s.fds fd) (s.fdCloexec fd) (s.pc t)

def Inv : Prop := ∀ fd, s.SlotOk fd

variable {s} {s' : State n} {t : Fin n} {fd : Fd}

theorem SlotOk.congr (h : s.SlotOk fd) (hfds : s'.fds fd = s.fds fd)
    (hmark : s'.fdCloexec fd = s.fdCloexec fd)
    (hpc : ∀ u, (s'.pc u).Holds fd ∨ (s.pc u).Holds fd → s'.pc u = s.pc u) : s'.SlotOk fd := by
  have hholds : ∀ u, (s'.pc u).Holds fd ↔ (s.pc u).Holds fd := by
    intro u
    constructor
    · intro hu
      exact hpc u (.inl hu) ▸ hu
    · intro hu
      exact (hpc u (.inr hu)).symm ▸ hu
  unfold SlotOk
  simp only [hholds, hfds, hmark]
  rcases h with h | ⟨t, ht, halone, hok⟩
  · exact .inl h
  · refine .inr ⟨t, ht, halone, ?_⟩
    rwa [hpc t (.inr ht)]

theorem Inv.goto (h : s.Inv) (ht : ∀ fd, ¬ (s.pc t).Holds fd) {pc : Pc}
    (hpc : ∀ fd, ¬ pc.Holds fd) : (s.goto t pc).Inv := by
  intro fd
  refine (h fd).congr ?_ ?_ fun u hu => ?_
  · rfl
  · rfl
  have hne : u ≠ t := by
    rintro rfl
    rcases hu with hu | hu
    · simp only [State.goto, update_self] at hu
      exact hpc fd hu
    · exact ht fd hu
  exact update_of_ne hne ..

theorem Inv.of_slot (h : s.Inv) (hfree : ∀ u, u ≠ t → ¬ (s.pc u).Holds fd)
    (ht : ∀ fd', fd' ≠ fd → ¬ (s.pc t).Holds fd')
    (hfds : ∀ fd', fd' ≠ fd → s'.fds fd' = s.fds fd')
    (hmark : ∀ fd', fd' ≠ fd → s'.fdCloexec fd' = s.fdCloexec fd')
    (hpc : ∀ u, u ≠ t → s'.pc u = s.pc u) (ht' : ∀ fd', fd' ≠ fd → ¬ (s'.pc t).Holds fd')
    (hok : PcOk (s'.fds fd) (s'.fdCloexec fd) (s'.pc t)) : s'.Inv := by
  intro fd'
  rcases eq_or_ne fd' fd with rfl | hne
  · have hfree' : ∀ u, u ≠ t → ¬ (s'.pc u).Holds fd' := by
      intro u hu
      rw [hpc u hu]
      exact hfree u hu
    by_cases hholds : (s'.pc t).Holds fd'
    · exact .inr ⟨t, hholds, hfree', hok⟩
    · refine .inl ⟨fun u => ?_, ?_⟩
      · rcases eq_or_ne u t with rfl | hu
        · exact hholds
        · exact hfree' u hu
      · -- a call that is at no slot, or at another one
        cases hcase : s'.pc t with
        | user | dup | dup2 =>
          rw [hcase] at hok
          exact hok
        | mark fd'' _ _ | fcntl fd'' _ =>
          have hother : fd'' = fd' := by
            by_contra hne
            apply ht' fd'' hne
            rw [hcase]
            rfl
          rw [hcase] at hholds
          exact absurd hother hholds
  · apply (h fd').congr (hfds fd' hne) (hmark fd' hne)
    intro u hu
    apply hpc
    rintro rfl
    exact hu.elim (ht' fd' hne) (ht fd' hne)

theorem holds_mark_of_ne {fd' : Fd} {on : Bool} {made : Option ℕ} (h : fd' ≠ fd) :
    ¬ (Pc.mark fd on made).Holds fd' := fun hholds => h (Eq.symm hholds)

theorem not_holds_user (fd : Fd) : ¬ Pc.user.Holds fd := id

/-- A thread changes a slot that nobody holds, and goes on to change its mark, or need not. -/
theorem Inv.change (h : s.Inv) (hfree : ∀ u, ¬ (s.pc u).Holds fd)
    (ht : ∀ fd', ¬ (s.pc t).Holds fd') (x : Option Descriptor) (made : ℕ) {pc : Pc}
    (hpc : pc = .mark fd (wanted x) (x.map Descriptor.id) ∨
      (pc = .user ∧ s.fdCloexec fd = wanted x)) :
    ({ s.fdSlotSet fd x with made := made }.goto t pc).Inv := by
  refine h.of_slot (fun u _ => hfree u) (fun fd' _ => ht fd') ?_ (fun _ _ => rfl)
    (fun u hu => update_of_ne hu ..) ?_ ?_
  · exact fun fd' hne => update_of_ne hne ..
  · intro fd' hne
    simp only [State.goto, update_self]
    rcases hpc with rfl | ⟨rfl, -⟩
    · exact holds_mark_of_ne hne
    · exact not_holds_user fd'
  · simp only [State.goto, fdSlotSet, update_self]
    rcases hpc with rfl | ⟨rfl, heq⟩
    · exact ⟨rfl, rfl⟩
    · exact heq

theorem Inv.unmarked (h : s.Inv) (hfree : ∀ u, ¬ (s.pc u).Holds fd) (hempty : s.fds fd = none) :
    s.fdCloexec fd = false := by
  rcases h fd with ⟨-, heq⟩ | ⟨t, ht, -⟩
  · rw [heq, hempty]
    rfl
  · exact absurd ht (hfree t)

theorem fds_of_lowest (h : s.lowest = some fd) : s.fds fd = none := by
  have hfound := List.find?_some h
  simpa using hfound

theorem Inv.install (h : s.Inv) (hfree : ∀ u, ¬ (s.pc u).Holds fd)
    (ht : ∀ fd', ¬ (s.pc t).Holds fd') (hlow : s.lowest = some fd) :
    ((s.fill fd false).goto t .user).Inv := by
  apply h.change hfree ht
  exact .inr ⟨rfl, h.unmarked hfree (fds_of_lowest hlow)⟩

theorem Inv.sysOpen (h : s.Inv) (ht : s.pc t = .user) (cloexec : Bool)
    (hapart : ∀ fd ∈ s.lowest, ∀ u, ¬ (s.pc u).Holds fd) : (s.sysOpen t cloexec).Inv := by
  have hnone : ∀ fd', ¬ (s.pc t).Holds fd' := by
    rw [ht]
    exact not_holds_user
  unfold State.sysOpen
  cases hlow : s.lowest with
  | none => exact h
  | some fd =>
    have hfree := hapart fd hlow
    cases cloexec with
    | false => exact h.install hfree hnone hlow
    | true => exact h.change hfree hnone _ _ (.inl rfl)

theorem Inv.held (h : s.Inv) (ht : (s.pc t).Holds fd) :
    (∀ u, u ≠ t → ¬ (s.pc u).Holds fd) ∧ PcOk (s.fds fd) (s.fdCloexec fd) (s.pc t) := by
  rcases h fd with ⟨hno, -⟩ | ⟨u, hu, halone, hok⟩
  · exact absurd ht (hno t)
  · obtain rfl : t = u := by
      by_contra hne
      exact halone t hne ht
    exact ⟨halone, hok⟩

theorem Inv.turn (h : s.Inv) (hapart : s.Apart (.turn t)) : (s.turn t).Inv := by
  unfold State.turn
  cases ht : s.pc t with
  | user => exact h
  | dup =>
    have hnone : ∀ fd', ¬ (s.pc t).Holds fd' := by
      rw [ht]
      exact fun _ => id
    simp only [Apart, touched, ht] at hapart
    dsimp only
    cases hlow : s.lowest with
    | none => exact h.goto hnone not_holds_user
    | some fd => exact h.install (hapart fd hlow) hnone hlow
  | dup2 fd =>
    have hnone : ∀ fd', ¬ (s.pc t).Holds fd' := by
      rw [ht]
      exact fun _ => id
    simp only [Apart, touched, ht] at hapart
    exact h.change (hapart fd rfl) hnone _ _ (.inl rfl)
  | mark fd on made =>
    obtain ⟨hfree, hok⟩ := h.held (t := t) (by rw [ht]; rfl)
    rw [ht] at hok
    refine h.of_slot hfree ?_ (fun _ _ => rfl) (fun fd' hne => update_of_ne hne ..)
      (fun u hu => update_of_ne hu ..) ?_ ?_
    · rw [ht]
      exact fun fd' hne => holds_mark_of_ne hne
    · simp only [State.goto, update_self]
      exact fun fd' _ => not_holds_user fd'
    · simp only [State.goto, setMark, update_self]
      exact hok.1
  | fcntl fd on =>
    obtain ⟨hfree, hok⟩ := h.held (t := t) (by rw [ht]; rfl)
    rw [ht] at hok
    obtain ⟨d, hd⟩ := Option.isSome_iff_exists.1 hok.1
    refine h.of_slot hfree ?_ (fun fd' hne => update_of_ne hne ..)
      (fun fd' hne => update_of_ne hne ..) (fun u hu => update_of_ne hu ..) ?_ ?_
    · rw [ht]
      exact fun fd' hne hholds => hne (Eq.symm hholds)
    · simp only [State.goto, update_self]
      exact fun fd' _ => not_holds_user fd'
    · simp only [State.goto, setMark, fdSlotSet, update_self, hd]
      rfl

theorem Inv.processExec (h : s.Inv) (halone : ∀ u, s.pc u = .user) : s.processExec.Inv := by
  intro fd
  have hno : ∀ u, ¬ (s.pc u).Holds fd := by
    intro u
    rw [halone u]
    exact not_holds_user fd
  refine .inl ⟨hno, ?_⟩
  rcases h fd with ⟨-, heq⟩ | ⟨t, ht, -⟩
  · change false = wanted (if s.fdCloexec fd then none else s.fds fd)
    cases hmark : s.fdCloexec fd with
    | true => rfl
    | false => exact hmark.symm.trans heq
  · exact absurd ht (hno t)

theorem Inv.step (h : s.Inv) (e : Event n) (hapart : s.Apart e) : (s.step e).Inv := by
  cases e with
  | openFile t cloexec =>
    simp only [State.step]
    split
    next ht => exact h.sysOpen ht cloexec hapart
    · exact h
  | close t fd =>
    simp only [State.step]
    split
    next hcond =>
      have hnone : ∀ fd', ¬ (s.pc t).Holds fd' := by
        rw [hcond.1]
        exact not_holds_user
      exact h.change (hapart fd rfl) hnone none s.made (.inl rfl)
    · exact h
  | dup t old | dup2 t old new =>
    simp only [State.step]
    split
    next hcond =>
      apply h.goto
      · rw [hcond.1]
        exact not_holds_user
      · exact fun _ => id
    · exact h
  | fcntl t fd on =>
    simp only [State.step]
    split
    next hcond =>
      have hfree := hapart fd rfl
      refine h.of_slot (fun u _ => hfree u) ?_ (fun _ _ => rfl) (fun _ _ => rfl)
        (fun u hu => update_of_ne hu ..) ?_ ?_
      · rw [hcond.1]
        exact fun fd' _ => not_holds_user fd'
      · simp only [State.goto, update_self]
        exact fun fd' hne hholds => hne (Eq.symm hholds)
      · simp only [State.goto, update_self]
        refine ⟨hcond.2, ?_⟩
        exact ((h fd).resolve_right fun ⟨u, hu, _⟩ => hfree u hu).2
    · exact h
  | exec t =>
    simp only [State.step]
    split
    next halone => exact h.processExec halone
    · exact h
  | turn t => exact h.turn hapart

theorem Inv.marked (h : s.Inv) : s.Marked := by
  intro fd d hd hreturned
  have hwanted : wanted (s.fds fd) = d.cloexec := by
    rw [hd]
    rfl
  rcases h fd with ⟨-, heq⟩ | ⟨t, ht, -, hok⟩
  · exact heq.trans hwanted
  · cases hpc : s.pc t with
    | user | dup | dup2 =>
      rw [hpc] at ht
      exact ht.elim
    | mark fd' on made =>
      rw [hpc] at ht hok
      obtain rfl : fd' = fd := ht
      rw [hd] at hok
      exact absurd (hpc.trans (by rw [hok.2]; rfl)) (hreturned t on)
    | fcntl fd' on =>
      rw [hpc] at hok
      exact hok.2.trans hwanted

end State

theorem inv_start (fds : Fd → Option Bool) : (start fds : State n).Inv := by
  intro fd
  refine .inl ⟨fun _ => State.not_holds_user fd, ?_⟩
  simp only [start]
  cases fds fd <;> rfl

/-- As long as no slot is touched while another call has its mark to change, a descriptor is marked
exactly if that was asked for. -/
theorem close_on_exec_sticks (fds : Fd → Option Bool) (es : List (Event n))
    (hapart : Along State.step State.Apart (start fds) es) :
    Always State.step State.Marked (start fds) es := by
  have hinv : Always State.step State.Inv (start fds) es :=
    always_of_induction (fun s e h hapart => h.step e hapart) (inv_start fds) hapart
  exact hinv.mono fun s h => h.marked

theorem close_on_exec_sticks_twoThreads :
    let es : List (Event 2) :=
      [.openFile 0 true, .turn 0, .openFile 1 false, .close 1 1, .turn 1, .openFile 1 true,
        .turn 1, .dup 0 0, .turn 0, .exec 0]
    Along State.step State.Apart (start fun _ => none) es ∧
      Always State.step State.Marked (start fun _ => none) es := by
  have hapart : Along State.step State.Apart (start fun _ => none : State 2)
      [.openFile 0 true, .turn 0, .openFile 1 false, .close 1 1, .turn 1, .openFile 1 true,
        .turn 1, .dup 0 0, .turn 0, .exec 0] := by
    decide
  exact ⟨hapart, close_on_exec_sticks _ _ hapart⟩

/-- A file is closed while another thread opens one: the mark that goes is that of the new file. And
a file is closed before `open` has marked it: the mark goes to the next one of that number. -/
theorem marks_of_others_change :
    ¬ Always State.step State.Marked (start fun _ => none : State 2)
        [.openFile 0 false, .close 0 0, .openFile 1 true, .turn 1, .turn 0] ∧
      ¬ Always State.step State.Marked (start fun _ => none : State 2)
        [.openFile 0 true, .close 1 0, .turn 1, .openFile 1 false, .turn 0] := by
  decide

end Bashket.CloseOnExec
