import Bashket.Proc.Moves
import Bashket.Lib.Run

/-!
# Signals are not lost

A signal that has been sent to a process and that the process does not ignore stays pending in one
of its threads until its handler is entered or its default action takes effect (`Kept`). This holds
of every step of every run in which two things do not happen: a thread with pending signals exits
while the process goes on, and a stop signal is taken for delivery while its action is the default
one.
-/

namespace Bashket.Signal

open Run List
open Function (update_of_ne update_self)

/-! ### What has become of a signal -/

namespace Process

variable (p : Process)

def Owed (sig : ℕ) : Prop := ∃ i ∈ p.order, (p.threads i).pends sig

/-- It has decided so, or a thread is about to, or every thread that can still run is told to
end. -/
def Ending : Prop :=
  p.groupExit ∨ (∃ i ∈ p.order, ∃ sig, (p.threads i).call = .fatal sig) ∨
    ∀ i ∈ p.order, (p.threads i).usable → (p.threads i).killPending ≠ 0

/-- Every thread that can still run is stopped or told to stop. -/
def Stopping : Prop := ∀ i ∈ p.order, (p.threads i).usable → (p.threads i).Halting

/-- It is ignored, or its default action is under way. -/
def Settled (sig : ℕ) : Prop :=
  p.ignores sig ∨ p.Ending ∨ (defaultIsStop sig ∧ p.Stopping)

def Handled (sig : ℕ) (e : Event) : Prop :=
  ∃ i, e = .deliver i true ∧ p.nextSignal i = some sig ∧ p.handlers sig ≠ sigDfl ∧
    p.handlers sig ≠ sigIgn

end Process

def Cancels (sig : ℕ) : Event → Prop
  | .send sig' => (sig' = sigCont ∧ defaultIsStop sig) ∨ (defaultIsStop sig' ∧ sig = sigCont)
  | _ => False

/-- A step keeps the signal pending, or something becomes of it. -/
def Kept (p : Process) (e : Event) (sig : ℕ) : Prop :=
  (p.step e).Owed sig ∨ (p.step e).Settled sig ∨ p.Handled sig e ∨ Cancels sig e

/-- Neither one that is pending is lost, nor one that is sent and not ignored; and a process that is
being ended stays so. -/
structure Keeps (p : Process) (e : Event) : Prop where
  pending : ∀ sig, p.Owed sig → Kept p e sig
  sent : ∀ sig, e = .send sig → validSignal sig → p.live ≠ 0 → ¬ p.ignores sig → Kept p e sig
  ending : p.Ending → (p.step e).Ending

/-! ### Changes that lose nothing -/

namespace Thread

variable {t : Thread} {sig : ℕ}

theorem killPending_requestKill (h : sig ≠ 0) (hu : t.usable) :
    (t.requestKill sig).killPending ≠ 0 := by
  simp only [usable, Bool.and_eq_true, decide_eq_true_eq] at hu
  unfold requestKill
  split
  · exact h
  · next hn =>
    simp only [hu.1, hu.2, ne_eq, not_false_eq_true, true_and] at hn
    exact hn

theorem halting_requestStop (h : sig ≠ 0) (hu : t.usable) : (t.requestStop sig).Halting := by
  simp only [usable, Bool.and_eq_true, Bool.not_eq_true', decide_eq_true_eq] at hu
  unfold requestStop
  split
  · next hn =>
    rcases hn with hn | hn | hn | hn
    · exact absurd hn hu.2
    · exact .inl hn
    · rw [hu.1] at hn; cases hn
    · exact .inr (.inr hn)
  · exact .inr (.inl h)

@[simp] theorem pends_wakeBlocked (t : Thread) (sig : ℕ) :
    t.wakeBlocked.pends sig = t.pends sig := by
  unfold wakeBlocked; split <;> rfl

@[simp] theorem pends_requestKill (t : Thread) (k sig : ℕ) :
    (t.requestKill k).pends sig = t.pends sig := by
  unfold requestKill; split <;> rfl

@[simp] theorem pends_requestStop (t : Thread) (k sig : ℕ) :
    (t.requestStop k).pends sig = t.pends sig := by
  unfold requestStop; split <;> rfl

@[simp] theorem pends_cont (t : Thread) (sig : ℕ) : t.cont.pends sig = t.pends sig := rfl

end Thread

theorem getLsbD_bit (sig k : ℕ) (h : k < 32) : (bit sig).getLsbD k = decide (k = sig) := by
  unfold bit
  simp only [BitVec.getLsbD_shiftLeft, h]
  by_cases hk : k < sig
  · simp [hk, Nat.ne_of_lt hk]
  · by_cases he : k = sig
    · simp [he]
    · have : k - sig ≠ 0 := by omega
      simp [he, this]

theorem Thread.pends_dropPending (t : Thread) {k sig : ℕ} (h : sig ≠ k) :
    (t.dropPending k).pends sig = t.pends sig := by
  unfold pends dropPending
  by_cases hs : sig < 32
  · simp only [BitVec.getLsbD_and, BitVec.getLsbD_not, getLsbD_bit _ _ hs, hs, h, decide_true,
      decide_false, Bool.not_false, Bool.and_true]
  · simp [not_lt.1 hs]

namespace Process

variable {p p' p'' : Process} {i sig : ℕ} {R : Thread → Thread → Prop} {f : Thread → Thread} {k : ℕ}

theorem Via.ending (h : Near p p') (he : p.Ending) : p'.Ending := by
  unfold Ending at he ⊢
  rw [h.groupExit, h.order]
  rcases he with he | ⟨i, hi, sig, he⟩ | he
  · exact .inl he
  · exact .inr (.inl ⟨i, hi, sig, (h.threads i).call.trans he⟩)
  · refine .inr (.inr fun i hi hu => (h.threads i).kill (he i hi ?_))
    rwa [← (h.threads i).usable]

theorem Via.stopping (h : Soft p p') (hs : p.Stopping) : p'.Stopping := by
  intro i hi hu
  rw [h.order] at hi
  rw [(h.threads i).usable] at hu
  exact (h.threads i).halting (hs i hi hu)

theorem Via.ignores (h : Via R p p') (sig : ℕ) :
    p'.ignores sig = p.ignores sig := by
  simp only [Process.ignores, h.handlers]

theorem Via.settled (h : Soft p p') (hs : p.Settled sig) : p'.Settled sig := by
  rcases hs with hs | hs | hs
  · exact .inl ((h.ignores sig).trans hs)
  · exact .inr (.inl (h.toNear.ending hs))
  · exact .inr (.inr ⟨hs.1, h.stopping hs.2⟩)

/-- The signal stays pending in every thread that had it, in order. -/
def SamePends (p p' : Process) (sig : ℕ) : Prop :=
  p'.order = p.order ∧ ∀ i, (p'.threads i).pends sig = (p.threads i).pends sig

theorem SamePends.owed (h : SamePends p p' sig) : p'.Owed sig ↔ p.Owed sig := by
  simp only [Owed, h.1, h.2]

theorem SamePends.trans (h : SamePends p p' sig) (h' : SamePends p' p'' sig) :
    SamePends p p'' sig :=
  ⟨h'.1.trans h.1, fun i => (h'.2 i).trans (h.2 i)⟩

theorem samePends_update (hf : ∀ t : Thread, (f t).pends sig = t.pends sig) (p : Process) (i : ℕ) :
    SamePends p (p.update i f) sig := by
  refine ⟨rfl, fun j => ?_⟩
  rcases eq_or_ne j i with rfl | hne
  · simpa only [update, update_self] using hf _
  · simp only [update, update_of_ne hne]

theorem samePends_forEachThread (hf : ∀ t : Thread, (f t).pends sig = t.pends sig) (p : Process) :
    SamePends p (p.forEachThread f) sig := by
  refine ⟨rfl, fun j => ?_⟩
  unfold forEachThread
  dsimp only
  split
  · exact hf _
  · rfl

/-! ### Acting on what is pending -/

theorem ending_forEachThread_requestKill (h : sig ≠ 0) (p : Process) :
    (p.forEachThread fun t => t.requestKill sig).Ending := by
  refine .inr (.inr fun j hj hu => ?_)
  have hkill : Asks false p (p.forEachThread fun t => t.requestKill sig) :=
    asks_forEachThread (fun t => .single (.kill t h)) p
  rw [(hkill.near.threads j).usable] at hu
  simp only [forEachThread] at hj ⊢
  rw [if_pos hj]
  exact Thread.killPending_requestKill h hu

theorem stopping_forEachThread_requestStop (h : sig ≠ 0) (p : Process) :
    (p.forEachThread fun t => t.requestStop sig).Stopping := by
  intro j hj hu
  have hstop : Asks false p (p.forEachThread fun t => t.requestStop sig) :=
    asks_forEachThread (fun t => .single (.stop t h)) p
  rw [(hstop.near.threads j).usable] at hu
  simp only [forEachThread] at hj ⊢
  rw [if_pos hj]
  exact Thread.halting_requestStop h hu

theorem samePends_actOn (h : k ≠ sig) (p : Process) (i : ℕ) :
    SamePends p (actOn i p sig) k := by
  have hdrop := samePends_update (fun t => t.pends_dropPending h) p i
  unfold actOn
  dsimp only
  split
  · split
    · exact hdrop.trans (samePends_forEachThread (fun t => t.pends_requestStop _ _) _)
    split
    · exact hdrop.trans (samePends_forEachThread (fun t => t.pends_requestKill _ _) _)
    · exact hdrop
  split
  · exact hdrop
  · exact samePends_update (fun t => t.pends_wakeBlocked k) p i

theorem actOn_self (h : sig ≠ 0) (p : Process) (i : ℕ) :
    SamePends p (actOn i p sig) sig ∨ (actOn i p sig).Settled sig := by
  unfold actOn
  dsimp only
  split
  · next hdfl =>
    split
    · next hstop =>
      exact .inr (.inr (.inr ⟨hstop, stopping_forEachThread_requestStop h _⟩))
    split
    · exact .inr (.inr (.inl (ending_forEachThread_requestKill h _)))
    · next hign =>
      refine .inr (.inl ?_)
      have hign : defaultIsIgnore sig = true := by simpa using hign
      simp [ignores, update, hdfl, hign]
  split
  · next hign => exact .inr (.inl (by simp [ignores, update, hign]))
  · exact .inl (samePends_update (fun t => t.pends_wakeBlocked sig) p i)

theorem foldl_actOn {l : List ℕ} (hl : ∀ k ∈ l, k ≠ 0) (p : Process) (i : ℕ) (ho : p.Owed sig) :
    (l.foldl (actOn i) p).Owed sig ∨ (l.foldl (actOn i) p).Settled sig := by
  induction l generalizing p with
  | nil => exact .inl ho
  | cons k l ih =>
    have hk : k ≠ 0 := hl k mem_cons_self
    have hl' : ∀ m ∈ l, m ≠ 0 := fun m hm => hl m (mem_cons_of_mem k hm)
    rcases eq_or_ne sig k with rfl | hne
    · rcases actOn_self hk p i with hs | hs
      · exact ih hl' _ (hs.owed.2 ho)
      · exact .inr ((asks_foldl_actOn hl' _ i).soft.settled hs)
    · exact ih hl' _ ((samePends_actOn hne p i).owed.2 ho)

theorem actOnPending_keeps (p : Process) (i : ℕ) (ho : p.Owed sig) :
    (p.actOnPending i).Owed sig ∨ (p.actOnPending i).Settled sig :=
  foldl_actOn (fun _ hk => ne_zero_of_mem_signals (mem_of_mem_filter hk)) p i ho

variable {p p' p'' : Process} {i sig : ℕ} {f : Thread → Thread} {j status k : ℕ} {whole : Bool}

/-! ### Sending -/

theorem ending_of_receiver_none (hr : p.receiver sig = none) : p.Ending := by
  unfold receiver at hr
  dsimp only at hr
  split at hr
  · cases hr
  split at hr
  · cases hr
  split at hr
  · cases hr
  · refine .inr (.inr fun i hi hu => ?_)
    exact absurd hu (by exact find?_eq_none.1 hr i hi)

/-! ### Steps that lose nothing -/

/-- Every pending signal stays pending or is settled, and a process that is being ended stays so. -/
structure Safe (p p' : Process) : Prop where
  owed : ∀ sig, p.Owed sig → p'.Owed sig ∨ p'.Settled sig
  ending : p.Ending → p'.Ending

theorem Safe.refl (p : Process) : Safe p p := ⟨fun _ => .inl, id⟩

theorem Safe.after (h : ∀ sig, SamePends p p' sig) (he : p.Ending → p'.Ending)
    (h' : Safe p' p'') : Safe p p'' :=
  ⟨fun sig ho => h'.owed sig ((h sig).owed.2 ho), h'.ending ∘ he⟩

theorem safe_of_samePends (h : ∀ sig, SamePends p p' sig) (he : p.Ending → p'.Ending) : Safe p p' :=
  ⟨fun sig ho => .inl ((h sig).owed.2 ho), he⟩

theorem safe_actOnPending (p : Process) (i : ℕ) : Safe p (p.actOnPending i) :=
  ⟨fun _ => actOnPending_keeps p i, (asks_actOnPending p i).soft.toNear.ending⟩

theorem ending_update
    (hcall : ∀ sig, (p.threads i).call = .fatal sig → ∃ sig', (f (p.threads i)).call = .fatal sig')
    (husable : (f (p.threads i)).usable → (p.threads i).usable)
    (hkill : (f (p.threads i)).usable → (p.threads i).killPending ≠ 0 →
      (f (p.threads i)).killPending ≠ 0) (h : p.Ending) : (p.update i f).Ending := by
  rcases h with h | ⟨j, hj, sig, h⟩ | h
  · exact .inl h
  · refine .inr (.inl ⟨j, hj, ?_⟩)
    simp only [Process.update]
    rcases eq_or_ne j i with rfl | hne
    · rw [update_self]
      exact hcall sig h
    · rw [update_of_ne hne]
      exact ⟨sig, h⟩
  · refine .inr (.inr fun j hj hu => ?_)
    simp only [Process.update] at hu ⊢
    rcases eq_or_ne j i with rfl | hne
    · rw [update_self] at hu ⊢
      exact hkill hu (h j hj (husable hu))
    · rw [update_of_ne hne] at hu ⊢
      exact h j hj hu

theorem samePends_killOthers (p : Process) (i sig : ℕ) : SamePends p (p.killOthers i) sig := by
  unfold killOthers
  split
  · exact ⟨rfl, fun _ => rfl⟩
  · refine ⟨rfl, fun j => ?_⟩
    dsimp only
    split
    · exact Thread.pends_requestKill _ _ _
    · rfl

/-! ### The end of a thread -/

/-- It ends the process, or the thread has no signal still to be acted on, or no other thread is
left. -/
def Clean (p : Process) (i : ℕ) (whole : Bool) : Prop :=
  p.endsWhole i whole ∨ p.groupExit ∨
    ((p.threads i).sigPending = 0 ∧ ∀ sig, (p.threads i).call ≠ .fatal sig) ∨
    ∀ j ∈ p.order, j ≠ i → ¬ (p.threads j).usable

theorem order_taskEnd (p : Process) (i status : ℕ) (whole : Bool) :
    (p.taskEnd i status whole).order = p.order := by
  unfold taskEnd
  split
  · exact (asks_killOthers _ i).soft.order
  · rfl

theorem near_taskEnd (hj : j ≠ i) (status : ℕ) (whole : Bool) :
    (p.threads j).Near ((p.taskEnd i status whole).threads j) ∧
      ∀ sig, ((p.taskEnd i status whole).threads j).pends sig = (p.threads j).pends sig := by
  have hgone : (p.update i fun t => t.exit status).threads j = p.threads j :=
    update_of_ne hj _ _
  unfold taskEnd
  rw [← hgone]
  split
  · let q := { p.update i (fun t => t.exit status) with groupExit := true, exitStatus := status }
    exact ⟨(asks_killOthers q i).soft.toNear.threads j,
      fun sig => (samePends_killOthers q i sig).2 j⟩
  · exact ⟨.refl _, fun _ => rfl⟩

theorem taskEnd_self (p : Process) (i status : ℕ) (whole : Bool) :
    ((p.taskEnd i status whole).threads i) = (p.threads i).exit status := by
  have hgone : (p.update i fun t => t.exit status).threads i = (p.threads i).exit status :=
    update_self ..
  unfold taskEnd
  dsimp only
  split
  · unfold endGroup killOthers
    split
    · exact hgone
    · dsimp only
      rw [if_neg (by simp)]
      exact hgone
  · exact hgone

theorem groupExit_taskEnd (h : p.endsWhole i whole ∨ p.groupExit) :
    (p.taskEnd i status whole).groupExit := by
  unfold taskEnd
  split
  · exact (asks_killOthers _ i).soft.groupExit
  · next hn => exact h.resolve_left hn

theorem safe_taskEnd (hc : p.Clean i whole) (status : ℕ) :
    Safe p (p.taskEnd i status whole) := by
  have hself := taskEnd_self p i status whole
  have hgone : ¬ ((p.taskEnd i status whole).threads i).usable := by
    rw [hself]
    simp [Thread.usable, Thread.exit]
  -- with no other thread left the process ends
  have halone : (∀ j ∈ p.order, j ≠ i → ¬ (p.threads j).usable) →
      (p.taskEnd i status whole).Ending := by
    intro h
    refine .inr (.inr fun j hj hu => ?_)
    rw [order_taskEnd] at hj
    rcases eq_or_ne j i with rfl | hne
    · exact absurd hu hgone
    · rw [(near_taskEnd hne status whole).1.usable] at hu
      exact absurd hu (h j hj hne)
  rcases hc with hc | hc | ⟨hp, hcall⟩ | hc
  · have hend : (p.taskEnd i status whole).Ending := .inl (groupExit_taskEnd (.inl hc))
    exact ⟨fun _ _ => .inr (.inr (.inl hend)), fun _ => hend⟩
  · have hend : (p.taskEnd i status whole).Ending := .inl (groupExit_taskEnd (.inr hc))
    exact ⟨fun _ _ => .inr (.inr (.inl hend)), fun _ => hend⟩
  · refine ⟨fun sig ⟨j, hj, hpend⟩ => .inl ⟨j, ?_, ?_⟩, fun he => ?_⟩
    · rwa [order_taskEnd]
    · rcases eq_or_ne j i with rfl | hne
      · simp [Thread.pends, hp] at hpend
      · rwa [(near_taskEnd hne status whole).2]
    · rcases he with he | ⟨j, hj, sig, he⟩ | he
      · exact .inl (groupExit_taskEnd (.inr he))
      · have hne : j ≠ i := by
          rintro rfl
          exact hcall sig he
        refine .inr (.inl ⟨j, ?_, sig, (near_taskEnd hne status whole).1.call.trans he⟩)
        rwa [order_taskEnd]
      · refine .inr (.inr fun j hj hu => ?_)
        rw [order_taskEnd] at hj
        rcases eq_or_ne j i with rfl | hne
        · exact absurd hu hgone
        · have hnear := (near_taskEnd (p := p) hne status whole).1
          rw [hnear.usable] at hu
          exact hnear.kill (he j hj hu)
  · exact ⟨fun _ _ => .inr (.inr (.inl (halone hc))), fun _ => halone hc⟩

/-! ### The other steps of a thread -/

theorem safe_act {f : Process → Process}
    (h : i ∈ p.order → (p.threads i).free → Safe p (f p)) : Safe p (p.act i f) := by
  unfold act
  split
  · next hf => exact h hf.1 hf.2
  · exact .refl p

theorem safe_changeMask (p : Process) (i : ℕ) (how : How) (set : Mask) :
    Safe p (p.changeMask i how set) := by
  have hsame : ∀ sig, SamePends p (p.setBlocked i how set) sig := by
    intro sig
    apply samePends_update
    intro t
    rfl
  exact .after hsame (ending_update (fun sig h => ⟨sig, h⟩) id fun _ => id) (safe_actOnPending _ i)

theorem safe_setAction (p : Process) (k handler : ℕ) (mask : Mask) (flags restorer : ℕ) :
    Safe p (p.setAction k handler mask flags restorer) := by
  unfold setAction
  dsimp only
  split
  · next hign =>
    refine ⟨fun sig ho => ?_, fun he => ?_⟩
    · rcases eq_or_ne sig k with rfl | hne
      · exact .inr (.inl hign)
      · exact .inl ((samePends_forEachThread (fun t => t.pends_dropPending hne) _).owed.2 ho)
    · have hdrop := (asks_forEachThread (fun t => t.asked_dropPending k)
        (p.withAction k handler mask flags restorer)).soft
      exact hdrop.toNear.ending he
  · exact safe_of_samePends (fun _ => ⟨rfl, fun _ => rfl⟩) id

theorem samePends_stopCurrent (p : Process) (i sig : ℕ) : SamePends p (p.stopCurrent i) sig := by
  have hthread :
      SamePends p (p.update i fun t => { t with stopPending := 0, state := .stopped }) sig := by
    apply samePends_update
    intro t
    rfl
  unfold stopCurrent
  dsimp only
  split <;> exact ⟨rfl, hthread.2⟩

theorem usable_of_running {t : Thread} {s : TaskState} (hs : t.state = .running)
    (hu : Thread.usable { t with state := s }) : t.usable := by
  simp only [Thread.usable, Bool.and_eq_true] at hu ⊢
  exact ⟨hu.1, by simp [hs]⟩

theorem ending_stopCurrent (hs : (p.threads i).state = .running) (h : p.Ending) :
    (p.stopCurrent i).Ending := by
  have hthread := ending_update (f := fun t => { t with stopPending := 0, state := .stopped })
    (fun sig h => ⟨sig, h⟩) (usable_of_running hs) (fun _ => id) h
  unfold stopCurrent
  dsimp only
  split <;> exact hthread

theorem safe_checkKill (hf : (p.threads i).free)
    (hc : (p.threads i).killPending ≠ 0 → p.Clean i true) : Safe p (p.checkKill i) := by
  obtain ⟨hrun, -, -⟩ := free_iff.1 hf
  unfold checkKill
  dsimp only
  split
  · next hk => exact safe_taskEnd (hc hk) _
  split
  · exact safe_of_samePends (samePends_stopCurrent p i) (ending_stopCurrent hrun)
  · exact .refl p

theorem safe_sleep (hf : (p.threads i).free)
    (hc : (p.threads i).killPending ≠ 0 → p.Clean i true) : Safe p (p.sleep i) := by
  rcases p.sleep_cases i with h0 | ⟨-, h0⟩ <;> rw [h0]
  · exact safe_checkKill hf hc
  · have husable := usable_of_running (s := .blocked) (free_iff.1 hf).1
    refine safe_of_samePends (fun sig => ?_)
      (ending_update (fun sig h => ⟨sig, h⟩) husable fun _ => id)
    apply samePends_update
    intro t
    rfl

theorem safe_addThread (hi : i ∈ p.order) (hf : (p.threads i).free) (hj : j ∉ p.order) :
    Safe p (p.addThread i j) := by
  obtain ⟨hrun, hexit, -⟩ := free_iff.1 hf
  have husable : (p.threads i).usable := by simp [Thread.usable, hrun, hexit]
  have hold : ∀ {k}, k ∈ p.order → k ≠ j := fun hk he => hj (he ▸ hk)
  unfold addThread
  dsimp only
  split
  · next hok =>
    refine ⟨fun sig ⟨k, hk, hpend⟩ => .inl ⟨k, mem_append_left _ hk, ?_⟩, fun he => ?_⟩
    · dsimp only
      rwa [update_of_ne (hold hk)]
    · rcases he with he | ⟨k, hk, sig, he⟩ | he
      · exact .inl he
      · refine .inr (.inl ⟨k, mem_append_left _ hk, sig, ?_⟩)
        dsimp only
        rwa [update_of_ne (hold hk)]
      · exact absurd hok.2.2.1 (he i hi husable)
  · exact .refl p

theorem safe_update_call (call : Call) (hc : ∀ sig, (p.threads i).call ≠ .fatal sig) :
    Safe p (p.update i fun t => { t with call }) := by
  refine safe_of_samePends (fun sig => ?_) ?_
  · apply samePends_update
    intro t
    rfl
  · exact ending_update (fun sig h => absurd h (hc sig)) id fun _ => id

theorem safe_execAlone (hc : ∀ sig, (p.threads i).call ≠ .fatal sig) : Safe p (p.execAlone i) := by
  have h : Safe ({ p with execTid := none, leader := i }) (p.execAlone i) := safe_update_call _ hc
  exact ⟨h.owed, h.ending⟩

theorem safe_execBegin (hf : (p.threads i).free) : Safe p (p.execBegin i) := by
  obtain ⟨-, -, hcall⟩ := free_iff.1 hf
  have hc : ∀ sig, (p.threads i).call ≠ .fatal sig := fun sig => by rw [hcall]; simp
  unfold execBegin
  split
  · exact .refl p
  split
  · have hnear := (asks_killOthers { p with execTid := some i } i).soft.toNear
    have hcall' : ∀ sig,
        ((killOthers ({ p with execTid := some i }) i).threads i).call ≠ .fatal sig :=
      fun sig => by rw [(hnear.threads i).call]; exact hc sig
    have hkill : ∀ sig, SamePends p (killOthers ({ p with execTid := some i }) i) sig :=
      fun sig => ⟨(samePends_killOthers _ i sig).1, (samePends_killOthers _ i sig).2⟩
    exact .after hkill hnear.ending (safe_update_call _ hcall')
  · exact safe_execAlone hc

theorem safe_leave (p : Process) (hc : ∀ sig, (p.threads i).call ≠ .fatal sig) :
    Safe p (p.leave i status) := by
  unfold leave
  dsimp only
  split
  · have h : Safe ({ p with live := p.live - 1, exitStatus := status }) _ :=
      safe_update_call .left hc
    exact ⟨h.owed, h.ending⟩
  · have h : Safe ({ p with live := p.live - 1 }) _ := safe_update_call .left hc
    exact ⟨h.owed, h.ending⟩

theorem safe_becomeZombie (p : Process) (hc : ∀ sig, (p.threads i).call ≠ .fatal sig) :
    Safe p (p.becomeZombie i) := by
  refine safe_of_samePends (fun sig => ?_) ?_
  · apply samePends_update
    intro t
    rfl
  · refine ending_update (fun sig h => absurd h (hc sig)) (fun h => ?_) fun h => ?_
    · simp [Thread.usable] at h
    · simp [Thread.usable] at h

theorem safe_resume (p : Process)
    (hc : ∀ sig, (p.threads i).call = .fatal sig → p.Clean i true) : Safe p (p.resume i) := by
  have hother : ∀ {call}, (p.threads i).call = call → (∀ sig, call ≠ .fatal sig) →
      ∀ sig, (p.threads i).call ≠ .fatal sig := fun he hne sig hf => hne sig (he.symm.trans hf)
  unfold resume
  split
  next => exact .refl p
  next sig hcall => exact safe_taskEnd (hc sig hcall) _
  next hcall =>
    split
    · exact safe_execAlone (hother hcall nofun)
    · exact .refl p
  next hcall =>
    have h : Safe p.resetActions (p.resetActions.update i fun t => { t with call := .execAct }) :=
      safe_update_call _ (hother hcall nofun)
    refine ⟨fun sig ho => .inl ?_, h.ending⟩
    have hsame : SamePends p (p.resetActions.update i fun t => { t with call := .execAct }) sig :=
      ⟨rfl, (samePends_update (p := p.resetActions) (f := fun t => { t with call := .execAct })
        (fun _ => rfl) i).2⟩
    exact hsame.owed.2 ho
  next hcall =>
    have h := safe_update_call .none (hother hcall nofun)
    have hsame : ∀ sig, SamePends p (p.update i fun t => { t with call := .none }) sig := by
      intro sig
      apply samePends_update
      intro t
      rfl
    exact .after hsame h.ending (safe_actOnPending _ i)
  next status hcall => exact safe_leave p (hother hcall nofun)
  next hcall => exact safe_becomeZombie p (hother hcall nofun)

/-! ### Sending and delivering -/

theorem samePends_drops {l : List ℕ} (h : sig ∉ l) (p : Process) : SamePends p
    (l.foldl (fun (p : Process) stop => p.forEachThread fun t => t.dropPending stop) p) sig := by
  induction l generalizing p with
  | nil => exact ⟨rfl, fun _ => rfl⟩
  | cons k l ih =>
    obtain ⟨hk, hl⟩ := not_or.1 (mt mem_cons.2 h)
    exact (samePends_forEachThread (fun t => t.pends_dropPending hk) p).trans (ih hl _)

theorem samePends_cancel (h : ¬ Cancels k (.send sig)) : SamePends p (p.cancel sig) k := by
  simp only [Cancels, not_or, not_and] at h
  unfold cancel
  split
  · next hcont =>
    refine (samePends_drops (fun hk => h.1 hcont ?_) p).trans
      (samePends_forEachThread (fun t => t.pends_cont k) _)
    exact (mem_filter.1 hk).2
  split
  · next hstop => exact samePends_forEachThread (fun t => t.pends_dropPending (h.2 hstop)) p
  · exact ⟨rfl, fun _ => rfl⟩

theorem pends_raise (p : Process) (i sig j : ℕ) (h : (p.threads j).pends k) :
    ((p.raise i sig).threads j).pends k := by
  unfold raise Process.update
  rcases eq_or_ne j i with rfl | hne
  · simp only [update_self]
    unfold Thread.pends at h ⊢
    rw [BitVec.getLsbD_or, h, Bool.true_or]
  · simpa only [update_of_ne hne] using h

theorem owed_raise (hi : i ∈ p.order) (hv : validSignal sig) : (p.raise i sig).Owed sig := by
  have hlt : sig < 32 := by
    simp only [validSignal, Bool.and_eq_true, decide_eq_true_eq] at hv
    exact hv.2
  refine ⟨i, hi, ?_⟩
  unfold raise Process.update Thread.pends
  simp only [update_self]
  rw [BitVec.getLsbD_or, getLsbD_bit _ _ hlt, decide_eq_true rfl, Bool.or_true]

theorem ending_raise (h : p.Ending) (i sig : ℕ) : (p.raise i sig).Ending :=
  ending_update (fun sig h => ⟨sig, h⟩) id (fun _ => id) h

/-- A send keeps every pending signal it does not cancel, and the new one becomes pending or is
settled. -/
theorem send_spec (h : p.Tidy) (k : ℕ) :
    (∀ sig, ¬ Cancels sig (.send k) → p.Owed sig → (p.send k).Owed sig ∨ (p.send k).Settled sig) ∧
      (validSignal k → p.live ≠ 0 → ¬ p.ignores k → (p.send k).Owed k ∨ (p.send k).Settled k) ∧
      (p.Ending → (p.send k).Ending) := by
  have hcancel := asks_cancel p k
  have hending : p.Ending → (p.cancel k).Ending := hcancel.near.ending
  have howed : ∀ sig, ¬ Cancels sig (.send k) → p.Owed sig → (p.cancel k).Owed sig :=
    fun sig hc ho => (samePends_cancel hc).owed.2 ho
  unfold Process.send
  split
  next hno =>
    refine ⟨fun _ _ => .inl, fun hv hl => ?_, id⟩
    rcases hno with hno | hno
    · rw [hv] at hno; cases hno
    · exact absurd hno hl
  split
  next hk =>
    have hne : k ≠ 0 := by rw [hk]; decide
    have hend := ending_forEachThread_requestKill hne p
    exact ⟨fun _ _ _ => .inr (.inr (.inl hend)), fun _ _ _ => .inr (.inr (.inl hend)),
      fun _ => hend⟩
  split
  next hk =>
    have hne : k ≠ 0 := by rw [hk]; decide
    refine ⟨fun sig hc ho => .inl ?_, fun _ _ _ => .inr (.inr (.inr ⟨by rw [hk]; decide, ?_⟩)),
      fun he => ?_⟩
    · exact (samePends_forEachThread (fun t => t.pends_requestStop _ _) _).owed.2 (howed sig hc ho)
    · exact stopping_forEachThread_requestStop hne _
    · have hstop := (asks_forEachThread (fun t => .single (.stop t hne)) (p.cancel k)).soft
      exact hstop.toNear.ending (hending he)
  split
  next hign =>
    refine ⟨fun sig hc ho => .inl (howed sig hc ho), fun _ _ hn => absurd ?_ hn, hending⟩
    rwa [← hcancel.ignores]
  split
  next hr =>
    exact ⟨fun sig hc ho => .inl (howed sig hc ho),
      fun _ _ _ => .inr (.inr (.inl (ending_of_receiver_none hr))), hending⟩
  next i hr =>
    have hi := (receiver_usable (by rw [hcancel.leader, hcancel.order]; exact h.leader_mem) hr).1
    refine ⟨fun sig hc ho => ?_, fun hv _ _ => ?_, fun he => ?_⟩
    · obtain ⟨j, hj, hpend⟩ := howed sig hc ho
      exact actOnPending_keeps _ i ⟨j, hj, pends_raise _ i k j hpend⟩
    · exact actOnPending_keeps _ i (owed_raise hi hv)
    · exact (asks_actOnPending _ i).soft.toNear.ending (ending_raise (hending he) i k)

theorem ending_fatal (hi : i ∈ p.order) (k : ℕ) :
    (p.update i fun t => { t with call := .fatal k }).Ending := by
  refine .inr (.inl ⟨i, hi, k, ?_⟩)
  simp only [Process.update, update_self]

theorem deliver_spec (hi : i ∈ p.order) {stack : Bool}
    (hstop : ∀ k, p.nextSignal i = some k → p.handlers k = sigDfl → defaultIsStop k = false) :
    (∀ sig, p.Owed sig → (p.deliver i stack).Owed sig ∨ (p.deliver i stack).Settled sig ∨
        p.Handled sig (.deliver i stack)) ∧
      (p.Ending → (p.deliver i stack).Ending) := by
  unfold Process.deliver
  split
  · exact ⟨fun _ => .inl, id⟩
  next k hk =>
    have hdrop : p.Ending → (p.update i fun t => t.dropPending k).Ending :=
      ending_update (fun sig h => ⟨sig, h⟩) id fun _ => id
    have hother : ∀ {sig}, sig ≠ k → SamePends p (p.update i fun t => t.dropPending k) sig :=
      fun hne => samePends_update (fun t => t.pends_dropPending hne) p i
    dsimp only
    split
    next hign =>
      refine ⟨fun sig ho => ?_, hdrop⟩
      rcases eq_or_ne sig k with rfl | hne
      · exact .inr (.inl (.inl (by simp [ignores, Process.update, hign])))
      · exact .inl ((hother hne).owed.2 ho)
    split
    next hdfl =>
      split
      next hquiet =>
        refine ⟨fun sig ho => ?_, hdrop⟩
        rcases eq_or_ne sig k with rfl | hne
        · rw [hstop sig hk hdfl, Bool.or_false] at hquiet
          exact .inr (.inl (.inl (by simp [ignores, Process.update, hdfl, hquiet])))
        · exact .inl ((hother hne).owed.2 ho)
      · have hend := ending_fatal (p := p.update i fun t => t.dropPending k) hi k
        exact ⟨fun _ _ => .inr (.inl (.inr (.inl hend))), fun _ => hend⟩
    next hign hdfl =>
      split
      next hstack =>
        refine ⟨fun sig ho => ?_,
          ending_update (fun sig h => ⟨sig, h⟩) id (fun _ => id) ∘ hdrop⟩
        rcases eq_or_ne sig k with rfl | hne
        · exact .inr (.inr ⟨i, by rw [hstack], hk, hdfl, hign⟩)
        · refine .inl (((hother hne).trans ?_).owed.2 ho)
          apply samePends_update
          intro t
          rfl
      · have hend := ending_fatal
          (p := (p.update i fun t => t.dropPending k).update i fun t =>
            { t with sigBlocked := t.sigBlocked ||| (p.masks k ||| bit k) &&& ~~~ unblockable })
          hi sigSegv
        exact ⟨fun _ _ => .inr (.inl (.inr (.inl hend))), fun _ => hend⟩

end Process

/-! ### Every step of every run -/

/-- A stop signal with the default action is not taken by `signal_deliver`, and a thread that exits
takes no signals with it that the process still has to act on. -/
def Careful (p : Process) : Event → Prop
  | .deliver i _ => ∀ k, p.nextSignal i = some k → p.handlers k = sigDfl → defaultIsStop k = false
  | .exit i _ whole => p.Clean i whole
  | .checkKill i => (p.threads i).killPending ≠ 0 → p.Clean i true
  | .sleep i => (p.threads i).killPending ≠ 0 → p.Clean i true
  | .resume i => ∀ sig, (p.threads i).call = .fatal sig → p.Clean i true
  | _ => True

theorem keeps_of_safe {p : Process} {e : Event} (he : ∀ sig, e ≠ .send sig)
    (h : p.Safe (p.step e)) : Keeps p e where
  pending sig ho := (h.owed sig ho).imp_right .inl
  sent sig hs := absurd hs (he sig)
  ending := h.ending

namespace Process

variable {p : Process} {i : ℕ}

theorem safe_reap (h : p.Tidy) (hz : (p.threads i).state = .zombie) :
    Safe p { p with order := p.order.erase i } := by
  have hmem : ∀ j ∈ p.order.erase i, j ∈ p.order := fun j => mem_of_mem_erase
  refine ⟨fun sig ⟨j, hj, hp⟩ => .inl ⟨j, ?_, hp⟩, ?_⟩
  · -- a zombie has no pending signals
    refine (mem_erase_of_ne ?_).2 hj
    rintro rfl
    have hclean := (h.threads j hj).clean ((h.threads j hj).zombie hz)
    simp [Thread.pends, hclean] at hp
  · rintro (hg | ⟨j, hj, sig, hcall⟩ | hall)
    · exact .inl hg
    · -- nor is it about to end the process
      refine .inr (.inl ⟨j, (mem_erase_of_ne ?_).2 hj, sig, hcall⟩)
      rintro rfl
      have hexit := (h.threads j hj).zombie hz
      rw [(h.threads j hj).call sig hcall] at hexit
      cases hexit
    · exact .inr (.inr fun j hj => hall j (hmem j hj))

theorem Tidy.safe_step (h : p.Tidy) {e : Event} (hsend : ∀ sig, e ≠ .send sig)
    (hdeliver : ∀ i stack, e ≠ .deliver i stack) (hc : Careful p e) : Safe p (p.step e) := by
  cases e <;> simp only [Process.step]
  case send sig => exact absurd rfl (hsend sig)
  case deliver i stack => exact absurd rfl (hdeliver i stack)
  case sigaction i sig handler mask flags restorer =>
    refine safe_act fun _ _ => ?_
    split
    · exact safe_setAction p sig handler mask flags restorer
    · exact .refl p
  case sigmask i how set => exact safe_act fun _ _ => safe_changeMask p i how set
  case exit i status whole => exact safe_act fun _ _ => safe_taskEnd hc status
  case checkKill i => exact safe_act fun _ hf => safe_checkKill hf hc
  case sleep i => exact safe_act fun _ hf => safe_sleep hf hc
  case wake i =>
    have hwake : Asks false p (p.update i Thread.wakeBlocked) := asks_update (.single (.wake _))
    refine safe_of_samePends (fun sig => ?_) hwake.near.ending
    exact samePends_update (fun t => t.pends_wakeBlocked sig) p i
  case addThread i j =>
    refine safe_act fun hi hf => ?_
    split
    · exact .refl p
    · next hj => exact safe_addThread hi hf hj
  case exec i => exact safe_act fun _ hf => safe_execBegin hf
  case resume i =>
    split
    · exact safe_resume p hc
    · exact .refl p
  case reap i =>
    split
    · next hr => exact safe_reap h hr.1
    · exact .refl p
  case wait =>
    split
    · exact .refl p
    split <;> exact safe_of_samePends (fun _ => ⟨rfl, fun _ => rfl⟩) id
  case wakeParent => exact safe_of_samePends (fun _ => ⟨rfl, fun _ => rfl⟩) id

theorem Tidy.keeps (h : p.Tidy) {e : Event} (hc : Careful p e) : Keeps p e := by
  by_cases hsend : ∃ k, e = .send k
  · obtain ⟨k, rfl⟩ := hsend
    obtain ⟨hpending, hsent, hending⟩ := send_spec h k
    refine ⟨fun sig ho => ?_, fun sig he hv hl hn => ?_, hending⟩
    · by_cases hcancel : Cancels sig (.send k)
      · exact .inr (.inr (.inr hcancel))
      · exact (hpending sig hcancel ho).imp_right .inl
    · obtain rfl := Event.send.inj he
      exact (hsent hv hl hn).imp_right .inl
  rw [not_exists] at hsend
  by_cases hdeliver : ∃ i stack, e = .deliver i stack
  · obtain ⟨i, stack, rfl⟩ := hdeliver
    by_cases hact : i ∈ p.order ∧ (p.threads i).free
    · have hstep : p.step (.deliver i stack) = p.deliver i stack := if_pos hact
      obtain ⟨hpending, hending⟩ := deliver_spec hact.1 hc
      refine ⟨fun sig ho => ?_, nofun, by rwa [hstep]⟩
      unfold Kept
      rw [hstep]
      rcases hpending sig ho with howed | hsettled | hhandled
      · exact .inl howed
      · exact .inr (.inl hsettled)
      · exact .inr (.inr (.inl hhandled))
    · have hstep : p.step (.deliver i stack) = p := if_neg hact
      refine keeps_of_safe hsend ?_
      rw [hstep]
      exact .refl p
  · exact keeps_of_safe hsend (h.safe_step hsend (by simpa using hdeliver) hc)

structure Born (p : Process) : Prop where
  order : p.order = [p.leader]
  live : p.live = 1
  groupExit : p.groupExit = false
  execTid : p.execTid = none
  stopReported : p.stopReported = false
  parentAsleep : p.parentAsleep = false
  state : (p.threads p.leader).state = .running
  exiting : (p.threads p.leader).exiting = false
  killPending : (p.threads p.leader).killPending = 0
  stopPending : (p.threads p.leader).stopPending = 0
  sigPending : (p.threads p.leader).sigPending = 0
  call : (p.threads p.leader).call = .none

theorem Born.tidy (h : p.Born) : p.Tidy := by
  refine ⟨by simp [h.order], fun i hi => ?_⟩
  obtain rfl : i = p.leader := by simpa [h.order] using hi
  refine ⟨fun _ => h.sigPending, fun _ _ => h.exiting, fun hz => ?_, fun he => ?_, fun _ => h.call⟩
  · rw [h.state] at hz
    cases hz
  · simp [h.call, Call.Ended] at he

end Process

/-- If every step is a careful one, no step loses a signal. -/
theorem signals_kept {p : Process} (hp : p.Born) {es : List Event}
    (hc : Along Process.step Careful p es) : Along Process.step Keeps p es :=
  (hc.with_invariant (fun _ e h _ => h.step e) hp.tidy).mono fun _ _ h => h.1.keeps h.2

/-! ### Where signals are lost -/

def oneThread (sig handler : ℕ) : Process where
  handlers := Function.update (fun _ => sigDfl) sig handler
  masks := fun _ => 0
  flags := fun _ => 0
  restorer := 0x400000
  live := 1
  groupExit := false
  exitStatus := 0
  execTid := none
  stopSignal := 0
  stopReported := false
  parentAsleep := false
  leader := 1
  order := [1]
  threads := fun _ =>
    { state := .running, exiting := false, killPending := 0, stopPending := 0, sigPending := 0,
      sigBlocked := 0, call := .none }

theorem born_oneThread (sig handler : ℕ) : (oneThread sig handler).Born :=
  ⟨rfl, rfl, rfl, rfl, rfl, rfl, rfl, rfl, rfl, rfl, rfl, rfl⟩

/-- Pending nowhere after the step, while some thread runs on and none is about to end the
process. -/
theorem not_kept {p p' : Process} {e : Event} {sig i : ℕ} (hp' : p.step e = p')
    (hpends : ∀ j ∈ p'.order, (p'.threads j).pends sig = false ∧
      ((p'.threads j).call = .none ∨ (p'.threads j).call = .ending 0))
    (hrun : i ∈ p'.order ∧ (p'.threads i).usable ∧ (p'.threads i).state = .running ∧
      (p'.threads i).stopPending = 0 ∧ (p'.threads i).killPending = 0)
    (hquiet : p'.groupExit = false ∧ p'.ignores sig = false)
    (hhandled : ¬ p.Handled sig e) (hcancels : ¬ Cancels sig e) : ¬ Kept p e sig := by
  obtain ⟨hi, husable, hstate, hstop, hkill⟩ := hrun
  have hending : ¬ p'.Ending := by
    rintro (hg | ⟨j, hj, k, hcall⟩ | hall)
    · rw [hquiet.1] at hg
      cases hg
    · rcases (hpends j hj).2 with h | h <;> rw [h] at hcall <;> cases hcall
    · exact hall i hi husable hkill
  have hstopping : ¬ p'.Stopping := by
    intro hall
    rcases hall i hi husable with h | h | h
    · rw [hstate] at h
      cases h
    · exact h hstop
    · exact h hkill
  unfold Kept
  rw [hp']
  rintro (⟨j, hj, hpend⟩ | (hig | he | ⟨-, hs⟩) | hh | hc)
  · rw [(hpends j hj).1] at hpend
    cases hpend
  · rw [hquiet.2] at hig
    cases hig
  · exact hending he
  · exact hstopping hs
  · exact hhandled hh
  · exact hcancels hc

/-- A thread blocks signal 10, creates a second one, which inherits this, and is sent the signal;
then it exits, and the signal is gone although the second thread runs on. -/
def exitRun : List Event :=
  [.sigmask 1 .block (bit 10), .addThread 1 2, .send 10, .exit 1 0 false]

/-- The handler of `SIGTSTP` is taken away after it was sent; the default action is not taken. -/
def untakenStop : List Event := [.send sigTstp, .sigaction 1 sigTstp sigDfl 0 0 0, .deliver 1 true]

theorem signals_lost :
    ¬ Along Process.step Keeps (oneThread 10 0x1000) exitRun ∧
      ¬ Along Process.step Keeps (oneThread sigTstp 0x1000) untakenStop := by
  constructor
  · rintro ⟨-, -, -, hk, -⟩
    refine not_kept (i := 2) rfl ?_ ?_ ?_ ?_ ?_ (hk.pending 10 ⟨1, ?_, ?_⟩)
    · decide +kernel
    · decide +kernel
    · decide +kernel
    · rintro ⟨i, he, -⟩
      cases he
    · exact id
    · decide +kernel
    · decide +kernel
  · rintro ⟨-, -, hk, -⟩
    refine not_kept (i := 1) rfl ?_ ?_ ?_ ?_ ?_ (hk.pending sigTstp ⟨1, ?_, ?_⟩)
    · decide +kernel
    · decide +kernel
    · decide +kernel
    · rintro ⟨i, -, -, hd, -⟩
      exact hd (by decide +kernel)
    · exact id
    · decide +kernel
    · decide +kernel

/-- A run in which the signal reaches its handler, in the thread that does not block it. -/
def handledRun : List Event :=
  [.addThread 1 2, .sigmask 1 .block (bit 10), .send 10, .deliver 2 true, .exit 1 0 false]

theorem signals_kept_handledRun :
    Along Process.step Keeps (oneThread 10 0x1000) handledRun := by
  refine signals_kept (born_oneThread 10 0x1000) ⟨trivial, trivial, trivial, ?_, ?_, trivial⟩
  · intro k hk hd
    have h10 : k = 10 := by
      have : (run Process.step (oneThread 10 0x1000) (handledRun.take 3)).nextSignal 2 =
        some 10 := by decide +kernel
      exact Option.some.inj (hk.symm.trans this)
    rw [h10]
    rfl
  · refine .inr (.inr (.inl ⟨by decide +kernel, fun sig hcall => ?_⟩))
    have hnone : ((run Process.step (oneThread 10 0x1000) (handledRun.take 4)).threads 1).call =
      .none := by decide +kernel
    exact nomatch hnone.symm.trans hcall

end Bashket.Signal
