import Bashket.Proc.Signals

/-!
# What the steps of a process are made of

`Moves` lists the changes that a thread's own steps are made of, `Does` the steps, and `does_step`
says that these are all; an invariant then looks at each of them once.
-/

namespace Bashket.Signal

open Relation List
open Function (update_of_ne update_self)

/-! ### What others may do to a thread -/

namespace Thread

variable (t : Thread)

def Halting : Prop := t.state = .stopped ∨ t.stopPending ≠ 0 ∨ t.killPending ≠ 0

/-- Nothing that matters here, or it is woken, or asked to stop or to end, or (if `cont`) let
continue. -/
inductive Asked (cont : Bool) : Thread → Thread → Prop
  | quiet {t t' : Thread} (hstate : t'.state = t.state) (hexit : t'.exiting = t.exiting)
      (hkill : t'.killPending = t.killPending) (hstop : t'.stopPending = t.stopPending)
      (hcall : t'.call = t.call) (hclean : t.exiting → t.sigPending = 0 → t'.sigPending = 0) :
      Asked cont t t'
  | wake (t : Thread) : Asked cont t t.wakeBlocked
  | kill (t : Thread) {sig : ℕ} (h : sig ≠ 0) : Asked cont t (t.requestKill sig)
  | stop (t : Thread) {sig : ℕ} (h : sig ≠ 0) : Asked cont t (t.requestStop sig)
  | cont (t : Thread) (h : cont) : Asked cont t t.cont

/-- The thread is as far with its exit as it was, and has not stopped. -/
structure Near (t t' : Thread) : Prop where
  exiting : t'.exiting = t.exiting
  call : t'.call = t.call
  zombie : t'.state = .zombie ↔ t.state = .zombie
  stopped : t'.state = .stopped → t.state = .stopped
  kill : t.killPending ≠ 0 → t'.killPending ≠ 0
  clean : t.exiting → t.sigPending = 0 → t'.sigPending = 0

/-- And it is not continued. -/
structure Soft (t t' : Thread) : Prop extends Near t t' where
  halting : t.Halting → t'.Halting

variable {t} {t' t'' : Thread} {cont : Bool} {sig : ℕ}

theorem Near.refl (t : Thread) : Near t t := ⟨rfl, rfl, .rfl, id, id, fun _ => id⟩

theorem Near.trans (h : Near t t') (h' : Near t' t'') : Near t t'' :=
  ⟨h'.exiting.trans h.exiting, h'.call.trans h.call, h'.zombie.trans h.zombie,
    h.stopped ∘ h'.stopped, h'.kill ∘ h.kill,
    fun he hp => h'.clean (h.exiting ▸ he) (h.clean he hp)⟩

theorem Near.usable (h : Near t t') : t'.usable = t.usable := by
  simp only [Thread.usable, h.exiting, ne_eq, h.zombie]

theorem near_of_asked (h : Asked cont t t') : Near t t' := by
  cases h with
  | quiet hstate hexit hkill hstop hcall hclean =>
    exact ⟨hexit, hcall, by rw [hstate], by rw [hstate]; exact id, by rw [hkill]; exact id, hclean⟩
  | wake =>
    unfold wakeBlocked
    split
    · next hs => exact ⟨rfl, rfl, by simp [hs], by simp, id, fun _ => id⟩
    · exact .refl t
  | kill h =>
    unfold requestKill
    split
    · next hs => exact ⟨rfl, rfl, by simp [hs.1], by simp, fun _ => h, fun _ => id⟩
    · exact .refl t
  | stop h =>
    unfold requestStop
    split
    · exact .refl t
    · next hs =>
      rw [not_or] at hs
      exact ⟨rfl, rfl, by simp [hs.1], by simp, id, fun _ => id⟩
  | cont h =>
    unfold Thread.cont
    split
    · next hs => exact ⟨rfl, rfl, by simp [hs], by simp, id, fun _ => id⟩
    · exact ⟨rfl, rfl, .rfl, id, id, fun _ => id⟩

theorem near_of_asks (h : ReflTransGen (Asked cont) t t') : Near t t' := by
  induction h with
  | refl => exact .refl t
  | tail _ h ih => exact ih.trans (near_of_asked h)

/-- What stays true of a thread that can run until it is continued: it looks only at whether the
thread runs or has been asked to halt, and then the thread halts at its next safe point. -/
structure Sticky (G : Thread → Prop) : Prop where
  congr : ∀ {t t' : Thread}, t'.state = t.state → t'.killPending = t.killPending →
    t'.stopPending = t.stopPending → G t → G t'
  wake : ∀ {t : Thread}, G t → G t.wakeBlocked
  kill : ∀ {t : Thread} {sig : ℕ}, sig ≠ 0 → G t → G (t.requestKill sig)
  stop : ∀ {t : Thread} {sig : ℕ}, sig ≠ 0 → G t → G (t.requestStop sig)
  halt : ∀ {t : Thread}, G t → t.state = .running → t.killPending = 0 →
    t.stopPending ≠ 0 ∧ G { t with stopPending := 0, state := .stopped }

theorem Sticky.asks {G : Thread → Prop} (hG : Sticky G)
    (h : ReflTransGen (Asked false) t t') (ht : G t) : G t' := by
  induction h with
  | refl => exact ht
  | tail _ h ih =>
    cases h with
    | quiet hstate hexit hkill hstop hcall => exact hG.congr hstate hkill hstop ih
    | wake => exact hG.wake ih
    | kill h => exact hG.kill h ih
    | stop h => exact hG.stop h ih
    | cont h => cases h

theorem sticky_halting : Sticky Halting where
  congr hs hk hp h := by simpa only [Halting, hs, hk, hp] using h
  wake {t} h := by
    unfold wakeBlocked
    split
    · next hs =>
      rw [Halting, hs] at h
      exact .inr (h.resolve_left (by simp))
    · exact h
  kill {t sig} hsig h := by
    unfold requestKill
    split
    · exact .inr (.inr hsig)
    · exact h
  stop {t sig} hsig h := by
    unfold requestStop
    split
    · exact h
    · exact .inr (.inl hsig)
  halt h hs hk := by
    rcases h with h | h | h
    · rw [hs] at h
      cases h
    · exact ⟨h, .inl rfl⟩
    · exact absurd hk h

theorem soft_of_asks (h : ReflTransGen (Asked false) t t') : Soft t t' :=
  ⟨near_of_asks h, sticky_halting.asks h⟩

theorem asked_dropPending (t : Thread) (sig : ℕ) :
    ReflTransGen (Asked cont) t (t.dropPending sig) := by
  refine .single (.quiet rfl rfl rfl rfl rfl fun _ h => ?_)
  simp only [dropPending, h]
  exact BitVec.zero_and

end Thread

namespace Process

variable {p p' p'' : Process} {i j : ℕ} {cont : Bool}

/-- A process changes only in its threads, and those as `R` says. -/
structure Via (R : Thread → Thread → Prop) (p p' : Process) : Prop where
  order : p'.order = p.order
  leader : p'.leader = p.leader
  handlers : p'.handlers = p.handlers
  groupExit : p'.groupExit = p.groupExit
  live : p'.live = p.live
  stopReported : p'.stopReported = p.stopReported
  parentAsleep : p'.parentAsleep = p.parentAsleep
  threads : ∀ i, R (p.threads i) (p'.threads i)

abbrev Asks (cont : Bool) : Process → Process → Prop := Via (ReflTransGen (Thread.Asked cont))

abbrev Near : Process → Process → Prop := Via Thread.Near

abbrev Soft : Process → Process → Prop := Via Thread.Soft

theorem Via.near (h : Asks cont p p') : Near p p' :=
  { h with threads := fun i => Thread.near_of_asks (h.threads i) }

theorem Via.toNear (h : Soft p p') : Near p p' :=
  { h with threads := fun i => (h.threads i).toNear }

theorem Via.soft (h : Asks false p p') : Soft p p' :=
  { h with threads := fun i => Thread.soft_of_asks (h.threads i) }

theorem Asks.refl (p : Process) : Asks cont p p :=
  ⟨rfl, rfl, rfl, rfl, rfl, rfl, rfl, fun _ => .refl⟩

theorem Asks.trans (h : Asks cont p p') (h' : Asks cont p' p'') : Asks cont p p'' :=
  ⟨h'.order.trans h.order, h'.leader.trans h.leader, h'.handlers.trans h.handlers,
    h'.groupExit.trans h.groupExit, h'.live.trans h.live, h'.stopReported.trans h.stopReported,
    h'.parentAsleep.trans h.parentAsleep, fun i => (h.threads i).trans (h'.threads i)⟩

theorem asks_update {f : Thread → Thread}
    (hf : ReflTransGen (Thread.Asked cont) (p.threads i) (f (p.threads i))) :
    Asks cont p (p.update i f) := by
  refine ⟨rfl, rfl, rfl, rfl, rfl, rfl, rfl, fun j => ?_⟩
  rcases eq_or_ne j i with rfl | hne
  · simpa only [update, update_self] using hf
  · simp only [update, update_of_ne hne]
    exact .refl

theorem asks_forEachThread {f : Thread → Thread}
    (hf : ∀ t, ReflTransGen (Thread.Asked cont) t (f t)) (p : Process) :
    Asks cont p (p.forEachThread f) := by
  refine ⟨rfl, rfl, rfl, rfl, rfl, rfl, rfl, fun j => ?_⟩
  unfold forEachThread
  dsimp only
  split
  · exact hf _
  · exact .refl

theorem asks_actOn {sig : ℕ} (h : sig ≠ 0) (p : Process) (i : ℕ) :
    Asks cont p (actOn i p sig) := by
  have hdrop : Asks cont p (p.update i fun t => t.dropPending sig) :=
    asks_update (Thread.asked_dropPending _ sig)
  unfold actOn
  dsimp only
  split
  · split
    · exact Asks.trans hdrop (asks_forEachThread (fun t => .single (.stop t h)) _)
    split
    · exact Asks.trans hdrop (asks_forEachThread (fun t => .single (.kill t h)) _)
    · exact hdrop
  split
  · exact hdrop
  · exact asks_update (.single (.wake _))

theorem ne_zero_of_mem_signals {k : ℕ} (h : k ∈ signals) : k ≠ 0 := by
  have := (mem_range'_1.1 h).1
  omega

theorem asks_foldl_actOn {l : List ℕ} (hl : ∀ k ∈ l, k ≠ 0) (p : Process) (i : ℕ) :
    Asks cont p (l.foldl (actOn i) p) := by
  induction l generalizing p with
  | nil => exact .refl p
  | cons k l ih =>
    refine Asks.trans (asks_actOn (hl k mem_cons_self) p i) ?_
    exact ih (fun m hm => hl m (mem_cons_of_mem k hm)) _

theorem asks_actOnPending (p : Process) (i : ℕ) : Asks cont p (p.actOnPending i) :=
  asks_foldl_actOn (fun _ hk => ne_zero_of_mem_signals (mem_of_mem_filter hk)) p i

theorem asks_killOthers (p : Process) (i : ℕ) : Asks cont p (p.killOthers i) := by
  unfold killOthers
  split
  · exact .refl p
  · refine ⟨rfl, rfl, rfl, rfl, rfl, rfl, rfl, fun j => ?_⟩
    dsimp only
    split
    · exact .single (.kill _ (by decide))
    · exact .refl

theorem asks_cancel (p : Process) (sig : ℕ) : Asks (sig = sigCont) p (p.cancel sig) := by
  have hdrops (l : List ℕ) (p : Process) : Asks (sig = sigCont) p
      (l.foldl (fun (p : Process) stop => p.forEachThread fun t => t.dropPending stop) p) := by
    induction l generalizing p with
    | nil => exact .refl p
    | cons k l ih =>
      exact Asks.trans (asks_forEachThread (fun t => t.asked_dropPending k) p) (ih _)
  unfold cancel
  split
  · next h =>
    refine Asks.trans (hdrops _ p) (asks_forEachThread (fun t => .single (.cont t ?_)) _)
    exact decide_eq_true h
  split
  · exact asks_forEachThread (fun t => t.asked_dropPending _) p
  · exact .refl p

end Process

/-! ### The changes that steps are made of -/

/-- The thread's part in `task_end` is under way. -/
def Call.Ended (c : Call) : Prop := c = .left ∨ ∃ status, c = .ending status

/-- Who exits has nothing pending, a zombie has exited, and who is stopped or gone is in the middle
of nothing. -/
structure Thread.Tidy (t : Thread) : Prop where
  clean : t.exiting → t.sigPending = 0
  call : ∀ sig, t.call = .fatal sig → t.exiting = false
  zombie : t.state = .zombie → t.exiting
  ended : t.call.Ended → t.exiting
  idle : t.state = .stopped ∨ t.state = .zombie → t.call = .none

theorem Thread.Tidy.near {t t' : Thread} (h : t.Tidy) (hn : t.Near t') : t'.Tidy where
  clean he := hn.clean (hn.exiting ▸ he) (h.clean (hn.exiting ▸ he))
  call sig hc := hn.exiting.trans (h.call sig (hn.call ▸ hc))
  zombie hz := hn.exiting.trans (h.zombie (hn.zombie.1 hz))
  ended he := hn.exiting.trans (h.ended (hn.call ▸ he))
  idle hs := hn.call.trans (h.idle (hs.imp hn.stopped hn.zombie.1))

theorem free_iff {t : Thread} :
    t.free ↔ t.state = .running ∧ t.exiting = false ∧ t.call = .none := by
  simp [Thread.free, and_assoc]

namespace Process

variable {p p' p'' : Process} {i j : ℕ} {cont : Bool}

structure Tidy (p : Process) : Prop where
  leader_mem : p.leader ∈ p.order
  threads : ∀ i ∈ p.order, (p.threads i).Tidy

inductive Moves (cont : Bool) (p : Process) : Process → Prop
  | asks {p' : Process} (h : Asks cont p p') : Moves cont p p'
  | fields {p' : Process} (horder : p'.order = p.order) (hthreads : p'.threads = p.threads)
      (hlive : p'.live = p.live) (hreported : p'.stopReported = p.stopReported)
      (hasleep : p'.parentAsleep = p.parentAsleep)
      (hleader : p.leader ∈ p.order → p'.leader ∈ p.order) : Moves cont p p'
  | call {i : ℕ} (c : Call) (hi : i ∈ p.order) (hc : ¬ (p.threads i).call.Ended) (hc' : ¬ c.Ended)
      (hs : (p.threads i).state = .running ∨ (p.threads i).state = .blocked)
      (hfatal : ∀ sig, c = .fatal sig → (p.threads i).exiting = false) :
      Moves cont p (p.update i fun t => { t with call := c })
  | exit {i : ℕ} (status : ℕ) (hi : i ∈ p.order) (hc : ¬ (p.threads i).call.Ended)
      (hs : (p.threads i).state = .running ∨ (p.threads i).state = .blocked) :
      Moves cont p (p.update i fun t => t.exit status)
  | leave {i status : ℕ} (hi : i ∈ p.order) (hc : (p.threads i).call = .ending status) :
      Moves cont p (p.leave i status)
  | stop {i : ℕ} (hi : i ∈ p.order) (hf : (p.threads i).free)
      (hk : (p.threads i).killPending = 0) (hs : (p.threads i).stopPending ≠ 0) :
      Moves cont p (p.stopCurrent i)
  | block {i : ℕ} (hi : i ∈ p.order) (hf : (p.threads i).free)
      (hk : (p.threads i).killPending = 0) (hs : (p.threads i).stopPending = 0) :
      Moves cont p (p.update i fun t => { t with state := .blocked })

theorem receiver_usable {sig : ℕ} (h : p.leader ∈ p.order) (hr : p.receiver sig = some i) :
    i ∈ p.order ∧ (p.threads i).usable := by
  unfold receiver at hr
  dsimp only at hr
  split at hr
  next hl =>
    cases hr
    exact ⟨h, hl.1⟩
  split at hr
  next j hfind =>
    cases hr
    have := find?_some hfind
    simp only [Bool.and_eq_true] at this
    exact ⟨mem_of_find?_eq_some hfind, this.1⟩
  split at hr
  next hl =>
    cases hr
    exact ⟨h, hl⟩
  · exact ⟨mem_of_find?_eq_some hr, by simpa using find?_some hr⟩

theorem asks_send (h : p.leader ∈ p.order) (sig : ℕ) : Asks (sig = sigCont) p (p.send sig) := by
  have hcancel := asks_cancel p sig
  unfold send
  split
  · exact .refl p
  next hv =>
    have hsig : sig ≠ 0 := by
      rintro rfl
      exact hv (.inl rfl)
    split
    · exact asks_forEachThread (fun t => .single (.kill t hsig)) p
    split
    · exact Asks.trans hcancel (asks_forEachThread (fun t => .single (.stop t hsig)) _)
    split
    · exact hcancel
    split
    · exact hcancel
    next i hr =>
      have hu := (receiver_usable (by rwa [hcancel.leader, hcancel.order]) hr).2
      simp only [Thread.usable, Bool.and_eq_true, Bool.not_eq_true'] at hu
      refine Asks.trans (Asks.trans hcancel (asks_update (.single ?_))) (asks_actOnPending _ _)
      exact .quiet rfl rfl rfl rfl rfl fun he => absurd (he.symm.trans hu.1) (by simp)

theorem Tidy.awake (h : p.Tidy) (hi : i ∈ p.order) (hc : (p.threads i).call ≠ .none) :
    (p.threads i).state = .running ∨ (p.threads i).state = .blocked := by
  have := (h.threads i hi).idle
  cases hs : (p.threads i).state <;> simp_all

theorem not_ended_of_free (hf : (p.threads i).free) : ¬ (p.threads i).call.Ended := by
  rw [(free_iff.1 hf).2.2]
  simp [Call.Ended]

theorem running_of_free (hf : (p.threads i).free) :
    (p.threads i).state = .running ∨ (p.threads i).state = .blocked :=
  .inl (free_iff.1 hf).1

theorem moves_taskEnd (hi : i ∈ p.order) (hc : ¬ (p.threads i).call.Ended)
    (hs : (p.threads i).state = .running ∨ (p.threads i).state = .blocked) (status : ℕ)
    (whole : Bool) : ReflTransGen (Moves cont) p (p.taskEnd i status whole) := by
  have hgone : Moves cont p (p.update i fun t => t.exit status) := .exit status hi hc hs
  unfold taskEnd
  dsimp only
  split
  · unfold endGroup
    refine .tail (.tail (.single hgone) ?_) (.asks (asks_killOthers _ i))
    exact .fields rfl rfl rfl rfl rfl id
  · exact .single hgone

theorem moves_call {c : Call} (h : Moves cont p p') (horder : p'.order = p.order)
    (hself : p'.threads i = p.threads i) (hi : i ∈ p.order) (hc : ¬ (p.threads i).call.Ended)
    (hc' : ¬ c.Ended) (hs : (p.threads i).state = .running ∨ (p.threads i).state = .blocked)
    (hfatal : ∀ sig, c = .fatal sig → (p.threads i).exiting = false) :
    ReflTransGen (Moves cont) p (p'.update i fun t => { t with call := c }) := by
  rw [← hself] at hc hs hfatal
  exact .tail (.single h) (.call c (horder ▸ hi) hc hc' hs hfatal)

theorem moves_act {f : Process → Process}
    (h : i ∈ p.order → (p.threads i).free → ReflTransGen (Moves cont) p (f p)) :
    ReflTransGen (Moves cont) p (p.act i f) := by
  unfold act
  split
  · next ha => exact h ha.1 ha.2
  · exact .refl

theorem moves_deliver (hi : i ∈ p.order) (hf : (p.threads i).free) (stack : Bool) :
    ReflTransGen (Moves cont) p (p.deliver i stack) := by
  obtain ⟨hrun, hexit, hcall⟩ := free_iff.1 hf
  have hfatal {q : Process} (k : ℕ) (hq : Asks cont p q) (hs : (q.threads i).state = .running) :
      ReflTransGen (Moves cont) p (q.update i fun t => { t with call := .fatal k }) := by
    have hnear := hq.near.threads i
    refine .tail (.single (.asks hq))
      (.call (.fatal k) (hq.order ▸ hi) ?_ ?_ (.inl hs) fun _ _ => ?_)
    · simp [hnear.call, hcall, Call.Ended]
    · simp [Call.Ended]
    · exact hnear.exiting.trans hexit
  unfold Process.deliver
  split
  · exact .refl
  next k hk =>
    have hdrop : Asks cont p (p.update i fun t => t.dropPending k) :=
      asks_update (Thread.asked_dropPending _ k)
    dsimp only
    split
    · exact .single (.asks hdrop)
    split
    · split
      · exact .single (.asks hdrop)
      · refine hfatal k hdrop ?_
        simpa [Process.update, Thread.dropPending] using hrun
    have hmore : Asks cont (p.update i fun t => t.dropPending k)
        ((p.update i fun t => t.dropPending k).update i fun t =>
          { t with sigBlocked := t.sigBlocked ||| (p.masks k ||| bit k) &&& ~~~ unblockable }) :=
      asks_update (.single (.quiet rfl rfl rfl rfl rfl fun _ => id))
    split
    · exact .single (.asks (Asks.trans hdrop hmore))
    · refine hfatal sigSegv (Asks.trans hdrop hmore) ?_
      simpa [Process.update, Thread.dropPending] using hrun

theorem moves_checkKill (hi : i ∈ p.order) (hf : (p.threads i).free) :
    ReflTransGen (Moves cont) p (p.checkKill i) := by
  unfold checkKill
  dsimp only
  split
  · exact moves_taskEnd hi (not_ended_of_free hf) (running_of_free hf) _ _
  next hk =>
    split
    · next hs => exact .single (.stop hi hf (not_not.1 hk) hs)
    · exact .refl

theorem moves_sleep (hi : i ∈ p.order) (hf : (p.threads i).free) :
    ReflTransGen (Moves cont) p (p.sleep i) := by
  rcases p.sleep_cases i with h0 | ⟨⟨hk, hs⟩, h0⟩ <;> rw [h0]
  · exact moves_checkKill hi hf
  · exact .single (.block hi hf hk hs)

theorem moves_execAlone (hi : i ∈ p.order) (hc : ¬ (p.threads i).call.Ended)
    (hs : (p.threads i).state = .running ∨ (p.threads i).state = .blocked) :
    ReflTransGen (Moves cont) p (p.execAlone i) :=
  moves_call (.fields rfl rfl rfl rfl rfl fun _ => hi) rfl rfl hi hc (by simp [Call.Ended]) hs nofun

theorem moves_execBegin (hi : i ∈ p.order) (hf : (p.threads i).free) :
    ReflTransGen (Moves cont) p (p.execBegin i) := by
  unfold execBegin
  split
  · exact .refl
  split
  · have hself : (killOthers { p with execTid := some i } i).threads i = p.threads i := by
      unfold killOthers
      split <;> simp
    have hkill : Asks cont { p with execTid := some i } _ := asks_killOthers _ i
    refine .head (.fields rfl rfl rfl rfl rfl id : Moves cont p { p with execTid := some i }) ?_
    exact moves_call (.asks hkill) hkill.order hself hi (not_ended_of_free hf)
      (by simp [Call.Ended]) (running_of_free hf) nofun
  · exact moves_execAlone hi (not_ended_of_free hf) (running_of_free hf)

theorem moves_resume (h : p.Tidy) (hi : i ∈ p.order) (hleft : (p.threads i).call ≠ .left) :
    ReflTransGen (Moves cont) p (p.resume i) := by
  have hawake := h.awake hi
  unfold resume
  split
  next => exact .refl
  next sig hc =>
    refine moves_taskEnd hi ?_ (hawake (by simp [hc])) _ _
    simp [hc, Call.Ended]
  next hc =>
    split
    · exact moves_execAlone hi (by simp [hc, Call.Ended]) (hawake (by simp [hc]))
    · exact .refl
  next hc =>
    exact moves_call (.fields rfl rfl rfl rfl rfl id) rfl rfl hi (by simp [hc, Call.Ended])
      (by simp [Call.Ended]) (hawake (by simp [hc])) nofun
  next hc =>
    refine .tail (.single (.call .none hi ?_ ?_ (hawake (by simp [hc])) nofun)) (.asks ?_)
    · simp [hc, Call.Ended]
    · simp [Call.Ended]
    · exact asks_actOnPending _ i
  next status hc => exact .single (.leave hi hc)
  next hc => exact absurd hc hleft

end Process

/-- `SIGCONT` is sent. -/
def Event.continues : Event → Bool
  | .send sig => sig = sigCont
  | _ => false

namespace Process

variable {p p' p'' : Process} {i j : ℕ} {cont : Bool} {f : Thread → Thread} {e : Event}

/-- What the steps do: they move, or a thread comes or goes, or it is about the parent. -/
inductive Does (p : Process) : Event → Process → Prop
  | moves {e : Event} {p' : Process} (h : ReflTransGen (Moves e.continues) p p') : Does p e p'
  | add {i j : ℕ} (hi : i ∈ p.order) (hf : (p.threads i).free) (hj : j ∉ p.order) :
      Does p (.addThread i j) (p.addThread i j)
  | gone {i : ℕ} (hi : i ∈ p.order) (hc : (p.threads i).call = .left) :
      Does p (.resume i) (p.becomeZombie i)
  | reap {i : ℕ} (hz : (p.threads i).state = .zombie) (hl : i ≠ p.leader) :
      Does p (.reap i) { p with order := p.order.erase i }
  | told : Does p .wait { p with stopReported := true }
  | asleep (h : ¬ (p.stopped && !p.stopReported)) : Does p .wait { p with parentAsleep := true }
  | woken : Does p .wakeParent { p with parentAsleep := false }

theorem does_step (h : p.Tidy) (e : Event) : Does p e (p.step e) := by
  cases e <;> simp only [Process.step]
  case send sig => exact .moves (.single (.asks (asks_send h.leader_mem sig)))
  case sigaction i sig handler mask flags restorer =>
    refine .moves (moves_act fun _ _ => ?_)
    split
    · unfold setAction
      dsimp only
      have hact : Moves false p (p.withAction sig handler mask flags restorer) :=
        .fields rfl rfl rfl rfl rfl id
      split
      · exact .tail (.single hact) (.asks (asks_forEachThread (fun t => t.asked_dropPending sig) _))
      · exact .single hact
    · exact .refl
  case sigmask i how set =>
    refine .moves (moves_act fun _ _ => .single (.asks (Asks.trans ?_ (asks_actOnPending _ i))))
    exact asks_update (.single (.quiet rfl rfl rfl rfl rfl fun _ => id))
  case deliver i stack => exact .moves (moves_act fun hi hf => moves_deliver hi hf stack)
  case exit i status whole =>
    exact .moves (moves_act fun hi hf =>
      moves_taskEnd hi (not_ended_of_free hf) (running_of_free hf) status whole)
  case checkKill i => exact .moves (moves_act moves_checkKill)
  case sleep i => exact .moves (moves_act moves_sleep)
  case wake i => exact .moves (.single (.asks (asks_update (.single (.wake _)))))
  case addThread i j =>
    unfold act
    dsimp only
    split_ifs with hf hj
    · exact .moves .refl
    · exact .add hf.1 hf.2 hj
    · exact .moves .refl
  case exec i => exact .moves (moves_act moves_execBegin)
  case resume i =>
    split_ifs with hi
    · by_cases hc : (p.threads i).call = .left
      · have hres : p.resume i = p.becomeZombie i := by
          unfold resume
          rw [hc]
        exact hres ▸ .gone hi hc
      · exact .moves (moves_resume h hi hc)
    · exact .moves .refl
  case reap i =>
    split_ifs with hr
    · exact .reap hr.1 hr.2
    · exact .moves .refl
  case wait =>
    split_ifs with ha hr
    · exact .moves .refl
    · exact .told
    · exact .asleep hr
  case wakeParent => exact .woken

/-! ### The threads of a process -/

theorem Tidy.update (h : p.Tidy) (hf : (f (p.threads i)).Tidy) : (p.update i f).Tidy := by
  refine ⟨h.leader_mem, fun j hj => ?_⟩
  simp only [Process.update]
  rcases eq_or_ne j i with rfl | hne
  · rwa [update_self]
  · rw [update_of_ne hne]
    exact h.threads j hj

theorem Tidy.moves (h : p.Tidy) (hm : Moves cont p p') : p'.Tidy := by
  cases hm with
  | asks ha =>
    refine ⟨by rw [ha.leader, ha.order]; exact h.leader_mem, fun i hi => ?_⟩
    exact (h.threads i (ha.order ▸ hi)).near (ha.near.threads i)
  | fields horder hthreads hlive hreported hasleep hleader =>
    refine ⟨by rw [horder]; exact hleader h.leader_mem, fun i hi => ?_⟩
    rw [hthreads]
    exact h.threads i (horder ▸ hi)
  | @call i c hi hc hc' hs hfatal =>
    have ht := h.threads i hi
    refine h.update ⟨ht.clean, hfatal, ht.zombie, fun he => absurd he hc', fun hst => ?_⟩
    rcases hs with hs | hs <;> simp [hs] at hst
  | exit status hi hc hs =>
    refine h.update ⟨fun _ => rfl, nofun, fun _ => rfl, fun _ => rfl, fun hst => ?_⟩
    rcases hs with hs | hs <;> simp [Thread.exit, hs] at hst
  | @leave i status hi hc =>
    have ht := h.threads i hi
    have hs := h.awake hi (by simp [hc])
    have hexit := ht.ended (.inr ⟨status, hc⟩)
    have hleft : (p.update i fun t => { t with call := .left }).Tidy := by
      refine h.update ⟨ht.clean, nofun, fun _ => hexit, fun _ => hexit, fun hst => ?_⟩
      rcases hs with hs | hs <;> simp [hs] at hst
    unfold Process.leave
    dsimp only
    split <;> exact ⟨hleft.leader_mem, hleft.threads⟩
  | @stop i hi hf hk hs =>
    have ht := h.threads i hi
    have hstop : (p.update i fun t => { t with stopPending := 0, state := .stopped }).Tidy :=
      h.update ⟨ht.clean, ht.call, nofun, ht.ended, fun _ => (free_iff.1 hf).2.2⟩
    unfold stopCurrent
    dsimp only
    split <;> exact ⟨hstop.leader_mem, hstop.threads⟩
  | @block i hi hf hk hs =>
    have ht := h.threads i hi
    exact h.update ⟨ht.clean, ht.call, nofun, ht.ended, fun _ => (free_iff.1 hf).2.2⟩

theorem Tidy.chain (h : p.Tidy) (hm : ReflTransGen (Moves cont) p p') : p'.Tidy := by
  induction hm with
  | refl => exact h
  | tail _ hm ih => exact ih.moves hm

theorem Tidy.step (h : p.Tidy) (e : Event) : (p.step e).Tidy := by
  have hd := does_step h e
  generalize p.step e = q at hd ⊢
  cases hd with
  | moves hm => exact h.chain hm
  | @add i j hi hf hj =>
    unfold addThread
    dsimp only
    split_ifs
    · refine ⟨mem_append_left _ h.leader_mem, fun k hk => ?_⟩
      dsimp only
      rcases eq_or_ne k j with rfl | hne
      · rw [update_self]
        exact ⟨nofun, nofun, nofun, by simp [Call.Ended], fun _ => rfl⟩
      · rw [update_of_ne hne]
        exact h.threads k ((mem_append.1 hk).resolve_right (by simpa using hne))
    · exact h
  | @gone i hi hc =>
    have ht := h.threads i hi
    have hexit := ht.ended (.inl hc)
    exact h.update ⟨fun _ => ht.clean hexit, nofun, fun _ => hexit, by simp [Call.Ended],
      fun _ => rfl⟩
  | reap hz hl =>
    refine ⟨(mem_erase_of_ne (Ne.symm hl)).2 h.leader_mem, fun j hj => ?_⟩
    exact h.threads j (mem_of_mem_erase hj)
  | told => exact ⟨h.leader_mem, h.threads⟩
  | asleep => exact ⟨h.leader_mem, h.threads⟩
  | woken => exact ⟨h.leader_mem, h.threads⟩

end Process

end Bashket.Signal
