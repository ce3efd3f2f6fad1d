import Bashket.Proc.Delivery

/-!
# Stopping stops the whole process

From the moment `SIGSTOP` is sent until the process is continued no thread gets past a safe point;
when the last one has stopped the process counts as stopped, and the parent that waits for this is
told, once. It needs that a thread that has been asked to stop creates no thread (the new one would
not be asked), and that the last thread that has not stopped does not exit instead while the parent
sleeps (it would not be woken).
-/

namespace Bashket.Signal

open Run Relation List
open Function (update_of_ne update_self)

/-! ### What is to hold -/

namespace Process

variable (p : Process)

/-- The thread has stopped or has begun to exit. -/
def Halted (i : ℕ) : Prop := (p.threads i).state = .stopped ∨ (p.threads i).exiting

/-- The thread is stopped, or is so after its next safe point (or ends there). -/
def HaltsNext (i : ℕ) : Prop :=
  (p.threads i).state = .stopped ∨ ((p.checkKill i).Halted i ∧ (p.sleep i).Halted i)

def reports : Event → Bool
  | .wait => !p.parentAsleep && p.stopped && !p.stopReported
  | _ => false

def reportCount (p : Process) : List Event → ℕ
  | [] => 0
  | e :: es => (p.reports e).toNat + reportCount (p.step e) es

/-- No thread goes on; when all have stopped (or are gone) the process is stopped; and then the
parent, if it has not been told yet, is told when it looks, and it is not asleep. -/
structure Stops : Prop where
  halts : ∀ i ∈ p.order, (p.threads i).usable → p.HaltsNext i
  stopped : (∃ i ∈ p.order, (p.threads i).state = .stopped) →
    (∀ i ∈ p.order, (p.threads i).state = .stopped ∨ (p.threads i).state = .zombie) → p.stopped
  told : p.stopped → p.stopReported = false → p.reports .wait

end Process

/-- No thread that has been asked to stop creates a thread; and one that ends while the parent
sleeps is not the last of a process that is otherwise stopped. -/
def Steady (p : Process) : Event → Prop
  | .addThread i _ => (p.threads i).stopPending = 0
  | .resume i => (p.threads i).call = .left → p.parentAsleep →
      (∀ j ∈ p.order, (p.threads j).state ≠ .stopped) ∨
        ∃ j ∈ p.order, j ≠ i ∧ (p.threads j).state ≠ .stopped ∧ (p.threads j).state ≠ .zombie
  | _ => True

/-! ### Nobody goes on -/

namespace Thread

/-- The thread has stopped or will end: it does not stop any more. -/
def Rests (t : Thread) : Prop := t.state = .stopped ∨ t.killPending ≠ 0

theorem sticky_rests : Sticky Rests where
  congr hs hk _ h := by simpa only [Rests, hs, hk] using h
  wake {t} h := by
    unfold wakeBlocked
    split
    · next hs =>
      rw [Rests, hs] at h
      exact .inr (h.resolve_left (by simp))
    · exact h
  kill {t sig} hsig h := by
    unfold requestKill
    split
    · exact .inr hsig
    · exact h
  stop {t sig} hsig h := by
    unfold requestStop
    split
    · exact h
    · next hs =>
      rcases h with h | h
      · exact absurd (.inr (.inl h)) hs
      · exact absurd (.inr (.inr (.inr h))) hs
  halt h hs hk := by
    rcases h with h | h
    · rw [hs] at h
      cases h
    · exact absurd hk h

end Thread

namespace Process

variable {p p' p'' : Process} {i j : ℕ} {cont : Bool}

def Each (G : Thread → Prop) (p : Process) : Prop :=
  ∀ i ∈ p.order, (p.threads i).usable → G (p.threads i)

theorem Each.update {G : Thread → Prop} (h : p.Each G) {f : Thread → Thread}
    (hf : (f (p.threads i)).usable → i ∈ p.order → G (f (p.threads i))) :
    (p.update i f).Each G := by
  intro j hj hu
  rcases eq_or_ne j i with rfl | hne
  · simp only [Process.update, update_self] at hu ⊢
    exact hf hu hj
  · simp only [Process.update, update_of_ne hne] at hu ⊢
    exact h j hj hu

theorem Each.moves {G : Thread → Prop} (hG : Thread.Sticky G) (h : p.Each G)
    (hm : Moves false p p') : p'.Each G := by
  cases hm with
  | asks ha =>
    intro i hi hu
    rw [ha.order] at hi
    rw [(ha.near.threads i).usable] at hu
    exact hG.asks (ha.threads i) (h i hi hu)
  | fields horder hthreads =>
    unfold Each
    rwa [horder, hthreads]
  | @call i =>
    exact h.update fun hu hi => hG.congr (t := p.threads i) rfl rfl rfl (h i hi hu)
  | exit status hi hc hs => exact h.update fun hu => by simp [Thread.usable, Thread.exit] at hu
  | @leave i status hi hc =>
    unfold Process.leave
    dsimp only
    have hupd : (p.update i fun t => { t with call := .left }).Each G :=
      h.update fun hu hi => hG.congr (t := p.threads i) rfl rfl rfl (h i hi hu)
    split <;> exact hupd
  | @stop i hi hf hk hs =>
    have hrun := (free_iff.1 hf).1
    have hupd : (p.update i fun t => { t with stopPending := 0, state := .stopped }).Each G := by
      refine h.update fun hu hi => (hG.halt (h i hi ?_) hrun hk).2
      simpa [Thread.usable, hrun] using hu
    unfold stopCurrent
    dsimp only
    split <;> exact hupd
  | @block i hi hf hk hs =>
    obtain ⟨hrun, hexit, -⟩ := free_iff.1 hf
    have husable : (p.threads i).usable := by simp [Thread.usable, hrun, hexit]
    exact absurd hs (hG.halt (h i hi husable) hrun hk).1

theorem stopReported_moves (h : p.Each Thread.Rests) (hm : Moves false p p') :
    p'.stopReported = p.stopReported := by
  cases hm with
  | asks ha => exact ha.stopReported
  | fields _ _ _ hreported => exact hreported
  | call => rfl
  | exit => rfl
  | leave hi hc =>
    unfold Process.leave
    dsimp only
    split <;> rfl
  | @stop i hi hf hk hs =>
    obtain ⟨hrun, hexit, -⟩ := free_iff.1 hf
    have husable : (p.threads i).usable := by simp [Thread.usable, hrun, hexit]
    rcases h i hi husable with hr | hr
    · rw [hrun] at hr
      cases hr
    · exact absurd hk hr
  | block => rfl

/-! ### The count of threads, and the parent -/

end Process

def Thread.counts (t : Thread) : Bool := t.call ≠ .left && t.state ≠ .zombie

theorem Thread.Near.counts {t t' : Thread} (h : t.Near t') : t'.counts = t.counts := by
  simp only [Thread.counts, h.call, ne_eq, h.zombie]

namespace Process

variable {p p' p'' : Process} {i j : ℕ} {cont : Bool} {f : Thread → Thread} {G : Thread → Prop}
  {e : Event} {es : List Event}

/-- The process counts its threads; and the parent does not sleep through a stop of the process. -/
structure Sound (p : Process) : Prop where
  nodup : p.order.Nodup
  live : p.live = p.order.countP fun i => (p.threads i).counts
  told : p.stopped → p.stopReported = false → p.parentAsleep = false

theorem countP_update (hnodup : p.order.Nodup) (hi : i ∈ p.order) :
    (p.order.countP fun j => ((p.update i f).threads j).counts) + (p.threads i).counts.toNat =
      (p.order.countP fun j => (p.threads j).counts) + (f (p.threads i)).counts.toNat := by
  have hrest : ((p.order.erase i).countP fun j => ((p.update i f).threads j).counts) =
      (p.order.erase i).countP fun j => (p.threads j).counts := by
    refine countP_congr fun j hj => ?_
    have hne : j ≠ i := (hnodup.mem_erase_iff.1 hj).1
    simp only [update, update_of_ne hne]
  rw [(perm_cons_erase hi).countP_eq, (perm_cons_erase hi).countP_eq,
    countP_cons, countP_cons, hrest]
  simp only [update, update_self]
  cases (p.threads i).counts <;> cases (f (p.threads i)).counts <;> simp

theorem stopped_of_stopped (hlive : p'.live ≠ 0 → p.live ≠ 0)
    (hthreads : ∀ i ∈ p.order, i ∈ p'.order ∧
      ((p'.threads i).state = .stopped → (p.threads i).state = .stopped) ∧
      ((p'.threads i).state = .zombie → (p.threads i).state = .zombie)) (h : p'.stopped) :
    p.stopped := by
  simp only [stopped, Bool.and_eq_true, decide_eq_true_eq, all_eq_true, Bool.or_eq_true]
    at h ⊢
  refine ⟨hlive h.1, fun i hi => ?_⟩
  obtain ⟨hi', hs, hz⟩ := hthreads i hi
  exact (h.2 i hi').imp hs hz

/-- Nothing is stopped or gone that was not so before, and the same threads count. -/
theorem Sound.of_near (h : p.Sound) (horder : p'.order = p.order) (hlive : p'.live = p.live)
    (hreported : p'.stopReported = p.stopReported) (hasleep : p'.parentAsleep = p.parentAsleep)
    (hthreads : ∀ i ∈ p.order, (p'.threads i).counts = (p.threads i).counts ∧
      ((p'.threads i).state = .stopped → (p.threads i).state = .stopped) ∧
      ((p'.threads i).state = .zombie → (p.threads i).state = .zombie)) : p'.Sound where
  nodup := horder ▸ h.nodup
  live := by
    rw [hlive, h.live, horder]
    exact countP_congr fun i hi => by rw [(hthreads i hi).1]
  told := by
    intro hs hr
    rw [hasleep]
    refine h.told (stopped_of_stopped (by rw [hlive]; exact id) (fun i hi => ?_) hs)
      (hreported ▸ hr)
    exact ⟨horder ▸ hi, (hthreads i hi).2⟩

theorem Sound.update (h : p.Sound) (hcounts : (f (p.threads i)).counts = (p.threads i).counts)
    (hstate : (f (p.threads i)).state = .running ∨ (f (p.threads i)).state = .blocked) :
    (p.update i f).Sound := by
  refine h.of_near rfl rfl rfl rfl fun j hj => ?_
  rcases eq_or_ne j i with rfl | hne
  · simp only [Process.update, update_self]
    rcases hstate with hr | hr <;> simp [hr, hcounts]
  · simp [Process.update, update_of_ne hne]

theorem counts_of_awake {t : Thread} (hc : t.call ≠ .left)
    (hs : t.state = .running ∨ t.state = .blocked) : t.counts := by
  rcases hs with hs | hs <;> simp [Thread.counts, hc, hs]

theorem ne_left_of_not_ended {c : Call} (h : ¬ c.Ended) : c ≠ .left := fun he => h (.inl he)

theorem Sound.leave {status : ℕ} (h : p.Sound) (ht : p.Tidy) (hi : i ∈ p.order)
    (hc : (p.threads i).call = .ending status) : (p.leave i status).Sound := by
  have hawake := ht.awake hi (by simp [hc])
  have hcount := countP_update (f := fun t => { t with call := .left }) h.nodup hi
  rw [← h.live, counts_of_awake (by simp [hc]) hawake] at hcount
  have hcount' : ((p.update i fun t => { t with call := .left }).order.countP fun j =>
      ((p.update i fun t => { t with call := .left }).threads j).counts) = p.live - 1 := by
    have hgone : ({ p.threads i with call := Call.left } : Thread).counts = false := by
      simp [Thread.counts]
    simp only [hgone, Bool.toNat_true, Bool.toNat_false] at hcount
    exact Nat.eq_sub_of_add_eq hcount
  have hstates : ∀ j, ((p.update i fun t => { t with call := .left }).threads j).state =
      (p.threads j).state := by
    intro j
    rcases eq_or_ne j i with rfl | hne
    · simp only [Process.update, update_self]
    · simp only [Process.update, update_of_ne hne]
  have htold : ∀ {q : Process}, q.stopped → q.live = p.live - 1 → q.order = p.order →
      q.threads = (p.update i fun t => { t with call := .left }).threads → p.stopped := by
    intro q hs hlive horder hthreads
    refine stopped_of_stopped (by omega) (fun j hj => ?_) hs
    rw [hthreads, hstates, horder]
    exact ⟨hj, id, id⟩
  unfold Process.leave
  dsimp only
  split <;> exact ⟨h.nodup, hcount'.symm, fun hs => h.told (htold hs rfl rfl rfl)⟩

theorem Sound.stopCurrent (h : p.Sound) (hrun : (p.threads i).state = .running) :
    (p.stopCurrent i).Sound := by
  have hcounts : ∀ j, ((p.update i fun t => { t with stopPending := 0, state := .stopped }).threads
      j).counts = (p.threads j).counts := by
    intro j
    rcases eq_or_ne j i with rfl | hne
    · simp [Process.update, Thread.counts, hrun]
    · simp only [Process.update, update_of_ne hne]
  have hlive : p.live = p.order.countP fun j =>
      ((p.update i fun t => { t with stopPending := 0, state := .stopped }).threads j).counts := by
    rw [h.live]
    exact countP_congr fun j _ => by rw [hcounts]
  unfold Process.stopCurrent
  dsimp only
  split
  · exact ⟨h.nodup, hlive, fun _ _ => rfl⟩
  · next hn => exact ⟨h.nodup, hlive, fun hs => absurd hs hn⟩

theorem Sound.moves (h : p.Sound) (ht : p.Tidy) (hm : Moves cont p p') : p'.Sound := by
  cases hm with
  | asks ha =>
    refine h.of_near ha.order ha.live ha.stopReported ha.parentAsleep fun i _ => ?_
    have hn := ha.near.threads i
    exact ⟨hn.counts, hn.stopped, hn.zombie.1⟩
  | fields horder hthreads hlive hreported hasleep =>
    refine h.of_near horder hlive hreported hasleep fun i _ => ?_
    rw [hthreads]
    exact ⟨rfl, id, id⟩
  | call c hi hc hc' hs =>
    refine h.update ?_ hs
    rw [counts_of_awake (ne_left_of_not_ended hc) hs]
    exact counts_of_awake (ne_left_of_not_ended hc') hs
  | exit status hi hc hs =>
    refine h.update ?_ hs
    rw [counts_of_awake (ne_left_of_not_ended hc) hs]
    exact counts_of_awake (by simp [Thread.exit]) hs
  | leave hi hc => exact h.leave ht hi hc
  | stop hi hf => exact h.stopCurrent (free_iff.1 hf).1
  | block hi hf =>
    refine h.update ?_ (.inr rfl)
    simp [Thread.counts, (free_iff.1 hf).1]

theorem Sound.chain (h : p.Sound) (ht : p.Tidy) (hm : ReflTransGen (Moves cont) p p') :
    p'.Sound := by
  induction hm with
  | refl => exact h
  | tail hc hm ih => exact ih.moves (ht.chain hc) hm

theorem Each.chain (hG : Thread.Sticky G) (h : p.Each G) (hm : ReflTransGen (Moves false) p p') :
    p'.Each G := by
  induction hm with
  | refl => exact h
  | tail _ hm ih => exact ih.moves hG hm

theorem stopReported_chain (h : p.Each Thread.Rests) (hm : ReflTransGen (Moves false) p p') :
    p'.stopReported = p.stopReported := by
  induction hm with
  | refl => rfl
  | tail hc hm ih => exact (stopReported_moves (h.chain Thread.sticky_rests hc) hm).trans ih

theorem Sound.addThread (h : p.Sound) (hj : j ∉ p.order) : (p.addThread i j).Sound := by
  unfold Process.addThread
  dsimp only
  split
  · have hold : ∀ k ∈ p.order, k ≠ j := fun k hk he => hj (he ▸ hk)
    refine ⟨?_, ?_, fun hs => ?_⟩
    · simpa [nodup_append] using ⟨h.nodup, hold⟩
    · rw [h.live]
      dsimp only
      rw [countP_append, countP_singleton, update_self]
      congr 1
      refine countP_congr fun k hk => ?_
      rw [update_of_ne (hold k hk)]
    · -- the new thread runs
      simp [stopped] at hs
  · exact h

theorem each_addThread (hG : Thread.Sticky G) (h : p.Each G) (hi : i ∈ p.order)
    (hf : (p.threads i).free) (hstop : (p.threads i).stopPending = 0) :
    p.addThread i j = p := by
  obtain ⟨hrun, hexit, -⟩ := free_iff.1 hf
  have husable : (p.threads i).usable := by simp [Thread.usable, hrun, hexit]
  have hkill : (p.threads i).killPending ≠ 0 :=
    fun hk => (hG.halt (h i hi husable) hrun hk).1 hstop
  unfold Process.addThread
  simp [hkill]

theorem counts_becomeZombie (hi : i ∈ p.order) (h : p.Sound) (hc : (p.threads i).call = .left) :
    ((p.becomeZombie i).order.countP fun k => ((p.becomeZombie i).threads k).counts) = p.live := by
  have hcount := countP_update (f := fun t => { t with state := .zombie, call := .none })
    h.nodup hi
  have hold : (p.threads i).counts = false := by simp [Thread.counts, hc]
  have hnew : ({ p.threads i with state := .zombie, call := .none } : Thread).counts = false := by
    simp [Thread.counts]
  rw [hold, hnew, ← h.live] at hcount
  exact hcount

theorem Sound.becomeZombie (h : p.Sound) (hi : i ∈ p.order) (hc : (p.threads i).call = .left)
    (hs : Steady p (.resume i)) : (p.becomeZombie i).Sound := by
  have hother : ∀ {k}, k ≠ i → (p.becomeZombie i).threads k = p.threads k :=
    fun hne => update_of_ne hne _ _
  have hself : ((p.becomeZombie i).threads i).state = .zombie := by
    simp only [Process.becomeZombie, Process.update, update_self]
  refine ⟨h.nodup, (counts_becomeZombie hi h hc).symm, fun hst hr => ?_⟩
  by_contra hasleep
  have hall := hst
  simp only [stopped, Bool.and_eq_true, decide_eq_true_eq, all_eq_true, Bool.or_eq_true]
    at hall
  have hasleep' : p.parentAsleep = true := Bool.of_not_eq_false hasleep
  rcases hs hc hasleep' with hnone | ⟨k, hk, hne, hns, hnz⟩
  · -- some thread counts, and it can only be a stopped one
    have hpos : 0 < p.order.countP fun k => ((p.becomeZombie i).threads k).counts := by
      have hlive : p.live ≠ 0 := hall.1
      exact (counts_becomeZombie hi h hc).symm ▸ Nat.pos_of_ne_zero hlive
    obtain ⟨k, hk, hcounts⟩ := countP_pos_iff.1 hpos
    rcases eq_or_ne k i with rfl | hne
    · simp [Thread.counts, hself] at hcounts
    · rw [hother hne] at hcounts
      rcases hall.2 k hk with hstate | hstate <;> rw [hother hne] at hstate
      · exact hnone k hk hstate
      · simp [Thread.counts, hstate] at hcounts
  · rcases hall.2 k hk with hstate | hstate <;> rw [hother hne] at hstate
    · exact hns hstate
    · exact hnz hstate

theorem Sound.reap (h : p.Sound) (hz : (p.threads i).state = .zombie) :
    Sound { p with order := p.order.erase i } := by
  by_cases hi : i ∈ p.order
  · refine ⟨h.nodup.erase i, ?_, fun hs => ?_⟩
    · rw [h.live, (perm_cons_erase hi).countP_eq, countP_cons_of_neg]
      simp [Thread.counts, hz]
    · apply h.told
      simp only [stopped, Bool.and_eq_true, decide_eq_true_eq, all_eq_true, Bool.or_eq_true]
        at hs ⊢
      refine ⟨hs.1, fun k hk => ?_⟩
      rcases eq_or_ne k i with rfl | hne
      · exact .inr hz
      · exact hs.2 k ((mem_erase_of_ne hne).2 hk)
  · rwa [erase_of_not_mem hi]

theorem Sound.step (h : p.Sound) (ht : p.Tidy) (hs : Steady p e) : (p.step e).Sound := by
  have hd := does_step ht e
  generalize p.step e = q at hd ⊢
  cases hd with
  | moves hm => exact h.chain ht hm
  | add hi hf hj => exact h.addThread hj
  | gone hi hc => exact h.becomeZombie hi hc hs
  | reap hz => exact h.reap hz
  | told => exact ⟨h.nodup, h.live, nofun⟩
  | asleep hn =>
    refine ⟨h.nodup, h.live, fun hst hr => absurd ?_ hn⟩
    have hst' : p.stopped = true := hst
    have hr' : p.stopReported = false := hr
    simp [hst', hr']
  | woken => exact ⟨h.nodup, h.live, fun _ _ => rfl⟩

theorem Each.step (hG : Thread.Sticky G) (h : p.Each G) (ht : p.Tidy) (hs : Steady p e)
    (hc : e.continues = false) : (p.step e).Each G := by
  have hd := does_step ht e
  generalize p.step e = q at hd ⊢
  cases hd with
  | moves hm => exact h.chain hG (hc ▸ hm)
  | add hi hf => rwa [each_addThread hG h hi hf hs]
  | gone => exact h.update fun hu => by simp [Thread.usable] at hu
  | reap => exact fun k hk => h k (mem_of_mem_erase hk)
  | told => exact h
  | asleep => exact h
  | woken => exact h

/-! ### The parent is told once -/

theorem each_rests_of_stopped (h : p.stopped) : p.Each Thread.Rests := by
  intro i hi hu
  simp only [stopped, Bool.and_eq_true, all_eq_true, Bool.or_eq_true, decide_eq_true_eq] at h
  refine .inl ((h.2 i hi).resolve_right fun hz => ?_)
  simp [Thread.usable, hz] at hu

theorem stopReported_step (h : p.Each Thread.Rests) (ht : p.Tidy) (hr : p.stopReported)
    (hs : Steady p e) (hc : e.continues = false) : (p.step e).stopReported := by
  have hd := does_step ht e
  generalize p.step e = q at hd ⊢
  cases hd with
  | moves hm => exact (stopReported_chain h (hc ▸ hm)).trans hr
  | add hi hf => rwa [each_addThread Thread.sticky_rests h hi hf hs]
  | gone => exact hr
  | reap => exact hr
  | told => rfl
  | asleep => exact hr
  | woken => exact hr

theorem reports_eq_false (hr : p.stopReported) (e : Event) : p.reports e = false := by
  cases e <;> simp [reports, hr]

theorem reportCount_eq_zero (h : p.Tidy) (hrest : p.Each Thread.Rests) (hr : p.stopReported)
    (hs : Along Process.step Steady p es) (hc : ∀ e ∈ es, Event.continues e = false) :
    p.reportCount es = 0 := by
  induction es generalizing p with
  | nil => rfl
  | cons e es ih =>
    have hce := hc e mem_cons_self
    have hrest' := hrest.step Thread.sticky_rests h hs.1 hce
    have hr' := stopReported_step hrest h hr hs.1 hce
    have hih := ih (h.step e) hrest' hr' hs.2 fun e he => hc e (mem_cons_of_mem _ he)
    simp [reportCount, reports_eq_false hr, hih]

theorem reportCount_le_one (h : p.Tidy) (hs : Along Process.step Steady p es)
    (hc : ∀ e ∈ es, Event.continues e = false) : p.reportCount es ≤ 1 := by
  induction es generalizing p with
  | nil => exact Nat.zero_le 1
  | cons e es ih =>
    have hce : ∀ e ∈ es, Event.continues e = false := fun e he => hc e (mem_cons_of_mem _ he)
    by_cases hrep : p.reports e
    · obtain rfl : e = .wait := by
        cases e <;> simp [reports] at hrep
        rfl
      simp only [reports, Bool.and_eq_true, Bool.not_eq_true'] at hrep
      obtain ⟨⟨hawake, hstopped⟩, hnot⟩ := hrep
      have hstep : p.step .wait = { p with stopReported := true } := by
        simp [Process.step, hawake, hstopped, hnot]
      have hzero : (p.step .wait).reportCount es = 0 := by
        refine reportCount_eq_zero (h.step .wait) ?_ ?_ hs.2 hce
        · rw [hstep]
          exact each_rests_of_stopped hstopped
        · rw [hstep]
      simp [reportCount, hzero, Bool.toNat_le]
    · have hih := ih (h.step e) hs.2 hce
      simpa [reportCount, hrep] using hih

/-! ### Every run -/

theorem Born.sound (h : p.Born) : p.Sound := by
  refine ⟨by simp [h.order], ?_, fun _ _ => h.parentAsleep⟩
  simp [h.live, h.order, Thread.counts, h.call, h.state]

theorem haltsNext_of_halting (h : (p.threads i).Halting) : p.HaltsNext i := by
  have hend : ∀ status, (p.taskEnd i status true).Halted i := by
    intro status
    refine .inr ?_
    rw [taskEnd_self]
    rfl
  have hstop : (p.stopCurrent i).Halted i := by
    refine .inl ?_
    unfold stopCurrent
    dsimp only
    split <;> simp only [update, update_self]
  rcases h with h | h
  · exact .inl h
  · have hcheck : (p.checkKill i).Halted i := by
      unfold checkKill
      dsimp only
      split
      · exact hend _
      · next hk =>
        rw [if_pos (h.resolve_right hk)]
        exact hstop
    refine .inr ⟨hcheck, ?_⟩
    rcases p.sleep_cases i with h0 | ⟨h0, -⟩
    · rwa [h0]
    · exact (h.elim (absurd h0.2) (absurd h0.1))

theorem Sound.live_pos (h : p.Sound) (hi : i ∈ p.order) (hc : (p.threads i).counts) :
    p.live ≠ 0 := by
  rw [h.live]
  exact (countP_pos_iff.2 ⟨i, hi, hc⟩).ne'

theorem each_halting_send (h : p.Sound) (ht : p.Tidy) : (p.send sigStop).Each Thread.Halting := by
  unfold send
  split
  · next hdead =>
    intro i hi hu
    have hlive : p.live = 0 := hdead.resolve_left (by decide)
    refine absurd hlive (h.live_pos hi ?_)
    simp only [Thread.usable, Bool.and_eq_true, Bool.not_eq_true', decide_eq_true_eq] at hu
    have hleft : (p.threads i).call ≠ .left := by
      intro hc
      have := (ht.threads i hi).ended (.inl hc)
      rw [hu.1] at this
      cases this
    simp [Thread.counts, hleft, hu.2]
  · rw [if_neg (by decide), if_pos rfl]
    exact stopping_forEachThread_requestStop (by decide) _

theorem Sound.stops (h : p.Sound) (ht : p.Tidy) (hall : p.Each Thread.Halting) : p.Stops where
  halts i hi hu := haltsNext_of_halting (hall i hi hu)
  stopped := by
    rintro ⟨i, hi, hs⟩ hothers
    have hlive : p.live ≠ 0 := by
      refine h.live_pos hi ?_
      simp [Thread.counts, hs, (ht.threads i hi).idle (.inl hs)]
    simp only [Process.stopped, Bool.and_eq_true, decide_eq_true_eq, all_eq_true,
      Bool.or_eq_true]
    exact ⟨hlive, hothers⟩
  told hs hr := by
    simp [reports, h.told hs hr, hs, hr]

theorem always_stops (h : p.Sound) (ht : p.Tidy) (hall : p.Each Thread.Halting)
    (hs : Along Process.step Steady p es) (hc : ∀ e ∈ es, Event.continues e = false) :
    Always Process.step Stops p es := by
  induction es generalizing p with
  | nil => exact h.stops ht hall
  | cons e es ih =>
    have hall' := hall.step Thread.sticky_halting ht hs.1 (hc e mem_cons_self)
    refine ⟨h.stops ht hall, ih (h.step ht hs.1) (ht.step e) hall' hs.2 fun e he => ?_⟩
    exact hc e (mem_cons_of_mem _ he)

end Process

/-- From `SIGSTOP` until it is continued, if the steps are steady: every thread that can run stops
(or ends) at its next safe point; when all have stopped the process counts as stopped, and its
parent is told so when it looks, once, and does not sleep through it. -/
theorem process_stops {p : Process} (hp : p.Born) {es es' : List Event}
    (hs : Along Process.step Steady p (es ++ .send sigStop :: es'))
    (hc : ∀ e ∈ es', e ≠ .send sigCont) :
    Always Process.step Process.Stops (run Process.step p (es ++ [.send sigStop])) es' ∧
      (run Process.step p (es ++ [.send sigStop])).reportCount es' ≤ 1 := by
  rw [along_append] at hs
  obtain ⟨hbefore, -, hafter⟩ := hs
  rw [run_append]
  obtain ⟨hsound, htidy⟩ : (run Process.step p es).Sound ∧ (run Process.step p es).Tidy :=
    run_induction (I := fun p => p.Sound ∧ p.Tidy)
      (fun _ e h hst => ⟨h.1.step h.2 hst, h.2.step e⟩) ⟨hp.sound, hp.tidy⟩ hbefore
  have hsent : ((run Process.step p es).send sigStop).Sound :=
    hsound.step htidy (e := .send sigStop) trivial
  have hsent' : ((run Process.step p es).send sigStop).Tidy := htidy.step (.send sigStop)
  have hcont : ∀ e ∈ es', Event.continues e = false := by
    intro e he
    cases e <;> try rfl
    case send sig => exact decide_eq_false fun hsig => hc _ he (by rw [hsig])
  exact ⟨Process.always_stops hsent hsent' (Process.each_halting_send hsound htidy) hafter hcont,
    Process.reportCount_le_one hsent' hafter hcont⟩

def lateThread : List Event := [.addThread 1 2]

/-- The parent sleeps, and of the two threads of the process one stops; the other one exits. -/
def exitInstead : List Event := [.checkKill 1, .exit 2 0 false, .resume 2, .resume 2]

/-- The new thread runs on; and in the second run the parent sleeps on. -/
theorem process_not_stopped :
    ¬ Always Process.step Process.Stops
        (run Process.step (oneThread 10 0x1000) [.send sigStop]) lateThread ∧
      ¬ Always Process.step Process.Stops
        (run Process.step (oneThread 10 0x1000) [.addThread 1 2, .wait, .send sigStop])
        exitInstead := by
  constructor
  · rintro ⟨-, hstops⟩
    have hhalts := hstops.halts 2 (by decide +kernel) (by decide +kernel)
    rcases hhalts with hs | ⟨hs | hs, -⟩ <;> revert hs <;> decide +kernel
  · rintro ⟨-, -, -, -, hstops⟩
    have htold := hstops.told (by decide +kernel) (by decide +kernel)
    revert htold
    decide +kernel

def bothStop : List Event := [.checkKill 1, .sleep 2, .wait, .wait]

theorem process_stops_bothStop :
    Always Process.step Process.Stops
        (run Process.step (oneThread 10 0x1000) ([.addThread 1 2, .wait] ++ [.send sigStop]))
        bothStop ∧
      (run Process.step (oneThread 10 0x1000)
        ([.addThread 1 2, .wait] ++ [.send sigStop])).reportCount bothStop ≤ 1 := by
  refine process_stops (born_oneThread 10 0x1000) ⟨rfl, trivial, trivial, ?_⟩ (by simp [bothStop])
  exact ⟨trivial, trivial, trivial, trivial, trivial⟩

/-- If the steps are steady, a process counts its threads right, its parent does not sleep through a
stop, whoever exits has nothing pending, and whoever is stopped or dead is in the middle of no
call. -/
theorem threads_accounted {p : Process} (hp : p.Born) {es : List Event}
    (hs : Along Process.step Steady p es) :
    Always Process.step (fun p => p.Sound ∧ p.Tidy) p es :=
  always_of_induction (fun _ e h hst => ⟨h.1.step h.2 hst, h.2.step e⟩) ⟨hp.sound, hp.tidy⟩ hs

theorem threads_accounted_oneExits :
    Always Process.step (fun p => p.Sound ∧ p.Tidy) (oneThread 10 0x1000)
      [.addThread 1 2, .exit 2 0 false, .resume 2, .resume 2] :=
  threads_accounted (born_oneThread 10 0x1000)
    ⟨rfl, trivial, fun _ => nofun, fun _ => nofun, trivial⟩

end Bashket.Signal
