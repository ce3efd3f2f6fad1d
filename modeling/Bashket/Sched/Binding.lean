import Bashket.Sched.Placement

/-!
# Bound tasks

`task_set_affinity` changes a task's binding under the scheduler lock, and moves the task if it waits
in a queue. `place_task` reads the binding before it takes the queue's lock. All its callers hold the
scheduler lock but `finish_switch`: there a binding may come between the choice of the queue and the
joining of it, and the task then waits, and runs, where it must not. But for that, a task that
nobody is about to move waits in a queue of a CPU it may run on.
-/

namespace Bashket.Sched

open Function (update update_eq_self update_of_ne update_self)

variable {ι κ ν χ : Type*} {n : ℕ}

namespace State

/-- But for tasks that a call of `task_set_affinity` has still to look at. -/
def QueuesBound (s : State ι κ ν χ n) : Prop :=
  ∀ c t, s.rqLock c = none → s.InQueue c t → (∀ d, (s.pc d).rebinds ≠ some t) → s.MayRun t c

/-- A CPU without the scheduler lock is about to put the task in a queue, and reads its binding for
that or has read it: in `finish_switch`, in `schedule`, when the task may stay, or in
`hand_over_work`. -/
def Unsettled (s : State ι κ ν χ n) (t : ι) : Prop :=
  ∃ c, (∃ cpu a, s.pc c = .push t cpu (.moved a)) ∨
    (∃ hold next a, s.pc c = .commit hold next a) ∧ s.current c = t ∨
    (∃ target, s.pc c = .give target) ∧ s.rq.queuedOn t = some c

/-- `task_set_affinity` is not called for an unsettled task. -/
def Settled (s : State ι κ ν χ n) (e : Event ι κ ν χ n) : Prop :=
  match e.2 with
  | .setAffinity t _ => ¬ s.Unsettled t
  | _ => True

structure Binds (s : State ι κ ν χ n) : Prop where
  queued : ∀ t c, s.rq.queuedOn t = some c → s.MayRun t c ∨ ∃ d, (s.pc d).rebinds = some t
  push : ∀ d t cpu, (s.pc d).pushes = some (t, cpu) → s.MayRun t cpu

/-- A task taken to run next may run there, or a call of `task_set_affinity` has still to look at
it; and no other turn begins. -/
def Chooses (s s' : State ι κ ν χ n) (c : Cpu n) : Prop :=
  (∀ t, (s'.pc c).next = some t → (s.pc c).next = some t ∨ s.MayRun t c ∨
    ∃ d, (s.pc d).rebinds = some t) ∧
  ∀ d, s'.current d = s.current d ∨ d = c ∧ (s.pc c).next = some (s'.current c)

variable {s s' : State ι κ ν χ n} {own : ι → Place n} {c d : Cpu n} {t : ι} {p p' : Pc ι κ ν χ n}

theorem Owned.queuesBound (ho : s.Owned own) (h : s.Binds) : s.QueuesBound := by
  intro c t _ hq hno
  rcases h.queued t c (((ho.task t).queued c).2 ((ho.inQueue_iff c t).1 hq)) with h0 | ⟨d, hd⟩
  · exact h0
  · exact absurd hd (hno d)

theorem Binds.keep (h : s.Binds) (p' : Pc ι κ ν χ n) (hpc : s.pc c = p)
    (hpc' : s'.pc = update s.pc c p') (haff : s'.affinity = s.affinity)
    (hq : ∀ u d, s'.rq.queuedOn u = some d → s.MayRun u d ∨
      s.rq.queuedOn u = some d ∧ (p.rebinds = some u → p'.rebinds = some u))
    (hpush : ∀ u cpu, p'.pushes = some (u, cpu) → s.MayRun u cpu)
    (hnext : ∀ u, p'.next = some u → p.next = some u ∨ s.MayRun u c ∨
      ∃ d, (s.pc d).rebinds = some u)
    (hcur : ∀ d, s'.current d = s.current d ∨ d = c ∧ p.next = some (s'.current c) := by
      exact fun _ => .inl rfl) : s'.Binds ∧ s.Chooses s' c := by
  have hrun (u : ι) (d : Cpu n) : s'.MayRun u d ↔ s.MayRun u d := by rw [MayRun, MayRun, haff]
  have hpcc : s'.pc c = p' := by rw [hpc', update_self]
  have hpcd (d : Cpu n) (hd : d ≠ c) : s'.pc d = s.pc d := by rw [hpc', update_of_ne hd]
  refine ⟨⟨fun u d h0 => ?_, fun d u cpu h0 => ?_⟩, fun u h0 => ?_, by rwa [hpc]⟩
  · rw [hrun]
    rcases hq u d h0 with h1 | ⟨h1, h2⟩
    · exact .inl h1
    · refine (h.queued u d h1).imp_right fun ⟨e, he⟩ => ⟨e, ?_⟩
      by_cases hec : e = c
      · rw [hec, hpcc]
        exact h2 (by rw [← hpc, ← hec, he])
      · rw [hpcd e hec, he]
  · rw [hrun]
    by_cases hd : d = c
    · exact hpush u cpu (by rw [← hpcc, ← hd, h0])
    · exact h.push d u cpu (by rw [← hpcd d hd, h0])
  · rw [hpc]
    exact hnext u (hpcc ▸ h0)

/-- The step leaves the queues alone. -/
theorem Binds.onward (h : s.Binds) (p' : Pc ι κ ν χ n) (hpc : s.pc c = p)
    (hpc' : s'.pc = update s.pc c p') (haff : s'.affinity = s.affinity) (hrq : s'.rq = s.rq)
    (hp : (p'.rebinds, p'.pushes, p'.next) = (p.rebinds, none, none))
    (hcur : s'.current = s.current := by exact rfl) : s'.Binds ∧ s.Chooses s' c := by
  simp only [Prod.mk.injEq] at hp
  obtain ⟨h1, h2, h3⟩ := hp
  refine h.keep p' hpc hpc' haff (fun u d h0 => .inr ⟨hrq ▸ h0, h1.trans⟩) (fun u cpu h0 => ?_)
    (fun u h0 => ?_) fun d => .inl (congrFun hcur d)
  · cases h2.symm.trans h0
  · cases h3.symm.trans h0

/-- The task gets a new binding, while nobody is about to put it in a queue. -/
theorem Binds.bind (h : s.Binds) (p' : Pc ι κ ν χ n) (hpc : s.pc c = .held .locked)
    (hpc' : s'.pc = update s.pc c p') (hcur : s'.current = s.current)
    (haff : ∀ u, u ≠ t → s'.affinity u = s.affinity u ∧ s'.rq.queuedOn u = s.rq.queuedOn u)
    (ht : ∀ d, s'.rq.queuedOn t = some d → p'.rebinds = some t)
    (hno : ∀ d cpu, (s.pc d).pushes ≠ some (t, cpu)) (hp : (p'.pushes, p'.next) = (none, none)) :
    s'.Binds ∧ s.Chooses s' c := by
  simp only [Prod.mk.injEq] at hp
  have hpcc : s'.pc c = p' := by rw [hpc', update_self]
  have hpcd (d : Cpu n) (hd : d ≠ c) : s'.pc d = s.pc d := by rw [hpc', update_of_ne hd]
  refine ⟨⟨fun u d h0 => ?_, fun d u cpu h0 => ?_⟩, fun u h0 => ?_, fun d => .inl (by rw [hcur])⟩
  · by_cases hu : u = t
    · exact .inr ⟨c, by rw [hpcc, hu, ht d (hu ▸ h0)]⟩
    · rw [(haff u hu).2] at h0
      rw [MayRun, (haff u hu).1]
      refine (h.queued u d h0).imp_right fun ⟨e, he⟩ => ⟨e, ?_⟩
      have hec : e ≠ c := by
        rintro rfl
        rw [hpc] at he
        cases he
      rw [hpcd e hec, he]
  · have hd : d ≠ c := by
      rintro rfl
      rw [hpcc, hp.1] at h0
      cases h0
    rw [hpcd d hd] at h0
    have hu : u ≠ t := fun hu => hno d cpu (hu ▸ h0)
    rw [MayRun, (haff u hu).1]
    exact h.push d u cpu h0
  · rw [hpcc, hp.2] at h0
    cases h0

/-- A task that somebody else is about to put in a queue, without the scheduler lock, is
unsettled. -/
theorem Owned.unsettled_of_pushes (ho : s.Owned own) (hpc : s.pc c = .held .locked) {cpu : Cpu n}
    (hd : (s.pc d).pushes = some (t, cpu)) : s.Unsettled t := by
  cases hp : s.pc d with
  | push u cpu' r =>
    rw [hp] at hd
    obtain ⟨rfl, -⟩ := Prod.mk.inj (Option.some.inj hd)
    cases r with
    | moved a => exact ⟨d, .inl ⟨cpu', a, hp⟩⟩
    | _ =>
      have hdc : d = c := ho.sched_unique (by rw [holdsSched, hp]; rfl) (by rw [holdsSched, hpc]; rfl)
      rw [← hdc, hp] at hpc
      cases hpc
  | _ =>
    rw [hp] at hd
    cases hd

theorem Owned.pushes_ne (ho : s.Owned own) (ht : own t = .absent) (d cpu : Cpu n) :
    (s.pc d).pushes ≠ some (t, cpu) := by
  intro hd
  have hhand : (s.pc d).hand = some t := by
    cases hp : s.pc d <;> rw [hp] at hd <;> cases hd
    rfl
  cases (((ho.cpu d).hand t).1 hhand).symm.trans ht

theorem Binds.placeMoving (h : s.Binds) (hpc : s.pc c = p) (hp : p.rebinds = none)
    {moving : Option ι} {a : After κ ν χ}
    (hs : (s'.pc, s'.affinity, s'.rq, s'.current) = (s.pc, s.affinity, s.rq, s.current)) :
    (s'.placeMoving c moving a).Binds ∧ s.Chooses (s'.placeMoving c moving a) c := by
  obtain ⟨p', hp', hq⟩ := s'.placeMoving_pc c moving a
  simp only [Prod.mk.injEq] at hq hs
  obtain ⟨-, -, -, -, -, -, -, -, -, -, h1, h2, h3⟩ := hq
  obtain ⟨h4, h5, h6, h7⟩ := hs
  exact h.onward p' hpc (h4 ▸ hp') h5 h6 (by rw [h1, h2, h3, hp]) h7

variable [DecidableEq ι]

theorem Binds.commit (h : s.Binds) {hold : Bool} {next : ι} {a : After κ ν χ}
    (hpc : s.pc c = .commit hold next a) :
    (s.commit c hold next a).Binds ∧ s.Chooses (s.commit c hold next a) c := by
  have hno (u : ι) : (Pc.commit hold next a : Pc ι κ ν χ n).rebinds = some u →
      (Pc.switch (s.current c) a : Pc ι κ ν χ n).rebinds = some u := nofun
  refine h.keep (.switch (s.current c) a) hpc rfl rfl (fun u d h0 => ?_) nofun nofun fun d => ?_
  · rw [commit_rq] at h0
    rcases s.leavesTo_cases c with ⟨h1, -⟩ | ⟨h1, -, -, h2⟩ | ⟨h1, -⟩ | ⟨h1, -⟩ <;>
      simp only [h1, reduceCtorEq, if_false, if_true] at h0
    · exact .inr ⟨h0, hno u⟩
    · by_cases hu : u = s.current c
      · rw [hu, rqPush_queuedOn, update_self] at h0
        cases h0
        rw [hu]
        simp only [mayStay, Bool.and_eq_true, Bool.or_eq_true, decide_eq_true_eq] at h2
        exact .inl h2.2
      · rw [rqPush_queuedOn, update_of_ne hu] at h0
        exact .inr ⟨h0, hno u⟩
    · exact .inr ⟨h0, hno u⟩
    · exact .inr ⟨h0, hno u⟩
  · by_cases hd : d = c
    · exact .inr ⟨hd, congrArg some (update_self c next s.current).symm⟩
    · exact .inl (update_of_ne hd _ _)

variable [DecidableEq κ] [DecidableEq χ] {R : Rule κ ν χ}

theorem Binds.acts {act : Act ι κ ν χ n} (h : s.Binds) (ho : s.Owned own) (ha : s.Acts R c act s')
    (hact : s.Settled (c, act)) : s'.Binds ∧ s.Chooses s' c := by
  cases ha with
  | join => exact ⟨⟨h.queued, h.push⟩, fun _ => .inl, fun _ => .inl rfl⟩
  | walk p' hw =>
    have hl := hw.layout
    have hf := hw.face
    simp only [layout, Pc.face, Prod.mk.injEq] at hl hf
    obtain ⟨h1, -, -, -, -, -, -, -, -, h2⟩ := hl
    obtain ⟨-, -, -, -, -, h3, h4⟩ := hf
    exact h.keep p' hw.before hw.pc h2 (fun u d h0 => .inr ⟨h1 ▸ h0, h3.trans⟩) hw.pushes
      (fun u h0 => .inl (h4.symm.trans h0)) fun d => .inl (congrFun (congrArg Prod.fst hw.fields) d)
  | call hpc => exact h.onward (.sleep _) hpc rfl rfl rfl rfl
  | block hpc hp =>
    have h0 := hp.1
    simp only [Pc.face, Prod.mk.injEq] at h0
    exact h.onward (.release _ false) hpc rfl rfl rfl (by rw [h0.2.2.2.2.2.1]; rfl)
  | leave ht hp _ _ _ hs =>
    simp only [layout, Pc.face, Prod.mk.injEq] at hs hp
    obtain ⟨h1, -, -, -, -, -, -, -, -, h2⟩ := hs
    exact h.onward _ ht.before ht.pc h2 h1 (by rw [hp.2.2.2.2.2.1]; rfl) (congrArg Prod.fst ht.fields)
  | depart hpc => exact h.onward (.schedule true _) hpc rfl rfl rfl rfl
  | wakeup ch hpc => exact h.onward (.wakeup ..) hpc rfl rfl rfl rfl
  | pass ch rest k hpc => exact h.onward (.wakeup ch rest k) hpc rfl rfl rfl rfl
  | wakeupDone hpc => exact h.onward (.held _) hpc rfl rfl rfl rfl
  | @wake t p r k kill stop hpc hp =>
    rw [wakeTask, sleeperRemove]
    rcases hp with ⟨rfl, rfl⟩ | ⟨ch, rest, rfl, rfl⟩ <;> split <;>
      exact h.onward (.place t _) hpc rfl rfl rfl rfl
  | assign k b _ hpc =>
    rw [State.assign]
    rcases hpc with hpc | ⟨k, hpc⟩ <;> split_ifs <;>
      exact h.onward _ hpc (hpc ▸ update_eq_self c s.pc).symm rfl rfl rfl
  | @bind t d cpu hset hpc ht =>
    subst hset
    exact h.bind (t := t) (.requeue t) hpc rfl rfl (fun u hu => ⟨update_of_ne hu _ _, rfl⟩)
      (fun _ _ => rfl) (fun e i h0 => hact (ho.unsettled_of_pushes hpc h0)) rfl
  | @rebound t hpc ht =>
    refine h.keep (.held .locked) hpc rfl rfl (fun u d h0 => ?_) nofun nofun
    by_cases hu : u = t
    · exact .inl (hu ▸ ht d (hu ▸ h0))
    · exact .inr ⟨h0, fun h1 => absurd (Option.some.inj h1).symm hu⟩
  | @add t affinity priority hpc ht hi =>
    have habs : own t = .absent := by
      by_contra h0
      exact ht ((ho.task t).tasks.2 ⟨h0, hi⟩)
    refine h.bind (t := t) (.place t .created) hpc rfl rfl
      (fun u hu => ⟨update_of_ne hu _ _, update_of_ne hu _ _⟩) (fun d h0 => ?_) (ho.pushes_ne habs) rfl
    cases (update_self ..).symm.trans h0
  | unlinkZombie hpc =>
    exact h.onward (.held .locked) hpc (hpc ▸ update_eq_self c s.pc).symm rfl rfl rfl
  | @push t cpu r hpc =>
    have hr := r.pc_eq n _ rfl
    simp only [Prod.mk.injEq] at hr
    obtain ⟨-, -, -, -, -, -, -, -, -, -, -, h2, h3⟩ := hr
    refine h.keep r.pc hpc rfl rfl (fun u d h0 => ?_) (fun u cpu h0 => ?_) fun u h0 => ?_
    · by_cases hu : u = t
      · rw [hu, rqPush_queuedOn, update_self] at h0
        cases h0
        exact .inl (hu ▸ h.push c t cpu (by rw [hpc]; rfl))
      · rw [rqPush_queuedOn, update_of_ne hu] at h0
        exact .inr ⟨h0, nofun⟩
    · cases h2.symm.trans h0
    · cases h3.symm.trans h0
  | @take t d p p' lock lists m₁ m₂ hl hm hfree hw ht hp ha hr =>
    simp only [Prod.mk.injEq] at hp
    obtain ⟨-, h1, -, -, -, -, -, -, -, h2⟩ := hp
    refine h.keep p' ht.before rfl rfl (fun u e h0 => ?_) (fun u cpu h0 => ?_) fun u h0 => ?_
    · by_cases hu : u = t
      · rw [hu, rqUnlink_queuedOn, update_self] at h0
        cases h0
      · rw [rqUnlink_queuedOn, update_of_ne hu] at h0
        refine .inr ⟨h0, fun h3 => ?_⟩
        rcases hr with hr | hr
        · cases hr.symm.trans h3
        · exact absurd (Option.some.inj (hr.symm.trans h3)).symm hu
    · cases h2.symm.trans h0
    · have hut : u = t := by
        cases p' <;> cases h0
        exact Option.some.inj h1
      rcases hw with rfl | hw | hw
      · refine .inr (h.queued u d ((hl.queued d u).1 ?_))
        rw [hm, hut]
        exact List.mem_append_right _ List.mem_cons_self
      · exact .inr (.inl (.inl (hut ▸ hw)))
      · cases hw.symm.trans h0
  | takeIdle hpc =>
    refine h.keep (.commit ..) hpc rfl rfl (fun u d h0 => .inr ⟨h0, nofun⟩) nofun fun u h0 => ?_
    cases h0
    exact .inr (.inl (.inr (ho.cpu c).bound))
  | @give t target lists m₁ m₂ hpc hl hm hw =>
    refine h.keep .tock hpc rfl rfl (fun u d h0 => ?_) nofun nofun
    by_cases hu : u = t
    · exact .inl (.inl (hu ▸ hw))
    · simp only [rqPush_queuedOn, rqUnlink_queuedOn, update_of_ne hu] at h0
      exact .inr ⟨h0, nofun⟩
  | commit hpc => exact h.commit hpc
  | ctxSwitch saved hpc => exact h.onward (.finish _) hpc rfl rfl rfl rfl
  | @finishSwitch a hpc =>
    simp only [finishSwitch]
    split_ifs
    · exact h.onward (.finishSched (s.moving c) a) hpc rfl rfl rfl rfl
    · exact h.placeMoving hpc rfl rfl
  | finishSched hpc => exact h.placeMoving hpc rfl rfl

end State

variable [DecidableEq ι] [DecidableEq κ] [DecidableEq ν] [DecidableEq χ]

/-- The task that left CPU 0 is bound to it again before it has joined the queue of CPU 1. -/
def bindBack : List (Event (Fin 3) Empty Empty Empty 1) :=
  let go : Act (Fin 3) Empty Empty Empty 1 := .go ⟨fun _ => 0, fun _ => 0, 0⟩
  bindToOther ++ [(0, go), (1, .lockSched), (1, .setAffinity 0 (some 0)), (1, go), (1, .unlockSched),
    (0, go)]

end Bashket.Sched
