import Bashket.Sched.Ownership

/-!
# The switch of tasks

`schedule` commits to the next task, `ctx_switch` changes stacks, and `finish_switch` releases what
was held across the switch. The old task goes to the back of the queue, is put aside, or is asleep;
the next one runs.
-/

namespace Bashket.Sched

open Function (update update_of_ne update_self)

variable {ι κ ν χ : Type*} {n : ℕ}

namespace State

variable {s : State ι κ ν χ n} {own : ι → Place n} {c d : Cpu n} {t next old : ι}
  {hold : Bool} {a : After κ ν χ} {moving : Option ι}

theorem Owned.hold_iff (h : s.Owned own) (hpc : s.pc c = .commit hold next a) :
    s.state (s.current c) = .running ↔ hold = false := by
  cases hold with
  | false => exact iff_of_true ((h.cpu c).running (by rw [hpc]; rfl)) rfl
  | true =>
    refine iff_of_false (fun h0 => ?_) nofun
    have h1 := ((h.cpu c).away (by rw [hpc]; rfl)).1
    rw [h0] at h1
    rcases h1 with h1 | h1 | h1 <;> cases h1

theorem Owned.commit_next (h : s.Owned own) (hpc : s.pc c = .commit hold next a) :
    own next = .hand c ∧ next ≠ s.current c := by
  have hnext : own next = .hand c := ((h.cpu c).hand next).1 (by rw [hpc]; rfl)
  exact ⟨hnext, h.ne_current (by rw [hnext]; nofun)⟩

variable [DecidableEq ι]

/-! ### From the old task to the next -/

/-- Where the old task goes when its CPU switches away from it. -/
def leavesTo (s : State ι κ ν χ n) (c : Cpu n) : Place n :=
  if s.state (s.current c) = .running then
    if s.current c = s.idle c then .idle
    else if s.mayStay c = true then .queued c else .moving c
  else .asleep

/-- Where the tasks are once the CPU has committed to the next task. -/
def switched (s : State ι κ ν χ n) (own : ι → Place n) (c : Cpu n) (next : ι) : ι → Place n :=
  update (update own (s.current c) (s.leavesTo c)) next (.running c)

theorem leavesTo_cases (s : State ι κ ν χ n) (c : Cpu n) :
    (s.leavesTo c = .idle ∧ s.state (s.current c) = .running ∧ s.current c = s.idle c) ∨
    (s.leavesTo c = .queued c ∧ s.state (s.current c) = .running ∧ s.current c ≠ s.idle c ∧
      s.mayStay c = true) ∨
    (s.leavesTo c = .moving c ∧ s.state (s.current c) = .running ∧ s.current c ≠ s.idle c ∧
      s.mayStay c = false) ∨
    (s.leavesTo c = .asleep ∧ s.state (s.current c) ≠ .running) := by
  rw [leavesTo]
  by_cases hr : s.state (s.current c) = .running
  · by_cases hi : s.current c = s.idle c
    · left
      rw [if_pos hr, if_pos hi]
      exact ⟨rfl, hr, hi⟩
    · cases hm : s.mayStay c <;> simp [hr, hi]
  · simp [hr]

theorem leavesTo_near (s : State ι κ ν χ n) (c : Cpu n) : (s.leavesTo c).Near c ∧
    s.leavesTo c ≠ .running c ∧ s.leavesTo c ≠ .hand c ∧ s.leavesTo c ≠ .absent := by
  rcases s.leavesTo_cases c with ⟨h, -⟩ | ⟨h, -⟩ | ⟨h, -⟩ | ⟨h, -⟩ <;> rw [h] <;>
    exact ⟨by trivial, nofun, nofun, nofun⟩

theorem switched_cases (s : State ι κ ν χ n) (own : ι → Place n) (c : Cpu n) (next t : ι) :
    t = next ∧ s.switched own c next t = .running c ∨
    t ≠ next ∧ t = s.current c ∧ s.switched own c next t = s.leavesTo c ∨
    t ≠ next ∧ t ≠ s.current c ∧ s.switched own c next t = own t := by
  by_cases h2 : t = next
  · subst h2
    exact .inl ⟨rfl, update_self ..⟩
  · rw [switched, update_of_ne h2]
    by_cases h1 : t = s.current c
    · subst h1
      exact .inr (.inl ⟨h2, rfl, update_self ..⟩)
    · exact .inr (.inr ⟨h2, h1, update_of_ne h1 _ _⟩)

theorem commit_state_old (h : next ≠ s.current c) : (s.commit c hold next a).state (s.current c) =
    if s.state (s.current c) = .running then .ready else s.state (s.current c) := by
  simp only [State.commit, update_of_ne h.symm]
  split_ifs
  · rw [update_self]
  · rfl

theorem commit_rq : (s.commit c hold next a).rq =
    if s.leavesTo c = .queued c then rqPush s.rq c (s.current c) else s.rq := by
  simp only [State.commit]
  rcases s.leavesTo_cases c with ⟨h, h1, h2⟩ | ⟨h, h1, h2, h3⟩ | ⟨h, h1, h2, h3⟩ | ⟨h, h1⟩ <;>
    simp_all

theorem commit_moving : (s.commit c hold next a).moving =
    if s.leavesTo c = .moving c then update s.moving c (some (s.current c)) else s.moving := by
  simp only [State.commit]
  rcases s.leavesTo_cases c with ⟨h, h1, h2⟩ | ⟨h, h1, h2, h3⟩ | ⟨h, h1, h2, h3⟩ | ⟨h, h1⟩ <;>
    simp_all

theorem commit_kept (h1 : t ≠ next) (h2 : t ≠ s.current c) : s.Kept (s.commit c hold next a) t := by
  refine ⟨?_, ?_, Iff.rfl, rfl⟩
  · simp only [State.commit, update_of_ne h1]
    split_ifs
    · rw [update_of_ne h2]
    · rfl
  · simp only [State.commit]
    split_ifs
    · rw [rqPush_queuedOn, update_of_ne h2]
    · rfl

section Commit

variable (h : s.Owned own) (hpc : s.pc c = .commit hold next a)

include h hpc

theorem Owned.commit_cpu : (s.commit c hold next a).CpuOk (s.switched own c next) c := by
  have hc := h.cpu c
  obtain ⟨hnext, hne⟩ := h.commit_next hpc
  have hrun := h.hold_iff hpc
  have hpcc : (s.commit c hold next a).pc c = .switch (s.current c) a := update_self ..
  have hrel : (s.commit c hold next a).releaseSched c = hold := update_self ..
  have hcur : (s.commit c hold next a).current c = next := update_self ..
  have hmov : (s.commit c hold next a).moving c =
      if s.leavesTo c = .moving c then some (s.current c) else none := by
    rw [commit_moving]
    split_ifs
    · exact update_self ..
    · exact hc.moving_eq_none (by rw [hpc]; rfl)
  have hsched : (s.commit c hold next a).holdsSched c = hold := by
    rw [holdsSched, hpcc, hrel]
    rfl
  obtain ⟨-, hL1, hL2, -⟩ := s.leavesTo_near c
  have hcases := s.leavesTo_cases c
  refine ⟨⟨fun t => ?_, fun t => ?_, fun t => ?_⟩, ?_, ?_, fun _ _ => ?_, ?_, ?_, fun t ht => ?_,
    hc.bound⟩
  · rw [hcur]
    rcases s.switched_cases own c next t with ⟨h2, h0⟩ | ⟨h2, -, h0⟩ | ⟨h2, h1, h0⟩ <;> rw [h0]
    · exact iff_of_true h2.symm rfl
    · exact iff_of_false (Ne.symm h2) hL1
    · exact iff_of_false (Ne.symm h2) fun h3 => h1 ((hc.current t).2 h3).symm
  · rw [hmov]
    rcases s.switched_cases own c next t with ⟨h2, h0⟩ | ⟨h2, h1, h0⟩ | ⟨h2, h1, h0⟩ <;> rw [h0]
    · simp [h2, hne.symm]
    · simp [h1]
    · rw [← hc.moving t, hc.moving_eq_none (by rw [hpc]; rfl)]
      simp [Ne.symm h1]
  · rw [hpcc]
    refine iff_of_false nofun ?_
    rcases s.switched_cases own c next t with ⟨h2, h0⟩ | ⟨h2, h1, h0⟩ | ⟨h2, h1, h0⟩ <;> rw [h0]
    · nofun
    · exact hL2
    · rw [← hc.hand t, hpc]
      exact fun h3 => h2 (Option.some.inj h3).symm
  · rw [hpcc, hcur]
    have hst : (s.commit c hold next a).state next = .running := update_self ..
    rw [hst]
    exact .of_running rfl rfl
  · rcases s.switched_cases own c next (s.idle c) with ⟨h2, h0⟩ | ⟨h2, h1, h0⟩ | ⟨h2, h1, h0⟩
    · exact .inr (.inl h0)
    · -- an idle task does not sleep
      rcases hcases with ⟨h3, -⟩ | ⟨-, -, h3, -⟩ | ⟨-, -, h3, -⟩ | ⟨-, h3⟩
      · exact .inl (h0.trans h3)
      · exact absurd h1.symm h3
      · exact absurd h1.symm h3
      · rw [ne_eq, hrun, Bool.not_eq_false] at h3
        exact absurd h1.symm (hc.away (by rw [hpc]; exact h3)).2
    · refine hc.idle.imp h0.trans fun h3 => .inl (h0.trans (h3.resolve_right fun h4 => ?_))
      have h5 := (hc.hand _).2 h4.1
      rw [hpc] at h5
      exact h2 (Option.some.inj h5).symm
  · rw [hpcc]
    rfl
  · rw [hsched]
    exact hc.sched_iff hpc rfl
  · rw [hpcc]
    have h0 := hc.rqLock
    rwa [hpc] at h0
  · have hleft : (s.commit c hold next a).left c = some (s.current c) := update_self ..
    obtain rfl : s.current c = t := Option.some.inj (hleft.symm.trans ht)
    have h0 : s.switched own c next (s.current c) = s.leavesTo c := by
      rw [switched, update_of_ne hne.symm, update_self]
    rw [Leaving, hpcc, hsched, h0]
    refine ⟨rfl, ?_⟩
    rcases hcases with ⟨h3, h4, h5⟩ | ⟨h3, h4, -⟩ | ⟨h3, h4, -⟩ | ⟨h3, h4⟩ <;> rw [h3]
    · rw [hrun.1 h4]
      exact .inr (.inr ⟨h5, rfl⟩)
    · rw [hrun.1 h4]
      exact .inl rfl
    · rw [hrun.1 h4]
      exact .inr (.inl rfl)
    · rw [ne_eq, hrun, Bool.not_eq_false] at h4
      rw [h4]
      rfl

theorem Owned.commit_old : (s.commit c hold next a).TaskOk (s.switched own c next) (s.current c) := by
  obtain ⟨hnext, hne⟩ := h.commit_next hpc
  have hown := (h.cpu c).own_current
  have htk := h.task (s.current c)
  have hcases := s.leavesTo_cases c
  refine htk.moved (q := s.leavesTo c) ?_ rfl Iff.rfl (by rw [hown]; nofun) (s.leavesTo_near c).2.2.2
    (fun h0 => ?_) (fun d => ?_) ?_ fun h0 => ?_
  · rw [switched, update_of_ne hne.symm, update_self]
  · rcases hcases with ⟨-, -, h4⟩ | ⟨h4, -⟩ | ⟨h4, -⟩ | ⟨h4, -⟩
    · exact ⟨c, h4.symm⟩
    all_goals cases h4.symm.trans h0
  · rw [commit_rq]
    have hq : s.rq.queuedOn (s.current c) ≠ some d := by
      rw [ne_eq, htk.queued d, hown]
      nofun
    rcases hcases with ⟨h4, -⟩ | ⟨h4, -⟩ | ⟨h4, -⟩ | ⟨h4, -⟩ <;> simp [h4, hq]
  · rw [commit_state_old hne]
    rcases hcases with ⟨h4, h5, -⟩ | ⟨h4, h5, -⟩ | ⟨h4, h5, -⟩ | ⟨h4, h5⟩ <;> rw [h4]
    · exact if_pos h5
    · exact if_pos h5
    · exact if_pos h5
    · rw [if_neg h5]
      rw [ne_eq, h.hold_iff hpc, Bool.not_eq_false] at h5
      exact ((h.cpu c).away (by rw [hpc]; exact h5)).1
  · -- a timed sleeper leaves as one
    have hb := (htk.sleeping h0).1
    rw [commit_state_old hne, hb, if_neg nofun, leavesTo, hb, if_neg nofun]
    exact ⟨rfl, .inl rfl⟩

theorem Owned.commit_new : (s.commit c hold next a).TaskOk (s.switched own c next) next := by
  obtain ⟨hnext, hne⟩ := h.commit_next hpc
  have htk := h.task next
  refine htk.moved (q := .running c) (update_self ..) rfl Iff.rfl (by rw [hnext]; nofun) nofun nofun
    (fun d => iff_of_false ?_ nofun) trivial fun h0 => absurd ?_ h0
  · rw [commit_rq]
    have hq : s.rq.queuedOn next ≠ some d := by
      rw [ne_eq, htk.queued d, hnext]
      nofun
    split_ifs
    · rwa [rqPush_queuedOn, update_of_ne hne]
    · exact hq
  · exact htk.awake (by rw [hnext]; nofun) (by rw [hnext]; exact fun _ => nofun)

theorem Owned.commit : (s.commit c hold next a).Owned (s.switched own c next) := by
  have hc := h.cpu c
  obtain ⟨hnext, hne⟩ := h.commit_next hpc
  have hown := hc.own_current
  refine h.of_step (c := c) ⟨fun d hd => ?_, fun _ _ => Iff.rfl, rfl, fun _ => rfl⟩
    (fun t => t = next ∨ t = s.current c) (fun t ht => ?_) (fun t ht => ?_) (h.commit_cpu hpc) ?_
    ⟨h.timed.mem, h.timed.nodup⟩ h.nodup
  · rw [view, commit_moving]
    simp only [State.commit, update_of_ne hd, view]
    split_ifs
    · rw [update_of_ne hd]
    · rfl
  · rw [not_or] at ht
    refine ⟨?_, commit_kept ht.1 ht.2, fun h0 => ?_⟩
    · rw [switched, update_of_ne ht.1, update_of_ne ht.2]
    · have h3 := (hc.hand t).2 h0
      rw [hpc] at h3
      exact absurd (Option.some.inj h3).symm ht.1
  · rcases ht with rfl | rfl
    · have hsw : s.switched own c t t = .running c := update_self ..
      exact ⟨by rw [hnext, hsw]; exact ⟨rfl, rfl⟩, fun d hd => ⟨h.left_ne (.inl ⟨c, hnext⟩) d,
        h.idle_ne_of_near (.inr hnext) hd⟩, h.commit_new hpc⟩
    · have hsw : s.switched own c next (s.current c) = s.leavesTo c := by
        rw [switched, update_of_ne hne.symm, update_self]
      exact ⟨by rw [hown, hsw]; exact ⟨rfl, (s.leavesTo_near c).1⟩,
        fun d hd => ⟨h.left_ne (.inr (.inl ⟨c, hown⟩)) d, h.idle_ne_of_near (.inl hown) hd⟩,
        h.commit_old hpc⟩
  · obtain ⟨lists, hl⟩ := h.lists
    rw [commit_rq]
    split_ifs
    · exact ⟨_, hl.push (h.queuedOn_eq_none (by rw [hown]; exact fun _ => nofun))⟩
    · exact ⟨lists, hl⟩

end Commit

/-! ### The end of the switch -/

def settled (s : State ι κ ν χ n) :=
  (s.state, s.current, s.idle, s.affinity, s.rq, s.tasks, s.sleepers, s.sleepingOn)

omit [DecidableEq ι] in
/-- The tasks stay where they are, but for the one put aside, which the CPU takes in its hands. -/
theorem Owned.settle {s' : State ι κ ν χ n} {p : Pc ι κ ν χ n} {own' : ι → Place n} (h : s.Owned own)
    (hu : (s.pc c).unfinished = true) (hpc : s'.pc c = p)
    (hown : ∀ t, own' t = own t ∨ own t = .moving c ∧ own' t = .hand c) (hset : s'.settled = s.settled)
    (hview : ∀ d, d ≠ c → s'.view d = s.view d)
    (hsl : ∀ d, d ≠ c → (s'.schedLock = some d ↔ s.schedLock = some d))
    (haway : p.away = false) (hwakes : p.wakes = false) (hsleeps : p.sleeps = false)
    (hmc : ∀ t, s'.moving c = some t ↔ own' t = .moving c)
    (hms : s'.moving c = none ∨ p.switching = true) (hhand : ∀ t, p.hand = some t ↔ own' t = .hand c)
    (hsched : s'.schedLock = some c ↔ s'.holdsSched c = true)
    (hqueue : s'.rqLock c = if p.queue then some c else none)
    (hlv : ∀ t, s'.left c = some t → s'.Leaving own' c t) : s'.Owned own' := by
  simp only [settled, Prod.mk.injEq] at hset
  obtain ⟨hstate, hcur, hidle, haff, hrq, htasks, hslp, hon⟩ := hset
  have hc := h.cpu c
  obtain ⟨haw, hwk, hpl⟩ : (s.pc c).away = false ∧ (s.pc c).wakes = false ∧
      (s.pc c).places = (s.pc c).hand := by
    revert hu
    cases s.pc c <;> simp [Pc.unfinished, Pc.away, Pc.wakes, Pc.places, Pc.hand]
  have hkeep (t : ι) (ht : own t ≠ .moving c) : own' t = own t :=
    (hown t).resolve_right fun h0 => ht h0.1
  have hnidle (d : Cpu n) : own (s.idle d) ≠ .moving c := fun h0 => h.idle_ne (.inr h0) d rfl
  refine h.of_step ⟨hview, hsl, hidle, fun _ => by rw [haff]⟩ (own · = .moving c)
    (fun t ht => ⟨hkeep t ht, ⟨by rw [hstate], by rw [hrq], by rw [htasks], by rw [hon]⟩,
      fun _ => by rw [hpc, hwakes, hwk]⟩) (fun t ht => ?_)
    ⟨⟨fun t => ?_, hmc, ?_⟩, ?_, ?_, fun t ht => ?_, hsched, ?_, hlv, ?_⟩ (hrq ▸ h.lists)
    ⟨hslp ▸ hon ▸ h.timed.mem, hslp ▸ h.timed.nodup⟩ (htasks ▸ h.nodup)
  · have htk := h.task t
    have hto : own' t = .moving c ∨ own' t = .hand c := (hown t).imp ht.subst And.right
    refine ⟨?_, fun d hd => ⟨fun h0 => ?_, h.idle_ne (.inr ht) d⟩,
      htk.moved rfl hidle (by rw [htasks]) (by rw [ht]; nofun) ?_ ?_ (fun d => ?_) ?_ fun h0 => ?_⟩
    · rcases hto with h0 | h0 <;> rw [ht, h0] <;> exact ⟨rfl, rfl⟩
    · -- what another CPU is leaving is not put aside here
      obtain ⟨-, h1⟩ := (h.cpu d).left t h0
      rw [ht] at h1
      split at h1
      · cases h1
      · simp only [reduceCtorEq, Place.moving.injEq, and_false, or_false, false_or] at h1
        exact hd h1.symm
    · rcases hto with h0 | h0 <;> rw [h0] <;> nofun
    · rcases hto with h0 | h0 <;> rw [h0] <;> nofun
    · rw [hrq, htk.queued d, ht]
      rcases hto with h0 | h0 <;> simp [h0]
    · have hst := htk.state
      rw [ht] at hst
      rw [hstate]
      rcases hto with h0 | h0 <;> rw [h0, Fits]
      · exact hst
      · rw [hpc, hwakes]
        exact hst
    · rw [hon, htk.awake (by rw [ht]; nofun) (by rw [ht]; exact fun _ => nofun)] at h0
      exact absurd rfl h0
  · rw [hcur, hc.current]
    rcases hown t with h0 | ⟨h0, h1⟩
    · rw [h0]
    · rw [h0, h1]
      exact iff_of_false nofun nofun
  · rw [hpc]
    exact hhand
  · rw [hpc, hcur, hstate, hc.running haw]
    exact .of_running haway hsleeps
  · rw [hidle, hkeep _ (hnidle c)]
    refine hc.idle.imp_right fun h0 => .inl (h0.resolve_right fun h1 => ?_)
    rw [hpl, (hc.hand _).2 h1.1] at h1
    cases h1.2
  · rw [hpc]
    refine hms.resolve_left fun h0 => ?_
    cases h0.symm.trans ht
  · rw [hpc]
    exact hqueue
  · rw [haff, hidle]
    exact hc.bound

omit [DecidableEq ι] in
theorem Owned.ctxSwitch (h : s.Owned own) (hpc : s.pc c = .switch old a) (saved : ι → After κ ν χ)
    (b : After κ ν χ) :
    State.Owned { s with saved := saved, pc := update s.pc c (.finish b) } own := by
  have hc := h.cpu c
  have hsched : State.holdsSched { s with saved := saved, pc := update s.pc c (.finish b) } c
      = s.holdsSched c := by
    rw [holdsSched, holdsSched, hpc]
    simp only [update_self]
    rfl
  refine h.settle (p := .finish b) (by rw [hpc]; rfl) (update_self ..) (fun _ => .inl rfl) rfl
    (fun d hd => ?_) (fun _ _ => Iff.rfl) rfl rfl rfl hc.moving (.inr rfl) ?_ ?_ ?_ fun t ht => ?_
  · simp only [view, update_of_ne hd]
  · have h0 := hc.hand
    rwa [hpc] at h0
  · rw [hsched]
    exact hc.sched
  · have h0 := hc.rqLock
    rwa [hpc] at h0
  · have h0 := hc.left t ht
    rw [Leaving] at h0 ⊢
    rw [hsched]
    refine ⟨?_, h0.2⟩
    simp only [update_self]
    rfl

omit [DecidableEq ι] in
theorem placeMoving_pc (s : State ι κ ν χ n) (c : Cpu n) (moving : Option ι) (a : After κ ν χ) :
    ∃ p, (s.placeMoving c moving a).pc = update s.pc c p ∧
      (p.away, p.wakes, p.hand, p.sched, p.queue, p.switching, p.sleeps, p.lock, p.call, p.walk,
        p.rebinds, p.pushes, p.next) =
        (false, false, moving, false, false, false, false, none, none, none, none, none, none) := by
  refine ⟨_, rfl, ?_⟩
  cases moving with
  | some t => rfl
  | none => cases a <;> rfl

theorem Owned.finishSwitch (h : s.Owned own) (hpc : s.pc c = .finish a) :
    (s.finishSwitch c a).Owned fun t => if s.moving c = some t then .hand c else own t := by
  have hc := h.cpu c
  have hown (t : ι) : (if s.moving c = some t then Place.hand c else own t) = own t ∨
      own t = .moving c ∧ (if s.moving c = some t then Place.hand c else own t) = .hand c := by
    by_cases h0 : s.moving c = some t
    · exact .inr ⟨(hc.moving t).1 h0, if_pos h0⟩
    · exact .inl (if_neg h0)
  have hnomoving (t : ι) : (if s.moving c = some t then Place.hand c else own t) ≠ .moving c := by
    split_ifs with h0
    · nofun
    · rwa [ne_eq, ← hc.moving t]
  have hhand (t : ι) : s.moving c = some t ↔
      (if s.moving c = some t then Place.hand c else own t) = .hand c := by
    split_ifs with h0
    · exact iff_of_true h0 rfl
    · refine iff_of_false h0 ?_
      rw [← hc.hand t, hpc]
      nofun
  have hsched : s.schedLock = some c ↔ s.releaseSched c = true := by
    have h0 := hc.sched
    rwa [holdsSched, hpc] at h0
  rw [State.finishSwitch]
  cases hrel : s.releaseSched c with
  | true =>
    rw [if_pos rfl]
    refine h.settle (p := .finishSched (s.moving c) a) (by rw [hpc]; rfl) (update_self ..) hown rfl
      (fun d hd => ?_) (fun _ _ => Iff.rfl) rfl rfl rfl (fun t => iff_of_false ?_ (hnomoving t))
      (.inl (update_self ..)) hhand ?_ (update_self ..) fun t ht => ?_
    · simp only [view, setPc, update_of_ne hd]
    · simp only [setPc, update_self]
      nofun
    · simp only [setPc, holdsSched, update_self]
      exact iff_of_true (hsched.2 hrel) rfl
    · have h0 := hc.left t ht
      rw [Leaving, holdsSched, hpc] at h0
      have h1 : own t = .asleep := by simpa [Pc.switching, hrel] using h0.2
      simp only [Leaving, holdsSched, setPc, update_self]
      refine ⟨rfl, ?_⟩
      have h2 : s.moving c ≠ some t := by
        rw [ne_eq, hc.moving t, h1]
        nofun
      simp [Pc.switching, Pc.sched, h2, h1]
  | false =>
    obtain ⟨p, hp, hq⟩ := placeMoving_pc (State.mk ..) c (s.moving c) a
    simp only [Prod.mk.injEq] at hq
    obtain ⟨h1, h2, h3, h5, h6, h7, h8, -⟩ := hq
    rw [if_neg Bool.false_ne_true]
    refine h.settle (by rw [hpc]; rfl) (by rw [hp, update_self]) hown rfl (fun d hd => ?_)
      (fun _ _ => Iff.rfl) h1 h2 h8 (fun t => iff_of_false ?_ (hnomoving t)) (.inl (update_self ..))
      (fun t => by rw [h3]; exact hhand t) ?_ ?_ fun t ht => ?_
    · simp only [view, placeMoving, update_of_ne hd]
    · simp only [placeMoving, update_self]
      nofun
    · rw [holdsSched, hp, update_self, h7, h5]
      exact iff_of_false (fun h0 => by rw [hsched.1 h0] at hrel; cases hrel) Bool.false_ne_true
    · rw [h6]
      exact update_self ..
    · simp only [placeMoving, update_self] at ht
      cases ht

omit [DecidableEq ι] in
theorem Owned.finishSched (h : s.Owned own) (hpc : s.pc c = .finishSched moving a) :
    (State.placeMoving { s with schedLock := none } c moving a).Owned own := by
  have hc := h.cpu c
  have hheld : s.schedLock = some c := hc.sched.2 (by rw [holdsSched, hpc]; rfl)
  obtain ⟨p, hp, hq⟩ := placeMoving_pc { s with schedLock := none } c moving a
  simp only [Prod.mk.injEq] at hq
  obtain ⟨h1, h2, h3, h5, h6, h7, h8, -⟩ := hq
  refine h.settle (by rw [hpc]; rfl) (by rw [hp, update_self]) (fun _ => .inl rfl) rfl (fun d hd => ?_)
    (fun d hd => iff_of_false nofun ?_) h1 h2 h8 hc.moving
    (.inl (hc.moving_eq_none (by rw [hpc]; rfl))) (fun t => ?_) ?_ ?_ fun t ht => ?_
  · simp only [view, placeMoving, update_of_ne hd]
  · rw [hheld]
    exact fun h0 => hd (Option.some.inj h0).symm
  · rw [h3, ← hc.hand t, hpc]
    rfl
  · rw [holdsSched, hp, update_self, h7, h5]
    exact iff_of_false nofun Bool.false_ne_true
  · rw [h6]
    have h0 := hc.rqLock
    rwa [hpc] at h0
  · simp only [placeMoving, update_self] at ht
    cases ht

end State

end Bashket.Sched
