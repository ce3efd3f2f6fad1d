import Bashket.Sched.Steps

/-!
# Every step keeps the tasks in their places

Whatever a step does, the state fits a map of tasks to places afterwards.
-/

namespace Bashket.Sched

open List
open Function (update update_eq_self update_of_ne update_self)

variable {ι κ ν χ : Type*} {n : ℕ}

namespace State

variable {s s' : State ι κ ν χ n} {own : ι → Place n} {c d : Cpu n} {t : ι} {p p' : Pc ι κ ν χ n}
  {r : Ret ι κ ν χ} {k : Hold κ ν χ} {st : TaskState} {a : After κ ν χ} {hold : Bool}

/-! ### Steps that move no task -/

/-- Nothing is done to the tasks. -/
structure Still (s s' : State ι κ ν χ n) : Prop where
  state : s'.state = s.state := by exact rfl
  rq : s'.rq = s.rq := by exact rfl
  tasks : s'.tasks = s.tasks := by exact rfl
  sleepers : s'.sleepers = s.sleepers := by exact rfl
  sleepingOn : s'.sleepingOn = s.sleepingOn := by exact rfl

theorem Owned.onward (h : s.Owned own) (p' : Pc ι κ ν χ n) (hs : s.Turn s' c p p')
    (hf : (p'.hand, p'.places, p'.wakes, p'.away) = (p.hand, p.places, p.wakes, p.away))
    (hlv : p'.leaving = true → p.leaving = true)
    (hslp : p'.sleeps = true → s.current c ≠ s.idle c) (ht : s.Still s') :
    s'.Owned own := by
  simp only [Prod.mk.injEq] at hf
  obtain ⟨h1, h2, h3, h4⟩ := hf
  obtain ⟨hst, hrq, htasks, hsl, hon⟩ := ht
  refine h.quiet hs h1 h2 h3 ?_ (fun u _ => by rw [hst]) hrq htasks
    ⟨hsl ▸ hon ▸ h.timed.mem, hsl ▸ h.timed.nodup⟩ (fun u _ => by rw [hon]) fun h0 => ?_
  · rw [hst]
    exact (hs.before ▸ (h.cpu c).toSuits).onward h4 hlv hslp
  · rw [hon] at h0
    rw [hst]
    exact ((h.task _).sleeping h0).1

theorem Owned.walk (h : s.Owned own) (hw : s.Walk s' c p p') : s'.Owned own := by
  have hf := hw.face
  have hl := hw.layout
  simp only [Pc.face, layout, Prod.mk.injEq] at hf hl
  obtain ⟨h1, h2, h3, h4, h5, -⟩ := hf
  obtain ⟨g1, g2, g3, g4, -⟩ := hl
  refine h.onward p' hw.toTurn ?_ h5.symm.trans hw.sleeps ⟨hw.state, g1, g2, g3, g4⟩
  rw [h1, h2, h3, h4]

variable [DecidableEq ι]

theorem Owned.setAway (h : s.Owned own) (p' : Pc ι κ ν χ n) (hs : s.Turn s' c p p')
    (hp : p.face = (none, none, false, false, false, none, none))
    (hp' : (p'.hand, p'.places, p'.wakes, p'.away) = (none, none, false, true))
    (hi : s.current c ≠ s.idle c) (hst : s'.state = update s.state (s.current c) st) (haway : st.Away)
    (hlv : p'.leaving = true → st ≠ .blocked) (hrq : s'.rq = s.rq) (htasks : s'.tasks = s.tasks)
    (ht : s'.Timed) (hon : ∀ u, u ≠ s.current c → s'.sleepingOn u = s.sleepingOn u)
    (hself : s'.sleepingOn (s.current c) ≠ none → st = .blocked) : s'.Owned own := by
  simp only [Pc.face, Prod.mk.injEq] at hp hp'
  obtain ⟨h1, h2, h3, -⟩ := hp
  obtain ⟨g1, g2, g3, g4⟩ := hp'
  have hself' : s'.state (s.current c) = st := by rw [hst, update_self]
  refine h.quiet hs (g1.trans h1.symm) (g2.trans h2.symm) (g3.trans h3.symm) ?_ (fun u hne => ?_) hrq
    htasks ht hon fun h0 => hself'.trans (hself h0)
  · rw [hself']
    refine ⟨fun h0 => ?_, fun _ => ⟨haway, hi⟩, hlv, fun _ => hi⟩
    cases g4.symm.trans h0
  · rw [hst, update_of_ne hne]

theorem Timed.sleeperAdd (h : s.Timed) (hn : s.sleepingOn t = none) (key : ℕ) :
    (s.sleeperAdd t c key).Timed := by
  have hnot (d : Cpu n) : t ∉ s.sleepers d := fun h0 => by
    rw [h.mem d t h0] at hn
    cases hn
  have hperm : ((s.sleepers c).takeWhile (fun u => s.sleepKey u ≤ key) ++
      t :: (s.sleepers c).dropWhile fun u => s.sleepKey u ≤ key).Perm (t :: s.sleepers c) := by
    refine perm_middle.trans (List.Perm.cons t ?_)
    rw [takeWhile_append_dropWhile]
  refine ⟨fun d u hu => ?_, fun d => ?_⟩
  · simp only [State.sleeperAdd] at hu ⊢
    by_cases hd : d = c
    · subst hd
      rw [update_self, hperm.mem_iff, mem_cons] at hu
      by_cases hut : u = t
      · rw [hut, update_self]
      · rw [update_of_ne hut]
        exact h.mem d u (hu.resolve_left hut)
    · rw [update_of_ne hd] at hu
      have hut : u ≠ t := by
        rintro rfl
        exact hnot d hu
      rw [update_of_ne hut]
      exact h.mem d u hu
  · simp only [State.sleeperAdd]
    by_cases hd : d = c
    · subst hd
      rw [update_self]
      exact hperm.nodup_iff.2 (nodup_cons.2 ⟨hnot d, h.nodup d⟩)
    · rw [update_of_ne hd]
      exact h.nodup d

/-! ### Waking -/

theorem Timed.sleeperRemove (h : s.Timed) (t : ι) : ∃ f,
    s.sleeperRemove t = { s with sleepingOn := update s.sleepingOn t none, sleepers := f } ∧
    (∀ d u, u ∈ f d → update s.sleepingOn t none u = some d) ∧ ∀ d, (f d).Nodup := by
  rw [State.sleeperRemove]
  cases hon : s.sleepingOn t with
  | none =>
    have heq : update s.sleepingOn t none = s.sleepingOn := by
      rw [← hon]
      exact update_eq_self t _
    refine ⟨s.sleepers, ?_, fun d u hu => ?_, h.nodup⟩
    · rw [heq]
    · rw [heq]
      exact h.mem d u hu
  | some e =>
    refine ⟨_, rfl, fun d u hu => ?_, fun d => ?_⟩
    · by_cases hd : d = e
      · subst hd
        rw [update_self, (h.nodup d).mem_erase_iff] at hu
        rw [update_of_ne hu.1]
        exact h.mem d u hu.2
      · rw [update_of_ne hd] at hu
        have hut : u ≠ t := by
          rintro rfl
          rw [h.mem d u hu] at hon
          exact hd (Option.some.inj hon)
        rw [update_of_ne hut]
        exact h.mem d u hu
    · by_cases hd : d = e
      · subst hd
        rw [update_self]
        exact (h.nodup d).erase t
      · rw [update_of_ne hd]
        exact h.nodup d

theorem Owned.wakeTask (h : s.Owned own) (kill stop : ι → ℕ) (hpc : s.pc c = p)
    (hp : (p.hand, p.sched, p.queue, p.unfinished) = (none, true, false, false))
    (hr : (r.wakes, r.sched, r.away) = (true, true, p.away)) (hl : r.away = true → p.leaving = true)
    (hst : s.state t = .blocked ∨ s.state t = .stopped) (hne : t ≠ s.current c) :
    ∃ own, (State.wakeTask { s with killPending := kill, stopPending := stop } c t r).Owned own := by
  simp only [Prod.mk.injEq] at hp hr
  obtain ⟨h1, h2, h3, h4⟩ := hp
  obtain ⟨r1, r2, r3⟩ := hr
  have hheld : s.holdsSched c = true := by
    rw [holdsSched, hpc, Pc.switching_of_unfinished h4]
    exact h2
  have hown := h.asleep_of_away hheld (hpc ▸ h1) hne (h.ne_absent hst) (hst.imp id .inl)
  have htimed : State.Timed { s with killPending := kill, stopPending := stop } :=
    ⟨h.timed.mem, h.timed.nodup⟩
  obtain ⟨f, hf, hmem, hnd⟩ := htimed.sleeperRemove t
  rw [State.wakeTask, hf]
  refine ⟨_, h.grab (c := c) (t := t) (.place t r)
    { before := hpc, done := h4, sched := .keeps rfl (r2.trans h2.symm), queue := .keeps rfl h3.symm }
    h1 rfl (.inl (by rw [hown]; trivial)) (h.left_ne_of_asleep hheld (hpc ▸ h4) hown) r3 hl rfl
    (fun u hu => ⟨rfl, rfl, Iff.rfl, update_of_ne hu _ _⟩) ?_
    (h.queuedOn_eq_none (by rw [hown]; exact fun _ => nofun)) h.lists ?_ h.nodup (update_self ..)
    ⟨hmem, hnd⟩⟩
  · show if r.wakes then _ else _
    rw [r1]
    exact hst
  · rw [(h.task t).tasks, hown]
    exact ⟨fun h0 => h0.2, fun h0 => ⟨nofun, h0⟩⟩

/-! ### Moves between queues -/

theorem Owned.push (h : s.Owned own) {cpu : Cpu n} (hpc : s.pc c = .push t cpu r) :
    ∃ own, State.Owned { s with
      state := update s.state t .ready
      rq := rqPush s.rq cpu t
      pc := update s.pc c r.pc } own := by
  have hc := h.cpu c
  have hown : own t = .hand c := (hc.hand t).1 (by rw [hpc]; rfl)
  have hr := r.pc_eq n _ rfl
  simp only [Prod.mk.injEq] at hr
  obtain ⟨h1, h2, h4, -, h5, h6, h7, -⟩ := hr
  obtain ⟨lists, hl⟩ := h.lists
  have htk := h.task t
  refine ⟨_, h.move (q := .queued cpu) r.pc
    { before := hpc, done' := h1, sched := .keeps rfl h5, queue := .keeps rfl h6 } (by rw [hown]; rfl)
    trivial ⟨by rw [hown]; nofun, nofun⟩ ⟨by rw [hown]; nofun, nofun⟩ (fun u => ?_) (.inl hown)
    (fun d hd => ?_) (h.left_ne (.inl ⟨c, hown⟩)) h4
    (fun h0 => h4.symm.trans (Pc.away_of_leaving h0)) h7
    (fun u hu => ⟨update_of_ne hu _ _, update_of_ne hu _ _, Iff.rfl, rfl⟩)
    ⟨_, hl.push (h.queuedOn_eq_none (by rw [hown]; exact fun _ => nofun))⟩ h.nodup
    ⟨h.timed.mem, h.timed.nodup⟩ (htk.moved (update_self ..) rfl Iff.rfl (by rw [hown]; nofun) nofun
      nofun (fun d => ?_) (update_self ..) fun h0 => absurd ?_ h0)⟩
  · rw [h2]
    refine iff_of_false nofun fun h0 => ?_
    by_cases hut : u = t
    · rw [hut, update_self] at h0
      cases h0
    · rw [update_of_ne hut, ← hc.hand u, hpc] at h0
      exact hut (Option.some.inj h0).symm
  · -- an idle task is not put in a queue
    have hdc : d = c := by
      by_contra h0
      exact h.idle_ne_of_near (.inr hown) h0 hd
    subst hdc
    rcases hc.idle with h0 | h0 | ⟨-, h0⟩
    · cases (hd ▸ h0).symm.trans hown
    · cases (hd ▸ h0).symm.trans hown
    · rw [hpc] at h0
      cases h0
  · simp
  · exact htk.awake (by rw [hown]; nofun) (by rw [hown]; exact fun _ => nofun)

theorem Owned.takeQueued (h : s.Owned own) {m₁ : List ι} {lists : Cpu n → List ι} {m₂ : List ι}
    (hl : s.rq.Holds lists) (hm : lists d = m₁ ++ t :: m₂) (hfree : s.rqLock d = none)
    (hs : s.Turn s' c p p') (hh : p.hand = none) (hh' : p'.hand = some t) (ha : p'.away = p.away)
    (hlv : p'.leaving = false) (hsl : p'.sleeps = false) (hw : p'.wakes = false)
    (hrq : s'.rq = rqUnlink s.rq d m₁.getLast? t)
    (hf : (s'.state, s'.tasks, s'.sleepers, s'.sleepingOn) =
      (s.state, s.tasks, s.sleepers, s.sleepingOn)) : ∃ own, s'.Owned own := by
  simp only [Prod.mk.injEq] at hf
  obtain ⟨hst, htasks, hslp, hon⟩ := hf
  have hown : own t = .queued d :=
    ((h.task t).queued d).1 ((hl.queued d t).1 (by rw [hm]; simp))
  have htk := h.task t
  refine ⟨_, h.grab p' hs hh hh' (.inl (by rw [hown]; trivial)) (h.left_ne_of_queued hown (.inl hfree)) ha
    (fun h0 => ?_) hsl (fun u hu => ⟨by rw [hst], ?_, by rw [htasks], by rw [hon]⟩) ?_ ?_
    ⟨_, hrq ▸ hl.unlink hm⟩ ?_ (htasks ▸ h.nodup) ?_ ⟨hslp ▸ hon ▸ h.timed.mem, hslp ▸ h.timed.nodup⟩⟩
  · cases hlv.symm.trans h0
  · rw [hrq, rqUnlink_queuedOn, update_of_ne hu]
  · rw [hw, hst]
    have h0 := htk.state
    rwa [hown] at h0
  · rw [hrq, rqUnlink_queuedOn, update_self]
  · rw [htasks, htk.tasks, hown]
    exact ⟨fun h0 => h0.2, fun h0 => ⟨nofun, h0⟩⟩
  · rw [hon]
    exact htk.awake (by rw [hown]; nofun) (by rw [hown]; exact fun _ => nofun)

theorem Owned.takeIdle (h : s.Owned own) (hpc : s.pc c = .steal hold [] a)
    (hstay : s.mayStay c = false) :
    ∃ own, (s.setPc c (.commit hold (s.idle c) a)).Owned own := by
  have hc := h.cpu c
  have hne : s.current c ≠ s.idle c := by
    intro h0
    cases hold with
    | true => exact (hc.away (by rw [hpc]; rfl)).2 h0
    | false =>
      -- the idle task may always stay
      have hrun := hc.running (by rw [hpc]; rfl)
      have hb := hc.bound
      rw [← h0] at hb
      simp [mayStay, hrun, hb] at hstay
  have hown : own (s.idle c) = .idle := by
    rcases hc.idle with h0 | h0 | ⟨h0, -⟩
    · exact h0
    · exact absurd ((hc.current _).2 h0) hne
    · have h1 := (hc.hand _).2 h0
      rw [hpc] at h1
      cases h1
  have htk := h.task (s.idle c)
  refine ⟨_, h.grab (t := s.idle c) (.commit hold (s.idle c) a) { before := hpc } rfl rfl
    (.inr ⟨hown, rfl, rfl⟩) (fun d hd => ?_) rfl
    nofun rfl (fun _ _ => ⟨rfl, rfl, Iff.rfl, rfl⟩) ?_
    (h.queuedOn_eq_none (by rw [hown]; exact fun _ => nofun)) h.lists ?_ h.nodup
    (htk.awake (by rw [hown]; nofun) (by rw [hown]; exact fun _ => nofun))
    ⟨h.timed.mem, h.timed.nodup⟩⟩
  · obtain ⟨h1, h0⟩ := (h.cpu d).left _ hd
    rw [hown] at h0
    split at h0
    · cases h0
    · simp only [reduceCtorEq, and_true, false_or] at h0
      rw [← h.idle_injective h0, hpc] at h1
      cases h1
  · have h0 := htk.state
    rw [hown] at h0
    exact h0
  · refine htk.tasks.trans ?_
    rw [hown]
    exact ⟨fun h0 => h0.2, fun h0 => ⟨nofun, h0⟩⟩

theorem Owned.add (h : s.Owned own) {affinity : Option (Cpu n)} {priority : Priority}
    (hpc : s.pc c = .held .locked) (ht : t ∉ s.tasks) (hi : ∀ d, s.idle d ≠ t) :
    ∃ own, (s.add c t affinity priority).Owned own := by
  have hown : own t = .absent := by
    by_contra h0
    exact ht ((h.task t).tasks.2 ⟨h0, hi⟩)
  have hqn : s.rq.queuedOn t = none := h.queuedOn_eq_none (by rw [hown]; exact fun _ => nofun)
  have hrq : { s.rq with queuedOn := update s.rq.queuedOn t none } = s.rq := by
    rw [← hqn, update_eq_self]
  have hon := (h.task t).awake (by rw [hown]; nofun) (by rw [hown]; exact fun _ => nofun)
  refine ⟨_, h.grab (t := t) (.place t .created)
    { before := hpc, bound := fun d => update_of_ne (hi d) _ _ } rfl rfl
    (.inl (by rw [hown]; trivial)) (h.left_ne (.inr (.inr hown))) rfl nofun rfl
    (fun u hu => ⟨update_of_ne hu _ _, update_of_ne hu _ _, ?_, update_of_ne hu _ _⟩) (update_self ..)
    (update_self ..) ?_ (iff_of_true ?_ hi) ?_ (update_self ..) ⟨fun d u hu => ?_, h.timed.nodup⟩⟩
  · show u ∈ s.tasks ++ [t] ↔ _
    simp [hu]
  · obtain ⟨lists, hl⟩ := h.lists
    have hl' : Queues.Holds { s.rq with queuedOn := update s.rq.queuedOn t none } lists := by
      rw [hrq]
      exact hl
    exact ⟨lists, hl'⟩
  · exact mem_append_right _ (mem_singleton_self t)
  · exact h.nodup.append (nodup_singleton t) (by simpa using ht)
  · have h0 := h.timed.mem d u hu
    refine (update_of_ne ?_ _ _).trans h0
    rintro rfl
    cases hon.symm.trans h0

theorem Owned.give (h : s.Owned own) {target : Cpu n} (hpc : s.pc c = .give target)
    {m₁ : List ι} {lists : Cpu n → List ι} {m₂ : List ι} (hl : s.rq.Holds lists)
    (hm : lists c = m₁ ++ t :: m₂) :
    ∃ own, State.Owned { s with
      rq := rqPush (rqUnlink s.rq c m₁.getLast? t) target t
      rqLock := update s.rqLock c none
      pc := update s.pc c .tock } own := by
  have hown : own t = .queued c :=
    ((h.task t).queued c).1 ((hl.queued c t).1 (by rw [hm]; simp))
  have hloose : (own t).Loose := by rw [hown]; trivial
  have htk := h.task t
  refine ⟨_, h.move (t := t) (q := .queued target) .tock
    { before := hpc, queue := .drops rfl (update_self ..) rfl, queues := fun d hd => update_of_ne hd _ _ }
    (hloose.apart c).1 trivial ⟨(hloose.apart c).2.1, nofun⟩ ⟨(hloose.apart c).2.2, nofun⟩
    (fun u => iff_of_false nofun ?_) (.inr rfl)
    (fun d hd => absurd hd (h.idle_ne (c := c) (.inl hloose) d))
    (h.left_ne_of_queued hown (.inr (by rw [hpc]; rfl))) rfl nofun rfl
    (fun u hu => ⟨rfl, ?_, Iff.rfl, rfl⟩) ⟨_, (hl.unlink hm).push (update_self ..)⟩ h.nodup
    ⟨h.timed.mem, h.timed.nodup⟩ (htk.moved (update_self ..) rfl Iff.rfl (by rw [hown]; nofun) nofun
      nofun (fun d => ?_) ?_ fun h0 => absurd ?_ h0)⟩
  · by_cases hut : u = t
    · rw [hut, update_self]
      nofun
    · rw [update_of_ne hut, ← (h.cpu c).hand u, hpc]
      nofun
  · simp only [rqPush_queuedOn, rqUnlink_queuedOn, update_of_ne hu]
  · simp
  · have h0 := htk.state
    rwa [hown] at h0
  · exact htk.awake (by rw [hown]; nofun) (by rw [hown]; exact fun _ => nofun)

theorem Owned.unlinkZombie (h : s.Owned own) (hpc : s.pc c = .held .locked)
    (hz : s.state t = .zombie) (hne : t ≠ s.current c) :
    ∃ own, State.Owned { s with tasks := s.tasks.erase t } own := by
  by_cases ht : t ∈ s.tasks
  · have hheld : s.holdsSched c = true := by
      rw [holdsSched, hpc]
      rfl
    have htk := h.task t
    have hown := h.asleep_of_away hheld (by rw [hpc]; rfl) hne (htk.tasks.1 ht).1 (.inr (.inr hz))
    have hloose : (own t).Loose := by rw [hown]; trivial
    refine ⟨_, h.move (t := t) (q := .absent) (.held .locked)
      { before := hpc, pc := (hpc ▸ update_eq_self c s.pc).symm }
      (hloose.apart c).1 trivial ⟨(hloose.apart c).2.1, nofun⟩ ⟨(hloose.apart c).2.2, nofun⟩
      (fun u => iff_of_false nofun ?_) (.inr rfl)
      (fun d hd => absurd hd (h.idle_ne (c := c) (.inl hloose) d))
      (h.left_ne_of_asleep hheld (by rw [hpc]; rfl) hown) rfl id rfl
      (fun u hu => ⟨rfl, rfl, mem_erase_of_ne hu, rfl⟩) h.lists (h.nodup.erase t)
      ⟨h.timed.mem, h.timed.nodup⟩ ⟨fun d => ?_, ?_, ?_, ?_, fun h0 => ?_⟩⟩
    · by_cases hut : u = t
      · rw [hut, update_self]
        nofun
      · rw [update_of_ne hut, ← (h.cpu c).hand u, hpc]
        nofun
    · rw [update_self, htk.queued d, hown]
      exact iff_of_false nofun nofun
    · rw [update_self]
      nofun
    · rw [update_self]
      exact iff_of_false h.nodup.not_mem_erase fun h0 => h0.1 rfl
    · rw [update_self]
      exact .inr hz
    · cases hz.symm.trans (htk.sleeping h0).1
  · rw [erase_of_not_mem ht]
    exact ⟨own, h⟩

/-! ### Every step -/

omit [DecidableEq ι] in
theorem Owned.setOnline (h : s.Owned own) (online : Cpu n → Bool) :
    State.Owned { s with online := online } own := by
  refine ⟨fun d => ?_, fun t => ?_, h.lists, ⟨h.timed.mem, h.timed.nodup⟩, h.nodup, h.idle_injective⟩
  · have hd := h.cpu d
    exact ⟨hd.toSeats, hd.toSuits, hd.idle, hd.switching, hd.sched, hd.rqLock, hd.left, hd.bound⟩
  · have ht := h.task t
    exact ⟨ht.queued, ht.idle, ht.tasks, ht.state, ht.sleeping⟩

variable [DecidableEq κ] [DecidableEq χ] {R : Rule κ ν χ}

theorem Owned.acts {act : Act ι κ ν χ n} (h : s.Owned own) (ha : s.Acts R c act s') :
    ∃ own, s'.Owned own := by
  have hc := h.cpu c
  cases ha with
  | join online => exact ⟨own, h.setOnline online⟩
  | walk _ hw => exact ⟨own, h.walk hw⟩
  | call hpc _ hm => exact ⟨own, h.onward (.sleep _) { before := hpc } rfl id (fun _ => hm.1) {}⟩
  | depart hpc => exact ⟨own, h.onward (.schedule true _) { before := hpc } rfl nofun nofun {}⟩
  | rebound hpc => exact ⟨own, h.onward (.held .locked) { before := hpc } rfl id nofun {}⟩
  | wakeup ch hpc => exact ⟨own, h.onward (.wakeup ..) { before := hpc } rfl id nofun {}⟩
  | pass ch rest k hpc => exact ⟨own, h.onward (.wakeup ch rest k) { before := hpc } rfl id nofun {}⟩
  | wakeupDone hpc => exact ⟨own, h.onward (.held _) { before := hpc } rfl id nofun {}⟩
  | bind _ hpc ht =>
    have hi := ((h.task _).tasks.1 ht).2
    exact ⟨own, h.onward (.requeue _) { before := hpc, bound := fun d => update_of_ne (hi d) _ _ } rfl
      nofun nofun {}⟩
  | assign x b _ hpc =>
    rw [State.assign]
    rcases hpc with hpc | ⟨k, hpc⟩ <;> split_ifs <;> exact ⟨own, h.onward _
      { before := hpc, pc := (hpc ▸ update_eq_self c s.pc).symm } rfl id nofun {}⟩
  | block hpc hp hl hi _ hslp =>
    refine ⟨own, h.setAway (.release _ false)
      { before := hpc, done := hp.2.2, sched := hl, queue := .keeps rfl hp.2.1.symm }
      hp.1 rfl hi rfl (.inl rfl) nofun rfl rfl ?_ (fun u hu => ?_) fun _ => rfl⟩
    · rcases hslp with ⟨rfl, rfl⟩ | ⟨key, rfl, rfl⟩
      · exact ⟨h.timed.mem, h.timed.nodup⟩
      · have hrun : s.state (s.current c) = .running := by
          have h0 := hp.1
          simp only [Pc.face, Prod.mk.injEq] at h0
          exact hc.running (hpc ▸ h0.2.2.2.1)
        have hon : s.sleepingOn (s.current c) = none := by
          by_contra h0
          cases hrun.symm.trans ((h.task _).sleeping h0).1
        have h0 := h.timed.sleeperAdd (c := c) hon key
        exact ⟨h0.mem, h0.nodup⟩
    · rcases hslp with ⟨rfl, rfl⟩ | ⟨key, rfl, rfl⟩
      · rfl
      · exact update_of_ne hu _ _
  | leave ht hp hi hst hz hs =>
    simp only [layout, Prod.mk.injEq] at hs
    obtain ⟨g1, g2, g3, g4, -⟩ := hs
    refine ⟨own, h.setAway _ ht hp rfl hi hst (.inr hz) (fun _ => ?_) g1 g2
      ⟨g3 ▸ g4 ▸ h.timed.mem, g3 ▸ h.timed.nodup⟩ (fun u _ => by rw [g4]) fun h0 => ?_⟩
    · rcases hz with rfl | rfl <;> nofun
    · -- a task that runs is not a timed sleeper
      simp only [Pc.face, Prod.mk.injEq] at hp
      rw [g4] at h0
      cases (hc.running (ht.before ▸ hp.2.2.2.1)).symm.trans ((h.task _).sleeping h0).1
  | wake kill stop hpc hp hst hne =>
    rcases hp with ⟨rfl, rfl⟩ | ⟨ch, rest, rfl, rfl⟩ <;> exact h.wakeTask kill stop hpc rfl rfl id hst hne
  | add affinity priority hpc ht hi => exact h.add hpc ht hi
  | unlinkZombie hpc hz hne => exact h.unlinkZombie hpc hz hne
  | push hpc => exact h.push hpc
  | take p' hl hm hfree _ ht hp hw =>
    simp only [Prod.mk.injEq] at hp
    obtain ⟨h1, h2, -, h4, h5, h6, -⟩ := hp
    exact h.takeQueued hl hm hfree ht h1 h2 hw h4 h5 h6 rfl rfl
  | takeIdle hpc hstay => exact h.takeIdle hpc hstay
  | give hpc hl hm => exact h.give hpc hl hm
  | commit hpc => exact ⟨_, h.commit hpc⟩
  | ctxSwitch saved hpc => exact ⟨own, h.ctxSwitch hpc saved _⟩
  | finishSwitch hpc => exact ⟨_, h.finishSwitch hpc⟩
  | finishSched hpc => exact ⟨own, h.finishSched hpc⟩

theorem Owned.step [DecidableEq ν] (h : s.Owned own) (e : Event ι κ ν χ n) :
    ∃ own, (s.step R e).Owned own :=
  h.acts (step_acts h e)

end State

end Bashket.Sched
