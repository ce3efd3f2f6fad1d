import Bashket.Sched.Placement

/-!
# No wake-up is lost

A task that sleeps has found its condition false under a lock, which `sleep_on` releases only once
the task is BLOCKED under the scheduler lock. So a task that makes the condition true does it before
the sleeper looks, or after the sleeper is BLOCKED, and then its call of `sched_wakeup` is still to
come; and while the call walks the list of tasks no other task can fall asleep. `Waiting` is the
invariant of this argument.
-/

namespace Bashket.Sched

open Function (update update_eq_self update_of_ne update_self)

variable {ι κ ν χ : Type*} {n : ℕ}

theorem Pc.sched_of_walk {p : Pc ι κ ν χ n} (h : p.walk ≠ none) :
    p.sched = true ∧ p.switching = false := by
  cases p with
  | wakeup ch rest k => exact ⟨rfl, rfl⟩
  | place t r | push t cpu r => cases r <;> first | exact ⟨rfl, rfl⟩ | exact absurd rfl h
  | _ => exact absurd rfl h

theorem Pc.lock_of_call {p : Pc ι κ ν χ n} {a : Sleep κ ν χ} {l : ν} (h : p.call = some a)
    (hl : a.lock = .lock l) : p.lock = some l := by
  cases p with
  | sleep b =>
    cases h
    rw [Pc.lock, hl]
  | _ => cases h

namespace State

structure CpuWaiting (R : Rule κ ν χ) (s : State ι κ ν χ n) (c : Cpu n) : Prop where
  lock : ∀ l, (s.pc c).lock = some l → s.lockHolder l = some (s.current c)
  cond : ∀ a, (s.pc c).call = some a → ∀ k, a.cond = some k →
    s.cond k = false ∧ a.channel = some (R.chan k) ∧ ∃ l, R.lock k = some l ∧ a.lock = .lock l
  walk : ∀ ch rest, (s.pc c).walk = some (ch, rest) →
    ∀ t, s.state t = .blocked → s.waitChannel t = some ch → t ∈ rest

/-- Whoever waits for a condition that is true will be woken. -/
structure Waiting (R : Rule κ ν χ) (s : State ι κ ν χ n) : Prop where
  cpu : ∀ c, s.CpuWaiting R c
  chan : ∀ t k, s.waits t = some k → s.waitChannel t = some (R.chan k)
  owed : ∀ t k, s.state t = .blocked → s.waits t = some k → s.cond k = true →
    ∃ w, s.setter k = some w ∧ R.chan k ∈ s.owes w
  dead : ∀ w, s.state w = .zombie → s.owes w = [] ∨ ∃ c, s.current c = w ∧ (s.pc c).leaving = true

/-- The fields that say who sleeps, and for what, but for the locks. -/
def sleepLayout (s : State ι κ ν χ n) :=
  (s.current, s.state, s.waits, s.waitChannel, s.cond, s.owes, s.setter)

/-- A step of a CPU that neither puts a task to sleep nor changes a condition. -/
structure Calm (s s' : State ι κ ν χ n) (c : Cpu n) : Prop where
  current : ∀ d, d ≠ c → s'.current d = s.current d
  blocked : ∀ t, s'.state t = .blocked → s.state t = .blocked
  zombie : ∀ t, s'.state t = .zombie →
    s.state t = .zombie ∨ s'.current c = t ∧ (s'.pc c).leaving = true
  waits : ∀ t, s'.waits t = s.waits t ∧ s'.waitChannel t = s.waitChannel t ∨
    s'.waits t = none ∧ s'.waitChannel t = none
  cond : s'.cond = s.cond
  owes : s'.owes = s.owes
  setter : s'.setter = s.setter
  locks : ∀ d l, d ≠ c → s.lockHolder l = some (s.current d) →
    s'.lockHolder l = some (s.current d)

variable {R : Rule κ ν χ} {s s' : State ι κ ν χ n} {own : ι → Place n} {c d : Cpu n} {t : ι}
  {p p' : Pc ι κ ν χ n} {k : Hold κ ν χ} {ch : χ} {a : Sleep κ ν χ} {hold : Bool}

/-! ### Calm steps -/

theorem Calm.of_locks (h : s'.sleepLayout = s.sleepLayout)
    (hl : ∀ d l, d ≠ c → s.lockHolder l = some (s.current d) →
      s'.lockHolder l = some (s.current d)) : s.Calm s' c := by
  simp only [sleepLayout, Prod.mk.injEq] at h
  obtain ⟨h1, h2, h3, h4, h5, h6, h7⟩ := h
  exact ⟨fun d _ => by rw [h1], fun t ht => h2 ▸ ht, fun t ht => .inl (h2 ▸ ht),
    fun t => .inl ⟨by rw [h3], by rw [h4]⟩, h5, h6, h7, hl⟩

theorem Calm.of_eq (h : s'.sleepLayout = s.sleepLayout) (hl : s'.lockHolder = s.lockHolder) :
    s.Calm s' c :=
  .of_locks h fun _ _ _ h0 => hl ▸ h0

theorem Calm.of_state (hc : ∀ d, d ≠ c → s'.current d = s.current d)
    (hst : ∀ u st, st = .blocked ∨ st = .zombie → s'.state u = st → s.state u = st)
    (hw : s'.waits = s.waits) (hch : s'.waitChannel = s.waitChannel) (hcond : s'.cond = s.cond)
    (howes : s'.owes = s.owes) (hset : s'.setter = s.setter)
    (hl : ∀ d l, d ≠ c → s.lockHolder l = some (s.current d) →
      s'.lockHolder l = some (s.current d)) : s.Calm s' c :=
  ⟨hc, fun t => hst t _ (.inl rfl), fun t ht => .inl (hst t _ (.inr rfl) ht),
    fun t => .inl ⟨by rw [hw], by rw [hch]⟩, hcond, howes, hset, hl⟩

theorem Waiting.walk (h : s.Waiting R) (hs : s.Calm s' c) (hpc : s.pc d = p)
    (hp : p'.walk = none ∨ p'.walk = p.walk) : ∀ ch rest, p'.walk = some (ch, rest) →
      ∀ t, s'.state t = .blocked → s'.waitChannel t = some ch → t ∈ rest := by
  intro ch rest hw t hb hch
  rcases hp with hp | hp
  · cases hp.symm.trans hw
  refine (h.cpu d).walk ch rest (by rw [hpc, ← hp, hw]) t (hs.blocked t hb) ?_
  rcases hs.waits t with ⟨-, h0⟩ | ⟨-, h0⟩
  · exact h0 ▸ hch
  · cases h0.symm.trans hch

theorem Waiting.calm_walk (h : s.Waiting R) (p' : Pc ι κ ν χ n) (hs : s.Calm s' c) (hpc : s.pc c = p)
    (hpc' : s'.pc = update s.pc c p')
    (hlock : ∀ l, p'.lock = some l → s'.lockHolder l = some (s'.current c))
    (hcond : ∀ a, p'.call = some a → ∀ k, a.cond = some k →
      s.cond k = false ∧ a.channel = some (R.chan k) ∧ ∃ l, R.lock k = some l ∧ a.lock = .lock l)
    (hwalk : ∀ ch rest, p'.walk = some (ch, rest) →
      ∀ t, s'.state t = .blocked → s'.waitChannel t = some ch → t ∈ rest)
    (hdead : p.leaving = true → s.state (s.current c) = .zombie →
      s.owes (s.current c) = [] ∨ s'.current c = s.current c ∧ p'.leaving = true) :
    s'.Waiting R where
  cpu d := by
    by_cases hd : d = c
    · subst hd
      have hp : s'.pc d = p' := by rw [hpc', update_self]
      refine ⟨?_, ?_, ?_⟩ <;> rw [hp]
      · exact hlock
      · rw [hs.cond]
        exact hcond
      · exact hwalk
    · have hp : s'.pc d = s.pc d := by rw [hpc', update_of_ne hd]
      refine ⟨?_, ?_, ?_⟩ <;> rw [hp]
      · intro l hl
        rw [hs.current d hd]
        exact hs.locks d l hd ((h.cpu d).lock l hl)
      · rw [hs.cond]
        exact (h.cpu d).cond
      · exact h.walk hs rfl (.inr rfl)
  chan t k hk := by
    rcases hs.waits t with ⟨h0, h1⟩ | ⟨h0, -⟩
    · rw [h1]
      exact h.chan t k (h0 ▸ hk)
    · cases h0.symm.trans hk
  owed t k hb hk := by
    rw [hs.cond, hs.owes, hs.setter]
    rcases hs.waits t with ⟨h0, -⟩ | ⟨h0, -⟩
    · exact h.owed t k (hs.blocked t hb) (h0 ▸ hk)
    · cases h0.symm.trans hk
  dead w hw := by
    rw [hs.owes]
    rcases hs.zombie w hw with h0 | h0
    · rcases h.dead w h0 with h1 | ⟨d, rfl, h1⟩
      · exact .inl h1
      · by_cases hd : d = c
        · subst hd
          rw [hpc] at h1
          refine (hdead h1 h0).imp_right fun h2 => ⟨d, h2.1, ?_⟩
          rw [hpc', update_self]
          exact h2.2
        · refine .inr ⟨d, hs.current d hd, ?_⟩
          rw [hpc', update_of_ne hd]
          exact h1
    · exact .inr ⟨c, h0⟩

/-- To a place that is not on the way to sleep and, if it wakes tasks, with the same ones to look
at. -/
theorem Waiting.calm (h : s.Waiting R) (p' : Pc ι κ ν χ n) (hs : s.Calm s' c) (hpc : s.pc c = p)
    (hpc' : s'.pc = update s.pc c p') (hq : (p'.lock, p'.call) = (none, none))
    (hwalk : p'.walk = none ∨ p'.walk = p.walk)
    (hlv : p.leaving = false ∨ s'.current c = s.current c ∧ p'.leaving = p.leaving) :
    s'.Waiting R := by
  simp only [Prod.mk.injEq] at hq
  refine h.calm_walk p' hs hpc hpc' (fun l hl => ?_) (fun a ha => ?_) (h.walk hs hpc hwalk) fun h0 _ => ?_
  · cases hq.1.symm.trans hl
  · cases hq.2.symm.trans ha
  · rcases hlv with h1 | h1
    · cases h1.symm.trans h0
    · exact .inr ⟨h1.1, h1.2.trans h0⟩

/-! ### Who holds what -/

theorem Owned.walk_eq_none (h : s.Owned own) (hd : s.schedLock ≠ some d) : (s.pc d).walk = none := by
  by_contra hw
  obtain ⟨h1, h2⟩ := Pc.sched_of_walk hw
  refine hd ((h.cpu d).sched.2 ?_)
  rw [holdsSched, h2]
  exact h1

theorem Owned.idle_ne_blocked (h : s.Owned own) (d : Cpu n) : s.state (s.idle d) ≠ .blocked := by
  intro hb
  have hfits := (h.task (s.idle d)).state
  rcases (h.cpu d).idle with h0 | h0 | ⟨h0, h1⟩
  · rw [h0] at hfits
    cases hb.symm.trans hfits
  · have hcur := ((h.cpu d).current _).2 h0
    cases haw : (s.pc d).away with
    | false => cases (hcur ▸ hb).symm.trans ((h.cpu d).running haw)
    | true => exact ((h.cpu d).away haw).2 hcur
  · have hw : (s.pc d).wakes = false := by
      revert h1
      cases s.pc d <;> first | exact fun _ => rfl | exact nofun
    rw [h0, Fits, hw] at hfits
    cases hb.symm.trans hfits

theorem Owned.mem_tasks (h : s.Owned own) (hb : s.state t = .blocked) : t ∈ s.tasks := by
  refine (h.task t).tasks.2 ⟨h.ne_absent (.inl hb), ?_⟩
  rintro d rfl
  exact h.idle_ne_blocked d hb

theorem Owned.leaving_of_zombie (ho : s.Owned own) (hpc : s.pc c = .out ∨ ∃ k, s.pc c = .held k)
    (hz : s.state (s.current c) = .zombie) :
    (s.pc c).leaving = true := by
  cases haw : (s.pc c).away with
  | false => cases hz.symm.trans ((ho.cpu c).running haw)
  | true => rcases hpc with h0 | ⟨k, h0⟩ <;> rw [h0] at haw ⊢ <;> exact haw

theorem Waiting.lent (h : s.Waiting R) (ho : s.Owned own) (hpc : s.pc c = p) {holder : ν → Option ι}
    (hl : s.Lent c p holder) (d : Cpu n) (l : ν) (hd : d ≠ c)
    (h0 : s.lockHolder l = some (s.current d)) : holder l = some (s.current d) := by
  have hne : s.lockHolder l ≠ some (s.current c) := fun h1 =>
    hd (ho.current_inj (Option.some.inj (h0.symm.trans h1)))
  rcases hl l with h1 | h1 | h1 | h1
  · rw [h1, h0]
  · cases h1.symm.trans h0
  · exact absurd h1 hne
  · exact absurd ((h.cpu c).lock l (hpc ▸ h1)) hne

/-! ### Going on -/

theorem Waiting.walks (h : s.Waiting R) (ho : s.Owned own) (hw : s.Walk s' c p p') : s'.Waiting R := by
  have hf := hw.fields
  have hl := hw.layout
  have hface := hw.face
  simp only [State.fields, layout, Pc.face, Prod.mk.injEq] at hf hl hface
  obtain ⟨hcur, -⟩ := hf
  obtain ⟨-, -, -, -, h1, h2, h3, h4, h5, -⟩ := hl
  have hcalm : s.Calm s' c := by
    refine .of_locks ?_ (h.lent ho hw.before hw.lent)
    rw [sleepLayout, hcur, hw.state, h1, h2, h3, h4, h5]
    rfl
  refine h.calm_walk p' hcalm hw.before hw.pc (fun l hl => ?_) (fun a ha => ?_)
    (h.walk hcalm hw.before hw.walk) fun h0 _ => .inr ⟨by rw [hcur], hface.2.2.2.2.1.trans h0⟩
  · rcases hw.lock with h0 | ⟨h0, h6⟩
    · cases h0.symm.trans hl
    · rw [h6, hcur]
      exact (h.cpu c).lock l (by rw [hw.before, ← h0, hl])
  · cases hw.call.symm.trans ha

theorem Waiting.placeMoving (h : s.Waiting R) {sched : Option (Cpu n)} {moving' : Cpu n → Option ι}
    {rel : Cpu n → Bool} {lock : Cpu n → Option (Cpu n)} {moving : Option ι} {a : After κ ν χ}
    (hpc : s.pc c = p) (hlv : p.leaving = false) :
    (State.placeMoving { s with
      schedLock := sched
      moving := moving'
      releaseSched := rel
      rqLock := lock } c moving a).Waiting R := by
  obtain ⟨p', hp, hq⟩ := placeMoving_pc { s with
    rqLock := lock } c moving a
  simp only [Prod.mk.injEq] at hq
  obtain ⟨-, -, -, -, -, -, -, h1, h2, h3, -⟩ := hq
  refine h.calm p' (.of_eq rfl rfl) hpc hp ?_ (.inl h3) (.inl hlv)
  rw [h1, h2]

theorem Waiting.pass (h : s.Waiting R) {rest : List ι} (hpc : s.pc c = .wakeup ch (t :: rest) k)
    (ht : ¬ (s.state t = .blocked ∧ s.waitChannel t = some ch)) :
    (s.setPc c (.wakeup ch rest k)).Waiting R := by
  have hcalm : s.Calm (s.setPc c (.wakeup ch rest k)) c := .of_eq rfl rfl
  refine h.calm_walk (.wakeup ch rest k) hcalm hpc rfl nofun nofun (fun ch' rest' hw u hb hu => ?_)
    fun h0 _ => .inr ⟨rfl, h0⟩
  obtain ⟨rfl, rfl⟩ : ch = ch' ∧ rest = rest' := by simpa [Pc.walk] using hw
  refine (List.mem_cons.1 ((h.cpu c).walk ch (t :: rest) (by rw [hpc]; rfl) u hb hu)).resolve_left ?_
  rintro rfl
  exact ht ⟨hb, hu⟩

theorem Waiting.call (h : s.Waiting R) (hpc : s.pc c = .out) (hs : a.lock ≠ .sched)
    (hm : s.MaySleep R c a) : (s.setPc c (.sleep a)).Waiting R := by
  obtain ⟨-, hl, hm⟩ := hm
  have hcalm : s.Calm (s.setPc c (.sleep a)) c := .of_eq rfl rfl
  refine h.calm_walk (.sleep a) hcalm hpc rfl (fun l h0 => ?_) (fun a' ha k hk => ?_) nofun nofun
  · cases hk : a.lock with
    | lock l' =>
      rw [hk] at hl
      obtain rfl : l' = l := by simpa [Pc.lock, hk] using h0
      exact hl
    | null | sched => simp [Pc.lock, hk] at h0
  · obtain rfl : a = a' := Option.some.inj ha
    rw [hk] at hm
    obtain ⟨h2, h3, h4⟩ := hm
    refine ⟨h2, h3, ?_⟩
    rw [Rule.sleepLock] at h4
    cases hR : R.lock k with
    | none =>
      rw [hR] at h4
      exact absurd h4 hs
    | some l =>
      rw [hR] at h4
      exact ⟨l, rfl, h4⟩

variable [DecidableEq ι]

theorem state_of_update {st' : TaskState} (h1 : st' ≠ .blocked) (h2 : st' ≠ .zombie) (u : ι)
    (st : TaskState) (hst : st = .blocked ∨ st = .zombie) (hu : update s.state t st' u = st) :
    s.state u = st := by
  by_cases hut : u = t
  · rw [hut, update_self] at hu
    rcases hst with rfl | rfl
    · exact absurd hu h1
    · exact absurd hu h2
  · rwa [update_of_ne hut] at hu

theorem Waiting.leave (h : s.Waiting R) (ho : s.Owned own) {b : After κ ν χ} {st : TaskState}
    (ht : s.Turn s' c p (.held (.leave b))) (hp : p.leaving = false)
    (hst : s'.state = update s.state (s.current c) st) (hz : st ≠ .blocked) (hs : s'.layout = s.layout)
    (hl : s.Lent c p s'.lockHolder) : s'.Waiting R := by
  have hf := ht.fields
  simp only [State.fields, layout, Prod.mk.injEq] at hf hs
  obtain ⟨hcur, -⟩ := hf
  obtain ⟨-, -, -, -, h1, h2, h3, h4, h5, -⟩ := hs
  refine h.calm (.held (.leave b)) ⟨fun d _ => by rw [hcur], fun u hu => ?_, fun u hu => ?_,
    fun u => .inl ⟨by rw [h1], by rw [h2]⟩, h3, h4, h5, h.lent ho ht.before hl⟩ ht.before ht.pc rfl
    (.inl rfl) (.inl hp)
  all_goals
    rw [hst] at hu
    by_cases huc : u = s.current c
  · rw [huc, update_self] at hu
    exact absurd hu hz
  · rwa [update_of_ne huc] at hu
  · refine .inr ⟨by rw [hcur, huc], ?_⟩
    rw [ht.pc, update_self]
    rfl
  · rw [update_of_ne huc] at hu
    exact .inl hu

theorem Waiting.commit (h : s.Waiting R) {next : ι} {a : After κ ν χ}
    (hpc : s.pc c = .commit hold next a) : (s.commit c hold next a).Waiting R := by
  refine h.calm (.switch (s.current c) a) (.of_state (fun d hd => update_of_ne hd _ _)
    (fun u st hst hu => ?_) rfl rfl rfl rfl rfl fun _ _ _ h0 => h0) hpc rfl rfl (.inl rfl) (.inl rfl)
  have hu' : (if s.state (s.current c) = .running then update s.state (s.current c) .ready
      else s.state) u = st := by
    by_cases hn : u = next
    · subst hn
      simp only [State.commit, update_self] at hu
      rcases hst with rfl | rfl <;> cases hu
    · simpa only [State.commit, update_of_ne hn] using hu
  split_ifs at hu'
  · exact state_of_update (by decide) (by decide) u st hst hu'
  · exact hu'

theorem Waiting.push (h : s.Waiting R) {cpu : Cpu n} {r : Ret ι κ ν χ}
    (hpc : s.pc c = .push t cpu r) : State.Waiting R
      { s with
        state := update s.state t .ready
        rq := rqPush s.rq cpu t
        pc := update s.pc c r.pc } := by
  have hr := r.pc_eq n _ rfl
  simp only [Prod.mk.injEq] at hr
  obtain ⟨-, -, -, h1, -, -, -, h2, h3, h4, -⟩ := hr
  refine h.calm r.pc (.of_state (fun _ _ => rfl) (state_of_update (by decide) (by decide)) rfl rfl rfl
    rfl rfl fun _ _ _ h0 => h0) hpc rfl ?_ (.inr h4) (.inr ⟨rfl, h1⟩)
  rw [h2, h3]

theorem Waiting.add (h : s.Waiting R) (hpc : s.pc c = .held .locked) (t : ι)
    (affinity : Option (Cpu n)) (priority : Priority) :
    (s.add c t affinity priority).Waiting R := by
  have hst := state_of_update (s := s) (t := t) (by decide : TaskState.ready ≠ .blocked) (by decide)
  refine h.calm (.place t .created) ⟨fun _ _ => rfl, fun u => hst u _ (.inl rfl),
    fun u hu => .inl (hst u _ (.inr rfl) hu), fun u => ?_, rfl, rfl, rfl, fun _ _ _ h0 => h0⟩ hpc rfl rfl
    (.inl rfl) (.inl rfl)
  by_cases hut : u = t
  · subst hut
    exact .inr ⟨update_self .., update_self ..⟩
  · exact .inl ⟨update_of_ne hut _ _, update_of_ne hut _ _⟩

/-! ### Waking -/

theorem Calm.wakeTask (s : State ι κ ν χ n) (c : Cpu n) (t : ι) (r : Ret ι κ ν χ)
    (kill stop : ι → ℕ) :
    s.Calm (State.wakeTask { s with killPending := kill, stopPending := stop } c t r) c := by
  have hw (u : ι) : update s.waits t none u = s.waits u ∧
      update s.waitChannel t none u = s.waitChannel u ∨
      update s.waits t none u = none ∧ update s.waitChannel t none u = none := by
    by_cases hu : u = t
    · rw [hu, update_self, update_self]
      exact .inr ⟨rfl, rfl⟩
    · rw [update_of_ne hu, update_of_ne hu]
      exact .inl ⟨rfl, rfl⟩
  rw [State.wakeTask, sleeperRemove]
  split <;> exact ⟨fun _ _ => rfl, fun _ h => h, fun _ h => .inl h, hw, rfl, rfl, rfl, fun _ _ _ h => h⟩

theorem Waiting.wake (h : s.Waiting R) {r : Ret ι κ ν χ} (kill stop : ι → ℕ) (hpc : s.pc c = p)
    (hp : p = .held k ∧ r = .woken k ∨
      ∃ ch rest, p = .wakeup ch (t :: rest) k ∧ r = .wakeup ch rest k) :
    (State.wakeTask { s with killPending := kill, stopPending := stop } c t r).Waiting R := by
  have hcalm := Calm.wakeTask s c t r kill stop
  have hcur : (State.wakeTask { s with killPending := kill, stopPending := stop } c t r).current c =
      s.current c := by
    rw [State.wakeTask, sleeperRemove]
    split <;> rfl
  rcases hp with ⟨rfl, rfl⟩ | ⟨ch, rest, rfl, rfl⟩
  · exact h.calm (.place t (.woken k)) hcalm hpc rfl rfl (.inl rfl) (.inr ⟨hcur, rfl⟩)
  · -- the task that is woken has no channel any more
    refine h.calm_walk (.place t (.wakeup ch rest k)) hcalm hpc rfl nofun nofun
      (fun ch' rest' hw u hb hu => ?_) fun h0 _ => .inr ⟨hcur, h0⟩
    obtain ⟨rfl, rfl⟩ : ch = ch' ∧ rest = rest' := by simpa [Pc.walk, Ret.walk] using hw
    have hut : u ≠ t := by
      rintro rfl
      rw [State.wakeTask] at hu
      simp at hu
    refine (List.mem_cons.1 ((h.cpu c).walk ch (t :: rest) (by rw [hpc]; rfl) u (hcalm.blocked u hb)
      ?_)).resolve_left hut
    rw [State.wakeTask] at hu
    simpa [hut] using hu

theorem Waiting.wakeup_done [DecidableEq χ] (h : s.Waiting R) (hpc : s.pc c = .wakeup ch [] k) :
    State.Waiting R
      { s with
        pc := update s.pc c (.held k)
        owes := update s.owes (s.current c)
          ((s.owes (s.current c)).filter fun ch' => ch' ≠ ch) } := by
  have hcalm : State.Waiting R { s with pc := update s.pc c (.held k) } :=
    h.calm (.held k) (.of_eq rfl rfl) hpc rfl rfl (.inl rfl) (.inr ⟨rfl, rfl⟩)
  refine ⟨fun d => ⟨(hcalm.cpu d).lock, (hcalm.cpu d).cond, (hcalm.cpu d).walk⟩, hcalm.chan,
    fun t x hb hx hcond => ?_, fun w hw => ?_⟩
  · obtain ⟨w, hset, hw⟩ := h.owed t x hb hx hcond
    refine ⟨w, hset, ?_⟩
    by_cases hwc : w = s.current c
    · subst hwc
      have hne : R.chan x ≠ ch := by
        rintro rfl
        exact absurd ((h.cpu c).walk _ [] (by rw [hpc]; rfl) t hb (h.chan t x hx)) List.not_mem_nil
      simpa [hne] using hw
    · simpa only [update_of_ne hwc] using hw
  · refine (hcalm.dead w hw).imp_left fun h0 => ?_
    by_cases hwc : w = s.current c
    · subst hwc
      simpa using fun ch' h1 => absurd (h0 ▸ h1) List.not_mem_nil
    · simpa only [update_of_ne hwc] using h0

/-! ### Falling asleep -/

theorem Waiting.block (h : s.Waiting R)
    (hm : ∀ k, a.cond = some k → s.cond k = false ∧ a.channel = some (R.chan k))
    (hsched : ∀ d, d ≠ c → (s.pc d).walk = none)
    (hlock : ∀ l, (Pc.release a false : Pc ι κ ν χ n).lock = some l →
      s.lockHolder l = some (s.current c)) (sched : Option (Cpu n)) (key : ι → ℕ)
    (on : ι → Option (Cpu n)) (sleepers : Cpu n → List ι) : State.Waiting R
      { s with
        schedLock := sched
        waitChannel := update s.waitChannel (s.current c) a.channel
        waits := update s.waits (s.current c) a.cond
        state := update s.state (s.current c) .blocked
        pc := update s.pc c (.release a false)
        sleepKey := key
        sleepingOn := on
        sleepers := sleepers } where
  cpu d := by
    by_cases hd : d = c
    · subst hd
      refine ⟨?_, ?_, ?_⟩ <;> simp only [update_self]
      · exact hlock
      · exact nofun
      · exact nofun
    · refine ⟨?_, ?_, ?_⟩ <;> simp only [update_of_ne hd]
      · exact (h.cpu d).lock
      · exact (h.cpu d).cond
      · rw [hsched d hd]
        exact nofun
  chan t k hk := by
    by_cases ht : t = s.current c
    · subst ht
      simp only [update_self] at hk ⊢
      exact (hm k hk).2
    · simp only [update_of_ne ht] at hk ⊢
      exact h.chan t k hk
  owed t k hb hk hcond := by
    by_cases ht : t = s.current c
    · subst ht
      simp only [update_self] at hk
      cases (hm k hk).1.symm.trans hcond
    · simp only [update_of_ne ht] at hb hk
      exact h.owed t k hb hk hcond
  dead w hw := by
    have hwc : w ≠ s.current c := by
      rintro rfl
      simp only [update_self] at hw
      cases hw
    simp only [update_of_ne hwc] at hw
    refine (h.dead w hw).imp_right fun ⟨d, hdw, hd⟩ => ⟨d, hdw, ?_⟩
    have hdc : d ≠ c := by
      rintro rfl
      exact hwc hdw.symm
    simpa only [update_of_ne hdc] using hd

/-! ### Changing a condition -/

variable [DecidableEq κ]

theorem Waiting.assign (h : s.Waiting R) (ho : s.Owned own) {k : κ} (b : Bool)
    (hk : s.Holds R c k) (hcall : (s.pc c).call = none)
    (hz : s.state (s.current c) = .zombie → (s.pc c).leaving = true) :
    (s.assign R c k b).Waiting R := by
  have hfalse (d : Cpu n) (a : Sleep κ ν χ) (ha : (s.pc d).call = some a) (x : κ)
      (hx : a.cond = some x) : x ≠ k := by
    rintro rfl
    obtain ⟨-, -, l, hRl, hl⟩ := (h.cpu d).cond a ha x hx
    have h1 := (h.cpu d).lock l (Pc.lock_of_call ha hl)
    rw [Holds, hRl] at hk
    rw [ho.current_inj (Option.some.inj (h1.symm.trans hk)), hcall] at ha
    cases ha
  have hcpu (d : Cpu n) (v : Bool) (a : Sleep κ ν χ) (ha : (s.pc d).call = some a) (x : κ)
      (hx : a.cond = some x) : update s.cond k v x = false ∧ a.channel = some (R.chan x) ∧
        ∃ l, R.lock x = some l ∧ a.lock = .lock l := by
    rw [update_of_ne (hfalse d a ha x hx)]
    exact (h.cpu d).cond a ha x hx
  rw [State.assign]
  split_ifs with hb
  · refine ⟨fun d => ⟨(h.cpu d).lock, hcpu d true, (h.cpu d).walk⟩, h.chan,
      fun t x hbl hx hc => ?_, fun w hw => ?_⟩
    · by_cases hxk : x = k
      · subst hxk
        refine ⟨s.current c, update_self .., ?_⟩
        simp
      · simp only [update_of_ne hxk] at hc ⊢
        obtain ⟨w, hset, hw⟩ := h.owed t x hbl hx hc
        refine ⟨w, hset, ?_⟩
        by_cases hwc : w = s.current c
        · subst hwc
          rw [update_self]
          exact List.mem_cons_of_mem _ hw
        · rwa [update_of_ne hwc]
    · by_cases hwc : w = s.current c
      · subst hwc
        exact .inr ⟨c, rfl, hz hw⟩
      · simp only [update_of_ne hwc]
        exact h.dead w hw
  · refine ⟨fun d => ⟨(h.cpu d).lock, hcpu d b, (h.cpu d).walk⟩, h.chan,
      fun t x hbl hx hc => ?_, h.dead⟩
    refine h.owed t x hbl hx ?_
    by_cases hxk : x = k
    · subst hxk
      simp only [update_self] at hc
      cases hx' : s.cond x with
      | true => rfl
      | false => exact absurd ⟨hc, hx'⟩ hb
    · simpa only [update_of_ne hxk] using hc

/-! ### Every step -/

variable [DecidableEq χ]

theorem Waiting.acts {act : Act ι κ ν χ n} (h : s.Waiting R) (ho : s.Owned own)
    (ha : s.Acts R c act s') : s'.Waiting R := by
  cases ha with
  | join =>
    exact ⟨fun d => ⟨(h.cpu d).lock, (h.cpu d).cond, (h.cpu d).walk⟩, h.chan, h.owed, h.dead⟩
  | walk _ hw => exact h.walks ho hw
  | call hpc hs hm => exact h.call hpc hs hm
  | @block a p l key on sleepers hpc hp hl hi hm hslp =>
    refine h.block (fun k hk => ?_) (fun d hd => ho.walk_eq_none ?_) (fun l hlock => ?_) _ _ _ _
    · rcases hm with rfl | ⟨-, hm⟩
      · obtain ⟨h3, h4, -⟩ := (h.cpu c).cond a (by rw [hpc]; rfl) k hk
        exact ⟨h3, h4⟩
      · have h3 := hm.2.2
        rw [hk] at h3
        exact ⟨h3.1, h3.2.1⟩
    · exact hl.free ((ho.cpu c).sched_iff hpc hp.2.2) hd
    · rcases hm with rfl | ⟨h0, -⟩
      · exact (h.cpu c).lock l (by rw [hpc]; exact hlock)
      · rw [Pc.lock, h0] at hlock
        cases hlock
  | leave ht hp _ hst hz hs hl =>
    simp only [Pc.face, Prod.mk.injEq] at hp
    exact h.leave ho ht hp.2.2.2.2.1 hst (by rcases hz with rfl | rfl <;> nofun) hs hl
  | depart hpc hz =>
    exact h.calm_walk (.schedule true _) (.of_eq rfl rfl) hpc rfl nofun nofun nofun
      fun _ h0 => .inl (hz h0)
  | @wakeup k ch hpc =>
    refine h.calm_walk (.wakeup ch s.tasks k) (.of_eq rfl rfl) hpc rfl nofun nofun
      (fun ch' rest hw t hb _ => ?_) fun h0 _ => .inr ⟨rfl, h0⟩
    obtain ⟨-, rfl⟩ : ch = ch' ∧ s.tasks = rest := by simpa [Pc.walk] using hw
    exact ho.mem_tasks hb
  | pass ch rest k hpc ht => exact h.pass hpc ht
  | wakeupDone hpc => exact h.wakeup_done hpc
  | wake kill stop hpc hp => exact h.wake kill stop hpc hp
  | assign k b hk hpc =>
    refine h.assign ho b hk ?_ fun hz => ?_
    · rcases hpc with hpc | ⟨_, hpc⟩ <;> rw [hpc] <;> rfl
    · exact ho.leaving_of_zombie hpc hz
  | rebound hpc => exact h.calm (.held .locked) (.of_eq rfl rfl) hpc rfl rfl (.inl rfl) (.inl rfl)
  | bind _ hpc => exact h.calm (.requeue _) (.of_eq rfl rfl) hpc rfl rfl (.inl rfl) (.inl rfl)
  | add affinity priority hpc => exact h.add hpc _ affinity priority
  | unlinkZombie hpc =>
    exact h.calm (.held .locked) (.of_eq rfl rfl) hpc (hpc ▸ update_eq_self c s.pc).symm rfl (.inl rfl)
      (.inl rfl)
  | push hpc => exact h.push hpc
  | take p' _ _ _ _ ht hp =>
    simp only [Prod.mk.injEq] at hp
    obtain ⟨-, -, h1, -, -, -, h2, h3, h4, -⟩ := hp
    exact h.calm p' (.of_eq rfl rfl) ht.before rfl (by rw [h2, h3]) (.inl h4) (.inl h1)
  | takeIdle hpc => exact h.calm (.commit ..) (.of_eq rfl rfl) hpc rfl rfl (.inl rfl) (.inl rfl)
  | give hpc => exact h.calm .tock (.of_eq rfl rfl) hpc rfl rfl (.inl rfl) (.inl rfl)
  | commit hpc => exact h.commit hpc
  | ctxSwitch saved hpc => exact h.calm (.finish _) (.of_eq rfl rfl) hpc rfl rfl (.inl rfl) (.inl rfl)
  | @finishSwitch a hpc =>
    simp only [finishSwitch]
    split_ifs
    · exact h.calm (.finishSched (s.moving c) a) (.of_eq rfl rfl) hpc rfl rfl (.inl rfl) (.inl rfl)
    · exact h.placeMoving hpc rfl
  | finishSched hpc => exact h.placeMoving hpc rfl

variable [DecidableEq ν]

theorem Waiting.step (h : s.Waiting R) (ho : s.Owned own) (e : Event ι κ ν χ n) :
    (s.step R e).Waiting R :=
  h.acts ho (step_acts ho e)
/-! ### Every run -/

/-- The call of `sched_wakeup` that `w` owes is still to come or, if under way, has still to look at
the sleeper; and `w` has not died without making it. -/
def ToCome (s : State ι κ ν χ n) (w : ι) (ch : χ) (sleeper : ι) : Prop :=
  ch ∈ s.owes w ∧
  (∀ c rest, s.current c = w → (s.pc c).walk = some (ch, rest) → sleeper ∈ rest) ∧
  (s.state w = .zombie → ∃ c, s.current c = w)

/-- Whoever is BLOCKED on the channel of a condition that is true now will be woken by the task that
has made it true. -/
def NoLostWakeup (R : Rule κ ν χ) (s : State ι κ ν χ n) : Prop :=
  ∀ t k, s.state t = .blocked → s.waits t = some k → s.waitChannel t = some (R.chan k) →
    s.cond k = true → ∃ w, s.setter k = some w ∧ s.ToCome w (R.chan k) t

omit [DecidableEq ι] [DecidableEq κ] [DecidableEq ν] [DecidableEq χ] in
theorem Waiting.noLostWakeup (h : s.Waiting R) : s.NoLostWakeup R := by
  intro t k hb hk hch hc
  obtain ⟨w, hset, hw⟩ := h.owed t k hb hk hc
  refine ⟨w, hset, hw, fun c rest _ hwalk => (h.cpu c).walk _ rest hwalk t hb hch, fun hz => ?_⟩
  rcases h.dead w hz with h0 | ⟨c, hcw, -⟩
  · rw [h0] at hw
    cases hw
  · exact ⟨c, hcw⟩

end State

variable [DecidableEq ι]

theorem Boot.init_waiting (R : Rule κ ν χ) (b : Boot ι n) (cond : κ → Bool) :
    (b.init cond : State ι κ ν χ n).Waiting R where
  cpu _ := ⟨nofun, nofun, nofun⟩
  chan _ _ h := nomatch h
  owed _ _ _ h := nomatch h
  dead _ _ := .inl rfl

variable [DecidableEq κ] [DecidableEq ν] [DecidableEq χ]

theorem always_noLostWakeup (R : Rule κ ν χ) (b : Boot ι n) (cond : κ → Bool)
    (es : List (Event ι κ ν χ n)) :
    Run.Always (State.step R) (State.NoLostWakeup R) (b.init cond) es := by
  have halways : Run.Always (State.step R) (fun s => (∃ own, s.Owned own) ∧ s.Waiting R)
      (b.init cond) es := by
    refine Run.always_of_induction (P := fun _ _ => True) ?_
      ⟨⟨_, b.init_owned cond⟩, b.init_waiting R cond⟩ (Run.Along.of_forall fun _ _ => trivial)
    rintro s e ⟨⟨own, ho⟩, h⟩ -
    exact ⟨ho.step e, h.step ho e⟩
  exact halways.mono fun s h => h.2.noLostWakeup

end Bashket.Sched
