import Bashket.Lib.Chain

/-!
# Run queues

The queues of READY tasks of `kernel/sched/sched.c`, one for each CPU. A queue is a list through the
tasks' own field `run_next`; `queued_on` names the queue a task is in. `Queues.Holds` says which
lists of tasks the fields stand for; the operations keep it.
-/

namespace Bashket.Sched

open List
open Function (update update_of_ne update_self)

/-- A CPU, by its number; `MAX_CPUS` is `n + 1`. -/
abbrev Cpu (n : ℕ) := Fin (n + 1)

variable {ι : Type*} {n : ℕ} [DecidableEq ι]

scoped instance (priority := 2000) neZero_cpus : NeZero (n + 1) := ⟨n.succ_ne_zero⟩

scoped instance (priority := 3000) neZero_twoCpus : NeZero (1 + 1 : ℕ) := neZero_cpus

/-- The fields of `runqueues` and of the tasks that make up the queues. -/
structure Queues (ι : Type*) (n : ℕ) where
  /-- `run_next` of each task. -/
  runNext : ι → Option ι
  /-- `queued_on` of each task, `none` for `-1`. -/
  queuedOn : ι → Option (Cpu n)
  head : Cpu n → Option ι
  tail : Cpu n → Option ι
  count : Cpu n → ℕ

/-- `rq_push`: the task goes to the back of the CPU's queue. -/
def rqPush (q : Queues ι n) (cpu : Cpu n) (t : ι) : Queues ι n :=
  let next := update q.runNext t none
  { runNext :=
      match q.tail cpu with
      | some last => update next last (some t)
      | none => next
    head :=
      match q.tail cpu with
      | some _ => q.head
      | none => update q.head cpu (some t)
    tail := update q.tail cpu (some t)
    count := update q.count cpu (q.count cpu + 1)
    queuedOn := update q.queuedOn t (some cpu) }

/-- `rq_unlink`: the task is taken out of the queue; `prev` is the one before it. -/
def rqUnlink (q : Queues ι n) (cpu : Cpu n) (prev : Option ι) (t : ι) : Queues ι n :=
  { runNext :=
      update
        (match prev with
          | some p => update q.runNext p (q.runNext t)
          | none => q.runNext)
        t none
    head :=
      match prev with
      | some _ => q.head
      | none => update q.head cpu (q.runNext t)
    tail := if q.tail cpu = some t then update q.tail cpu prev else q.tail
    count := update q.count cpu (q.count cpu - 1)
    queuedOn := update q.queuedOn t none }

/-- The loop of `rq_take` from `t` on; `wanted` says which tasks may be taken. -/
def rqTakeFrom (q : Queues ι n) (cpu : Cpu n) (wanted : ι → Bool) :
    ℕ → Option ι → Option ι → Option ι × Queues ι n
  | fuel + 1, prev, some t =>
    if wanted t then (some t, rqUnlink q cpu prev t)
    else rqTakeFrom q cpu wanted fuel (some t) (q.runNext t)
  | _, _, _ => (none, q)

/-- The oldest task that may be taken, and the queues without it. The loop ends after as many tasks
as the queue counts. -/
def rqTake (q : Queues ι n) (cpu : Cpu n) (wanted : ι → Bool) : Option ι × Queues ι n :=
  rqTakeFrom q cpu wanted (q.count cpu) none (q.head cpu)

/-- The search of `task_set_affinity` for the task before `task` in a queue. -/
def rqBefore (q : Queues ι n) (task : ι) : ℕ → Option ι → Option ι → Option ι
  | fuel + 1, prev, some t => if t = task then prev else rqBefore q task fuel (some t) (q.runNext t)
  | _, prev, _ => prev

/-- What `task_set_affinity` does with the queue the task waits in. -/
def rqRemove (q : Queues ι n) (cpu : Cpu n) (task : ι) : Queues ι n :=
  rqUnlink q cpu (rqBefore q task (q.count cpu) none (q.head cpu)) task

@[simp] theorem rqPush_queuedOn (q : Queues ι n) (cpu : Cpu n) (t : ι) :
    (rqPush q cpu t).queuedOn = update q.queuedOn t (some cpu) := rfl

@[simp] theorem rqUnlink_queuedOn (q : Queues ι n) (cpu : Cpu n) (prev : Option ι) (t : ι) :
    (rqUnlink q cpu prev t).queuedOn = update q.queuedOn t none := rfl

/-! ### The lists the fields stand for -/

structure Queues.Holds (q : Queues ι n) (lists : Cpu n → List ι) : Prop where
  path : ∀ c, Chain.Path q.runNext (q.head c) (lists c)
  tail : ∀ c, q.tail c = (lists c).getLast?
  count : ∀ c, q.count c = (lists c).length
  nodup : ∀ c, (lists c).Nodup
  queued : ∀ c t, t ∈ lists c ↔ q.queuedOn t = some c

variable {q : Queues ι n} {lists : Cpu n → List ι} {c d : Cpu n} {t : ι} {l₁ l₂ : List ι}

omit [DecidableEq ι] in
theorem Queues.Holds.disjoint (h : q.Holds lists) (hc : t ∈ lists c) (hd : t ∈ lists d) : c = d :=
  Option.some.inj (((h.queued c t).1 hc).symm.trans ((h.queued d t).1 hd))

omit [DecidableEq ι] in
/-- A change of one CPU's queue that leaves what the others are made of. -/
theorem Queues.Holds.change {q' : Queues ι n} {l : List ι} (h : q.Holds lists)
    (hfields : ∀ d, d ≠ c → q'.head d = q.head d ∧ q'.tail d = q.tail d ∧ q'.count d = q.count d)
    (hnext : ∀ d, d ≠ c → ∀ y ∈ lists d, q'.runNext y = q.runNext y)
    (hother : ∀ d, d ≠ c → ∀ y, q'.queuedOn y = some d ↔ q.queuedOn y = some d)
    (hpath : Chain.Path q'.runNext (q'.head c) l) (htail : q'.tail c = l.getLast?)
    (hcount : q'.count c = l.length) (hnodup : l.Nodup)
    (hqueued : ∀ y, y ∈ l ↔ q'.queuedOn y = some c) : q'.Holds (update lists c l) := by
  have hlist (d : Cpu n) : d = c ∧ update lists c l d = l ∨ d ≠ c ∧ update lists c l d = lists d := by
    by_cases hd : d = c
    · subst hd
      exact .inl ⟨rfl, update_self ..⟩
    · exact .inr ⟨hd, update_of_ne hd ..⟩
  refine ⟨fun d => ?_, fun d => ?_, fun d => ?_, fun d => ?_, fun d u => ?_⟩ <;>
    obtain ⟨rfl, hl⟩ | ⟨hd, hl⟩ := hlist d <;> rw [hl]
  · exact hpath
  · rw [(hfields d hd).1]
    exact (h.path d).congr (hnext d hd)
  · exact htail
  · rw [(hfields d hd).2.1, h.tail]
  · exact hcount
  · rw [(hfields d hd).2.2, h.count]
  · exact hnodup
  · exact h.nodup d
  · exact hqueued u
  · rw [hother d hd, h.queued]

theorem Queues.Holds.push (h : q.Holds lists) (ht : q.queuedOn t = none) :
    (rqPush q c t).Holds (update lists c (lists c ++ [t])) := by
  have hnot (d : Cpu n) : t ∉ lists d := fun h0 => by
    rw [(h.queued d t).1 h0] at ht
    cases ht
  -- the tasks whose `run_next` changes are `t` and the last one of the queue
  have hnext (y : ι) (hy : y ≠ t) (hlast : (lists c).getLast? ≠ some y) :
      (rqPush q c t).runNext y = q.runNext y := by
    simp only [rqPush, h.tail c]
    cases hl : (lists c).getLast? with
    | none => exact update_of_ne hy _ _
    | some last =>
      have hyl : y ≠ last := fun h0 => hlast (h0 ▸ hl)
      simp only [update_of_ne hyl, update_of_ne hy]
  have hself : (rqPush q c t).runNext t = none := by
    simp only [rqPush, h.tail c]
    cases hl : (lists c).getLast? with
    | none => exact update_self ..
    | some last =>
      have htl : t ≠ last := fun h0 => hnot c (mem_of_getLast? (h0 ▸ hl))
      simp only [update_of_ne htl, update_self]
  have hhead : (rqPush q c t).head c = if lists c = [] then some t else q.head c := by
    simp only [rqPush, h.tail c]
    cases hl : (lists c).getLast? with
    | none => simp only [if_pos (getLast?_eq_none_iff.1 hl), update_self]
    | some last =>
      rw [if_neg]
      intro h0
      rw [h0] at hl
      cases hl
  apply h.change
  · intro d hd
    simp only [rqPush, update_of_ne hd, and_self, and_true]
    cases q.tail c with
    | none => exact update_of_ne hd _ _
    | some last => rfl
  · intro d hd y hy
    apply hnext y fun h0 => hnot d (h0 ▸ hy)
    exact fun hlast => hd (h.disjoint hy (mem_of_getLast? hlast))
  · intro d hd y
    by_cases hy : y = t
    · subst hy
      simp [ht, Ne.symm hd]
    · rw [rqPush_queuedOn, update_of_ne hy]
  · rw [hhead]
    refine (h.path c).push (h.nodup c) hself (fun y hy => ?_) fun y hy hlast => ?_
    · simp only [rqPush, h.tail c, hy, update_self]
    · exact hnext y (fun h0 => hnot c (h0 ▸ hy)) hlast
  · simp only [rqPush, update_self, getLast?_append, getLast?_singleton,
      Option.some_or]
  · simp only [rqPush, update_self, length_append, length_singleton, h.count c]
  · exact (h.nodup c).append (nodup_singleton t) (by simpa using hnot c)
  · intro y
    by_cases hy : y = t
    · subst hy
      simp
    · simp [hy, h.queued c y]

theorem Queues.Holds.unlink (h : q.Holds lists) (hl : lists c = l₁ ++ t :: l₂) :
    (rqUnlink q c l₁.getLast? t).Holds (update lists c (l₁ ++ l₂)) := by
  have htc : t ∈ lists c := by rw [hl]; exact mem_append_right _ mem_cons_self
  have hnd : (l₁ ++ t :: l₂).Nodup := hl ▸ h.nodup c
  have hnot : t ∉ l₁ ++ l₂ := (nodup_cons.1 (nodup_middle.1 hnd)).1
  have hnext (y : ι) (hy : y ≠ t) (hlast : l₁.getLast? ≠ some y) :
      (rqUnlink q c l₁.getLast? t).runNext y = q.runNext y := by
    simp only [rqUnlink, update_of_ne hy]
    cases hp : l₁.getLast? with
    | none => rfl
    | some p =>
      have hyp : y ≠ p := fun h0 => hlast (h0 ▸ hp)
      exact update_of_ne hyp _ _
  have hhead : (rqUnlink q c l₁.getLast? t).head c
      = if l₁ = [] then q.runNext t else q.head c := by
    simp only [rqUnlink]
    cases hp : l₁.getLast? with
    | none => simp only [if_pos (getLast?_eq_none_iff.1 hp), update_self]
    | some p =>
      rw [if_neg]
      intro h0
      rw [h0] at hp
      cases hp
  apply h.change
  · intro d hd
    refine ⟨?_, ?_, update_of_ne hd _ _⟩
    · simp only [rqUnlink]
      cases l₁.getLast? with
      | none => exact update_of_ne hd _ _
      | some p => rfl
    · simp only [rqUnlink]
      split
      · exact update_of_ne hd _ _
      · rfl
  · intro d hd y hy
    apply hnext y
    · rintro rfl
      exact hd (h.disjoint hy htc)
    · intro hlast
      exact hd (h.disjoint hy (hl ▸ mem_append_left _ (mem_of_getLast? hlast)))
  · intro d hd y
    by_cases hy : y = t
    · subst hy
      simp [(h.queued c y).1 htc, Ne.symm hd]
    · rw [rqUnlink_queuedOn, update_of_ne hy]
  · rw [hhead]
    refine Chain.Path.unlink (hl ▸ h.path c) hnd (fun y hy => ?_) fun y hy hlast => ?_
    · have hyt : y ≠ t := fun h0 =>
        hnot (h0 ▸ mem_append_left _ (mem_of_getLast? hy))
      simp only [rqUnlink, hy, update_of_ne hyt, update_self]
    · exact hnext y (fun h0 => hnot (h0 ▸ hy)) hlast
  · simp only [rqUnlink, h.tail c, hl]
    -- the last task goes exactly if none is after it
    cases l₂ with
    | nil => simp
    | cons z l₂ =>
      have hlast : (l₁ ++ t :: z :: l₂).getLast? = (z :: l₂).getLast? := by
        simp [getLast?_append, getLast?_cons]
      have hne : (z :: l₂).getLast? ≠ some t := fun h0 =>
        hnot (mem_append_right _ (mem_of_getLast? h0))
      rw [hlast, if_neg hne, h.tail c, hl, hlast]
      simp [getLast?_append, getLast?_cons]
  · simp only [rqUnlink, update_self, h.count c, hl, length_append, length_cons]
    omega
  · exact (nodup_cons.1 (nodup_middle.1 hnd)).2
  · intro y
    by_cases hy : y = t
    · subst hy
      simpa using hnot
    · rw [rqUnlink_queuedOn, update_of_ne hy, ← h.queued c y, hl]
      simp [hy]

theorem rqTakeFrom_spec {wanted : ι → Bool} {prev next : Option ι} {fuel : ℕ} {l : List ι}
    (hl : l = l₁ ++ l₂) (hp : prev = l₁.getLast?) (hn : Chain.Path q.runNext next l₂)
    (hf : l₂.length ≤ fuel) (hl₁ : ∀ u ∈ l₁, wanted u = false) :
    (∃ t m₁ m₂, l = m₁ ++ t :: m₂ ∧ wanted t = true ∧ (∀ u ∈ m₁, wanted u = false) ∧
      rqTakeFrom q c wanted fuel prev next = (some t, rqUnlink q c m₁.getLast? t)) ∨
    (rqTakeFrom q c wanted fuel prev next = (none, q) ∧ ∀ u ∈ l, wanted u = false) := by
  induction l₂ generalizing l₁ prev next fuel with
  | nil =>
    right
    obtain rfl : next = none := hn
    rw [append_nil] at hl
    refine ⟨?_, hl ▸ hl₁⟩
    cases fuel <;> rfl
  | cons t l₂ ih =>
    obtain ⟨rfl, hn⟩ := hn
    obtain ⟨fuel, rfl⟩ : ∃ m, fuel = m + 1 := Nat.exists_eq_succ_of_ne_zero (by
      rw [length_cons] at hf
      omega)
    by_cases hw : wanted t = true
    · left
      exact ⟨t, l₁, l₂, hl, hw, hl₁, by rw [rqTakeFrom, if_pos hw, hp]⟩
    · rw [rqTakeFrom, if_neg hw]
      refine ih (show l = (l₁ ++ [t]) ++ l₂ by rw [hl]; simp) (by simp) hn (by simpa using hf) ?_
      intro u hu
      rcases mem_append.1 hu with hu | hu
      · exact hl₁ u hu
      · rw [mem_singleton.1 hu]
        exact Bool.not_eq_true _ ▸ hw

theorem Queues.Holds.take (h : q.Holds lists) (c : Cpu n) (wanted : ι → Bool) :
    (∃ t m₁ m₂, lists c = m₁ ++ t :: m₂ ∧ wanted t = true ∧ (∀ u ∈ m₁, wanted u = false) ∧
      rqTake q c wanted = (some t, rqUnlink q c m₁.getLast? t)) ∨
    (rqTake q c wanted = (none, q) ∧ ∀ u ∈ lists c, wanted u = false) :=
  rqTakeFrom_spec (l := lists c) (nil_append _).symm rfl (h.path c) (h.count c).ge (by simp)

theorem rqBefore_spec {prev next : Option ι} {fuel : ℕ} {m : List ι}
    (hp : prev = m.getLast?) (hn : Chain.Path q.runNext next (l₁ ++ t :: l₂)) (ht : t ∉ l₁)
    (hf : (l₁ ++ t :: l₂).length ≤ fuel) :
    rqBefore q t fuel prev next = (m ++ l₁).getLast? := by
  induction l₁ generalizing m prev next fuel with
  | nil =>
    obtain ⟨rfl, hn⟩ := hn
    obtain ⟨fuel, rfl⟩ : ∃ m, fuel = m + 1 := Nat.exists_eq_succ_of_ne_zero (by
      simp only [nil_append, length_cons] at hf
      omega)
    rw [rqBefore, if_pos rfl, hp, append_nil]
  | cons u l₁ ih =>
    obtain ⟨rfl, hn⟩ := hn
    obtain ⟨fuel, rfl⟩ : ∃ m, fuel = m + 1 := Nat.exists_eq_succ_of_ne_zero (by
      simp only [cons_append, length_cons] at hf
      omega)
    have hut : u ≠ t := fun h0 => ht (h0 ▸ mem_cons_self)
    rw [rqBefore, if_neg hut, ih (m := m ++ [u]) (by simp) hn
      (fun h0 => ht (mem_cons_of_mem _ h0)) (by simpa using hf)]
    simp

theorem Queues.Holds.remove (h : q.Holds lists) (hq : q.queuedOn t = some c) :
    ∃ m₁ m₂, lists c = m₁ ++ t :: m₂ ∧ rqRemove q c t = rqUnlink q c m₁.getLast? t := by
  obtain ⟨m₁, m₂, hl⟩ := append_of_mem ((h.queued c t).2 hq)
  have hnd : (m₁ ++ t :: m₂).Nodup := hl ▸ h.nodup c
  have ht : t ∉ m₁ := fun h0 =>
    (nodup_cons.1 (nodup_middle.1 hnd)).1 (mem_append_left _ h0)
  refine ⟨m₁, m₂, hl, ?_⟩
  have hbefore : rqBefore q t (q.count c) none (q.head c) = ([] ++ m₁).getLast? :=
    rqBefore_spec rfl (hl ▸ h.path c) ht (hl ▸ (h.count c).ge)
  rw [rqRemove, hbefore, nil_append]

end Bashket.Sched
