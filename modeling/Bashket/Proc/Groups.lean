import Bashket.Lib.Run

/-!
# Process groups and sessions

`fork` passes the group and the session of a process on, `process_setsid` makes a new session with a
group of its own, `process_set_group` moves a process to another group. A process that has ended
stays on the list until it is reaped, and `process_set_group` may find a group through it: the group
may by then be the first one of another session (`dead_member_leads`).

The list of tasks holds the processes here. Numbers of processes are given out in order and not used
again.
-/

namespace Bashket.Groups

open Run List

/-- `live`: the number of threads that have not ended. -/
structure Proc where
  pid : ℕ
  parentPid : ℕ
  pgid : ℕ
  sid : ℕ
  live : ℕ
  isUser : Bool
deriving DecidableEq

/-- The processes on the list, the next number, and the number of the init process. -/
structure State where
  procs : List Proc
  nextPid : ℕ
  init : Option ℕ

/-- What may happen; `p` is the process of the caller. -/
inductive Event
  /-- `process_fork`, `process_spawn` -/
  | fork (p : ℕ)
  | spawn (parentPid : ℕ)
  | thread (p : ℕ)
  | setsid (p : ℕ)
  /-- `process_set_group` -/
  | setGroup (p pid pgid : ℕ)
  /-- `task_end`: one of its threads ends; and what the last one does about the children -/
  | exit (p : ℕ)
  | adopt (p : ℕ)
  | reap (p : ℕ)

namespace State

variable (s : State) {p pgid : ℕ} {q self : Proc}

def find (pid : ℕ) : Option Proc := s.procs.find? (·.pid = pid)

def update (pid : ℕ) (f : Proc → Proc) : State :=
  { s with procs := s.procs.map fun q => if q.pid = pid then f q else q }

def add (parentPid : ℕ) (pgid sid : ℕ) : State :=
  { s with
    procs := s.procs ++ [⟨s.nextPid, parentPid, pgid, sid, 1, true⟩]
    nextPid := s.nextPid + 1 }

def setsid (self : Proc) : State :=
  if self.isUser = false then s
  -- a group leader may not
  else if s.procs.any fun q => q.pgid = self.pid ∧ 0 < q.live then s
  else s.update self.pid fun q => { q with sid := q.pid, pgid := q.pid }

/-- The group that `process_set_group` is asked for, and the process it is for. -/
def target (self : Proc) (pid pgid : ℕ) : ℕ × ℕ :=
  let pid := if pid = 0 then self.pid else pid
  (pid, if pgid = 0 then pid else pgid)

/-- In the group and in the session of the caller, and a relative of the caller (or the caller). -/
def finds (self : Proc) (pgid : ℕ) (q : Proc) : Bool :=
  q.pgid = pgid ∧ q.sid = self.sid ∧
    (q.pid = self.pid ∨ q.parentPid = self.pid ∨ q.parentPid = self.parentPid)

def setGroup (self : Proc) (pid pgid : ℕ) : State :=
  let (pid, pgid) := target self pid pgid
  match s.find pid with
  | none => s
  | some q =>
    if q.isUser ∧ (q.pid = self.pid ∨ q.parentPid = self.pid) ∧
        q.sid = self.sid ∧ q.sid ≠ q.pid then
      if pgid = q.pid ∨ s.procs.any (finds self pgid) then s.update pid fun q => { q with pgid }
      else s
    else s

/-- The children get the init process as their parent, if there is one. -/
def adopt (p : ℕ) : State :=
  let init := if s.init = some p then none else s.init
  match init with
  | none => { s with init }
  | some i =>
    { s with
      init
      procs := s.procs.map fun q =>
        if q.pid ≠ p ∧ q.parentPid = p then { q with parentPid := i } else q }

def act (p : ℕ) (f : Proc → State) : State :=
  match s.find p with
  | some self => if 0 < self.live then f self else s
  | none => s

/-- One that cannot happen changes nothing. -/
def step : Event → State
  | .fork p => s.act p fun self => s.add self.pid self.pgid self.sid
  | .spawn parentPid => s.add parentPid s.nextPid 0
  | .thread p => s.act p fun self => s.update self.pid fun q => { q with live := q.live + 1 }
  | .setsid p => s.act p fun self => s.setsid self
  | .setGroup p pid pgid => s.act p fun self => s.setGroup self pid pgid
  | .exit p => s.act p fun self => s.update self.pid fun q => { q with live := q.live - 1 }
  | .adopt p =>
    match s.find p with
    | some self => if self.live = 0 then s.adopt p else s
    | none => s
  | .reap p => { s with procs := s.procs.filter fun q => ¬ (q.pid = p ∧ q.live = 0) }

/-! ### What is to hold -/

def OneSession : Prop :=
  ∀ p ∈ s.procs, ∀ q ∈ s.procs, 0 < p.live → 0 < q.live → p.pgid = q.pgid → p.sid = q.sid

instance : Decidable s.OneSession :=
  inferInstanceAs (Decidable (∀ p ∈ s.procs, ∀ q ∈ s.procs, _))

/-- A live process of the group named after a live process is in the session of that. -/
def LeaderSession : Prop :=
  ∀ p ∈ s.procs, ∀ q ∈ s.procs, 0 < p.live → 0 < q.live → q.pgid = p.pid → q.sid = p.sid

instance : Decidable s.LeaderSession :=
  inferInstanceAs (Decidable (∀ p ∈ s.procs, ∀ q ∈ s.procs, _))

/-- Every process has its own number, numbers are not reused, and a group is in one session, that of
the process it is named after if that is alive. -/
structure Start : Prop where
  nodup : (s.procs.map Proc.pid).Nodup
  pid_lt : ∀ q ∈ s.procs, q.pid < s.nextPid
  pgid_lt : ∀ q ∈ s.procs, q.pgid < s.nextPid
  one : s.OneSession
  leader : s.LeaderSession

/-- The group is its own, or has a live member in the session of the caller. -/
def JoinsLive (e : Event) : Prop :=
  ∀ p pid pgid, e = .setGroup p pid pgid → ∀ self ∈ s.procs, self.pid = p →
    (target self pid pgid).2 = (target self pid pgid).1 ∨
      ∃ q ∈ s.procs, 0 < q.live ∧ q.pgid = (target self pid pgid).2 ∧ q.sid = self.sid

/-! ### Steps -/

variable {s : State}

theorem mem_of_find (h : s.find p = some q) : q ∈ s.procs ∧ q.pid = p := by
  have := find?_some h
  exact ⟨mem_of_find?_eq_some h, by simpa using this⟩

theorem Start.eq_of_pid (h : s.Start) {p : Proc} (hp : p ∈ s.procs) (hq : q ∈ s.procs)
    (hpid : p.pid = q.pid) : p = q :=
  inj_on_of_nodup_map h.nodup hp hq hpid

theorem Start.map (h : s.Start) {g : Proc → Proc} (init : Option ℕ)
    (hg : ∀ q ∈ s.procs, (g q).pid = q.pid ∧ (g q).pgid = q.pgid ∧ (g q).sid = q.sid ∧
      (0 < (g q).live → 0 < q.live)) :
    { s with procs := s.procs.map g, init := init }.Start := by
  refine ⟨?_, fun q hq => ?_, fun q hq => ?_, fun p hp q hq hlp hlq heq => ?_,
    fun p hp q hq hlp hlq heq => ?_⟩
  · have hpids : (s.procs.map g).map Proc.pid = s.procs.map Proc.pid := by
      rw [map_map]
      exact map_congr_left fun q hq => (hg q hq).1
    rw [hpids]
    exact h.nodup
  · obtain ⟨q, hmem, rfl⟩ := mem_map.1 hq
    rw [(hg q hmem).1]
    exact h.pid_lt q hmem
  · obtain ⟨q, hmem, rfl⟩ := mem_map.1 hq
    rw [(hg q hmem).2.1]
    exact h.pgid_lt q hmem
  · obtain ⟨p, hpm, rfl⟩ := mem_map.1 hp
    obtain ⟨q, hqm, rfl⟩ := mem_map.1 hq
    obtain ⟨-, hpp, hps, hpl⟩ := hg p hpm
    obtain ⟨-, hqp, hqs, hql⟩ := hg q hqm
    rw [hpp, hqp] at heq
    rw [hps, hqs]
    exact h.one p hpm q hqm (hpl hlp) (hql hlq) heq
  · obtain ⟨p, hpm, rfl⟩ := mem_map.1 hp
    obtain ⟨q, hqm, rfl⟩ := mem_map.1 hq
    obtain ⟨hpp, -, hps, hpl⟩ := hg p hpm
    obtain ⟨-, hqp, hqs, hql⟩ := hg q hqm
    rw [hpp, hqp] at heq
    rw [hps, hqs]
    exact h.leader p hpm q hqm (hpl hlp) (hql hlq) heq

/-- A process moves to where the live ones of that group are, and the live one it is named after;
those of the group named after the process go with it. -/
theorem Start.move (h : s.Start) {x y : Proc} {f : Proc → Proc} (hx : x ∈ s.procs) (hf : f x = y)
    (hpid : y.pid = x.pid) (hlt : y.pgid < s.nextPid)
    (hgroup : 0 < y.live → ∀ q ∈ s.procs, q.pid ≠ x.pid → 0 < q.live →
      q.pgid = y.pgid ∨ q.pid = y.pgid → q.sid = y.sid)
    (hown : 0 < y.live → ∀ q ∈ s.procs, q.pid ≠ x.pid → 0 < q.live → q.pgid = x.pid →
      q.sid = y.sid) :
    (s.update x.pid f).Start := by
  have hmem : ∀ {q'}, q' ∈ (s.update x.pid f).procs → q' = y ∨ q' ∈ s.procs ∧ q'.pid ≠ x.pid := by
    intro q' hq'
    obtain ⟨q, hq, rfl⟩ := mem_map.1 hq'
    split
    next hqx =>
      rw [h.eq_of_pid hq hx hqx]
      exact .inl hf
    next hqx => exact .inr ⟨hq, hqx⟩
  refine ⟨?_, fun q hq => ?_, fun q hq => ?_, fun p hp q hq hlp hlq heq => ?_,
    fun p hp q hq hlp hlq heq => ?_⟩
  · have hpids : (s.update x.pid f).procs.map Proc.pid = s.procs.map Proc.pid := by
      unfold update
      rw [map_map]
      refine map_congr_left fun q hq => ?_
      dsimp only [Function.comp_apply]
      split
      next hqx => rw [h.eq_of_pid hq hx hqx, hf, hpid]
      · rfl
    rw [hpids]
    exact h.nodup
  · rcases hmem hq with rfl | ⟨hq, -⟩
    · rw [hpid]
      exact h.pid_lt x hx
    · exact h.pid_lt q hq
  · rcases hmem hq with rfl | ⟨hq, -⟩
    · exact hlt
    · exact h.pgid_lt q hq
  · rcases hmem hp with rfl | ⟨hp, hpx⟩ <;> rcases hmem hq with rfl | ⟨hq, hqx⟩
    · rfl
    · exact (hgroup hlp q hq hqx hlq (.inl heq.symm)).symm
    · exact hgroup hlq p hp hpx hlp (.inl heq)
    · exact h.one p hp q hq hlp hlq heq
  · rcases hmem hp with rfl | ⟨hp, hpx⟩ <;> rcases hmem hq with rfl | ⟨hq, hqx⟩
    · rfl
    · exact hown hlp q hq hqx hlq (heq.trans hpid)
    · exact (hgroup hlq p hp hpx hlp (.inr heq.symm)).symm
    · exact h.leader p hp q hq hlp hlq heq

/-- A process is added that is alone in its group, or goes where a live one is. -/
theorem Start.add (h : s.Start) {parentPid sid : ℕ}
    (hgroup : pgid = s.nextPid ∨ ∃ q ∈ s.procs, 0 < q.live ∧ q.pgid = pgid ∧ q.sid = sid) :
    (s.add parentPid pgid sid).Start := by
  have hlt : pgid < s.nextPid + 1 := by
    rcases hgroup with rfl | ⟨q, hq, -, rfl, -⟩
    · exact Nat.lt_succ_self _
    · exact Nat.lt_succ_of_lt (h.pgid_lt q hq)
  -- nobody is in the group of the new process but those in its session
  have hin : ∀ q ∈ s.procs, 0 < q.live → q.pgid = pgid ∨ q.pid = pgid → q.sid = sid := by
    intro q hq hlq heq
    rcases hgroup with rfl | ⟨r, hr, hlr, rfl, rfl⟩
    · have h₁ := h.pgid_lt q hq
      have h₂ := h.pid_lt q hq
      omega
    · rcases heq with heq | heq
      · exact h.one q hq r hr hlq hlr heq
      · exact (h.leader q hq r hr hlq hlr heq.symm).symm
  refine ⟨?_, fun q hq => ?_, fun q hq => ?_, fun p hp q hq hlp hlq heq => ?_,
    fun p hp q hq hlp hlq heq => ?_⟩
  · unfold State.add
    rw [map_append, map_singleton, nodup_append_comm, singleton_append,
      nodup_cons]
    refine ⟨fun hmem => ?_, h.nodup⟩
    obtain ⟨q, hq, heq⟩ := mem_map.1 hmem
    have := h.pid_lt q hq
    dsimp only at heq
    omega
  · rcases mem_append.1 hq with hq | hq
    · exact Nat.lt_succ_of_lt (h.pid_lt q hq)
    · obtain rfl := mem_singleton.1 hq
      exact Nat.lt_succ_self _
  · rcases mem_append.1 hq with hq | hq
    · exact Nat.lt_succ_of_lt (h.pgid_lt q hq)
    · obtain rfl := mem_singleton.1 hq
      exact hlt
  · rcases mem_append.1 hp with hp | hp <;> rcases mem_append.1 hq with hq | hq
    · exact h.one p hp q hq hlp hlq heq
    · obtain rfl := mem_singleton.1 hq
      exact hin p hp hlp (.inl heq)
    · obtain rfl := mem_singleton.1 hp
      exact (hin q hq hlq (.inl heq.symm)).symm
    · rw [mem_singleton.1 hp, mem_singleton.1 hq]
  · rcases mem_append.1 hp with hp | hp <;> rcases mem_append.1 hq with hq | hq
    · exact h.leader p hp q hq hlp hlq heq
    · obtain rfl := mem_singleton.1 hq
      exact (hin p hp hlp (.inr heq.symm)).symm
    · obtain rfl := mem_singleton.1 hp
      have := h.pgid_lt q hq
      dsimp only at heq
      omega
    · rw [mem_singleton.1 hp, mem_singleton.1 hq]

theorem Start.reap (h : s.Start) (keep : Proc → Bool) :
    { s with procs := s.procs.filter keep }.Start := by
  have hsub : ∀ {q}, q ∈ s.procs.filter keep → q ∈ s.procs := fun hq => (mem_filter.1 hq).1
  exact ⟨h.nodup.sublist (filter_sublist.map _), fun q hq => h.pid_lt q (hsub hq),
    fun q hq => h.pgid_lt q (hsub hq), fun p hp q hq => h.one p (hsub hp) q (hsub hq),
    fun p hp q hq => h.leader p (hsub hp) q (hsub hq)⟩

theorem Start.setsid (h : s.Start) (hself : self ∈ s.procs) :
    (s.setsid self).Start := by
  unfold State.setsid
  split
  · exact h
  · split
    · exact h
    next hno =>
      have hfree : ∀ q ∈ s.procs, 0 < q.live → q.pgid ≠ self.pid := by
        intro q hq hlq heq
        exact hno (any_eq_true.2 ⟨q, hq, by simpa using ⟨heq, hlq⟩⟩)
      refine h.move hself rfl rfl (h.pid_lt self hself) (fun _ q hq hne hlq heq => ?_)
        fun _ q hq _ hlq heq => ?_
      · exact absurd heq (not_or.2 ⟨hfree q hq hlq, hne⟩)
      · exact absurd heq (hfree q hq hlq)

theorem Start.setGroup (h : s.Start) {pid : ℕ}
    (hjoin : (target self pid pgid).2 = (target self pid pgid).1 ∨
      ∃ q ∈ s.procs, 0 < q.live ∧ q.pgid = (target self pid pgid).2 ∧ q.sid = self.sid) :
    (s.setGroup self pid pgid).Start := by
  unfold State.setGroup
  generalize target self pid pgid = goal at hjoin
  obtain ⟨pid, pgid⟩ := goal
  dsimp only at hjoin ⊢
  split
  · exact h
  next x hfind =>
    obtain ⟨hx, rfl⟩ := mem_of_find hfind
    split
    next hmay =>
      obtain ⟨-, -, hsid, -⟩ := hmay
      split
      · refine h.move hx rfl rfl ?_ (fun hlx q hq hne hlq heq => ?_) fun hlx q hq _ hlq heq => ?_
        · rcases hjoin with rfl | ⟨r, hr, -, rfl, -⟩
          · exact h.pid_lt x hx
          · exact h.pgid_lt r hr
        · dsimp only at hlx heq ⊢
          rcases hjoin with rfl | ⟨r, hr, hlr, rfl, hrsid⟩
          · exact h.leader x hx q hq hlx hlq (heq.resolve_right hne)
          · rw [hsid, ← hrsid]
            rcases heq with heq | heq
            · exact h.one q hq r hr hlq hlr heq
            · exact (h.leader q hq r hr hlq hlr heq.symm).symm
        · exact h.leader x hx q hq hlx hlq heq
      · exact h
    · exact h

theorem Start.act (h : s.Start) {f : Proc → State}
    (hf : ∀ self ∈ s.procs, self.pid = p → 0 < self.live → (f self).Start) : (s.act p f).Start := by
  unfold State.act
  split
  next self hfind =>
    obtain ⟨hmem, hpid⟩ := mem_of_find hfind
    split
    next hlive => exact hf self hmem hpid hlive
    · exact h
  · exact h

theorem Start.adopt (h : s.Start) (p : ℕ) : (s.adopt p).Start := by
  unfold State.adopt
  dsimp only
  split
  · exact ⟨h.nodup, h.pid_lt, h.pgid_lt, h.one, h.leader⟩
  · refine h.map _ fun q _ => ?_
    split <;> exact ⟨rfl, rfl, rfl, id⟩

theorem Start.setLive (h : s.Start) (hmem : self ∈ s.procs) (hlive : 0 < self.live) (f : ℕ → ℕ) :
    (s.update self.pid fun q => { q with live := f q.live }).Start := by
  refine h.map s.init fun q hq => ?_
  split
  next hpid =>
    rw [h.eq_of_pid hq hmem hpid]
    exact ⟨rfl, rfl, rfl, fun _ => hlive⟩
  · exact ⟨rfl, rfl, rfl, id⟩

theorem Start.step (h : s.Start) {e : Event} (he : s.JoinsLive e) : (s.step e).Start := by
  cases e with
  | fork p =>
    refine h.act fun self hmem _ hlive => h.add ?_
    exact .inr ⟨self, hmem, hlive, rfl, rfl⟩
  | spawn parentPid => exact h.add (.inl rfl)
  | thread p => exact h.act fun self hmem _ hlive => h.setLive hmem hlive (· + 1)
  | setsid p => exact h.act fun self hmem _ _ => h.setsid hmem
  | setGroup p pid pgid =>
    exact h.act fun self hmem hpid _ => h.setGroup (he p pid pgid rfl self hmem hpid)
  | exit p => exact h.act fun self hmem _ hlive => h.setLive hmem hlive (· - 1)
  | adopt p =>
    simp only [State.step]
    split
    · split
      · exact h.adopt p
      · exact h
    · exact h
  | reap p => exact h.reap _

end State

/-! ### Runs -/

def twoProcs : State where
  procs := [⟨1, 0, 1, 0, 1, true⟩, ⟨2, 1, 2, 0, 1, true⟩]
  nextPid := 3
  init := some 1

theorem start_twoProcs : twoProcs.Start where
  nodup := by decide
  pid_lt := by decide
  pgid_lt := by decide
  one := by decide
  leader := by decide

/-- Process 2 forks, its child moves to a group of its own, the parent follows and makes a new
session. -/
def followChild : List Event := [.fork 2, .setGroup 3 0 0, .setGroup 2 0 3, .setsid 2]

/-- Process 2 has two children, 3 and 4, and 3 ends. Then 4 makes a group, 2 joins it and makes a
new session, in group 2; 4 joins group 2, which it finds through 3. -/
def deadMember : List Event :=
  [.fork 2, .fork 2, .exit 3, .setGroup 4 0 0, .setGroup 2 0 4, .setsid 2, .setGroup 4 0 2]

end Bashket.Groups
