import Bashket.Ipc.LocalSockets

/-!
# What becomes of connections

What becomes of one end of a pair fits what becomes of the other: an end that was returned to the
connecting task had its other end queued, and one that was closed did not. A listener that a call
works on is not closed, since the call has a reference to its file.
-/

namespace Bashket.LocalSockets

open Run List

/-! ### What becomes of a pair -/

def Queued (log : List Act) (k : ℕ) : Prop := ∃ l, .queued k l ∈ log

/-- What a task is about to do with a pair agrees with what has become of it. -/
structure PcFate (log : List Act) (pc : Pc) : Prop where
  mine : ∀ k ∈ pc.mine, ¬ Queued log k
  discard : ∀ l k again, pc = .discard l k false again → .closedMine k ∈ log
  closeAll : ∀ waiting, pc = .closeAll waiting → ∀ k ∈ waiting, Queued log k

structure LogFate (log : List Act) (pairs : ℕ) : Prop where
  lt : ∀ k, Queued log k → k < pairs
  returned : ∀ k t, .returned k t ∈ log → Queued log k
  closedMine : ∀ k, .closedMine k ∈ log → ¬ Queued log k
  closedTheirs : ∀ k, .closedTheirs k false ∈ log → .closedMine k ∈ log
  closedWaiting : ∀ k, .closedTheirs k true ∈ log → Queued log k

section

variable {log : List Act} {a : Act} {k : ℕ} {pc : Pc}

theorem queued_append (ha : ∀ k l, a ≠ .queued k l) : Queued (log ++ [a]) k ↔ Queued log k := by
  unfold Queued
  refine exists_congr fun l => ?_
  rw [mem_append, mem_singleton]
  exact or_iff_left fun h => ha k l h.symm

theorem Queued.append (h : Queued log k) (as : List Act) : Queued (log ++ as) k := by
  obtain ⟨l, hl⟩ := h
  exact ⟨l, mem_append_left _ hl⟩

theorem PcFate.append (h : PcFate log pc) (ha : ∀ k l, a ≠ .queued k l) :
    PcFate (log ++ [a]) pc where
  mine k hk := by
    rw [queued_append ha]
    exact h.mine k hk
  discard l k again hpc := mem_append_left _ (h.discard l k again hpc)
  closeAll waiting hpc k hk := (h.closeAll waiting hpc k hk).append _

theorem PcFate.of_theirs_eq_mine (htheirs : pc.theirs = pc.mine)
    (hmine : ∀ k ∈ pc.mine, ¬ Queued log k) : PcFate log pc where
  mine := hmine
  discard l k again hpc := by
    subst hpc
    cases htheirs
  closeAll waiting hpc k hk := by
    subst hpc
    change waiting = [] at htheirs
    rw [htheirs] at hk
    cases hk

theorem PcFate.of_bare (h : State.Bare pc) : PcFate log pc := by
  refine .of_theirs_eq_mine (h.both.2.trans h.both.1.symm) fun j hj => ?_
  rw [h.both.1] at hj
  cases hj

theorem LogFate.append {pairs : ℕ} (h : LogFate log pairs) (ha : ∀ k l, a ≠ .queued k l)
    (hreturned : ∀ k t, a ≠ .returned k t) (hmine : ∀ k, a = .closedMine k → ¬ Queued log k)
    (htheirs : ∀ k, a = .closedTheirs k false → .closedMine k ∈ log)
    (hwaiting : ∀ k, a = .closedTheirs k true → Queued log k) : LogFate (log ++ [a]) pairs := by
  have hmem : ∀ {b}, b ∈ log ++ [a] → b ∈ log ∨ a = b := by
    intro b hb
    rw [mem_append, mem_singleton] at hb
    exact hb.imp_right Eq.symm
  refine ⟨fun k hk => ?_, fun k t hk => ?_, fun k hk => ?_, fun k hk => ?_, fun k hk => ?_⟩
  · rw [queued_append ha] at hk
    exact h.lt k hk
  · rw [queued_append ha]
    exact (hmem hk).elim (h.returned k t) fun he => absurd he (hreturned k t)
  · rw [queued_append ha]
    exact (hmem hk).elim (h.closedMine k) (hmine k)
  · exact mem_append_left _ ((hmem hk).elim (h.closedTheirs k) (htheirs k))
  · rw [queued_append ha]
    exact (hmem hk).elim (h.closedWaiting k) (hwaiting k)

end

namespace State

variable {s s' : State} {t : ℕ}

/-- The pairs, what tasks are about to do with them, and what has become of them. -/
structure FateOk (s : State) : Prop where
  log : LogFate s.log s.pairs
  pc : ∀ t, PcFate s.log (s.pc t)

theorem QueuesOk.queued_of_waiting (h : s.QueuesOk) {l k : ℕ} {x : Listener}
    (hx : s.table l = some x) (hk : k ∈ x.contents) : Queued s.log k := by
  have hmem : k ∈ queuedOn l s.log := by
    rw [← h.queue l x hx]
    exact mem_append_right _ hk
  obtain ⟨a, ha, heq⟩ := mem_filterMap.1 hmem
  split at heq
  next k' l' =>
    split at heq
    · cases heq
      exact ⟨l', ha⟩
    · cases heq
  · cases heq

theorem FateOk.record (h : s.FateOk) {a : Act} {pc : Pc} (ha : ∀ k l, a ≠ .queued k l)
    (hlog : LogFate (s.log ++ [a]) s.pairs) (hpc : PcFate (s.log ++ [a]) pc) :
    ((s.record a).goto t pc).FateOk := by
  refine ⟨hlog, fun u => ?_⟩
  rcases eq_or_ne u t with rfl | hne
  · rw [pc_goto_self]
    exact hpc
  · rw [pc_goto_of_ne hne]
    exact (h.pc u).append ha

theorem FateOk.goto (h : s.FateOk) {pc : Pc} (hpc : PcFate s.log pc) : (s.goto t pc).FateOk := by
  refine ⟨h.log, fun u => ?_⟩
  rcases eq_or_ne u t with rfl | hne
  · rw [pc_goto_self]
    exact hpc
  · rw [pc_goto_of_ne hne]
    exact h.pc u

theorem FateOk.queued (h : s.FateOk) (hmine : s.MineOk) {l k : ℕ}
    (hpc : s.pc t = .connect l (some k)) (x : Option Listener) :
    ((((s.setListener l x).record (.queued k l)).record (.returned k t)).goto t .idle).FateOk := by
  have hk : k ∈ (s.pc t).mine := by rw [hpc]; exact mem_singleton_self k
  have hlt : k < s.pairs := (hmine.held t k hk).1
  have hopen : .closedMine k ∉ s.log := by
    intro hclosed
    refine (hmine.held t k hk).2 ?_
    exact mem_filterMap.2 ⟨_, hclosed, rfl⟩
  -- only this pair has been queued now
  have hqueued : ∀ {j}, Queued (s.log ++ [.queued k l] ++ [.returned k t]) j →
      j = k ∨ Queued s.log j := by
    rintro j ⟨m, hm⟩
    rw [mem_append, mem_append, mem_singleton, mem_singleton] at hm
    rcases hm with (hm | hm) | hm
    · exact .inr ⟨m, hm⟩
    · exact .inl (Act.queued.inj hm).1
    · cases hm
  have hnow : Queued (s.log ++ [.queued k l] ++ [.returned k t]) k := ⟨l, by simp⟩
  have hbefore : ∀ {j}, Queued s.log j → Queued (s.log ++ [.queued k l] ++ [.returned k t]) j :=
    fun hj => (hj.append _).append _
  have hold : ∀ {b}, b ∈ s.log ++ [.queued k l] ++ [.returned k t] → b ∈ s.log ∨
      b = .queued k l ∨ b = .returned k t := by
    intro b hb
    rw [mem_append, mem_append, mem_singleton, mem_singleton] at hb
    tauto
  refine ⟨⟨fun j hj => ?_, fun j u hj => ?_, fun j hj hq => ?_, fun j hj => ?_, fun j hj => ?_⟩,
    fun u => ?_⟩
  · rcases hqueued hj with rfl | hj
    · exact hlt
    · exact h.log.lt j hj
  · rcases hold hj with hj | hj | hj
    · exact hbefore (h.log.returned j u hj)
    · cases hj
    · rw [(Act.returned.inj hj).1]
      exact hnow
  · have hj' : .closedMine j ∈ s.log := by
      rcases hold hj with hj | hj | hj
      · exact hj
      · cases hj
      · cases hj
    rcases hqueued hq with rfl | hq
    · exact hopen hj'
    · exact h.log.closedMine j hj' hq
  · rcases hold hj with hj | hj | hj
    · exact mem_append_left _ (mem_append_left _ (h.log.closedTheirs j hj))
    · cases hj
    · cases hj
  · rcases hold hj with hj | hj | hj
    · exact hbefore (h.log.closedWaiting j hj)
    · cases hj
    · cases hj
  · change PcFate (s.log ++ [.queued k l] ++ [.returned k t]) _
    rcases eq_or_ne u t with rfl | hne
    · rw [pc_goto_self]
      exact .of_bare rfl
    · rw [pc_goto_of_ne hne]
      have hu := h.pc u
      refine ⟨fun j hj hq => ?_, fun m j again he => ?_, fun waiting he j hj => ?_⟩
      · rcases hqueued hq with rfl | hq
        · exact hne (hmine.disjoint u t j hj hk)
        · exact hu.mine j hj hq
      · exact mem_append_left _ (mem_append_left _ (hu.discard m j again he))
      · exact hbefore (hu.closeAll waiting he j hj)

theorem FateOk.effect (h : s.FateOk) (hmine : s.MineOk) (hq : s.QueuesOk)
    (he : Effect s s') : s'.FateOk := by
  cases he with
  | same => exact h
  | @goto t pc hsame hpc hold _ =>
    refine h.goto (.of_theirs_eq_mine hpc fun k hk => ?_)
    rw [hsame] at hk
    exact (h.pc t).mine k hk
  | dup | create => exact ⟨h.log, h.pc⟩
  | @refs t l _ _ _ pc hx hold hnew _ =>
    refine FateOk.goto (s := s.setListener l _) ⟨h.log, h.pc⟩ (.of_bare hnew)
  | @make t l hpc =>
    have hnew : ¬ Queued s.log s.pairs := fun hk => lt_irrefl _ (h.log.lt _ hk)
    have hmore : { s with pairs := s.pairs + 1 }.FateOk :=
      ⟨{ h.log with lt := fun k hk => Nat.lt_succ_of_lt (h.log.lt k hk) }, h.pc⟩
    refine hmore.goto (.of_theirs_eq_mine rfl fun k hk => ?_)
    rw [mem_singleton.1 hk]
    exact hnew
  | queue hpc hx hroom => exact h.queued hmine hpc _
  | accept hpc hx hne =>
    refine FateOk.record (s := s.setListener _ _) ⟨h.log, h.pc⟩ nofun ?_
      (.of_bare rfl)
    exact h.log.append nofun nofun nofun nofun nofun
  | @closeMine t l k again hpc =>
    have hk : ¬ Queued s.log k := (h.pc t).mine k (by rw [hpc]; exact mem_singleton_self k)
    refine h.record nofun (h.log.append nofun nofun ?_ nofun nofun) ⟨nofun, ?_, nofun⟩
    · intro j hj
      obtain rfl := Act.closedMine.inj hj
      exact hk
    · rintro m j b hj
      obtain ⟨-, rfl, -⟩ := Pc.discard.inj hj
      simp
  | @closeTheirs t l k again pc hpc hnew _ =>
    refine h.record nofun (h.log.append nofun nofun nofun ?_ nofun) (.of_bare hnew)
    intro j hj
    obtain ⟨rfl, -⟩ := Act.closedTheirs.inj hj
    exact (h.pc t).discard l k again hpc
  | @closeWaiting t k rest hpc =>
    have hall := (h.pc t).closeAll _ hpc
    refine h.record nofun (h.log.append nofun nofun nofun nofun ?_) ⟨nofun, nofun, ?_⟩
    · intro j hj
      obtain ⟨rfl, -⟩ := Act.closedTheirs.inj hj
      exact hall k (mem_cons_self ..)
    · intro waiting hw j hj
      obtain rfl := Pc.closeAll.inj hw
      exact (hall j (mem_cons_of_mem _ hj)).append _
  | @shut t l u x hpc hx =>
    refine FateOk.goto (s := { s.setListener l none with used := u }) ⟨h.log, h.pc⟩
      ⟨nofun, nofun, ?_⟩
    intro waiting hw j hj
    obtain rfl := Pc.closeAll.inj hw
    exact hq.queued_of_waiting hx hj

end State

namespace State

variable {s s' : State} {t : ℕ}

theorem RefsOk.effect (h : s.RefsOk) (hq : s.QueuesOk) (he : Effect s s') : s'.RefsOk := by
  cases he with
  | same => exact h
  | goto _ _ _ htie => exact h.goto rfl htie
  | dup _ hrefs | refs _ _ _ hrefs => exact hrefs h
  | create hc =>
    have hnone : s.refs s.nextId = none := by
      rw [refs, (hq.fresh s.nextId le_rfl).1]
      rfl
    exact RefsOk.of_set (Handles.Ok.create h hnone)
  | make hpc => exact RefsOk.goto (s := { s with pairs := _ }) h hpc rfl
  | queue hpc hx _ => exact RefsOk.goto (s := (State.record _ _).record _) (h.setListener hx rfl rfl) hpc rfl
  | accept hpc hx _ => exact RefsOk.goto (s := State.record _ _) (h.setListener hx rfl rfl) hpc rfl
  | closeMine hpc | closeWaiting hpc => exact RefsOk.goto (s := s.record _) h hpc rfl
  | closeTheirs hpc _ htie => exact RefsOk.goto (s := s.record _) h hpc htie
  | @shut t l u x hpc _ =>
    unfold RefsOk
    rw [tie_goto]
    exact (refs_setListener s l none).symm ▸ Handles.Ok.finish h (tie_of_pc hpc)

/-! ### Runs -/

structure Inv (s : State) : Prop where
  mine : s.MineOk
  theirs : s.TheirsOk
  queues : s.QueuesOk
  fate : s.FateOk
  refs : s.RefsOk

theorem Inv.step (h : s.Inv) (e : Event) : (s.step e).Inv := by
  have he := effect_step s e
  exact ⟨h.mine.effect he, h.theirs.effect h.queues he, h.queues.effect he,
    h.fate.effect h.mine h.queues he, h.refs.effect h.queues he⟩

theorem start_inv : start.Inv where
  mine := .empty fun _ => rfl
  theirs := .empty fun h => by cases h <;> rfl
  queues := ⟨fun _ _ h => (nomatch h), fun _ _ h => (nomatch h), fun _ => prefix_rfl,
    fun _ _ => ⟨rfl, rfl⟩⟩
  fate := by
    have hno : ∀ k, ¬ Queued start.log k := fun k ⟨l, hl⟩ => not_mem_nil hl
    refine ⟨⟨fun k hk => absurd hk (hno k), ?_, ?_, ?_, ?_⟩, fun t => ?_⟩
    · exact fun k t ht => absurd ht not_mem_nil
    · exact fun k hk => absurd hk not_mem_nil
    · exact fun k hk => absurd hk not_mem_nil
    · exact fun k hk => absurd hk not_mem_nil
    · exact .of_bare rfl
  refs := fun _ _ _ => nofun

theorem Inv.settled (h : s.Inv) {k : ℕ} (hk : k < s.pairs) (hmine : ∀ t, k ∉ (s.pc t).mine)
    (htheirs : ∀ x, k ∉ s.theirs x) : s.Settled k := by
  have hm : k ∈ goneMine s.log :=
    count_pos_iff.1 (by rw [h.mine.count_gone hk hmine]; exact Nat.one_pos)
  have ht : k ∈ goneTheirs s.log :=
    count_pos_iff.1 (by rw [h.theirs.count_gone hk htheirs]; exact Nat.one_pos)
  obtain ⟨a, ha, hak⟩ := mem_filterMap.1 hm
  obtain ⟨b, hb, hbk⟩ := mem_filterMap.1 ht
  split at hak
  next k' u =>
    -- the connecting task has its end
    cases hak
    split at hbk
    next k'' v l =>
      cases hbk
      exact .inl ⟨u, v, l, ha, hb⟩
    next k'' listener =>
      cases hbk
      cases listener with
      | true => exact .inr (.inr ⟨u, ha, hb⟩)
      | false =>
        have hclosed := h.fate.log.closedTheirs _ hb
        exact absurd (h.fate.log.returned _ u ha) (h.fate.log.closedMine _ hclosed)
    · cases hbk
  next k' =>
    -- it was closed
    cases hak
    have hno := h.fate.log.closedMine _ ha
    split at hbk
    next k'' v l =>
      obtain rfl := Option.some.inj hbk
      have hmem : k'' ∈ acceptedFrom l s.log :=
        mem_filterMap.2 ⟨_, hb, if_pos rfl⟩
      obtain ⟨c, hc, hck⟩ := mem_filterMap.1 ((h.queues.order l).subset hmem)
      split at hck
      next k₃ m =>
        split at hck
        · cases hck
          exact absurd ⟨m, hc⟩ hno
        · cases hck
      · cases hck
    next k'' listener =>
      cases hbk
      cases listener with
      | true => exact absurd (h.fate.log.closedWaiting _ hb) hno
      | false => exact .inr (.inl ⟨ha, hb⟩)
    · cases hbk
  · cases hak

theorem Inv.oneOwner (h : s.Inv) : s.OneOwner where
  mine := h.mine
  theirs := h.theirs
  settled _ hk := h.settled hk
  listener t l hl := by
    have htie : ∃ b, s.tie t = some (l, b) := by
      unfold tie
      cases hpc : s.pc t with
      | accept | acceptAsleep | leave | close =>
        rw [hpc] at hl
        cases hl
        exact ⟨_, rfl⟩
      | idle | connect | make | discard | connectAsleep | closeAll =>
        rw [hpc] at hl
        cases hl
    obtain ⟨b, htie⟩ := htie
    cases hx : s.table l with
    | none => exact absurd htie (h.refs.gone (by rw [State.refs, hx]; rfl) t b)
    | some x => exact ⟨x, rfl⟩
  capacity l x hx := ⟨(h.queues.ring l x hx).count_le, (h.queues.ring l x hx).capacity_le⟩
  queue := h.queues.queue
  order := h.queues.order

end State

/-- Every end of a pair is with one task or in one queue until it is returned or closed, once. In
the end both ends are returned, or both closed, or, if the listener was closed before the accept,
one is returned to the connecting task and the other closed. -/
theorem connections_have_one_owner (es : List Event) :
    Always State.step State.OneOwner start es := by
  refine Always.mono (fun _ h => h.oneOwner)
    (always_of_induction (P := fun _ _ => True) (fun _ e h _ => h.step e) State.start_inv ?_)
  exact Along.of_forall fun _ _ => trivial

def closeBeforeAccept : List Event :=
  [.create 1, .connect 0 1, .look 0 .sleeps, .make 0 true, .look 0 .sleeps, .drop 1 1, .shut 1,
    .closeEnd 1, .closeEnd 1]

/-- The connecting task has its end, and the other one was closed without having been accepted. -/
theorem returned_and_closed :
    let s := run State.step start closeBeforeAccept
    s.pairs = 1 ∧ (∀ t, s.pc t = .idle) ∧ (∀ l, s.table l = none) ∧
      s.log = [.queued 0 1, .returned 0 0, .closedTheirs 0 true] := by
  refine ⟨rfl, fun t => ?_, fun l => ?_, rfl⟩
  · match t with
    | 0 | 1 | _ + 2 => rfl
  · match l with
    | 0 | 1 | _ + 2 => rfl

end Bashket.LocalSockets
