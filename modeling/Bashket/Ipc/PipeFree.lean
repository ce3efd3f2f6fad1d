import Bashket.Ipc.PipeEnds
import Bashket.Lib.Ledger

/-!
# Who frees a pipe

Every end of a pipe is with one file, or with the one task that closes it, until it is closed. So
each end is closed once, and the task that closes the second one is the only one to free the pipe. A
task that reads or writes has a reference to its file, whose ends are then open; only the writing
end of a local socket may be closed by then.
-/

namespace Bashket.PipeEnds

open Run Pipes List
open Function (update update_comm update_idem update_of_ne update_self)

/-! ### Who has the ends -/

/-- The ends a file has: those that are not closed yet, nor about to be. -/
def File.ends (x : File) : List ℕ :=
  match x.kind with
  | .pipe p side => if x.refs = 0 then [] else [endId p side]
  | .socket i o =>
    (if x.refs = 0 then [] else [endId i .reader]) ++ if x.localShut then [] else [endId o .writer]

theorem File.ends_last {x : File} (hpos : 0 < x.refs) (calls : List ℕ) :
    x.ends = x.kind.jobs.filterMap Job.closes ++ File.ends { x with refs := 0, calls } := by
  obtain ⟨kind, shut, refs, calls'⟩ := x
  have hne : refs ≠ 0 := hpos.ne'
  cases kind with
  | pipe p side | socket i o => simp [File.ends, Kind.jobs, Job.closes, hne]

theorem File.ends_of_pos {x y : File} (hkind : y.kind = x.kind) (hshut : y.localShut = x.localShut)
    (hx : 0 < x.refs) (hy : 0 < y.refs) : y.ends = x.ends := by
  simp only [File.ends, hkind, hshut, hx.ne', hy.ne']

namespace State

variable {s s' : State} {e : Event} {t f p : ℕ}

def own (s : State) : ℕ ⊕ ℕ → List ℕ
  | .inl t => (s.pc t).ends
  | .inr f => match s.files f with
    | some x => x.ends
    | none => []

/-- Every end is with one file or one task, until it is closed. -/
def EndsOk (s : State) : Prop := Ledger.Ok s.own s.closed (2 * s.made)

theorem own_file {x : File} (hx : s.files f = some x) : s.own (.inr f) = x.ends := by
  simp only [own, hx]

theorem own_goto_of_ne {pc : Pc} {h : ℕ ⊕ ℕ} (hne : h ≠ .inl t) :
    (s.goto t pc).own h = s.own h := by
  cases h with
  | inl u => simp only [own, pc_goto_of_ne (fun he => hne (congrArg Sum.inl he) : u ≠ t)]
  | inr f => rfl

theorem own_goto_self (s : State) (t : ℕ) (pc : Pc) : (s.goto t pc).own (.inl t) = pc.ends := by
  simp only [own, pc_goto_self]

theorem own_goto {pc : Pc} (h : pc.ends = (s.pc t).ends) : (s.goto t pc).own = s.own := by
  funext x
  by_cases hx : x = .inl t
  · subst hx
    rw [own_goto_self, h]
    rfl
  · exact own_goto_of_ne hx

theorem own_setFile_of_ne {x : Option File} {h : ℕ ⊕ ℕ} (hne : h ≠ .inr f) :
    (s.setFile f x).own h = s.own h := by
  cases h with
  | inl u => rfl
  | inr g =>
    have hg : g ≠ f := fun he => hne (congrArg Sum.inr he)
    have hfiles : (s.setFile f x).files g = s.files g := update_of_ne hg ..
    simp only [own, hfiles]

theorem own_setFile_self (s : State) (f : ℕ) (x : File) :
    (s.setFile f (some x)).own (.inr f) = x.ends :=
  own_file (update_self ..)

theorem own_setFile {x y : File} (hx : s.files f = some x) (hends : y.ends = x.ends) :
    (s.setFile f (some y)).own = s.own := by
  funext h
  by_cases hh : h = .inr f
  · subst hh
    rw [own_setFile_self, own_file hx, hends]
  · exact own_setFile_of_ne hh

theorem EndsOk.same (h : s.EndsOk) (hown : s'.own = s.own) (hclosed : s'.closed = s.closed)
    (hmade : s'.made = s.made) : s'.EndsOk := by
  unfold EndsOk
  rw [hown, hclosed, hmade]
  exact h

theorem own_allocFile (s : State) (kind : Kind) : (s.allocFile kind).own =
    update s.own (.inr s.opened) (File.ends ⟨kind, false, 1, []⟩) := by
  funext h
  by_cases hh : h = .inr s.opened
  · subst hh
    rw [update_self]
    exact own_setFile_self ..
  · rw [update_of_ne hh]
    exact own_setFile_of_ne (s := s) (x := some ⟨kind, false, 1, []⟩) hh

theorem EndsOk.newPipe (h : s.EndsOk) (hr : s.RefsOk) :
    Ledger.Ok (update (update s.own (.inr s.opened) [2 * s.made])
      (.inr (s.opened + 1)) [2 * s.made + 1]) s.closed (2 * s.made + 1 + 1) := by
  have ha : s.own (.inr s.opened) = [] := by simp only [own, hr.fresh _ le_rfl]
  have hb : s.own (.inr (s.opened + 1)) = [] := by simp only [own, hr.fresh _ (Nat.le_succ _)]
  refine (h.create_update _ ?_).create_update _ ?_
  · rw [ha]
  · rw [update_of_ne (by simp), hb]

theorem EndsOk.openPipe (h : s.EndsOk) (hr : s.RefsOk) : (s.step .openPipe).EndsOk := by
  have hown : (s.step .openPipe).own = _ :=
    (own_allocFile _ _).trans (congrArg (update · _ _) (own_allocFile s.createPipe _))
  unfold EndsOk
  rw [hown]
  exact h.newPipe hr

/-- Each new socket gets the reading end of one new pipe and the writing end of the other. -/
theorem EndsOk.openLocalPair (h : s.EndsOk) (hr : s.RefsOk) : (s.step .openLocalPair).EndsOk := by
  have hne : (.inr s.opened : ℕ ⊕ ℕ) ≠ .inr (s.opened + 1) := by simp
  have hown : (s.step .openLocalPair).own = _ :=
    (own_allocFile _ _).trans
      (congrArg (update · _ _) (own_allocFile s.createPipe.createPipe _))
  -- the ends of the first pipe, then those of the second one
  have htwo : Ledger.Ok (update (update (update
      (update s.own (.inr s.opened) [2 * s.made]) (.inr (s.opened + 1)) [2 * s.made + 1])
      (.inr (s.opened + 1)) [2 * s.made + 2, 2 * s.made + 1]) (.inr s.opened)
      [2 * s.made, 2 * s.made + 3]) s.closed (2 * s.made + 1 + 1 + 1 + 1) := by
    refine ((h.newPipe hr).create_update _ ?_).create_update _ ?_
    · rw [update_self]
    · rw [update_of_ne hne, update_of_ne hne, update_self]
      exact .swap ..
  rw [update_idem, update_comm hne.symm, update_idem] at htwo
  unfold EndsOk
  rw [hown]
  exact htwo

theorem EndsOk.fileClose (h : s.EndsOk) {x : File} {calls : List ℕ} (hx : s.files f = some x)
    (hpos : 0 < x.refs) (hpc : (s.pc t).ends = []) : (s.fileClose t f x calls).EndsOk := by
  simp only [State.fileClose]
  split
  next hleft =>
    have hset : (s.setFile f (some { x with refs := x.refs - 1, calls })).own = s.own :=
      own_setFile hx (File.ends_of_pos rfl rfl hpos hleft)
    refine h.same (Eq.trans (own_goto ?_) hset) rfl rfl
    exact hpc.symm
  next hlast =>
    have h0 : x.refs - 1 = 0 := Nat.eq_zero_of_not_pos hlast
    refine Ledger.Ok.move h (.inr f) (.inl t) (x.kind.jobs.filterMap Job.closes) nofun ?_ ?_
      fun y hf ht => ?_
    · rw [own_file hx, own_goto_of_ne Sum.inr_ne_inl, own_setFile_self, h0]
      exact .of_eq (File.ends_last hpos calls)
    · rw [own_goto_self, show s.own (.inl t) = [] from hpc, append_nil]
      rfl
    · rw [own_goto_of_ne ht, own_setFile_of_ne hf]

theorem EndsOk.closeEnd (h : s.EndsOk) {side : Side} {rest : List Job} {last : Bool}
    (hpc : s.pc t = .work f (.close p side :: rest) last) :
    (s.closeEnd t f p side rest last).EndsOk := by
  have hfrom : ∀ {jobs : List Job}, jobs.filterMap Job.closes = rest.filterMap Job.closes →
      s.own (.inl t) = endId p side :: (Pc.work f jobs last).ends := by
    intro jobs hjobs
    simp only [own, hpc, Pc.ends, hjobs]
    rfl
  simp only [State.closeEnd]
  split
  all_goals
    refine Ledger.Ok.drop h (.inl t) ?_ fun x hx => own_goto_of_ne hx
    rw [own_goto_self]
    exact hfrom rfl

theorem EndsOk.effect (h : s.EndsOk) (hr : s.RefsOk) (hfits : s.FitsOk) (he : Effect s e s') :
    s'.EndsOk := by
  cases he with
  | openPipe => exact h.openPipe hr
  | openLocalPair => exact h.openLocalPair hr
  | @dup _ f x hx hpos =>
    exact h.same (own_setFile hx (File.ends_of_pos rfl rfl hpos (Nat.succ_pos _))) rfl rfl
  | @enter _ t f x pc hpc hx hlt hcalls _ _ =>
    have hset : (s.setFile f (some { x with
        refs := x.refs + 1
        calls := t :: x.calls })).own = s.own :=
      own_setFile hx (File.ends_of_pos rfl rfl (Nat.zero_lt_of_lt hlt) (Nat.succ_pos _))
    have hold : (s.pc t).ends = [] := by rw [hpc]; rfl
    have hends : pc.ends = [] := by
      rcases hcalls with hcalls | rfl
      · exact hcalls.ends
      · rfl
    refine h.same (Eq.trans (own_goto ?_) hset) rfl rfl
    exact hends.trans hold.symm
  | next hpc hcalls _ _ _ _ =>
    exact h.same (own_goto (hcalls.ends.trans hpc.ends.symm)) rfl rfl
  | drop hpc hx hlt =>
    exact h.fileClose hx (Nat.zero_lt_of_lt hlt) (by rw [hpc]; rfl)
  | @leave _ t f x hpc hx =>
    exact h.fileClose hx ((hr.here hx).pos (by rw [file, hpc]; rfl)) (by rw [hpc]; rfl)
  | closeEnd hpc => exact h.closeEnd hpc
  | @exchange _ t f i o refs calls rest last hpc hx =>
    refine Ledger.Ok.move h (.inr f) (.inl t) [endId o .writer] nofun ?_ ?_ fun y hf ht => ?_
    · rw [own_file hx, own_goto_of_ne Sum.inr_ne_inl, own_setFile_self]
      simp only [File.ends, if_true, append_nil]
      exact perm_append_comm
    · simp only [own, pc_goto_self, hpc]
      rfl
    · rw [own_goto_of_ne ht, own_setFile_of_ne hf]
  | skip hpc _ => exact h.same (own_goto (by rw [hpc]; rfl)) rfl rfl
  | @kfree _ t f p rest last hpc =>
    have hends : (Pc.work f rest last).ends = (s.pc t).ends := by rw [hpc]; rfl
    exact h.same (own_goto hends) rfl rfl
  | @finish _ t f hpc =>
    -- the file has no ends any more
    have hfile : s.file t = some (f, true) := by rw [file, hpc]; rfl
    have hnone : s.own (.inr f) = [] := by
      cases hx : s.files f with
      | none => simp only [own, hx]
      | some x =>
        have h0 : x.refs = 0 := by
          by_contra hpos
          exact (hr.here hx).notLast (Nat.pos_of_ne_zero hpos) t hfile
        have hshut := hfits t f true x hfile hx
        rw [hpc] at hshut
        rw [own_file hx]
        obtain ⟨kind, shut, refs, calls⟩ := x
        cases kind with
        | pipe p side => exact if_pos h0
        | socket i o =>
          cases shut with
          | true => simp only [File.ends, show refs = 0 from h0, if_true, append_nil]
          | false => exact absurd (hshut rfl rfl ⟨i, o, rfl⟩) not_mem_nil
    refine h.same ?_ rfl rfl
    funext y
    by_cases ht : y = .inl t
    · subst ht
      rw [own_goto_self]
      simp only [own, hpc]
      rfl
    · rw [own_goto_of_ne ht]
      by_cases hf : y = .inr f
      · subst hf
        rw [hnone]
        simp only [own, State.setFile, update_self]
      · exact own_setFile_of_ne hf

end State

/-! ### The flags of the pipes, and who frees them -/

def sideOpen (x : Pipe) : Side → Bool
  | .reader => x.readerOpen
  | .writer => x.writerOpen

theorem endId_inj {p q : ℕ} {side side' : Side} (h : endId p side = endId q side') :
    p = q ∧ side = side' := by
  cases side <;> cases side' <;> simp only [endId] at h
  · exact ⟨by omega, rfl⟩
  · omega
  · omega
  · exact ⟨by omega, rfl⟩

theorem not_bothClosed {x : Pipe} {side : Side} (h : sideOpen x side = true) : ¬ BothClosed x := by
  rintro ⟨hr, hw⟩
  cases side with
  | reader => exact absurd (h.symm.trans hr) nofun
  | writer => exact absurd (h.symm.trans hw) nofun

theorem sideOpen_shutEnd_self (x : Pipe) (side : Side) :
    sideOpen (shutEnd x side) side = false := by
  cases side <;> rfl

theorem sideOpen_shutEnd_of_ne (x : Pipe) {side side' : Side} (h : side' ≠ side) :
    sideOpen (shutEnd x side) side' = sideOpen x side' := by
  cases side <;> cases side'
  · exact absurd rfl h
  · rfl
  · rfl
  · exact absurd rfl h

namespace State

variable {s s' : State} {e : Event} {t f p : ℕ} {side : Side} {rest : List Job} {last : Bool}
  {pc : Pc} {x : File}

def FlagsOk (s : State) : Prop :=
  ∀ p side, sideOpen (s.pipes p) side = true ↔ endId p side ∉ s.closed

theorem FlagsOk.same (h : s.FlagsOk) (hpipes : s'.pipes = s.pipes)
    (hclosed : s'.closed = s.closed) : s'.FlagsOk := by
  intro p side
  rw [hpipes, hclosed]
  exact h p side

theorem FlagsOk.createPipe (h : s.FlagsOk) (hends : ∀ k ∈ s.closed, k < 2 * s.made) :
    s.createPipe.FlagsOk := by
  intro p side
  rcases eq_or_ne p s.made with rfl | hne
  · have hopen : sideOpen (s.createPipe.pipes s.made) side = true := by
      rw [show s.createPipe.pipes s.made = _ from update_self ..]
      cases side <;> rfl
    refine iff_of_true hopen fun hmem => ?_
    have hlt := hends _ hmem
    cases side <;> simp only [endId] at hlt <;> omega
  · rw [show s.createPipe.pipes p = s.pipes p from update_of_ne hne ..]
    exact h p side

theorem FlagsOk.closeEnd (h : s.FlagsOk) :
    (s.closeEnd t f p side rest last).FlagsOk := by
  have hflags : ∀ q side', sideOpen (update s.pipes p (shutEnd (s.pipes p) side) q) side' =
      true ↔ endId q side' ∉ s.closed ++ [endId p side] := by
    intro q side'
    rw [mem_append, mem_singleton, not_or, ← h q side']
    rcases eq_or_ne q p with rfl | hq
    · rw [update_self]
      rcases eq_or_ne side' side with rfl | hside
      · rw [sideOpen_shutEnd_self]
        exact ⟨nofun, fun hn => absurd rfl hn.2⟩
      · rw [sideOpen_shutEnd_of_ne _ hside]
        exact (and_iff_left fun he => hside (endId_inj he).2).symm
    · rw [update_of_ne hq]
      exact (and_iff_left fun he => hq (endId_inj he).1).symm
  simp only [State.closeEnd]
  split
  · exact hflags
  · exact hflags

theorem FlagsOk.effect (h : s.FlagsOk) (hends : s.EndsOk) (he : Effect s e s') : s'.FlagsOk := by
  cases he with
  | openPipe => exact h.createPipe hends.lt
  | openLocalPair =>
    refine (h.createPipe hends.lt).createPipe fun k hk => ?_
    exact (hends.lt k hk).trans (Nat.mul_lt_mul_of_pos_left (Nat.lt_succ_self _) Nat.two_pos)
  | dup | enter | exchange | skip | kfree | finish => exact h.same rfl rfl
  | @next _ t f p y pc _ _ _ _ hreader hwriter =>
    intro q side
    rw [show ((s.setPipe p y).goto t pc).closed = s.closed from rfl, ← h q side]
    rcases eq_or_ne q p with rfl | hne
    · rw [show ((s.setPipe q y).goto t pc).pipes q = y from update_self ..]
      cases side with
      | reader => exact iff_of_eq (congrArg (· = true) hreader)
      | writer => exact iff_of_eq (congrArg (· = true) hwriter)
    · rw [show ((s.setPipe p y).goto t pc).pipes q = s.pipes q from update_of_ne hne ..]
  | drop | leave =>
    unfold State.fileClose
    split <;> exact h.same rfl rfl
  | closeEnd hpc => exact h.closeEnd

theorem FlagsOk.bothClosed_iff (h : s.FlagsOk) (p : ℕ) :
    BothClosed (s.pipes p) ↔ ∀ side, endId p side ∈ s.closed := by
  have hside : ∀ side, endId p side ∈ s.closed ↔ sideOpen (s.pipes p) side = false := by
    intro side
    rw [← Bool.not_eq_true, h p side, not_not]
  constructor
  · rintro ⟨hr, hw⟩ side
    rw [hside]
    cases side with
    | reader => exact hr
    | writer => exact hw
  · intro hall
    exact ⟨(hside .reader).1 (hall .reader), (hside .writer).1 (hall .writer)⟩

/-- Each pipe is freed once, and who frees it does so at once. -/
structure FreedOk (s : State) : Prop where
  notYet : ∀ p, ¬ BothClosed (s.pipes p) → s.freed p = 0 ∧ ∀ t, ¬ (s.pc t).Frees p
  closed : ∀ p, BothClosed (s.pipes p) →
    (s.freed p = 1 ∧ ∀ t, ¬ (s.pc t).Frees p) ∨ (s.freed p = 0 ∧ ∃! t, (s.pc t).Frees p)
  tail : ∀ t f jobs last, s.pc t = .work f jobs last → ∀ p, .kfree p ∉ jobs.tail

theorem FlagsOk.bothClosed_congr (h : s.FlagsOk) (h' : s'.FlagsOk) (hclosed : s'.closed = s.closed)
    (p : ℕ) : BothClosed (s'.pipes p) ↔ BothClosed (s.pipes p) := by
  rw [h.bothClosed_iff, h'.bothClosed_iff, hclosed]

theorem FreedOk.same (h : s.FreedOk)
    (hboth : ∀ p, BothClosed (s'.pipes p) ↔ BothClosed (s.pipes p)) (hfreed : s'.freed = s.freed)
    (hfrees : ∀ u p, (s'.pc u).Frees p ↔ (s.pc u).Frees p)
    (htail : ∀ u f jobs last, s'.pc u = .work f jobs last → ∀ p, .kfree p ∉ jobs.tail) :
    s'.FreedOk := by
  refine ⟨fun p hp => ?_, fun p hp => ?_, htail⟩
  · rw [hboth] at hp
    simp only [hfreed, hfrees]
    exact h.notYet p hp
  · rw [hboth] at hp
    simp only [hfreed, hfrees]
    exact h.closed p hp

theorem frees_goto (hpc : ∀ p, pc.Frees p ↔ (s.pc t).Frees p) (u p : ℕ) :
    ((s.goto t pc).pc u).Frees p ↔ (s.pc u).Frees p := by
  rcases eq_or_ne u t with rfl | hne
  · rw [pc_goto_self]
    exact hpc p
  · rw [pc_goto_of_ne hne]

theorem FreedOk.tail_goto (h : s.FreedOk)
    (hpc : ∀ f jobs last, pc = .work f jobs last → ∀ p, .kfree p ∉ jobs.tail) (u f : ℕ)
    (jobs : List Job) (last : Bool) (hu : (s.goto t pc).pc u = .work f jobs last) (p : ℕ) :
    .kfree p ∉ jobs.tail := by
  rcases eq_or_ne u t with rfl | hne
  · rw [pc_goto_self] at hu
    exact hpc f jobs last hu p
  · rw [pc_goto_of_ne hne] at hu
    exact h.tail u f jobs last hu p

theorem FreedOk.goto (h : s.FreedOk) (pc : Pc)
    (hboth : ∀ p, BothClosed (s'.pipes p) ↔ BothClosed (s.pipes p)) (hfreed : s'.freed = s.freed)
    (hs : s'.pc = (s.goto t pc).pc) (hold : ∀ p, ¬ (s.pc t).Frees p) (hpc : ∀ p, ¬ pc.Frees p)
    (htail : ∀ f jobs last, pc = .work f jobs last → ∀ p, .kfree p ∉ jobs.tail) : s'.FreedOk := by
  refine h.same hboth hfreed (fun u p => ?_) fun u f jobs last hu => ?_
  · rw [hs]
    exact frees_goto (fun p => iff_of_false (hpc p) (hold p)) u p
  · rw [hs] at hu
    exact h.tail_goto htail u f jobs last hu

theorem not_frees_work {jobs : List Job} (h : ∀ q, .kfree q ∉ jobs) (f : ℕ) (last : Bool) (p : ℕ) :
    ¬ (Pc.work f jobs last).Frees p := by
  cases jobs with
  | nil => exact id
  | cons j rest =>
    cases j with
    | close | exchange => exact id
    | kfree q => exact absurd (mem_cons_self ..) (h q)

theorem not_frees_of_pc (hpc : s.pc t = pc) (h : ∀ p, ¬ pc.Frees p) (p : ℕ) :
    ¬ (s.pc t).Frees p := by
  rw [hpc]
  exact h p

theorem FreedOk.closeEnd (h : s.FreedOk) (hf : s.FlagsOk) (hends : s.EndsOk)
    (hpc : s.pc t = .work f (.close p side :: rest) last) :
    (s.closeEnd t f p side rest last).FreedOk := by
  have hheld : endId p side ∈ s.own (.inl t) := by
    simp only [own, hpc]
    exact mem_cons_self ..
  -- the end was open, so that nobody has freed the pipe or is about to
  have hopen : ¬ BothClosed (s.pipes p) :=
    not_bothClosed ((hf p side).2 (hends.held _ _ hheld).2)
  obtain ⟨hzero, hnone⟩ := h.notYet p hopen
  have hrest : ∀ q, .kfree q ∉ rest := h.tail t f _ last hpc
  have hold := not_frees_of_pc hpc fun _ => id
  have hother : ∀ {q : ℕ}, q ≠ p →
      update s.pipes p (shutEnd (s.pipes p) side) q = s.pipes q :=
    fun hq => update_of_ne hq ..
  have hself : update s.pipes p (shutEnd (s.pipes p) side) p = shutEnd (s.pipes p) side :=
    update_self ..
  simp only [State.closeEnd]
  split
  next hboth =>
    -- the task is the one to free it
    have hfrees : ∀ {q : ℕ}, q ≠ p → ∀ u,
        ((s.goto t (.work f (.kfree p :: rest) last)).pc u).Frees q ↔ (s.pc u).Frees q :=
      fun hq u => by
        rcases eq_or_ne u t with rfl | hne
        · rw [pc_goto_self]
          exact iff_of_false (fun he => hq he.symm) (hold _)
        · rw [pc_goto_of_ne hne]
    refine ⟨fun q hq => ?_, fun q hq => ?_, h.tail_goto fun g jobs last' he => ?_⟩
    · have hne : q ≠ p := by
        rintro rfl
        exact hq (by rw [← hself] at hboth; exact hboth)
      have hq' : ¬ BothClosed (s.pipes q) := by
        rw [← hother hne]
        exact hq
      exact ⟨(h.notYet q hq').1, fun u hu => (h.notYet q hq').2 u ((hfrees hne u).1 hu)⟩
    · rcases eq_or_ne q p with rfl | hne
      · refine .inr ⟨hzero, t, ?_, fun u hu => ?_⟩
        · change ((s.goto t _).pc t).Frees q
          rw [pc_goto_self]
          rfl
        · by_contra hne
          change ((s.goto t _).pc u).Frees q at hu
          rw [pc_goto_of_ne hne] at hu
          exact hnone u hu
      · have hq' : BothClosed (s.pipes q) := by
          rw [← hother hne]
          exact hq
        have hclosed := h.closed q hq'
        simp only [← hfrees hne] at hclosed
        exact hclosed
    · cases he
      exact hrest
  next hboth =>
    refine h.goto (.work f rest last) (fun q => ?_) rfl rfl hold (not_frees_work hrest f last) ?_
    · rcases eq_or_ne q p with rfl | hne
      · refine iff_of_false (fun hq => hboth ?_) hopen
        rw [← hself]
        exact hq
      · exact iff_of_eq (congrArg BothClosed (hother hne))
    · rintro _ _ _ ⟨⟩ q hq
      exact hrest q (mem_of_mem_tail hq)

theorem FreedOk.kfree (h : s.FreedOk) (hpc : s.pc t = .work f (.kfree p :: rest) last) :
    ({ s with freed := update s.freed p (s.freed p + 1) }.goto t
      (.work f rest last)).FreedOk := by
  have hfrees : (s.pc t).Frees p := by
    rw [hpc]
    rfl
  have hrest : ∀ q, .kfree q ∉ rest := h.tail t f _ last hpc
  have hboth : BothClosed (s.pipes p) := by
    by_contra hopen
    exact (h.notYet p hopen).2 t hfrees
  have hnew : ∀ q u, ((s.goto t (.work f rest last)).pc u).Frees q ↔ u ≠ t ∧ (s.pc u).Frees q := by
    intro q u
    rcases eq_or_ne u t with rfl | hne
    · rw [pc_goto_self]
      exact iff_of_false (not_frees_work hrest f last q) fun hn => hn.1 rfl
    · rw [pc_goto_of_ne hne]
      exact (and_iff_right hne).symm
  have hsame : ∀ q, q ≠ p → ∀ u,
      ((s.goto t (.work f rest last)).pc u).Frees q ↔ (s.pc u).Frees q := by
    intro q hq u
    rw [hnew]
    refine and_iff_right_of_imp ?_
    rintro hu rfl
    rw [hpc] at hu
    exact hq hu.symm
  refine ⟨fun q hq => ?_, fun q hq => ?_, h.tail_goto fun g jobs last' he => ?_⟩
  · have hne : q ≠ p := by
      rintro rfl
      exact hq hboth
    obtain ⟨hzero, hno⟩ := h.notYet q hq
    exact ⟨(update_of_ne hne ..).trans hzero, fun u hu => hno u ((hsame q hne u).1 hu)⟩
  · rcases eq_or_ne q p with rfl | hne
    · -- nobody else is about to
      obtain ⟨-, hno⟩ | ⟨hzero, honly⟩ := h.closed q hboth
      · exact absurd hfrees (hno t)
      · refine .inl ⟨(update_self ..).trans (congrArg (· + 1) hzero), fun u hu => ?_⟩
        obtain ⟨hne, hu⟩ := (hnew q u).1 hu
        exact hne (honly.unique hu hfrees)
    · have hclosed := h.closed q hq
      simp only [← hsame q hne] at hclosed
      rw [show s.freed q = update s.freed p (s.freed p + 1) q from
        (update_of_ne hne ..).symm] at hclosed
      exact hclosed
  · cases he
    exact fun q hq => hrest q (mem_of_mem_tail hq)

theorem FreedOk.fileClose (h : s.FreedOk) {calls : List ℕ} (hold : ∀ p, ¬ (s.pc t).Frees p) :
    (s.fileClose t f x calls).FreedOk := by
  have hjobs : ∀ q, .kfree q ∉ x.kind.jobs := by
    intro q
    cases x.kind <;> simp [Kind.jobs]
  simp only [State.fileClose]
  split
  · exact h.goto .idle (fun _ => Iff.rfl) rfl rfl hold (fun _ => id) nofun
  · refine h.goto (.work f x.kind.jobs true) (fun _ => Iff.rfl) rfl rfl hold
      (not_frees_work hjobs f true) ?_
    rintro _ _ _ ⟨⟩ q hq
    exact hjobs q (mem_of_mem_tail hq)

theorem FreedOk.effect (h : s.FreedOk) (hf : s.FlagsOk) (hends : s.EndsOk) (he : Effect s e s')
    (hf' : s'.FlagsOk) : s'.FreedOk := by
  cases he with
  | openPipe | openLocalPair | dup =>
    exact h.same (hf.bothClosed_congr hf' rfl) rfl (fun _ _ => Iff.rfl) h.tail
  | @enter _ t f x pc hpc hx hlt hcalls _ _ =>
    have hold := not_frees_of_pc hpc fun _ => id
    rcases hcalls with hcalls | rfl
    · refine h.goto pc (fun _ => Iff.rfl) rfl rfl hold hcalls.frees fun g jobs last hj => ?_
      rw [hcalls.jobs g jobs last hj]
      exact fun _ => not_mem_nil
    · refine h.goto (.work f [.exchange] false) (fun _ => Iff.rfl) rfl rfl hold
        (fun _ => id) ?_
      rintro _ _ _ ⟨⟩ q
      exact not_mem_nil
  | @next _ t f p y pc hpc hcalls _ _ _ _ =>
    refine h.goto pc (hf.bothClosed_congr hf' rfl) rfl rfl hpc.frees hcalls.frees
      fun g jobs last hj => ?_
    rw [hcalls.jobs g jobs last hj]
    exact fun _ => not_mem_nil
  | drop hpc hx hlt | leave hpc hx => exact h.fileClose (not_frees_of_pc hpc fun _ => id)
  | closeEnd hpc => exact h.closeEnd hf hends hpc
  | @exchange _ t f i o refs calls rest last hpc hx =>
    have hrest := h.tail t f _ last hpc
    refine h.goto (.work f (.close o .writer :: rest) last) (fun _ => Iff.rfl) rfl rfl
      (not_frees_of_pc hpc fun _ => id) (fun _ => id) ?_
    rintro _ _ _ ⟨⟩ q
    exact hrest q
  | @skip _ t f rest last hpc hx =>
    have hrest := h.tail t f _ last hpc
    refine h.goto (.work f rest last) (fun _ => Iff.rfl) rfl rfl (not_frees_of_pc hpc fun _ => id)
      (not_frees_work hrest f last) ?_
    rintro _ _ _ ⟨⟩ q hq
    exact hrest q (mem_of_mem_tail hq)
  | kfree hpc => exact h.kfree hpc
  | @finish _ t f hpc =>
    exact h.goto .idle (fun _ => Iff.rfl) rfl rfl (not_frees_of_pc hpc fun _ => id) (fun _ => id)
      nofun

/-! ### Runs -/

structure Inv (s : State) : Prop where
  refs : s.RefsOk
  fits : s.FitsOk
  ends : s.EndsOk
  flags : s.FlagsOk
  freed : s.FreedOk

theorem Inv.step (h : s.Inv) (hchecked : s.CheckedOk) (hquiet : s.ShutsQuiet e) :
    (s.step e).Inv ∧ (s.step e).CheckedOk := by
  rcases effect_step s e with hsame | he
  · rw [hsame]
    exact ⟨h, hchecked⟩
  · have hflags := h.flags.effect h.ends he
    obtain ⟨hfits, hchecked⟩ :=
      suitsAll_iff.1 ((suitsAll_iff.2 ⟨h.fits, hchecked⟩).effect h.refs hquiet he)
    exact ⟨⟨h.refs.effect he, hfits, h.ends.effect h.refs h.fits he, hflags,
      h.freed.effect h.flags h.ends he hflags⟩, hchecked⟩

theorem start_inv : start.Inv where
  refs := ⟨fun _ _ _ => nofun, fun _ _ => rfl⟩
  fits := nofun
  ends := .empty fun h => by cases h <;> rfl
  flags p side := by
    cases side with
    | reader | writer => exact ⟨fun _ => not_mem_nil, fun _ => rfl⟩
  freed := ⟨fun _ _ => ⟨rfl, fun _ => id⟩, fun _ hp => absurd hp.1 nofun, nofun⟩

theorem Inv.allFreed (h : s.Inv) (hidle : ∀ t, s.pc t = .idle)
    (hrefs : ∀ f x, s.files f = some x → x.refs = 0) (hp : p < s.made) : s.freed p = 1 := by
  -- there are no files: each would have a task that closes it
  have hnone : ∀ f, s.files f = none := by
    intro f
    by_contra hf
    obtain ⟨x, hx⟩ := Option.ne_none_iff_exists'.1 hf
    obtain ⟨t, ht, -⟩ := (h.refs.here hx).last (hrefs f x hx)
    rw [file, hidle t] at ht
    cases ht
  have hown : ∀ x, s.own x = [] := by
    intro x
    cases x with
    | inl t =>
      simp only [own, hidle t]
      rfl
    | inr f => simp only [own, hnone f]
  have hboth : BothClosed (s.pipes p) := by
    rw [h.flags.bothClosed_iff]
    intro side
    by_contra hopen
    have hlt : endId p side < 2 * s.made := by
      cases side <;> simp only [endId] <;> omega
    obtain ⟨x, hx⟩ := h.ends.kept _ hlt hopen
    rw [hown x] at hx
    cases hx
  obtain ⟨hone, -⟩ | ⟨-, t, ht, -⟩ := h.freed.closed p hboth
  · exact hone
  · rw [hidle t] at ht
    exact ht.elim

theorem Inv.freedOnce (h : s.Inv) : s.FreedOnce :=
  ⟨h.freed.notYet, h.freed.closed, fun hidle hrefs _ hp => h.allFreed hidle hrefs hp⟩

theorem Inv.open_of_mem (h : s.Inv) (hx : s.files f = some x) (hmem : endId p side ∈ x.ends) :
    ¬ BothClosed (s.pipes p) := by
  refine not_bothClosed ((h.flags p side).2 ?_)
  refine (h.ends.held (.inr f) _ ?_).2
  rw [own_file hx]
  exact hmem

theorem mem_ends_of_source (hsource : x.kind.source = some p) (hpos : 0 < x.refs) :
    endId p .reader ∈ x.ends := by
  obtain ⟨kind, shut, refs, calls⟩ := x
  have hne : refs ≠ 0 := hpos.ne'
  match kind with
  | .pipe q .reader =>
    cases hsource
    simp [File.ends, hne]
  | .socket i o =>
    cases hsource
    simp [File.ends, hne]

theorem mem_ends_of_target (htarget : x.kind.target = some p) (hpos : 0 < x.refs)
    (hshut : (∃ i o, x.kind = .socket i o) → x.localShut = false) : endId p .writer ∈ x.ends := by
  obtain ⟨kind, shut, refs, calls⟩ := x
  have hne : refs ≠ 0 := hpos.ne'
  match kind with
  | .pipe q .writer =>
    cases htarget
    simp [File.ends, hne]
  | .socket i o =>
    cases htarget
    simp [File.ends, show shut = false from hshut ⟨i, p, rfl⟩]

theorem Inv.usesOpen (h : s.Inv) (hchecked : s.CheckedOk) (e : Event) : s.UsesOpen e := by
  rintro t interrupted p - huses
  -- a call has a reference to its file
  have hcall : ∀ f, s.file t = some (f, false) → ∃ x, s.files f = some x ∧ 0 < x.refs ∧
      (s.pc t).Fits x ∧ (s.pc t).Checked x f := by
    intro f hfile
    cases hx : s.files f with
    | none => exact absurd hfile (h.refs.gone hx t false)
    | some x =>
      exact ⟨x, rfl, (h.refs.here hx).pos hfile, h.fits t f false x hfile hx,
        hchecked t f x hx⟩
  have hopen : ¬ BothClosed (s.pipes p) := by
    cases hpc : s.pc t with
    | read f q count | pollIn f q =>
      rw [hpc] at huses
      cases huses
      obtain ⟨x, hx, hpos, hfits, -⟩ := hcall f (by rw [file, hpc]; rfl)
      rw [hpc] at hfits
      exact h.open_of_mem hx (mem_ends_of_source hfits hpos)
    | write f q src done | pollOut f q =>
      rw [hpc] at huses
      cases huses
      obtain ⟨x, hx, hpos, hfits, hchecked⟩ := hcall f (by rw [file, hpc]; rfl)
      rw [hpc] at hfits hchecked
      exact h.open_of_mem hx (mem_ends_of_target hfits hpos (hchecked rfl))
    | idle | checkWrite | checkPoll | work | leave =>
      rw [hpc] at huses
      cases huses
  exact ⟨hopen, (h.freed.notYet p hopen).1⟩

end State

/-- If local sockets are shut down only while nobody is writing to them, no step of `pipe_read`,
`pipe_write` or `pipe_poll` is on a pipe with both ends closed, and each pipe is freed once. -/
theorem pipe_not_used_after_free (es : List Event)
    (h : Along State.step State.ShutsQuiet start es) :
    Along State.step State.UsesOpen start es ∧ Always State.step State.FreedOnce start es := by
  have hstep (s : State) (e : Event) (hs : s.Inv ∧ s.CheckedOk) (hquiet : s.ShutsQuiet e) :=
    hs.1.step hs.2 hquiet
  have hstart : start.Inv ∧ start.CheckedOk := ⟨State.start_inv, nofun⟩
  constructor
  · exact Along.mono (fun _ e hs => hs.1.1.usesOpen hs.1.2 e) (Along.with_invariant hstep hstart h)
  · exact Always.mono (fun _ hs => hs.1.freedOnce) (always_of_induction hstep hstart h)

/-- A task writes to a socket.  When it is done another one shuts the socket down. -/
def writeThenShut : List Event :=
  [.openLocalPair, .write 0 0 [1], .turn 0 false, .turn 0 false, .turn 0 false, .shutdown 1 0,
    .turn 1 false, .turn 1 false]

theorem pipe_not_used_after_free_writeThenShut :
    Along State.step State.ShutsQuiet start writeThenShut ∧
      Along State.step State.UsesOpen start writeThenShut ∧
      Always State.step State.FreedOnce start writeThenShut := by
  have hquiet : Along State.step State.ShutsQuiet start writeThenShut := by
    refine ⟨nofun, nofun, ?_, ?_, ?_, nofun, ?_, ?_, trivial⟩
    · rintro _ _ _ _ ⟨⟩ hpc
      cases hpc
    · rintro _ _ _ _ ⟨⟩ hpc
      cases hpc
    · rintro _ _ _ _ ⟨⟩ hpc
      cases hpc
    · rintro _ _ _ _ ⟨⟩ - u
      match u with
      | 0 | 1 | _ + 2 => nofun
    · rintro _ _ _ _ ⟨⟩ hpc
      cases hpc
  exact ⟨hquiet, pipe_not_used_after_free writeThenShut hquiet⟩

/-- A task has looked at `local_shut` and is about to write; then another one shuts the socket down,
and the socket at the other end is closed. -/
def shutDuringWrite : List Event :=
  [.openLocalPair, .write 0 0 [1], .turn 0 false, .shutdown 1 0, .turn 1 false, .turn 1 false,
    .turn 1 false, .turn 1 false, .drop 2 1, .turn 2 false, .turn 2 false]

/-- Its next step is on a pipe with both ends closed, which has been freed. -/
theorem write_after_free :
    let s := run State.step start shutDuringWrite
    (s.pc 0).uses = some 1 ∧ BothClosed (s.pipes 1) ∧ s.freed 1 = 1 ∧
      ¬ Along State.step State.UsesOpen start (shutDuringWrite ++ [.turn 0 false]) := by
  refine ⟨rfl, ⟨rfl, rfl⟩, rfl, fun h => ?_⟩
  have huse := ((along_append _ _ _).1 h).2.1
  exact (huse 0 false 1 rfl rfl).1 ⟨rfl, rfl⟩

end Bashket.PipeEnds
