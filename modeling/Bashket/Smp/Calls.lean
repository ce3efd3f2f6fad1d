import Bashket.Lib.Run

/-!
# Running a function on another CPU

`smp_call` and `smp_handle_ipi` of `smp.c`, for `n` CPUs. Each CPU has one request slot with the
word `call_pending`: a caller claims the slot, writes the function and its argument, publishes them
and may wait until the word is 0 again; the CPU itself runs what is published when it takes an
interrupt. A caller has its interrupts off from the claim to the return.

The calls are numbered in the order in which they begin. Which call has claimed a slot, the
functions that were run and the calls that have returned are kept only to state what is to hold.
-/

namespace Bashket.SmpCalls

open Run List
open Function (update update_of_ne update_self)

/-- `call_pending`: 0, 3, 1 and 2. -/
inductive Pending
  | free
  | claimed
  | published
  | running
deriving DecidableEq

/-- The arguments of `smp_call`: functions and arguments are numbers. -/
structure Call (n : ℕ) where
  target : Fin n
  fn : ℕ
  arg : ℕ
  wait : Bool
deriving DecidableEq

/-- A request slot; `owner`: the call that has claimed it last. -/
structure Slot where
  pending : Pending
  callFn : ℕ
  callArg : ℕ
  owner : ℕ

/-- How far a call is: it has the slot to claim, to fill in and to publish, and then waits. -/
inductive Phase
  | claim
  | fill
  | publish
  | wait
deriving DecidableEq

/-- Where a CPU is: its interrupts are on, or a function runs there, or it is in the call `i`. -/
inductive Pc (n : ℕ)
  | idle
  | call (k : Call n) (i : ℕ) (phase : Phase)
deriving DecidableEq

/-- A function that was run: for which call, where, and with which argument. -/
structure Ran (n : ℕ) where
  call : ℕ
  cpu : Fin n
  fn : ℕ
  arg : ℕ

/-- The calls that have begun, those that were accepted, the functions that were run, the calls
whose function has ended, and the waiting calls that have returned. -/
structure State (n : ℕ) where
  slot : Fin n → Slot
  pc : Fin n → Pc n
  halted : Bool
  calls : List (Call n)
  accepted : List ℕ
  ran : List (Ran n)
  ended : List ℕ
  returned : List ℕ

inductive Event (n : ℕ)
  | smpCall (c : Fin n) (k : Call n)
  | turn (c : Fin n)
  /-- `smp_handle_ipi` begins to run a function, and the function ends -/
  | interrupt (c : Fin n)
  | done (c : Fin n)
  | halt

variable {n : ℕ}

namespace State

variable (s : State n)

def goto (c : Fin n) (pc : Pc n) : State n := { s with pc := update s.pc c pc }

def setSlot (d : Fin n) (x : Slot) : State n := { s with slot := update s.slot d x }

def turn (c : Fin n) : State n :=
  match s.pc c with
  | .idle => s
  | .call k i .claim =>
    if (s.slot k.target).pending = .free then
      (s.setSlot k.target { s.slot k.target with pending := .claimed, owner := i }).goto c
        (.call k i .fill)
    else s
  | .call k i .fill =>
    (s.setSlot k.target { s.slot k.target with callFn := k.fn, callArg := k.arg }).goto c
      (.call k i .publish)
  | .call k i .publish =>
    { (s.setSlot k.target { s.slot k.target with pending := .published }).goto c
        (if k.wait then .call k i .wait else .idle) with
      accepted := i :: s.accepted }
  | .call k i .wait =>
    if (s.slot k.target).pending = .free ∨ s.halted = true then
      { s.goto c .idle with returned := i :: s.returned }
    else s

/-- `smp_handle_ipi` finds a request. -/
def interrupt (c : Fin n) : State n :=
  let x := s.slot c
  { s.setSlot c { x with pending := .running } with
    ran := ⟨x.owner, c, x.callFn, x.callArg⟩ :: s.ran }

def done (c : Fin n) : State n :=
  { s.setSlot c { s.slot c with pending := .free } with ended := (s.slot c).owner :: s.ended }

/-- One that cannot happen changes nothing. A CPU in a call has its interrupts off, and a function
that is run may make calls itself. -/
def step : Event n → State n
  | .smpCall c k =>
    if s.pc c = .idle ∧ k.target ≠ c then
      { s.goto c (.call k s.calls.length .claim) with calls := s.calls ++ [k] }
    else s
  | .turn c => s.turn c
  | .interrupt c =>
    if s.pc c = .idle ∧ (s.slot c).pending = .published then s.interrupt c else s
  | .done c => if s.pc c = .idle ∧ (s.slot c).pending = .running then s.done c else s
  | .halt => { s with halted := true }

end State

def start : State n where
  slot _ := ⟨.free, 0, 0, 0⟩
  pc _ := .idle
  halted := false
  calls := []
  accepted := []
  ran := []
  ended := []
  returned := []

/-! ### What is to hold -/

namespace State

variable (s : State n) {k : Call n} {i : ℕ} {phase : Phase} {pc : Pc n}

/-- Every function accepted is run once, on its target and with its own argument, or is about to be;
and has ended before a caller that waits returns. -/
structure RunOnce : Prop where
  once : (s.ran.map Ran.call).Nodup
  own : ∀ r ∈ s.ran, r.call ∈ s.accepted ∧
    ∃ wait, s.calls[r.call]? = some ⟨r.cpu, r.fn, r.arg, wait⟩
  kept : ∀ i ∈ s.accepted, i ∈ s.ran.map Ran.call ∨
    ∃ d, (s.slot d).owner = i ∧ (s.slot d).pending = .published
  waited : s.halted = false → ∀ i ∈ s.returned, i ∈ s.ended

/-- The CPU is in one of the two loops of a call for the CPU `d`. -/
def WaitsFor (c d : Fin n) : Prop :=
  match s.pc c with
  | .call k _ .claim | .call k _ .wait => k.target = d
  | _ => False

instance (c d : Fin n) : Decidable (s.WaitsFor c d) := by
  unfold WaitsFor
  split <;> infer_instance

/-- There is no set of CPUs each of which waits for another one of the set. -/
def NoRing : Prop := ∀ S : Finset (Fin n), S.Nonempty → ¬ ∀ c ∈ S, ∃ d ∈ S, s.WaitsFor c d

instance : Decidable s.NoRing := inferInstanceAs (Decidable (∀ _ : Finset (Fin n), _ → ¬ _))

/-- A call begins only for a CPU that is not in a call itself. -/
def TargetFree : Event n → Prop
  | .smpCall _ k => s.pc k.target = .idle
  | _ => True

instance (e : Event n) : Decidable (s.TargetFree e) := by
  unfold TargetFree
  split <;> infer_instance

/-! ### The calls in progress -/

def PcOk : Pc n → Prop
  | .idle => True
  | .call k i .claim => s.calls[i]? = some k ∧ i ∉ s.accepted
  | .call k i .fill => s.calls[i]? = some k ∧ i ∉ s.accepted ∧
      (s.slot k.target).pending = .claimed ∧ (s.slot k.target).owner = i
  | .call k i .publish => s.calls[i]? = some k ∧ i ∉ s.accepted ∧
      (s.slot k.target).pending = .claimed ∧ (s.slot k.target).owner = i ∧
      (s.slot k.target).callFn = k.fn ∧ (s.slot k.target).callArg = k.arg
  | .call k i .wait => s.calls[i]? = some k ∧
      (((s.slot k.target).owner = i ∧ (s.slot k.target).pending ≠ .free) ∨ i ∈ s.ended)

/-- What holds of a slot: what is published is what was asked for, and it has not been run. -/
def SlotOk (d : Fin n) : Prop :=
  (s.slot d).pending = .published →
    (∃ wait, s.calls[(s.slot d).owner]? =
      some ⟨d, (s.slot d).callFn, (s.slot d).callArg, wait⟩) ∧
    (s.slot d).owner ∈ s.accepted ∧ (s.slot d).owner ∉ s.ran.map Ran.call

structure Inv : Prop where
  pcs : ∀ c, s.PcOk (s.pc c)
  slots : ∀ d, s.SlotOk d
  alone : ∀ c c' k k' i phase phase', s.pc c = .call k i phase → s.pc c' = .call k' i phase' →
    c = c'
  runs : s.RunOnce

variable {s} {s' : State n} {c : Fin n}

theorem PcOk.calls (h : s.PcOk (.call k i phase)) :
    s.calls[i]? = some k := by
  cases phase with
  | claim | fill | publish | wait => exact h.1

theorem Inv.lt (h : s.Inv) (hc : s.pc c = .call k i phase) :
    i < s.calls.length := by
  have hok := h.pcs c
  rw [hc] at hok
  exact (List.getElem?_eq_some_iff.1 hok.calls).1

/-- A slot that its call has claimed stays as it is, and one that its call waits for keeps its
owner, or the function has ended. -/
theorem PcOk.frame (h : s.PcOk pc)
    (hcalls : ∀ (i : ℕ) k, s.calls[i]? = some k → s'.calls[i]? = some k)
    (haccepted : ∀ k i phase, pc = .call k i phase → i ∈ s'.accepted → i ∈ s.accepted)
    (hclaimed : ∀ k i phase, pc = .call k i phase → (s.slot k.target).pending = .claimed →
      (s.slot k.target).owner = i → s'.slot k.target = s.slot k.target)
    (hwait : ∀ d i, ((s.slot d).owner = i ∧ (s.slot d).pending ≠ .free) ∨ i ∈ s.ended →
      ((s'.slot d).owner = i ∧ (s'.slot d).pending ≠ .free) ∨ i ∈ s'.ended) :
    s'.PcOk pc := by
  cases pc with
  | idle => trivial
  | call k i phase =>
    have hacc := haccepted k i phase rfl
    cases phase with
    | claim => exact ⟨hcalls _ _ h.1, fun hmem => h.2 (hacc hmem)⟩
    | fill =>
      obtain ⟨hk, hnew, hpending, howner⟩ := h
      simp only [PcOk, hclaimed k i _ rfl hpending howner]
      exact ⟨hcalls _ _ hk, fun hmem => hnew (hacc hmem), hpending, howner⟩
    | publish =>
      obtain ⟨hk, hnew, hpending, howner, hfilled⟩ := h
      simp only [PcOk, hclaimed k i _ rfl hpending howner]
      exact ⟨hcalls _ _ hk, fun hmem => hnew (hacc hmem), hpending, howner, hfilled⟩
    | wait => exact ⟨hcalls _ _ h.1, hwait _ _ h.2⟩

theorem pcs_update (hpc : s'.pc = update s.pc c pc) (hc : s'.PcOk pc)
    (hother : ∀ c', c' ≠ c → s'.PcOk (s.pc c')) (c' : Fin n) : s'.PcOk (s'.pc c') := by
  rw [hpc]
  rcases eq_or_ne c' c with rfl | hne
  · rwa [update_self]
  · rw [update_of_ne hne]
    exact hother c' hne

/-- The calls in progress stay apart: a CPU goes on with its call, or with a new one. -/
theorem Inv.alone_update (h : s.Inv)
    (hpc : ∀ k i phase, pc = .call k i phase →
      (∃ k' phase', s.pc c = .call k' i phase') ∨ s.calls.length ≤ i) (c₁ c₂ : Fin n)
    (k₁ k₂ : Call n) (i : ℕ) (phase₁ phase₂ : Phase)
    (h₁ : update s.pc c pc c₁ = .call k₁ i phase₁)
    (h₂ : update s.pc c pc c₂ = .call k₂ i phase₂) : c₁ = c₂ := by
  have hown : ∀ d k phase, d ≠ c → s.pc d = .call k i phase → ∀ k' phase',
      pc = .call k' i phase' → False := by
    intro d k phase hne hd k' phase' heq
    rcases hpc k' i phase' heq with ⟨k'', phase'', hc⟩ | hlen
    · exact hne (h.alone _ _ _ _ _ _ _ hd hc)
    · exact absurd (h.lt hd) (not_lt.2 hlen)
  rcases eq_or_ne c₁ c with rfl | hne₁
  · rcases eq_or_ne c₂ c₁ with rfl | hne₂
    · rfl
    · rw [update_self] at h₁
      rw [update_of_ne hne₂] at h₂
      exact (hown c₂ k₂ phase₂ hne₂ h₂ k₁ phase₁ h₁).elim
  · rw [update_of_ne hne₁] at h₁
    rcases eq_or_ne c₂ c with rfl | hne₂
    · rw [update_self] at h₂
      exact (hown c₁ k₁ phase₁ hne₁ h₁ k₂ phase₂ h₂).elim
    · rw [update_of_ne hne₂] at h₂
      exact h.alone _ _ _ _ _ _ _ h₁ h₂

theorem Inv.not_claimed (h : s.Inv) {d : Fin n} (hc : s.pc c = .call k (s.slot d).owner phase)
    {c' : Fin n} (hne : c' ≠ c) {k' : Call n} {phase' : Phase} (hc' : s.pc c' = .call k' i phase')
    (howner : (s.slot k'.target).owner = i) :
    k'.target ≠ d := by
  rintro rfl
  rw [← howner] at hc'
  exact hne (h.alone _ _ _ _ _ _ _ hc' hc)

theorem Inv.smpCall (h : s.Inv) (k : Call n) :
    { s.goto c (.call k s.calls.length .claim) with calls := s.calls ++ [k] }.Inv := by
  have hcalls : ∀ (i : ℕ) k', s.calls[i]? = some k' → (s.calls ++ [k])[i]? = some k' := by
    intro i k' hi
    rw [List.getElem?_append_left (List.getElem?_eq_some_iff.1 hi).1]
    exact hi
  have hnew : s.calls.length ∉ s.accepted := by
    intro hmem
    rcases h.runs.kept _ hmem with hran | ⟨d, howner, hpending⟩
    · obtain ⟨r, hr, heq⟩ := mem_map.1 hran
      obtain ⟨-, wait, hsome⟩ := h.runs.own r hr
      rw [heq] at hsome
      exact absurd (List.getElem?_eq_some_iff.1 hsome).1 (lt_irrefl _)
    · obtain ⟨⟨wait, hsome⟩, -⟩ := h.slots d hpending
      rw [howner] at hsome
      exact absurd (List.getElem?_eq_some_iff.1 hsome).1 (lt_irrefl _)
  refine ⟨pcs_update rfl ⟨getElem?_concat_length, hnew⟩ fun c' _ => ?_, ?_, ?_, ?_⟩
  · exact (h.pcs c').frame hcalls (fun _ _ _ _ hmem => hmem) (fun _ _ _ _ _ _ => rfl)
      fun _ _ hwait => hwait
  · intro d hpending
    obtain ⟨⟨wait, hsome⟩, hrest⟩ := h.slots d hpending
    exact ⟨⟨wait, hcalls _ _ hsome⟩, hrest⟩
  · exact h.alone_update fun k' i phase heq => by
      cases heq
      exact .inr le_rfl
  · refine ⟨h.runs.once, fun r hr => ?_, h.runs.kept, h.runs.waited⟩
    obtain ⟨hacc, wait, hsome⟩ := h.runs.own r hr
    exact ⟨hacc, wait, hcalls _ _ hsome⟩

/-- A call claims its slot, or fills in or publishes one that it has claimed. -/
theorem Inv.own_slot (h : s.Inv) (hc : s.pc c = .call k i phase)
    (hold : (s.slot k.target).pending = .free ∨
      ((s.slot k.target).pending = .claimed ∧ (s.slot k.target).owner = i)) {x : Slot}
    (howner : x.owner = i)
    (hnew : (x.pending = .claimed ∧ s'.accepted = s.accepted) ∨
      (x.pending = .published ∧ s'.accepted = i :: s.accepted ∧ i ∉ s.accepted ∧
        x.callFn = k.fn ∧ x.callArg = k.arg))
    (hpc : ∀ k' i' phase', pc = .call k' i' phase' → i' = i) (hok : s'.PcOk pc)
    (hpcs : s'.pc = update s.pc c pc) (hslot : s'.slot = update s.slot k.target x)
    (hrest : s'.calls = s.calls ∧ s'.ran = s.ran ∧ s'.ended = s.ended ∧
      s'.returned = s.returned ∧ s'.halted = s.halted) : s'.Inv := by
  obtain ⟨hcalls, hran, hended, hreturned, hhalted⟩ := hrest
  have hk : s.calls[i]? = some k := by
    have hcall := h.pcs c
    rw [hc] at hcall
    exact hcall.calls
  have hsub : ∀ j ∈ s.accepted, j ∈ s'.accepted := by
    rcases hnew with ⟨-, hacc⟩ | ⟨-, hacc, -⟩
    · rw [hacc]
      exact fun _ => id
    · rw [hacc]
      exact fun _ => mem_cons_of_mem i
  have hself : s'.slot k.target = x := by
    rw [hslot, update_self]
  have hother : ∀ d, d ≠ k.target → s'.slot d = s.slot d := by
    intro d hd
    rw [hslot, update_of_ne hd]
  refine ⟨pcs_update hpcs hok fun c' hne => ?_, fun d => ?_, ?_, ?_⟩
  · refine (h.pcs c').frame (fun _ _ hi => hcalls ▸ hi) ?_ ?_ fun d j hwaits => ?_
    · intro k' i' phase' hc' hmem
      rcases hnew with ⟨-, hacc⟩ | ⟨-, hacc, -⟩
      · rwa [hacc] at hmem
      · rw [hacc] at hmem
        refine (mem_cons.1 hmem).resolve_left ?_
        rintro rfl
        exact hne (h.alone _ _ _ _ _ _ _ hc' hc)
    · intro k' i' phase' hc' hpend howner'
      apply hother
      rcases hold with hfree | ⟨-, hown⟩
      · intro heq
        rw [heq, hfree] at hpend
        cases hpend
      · rw [← hown] at hc
        exact h.not_claimed hc hne hc' howner'
    · rw [hended]
      rcases eq_or_ne d k.target with rfl | hd
      · rw [hself]
        rcases hwaits with ⟨hj, hpend⟩ | hj
        · have hclaimed := hold.resolve_left hpend
          refine .inl ⟨howner.trans (hclaimed.2.symm.trans hj), fun hfree => ?_⟩
          rcases hnew with ⟨hx, -⟩ | ⟨hx, -⟩
          · cases hx.symm.trans hfree
          · cases hx.symm.trans hfree
        · exact .inr hj
      · rw [hother d hd]
        exact hwaits
  · unfold SlotOk
    rw [hcalls, hran]
    rcases eq_or_ne d k.target with rfl | hd
    · rw [hself]
      intro hpub
      rcases hnew with ⟨hx, -⟩ | ⟨-, hacc, hi, hfn, harg⟩
      · cases hx.symm.trans hpub
      · rw [howner, hfn, harg, hacc]
        refine ⟨⟨k.wait, hk⟩, mem_cons_self, fun hmem => ?_⟩
        obtain ⟨r, hr, rfl⟩ := mem_map.1 hmem
        exact hi (h.runs.own r hr).1
    · rw [hother d hd]
      intro hpub
      obtain ⟨hsome, hmem, hnot⟩ := h.slots d hpub
      exact ⟨hsome, hsub _ hmem, hnot⟩
  · rw [hpcs]
    apply h.alone_update
    intro k' i' phase' heq
    obtain rfl := hpc k' i' phase' heq
    exact .inl ⟨k, phase, hc⟩
  · refine ⟨hran ▸ h.runs.once, fun r hr => ?_, fun j hj => ?_, ?_⟩
    · rw [hran] at hr
      obtain ⟨hmem, hsome⟩ := h.runs.own r hr
      exact ⟨hsub _ hmem, hcalls ▸ hsome⟩
    · rw [hran]
      by_cases hmem : j ∈ s.accepted
      · rcases h.runs.kept j hmem with hj | ⟨d, hd, hpub⟩
        · exact .inl hj
        · have hne : d ≠ k.target := by
            rintro rfl
            rcases hold with hfree | ⟨hclaimed, -⟩
            · cases hfree.symm.trans hpub
            · cases hclaimed.symm.trans hpub
          exact .inr ⟨d, by rw [hother d hne]; exact ⟨hd, hpub⟩⟩
      · rcases hnew with ⟨-, hacc⟩ | ⟨hx, hacc, -⟩
        · exact absurd (hacc ▸ hj) hmem
        · rw [hacc] at hj
          obtain rfl := (mem_cons.1 hj).resolve_right hmem
          exact .inr ⟨k.target, by rw [hself]; exact ⟨howner, hx⟩⟩
    · rw [hhalted, hreturned, hended]
      exact h.runs.waited

theorem Inv.turn (h : s.Inv) (c : Fin n) : (s.turn c).Inv := by
  have hok := h.pcs c
  unfold State.turn
  cases hc : s.pc c with
  | idle => exact h
  | call k i phase =>
    rw [hc] at hok
    cases phase with
    | claim =>
      dsimp only
      split
      next hfree =>
        refine h.own_slot hc (.inl hfree) rfl (.inl ⟨rfl, rfl⟩) ?_ ?_ rfl rfl
          ⟨rfl, rfl, rfl, rfl, rfl⟩
        · rintro k' i' phase' ⟨⟩
          rfl
        · exact ⟨hok.1, hok.2, by simp [goto, setSlot]⟩
      · exact h
    | fill =>
      obtain ⟨hk, hi, hpending, howner⟩ := hok
      refine h.own_slot (x := { s.slot k.target with callFn := k.fn, callArg := k.arg }) hc
        (.inr ⟨hpending, howner⟩) howner (.inl ⟨hpending, rfl⟩) ?_ ?_ rfl rfl
        ⟨rfl, rfl, rfl, rfl, rfl⟩
      · rintro k' i' phase' ⟨⟩
        rfl
      · exact ⟨hk, hi, by simp [goto, setSlot, hpending, howner]⟩
    | publish =>
      obtain ⟨hk, hi, hpending, howner, hfn, harg⟩ := hok
      refine h.own_slot (x := { s.slot k.target with pending := .published }) hc
        (.inr ⟨hpending, howner⟩) howner (.inr ⟨rfl, rfl, hi, hfn, harg⟩) ?_ ?_ rfl rfl
        ⟨rfl, rfl, rfl, rfl, rfl⟩
      · intro k' i' phase' heq
        split at heq
        · cases heq
          rfl
        · cases heq
      · cases k.wait with
        | true => exact ⟨hk, .inl (by simp [goto, setSlot, howner])⟩
        | false => trivial
    | wait =>
      dsimp only
      split
      next hfree =>
        refine ⟨pcs_update rfl trivial fun c' _ => ?_, h.slots, h.alone_update nofun, ?_⟩
        · exact h.pcs c'
        · refine ⟨h.runs.once, h.runs.own, h.runs.kept, fun hhalt j hj => ?_⟩
          change s.halted = false at hhalt
          rcases mem_cons.1 hj with rfl | hj
          · have hpending := hfree.resolve_right (by rw [hhalt]; exact Bool.false_ne_true)
            exact hok.2.resolve_left fun hno => hno.2 hpending
          · exact h.runs.waited hhalt j hj
      · exact h

/-- A CPU changes its own slot, where a function is published or runs: no caller works on it. -/
theorem Inv.frame_own (h : s.Inv) (hpending : (s.slot c).pending ≠ .claimed)
    (hpcs : s'.pc = s.pc) (hcalls : s'.calls = s.calls) (hacc : s'.accepted = s.accepted)
    (hother : ∀ d, d ≠ c → s'.slot d = s.slot d) (hended : ∀ i ∈ s.ended, i ∈ s'.ended)
    (hself : ((s'.slot c).owner = (s.slot c).owner ∧ (s'.slot c).pending ≠ .free) ∨
      (s.slot c).owner ∈ s'.ended) (c' : Fin n) : s'.PcOk (s'.pc c') := by
  rw [hpcs]
  refine (h.pcs c').frame (fun _ _ hi => hcalls ▸ hi) (fun _ _ _ _ hmem => hacc ▸ hmem) ?_ ?_
  · intro k i phase _ hclaimed _
    apply hother
    intro heq
    rw [heq] at hclaimed
    exact hpending hclaimed
  · intro d i hwait
    rcases eq_or_ne d c with rfl | hd
    · rcases hwait with ⟨rfl, -⟩ | hi
      · exact hself
      · exact .inr (hended i hi)
    · rw [hother d hd]
      exact hwait.imp_right (hended i)

theorem Inv.interrupt (h : s.Inv) (hpending : (s.slot c).pending = .published) :
    (s.interrupt c).Inv := by
  obtain ⟨⟨wait, hsome⟩, hmem, hnot⟩ := h.slots c hpending
  have hother : ∀ d, d ≠ c → (s.interrupt c).slot d = s.slot d :=
    fun d hd => update_of_ne hd ..
  have hself : (s.interrupt c).slot c = { s.slot c with pending := .running } :=
    update_self ..
  refine ⟨?_, fun d => ?_, h.alone, ⟨?_, ?_, ?_, h.runs.waited⟩⟩
  · refine h.frame_own (by rw [hpending]; decide) rfl rfl rfl hother (fun _ => id) (.inl ?_)
    rw [hself]
    exact ⟨rfl, nofun⟩
  · intro hpub
    have hd : d ≠ c := by
      rintro rfl
      rw [hself] at hpub
      cases hpub
    unfold State.interrupt
    rw [hother d hd] at hpub
    obtain ⟨⟨wait', hsome'⟩, hmem', hnot'⟩ := h.slots d hpub
    simp only [setSlot, update_of_ne hd, map_cons]
    refine ⟨⟨wait', hsome'⟩, hmem', fun hcons => ?_⟩
    rcases mem_cons.1 hcons with heq | hin
    · rw [heq, hsome] at hsome'
      cases hsome'
      exact hd rfl
    · exact hnot' hin
  · exact nodup_cons.2 ⟨hnot, h.runs.once⟩
  · intro r hr
    rcases mem_cons.1 hr with rfl | hr
    · exact ⟨hmem, wait, hsome⟩
    · exact h.runs.own r hr
  · intro i hi
    rcases h.runs.kept i hi with hran | ⟨d, howner, hpub⟩
    · exact .inl (mem_cons_of_mem _ hran)
    · rcases eq_or_ne d c with rfl | hd
      · exact .inl (by rw [← howner]; exact mem_cons_self)
      · exact .inr ⟨d, by rw [hother d hd]; exact ⟨howner, hpub⟩⟩

theorem Inv.done (h : s.Inv) (hpending : (s.slot c).pending = .running) : (s.done c).Inv := by
  have hother : ∀ d, d ≠ c → (s.done c).slot d = s.slot d :=
    fun d hd => update_of_ne hd ..
  have hself : (s.done c).slot c = { s.slot c with pending := .free } := update_self ..
  refine ⟨?_, fun d => ?_, h.alone, ⟨h.runs.once, h.runs.own, ?_, ?_⟩⟩
  · exact h.frame_own (by rw [hpending]; decide) rfl rfl rfl hother
      (fun i hi => mem_cons_of_mem _ hi) (.inr mem_cons_self)
  · intro hpub
    have hd : d ≠ c := by
      rintro rfl
      rw [hself] at hpub
      cases hpub
    rw [hother d hd] at hpub ⊢
    exact h.slots d hpub
  · intro i hi
    rcases h.runs.kept i hi with hran | ⟨d, howner, hpub⟩
    · exact .inl hran
    · have hd : d ≠ c := by
        rintro rfl
        cases hpending.symm.trans hpub
      exact .inr ⟨d, by rw [hother d hd]; exact ⟨howner, hpub⟩⟩
  · exact fun hhalt i hi => mem_cons_of_mem _ (h.runs.waited hhalt i hi)

theorem Inv.step (h : s.Inv) (e : Event n) : (s.step e).Inv := by
  cases e with
  | smpCall c k =>
    simp only [State.step]
    split
    · exact h.smpCall k
    · exact h
  | turn c => exact h.turn c
  | interrupt c =>
    simp only [State.step]
    split
    next hcond => exact h.interrupt hcond.2
    · exact h
  | done c =>
    simp only [State.step]
    split
    next hcond => exact h.done hcond.2
    · exact h
  | halt => exact ⟨h.pcs, h.slots, h.alone, ⟨h.runs.once, h.runs.own, h.runs.kept, nofun⟩⟩

/-! ### Who waits for whom -/

/-- A CPU that another one has called, and that is in a call itself, began its call later. -/
def Later (s : State n) : Prop :=
  ∀ c k i phase, s.pc c = .call k i phase → ∀ k' j phase', s.pc k.target = .call k' j phase' →
    i < j

theorem Later.noRing (h : s.Later) : s.NoRing := by
  intro S hS hring
  have hcall : ∀ c d, s.WaitsFor c d → ∃ k i phase, s.pc c = .call k i phase ∧ k.target = d := by
    intro c d hwait
    unfold WaitsFor at hwait
    split at hwait
    next k i hpc => exact ⟨k, i, _, hpc, hwait⟩
    next k i hpc => exact ⟨k, i, _, hpc, hwait⟩
    · exact hwait.elim
  -- the one of the set whose call began last
  obtain ⟨c, hc, hmax⟩ := S.exists_max_image
    (fun c => match s.pc c with | .idle => 0 | .call _ i _ => i) hS
  obtain ⟨d, hd, hwait⟩ := hring c hc
  obtain ⟨k, i, phase, hpc, rfl⟩ := hcall c d hwait
  obtain ⟨e, -, hwait'⟩ := hring k.target hd
  obtain ⟨k', j, phase', hpc', -⟩ := hcall k.target e hwait'
  have hle := hmax k.target hd
  simp only [hpc, hpc'] at hle
  exact absurd (h c k i phase hpc k' j phase' hpc') (not_lt.2 hle)

theorem Later.goto (h : s.Later)
    (hpc : ∀ k i phase, pc = .call k i phase → ∃ phase', s.pc c = .call k i phase')
    (hpcs : s'.pc = update s.pc c pc) : s'.Later := by
  have hback : ∀ c' k i phase, s'.pc c' = .call k i phase →
      ∃ phase', s.pc c' = .call k i phase' := by
    intro c' k i phase hc'
    rw [hpcs] at hc'
    rcases eq_or_ne c' c with rfl | hne
    · rw [update_self] at hc'
      exact hpc k i phase hc'
    · rw [update_of_ne hne] at hc'
      exact ⟨phase, hc'⟩
  intro c' k i phase hc' k' j phase' hd
  obtain ⟨phase₁, h₁⟩ := hback c' k i phase hc'
  obtain ⟨phase₂, h₂⟩ := hback k.target k' j phase' hd
  exact h c' k i phase₁ h₁ k' j phase₂ h₂

theorem Later.turn (h : s.Later) (c : Fin n) : (s.turn c).Later := by
  unfold State.turn
  split
  · exact h
  next k i hc =>
    split
    · exact h.goto (by rintro _ _ _ ⟨⟩; exact ⟨_, hc⟩) rfl
    · exact h
  next k i hc => exact h.goto (by rintro _ _ _ ⟨⟩; exact ⟨_, hc⟩) rfl
  next k i hc =>
    refine h.goto ?_ rfl
    intro k' i' phase' heq
    split at heq
    · cases heq
      exact ⟨_, hc⟩
    · cases heq
  next k i hc =>
    split
    · refine h.goto ?_ rfl
      exact nofun
    · exact h

theorem Later.smpCall (h : s.Later) (hinv : s.Inv) (hfree : s.pc k.target = .idle)
    (hpcs : s'.pc = update s.pc c (.call k s.calls.length .claim)) (hne : k.target ≠ c) :
    s'.Later := by
  intro c' k₁ i phase hc' k₂ j phase' hd
  rw [hpcs] at hc' hd
  rcases eq_or_ne c' c with rfl | hc
  · rw [update_self] at hc'
    cases hc'
    rw [update_of_ne hne, hfree] at hd
    cases hd
  · rw [update_of_ne hc] at hc'
    rcases eq_or_ne k₁.target c with rfl | hd'
    · rw [update_self] at hd
      cases hd
      exact hinv.lt hc'
    · rw [update_of_ne hd'] at hd
      exact h c' k₁ i phase hc' k₂ j phase' hd

theorem Later.step (h : s.Later) (hinv : s.Inv) (e : Event n) (hfree : s.TargetFree e) :
    (s.step e).Later := by
  cases e with
  | smpCall c k =>
    simp only [State.step]
    split
    next hcond => exact h.smpCall hinv hfree rfl hcond.2
    · exact h
  | turn c => exact h.turn c
  | interrupt c | done c =>
    simp only [State.step]
    split
    · exact h
    · exact h
  | halt => exact h

end State

theorem inv_start : (start : State n).Inv where
  pcs _ := trivial
  slots _ := nofun
  alone := nofun
  runs := ⟨nodup_nil, nofun, nofun, fun _ => nofun⟩

theorem later_start : (start : State n).Later := by
  intro c k i phase hc
  cases hc

end Bashket.SmpCalls
