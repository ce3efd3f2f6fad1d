import Bashket.Lib.Run

/-!
# Writing shared pages back to their file

The pages of one file in the page cache, mapped shared and writable. `munmap` and the exit of a
process unmap pages one by one and then call `pcache_writeback` of `pcache.c` for them, `msync` only
calls it; any number of tasks do so at once. Writes to the file succeed.

A page is clean again only where its sharing count shows no owner but the cache and the
`pcache_writeback` that looks, so two of these at once leave it dirty (`writebacks_meet`). Where
they do not meet no page stays dirty (`pages_written_back`).
-/

namespace Bashket.Writeback

open Run List

abbrev pageSize : ℕ := 4096

abbrev writebackBatch : ℕ := 16

inductive Pc (k : ℕ)
  | idle
  /-- the pages `todo` are to be unmapped, and then those from `first` up to `stop` written -/
  | unmap (m : Fin k) (todo : List ℕ) (first stop : ℕ)
  | pick (cursor stop : ℕ)
  /-- the pages `todo` of a batch are to be written, and then the batch is looked at again -/
  | write (batch todo : List ℕ) (stop : ℕ)
  /-- the references to the pages `todo` are to be given back -/
  | unref (todo : List ℕ) (cursor stop : ℕ)
deriving DecidableEq

/-- `use`: the entries of the file, oldest first. -/
structure State (n k : ℕ) where
  pages : List ℕ
  dirty : ℕ → Bool
  frame : ℕ → ℕ → UInt8
  file : ℕ → ℕ → UInt8
  size : ℕ
  maps : Fin k → ℕ → Bool
  pc : Fin n → Pc k

inductive Event (n k : ℕ)
  /-- a mapping gets the page, by `pcache_get_shared` -/
  | fault (m : Fin k) (i : ℕ)
  | store (m : Fin k) (i offset : ℕ) (b : UInt8)
  /-- a task begins to unmap, by `munmap` or in its exit -/
  | unmap (t : Fin n) (m : Fin k) (first stop : ℕ)
  | msync (t : Fin n) (first stop : ℕ)
  | go (t : Fin n)

variable {n k : ℕ}

def Pc.held : Pc k → List ℕ
  | .write batch _ _ => batch
  | .unref todo _ _ => todo
  | _ => []

namespace State

def init (size : ℕ) (content : ℕ → ℕ → UInt8) : State n k where
  pages := []
  dirty _ := false
  frame := content
  file := content
  size
  maps _ _ := false
  pc _ := .idle

variable (s : State n k)

/-- `pmm_get_frame_ref` for the frame of page `i` -/
def owners (i : ℕ) : ℕ :=
  1 + (Finset.univ.filter fun m => s.maps m i = true).card +
    (Finset.univ.filter fun t => i ∈ (s.pc t).held).card

/-- The dirty pages, lowest first. Once a batch is full, the highest of its pages drops out. -/
def batch (cursor stop : ℕ) : List ℕ :=
  s.pages.foldl (fun b i => if s.dirty i = true ∧ cursor ≤ i ∧ i < stop then
    (b.orderedInsert (· ≤ ·) i).take writebackBatch else b) []

/-- `write_page`: what lies before the end of the file -/
def writePage (i : ℕ) : State n k :=
  { s with
    file := fun j q =>
      if j = i ∧ q < pageSize ∧ i * pageSize + q < s.size then s.frame j q else s.file j q }

def clean (batch : List ℕ) : State n k :=
  { s with dirty := fun i => s.dirty i && !(decide (i ∈ batch) && s.owners i == 2) }

def unmapPage (m : Fin k) (i : ℕ) : State n k :=
  { s with maps := fun m' j => if m' = m ∧ j = i then false else s.maps m' j }

def goto (t : Fin n) (pc : Pc k) : State n k := { s with pc := Function.update s.pc t pc }

/-- A task goes on: `unmap_locked` and `pcache_writeback`. -/
def go (t : Fin n) : State n k :=
  match s.pc t with
  | .idle => s
  | .unmap m (i :: todo) first stop => (s.unmapPage m i).goto t (.unmap m todo first stop)
  | .unmap _ [] first stop => s.goto t (.pick first stop)
  | .pick cursor stop =>
    let batch := s.batch cursor stop
    s.goto t (if batch = [] then .idle else .write batch batch stop)
  | .write batch (i :: todo) stop => (s.writePage i).goto t (.write batch todo stop)
  | .write batch [] stop => (s.clean batch).goto t (.unref batch (batch.getLastD 0 + 1) stop)
  | .unref (_ :: todo) cursor stop => s.goto t (.unref todo cursor stop)
  | .unref [] cursor stop => s.goto t (.pick cursor stop)

def step : Event n k → State n k
  | .fault m i =>
    { s with
      pages := s.pages.erase i ++ [i]
      dirty := Function.update s.dirty i true
      maps := fun m' j => if m' = m ∧ j = i then true else s.maps m' j }
  | .store m i offset b =>
    if s.maps m i then
      { s with frame := fun j q => if j = i ∧ q = offset then b else s.frame j q }
    else s
  | .unmap t m first stop =>
    if s.pc t = .idle then s.goto t (.unmap m (List.range' first (stop - first)) first stop) else s
  | .msync t first stop => if s.pc t = .idle then s.goto t (.pick first stop) else s
  | .go t => s.go t

/-! ### What is to hold -/

def Mapped (i : ℕ) : Prop := ∃ m, s.maps m i = true

def Saved (i : ℕ) : Prop :=
  ∀ q < pageSize, i * pageSize + q < s.size → s.file i q = s.frame i q

/-- Once no mapping is left and no task is at work, the page is clean and the file has all that was
written to it. -/
def Settled (i : ℕ) : Prop :=
  ¬ s.Mapped i → (∀ t, s.pc t = .idle) → s.dirty i = false ∧ s.owners i = 1 ∧ s.Saved i

/-- While a task has picked a page, no mapping of it goes and no other task picks it. -/
def Quiet : Event n k → Prop
  | .go t =>
    match s.pc t with
    | .unmap m (i :: _) _ _ => s.maps m i = true → ∀ t', i ∉ (s.pc t').held
    | .pick cursor stop => ∀ i ∈ s.batch cursor stop, ∀ t', i ∉ (s.pc t').held
    | _ => True
  | _ => True

instance (e : Event n k) : Decidable (s.Quiet e) := by
  unfold Quiet
  split
  · split <;> infer_instance
  · infer_instance

end State

/-! ### Batches -/

theorem take_orderedInsert_take (x : ℕ) (l : List ℕ) (m : ℕ) :
    ((l.take m).orderedInsert (· ≤ ·) x).take m = (l.orderedInsert (· ≤ ·) x).take m := by
  induction l generalizing m with
  | nil => simp
  | cons a l ih =>
    cases m with
    | zero => simp
    | succ m =>
      rw [take_succ_cons, List.orderedInsert, List.orderedInsert]
      split_ifs
      · rw [take_succ_cons, take_succ_cons, ← take_succ_cons (a := a),
          take_take, min_eq_left (Nat.le_succ m)]
      · rw [take_succ_cons, take_succ_cons, ih]

theorem State.batch_eq (s : State n k) (cursor stop : ℕ) :
    s.batch cursor stop = ((s.pages.filter fun i =>
      decide (s.dirty i = true ∧ cursor ≤ i ∧ i < stop)).reverse.insertionSort (· ≤ ·)).take
        writebackBatch := by
  unfold State.batch
  induction s.pages using List.reverseRecOn with
  | nil => rfl
  | append_singleton l x ih =>
    rw [foldl_append, foldl_cons, foldl_nil, ih, filter_append,
      reverse_append]
    by_cases hx : s.dirty x = true ∧ cursor ≤ x ∧ x < stop
    · rw [if_pos hx, take_orderedInsert_take, filter_singleton, decide_eq_true hx]
      rfl
    · rw [if_neg hx, filter_singleton, decide_eq_false hx]
      rfl

theorem State.mem_batch (s : State n k) {cursor stop i : ℕ} (hi : i ∈ s.pages)
    (hd : s.dirty i = true) (hlo : cursor ≤ i) (hhi : i < stop) :
    i ∈ s.batch cursor stop ∨ s.batch cursor stop ≠ [] ∧ (s.batch cursor stop).getLastD 0 < i := by
  rw [s.batch_eq]
  set l := (s.pages.filter fun i =>
    decide (s.dirty i = true ∧ cursor ≤ i ∧ i < stop)).reverse.insertionSort (· ≤ ·) with hl
  have hmem : i ∈ l := by
    rw [hl, mem_insertionSort, mem_reverse, mem_filter]
    exact ⟨hi, decide_eq_true ⟨hd, hlo, hhi⟩⟩
  have hsorted : l.Pairwise (· ≤ ·) := pairwise_insertionSort _ _
  by_cases htake : i ∈ l.take writebackBatch
  · exact .inl htake
  rw [← take_append_drop writebackBatch l, mem_append] at hmem
  have hdrop := hmem.resolve_left htake
  rw [← take_append_drop writebackBatch l, pairwise_append] at hsorted
  have hne : l.take writebackBatch ≠ [] := by
    rintro h0
    rw [take_eq_nil_iff] at h0
    rcases h0 with h0 | h0
    · cases h0
    · rw [h0, drop_nil] at hdrop
      cases hdrop
  refine .inr ⟨hne, ?_⟩
  rw [getLastD_eq_getLast?, getLast?_eq_some_getLast hne, Option.getD_some]
  have hlast := getLast_mem hne
  exact lt_of_le_of_ne (hsorted.2.2 _ hlast _ hdrop) fun h0 => htake (h0 ▸ hlast)

/-! ### The invariant -/

/-- The page is one that the task has still to write, or may have to. -/
def Pc.Due (i : ℕ) : Pc k → Prop
  | .idle => False
  | .unmap _ _ first stop => first ≤ i ∧ i < stop
  | .pick cursor stop | .unref _ cursor stop => cursor ≤ i ∧ i < stop
  | .write batch _ stop => i ∈ batch ∨ batch.getLastD 0 < i ∧ i < stop

/-- The task has written the page, and not yet looked at it again. -/
def Pc.Wrote (i : ℕ) : Pc k → Prop
  | .write batch todo _ => i ∈ batch ∧ i ∉ todo
  | _ => False

theorem Pc.Wrote.held {i : ℕ} {pc : Pc k} (h : pc.Wrote i) : i ∈ pc.held := by
  cases pc with
  | write => exact h.1
  | _ => exact h.elim

def Pc.InRange : Pc k → Prop
  | .unmap _ todo first stop => ∀ i ∈ todo, first ≤ i ∧ i < stop
  | _ => True

structure State.Inv (s : State n k) : Prop where
  listed : ∀ i, s.dirty i = true → i ∈ s.pages
  mapped : ∀ m i, s.maps m i = true → s.dirty i = true
  saved : ∀ i, s.dirty i = false → s.Saved i
  due : ∀ i, s.dirty i = true → s.Mapped i ∨ ∃ t, (s.pc t).Due i
  wrote : ∀ t i, (s.pc t).Wrote i → s.Mapped i ∨ s.Saved i
  apart : ∀ t t' i, i ∈ (s.pc t).held → i ∈ (s.pc t').held → t = t'
  range : ∀ t, (s.pc t).InRange

theorem State.Inv.init (size : ℕ) (content : ℕ → ℕ → UInt8) :
    (State.init size content : State n k).Inv where
  listed _ h := nomatch h
  mapped _ _ h := nomatch h
  saved _ _ _ _ _ := rfl
  due _ h := nomatch h
  wrote _ _ h := h.elim
  apart _ _ _ h := absurd h not_mem_nil
  range _ := trivial

namespace State.Inv

variable {s : State n k} {t : Fin n}

theorem settled (h : s.Inv) (i : ℕ) : s.Settled i := by
  intro hmap hidle
  have hd : s.dirty i = false := by
    by_contra hd
    rcases h.due i (Bool.not_eq_false _ ▸ hd) with h0 | ⟨t, h0⟩
    · exact hmap h0
    · rw [hidle t] at h0
      exact h0
  refine ⟨hd, ?_, h.saved i hd⟩
  have hmaps : ∀ m, s.maps m i = false := fun m => by
    by_contra h0
    exact hmap ⟨m, Bool.not_eq_false _ ▸ h0⟩
  simp [State.owners, hmaps, hidle, Pc.held]

theorem goto (h : s.Inv) {pc : Pc k}
    (hdue : ∀ i, s.dirty i = true → (s.pc t).Due i → s.Mapped i ∨ pc.Due i)
    (hwrote : ∀ i, pc.Wrote i → s.Mapped i ∨ s.Saved i)
    (hheld : ∀ i ∈ pc.held, i ∈ (s.pc t).held ∨ ∀ t', i ∉ (s.pc t').held)
    (hrange : pc.InRange) : (s.goto t pc).Inv := by
  have hpc : ∀ t', (s.goto t pc).pc t' = if t' = t then pc else s.pc t' :=
    Function.update_apply _ _ _
  refine ⟨h.listed, h.mapped, h.saved, fun i hi => ?_, fun t' i hw => ?_, fun t' t'' i h1 h2 => ?_,
    fun t' => ?_⟩
  · rcases h.due i hi with h0 | ⟨t', h0⟩
    · exact .inl h0
    by_cases ht : t' = t
    · rw [ht] at h0
      exact (hdue i hi h0).imp_right fun h1 => ⟨t, by rwa [hpc, if_pos rfl]⟩
    · exact .inr ⟨t', by rwa [hpc, if_neg ht]⟩
  · rw [hpc] at hw
    split_ifs at hw
    · exact hwrote i hw
    · exact h.wrote t' i hw
  · rw [hpc] at h1 h2
    split_ifs at h1 h2 with ht ht' ht'
    · rw [ht, ht']
    · rw [ht]
      exact (hheld i h1).elim (fun h0 => h.apart _ _ i h0 h2) fun h0 => absurd h2 (h0 _)
    · rw [ht']
      exact (hheld i h2).elim (fun h0 => h.apart _ _ i h1 h0) fun h0 => absurd h1 (h0 _)
    · exact h.apart _ _ i h1 h2
  · rw [hpc]
    split_ifs
    · exact hrange
    · exact h.range t'

theorem unmapPage (h : s.Inv) {m : Fin k} {i : ℕ}
    (hi : s.maps m i = true → ∀ t', i ∉ (s.pc t').held) (hdue : (s.pc t).Due i) :
    (s.unmapPage m i).Inv := by
  have hmapped {j : ℕ} (hj : j = i → s.maps m i ≠ true) :
      s.Mapped j → (s.unmapPage m i).Mapped j := by
    rintro ⟨m', h0⟩
    refine ⟨m', (if_neg ?_).trans h0⟩
    rintro ⟨rfl, rfl⟩
    exact hj rfl h0
  refine ⟨h.listed, fun m' j hj => ?_, h.saved, fun j hj => ?_, fun t' j hw => ?_, h.apart, h.range⟩
  · simp only [State.unmapPage, Bool.if_false_left, Bool.and_eq_true] at hj
    exact h.mapped m' j hj.2
  · rcases eq_or_ne j i with rfl | hne
    · exact .inr ⟨t, hdue⟩
    · exact (h.due j hj).imp_left (hmapped fun h0 => absurd h0 hne)
  · refine (h.wrote t' j hw).imp_left (hmapped ?_)
    rintro rfl hm
    exact hi hm t' hw.held

theorem writePage (h : s.Inv) (i : ℕ) : (s.writePage i).Inv ∧ (s.writePage i).Saved i := by
  have hsaved {j : ℕ} (hj : j = i ∨ s.Saved j) : (s.writePage i).Saved j := by
    intro q hq hsize
    simp only [State.writePage]
    split_ifs with h0
    · rfl
    · refine hj.elim (fun h1 => absurd ⟨h1, hq, h1 ▸ hsize⟩ h0) fun h1 => h1 q hq hsize
  exact ⟨⟨h.listed, h.mapped, fun j hj => hsaved (.inr (h.saved j hj)), h.due,
    fun t' j hw => (h.wrote t' j hw).imp_right fun h0 => hsaved (.inr h0), h.apart, h.range⟩,
    hsaved (.inl rfl)⟩

theorem clean (h : s.Inv) {batch : List ℕ} {stop : ℕ} (ht : s.pc t = .write batch [] stop) :
    (s.clean batch).Inv ∧ ∀ i ∈ batch, (s.clean batch).dirty i = true → s.Mapped i := by
  have hheld : (s.pc t).held = batch := by rw [ht]; rfl
  have howners : ∀ i ∈ batch, s.owners i = 2 ↔ ¬ s.Mapped i := fun i hi => by
    have hone : (Finset.univ.filter fun t' => i ∈ (s.pc t').held) = {t} := by
      ext t'
      simp only [Finset.mem_filter, Finset.mem_univ, true_and, Finset.mem_singleton]
      exact ⟨fun h0 => h.apart _ _ i h0 (hheld ▸ hi), fun h0 => by rw [h0, hheld]; exact hi⟩
    rw [State.owners, hone, Finset.card_singleton, State.Mapped, not_exists]
    simp [Finset.filter_eq_empty_iff]
  have hdirty (i : ℕ) : (s.clean batch).dirty i = true ↔
      s.dirty i = true ∧ (i ∈ batch → s.Mapped i) := by
    by_cases hi : i ∈ batch
    · simp [State.clean, hi, howners]
    · simp [State.clean, hi]
  refine ⟨⟨fun i hi => h.listed i ((hdirty i).1 hi).1, fun m i hm => (hdirty i).2 ?_, fun i hi => ?_,
    fun i hi => h.due i ((hdirty i).1 hi).1, h.wrote, h.apart, h.range⟩,
    fun i hi hd => ((hdirty i).1 hd).2 hi⟩
  · exact ⟨h.mapped m i hm, fun _ => ⟨m, hm⟩⟩
  · by_cases hd : s.dirty i = true
    · have hnot : ¬ (i ∈ batch → s.Mapped i) := fun h0 =>
        absurd ((hdirty i).2 ⟨hd, h0⟩) (by rw [hi]; exact Bool.false_ne_true)
      rw [Classical.not_imp] at hnot
      exact (h.wrote t i (by rw [ht]; exact ⟨hnot.1, not_mem_nil⟩)).resolve_left hnot.2
    · exact h.saved i (Bool.not_eq_true _ ▸ hd)

theorem go (h : s.Inv) (hq : s.Quiet (.go t)) : (s.go t).Inv := by
  unfold State.go
  simp only [State.Quiet] at hq
  split
  next => exact h
  next m i todo first stop ht =>
    rw [ht] at hq
    have hrange := h.range t
    rw [ht] at hrange
    have hnext : (s.unmapPage m i).Inv := h.unmapPage hq (by
      rw [ht]
      exact hrange i mem_cons_self)
    refine hnext.goto (fun j _ hj => .inr ?_) (fun _ h0 => h0.elim)
      (fun _ h0 => absurd h0 not_mem_nil) fun j hj => hrange j (mem_cons_of_mem _ hj)
    change (s.pc t).Due j at hj
    rwa [ht] at hj
  next m first stop ht =>
    refine h.goto (fun j _ hj => .inr ?_) (fun _ h0 => h0.elim)
      (fun _ h0 => absurd h0 not_mem_nil) trivial
    rwa [ht] at hj
  next cursor stop ht =>
    rw [ht] at hq
    have hmem (j : ℕ) (hd : s.dirty j = true) (hj : (s.pc t).Due j) :
        j ∈ s.batch cursor stop ∨
          s.batch cursor stop ≠ [] ∧ (s.batch cursor stop).getLastD 0 < j ∧ j < stop := by
      rw [ht] at hj
      exact (s.mem_batch (h.listed j hd) hd hj.1 hj.2).imp_right fun h0 => ⟨h0.1, h0.2, hj.2⟩
    dsimp only
    split_ifs with hnil
    · refine h.goto (fun j hd hj => ?_) (fun _ h0 => h0.elim)
        (fun _ h0 => absurd h0 not_mem_nil) trivial
      rcases hmem j hd hj with h0 | h0
      · rw [hnil] at h0
        cases h0
      · exact absurd hnil h0.1
    · exact h.goto (fun j hd hj => .inr ((hmem j hd hj).imp_right And.right))
        (fun j h0 => absurd h0.1 h0.2) (fun j hj => .inr (hq j hj)) trivial
  next batch i todo stop ht =>
    obtain ⟨hnext, hself⟩ := h.writePage i
    have hpc : (s.writePage i).pc t = .write batch (i :: todo) stop := ht
    refine hnext.goto (fun j _ hj => .inr ?_) (fun j hj => ?_) (fun j hj => .inl ?_) trivial
    · rwa [hpc] at hj
    · rcases eq_or_ne j i with rfl | hne
      · exact .inr hself
      · refine hnext.wrote t j ?_
        rw [hpc]
        exact ⟨hj.1, fun h0 => (mem_cons.1 h0).elim hne hj.2⟩
    · rwa [hpc]
  next batch stop ht =>
    obtain ⟨hnext, hmapped⟩ := h.clean ht
    have hpc : (s.clean batch).pc t = .write batch [] stop := ht
    refine hnext.goto (fun j hd hj => ?_) (fun _ h0 => h0.elim) (fun j hj => .inl ?_) trivial
    · rw [hpc] at hj
      exact hj.imp (fun h0 => hmapped j h0 hd) fun h0 => ⟨h0.1, h0.2⟩
    · rwa [hpc]
  next i todo cursor stop ht =>
    refine h.goto (fun j _ hj => .inr ?_) (fun _ h0 => h0.elim) (fun j hj => .inl ?_) trivial
    · rwa [ht] at hj
    · rw [ht]
      exact mem_cons_of_mem _ hj
  next cursor stop ht =>
    refine h.goto (fun j _ hj => .inr ?_) (fun _ h0 => h0.elim)
      (fun _ h0 => absurd h0 not_mem_nil) trivial
    rwa [ht] at hj

theorem fault (h : s.Inv) (m : Fin k) (i : ℕ) : (s.step (.fault m i)).Inv := by
  have hmaps {m' : Fin k} {j : ℕ} : (s.step (.fault m i)).maps m' j = true ↔
      m' = m ∧ j = i ∨ s.maps m' j = true := by
    simp [State.step]
  have hmapped {j : ℕ} (hj : s.Mapped j) : (s.step (.fault m i)).Mapped j :=
    hj.imp fun _ h0 => hmaps.2 (.inr h0)
  have hdirty {j : ℕ} : (s.step (.fault m i)).dirty j = true ↔ j = i ∨ s.dirty j = true := by
    simp only [State.step, Function.update_apply]
    split_ifs with h1 <;> simp [h1]
  refine ⟨fun j hj => ?_, fun m' j hj => hdirty.2 ?_, fun j hj => ?_, fun j hj => ?_,
    fun t' j hw => (h.wrote t' j hw).imp_left hmapped, h.apart, h.range⟩
  · rcases eq_or_ne j i with rfl | hne
    · exact mem_append_right _ (mem_singleton_self j)
    · refine mem_append_left _ ((mem_erase_of_ne hne).2 (h.listed j ?_))
      exact (hdirty.1 hj).resolve_left hne
  · exact (hmaps.1 hj).imp And.right (h.mapped m' j)
  · refine h.saved j ?_
    by_contra h0
    rw [hdirty.2 (.inr (Bool.not_eq_false _ ▸ h0))] at hj
    cases hj
  · rcases hdirty.1 hj with rfl | h0
    · exact .inl ⟨m, hmaps.2 (.inl ⟨rfl, rfl⟩)⟩
    · exact (h.due j h0).imp_left hmapped

theorem store (h : s.Inv) {m : Fin k} {i : ℕ} (hm : s.maps m i = true) (offset : ℕ) (b : UInt8) :
    (s.step (.store m i offset b)).Inv := by
  have hsaved {j : ℕ} (hj : j ≠ i) (h0 : s.Saved j) : (s.step (.store m i offset b)).Saved j := by
    intro q hq
    simp only [State.step, if_pos hm, hj, false_and, if_false]
    exact h0 q hq
  simp only [State.step, if_pos hm] at hsaved ⊢
  refine ⟨h.listed, h.mapped, fun j hj => hsaved ?_ (h.saved j hj), h.due, fun t' j hw => ?_, h.apart,
    h.range⟩
  · rintro rfl
    exact absurd (h.mapped m j hm) (by rw [hj]; exact Bool.false_ne_true)
  · rcases eq_or_ne j i with rfl | hne
    · exact .inl ⟨m, hm⟩
    · exact (h.wrote t' j hw).imp_right (hsaved hne)

theorem step (s : State n k) (e : Event n k) (h : s.Inv) (hq : s.Quiet e) : (s.step e).Inv := by
  cases e with
  | fault m i => exact h.fault m i
  | store m i offset b =>
    by_cases hm : s.maps m i = true
    · exact h.store hm offset b
    · simp only [State.step, if_neg hm]
      exact h
  | unmap t m first stop =>
    simp only [State.step]
    split_ifs with ht
    · refine h.goto (fun _ _ h0 => ?_) (fun _ h0 => h0.elim)
        (fun _ h0 => absurd h0 not_mem_nil) fun i hi => ?_
      · rw [ht] at h0
        exact h0.elim
      · rw [mem_range'_1] at hi
        omega
    · exact h
  | msync t first stop =>
    simp only [State.step]
    split_ifs with ht
    · refine h.goto (fun _ _ h0 => ?_) (fun _ h0 => h0.elim)
        (fun _ h0 => absurd h0 not_mem_nil) trivial
      rw [ht] at h0
      exact h0.elim
    · exact h
  | go t => exact h.go hq

end State.Inv

/-- Where no two writebacks have a page at once, and no mapping of a page goes while one has it, no
page stays dirty, and the file gets all that was written. -/
theorem pages_written_back (size : ℕ) (content : ℕ → ℕ → UInt8) (es : List (Event n k))
    (h : Along State.step State.Quiet (State.init size content) es) :
    Always State.step (fun s => ∀ i, s.Settled i) (State.init size content) es :=
  (always_of_induction State.Inv.step (State.Inv.init size content) h).mono fun _ => State.Inv.settled

def inTurn : List (Event 2 2) :=
  [.fault 0 0, .store 0 0 1 7, .fault 1 0, .store 1 0 2 8, .unmap 0 0 0 1] ++
    List.replicate 8 (.go 0) ++ [.unmap 1 1 0 1] ++ List.replicate 8 (.go 1)

theorem pages_written_back_inTurn :
    (run State.step (State.init 10 fun _ _ => 0) inTurn).file 0 1 = 7 ∧
      (run State.step (State.init 10 fun _ _ => 0) inTurn).pc 1 = .idle ∧
      Always State.step (fun s => ∀ i, s.Settled i) (State.init 10 fun _ _ => 0) inTurn :=
  ⟨by decide +kernel, by decide +kernel, pages_written_back _ _ _ (by decide +kernel)⟩

/-- Two tasks unmap a page at once, and both have it when they look at the count. -/
def atOnce : List (Event 2 2) :=
  [.fault 0 0, .fault 1 0, .unmap 0 0 0 1, .unmap 1 1 0 1] ++
    (List.replicate 8 [.go 0, .go 1]).flatten

/-- A task writes through its mapping and unmaps it after another has written the page and before
that one looks at the count. -/
def tooEarly : List (Event 2 2) :=
  [.fault 0 0, .fault 1 0, .unmap 0 0 0 1, .go 0, .go 0, .go 0, .go 0, .store 1 0 0 7,
    .unmap 1 1 0 1, .go 1] ++ List.replicate 4 (.go 0) ++ List.replicate 2 (.go 1)

theorem writebacks_meet :
    (∀ m, (run State.step (State.init 10 fun _ _ => 0) atOnce).maps m 0 = false) ∧
      (∀ t, (run State.step (State.init 10 fun _ _ => 0) atOnce).pc t = .idle) ∧
      (run State.step (State.init 10 fun _ _ => 0) atOnce).dirty 0 = true ∧
      (∀ t, (run State.step (State.init 10 fun _ _ => 0) tooEarly).pc t = .idle) ∧
      (run State.step (State.init 10 fun _ _ => 0) tooEarly).dirty 0 = false ∧
      (run State.step (State.init 10 fun _ _ => 0) tooEarly).frame 0 0 = 7 ∧
      (run State.step (State.init 10 fun _ _ => 0) tooEarly).file 0 0 = 0 := by
  decide +kernel

end Bashket.Writeback
