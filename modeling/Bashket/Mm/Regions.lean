import Bashket.Lib.Refs
import Bashket.Lib.Run

/-!
# The regions of a process

`region.c`: each process has a table of `TASK_MAX_REGIONS` regions, the parts of its address space
that it has been promised. `region_unmap` takes a range out of the table: regions inside it go,
others lose their front or their back, and one that has the range in its middle becomes two.

A region of a file holds the file: it counts in the file's `open_count`, in its `exec_count` if it
is part of a program, in its `write_count` if it is a writable shared mapping, and a mapping of a
device has the device open (`Counts`). What `pcache_writeback` does is left out, and so are the
waits for page faults.
-/

namespace Bashket.Regions

open Run List
open Function (update update_eq_self update_of_ne update_self)

/-- `TASK_MAX_REGIONS`, `PAGE_SIZE`, `USER_SPACE_END`, `USER_MMAP_END` -/
abbrev taskMaxRegions : ℕ := 36
abbrev pageSize : ℕ := 4096
abbrev userSpaceEnd : ℕ := 0x800000000000
abbrev userMmapEnd : ℕ := 0x7F0000000000

def pageAlignUp (n : ℕ) : ℕ := (n + (pageSize - 1)) / pageSize * pageSize

/-- What a call returns when it is refused; `device`: what the device said. -/
inductive Errno
  | einval
  | enomem
  | ebusy
  | device
deriving DecidableEq

/-- `PROT_READ`, `PROT_WRITE`, `PROT_EXEC` -/
structure Prot where
  read : Bool
  write : Bool
  exec : Bool
deriving DecidableEq

/-- `mem_region_t`; files are numbers. -/
structure Region where
  start : ℕ
  stop : ℕ
  prot : Prot
  node : Option ℕ
  fileOffset : ℕ
  program : Bool
  shared : Bool
  device : Bool
deriving DecidableEq

/-- The table of a process; an unused entry has `end` 0 in the source. -/
abbrev Table := Fin taskMaxRegions → Option Region

inductive Pte
  | none
  | present (frame : ℕ) (device : Bool)
  | swapped (slot : ℕ)
deriving DecidableEq

/-- `taken`: the table that `region_take_all` took off it, until `region_put_all`. -/
structure Proc where
  regions : Table
  mmapNext : ℕ
  promisedPages : ℕ
  pte : ℕ → Pte
  taken : Option Table

/-! ### What is held -/

/-- What is counted for a file; `opened`: the calls of `opened`, less those of `closed`. -/
inductive Count
  | openCount
  | execCount
  | writeCount
  | opened (writable : Bool)
deriving DecidableEq

abbrev Counts := ℕ → Count → ℤ

/-- What `pin` adds. -/
def pinned (r : Region) : Counts := fun n c =>
  if r.node = some n then
    match c with
    | .openCount => 1
    | .execCount => if r.program then 1 else 0
    | .writeCount => if r.shared ∧ r.prot.write then 1 else 0
    | .opened _ => 0
  else 0

/-- What `hold_device` adds. -/
def deviceHeld (r : Region) : Counts := fun n c =>
  if r.node = some n ∧ r.device then
    match c with
    | .opened writable => if writable = r.prot.write then 1 else 0
    | _ => 0
  else 0

def held (r : Region) : Counts := pinned r + deviceHeld r

/-- What an entry of the table holds, and what a whole table does. -/
def entryHeld (x : Option Region) : Counts := x.elim 0 held

def tableHeld (T : Table) : Counts := ∑ i, entryHeld (T i)

/-! ### Unmapping -/

def freeSlot (T : Table) : Option (Fin taskMaxRegions) :=
  (List.finRange taskMaxRegions).find? fun i => T i = none

def untouchedPages (pte : ℕ → Pte) (start stop : ℕ) : ℕ :=
  (List.range' (start / pageSize) ((stop - start) / pageSize)).countP fun page => pte page = .none

/-- `user_unmap_range`: the frames and slots go back. -/
def userUnmapRange (pte : ℕ → Pte) (addr stop : ℕ) : ℕ → Pte :=
  (List.range' (addr / pageSize) ((stop - addr) / pageSize)).foldl
    (fun pte page => update pte page .none) pte

namespace Region

variable (r : Region) (addr stop : ℕ)

def Around : Prop := r.start < addr ∧ stop < r.stop

def Apart : Prop := r.stop ≤ addr ∨ stop ≤ r.start

def upTo (a : ℕ) : Region := { r with stop := a }

def onFrom (a : ℕ) : Region :=
  { r with start := a, fileOffset := r.fileOffset + (a - r.start) }

instance : Decidable (r.Around addr stop) := inferInstanceAs (Decidable (_ ∧ _))

instance : Decidable (r.Apart addr stop) := inferInstanceAs (Decidable (_ ∨ _))

end Region

/-- The last region that the loop over the table finds with the range in its middle. -/
def hole (T : Table) (addr stop : ℕ) : Option Region :=
  ((List.finRange taskMaxRegions).filterMap fun i =>
    (T i).filter fun r => r.Around addr stop).getLast?

/-- The files of the shared mappings in the range, held open meanwhile. -/
def written (T : Table) (addr stop : ℕ) : List Region :=
  (List.finRange taskMaxRegions).filterMap fun i => match T i with
    | some r =>
      if r.shared = false ∨ r.Apart addr stop then none
      else some ⟨0, 0, ⟨false, false, false⟩, r.node, 0, false, false, false⟩
    | none => none

structure Cut where
  regions : Table
  gone : List Region
  promisedPages : ℕ

def cutOne (addr stop : ℕ) (pte : ℕ → Pte) (x : Cut) (i : Fin taskMaxRegions) : Cut :=
  match x.regions i with
  | none => x
  | some r =>
    if r.Apart addr stop then x
    else
      let cutStart := max r.start addr
      let cutEnd := min r.stop stop
      -- `uncharge` never takes more than there is
      let promisedPages :=
        if r.device then x.promisedPages
        else x.promisedPages - untouchedPages pte cutStart cutEnd
      if cutStart = r.start ∧ cutEnd = r.stop then
        ⟨update x.regions i none, x.gone ++ [r], promisedPages⟩
      else if cutStart = r.start then
        ⟨update x.regions i (some (r.onFrom cutEnd)), x.gone, promisedPages⟩
      else if cutEnd = r.stop then
        ⟨update x.regions i (some (r.upTo cutStart)), x.gone, promisedPages⟩
      else
        let left := update x.regions i (some (r.upTo cutStart))
        match freeSlot x.regions with
        | some j => ⟨update left j (some (r.onFrom cutEnd)), x.gone, promisedPages⟩
        -- the source would write through a null pointer
        | none => ⟨left, x.gone, promisedPages⟩

def cutAll (p : Proc) (addr stop : ℕ) : Cut :=
  (List.finRange taskMaxRegions).foldl (cutOne addr stop p.pte)
    ⟨p.regions, [], p.promisedPages⟩

/-- `unmap_locked`; `busy`: what `process_range_busy` says. -/
def unmapLocked (p : Proc) (c : Counts) (addr stop : ℕ) (busy : Bool) :
    Option Errno × Proc × Counts :=
  let h := hole p.regions addr stop
  if h.isSome ∧ freeSlot p.regions = none then (some .enomem, p, c)
  else
    let files := ((written p.regions addr stop).map pinned).sum
    let c := c + entryHeld h + files
    if busy then (some .ebusy, p, c - entryHeld h - files)
    else
      let x := cutAll p addr stop
      (none,
        { p with
          regions := x.regions
          promisedPages := x.promisedPages
          pte := userUnmapRange p.pte addr stop },
        c - (x.gone.map held).sum - files)

def regionUnmap (p : Proc) (c : Counts) (addr length : ℕ) (busy : Bool) :
    Option Errno × Proc × Counts :=
  if length = 0 ∨ addr % pageSize ≠ 0 then (some .einval, p, c)
  else if userSpaceEnd ≤ addr ∨ userSpaceEnd - addr < length then (some .einval, p, c)
  else unmapLocked p c addr (addr + pageAlignUp length) busy

/-! ### What is to hold of it -/

/-- What a region says about an address: protection, kind, file and place in the file. -/
structure Attr where
  prot : Prot
  node : Option ℕ
  fileOffset : ℕ
  program : Bool
  shared : Bool
  device : Bool

def Region.attr (r : Region) (a : ℕ) : Attr :=
  ⟨r.prot, r.node, r.fileOffset + (a - r.start), r.program, r.shared, r.device⟩

def Covers (T : Table) (a : ℕ) (x : Attr) : Prop :=
  ∃ i r, T i = some r ∧ r.start ≤ a ∧ a < r.stop ∧ x = r.attr a

def Disjoint (T : Table) : Prop :=
  ∀ i j r r', i ≠ j → T i = some r → T j = some r' → r.stop ≤ r'.start ∨ r'.stop ≤ r.start

/-! ### What a turn of the loop does -/

variable {T T' : Table} {addr stop : ℕ} {r r' : Region} {i : Fin taskMaxRegions} {b : ℕ}
  {pte : ℕ → Pte} {x : Cut} {j : Fin taskMaxRegions} {p : Proc}

/-- What is left of a region that does not have the range in its middle. -/
def Region.trim (r : Region) (addr stop : ℕ) : Option Region :=
  if r.Apart addr stop then some r
  else if addr ≤ r.start ∧ r.stop ≤ stop then none
  else if addr ≤ r.start then some (r.onFrom stop)
  else some (r.upTo addr)

/-- A part of a region: it lies in the region, and says the same. -/
structure Region.PartOf (r' r : Region) : Prop where
  start : r.start ≤ r'.start
  stop : r'.stop ≤ r.stop
  attr : ∀ a, r'.start ≤ a → r'.attr a = r.attr a
  held : held r' = held r

theorem Region.onFrom_partOf (hb : r.start ≤ b) : (r.onFrom b).PartOf r := by
  refine ⟨hb, le_rfl, fun a ha => ?_, rfl⟩
  simp only [Region.attr, Region.onFrom, Attr.mk.injEq, true_and, and_true]
  change b ≤ a at ha
  omega

theorem Region.upTo_partOf (hb : b ≤ r.stop) : (r.upTo b).PartOf r :=
  ⟨le_rfl, hb, fun _ _ => rfl, rfl⟩

theorem Region.trim_spec (haround : ¬ r.Around addr stop) :
    match r.trim addr stop with
    | some r' => r'.PartOf r ∧ ∀ a, (r'.start ≤ a ∧ a < r'.stop) ↔
        (r.start ≤ a ∧ a < r.stop) ∧ ¬ (addr ≤ a ∧ a < stop)
    | none => ∀ a, r.start ≤ a → a < r.stop → addr ≤ a ∧ a < stop := by
  simp only [Region.Around] at haround
  unfold Region.trim
  by_cases hapart : r.Apart addr stop
  · rw [if_pos hapart]
    unfold Region.Apart at hapart
    refine ⟨⟨le_rfl, le_rfl, fun _ _ => rfl, rfl⟩, fun a => ?_⟩
    omega
  · rw [if_neg hapart]
    simp only [Region.Apart, not_or, not_le] at hapart
    by_cases hall : addr ≤ r.start ∧ r.stop ≤ stop
    · rw [if_pos hall]
      intro a h1 h2
      omega
    · rw [if_neg hall]
      by_cases hfront : addr ≤ r.start
      · rw [if_pos hfront]
        refine ⟨Region.onFrom_partOf hapart.2.le, fun a => ?_⟩
        simp only [Region.onFrom]
        omega
      · rw [if_neg hfront]
        refine ⟨Region.upTo_partOf hapart.1.le, fun a => ?_⟩
        simp only [Region.upTo]
        omega

theorem cutOne_of_apart (h : ∀ r, x.regions i = some r → r.Apart addr stop) :
    cutOne addr stop pte x i = x := by
  unfold cutOne
  cases hi : x.regions i with
  | none => rfl
  | some r => exact if_pos (h r hi)

theorem foldl_cutOne_of_apart (l : List (Fin taskMaxRegions))
    (h : ∀ i ∈ l, ∀ r, x.regions i = some r → r.Apart addr stop) :
    l.foldl (cutOne addr stop pte) x = x := by
  induction l with
  | nil => rfl
  | cons i l ih =>
    rw [foldl_cons, cutOne_of_apart (h i (mem_cons_self))]
    exact ih fun j hj => h j (mem_cons_of_mem i hj)

theorem tableHeld_update (T : Table) (i : Fin taskMaxRegions) (x : Option Region) :
    tableHeld (update T i x) + entryHeld (T i) = tableHeld T + entryHeld x :=
  Refs.sum_update entryHeld T i x

theorem cutOne_of_not_around (pte : ℕ → Pte)
    (h : ∀ r, x.regions i = some r → ¬ r.Around addr stop) :
    (cutOne addr stop pte x i).regions =
        update x.regions i ((x.regions i).bind fun r => r.trim addr stop) ∧
      tableHeld (cutOne addr stop pte x i).regions +
          ((cutOne addr stop pte x i).gone.map held).sum =
        tableHeld x.regions + (x.gone.map held).sum := by
  cases hi : x.regions i with
  | none =>
    rw [cutOne_of_apart (by rw [hi]; exact nofun)]
    exact ⟨by rw [Option.bind_none, ← hi, update_eq_self], rfl⟩
  | some r =>
    by_cases hapart : r.Apart addr stop
    · have htrim : r.trim addr stop = some r := if_pos hapart
      rw [cutOne_of_apart fun r' hr' => by rw [hi] at hr'; cases hr'; exact hapart]
      refine ⟨?_, rfl⟩
      rw [Option.bind_some, htrim, ← hi, update_eq_self]
    · have haround := h r hi
      simp only [Region.Around] at haround
      have hsum := tableHeld_update x.regions i (r.trim addr stop)
      rw [hi] at hsum
      unfold Region.trim at hsum ⊢
      unfold cutOne
      rw [hi, Option.bind_some]
      simp only [if_neg hapart] at hsum ⊢
      by_cases hall : addr ≤ r.start ∧ r.stop ≤ stop
      · have hcut : max r.start addr = r.start ∧ min r.stop stop = r.stop :=
          ⟨max_eq_left hall.1, min_eq_left hall.2⟩
        rw [if_pos hall] at hsum ⊢
        rw [if_pos hcut]
        refine ⟨rfl, ?_⟩
        have hsum' : tableHeld (update x.regions i none) + held r =
          tableHeld x.regions := hsum.trans (add_zero _)
        rw [map_append, sum_append, map_singleton, sum_singleton, ← hsum']
        abel
      · rw [if_neg hall] at hsum ⊢
        have hcut : ¬ (max r.start addr = r.start ∧ min r.stop stop = r.stop) := by
          omega
        rw [if_neg hcut]
        by_cases hfront : addr ≤ r.start
        · have hstart : max r.start addr = r.start := max_eq_left hfront
          have hend : min r.stop stop = stop := by omega
          rw [if_pos hfront] at hsum ⊢
          rw [if_pos hstart, hend]
          refine ⟨rfl, ?_⟩
          rw [add_right_cancel hsum]
        · have hstart : max r.start addr = addr := by omega
          have hend : min r.stop stop = r.stop := by omega
          rw [if_neg hfront] at hsum ⊢
          rw [hstart, if_neg (by omega), if_pos hend]
          refine ⟨rfl, ?_⟩
          rw [add_right_cancel hsum]

/-! ### The loop -/

structure Unmapped (T : Table) (addr stop : ℕ) (x : Cut) : Prop where
  covers : ∀ a y, Covers x.regions a y ↔ Covers T a y ∧ ¬ (addr ≤ a ∧ a < stop)
  disjoint : Disjoint x.regions
  parts : ∀ i r', x.regions i = some r' → ∃ j r, T j = some r ∧ r'.PartOf r
  held : tableHeld x.regions + (x.gone.map held).sum = tableHeld T + entryHeld (hole T addr stop)

theorem Disjoint.of_parts (h : Disjoint T) (o : Fin taskMaxRegions → Fin taskMaxRegions)
    (hpart : ∀ i r', T' i = some r' → ∃ r, T (o i) = some r ∧ r'.PartOf r)
    (hsame : ∀ i j r r', i ≠ j → o i = o j → T' i = some r → T' j = some r' →
      r.stop ≤ r'.start ∨ r'.stop ≤ r.start) : Disjoint T' := by
  intro i j r₁ r₂ hij hi hj
  by_cases ho : o i = o j
  · exact hsame i j r₁ r₂ hij ho hi hj
  · obtain ⟨s₁, hs₁, hp₁⟩ := hpart i r₁ hi
    obtain ⟨s₂, hs₂, hp₂⟩ := hpart j r₂ hj
    have h₁ := hp₁.start
    have h₁' := hp₁.stop
    have h₂ := hp₂.start
    have h₂' := hp₂.stop
    rcases h _ _ _ _ ho hs₁ hs₂ with hle | hle
    · exact .inl (by omega)
    · exact .inr (by omega)

theorem foldl_cutOne_of_not_around (pte : ℕ → Pte)
    (h : ∀ i r, T i = some r → ¬ r.Around addr stop) (l : List (Fin taskMaxRegions))
    (hl : l.Nodup) (x : Cut) (hx : ∀ i ∈ l, x.regions i = T i) :
    (∀ i, (l.foldl (cutOne addr stop pte) x).regions i =
      if i ∈ l then (T i).bind fun r => r.trim addr stop else x.regions i) ∧
    tableHeld (l.foldl (cutOne addr stop pte) x).regions +
        ((l.foldl (cutOne addr stop pte) x).gone.map held).sum =
      tableHeld x.regions + (x.gone.map held).sum := by
  induction l generalizing x with
  | nil => exact ⟨fun i => rfl, rfl⟩
  | cons k l ih =>
    obtain ⟨hk, hl⟩ := nodup_cons.1 hl
    have hxk : x.regions k = T k := hx k mem_cons_self
    obtain ⟨hregions, hsum⟩ := cutOne_of_not_around pte (x := x) (i := k)
      fun r hr => h k r (hxk ▸ hr)
    obtain ⟨ihr, ihs⟩ := ih hl (cutOne addr stop pte x k) fun j hj => by
      rw [hregions, update_of_ne (ne_of_mem_of_not_mem hj hk)]
      exact hx j (mem_cons_of_mem k hj)
    refine ⟨fun i => ?_, ihs.trans hsum⟩
    rw [foldl_cons, ihr i, hregions]
    rcases eq_or_ne i k with rfl | hne
    · rw [if_neg hk, if_pos mem_cons_self, update_self, hxk]
    · rw [update_of_ne hne]
      simp only [mem_cons, hne, false_or]

theorem hole_spec (T : Table) (addr stop : ℕ) :
    (∀ r ∈ hole T addr stop, r.Around addr stop ∧ ∃ i, T i = some r) ∧
      (hole T addr stop = none → ∀ i r, T i = some r → ¬ r.Around addr stop) := by
  constructor
  · intro r hr
    obtain ⟨i, -, hi⟩ := mem_filterMap.1 (mem_of_getLast? hr)
    obtain ⟨hi, haround⟩ := Option.filter_eq_some_iff.1 hi
    exact ⟨of_decide_eq_true haround, i, hi⟩
  · intro hnone i r hi haround
    have hempty := getLast?_eq_none_iff.1 hnone
    have hfilter := filterMap_eq_nil_iff.1 hempty i (mem_finRange i)
    rw [hi] at hfilter
    simp [haround] at hfilter

theorem freeSlot_spec (h : freeSlot T = some j) : T j = none := by
  have hfound := find?_some h
  exact of_decide_eq_true hfound

theorem Disjoint.apart (h : Disjoint T) (hi : T i = some r) (haround : r.Around addr stop)
    (hj : T j = some r') (hne : j ≠ i) : r'.Apart addr stop := by
  unfold Region.Around at haround
  rcases h _ _ _ _ hne hj hi with hle | hle
  · exact .inl (by omega)
  · exact .inr (by omega)

theorem cutAll_of_around (h : Disjoint p.regions) (hi : p.regions i = some r)
    (haround : r.Around addr stop) (hlt : addr < stop) (hfree : freeSlot p.regions = some j) :
    (cutAll p addr stop).regions =
        update (update p.regions i (some (r.upTo addr))) j
          (some (r.onFrom stop)) ∧
      (cutAll p addr stop).gone = [] := by
  have hmiddle := haround
  unfold Region.Around at hmiddle
  obtain ⟨l₁, l₂, hl⟩ := append_of_mem (mem_finRange i)
  have hnodup := nodup_finRange taskMaxRegions
  rw [hl] at hnodup
  -- the turn for this region
  have hturn : ∃ promisedPages, cutOne addr stop p.pte ⟨p.regions, [], p.promisedPages⟩ i =
      ⟨update (update p.regions i (some (r.upTo addr))) j
        (some (r.onFrom stop)), [], promisedPages⟩ := by
    have hapart : ¬ r.Apart addr stop := by
      unfold Region.Apart
      omega
    have hstart : max r.start addr = addr := by omega
    have hend : min r.stop stop = stop := by omega
    unfold cutOne
    simp only [hi, if_neg hapart, hstart, hend]
    rw [if_neg (by omega), if_neg (by omega), if_neg (by omega), hfree]
    exact ⟨_, rfl⟩
  obtain ⟨promisedPages, hturn⟩ := hturn
  have hbefore : ∀ k ∈ l₁, ∀ r', p.regions k = some r' → r'.Apart addr stop := by
    intro k hk r' hr'
    refine h.apart hi haround hr' ?_
    rintro rfl
    exact (disjoint_of_nodup_append hnodup) hk mem_cons_self
  unfold cutAll
  rw [hl, foldl_append, foldl_cutOne_of_apart l₁ hbefore, foldl_cons, hturn,
    foldl_cutOne_of_apart l₂]
  · exact ⟨rfl, rfl⟩
  · intro k hk r' hr'
    dsimp only at hr'
    rcases eq_or_ne k j with rfl | hkj
    · rw [update_self] at hr'
      cases hr'
      exact .inr le_rfl
    · rw [update_of_ne hkj] at hr'
      rcases eq_or_ne k i with rfl | hki
      · rw [update_self] at hr'
        cases hr'
        exact .inl le_rfl
      · rw [update_of_ne hki] at hr'
        exact h.apart hi haround hr' hki

theorem unmapped_of_around (h : Disjoint T) (hi : T i = some r) (haround : r.Around addr stop)
    (hlt : addr < stop) (hj : T j = none) (hhole : hole T addr stop = some r)
    (hx : x.regions = update (update T i (some (r.upTo addr))) j
      (some (r.onFrom stop))) (hgone : x.gone = []) : Unmapped T addr stop x := by
  have hmiddle := haround
  unfold Region.Around at hmiddle
  have hji : j ≠ i := by
    rintro rfl
    rw [hj] at hi
    cases hi
  have hback : (r.upTo addr).PartOf r := Region.upTo_partOf (by omega)
  have hfront : (r.onFrom stop).PartOf r := Region.onFrom_partOf (by omega)
  have hxj : x.regions j = some (r.onFrom stop) := by
    rw [hx, update_self]
  have hxi : x.regions i = some (r.upTo addr) := by
    rw [hx, update_of_ne hji.symm, update_self]
  have hother : ∀ k, k ≠ j → k ≠ i → x.regions k = T k := by
    intro k hkj hki
    rw [hx, update_of_ne hkj, update_of_ne hki]
  -- which region each entry is part of
  have hpart : ∀ k r', x.regions k = some r' →
      ∃ r₀, T (if k = j then i else k) = some r₀ ∧ r'.PartOf r₀ := by
    intro k r' hr'
    rcases eq_or_ne k j with rfl | hkj
    · rw [if_pos rfl, hi]
      cases hxj.symm.trans hr'
      exact ⟨r, rfl, hfront⟩
    · rw [if_neg hkj]
      rcases eq_or_ne k i with rfl | hki
      · cases hxi.symm.trans hr'
        exact ⟨r, hi, hback⟩
      · rw [hother k hkj hki] at hr'
        exact ⟨r', hr', le_rfl, le_rfl, fun _ _ => rfl, rfl⟩
  refine ⟨fun a y => ⟨?_, ?_⟩, ?_, ?_, ?_⟩
  · rintro ⟨k, r', hr', h1, h2, rfl⟩
    obtain ⟨r₀, hr₀, hp⟩ := hpart k r' hr'
    refine ⟨⟨_, r₀, hr₀, hp.start.trans h1, h2.trans_le hp.stop, hp.attr a h1⟩, ?_⟩
    rcases eq_or_ne k j with rfl | hkj
    · cases hxj.symm.trans hr'
      change stop ≤ a at h1
      omega
    · rcases eq_or_ne k i with rfl | hki
      · cases hxi.symm.trans hr'
        change a < addr at h2
        omega
      · rw [hother k hkj hki] at hr'
        have hap := h.apart hi haround hr' hki
        unfold Region.Apart at hap
        omega
  · rintro ⟨⟨k, r', hr', h1, h2, rfl⟩, hout⟩
    have hkj : k ≠ j := by
      rintro rfl
      rw [hj] at hr'
      cases hr'
    rcases eq_or_ne k i with rfl | hki
    · cases hi.symm.trans hr'
      by_cases ha : a < addr
      · exact ⟨k, _, hxi, h1, ha, rfl⟩
      · have hstop : stop ≤ a := by omega
        exact ⟨j, _, hxj, hstop, h2, (hfront.attr a hstop).symm⟩
    · exact ⟨k, r', by rw [hother k hkj hki, hr'], h1, h2, rfl⟩
  · refine h.of_parts (fun k => if k = j then i else k) hpart ?_
    intro k₁ k₂ r₁ r₂ hne ho h₁ h₂
    split_ifs at ho with hk₁ hk₂ hk₂
    · exact absurd (hk₁.trans hk₂.symm) hne
    · subst hk₁ ho
      cases hxj.symm.trans h₁
      cases hxi.symm.trans h₂
      exact .inr hlt.le
    · subst hk₂ ho
      cases hxi.symm.trans h₁
      cases hxj.symm.trans h₂
      exact .inl hlt.le
    · exact absurd ho hne
  · intro k r' hr'
    obtain ⟨r₀, hr₀, hp⟩ := hpart k r' hr'
    exact ⟨_, r₀, hr₀, hp⟩
  · have h₁ := tableHeld_update T i (some (r.upTo addr))
    have h₂ := tableHeld_update (update T i (some (r.upTo addr))) j
      (some (r.onFrom stop))
    rw [hi] at h₁
    rw [update_of_ne hji, hj, add_right_cancel h₁] at h₂
    rw [hx, hgone, hhole]
    exact h₂

/-- What the loop does to disjoint regions, if there is room for the second part of a hole. -/
theorem unmapped_cutAll (h : Disjoint p.regions) (hlt : addr < stop)
    (hroom : (hole p.regions addr stop).isSome → freeSlot p.regions ≠ none) :
    Unmapped p.regions addr stop (cutAll p addr stop) := by
  obtain ⟨hsome, hnone⟩ := hole_spec p.regions addr stop
  cases hhole : hole p.regions addr stop with
  | some r =>
    obtain ⟨haround, i, hi⟩ := hsome r hhole
    obtain ⟨j, hfree⟩ := Option.ne_none_iff_exists'.1 (hroom (by rw [hhole]; rfl))
    obtain ⟨hregions, hgone⟩ := cutAll_of_around h hi haround hlt hfree
    exact unmapped_of_around h hi haround hlt (freeSlot_spec hfree) hhole hregions hgone
  | none =>
    have haround := hnone hhole
    obtain ⟨hregions, hsum⟩ := foldl_cutOne_of_not_around p.pte haround
      (List.finRange taskMaxRegions) (nodup_finRange _) ⟨p.regions, [], p.promisedPages⟩
      fun _ _ => rfl
    have hcut : ∀ i, (cutAll p addr stop).regions i =
        (p.regions i).bind fun r => r.trim addr stop := by
      intro i
      rw [cutAll, hregions i, if_pos (mem_finRange i)]
    have hpart : ∀ i r', (cutAll p addr stop).regions i = some r' → ∃ r, p.regions i = some r ∧
        r'.PartOf r ∧ ∀ a, (r'.start ≤ a ∧ a < r'.stop) ↔
          (r.start ≤ a ∧ a < r.stop) ∧ ¬ (addr ≤ a ∧ a < stop) := by
      intro i r' hr'
      rw [hcut i] at hr'
      obtain ⟨r, hr, htrim⟩ := Option.bind_eq_some_iff.1 hr'
      have hspec := Region.trim_spec (haround i r hr)
      rw [htrim] at hspec
      exact ⟨r, hr, hspec⟩
    refine ⟨fun a y => ⟨?_, ?_⟩, ?_, ?_, ?_⟩
    · rintro ⟨i, r', hr', h1, h2, rfl⟩
      obtain ⟨r, hr, hp, ha⟩ := hpart i r' hr'
      obtain ⟨hin, hout⟩ := (ha a).1 ⟨h1, h2⟩
      exact ⟨⟨i, r, hr, hin.1, hin.2, hp.attr a h1⟩, hout⟩
    · rintro ⟨⟨i, r, hr, h1, h2, rfl⟩, hout⟩
      have hspec := Region.trim_spec (haround i r hr)
      cases htrim : r.trim addr stop with
      | none =>
        rw [htrim] at hspec
        exact absurd (hspec a h1 h2) hout
      | some r' =>
        rw [htrim] at hspec
        obtain ⟨h1', h2'⟩ := (hspec.2 a).2 ⟨⟨h1, h2⟩, hout⟩
        exact ⟨i, r', by rw [hcut i, hr, Option.bind_some, htrim], h1', h2',
          (hspec.1.attr a h1').symm⟩
    · refine h.of_parts id ?_ fun i j _ _ hne ho => absurd ho hne
      intro i r' hr'
      obtain ⟨r, hr, hp, -⟩ := hpart i r' hr'
      exact ⟨r, hr, hp⟩
    · intro i r' hr'
      obtain ⟨r, hr, hp, -⟩ := hpart i r' hr'
      exact ⟨i, r, hr, hp⟩
    · rw [hhole]
      exact hsum

theorem userUnmapRange_eq_none (pte : ℕ → Pte) {page : ℕ} (h1 : addr / pageSize ≤ page)
    (h2 : page < addr / pageSize + (stop - addr) / pageSize) :
    userUnmapRange pte addr stop page = .none := by
  -- a page of the list is cleared, and stays so
  have hfold : ∀ (l : List ℕ) (pte : ℕ → Pte), (page ∈ l ∨ pte page = .none) →
      l.foldl (fun pte page => update pte page .none) pte page = .none := by
    intro l
    induction l with
    | nil => exact fun pte h => h.resolve_left not_mem_nil
    | cons q l ih =>
      intro pte h
      rw [foldl_cons]
      apply ih
      rcases eq_or_ne page q with rfl | hne
      · exact .inr (update_self ..)
      · rw [update_of_ne hne]
        exact h.imp_left fun hmem => (mem_cons.1 hmem).resolve_left hne
  exact hfold _ pte (.inl (mem_range'_1.2 ⟨h1, h2⟩))

theorem le_pageAlignUp (n : ℕ) : n ≤ pageAlignUp n := by
  unfold pageAlignUp pageSize
  omega

/-- Of disjoint regions: it is refused and changes nothing, or takes the range out. -/
theorem regionUnmap_cases (h : Disjoint p.regions) (c : Counts) (addr length : ℕ) (busy : Bool) :
    (∃ e, regionUnmap p c addr length busy = (some e, p, c)) ∨
      addr % pageSize = 0 ∧ ∃ x, Unmapped p.regions addr (addr + pageAlignUp length) x ∧
        regionUnmap p c addr length busy =
          (none,
            { p with
              regions := x.regions
              promisedPages := x.promisedPages
              pte := userUnmapRange p.pte addr (addr + pageAlignUp length) },
            c + entryHeld (hole p.regions addr (addr + pageAlignUp length)) -
              (x.gone.map held).sum) := by
  unfold regionUnmap
  by_cases hbad : length = 0 ∨ addr % pageSize ≠ 0
  · rw [if_pos hbad]
    exact .inl ⟨_, rfl⟩
  rw [if_neg hbad]
  by_cases hrange : userSpaceEnd ≤ addr ∨ userSpaceEnd - addr < length
  · rw [if_pos hrange]
    exact .inl ⟨_, rfl⟩
  rw [if_neg hrange]
  have hlt : addr < addr + pageAlignUp length := by
    have := le_pageAlignUp length
    omega
  simp only [unmapLocked]
  by_cases hfull : (hole p.regions addr (addr + pageAlignUp length)).isSome ∧
      freeSlot p.regions = none
  · rw [if_pos hfull]
    exact .inl ⟨_, rfl⟩
  rw [if_neg hfull]
  cases busy with
  | true =>
    refine .inl ⟨.ebusy, ?_⟩
    simp only [if_true, Prod.mk.injEq, true_and]
    abel
  | false =>
    refine .inr ⟨by omega, cutAll p addr (addr + pageAlignUp length),
      unmapped_cutAll h hlt fun hsome hnone => hfull ⟨hsome, hnone⟩, ?_⟩
    simp only [Bool.false_eq_true, if_false, Prod.mk.injEq, true_and]
    abel

/-- If `region_unmap` succeeds, exactly the addresses of the range are not covered any more, all
others keep their protection, kind, file and place in the file, the regions are disjoint and no page
of the range has a frame or a slot. If it is refused, nothing has changed. -/
theorem region_unmap_exact (p : Proc) (c : Counts) (hdisjoint : Disjoint p.regions)
    (addr length : ℕ) (busy : Bool) :
    match regionUnmap p c addr length busy with
    | (none, p', _) =>
      (∀ a y, Covers p'.regions a y ↔
        Covers p.regions a y ∧ ¬ (addr ≤ a ∧ a < addr + pageAlignUp length)) ∧
      Disjoint p'.regions ∧
      ∀ page, addr ≤ page * pageSize → page * pageSize < addr + pageAlignUp length →
        p'.pte page = .none
    | (some _, p', c') => p' = p ∧ c' = c := by
  rcases regionUnmap_cases hdisjoint c addr length busy with ⟨e, he⟩ | ⟨haddr, x, hx, heq⟩
  · rw [he]
    exact ⟨rfl, rfl⟩
  · rw [heq]
    have halign : pageAlignUp length % pageSize = 0 := Nat.mul_mod_left ..
    refine ⟨hx.covers, hx.disjoint, fun page h1 h2 => ?_⟩
    unfold pageSize at haddr h1 h2 halign
    apply userUnmapRange_eq_none
    · unfold pageSize
      omega
    · unfold pageSize
      omega

/-- A mapping of four pages of the file 3, with a frame and a page on the swap disk. -/
def fourPages : Proc where
  regions i :=
    if i = 0 then some ⟨0x10000, 0x14000, ⟨true, false, false⟩, some 3, 0, false, false, false⟩
    else none
  mmapNext := 0x14000
  promisedPages := 2
  pte page := if page = 0x11 then .present 5 false else if page = 0x12 then .swapped 6 else .none
  taken := none

theorem disjoint_fourPages : Disjoint fourPages.regions := by
  intro i j r r' hij hi hj
  have hzero : ∀ k r, fourPages.regions k = some r → k = 0 := by
    intro k r hk
    by_contra hne
    simp [fourPages, hne] at hk
  exact absurd ((hzero i r hi).trans (hzero j r' hj).symm) hij

theorem region_unmap_exact_secondPage :
    Disjoint fourPages.regions ∧ (regionUnmap fourPages 0 0x11000 0x1000 false).1 = none ∧
      match regionUnmap fourPages 0 0x11000 0x1000 false with
      | (none, p', _) =>
        (∀ a y, Covers p'.regions a y ↔
          Covers fourPages.regions a y ∧ ¬ (0x11000 ≤ a ∧ a < 0x11000 + pageAlignUp 0x1000)) ∧
        Disjoint p'.regions ∧
        ∀ page, 0x11000 ≤ page * pageSize → page * pageSize < 0x11000 + pageAlignUp 0x1000 →
          p'.pte page = .none
      | (some _, p', c') => p' = fourPages ∧ c' = 0 :=
  ⟨disjoint_fourPages, by decide,
    region_unmap_exact fourPages 0 disjoint_fourPages 0x11000 0x1000 false⟩

/-! ### Any number of processes -/

def Table.empty : Table := fun _ => none

/-- The arguments of `region_map`; `fits`: what `can_promise` says. -/
structure MapArgs where
  length : ℕ
  prot : Prot
  node : Option ℕ
  offset : ℕ
  shared : Bool
  fits : Bool

section

-- which files are devices with `map_page`, and which of them refuse to be opened for writing or not
variable (isDevice : ℕ → Bool) (refuses : ℕ → Bool → Bool)

def newRegion (p : Proc) (a : MapArgs) : Region :=
  let device := a.node.any isDevice
  { start := p.mmapNext
    stop := p.mmapNext + pageAlignUp a.length
    prot := a.prot
    node := a.node
    fileOffset := a.offset
    program := false
    shared := a.shared && a.node.isSome && !device
    device }

def mapLocked (p : Proc) (c : Counts) (a : MapArgs) : Option Errno × Proc × Counts :=
  let size := pageAlignUp a.length
  let r := newRegion isDevice p a
  if userMmapEnd ≤ p.mmapNext ∨ userMmapEnd - p.mmapNext < size then (some .enomem, p, c)
  else
    match freeSlot p.regions with
    | none => (some .enomem, p, c)
    | some slot =>
      if r.device = false ∧ a.fits = false then (some .enomem, p, c)
      else
        let c := c + pinned r
        if r.device ∧ r.node.any (refuses · r.prot.write) then (some .device, p, c - pinned r)
        else
          (none,
            { p with
              regions := update p.regions slot (some r)
              mmapNext := r.stop
              promisedPages :=
                if r.device then p.promisedPages else p.promisedPages + size / pageSize },
            c + deviceHeld r)

def regionMap (p : Proc) (c : Counts) (a : MapArgs) : Option Errno × Proc × Counts :=
  if a.length = 0 ∨ a.offset % pageSize ≠ 0 then (some .einval, p, c)
  else mapLocked isDevice refuses p c a

structure State (m : ℕ) where
  procs : Fin m → Proc
  counts : Counts

/-- The calls; `memory`: `region_take_all` got memory for the copy of the table. -/
inductive Event (m : ℕ)
  | map (p : Fin m) (a : MapArgs)
  | unmap (p : Fin m) (addr length : ℕ) (busy : Bool)
  | fork (child parent : Fin m)
  | takeAll (p : Fin m) (memory : Bool)
  | putAll (p : Fin m)
  | releaseAll (p : Fin m)

variable {m : ℕ}

namespace State

variable (s : State m)

def set (p : Fin m) (x : Proc) (counts : Counts) : State m :=
  ⟨update s.procs p x, counts⟩

/-- `region_release_all`, which puts every region of the table. -/
def releaseAll (p : Fin m) : State m :=
  s.set p { s.procs p with regions := .empty, promisedPages := 0 }
    (s.counts - tableHeld (s.procs p).regions)

/-- The child of a fork is a new process, and a table is not taken off again before it was put. -/
def step : Event m → State m
  | .map p a =>
    let out := regionMap isDevice refuses (s.procs p) s.counts a
    s.set p out.2.1 out.2.2
  | .unmap p addr length busy =>
    let out := regionUnmap (s.procs p) s.counts addr length busy
    s.set p out.2.1 out.2.2
  | .fork child parent =>
    let x := s.procs parent
    if (s.procs child).regions = .empty ∧ (s.procs child).taken = none then
      s.set child { x with taken := none } (s.counts + tableHeld x.regions)
    else s
  | .takeAll p memory =>
    let x := s.procs p
    if memory ∧ x.taken = none then
      s.set p { x with regions := .empty, promisedPages := 0, taken := some x.regions } s.counts
    else s.releaseAll p
  | .putAll p =>
    match (s.procs p).taken with
    | some T => s.set p { s.procs p with taken := none } (s.counts - tableHeld T)
    | none => s
  | .releaseAll p => s.releaseAll p

end State

/-- What the regions of a process hold, those that were taken off it included. -/
def procHeld (x : Proc) : Counts := tableHeld x.regions + x.taken.elim 0 tableHeld

/-- The counts exceed `base` by exactly what the regions in existence hold. -/
def State.Pinned (base : Counts) (s : State m) : Prop :=
  s.counts = base + ∑ p, procHeld (s.procs p)

/-- They are disjoint, and lie below the addresses that `region_map` gives. -/
def Proc.Ordered (x : Proc) : Prop :=
  Disjoint x.regions ∧ ∀ i r, x.regions i = some r → r.stop ≤ x.mmapNext

variable {base : Counts} {s : State m} {p : Fin m} {x : Proc}

@[simp] theorem tableHeld_empty : tableHeld .empty = 0 :=
  Finset.sum_eq_zero fun _ _ => rfl

theorem ordered_of_empty (h : x.regions = .empty) : x.Ordered := by
  constructor
  · intro i j r r' _ hi
    rw [h] at hi
    cases hi
  · intro i r hi
    rw [h] at hi
    cases hi

theorem State.Pinned.set (h : s.Pinned base) {c : Counts}
    (hc : c + procHeld (s.procs p) = s.counts + procHeld x) : (s.set p x c).Pinned base := by
  have hsum := Refs.sum_update procHeld s.procs p x
  have hall : c + procHeld (s.procs p) =
      base + ∑ q, procHeld (update s.procs p x q) + procHeld (s.procs p) := by
    rw [hc, h, add_assoc, add_assoc, hsum]
  exact add_right_cancel hall

/-- What is held is exact, and the regions of each process are in order. -/
def State.Inv (base : Counts) (s : State m) : Prop :=
  s.Pinned base ∧ ∀ p, (s.procs p).Ordered

theorem State.Inv.set (h : s.Inv base) (hx : x.Ordered) {c : Counts}
    (hc : c + procHeld (s.procs p) = s.counts + procHeld x) : (s.set p x c).Inv base := by
  refine ⟨h.1.set hc, fun q => ?_⟩
  change (update s.procs p x q).Ordered
  rcases eq_or_ne q p with rfl | hne
  · rwa [update_self]
  · rw [update_of_ne hne]
    exact h.2 q

theorem regionMap_cases (x : Proc) (c : Counts) (a : MapArgs) :
    (∃ e, regionMap isDevice refuses x c a = (some e, x, c)) ∨
      ∃ slot promisedPages, x.regions slot = none ∧ regionMap isDevice refuses x c a =
        (none,
          { x with
            regions := update x.regions slot (some (newRegion isDevice x a))
            mmapNext := (newRegion isDevice x a).stop
            promisedPages },
          c + held (newRegion isDevice x a)) := by
  unfold regionMap
  by_cases hbad : a.length = 0 ∨ a.offset % pageSize ≠ 0
  · rw [if_pos hbad]
    exact .inl ⟨_, rfl⟩
  rw [if_neg hbad]
  unfold mapLocked
  dsimp only
  split
  · exact .inl ⟨_, rfl⟩
  · split
    · exact .inl ⟨_, rfl⟩
    next slot hfree =>
      split
      · exact .inl ⟨_, rfl⟩
      · split
        · exact .inl ⟨_, by rw [add_sub_cancel_right]⟩
        · exact .inr ⟨slot, _, freeSlot_spec hfree, by rw [held, add_assoc]⟩

variable {isDevice refuses}

theorem Proc.Ordered.map (h : x.Ordered) (a : MapArgs) (slot : Fin taskMaxRegions)
    (promisedPages : ℕ) :
    Proc.Ordered { x with
      regions := update x.regions slot (some (newRegion isDevice x a))
      mmapNext := (newRegion isDevice x a).stop
      promisedPages } := by
  have hstop : x.mmapNext ≤ (newRegion isDevice x a).stop := Nat.le_add_right ..
  constructor
  · intro i j r r' hij hi hj
    dsimp only at hi hj
    rcases eq_or_ne i slot with rfl | hi'
    · rw [update_self] at hi
      rw [update_of_ne hij.symm] at hj
      cases hi
      exact .inr (h.2 j r' hj)
    · rw [update_of_ne hi'] at hi
      rcases eq_or_ne j slot with rfl | hj'
      · rw [update_self] at hj
        cases hj
        exact .inl (h.2 i r hi)
      · rw [update_of_ne hj'] at hj
        exact h.1 i j r r' hij hi hj
  · intro i r hi
    dsimp only at hi
    rcases eq_or_ne i slot with rfl | hne
    · rw [update_self] at hi
      cases hi
      exact le_rfl
    · rw [update_of_ne hne] at hi
      exact (h.2 i r hi).trans hstop

theorem State.Inv.map (h : s.Inv base) (p : Fin m) (a : MapArgs) :
    (s.step isDevice refuses (.map p a)).Inv base := by
  simp only [State.step]
  rcases regionMap_cases isDevice refuses (s.procs p) s.counts a with
    ⟨e, he⟩ | ⟨slot, promisedPages, hslot, heq⟩
  · rw [he]
    exact h.set (h.2 p) rfl
  · rw [heq]
    refine h.set ((h.2 p).map a slot promisedPages) ?_
    have hsum := tableHeld_update (s.procs p).regions slot (some (newRegion isDevice (s.procs p) a))
    rw [hslot] at hsum
    have hsum' : tableHeld (update (s.procs p).regions slot
        (some (newRegion isDevice (s.procs p) a))) =
        tableHeld (s.procs p).regions + held (newRegion isDevice (s.procs p) a) :=
      (add_zero _).symm.trans hsum
    simp only [procHeld]
    rw [hsum']
    abel

theorem State.Inv.unmap (h : s.Inv base) (p : Fin m) (addr length : ℕ) (busy : Bool) :
    (s.step isDevice refuses (.unmap p addr length busy)).Inv base := by
  simp only [State.step]
  rcases regionUnmap_cases (h.2 p).1 s.counts addr length busy with
    ⟨e, he⟩ | ⟨-, x, hx, heq⟩
  · rw [he]
    exact h.set (h.2 p) rfl
  · rw [heq]
    refine h.set ⟨hx.disjoint, fun i r hi => ?_⟩ ?_
    · obtain ⟨j, r₀, hr₀, hpart⟩ := hx.parts i r hi
      exact hpart.stop.trans ((h.2 p).2 j r₀ hr₀)
    · have hsum := hx.held
      simp only [procHeld]
      rw [← eq_sub_iff_add_eq] at hsum
      rw [hsum]
      abel

theorem State.Inv.releaseAll (h : s.Inv base) (p : Fin m) : (s.releaseAll p).Inv base := by
  refine h.set (ordered_of_empty rfl) ?_
  simp only [procHeld]
  abel

theorem State.Inv.step (h : s.Inv base) (e : Event m) :
    (s.step isDevice refuses e).Inv base := by
  cases e with
  | map p a => exact h.map p a
  | unmap p addr length busy => exact h.unmap p addr length busy
  | fork child parent =>
    simp only [State.step]
    split
    next hnew =>
      refine h.set (x := { s.procs parent with taken := none }) (h.2 parent) ?_
      simp only [procHeld, hnew.1, hnew.2, tableHeld_empty, Option.elim_none, add_zero]
    · exact h
  | takeAll p memory =>
    simp only [State.step]
    split
    next htaken =>
      refine h.set (ordered_of_empty rfl) ?_
      simp only [procHeld, htaken.2, tableHeld_empty, Option.elim_none, Option.elim_some, add_zero,
        zero_add]
    · exact h.releaseAll p
  | putAll p =>
    simp only [State.step]
    split
    next T hT =>
      refine h.set (x := { s.procs p with taken := none }) (h.2 p) ?_
      simp only [procHeld, hT, Option.elim_some]
      abel
    · exact h
  | releaseAll p => exact h.releaseAll p

variable (isDevice refuses)

def start (base : Counts) (procs : Fin m → Proc) : State m :=
  ⟨procs, base + ∑ p, procHeld (procs p)⟩

/-- If at the start the regions of each process are disjoint and lie below the addresses
`region_map` gives, the files are held by exactly the regions in existence. -/
theorem files_pinned_exactly (base : Counts) (procs : Fin m → Proc)
    (hordered : ∀ p, (procs p).Ordered) (es : List (Event m)) :
    Always (State.step isDevice refuses) (State.Pinned base) (start base procs) es := by
  have hinv : Always (State.step isDevice refuses) (State.Inv base) (start base procs) es :=
    always_of_induction (P := fun _ _ => True) (fun s e h _ => h.step e) ⟨rfl, hordered⟩
      (Along.of_forall fun _ _ => trivial)
  exact hinv.mono fun s h => h.1

end

theorem files_pinned_exactly_fork :
    (∀ p : Fin 2, (if p = 0 then fourPages
        else { fourPages with regions := .empty }).Ordered) ∧
      Always (State.step (fun _ => false) fun _ _ => false) (State.Pinned 0)
        (start 0 fun p : Fin 2 => if p = 0 then fourPages
          else { fourPages with regions := .empty })
        [.fork 1 0, .unmap 1 0x11000 0x1000 false, .releaseAll 0] := by
  have hordered : ∀ p : Fin 2, (if p = 0 then fourPages
      else { fourPages with regions := .empty }).Ordered := by
    intro p
    split_ifs
    · refine ⟨disjoint_fourPages, fun i r hi => ?_⟩
      simp only [fourPages] at hi
      split_ifs at hi
      cases hi
      exact le_rfl
    · exact ordered_of_empty rfl
  exact ⟨hordered, files_pinned_exactly _ _ 0 _ hordered _⟩

/-- A program whose first segment lies where its next mapping will be. -/
def programAbove : Proc where
  regions i :=
    if i = 0 then
      some ⟨0x700000000000, 0x700000003000, ⟨true, false, true⟩, some 7, 0, true, false, false⟩
    else none
  mmapNext := 0x700000000000
  promisedPages := 3
  pte _ := .none
  taken := none

/-- It maps three pages, which then lie in both regions, and takes out the second one: both regions
become two, but only one is held a second time. Two regions of the program are left, and its file is
held by one. -/
theorem program_in_the_way :
    ¬ State.Pinned (m := 1) 0
      (run (State.step (fun _ => false) fun _ _ => false) (start 0 fun _ => programAbove)
        [.map 0 ⟨0x3000, ⟨true, true, false⟩, none, 0, false, true⟩,
          .unmap 0 0x700000001000 0x1000 false]) := by
  intro h
  have hcount := congrFun (congrFun h 7) .execCount
  revert hcount
  decide +kernel

end Bashket.Regions
