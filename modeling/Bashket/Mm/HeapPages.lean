import Bashket.Mm.HeapRuns

/-!
# `kmalloc` and the frame allocator

`kmalloc` fails only for want of frames, and then leaves everything as it was.  To `Heap.kmalloc` the
frame allocator is the number of pages that can be had; here `expand_heap` takes its frames one by
one, `vmm_map_page` takes frames for page tables as well, and if either finds none, `shrink_heap`
gives the pages back.
-/

namespace Bashket.Mm

open List
open Function (update update_of_ne update_self)

/-! ### Pages, one by one -/

/-- The frames that are free and those that have become page tables, and which pages are mapped.
`tables virt`: how many tables `vmm_map_page` has to make for the page. -/
structure Frames where
  free : ℕ
  inTables : ℕ
  mapped : ℕ → Bool
  tables : ℕ → ℕ

namespace Frames

def pmmAllocFrame (f : Frames) : Option Frames :=
  if f.free = 0 then none else some { f with free := f.free - 1 }

def pmmFreeFrame (f : Frames) : Frames := { f with free := f.free + 1 }

/-- The tables it has made stay if it then finds no frame for the next. -/
def vmmMapPage (f : Frames) (virt : ℕ) : Frames × Bool :=
  let made := min (f.tables virt) f.free
  let f' := { f with free := f.free - made, inTables := f.inTables + made }
  if f.tables virt ≤ f.free then
    ({ f' with mapped := update f.mapped virt true }, true)
  else (f', false)

def shrinkHeap (newEnd : ℕ) (f : Frames) (heapEndVirt : ℕ) : Frames × ℕ :=
  if heapEndVirt > newEnd then
    let virt := heapEndVirt - pageSize
    let unmapped := { f with mapped := update f.mapped virt false }
    shrinkHeap newEnd (if f.mapped virt then unmapped.pmmFreeFrame else unmapped) virt
  else (f, heapEndVirt)
termination_by heapEndVirt
decreasing_by
  simp only [pageSize]
  omega

/-- The loop of `expand_heap`: the frames, the end of the heap and whether all pages were added. -/
def addPages (oldEnd : ℕ) : ℕ → Frames → ℕ → Frames × ℕ × Bool
  | 0, f, heapEndVirt => (f, heapEndVirt, true)
  | n + 1, f, heapEndVirt =>
    match f.pmmAllocFrame with
    | none =>
      let (f, heapEndVirt) := f.shrinkHeap oldEnd heapEndVirt
      (f, heapEndVirt, false)
    | some f =>
      match f.vmmMapPage heapEndVirt with
      | (f, true) => addPages oldEnd n f (heapEndVirt + pageSize)
      | (f, false) =>
        let (f, heapEndVirt) := f.pmmFreeFrame.shrinkHeap oldEnd heapEndVirt
        (f, heapEndVirt, false)

def expandHeap (f : Frames) (heapEndVirt bytes : ℕ) : Frames × ℕ × Bool :=
  addPages heapEndVirt ((bytes + pageSize - 1) / pageSize) f heapEndVirt

/-- How many pages can be had at the end of the heap. -/
def supply (tables : ℕ → ℕ) (free heapEndVirt : ℕ) : ℕ :=
  if tables heapEndVirt < free then
    supply tables (free - 1 - tables heapEndVirt) (heapEndVirt + pageSize) + 1
  else 0
termination_by free

theorem shrinkHeap_eq (newEnd k : ℕ) (f : Frames)
    (hm : ∀ i < k, f.mapped (newEnd + i * pageSize) = true) :
    ∃ g, f.shrinkHeap newEnd (newEnd + k * pageSize) = (g, newEnd) ∧ g.free = f.free + k ∧
      g.inTables = f.inTables := by
  have hpos : 0 < pageSize := by decide
  induction k generalizing f with
  | zero =>
    rw [shrinkHeap, if_neg (by omega), Nat.zero_mul]
    exact ⟨f, rfl, rfl, rfl⟩
  | succ k ih =>
    have hvirt : newEnd + (k + 1) * pageSize - pageSize = newEnd + k * pageSize := by
      rw [Nat.succ_mul]
      omega
    rw [shrinkHeap, if_pos (Nat.lt_add_of_pos_right (Nat.mul_pos k.succ_pos hpos))]
    simp only [hvirt, if_pos (hm k (Nat.lt_succ_self k))]
    obtain ⟨g, hg, hfree, htables⟩ := ih
      ({ f with mapped := update f.mapped (newEnd + k * pageSize) false }.pmmFreeFrame)
      fun i hi => by
        have hne : newEnd + i * pageSize ≠ newEnd + k * pageSize := by
          have := Nat.mul_lt_mul_of_pos_right hi hpos
          omega
        simp only [pmmFreeFrame, update_of_ne hne]
        exact hm i (Nat.lt_succ_of_lt hi)
    refine ⟨g, hg, hfree.trans ?_, htables⟩
    simp only [pmmFreeFrame]
    omega

/-- With `k` pages added, the loop adds the other `n` if they can be had, or else gives back all. -/
theorem addPages_eq (oldEnd n k : ℕ) (f : Frames)
    (hm : ∀ i < k, f.mapped (oldEnd + i * pageSize) = true) :
    if n ≤ supply f.tables f.free (oldEnd + k * pageSize) then
      (addPages oldEnd n f (oldEnd + k * pageSize)).2 = (oldEnd + (k + n) * pageSize, true)
    else (addPages oldEnd n f (oldEnd + k * pageSize)).2 = (oldEnd, false) ∧
      (addPages oldEnd n f (oldEnd + k * pageSize)).1.free +
        (addPages oldEnd n f (oldEnd + k * pageSize)).1.inTables = f.free + k + f.inTables := by
  induction n generalizing k f with
  | zero =>
    rw [if_pos (Nat.zero_le _)]
    rfl
  | succ n ih =>
    have hnext : oldEnd + k * pageSize + pageSize = oldEnd + (k + 1) * pageSize := by
      rw [Nat.succ_mul, Nat.add_assoc]
    generalize hend : oldEnd + k * pageSize = heapEnd at hnext
    by_cases hhas : f.tables heapEnd < f.free
    · have hmin : min (f.tables heapEnd) (f.free - 1) = f.tables heapEnd := by omega
      have hstep : addPages oldEnd (n + 1) f heapEnd = addPages oldEnd n
          { f with
            free := f.free - 1 - f.tables heapEnd
            inTables := f.inTables + f.tables heapEnd
            mapped := update f.mapped heapEnd true } (oldEnd + (k + 1) * pageSize) := by
        rw [addPages, pmmAllocFrame, if_neg (by omega)]
        simp only [vmmMapPage, hmin]
        rw [if_pos (by omega), hnext]
      have hsup : supply f.tables f.free heapEnd =
          supply f.tables (f.free - 1 - f.tables heapEnd) (oldEnd + (k + 1) * pageSize) + 1 := by
        rw [supply, if_pos hhas, hnext]
      have hrest := ih (k + 1) { f with
          free := f.free - 1 - f.tables heapEnd
          inTables := f.inTables + f.tables heapEnd
          mapped := update f.mapped heapEnd true } fun i hi => by
        rcases eq_or_ne (oldEnd + i * pageSize) heapEnd with h0 | h0
        · simp only [h0, update_self]
        · simp only [update_of_ne h0]
          refine hm i (Nat.lt_of_le_of_ne (Nat.le_of_lt_succ hi) fun h1 => h0 ?_)
          rw [h1, hend]
      rw [hstep, hsup]
      simp only [Nat.add_le_add_iff_right, Nat.add_assoc k 1 n, Nat.add_comm 1 n] at hrest ⊢
      split_ifs at hrest ⊢
      · exact hrest
      · exact ⟨hrest.1, hrest.2.trans (by omega)⟩
    · rw [if_neg (by rw [supply, if_neg hhas]; omega)]
      by_cases h0 : f.free = 0
      · obtain ⟨g, hg, hfree, htables⟩ := shrinkHeap_eq oldEnd k f hm
        rw [hend] at hg
        simp only [addPages, pmmAllocFrame, if_pos h0, hg]
        exact ⟨trivial, by omega⟩
      · have hmin : min (f.tables heapEnd) (f.free - 1) = f.free - 1 := by omega
        obtain ⟨g, hg, hfree, htables⟩ := shrinkHeap_eq oldEnd k
          { f with free := f.free - 1 - (f.free - 1) + 1, inTables := f.inTables + (f.free - 1) } hm
        rw [hend] at hg
        rw [addPages, pmmAllocFrame, if_neg h0]
        simp only [vmmMapPage, hmin]
        rw [if_neg (by omega)]
        simp only [pmmFreeFrame, hg] at hfree htables ⊢
        exact ⟨trivial, by omega⟩

/-- What `Heap.expandHeap` says; if it fails, all frames are free again but those in page tables. -/
theorem expandHeap_eq (f : Frames) (h : Heap) (bytes : ℕ) :
    (h.expandHeap bytes (supply f.tables f.free h.heapEndVirt) =
      if (f.expandHeap h.heapEndVirt bytes).2.2 then
        some { h with heapEndVirt := (f.expandHeap h.heapEndVirt bytes).2.1 }
      else none) ∧
    ((f.expandHeap h.heapEndVirt bytes).2.2 = false →
      (f.expandHeap h.heapEndVirt bytes).2.1 = h.heapEndVirt ∧
      (f.expandHeap h.heapEndVirt bytes).1.free + (f.expandHeap h.heapEndVirt bytes).1.inTables =
        f.free + f.inTables) := by
  have hadd := addPages_eq h.heapEndVirt ((bytes + pageSize - 1) / pageSize) 0 f
    fun i hi => absurd hi (Nat.not_lt_zero i)
  rw [Nat.zero_mul, Nat.add_zero, Nat.zero_add] at hadd
  unfold expandHeap
  rw [Heap.expandHeap]
  split_ifs at hadd with hle
  · simp [hadd, hle]
  · simp [hadd, hle]

end Frames

/-! ### Blocks -/

/-- The blocks, as `next_block` gives them from `first_block` on. -/
inductive Heap.Block (h : Heap) : ℕ → Prop
  | first : Block h h.firstBlock
  | next {b n : ℕ} (hb : Block h b) (hn : h.nextBlock b = some n) : Block h n

def Heap.HasRoom (h : Heap) (need : ℕ) : Prop :=
  ∃ b, h.Block b ∧ h.isFree b = true ∧ need ≤ h.sizeOf b

section

variable {h : Heap} {bs : List Blk} {e need : ℕ}

theorem Tiled.nextBlock {pre post : List Blk} {c : Blk} (ht : Tiled h e (pre ++ c :: post)) :
    h.nextBlock (kheapStartVirt + span pre) =
      if post = [] then none else some (kheapStartVirt + span (pre ++ [c])) := by
  obtain ⟨-, hb, -⟩ := ht.middle
  have hmin : 32 ≤ c.size := hb.min
  have hlast := ht.last
  rw [lastStart_append] at hlast
  rw [Heap.nextBlock, hb.sizeOf_eq, hlast]
  cases post with
  | nil => exact if_pos rfl
  | cons d post =>
    have hle : kheapStartVirt + span pre + c.size ≤ lastStart (kheapStartVirt + span pre)
      (c :: d :: post) := le_lastStart _ (d :: post)
    rw [if_neg (by omega), if_neg (cons_ne_nil _ _)]
    simp [Nat.add_assoc]

theorem Tiled.block_iff (ht : Tiled h e bs) {b : ℕ} :
    h.Block b ↔ ∃ pre c post, bs = pre ++ c :: post ∧ b = kheapStartVirt + span pre := by
  constructor
  · intro hb
    induction hb with
    | first =>
      obtain ⟨c, post, rfl⟩ := exists_cons_of_ne_nil ht.ne
      exact ⟨[], c, post, rfl, ht.first⟩
    | next _ hn ih =>
      obtain ⟨pre, c, post, rfl, rfl⟩ := ih
      rw [ht.nextBlock] at hn
      split_ifs at hn with hpost
      obtain ⟨d, post, rfl⟩ := exists_cons_of_ne_nil hpost
      exact ⟨pre ++ [c], d, post, by simp, (Option.some.inj hn).symm⟩
  · rintro ⟨pre, c, post, rfl, rfl⟩
    induction pre using List.reverseRecOn generalizing c post with
    | nil => exact ht.first ▸ .first
    | append_singleton pre d ih =>
      rw [append_assoc, singleton_append] at ht
      refine .next (ih d (c :: post) ht) ?_
      rw [ht.nextBlock, if_neg (cons_ne_nil _ _)]

theorem Tiled.hasRoom_iff (ht : Tiled h e bs) :
    h.HasRoom need ↔ ∃ s, ⟨s, none⟩ ∈ bs ∧ need ≤ s := by
  constructor
  · rintro ⟨b, hb, hfree, hs⟩
    obtain ⟨pre, ⟨s, c⟩, post, rfl, rfl⟩ := ht.block_iff.1 hb
    obtain ⟨-, hl, -⟩ := ht.middle
    rw [hl.isFree_eq] at hfree
    obtain rfl := Option.isNone_iff_eq_none.1 hfree
    rw [hl.sizeOf_eq] at hs
    exact ⟨s, by simp, hs⟩
  · rintro ⟨s, hmem, hs⟩
    obtain ⟨pre, post, rfl⟩ := append_of_mem hmem
    obtain ⟨-, hl, -⟩ := ht.middle
    exact ⟨_, ht.block_iff.2 ⟨pre, _, post, rfl, rfl⟩, hl.isFree_eq, hl.sizeOf_eq.symm ▸ hs⟩

/-! ### Requests -/

def Heap.there (h : Heap) : ℕ := if h.isFree h.lastBlock then h.sizeOf h.lastBlock else 0

/-- What `grow_for` asks of `expand_heap`. -/
def Heap.more (h : Heap) (need : ℕ) : ℕ :=
  if need - h.there < growMin then growMin else need - h.there

/-- `take_free` finds a block if there is one; if not, there is one once `grow_for` has succeeded;
and if a call fails, `expand_heap` has, and only the count of failures has changed. -/
structure FailsForFrames (h : Heap) (size : ℕ) (f : Frames) : Prop where
  take : ∃ h' b, h.takeFree (needOf size) = some (h', b) ∧ (b = none ↔ ¬h.HasRoom (needOf size))
  noWrap : ¬h.HasRoom (needOf size) → h.there ≤ needOf size
  grow : ∀ frames h', h.growFor (needOf size) frames = some h' →
    ∃ h'' b, h'.takeFree (needOf size) = some (h'', some b) ∧ h'.isFree b = true ∧
      needOf size ≤ h'.sizeOf b
  pages : ∀ bytes, h.expandHeap bytes (Frames.supply f.tables f.free h.heapEndVirt) =
    if (f.expandHeap h.heapEndVirt bytes).2.2 then
      some { h with heapEndVirt := (f.expandHeap h.heapEndVirt bytes).2.1 }
    else none
  returns : (h.kmalloc size (Frames.supply f.tables f.free h.heapEndVirt)).isSome
  fails : ∀ h', h.kmalloc size (Frames.supply f.tables f.free h.heapEndVirt) = some (h', 0) →
    h' = { h with failedAllocations := h.failedAllocations + 1 } ∧
    (f.expandHeap h.heapEndVirt (h.more (needOf size))).2 = (h.heapEndVirt, false) ∧
    (f.expandHeap h.heapEndVirt (h.more (needOf size))).1.free +
      (f.expandHeap h.heapEndVirt (h.more (needOf size))).1.inTables = f.free + f.inTables

theorem HeapOk.takeFree (ho : HeapOk h bs) (need : ℕ) : ∃ h' b,
    h.takeFree need = some (h', b) ∧ (b = none ↔ ¬h.HasRoom need) ∧
      ∀ x, b = some x → h.isFree x = true ∧ need ≤ h.sizeOf x := by
  have ht := ho.tiled
  rcases ht.takeFree need with ⟨htake, hno⟩ | ⟨pre, s, post, rfl, hs, htake⟩
  · refine ⟨_, _, htake, ⟨fun _ hroom => ?_, fun _ => rfl⟩, nofun⟩
    obtain ⟨s, hmem, hs⟩ := ht.hasRoom_iff.1 hroom
    exact absurd hs (Nat.not_le.2 (hno s hmem))
  · obtain ⟨-, hl, -⟩ := ht.middle
    refine ⟨_, _, htake, ⟨nofun, fun hno => absurd (ht.hasRoom_iff.2 ⟨s, by simp, hs⟩) hno⟩, ?_⟩
    rintro x hx
    cases hx
    exact ⟨hl.isFree_eq, hl.sizeOf_eq.symm ▸ hs⟩

theorem HeapOk.failsForFrames (ho : HeapOk h bs) {size : ℕ} (hpos : 0 < size)
    (hmax : size ≤ kheapMaxAlloc) (f : Frames) : FailsForFrames h size f := by
  have ht := ho.tiled
  obtain ⟨r, hr, -, hrefused⟩ := ho.kmalloc size (Frames.supply f.tables f.free h.heapEndVirt)
  refine ⟨?_, fun hno => ?_, fun frames h' hg => ?_, fun bytes => (f.expandHeap_eq h bytes).1,
    by rw [hr]; rfl, fun h' hk => ?_⟩
  · obtain ⟨h', b, htake, hb, -⟩ := ho.takeFree (needOf size)
    exact ⟨h', b, htake, hb⟩
  · obtain ⟨pre, c, rfl, hlast, hfree, hsize⟩ := ht.last_split
    rw [Heap.there]
    split_ifs with h0
    · by_contra hlt
      refine hno ⟨h.lastBlock, ht.block_iff.2 ⟨pre, c, [], rfl, hlast⟩, h0, ?_⟩
      exact (Nat.not_le.1 hlt).le
    · exact Nat.zero_le _
  · obtain ⟨bs', ho', -, s, hs, hlarge⟩ := ho.growFor hg
    obtain ⟨h'', b, htake, hb, hlarge'⟩ := ho'.takeFree (needOf size)
    have hroom := ho'.tiled.hasRoom_iff.2 ⟨s, hs, hlarge⟩
    cases b with
    | none => exact absurd hroom (hb.1 rfl)
    | some b => exact ⟨h'', b, htake, hlarge' b rfl⟩
  · rw [hr] at hk
    cases hk
    obtain ⟨hgrow, hsame⟩ := hrefused hpos hmax rfl
    obtain ⟨hpages, hrestored⟩ := f.expandHeap_eq h (h.more (needOf size))
    cases hok : (f.expandHeap h.heapEndVirt (h.more (needOf size))).2.2 with
    | false => exact ⟨hsame, Prod.ext (hrestored hok).1 hok, (hrestored hok).2⟩
    | true =>
      rw [if_pos hok, Heap.more, Heap.there] at hpages
      simp only [Heap.growFor, hpages] at hgrow
      split_ifs at hgrow

end

/-- Once `kheap_init` has had its pages, `kmalloc` of at least one byte fails only if the frame
allocator cannot supply the growth. -/
theorem kmalloc_fails_for_frames (mem : ℕ → ℕ) (frames : ℕ)
    (hf : kheapInitialSize ≤ frames * pageSize) (es : List Event) (size : ℕ) (hpos : 0 < size)
    (hmax : size ≤ kheapMaxAlloc) (f : Frames) :
    FailsForFrames (Run.run State.step (State.init mem frames) es).heap size f := by
  obtain ⟨bs, hm⟩ := matches_run mem hf es
  exact hm.heap.failsForFrames hpos hmax f

theorem kmalloc_fails_for_frames_large :
    FailsForFrames (Run.run State.step (State.init (fun _ => 0) 256) []).heap 2000000
      ⟨16, 0, fun _ => false, fun _ => 1⟩ :=
  kmalloc_fails_for_frames (fun _ => 0) 256 (by decide) [] 2000000 (by decide) (by decide) _

/-- A request for no bytes is refused with memory to spare. -/
theorem kmalloc_zero_refused :
    (Run.run State.step (State.init (fun _ => 0) 256) []).heap.kmalloc 0 1000000 =
      some ((Run.run State.step (State.init (fun _ => 0) 256) []).heap, 0) := rfl

end Bashket.Mm
