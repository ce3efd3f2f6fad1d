import Bashket.Lib.Refs
import Bashket.Lib.Run

/-!
# The page cache

`pcache.c`: the hash table of cached pages, the list in order of use, their counters, and the
sharing counts of `cow.c`. A task goes from one hold of `pcache_lock` to the next, or to the next
change of a sharing count outside it; which frame `pmm_alloc_frame` finds, whether `kmalloc` has
room for an entry and which writes succeed are the environment's choice. The bytes of pages are left
out. `callers` is not of the source: the references that were returned and not yet given back.

A sharing count has 16 bits and is not guarded, so that with 65536 references out a page looks
unmapped and is taken (`mapped_page_taken`); with fewer the structure is sound (`page_cache_sound`).
-/

namespace Bashket.PageCache

open Run List
open Function (update update_apply update_eq_self update_of_ne update_self)

/-! ### Sharing counts -/

/-- The allocator's bitmap, and `extra_owners` (which has all its frames) -/
structure Frames where
  used : ℕ → Bool
  extra : ℕ → ℕ

namespace Frames

variable (F : Frames) (f : ℕ)

def pmmAllocFrame : Frames := { F with used := update F.used f true }

def pmmFreeFrame : Frames := { F with used := update F.used f false }

def pmmRefFrame : Frames :=
  { F with extra := update F.extra f ((F.extra f + 1) % 65536) }

def pmmUnrefFrame : Frames :=
  if 0 < F.extra f then { F with extra := update F.extra f (F.extra f - 1) }
  else F.pmmFreeFrame f

def pmmGetFrameRef : ℕ := F.extra f + 1

/-- The counts are right for the references `M`. -/
def Counts (M : Multiset ℕ) : Prop :=
  ∀ f, F.used f = true ∧ M.count f = F.extra f + 1 ∨
    F.used f = false ∧ M.count f = 0 ∧ F.extra f = 0

variable {F f} {M : Multiset ℕ}

theorem Counts.used (h : F.Counts M) (hf : f ∈ M) : M.count f = F.extra f + 1 := by
  have := Multiset.count_pos.2 hf
  rcases h f with h0 | h0 <;> omega

theorem Counts.alloc (h : F.Counts M) (hf : F.used f = false) :
    (F.pmmAllocFrame f).Counts ({f} + M) := by
  intro g
  have := h g
  by_cases hg : g = f <;> simp_all [pmmAllocFrame]

theorem Counts.free (h : F.Counts ({f} + M)) (hf : F.extra f = 0) :
    (F.pmmFreeFrame f).Counts M := by
  intro g
  have := h g
  by_cases hg : g = f <;> simp_all [pmmFreeFrame]

theorem Counts.ref (h : F.Counts M) (hf : f ∈ M) (hlt : ({f} + M).count f ≤ 65536) :
    (F.pmmRefFrame f).Counts ({f} + M) := by
  intro g
  have hc := h.used hf
  by_cases hg : g = f
  · subst hg
    have hmod : (F.extra g + 1) % 65536 = F.extra g + 1 := by
      simp at hlt
      omega
    have := h g
    simp [pmmRefFrame]
    grind
  · have := h g
    simp_all [pmmRefFrame]

theorem Counts.refs {l : List ℕ} (h : F.Counts M) (hl : ∀ f ∈ l, f ∈ M)
    (hlt : ∀ f, ((l : Multiset ℕ) + M).count f ≤ 65536) :
    (l.foldl pmmRefFrame F).Counts (l + M) := by
  induction l generalizing F M with
  | nil => simpa using h
  | cons f l ih =>
    have hsplit : ((f :: l : List ℕ) : Multiset ℕ) + M = l + ({f} + M) := by
      rw [← Multiset.cons_coe, ← Multiset.singleton_add, add_assoc, add_left_comm]
    rw [hsplit] at hlt ⊢
    refine ih (h.ref (hl f (by simp)) ?_) (fun g hg => ?_) hlt
    · exact (Multiset.count_le_of_le f (Multiset.le_add_left _ _)).trans (hlt f)
    · exact Multiset.mem_add.2 (.inr (hl g (mem_cons_of_mem _ hg)))

theorem extra_refs {l : List ℕ} (hf : f ∉ l) : (l.foldl pmmRefFrame F).extra f = F.extra f := by
  induction l generalizing F with
  | nil => rfl
  | cons g l ih =>
    rw [mem_cons, not_or] at hf
    rw [foldl_cons, ih hf.2]
    exact update_of_ne hf.1 _ _

theorem extra_unref (g : ℕ) (h : F.extra g = 0) : (F.pmmUnrefFrame f).extra g = 0 := by
  unfold pmmUnrefFrame
  split_ifs with hf
  · exact (update_of_ne (by rintro rfl; omega) _ _).trans h
  · exact h

theorem Counts.unref (h : F.Counts ({f} + M)) : (F.pmmUnrefFrame f).Counts M := by
  unfold pmmUnrefFrame
  split_ifs with hf
  · intro g
    have := h g
    by_cases hg : g = f
    · simp_all
      grind
    · simp_all
  · exact h.free (by omega)

end Frames

/-! ### Entries -/

/-- What does not change in a `pcache_entry_t` -/
structure Entry where
  node : UInt64
  index : UInt64
  frame : ℕ
deriving DecidableEq

def Entry.page (e : Entry) : UInt64 × UInt64 := (e.node, e.index)

/-- `bucket_of`; a file is given by its address -/
def bucketOf (p : UInt64 × UInt64) : ℕ :=
  let h := (p.1 >>> 4) ^^^ (p.2 * 0x9E3779B97F4A7C15)
  ((h ^^^ (h >>> 32)) % 1024).toNat

/-- `use` is the list in order of use, newest first. -/
structure Cache where
  buckets : ℕ → List Entry
  use : List Entry
  shared : Entry → Bool
  dirty : Entry → Bool
  entryCount : ℕ
  cachedPages : UInt64 → ℕ
  sharedCached : UInt64 → ℕ

/-- The calls that walk the list from its oldest entry and take entries out. -/
inductive Sweep
  | fileWritten (node : UInt64)
  | fileTruncated (node size : UInt64)
  | dropFile (node : UInt64)
  | reclaim (want : ℕ)

namespace Cache

variable (c : Cache)

def findLocked (p : UInt64 × UInt64) : Option Entry :=
  (c.buckets (bucketOf p)).find? fun e => e.page = p

def markUsed (e : Entry) : Cache := { c with use := e :: c.use.erase e }

def takeOut (e : Entry) : Cache :=
  { c with
    buckets := update c.buckets (bucketOf e.page) ((c.buckets (bucketOf e.page)).erase e)
    use := c.use.erase e
    cachedPages := update c.cachedPages e.node (c.cachedPages e.node - 1)
    sharedCached := if c.shared e then
        update c.sharedCached e.node (c.sharedCached e.node - 1) else c.sharedCached
    entryCount := c.entryCount - 1 }

def markShared (e : Entry) (writable : Bool) : Cache :=
  { c with
    shared := update c.shared e true
    sharedCached := if c.shared e then c.sharedCached else
      update c.sharedCached e.node (c.sharedCached e.node + 1)
    dirty := if writable then update c.dirty e true else c.dirty }

/-- The entry is noted for the mapping: 0 for a private one, 1 or 2 for a shared one. -/
def mapped (e : Entry) (shared : ℕ) : Cache :=
  if shared = 0 then c else c.markShared e (shared = 2)

/-- A new entry goes in, as at the end of `get`. -/
def insert (e : Entry) : Cache :=
  { c with
    buckets := update c.buckets (bucketOf e.page) (e :: c.buckets (bucketOf e.page))
    use := e :: c.use
    shared := update c.shared e false
    dirty := update c.dirty e false
    cachedPages := update c.cachedPages e.node (c.cachedPages e.node + 1)
    entryCount := c.entryCount + 1 }

/-- Which entry is taken out, by the file's count of cached pages and how many were taken. -/
def picks (F : Frames) : Sweep → (UInt64 → ℕ) → ℕ → Entry → Bool
  | .fileWritten node, cached, _, e => 0 < cached node && e.node == node && !c.shared e
  | .fileTruncated node size, cached, _, e =>
    0 < cached node && e.node == node && (!c.shared e || size ≤ e.index * 4096)
  | .dropFile node, cached, _, e => 0 < cached node && e.node == node
  | .reclaim want, _, taken, e => taken < want && F.pmmGetFrameRef e.frame == 1 && !c.dirty e

/-- One walk, with the entries taken out, the last one first. -/
def sweep (pick : (UInt64 → ℕ) → ℕ → Entry → Bool) : Cache × List Entry :=
  c.use.reverse.foldl (fun r e =>
    if pick r.1.cachedPages r.2.length e then (r.1.takeOut e, e :: r.2) else r) (c, [])

/-- The dirty pages from `cursor` up to `stop` that `pcache_writeback` picks, lowest first. -/
def batch (node cursor stop : UInt64) : List Entry :=
  c.use.reverse.foldl (fun b e =>
    if e.node = node ∧ c.dirty e ∧ cursor ≤ e.index ∧ e.index < stop then
      (b.orderedInsert (fun x y => x.index ≤ y.index) e).take 16 else b) []

/-- The end of `pcache_writeback` for a batch, under the lock. -/
def clean (F : Frames) (batch : List Entry) (written : Entry → Bool) : Cache :=
  { c with dirty := fun e => c.dirty e && !batch.any fun b =>
      written b && c.findLocked b.page == some e && e.frame == b.frame &&
        F.pmmGetFrameRef b.frame == 2 }

def cached : Multiset ℕ := c.use.map Entry.frame

/-! ### What is to hold of the cache -/

/-- A page has one entry at most, in its own bucket and nowhere else, the counters are exact, and no
frame is cached twice. -/
structure Ok : Prop where
  once : (c.use.map Entry.page).Nodup
  bucketed : ∀ b, (c.buckets b).Perm (c.use.filter fun e => bucketOf e.page = b)
  entryCount : c.entryCount = c.use.length
  cachedPages : ∀ node, c.cachedPages node = c.use.countP fun e => e.node = node
  sharedCached : ∀ node, c.sharedCached node = c.use.countP fun e => e.node = node ∧ c.shared e
  frames : (c.use.map Entry.frame).Nodup

variable {c} {e : Entry}

theorem mapped_use (c : Cache) (e : Entry) (shared : ℕ) : (c.mapped e shared).use = c.use := by
  unfold Cache.mapped
  split_ifs <;> rfl

theorem mapped_dirty (c : Cache) (shared : ℕ) {e e' : Entry} (h : e ≠ e') :
    (c.mapped e' shared).dirty e = c.dirty e := by
  unfold Cache.mapped Cache.markShared
  split_ifs <;> simp [h]

theorem cached_mapped (c : Cache) (e : Entry) (shared : ℕ) :
    (c.mapped e shared).cached = c.cached := by
  rw [cached, mapped_use, cached]

theorem cached_markUsed (he : e ∈ c.use) : (c.markUsed e).cached = c.cached :=
  Multiset.coe_eq_coe.2 ((perm_cons_erase he).map Entry.frame).symm

theorem cached_insert (c : Cache) (e : Entry) : (c.insert e).cached = {e.frame} + c.cached := rfl

theorem mem_cached (he : e ∈ c.use) : e.frame ∈ c.cached :=
  Multiset.mem_coe.2 (mem_map_of_mem he)

theorem Ok.nodup (h : c.Ok) : c.use.Nodup := h.once.of_map

theorem Ok.mem_of_findLocked (h : c.Ok) {p : UInt64 × UInt64} (hf : c.findLocked p = some e) :
    e ∈ c.use :=
  (mem_filter.1 ((h.bucketed _).subset (mem_of_find?_eq_some hf))).1

theorem Ok.notMem_of_findLocked (h : c.Ok) {p : UInt64 × UInt64} (hf : c.findLocked p = none) :
    p ∉ c.use.map Entry.page := by
  rw [mem_map]
  rintro ⟨e, he, rfl⟩
  have hb := (h.bucketed (bucketOf e.page)).mem_iff.2 (mem_filter.2 ⟨he, by simp⟩)
  simpa using find?_eq_none.1 hf e hb

theorem Ok.markUsed (h : c.Ok) (he : e ∈ c.use) : (c.markUsed e).Ok := by
  have hp := perm_cons_erase he
  exact ⟨(hp.map _).nodup_iff.1 h.once, fun b => (h.bucketed b).trans (hp.filter _),
    h.entryCount.trans hp.length_eq, fun n => (h.cachedPages n).trans (hp.countP_eq _),
    fun n => (h.sharedCached n).trans (hp.countP_eq _), (hp.map _).nodup_iff.1 h.frames⟩

theorem Ok.takeOut (h : c.Ok) (he : e ∈ c.use) : (c.takeOut e).Ok := by
  have hp := perm_cons_erase he
  refine ⟨((hp.map _).nodup_iff.1 h.once).of_cons, fun b => ?_, ?_, fun n => ?_, fun n => ?_,
    ((hp.map _).nodup_iff.1 h.frames).of_cons⟩
  · have hb := (h.bucketed b).trans (hp.filter _)
    by_cases hbe : b = bucketOf e.page
    · subst hbe
      have := hb.erase e
      simpa [Cache.takeOut] using this
    · rw [filter_cons_of_neg (by simpa using Ne.symm hbe)] at hb
      simpa [Cache.takeOut, hbe] using hb
  · have := hp.length_eq
    simp only [Cache.takeOut, h.entryCount, this, length_cons]
    omega
  · have := h.cachedPages n
    rw [hp.countP_eq] at this
    by_cases hn : n = e.node
    · simp_all [Cache.takeOut]
    · simp_all [Cache.takeOut, Ne.symm hn]
  · have := h.sharedCached n
    rw [hp.countP_eq] at this
    by_cases hn : n = e.node
    · cases hs : c.shared e <;> simp_all [Cache.takeOut]
    · cases hs : c.shared e <;> simp_all [Cache.takeOut, Ne.symm hn]

theorem Ok.mapped (h : c.Ok) (he : e ∈ c.use) (shared : ℕ) : (c.mapped e shared).Ok := by
  unfold Cache.mapped
  split_ifs
  · exact h
  refine ⟨h.once, h.bucketed, h.entryCount, h.cachedPages, fun n => ?_, h.frames⟩
  have hp := perm_cons_erase he
  have hne : ∀ x ∈ c.use.erase e, x ≠ e := fun x hx h0 => h.nodup.not_mem_erase (h0 ▸ hx)
  have hold := h.sharedCached n
  rw [hp.countP_eq] at hold
  have hrest : (c.use.erase e).countP (fun x => x.node = n ∧ update c.shared e true x) =
      (c.use.erase e).countP fun x => x.node = n ∧ c.shared x :=
    countP_congr fun x hx => by simp [hne x hx]
  show _ = c.use.countP fun x => x.node = n ∧ update c.shared e true x
  rw [hp.countP_eq]
  by_cases hn : n = e.node
  · cases hs : c.shared e <;> simp_all [Cache.markShared]
  · cases hs : c.shared e <;> simp_all [Cache.markShared, Ne.symm hn]

theorem Ok.insert (h : c.Ok) (hp : e.page ∉ c.use.map Entry.page)
    (hf : e.frame ∉ c.use.map Entry.frame) : (c.insert e).Ok := by
  have hne : ∀ x ∈ c.use, x ≠ e := fun x hx h0 => hp (mem_map.2 ⟨x, hx, by rw [h0]⟩)
  refine ⟨nodup_cons.2 ⟨hp, h.once⟩, fun b => ?_, by simp [Cache.insert, h.entryCount],
    fun n => ?_, fun n => ?_, nodup_cons.2 ⟨hf, h.frames⟩⟩
  · by_cases hbe : b = bucketOf e.page
    · subst hbe
      simpa [Cache.insert] using (h.bucketed _).cons e
    · simpa [Cache.insert, hbe, Ne.symm hbe] using h.bucketed b
  · by_cases hn : n = e.node
    · subst hn
      simp [Cache.insert, h.cachedPages]
    · simp [Cache.insert, h.cachedPages, hn, Ne.symm hn]
  · have hrest : c.use.countP (fun x => x.node = n ∧ update c.shared e false x) =
        c.use.countP fun x => x.node = n ∧ c.shared x :=
      countP_congr fun x hx => by simp [hne x hx]
    show _ = (e :: c.use).countP fun x => x.node = n ∧ update c.shared e false x
    rw [countP_cons, hrest]
    simpa [Cache.insert] using h.sharedCached n

/-- A walk takes entries out that it picks, and leaves the others. -/
theorem Ok.sweep (h : c.Ok) (pick : (UInt64 → ℕ) → ℕ → Entry → Bool) :
    (c.sweep pick).1.Ok ∧ ((c.sweep pick).1.use ++ (c.sweep pick).2).Perm c.use ∧
      ∀ e ∈ (c.sweep pick).2, ∃ cached taken, pick cached taken e = true := by
  -- along the walk: the entries still ahead are in the list
  have hwalk : ∀ (l : List Entry) (r : Cache × List Entry), r.1.Ok → l.Nodup →
      (∀ x ∈ l, x ∈ r.1.use) → (∀ e ∈ r.2, ∃ cached taken, pick cached taken e = true) →
      let r' := l.foldl (fun r e => if pick r.1.cachedPages r.2.length e then
        (r.1.takeOut e, e :: r.2) else r) r
      r'.1.Ok ∧ (r'.1.use ++ r'.2).Perm (r.1.use ++ r.2) ∧
        ∀ e ∈ r'.2, ∃ cached taken, pick cached taken e = true := by
    intro l
    induction l with
    | nil => exact fun r hr _ _ hpick => ⟨hr, .refl _, hpick⟩
    | cons e l ih =>
      intro r hr hn hl hpick
      have he := hl e mem_cons_self
      rw [nodup_cons] at hn
      have hrest : ∀ x ∈ l, x ∈ r.1.use := fun x hx => hl x (mem_cons_of_mem _ hx)
      rw [foldl_cons]
      split_ifs with hp
      · have hahead : ∀ x ∈ l, x ∈ (r.1.takeOut e).use := fun x hx =>
          (mem_erase_of_ne (ne_of_mem_of_not_mem hx hn.1)).2 (hrest x hx)
        obtain ⟨hok, hperm, hall⟩ := ih (r.1.takeOut e, e :: r.2) (hr.takeOut he) hn.2 hahead
          (forall_mem_cons.2 ⟨⟨_, _, hp⟩, hpick⟩)
        refine ⟨hok, hperm.trans ?_, hall⟩
        exact perm_middle.trans ((perm_cons_erase he).symm.append_right _)
      · exact ih r hr hn.2 hrest hpick
  have := hwalk c.use.reverse (c, []) h (nodup_reverse.2 h.nodup)
    (fun x hx => mem_reverse.1 hx) (by simp)
  rwa [append_nil] at this

theorem Ok.cached_sweep (h : c.Ok) (pick : (UInt64 → ℕ) → ℕ → Entry → Bool) :
    (c.sweep pick).1.cached + ((c.sweep pick).2.map Entry.frame : List ℕ) = c.cached := by
  rw [cached, Multiset.coe_add, ← map_append]
  exact Multiset.coe_eq_coe.2 ((h.sweep pick).2.1.map Entry.frame)

theorem mem_of_mem_batch {node cursor stop : UInt64} (he : e ∈ c.batch node cursor stop) :
    e ∈ c.use := by
  refine List.foldlRecOn (motive := fun b => ∀ x ∈ b, x ∈ c.use) _ _ (by simp)
    (fun b hb x hx y hy => ?_) e he
  split_ifs at hy
  · rcases (mem_orderedInsert _).1 (mem_of_mem_take hy) with rfl | h0
    · exact mem_reverse.1 hx
    · exact hb y h0
  · exact hb y hy

end Cache

/-! ### The tasks -/

/-- What `get` is asked for; `shared` is 0 for a private mapping, 1 or 2 for a shared one. -/
structure Request where
  node : UInt64
  index : UInt64
  shared : ℕ
  attempt : ℕ

def Request.entry (r : Request) (frame : ℕ) : Entry := ⟨r.node, r.index, frame⟩

inductive Pc
  | idle
  /-- `get`, at the start of an attempt -/
  | look (r : Request)
  /-- `get` is to allocate a frame, the second time if `last` -/
  | alloc (r : Request) (generation : UInt32) (last : Bool)
  /-- `get` has read the page, and has memory for an entry or not -/
  | put (r : Request) (generation : UInt32) (frame : ℕ) (entry : Bool)
  | ret (frame : ℕ)
  | sweep (w : Sweep)
  | pick (node cursor stop : UInt64)
  | check (node stop : UInt64) (batch : List Entry)
  | giveUp (frame : ℕ) (next : Pc)
  /-- `pmm_unref_frame` of each, in `free_taken` and at the end of a batch -/
  | unref (todo : List ℕ) (next : Pc)

def Pc.holds : Pc → Multiset ℕ
  | .put _ _ f _ | .ret f => {f}
  | .check _ _ batch => batch.map Entry.frame
  | .giveUp f next => {f} + next.holds
  | .unref todo next => todo + next.holds
  | _ => 0

/-- The frame is one that the task allocated, and no one else has. -/
def Pc.Whole (f : ℕ) : Pc → Prop
  | .put _ _ g _ => g = f
  | .giveUp g next => g = f ∨ next.Whole f
  | .unref _ next => next.Whole f
  | _ => False

inductive Call
  | get (node index : UInt64) (shared : ℕ)
  | sweep (w : Sweep)
  | writeback (node first stop : UInt64)

def Call.pc : Call → Pc
  | .get node index shared => .look ⟨node, index, shared, 0⟩
  | .sweep w => .sweep w
  | .writeback node first stop => .pick node first stop

/-- The calls that change a file raise its `cache_generation`. -/
def Call.raise (generation : UInt64 → UInt32) : Call → UInt64 → UInt32
  | .sweep (.fileWritten node) | .sweep (.fileTruncated node _) | .sweep (.dropFile node) =>
    update generation node (generation node + 1)
  | _ => generation

/-- `limit` is `capacity()`. -/
structure State (n : ℕ) where
  limit : ℕ
  cache : Cache
  frames : Frames
  generation : UInt64 → UInt32
  callers : Multiset ℕ
  pc : Fin n → Pc

inductive Event (n : ℕ)
  | call (t : Fin n) (c : Call)
  /-- a task goes on, with what the environment answers -/
  | go (t : Fin n) (found : Option ℕ) (entry : Bool) (written : Entry → Bool)
  /-- a caller gives a reference back -/
  | release (frame : ℕ)

variable {n : ℕ}

namespace State

def init (limit : ℕ) : State n where
  limit
  cache := ⟨fun _ => [], [], fun _ => false, fun _ => false, 0, fun _ => 0, fun _ => 0⟩
  frames := ⟨fun _ => false, fun _ => 0⟩
  generation _ := 0
  callers := 0
  pc _ := .idle

variable (s : State n)

def goto (t : Fin n) (pc : Pc) : State n := { s with pc := update s.pc t pc }

/-- Entries are taken out under the lock, and then freed. -/
def take (t : Fin n) (w : Sweep) (next : List Entry → Pc) : State n :=
  let r := s.cache.sweep (s.cache.picks s.frames w)
  { s with cache := r.1 }.goto t (.unref (r.2.map Entry.frame) (next r.2))

def go (t : Fin n) (found : Option ℕ) (entry : Bool) (written : Entry → Bool) : State n :=
  match s.pc t with
  | .idle => s
  | .look r =>
    if r.node = 0 ∨ 8 ≤ r.attempt then s.goto t .idle
    else match s.cache.findLocked (r.node, r.index) with
      | some e =>
        { s with
          cache := (s.cache.mapped e r.shared).markUsed e
          frames := s.frames.pmmRefFrame e.frame }.goto t (.ret e.frame)
      | none => s.goto t (.alloc r (s.generation r.node) false)
  | .alloc r generation last =>
    match found.filter fun f => f ≠ 0 ∧ !s.frames.used f with
    | some f =>
      { s with frames := s.frames.pmmAllocFrame f }.goto t (.put r generation f entry)
    | none =>
      if last then s.goto t .idle
      else s.take t (.reclaim 1) fun taken => if taken = [] then .idle else .alloc r generation true
  | .put r generation f entry =>
    match s.cache.findLocked (r.node, r.index) with
    | some e =>
      { s with
        cache := s.cache.mapped e r.shared
        frames := s.frames.pmmRefFrame e.frame }.goto t (.giveUp f (.ret e.frame))
    | none =>
      if entry && s.generation r.node == generation then
        let e := r.entry f
        let s := { s with
          cache := (s.cache.insert e).mapped e r.shared
          frames := s.frames.pmmRefFrame f }.goto t (.ret f)
        s.take t (.reclaim (s.cache.entryCount - s.limit)) fun _ => .ret f
      else if r.shared = 0 then s.goto t (.ret f)
      else s.goto t (.giveUp f (if entry then .look { r with attempt := r.attempt + 1 } else .idle))
  | .ret f => { s with callers := {f} + s.callers }.goto t .idle
  | .sweep w => s.take t w fun _ => .idle
  | .pick node cursor stop =>
    let batch := s.cache.batch node cursor stop
    { s with frames := (batch.map Entry.frame).foldl Frames.pmmRefFrame s.frames }.goto t
      (if batch = [] then .idle else .check node stop batch)
  | .check node stop batch =>
    { s with cache := s.cache.clean s.frames batch written }.goto t
      (.unref (batch.map Entry.frame) (.pick node (batch.getLast?.elim 0 Entry.index + 1) stop))
  | .giveUp f next => { s with frames := s.frames.pmmFreeFrame f }.goto t next
  | .unref [] next => s.goto t next
  | .unref (f :: todo) next =>
    { s with frames := s.frames.pmmUnrefFrame f }.goto t (.unref todo next)

def step : Event n → State n
  | .call t c =>
    match s.pc t with
    | .idle => { s with generation := c.raise s.generation }.goto t c.pc
    | _ => s
  | .go t found entry written => s.go t found entry written
  | .release f =>
    if f ∈ s.callers then
      { s with callers := s.callers.erase f, frames := s.frames.pmmUnrefFrame f }
    else s

/-! ### What is to hold -/

/-- One for each entry of the cache, those of the tasks, and those that callers have. -/
def owners : Multiset ℕ := s.cache.cached + ∑ t, (s.pc t).holds + s.callers

/-- The cache is well formed, and each frame's count is that of the references to it. -/
def Sound : Prop := s.cache.Ok ∧ s.frames.Counts s.owners

def Evicts : Event n → Prop
  | .go t _ _ _ => match s.pc t with
    | .alloc .. | .put .. | .sweep (.reclaim _) => True
    | _ => False
  | _ => False

/-- What is reclaimed or evicted is clean, and only the cache has it. -/
def TakesUnmapped (ev : Event n) : Prop :=
  s.Evicts ev → ∀ e ∈ s.cache.use, e ∉ (s.step ev).cache.use →
    s.cache.dirty e = false ∧ s.owners.count e.frame = 1

end State

/-! ### The invariant -/

structure State.Inv (s : State n) : Prop where
  sound : s.Sound
  whole : ∀ t f, (s.pc t).Whole f → s.frames.extra f = 0

theorem Pc.Whole.mem {f : ℕ} : ∀ {pc : Pc}, pc.Whole f → f ∈ pc.holds
  | .put .., h => Multiset.mem_singleton.2 h.symm
  | .giveUp .., h => Multiset.mem_add.2 (h.imp (fun h0 => Multiset.mem_singleton.2 h0.symm) mem)
  | .unref .., h => Multiset.mem_add.2 (.inr (mem h))

namespace State

variable {s : State n} {t : Fin n}

/-- A task goes on, with this cache, these counts and these references of callers. -/
abbrev next (s : State n) (t : Fin n) (pc : Pc) (c : Cache) (F : Frames) (m : Multiset ℕ) : State n :=
  { s with cache := c, frames := F, callers := m }.goto t pc

theorem owners_split (s : State n) (t : Fin n) :
    ∃ R, s.owners = s.cache.cached + (s.pc t).holds + s.callers + R ∧
      (∀ c F m pc, (s.next t pc c F m).owners = c.cached + pc.holds + m + R) ∧
      ∀ t' ≠ t, (s.pc t').holds ≤ R := by
  have hsplit (c : Cache) (m : Multiset ℕ) (pc : Pc) :
      c.cached + ∑ t', (update s.pc t pc t').holds + m =
        c.cached + pc.holds + m + ∑ t' ∈ Finset.univ.erase t, (s.pc t').holds := by
    have hrest : ∑ t' ∈ Finset.univ.erase t, (update s.pc t pc t').holds =
        ∑ t' ∈ Finset.univ.erase t, (s.pc t').holds :=
      Finset.sum_congr rfl fun t' ht' => by rw [update_of_ne (Finset.ne_of_mem_erase ht')]
    rw [← Finset.add_sum_erase _ _ (Finset.mem_univ t), hrest, update_self]
    abel
  refine ⟨_, ?_, fun c _ m pc => hsplit c m pc, fun t' ht' => ?_⟩
  · rw [← hsplit, update_eq_self, owners]
  · exact Finset.single_le_sum (f := fun t' => (s.pc t').holds) (fun _ _ => Multiset.zero_le _)
      (Finset.mem_erase.2 ⟨ht', Finset.mem_univ t'⟩)

theorem take_owners (hok : s.cache.Ok) {w : Sweep} {next : List Entry → Pc}
    (hholds : ∀ taken, (next taken).holds = (s.pc t).holds) :
    (s.take t w next).owners = s.owners := by
  obtain ⟨R, hs, hR, -⟩ := s.owners_split t
  rw [take, hR, hs, Pc.holds, hholds, ← add_assoc, hok.cached_sweep]

namespace Inv

variable {c : Cache} {m : Multiset ℕ} {pc : Pc}

/-- A frame that is a task's alone is not cached, and no other task has it. -/
theorem apart (h : s.Inv) {f : ℕ} (hf : (s.pc t).Whole f) :
    f ∉ s.cache.cached ∧ ∀ t' ≠ t, f ∉ (s.pc t').holds := by
  obtain ⟨R, hR, -, hle⟩ := s.owners_split t
  have hpos := Multiset.count_pos.2 hf.mem
  have hone := h.sound.2.used (f := f) (by simp [hR, hf.mem])
  rw [hR, h.whole t f hf] at hone
  simp only [Multiset.count_add] at hone
  refine ⟨fun hc => ?_, fun t' ht' ht => ?_⟩
  · have := Multiset.count_pos.2 hc
    omega
  · have := Multiset.count_pos.2 (Multiset.mem_of_le (hle t' ht') ht)
    omega

theorem next (h : s.Inv) {F : Frames} (hc : c.Ok)
    (hF : ∀ R, (s.next t pc c F m).owners = c.cached + pc.holds + m + R →
      s.frames.Counts (s.cache.cached + (s.pc t).holds + s.callers + R) →
      F.Counts (c.cached + pc.holds + m + R))
    (hextra : ∀ f ∉ s.cache.cached + (s.pc t).holds, s.frames.extra f = 0 → F.extra f = 0)
    (hwhole : ∀ f, pc.Whole f → F.extra f = 0) : (s.next t pc c F m).Inv := by
  obtain ⟨R, hs, hR, -⟩ := s.owners_split t
  refine ⟨⟨hc, ?_⟩, fun t' f hf => ?_⟩
  · rw [hR]
    exact hF R (hR ..) (hs ▸ h.sound.2)
  · change (update s.pc t pc t').Whole f at hf
    rw [update_apply] at hf
    split_ifs at hf with ht
    · exact hwhole f hf
    · have hap := h.apart hf
      refine hextra f (fun h0 => ?_) (h.whole t' f hf)
      exact (Multiset.mem_add.1 h0).elim hap.1 (hap.2 t (Ne.symm ht))

theorem move (h : s.Inv) (hc : c.Ok)
    (hM : c.cached + pc.holds + m = s.cache.cached + (s.pc t).holds + s.callers)
    (hwhole : ∀ f, pc.Whole f → (s.pc t).Whole f) : (s.next t pc c s.frames m).Inv :=
  h.next hc (fun _ _ h0 => hM ▸ h0) (fun _ _ h0 => h0) fun f hf => h.whole t f (hwhole f hf)

theorem refs (h : s.Inv) {l : List ℕ} (hc : c.Ok)
    (hl : ∀ f ∈ l, f ∈ s.cache.cached + (s.pc t).holds)
    (hM : c.cached + pc.holds = l + (s.cache.cached + (s.pc t).holds))
    (hwhole : ∀ f, pc.Whole f → (s.pc t).Whole f ∧ f ∉ l)
    (hlt : ∀ f, (s.next t pc c (l.foldl Frames.pmmRefFrame s.frames) s.callers).owners.count f ≤
      65536) : (s.next t pc c (l.foldl Frames.pmmRefFrame s.frames) s.callers).Inv := by
  refine h.next hc (fun R hR h0 => ?_) (fun f hf h0 => ?_) fun f hf => ?_
  · rw [hR] at hlt
    rw [hM, add_assoc, add_assoc, ← add_assoc _ s.callers] at hlt ⊢
    refine h0.refs (fun f hf => ?_) hlt
    exact Multiset.mem_add.2 (.inl (Multiset.mem_add.2 (.inl (hl f hf))))
  · rw [Frames.extra_refs fun h1 => hf (hl f h1), h0]
  · rw [Frames.extra_refs (hwhole f hf).2, h.whole t f (hwhole f hf).1]

/-- The page is found: its frame gets a reference for the caller. -/
theorem hit (h : s.Inv) {e : Entry} (he : e ∈ s.cache.use) (hc : c.Ok)
    (hcached : c.cached = s.cache.cached) (hholds : pc.holds = {e.frame} + (s.pc t).holds)
    (hwhole : ∀ f, pc.Whole f → (s.pc t).Whole f)
    (hlt : ∀ f, (s.next t pc c (s.frames.pmmRefFrame e.frame) s.callers).owners.count f ≤ 65536) :
    (s.next t pc c (s.frames.pmmRefFrame e.frame) s.callers).Inv := by
  refine h.refs (l := [e.frame]) hc (fun f hf => ?_) ?_ (fun f hf => ⟨hwhole f hf, fun h0 => ?_⟩) hlt
  · rw [mem_singleton.1 hf]
    exact Multiset.mem_add.2 (.inl (Cache.mem_cached he))
  · rw [hcached, hholds, Multiset.coe_singleton, add_left_comm]
  · rw [mem_singleton.1 h0] at hf
    exact (h.apart (hwhole _ hf)).1 (Cache.mem_cached he)

/-- Entries are taken out: the cache's references to their frames are the task's. -/
theorem take (h : s.Inv) {w : Sweep} {next : List Entry → Pc}
    (hholds : ∀ taken, (next taken).holds = (s.pc t).holds)
    (hwhole : ∀ taken f, (next taken).Whole f → (s.pc t).Whole f) : (s.take t w next).Inv := by
  refine h.move (h.sound.1.sweep _).1 ?_ fun f hf => hwhole _ f hf
  rw [Pc.holds, hholds, ← add_assoc, h.sound.1.cached_sweep]

section

variable {r : Request} {generation : UInt32} {f : ℕ} {found : Option ℕ} {entry memory : Bool}
  {written : Entry → Bool}

theorem inserted (h : s.Inv) (hpc : s.pc t = .put r generation f memory)
    (hf : s.cache.findLocked (r.node, r.index) = none) : f ∉ s.cache.cached ∧
      r.entry f ∉ s.cache.use ∧ ((s.cache.insert (r.entry f)).mapped (r.entry f) r.shared).Ok := by
  have hnew := h.sound.1.notMem_of_findLocked hf
  have hap := (h.apart (t := t) (f := f) (by rw [hpc]; exact rfl)).1
  exact ⟨hap, fun h0 => hnew (mem_map_of_mem h0),
    (h.sound.1.insert (e := r.entry f) hnew hap).mapped mem_cons_self r.shared⟩

theorem look (h : s.Inv) (hpc : s.pc t = .look r)
    (hlt : ∀ f, (s.go t found entry written).owners.count f ≤ 65536) :
    (s.go t found entry written).Inv := by
  simp only [State.go, hpc] at hlt ⊢
  split_ifs at hlt ⊢
  · exact h.move h.sound.1 (by rw [hpc]; rfl) fun _ h0 => h0.elim
  cases hf : s.cache.findLocked (r.node, r.index) with
  | none => exact h.move h.sound.1 (by rw [hpc]; rfl) fun _ h0 => h0.elim
  | some e =>
    simp only [hf] at hlt ⊢
    have he := h.sound.1.mem_of_findLocked hf
    have hmem : e ∈ (s.cache.mapped e r.shared).use := by rwa [Cache.mapped_use]
    refine h.hit he ((h.sound.1.mapped he _).markUsed hmem) ?_ ?_ (fun _ h0 => h0.elim) hlt
    · rw [Cache.cached_markUsed hmem, Cache.cached_mapped]
    · rw [hpc]
      rfl

theorem alloc (h : s.Inv) {last : Bool} (hpc : s.pc t = .alloc r generation last) :
    (s.go t found entry written).Inv := by
  simp only [State.go, hpc]
  cases hf : found.filter fun f => f ≠ 0 ∧ !s.frames.used f with
  | some f =>
    have hused : s.frames.used f = false := by
      simp_all
    refine h.next h.sound.1 (fun R _ h0 => ?_) (fun _ _ h0 => h0) fun g hg => ?_
    · convert h0.alloc hused using 1
      simp only [hpc, Pc.holds]
      abel
    · obtain rfl : f = g := hg
      exact (h.sound.2 f).elim (fun h0 => nomatch hused.symm.trans h0.1) fun h0 => h0.2.2
  | none =>
    split_ifs
    · exact h.move h.sound.1 (by rw [hpc]; rfl) fun _ h0 => h0.elim
    · refine h.take (fun taken => ?_) fun taken f hf => ?_
      · rw [hpc]
        split_ifs <;> rfl
      · split_ifs at hf <;> exact hf.elim

theorem put (h : s.Inv) (hpc : s.pc t = .put r generation f memory)
    (hlt : ∀ f, (s.go t found entry written).owners.count f ≤ 65536) :
    (s.go t found entry written).Inv := by
  simp only [State.go, hpc] at hlt ⊢
  have hw : (s.pc t).Whole f := by
    rw [hpc]
    exact rfl
  cases hf : s.cache.findLocked (r.node, r.index) with
  | some e =>
    simp only [hf] at hlt ⊢
    have he := h.sound.1.mem_of_findLocked hf
    refine h.hit he (h.sound.1.mapped he _) (Cache.cached_mapped ..) ?_ (fun g hg => ?_) hlt
    · rw [hpc]
      exact add_comm ({f} : Multiset ℕ) _
    · obtain rfl : f = g := hg.resolve_right id
      exact hw
  | none =>
    simp only [hf] at hlt ⊢
    split_ifs at hlt ⊢
    · -- the task's reference is the cache's from now on, and the new one is the caller's
      have hok := (h.inserted hpc hf).2.2
      have hret := congrArg Pc.holds (update_self t (Pc.ret f) s.pc).symm
      rw [take_owners hok fun _ => hret] at hlt
      refine Inv.take ?_ (fun _ => hret) fun _ _ h0 => h0.elim
      refine h.refs (l := [f]) hok (fun g hg => ?_) ?_ (fun _ h0 => h0.elim) hlt
      · rw [mem_singleton.1 hg]
        exact Multiset.mem_add.2 (.inr hw.mem)
      · rw [Cache.cached_mapped, hpc]
        rfl
    · exact h.move h.sound.1 (by simp only [hpc, Pc.holds]) fun _ h0 => h0.elim
    all_goals
      refine h.move h.sound.1 (by simp only [hpc, Pc.holds, add_zero]) fun _ h0 => ?_
      rw [hpc]
      exact h0.resolve_right id

theorem pick (h : s.Inv) {node cursor stop : UInt64} (hpc : s.pc t = .pick node cursor stop)
    (hlt : ∀ f, (s.go t found entry written).owners.count f ≤ 65536) :
    (s.go t found entry written).Inv := by
  simp only [State.go, hpc] at hlt ⊢
  refine h.refs h.sound.1 (fun f hf => ?_) ?_ (fun f hf => ?_) hlt
  · obtain ⟨e, he, rfl⟩ := mem_map.1 hf
    exact Multiset.mem_add.2 (.inl (Cache.mem_cached (Cache.mem_of_mem_batch he)))
  · rw [hpc]
    split_ifs with hb
    · simp [hb, Pc.holds]
    · simp only [Pc.holds, add_zero]
      exact add_comm _ _
  · split_ifs at hf <;> exact hf.elim

theorem giveUp (h : s.Inv) {next : Pc} (hpc : s.pc t = .giveUp f next) :
    (s.go t found entry written).Inv := by
  simp only [State.go, hpc]
  have hw : ∀ g, next.Whole g ∨ g = f → s.frames.extra g = 0 := fun g hg =>
    h.whole t g (by rw [hpc]; exact hg.symm.imp_left Eq.symm)
  refine h.next h.sound.1 (fun R _ h0 => ?_) (fun _ _ h0 => h0) fun g hg => hw g (.inl hg)
  refine Frames.Counts.free ?_ (hw f (.inr rfl))
  rw [hpc, Pc.holds] at h0
  convert h0 using 1
  abel

theorem unref (h : s.Inv) {todo : List ℕ} {next : Pc} (hpc : s.pc t = .unref todo next) :
    (s.go t found entry written).Inv := by
  cases todo with
  | nil =>
    simp only [State.go, hpc]
    exact h.move h.sound.1 (by rw [hpc]; simp [Pc.holds]) fun _ h0 => by rwa [hpc]
  | cons f todo =>
    simp only [State.go, hpc]
    refine h.next h.sound.1 (fun R _ h0 => ?_) (fun g _ h0 => Frames.extra_unref g h0) fun g hg => ?_
    · refine Frames.Counts.unref ?_
      rw [hpc, Pc.holds, ← Multiset.cons_coe, ← Multiset.singleton_add] at h0
      convert h0 using 1
      rw [Pc.holds]
      abel
    · exact Frames.extra_unref g (h.whole t g (by rw [hpc]; exact hg))

theorem go (h : s.Inv) (hlt : ∀ f, (s.go t found entry written).owners.count f ≤ 65536) :
    (s.go t found entry written).Inv := by
  cases hpc : s.pc t with
  | idle => simpa only [State.go, hpc] using h
  | look => exact h.look hpc hlt
  | alloc => exact h.alloc hpc
  | put => exact h.put hpc hlt
  | ret f =>
    simp only [State.go, hpc]
    refine h.move h.sound.1 ?_ fun _ h0 => h0.elim
    simp only [hpc, Pc.holds, add_zero, add_assoc]
  | sweep w =>
    simp only [State.go, hpc]
    exact h.take (fun _ => by rw [hpc]; rfl) fun _ _ hf => hf.elim
  | pick => exact h.pick hpc hlt
  | check node stop batch =>
    simp only [State.go, hpc]
    obtain ⟨h1, h2, h3, h4, h5, h6⟩ := h.sound.1
    refine h.move ⟨h1, h2, h3, h4, h5, h6⟩ ?_ fun _ h0 => h0.elim
    simp only [hpc, Pc.holds, add_zero]
    rfl
  | giveUp => exact h.giveUp hpc
  | unref => exact h.unref hpc

end

/-- The invariant is kept while no frame has more references than its count can say. -/
theorem step (h : s.Inv) {ev : Event n} (hlt : ∀ f, (s.step ev).owners.count f ≤ 65536) :
    (s.step ev).Inv := by
  cases ev with
  | call t c =>
    simp only [State.step]
    split
    · next hpc =>
      have hraised : State.Inv { s with generation := c.raise s.generation } := ⟨h.sound, h.whole⟩
      refine hraised.move h.sound.1 ?_ fun f hf => ?_
      · rw [hpc]
        cases c <;> rfl
      · cases c <;> exact hf.elim
    · exact h
  | go => exact h.go hlt
  | release f =>
    simp only [State.step]
    split_ifs with hf
    · refine ⟨⟨h.sound.1, ?_⟩, fun t g hg => Frames.extra_unref g (h.whole t g hg)⟩
      refine Frames.Counts.unref ?_
      convert h.sound.2 using 1
      have hsplit : {f} + s.callers.erase f = s.callers := by
        rw [Multiset.singleton_add, Multiset.cons_erase hf]
      exact (add_left_comm ({f} : Multiset ℕ) _ _).trans (congrArg (_ + ·) hsplit)
    · exact h

theorem reclaimed (h : s.cache.Ok) {want : ℕ} {next : List Entry → Pc} {e : Entry}
    (he : e ∈ s.cache.use) (hgone : e ∉ (s.take t (.reclaim want) next).cache.use) :
    s.cache.dirty e = false ∧ s.frames.extra e.frame = 0 := by
  obtain ⟨-, hperm, hpick⟩ := h.sweep (s.cache.picks s.frames (.reclaim want))
  have htaken := (mem_append.1 (hperm.mem_iff.2 he)).resolve_left hgone
  obtain ⟨_, taken, h0⟩ := hpick e htaken
  simp only [Cache.picks, Frames.pmmGetFrameRef, Bool.and_eq_true, Bool.not_eq_true',
    beq_iff_eq] at h0
  exact ⟨h0.2, by omega⟩

theorem takesUnmapped (h : s.Inv) (ev : Event n) : s.TakesUnmapped ev := by
  intro hev e he hgone
  suffices hfree : s.cache.dirty e = false ∧ s.frames.extra e.frame = 0 by
    refine ⟨hfree.1, ?_⟩
    rw [h.sound.2.used, hfree.2]
    simp [owners, Cache.mem_cached he]
  cases ev with
  | call | release => exact hev.elim
  | go t found entry written =>
    simp only [Evicts] at hev
    simp only [State.step, State.go] at hgone
    split at hev
    · next hpc =>
      simp only [hpc] at hgone
      split at hgone
      · exact absurd he hgone
      · split_ifs at hgone
        · exact absurd he hgone
        · exact reclaimed h.sound.1 he hgone
    · next r generation f entry hpc =>
      simp only [hpc] at hgone
      split at hgone
      · exact absurd (by rwa [← Cache.mapped_use] at he) hgone
      · next hf =>
        split_ifs at hgone
        · obtain ⟨hfree, hnew, hok⟩ := h.inserted hpc hf
          have hne : e ≠ r.entry f := ne_of_mem_of_not_mem he hnew
          have hfe : e.frame ≠ f := ne_of_mem_of_not_mem (Cache.mem_cached he) hfree
          have hmem : e ∈ ((s.cache.insert (r.entry f)).mapped (r.entry f) r.shared).use := by
            rw [Cache.mapped_use]
            exact mem_cons_of_mem _ he
          obtain ⟨h1, h2⟩ := reclaimed hok hmem hgone
          exact ⟨(update_of_ne hne _ _).symm.trans ((Cache.mapped_dirty _ _ hne).symm.trans
            h1), (update_of_ne hfe _ _).symm.trans h2⟩
        · exact absurd he hgone
        · exact absurd he hgone
        · exact absurd he hgone
    · next hpc =>
      simp only [hpc] at hgone
      exact reclaimed h.sound.1 he hgone
    · exact hev.elim

end Inv

theorem Inv.init (limit : ℕ) : (State.init limit : State n).Inv where
  sound := by
    refine ⟨⟨nodup_nil, fun _ => .refl _, rfl, fun _ => rfl, fun _ => rfl, nodup_nil⟩,
      fun f => .inr ⟨rfl, ?_, rfl⟩⟩
    simp [State.init, owners, Cache.cached, Pc.holds]
  whole _ _ h := h.elim

end State

/-! ### Every run -/

def onePage : Entry := ⟨0x1000, 0, 7⟩

def firstGet : List (Event 1) :=
  [.call 0 (.get 0x1000 0 0), .go 0 none false default, .go 0 (some 7) true default,
    .go 0 none false default, .go 0 none false default, .go 0 none false default]

def nextGet : List (Event 1) :=
  [.call 0 (.get 0x1000 0 0), .go 0 none false default, .go 0 none false default]

/-- The page has been returned `k` times. -/
structure Returned (k : ℕ) (s : State 1) : Prop where
  cache : s.cache = (run State.step (State.init 1) firstGet).cache
  extra : s.frames.extra 7 = k % 65536
  callers : s.callers.count 7 = k
  idle : s.pc 0 = .idle

theorem Returned.next {k : ℕ} {s : State 1} (h : Returned k s) :
    Returned (k + 1) (run State.step s nextGet) := by
  obtain ⟨hcache, hextra, hcallers, hidle⟩ := h
  have hfind : s.cache.findLocked (0x1000, 0) = some onePage := by
    rw [hcache]
    decide +kernel
  have huse : s.cache.use = [onePage] := by
    rw [hcache]
    decide +kernel
  have hused : (s.cache.mapped onePage 0).markUsed onePage = s.cache := by
    rw [Cache.mapped, if_pos rfl, Cache.markUsed, huse, erase_cons_head, ← huse]
  have hrun : run State.step s nextGet = { s with
      frames := s.frames.pmmRefFrame 7
      callers := 7 ::ₘ s.callers
      pc := update s.pc 0 .idle } := by
    simp [nextGet, State.step, State.go, State.goto, hidle, hfind, hused, Call.pc, Call.raise]
    simp [onePage]
  rw [hrun]
  refine ⟨hcache, ?_, ?_, update_self (0 : Fin 1) _ s.pc⟩
  · simp [Frames.pmmRefFrame, hextra]
  · rw [Multiset.count_cons_self, hcallers]

theorem Returned.often {k : ℕ} {s : State 1} (h : Returned k s) (m : ℕ) :
    Returned (k + m) (run State.step s (List.replicate m nextGet).flatten) := by
  induction m generalizing k s with
  | zero => exact h
  | succ m ih =>
    rw [replicate_succ, Nat.add_comm m, ← Nat.add_assoc]
    exact ih h.next

theorem Returned.not_takesUnmapped {s : State 1} (h : Returned 65536 s) :
    ¬ (s.step (.call 0 (.sweep (.reclaim 1)))).TakesUnmapped (.go 0 none false default) := by
  obtain ⟨hcache, hextra, hcallers, hidle⟩ := h
  have huse : s.cache.use = [onePage] := by
    rw [hcache]
    decide +kernel
  have hdirty : s.cache.dirty onePage = false := by
    rw [hcache]
    decide +kernel
  have hpc : s.step (.call 0 (.sweep (.reclaim 1))) = s.goto 0 (.sweep (.reclaim 1)) := by
    simp [State.step, hidle, Call.pc, Call.raise]
  rw [hpc]
  intro h
  have hone := (h (by simp [State.Evicts, State.goto]) onePage (by simp [State.goto, huse]) ?_).2
  · have : 65536 ≤ (s.goto 0 (.sweep (.reclaim 1))).owners.count 7 := by
      rw [← hcallers]
      exact Multiset.count_le_of_le 7 (Multiset.le_add_left _ _)
    exact absurd (this.trans_eq hone) (by decide)
  · have hextra' : s.frames.extra onePage.frame = 0 := hextra
    simp [State.step, State.go, State.goto, State.take, Cache.sweep, huse, Cache.picks,
      Frames.pmmGetFrameRef, hextra', hdirty, Cache.takeOut]

theorem not_takesUnmapped_of_add {m : ℕ} (hm : 1 + m = 65536) :
    ¬ (run State.step (State.init 1) (firstGet ++ (List.replicate m nextGet).flatten ++
      [.call 0 (.sweep (.reclaim 1))])).TakesUnmapped (.go 0 none false default) := by
  have hfirst : Returned 1 (run State.step (State.init 1) firstGet) :=
    ⟨rfl, by decide +kernel, by decide +kernel, rfl⟩
  have hlast := hfirst.often m
  rw [hm] at hlast
  rw [run_append]
  exact hlast.not_takesUnmapped

end Bashket.PageCache
