import Bashket.Lib.Run
import Bashket.Mm.HeapCheck

/-!
# The heap and its callers

Callers allocate, free what they were given and write inside their payloads, in any order, and the
frame allocator may refuse pages at any call. They may also free a pointer a second time, as long as
nothing has been allocated since and its header is still mapped.
-/

namespace Bashket.Mm

open List
open Function (update update_idem update_of_ne update_self)

/-- The live pointers with the sizes asked for, the pointers freed since the last `kmalloc`, and
whether a call has not returned. -/
structure State where
  heap : Heap
  live : List (ℕ × ℕ)
  freed : List ℕ
  stuck : Bool

inductive Event
  | kmalloc (size frames : ℕ)
  | kfree (ptr : ℕ)
  | write (ptr off v : ℕ)

def Heap.payload (h : Heap) (ptr : ℕ) : ℕ := h.sizeOf (ptr - header) - header

/-- One call, or one word written by a caller.  What callers must not do does not happen. -/
def State.step (s : State) : Event → State
  | .kmalloc size frames =>
    match s.heap.kmalloc size frames with
    | none => { s with stuck := true }
    | some (h, ptr) =>
      { s with heap := h, live := if ptr = 0 then s.live else (ptr, size) :: s.live, freed := [] }
  | .kfree ptr =>
    if ptr ∈ s.live.map Prod.fst then
      { s with
        heap := s.heap.kfree ptr
        live := s.live.filter fun d => d.1 ≠ ptr
        freed := ptr :: s.freed }
    else if ptr = 0 ∨ ptr ∈ s.freed ∧ ptr - header < s.heap.heapEndVirt then
      { s with heap := s.heap.kfree ptr }
    else s
  | .write ptr off v =>
    if ptr ∈ s.live.map Prod.fst ∧ off < s.heap.payload ptr then
      { s with heap := s.heap.set (ptr + off) v }
    else s

def State.init (mem : ℕ → ℕ) (frames : ℕ) : State := ⟨kheapInit mem frames, [], [], false⟩

structure Sound (s : State) : Prop where
  returned : s.stuck = false
  blocks : ∃ bs, HeapOk s.heap bs
  check : s.heap.kheapCheck = true
  clean : s.heap.poisonDamage = 0
  aligned : ∀ d ∈ s.live, 16 ∣ d.1
  large : ∀ d ∈ s.live, d.2 ≤ s.heap.payload d.1
  apart : s.live.Pairwise fun d d' =>
    d.1 + s.heap.payload d.1 ≤ d'.1 ∨ d'.1 + s.heap.payload d'.1 ≤ d.1
  again : ∀ ptr ∈ s.freed, ptr - header < s.heap.heapEndVirt → s.heap.kfree ptr = s.heap

def Untouched (s : State) : Event → Prop
  | .write _ _ _ => True
  | e => ∀ d ∈ s.live, d ∈ (s.step e).live →
    (s.step e).heap.payload d.1 = s.heap.payload d.1 ∧
      ∀ y < s.heap.payload d.1, (s.step e).heap.mem (d.1 + y) = s.heap.mem (d.1 + y)

/-! ### Blocks in use -/

section

variable {h : Heap} {bs : List Blk} {b b' t t' : ℕ} {c c' : ℕ → ℕ}

theorem HeapOk.used_split (ho : HeapOk h bs) (hu : usedMap kheapStartVirt bs b = some (t, c)) :
    ∃ pre post, bs = pre ++ ⟨t, some c⟩ :: post ∧ b = kheapStartVirt + span pre := by
  obtain ⟨pre, ⟨s, _ | d⟩, post, rfl, hf, hb⟩ := lookup_split ho.tiled.layout.sizes hu
  · cases hf
  · cases hf
    exact ⟨pre, post, rfl, hb⟩

theorem HeapOk.used (ho : HeapOk h bs) (hu : usedMap kheapStartVirt bs b = some (t, c)) :
    16 ∣ b ∧ 32 ≤ t ∧ h.sizeOf b = t ∧ ∀ y, 16 ≤ y → y < t → h.mem (b + y) = c y := by
  obtain ⟨pre, post, rfl, rfl⟩ := ho.used_split hu
  obtain ⟨l₁, lb, -⟩ := ho.tiled.middle
  exact ⟨Nat.dvd_add start_dvd l₁.dvd_span, lb.min, lb.sizeOf_eq, lb.payload c rfl⟩

theorem HeapOk.used_payload (ho : HeapOk h bs) (hu : usedMap kheapStartVirt bs b = some (t, c)) :
    h.payload (b + header) = t - header := by
  rw [Heap.payload, Nat.add_sub_cancel, (ho.used hu).2.2.1]

theorem HeapOk.used_apart (ho : HeapOk h bs) (hu : usedMap kheapStartVirt bs b = some (t, c))
    (hu' : usedMap kheapStartVirt bs b' = some (t', c')) (hne : b ≠ b') :
    b + t ≤ b' ∨ b' + t' ≤ b := by
  obtain ⟨pre, post, rfl, hb⟩ := ho.used_split hu
  obtain ⟨l₁, lb, l₂⟩ := ho.tiled.middle
  rw [usedMap_used l₁ l₂ lb.min, update_of_ne (by omega), Option.or_eq_some_iff] at hu'
  have hsize (d : Blk) (hd : (d.content.map fun c => (d.size, c)) = some (t', c')) : d.size = t' := by
    obtain ⟨e, -, he⟩ := Option.map_eq_some_iff.1 hd
    exact congrArg Prod.fst he
  rcases hu' with hu' | ⟨-, hu'⟩
  · obtain ⟨d, -, hd, -, h2⟩ := lookup_range l₁.sizes hu'
    have := hsize d hd
    omega
  · obtain ⟨d, -, hd, h1, -⟩ := lookup_range l₂.sizes hu'
    omega

theorem HeapOk.write (ho : HeapOk h bs) (hu : usedMap kheapStartVirt bs b = some (t, c)) {y v : ℕ}
    (hy : 16 ≤ y) (hyt : y < t) :
    ∃ bs', HeapOk (h.set (b + y) v) bs' ∧ freeMap kheapStartVirt bs' = freeMap kheapStartVirt bs ∧
      usedMap kheapStartVirt bs' =
        update (usedMap kheapStartVirt bs) b (some (t, update c y v)) := by
  obtain ⟨pre, post, rfl, hb⟩ := ho.used_split hu
  have ht := ho.tiled
  obtain ⟨l₁, lb, l₂⟩ := ht.middle
  have hmin : 32 ≤ t := lb.min
  have hm (x : ℕ) (hx : x ≠ b + y) : (h.set (b + y) v).mem x = h.mem x := update_of_ne hx _ _
  obtain ⟨k₁, k₂⟩ := layouts_congr (m := (h.set (b + y) v).mem) l₁ l₂ (by omega)
    fun x hx _ => hm x (by omega)
  have hfree : freeMap kheapStartVirt (pre ++ ⟨t, some (update c y v)⟩ :: post) =
      freeMap kheapStartVirt (pre ++ ⟨t, some c⟩ :: post) := by rw [freeMap_used, freeMap_used]
  obtain ⟨a₁, a₂, -⟩ := ht.apart.middle
  refine ⟨pre ++ ⟨t, some (update c y v)⟩ :: post, ⟨?_, ho.pages, ?_, ho.damage⟩, hfree, ?_⟩
  · refine ⟨layout_append.2 ⟨k₁, ⟨?_, ?_, hmin, lb.aligned, fun h0 => (nomatch h0),
      fun d hd x h1 h2 => ?_⟩, k₂⟩, ?_, by simp, ?_, ht.first, ?_, ?_⟩
    · rw [hm _ (by omega)]
      exact lb.size
    · rw [hm _ (by omega)]
      exact lb.prevSize
    · cases hd
      by_cases hx : x = y
      · subst hx
        rw [← hb]
        show update h.mem (b + x) v (b + x) = update c x v x
        rw [update_self, update_self]
      · rw [hm _ (by omega), update_of_ne hx]
        exact lb.payload c rfl x h1 h2
    · exact apart_append a₁ (apart_cons a₂ (.inl rfl)) (.inr fun d hd => by cases hd; rfl)
    · have := ht.ends
      simp only [span_append, span_cons] at this ⊢
      exact this
    · have := ht.last
      rw [lastStart_append] at this ⊢
      refine this.trans ?_
      cases post <;> rfl
    · rw [hfree]
      refine ht.lists.congr fun x hx => hm x ?_
      rintro rfl
      rw [freeMap_used] at hx
      exact not_linkWord_around l₁ l₂ (by omega) (by omega) hx
  · have := ho.total
    simp only [inUse_append, inUse_cons] at this ⊢
    exact this
  · rw [usedMap_used l₁ l₂ hmin, usedMap_used l₁ l₂ hmin, hb, update_idem]

theorem HeapOk.isFree_of_inFree (ho : HeapOk h bs) {x : ℕ} (hx : InFree bs x) : h.isFree x = true := by
  obtain ⟨a, s, ha, hx⟩ := hx
  obtain ⟨pre, post, rfl, rfl, -⟩ := ho.tiled.free_split ha
  have lb := ho.tiled.middle.2.1
  rcases hx with rfl | ⟨h1, h2⟩
  · exact lb.isFree_eq
  · rw [Heap.isFree, lb.poisoned rfl x h1 h2]
    rfl

end

/-! ### Runs -/

structure Matches (s : State) (bs : List Blk) : Prop where
  heap : HeapOk s.heap bs
  returned : s.stuck = false
  live : ∀ d ∈ s.live, ∃ b t c, d.1 = b + header ∧ d.2 + header ≤ t ∧
    usedMap kheapStartVirt bs b = some (t, c)
  once : (s.live.map Prod.fst).Nodup
  freed : ∀ ptr ∈ s.freed, ∃ x, ptr = x + header ∧ (x < s.heap.heapEndVirt → InFree bs x)

theorem Matches.sound {s : State} {bs : List Blk} (hm : Matches s bs) : Sound s := by
  have ho := hm.heap
  refine ⟨hm.returned, ⟨bs, ho⟩, ho.kheapCheck, ho.damage, fun d hd => ?_, fun d hd => ?_, ?_,
    fun ptr hp hlt => ?_⟩
  · obtain ⟨b, t, c, hd1, -, hu⟩ := hm.live d hd
    rw [hd1]
    exact Nat.dvd_add (ho.used hu).1 (by decide)
  · obtain ⟨b, t, c, hd1, hd2, hu⟩ := hm.live d hd
    rw [hd1, ho.used_payload hu]
    omega
  · refine (pairwise_map.1 hm.once).imp_of_mem fun {d d'} hd hd' hne => ?_
    obtain ⟨b, t, c, hd1, -, hu⟩ := hm.live d hd
    obtain ⟨b', t', c', hd1', -, hu'⟩ := hm.live d' hd'
    have hmin := (ho.used hu).2.1
    have hmin' := (ho.used hu').2.1
    rw [hd1, hd1', ho.used_payload hu, ho.used_payload hu']
    have := ho.used_apart hu hu' fun h0 => hne (by rw [hd1, hd1', h0])
    simp only [header]
    omega
  · obtain ⟨x, rfl, hx⟩ := hm.freed ptr hp
    rw [Nat.add_sub_cancel] at hlt
    have hfree := ho.isFree_of_inFree (hx hlt)
    rw [Heap.kfree, if_neg (by rw [header]; omega)]
    simp only [Nat.add_sub_cancel, hfree, if_true]

section

variable {s : State} {bs bs' : List Blk}

theorem Matches.used_of_mem (hm : Matches s bs) {ptr : ℕ} (hp : ptr ∈ s.live.map Prod.fst) :
    ∃ b t c, ptr = b + header ∧ usedMap kheapStartVirt bs b = some (t, c) := by
  obtain ⟨d, hd, rfl⟩ := mem_map.1 hp
  obtain ⟨b, t, c, h1, -, h2⟩ := hm.live d hd
  exact ⟨b, t, c, h1, h2⟩

theorem payload_eq {h h' : Heap} {b t : ℕ} {c : ℕ → ℕ} (ho : HeapOk h bs) (ho' : HeapOk h' bs')
    (hu : usedMap kheapStartVirt bs b = some (t, c))
    (hu' : usedMap kheapStartVirt bs' b = some (t, c)) :
    h'.payload (b + header) = h.payload (b + header) ∧
      ∀ y < h.payload (b + header), h'.mem (b + header + y) = h.mem (b + header + y) := by
  have hmem := (ho.used hu).2.2.2
  have hmem' := (ho'.used hu').2.2.2
  rw [ho.used_payload hu, ho'.used_payload hu']
  refine ⟨rfl, fun y hy => ?_⟩
  simp only [header] at hy ⊢
  rw [Nat.add_assoc, hmem' (16 + y) (by omega) (by omega), hmem (16 + y) (by omega) (by omega)]

theorem Matches.kmalloc (hm : Matches s bs) (size frames : ℕ) :
    (∃ bs', Matches (s.step (.kmalloc size frames)) bs') ∧ Untouched s (.kmalloc size frames) := by
  obtain ⟨⟨h', ptr⟩, hr, ⟨bs', ho', hcase⟩, -⟩ := hm.heap.kmalloc size frames
  have hstep : s.step (.kmalloc size frames) = { s with
      heap := h', live := if ptr = 0 then s.live else (ptr, size) :: s.live, freed := [] } := by
    rw [State.step, hr]
  -- what was in use still is, unchanged
  have hkeep (b t : ℕ) (c : ℕ → ℕ) (hu : usedMap kheapStartVirt bs b = some (t, c)) :
      usedMap kheapStartVirt bs' b = some (t, c) := by
    rcases hcase with ⟨-, h0⟩ | ⟨b', t', c', -, -, h1, h0⟩
    · rw [h0, hu]
    · rw [h0, update_of_ne, hu]
      rintro rfl
      rw [h1] at hu
      cases hu
  constructor
  · rw [hstep]
    refine ⟨bs', ho', hm.returned, fun d hd => ?_, ?_, fun _ hp => (nomatch hp)⟩
    · have hold (hd : d ∈ s.live) : ∃ b t c, d.1 = b + header ∧ d.2 + header ≤ t ∧
          usedMap kheapStartVirt bs' b = some (t, c) := by
        obtain ⟨b, t, c, h1, h2, h3⟩ := hm.live d hd
        exact ⟨b, t, c, h1, h2, hkeep b t c h3⟩
      rcases hcase with ⟨hptr, -⟩ | ⟨b, t, c, hptr, hsize, -, hum⟩
      · simp only at hptr
        simp only [hptr, if_true] at hd
        exact hold hd
      · simp only at hptr
        rw [if_neg (by rw [hptr, header]; omega)] at hd
        rcases mem_cons.1 hd with rfl | hd
        · exact ⟨b, t, c, hptr, hsize, by rw [hum, update_self]⟩
        · exact hold hd
    · rcases hcase with ⟨hptr, -⟩ | ⟨b, t, c, hptr, -, hnone, -⟩
      · simp only at hptr
        simp only [hptr, if_true]
        exact hm.once
      · simp only at hptr
        simp only
        rw [if_neg (by rw [hptr, header]; omega), map_cons]
        refine nodup_cons.2 ⟨fun hp => ?_, hm.once⟩
        obtain ⟨b', t', c', h1, h2⟩ := hm.used_of_mem hp
        simp only at h1
        obtain rfl : b = b' := by omega
        rw [hnone] at h2
        cases h2
  · intro d hd _
    obtain ⟨b, t, c, h1, -, h3⟩ := hm.live d hd
    rw [hstep, h1]
    exact payload_eq hm.heap ho' h3 (hkeep b t c h3)

theorem Matches.kfree_live (hm : Matches s bs) {ptr : ℕ} (hp : ptr ∈ s.live.map Prod.fst) :
    (∃ bs', Matches (s.step (.kfree ptr)) bs') ∧ Untouched s (.kfree ptr) := by
  obtain ⟨b, t, c, rfl, hu⟩ := hm.used_of_mem hp
  obtain ⟨bs', ho', hend, hum, hfree⟩ := hm.heap.kfree hu
  have hstep : s.step (.kfree (b + header)) = { s with
      heap := s.heap.kfree (b + header)
      live := s.live.filter fun d => d.1 ≠ b + header
      freed := (b + header) :: s.freed } := by
    rw [State.step, if_pos hp]
  have hkeep (b' t' : ℕ) (c' : ℕ → ℕ) (hne : b' + header ≠ b + header)
      (hu : usedMap kheapStartVirt bs b' = some (t', c')) :
      usedMap kheapStartVirt bs' b' = some (t', c') := by
    rw [hum, update_of_ne (by omega), hu]
  constructor
  · rw [hstep]
    refine ⟨bs', ho', hm.returned, fun d hd => ?_, ?_, fun ptr hptr => ?_⟩
    · simp only [mem_filter, decide_eq_true_eq] at hd
      obtain ⟨b', t', c', h1, h2, h3⟩ := hm.live d hd.1
      exact ⟨b', t', c', h1, h2, hkeep b' t' c' (h1 ▸ hd.2) h3⟩
    · exact hm.once.sublist ((filter_sublist).map _)
    · rcases mem_cons.1 hptr with rfl | hptr
      · exact ⟨b, rfl, fun hlt => hfree b (.inl rfl) hlt⟩
      · obtain ⟨x, h1, h2⟩ := hm.freed ptr hptr
        exact ⟨x, h1, fun hlt => hfree x (.inr (h2 (lt_of_lt_of_le hlt hend))) hlt⟩
  · intro d hd hd'
    rw [hstep] at hd'
    simp only [mem_filter, decide_eq_true_eq] at hd'
    obtain ⟨b', t', c', h1, -, h3⟩ := hm.live d hd
    rw [hstep, h1]
    exact payload_eq hm.heap ho' h3 (hkeep b' t' c' (h1 ▸ hd'.2) h3)

theorem Matches.kfree_other (hm : Matches s bs) {ptr : ℕ} (hp : ptr ∉ s.live.map Prod.fst) :
    s.step (.kfree ptr) = s := by
  rw [State.step, if_neg hp]
  split_ifs with h0
  · have hsame : s.heap.kfree ptr = s.heap := by
      rcases h0 with rfl | ⟨h1, h2⟩
      · rw [Heap.kfree, if_pos rfl]
      · exact hm.sound.again ptr h1 h2
    rw [hsame]
  · rfl

theorem Matches.write (hm : Matches s bs) (ptr off v : ℕ) :
    ∃ bs', Matches (s.step (.write ptr off v)) bs' := by
  rw [State.step]
  split_ifs with h0
  · obtain ⟨hp, hoff⟩ := h0
    obtain ⟨b, t, c, rfl, hu⟩ := hm.used_of_mem hp
    rw [hm.heap.used_payload hu] at hoff
    simp only [header] at hoff
    obtain ⟨bs', ho', hfm, hum⟩ := hm.heap.write (v := v) (y := 16 + off) hu (by omega) (by omega)
    rw [header, Nat.add_assoc]
    refine ⟨bs', ho', hm.returned, fun d hd => ?_, hm.once, fun ptr hptr => ?_⟩
    · obtain ⟨b', t', c', h1, h2, h3⟩ := hm.live d hd
      by_cases hb : b' = b
      · subst hb
        rw [hu] at h3
        cases h3
        exact ⟨b', t, _, h1, h2, by rw [hum, update_self]⟩
      · exact ⟨b', t', c', h1, h2, by rw [hum, update_of_ne hb, h3]⟩
    · obtain ⟨x, h1, h2⟩ := hm.freed ptr hptr
      refine ⟨x, h1, fun hlt => ?_⟩
      rw [InFree, hfm]
      exact h2 hlt
  · exact ⟨bs, hm⟩

theorem Matches.step (hm : Matches s bs) (e : Event) :
    (∃ bs', Matches (s.step e) bs') ∧ Untouched s e := by
  cases e with
  | kmalloc size frames => exact hm.kmalloc size frames
  | kfree ptr =>
    by_cases hp : ptr ∈ s.live.map Prod.fst
    · exact hm.kfree_live hp
    · have hsame := hm.kfree_other hp
      refine ⟨⟨bs, by rw [hsame]; exact hm⟩, fun d _ _ => ?_⟩
      rw [hsame]
      exact ⟨rfl, fun y _ => rfl⟩
  | write ptr off v => exact ⟨hm.write ptr off v, trivial⟩

theorem matches_init (mem : ℕ → ℕ) {frames : ℕ} (hf : kheapInitialSize ≤ frames * pageSize) :
    Matches (State.init mem frames) [⟨kheapInitialSize, none⟩] :=
  ⟨kheapInit_ok mem hf, rfl, fun _ hd => (nomatch hd), nodup_nil, fun _ hp => (nomatch hp)⟩

theorem matches_step (s : State) (e : Event) (h : ∃ bs, Matches s bs) (_ : True) :
    ∃ bs, Matches (s.step e) bs := by
  obtain ⟨bs, hm⟩ := h
  exact (hm.step e).1

theorem matches_run (mem : ℕ → ℕ) {frames : ℕ} (hf : kheapInitialSize ≤ frames * pageSize)
    (es : List Event) : ∃ bs, Matches (Run.run State.step (State.init mem frames) es) bs :=
  Run.run_induction matches_step ⟨_, matches_init mem hf⟩ (Run.Along.of_forall fun _ _ => trivial)

end

/-- Once `kheap_init` has had its pages, the heap stays sound, and no call touches a payload that
stays live. -/
theorem heap_sound (mem : ℕ → ℕ) (frames : ℕ) (hf : kheapInitialSize ≤ frames * pageSize)
    (es : List Event) :
    Run.Always State.step Sound (State.init mem frames) es ∧
      Run.Along State.step Untouched (State.init mem frames) es := by
  have h0 : ∃ bs, Matches (State.init mem frames) bs := ⟨_, matches_init mem hf⟩
  constructor
  · refine (Run.always_of_induction matches_step h0 (Run.Along.of_forall fun _ _ => trivial)).mono ?_
    rintro s ⟨bs, hm⟩
    exact hm.sound
  · refine (Run.Along.with_invariant matches_step h0 (Run.Along.of_forall fun _ _ => trivial)).mono ?_
    rintro s e ⟨⟨bs, hm⟩, -⟩
    exact (hm.step e).2

/-- A run that allocates, writes, frees, frees again and allocates, on 256 pages. -/
theorem heap_sound_reuse :
    kheapInitialSize ≤ 256 * pageSize ∧
      Run.Always State.step Sound (State.init (fun _ => 0) 256)
        [.kmalloc 100 0, .write (kheapStartVirt + 16) 8 7, .kfree (kheapStartVirt + 16),
          .kfree (kheapStartVirt + 16), .kmalloc 2000000 0, .kmalloc 2000000 1000] :=
  ⟨by decide, (heap_sound (fun _ => 0) 256 (by decide) _).1⟩

end Bashket.Mm
