import Bashket.Mm.HeapLayout

/-!
# The heap between and inside its operations

Between calls the heap is tiled by its blocks (`Tiled`). Inside a call one block may be held: on no
list, its free bit of no meaning, and the block after it perhaps with a stale `prev_size` (`Held`).
Each part of `kmalloc` and `kfree` leads from one of these to another.
-/

namespace Bashket.Mm

open Links List
open Function (update update_of_ne update_self)

theorem start_dvd : 16 ∣ kheapStartVirt := by decide

theorem start_pos : 0 < kheapStartVirt := by decide

def Apart (bs : List Blk) : Prop := bs.IsChain fun x y => ¬(x.free = true ∧ y.free = true)

/-- The heap up to address `e` consists of the blocks. -/
structure Tiled (h : Heap) (e : ℕ) (bs : List Blk) : Prop where
  layout : Layout h.mem kheapStartVirt 0 bs
  apart : Apart bs
  ne : bs ≠ []
  ends : kheapStartVirt + span bs = e
  first : h.firstBlock = kheapStartVirt
  last : h.lastBlock = lastStart kheapStartVirt bs
  lists : Lists h.mem h.freeLists (freeMap kheapStartVirt bs)

/-- The free blocks among those before a hole and those after it. -/
def around (pre : List Blk) (c : ℕ) (post : List Blk) (x : ℕ) : Option ℕ :=
  (freeMap kheapStartVirt pre x).or (freeMap c post x)

/-- A block of `s` bytes at `b` is on no list; the block after it holds `q` as its `prev_size`. -/
structure Held (h : Heap) (e : ℕ) (pre : List Blk) (b s q : ℕ) (post : List Blk) : Prop where
  before : Layout h.mem kheapStartVirt 0 pre
  start : b = kheapStartVirt + span pre
  prevSize : h.mem (b + 8) = lastSize 0 pre
  size : h.sizeOf b = s
  min : 32 ≤ s
  aligned : 16 ∣ s
  poisoned : ∀ y, b + 32 ≤ y → y < b + s → h.mem y = poisonWord
  after : Layout h.mem (b + s) q post
  apartBefore : Apart pre
  apartAfter : Apart post
  ends : b + s + span post = e
  first : h.firstBlock = kheapStartVirt
  last : h.lastBlock = lastStart b (⟨s, none⟩ :: post)
  lists : Lists h.mem h.freeLists (around pre (b + s) post)

def LastUsed (pre : List Blk) : Prop := ∀ c ∈ pre.getLast?, c.free = false

def HeadUsed (post : List Blk) : Prop := ∀ c ∈ post.head?, c.free = false

/-! ### Reading blocks -/

section

variable {h : Heap} {a prev : ℕ} {b : Blk}

theorem Laid.sizeOf_eq (hl : Laid h.mem a prev b) : h.sizeOf a = b.size := by
  have h2 := hl.aligned
  rw [Heap.sizeOf, hl.size]
  cases b.free <;> simp only [Bool.toNat_false, Bool.toNat_true] <;> omega

theorem Laid.isFree_eq (hl : Laid h.mem a prev b) : h.isFree a = b.free := by
  have h2 := hl.aligned
  rw [Heap.isFree, hl.size]
  cases b.free <;> simp only [Bool.toNat_false, Bool.toNat_true, decide_eq_false_iff_not,
    decide_eq_true_eq] <;> omega

theorem le_lastStart (a : ℕ) (bs : List Blk) : a ≤ lastStart a bs := by
  induction bs generalizing a with
  | nil => exact le_rfl
  | cons c l ih =>
    cases l with
    | nil => exact le_rfl
    | cons d l => exact le_trans (Nat.le_add_right _ _) (ih (a + c.size))

theorem apart_append {l₁ l₂ : List Blk} (h₁ : Apart l₁) (h₂ : Apart l₂)
    (h : LastUsed l₁ ∨ HeadUsed l₂) : Apart (l₁ ++ l₂) := by
  refine isChain_append.2 ⟨h₁, h₂, fun x hx y hy => ?_⟩
  rcases h with h | h
  · simp [h x hx]
  · simp [h y hy]

theorem apart_cons {bs : List Blk} (hbs : Apart bs) (h : b.free = false ∨ HeadUsed bs) :
    Apart (b :: bs) := by
  refine isChain_cons.2 ⟨fun y hy => ?_, hbs⟩
  rcases h with h | h
  · simp [h]
  · simp [h y hy]

theorem Apart.middle {pre post : List Blk} (h : Apart (pre ++ b :: post)) :
    Apart pre ∧ Apart post ∧ (b.free = true → LastUsed pre ∧ HeadUsed post) := by
  obtain ⟨h1, h2, h3⟩ := isChain_append.1 h
  obtain ⟨h4, h5⟩ := isChain_cons.1 h2
  refine ⟨h1, h5, fun hb => ⟨fun c hc => ?_, fun c hc => ?_⟩⟩
  · simpa [hb] using h3 c hc b rfl
  · simpa [hb] using h4 c hc

end

/-! ### The free blocks around a hole -/

section

variable {mem m : ℕ → ℕ} {pre post : List Blk} {c q b s t : ℕ}

theorem around_cases {x : ℕ} (hx : around pre c post x = some t) :
    freeMap kheapStartVirt pre x = some t ∨ freeMap c post x = some t :=
  (Option.or_eq_some_iff.1 hx).imp_right And.right

theorem around_range (h₁ : Layout mem kheapStartVirt 0 pre) (h₂ : Layout mem c q post) {x : ℕ}
    (hx : around pre c post x = some t) :
    32 ≤ t ∧ (x + t ≤ kheapStartVirt + span pre ∨ c ≤ x) := by
  rcases around_cases hx with hx | hx
  · have := freeMap_size h₁ hx
    omega
  · have := freeMap_size h₂ hx
    omega

theorem around_dvd (h₁ : Layout mem kheapStartVirt 0 pre) (h₂ : Layout mem c q post) (hc : 16 ∣ c)
    (x t : ℕ) (hx : around pre c post x = some t) : 16 ∣ x := by
  rcases around_cases hx with hx | hx
  · exact h₁.lookup_dvd start_dvd hx
  · exact h₂.lookup_dvd hc hx

theorem around_eq_none (h₁ : Layout mem kheapStartVirt 0 pre) (h₂ : Layout mem c q post) {x : ℕ}
    (hx : kheapStartVirt + span pre ≤ x) (hxc : x < c) : around pre c post x = none := by
  rw [around, freeMap, lookup_eq_none_of_ge h₁.sizes hx,
    lookup_eq_none_of_lt h₂.sizes hxc]
  rfl

theorem layouts_congr (h₁ : Layout mem kheapStartVirt 0 pre) (h₂ : Layout mem c q post)
    (hc : kheapStartVirt + span pre ≤ c)
    (hm : ∀ y, y < kheapStartVirt + span pre ∨ c ≤ y → ¬LinkWord (around pre c post) y →
      m y = mem y) :
    Layout m kheapStartVirt 0 pre ∧ Layout m c q post := by
  refine ⟨h₁.congr fun y g1 g2 g3 => hm y (.inl g2) ?_,
    h₂.congr fun y g1 g2 g3 => hm y (.inr g1) ?_⟩
  · rintro ⟨x, t, hx, hy⟩
    rcases around_cases hx with hx | hx
    · exact g3 ⟨x, t, hx, hy⟩
    · have := freeMap_size h₂ hx
      omega
  · rintro ⟨x, t, hx, hy⟩
    rcases around_cases hx with hx | hx
    · have := freeMap_size h₁ hx
      omega
    · exact g3 ⟨x, t, hx, hy⟩

theorem not_linkWord_around (h₁ : Layout mem kheapStartVirt 0 pre) (h₂ : Layout mem c q post) {y : ℕ}
    (hy : kheapStartVirt + span pre ≤ y) (hyc : y < c) : ¬LinkWord (around pre c post) y := by
  rintro ⟨x, t, hx, hxy⟩
  have := around_range h₁ h₂ hx
  omega

theorem or_update {β : Type*} {A B : ℕ → Option β} {v : β} {n : ℕ} (hA : A n = none)
    (hB : B n = none) :
    (fun x => (A x).or ((if x = n then some v else none).or (B x))) =
      update (fun x => (A x).or (B x)) n (some v) := by
  funext x
  by_cases hx : x = n
  · subst hx
    simp [hA]
  · simp [hx]

theorem freeMap_free (h₁ : Layout mem kheapStartVirt 0 pre)
    (h₂ : Layout mem (kheapStartVirt + span pre + s) q post) (hs : 32 ≤ s) :
    freeMap kheapStartVirt (pre ++ ⟨s, none⟩ :: post) =
      update (around pre (kheapStartVirt + span pre + s) post) (kheapStartVirt + span pre)
        (some s) := by
  refine Eq.trans ?_ (or_update (lookup_eq_none_of_ge h₁.sizes le_rfl)
    (lookup_eq_none_of_lt h₂.sizes (by omega)))
  funext x
  rw [freeMap, lookup_append, lookup]
  rfl

theorem freeMap_used (c : ℕ → ℕ) :
    freeMap kheapStartVirt (pre ++ ⟨s, some c⟩ :: post) =
      around pre (kheapStartVirt + span pre + s) post := by
  funext x
  simp [freeMap, around, lookup_append, lookup, Blk.free]

theorem usedMap_used (h₁ : Layout mem kheapStartVirt 0 pre)
    (h₂ : Layout mem (kheapStartVirt + span pre + s) q post) (hs : 32 ≤ s) (c : ℕ → ℕ) :
    usedMap kheapStartVirt (pre ++ ⟨s, some c⟩ :: post) =
      update (fun x => (usedMap kheapStartVirt pre x).or
        (usedMap (kheapStartVirt + span pre + s) post x)) (kheapStartVirt + span pre)
        (some (s, c)) := by
  refine Eq.trans ?_ (or_update (lookup_eq_none_of_ge h₁.sizes le_rfl)
    (lookup_eq_none_of_lt h₂.sizes (by omega)))
  funext x
  rw [usedMap, lookup_append, lookup]
  rfl

theorem usedMap_free (x : ℕ) :
    usedMap kheapStartVirt (pre ++ ⟨s, none⟩ :: post) x =
      (usedMap kheapStartVirt pre x).or (usedMap (kheapStartVirt + span pre + s) post x) := by
  simp [usedMap, lookup_append, lookup]

theorem around_cons (h₁ : Layout mem kheapStartVirt 0 pre) (h₂ : Layout mem (c + s) q post)
    (hc : kheapStartVirt + span pre ≤ c) (hs : 32 ≤ s) :
    around pre c (⟨s, none⟩ :: post) = update (around pre (c + s) post) c (some s) := by
  refine Eq.trans ?_ (or_update (lookup_eq_none_of_ge h₁.sizes hc)
    (lookup_eq_none_of_lt h₂.sizes (by omega)))
  funext x
  rw [around, freeMap, lookup]
  rfl

theorem around_concat (h₁ : Layout mem kheapStartVirt 0 pre) (h₂ : Layout mem c q post)
    (hc : kheapStartVirt + span pre < c) :
    around (pre ++ [⟨s, none⟩]) c post =
      update (around pre c post) (kheapStartVirt + span pre) (some s) := by
  refine Eq.trans ?_ (or_update (lookup_eq_none_of_ge h₁.sizes le_rfl)
    (lookup_eq_none_of_lt h₂.sizes hc))
  funext x
  rw [around, freeMap, lookup_append, lookup, lookup, Option.or_none, Option.or_assoc]
  rfl

end

/-! ### Taking a block and giving it back -/

section

variable {h : Heap} {pre post : List Blk} {b e s q : ℕ}

theorem Tiled.middle {c : Option (ℕ → ℕ)} (ht : Tiled h e (pre ++ ⟨s, c⟩ :: post)) :
    Layout h.mem kheapStartVirt 0 pre ∧
      Laid h.mem (kheapStartVirt + span pre) (lastSize 0 pre) ⟨s, c⟩ ∧
      Layout h.mem (kheapStartVirt + span pre + s) s post :=
  layout_append.1 ht.layout

theorem Held.dvd (hh : Held h e pre b s q post) : 16 ∣ b := by
  rw [hh.start]
  exact Nat.dvd_add start_dvd hh.before.dvd_span

theorem Held.pos (hh : Held h e pre b s q post) : 0 < b := by
  have := start_pos
  have := hh.start
  omega

theorem Tiled.unlink (ht : Tiled h e (pre ++ ⟨s, none⟩ :: post)) (hb : b = kheapStartVirt + span pre) :
    Held (h.unlinkFree b) e pre b s s post ∧ LastUsed pre ∧ HeadUsed post ∧
      ∀ y, e ≤ y → (h.unlinkFree b).mem y = h.mem y := by
  obtain ⟨l₁, lb, l₂⟩ := ht.middle
  obtain ⟨a₁, a₂, a₃⟩ := ht.apart.middle
  have hmin : 32 ≤ s := lb.min
  have hal : 16 ∣ s := lb.aligned
  rw [← hb] at l₂ lb
  have hd : 16 ∣ b := hb ▸ Nat.dvd_add start_dvd l₁.dvd_span
  have hl := ht.lists
  rw [freeMap_free l₁ (hb ▸ l₂) hmin, ← hb] at hl
  obtain ⟨m, fl, heq, hl', hm⟩ := hl.unlinkFree
    (around_eq_none l₁ l₂ hb.ge (by omega)) (around_dvd l₁ l₂ (Nat.dvd_add hd hal)) hd lb.sizeOf_eq
  obtain ⟨k₁, k₂⟩ := layouts_congr l₁ l₂ (by omega) fun y hy hlw =>
    hm y (by omega) (by omega) hlw
  have hin (y : ℕ) (h1 : b ≤ y) (h2 : y < b + s) (h3 : y ≠ b + 16 ∧ y ≠ b + 24) : m y = h.mem y :=
    hm y h3.1 h3.2 (not_linkWord_around l₁ l₂ (by omega) h2)
  have hends := ht.ends
  have hlast := ht.last
  rw [lastStart_append, ← hb] at hlast
  simp only [span_append, span_cons] at hends
  rw [heq]
  refine ⟨⟨k₁, hb, ?_, ?_, hmin, hal, fun y h1 h2 => ?_, k₂, a₁, a₂, ?_, ht.first, hlast,
    hl'⟩, (a₃ rfl).1, (a₃ rfl).2, fun y hy => ?_⟩
  · show m (b + 8) = _
    rw [hin (b + 8) (by omega) (by omega) (by omega)]
    exact lb.prevSize
  · show m b / 2 * 2 = s
    rw [hin b (by omega) (by omega) (by omega)]
    exact lb.sizeOf_eq
  · show m y = _
    rw [hin y (by omega) h2 (by omega)]
    exact lb.poisoned rfl y h1 h2
  · show b + s + span post = e
    omega
  · refine hm y (by omega) (by omega) fun hlw => ?_
    obtain ⟨x, t, hx, hxy⟩ := hlw
    rcases around_cases hx with hx | hx
    · have := freeMap_size l₁ hx
      omega
    · have := freeMap_size l₂ hx
      omega

theorem Held.insert (hh : Held h e pre b s s post) (h₁ : LastUsed pre) (h₂ : HeadUsed post) :
    Tiled (h.insertFree b) e (pre ++ ⟨s, none⟩ :: post) := by
  have hmin := hh.min
  have hstart := hh.start
  have hlast := hh.last
  have hends := hh.ends
  obtain ⟨m, fl, heq, hl, hmb, hm⟩ := hh.lists.insertFree
    (around_dvd hh.before hh.after (Nat.dvd_add hh.dvd hh.aligned))
    (around_eq_none hh.before hh.after hstart.ge (by omega)) hh.dvd hh.pos.ne'
    (fun x t hx => by
      have := around_range hh.before hh.after hx
      omega) hh.size
  obtain ⟨k₁, k₂⟩ := layouts_congr hh.before hh.after (by omega) fun y hy hlw =>
    hm y (by omega) (by omega) (by omega) hlw
  have hin (y : ℕ) (h1 : b < y) (h2 : y < b + s) (h3 : y ≠ b + 16 ∧ y ≠ b + 24) : m y = h.mem y :=
    hm y (by omega) h3.1 h3.2 (not_linkWord_around hh.before hh.after (by omega) h2)
  rw [heq]
  refine ⟨layout_append.2 ⟨k₁, ?_, ?_⟩, ?_, by simp, ?_, hh.first, ?_, ?_⟩
  · rw [← hstart]
    refine ⟨hmb, ?_, hmin, hh.aligned, fun _ y h1 h2 => ?_, fun _ h0 => (nomatch h0)⟩
    · show m (b + 8) = _
      rw [hin (b + 8) (by omega) (by omega) (by omega)]
      exact hh.prevSize
    · show m y = _
      rw [hin y (by omega) h2 (by omega)]
      exact hh.poisoned y h1 h2
  · rw [← hstart]
    exact k₂
  · exact apart_append hh.apartBefore (apart_cons hh.apartAfter (.inr h₂)) (.inl h₁)
  · show _ = e
    simp only [span_append, span_cons]
    omega
  · show h.lastBlock = _
    rw [lastStart_append, ← hstart, hlast]
  · rw [freeMap_free hh.before (hstart ▸ hh.after) hmin, ← hstart]
    exact hl

theorem Tiled.release {c : ℕ → ℕ} (ht : Tiled h e (pre ++ ⟨s, some c⟩ :: post))
    (hb : b = kheapStartVirt + span pre) :
    Held (h.poison (b + minBlock) (s - minBlock)) e pre b s s post := by
  obtain ⟨l₁, lb, l₂⟩ := ht.middle
  obtain ⟨a₁, a₂, -⟩ := ht.apart.middle
  have hmin : 32 ≤ s := lb.min
  have hal : 16 ∣ s := lb.aligned
  have hends := ht.ends
  have hlast := ht.last
  have hl := ht.lists
  rw [lastStart_append, ← hb] at hlast
  rw [freeMap_used, ← hb] at hl
  simp only [span_append, span_cons] at hends
  rw [← hb] at l₂ lb
  have hm (y : ℕ) (hy : y < b + 32 ∨ b + s ≤ y) :
      (h.poison (b + minBlock) (s - minBlock)).mem y = h.mem y := by
    refine if_neg ?_
    rw [minBlock]
    omega
  obtain ⟨k₁, k₂⟩ := layouts_congr (m := (h.poison (b + minBlock) (s - minBlock)).mem) l₁ l₂
    (by omega) fun y hy _ => hm y (by omega)
  refine ⟨k₁, hb, ?_, ?_, hmin, hal, fun y h1 h2 => if_pos ?_, k₂, a₁, a₂, ?_, ht.first,
    ?_, hl.congr fun y hy => hm y ?_⟩
  · rw [hm (b + 8) (by omega)]
    exact lb.prevSize
  · rw [Heap.sizeOf, hm b (by omega)]
    exact lb.sizeOf_eq
  · rw [minBlock]
    omega
  · show b + s + span post = e
    omega
  · exact hlast.trans (by cases post <;> rfl)
  · by_contra h0
    exact not_linkWord_around l₁ l₂ (by omega) (by omega) hy

/-- Words of the held block other than its `prev_size` and its poison may be written. -/
theorem Held.set_size (hh : Held h e pre b s q post) {v : ℕ} (hv : v / 2 * 2 = s) :
    Held (h.set b v) e pre b s q post := by
  have hmin := hh.min
  have hstart := hh.start
  have hm (y : ℕ) (hy : y ≠ b) : (h.set b v).mem y = h.mem y := update_of_ne hy _ _
  obtain ⟨k₁, k₂⟩ := layouts_congr (m := (h.set b v).mem) hh.before hh.after (by omega)
    fun y hy _ => hm y (by omega)
  refine ⟨k₁, hstart, ?_, ?_, hmin, hh.aligned, fun y h1 h2 => ?_, k₂, hh.apartBefore,
    hh.apartAfter, hh.ends, hh.first, hh.last, hh.lists.congr fun y hy => hm y ?_⟩
  · rw [hm _ (by omega)]
    exact hh.prevSize
  · show update h.mem b v b / 2 * 2 = s
    rw [update_self, hv]
  · rw [hm _ (by omega)]
    exact hh.poisoned y h1 h2
  · rintro rfl
    exact not_linkWord_around hh.before hh.after hstart.ge (by omega) hy

theorem Held.use (hh : Held h e pre b s s post) (hb : h.mem b = s) :
    Tiled h e (pre ++ ⟨s, some fun y => h.mem (b + y)⟩ :: post) := by
  have hmin := hh.min
  have hstart := hh.start
  have hends := hh.ends
  have hlast := hh.last
  refine ⟨layout_append.2 ⟨hh.before, ?_, ?_⟩, ?_, by simp, ?_, hh.first, ?_, ?_⟩
  · rw [← hstart]
    refine ⟨hb, hh.prevSize, hmin, hh.aligned, fun h0 => (nomatch h0), fun c hc y _ _ => ?_⟩
    cases hc
    rfl
  · rw [← hstart]
    exact hh.after
  · exact apart_append hh.apartBefore (apart_cons hh.apartAfter (.inl rfl))
      (.inr fun c hc => by cases hc; rfl)
  · simp only [span_append, span_cons]
    omega
  · rw [lastStart_append, ← hstart, hlast]
    cases post <;> rfl
  · rw [freeMap_used, ← hstart]
    exact hh.lists

/-! ### Neighbours -/

theorem Held.nextBlock_nil (hh : Held h e pre b s q []) : h.nextBlock b = none := if_pos hh.last.symm

theorem Held.nextBlock_cons {c : Blk} (hh : Held h e pre b s q (c :: post)) :
    h.nextBlock b = some (b + s) := by
  have hmin := hh.min
  have hle : b + s ≤ h.lastBlock := hh.last ▸ le_lastStart (b + s) (c :: post)
  rw [Heap.nextBlock, if_neg (by omega), hh.size]

theorem Held.prevBlock_concat {c : Blk} (hh : Held h e (pre ++ [c]) b s q post) :
    h.prevBlock b = some (kheapStartVirt + span pre) := by
  have hstart := hh.start
  have hmin := (layout_append.1 hh.before).2.1.min
  have hsize : h.mem (b + 8) = c.size := by rw [hh.prevSize, lastSize_append]; rfl
  simp only [span_append, span_cons, span_nil] at hstart
  rw [Heap.prevBlock, hsize, if_neg (by omega)]
  exact congrArg some (by omega)

theorem Held.updateNext (hh : Held h e pre b s q post) :
    Held (h.updateNextPrevSize b) e pre b s s post := by
  cases post with
  | nil =>
    rw [Heap.updateNextPrevSize, hh.nextBlock_nil]
    exact { hh with after := trivial }
  | cons c post =>
    have hmin := hh.min
    have hstart := hh.start
    rw [Heap.updateNextPrevSize, hh.nextBlock_cons, hh.size]
    have hm (y : ℕ) (hy : y ≠ b + s + 8) : (h.set (b + s + 8) s).mem y = h.mem y :=
      update_of_ne hy _ _
    refine { hh with
      before := hh.before.congr fun y _ h2 _ => hm y (by omega)
      prevSize := (hm _ (by omega)).trans hh.prevSize
      size := ?_
      poisoned := fun y h1 h2 => (hm _ (by omega)).trans (hh.poisoned y h1 h2)
      after := hh.after.set_prev s
      lists := hh.lists.congr fun y hy => hm y ?_ }
    · rw [Heap.sizeOf, hm b (by omega)]
      exact hh.size
    · obtain ⟨x, t, hx, hxy⟩ := hy
      have h1 := around_dvd hh.before hh.after (Nat.dvd_add hh.dvd hh.aligned) x t hx
      have h2 := Nat.dvd_add hh.dvd hh.aligned
      have h3 := around_range hh.before hh.after hx
      omega

/-- Two neighbours become one block: one of them, at `x`, was free and has been taken off its
list. -/
theorem Held.join {m : ℕ → ℕ} {fl : ℕ → ℕ} {p t x : ℕ} (l₁ : Layout h.mem kheapStartVirt 0 pre)
    (l₂ : Layout h.mem (b + s) q post) (hp : p = kheapStartVirt + span pre) (hpb : p + t = b)
    (ht : 32 ≤ t) (hs : 32 ≤ s) (hsum : 16 ∣ t + s) (hx : x = p ∨ x = b)
    (hprev : h.mem (p + 8) = lastSize 0 pre)
    (hpois : ∀ y, p + 32 ≤ y → y < b ∨ b + 32 ≤ y → y < b + s → h.mem y = poisonWord)
    (a₁ : Apart pre) (a₂ : Apart post) (hends : b + s + span post = e)
    (hfirst : h.firstBlock = kheapStartVirt) (hlast : h.lastBlock = lastStart b (⟨s, none⟩ :: post))
    (hl : Lists m fl (around pre (b + s) post))
    (hm : ∀ y, y ≠ x + 16 → y ≠ x + 24 → ¬LinkWord (around pre (b + s) post) y → m y = h.mem y) :
    Held { h with
      mem := fun y => if b ≤ y ∧ y < b + minBlock then poisonWord else update m p (t + s) y
      freeLists := fl
      lastBlock := if b = h.lastBlock then p else h.lastBlock } e pre p (t + s) q post := by
  have hin (y : ℕ) (h1 : p ≤ y) (h2 : y < b + s) (h3 : y ≠ x + 16 ∧ y ≠ x + 24) :
      m y = h.mem y := hm y h3.1 h3.2 (not_linkWord_around l₁ l₂ (by omega) h2)
  rw [minBlock]
  have hout (y : ℕ) (hy : y < p ∨ b + s ≤ y) :
      (if b ≤ y ∧ y < b + 32 then poisonWord else update m p (t + s) y) = m y := by
    rw [if_neg (by omega), update_of_ne (by omega)]
  obtain ⟨k₁, k₂⟩ := layouts_congr l₁ l₂ (by omega) fun y hy hlw =>
    (hout y (by omega)).trans (hm y (by omega) (by omega) hlw)
  have hpts : p + (t + s) = b + s := by omega
  refine ⟨k₁, hp, ?_, ?_, by omega, hsum, fun y h1 h2 => ?_, hpts ▸ k₂, a₁, a₂, by rw [hpts, hends],
    hfirst, ?_, ?_⟩
  · show (if b ≤ p + 8 ∧ p + 8 < b + 32 then poisonWord
      else update m p (t + s) (p + 8)) = _
    rw [if_neg (by omega), update_of_ne (by omega), hin _ (by omega) (by omega) (by omega)]
    exact hprev
  · show (if b ≤ p ∧ p < b + 32 then poisonWord else update m p (t + s) p) / 2 * 2 = _
    rw [if_neg (by omega), update_self]
    omega
  · show (if b ≤ y ∧ y < b + 32 then poisonWord else update m p (t + s) y) = _
    split_ifs with h0
    · rfl
    · rw [update_of_ne (by omega), hin y (by omega) (by omega) (by omega)]
      exact hpois y h1 (by omega) (by omega)
  · show (if b = h.lastBlock then p else h.lastBlock) = _
    rw [hlast]
    cases post with
    | nil => exact if_pos rfl
    | cons c post =>
      have := le_lastStart (b + s) (c :: post)
      rw [lastStart, lastStart, if_neg (by simp only; omega), hpts]
  · rw [hpts]
    refine hl.congr fun y hy => hout y ?_
    by_contra h0
    exact not_linkWord_around l₁ l₂ (by omega) (by omega) hy

theorem Held.mergeNext_free {t : ℕ} (hh : Held h e pre b s s (⟨t, none⟩ :: post)) :
    Held (h.mergeNext b) e pre b (s + t) t post ∧ HeadUsed post := by
  have hmin := hh.min
  have hstart := hh.start
  have hends := hh.ends
  have lb : Laid h.mem (b + s) s ⟨t, none⟩ := hh.after.1
  have l₂ : Layout h.mem (b + s + t) t post := hh.after.2
  have htmin : 32 ≤ t := lb.min
  have hd : 16 ∣ b + s := Nat.dvd_add hh.dvd hh.aligned
  have hl := hh.lists
  rw [around_cons hh.before l₂ (by omega) htmin] at hl
  obtain ⟨m, fl, heq, hl', hm⟩ := hl.unlinkFree
    (around_eq_none hh.before l₂ (by omega) (by omega))
    (around_dvd hh.before l₂ (Nat.dvd_add hd lb.aligned)) hd lb.sizeOf_eq
  have hin (y : ℕ) (h1 : b ≤ y) (h2 : y ≤ b + s) : m y = h.mem y :=
    hm y (by omega) (by omega) (not_linkWord_around hh.before l₂ (by omega) (by omega))
  have hmb : m b / 2 * 2 = s := by
    rw [hin b (by omega) (by omega)]
    exact hh.size
  have hmn : m (b + s) / 2 * 2 = t := by
    rw [hin (b + s) (by omega) (by omega)]
    exact lb.sizeOf_eq
  -- the heap after the merge, field by field
  have hmerge : h.mergeNext b = { h with
      mem := fun y => if b + s ≤ y ∧ y < b + s + minBlock then poisonWord
        else update m b (s + t) y
      freeLists := fl
      lastBlock := if b + s = h.lastBlock then b else h.lastBlock } := by
    rw [Heap.mergeNext, hh.nextBlock_cons]
    simp only [lb.isFree_eq, Blk.free, Option.isNone_none, if_true]
    rw [heq]
    split_ifs <;> simp only [Heap.set, Heap.poison, Heap.sizeOf, hmb, hmn]
  rw [hmerge]
  simp only [span_cons] at hends
  refine ⟨.join hh.before l₂ hstart rfl hmin htmin (Nat.dvd_add hh.aligned lb.aligned) (.inr rfl)
    hh.prevSize (fun y h1 h2 h3 => ?_) hh.apartBefore (isChain_cons.1 hh.apartAfter).2 (by omega)
    hh.first hh.last hl' hm, fun c hc => ?_⟩
  · rcases h2 with h2 | h2
    · exact hh.poisoned y h1 h2
    · exact lb.poisoned rfl y h2 h3
  · have := (isChain_cons.1 hh.apartAfter).1 c hc
    exact Bool.eq_false_iff.2 fun h0 => this ⟨rfl, h0⟩

theorem Held.mergePrev_free {t p : ℕ} (hh : Held h e (pre ++ [⟨t, none⟩]) b s q post)
    (hp : p = kheapStartVirt + span pre) :
    (h.mergePrev b).2 = p ∧ p + t = b ∧ Held (h.mergePrev b).1 e pre p (t + s) q post ∧
      LastUsed pre := by
  have hmin := hh.min
  have hstart := hh.start
  simp only [span_append, span_cons, span_nil] at hstart
  obtain ⟨l₁, lp, -⟩ := layout_append.1 hh.before
  rw [← hp] at lp
  have l₂ := hh.after
  have htmin : 32 ≤ t := lp.min
  have hd : 16 ∣ p := hp ▸ Nat.dvd_add start_dvd l₁.dvd_span
  have hpb : p + t = b := by omega
  have hl := hh.lists
  rw [around_concat l₁ l₂ (by omega), ← hp] at hl
  obtain ⟨m, fl, heq, hl', hm⟩ := hl.unlinkFree (around_eq_none l₁ l₂ (by omega) (by omega))
    (around_dvd l₁ l₂ (Nat.dvd_add hh.dvd hh.aligned)) hd lp.sizeOf_eq
  have hin (y : ℕ) (h1 : y = p ∨ y = b) : m y = h.mem y :=
    hm y (by omega) (by omega) (not_linkWord_around l₁ l₂ (by omega) (by omega))
  have hmb : m b / 2 * 2 = s := by
    rw [hin b (.inr rfl)]
    exact hh.size
  have hmp : m p / 2 * 2 = t := by
    rw [hin p (.inl rfl)]
    exact lp.sizeOf_eq
  have hprev : h.prevBlock b = some p := hp ▸ hh.prevBlock_concat
  have hmerge : h.mergePrev b = ({ h with
      mem := fun y => if b ≤ y ∧ y < b + minBlock then poisonWord else update m p (t + s) y
      freeLists := fl
      lastBlock := if b = h.lastBlock then p else h.lastBlock }, p) := by
    rw [Heap.mergePrev, hprev]
    simp only [lp.isFree_eq, Blk.free, Option.isNone_none, if_true]
    rw [heq]
    split_ifs <;> simp only [Heap.set, Heap.poison, Heap.sizeOf, hmb, hmp]
  obtain ⟨a₁, -, a₃⟩ := hh.apartBefore.middle
  rw [hmerge]
  refine ⟨rfl, hpb, .join l₁ l₂ hp hpb htmin hmin (Nat.dvd_add lp.aligned hh.aligned) (.inl rfl)
    lp.prevSize (fun y h1 h2 h3 => ?_) a₁ hh.apartAfter hh.ends hh.first hh.last hl' hm, (a₃ rfl).1⟩
  rcases h2 with h2 | h2
  · exact lp.poisoned rfl y h1 (by simp only; omega)
  · exact hh.poisoned y h2 h3

theorem Held.mergeNext_used (hh : Held h e pre b s q post) (hu : HeadUsed post) :
    h.mergeNext b = h := by
  cases post with
  | nil => rw [Heap.mergeNext, hh.nextBlock_nil]
  | cons c post =>
    rw [Heap.mergeNext, hh.nextBlock_cons]
    simp only [hh.after.1.isFree_eq, hu c rfl, Bool.false_eq_true, if_false]

theorem Held.mergePrev_used (hh : Held h e pre b s q post) (hu : LastUsed pre) :
    h.mergePrev b = (h, b) := by
  rcases eq_nil_or_concat' pre with rfl | ⟨pre, c, rfl⟩
  · rw [Heap.mergePrev, Heap.prevBlock, hh.prevSize, lastSize, if_pos rfl]
  · obtain ⟨-, lc, -⟩ := layout_append.1 hh.before
    rw [Heap.mergePrev, hh.prevBlock_concat]
    simp only [lc.isFree_eq, hu c (by simp), Bool.false_eq_true, if_false]

end

attribute [grind =] around

end Bashket.Mm
