import Bashket.Mm.HeapBlocks

/-!
# `kfree`

`kfree` turns the block in use it is given into free memory and nothing else: the other blocks in
use stay as they are, contents included, and what was free memory and is still part of the heap
stays free memory.
-/

namespace Bashket.Mm

open Function (update update_idem update_of_ne update_self)

def Heap.vars (h : Heap) : ℕ × ℕ × ℕ := (h.heapEndVirt, h.totalAllocatedBytes, h.poisonDamage)

/-- The heap is sound, and its blocks are `bs`. -/
structure HeapOk (h : Heap) (bs : List Blk) : Prop where
  tiled : Tiled h h.heapEndVirt bs
  pages : pageSize ∣ h.heapEndVirt
  total : h.totalAllocatedBytes = inUse bs
  damage : h.poisonDamage = 0

/-- The word at `x` is a free block's first or a poisoned one. -/
def InFree (bs : List Blk) (x : ℕ) : Prop :=
  ∃ a s, freeMap kheapStartVirt bs a = some s ∧ (x = a ∨ a + 32 ≤ x ∧ x < a + s)

/-! ### Variables -/

section

variable (h : Heap) (a b v n : ℕ)

@[simp] theorem Heap.set_vars : (h.set a v).vars = h.vars := rfl

@[simp] theorem Heap.poison_vars : (h.poison a n).vars = h.vars := rfl

@[simp] theorem Heap.insertFree_vars : (h.insertFree b).vars = h.vars := by
  rw [h.insertFree_eq b]
  rfl

@[simp] theorem Heap.unlinkFree_vars : (h.unlinkFree b).vars = h.vars := by
  rw [h.unlinkFree_eq b]
  rfl

@[simp] theorem Heap.setLast_vars (p : Prop) [Decidable p] :
    (if p then { h with lastBlock := b } else h).vars = h.vars := by
  split_ifs <;> rfl

@[simp] theorem Heap.updateNextPrevSize_vars : (h.updateNextPrevSize b).vars = h.vars := by
  unfold Heap.updateNextPrevSize
  split <;> rfl

@[simp] theorem Heap.mergeNext_vars : (h.mergeNext b).vars = h.vars := by
  unfold Heap.mergeNext
  split
  · split_ifs <;> simp
  · rfl

@[simp] theorem Heap.mergePrev_vars : (h.mergePrev b).1.vars = h.vars := by
  unfold Heap.mergePrev
  split
  · split_ifs <;> simp
  · rfl

end

/-! ### Merging -/

section

variable {h : Heap} {pre post : List Blk} {b e s q : ℕ}

theorem Held.mergeNext (hh : Held h e pre b s s post) :
    ∃ s' q' post', Held (h.mergeNext b) e pre b s' q' post' ∧ HeadUsed post' ∧ s ≤ s' ∧
      usedMap (b + s') post' = usedMap (b + s) post ∧ inUse post' = inUse post ∧
      ∀ x t, freeMap (b + s) post x = some t →
        freeMap (b + s') post' x = some t ∨ b + 32 ≤ x ∧ x + t ≤ b + s' := by
  have hmin := hh.min
  by_cases hu : HeadUsed post
  · rw [hh.mergeNext_used hu]
    exact ⟨s, s, post, hh, hu, le_rfl, rfl, rfl, fun x t hx => .inl hx⟩
  · obtain ⟨t, post, rfl⟩ : ∃ t post', post = ⟨t, none⟩ :: post' := by
      rcases post with _ | ⟨⟨t, _ | c⟩, post⟩
      · exact absurd (fun c hc => (nomatch hc)) hu
      · exact ⟨t, post, rfl⟩
      · exact absurd (fun d hd => by cases hd; rfl) hu
    obtain ⟨hm, hu'⟩ := hh.mergeNext_free
    refine ⟨s + t, t, post, hm, hu', by omega, ?_, ?_, fun x u hx => ?_⟩
    · funext x
      simp [usedMap, lookup, Nat.add_assoc]
    · simp [Blk.free]
    · rw [freeMap, lookup, Option.or_eq_some_iff] at hx
      rcases hx with hx | ⟨-, hx⟩
      · split_ifs at hx with h1 h2
        · cases hx
          exact .inr (by simp only; omega)
      · rw [← Nat.add_assoc]
        exact .inl hx

theorem Held.mergePrev (hh : Held h e pre b s q post) :
    ∃ pre' b' s', h.mergePrev b = ((h.mergePrev b).1, b') ∧
      Held (h.mergePrev b).1 e pre' b' s' q post ∧ LastUsed pre' ∧ b' + s' = b + s ∧
      (b' = b ∨ b' + 32 ≤ b) ∧ usedMap kheapStartVirt pre' = usedMap kheapStartVirt pre ∧
      inUse pre' = inUse pre ∧
      ∀ x t, freeMap kheapStartVirt pre x = some t →
        freeMap kheapStartVirt pre' x = some t ∨ x = b' ∧ x + t ≤ b := by
  by_cases hu : LastUsed pre
  · rw [hh.mergePrev_used hu]
    exact ⟨pre, b, s, rfl, hh, hu, rfl, .inl rfl, rfl, rfl, fun x t hx => .inl hx⟩
  · obtain ⟨t, pre, rfl⟩ : ∃ t pre', pre = pre' ++ [⟨t, none⟩] := by
      rcases List.eq_nil_or_concat' pre with rfl | ⟨pre, ⟨t, _ | c⟩, rfl⟩
      · exact absurd (fun c hc => (nomatch hc)) hu
      · exact ⟨t, pre, rfl⟩
      · refine absurd (fun d hd => ?_) hu
        rw [List.getLast?_concat] at hd
        cases hd
        rfl
    have lp := (layout_append.1 hh.before).2.1
    have htmin : 32 ≤ t := lp.min
    obtain ⟨h1, h2, h3, h4⟩ := hh.mergePrev_free rfl
    refine ⟨pre, kheapStartVirt + span pre, t + s, Prod.ext rfl h1, h3, h4, by omega, by omega, ?_, ?_,
      fun x u hx => ?_⟩
    · funext x
      simp [usedMap, lookup_append, lookup]
    · simp [Blk.free]
    · rw [freeMap, lookup_append, Option.or_eq_some_iff] at hx
      rcases hx with hx | ⟨-, hx⟩
      · exact .inl hx
      · rw [lookup, lookup, Option.or_none] at hx
        split_ifs at hx with h5 h6
        cases hx
        exact .inr (by simp only; omega)

/-! ### Trimming -/

theorem pageAlignUp_dvd (a : ℕ) : pageSize ∣ pageAlignUp a := Nat.dvd_mul_left _ _

theorem le_pageAlignUp (a : ℕ) : a ≤ pageAlignUp a := by
  rw [pageAlignUp, pageSize]
  omega

theorem pageAlignUp_of_dvd {a : ℕ} (ha : pageSize ∣ a) : pageAlignUp a = a := by
  rw [pageSize] at ha
  rw [pageAlignUp, pageSize]
  omega

theorem Held.trim (hh : Held h h.heapEndVirt pre b s s post) (hp : pageSize ∣ h.heapEndVirt) :
    ∃ s', Held (h.trim b) (h.trim b).heapEndVirt pre b s' s' post ∧ (s' = s ∨ post = []) ∧
      pageSize ∣ (h.trim b).heapEndVirt ∧ (h.trim b).heapEndVirt ≤ h.heapEndVirt ∧
      (h.trim b).totalAllocatedBytes = h.totalAllocatedBytes ∧
      (h.trim b).poisonDamage = h.poisonDamage := by
  obtain ⟨newEnd, hnew⟩ : ∃ n, n = if pageAlignUp (b + header + kheapTrimKeep) <
      kheapStartVirt + kheapInitialSize then kheapStartVirt + kheapInitialSize
      else pageAlignUp (b + header + kheapTrimKeep) := ⟨_, rfl⟩
  have hsame : h.trim b = h ∨ b = h.lastBlock ∧ newEnd < h.heapEndVirt ∧
      h.trim b = (h.shrinkHeap newEnd).set b ((h.shrinkHeap newEnd).heapEndVirt - b) := by
    rw [Heap.trim]
    simp only [← hnew]
    split_ifs with h1 h2
    · exact .inr ⟨h1.1, h2, rfl⟩
    · exact .inl rfl
    · exact .inl rfl
  rcases hsame with h0 | ⟨hlast, hlt, h0⟩
  · rw [h0]
    exact ⟨s, hh, .inl rfl, hp, le_rfl, rfl, rfl⟩
  · have hmin := hh.min
    have hstart := hh.start
    have hends := hh.ends
    have hpost : post = [] := by
      cases post with
      | nil => rfl
      | cons c post =>
        have h1 := hh.last
        have h2 := le_lastStart (b + s) (c :: post)
        rw [lastStart] at h1
        simp only at h1
        omega
    subst hpost
    have hdvd : pageSize ∣ newEnd := by
      rw [hnew]
      split_ifs
      · decide
      · exact pageAlignUp_dvd _
    have hge : b + 32 ≤ newEnd := by
      have h1 := le_pageAlignUp (b + header + kheapTrimKeep)
      have h2 : b + 32 ≤ b + header + kheapTrimKeep := by
        rw [header, kheapTrimKeep]
        omega
      rw [hnew]
      split_ifs <;> omega
    have hshrink : (h.shrinkHeap newEnd).heapEndVirt = newEnd := by
      show h.heapEndVirt - pageAlignUp (h.heapEndVirt - newEnd) = newEnd
      rw [pageAlignUp_of_dvd (Nat.dvd_sub hp hdvd)]
      omega
    have hd16 : 16 ∣ newEnd := Dvd.dvd.trans (by decide) hdvd
    have hd := hh.dvd
    simp only [span_nil] at hends
    rw [h0, hshrink]
    have hm (y : ℕ) (hy : y ≠ b) : ((h.shrinkHeap newEnd).set b (newEnd - b)).mem y = h.mem y :=
      update_of_ne hy _ _
    refine ⟨newEnd - b, ⟨hh.before.congr fun y _ h2 _ => hm y (by omega), hstart,
      (hm _ (by omega)).trans hh.prevSize, ?_, by omega, by omega,
      fun y h1 h2 => (hm y (by omega)).trans (hh.poisoned y h1 (by omega)), trivial,
      hh.apartBefore, hh.apartAfter, ?_, hh.first, hh.last, ?_⟩, .inr rfl, ?_, ?_, rfl, rfl⟩
    · show update h.mem b (newEnd - b) b / 2 * 2 = newEnd - b
      rw [update_self]
      omega
    · show b + (newEnd - b) + span [] = (h.shrinkHeap newEnd).heapEndVirt
      rw [hshrink, span_nil]
      omega
    · refine Lists.congr (show Lists h.mem h.freeLists (around pre (b + s) []) from hh.lists)
        fun y hy => hm y ?_
      rintro rfl
      exact not_linkWord_around hh.before hh.after hstart.ge (by omega) hy
    · show pageSize ∣ (h.shrinkHeap newEnd).heapEndVirt
      rw [hshrink]
      exact hdvd
    · exact hshrink.le.trans hlt.le

/-! ### The call -/

/-- `kfree` once the block is poisoned. -/
def Heap.freeHeld (h : Heap) (b : ℕ) : Heap :=
  let r := (h.mergeNext b).mergePrev b
  (((r.1.set r.2 (r.1.sizeOf r.2)).updateNextPrevSize r.2).trim r.2).insertFree r.2

theorem inFree_of_around (h₁ : Layout h.mem kheapStartVirt 0 pre)
    (h₂ : Layout h.mem (kheapStartVirt + span pre + s) q post) (hs : 32 ≤ s) {a t x : ℕ}
    (ha : around pre (kheapStartVirt + span pre + s) post a = some t)
    (hx : x = a ∨ a + 32 ≤ x ∧ x < a + t) : InFree (pre ++ ⟨s, none⟩ :: post) x := by
  refine ⟨a, t, ?_, hx⟩
  rw [freeMap_free h₁ h₂ hs, update_of_ne, ha]
  rintro rfl
  rw [around_eq_none h₁ h₂ le_rfl (by omega)] at ha
  cases ha

theorem inFree_self (h₁ : Layout h.mem kheapStartVirt 0 pre)
    (h₂ : Layout h.mem (kheapStartVirt + span pre + s) q post) (hs : 32 ≤ s) {x : ℕ}
    (hx : x = kheapStartVirt + span pre ∨
      kheapStartVirt + span pre + 32 ≤ x ∧ x < kheapStartVirt + span pre + s) :
    InFree (pre ++ ⟨s, none⟩ :: post) x := by
  refine ⟨_, s, ?_, hx⟩
  rw [freeMap_free h₁ h₂ hs, update_self]

theorem Held.freeHeld (hh : Held h h.heapEndVirt pre b s s post) (hp : pageSize ∣ h.heapEndVirt) :
    ∃ bs', Tiled (h.freeHeld b) (h.freeHeld b).heapEndVirt bs' ∧
      pageSize ∣ (h.freeHeld b).heapEndVirt ∧ (h.freeHeld b).heapEndVirt ≤ h.heapEndVirt ∧
      (h.freeHeld b).totalAllocatedBytes = h.totalAllocatedBytes ∧
      (h.freeHeld b).poisonDamage = h.poisonDamage ∧ inUse bs' = inUse pre + inUse post ∧
      (∀ x, usedMap kheapStartVirt bs' x =
        (usedMap kheapStartVirt pre x).or (usedMap (b + s) post x)) ∧
      ∀ x, (x = b ∨ ∃ a t, around pre (b + s) post a = some t ∧ (x = a ∨ a + 32 ≤ x ∧ x < a + t)) →
        x < (h.freeHeld b).heapEndVirt → InFree bs' x := by
  have hmin := hh.min
  obtain ⟨s₂, q₂, post', g₂, hhead, hs₂, hum₂, hin₂, hfm₂⟩ := hh.mergeNext
  obtain ⟨pre', b', s₃, heq, g₃, hlast, hbs, hbb, hum₃, hin₃, hfm₃⟩ := g₂.mergePrev
  obtain ⟨h₃, hh₃⟩ : ∃ h₃, h₃ = ((h.mergeNext b).mergePrev b).1 := ⟨_, rfl⟩
  have hvars : h₃.vars = h.vars := by rw [hh₃, Heap.mergePrev_vars, Heap.mergeNext_vars]
  rw [← hh₃] at heq g₃
  obtain ⟨h₄, hh₄⟩ : ∃ h₄, h₄ = (h₃.set b' s₃).updateNextPrevSize b' := ⟨_, rfl⟩
  have hvars₄ : h₄.vars = h.vars := by
    rw [hh₄, Heap.updateNextPrevSize_vars, Heap.set_vars, hvars]
  simp only [Heap.vars, Prod.mk.injEq] at hvars₄
  obtain ⟨v₁, v₂, v₃⟩ := hvars₄
  have g₄ : Held h₄ h₄.heapEndVirt pre' b' s₃ s₃ post' := by
    rw [v₁, hh₄]
    exact (g₃.set_size (by have := g₃.aligned; omega)).updateNext
  obtain ⟨s', g₅, hs', hp', w₁, w₂, w₃⟩ := g₄.trim (v₁ ▸ hp)
  have hfree : h.freeHeld b = (h₄.trim b').insertFree b' := by
    rw [Heap.freeHeld, heq]
    simp only [g₃.size, ← hh₄]
  have hvars₅ : (h.freeHeld b).vars = (h₄.trim b').vars := by rw [hfree, Heap.insertFree_vars]
  simp only [Heap.vars, Prod.mk.injEq] at hvars₅
  obtain ⟨u₁, u₂, u₃⟩ := hvars₅
  have hstart := g₅.start
  have hmin' := g₅.min
  have hends := g₅.ends
  have l₁ := g₅.before
  have l₂ : Layout (h₄.trim b').mem (kheapStartVirt + span pre' + s') s' post' :=
    hstart ▸ g₅.after
  refine ⟨pre' ++ ⟨s', none⟩ :: post', ?_, u₁ ▸ hp', u₁ ▸ v₁ ▸ w₁, u₂.trans (w₂.trans v₂),
    u₃.trans (w₃.trans v₃), ?_, fun x => ?_, fun x hx hlt => ?_⟩
  · rw [u₁, hfree]
    exact g₅.insert hlast hhead
  · simp [Blk.free, hin₂, hin₃]
  · rw [usedMap_free, ← hstart, hum₃, ← hum₂]
    rcases hs' with rfl | rfl
    · rw [hbs]
    · rfl
  · -- the merged block takes in what it has swallowed, as far as it is left
    have hself (hx : x = b' ∨ b' + 32 ≤ x ∧ x < b' + s₃) : InFree (pre' ++ ⟨s', none⟩ :: post') x := by
      refine inFree_self l₁ l₂ hmin' ?_
      rw [← hstart]
      rcases hs' with rfl | rfl
      · exact hx
      · simp only [span_nil] at hends
        omega
    have hkeep (a t : ℕ) (ha : around pre' (b' + s₃) post' a = some t)
        (hx : x = a ∨ a + 32 ≤ x ∧ x < a + t) : InFree (pre' ++ ⟨s', none⟩ :: post') x := by
      refine inFree_of_around l₁ l₂ hmin' ?_ hx
      rw [← hstart]
      rcases hs' with rfl | rfl
      · exact ha
      · exact ha
    rcases hx with rfl | ⟨a, t, ha, hx⟩
    · exact hself (by omega)
    · rcases around_cases ha with ha | ha
      · rcases hfm₃ a t ha with ha' | ⟨rfl, ht⟩
        · refine hkeep a t ?_ hx
          rw [around, ha']
          rfl
        · exact hself (by omega)
      · rcases hfm₂ a t ha with ha' | ⟨h1, h2⟩
        · refine hkeep a t ?_ hx
          have h3 := (freeMap_size g₂.after ha').2.1
          rw [around, freeMap, lookup_eq_none_of_ge l₁.sizes (by omega), Option.none_or, hbs]
          exact ha'
        · have h3 := (freeMap_size hh.after ha).1
          exact hself (by omega)

theorem HeapOk.kfree {bs : List Blk} {c : ℕ → ℕ} (ho : HeapOk h bs)
    (hu : usedMap kheapStartVirt bs b = some (s, c)) :
    ∃ bs', HeapOk (h.kfree (b + header)) bs' ∧
      (h.kfree (b + header)).heapEndVirt ≤ h.heapEndVirt ∧
      usedMap kheapStartVirt bs' = update (usedMap kheapStartVirt bs) b none ∧
      ∀ x, x = b ∨ InFree bs x → x < (h.kfree (b + header)).heapEndVirt → InFree bs' x := by
  obtain ⟨pre, ⟨s, co⟩, post, rfl, hco, hb⟩ := lookup_split ho.tiled.layout.sizes hu
  obtain ⟨c, rfl⟩ : ∃ d, co = some d := Option.isSome_iff_exists.1 (by
    cases co
    · cases hco
    · rfl)
  cases hco
  have ht := ho.tiled
  obtain ⟨l₁, lb, l₂⟩ := ht.middle
  have hmin : 32 ≤ s := lb.min
  have htotal := ho.total
  rw [← hb] at lb
  obtain ⟨h₁, hh₁⟩ : ∃ h₁ : Heap, h₁ = ({ h with
      totalAllocatedBytes := h.totalAllocatedBytes - (s - header) } : Heap).poison (b + minBlock)
        (s - minBlock) := ⟨_, rfl⟩
  have hkfree : h.kfree (b + header) = h₁.freeHeld b := by
    have hb0 : b + header - header = b := Nat.add_sub_cancel _ _
    have hfree : h.isFree b = false := lb.isFree_eq
    have hsize : h.sizeOf b = s := lb.sizeOf_eq
    rw [Heap.kfree, if_neg (by rw [header]; omega)]
    simp only [hb0, hfree, Bool.false_eq_true, if_false, hsize]
    have hsize' : ({ h with totalAllocatedBytes := h.totalAllocatedBytes - (s - header) } :
      Heap).sizeOf b = s := hsize
    rw [hsize', ← hh₁]
    rfl
  have hend : h₁.heapEndVirt = h.heapEndVirt := by rw [hh₁]; rfl
  have g₁ : Held h₁ h₁.heapEndVirt pre b s s post := by
    rw [hend, hh₁]
    exact Tiled.release { ht with } hb
  obtain ⟨bs', t₁, t₂, t₀, t₃, t₄, t₅, t₆, t₇⟩ := g₁.freeHeld (hend ▸ ho.pages)
  rw [hkfree]
  refine ⟨bs', ⟨t₁, t₂, ?_, ?_⟩, hend ▸ t₀, ?_, fun x hx => t₇ x ?_⟩
  · rw [t₃, t₅, hh₁]
    show h.totalAllocatedBytes - (s - header) = _
    rw [htotal]
    simp [Blk.free]
    omega
  · rw [t₄, hh₁]
    exact ho.damage
  · funext x
    rw [t₆, usedMap_used l₁ l₂ hmin, hb, update_idem]
    by_cases hx : x = kheapStartVirt + span pre
    · subst hx
      rw [update_self, usedMap, lookup_eq_none_of_ge l₁.sizes le_rfl,
        lookup_eq_none_of_lt l₂.sizes (by omega)]
      rfl
    · rw [update_of_ne hx]
  · rw [InFree, freeMap_used, ← hb] at hx
    exact hx

end

attribute [grind =] Heap.vars

end Bashket.Mm
