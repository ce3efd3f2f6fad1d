import Bashket.Mm.HeapAlloc

/-!
# `kheap_check` on a sound heap

The walk over the blocks and the walk over the lists find what they test for, and count the same free
blocks: the lists hold each of them once.
-/

namespace Bashket.Mm

open Links List

def freeStarts : ℕ → List Blk → List ℕ
  | _, [] => []
  | a, b :: bs => if b.free then a :: freeStarts (a + b.size) bs else freeStarts (a + b.size) bs

section

variable {h : Heap} {bs : List Blk} {a prev fuel : ℕ}

/-! ### The blocks -/

theorem Layout.length_le (hl : Layout h.mem a prev bs) : bs.length ≤ span bs := by
  induction bs generalizing a prev with
  | nil => exact le_rfl
  | cons b l ih =>
    have h1 := hl.1.min
    have h2 := ih hl.2
    rw [length_cons, span_cons]
    omega

theorem checkBlocks_eq {prevFree : Bool} {freeBlocks inUseBytes : ℕ}
    (hl : Layout h.mem a prev bs) (hne : bs ≠ []) (hap : Apart bs)
    (hpf : prevFree = true → HeadUsed bs) (hends : a + span bs = h.heapEndVirt)
    (hlast : h.lastBlock = lastStart a bs) (hf : bs.length ≤ fuel) :
    h.checkBlocks fuel a prev prevFree freeBlocks inUseBytes =
      some (freeBlocks + (freeStarts a bs).length, inUseBytes + inUse bs) := by
  induction bs generalizing a prev prevFree freeBlocks inUseBytes fuel with
  | nil => exact absurd rfl hne
  | cons b l ih =>
    obtain ⟨fuel, rfl⟩ : ∃ n, fuel = n + 1 := ⟨fuel - 1, by simp at hf; omega⟩
    obtain ⟨lb, l₂⟩ := hl
    have hmin := lb.min
    have hal := lb.aligned
    rw [span_cons] at hends
    have hok : h.sizeOf a ≥ minBlock ∧ h.sizeOf a % 16 = 0 ∧ h.mem (a + 8) = prev ∧
        a + h.sizeOf a ≤ h.heapEndVirt ∧ ¬(prevFree = true ∧ h.isFree a = true) ∧
        (h.isFree a = true → h.firstUnpoisoned (a + minBlock) (h.sizeOf a - minBlock) = none) ∧
        (a = h.lastBlock → a + h.sizeOf a = h.heapEndVirt) := by
      rw [lb.sizeOf_eq, lb.isFree_eq]
      refine ⟨hmin, by omega, lb.prevSize, by omega, fun h0 => ?_, fun h0 => ?_, fun h0 => ?_⟩
      · rw [hpf h0.1 b rfl] at h0
        exact absurd h0.2 (by simp)
      · refine firstUnpoisoned_eq_none fun y h1 h2 => ?_
        simp only [minBlock] at h1 h2
        exact lb.poisoned (by simpa [Blk.free] using h0) y h1 (by omega)
      · cases l with
        | nil => simpa using hends
        | cons c l =>
          have := le_lastStart (a + b.size) (c :: l)
          rw [lastStart] at hlast
          omega
    rw [Heap.checkBlocks]
    simp only
    rw [if_pos hok, lb.isFree_eq, lb.sizeOf_eq]
    cases l with
    | nil =>
      rw [Heap.nextBlock, if_pos (show a = h.lastBlock from hlast.symm)]
      cases hb : b.free <;> simp [freeStarts, hb]
    | cons c l =>
      have hle := le_lastStart (a + b.size) (c :: l)
      rw [lastStart] at hlast
      rw [Heap.nextBlock, if_neg (by omega), lb.sizeOf_eq]
      simp only
      rw [ih l₂ (by simp) (isChain_cons.1 hap).2 (fun h0 d hd => ?_) (by omega) hlast
        (by simp at hf ⊢; omega)]
      · cases hb : b.free <;> simp [freeStarts, hb] <;> omega
      · have := (isChain_cons.1 hap).1 d hd
        exact Bool.eq_false_iff.2 fun h1 => this ⟨h0, h1⟩

/-! ### The lists -/

theorem checkList_eq {k freeBlocks before head listed : ℕ} {l : List ℕ}
    (hl : Linked 0 (fun x => h.mem (x + 16)) (fun x => h.mem (x + 24)) before head l)
    (hx : ∀ x ∈ l, h.isFree x = true ∧ classOf (h.sizeOf x) = k) (hf : l.length < fuel)
    (hn : listed + l.length ≤ freeBlocks) :
    h.checkList k freeBlocks fuel head before listed = some (listed + l.length) := by
  induction l generalizing before head listed fuel with
  | nil =>
    obtain ⟨fuel, rfl⟩ : ∃ n, fuel = n + 1 := ⟨fuel - 1, by simp at hf; omega⟩
    rw [Heap.checkList, if_pos (show head = 0 from hl)]
    rfl
  | cons b l ih =>
    obtain ⟨fuel, rfl⟩ : ∃ n, fuel = n + 1 := ⟨fuel - 1, by simp at hf; omega⟩
    obtain ⟨rfl, hb, hp, ht⟩ := hl
    obtain ⟨h1, h2⟩ := hx head mem_cons_self
    rw [length_cons] at hn hf
    rw [Heap.checkList, if_neg hb, if_pos ⟨h1, h2, hp, by omega⟩,
      ih ht (fun x hx' => hx x (mem_cons_of_mem _ hx')) (by omega) (by omega),
      length_cons]
    exact congrArg some (by omega)

theorem checkLists_eq {fl : ℕ → List ℕ} {freeBlocks listed : ℕ} (ks : List ℕ)
    (hfl : ∀ k ∈ ks, ∀ n, n + (fl k).length ≤ freeBlocks →
      h.checkList k freeBlocks fuel (h.freeLists k) 0 n = some (n + (fl k).length))
    (hn : listed + (ks.flatMap fl).length ≤ freeBlocks) :
    ks.foldlM (fun listed k => h.checkList k freeBlocks fuel (h.freeLists k) 0 listed) listed =
      some (listed + (ks.flatMap fl).length) := by
  induction ks generalizing listed with
  | nil => rfl
  | cons k ks ih =>
    rw [flatMap_cons, length_append] at hn
    rw [foldlM_cons, hfl k mem_cons_self listed (by omega), Option.bind_eq_bind,
      Option.bind_some, ih (fun j hj => hfl j (mem_cons_of_mem _ hj)) (by omega),
      flatMap_cons, length_append, Nat.add_assoc]

theorem mem_freeStarts (hl : Layout h.mem a prev bs) {x : ℕ} :
    x ∈ freeStarts a bs ↔ ∃ s, freeMap a bs x = some s := by
  induction bs generalizing a prev with
  | nil => simp [freeStarts, freeMap, lookup]
  | cons b l ih =>
    have hmin := hl.1.min
    have hnone : lookup (fun b : Blk => if b.free then some b.size else none) (a + b.size) l a = none :=
      lookup_eq_none_of_lt hl.2.sizes (by omega)
    rw [freeMap, lookup, freeStarts]
    by_cases hx : x = a
    · subst hx
      cases hb : b.free
      · simp only [Bool.false_eq_true, if_false, ite_self, Option.none_or]
        exact ih hl.2
      · simp
    · cases hb : b.free
      · simp only [Bool.false_eq_true, if_false, ite_self, Option.none_or]
        exact ih hl.2
      · simp only [if_true, if_false, Option.none_or, mem_cons, hx, false_or]
        exact ih hl.2

theorem nodup_freeStarts (hl : Layout h.mem a prev bs) : (freeStarts a bs).Nodup := by
  induction bs generalizing a prev with
  | nil => exact nodup_nil
  | cons b l ih =>
    have hmin := hl.1.min
    rw [freeStarts]
    split_ifs
    · refine nodup_cons.2 ⟨fun h0 => ?_, ih hl.2⟩
      obtain ⟨s, hs⟩ := (mem_freeStarts hl.2).1 h0
      have := freeMap_size hl.2 hs
      omega
    · exact ih hl.2

theorem HeapOk.kheapCheck (ho : HeapOk h bs) : h.kheapCheck = true := by
  have ht := ho.tiled
  have hl := ht.layout
  have hends := ht.ends
  have hpos := start_pos
  have hlen := hl.length_le
  obtain ⟨fl, hfl⟩ := ht.lists
  have hnode (k x : ℕ) (hx : x ∈ fl k) : ∃ s, freeMap kheapStartVirt bs x = some s ∧ classOf s = k ∧
      h.isFree x = true ∧ h.sizeOf x = s := by
    obtain ⟨s, hs, hk⟩ := ((hfl k).2.2 x).1 hx
    obtain ⟨pre, post, rfl, rfl, h0⟩ := ht.free_split hs
    exact ⟨s, hs, hk, ht.middle.2.1.isFree_eq, h0⟩
  -- the lists together hold each free block once
  have hperm : ((List.range classes).flatMap fl).Perm (freeStarts kheapStartVirt bs) := by
    refine (perm_ext_iff_of_nodup ?_ (nodup_freeStarts hl)).2 fun x => ?_
    · refine nodup_flatMap.2 ⟨fun k _ => (hfl k).2.1, ?_⟩
      refine nodup_range.imp fun {j k} hjk x hj hk => hjk ?_
      obtain ⟨s, hs, h1, -⟩ := hnode j x hj
      obtain ⟨t, ht, h2, -⟩ := hnode k x hk
      rw [hs] at ht
      cases ht
      exact h1.symm.trans h2
    · rw [mem_flatMap, mem_freeStarts hl]
      constructor
      · rintro ⟨k, -, hx⟩
        obtain ⟨s, hs, -⟩ := hnode k x hx
        exact ⟨s, hs⟩
      · rintro ⟨s, hs⟩
        exact ⟨classOf s, mem_range.2 (classOf_lt s), ((hfl _).2.2 x).2 ⟨s, hs, rfl⟩⟩
  have hblocks : h.checkBlocks h.heapEndVirt kheapStartVirt 0 false 0 0 =
      some (0 + (freeStarts kheapStartVirt bs).length, 0 + inUse bs) :=
    checkBlocks_eq hl ht.ne ht.apart (fun h0 => (nomatch h0)) hends ht.last (by omega)
  have hlist (k n : ℕ) (hn : n + (fl k).length ≤ (freeStarts kheapStartVirt bs).length) :
      h.checkList k (freeStarts kheapStartVirt bs).length h.heapEndVirt (h.freeLists k) 0 n =
        some (n + (fl k).length) := by
    refine checkList_eq (hfl k).1 (fun x hx => ?_) ?_ hn
    · obtain ⟨s, -, h1, h2, h3⟩ := hnode k x hx
      exact ⟨h2, by rw [h3, h1]⟩
    · refine nodup_length_lt (hfl k).2.1 (fun h0 => (hfl k).1.ne_null h0 rfl) (fun x hx => ?_) (by omega)
      obtain ⟨s, hs, -⟩ := hnode k x hx
      have := freeMap_size hl hs
      omega
  rw [Heap.kheapCheck, ht.first, if_neg hpos.ne', hblocks]
  simp only [Nat.zero_add]
  rw [checkLists_eq (List.range classes) (fun k _ => hlist k)
    (by rw [hperm.length_eq, Nat.zero_add]), hperm.length_eq]
  simp [ho.total]

end

end Bashket.Mm
