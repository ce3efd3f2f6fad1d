import Bashket.Mm.HeapFree

/-!
# `kmalloc`

`kmalloc` always returns; it hands out memory that was free, at least as much as asked for and still
poisoned, and leaves the blocks in use as they are.  If it fails, the blocks in use are the same.
-/

namespace Bashket.Mm

open Links List
open Function (update update_of_ne update_self)

/-! ### Searching the lists -/

section

variable {h : Heap}

/-- The loop over one list ends, with the first block that is large enough. -/
theorem searchList_eq {need before head fuel : ℕ} {l : List ℕ}
    (hl : Linked 0 (fun x => h.mem (x + 16)) (fun x => h.mem (x + 24)) before head l)
    (hf : l.length < fuel) :
    h.searchList need fuel head = some (l.find? fun b => h.sizeOf b ≥ need) := by
  induction l generalizing before head fuel with
  | nil =>
    obtain ⟨fuel, rfl⟩ : ∃ n, fuel = n + 1 := ⟨fuel - 1, by omega⟩
    rw [Heap.searchList, if_pos (show head = 0 from hl)]
    rfl
  | cons b l ih =>
    obtain ⟨fuel, rfl⟩ : ∃ n, fuel = n + 1 := ⟨fuel - 1, by omega⟩
    obtain ⟨rfl, hb, -, ht⟩ := hl
    rw [Heap.searchList, if_neg hb]
    by_cases hs : h.sizeOf head ≥ need
    · rw [if_pos hs, find?_cons_of_pos (by simpa using hs)]
    · rw [if_neg hs, find?_cons_of_neg (by simpa using hs)]
      exact ih ht (by simp at hf; omega)

theorem log2_mono {m n : ℕ} (h : m ≤ n) : Nat.log2 m ≤ Nat.log2 n := by
  rw [Nat.log2_eq_log_two, Nat.log2_eq_log_two]
  exact Nat.log_mono_right h

theorem classOf_mono {m n : ℕ} (h : m ≤ n) : classOf m ≤ classOf n := by
  have := log2_mono h
  unfold classOf
  split_ifs <;> omega

theorem classOf_lt (s : ℕ) : classOf s < classes := by
  unfold classOf
  split_ifs with h0
  · exact h0
  · decide

theorem nodup_length_lt {l : List ℕ} {e : ℕ} (hnd : l.Nodup) (h0 : 0 ∉ l) (he : ∀ x ∈ l, x < e)
    (hpos : 0 < e) : l.length < e := by
  have hsub : 0 :: l ⊆ List.range e := by
    intro x hx
    rw [mem_range]
    rcases mem_cons.1 hx with rfl | hx
    · exact hpos
    · exact he x hx
  have := ((nodup_cons.2 ⟨h0, hnd⟩).subperm hsub).length_le
  rwa [length_range] at this

end

section

variable {h : Heap} {bs pre post : List Blk} {b e s need : ℕ}

theorem Tiled.free_split (ht : Tiled h e bs) (hb : freeMap kheapStartVirt bs b = some s) :
    ∃ pre post, bs = pre ++ ⟨s, none⟩ :: post ∧ b = kheapStartVirt + span pre ∧ h.sizeOf b = s := by
  obtain ⟨pre, ⟨t, _ | c⟩, post, rfl, hf, rfl⟩ := lookup_split ht.layout.sizes hb
  · cases hf
    exact ⟨pre, post, rfl, rfl, ht.middle.2.1.sizeOf_eq⟩
  · cases hf

theorem Tiled.freeMap_of_mem (ht : Tiled h e bs) (hs : ⟨s, none⟩ ∈ bs) :
    ∃ x, freeMap kheapStartVirt bs x = some s := by
  obtain ⟨pre, post, rfl⟩ := append_of_mem hs
  obtain ⟨h₁, hb, h₂⟩ := ht.middle
  exact ⟨_, by rw [freeMap_free h₁ h₂ hb.min, update_self]⟩

/-- `take_free` ends; it gives a free block that is large enough, off its list, if there is one. -/
theorem Tiled.takeFree (ht : Tiled h h.heapEndVirt bs) (need : ℕ) :
    h.takeFree need = some (h, none) ∧ (∀ s, ⟨s, none⟩ ∈ bs → s < need) ∨
      ∃ pre s post, bs = pre ++ ⟨s, none⟩ :: post ∧ need ≤ s ∧
        h.takeFree need = some (h.unlinkFree (kheapStartVirt + span pre),
          some (kheapStartVirt + span pre)) := by
  obtain ⟨fl, hfl⟩ := ht.lists
  have hends := ht.ends
  have hsize (x k : ℕ) (hx : x ∈ fl k) : ∃ s, freeMap kheapStartVirt bs x = some s ∧
      classOf s = k ∧ h.sizeOf x = s := by
    obtain ⟨s, hs, hk⟩ := ((hfl k).2.2 x).1 hx
    obtain ⟨-, -, -, -, h0⟩ := ht.free_split hs
    exact ⟨s, hs, hk, h0⟩
  obtain ⟨hl, hnd, -⟩ := hfl (classOf need)
  have hlen : (fl (classOf need)).length < h.heapEndVirt := by
    refine nodup_length_lt hnd (fun h0 => hl.ne_null h0 rfl) (fun x hx => ?_)
      (by have := start_pos; omega)
    obtain ⟨s, hs, -, -⟩ := hsize x _ hx
    have := freeMap_size ht.layout hs
    omega
  rw [Heap.takeFree]
  simp only [searchList_eq hl hlen, Option.map_some]
  cases hfind : (fl (classOf need)).find? fun b => h.sizeOf b ≥ need with
  | some b =>
    obtain ⟨s, hs, -, h0⟩ := hsize b _ (mem_of_find?_eq_some hfind)
    obtain ⟨pre, post, hbs, hb, -⟩ := ht.free_split hs
    have hge := find?_some hfind
    rw [h0] at hge
    exact .inr ⟨pre, s, post, hbs, by simpa using hge, by rw [hb]⟩
  | none =>
    cases hcl : (List.range' (classOf need + 1) (classes - (classOf need + 1))).find?
        fun j => h.freeLists j ≠ 0 with
    | none =>
      -- a block of the class of `need` was looked at, and one of a higher class would be on its list
      refine .inl ⟨rfl, fun s hs => ?_⟩
      obtain ⟨x, hx⟩ := ht.freeMap_of_mem hs
      have hmem : x ∈ fl (classOf s) := ((hfl _).2.2 x).2 ⟨s, hx, rfl⟩
      obtain ⟨-, -, -, -, h0⟩ := ht.free_split hx
      by_contra hge
      rcases (classOf_mono (Nat.not_lt.1 hge)).eq_or_lt with hk | hk
      · have := find?_eq_none.1 hfind x (hk ▸ hmem)
        rw [h0, decide_eq_true_eq] at this
        exact this (Nat.not_lt.1 hge)
      · have hlt := classOf_lt s
        have := find?_eq_none.1 hcl (classOf s) (mem_range'_1.2 ⟨hk, by omega⟩)
        rw [decide_eq_true_eq, not_not, (hfl _).1.head_eq_null] at this
        rw [this] at hmem
        cases hmem
    | some j =>
      have hne : h.freeLists j ≠ 0 := by simpa using find?_some hcl
      have hlt : classOf need < j := by
        have := mem_of_find?_eq_some hcl
        rw [mem_range'_1] at this
        omega
      obtain ⟨gl, -, -⟩ := hfl j
      obtain ⟨x, l, hx⟩ := exists_cons_of_ne_nil fun h0 => hne (gl.head_eq_null.2 h0)
      have hhead : h.freeLists j = x := by
        rw [hx] at gl
        exact gl.1
      obtain ⟨s, hs, hk, -⟩ := hsize x j (by rw [hx]; exact mem_cons_self)
      obtain ⟨pre, post, hbs, hb, -⟩ := ht.free_split hs
      have hge : need ≤ s := by
        by_contra h0
        have := classOf_mono (show s ≤ need by omega)
        omega
      exact .inr ⟨pre, s, post, hbs, hge, by simp only [hhead, hb]⟩

/-! ### Handing out -/

theorem Held.cut (hh : Held h e pre b s s post) (hn : need + 32 ≤ s) (hmin : 32 ≤ need)
    (hal : 16 ∣ need) :
    Held { ((h.set (b + need) (s - need)).set (b + need + 8) need).set b need with
        lastBlock := lastStart (b + need) (⟨s - need, none⟩ :: post) } e
      (pre ++ [⟨need, some fun y =>
        (((h.set (b + need) (s - need)).set (b + need + 8) need).set b need).mem (b + y)⟩])
      (b + need) (s - need) s post := by
  have hstart := hh.start
  have hends := hh.ends
  have hals := hh.aligned
  obtain ⟨m, hmdef⟩ : ∃ m, m = (((h.set (b + need) (s - need)).set (b + need + 8) need).set b
    need).mem := ⟨_, rfl⟩
  have hm (y : ℕ) (h1 : y ≠ b) (h2 : y ≠ b + need) (h3 : y ≠ b + need + 8) : m y = h.mem y := by
    simp [hmdef, Heap.set, h1, h2, h3]
  have hmb : m b = need := by simp [hmdef, Heap.set]
  have hmr : m (b + need) = s - need := by
    simp [hmdef, Heap.set, update_of_ne (show b + need ≠ b by omega)]
  have hmr8 : m (b + need + 8) = need := by
    simp [hmdef, Heap.set, update_of_ne (show b + need + 8 ≠ b by omega)]
  rw [← hmdef]
  obtain ⟨k₁, k₂⟩ := layouts_congr hh.before hh.after (by omega) fun y hy _ =>
    hm y (by omega) (by omega) (by omega)
  have hsum : b + need + (s - need) = b + s := by omega
  refine ⟨layout_append.2 ⟨?_, ?_, trivial⟩, ?_, ?_, ?_, by omega, by omega, fun y h1 h2 => ?_, ?_,
    ?_, hh.apartAfter, by omega, hh.first, rfl, ?_⟩
  · exact hmdef ▸ k₁
  · rw [← hstart]
    refine ⟨hmdef ▸ hmb, hmdef ▸ (hm _ (by omega) (by omega) (by omega)).trans hh.prevSize, hmin, hal,
      fun h0 => (nomatch h0), fun c hc y _ _ => ?_⟩
    cases hc
    rw [hmdef]
  · simp only [span_append, span_cons, span_nil]
    omega
  · rw [lastSize_append]
    exact hmdef ▸ hmr8
  · show (((h.set (b + need) (s - need)).set (b + need + 8) need).set b need).mem (b + need) / 2 * 2 =
      s - need
    rw [← hmdef]
    omega
  · rw [← hmdef, hm y (by omega) (by omega) (by omega)]
    exact hh.poisoned y (by omega) (by omega)
  · rw [hsum]
    exact hmdef ▸ k₂
  · exact apart_append hh.apartBefore (isChain_singleton _) (.inr fun c hc => by cases hc; rfl)
  · have : around (pre ++ [⟨need, some fun y => m (b + y)⟩]) (b + need + (s - need)) post =
        around pre (b + s) post := by
      funext x
      rw [hsum]
      simp [around, freeMap, lookup_append, lookup, Blk.free]
    rw [this]
    refine hh.lists.congr fun y hy => ?_
    have h0 : y < b ∨ b + s ≤ y := by
      by_contra h0
      exact not_linkWord_around hh.before hh.after (by omega) (by omega) hy
    exact hmdef ▸ hm y (by omega) (by omega) (by omega)

theorem Heap.split_vars (h : Heap) (b need : ℕ) : (h.split b need).vars = h.vars := by
  unfold Heap.split
  simp only
  split_ifs
  · rfl
  · rw [Heap.insertFree_vars]
    rfl
  · simp

/-- `split` of a block that is marked as in use: the block, large enough, and perhaps a free rest. -/
theorem Held.split (hh : Held h e pre b s s post) (hb : h.mem b = s) (hu : HeadUsed post)
    (hmin : 32 ≤ need) (hal : 16 ∣ need) (hns : need ≤ s) :
    ∃ t c rest, Tiled (h.split b need) e (pre ++ ⟨t, some c⟩ :: rest) ∧ need ≤ t ∧
      (∀ y, 32 ≤ y → y < t → c y = poisonWord) ∧ inUse rest = inUse post ∧
      usedMap (b + t) rest = usedMap (b + s) post := by
  have hsize := hh.size
  by_cases hn : s < need + minBlock
  · refine ⟨s, fun y => h.mem (b + y), post, ?_, hns,
      fun y h1 h2 => hh.poisoned _ (by omega) (by omega), rfl, rfl⟩
    rw [Heap.split, hsize, if_pos hn]
    exact hh.use hb
  · rw [minBlock] at hn
    have hcut := hh.cut (by omega) hmin hal
    obtain ⟨h₁, hh₁⟩ : ∃ h₁, h₁ = ((h.set (b + need) (s - need)).set (b + need + 8) need).set b
      need := ⟨_, rfl⟩
    rw [← hh₁] at hcut
    have hlast₁ : h₁.lastBlock = h.lastBlock := by rw [hh₁]; rfl
    -- the rest is held, whether it is the last block or not
    have hrest : Held (if h₁.lastBlock = b then { h₁ with lastBlock := b + need }
        else h₁.updateNextPrevSize (b + need)) e
        (pre ++ [⟨need, some fun y => h₁.mem (b + y)⟩]) (b + need) (s - need) (s - need) post := by
      have hlast := hh.last
      cases post with
      | nil =>
        rw [if_pos (show h₁.lastBlock = b from hlast₁.trans hlast)]
        exact { hcut with after := trivial }
      | cons c post =>
        have hle := le_lastStart (b + s) (c :: post)
        rw [lastStart] at hlast
        rw [if_neg (by rw [hlast₁, hlast]; simp only; omega)]
        have hsame : { h₁ with
            lastBlock := lastStart (b + need) (⟨s - need, none⟩ :: c :: post) } = h₁ := by
          have : lastStart (b + need) (⟨s - need, none⟩ :: c :: post) = h₁.lastBlock := by
            rw [hlast₁, hlast, lastStart]
            rw [Nat.add_assoc, Nat.add_sub_cancel' hns]
          rw [this]
        rw [hsame] at hcut
        exact hcut.updateNext
    have htiled := hrest.insert (fun c hc => by
      rw [getLast?_concat] at hc
      cases hc
      rfl) hu
    have hmem (y : ℕ) (h1 : 32 ≤ y) (h2 : y < need) : h₁.mem (b + y) = poisonWord := by
      rw [← hh.poisoned (b + y) (by omega) (by omega), hh₁]
      simp only [Heap.set]
      rw [update_of_ne (by omega), update_of_ne (by omega),
        update_of_ne (by omega)]
    refine ⟨need, fun y => h₁.mem (b + y), ⟨s - need, none⟩ :: post, ?_, le_rfl, hmem,
      by simp [Blk.free], ?_⟩
    · rw [Heap.split, hsize, if_neg (by rw [minBlock]; omega)]
      simp only [← hh₁]
      rw [append_assoc] at htiled
      exact htiled
    · funext x
      simp only [usedMap, lookup, Option.map_none, ite_self, Option.none_or]
      rw [Nat.add_assoc, Nat.add_sub_cancel' hns]

theorem firstUnpoisoned_eq_none {a n : ℕ} (hp : ∀ y, a ≤ y → y < a + n → h.mem y = poisonWord) :
    h.firstUnpoisoned a n = none := by
  rw [Heap.firstUnpoisoned, find?_eq_none]
  intro x hx
  obtain ⟨i, hi, rfl⟩ := mem_map.1 hx
  rw [mem_range] at hi
  simp [hp (a + 8 * i) (by omega) (by omega)]

theorem Held.handOut (hh : Held h h.heapEndVirt pre b s s post) (hu : HeadUsed post)
    (hmin : 32 ≤ need) (hal : 16 ∣ need) (hns : need ≤ s) (hp : pageSize ∣ h.heapEndVirt)
    (htotal : h.totalAllocatedBytes = inUse pre + inUse post) (hd : h.poisonDamage = 0) :
    (h.handOut b need).2 = b + header ∧
      ∃ t c bs', HeapOk (h.handOut b need).1 bs' ∧ need ≤ t ∧
        usedMap kheapStartVirt bs' = update (fun x => (usedMap kheapStartVirt pre x).or
          (usedMap (b + s) post x)) b (some (t, c)) := by
  have hs := hh.size
  have hstart := hh.start
  have heven : s / 2 * 2 = s := by have := hh.aligned; omega
  obtain ⟨t, c, rest, g, hnt, hpo, hin, hum⟩ :=
    (hh.set_size heven).split (update_self _ _ _) hu hmin hal hns
  obtain ⟨h₁, hh₁⟩ : ∃ h₁, h₁ = (h.set b s).split b need := ⟨_, rfl⟩
  have hvars : h₁.vars = h.vars := by rw [hh₁, Heap.split_vars, Heap.set_vars]
  simp only [Heap.vars, Prod.mk.injEq] at hvars
  obtain ⟨v₁, v₂, v₃⟩ := hvars
  rw [← hh₁] at g
  obtain ⟨l₁, lb, l₂⟩ := g.middle
  rw [← hstart] at lb
  have hclean : h₁.firstUnpoisoned (b + minBlock) (h₁.sizeOf b - minBlock) = none := by
    refine firstUnpoisoned_eq_none fun y h1 h2 => ?_
    rw [lb.sizeOf_eq] at h2
    simp only [minBlock] at h1 h2
    have := lb.payload c rfl (y - b) (by omega) (by simp only; omega)
    rw [Nat.add_sub_cancel' (by omega)] at this
    exact this.trans (hpo _ (by omega) (by omega))
  have hout : h.handOut b need = ({ h₁ with
      totalAllocatedBytes := h₁.totalAllocatedBytes + (t - header) }, b + header) := by
    rw [Heap.handOut, hs, ← hh₁, hclean]
    simp only [lb.sizeOf_eq]
  rw [hout]
  refine ⟨rfl, t, c, pre ++ ⟨t, some c⟩ :: rest, ⟨?_, ?_, ?_, v₃.trans hd⟩, hnt, ?_⟩
  · rw [v₁]
    exact { g with }
  · rw [v₁]
    exact hp
  · show h₁.totalAllocatedBytes + (t - header) = _
    simp only [inUse_append, inUse_cons, Blk.free, Option.isNone_some, Bool.false_eq_true,
      if_false]
    omega
  · rw [usedMap_used l₁ l₂ (hmin.trans hnt), ← hstart, hum]

/-! ### Growing -/

theorem Tiled.beyond (ht : Tiled h e bs) {m : ℕ → ℕ} (hm : ∀ y, y < e → m y = h.mem y) (e' : ℕ) :
    Tiled { h with mem := m, heapEndVirt := e' } e bs := by
  have hends := ht.ends
  refine { ht with
    layout := ht.layout.congr fun y _ h2 _ => hm y (by omega)
    lists := ht.lists.congr fun y hy => hm y ?_ }
  have := hy.range ht.layout
  omega

theorem Tiled.last_split (ht : Tiled h e bs) :
    ∃ pre c, bs = pre ++ [c] ∧ h.lastBlock = kheapStartVirt + span pre ∧
      h.isFree h.lastBlock = c.free ∧ h.sizeOf h.lastBlock = c.size := by
  rcases eq_nil_or_concat' bs with h0 | ⟨pre, c, rfl⟩
  · exact absurd h0 ht.ne
  · have hlast : h.lastBlock = kheapStartVirt + span pre := by
      rw [ht.last, lastStart_append]
      rfl
    have lc := (layout_append.1 ht.layout).2.1
    rw [← hlast] at lc
    exact ⟨pre, c, rfl, hlast, lc.isFree_eq, lc.sizeOf_eq⟩

theorem Held.extend {n : ℕ} (hh : Held h e pre b s s []) (hn : 16 ∣ n)
    (hp : ∀ y, e ≤ y → y < e + n → h.mem y = poisonWord) :
    Held (h.set b (s + n)) (e + n) pre b (s + n) (s + n) [] := by
  have hmin := hh.min
  have hstart := hh.start
  have hends := hh.ends
  have hal := hh.aligned
  rw [span_nil] at hends
  have hm (y : ℕ) (hy : y ≠ b) : (h.set b (s + n)).mem y = h.mem y := update_of_ne hy _ _
  refine ⟨hh.before.congr fun y _ h2 _ => hm y (by omega), hstart, (hm _ (by omega)).trans hh.prevSize,
    ?_, by omega, by omega, fun y h1 h2 => ?_, trivial, hh.apartBefore, hh.apartAfter,
    by rw [span_nil]; omega, hh.first, hh.last, ?_⟩
  · show update h.mem b (s + n) b / 2 * 2 = s + n
    rw [update_self]
    omega
  · rw [hm y (by omega)]
    by_cases hy : y < b + s
    · exact hh.poisoned y h1 hy
    · exact hp y (by omega) (by omega)
  · refine Lists.congr (show Lists h.mem h.freeLists (around pre (b + s) []) from hh.lists)
      fun y hy => hm y ?_
    rintro rfl
    exact not_linkWord_around hh.before hh.after hstart.ge (by omega) hy

theorem Tiled.fresh {n : ℕ} (ht : Tiled h e bs) (hn : 16 ∣ n) (hmin : 32 ≤ n)
    (hp : ∀ y, e ≤ y → y < e + n → h.mem y = poisonWord) :
    Held { (h.set e n).set (e + 8) (lastSize 0 bs) with lastBlock := e } (e + n) bs e n n [] := by
  have hends := ht.ends
  have hm (y : ℕ) (h1 : y ≠ e) (h2 : y ≠ e + 8) :
      ((h.set e n).set (e + 8) (lastSize 0 bs)).mem y = h.mem y := by
    simp [Heap.set, h1, h2]
  refine ⟨ht.layout.congr fun y _ h2 _ => hm y (by omega) (by omega), hends.symm,
    update_self _ _ _, ?_, hmin, hn, fun y h1 h2 => ?_, trivial, ht.apart, isChain_nil,
    rfl, ht.first, rfl, ?_⟩
  · show update (update h.mem e n) (e + 8) (lastSize 0 bs) e / 2 * 2 = n
    rw [update_of_ne (by omega), update_self]
    omega
  · rw [hm y (by omega) (by omega)]
    exact hp y (by omega) (by omega)
  · have : around bs (e + n) [] = freeMap kheapStartVirt bs := by
      funext x
      exact Option.or_none
    rw [this]
    refine ht.lists.congr fun y hy => ?_
    have := hy.range ht.layout
    exact hm y (by omega) (by omega)

theorem HeapOk.growFor {frames : ℕ} {h' : Heap} (ho : HeapOk h bs)
    (hg : h.growFor need frames = some h') :
    ∃ bs', HeapOk h' bs' ∧ usedMap kheapStartVirt bs' = usedMap kheapStartVirt bs ∧
      ∃ s, ⟨s, none⟩ ∈ bs' ∧ need ≤ s := by
  have ht := ho.tiled
  obtain ⟨pre, c, rfl, -, hfree, hsize⟩ := ht.last_split
  obtain ⟨n, hn, hpn, hneed, hg⟩ : ∃ n, 32 ≤ n ∧ pageSize ∣ n ∧
      need ≤ (if c.free then c.size else 0) + n ∧
      (let h₁ := ({ h with heapEndVirt := h.heapEndVirt + n } : Heap).poison h.heapEndVirt n
       (if h₁.isFree h₁.lastBlock then
          ((h₁.unlinkFree h₁.lastBlock).set h₁.lastBlock
            ((h₁.unlinkFree h₁.lastBlock).sizeOf h₁.lastBlock + n)).insertFree h₁.lastBlock
        else { (h₁.set h.heapEndVirt n).set (h.heapEndVirt + 8) (h₁.sizeOf h₁.lastBlock) with
          lastBlock := h.heapEndVirt }.insertFree h.heapEndVirt) = h') := by
    rw [Heap.growFor] at hg
    simp only [hfree, hsize, Heap.expandHeap] at hg
    obtain ⟨there, hthere⟩ : ∃ t, t = if c.free then c.size else 0 := ⟨_, rfl⟩
    obtain ⟨more, hmore⟩ : ∃ m, m = if need - there < growMin then growMin else need - there :=
      ⟨_, rfl⟩
    have hge : growMin ≤ more ∧ need ≤ there + more := by
      rw [hmore]
      split_ifs <;> omega
    simp only [← hthere, ← hmore] at hg ⊢
    by_cases hf : (more + pageSize - 1) / pageSize ≤ frames
    · rw [if_pos hf] at hg
      refine ⟨(more + pageSize - 1) / pageSize * pageSize, ?_, Nat.dvd_mul_left _ _, ?_, ?_⟩
      · simp only [growMin, pageSize] at hge ⊢
        omega
      · simp only [pageSize]
        omega
      · simp only [Nat.add_sub_cancel_left] at hg
        split_ifs at hg ⊢ with h0
        · exact Option.some.inj hg
        · exact Option.some.inj hg
    · rw [if_neg hf] at hg
      cases hg
  have hn16 : 16 ∣ n := Dvd.dvd.trans (by decide) hpn
  obtain ⟨h₁, hh₁⟩ : ∃ h₁, h₁ =
    ({ h with heapEndVirt := h.heapEndVirt + n } : Heap).poison h.heapEndVirt n := ⟨_, rfl⟩
  have g₁ : Tiled h₁ h.heapEndVirt (pre ++ [c]) := by
    rw [hh₁]
    exact ht.beyond (fun y hy => if_neg (by omega)) _
  have hp₁ (y : ℕ) (h1 : h.heapEndVirt ≤ y) (h2 : y < h.heapEndVirt + n) : h₁.mem y = poisonWord := by
    rw [hh₁]
    exact if_pos ⟨h1, h2⟩
  have hvars : h₁.vars = (h.heapEndVirt + n, h.totalAllocatedBytes, h.poisonDamage) := by
    rw [hh₁]
    rfl
  have hpages : pageSize ∣ h.heapEndVirt + n := Nat.dvd_add ho.pages hpn
  simp only [← hh₁] at hg
  obtain ⟨pre', c', heq, hlast, hfree, hsize⟩ := g₁.last_split
  obtain ⟨rfl, hc⟩ := append_inj' heq rfl
  obtain rfl := singleton_injective hc
  rw [hfree] at hg
  have hok {bs' : List Blk} (hti : Tiled h' (h.heapEndVirt + n) bs') (hv : h'.vars = h₁.vars)
      (hin : inUse bs' = inUse (pre ++ [c])) : HeapOk h' bs' := by
    rw [hvars] at hv
    simp only [Heap.vars, Prod.mk.injEq] at hv
    obtain ⟨v₁, v₂, v₃⟩ := hv
    exact ⟨v₁ ▸ hti, v₁ ▸ hpages, v₂.trans (ho.total.trans hin.symm), v₃.trans ho.damage⟩
  obtain ⟨s, _ | co⟩ := c
  · -- the last block is free and grows
    rw [if_pos (show Blk.free ⟨s, none⟩ = true from rfl), hlast] at hg
    obtain ⟨g₂, hlu, hhu, hm⟩ := g₁.unlink rfl
    have g₃ := g₂.extend hn16 fun y h1 h2 => (hm y h1).trans (hp₁ y h1 h2)
    rw [g₂.size] at hg
    refine ⟨pre ++ [⟨s + n, none⟩], hok ?_ ?_ ?_, ?_, s + n, by simp, hneed⟩
    · rw [← hg]
      exact g₃.insert hlu hhu
    · rw [← hg]
      simp
    · simp [Blk.free]
    · funext x
      rw [usedMap_free, usedMap_free]
      rfl
  · -- the last block is in use: the new pages are a block
    rw [if_neg (by simp [Blk.free])] at hg
    have g₃ := g₁.fresh hn16 hn hp₁
    rw [lastSize_append] at g₃
    rw [hsize] at hg
    refine ⟨(pre ++ [⟨s, some co⟩]) ++ [⟨n, none⟩], hok ?_ ?_ ?_, ?_, n, by simp, by
      simpa [Blk.free] using hneed⟩
    · rw [← hg]
      refine g₃.insert (fun d hd => ?_) fun d hd => (nomatch hd)
      rw [getLast?_concat] at hd
      cases hd
      rfl
    · rw [← hg, Heap.insertFree_vars]
      rfl
    · simp [Blk.free]
    · funext x
      rw [usedMap_free]
      exact Option.or_none

/-! ### The calls -/

theorem needOf_spec (size : ℕ) : size + header ≤ needOf size ∧ 32 ≤ needOf size ∧ 16 ∣ needOf size := by
  by_cases h : (size + 15) / 16 * 16 + header < minBlock
  · rw [needOf, if_pos h]
    simp only [minBlock] at h ⊢
    omega
  · rw [needOf, if_neg h]
    simp only [header, minBlock] at h ⊢
    omega

/-- Nothing, or a block that was free; the blocks in use are those there were, with it. -/
def Given (bs : List Blk) (size : ℕ) (r : Heap × ℕ) : Prop :=
  ∃ bs', HeapOk r.1 bs' ∧
    (r.2 = 0 ∧ usedMap kheapStartVirt bs' = usedMap kheapStartVirt bs ∨
      ∃ b t c, r.2 = b + header ∧ size + header ≤ t ∧ usedMap kheapStartVirt bs b = none ∧
        usedMap kheapStartVirt bs' = update (usedMap kheapStartVirt bs) b (some (t, c)))

theorem HeapOk.give {size : ℕ} (ho : HeapOk h (pre ++ ⟨s, none⟩ :: post)) (hs : needOf size ≤ s) :
    Given (pre ++ ⟨s, none⟩ :: post) size ((h.unlinkFree (kheapStartVirt + span pre)).handOut
      (kheapStartVirt + span pre) (needOf size)) := by
  obtain ⟨n₁, n₂, n₃⟩ := needOf_spec size
  obtain ⟨l₁, lb, l₂⟩ := ho.tiled.middle
  obtain ⟨g, -, hhu, -⟩ := ho.tiled.unlink rfl
  have hvars := h.unlinkFree_vars (kheapStartVirt + span pre)
  simp only [Heap.vars, Prod.mk.injEq] at hvars
  obtain ⟨v₁, v₂, v₃⟩ := hvars
  rw [← v₁] at g
  have htotal : inUse (pre ++ ⟨s, none⟩ :: post) = inUse pre + inUse post := by simp [Blk.free]
  obtain ⟨hptr, t, c, bs', hok, hnt, hum⟩ := g.handOut hhu n₂ n₃ hs (v₁ ▸ ho.pages)
    (v₂.trans (ho.total.trans htotal)) (v₃.trans ho.damage)
  have hused : (fun x => (usedMap kheapStartVirt pre x).or
      (usedMap (kheapStartVirt + span pre + s) post x)) =
        usedMap kheapStartVirt (pre ++ ⟨s, none⟩ :: post) := funext fun x => (usedMap_free x).symm
  refine ⟨bs', hok, .inr ⟨_, t, c, hptr, n₁.trans hnt, ?_, hused ▸ hum⟩⟩
  rw [usedMap_free, usedMap, lookup_eq_none_of_ge l₁.sizes le_rfl,
    lookup_eq_none_of_lt l₂.sizes (by omega)]
  rfl

theorem HeapOk.refuse (ho : HeapOk h bs) (size : ℕ) :
    Given bs size ({ h with failedAllocations := h.failedAllocations + 1 }, 0) :=
  ⟨bs, ⟨{ ho.tiled with }, ho.pages, ho.total, ho.damage⟩, .inl ⟨rfl, rfl⟩⟩

/-- `kmalloc` refuses a request within the limits only if `grow_for` does. -/
theorem HeapOk.kmalloc (ho : HeapOk h bs) (size frames : ℕ) :
    ∃ r, h.kmalloc size frames = some r ∧ Given bs size r ∧
      (0 < size → size ≤ kheapMaxAlloc → r.2 = 0 → h.growFor (needOf size) frames = none ∧
        r.1 = { h with failedAllocations := h.failedAllocations + 1 }) := by
  rw [Heap.kmalloc]
  by_cases h0 : size = 0 ∨ h.firstBlock = 0 ∨ size > kheapMaxAlloc
  · rw [if_pos h0]
    refine ⟨_, rfl, ⟨bs, ho, .inl ⟨rfl, rfl⟩⟩, fun hpos hmax => ?_⟩
    have hfirst := ho.tiled.first
    have := start_pos
    omega
  · rw [if_neg h0]
    rcases ho.tiled.takeFree (needOf size) with ⟨htake, -⟩ | ⟨pre, s, post, rfl, hs, htake⟩
    · -- no block is large enough
      rw [htake]
      simp only
      cases hg : h.growFor (needOf size) frames with
      | none => exact ⟨_, rfl, ho.refuse size, fun _ _ _ => ⟨rfl, rfl⟩⟩
      | some h' =>
        obtain ⟨bs', ho', hum, t, ht, hlarge⟩ := ho.growFor hg
        simp only
        rcases ho'.tiled.takeFree (needOf size) with ⟨-, hno⟩ | ⟨pre, s, post, rfl, hs, htake'⟩
        · exact absurd hlarge (Nat.not_le.2 (hno t ht))
        · rw [htake']
          obtain ⟨bs'', hok, hcase⟩ := ho'.give hs
          exact ⟨_, rfl, ⟨bs'', hok, hum ▸ hcase⟩, fun _ _ h1 => nomatch h1⟩
    · rw [htake]
      exact ⟨_, rfl, ho.give hs, fun _ _ h1 => nomatch h1⟩

theorem kheapInit_ok (mem : ℕ → ℕ) {frames : ℕ} (hf : kheapInitialSize ≤ frames * pageSize) :
    HeapOk (kheapInit mem frames) [⟨kheapInitialSize, none⟩] := by
  have hpages : (kheapInitialSize + pageSize - 1) / pageSize ≤ frames := by
    simp only [kheapInitialSize, pageSize] at hf ⊢
    omega
  have hbytes : (kheapInitialSize + pageSize - 1) / pageSize * pageSize = kheapInitialSize := by decide
  have hbig : 32 ≤ kheapInitialSize := by decide
  obtain ⟨h₁, hh₁⟩ : ∃ h₁ : Heap, h₁ = Heap.set (Heap.set ⟨mem, kheapStartVirt, kheapStartVirt,
    fun _ => 0, kheapStartVirt + kheapInitialSize, 0, 0, 0⟩ kheapStartVirt kheapInitialSize)
      (kheapStartVirt + 8) 0 := ⟨_, rfl⟩
  have hsize : h₁.sizeOf kheapStartVirt = kheapInitialSize := by
    rw [hh₁]
    show update (update mem kheapStartVirt kheapInitialSize) (kheapStartVirt + 8) 0
      kheapStartVirt / 2 * 2 = _
    rw [update_of_ne (by omega), update_self]
    rfl
  have hl : Lists h₁.mem h₁.freeLists fun _ => none := by
    refine ⟨fun _ => [], fun k => ⟨?_, nodup_nil, fun x => by simp⟩⟩
    rw [hh₁]
    rfl
  obtain ⟨m, fl, heq, hl', hmb, hm⟩ := hl.insertFree (fun _ _ h0 => (nomatch h0)) rfl start_dvd
    start_pos.ne' (fun _ _ h0 => (nomatch h0)) hsize
  have hinit : kheapInit mem frames = (h₁.insertFree kheapStartVirt).poison
      (kheapStartVirt + minBlock) (kheapInitialSize - minBlock) := by
    have hsize' : (h₁.insertFree kheapStartVirt).sizeOf kheapStartVirt = kheapInitialSize := by
      rw [heq]
      show m kheapStartVirt / 2 * 2 = _
      rw [hmb]
      rfl
    rw [kheapInit]
    simp only [Heap.expandHeap, if_pos hpages, hbytes, Nat.add_sub_cancel_left, ← hh₁, hsize']
  rw [hinit, heq]
  have hwords (y : ℕ) (hy : y < kheapStartVirt + 32) :
      (if kheapStartVirt + minBlock ≤ y ∧ y < kheapStartVirt + minBlock + (kheapInitialSize - minBlock)
        then poisonWord else m y) = m y := if_neg (by rw [minBlock]; omega)
  refine ⟨⟨⟨⟨?_, ?_, hbig, by decide, fun _ y h1 h2 => if_pos ?_, fun _ h0 => (nomatch h0)⟩, trivial⟩,
    isChain_singleton _, by simp, ?_, ?_, ?_, ?_⟩, ?_, ?_, ?_⟩
  · exact (hwords kheapStartVirt (by omega)).trans hmb
  · refine (hwords (kheapStartVirt + 8) (by omega)).trans ?_
    rw [hm _ (by omega) (by omega) (by omega) (by rintro ⟨_, _, h0, -⟩; cases h0), hh₁]
    simp [Heap.set]
  · simp only at h2
    rw [minBlock]
    omega
  · rw [hh₁]
    simp [Heap.poison, Heap.set]
  · rw [hh₁]
    rfl
  · rw [hh₁]
    rfl
  · have : freeMap kheapStartVirt [⟨kheapInitialSize, none⟩] =
        update (fun _ => none) kheapStartVirt (some kheapInitialSize) := by
      funext x
      by_cases hx : x = kheapStartVirt
      · subst hx
        simp [freeMap, lookup, Blk.free]
      · simp [freeMap, lookup, hx]
    rw [this]
    refine hl'.congr fun y hy => hwords y ?_
    rw [linkWord_update rfl] at hy
    rcases hy with rfl | rfl | ⟨_, _, h0, -⟩
    · omega
    · omega
    · cases h0
  · rw [hh₁]
    show pageSize ∣ kheapStartVirt + kheapInitialSize
    decide
  · rw [hh₁]
    rfl
  · rw [hh₁]
    rfl

end

end Bashket.Mm
