import Bashket.Lib.Links
import Bashket.Mm.Heap

/-!
# What a sound heap looks like

A heap is described by the list of its blocks in memory order: their sizes and, for a block in use,
the contents of its payload. `Layout` says that memory holds such a list from an address on, `Lists`
that the free lists hold exactly the free blocks. The links of free blocks are read by `Lists`
alone: writing them leaves every `Layout` as it is (`Layout.congr`), and writing anything else
leaves `Lists` (`Lists.congr`).
-/

namespace Bashket.Mm

open Links List
open Function (update update_apply update_of_ne update_self)

/-- A block: its size and, if it is in use, its contents by offset. -/
structure Blk where
  size : ℕ
  content : Option (ℕ → ℕ)

def Blk.free (b : Blk) : Bool := b.content.isNone

def span (bs : List Blk) : ℕ := (bs.map Blk.size).sum

def lastSize : ℕ → List Blk → ℕ
  | prev, [] => prev
  | _, b :: bs => lastSize b.size bs

def lastStart : ℕ → List Blk → ℕ
  | a, [] => a
  | a, [_] => a
  | a, b :: c :: bs => lastStart (a + b.size) (c :: bs)

def inUse (bs : List Blk) : ℕ := (bs.map fun b => if b.free then 0 else b.size - header).sum

/-- What `f` gives for the block at address `x`, among the blocks from address `a` on. -/
def lookup {β : Type*} (f : Blk → Option β) : ℕ → List Blk → ℕ → Option β
  | _, [], _ => none
  | a, b :: bs, x => (if x = a then f b else none).or (lookup f (a + b.size) bs x)

def freeMap : ℕ → List Blk → ℕ → Option ℕ := lookup fun b => if b.free then some b.size else none

def usedMap : ℕ → List Blk → ℕ → Option (ℕ × (ℕ → ℕ)) :=
  lookup fun b => b.content.map fun c => (b.size, c)

/-- A block lies at address `a`, after one of size `prev`. -/
structure Laid (mem : ℕ → ℕ) (a prev : ℕ) (b : Blk) : Prop where
  size : mem a = b.size + b.free.toNat
  prevSize : mem (a + 8) = prev
  min : 32 ≤ b.size
  aligned : 16 ∣ b.size
  poisoned : b.content = none → ∀ y, a + 32 ≤ y → y < a + b.size → mem y = poisonWord
  payload : ∀ c, b.content = some c → ∀ y, 16 ≤ y → y < b.size → mem (a + y) = c y

/-- The blocks lie one after another from address `a` on, after one of size `prev`. -/
def Layout (mem : ℕ → ℕ) : ℕ → ℕ → List Blk → Prop
  | _, _, [] => True
  | a, prev, b :: bs => Laid mem a prev b ∧ Layout mem (a + b.size) b.size bs

/-- A word that holds a link of one of the free blocks `F`. -/
def LinkWord (F : ℕ → Option ℕ) (y : ℕ) : Prop := ∃ x s, F x = some s ∧ (y = x + 16 ∨ y = x + 24)

/-- The free lists hold exactly the free blocks `F`, each in the list of its class. -/
def Lists (mem freeLists : ℕ → ℕ) (F : ℕ → Option ℕ) : Prop :=
  ∃ fl : ℕ → List ℕ, ∀ k,
    Linked 0 (fun x => mem (x + 16)) (fun x => mem (x + 24)) 0 (freeLists k) (fl k) ∧
    (fl k).Nodup ∧ ∀ x, x ∈ fl k ↔ ∃ s, F x = some s ∧ classOf s = k

/-! ### Lists of blocks -/

section

variable {β : Type*} {f : Blk → Option β} {a x : ℕ} {b : Blk} {bs l₁ l₂ : List Blk}

@[simp] theorem span_nil : span [] = 0 := rfl

@[simp] theorem span_cons : span (b :: bs) = b.size + span bs := by simp [span]

@[simp] theorem span_append : span (l₁ ++ l₂) = span l₁ + span l₂ := by simp [span]

@[simp] theorem inUse_nil : inUse [] = 0 := rfl

@[simp] theorem inUse_cons :
    inUse (b :: bs) = (if b.free then 0 else b.size - header) + inUse bs := by
  simp [inUse]

@[simp] theorem inUse_append : inUse (l₁ ++ l₂) = inUse l₁ + inUse l₂ := by simp [inUse]

theorem lastSize_append (prev : ℕ) : lastSize prev (l₁ ++ b :: l₂) = lastSize b.size l₂ := by
  induction l₁ generalizing prev with
  | nil => rfl
  | cons c l ih => exact ih c.size

theorem lastStart_append : lastStart a (l₁ ++ b :: l₂) = lastStart (a + span l₁) (b :: l₂) := by
  induction l₁ generalizing a with
  | nil => simp
  | cons c l ih =>
    cases l with
    | nil => simp [lastStart]
    | cons d l =>
      rw [cons_append, cons_append, lastStart, ← cons_append, ih]
      simp [Nat.add_assoc]

theorem lookup_append :
    lookup f a (l₁ ++ l₂) x = (lookup f a l₁ x).or (lookup f (a + span l₁) l₂ x) := by
  induction l₁ generalizing a with
  | nil => simp [lookup]
  | cons c l ih => simp [lookup, ih, Option.or_assoc, Nat.add_assoc]

theorem lookup_range (hs : ∀ b ∈ bs, 32 ≤ b.size) {v : β} (h : lookup f a bs x = some v) :
    ∃ b ∈ bs, f b = some v ∧ a ≤ x ∧ x + b.size ≤ a + span bs := by
  induction bs generalizing a with
  | nil => cases h
  | cons c l ih =>
    rw [lookup, Option.or_eq_some_iff] at h
    rcases h with h | ⟨-, h⟩
    · split_ifs at h with hx
      subst hx
      exact ⟨c, mem_cons_self, h, le_rfl, by simp [← Nat.add_assoc]⟩
    · obtain ⟨b, hb, hf, h1, h2⟩ := ih (fun b hb => hs b (mem_cons_of_mem _ hb)) h
      exact ⟨b, mem_cons_of_mem _ hb, hf, by omega, by simp; omega⟩

theorem lookup_eq_none_of_lt (hs : ∀ b ∈ bs, 32 ≤ b.size) (h : x < a) : lookup f a bs x = none := by
  cases h0 : lookup f a bs x with
  | none => rfl
  | some v =>
    obtain ⟨b, -, -, h1, -⟩ := lookup_range hs h0
    omega

theorem lookup_eq_none_of_ge (hs : ∀ b ∈ bs, 32 ≤ b.size) (h : a + span bs ≤ x) :
    lookup f a bs x = none := by
  cases h0 : lookup f a bs x with
  | none => rfl
  | some v =>
    obtain ⟨b, hb, -, -, h2⟩ := lookup_range hs h0
    have := hs b hb
    omega

theorem lookup_split (hs : ∀ b ∈ bs, 32 ≤ b.size) {v : β} (h : lookup f a bs x = some v) :
    ∃ pre b post, bs = pre ++ b :: post ∧ f b = some v ∧ x = a + span pre := by
  induction bs generalizing a with
  | nil => cases h
  | cons c l ih =>
    rw [lookup, Option.or_eq_some_iff] at h
    rcases h with h | ⟨-, h⟩
    · split_ifs at h with hx
      exact ⟨[], c, l, rfl, h, by exact hx⟩
    · obtain ⟨pre, b, post, rfl, hf, hx⟩ := ih (fun b hb => hs b (mem_cons_of_mem _ hb)) h
      exact ⟨c :: pre, b, post, rfl, hf, by simp [hx, Nat.add_assoc]⟩

end

/-! ### Layouts -/

section

variable {mem mem' : ℕ → ℕ} {a prev : ℕ} {b : Blk} {bs l₁ l₂ : List Blk}

theorem Layout.sizes (h : Layout mem a prev bs) : ∀ b ∈ bs, 32 ≤ b.size := by
  induction bs generalizing a prev with
  | nil => exact fun _ hb => (nomatch hb)
  | cons c l ih =>
    intro b hb
    rcases mem_cons.1 hb with rfl | hb
    · exact h.1.min
    · exact ih h.2 b hb

theorem Layout.dvd_span (h : Layout mem a prev bs) : 16 ∣ span bs := by
  induction bs generalizing a prev with
  | nil => simp
  | cons c l ih =>
    exact Nat.dvd_add h.1.aligned (ih h.2)

theorem layout_append :
    Layout mem a prev (l₁ ++ l₂) ↔
      Layout mem a prev l₁ ∧ Layout mem (a + span l₁) (lastSize prev l₁) l₂ := by
  induction l₁ generalizing a prev with
  | nil => simp [Layout, lastSize]
  | cons c l ih => simp [Layout, lastSize, ih, and_assoc, Nat.add_assoc]

theorem Layout.lookup_dvd {β : Type*} {f : Blk → Option β} (h : Layout mem a prev bs) (ha : 16 ∣ a)
    {x : ℕ} {v : β} (hx : lookup f a bs x = some v) : 16 ∣ x := by
  obtain ⟨pre, b, post, rfl, -, rfl⟩ := lookup_split h.sizes hx
  exact Nat.dvd_add ha (layout_append.1 h).1.dvd_span

theorem freeMap_size {x s : ℕ} (h : Layout mem a prev bs) (hx : freeMap a bs x = some s) :
    32 ≤ s ∧ a ≤ x ∧ x + s ≤ a + span bs := by
  obtain ⟨b, hb, hf, h1, h2⟩ := lookup_range h.sizes hx
  split_ifs at hf with h0
  cases hf
  exact ⟨h.sizes b hb, h1, h2⟩

theorem LinkWord.range {y : ℕ} (hl : LinkWord (freeMap a bs) y) (h : Layout mem a prev bs) :
    a ≤ y ∧ y < a + span bs := by
  obtain ⟨x, s, hx, hy⟩ := hl
  have := freeMap_size h hx
  omega

theorem Laid.congr (h : Laid mem a prev b)
    (hm : ∀ y, a ≤ y → y < a + b.size → (b.content = none → y ≠ a + 16 ∧ y ≠ a + 24) →
      mem' y = mem y) : Laid mem' a prev b := by
  have hmin := h.min
  refine ⟨?_, ?_, hmin, h.aligned, fun hb y h1 h2 => ?_, fun c hc y h1 h2 => ?_⟩
  · rw [hm a le_rfl (by omega) fun _ => by omega]
    exact h.size
  · rw [hm (a + 8) (by omega) (by omega) fun _ => by omega]
    exact h.prevSize
  · rw [hm y (by omega) h2 fun _ => by omega]
    exact h.poisoned hb y h1 h2
  · rw [hm (a + y) (by omega) (by omega) fun h0 => by simp [h0] at hc]
    exact h.payload c hc y h1 h2

theorem Layout.congr (h : Layout mem a prev bs)
    (hm : ∀ y, a ≤ y → y < a + span bs → ¬LinkWord (freeMap a bs) y → mem' y = mem y) :
    Layout mem' a prev bs := by
  induction bs generalizing a prev with
  | nil => trivial
  | cons b l ih =>
    have hmin := h.1.min
    have hhead (y : ℕ) (hy : y < a + b.size) (hl : LinkWord (freeMap a (b :: l)) y) :
        b.content = none ∧ (y = a + 16 ∨ y = a + 24) := by
      obtain ⟨x, s, hx, hyx⟩ := hl
      rw [freeMap, lookup, Option.or_eq_some_iff] at hx
      rcases hx with hx | ⟨-, hx⟩
      · split_ifs at hx with h1 h2
        subst h1
        exact ⟨by simpa [Blk.free] using h2, hyx⟩
      · have := freeMap_size h.2 hx
        omega
    refine ⟨h.1.congr fun y h1 h2 h3 => ?_, ih h.2 fun y h1 h2 h3 => ?_⟩
    · refine hm y h1 (by simp; omega) fun hl => ?_
      obtain ⟨hb, h4⟩ := hhead y h2 hl
      have := h3 hb
      omega
    · refine hm y (by omega) (by simp; omega) fun hl => ?_
      obtain ⟨x, s, hx, hyx⟩ := hl
      rw [freeMap, lookup, Option.or_eq_some_iff] at hx
      rcases hx with hx | ⟨-, hx⟩
      · split_ifs at hx with h4
        omega
      · exact h3 ⟨x, s, hx, hyx⟩

theorem Layout.set_prev (h : Layout mem a prev (b :: bs)) (v : ℕ) :
    Layout (update mem (a + 8) v) a v (b :: bs) := by
  have hmin := h.1.min
  refine ⟨?_, h.2.congr fun y h1 h2 _ => update_of_ne (by omega) _ _⟩
  refine ⟨?_, update_self _ _ _, hmin, h.1.aligned, fun hb y h1 h2 => ?_,
    fun c hc y h1 h2 => ?_⟩
  · rw [update_of_ne (by omega)]
    exact h.1.size
  · rw [update_of_ne (by omega)]
    exact h.1.poisoned hb y h1 h2
  · rw [update_of_ne (by omega)]
    exact h.1.payload c hc y h1 h2

end

/-! ### Free lists -/

section

variable {mem mem' freeLists : ℕ → ℕ} {F G : ℕ → Option ℕ}

theorem Lists.congr (h : Lists mem freeLists F) (hm : ∀ y, LinkWord F y → mem' y = mem y) :
    Lists mem' freeLists F := by
  obtain ⟨fl, hfl⟩ := h
  refine ⟨fl, fun k => ?_⟩
  obtain ⟨h1, h2, h3⟩ := hfl k
  refine ⟨h1.congr (fun y hy => ?_) fun y hy => ?_, h2, h3⟩
  · obtain ⟨s, hs, -⟩ := (h3 y).1 hy
    exact hm _ ⟨y, s, hs, .inl rfl⟩
  · obtain ⟨s, hs, -⟩ := (h3 y).1 hy
    exact hm _ ⟨y, s, hs, .inr rfl⟩

theorem linkWord_update {b s y : ℕ} (hb : F b = none) :
    LinkWord (update F b (some s)) y ↔ y = b + 16 ∨ y = b + 24 ∨ LinkWord F y := by
  constructor
  · rintro ⟨x, t, hx, hy⟩
    by_cases hxb : x = b
    · subst hxb
      exact hy.imp_right .inl
    · rw [update_of_ne hxb] at hx
      exact .inr (.inr ⟨x, t, hx, hy⟩)
  · rintro (rfl | rfl | ⟨x, t, hx, hy⟩)
    · exact ⟨b, s, update_self _ _ _, .inl rfl⟩
    · exact ⟨b, s, update_self _ _ _, .inr rfl⟩
    · refine ⟨x, t, ?_, hy⟩
      rw [update_of_ne, hx]
      rintro rfl
      rw [hb] at hx
      cases hx

theorem Heap.unlinkFree_mem (h : Heap) (b y : ℕ) :
    (h.unlinkFree b).mem y =
      if h.mem (b + 16) ≠ 0 ∧ y = h.mem (b + 16) + 24 then h.mem (b + 24)
      else if h.mem (b + 24) ≠ 0 ∧ y = h.mem (b + 24) + 16 then h.mem (b + 16) else h.mem y := by
  by_cases hn : h.mem (b + 16) = 0 <;> by_cases hp : h.mem (b + 24) = 0 <;>
    simp [Heap.unlinkFree, Heap.set, update_apply, hn, hp]

theorem Heap.unlinkFree_eq (h : Heap) (b : ℕ) :
    h.unlinkFree b = { h with
      mem := (h.unlinkFree b).mem
      freeLists := if h.mem (b + 24) = 0
        then update h.freeLists (classOf (h.sizeOf b)) (h.mem (b + 16))
        else h.freeLists } := by
  by_cases hn : h.mem (b + 16) = 0 <;> by_cases hp : h.mem (b + 24) = 0 <;>
    simp [Heap.unlinkFree, Heap.set, hn, hp]

theorem Lists.unlinkFree {h : Heap} {b s : ℕ}
    (hl : Lists h.mem h.freeLists (update G b (some s))) (hG : G b = none)
    (hal : ∀ x s, G x = some s → 16 ∣ x) (hab : 16 ∣ b) (hs : h.sizeOf b = s) :
    ∃ m fl, h.unlinkFree b = { h with mem := m, freeLists := fl } ∧ Lists m fl G ∧
      ∀ y, y ≠ b + 16 → y ≠ b + 24 → ¬LinkWord G y → m y = h.mem y := by
  obtain ⟨F, hF⟩ : ∃ F, F = update G b (some s) := ⟨_, rfl⟩
  rw [← hF] at hl
  have hb : F b = some s := by rw [hF, update_self]
  have hFG (x : ℕ) (hx : x ≠ b) : F x = G x := by rw [hF, update_of_ne hx]
  have halF (x t : ℕ) (hx : F x = some t) : 16 ∣ x := by
    by_cases hxb : x = b
    · exact hxb ▸ hab
    · exact hal x t (hFG x hxb ▸ hx)
  obtain ⟨fl, hfl⟩ := hl
  obtain ⟨hlink, hnd, hmem⟩ := hfl (classOf s)
  have hbl : b ∈ fl (classOf s) := (hmem b).2 ⟨s, hb, rfl⟩
  -- a node of another list is no neighbour of `b`, and a link word tells its node
  have hnode (x : ℕ) (k : ℕ) (hx : x ∈ fl k) : ∃ t, F x = some t ∧ classOf t = k :=
    ((hfl k).2.2 x).1 hx
  have hnext : h.mem (b + 16) ≠ 0 → h.mem (b + 16) ∈ fl (classOf s) :=
    fun h0 => (hlink.nxt_mem hbl).resolve_left h0
  have hprev : h.mem (b + 24) ≠ 0 → h.mem (b + 24) ∈ fl (classOf s) :=
    fun h0 => (hlink.prv_mem hbl).resolve_left h0
  have hkey (x y k : ℕ) (hx : x ∈ fl k) (hy : y ∈ fl (classOf s)) : 16 ∣ x ∧ 16 ∣ y := by
    obtain ⟨t, ht, -⟩ := hnode x k hx
    obtain ⟨u, hu, -⟩ := hnode y _ hy
    exact ⟨halF x t ht, halF y u hu⟩
  have h0l (k : ℕ) (hx : 0 ∈ fl k) : False := (hfl k).1.ne_null hx rfl
  have hn' (x k : ℕ) (hx : x ∈ fl k) : (h.unlinkFree b).mem (x + 16) =
      if x = h.mem (b + 24) then h.mem (b + 16) else h.mem (x + 16) := by
    rw [Heap.unlinkFree_mem, if_neg]
    · refine if_congr ⟨fun h1 => by omega, fun h1 => ⟨?_, by omega⟩⟩ rfl rfl
      rintro h2
      exact h0l k (h2 ▸ h1 ▸ hx)
    · rintro ⟨h1, h2⟩
      have := hkey x _ k hx (hnext h1)
      omega
  have hp' (x k : ℕ) (hx : x ∈ fl k) : (h.unlinkFree b).mem (x + 24) =
      if x = h.mem (b + 16) then h.mem (b + 24) else h.mem (x + 24) := by
    have h3 : ¬(h.mem (b + 24) ≠ 0 ∧ x + 24 = h.mem (b + 24) + 16) := by
      rintro ⟨h1, h2⟩
      have := hkey x _ k hx (hprev h1)
      omega
    rw [Heap.unlinkFree_mem, if_neg h3]
    refine if_congr ⟨fun h1 => by omega, fun h1 => ⟨?_, by omega⟩⟩ rfl rfl
    rintro h2
    exact h0l k (h2 ▸ h1 ▸ hx)
  refine ⟨_, _, h.unlinkFree_eq b, ?_, ?_⟩
  · refine ⟨update fl (classOf s) ((fl (classOf s)).erase b), fun k => ?_⟩
    by_cases hk : k = classOf s
    · subst hk
      rw [update_self]
      refine ⟨?_, hnd.erase b, fun x => ?_⟩
      · have := hlink.unlink hbl
          (nodup_cons.2 ⟨fun h0 => h0l _ h0, hnd⟩) (fun x hx => hn' x _ hx)
          fun x hx => hp' x _ hx
        refine cast (congrArg (fun a => Linked 0 _ _ 0 a _) ?_) this
        by_cases h0 : h.mem (b + 24) = 0
        · rw [if_pos h0.symm, if_pos h0, hs, update_self]
        · rw [if_neg (Ne.symm h0), if_neg h0]
      · rw [hnd.mem_erase_iff, hmem]
        by_cases hx : x = b
        · subst hx
          simp [hG]
        · simp [hx, hFG x hx]
    · rw [update_of_ne hk]
      obtain ⟨g1, g2, g3⟩ := hfl k
      have hother (x y : ℕ) (hx : x ∈ fl k) (hy : y ∈ fl (classOf s)) : x ≠ y := by
        rintro rfl
        obtain ⟨t, ht, hkt⟩ := hnode x k hx
        obtain ⟨u, hu, hku⟩ := hnode x _ hy
        rw [ht] at hu
        cases hu
        exact hk (hkt.symm.trans hku)
      refine ⟨?_, g2, fun x => ?_⟩
      · have hhead : (if h.mem (b + 24) = 0
            then update h.freeLists (classOf (h.sizeOf b)) (h.mem (b + 16))
            else h.freeLists) k = h.freeLists k := by
          split_ifs
          · rw [hs, update_of_ne hk]
          · rfl
        rw [hhead]
        refine g1.congr (fun x hx => ?_) fun x hx => ?_
        · rw [hn' x k hx, if_neg]
          intro h1
          exact hother x _ hx (hprev fun h2 => h0l k (h2 ▸ h1 ▸ hx)) h1
        · rw [hp' x k hx, if_neg]
          intro h1
          exact hother x _ hx (hnext fun h2 => h0l k (h2 ▸ h1 ▸ hx)) h1
      · rw [g3]
        by_cases hx : x = b
        · subst hx
          simp [hb, hG, Ne.symm hk]
        · rw [hFG x hx]
  · intro y h16 h24 hy
    have hyF : ¬LinkWord F y := by
      rw [hF, linkWord_update hG]
      exact fun h0 => h0.elim h16 fun h0 => h0.elim h24 hy
    rw [Heap.unlinkFree_mem, if_neg, if_neg]
    · rintro ⟨h1, rfl⟩
      obtain ⟨t, ht, -⟩ := hnode _ _ (hprev h1)
      exact hyF ⟨_, t, ht, .inl rfl⟩
    · rintro ⟨h1, rfl⟩
      obtain ⟨t, ht, -⟩ := hnode _ _ (hnext h1)
      exact hyF ⟨_, t, ht, .inr rfl⟩

theorem Heap.insertFree_mem (h : Heap) (b y : ℕ) :
    (h.insertFree b).mem y =
      if h.freeLists (classOf (h.sizeOf b)) ≠ 0 ∧ y = h.freeLists (classOf (h.sizeOf b)) + 24 then b
      else if y = b + 16 then h.freeLists (classOf (h.sizeOf b))
      else if y = b + 24 then 0
      else if y = b then h.sizeOf b + 1 else h.mem y := by
  by_cases hn : h.freeLists (classOf (h.sizeOf b)) = 0 <;>
    simp [Heap.insertFree, Heap.set, update_apply, hn]

theorem Heap.insertFree_eq (h : Heap) (b : ℕ) :
    h.insertFree b = { h with
      mem := (h.insertFree b).mem
      freeLists := update h.freeLists (classOf (h.sizeOf b)) b } := by
  by_cases hn : h.freeLists (classOf (h.sizeOf b)) = 0 <;> simp [Heap.insertFree, Heap.set, hn]

/-- `insert_free` puts a block on the list of its class, and writes its size and links only. -/
theorem Lists.insertFree {h : Heap} (hl : Lists h.mem h.freeLists F)
    (hal : ∀ x s, F x = some s → 16 ∣ x) {b s : ℕ} (hb : F b = none) (hab : 16 ∣ b) (hb0 : b ≠ 0)
    (hap : ∀ x s, F x = some s → x + 32 ≤ b ∨ b < x) (hs : h.sizeOf b = s) :
    ∃ m fl, h.insertFree b = { h with mem := m, freeLists := fl } ∧
      Lists m fl (update F b (some s)) ∧ m b = s + 1 ∧
      ∀ y, y ≠ b → y ≠ b + 16 → y ≠ b + 24 → ¬LinkWord F y → m y = h.mem y := by
  obtain ⟨fl, hfl⟩ := hl
  have hhead : h.freeLists (classOf s) ≠ 0 → h.freeLists (classOf s) ∈ fl (classOf s) := by
    intro h0
    obtain ⟨g1, -, -⟩ := hfl (classOf s)
    cases hf : fl (classOf s) with
    | nil => exact absurd (g1.head_eq_null.2 hf) h0
    | cons x l =>
      rw [hf] at g1
      rw [g1.1]
      exact mem_cons_self
  have hnode (x k : ℕ) (hx : x ∈ fl k) : 16 ∣ x ∧ (x + 32 ≤ b ∨ b < x) ∧ x ≠ 0 := by
    obtain ⟨t, ht, -⟩ := ((hfl k).2.2 x).1 hx
    exact ⟨hal x t ht, hap x t ht, (hfl k).1.ne_null hx⟩
  have hn' (x k : ℕ) (hx : x ∈ fl k) : (h.insertFree b).mem (x + 16) = h.mem (x + 16) := by
    obtain ⟨h1, h2, -⟩ := hnode x k hx
    rw [Heap.insertFree_mem, hs, if_neg, if_neg (by omega), if_neg (by omega), if_neg (by omega)]
    rintro ⟨h3, h4⟩
    have := (hnode _ _ (hhead h3)).1
    omega
  have hp' (x k : ℕ) (hx : x ∈ fl k) : (h.insertFree b).mem (x + 24) =
      if x = h.freeLists (classOf s) then b else h.mem (x + 24) := by
    obtain ⟨h1, h2, h3⟩ := hnode x k hx
    rw [Heap.insertFree_mem, hs, if_neg (show ¬x + 24 = b + 16 by omega),
      if_neg (show ¬x + 24 = b + 24 by omega), if_neg (show ¬x + 24 = b by omega)]
    exact if_congr ⟨fun h4 => by omega, fun h4 => ⟨by omega, by omega⟩⟩ rfl rfl
  -- the words of `b` itself are no link of the old head
  have hbm : (h.insertFree b).mem b = s + 1 := by
    rw [Heap.insertFree_mem, hs, if_neg, if_neg (by omega), if_neg (by omega), if_pos rfl]
    rintro ⟨h3, h4⟩
    have := hnode _ _ (hhead h3)
    omega
  have hb16 : (h.insertFree b).mem (b + 16) = h.freeLists (classOf s) := by
    rw [Heap.insertFree_mem, hs, if_neg, if_pos rfl]
    rintro ⟨h3, h4⟩
    have := hnode _ _ (hhead h3)
    omega
  have hb24 : (h.insertFree b).mem (b + 24) = 0 := by
    rw [Heap.insertFree_mem, hs, if_neg, if_neg (by omega), if_pos rfl]
    rintro ⟨h3, h4⟩
    have := hnode _ _ (hhead h3)
    omega
  refine ⟨_, _, h.insertFree_eq b, ?_, hbm, ?_⟩
  · refine ⟨update fl (classOf s) (b :: fl (classOf s)), fun k => ?_⟩
    have hF (x : ℕ) (hx : x ≠ b) : update F b (some s) x = F x :=
      update_of_ne hx _ _
    have hnb (x k : ℕ) (hx : x ∈ fl k) : x ≠ b := by
      rintro rfl
      have := hnode x k hx
      omega
    rw [hs]
    by_cases hk : k = classOf s
    · subst hk
      obtain ⟨g1, g2, g3⟩ := hfl (classOf s)
      rw [update_self, update_self]
      refine ⟨g1.push hb0 hb16 hb24 (fun x hx => hn' x _ hx) (fun x hx h0 => ?_) (fun h0 => ?_) g2,
        nodup_cons.2 ⟨fun h0 => hnb b _ h0 rfl, g2⟩, fun x => ?_⟩
      · rw [hp' x _ hx, if_neg h0]
      · rw [hp' _ _ (hhead h0), if_pos rfl]
      · rw [mem_cons, g3]
        by_cases hx : x = b
        · subst hx
          simp
        · simp [hx]
    · obtain ⟨g1, g2, g3⟩ := hfl k
      rw [update_of_ne hk, update_of_ne hk]
      refine ⟨g1.congr (fun x hx => hn' x k hx) fun x hx => ?_, g2, fun x => ?_⟩
      · rw [hp' x k hx, if_neg]
        intro h1
        have h2 := hhead fun h0 => (hnode x k hx).2.2 (h1.trans h0)
        obtain ⟨t, ht, hkt⟩ := (g3 x).1 hx
        obtain ⟨u, hu, hku⟩ := ((hfl _).2.2 _).1 h2
        rw [← h1, ht] at hu
        cases hu
        exact hk (hkt.symm.trans hku)
      · rw [g3]
        by_cases hx : x = b
        · subst hx
          simp [hb, Ne.symm hk]
        · rw [hF x hx]
  · intro y hyb h16 h24 hy
    rw [Heap.insertFree_mem, hs, if_neg, if_neg h16, if_neg h24, if_neg hyb]
    rintro ⟨h1, rfl⟩
    obtain ⟨t, ht, -⟩ := ((hfl _).2.2 _).1 (hhead h1)
    exact hy ⟨_, t, ht, .inr rfl⟩

end

attribute [grind =] Blk.free freeMap lookup

end Bashket.Mm
