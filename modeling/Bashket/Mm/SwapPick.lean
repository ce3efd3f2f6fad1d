import Mathlib.Algebra.Order.Ring.Nat
import Mathlib.Tactic.SplitIfs

/-!
# The page to swap out

`vmm_swap_pick` goes round the user pages of an address space from where it stopped the last time,
gives a page that has been used since a second chance, and puts the swap slot into the entry of the
first one that has not; `vmm_swap_install` puts the frame back.  An address space is modelled as the
entries of its tables at each level, by the address they are for: its tables form a tree.  Flags are
the numbers of their bits.
-/

namespace Bashket.SwapPick

def userSpaceEnd : ℕ := 2 ^ 47

def vmmPresent : ℕ := 0

def vmmUser : ℕ := 2

def vmmAccessed : ℕ := 5

def vmmDirty : ℕ := 6

def vmmHuge : ℕ := 7

def vmmShared : ℕ := 10

def vmmSwapped : ℕ := 11

def pteAddrMask : BitVec 64 := 0x000FFFFFFFFFF000

def bit (k : ℕ) : BitVec 64 := BitVec.twoPow 64 k

def has (e : BitVec 64) (flag : ℕ) : Bool := e.getLsbD flag

def vmmPteSwapped (e : BitVec 64) : Bool := !has e vmmPresent && has e vmmSwapped

def vmmPteSwapSlot (e : BitVec 64) : BitVec 32 := ((e &&& pteAddrMask) >>> 12).setWidth 32

/-- The entries, each by the number of the 512 GiB, 1 GiB, 2 MiB or page it is for. -/
structure Space where
  pml4 : ℕ → BitVec 64
  pdpt : ℕ → BitVec 64
  pd : ℕ → BitVec 64
  pt : ℕ → BitVec 64
  /-- The CPU knows no huge pages at the top level. -/
  pml4_small : ∀ i, has (pml4 i) vmmHuge = false

variable (refs : BitVec 64 → ℕ) (keep : List (ℕ × ℕ)) (slot : BitVec 32)

def pageIsKept (v : ℕ) : Bool := keep.any fun r => v < r.2 && v + 4096 > r.1

namespace Space

def set (s : Space) (v : ℕ) (e : BitVec 64) : Space :=
  { s with pt := Function.update s.pt (v / 4096) e }

/-- `get_next_level` finds a table behind the entry. -/
def nextLevel (e : BitVec 64) : Bool := has e vmmPresent && !has e vmmHuge

def hasTables (s : Space) (virt : ℕ) : Bool :=
  nextLevel (s.pml4 (virt / 2 ^ 39)) && nextLevel (s.pdpt (virt / 2 ^ 30)) &&
    nextLevel (s.pd (virt / 2 ^ 21))

def walkToPte (s : Space) (virt : ℕ) : Option (BitVec 64) :=
  if s.hasTables virt then some (s.pt (virt / 4096)) else none

/-- The test of `swap_scan`; `refs` is `pmm_get_frame_ref`. -/
def mayGo (e : BitVec 64) (v : ℕ) : Bool :=
  has e vmmPresent && has e vmmUser && !has e vmmShared && refs (e &&& pteAddrMask) = 1 &&
    !pageIsKept keep v

def swapOut (e : BitVec 64) : BitVec 64 :=
  e &&& ~~~(bit vmmPresent ||| pteAddrMask ||| bit vmmDirty) ||| bit vmmSwapped |||
    slot.setWidth 64 <<< 12

def swapIn (e frame : BitVec 64) : BitVec 64 :=
  e &&& ~~~(pteAddrMask ||| bit vmmSwapped) ||| frame &&& pteAddrMask ||| bit vmmPresent |||
    bit vmmAccessed

/-- Where the next stretch starts, if there is no table behind this one. -/
def stepOver (s : Space) (v : ℕ) : Option ℕ :=
  if !has (s.pml4 (v / 2 ^ 39)) vmmPresent then some ((v ||| (2 ^ 39 - 1)) + 1)
  else if !has (s.pdpt (v / 2 ^ 30)) vmmPresent || has (s.pdpt (v / 2 ^ 30)) vmmHuge then
    some ((v ||| (2 ^ 30 - 1)) + 1)
  else if !has (s.pd (v / 2 ^ 21)) vmmPresent || has (s.pd (v / 2 ^ 21)) vmmHuge then
    some ((v ||| (2 ^ 21 - 1)) + 1)
  else none

theorem lt_of_stepOver {s : Space} {v v' : ℕ} (h : s.stepOver v = some v') : v < v' := by
  have hlt (k : ℕ) : v < (v ||| (2 ^ k - 1)) + 1 := Nat.lt_succ_of_le Nat.left_le_or
  unfold stepOver at h
  split_ifs at h <;> exact Option.some.inj h ▸ hlt _

/-- `inTable`: the inner loop goes on, in which the tables above are not looked at again. -/
def swapScan (last : ℕ) (inTable : Bool) (s : Space) (v : ℕ) : Space × Option (ℕ × BitVec 64) :=
  if v < last then
    match h : if inTable then none else s.stepOver v with
    | some v' => swapScan last false s v'
    | none =>
      let entry := s.pt (v / 4096)
      let more := decide ((v + 4096) % 2 ^ 21 ≠ 0)
      if mayGo refs keep entry v then
        if has entry vmmAccessed then
          swapScan last more (s.set v (entry &&& ~~~bit vmmAccessed)) (v + 4096)
        else (s.set v (swapOut slot entry), some (v, entry &&& pteAddrMask))
      else swapScan last more s (v + 4096)
  else (s, none)
termination_by last - v
decreasing_by
  · have := lt_of_stepOver (Option.ite_none_left_eq_some.1 h).2
    omega
  · omega
  · omega

def vmmSwapPick (s : Space) (cursor : ℕ) : Space × ℕ × Option (ℕ × BitVec 64) :=
  let start := if cursor < userSpaceEnd then cursor else 0
  let scan (s : Space) (first : ℕ) :=
    swapScan refs keep slot userSpaceEnd false s (first / 4096 * 4096)
  let found := match scan s start with
    | (s, none) => match scan s 0 with
      | (s, none) => scan s 0
      | found => found
    | found => found
  (found.1, (found.2.elim cursor fun f => f.1 + 4096), found.2)

def vmmSwapInstall (s : Space) (virt : ℕ) (frame : BitVec 64) : Space × Bool :=
  if virt ≥ userSpaceEnd then (s, false)
  else
    match s.walkToPte (virt / 4096 * 4096) with
    | some e =>
      if vmmPteSwapped e then (s.set (virt / 4096 * 4096) (swapIn e frame), true) else (s, false)
    | none => (s, false)

end Space

/-! ### Entries -/

def Cleared (e e' : BitVec 64) : Prop := e' = e ∨ e' = e &&& ~~~bit vmmAccessed

/-- The frame and all flags are as before but those that say that the page is used, changed or
swapped. -/
def Restored (e e' : BitVec 64) : Prop :=
  ∀ k, k ≠ vmmAccessed → k ≠ vmmDirty → k ≠ vmmSwapped → e'.getLsbD k = e.getLsbD k

@[simp] theorem getLsbD_bit (j k : ℕ) :
    (bit j).getLsbD k = (decide (j < 64) && decide (j = k)) :=
  BitVec.getLsbD_twoPow j k

@[simp] theorem getLsbD_pteAddrMask (k : ℕ) :
    pteAddrMask.getLsbD k = decide (12 ≤ k ∧ k < 52) := by
  rcases lt_or_ge k 64 with hk | hk
  · have hbits : ∀ k < 64, pteAddrMask.getLsbD k = decide (12 ≤ k ∧ k < 52) := by decide
    exact hbits k hk
  · simp [BitVec.getLsbD_of_ge _ _ hk]
    omega

theorem getLsbD_swapOut (e : BitVec 64) (k : ℕ) :
    (Space.swapOut slot e).getLsbD k =
      if 12 ≤ k ∧ k < 52 then slot.getLsbD (k - 12)
      else decide (k = vmmSwapped) || (e.getLsbD k && k ≠ vmmPresent && k ≠ vmmDirty) := by
  have h32 : 52 ≤ k → slot.getLsbD (k - 12) = false := fun h => BitVec.getLsbD_of_ge _ _ (by omega)
  have h64 : 64 ≤ k → e.getLsbD k = false := fun h => BitVec.getLsbD_of_ge _ _ h
  simp only [Space.swapOut, BitVec.getLsbD_or, BitVec.getLsbD_and, BitVec.getLsbD_not,
    getLsbD_bit, getLsbD_pteAddrMask, BitVec.getLsbD_shiftLeft, BitVec.getLsbD_setWidth, vmmPresent,
    vmmDirty, vmmSwapped]
  grind

theorem vmmPteSwapped_swapOut (e : BitVec 64) : vmmPteSwapped (Space.swapOut slot e) := by
  have hp := getLsbD_swapOut slot e vmmPresent
  have hs := getLsbD_swapOut slot e vmmSwapped
  simp only [vmmPteSwapped, has, hp, hs]
  simp [vmmPresent, vmmSwapped]

theorem vmmPteSwapSlot_swapOut (e : BitVec 64) :
    vmmPteSwapSlot (Space.swapOut slot e) = slot := by
  refine BitVec.eq_of_getLsbD_eq fun k hk => ?_
  have hmid : 12 ≤ 12 + k ∧ 12 + k < 52 := by omega
  simp [vmmPteSwapSlot, getLsbD_swapOut, hk, hmid]

theorem restored_swapOut {e : BitVec 64} (h : has e vmmPresent) :
    Restored e (Space.swapIn (Space.swapOut slot e) (e &&& pteAddrMask)) := by
  intro k ha hd hs
  have h64 : 64 ≤ k → e.getLsbD k = false := fun h => BitVec.getLsbD_of_ge _ _ h
  simp only [has, vmmPresent, vmmAccessed, vmmDirty, vmmSwapped] at h ha hd hs
  simp only [Space.swapIn, BitVec.getLsbD_or, BitVec.getLsbD_and, BitVec.getLsbD_not,
    getLsbD_swapOut, getLsbD_bit, getLsbD_pteAddrMask, vmmPresent, vmmAccessed, vmmDirty,
    vmmSwapped]
  grind

namespace Cleared

variable {e e' e'' : BitVec 64}

theorem trans (h : Cleared e e') (h' : Cleared e' e'') : Cleared e e'' := by
  rcases h with rfl | rfl
  · exact h'
  · rcases h' with rfl | rfl
    · exact .inr rfl
    · exact .inr (by rw [BitVec.and_assoc, BitVec.and_self])

theorem has_eq (h : Cleared e e') {k : ℕ} (hk : k ≠ vmmAccessed) : has e' k = has e k := by
  rcases h with rfl | rfl
  · rfl
  · have h64 : 64 ≤ k → e.getLsbD k = false := fun h => BitVec.getLsbD_of_ge _ _ h
    simp only [vmmAccessed] at hk
    simp only [has, BitVec.getLsbD_and, BitVec.getLsbD_not, vmmAccessed, getLsbD_bit]
    grind

theorem addr_eq (h : Cleared e e') : e' &&& pteAddrMask = e &&& pteAddrMask := by
  refine BitVec.eq_of_getLsbD_eq fun k _ => ?_
  simp only [BitVec.getLsbD_and, getLsbD_pteAddrMask]
  rcases eq_or_ne k vmmAccessed with rfl | hk
  · simp [vmmAccessed]
  · rw [show e'.getLsbD k = e.getLsbD k from h.has_eq hk]

theorem accessed (h : Cleared e e') (he : has e' vmmAccessed) : has e vmmAccessed := by
  rcases h with rfl | rfl
  · exact he
  · simp only [has, BitVec.getLsbD_and, Bool.and_eq_true] at he
    exact he.1

end Cleared

/-! ### One pass -/

namespace Space

/-- Present, the user's, not shared, owned once and outside the ranges to keep. -/
def Swappable (s : Space) (v : ℕ) : Prop :=
  v % 4096 = 0 ∧ v < userSpaceEnd ∧ ∃ e, s.walkToPte v = some e ∧ has e vmmPresent ∧
    has e vmmUser ∧ has e vmmShared = false ∧ refs (e &&& pteAddrMask) = 1 ∧
    ∀ r ∈ keep, ¬ (v < r.2 ∧ r.1 < v + 4096)

structure Like (s s' : Space) : Prop where
  pml4 : s'.pml4 = s.pml4
  pdpt : s'.pdpt = s.pdpt
  pd : s'.pd = s.pd
  pt : ∀ i, Cleared (s.pt i) (s'.pt i)

variable {refs keep slot} {s s' s'' : Space} {v v' w last : ℕ}

theorem Like.refl (s : Space) : Like s s := ⟨rfl, rfl, rfl, fun _ => .inl rfl⟩

theorem Like.trans (h : Like s s') (h' : Like s' s'') : Like s s'' :=
  ⟨h'.pml4.trans h.pml4, h'.pdpt.trans h.pdpt, h'.pd.trans h.pd, fun i => (h.pt i).trans (h'.pt i)⟩

theorem swappable_iff : s.Swappable refs keep v ↔
    v % 4096 = 0 ∧ v < userSpaceEnd ∧ s.hasTables v ∧ mayGo refs keep (s.pt (v / 4096)) v := by
  simp only [Swappable, walkToPte, mayGo, pageIsKept, Option.ite_none_right_eq_some,
    Bool.and_eq_true, Bool.not_eq_true', decide_eq_true_eq, List.any_eq_false]
  grind

theorem Like.hasTables (h : Like s s') (v : ℕ) : s'.hasTables v = s.hasTables v := by
  simp only [Space.hasTables, h.pml4, h.pdpt, h.pd]

theorem Like.swappable (h : Like s s') :
    s'.Swappable refs keep v ↔ s.Swappable refs keep v := by
  have hpt := h.pt (v / 4096)
  rw [swappable_iff, swappable_iff, h.hasTables]
  simp only [mayGo, hpt.addr_eq, hpt.has_eq (show vmmPresent ≠ vmmAccessed by decide),
    hpt.has_eq (show vmmUser ≠ vmmAccessed by decide),
    hpt.has_eq (show vmmShared ≠ vmmAccessed by decide)]

theorem skip_eq (v k : ℕ) : (v ||| (2 ^ k - 1)) + 1 = (v / 2 ^ k + 1) * 2 ^ k := by
  have hpos := Nat.two_pow_pos k
  have hor : v ||| (2 ^ k - 1) = 2 ^ k * (v / 2 ^ k) + (2 ^ k - 1) := by
    rw [Nat.two_pow_add_eq_or_of_lt (by omega)]
    refine Nat.eq_of_testBit_eq fun i => ?_
    simp only [Nat.testBit_or, Nat.testBit_two_pow_sub_one, Nat.testBit_two_pow_mul,
      Nat.testBit_div_two_pow]
    rcases lt_or_ge i k with hi | hi
    · simp [hi]
    · simp [hi, Nat.sub_add_cancel hi]
  rw [hor, Nat.add_mul, Nat.mul_comm]
  omega

/-- All that may go have had their second chance, or one of them is swapped out. -/
inductive Scans (refs : BitVec 64 → ℕ) (keep : List (ℕ × ℕ)) (slot : BitVec 32) (last : ℕ)
    (s : Space) (v : ℕ) : Space × Option (ℕ × BitVec 64) → Prop
  | none {s' : Space} (h : Like s s') (hall : ∀ w, v ≤ w → w < last → s.Swappable refs keep w →
      has (s.pt (w / 4096)) vmmAccessed ∧ ¬ has (s'.pt (w / 4096)) vmmAccessed) :
      Scans refs keep slot last s v (s', .none)
  | some {s' : Space} {virt : ℕ} (h : Like s s') (hs : s.Swappable refs keep virt) :
      Scans refs keep slot last s v (s'.set virt (swapOut slot (s'.pt (virt / 4096))),
        .some (virt, s'.pt (virt / 4096) &&& pteAddrMask))

theorem Scans.cons {r : Space × Option (ℕ × BitVec 64)}
    (h : Scans refs keep slot last s' v' r) (hlike : Like s s')
    (hskip : ∀ w, v ≤ w → w < v' → s.Swappable refs keep w →
      has (s.pt (w / 4096)) vmmAccessed ∧ ¬ has (s'.pt (w / 4096)) vmmAccessed) :
    Scans refs keep slot last s v r := by
  cases h with
  | none h hall =>
    refine .none (hlike.trans h) fun w hw hlast hs => ?_
    rcases lt_or_ge w v' with hlt | hge
    · obtain ⟨hbefore, hafter⟩ := hskip w hw hlt hs
      exact ⟨hbefore, fun he => hafter ((h.pt _).accessed he)⟩
    · obtain ⟨hbefore, hafter⟩ := hall w hge hlast (hlike.swappable.2 hs)
      exact ⟨(hlike.pt _).accessed hbefore, hafter⟩
  | some h hs => exact .some (hlike.trans h) (hlike.swappable.1 hs)

theorem nextLevel_iff {e : BitVec 64} :
    nextLevel e ↔ ¬ (!has e vmmPresent || has e vmmHuge) := by
  cases hp : has e vmmPresent <;> cases hh : has e vmmHuge <;> simp [nextLevel, hp, hh]

theorem hasTables_iff : s.hasTables v ↔ nextLevel (s.pml4 (v / 2 ^ 39)) ∧
    nextLevel (s.pdpt (v / 2 ^ 30)) ∧ nextLevel (s.pd (v / 2 ^ 21)) := by
  rw [hasTables, Bool.and_eq_true, Bool.and_eq_true, and_assoc]

theorem hasTables_congr (h : w / 2 ^ 21 = v / 2 ^ 21) : s.hasTables w = s.hasTables v := by
  have h30 : w / 2 ^ 30 = v / 2 ^ 30 := by omega
  have h39 : w / 2 ^ 39 = v / 2 ^ 39 := by omega
  simp only [hasTables, h, h30, h39]

theorem stepOver_spec (h : s.stepOver v = some v') :
    v' % 4096 = 0 ∧ ∀ w, v ≤ w → w < v' → ¬ s.hasTables w := by
  have hskip {k : ℕ} (hk : 12 ≤ k) (hno : ∀ w, w / 2 ^ k = v / 2 ^ k → ¬ s.hasTables w) :
      ((v ||| (2 ^ k - 1)) + 1) % 4096 = 0 ∧
        ∀ w, v ≤ w → w < (v ||| (2 ^ k - 1)) + 1 → ¬ s.hasTables w := by
    rw [skip_eq]
    refine ⟨Nat.mod_eq_zero_of_dvd ((pow_dvd_pow 2 hk).mul_left _), fun w hw hlt => hno w ?_⟩
    rw [Nat.mul_comm] at hlt
    exact Nat.le_antisymm (Nat.le_of_lt_succ (Nat.div_lt_of_lt_mul hlt)) (Nat.div_le_div_right hw)
  unfold stepOver at h
  split_ifs at h with h4 h3 h2
  · cases h
    refine hskip (by decide) fun w hw ht => nextLevel_iff.1 (hw ▸ (hasTables_iff.1 ht).1) ?_
    rw [h4, Bool.true_or]
  · cases h
    exact hskip (by decide) fun w hw ht => nextLevel_iff.1 (hw ▸ (hasTables_iff.1 ht).2.1) h3
  · cases h
    exact hskip (by decide) fun w hw ht => nextLevel_iff.1 (hw ▸ (hasTables_iff.1 ht).2.2) h2

theorem hasTables_of_stepOver (h : s.stepOver v = none) : s.hasTables v := by
  unfold stepOver at h
  split_ifs at h with h4 h3 h2
  refine hasTables_iff.2 ⟨nextLevel_iff.2 ?_, nextLevel_iff.2 h3, nextLevel_iff.2 h2⟩
  rwa [s.pml4_small, Bool.or_false]

theorem like_clear (s : Space) (v : ℕ) :
    Like s (s.set v (s.pt (v / 4096) &&& ~~~bit vmmAccessed)) := by
  refine ⟨rfl, rfl, rfl, fun i => ?_⟩
  unfold set
  rcases eq_or_ne i (v / 4096) with rfl | hne
  · exact .inr (Function.update_self ..)
  · exact .inl (Function.update_of_ne hne _ _)

theorem scans_swapScan (inTable : Bool) (s : Space) (hv : v % 4096 = 0)
    (ht : inTable → s.hasTables v) (hlast : last ≤ userSpaceEnd) :
    Scans refs keep slot last s v (swapScan refs keep slot last inTable s v) := by
  have htables {inTable : Bool} {s : Space} {v : ℕ} (ht : inTable → s.hasTables v)
      (h : (if inTable then none else s.stepOver v) = none) : s.hasTables v := by
    split_ifs at h with hin
    · exact ht hin
    · exact hasTables_of_stepOver h
  have hmore {s : Space} {v : ℕ} (hv : v % 4096 = 0) (h : s.hasTables v)
      (hmore : decide ((v + 4096) % 2 ^ 21 ≠ 0)) : s.hasTables (v + 4096) := by
    rw [decide_eq_true_eq] at hmore
    have hdiv : (v + 4096) / 2 ^ 21 = v / 2 ^ 21 := by omega
    rwa [hasTables_congr hdiv]
  have hself {s : Space} {v w : ℕ} (hv : v % 4096 = 0) (hw : v ≤ w) (hlt : w < v + 4096)
      (hs : s.Swappable refs keep w) : w = v := by
    have := hs.1
    omega
  fun_induction swapScan refs keep slot last inTable s v with
  | case1 inTable s v hlt v' h ih =>
    obtain ⟨hv', hno⟩ := stepOver_spec (Option.ite_none_left_eq_some.1 h).2
    refine (ih hv' nofun).cons (.refl s) fun w hw hw' hs => ?_
    exact absurd (swappable_iff.1 hs).2.2.1 (hno w hw hw')
  | case2 inTable s v hlt h entry more hgo hacc ih =>
    have hlike := like_clear s v
    refine (ih (by omega) fun hm => ?_).cons hlike fun w hw hw' hs => ?_
    · rw [hlike.hasTables]
      exact hmore hv (htables ht h) hm
    · obtain rfl := hself hv hw hw' hs
      exact ⟨hacc, by simp [set, has, vmmAccessed]⟩
  | case3 inTable s v hlt h entry hgo hacc =>
    exact .some (.refl s) (swappable_iff.2 ⟨hv, by omega, htables ht h, hgo⟩)
  | case4 inTable s v hlt h entry more hgo ih =>
    refine (ih (by omega) (hmore hv (htables ht h))).cons (.refl s) fun w hw hw' hs => ?_
    obtain rfl := hself hv hw hw' hs
    exact absurd (swappable_iff.1 hs).2.2.2 hgo
  | case5 inTable s v hlt => exact .none (.refl s) fun w hw hlast => by omega

/-! ### The page -/

variable (refs keep slot) in
theorem vmmSwapPick_cases (s : Space) (cursor : ℕ) :
    (∃ s' virt, Like s s' ∧ s.Swappable refs keep virt ∧
      s.vmmSwapPick refs keep slot cursor =
        (s'.set virt (swapOut slot (s'.pt (virt / 4096))), virt + 4096,
          some (virt, s'.pt (virt / 4096) &&& pteAddrMask))) ∨
      (∀ v, ¬ s.Swappable refs keep v) ∧ (s.vmmSwapPick refs keep slot cursor).2.2 = none := by
  have hscan (s : Space) (v : ℕ) : Scans refs keep slot userSpaceEnd s (v / 4096 * 4096)
      (swapScan refs keep slot userSpaceEnd false s (v / 4096 * 4096)) :=
    scans_swapScan false s (Nat.mul_mod_left _ _) nofun le_rfl
  unfold vmmSwapPick
  dsimp only
  have h1 := hscan s (if cursor < userSpaceEnd then cursor else 0)
  generalize swapScan refs keep slot userSpaceEnd false s _ = r1 at h1 ⊢
  cases h1 with
  | some h hs => exact .inl ⟨_, _, h, hs, rfl⟩
  | @none s1 h _ =>
  dsimp only
  have h2 := hscan s1 0
  generalize swapScan refs keep slot userSpaceEnd false s1 _ = r2 at h2 ⊢
  cases h2 with
  | some h' hs => exact .inl ⟨_, _, h.trans h', h.swappable.1 hs, rfl⟩
  | @none s2 h' hall =>
  dsimp only
  have h3 := hscan s2 0
  generalize swapScan refs keep slot userSpaceEnd false s2 _ = r3 at h3 ⊢
  cases h3 with
  | some h'' hs => exact .inl ⟨_, _, (h.trans h').trans h'', (h.trans h').swappable.1 hs, rfl⟩
  | none h'' hall' =>
    -- a page that may go was left alone by the third pass because it had been used since the second
    refine .inr ⟨fun v hs => ?_, rfl⟩
    have hs1 := h.swappable.2 hs
    exact (hall v (Nat.zero_le v) hs.2.1 hs1).2
      (hall' v (Nat.zero_le v) hs.2.1 (h'.swappable.2 hs1)).1

/-- But for accessed bits only the entry of `virt` has changed, which names the slot, and with the
frame put back it is the page it was. -/
structure Picked (s : Space) (slot : BitVec 32) (s' : Space) (virt : ℕ) (frame : BitVec 64) :
    Prop where
  tables : s'.pml4 = s.pml4 ∧ s'.pdpt = s.pdpt ∧ s'.pd = s.pd
  others : ∀ i, i ≠ virt / 4096 → Cleared (s.pt i) (s'.pt i)
  swapped : vmmPteSwapped (s'.pt (virt / 4096))
  slot_eq : vmmPteSwapSlot (s'.pt (virt / 4096)) = slot
  install : ∃ e, s'.vmmSwapInstall virt frame = (s'.set virt e, true) ∧
    Restored (s.pt (virt / 4096)) e

theorem Like.picked (h : Like s s') (hs : s.Swappable refs keep v) :
    Picked s slot (s'.set v (swapOut slot (s'.pt (v / 4096)))) v
      (s'.pt (v / 4096) &&& pteAddrMask) := by
  obtain ⟨hv, hlt, htables, hgo⟩ := swappable_iff.1 hs
  have hpresent : has (s.pt (v / 4096)) vmmPresent := by
    simp only [mayGo, Bool.and_eq_true] at hgo
    exact hgo.1.1.1.1
  have hpresent' : has (s'.pt (v / 4096)) vmmPresent :=
    ((h.pt _).has_eq (by decide)).trans hpresent
  have hself : (s'.set v (swapOut slot (s'.pt (v / 4096)))).pt (v / 4096) =
      swapOut slot (s'.pt (v / 4096)) := Function.update_self ..
  have hpage : v / 4096 * 4096 = v := by omega
  have hwalk : (s'.set v (swapOut slot (s'.pt (v / 4096)))).walkToPte v =
      some (swapOut slot (s'.pt (v / 4096))) := by
    unfold walkToPte
    rw [hself]
    exact if_pos ((h.hasTables v).trans htables)
  refine ⟨⟨h.pml4, h.pdpt, h.pd⟩, fun i hi => ?_, ?_, ?_,
    swapIn (swapOut slot (s'.pt (v / 4096))) (s'.pt (v / 4096) &&& pteAddrMask), ?_,
    fun k ha hd hw => ?_⟩
  · simp only [set, Function.update_of_ne hi]
    exact h.pt i
  · rw [hself]
    exact vmmPteSwapped_swapOut slot _
  · rw [hself]
    exact vmmPteSwapSlot_swapOut slot _
  · unfold vmmSwapInstall
    rw [if_neg (not_le.2 hlt), hpage, hwalk]
    exact if_pos (vmmPteSwapped_swapOut slot _)
  · rw [restored_swapOut slot hpresent' k ha hd hw]
    exact (h.pt _).has_eq ha

end Space

/-- `vmm_swap_pick` finds a page if and only if there is one that may go; and it swaps out one that
may. -/
theorem swap_pick_finds (refs : BitVec 64 → ℕ) (keep : List (ℕ × ℕ)) (slot : BitVec 32) (s : Space)
    (cursor : ℕ) :
    ((s.vmmSwapPick refs keep slot cursor).2.2.isSome ↔ ∃ v, s.Swappable refs keep v) ∧
      ∀ virt frame, (s.vmmSwapPick refs keep slot cursor).2.2 = some (virt, frame) →
        s.Swappable refs keep virt ∧
          s.Picked slot (s.vmmSwapPick refs keep slot cursor).1 virt frame := by
  rcases s.vmmSwapPick_cases refs keep slot cursor with ⟨s', v, h, hs, hpick⟩ | ⟨hno, hpick⟩
  · rw [hpick]
    refine ⟨⟨fun _ => ⟨v, hs⟩, fun _ => rfl⟩, fun virt frame he => ?_⟩
    cases he
    exact ⟨hs, h.picked hs⟩
  · rw [hpick]
    exact ⟨⟨nofun, fun ⟨v, hs⟩ => absurd hs (hno v)⟩, nofun⟩

end Bashket.SwapPick
