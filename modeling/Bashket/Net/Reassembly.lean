import Bashket.Lib.Refs
import Bashket.Net.Fragments

/-!
# Reassembly keeps its books

Whatever fragments arrive, the datagrams in progress hold pieces in order that do not overlap, and
the counters fit them. A datagram is complete when it holds as many bytes as it is long, which means
that its pieces leave no gap.
-/

namespace Bashket.Net

open List
open Function (update update_eq_self update_of_ne update_self)

/-- The piece is a fragment of this datagram that has arrived. -/
def Piece.From (fs : List Fragment) (k : Key) (more : Bool) (p : Piece) : Prop :=
  ∃ f ∈ fs, f.key = k ∧ f.more = more ∧ f.offset = p.offset ∧ f.data = p.data

/-- What holds of a datagram in progress, of these fragments that have arrived. -/
structure Reassembly.Ok (fs : List Fragment) (r : Reassembly) : Prop where
  apart : Tiles.Apart Piece.offset Piece.len 0 r.pieces ipv4PayloadMax
  sorted : r.pieces.Pairwise fun p q => p.offset < q.offset
  received : r.received = (r.pieces.map Piece.len).sum
  cost : r.cost = (r.pieces.map fun p => ipfragPieceOverhead + p.len).sum
  total : r.total ≠ 0 → ∀ p ∈ r.pieces, p.offset + p.len ≤ r.total
  last : r.total ≠ 0 → ∃ p ∈ r.pieces, p.offset + p.len = r.total ∧ p.From fs r.key false
  empty : ∀ p ∈ r.pieces, p.len = 0 → p.From fs r.key false ∧ (r.total = 0 → p.offset = 0)
  origin : ∀ p ∈ r.pieces, ∃ more, p.From fs r.key more

def slotCost (slot : Option Reassembly) : ℕ := slot.elim 0 Reassembly.cost

structure State.Ok (fs : List Fragment) (s : State) : Prop where
  slots : ∀ i r, s.slots i = some r → r.Ok fs
  memory : s.memoryUsed = ∑ i, slotCost (s.slots i)
  bound : s.memoryUsed ≤ ipfragMemory
  unique : ∀ i j r t, s.slots i = some r → s.slots j = some t → r.key = t.key → i = j

def Fragment.Fits (f : Fragment) : Prop := f.offset + f.len < 2 ^ 64

variable {fs gs : List Fragment} {f : Fragment} {r : Reassembly} {s : State} {p : Piece} {k : Key}
  {i j : Fin ipfragSlots} {more : Bool}

theorem Piece.From.mono (h : p.From fs k more) (hs : ∀ f ∈ fs, f ∈ gs) : p.From gs k more := by
  obtain ⟨f, hf, h1⟩ := h
  exact ⟨f, hs f hf, h1⟩

theorem Reassembly.Ok.mono (h : r.Ok fs) (hs : ∀ f ∈ fs, f ∈ gs) : r.Ok gs where
  apart := h.apart
  sorted := h.sorted
  received := h.received
  cost := h.cost
  total := h.total
  last ht := by
    obtain ⟨p, hp, h1, h2⟩ := h.last ht
    exact ⟨p, hp, h1, h2.mono hs⟩
  empty p hp h0 := ⟨(h.empty p hp h0).1.mono hs, (h.empty p hp h0).2⟩
  origin p hp := by
    obtain ⟨more, h1⟩ := h.origin p hp
    exact ⟨more, h1.mono hs⟩

theorem State.Ok.mono (h : s.Ok fs) (hs : ∀ f ∈ fs, f ∈ gs) : s.Ok gs :=
  ⟨fun i r hr => (h.slots i r hr).mono hs, h.memory, h.bound, h.unique⟩

/-! ### Keeping a piece -/

namespace Fragment

theorem stop_le (hm : f.malformed = false) : f.stop ≤ ipv4PayloadMax := by
  simp only [malformed, Bool.or_eq_false_iff, decide_eq_false_iff_not, not_lt] at hm
  exact hm.2

theorem stop_eq (hf : f.Fits) : f.stop = f.offset + f.len := Nat.mod_eq_of_lt hf

theorem more_of_empty (hm : f.malformed = false) (hl : f.len = 0) : f.more = false := by
  cases hmore : f.more with
  | false => rfl
  | true => simp [malformed, hmore, hl] at hm

theorem piece_offset (hf : f.Fits) (hm : f.malformed = false) : f.piece.offset = f.offset := by
  have h1 := stop_le hm
  rw [stop_eq hf, ipv4PayloadMax] at h1
  exact Nat.mod_eq_of_lt (by omega)

end Fragment

namespace Reassembly

theorem Ok.stop_eq (h : r.Ok fs) (hp : p ∈ r.pieces) : p.stop = p.offset + p.len := by
  have h1 := (h.apart.bounds hp).2
  rw [ipv4PayloadMax] at h1
  exact Nat.mod_eq_of_lt (by omega)

variable (r f) in
theorem pieces_eq : r.pieces = r.before f ++ r.after f :=
  (takeWhile_append_dropWhile ..).symm

theorem lt_of_mem_before (hp : p ∈ r.before f) : p.offset < f.offset := by
  simpa using mem_takeWhile_imp hp

theorem le_of_head_after (hp : p ∈ (r.after f).head?) : f.offset ≤ p.offset := by
  have h := head?_dropWhile_not (fun p : Piece => decide (p.offset < f.offset)) r.pieces
  rw [after] at hp
  rw [Option.mem_def.1 hp] at h
  simpa using h

theorem mem_of_mem_before (hp : p ∈ r.before f) : p ∈ r.pieces := by
  rw [r.pieces_eq f]
  exact mem_append_left _ hp

theorem mem_of_mem_after (hp : p ∈ r.after f) : p ∈ r.pieces := by
  rw [r.pieces_eq f]
  exact mem_append_right _ hp

theorem Ok.gap (h : r.Ok fs) (hf : f.Fits) (ho : r.overlaps f = false) :
    (∀ p ∈ (r.before f).getLast?, p.offset + p.len ≤ f.offset) ∧
    ∀ p ∈ (r.after f).head?, f.offset + f.len ≤ p.offset := by
  rw [overlaps, Bool.or_eq_false_iff] at ho
  constructor
  · intro p hp
    have h1 := ho.1
    rw [Option.mem_def.1 hp] at h1
    simp only [decide_eq_false_iff_not, not_lt] at h1
    rwa [h.stop_eq (mem_of_mem_before (mem_of_getLast? hp))] at h1
  · intro p hp
    have h1 := ho.2
    rw [Option.mem_def.1 hp] at h1
    simp only [decide_eq_false_iff_not, not_lt] at h1
    rwa [Fragment.stop_eq hf] at h1

theorem end_of_contradicts (hc : r.contradicts f = false) :
    (r.total ≠ 0 → f.stop ≤ r.total) ∧ (f.more = false → r.total ≠ 0 → f.stop = r.total) ∧
    (f.more = false → r.total = 0 → ∀ p ∈ r.after f, p.stop ≤ f.stop) := by
  simp only [contradicts, Bool.or_eq_false_iff, Bool.and_eq_false_iff, decide_eq_false_iff_not, not_lt] at hc
  obtain ⟨⟨h1, h2⟩, h3⟩ := hc
  refine ⟨fun ht => ?_, fun hm ht => ?_, fun hm ht => ?_⟩
  · exact h1.resolve_left (fun h0 => h0 ht)
  · rw [hm] at h2
    simpa [ht] using h2
  · rw [hm] at h3
    simpa [ht] using h3

theorem Ok.lt_next (h : r.Ok fs) (hf : f.Fits) (hm : f.malformed = false)
    (hd : r.duplicate f = false) (ho : r.overlaps f = false) (hc : r.contradicts f = false)
    (hp : p ∈ (r.after f).head?) : f.offset < p.offset := by
  obtain ⟨h1, h2, h3⟩ := end_of_contradicts hc
  have hgap := (h.gap hf ho).2 p hp
  have hmem : p ∈ r.after f := mem_of_head? hp
  have hpm := mem_of_mem_after hmem
  refine lt_of_le_of_ne (le_of_head_after hp) fun heq => ?_
  have hlen : f.len = 0 := by omega
  have hmore := Fragment.more_of_empty hm hlen
  have hstop := Fragment.stop_eq hf
  -- the piece is empty too, and the datagram ends here
  have hboth : p.len = 0 ∧ r.total = f.stop := by
    by_cases ht : r.total = 0
    · have h4 := h3 hmore ht p hmem
      rw [h.stop_eq hpm] at h4
      have hpl : p.len = 0 := by omega
      have hp0 := (h.empty p hpm hpl).2 ht
      exact ⟨hpl, by omega⟩
    · have h4 := h2 hmore ht
      have h5 := h.total ht p hpm
      exact ⟨by omega, h4.symm⟩
  rw [duplicate, Option.mem_def.1 hp] at hd
  simp [heq, hlen, hboth.1, hboth.2] at hd

theorem Ok.le_stop (h : r.Ok fs) (hf : f.Fits) (ho : r.overlaps f = false)
    (hc : r.contradicts f = false) (hmore : f.more = false) (hp : p ∈ r.pieces) :
    p.offset + p.len ≤ f.stop := by
  obtain ⟨-, h2, h3⟩ := end_of_contradicts hc
  by_cases ht : r.total = 0
  · rw [r.pieces_eq f, mem_append] at hp
    rcases hp with hp | hp
    · have hb : Tiles.Apart Piece.offset Piece.len 0 (r.before f) f.offset := by
        have h0 := h.apart
        rw [r.pieces_eq f] at h0
        obtain ⟨mid, h4, -⟩ := Tiles.apart_append.1 h0
        exact h4.until (Nat.zero_le _) (h.gap hf ho).1
      have h5 := (hb.bounds hp).2
      rw [Fragment.stop_eq hf]
      omega
    · rw [← h.stop_eq (mem_of_mem_after hp)]
      exact h3 hmore ht p hp
  · rw [h2 hmore ht]
    exact h.total ht p hp

theorem mem_keep : p ∈ (r.keep f).pieces ↔ p = f.piece ∨ p ∈ r.pieces := by
  rw [keep, r.pieces_eq f]
  simp only [mem_append, mem_cons]
  tauto

theorem Ok.keep (h : r.Ok fs) (hmem : f ∈ fs) (hkey : f.key = r.key) (hf : f.Fits)
    (hm : f.malformed = false) (hd : r.duplicate f = false) (ho : r.overlaps f = false)
    (hc : r.contradicts f = false) : (r.keep f).Ok fs := by
  obtain ⟨hlast, hhead⟩ := h.gap hf ho
  obtain ⟨h1, h2, -⟩ := end_of_contradicts hc
  have hoff := Fragment.piece_offset hf hm
  have hstop := Fragment.stop_eq hf
  have hmax := Fragment.stop_le hm
  have hfrom : f.piece.From fs r.key f.more := ⟨f, hmem, hkey, rfl, hoff.symm, rfl⟩
  have hlen : f.piece.len = f.len := rfl
  have hpe := r.pieces_eq f
  refine ⟨?_, ?_, ?_, ?_, fun ht p hp => ?_, fun ht => ?_, fun p hp h0 => ?_, fun p hp => ?_⟩
  · have h0 := h.apart
    rw [hpe] at h0
    refine h0.insert (Nat.zero_le _) ?_ ?_ ?_ <;> rw [hoff]
    · omega
    · exact hlast
    · exact hhead
  · have h0 := h.sorted
    rw [hpe, pairwise_append] at h0
    refine pairwise_append.2 ⟨h0.1, pairwise_cons.2 ⟨fun q hq => ?_, h0.2.1⟩, ?_⟩
    · rw [hoff]
      cases hafter : r.after f with
      | nil =>
        rw [hafter] at hq
        cases hq
      | cons next rest =>
        have hn := h.lt_next hf hm hd ho hc (p := next) (by rw [hafter]; rfl)
        rw [hafter] at hq h0
        rcases mem_cons.1 hq with rfl | hq
        · exact hn
        · exact hn.trans (rel_of_pairwise_cons h0.2.1 hq)
    · intro p hp q hq
      rcases mem_cons.1 hq with rfl | hq
      · rw [hoff]
        exact lt_of_mem_before hp
      · exact h0.2.2 p hp q hq
  · have h0 := h.received
    rw [hpe] at h0
    simp only [Reassembly.keep, h0, map_append, sum_append, map_cons, sum_cons]
    omega
  · have h0 := h.cost
    rw [hpe] at h0
    simp only [Reassembly.keep, h0, map_append, sum_append, map_cons, sum_cons, Fragment.cost]
    omega
  · rw [mem_keep] at hp
    cases hmore : f.more with
    | true =>
      simp only [Reassembly.keep, hmore, if_true] at ht ⊢
      rcases hp with rfl | hp
      · have h3 := h1 ht
        omega
      · exact h.total ht p hp
    | false =>
      simp only [Reassembly.keep, hmore, Bool.false_eq_true, if_false] at ht ⊢
      rcases hp with rfl | hp
      · omega
      · exact h.le_stop hf ho hc hmore hp
  · cases hmore : f.more with
    | true =>
      simp only [Reassembly.keep, hmore] at ht ⊢
      obtain ⟨p, hp, h3, h4⟩ := h.last ht
      exact ⟨p, mem_keep.2 (.inr hp), h3, h4⟩
    | false =>
      rw [hmore] at hfrom
      refine ⟨f.piece, mem_keep.2 (.inl rfl), ?_, hfrom⟩
      simp only [Reassembly.keep, hmore, Bool.false_eq_true, if_false]
      rw [hoff, hlen, hstop]
  · rw [mem_keep] at hp
    rcases hp with rfl | hp
    · have hmore := Fragment.more_of_empty hm h0
      rw [hmore] at hfrom
      refine ⟨hfrom, fun ht => ?_⟩
      simp only [Reassembly.keep, hmore, Bool.false_eq_true, if_false] at ht
      omega
    · obtain ⟨h3, h4⟩ := h.empty p hp h0
      refine ⟨h3, fun ht => h4 ?_⟩
      cases hmore : f.more with
      | true => simpa only [Reassembly.keep, hmore, if_true] using ht
      | false =>
        simp only [Reassembly.keep, hmore] at ht
        by_contra h5
        exact h5 ((h2 hmore h5).symm.trans ht)
  · rw [mem_keep] at hp
    rcases hp with rfl | hp
    · exact ⟨f.more, hfrom⟩
    · exact h.origin p hp

end Reassembly

/-! ### The table -/

namespace State

@[simp] theorem count_slots (s : State) (g : Stats → Stats) : (s.count g).slots = s.slots := rfl

@[simp] theorem count_memoryUsed (s : State) (g : Stats → Stats) :
    (s.count g).memoryUsed = s.memoryUsed := rfl

theorem Ok.count (h : s.Ok fs) (g : Stats → Stats) : (s.count g).Ok fs :=
  ⟨h.slots, h.memory, h.bound, h.unique⟩

theorem Ok.set (h : s.Ok fs) {x : Option Reassembly} {m : ℕ} (hx : ∀ r ∈ x, r.Ok fs)
    (hk : ∀ r ∈ x, ∀ j t, j ≠ i → s.slots j = some t → t.key ≠ r.key)
    (hm : m + slotCost (s.slots i) = s.memoryUsed + slotCost x) (hb : m ≤ ipfragMemory) :
    State.Ok fs { s with slots := update s.slots i x, memoryUsed := m } where
  slots j r hj := by
    by_cases hji : j = i
    · subst hji
      simp only [update_self] at hj
      exact hx r hj
    · simp only [update_of_ne hji] at hj
      exact h.slots j r hj
  memory := by
    have h1 := Refs.sum_update slotCost s.slots i x
    have h2 := h.memory
    show m = ∑ j, slotCost (update s.slots i x j)
    omega
  bound := hb
  unique j l r t hj hl hkey := by
    by_cases hji : j = i <;> by_cases hli : l = i
    · rw [hji, hli]
    · subst hji
      simp only [update_self, update_of_ne hli] at hj hl
      exact absurd hkey.symm (hk r hj l t hli hl)
    · subst hli
      simp only [update_self, update_of_ne hji] at hj hl
      exact absurd hkey (hk t hl j r hji hj)
    · simp only [update_of_ne hji, update_of_ne hli] at hj hl
      exact h.unique j l r t hj hl hkey

theorem release_slots (s : State) (i : Fin ipfragSlots) :
    (s.release i).slots = update s.slots i none := by
  rw [release]
  split
  · rename_i h0
    rw [← h0, update_eq_self]
  · rfl

theorem Ok.cost_le (h : s.Ok fs) (hr : s.slots i = some r) : r.cost ≤ s.memoryUsed := by
  rw [h.memory]
  have h0 := Finset.single_le_sum (f := fun j => slotCost (s.slots j))
    (fun j _ => Nat.zero_le _) (Finset.mem_univ i)
  rw [hr] at h0
  exact h0

theorem Ok.release (h : s.Ok fs) (i : Fin ipfragSlots) : (s.release i).Ok fs := by
  rw [State.release]
  split
  · exact h
  · rename_i r hr
    have h1 := h.cost_le hr
    have h2 := h.bound
    refine h.set (fun _ h0 => nomatch h0) (fun _ h0 => nomatch h0) ?_ (by omega)
    rw [hr]
    show s.memoryUsed - r.cost + r.cost = s.memoryUsed + 0
    omega

/-! ### Giving up other datagrams -/

/-- Some other datagrams have been given up, or nothing has changed in the table. -/
structure Freed (s s' : State) : Prop where
  slots : ∀ j, s'.slots j = s.slots j ∨ s'.slots j = none
  evicted : s'.slots = s.slots ∨ s.stats.evicted < s'.stats.evicted
  le : s.stats.evicted ≤ s'.stats.evicted
  timeoutTicks : s'.timeoutTicks = s.timeoutTicks

theorem Freed.refl (s : State) : s.Freed s := ⟨fun _ => .inl rfl, .inl rfl, le_rfl, rfl⟩

theorem Freed.trans {s₁ s₂ s₃ : State} (h₁ : s₁.Freed s₂) (h₂ : s₂.Freed s₃) : s₁.Freed s₃ where
  slots j := by
    rcases h₂.slots j with h | h
    · rw [h]
      exact h₁.slots j
    · exact .inr h
  evicted := by
    rcases h₁.evicted with h | h
    · rcases h₂.evicted with h' | h'
      · exact .inl (h'.trans h)
      · exact .inr (h₁.le.trans_lt h')
    · exact .inr (h.trans_le h₂.le)
  le := h₁.le.trans h₂.le
  timeoutTicks := h₂.timeoutTicks.trans h₁.timeoutTicks

theorem evict_slots (s : State) (i : Fin ipfragSlots) :
    (s.evict i).slots = update s.slots i none := s.release_slots i

theorem freed_evict (s : State) (i : Fin ipfragSlots) : s.Freed (s.evict i) := by
  have hrel : (s.release i).stats = s.stats ∧ (s.release i).timeoutTicks = s.timeoutTicks := by
    rw [release]
    split <;> exact ⟨rfl, rfl⟩
  have hlt : s.stats.evicted < (s.evict i).stats.evicted := by
    show s.stats.evicted < (s.release i).stats.evicted + 1
    rw [hrel.1]
    omega
  refine ⟨fun j => ?_, .inr hlt, hlt.le, hrel.2⟩
  rw [evict_slots]
  by_cases hj : j = i
  · subst hj
    exact .inr (update_self ..)
  · exact .inl (update_of_ne hj _ _)

theorem Ok.evict (h : s.Ok fs) (i : Fin ipfragSlots) : (s.evict i).Ok fs := (h.release i).count _

theorem Ok.freeSlot (h : s.Ok fs) :
    s.freeSlot.1.Ok fs ∧ s.freeSlot.1.slots s.freeSlot.2 = none ∧ s.Freed s.freeSlot.1 ∧
    ∀ j, j ≠ s.freeSlot.2 → s.freeSlot.1.slots j = s.slots j := by
  rw [State.freeSlot]
  split
  · rename_i i hi
    refine ⟨h, ?_, .refl s, fun _ _ => rfl⟩
    simpa using find?_some hi
  · rename_i hn
    have hused (i : Fin ipfragSlots) : s.slots i ≠ none := by
      simpa using find?_eq_none.1 hn i (mem_finRange i)
    split
    · rename_i i hi
      refine ⟨h.evict i, ?_, s.freed_evict i, fun j hj => ?_⟩
      · rw [evict_slots, update_self]
      · rw [evict_slots, update_of_ne hj]
    · rename_i hn
      cases (s.oldestExcept_spec none).2 hn 0 (hused 0)

theorem Ok.makeRoom (h : s.Ok fs) (i : Fin ipfragSlots) (cost fuel : ℕ) :
    (State.makeRoom i cost fuel s).1.Ok fs ∧ s.Freed (State.makeRoom i cost fuel s).1 ∧
    (State.makeRoom i cost fuel s).1.slots i = s.slots i ∧
    ((State.makeRoom i cost fuel s).2 = true →
      (State.makeRoom i cost fuel s).1.memoryUsed + cost ≤ ipfragMemory) := by
  induction fuel generalizing s with
  | zero => exact ⟨h, .refl s, rfl, fun h0 => of_decide_eq_true h0⟩
  | succ fuel ih =>
    rw [State.makeRoom]
    split_ifs with h0
    · exact ⟨h, .refl s, rfl, fun _ => h0⟩
    · split
      · exact ⟨h, .refl s, rfl, nofun⟩
      · rename_i victim hv
        obtain ⟨h1, h2, h3, h4⟩ := ih (h.evict victim)
        refine ⟨h1, (s.freed_evict victim).trans h2, h3.trans ?_, h4⟩
        have hne : i ≠ victim := by
          rintro rfl
          exact ((s.oldestExcept_spec _).1 i hv).2 rfl
        rw [evict_slots, update_of_ne hne]

/-! ### Taking in a fragment -/

theorem find_spec (s : State) (k : Key) :
    (∀ i ∈ s.find k, ∃ r, s.slots i = some r ∧ r.key = k) ∧
    (s.find k = none → ∀ i r, s.slots i = some r → r.key ≠ k) := by
  constructor
  · intro i hi
    have h0 := find?_some (Option.mem_def.1 hi)
    cases hs : s.slots i with
    | none => simp [hs] at h0
    | some r => exact ⟨r, rfl, by simpa [hs] using h0⟩
  · intro hn i r hr hk
    simpa [hr, hk] using find?_eq_none.1 hn i (mem_finRange i)

def fresh (k : Key) (deadline : ℕ) : Reassembly := ⟨k, [], 0, 0, 0, deadline, none⟩

theorem fresh_ok (fs : List Fragment) (k : Key) (deadline : ℕ) : (fresh k deadline).Ok fs where
  apart := Nat.zero_le _
  sorted := List.Pairwise.nil
  received := rfl
  cost := rfl
  total h := absurd rfl h
  last h := absurd rfl h
  empty _ hp := by cases hp
  origin _ hp := by cases hp

theorem Ok.slotFor (h : s.Ok fs) (k : Key) (now : ℕ) : ∃ s' i r started,
    s.slotFor k now = (s', i, r, started) ∧ s'.Ok fs ∧ s'.slots i = some r ∧ r.key = k ∧
    (∀ j, j ≠ i → s'.slots j = s.slots j) ∧
    (s' = s ∨ r = fresh k ((now + s.timeoutTicks) % 2 ^ 64) ∧ s.find k = none ∧
      (s.slots i = none ∨ s.stats.evicted < s'.stats.evicted) ∧
      s.stats.evicted ≤ s'.stats.evicted ∧ s'.timeoutTicks = s.timeoutTicks) := by
  rw [State.slotFor]
  cases hf : s.find k with
  | some i =>
    obtain ⟨r, hr, hk⟩ := (s.find_spec k).1 i hf
    simp only [hr]
    exact ⟨s, i, r, false, rfl, h, hr, hk, fun _ _ => rfl, .inl rfl⟩
  | none =>
    obtain ⟨h1, h2, h3, h4⟩ := h.freeSlot
    rcases hx : s.freeSlot with ⟨s', i⟩
    rw [hx] at h1 h2 h3 h4
    simp only at h1 h2 h3 h4 ⊢
    refine ⟨_, i, fresh k ((now + s'.timeoutTicks) % 2 ^ 64), true, rfl, ?_, update_self ..,
      rfl, fun j hj => (update_of_ne hj _ _).trans (h4 j hj), .inr ⟨?_, trivial, ?_, h3.le,
        h3.timeoutTicks⟩⟩
    · have hset := h1.set (i := i) (x := some (fresh k ((now + s'.timeoutTicks) % 2 ^ 64)))
        (m := s'.memoryUsed)
        (fun r hr => by
          cases hr
          exact fresh_ok _ _ _)
        (fun r hr j t hj ht => by
          cases hr
          rw [h4 j hj] at ht
          exact (s.find_spec k).2 hf j t ht)
        (by rw [h2]; rfl) h1.bound
      exact hset
    · rw [h3.timeoutTicks]
    · rcases h3.evicted with h5 | h5
      · exact .inl (by rw [← h5, h2])
      · exact .inr h5

theorem Ok.place (h : s.Ok fs) (hr : s.slots i = some r) (hmem : f ∈ fs) (hkey : f.key = r.key)
    (hf : f.Fits) (hm : f.malformed = false) :
    (s.place i r f).1.Ok fs ∧ ∀ t ∈ (s.place i r f).2, t.Ok fs ∧ t.complete = true ∧ t.key = r.key := by
  have hrok := h.slots i r hr
  rw [State.place]
  split_ifs with hd hoc <;> dsimp only
  · exact ⟨h.count _, fun _ h0 => nomatch h0⟩
  · exact ⟨(h.release i).count _, fun _ h0 => nomatch h0⟩
  · rw [Bool.not_eq_true] at hd hoc
    rw [Bool.or_eq_false_iff] at hoc
    obtain ⟨h1, -, h3, h4⟩ := h.makeRoom i f.cost ipfragSlots
    rcases hx : State.makeRoom i f.cost ipfragSlots s with ⟨s', b⟩
    rw [hx] at h1 h3 h4
    simp only at h1 h3 h4
    rw [hr] at h3
    have hkeep := hrok.keep hmem hkey hf hm hd hoc.1 hoc.2
    have hcost : (r.keep f).cost = r.cost + f.cost := rfl
    cases b with
    | false =>
      dsimp only
      exact ⟨(h1.release i).count _, fun _ h0 => nomatch h0⟩
    | true =>
      have hroom := h4 rfl
      have hle := h1.cost_le h3
      split_ifs with hcomp
      · refine ⟨h1.set (fun _ h0 => nomatch h0) (fun _ h0 => nomatch h0) ?_ (by omega), ?_⟩
        · rw [h3]
          show s'.memoryUsed + f.cost - (r.keep f).cost + r.cost = s'.memoryUsed + 0
          omega
        · intro t ht
          cases ht
          exact ⟨hkeep, hcomp, rfl⟩
      · refine ⟨h1.set ?_ ?_ ?_ hroom, fun _ h0 => nomatch h0⟩
        · intro t ht
          cases ht
          exact hkeep
        · intro t ht j u hj hu hk
          cases ht
          exact hj (h1.unique j i u r hu h3 hk)
        · rw [h3]
          show s'.memoryUsed + f.cost + r.cost = s'.memoryUsed + (r.keep f).cost
          omega

end State

/-! ### What is handed on -/

/-- It is tiled by fragments of the datagram, the last of which had no more to come. -/
def HandedOn (fs : List Fragment) (k : Key) (whole : List UInt8) : Prop :=
  ∃ l : List Fragment, (∀ f ∈ l, f ∈ fs ∧ f.key = k) ∧
    Tiles.Tiling Fragment.offset Fragment.len 0 l whole.length ∧
    whole = (l.map Fragment.data).flatten ∧ ∃ f ∈ l.getLast?, f.more = false

namespace Reassembly

theorem Ok.tiling (h : r.Ok fs) (hc : r.complete = true) :
    Tiles.Tiling Piece.offset Piece.len 0 r.pieces r.total := by
  simp only [complete, Bool.and_eq_true, decide_eq_true_eq] at hc
  refine (h.apart.until (Nat.zero_le _) fun p hp => ?_).tiling ?_
  · exact h.total hc.1 p (mem_of_getLast? hp)
  · rw [← h.received, hc.2, Nat.zero_add]

theorem Ok.last_from (h : r.Ok fs) (hc : r.complete = true) (hp : p ∈ r.pieces.getLast?) :
    p.From fs r.key false := by
  have htile := h.tiling hc
  simp only [complete, Bool.and_eq_true, decide_eq_true_eq] at hc
  obtain ⟨q, hq, h1, h2⟩ := h.last hc.1
  have hpm := mem_of_getLast? hp
  by_cases hl : p.len = 0
  · exact (h.empty p hpm hl).1
  · -- a piece that ends where this one does is this one
    obtain ⟨l, hl'⟩ : ∃ l, r.pieces = l ++ [p] := 
      ⟨r.pieces.dropLast, (dropLast_append_getLast? p hp).symm⟩
    rw [hl', mem_append, mem_singleton] at hq
    rcases hq with hq | rfl
    · have h3 := htile.apart.pairwise
      rw [hl', pairwise_append] at h3
      have h4 := h3.2.2 q hq p (mem_singleton_self p)
      have h5 := htile.last hp
      omega
    · exact h2

theorem Ok.handedOn (h : r.Ok fs) (hc : r.complete = true) (m : Bytes.Memory) :
    HandedOn fs r.key (assemble r.pieces r.total m) := by
  have htile := h.tiling hc
  have hne : r.pieces ≠ [] := by
    intro h0
    simp only [complete, Bool.and_eq_true, decide_eq_true_eq, h.received, h0] at hc
    exact hc.1 hc.2.symm
  -- a fragment for each piece, one with no more to come if there is one
  have hex (p : Piece) : ∃ f : Fragment, p ∈ r.pieces → f ∈ fs ∧ f.key = r.key ∧
      f.offset = p.offset ∧ f.data = p.data ∧ (p.From fs r.key false → f.more = false) := by
    by_cases hp : p.From fs r.key false
    · obtain ⟨f, hf, h1, h2, h3, h4⟩ := hp
      exact ⟨f, fun _ => ⟨hf, h1, h3, h4, fun _ => h2⟩⟩
    · by_cases hm : p ∈ r.pieces
      · obtain ⟨more, f, hf, h1, -, h3, h4⟩ := h.origin p hm
        exact ⟨f, fun _ => ⟨hf, h1, h3, h4, fun h5 => absurd h5 hp⟩⟩
      · exact ⟨⟨r.key, 0, false, ⟨0, 0, 0, 0, 0, 0⟩, []⟩, fun h5 => absurd h5 hm⟩
  choose g hg using hex
  have hlen (p : Piece) (hp : p ∈ r.pieces) : (g p).len = p.len := by
    rw [Fragment.len, (hg p hp).2.2.2.1, Piece.len]
  have hwhole : assemble r.pieces r.total m = (r.pieces.map Piece.data).flatten := htile.slice_copyAll
  have hlength : (assemble r.pieces r.total m).length = r.total := Bytes.length_slice ..
  refine ⟨r.pieces.map g, fun f hf => ?_, ?_, ?_, ?_⟩
  · obtain ⟨p, hp, rfl⟩ := mem_map.1 hf
    exact ⟨(hg p hp).1, (hg p hp).2.1⟩
  · rw [hlength]
    exact htile.map fun p hp => ⟨(hg p hp).2.2.1, hlen p hp⟩
  · rw [hwhole, map_map]
    congr 1
    exact map_congr_left fun p hp => (hg p hp).2.2.2.1.symm
  · obtain ⟨p, hp⟩ : ∃ p, r.pieces.getLast? = some p := ⟨_, getLast?_eq_some_getLast hne⟩
    refine ⟨g p, ?_, (hg p (mem_of_getLast? hp)).2.2.2.2 (h.last_from hc hp)⟩
    rw [getLast?_map, hp]
    rfl

theorem Ok.handedOn_finish (h : r.Ok fs) (hc : r.complete = true) {m : Kmalloc} {whole : List UInt8}
    (hw : whole ∈ (s.finish m (some r)).2) : HandedOn fs r.key whole := by
  rw [State.finish] at hw
  split at hw
  · cases hw
  · rename_i w _
    cases hw
    exact h.handedOn hc w

end Reassembly

namespace State

theorem Ok.finish (h : s.Ok fs) (m : Kmalloc) (t : Option Reassembly) : (s.finish m t).1.Ok fs := by
  cases t with
  | none => exact h
  | some t =>
    rw [State.finish]
    split <;> dsimp only <;> exact h.count _

theorem Ok.ipfragInput (h : s.Ok fs) (m : Kmalloc) (now : ℕ) (hmem : f ∈ fs) (hf : f.Fits) :
    (s.ipfragInput m f now).1.Ok fs ∧
    ∀ whole ∈ (s.ipfragInput m f now).2.1, HandedOn fs f.key whole := by
  have h0 := h.count fun c => { c with fragments := c.fragments + 1 }
  rw [State.ipfragInput]
  simp only
  split_ifs with hm hk
  · split <;> dsimp only
    · exact ⟨(h0.count _).release _, fun _ h1 => nomatch h1⟩
    · exact ⟨h0.count _, fun _ h1 => nomatch h1⟩
  · exact ⟨h0, fun _ h1 => nomatch h1⟩
  · rw [Bool.not_eq_true] at hm
    obtain ⟨s', i, r, started, hs, h1, hr, hkey, -⟩ := h0.slotFor f.key now
    obtain ⟨h2, h3⟩ := h1.place hr hmem hkey.symm hf hm
    rw [hs]
    refine ⟨h2.finish m _, fun whole hw => ?_⟩
    cases ht : (s'.place i r f).2 with
    | none =>
      rw [ht] at hw
      cases hw
    | some t =>
      obtain ⟨h4, h5, h6⟩ := h3 t ht
      rw [ht] at hw
      rw [← hkey, ← h6]
      exact h4.handedOn_finish h5 hw

theorem Ok.ipfragExpire (h : s.Ok fs) (now : ℕ) : (s.ipfragExpire now).1.Ok fs := by
  have hloop (l : List (Fin ipfragSlots)) : ∀ (s : State) (quotes : List (Header × List UInt8))
      (next : ℕ), s.Ok fs → (expireLoop now l (s, quotes, next)).1.Ok fs := by
    induction l with
    | nil => exact fun s quotes next h => h
    | cons i l ih =>
      intro s quotes next h
      rw [expireLoop]
      split
      · exact ih _ _ _ h
      · split
        · exact ih _ _ _ ((h.release i).count _)
        · exact ih _ _ _ h
  exact hloop _ _ _ _ h

/-- Pieces are in order and apart, the counters fit them, and the memory is within its bound. -/
structure Sane (s : State) : Prop where
  sorted : ∀ i r, s.slots i = some r →
    r.pieces.Pairwise fun p q => p.offset < q.offset ∧ p.offset + p.len ≤ q.offset
  received : ∀ i r, s.slots i = some r → r.received = (r.pieces.map Piece.len).sum
  total : ∀ i r, s.slots i = some r → r.total ≠ 0 → ∀ p ∈ r.pieces, p.offset + p.len ≤ r.total
  longest : ∀ i r, s.slots i = some r → ∀ p ∈ r.pieces, p.offset + p.len ≤ ipv4PayloadMax
  memory : s.memoryUsed = ∑ i, slotCost (s.slots i)
  bound : s.memoryUsed ≤ ipfragMemory

theorem Ok.sane (h : s.Ok fs) : s.Sane where
  sorted i r hr := (h.slots i r hr).sorted.and (h.slots i r hr).apart.pairwise
  received i r hr := (h.slots i r hr).received
  total i r hr := (h.slots i r hr).total
  longest i r hr _ hp := ((h.slots i r hr).apart.bounds hp).2
  memory := h.memory
  bound := h.bound

theorem init_ok : init.Ok [] where
  slots _ _ h := nomatch h
  memory := by decide
  bound := by decide
  unique _ _ _ _ h := nomatch h

theorem ok_run (calls : List Call) (hf : ∀ f ∈ arrived calls, f.Fits) :
    (Run.run step init calls).Ok (arrived calls) := by
  induction calls using List.reverseRecOn with
  | nil => exact init_ok
  | append_singleton calls c ih =>
    have harr : arrived (calls ++ [c]) = arrived calls ++ arrived [c] := filterMap_append
    rw [harr] at hf ⊢
    have h1 := (ih fun f h0 => hf f (mem_append_left _ h0)).mono
      (fun f h0 => mem_append_left (arrived [c]) h0)
    rw [Run.run_append]
    cases c with
    | input m f now =>
      have hmem : f ∈ arrived calls ++ arrived [.input m f now] :=
        mem_append_right _ (mem_singleton_self f)
      exact (h1.ipfragInput m now hmem (hf f hmem)).1
    | expire now => exact h1.ipfragExpire now

end State

/-- If offsets can be added up, the books are in order at every moment, and every datagram handed on
is made of its own fragments. -/
theorem reassembly_sane (calls : List Call) (hf : ∀ f ∈ arrived calls, f.Fits) :
    Run.Always State.step State.Sane State.init calls ∧
    ∀ before m f now after, calls = before ++ .input m f now :: after →
      ∀ whole ∈ (Run.run State.step State.init before).output (.input m f now),
        HandedOn (arrived (before ++ [.input m f now])) f.key whole := by
  constructor
  · rw [Run.always_iff]
    intro before after heq
    refine (State.ok_run before fun f h0 => hf f ?_).sane
    rw [heq]
    exact mem_filterMap.2 (by
      obtain ⟨c, hc, hcf⟩ := mem_filterMap.1 h0
      exact ⟨c, mem_append_left _ hc, hcf⟩)
  · rintro before m f now after rfl whole hw
    have harr : arrived (before ++ [.input m f now]) = arrived before ++ [f] :=
      filterMap_append
    have hfits (g : Fragment) (hg : g ∈ arrived before ++ [f]) : g.Fits := by
      refine hf g ?_
      have h1 : arrived (before ++ Call.input m f now :: after) =
          arrived before ++ (f :: arrived after) := filterMap_append
      rw [h1]
      rcases mem_append.1 hg with h0 | h0
      · exact mem_append_left _ h0
      · exact mem_append_right _ (mem_cons.2 (.inl (mem_singleton.1 h0)))
    have hok := (State.ok_run before fun g h0 => hfits g (mem_append_left _ h0)).mono
      (fun g h0 => mem_append_left [f] h0)
    have hmem : f ∈ arrived before ++ [f] := mem_append_right _ (mem_singleton_self f)
    rw [harr]
    exact (hok.ipfragInput m now hmem (hfits f hmem)).2 whole hw

def twoFragments : List Call :=
  let key : Key := ⟨0x0A000202, 0x0A00020F, 17, 7⟩
  let m : Kmalloc := ⟨true, some fun _ => 0⟩
  [.input m ⟨key, 8, false, ⟨24, 7, 1, 17, 0x0A000202, 0x0A00020F⟩, [9, 10, 11, 12]⟩ 100,
    .input m ⟨key, 0, true, ⟨28, 7, 0x2000, 17, 0x0A000202, 0x0A00020F⟩, [1, 2, 3, 4, 5, 6, 7, 8]⟩ 101]

theorem reassembly_sane_twoFragments :
    (∀ f ∈ arrived twoFragments, f.Fits) ∧
    Run.Always State.step State.Sane State.init twoFragments ∧
    (Run.run State.step State.init (twoFragments.take 1)).output (twoFragments.getD 1 (.expire 0)) =
      some [1, 2, 3, 4, 5, 6, 7, 8, 9, 10, 11, 12] := by
  have hf : ∀ f ∈ arrived twoFragments, f.Fits := by
    unfold Fragment.Fits
    decide +kernel
  exact ⟨hf, (reassembly_sane twoFragments hf).1, by decide +kernel⟩

/-- A fragment whose end is beyond what `size_t` can say passes the check, and its piece ends far
beyond. -/
theorem not_sane_wrapped :
    ¬ (Run.run State.step State.init
      [.input ⟨true, none⟩ ⟨⟨1, 2, 17, 7⟩, 2 ^ 64 - 8, true, ⟨36, 7, 0x2000, 17, 1, 2⟩,
        List.replicate 16 0⟩ 0]).Sane := by
  intro h
  have h0 := h.longest 0
    ⟨⟨1, 2, 17, 7⟩, [⟨2 ^ 32 - 8, List.replicate 16 0⟩], 16, 0, 48, 3000, none⟩ (by decide +kernel)
    ⟨2 ^ 32 - 8, List.replicate 16 0⟩ (by decide)
  exact absurd h0 (by decide)

end Bashket.Net
