import Bashket.Lib.Bytes

/-!
# Pieces in order

Pieces of a type `α` have a place, `start`, and a length. `Apart lo l hi` says that the pieces of
the list lie between `lo` and `hi`, in order and without overlapping, and `Tiling lo l hi` that they
also leave no gap. Pieces apart that are together as long as the room they lie in tile it
(`Apart.tiling`).
-/

namespace Tiles

open List

variable {α : Type*} (start len : α → ℕ)

/-- The pieces lie between `lo` and `hi`, in order and without overlapping. -/
def Apart : ℕ → List α → ℕ → Prop
  | lo, [], hi => lo ≤ hi
  | lo, x :: l, hi => lo ≤ start x ∧ Apart (start x + len x) l hi

/-- The pieces fill the room between `lo` and `hi`, in order. -/
def Tiling : ℕ → List α → ℕ → Prop
  | lo, [], hi => lo = hi
  | lo, x :: l, hi => start x = lo ∧ Tiling (lo + len x) l hi

variable {start len} {lo mid hi : ℕ} {x : α} {l l₁ l₂ : List α}

/-! ### Pieces that lie apart -/

theorem Apart.le (h : Apart start len lo l hi) : lo ≤ hi := by
  induction l generalizing lo with
  | nil => exact h
  | cons x l ih =>
    have h0 := ih h.2
    have h1 := h.1
    omega

theorem Apart.mono (h : Apart start len lo l hi) {lo' hi' : ℕ} (hlo : lo' ≤ lo) (hhi : hi ≤ hi') :
    Apart start len lo' l hi' := by
  induction l generalizing lo lo' with
  | nil =>
    have h0 : lo ≤ hi := h
    exact (hlo.trans h0).trans hhi
  | cons x l ih => exact ⟨hlo.trans h.1, ih h.2 le_rfl⟩

theorem Apart.bounds (h : Apart start len lo l hi) (hx : x ∈ l) :
    lo ≤ start x ∧ start x + len x ≤ hi := by
  induction l generalizing lo with
  | nil => cases hx
  | cons y l ih =>
    rcases mem_cons.1 hx with rfl | hx
    · exact ⟨h.1, h.2.le⟩
    · obtain ⟨h1, h2⟩ := ih h.2 hx
      have h3 := h.1
      exact ⟨by omega, h2⟩

theorem Apart.pairwise (h : Apart start len lo l hi) :
    l.Pairwise fun x y => start x + len x ≤ start y := by
  induction l generalizing lo with
  | nil => exact List.Pairwise.nil
  | cons x l ih => exact List.Pairwise.cons (fun y hy => (h.2.bounds hy).1) (ih h.2)

theorem apart_append :
    Apart start len lo (l₁ ++ l₂) hi ↔
      ∃ mid, Apart start len lo l₁ mid ∧ Apart start len mid l₂ hi := by
  induction l₁ generalizing lo with
  | nil =>
    constructor
    · exact fun h => ⟨lo, le_rfl, h⟩
    · rintro ⟨mid, h1, h2⟩
      exact h2.mono h1 le_rfl
  | cons x l₁ ih =>
    constructor
    · rintro ⟨h1, h2⟩
      obtain ⟨mid, h3, h4⟩ := ih.1 h2
      exact ⟨mid, ⟨h1, h3⟩, h4⟩
    · rintro ⟨mid, ⟨h1, h2⟩, h3⟩
      exact ⟨h1, ih.2 ⟨mid, h2, h3⟩⟩

theorem Apart.until (h : Apart start len lo l hi) (hlo : lo ≤ mid)
    (hlast : ∀ y ∈ l.getLast?, start y + len y ≤ mid) : Apart start len lo l mid := by
  induction l generalizing lo with
  | nil => exact hlo
  | cons x l ih =>
    refine ⟨h.1, ?_⟩
    cases l with
    | nil => exact hlast x rfl
    | cons y l =>
      apply ih h.2
      · have h1 := (h.2.bounds (getLast_mem (cons_ne_nil y l))).1
        have h2 := hlast ((y :: l).getLast (cons_ne_nil y l))
          (by rw [getLast?_cons_cons, getLast?_eq_some_getLast (cons_ne_nil y l)]; rfl)
        omega
      · intro z hz
        exact hlast z (by rwa [getLast?_cons_cons])

theorem Apart.from (h : Apart start len lo l hi) (hhi : mid ≤ hi)
    (hhead : ∀ y ∈ l.head?, mid ≤ start y) : Apart start len mid l hi := by
  cases l with
  | nil => exact hhi
  | cons x l => exact ⟨hhead x rfl, h.2⟩

theorem Apart.insert (h : Apart start len lo (l₁ ++ l₂) hi) (hlo : lo ≤ start x)
    (hhi : start x + len x ≤ hi) (hlast : ∀ y ∈ l₁.getLast?, start y + len y ≤ start x)
    (hhead : ∀ y ∈ l₂.head?, start x + len x ≤ start y) :
    Apart start len lo (l₁ ++ x :: l₂) hi := by
  obtain ⟨mid, h1, h2⟩ := apart_append.1 h
  exact apart_append.2 ⟨start x, h1.until hlo hlast, le_rfl, h2.from hhi hhead⟩

theorem Apart.sum_le (h : Apart start len lo l hi) : lo + (l.map len).sum ≤ hi := by
  induction l generalizing lo with
  | nil => exact h
  | cons x l ih =>
    have h1 := h.1
    have h2 := ih h.2
    rw [map_cons, sum_cons]
    omega

theorem Apart.tiling (h : Apart start len lo l hi) (hsum : lo + (l.map len).sum = hi) :
    Tiling start len lo l hi := by
  induction l generalizing lo with
  | nil => exact hsum
  | cons x l ih =>
    rw [map_cons, sum_cons] at hsum
    have h1 := h.1
    have h2 := h.2.sum_le
    have hx : start x = lo := by omega
    refine ⟨hx, ?_⟩
    rw [← hx]
    exact ih h.2 (by omega)

/-! ### Tiles -/

theorem Tiling.apart (h : Tiling start len lo l hi) : Apart start len lo l hi := by
  induction l generalizing lo with
  | nil => exact le_of_eq h
  | cons x l ih =>
    refine ⟨ge_of_eq h.1, ?_⟩
    rw [h.1]
    exact ih h.2

theorem Tiling.sum (h : Tiling start len lo l hi) : lo + (l.map len).sum = hi := by
  induction l generalizing lo with
  | nil => exact h
  | cons x l ih =>
    rw [map_cons, sum_cons, ← ih h.2]
    omega

theorem Tiling.map {β : Type*} {g : α → β} {start' len' : β → ℕ}
    (hg : ∀ x ∈ l, start' (g x) = start x ∧ len' (g x) = len x)
    (h : Tiling start len lo l hi) : Tiling start' len' lo (l.map g) hi := by
  induction l generalizing lo with
  | nil => exact h
  | cons x l ih =>
    obtain ⟨h1, h2⟩ := hg x mem_cons_self
    refine ⟨h1.trans h.1, ?_⟩
    rw [h2]
    exact ih (fun y hy => hg y (mem_cons_of_mem x hy)) h.2

theorem Tiling.last (h : Tiling start len lo l hi) (hx : x ∈ l.getLast?) :
    start x + len x = hi := by
  induction l generalizing lo with
  | nil => cases hx
  | cons y l ih =>
    cases l with
    | nil =>
      obtain rfl : y = x := by simpa using hx
      rw [h.1]
      exact h.2
    | cons z l => exact ih h.2 (by rwa [getLast?_cons_cons] at hx)

/-! ### Copying pieces to their places -/

open Bytes

variable {data : α → List UInt8} {m : Memory} {i : ℕ}

def copyAll (start : α → ℕ) (data : α → List UInt8) (m : Memory) (l : List α) : Memory :=
  l.foldl (fun m x => copyIn m (start x) (data x)) m

theorem copyAll_before (h : Apart start (fun x => (data x).length) lo l hi) (hi' : i < lo) :
    copyAll start data m l i = m i := by
  induction l generalizing lo m with
  | nil => rfl
  | cons x l ih =>
    have h1 := h.1
    change copyAll start data (copyIn m (start x) (data x)) l i = m i
    rw [ih h.2 (by omega), copyIn_outside (by omega)]

/-- Tiles give their data one after the other, whatever was there before. -/
theorem Tiling.slice_copyAll (h : Tiling start (fun x => (data x).length) lo l hi) :
    slice (copyAll start data m l) lo (hi - lo) = (l.map data).flatten := by
  induction l generalizing lo m with
  | nil =>
    obtain rfl : lo = hi := h
    rw [Nat.sub_self]
    rfl
  | cons x l ih =>
    obtain ⟨rfl, h⟩ := h
    have hle : start x + (data x).length ≤ hi := h.apart.le
    have hlen : hi - start x = (data x).length + (hi - (start x + (data x).length)) := by omega
    change slice (copyAll start data (copyIn m (start x) (data x)) l) _ _ = _
    rw [hlen, slice_append, ih h, map_cons, flatten_cons]
    congr 1
    rw [slice_congr fun i _ hi => copyAll_before h.apart hi]
    exact slice_copyIn m (start x) (data x)

end Tiles
