import Mathlib

/-!
# Little-endian fields in a memory of bytes

A memory is a function from places to bytes. `get16`, `get32`, `put16` and `put32` read and write
little-endian numbers at any place, `copyIn` writes a string of bytes, `slice` reads one.
-/

namespace Bytes

open List

abbrev Memory := ℕ → UInt8

def get16 (m : Memory) (p : ℕ) : ℕ := (m p).toNat + 256 * (m (p + 1)).toNat

def get32 (m : Memory) (p : ℕ) : ℕ := get16 m p + 65536 * get16 m (p + 2)

def put8 (m : Memory) (p v : ℕ) : Memory := fun i => if i = p then UInt8.ofNat v else m i

def put16 (m : Memory) (p v : ℕ) : Memory := put8 (put8 m p v) (p + 1) (v / 256)

def put32 (m : Memory) (p v : ℕ) : Memory := put16 (put16 m p v) (p + 2) (v / 65536)

def copyIn (m : Memory) (p : ℕ) (bs : List UInt8) : Memory :=
  fun i => if p ≤ i ∧ i < p + bs.length then bs.getD (i - p) 0 else m i

def slice (m : Memory) (p n : ℕ) : List UInt8 := (List.range n).map fun i => m (p + i)

variable {m m' : Memory} {p q v n i : ℕ} {bs : List UInt8}

/-! ### Reads -/

theorem get16_lt (m : Memory) (p : ℕ) : get16 m p < 65536 := by
  have h1 := (m p).toNat_lt
  have h2 := (m (p + 1)).toNat_lt
  unfold get16
  omega

theorem get32_lt (m : Memory) (p : ℕ) : get32 m p < 2 ^ 32 := by
  have h1 := get16_lt m p
  have h2 := get16_lt m (p + 2)
  unfold get32
  omega

theorem get16_congr (h : ∀ i, p ≤ i → i < p + 2 → m i = m' i) : get16 m p = get16 m' p := by
  rw [get16, get16, h p (by omega) (by omega), h (p + 1) (by omega) (by omega)]

theorem get32_congr (h : ∀ i, p ≤ i → i < p + 4 → m i = m' i) : get32 m p = get32 m' p := by
  rw [get32, get32, get16_congr fun i h1 h2 => h i h1 (by omega),
    get16_congr fun i h1 h2 => h i (by omega) (by omega)]

theorem slice_congr (h : ∀ i, p ≤ i → i < p + n → m i = m' i) : slice m p n = slice m' p n := by
  refine map_congr_left fun i hi => h _ (Nat.le_add_right _ _) ?_
  have := mem_range.1 hi
  omega

@[simp] theorem length_slice (m : Memory) (p n : ℕ) : (slice m p n).length = n := by
  simp [slice]

theorem slice_append (m : Memory) (p a b : ℕ) :
    slice m p (a + b) = slice m p a ++ slice m (p + a) b := by
  rw [slice, range_add, map_append, map_map]
  congr 1
  exact map_congr_left fun i _ => congrArg m (Nat.add_assoc p a i).symm

@[simp] theorem get16_zero (p : ℕ) : get16 (fun _ => 0) p = 0 := rfl

@[simp] theorem get32_zero (p : ℕ) : get32 (fun _ => 0) p = 0 := rfl

/-! ### Writes -/

theorem put16_outside (h : i < p ∨ p + 2 ≤ i) : put16 m p v i = m i := by
  rw [put16, put8, if_neg (by omega), put8, if_neg (by omega)]

theorem put32_outside (h : i < p ∨ p + 4 ≤ i) : put32 m p v i = m i := by
  rw [put32, put16_outside (by omega), put16_outside (by omega)]

theorem copyIn_outside (h : i < p ∨ p + bs.length ≤ i) : copyIn m p bs i = m i := by
  rw [copyIn, if_neg (by omega)]

theorem get16_put16 (m : Memory) (p : ℕ) (hv : v < 65536) : get16 (put16 m p v) p = v := by
  unfold get16 put16 put8
  rw [if_neg (by omega), if_pos rfl, if_pos rfl, UInt8.toNat_ofNat', UInt8.toNat_ofNat']
  omega

theorem get16_put16_of_disjoint (h : q + 2 ≤ p ∨ p + 2 ≤ q) :
    get16 (put16 m p v) q = get16 m q :=
  get16_congr fun _ _ _ => put16_outside (by omega)

theorem get32_put32 (m : Memory) (p : ℕ) (hv : v < 2 ^ 32) : get32 (put32 m p v) p = v := by
  have hlow : get16 (put16 (put16 m p v) (p + 2) (v / 65536)) p = v % 65536 := by
    rw [get16_put16_of_disjoint (by omega)]
    unfold get16 put16 put8
    rw [if_neg (by omega), if_pos rfl, if_pos rfl, UInt8.toNat_ofNat', UInt8.toNat_ofNat']
    omega
  rw [put32, get32, hlow, get16_put16 _ _ (by omega)]
  omega

theorem get32_put32_of_disjoint (h : q + 4 ≤ p ∨ p + 4 ≤ q) :
    get32 (put32 m p v) q = get32 m q :=
  get32_congr fun _ _ _ => put32_outside (by omega)

theorem slice_copyIn (m : Memory) (p : ℕ) (bs : List UInt8) :
    slice (copyIn m p bs) p bs.length = bs := by
  apply ext_getElem (by simp)
  intro i h1 h2
  simp only [slice, getElem_map, getElem_range, copyIn]
  rw [if_pos (by omega), Nat.add_sub_cancel_left, getD_eq_getElem _ _ h2]

@[simp] theorem copyIn_nil (m : Memory) (p : ℕ) : copyIn m p [] = m := by
  funext i
  exact if_neg (by simp)

theorem copyIn_append (m : Memory) (p : ℕ) (bs cs : List UInt8) :
    copyIn (copyIn m p bs) (p + bs.length) cs = copyIn m p (bs ++ cs) := by
  funext i
  simp only [copyIn, length_append]
  by_cases hlow : p ≤ i ∧ i < p + bs.length
  · rw [if_neg (by omega), if_pos hlow, if_pos (by omega), getD_append _ _ _ _ (by omega)]
  · by_cases hhigh : p + bs.length ≤ i ∧ i < p + bs.length + cs.length
    · rw [if_pos hhigh, if_pos (by omega), getD_append_right _ _ _ _ (by omega), Nat.sub_sub]
    · rw [if_neg hhigh, if_neg hlow, if_neg (by omega)]

theorem copyIn_take (m : Memory) (p n : ℕ) (bs : List UInt8) (i : ℕ) :
    copyIn m p (bs.take n) i =
      if p ≤ i ∧ i < p + min n bs.length then bs.getD (i - p) 0 else m i := by
  rw [copyIn, length_take]
  split
  next h => rw [getD_eq_getElem?_getD, getElem?_take_of_lt (by omega),
      ← getD_eq_getElem?_getD]
  next => rfl

end Bytes
