import Mathlib

/-!
# Ring buffers

A ring of `size` cells is a memory `r : ℕ → α` of which the cells below `size` are used, read and
written at positions taken modulo `size`.  Positions are given from the head on: cell `i` of a
ring whose head is at `head` is `r ((head + i) % size)`.
-/

namespace Ring

open List

variable {α : Type*} {m n size i size' : ℕ}

def read (r : ℕ → α) (size head n : ℕ) : List α :=
  (List.range n).map fun i => r ((head + i) % size)

def write (size : ℕ) : (ℕ → α) → ℕ → List α → ℕ → α
  | r, _, [] => r
  | r, start, b :: bs => write size (Function.update r (start % size) b) (start + 1) bs

/-- A ring copied into a larger memory `g`, its head at cell 0. -/
def grow (r : ℕ → α) (size head : ℕ) (g : ℕ → α) : ℕ → α :=
  fun i => if i < size then r ((head + i) % size) else g i

@[simp] theorem length_read (r : ℕ → α) (size head n : ℕ) : (read r size head n).length = n := by
  simp [read]

@[simp] theorem getElem_read (r : ℕ → α) (size head n i : ℕ) (h : i < (read r size head n).length) :
    (read r size head n)[i] = r ((head + i) % size) := by
  simp [read]

theorem read_append (r : ℕ → α) (size head m n : ℕ) :
    read r size head (m + n) = read r size head m ++ read r size (head + m) n := by
  simp [read, range_add, Nat.add_assoc, Function.comp_def]

theorem read_mod (r : ℕ → α) (size head n : ℕ) :
    read r size (head % size) n = read r size head n := by
  simp [read]

theorem take_read (r : ℕ → α) (size head : ℕ) (h : m ≤ n) :
    (read r size head n).take m = read r size head m := by
  obtain ⟨k, rfl⟩ := Nat.exists_eq_add_of_le h
  rw [read_append, take_append_of_le_length (by simp), take_of_length_le (by simp)]

theorem drop_read (r : ℕ → α) (size head : ℕ) (h : m ≤ n) :
    (read r size head n).drop m = read r size (head + m) (n - m) := by
  obtain ⟨k, rfl⟩ := Nat.exists_eq_add_of_le h
  rw [read_append, drop_append_of_le_length (by simp), drop_of_length_le (by simp)]
  simp

theorem cell_inj {head j : ℕ} (hi : i < size) (hj : j < size)
    (h : (head + i) % size = (head + j) % size) : i = j := by
  have h' : i % size = j % size := Nat.ModEq.add_left_cancel' head h
  rwa [Nat.mod_eq_of_lt hi, Nat.mod_eq_of_lt hj] at h'

theorem write_start_mod (size : ℕ) (r : ℕ → α) (start : ℕ) (bs : List α) :
    write size r (start % size) bs = write size r start bs := by
  induction bs generalizing r start with
  | nil => rfl
  | cons b bs ih =>
    simp only [write]
    rw [Nat.mod_mod, ← ih _ (start % size + 1), ← ih _ (start + 1), Nat.mod_add_mod]

theorem write_congr_mod (r : ℕ → α) {a b : ℕ} (h : a % size = b % size) (bs : List α) :
    write size r a bs = write size r b bs := by
  rw [← write_start_mod size r a, h, write_start_mod]

/-- What a cell holds after a write that starts `k` cells after the head. -/
theorem write_cell (r : ℕ → α) (head k : ℕ) (bs : List α) (hk : k + bs.length ≤ size)
    (hi : i < size) :
    write size r (head + k) bs ((head + i) % size) =
      if h : k ≤ i ∧ i < k + bs.length then bs.get ⟨i - k, by omega⟩ else r ((head + i) % size) := by
  induction bs generalizing r k with
  | nil =>
    rw [dif_neg (by simp only [length_nil]; omega)]
    rfl
  | cons b bs ih =>
    simp only [length_cons] at hk
    rw [write, Nat.add_assoc, ih _ (k + 1) (by omega)]
    by_cases hik : i = k
    · subst hik
      rw [dif_neg (by omega), dif_pos (by simp only [length_cons]; omega)]
      simp
    · have hne : (head + i) % size ≠ (head + k) % size :=
        fun h => hik (cell_inj hi (by omega) h)
      by_cases hin : k + 1 ≤ i ∧ i < k + 1 + bs.length
      · rw [dif_pos hin, dif_pos (by simp only [length_cons]; omega)]
        have e : i - k = i - (k + 1) + 1 := by omega
        simp [e]
      · rw [dif_neg hin, dif_neg (by simp only [length_cons]; omega),
          Function.update_of_ne hne]

theorem write_cell_in (r : ℕ → α) (head k : ℕ) (bs : List α) (hk : k + bs.length ≤ size)
    (hi : i < bs.length) :
    write size r (head + k) bs ((head + k + i) % size) = bs[i] := by
  rw [Nat.add_assoc, write_cell r head k bs hk (by omega), dif_pos ⟨by omega, by omega⟩]
  simp

theorem write_cell_out (r : ℕ → α) (head k : ℕ) (bs : List α) (hk : k + bs.length ≤ size)
    (hi : i < size) (hout : i < k ∨ k + bs.length ≤ i) :
    write size r (head + k) bs ((head + i) % size) = r ((head + i) % size) := by
  rw [write_cell r head k bs hk hi, dif_neg (by omega)]

/-- A write after the first `n` cells leaves those as they were and adds to them. -/
theorem read_write_append (r : ℕ → α) (head n : ℕ) (bs : List α) (h : n + bs.length ≤ size) :
    read (write size r (head + n) bs) size head (n + bs.length) = read r size head n ++ bs := by
  rw [read_append]
  congr 1
  · apply ext_getElem (by simp)
    intro i hi _
    simp only [length_read] at hi
    rw [getElem_read, getElem_read, write_cell_out r head n bs h (by omega) (.inl hi)]
  · apply ext_getElem (by simp)
    intro i _ hi
    rw [getElem_read, write_cell_in r head n bs h hi]

theorem grow_cell (r : ℕ → α) (head : ℕ) (g : ℕ → α) (hi : i < size) (hs : size ≤ size') :
    grow r size head g ((0 + i) % size') = r ((head + i) % size) := by
  rw [Nat.zero_add, Nat.mod_eq_of_lt (by omega), grow, if_pos hi]

theorem read_grow (r : ℕ → α) (head : ℕ) (g : ℕ → α) (hn : n ≤ size) (hs : size ≤ size') :
    read (grow r size head g) size' 0 n = read r size head n := by
  apply ext_getElem (by simp)
  intro i hi _
  simp only [length_read] at hi
  rw [getElem_read, getElem_read, grow_cell r head g (by omega) hs]

end Ring
