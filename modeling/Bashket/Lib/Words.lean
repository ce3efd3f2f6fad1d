import Bashket.Lib.Bytes

/-!
# 64-bit words in a memory of bytes

A record of words is written as the bytes of one word after another (`bytes64`), and what is read
back at the place of a word is that word (`get64_copyIn`).
-/

namespace Bytes

open List

def get64 (m : Memory) (p : ℕ) : BitVec 64 :=
  BitVec.ofNat 64 (get32 m p + 2 ^ 32 * get32 m (p + 4))

def byte64 (w : BitVec 64) (i : ℕ) : UInt8 := UInt8.ofNat (w.toNat / 256 ^ i)

def bytes64 (w : BitVec 64) : List UInt8 := (List.range 8).map (byte64 w)

variable {m m' : Memory} {p k i : ℕ} {ws : List (BitVec 64)} {rest : List UInt8}

@[simp] theorem length_bytes64 (w : BitVec 64) : (bytes64 w).length = 8 := rfl

theorem length_words (ws : List (BitVec 64)) : (ws.flatMap bytes64).length = 8 * ws.length := by
  induction ws with
  | nil => rfl
  | cons w ws ih =>
    rw [flatMap_cons, length_append, ih, length_bytes64, length_cons]
    omega

theorem get64_of_bytes {w : BitVec 64} (h : ∀ i < 8, m (p + i) = byte64 w i) : get64 m p = w := by
  have hw := w.isLt
  have hbyte : ∀ i < 8, (m (p + i)).toNat = w.toNat / 256 ^ i % 256 := by
    intro i hi
    rw [h i hi, byte64, UInt8.toNat_ofNat']
  have h0 := hbyte 0 (by decide)
  have h1 := hbyte 1 (by decide)
  have h2 := hbyte 2 (by decide)
  have h3 := hbyte 3 (by decide)
  have h4 := hbyte 4 (by decide)
  have h5 := hbyte 5 (by decide)
  have h6 := hbyte 6 (by decide)
  have h7 := hbyte 7 (by decide)
  apply BitVec.eq_of_toNat_eq
  simp only [get64, get32, get16, BitVec.toNat_ofNat, Nat.add_assoc, Nat.reduceAdd, Nat.reducePow,
    Nat.add_zero, Nat.div_one] at *
  rw [Nat.mod_eq_of_lt] <;> omega

theorem getD_words {w : BitVec 64} (hk : ws[k]? = some w) (hi : i < 8) :
    (ws.flatMap bytes64 ++ rest).getD (8 * k + i) 0 = byte64 w i := by
  induction ws generalizing k with
  | nil => simp at hk
  | cons v ws ih =>
    rw [flatMap_cons, append_assoc]
    cases k with
    | zero =>
      obtain rfl : v = w := by simpa using hk
      rw [getD_append _ _ _ _ (by simpa using hi)]
      simp [bytes64, getD_eq_getElem?_getD, hi]
    | succ k =>
      rw [getD_append_right _ _ _ _ (by simp; omega), length_bytes64,
        show 8 * (k + 1) + i - 8 = 8 * k + i by omega]
      exact ih (by simpa using hk)

theorem get64_copyIn {w : BitVec 64} (m : Memory) (p : ℕ) (rest : List UInt8)
    (hk : ws[k]? = some w) : get64 (copyIn m p (ws.flatMap bytes64 ++ rest)) (p + 8 * k) = w := by
  have hlen : k < ws.length := (List.getElem?_eq_some_iff.1 hk).1
  refine get64_of_bytes fun i hi => ?_
  rw [copyIn, if_pos, show p + 8 * k + i - p = 8 * k + i by omega, getD_words hk hi]
  rw [length_append, length_words]
  omega

theorem copyIn_words_rest (m : Memory) (p : ℕ) (ws : List (BitVec 64)) (hi : i < rest.length) :
    copyIn m p (ws.flatMap bytes64 ++ rest) (p + 8 * ws.length + i) = rest.getD i 0 := by
  rw [copyIn, if_pos, show p + 8 * ws.length + i - p = 8 * ws.length + i by omega,
    getD_append_right _ _ _ _ (by rw [length_words]; omega), length_words,
    Nat.add_sub_cancel_left]
  rw [length_append, length_words]
  omega

theorem put32_get32 (m : Memory) (p : ℕ) : put32 m p (get32 m p) = m := by
  have hb : ∀ j, (m (p + j)).toNat < 256 := fun j => (m (p + j)).toNat_lt
  have h0 := hb 0
  have h1 := hb 1
  have h2 := hb 2
  have h3 := hb 3
  funext i
  unfold put32 put16 put8 get32 get16
  simp only [Nat.add_assoc, Nat.reduceAdd, Nat.add_zero] at *
  split_ifs with e0 e1 e2 e3 <;> try rfl
  all_goals
    subst i
    rw [← UInt8.toNat_inj, UInt8.toNat_ofNat']
    omega

end Bytes
