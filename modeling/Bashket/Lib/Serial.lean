import Mathlib

/-!
# Serial number arithmetic

Counters of `w` bits that wrap around are compared through the sign of their difference, which
agrees with the order of unbounded positions as long as the two are less than `2 ^ (w - 1)` apart.
`ahead u a` is how far `a` lies ahead of the base point `u`, and the lemmas of this file turn every
comparison of counters into a comparison of such distances.
-/

namespace Serial

variable {w : ℕ} {u a v b : BitVec w} {n : ℕ}

/-- `a` comes before `b`: the difference, read as a signed number, is negative. -/
def lt (a b : BitVec w) : Bool := (a - b).toInt < 0

def leq (a b : BitVec w) : Bool := (a - b).toInt ≤ 0

def gt (a b : BitVec w) : Bool := (a - b).toInt > 0

/-- How far `a` lies ahead of `u`, going forward. -/
def ahead (u a : BitVec w) : ℕ := (a - u).toNat

theorem ahead_lt (u a : BitVec w) : ahead u a < 2 ^ w := (a - u).isLt

@[simp] theorem ahead_self (u : BitVec w) : ahead u u = 0 := by simp [ahead]

theorem ahead_eq_zero : ahead u a = 0 ↔ a = u := by
  rw [ahead, ← BitVec.toNat_zero (w := w), BitVec.toNat_inj]
  constructor
  · intro h
    rw [← BitVec.sub_add_cancel a u, h, BitVec.zero_add]
  · rintro rfl
    exact BitVec.sub_self _

theorem add_ahead (u a : BitVec w) : u + BitVec.ofNat w (ahead u a) = a := by
  rw [ahead, BitVec.ofNat_toNat, BitVec.setWidth_eq, BitVec.add_comm, BitVec.sub_add_cancel]

theorem ahead_add (u : BitVec w) (h : n < 2 ^ w) : ahead u (u + BitVec.ofNat w n) = n := by
  simp [ahead, BitVec.add_comm u, Nat.mod_eq_of_lt h]

theorem ahead_ofNat (b : BitVec w) {m : ℕ} (h : m ≤ n) (hlt : n - m < 2 ^ w) :
    ahead (b + BitVec.ofNat w m) (b + BitVec.ofNat w n) = n - m := by
  have he : b + BitVec.ofNat w n = b + BitVec.ofNat w m + BitVec.ofNat w (n - m) := by
    rw [BitVec.add_assoc, ← BitVec.ofNat_add, Nat.add_sub_cancel' h]
  rw [he, ahead_add _ hlt]

theorem ahead_step (u a : BitVec w) (n : ℕ) :
    ahead u (a + BitVec.ofNat w n) = (ahead u a + n) % 2 ^ w := by
  have h : a + BitVec.ofNat w n - u = (a - u) + BitVec.ofNat w n := by
    rw [BitVec.sub_eq_add_neg, BitVec.sub_eq_add_neg, BitVec.add_assoc, BitVec.add_assoc,
      BitVec.add_comm (BitVec.ofNat w n)]
  rw [ahead, h, BitVec.toNat_add, BitVec.toNat_ofNat, Nat.add_mod_mod, ahead]

/-- Moving a counter forward adds to its distance, as long as that does not wrap. -/
theorem ahead_add_of_lt (h : ahead u a + n < 2 ^ w) :
    ahead u (a + BitVec.ofNat w n) = ahead u a + n := by
  rw [ahead_step, Nat.mod_eq_of_lt h]

theorem ahead_trans (u v a : BitVec w) : ahead u a = (ahead u v + ahead v a) % 2 ^ w := by
  conv_lhs => rw [← add_ahead v a]
  rw [ahead_step]

theorem ahead_rebase_ite (u v a : BitVec w) : ahead v a =
    if ahead u v ≤ ahead u a then ahead u a - ahead u v else 2 ^ w + ahead u a - ahead u v := by
  have hv := ahead_lt v a
  have hu := ahead_lt u v
  have ha := ahead_trans u v a
  rcases Nat.lt_or_ge (ahead u v + ahead v a) (2 ^ w) with hlt | hge
  · rw [Nat.mod_eq_of_lt hlt] at ha
    rw [if_pos (by omega)]
    omega
  · rw [Nat.mod_eq_sub_mod hge, Nat.mod_eq_of_lt (by omega)] at ha
    rw [if_neg (by omega)]
    omega

/-- Seen from a base point further on, a counter that is not behind it is nearer by as much. -/
theorem ahead_rebase (h : ahead u v ≤ ahead u a) :
    ahead v a = ahead u a - ahead u v := by
  rw [ahead_rebase_ite u, if_pos h]

/-- Seen from a base point further on, a counter it has passed lies almost a full turn ahead. -/
theorem ahead_rebase_of_lt (h : ahead u a < ahead u v) :
    ahead v a = 2 ^ w + ahead u a - ahead u v := by
  rw [ahead_rebase_ite u, if_neg h.not_ge]

/-- Going forward from one counter to another and back takes a full turn, or nothing. -/
theorem ahead_swap (u a : BitVec w) : ahead a u = (2 ^ w - ahead u a) % 2 ^ w := by
  have h := ahead_trans u a u
  have h1 := ahead_lt u a
  have h2 := ahead_lt a u
  rw [ahead_self] at h
  rcases Nat.eq_zero_or_pos (ahead u a) with h0 | hpos
  · rw [ahead_eq_zero] at h0
    rw [h0]
    simp
  · have hdvd : 2 ^ w ∣ ahead u a + ahead a u := Nat.dvd_of_mod_eq_zero h.symm
    have hsum : ahead u a + ahead a u = 2 ^ w := by
      obtain ⟨c, hc⟩ := hdvd
      have : c < 2 := by
        by_contra hge
        have := Nat.mul_le_mul_left (2 ^ w) (Nat.not_lt.1 hge)
        omega
      have : c ≠ 0 := by
        rintro rfl
        omega
      have : c = 1 := by omega
      rw [hc, this, Nat.mul_one]
    rw [Nat.mod_eq_of_lt (by omega)]
    omega

/-! ### Comparisons as distances -/

theorem lt_iff_ahead : lt a b = true ↔ 2 ^ w ≤ 2 * ahead b a := by
  have := (a - b).isLt
  simp only [lt, decide_eq_true_eq, BitVec.toInt, ahead]
  split_ifs with h <;> omega

theorem gt_iff_ahead : gt a b = true ↔ 0 < ahead b a ∧ 2 * ahead b a < 2 ^ w := by
  have := (a - b).isLt
  simp only [gt, gt_iff_lt, decide_eq_true_eq, BitVec.toInt, ahead]
  split_ifs with h <;> omega

theorem leq_eq_not_gt (a b : BitVec w) : leq a b = !gt a b := by
  simp [leq, gt, ← decide_not]

section Window

variable {u a b : BitVec w}

/-- For counters less than half a turn apart, the comparison is that of distances. -/
theorem lt_iff (ha : 2 * ahead u a < 2 ^ w + 2 * ahead u b)
    (hb : 2 * ahead u b ≤ 2 ^ w + 2 * ahead u a) : lt a b = true ↔ ahead u a < ahead u b := by
  rw [lt_iff_ahead, ahead_rebase_ite u]
  split_ifs <;> omega

theorem gt_iff (ha : 2 * ahead u a < 2 ^ w + 2 * ahead u b)
    (hb : 2 * ahead u b < 2 ^ w + 2 * ahead u a) : gt a b = true ↔ ahead u b < ahead u a := by
  rw [gt_iff_ahead, ahead_rebase_ite u]
  split_ifs <;> omega

theorem leq_iff (ha : 2 * ahead u a < 2 ^ w + 2 * ahead u b)
    (hb : 2 * ahead u b < 2 ^ w + 2 * ahead u a) : leq a b = true ↔ ahead u a ≤ ahead u b := by
  rw [leq_eq_not_gt, Bool.not_eq_true', ← Bool.not_eq_true, gt_iff ha hb, Nat.not_lt]

theorem ahead_later (ha : 2 * ahead u a < 2 ^ w + 2 * ahead u b)
    (hb : 2 * ahead u b < 2 ^ w + 2 * ahead u a) :
    ahead u (if gt a b = true then a else b) = max (ahead u a) (ahead u b) := by
  have hiff := gt_iff ha hb
  split_ifs with hgt <;> rw [hiff] at hgt <;> omega

end Window

end Serial
