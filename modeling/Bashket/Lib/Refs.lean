import Mathlib

/-!
# Counting references

Slots `κ` hold values of a type `α`, and `P a f` says that the value `a` refers to `f`.  `refs P g f`
is the number of slots that refer to `f`; writing one slot changes it by what the slot referred to
before and after.  `sum_update` says the same of any weight of the values.
-/

namespace Refs

open Function (update update_of_ne update_self)

variable {κ α φ : Type*} [Fintype κ] (P : α → φ → Prop) [∀ a f, Decidable (P a f)]

/-- How many slots refer to `f`. -/
def refs (g : κ → α) (f : φ) : ℕ := (Finset.univ.filter fun k => P (g k) f).card

variable {P} {g g' : κ → α} {f : φ} {k k' : κ}

theorem refs_mono (h : ∀ k, P (g k) f → P (g' k) f) : refs P g f ≤ refs P g' f :=
  Finset.card_le_card fun k hk => by
    rw [Finset.mem_filter] at hk ⊢
    exact ⟨hk.1, h k hk.2⟩

theorem refs_congr (h : ∀ k, P (g k) f ↔ P (g' k) f) : refs P g f = refs P g' f :=
  le_antisymm (refs_mono fun k => (h k).1) (refs_mono fun k => (h k).2)

theorem refs_pos (h : P (g k) f) : 0 < refs P g f :=
  Finset.card_pos.2 ⟨k, Finset.mem_filter.2 ⟨Finset.mem_univ k, h⟩⟩

theorem eq_of_refs_le_one (h : refs P g f ≤ 1) (hk : P (g k) f) (hk' : P (g k') f) : k = k' :=
  Finset.card_le_one.1 h k (Finset.mem_filter.2 ⟨Finset.mem_univ k, hk⟩) k'
    (Finset.mem_filter.2 ⟨Finset.mem_univ k', hk'⟩)

theorem refs_update [DecidableEq κ] (a : α) :
    refs P (update g k a) f + (if P (g k) f then 1 else 0) =
      refs P g f + (if P a f then 1 else 0) := by
  have hsplit (h : κ → α) : refs P h f =
      (if P (h k) f then 1 else 0) + ((Finset.univ.erase k).filter fun j => P (h j) f).card := by
    rw [refs, ← Finset.insert_erase (Finset.mem_univ k), Finset.filter_insert]
    split_ifs with h0
    · rw [Finset.card_insert_of_notMem (by simp), Nat.add_comm]
      simp
    · simp
  have hrest : ((Finset.univ.erase k).filter fun j => P (update g k a j) f) =
      (Finset.univ.erase k).filter fun j => P (g j) f := by
    refine Finset.filter_congr fun j hj => ?_
    rw [update_of_ne (Finset.ne_of_mem_erase hj)]
  rw [hsplit (update g k a), hsplit g, hrest, update_self]
  omega

theorem sum_update [DecidableEq κ] {M : Type*} [AddCommMonoid M] (w : α → M) (g : κ → α) (k : κ)
    (a : α) : ∑ j, w (update g k a j) + w (g k) = ∑ j, w (g j) + w a := by
  rw [← Finset.add_sum_erase _ _ (Finset.mem_univ k),
    ← Finset.add_sum_erase _ (fun j => w (g j)) (Finset.mem_univ k), update_self]
  have hrest : ∑ j ∈ Finset.univ.erase k, w (update g k a j) =
      ∑ j ∈ Finset.univ.erase k, w (g j) := by
    refine Finset.sum_congr rfl fun j hj => ?_
    rw [update_of_ne (Finset.ne_of_mem_erase hj)]
  rw [hrest]
  abel

end Refs
