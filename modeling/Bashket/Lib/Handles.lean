import Mathlib

/-!
# Counted references

Objects `κ` count the references to them, some of which tasks `τ` have for the time of a call; the
task that gives up the last one closes the object.  `tie t` is what a task has to do with the
objects: nothing, a reference to one (`false`), or it closes it (`true`).  `objs k` are the calls
that have references to an object, and the count.
-/

namespace Handles

open List
open Function (update update_self update_of_ne)

variable {τ κ : Type*} {tie tie' : τ → Option (κ × Bool)} {objs : κ → Option (List τ × ℕ)} {t : τ}
  {k : κ} {calls : List τ} {refs : ℕ}

/-- Nobody closes it before the last reference is given up, and then one task does. -/
structure Counted (tie : τ → Option (κ × Bool)) (k : κ) (calls : List τ) (refs : ℕ) : Prop where
  nodup : calls.Nodup
  le : calls.length ≤ refs
  mem : ∀ t, t ∈ calls ↔ tie t = some (k, false)
  last : refs = 0 → ∃! t, tie t = some (k, true)
  notLast : 0 < refs → ∀ t, tie t ≠ some (k, true)

def At (tie : τ → Option (κ × Bool)) (k : κ) : Option (List τ × ℕ) → Prop
  | some x => Counted tie k x.1 x.2
  | none => ∀ t b, tie t ≠ some (k, b)

def Ok (tie : τ → Option (κ × Bool)) (objs : κ → Option (List τ × ℕ)) : Prop :=
  ∀ k, At tie k (objs k)

theorem Counted.pos (h : Counted tie k calls refs) (ht : tie t = some (k, false)) : 0 < refs :=
  (length_pos_of_mem ((h.mem t).2 ht)).trans_le h.le

theorem Ok.here (h : Ok tie objs) (hk : objs k = some (calls, refs)) : Counted tie k calls refs := by
  have hat := h k
  rwa [hk] at hat

theorem Ok.gone (h : Ok tie objs) (hk : objs k = none) (t : τ) (b : Bool) : tie t ≠ some (k, b) := by
  have hat := h k
  rw [hk] at hat
  exact hat t b

theorem At.congr {x : Option (List τ × ℕ)} (h : At tie k x)
    (htie : ∀ t b, tie' t = some (k, b) ↔ tie t = some (k, b)) : At tie' k x := by
  cases x with
  | none =>
    intro t b
    rw [Ne, htie]
    exact h t b
  | some x =>
    refine ⟨h.nodup, h.le, fun t => ?_, ?_, ?_⟩
    · rw [htie]
      exact h.mem t
    · simp only [htie]
      exact h.last
    · simp only [Ne, htie]
      exact h.notLast

variable [DecidableEq τ] [DecidableEq κ]

/-- A task and an object change, and the task has to do with no other object. -/
theorem Ok.change (h : Ok tie objs) {v : Option (κ × Bool)} {x : Option (List τ × ℕ)}
    (hold : ∀ j b, tie t = some (j, b) → j = k) (hnew : ∀ j b, v = some (j, b) → j = k)
    (hx : At (update tie t v) k x) : Ok (update tie t v) (update objs k x) := by
  intro j
  rcases eq_or_ne j k with rfl | hj
  · rw [update_self]
    exact hx
  · rw [update_of_ne hj]
    refine (h j).congr fun u b => ?_
    rcases eq_or_ne u t with rfl | hu
    · rw [update_self]
      exact ⟨fun he => absurd (hnew j b he) hj, fun he => absurd (hold j b he) hj⟩
    · rw [update_of_ne hu]

omit [DecidableEq τ] in
theorem Ok.create (h : Ok tie objs) (hk : objs k = none) :
    Ok tie (update objs k (some ([], 1))) := by
  intro j
  rcases eq_or_ne j k with rfl | hj
  · rw [update_self]
    exact ⟨nodup_nil, Nat.zero_le _, fun t => ⟨nofun, fun ht => absurd ht (h.gone hk t false)⟩,
      nofun, fun _ t => h.gone hk t true⟩
  · rw [update_of_ne hj]
    exact h j

omit [DecidableEq τ] in
theorem Ok.dup (h : Ok tie objs) (hk : objs k = some (calls, refs)) (hpos : 0 < refs) :
    Ok tie (update objs k (some (calls, refs + 1))) := by
  have hc := h.here hk
  intro j
  rcases eq_or_ne j k with rfl | hj
  · rw [update_self]
    exact ⟨hc.nodup, hc.le.trans (Nat.le_succ _), hc.mem, nofun, fun _ => hc.notLast hpos⟩
  · rw [update_of_ne hj]
    exact h j

theorem Ok.enter (h : Ok tie objs) (ht : tie t = none) (hk : objs k = some (calls, refs))
    (hpos : 0 < refs) :
    Ok (update tie t (some (k, false))) (update objs k (some (t :: calls, refs + 1))) := by
  have hc := h.here hk
  refine h.change (fun j b hj => ?_) (fun j b hj => ?_)
    ⟨?_, Nat.succ_le_succ hc.le, fun u => ?_, nofun, fun _ u => ?_⟩
  · rw [ht] at hj
    cases hj
  · cases hj
    rfl
  · refine nodup_cons.2 ⟨fun hmem => ?_, hc.nodup⟩
    rw [hc.mem, ht] at hmem
    cases hmem
  · rcases eq_or_ne u t with rfl | hu
    · rw [update_self]
      exact ⟨fun _ => rfl, fun _ => mem_cons_self ..⟩
    · rw [update_of_ne hu, mem_cons, or_iff_right hu]
      exact hc.mem u
  · rcases eq_or_ne u t with rfl | hu
    · rw [update_self]
      nofun
    · rw [update_of_ne hu]
      exact hc.notLast hpos u

/-- What is left to do for the one who gave up a reference. -/
def afterwards (k : κ) (refs : ℕ) : Option (κ × Bool) := if 0 < refs then none else some (k, true)

theorem Ok.giveUp (h : Ok tie objs) {calls' : List τ} (hk : objs k = some (calls, refs))
    (hpos : 0 < refs) (hold : ∀ j b, tie t = some (j, b) → j = k) (hnodup : calls'.Nodup)
    (hle : calls'.length ≤ refs - 1)
    (hmem : ∀ u, u ∈ calls' ↔ u ≠ t ∧ tie u = some (k, false)) :
    Ok (update tie t (afterwards k (refs - 1))) (update objs k (some (calls', refs - 1))) := by
  have hc := h.here hk
  refine h.change hold (fun j b hj => ?_)
    ⟨hnodup, hle, fun u => ?_, fun h0 => ⟨t, ?_, fun u hu => ?_⟩, fun hleft u => ?_⟩
  · unfold afterwards at hj
    split at hj
    · cases hj
    · cases hj
      rfl
  · rw [hmem]
    rcases eq_or_ne u t with rfl | hu
    · rw [update_self, afterwards]
      refine ⟨fun hu => absurd rfl hu.1, fun hu => ?_⟩
      split at hu <;> cases hu
    · rw [update_of_ne hu]
      exact and_iff_right hu
  · dsimp only at h0 ⊢
    rw [update_self, afterwards, h0, if_neg (lt_irrefl 0)]
  · by_contra hne
    dsimp only at hu
    rw [update_of_ne hne] at hu
    exact hc.notLast hpos u hu
  · rcases eq_or_ne u t with rfl | hu
    · rw [update_self, afterwards, if_pos hleft]
      nofun
    · rw [update_of_ne hu]
      exact hc.notLast hpos u

/-- A reference that no call has is given up. -/
theorem Ok.drop (h : Ok tie objs) (ht : tie t = none) (hk : objs k = some (calls, refs))
    (hlt : calls.length < refs) :
    Ok (update tie t (afterwards k (refs - 1))) (update objs k (some (calls, refs - 1))) := by
  have hc := h.here hk
  refine h.giveUp hk (Nat.zero_lt_of_lt hlt) (fun j b hj => ?_) hc.nodup (Nat.le_sub_one_of_lt hlt)
    fun u => ?_
  · rw [ht] at hj
    cases hj
  · rw [hc.mem]
    refine ⟨fun hu => ⟨?_, hu⟩, And.right⟩
    rintro rfl
    rw [ht] at hu
    cases hu

theorem Ok.leave (h : Ok tie objs) (ht : tie t = some (k, false))
    (hk : objs k = some (calls, refs)) :
    Ok (update tie t (afterwards k (refs - 1))) (update objs k (some (calls.erase t, refs - 1))) := by
  have hc := h.here hk
  refine h.giveUp hk (hc.pos ht) (fun j b hj => ?_) (hc.nodup.erase t) ?_ fun u => ?_
  · cases ht.symm.trans hj
    rfl
  · rw [length_erase_of_mem ((hc.mem t).2 ht)]
    exact Nat.sub_le_sub_right hc.le 1
  · rw [hc.nodup.mem_erase_iff, hc.mem]

/-- The object goes: the task that closes it is the only one that has to do with it. -/
theorem Ok.finish (h : Ok tie objs) (ht : tie t = some (k, true)) :
    Ok (update tie t none) (update objs k none) := by
  refine h.change (fun j b hj => ?_) nofun fun u b hu => ?_
  · cases ht.symm.trans hj
    rfl
  · rcases eq_or_ne u t with rfl | hne
    · rw [update_self] at hu
      cases hu
    · rw [update_of_ne hne] at hu
      cases hk : objs k with
      | none => exact h.gone hk u b hu
      | some x =>
        have hc := h.here hk
        have h0 : x.2 = 0 := by
          by_contra hpos
          exact hc.notLast (Nat.pos_of_ne_zero hpos) t ht
        cases b with
        | true => exact hne ((hc.last h0).unique hu ht)
        | false => exact (hc.pos hu).ne' h0

end Handles
