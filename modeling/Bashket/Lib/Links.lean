import Mathlib

/-!
# Doubly linked lists

Nodes of a type `α` carry the fields `nxt` and `prv`; `null` is no node. `Linked null nxt prv before
head l` says that from `head` on the nodes are those of `l`, linked both ways, the first of them
back to `before`. `Linked.push` and `Linked.unlink` say which fields have to change and how.
-/

namespace Links

open List

variable {α : Type*} {null : α}

/-- From `head` on, the nodes are those of the list, linked both ways. -/
def Linked (null : α) (nxt prv : α → α) : α → α → List α → Prop
  | _, head, [] => head = null
  | before, head, x :: l => head = x ∧ x ≠ null ∧ prv x = before ∧ Linked null nxt prv x (nxt x) l

variable {nxt prv nxt' prv' : α → α} {before head x : α} {l : List α}

theorem Linked.ne_null (h : Linked null nxt prv before head l) (hx : x ∈ l) : x ≠ null := by
  induction l generalizing before head with
  | nil => cases hx
  | cons y l ih =>
    rcases mem_cons.1 hx with rfl | hx
    · exact h.2.1
    · exact ih h.2.2.2 hx

theorem Linked.head_eq_null (h : Linked null nxt prv before head l) : head = null ↔ l = [] := by
  cases l with
  | nil => exact ⟨fun _ => rfl, fun _ => h⟩
  | cons y l =>
    refine ⟨fun h0 => absurd (h.1.symm.trans h0) h.2.1, fun h0 => ?_⟩
    cases h0

theorem Linked.congr (h : Linked null nxt prv before head l) (hn : ∀ y ∈ l, nxt' y = nxt y)
    (hp : ∀ y ∈ l, prv' y = prv y) : Linked null nxt' prv' before head l := by
  induction l generalizing before head with
  | nil => exact h
  | cons y l ih =>
    obtain ⟨h1, h2, h3, h4⟩ := h
    refine ⟨h1, h2, (hp y mem_cons_self).trans h3, ?_⟩
    rw [hn y mem_cons_self]
    exact ih h4 (fun z hz => hn z (mem_cons_of_mem _ hz))
      fun z hz => hp z (mem_cons_of_mem _ hz)

theorem Linked.prv_mem (h : Linked null nxt prv before head l) (hx : x ∈ l) :
    prv x = before ∨ prv x ∈ l := by
  induction l generalizing before head with
  | nil => cases hx
  | cons y l ih =>
    rcases mem_cons.1 hx with rfl | hx
    · exact .inl h.2.2.1
    · rcases ih h.2.2.2 hx with h0 | h0
      · exact .inr (h0 ▸ mem_cons_self)
      · exact .inr (mem_cons_of_mem _ h0)

theorem Linked.nxt_mem (h : Linked null nxt prv before head l) (hx : x ∈ l) :
    nxt x = null ∨ nxt x ∈ l := by
  induction l generalizing before head with
  | nil => cases hx
  | cons y l ih =>
    rcases mem_cons.1 hx with rfl | hx
    · cases l with
      | nil => exact .inl h.2.2.2
      | cons z l =>
        refine .inr (mem_cons_of_mem _ ?_)
        rw [h.2.2.2.1]
        exact mem_cons_self
    · exact (ih h.2.2.2 hx).imp id fun h0 => mem_cons_of_mem _ h0

theorem Linked.push (h : Linked null nxt prv null head l) (hx : x ≠ null) (hn : nxt' x = head)
    (hp : prv' x = null) (hnl : ∀ y ∈ l, nxt' y = nxt y)
    (hpl : ∀ y ∈ l, y ≠ head → prv' y = prv y) (hph : head ≠ null → prv' head = x)
    (hnd : l.Nodup) : Linked null nxt' prv' null x (x :: l) := by
  refine ⟨rfl, hx, hp, ?_⟩
  rw [hn]
  cases l with
  | nil => exact h
  | cons y l =>
    obtain ⟨rfl, h2, h3, h4⟩ := h
    refine ⟨rfl, h2, hph h2, ?_⟩
    rw [hnl _ mem_cons_self]
    refine h4.congr (fun z hz => hnl z (mem_cons_of_mem _ hz)) fun z hz => ?_
    refine hpl z (mem_cons_of_mem _ hz) ?_
    rintro rfl
    exact (nodup_cons.1 hnd).1 hz

section Unlink

variable [DecidableEq α]

/-- A node is taken out: the node before it gets its `nxt`, the node after it its `prv`.  The list
begins after the node `before`. -/
theorem Linked.unlink (h : Linked null nxt prv before head l) (hx : x ∈ l)
    (hnd : (before :: l).Nodup)
    (hn : ∀ y ∈ l, nxt' y = if y = prv x then nxt x else nxt y)
    (hp : ∀ y ∈ l, prv' y = if y = nxt x then prv x else prv y) :
    Linked null nxt' prv' before (if before = prv x then nxt x else head) (l.erase x) := by
  induction l generalizing before head with
  | nil => cases hx
  | cons z t ih =>
    obtain ⟨rfl, hz, hpz, ht⟩ := h
    obtain ⟨hb, hnd'⟩ := nodup_cons.1 hnd
    have hzt : head ∉ t := (nodup_cons.1 hnd').1
    rcases mem_cons.1 hx with rfl | hxt
    · -- the first node goes: the next one follows `before`
      rw [hpz, if_pos rfl, erase_cons_head]
      rw [hpz] at hn hp
      cases t with
      | nil => exact ht
      | cons w t =>
        obtain ⟨h1, h2, h3, h4⟩ := ht
        have hnb (y : α) (hy : y ∈ w :: t) : y ≠ before := by
          rintro rfl
          exact hb (mem_cons_of_mem _ hy)
        have hkeep (y : α) (hy : y ∈ w :: t) : nxt' y = nxt y := by
          rw [hn y (mem_cons_of_mem _ hy), if_neg (hnb y hy)]
        refine ⟨h1, h2, ?_, ?_⟩
        · rw [hp w (mem_cons_of_mem _ mem_cons_self), if_pos h1.symm]
        · rw [hkeep w mem_cons_self]
          refine h4.congr (fun y hy => hkeep y (mem_cons_of_mem _ hy)) fun y hy => ?_
          rw [hp y (mem_cons_of_mem _ (mem_cons_of_mem _ hy)), if_neg]
          rintro rfl
          rw [h1] at hy
          exact (nodup_cons.1 (nodup_cons.1 hnd').2).1 hy
    · have hxz : x ≠ head := fun h0 => hzt (h0 ▸ hxt)
      have hprv : prv x ∈ head :: t := by
        rcases ht.prv_mem hxt with h0 | h0
        · exact h0 ▸ mem_cons_self
        · exact mem_cons_of_mem _ h0
      have hbp : before ≠ prv x := fun h0 => hb (h0 ▸ hprv)
      have hzn : head ≠ nxt x := by
        intro h0
        rcases ht.nxt_mem hxt with h1 | h1
        · exact hz (h0.trans h1)
        · exact hzt (h0 ▸ h1)
      rw [if_neg hbp, erase_cons_tail (by simpa using hxz.symm)]
      refine ⟨rfl, hz, ?_, ?_⟩
      · rw [hp head mem_cons_self, if_neg hzn, hpz]
      · rw [hn head mem_cons_self]
        exact ih ht hxt hnd' (fun y hy => hn y (mem_cons_of_mem _ hy))
          fun y hy => hp y (mem_cons_of_mem _ hy)

end Unlink

end Links
