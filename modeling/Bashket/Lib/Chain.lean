import Mathlib

/-!
# Singly linked lists

Nodes of a type `α` carry the field `nxt`, the node after them. `Path nxt head l` says that from
`head` on the nodes are those of `l`. A node is put at the back or taken out by a change of `nxt` at
the node before it: `Path.push` and `Path.unlink` say what has to change.
-/

namespace Chain

open List

variable {α : Type*}

/-- From `head` on, the nodes are those of the list. -/
def Path (nxt : α → Option α) : Option α → List α → Prop
  | head, [] => head = none
  | head, x :: l => head = some x ∧ Path nxt (nxt x) l

variable {nxt nxt' : α → Option α} {head : Option α} {x : α} {l l₁ l₂ : List α}

theorem Path.congr (h : Path nxt head l) (hn : ∀ y ∈ l, nxt' y = nxt y) : Path nxt' head l := by
  induction l generalizing head with
  | nil => exact h
  | cons y l ih =>
    refine ⟨h.1, ?_⟩
    rw [hn y mem_cons_self]
    exact ih h.2 fun z hz => hn z (mem_cons_of_mem _ hz)

theorem Path.unique (h₁ : Path nxt head l₁) (h₂ : Path nxt head l₂) : l₁ = l₂ := by
  induction l₁ generalizing head l₂ with
  | nil =>
    cases l₂ with
    | nil => rfl
    | cons y l₂ => cases h₁.symm.trans h₂.1
  | cons x l₁ ih =>
    cases l₂ with
    | nil => cases h₁.1.symm.trans h₂
    | cons y l₂ =>
      obtain rfl : x = y := Option.some.inj (h₁.1.symm.trans h₂.1)
      rw [ih h₁.2 h₂.2]

theorem Path.push (h : Path nxt head l) (hnd : l.Nodup) (hx : nxt' x = none)
    (hlast : ∀ y, l.getLast? = some y → nxt' y = some x)
    (hn : ∀ y ∈ l, l.getLast? ≠ some y → nxt' y = nxt y) :
    Path nxt' (if l = [] then some x else head) (l ++ [x]) := by
  induction l generalizing head with
  | nil =>
    rw [if_pos rfl]
    exact ⟨rfl, hx⟩
  | cons y l ih =>
    rw [if_neg (cons_ne_nil y l)]
    refine ⟨h.1, ?_⟩
    cases l with
    | nil =>
      rw [hlast y rfl]
      exact ⟨rfl, hx⟩
    | cons z l =>
      have hlst : (y :: z :: l).getLast? = (z :: l).getLast? := getLast?_cons_cons
      have hyz : y ∉ z :: l := (nodup_cons.1 hnd).1
      have hne : (y :: z :: l).getLast? ≠ some y := by
        rw [hlst]
        exact fun h0 => hyz (mem_of_getLast? h0)
      rw [hn y mem_cons_self hne]
      rw [hlst] at hlast hn
      have := ih h.2 (nodup_cons.1 hnd).2 hlast fun w hw => hn w (mem_cons_of_mem _ hw)
      rwa [if_neg (cons_ne_nil z l)] at this

theorem Path.unlink (h : Path nxt head (l₁ ++ x :: l₂)) (hnd : (l₁ ++ x :: l₂).Nodup)
    (hlast : ∀ y, l₁.getLast? = some y → nxt' y = nxt x)
    (hn : ∀ y ∈ l₁ ++ l₂, l₁.getLast? ≠ some y → nxt' y = nxt y) :
    Path nxt' (if l₁ = [] then nxt x else head) (l₁ ++ l₂) := by
  induction l₁ generalizing head with
  | nil =>
    rw [if_pos rfl]
    exact h.2.congr fun y hy => hn y hy (by simp)
  | cons y l₁ ih =>
    rw [if_neg (cons_ne_nil y l₁)]
    refine ⟨h.1, ?_⟩
    have hyl : y ∉ l₁ ++ x :: l₂ := (nodup_cons.1 hnd).1
    cases l₁ with
    | nil =>
      rw [hlast y rfl]
      refine h.2.2.congr fun w hw => hn w (mem_cons_of_mem _ hw) ?_
      intro h0
      cases h0
      exact hyl (mem_cons_of_mem _ hw)
    | cons z l₁ =>
      have hlst : (y :: z :: l₁).getLast? = (z :: l₁).getLast? := getLast?_cons_cons
      have hne : (y :: z :: l₁).getLast? ≠ some y := by
        rw [hlst]
        exact fun h0 => hyl (mem_append_left _ (mem_of_getLast? h0))
      rw [hn y mem_cons_self hne]
      rw [hlst] at hlast hn
      have := ih h.2 (nodup_cons.1 hnd).2 hlast fun w hw => hn w (mem_cons_of_mem _ hw)
      rwa [if_neg (cons_ne_nil z l₁)] at this

end Chain
