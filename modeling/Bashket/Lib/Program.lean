import Mathlib

/-!
# Programs that make calls

A program has returned, or it makes a call and goes on with the answer. Programs form a monad, so
that code which works on a shared state is written as it reads, and a scheduler can stop it at every
call. `Only P` says that every call the program can make satisfies `P`; `exec` runs a program alone.
`Ensures` is about runs alone as they show in an abstract state, which a relation ties to the real
one.
-/

namespace Program

/-- A program with calls `C`, answered in `R`, that returns a value of `α`. -/
inductive Prog (C : Type) (R : C → Type) (α : Type)
  | ret (a : α)
  | call (c : C) (k : R c → Prog C R α)

namespace Prog

variable {C : Type} {R : C → Type} {α β σ : Type} {P Q : C → Prop}

protected def bind (p : Prog C R α) (f : α → Prog C R β) : Prog C R β :=
  match p with
  | ret a => f a
  | call c k => call c fun r => (k r).bind f

instance : Monad (Prog C R) where
  pure := ret
  bind := Prog.bind

def ask (c : C) : Prog C R (R c) := call c ret

def when (p : Prog C R Unit) (c : Prop) [Decidable c] : Prog C R Unit := if c then p else ret ()

/-- Every call the program can make satisfies `P`. -/
def Only (P : C → Prop) : Prog C R α → Prop
  | ret _ => True
  | call c k => P c ∧ ∀ r, (k r).Only P

/-! ### What the calls of a program satisfy -/

@[simp] theorem only_pure (a : α) : (pure a : Prog C R α).Only P := trivial

@[simp] theorem only_ask (c : C) : (ask c : Prog C R (R c)).Only P ↔ P c := by
  simp [ask, Only]

theorem Only.bind {p : Prog C R α} {f : α → Prog C R β} (hp : p.Only P)
    (hf : ∀ a, (f a).Only P) : (p >>= f).Only P := by
  induction p with
  | ret a => exact hf a
  | call c k ih => exact ⟨hp.1, fun r => ih r (hp.2 r)⟩

theorem Only.mono (h : ∀ c, P c → Q c) {p : Prog C R α} (hp : p.Only P) : p.Only Q := by
  induction p with
  | ret a => trivial
  | call c k ih => exact ⟨h c hp.1, fun r => ih r (hp.2 r)⟩

theorem Only.when {c : Prop} [Decidable c] {p : Prog C R Unit} (hp : p.Only P) :
    (p.when c).Only P := by
  unfold Prog.when
  split
  · exact hp
  · trivial

theorem Only.forM {l : List β} {f : β → Prog C R Unit} (h : ∀ b ∈ l, (f b).Only P) :
    (l.forM f).Only P := by
  induction l with
  | nil => exact only_pure _
  | cons b l ih =>
    exact (h b List.mem_cons_self).bind fun _ => ih fun c hc => h c (List.mem_cons_of_mem b hc)

/-! ### Running alone -/

variable (answer : σ → (c : C) → σ × R c)

/-- The program run from the state `s` to its end, with nobody else acting. -/
def exec (s : σ) : Prog C R α → σ × α
  | ret a => (s, a)
  | call c k => exec (answer s c).1 (k (answer s c).2)

@[simp] theorem exec_pure (s : σ) (a : α) : exec answer s (pure a : Prog C R α) = (s, a) := rfl

@[simp] theorem exec_ask (s : σ) (c : C) : exec answer s (ask c) = answer s c := rfl

@[simp] theorem exec_bind (s : σ) (p : Prog C R α) (f : α → Prog C R β) :
    exec answer s (p >>= f) = exec answer (exec answer s p).1 (f (exec answer s p).2) := by
  induction p generalizing s with
  | ret a => rfl
  | call c k ih => exact ih _ _

/-! ### What a run alone establishes -/

variable {ν : Type*} (rel : σ → ν → Prop)

/-- From any state that shows as `v`, the program ends in one that shows as some `v'` and returns
some `a` with `Q v' a`. -/
def Ensures (p : Prog C R α) (v : ν) (Q : ν → α → Prop) : Prop :=
  ∀ s, rel s v → ∃ v', rel (exec answer s p).1 v' ∧ Q v' (exec answer s p).2

variable {answer rel} {v : ν} {p : Prog C R α} {S T : ν → α → Prop}

theorem Ensures.pure {a : α} (h : S v a) : Ensures answer rel (pure a : Prog C R α) v S :=
  fun _ hs => ⟨v, hs, h⟩

theorem Ensures.mono (hp : Ensures answer rel p v S) (h : ∀ v' a, S v' a → T v' a) :
    Ensures answer rel p v T := by
  intro s hs
  obtain ⟨v', hv', ha⟩ := hp s hs
  exact ⟨v', hv', h v' _ ha⟩

theorem Ensures.bind {f : α → Prog C R β} {U : ν → β → Prop} (hp : Ensures answer rel p v S)
    (hf : ∀ v' a, S v' a → Ensures answer rel (f a) v' U) : Ensures answer rel (p >>= f) v U := by
  intro s hs
  obtain ⟨v', hv', ha⟩ := hp s hs
  rw [exec_bind]
  exact hf v' _ ha _ hv'

theorem Ensures.when {c : Prop} [Decidable c] {p : Prog C R Unit} {S : ν → Unit → Prop}
    (hp : c → Ensures answer rel p v S) (hn : ¬ c → S v ()) :
    Ensures answer rel (p.when c) v S := by
  unfold Prog.when
  split
  next h => exact hp h
  next h => exact Ensures.pure (hn h)

/-- A loop over a list, with an invariant that knows how far it has come. -/
theorem Ensures.forM (I : ℕ → ν → Prop) {l : List β} {f : β → Prog C R Unit}
    (hf : ∀ k (hk : k < l.length) v, I k v → Ensures answer rel (f l[k]) v fun v' _ => I (k + 1) v')
    (h : I 0 v) : Ensures answer rel (l.forM f) v fun v' _ => I l.length v' := by
  induction l generalizing I v with
  | nil => exact Ensures.pure h
  | cons b l ih =>
    refine (hf 0 (Nat.succ_pos _) v h).bind fun v' _ h' => ?_
    exact ih (fun k => I (k + 1)) (fun k hk => hf (k + 1) (Nat.succ_lt_succ hk)) h'

end Prog

end Program
