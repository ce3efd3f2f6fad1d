import Mathlib

/-!
# Runs of a deterministic machine

A machine is given by its step function `step : σ → ε → σ`; the events `ε` carry everything that is
not determined by the state. A run is a list of events. `Along step P s es` says that `P` holds of
every state and event the run `es` from `s` goes through, and `run_induction` is the rule for
invariants.
-/

namespace Run

/-! Literals of small `Fin` types, for runs on fixed inputs -/

instance (priority := 2000) neZero_one : NeZero (1 : ℕ) := ⟨by decide⟩

instance (priority := 2000) neZero_two : NeZero (2 : ℕ) := ⟨by decide⟩

instance (priority := 2000) neZero_three : NeZero (3 : ℕ) := ⟨by decide⟩

variable {σ ε : Type*} (step : σ → ε → σ) {s : σ} {es : List ε} {I : σ → Prop}

def run (s : σ) (es : List ε) : σ := es.foldl step s

/-- `P` holds of every step of the run: of the state before it and its event. -/
def Along (P : σ → ε → Prop) : σ → List ε → Prop
  | _, [] => True
  | s, e :: es => P s e ∧ Along P (step s e) es

instance Along.decidable (P : σ → ε → Prop) [∀ s e, Decidable (P s e)] :
    ∀ s es, Decidable (Along step P s es)
  | _, [] => isTrue trivial
  | s, e :: es =>
    haveI := Along.decidable P (step s e) es
    inferInstanceAs (Decidable (P s e ∧ Along step P (step s e) es))

/-- `P` holds of every state the run goes through, the first and the last included. -/
def Always (P : σ → Prop) : σ → List ε → Prop
  | s, [] => P s
  | s, e :: es => P s ∧ Always P (step s e) es

instance Always.decidable (P : σ → Prop) [∀ s, Decidable (P s)] :
    ∀ s es, Decidable (Always step P s es)
  | s, [] => inferInstanceAs (Decidable (P s))
  | s, e :: es =>
    haveI := Always.decidable P (step s e) es
    inferInstanceAs (Decidable (P s ∧ Always step P (step s e) es))

variable {step}

@[simp] theorem run_nil (s : σ) : run step s [] = s := rfl

@[simp] theorem run_cons (s : σ) (e : ε) (es : List ε) :
    run step s (e :: es) = run step (step s e) es := rfl

theorem run_append (s : σ) (es fs : List ε) :
    run step s (es ++ fs) = run step (run step s es) fs := by
  simp [run]

variable {P Q : σ → ε → Prop}

theorem along_append (s : σ) (es fs : List ε) :
    Along step P s (es ++ fs) ↔ Along step P s es ∧ Along step P (run step s es) fs := by
  induction es generalizing s with
  | nil => simp [Along]
  | cons e es ih => simp [Along, ih, and_assoc]

theorem Along.mono (h : ∀ s e, P s e → Q s e) (hP : Along step P s es) :
    Along step Q s es := by
  induction es generalizing s with
  | nil => trivial
  | cons e es ih => exact ⟨h _ _ hP.1, ih hP.2⟩

theorem Along.of_forall (h : ∀ s e, P s e) : Along step P s es := by
  induction es generalizing s with
  | nil => trivial
  | cons e es ih => exact ⟨h _ _, ih⟩

theorem Along.and (hP : Along step P s es) (hQ : Along step Q s es) :
    Along step (fun s e => P s e ∧ Q s e) s es := by
  induction es generalizing s with
  | nil => trivial
  | cons e es ih => exact ⟨⟨hP.1, hQ.1⟩, ih hP.2 hQ.2⟩

theorem always_iff (s : σ) (es : List ε) :
    Always step I s es ↔ ∀ es₁ es₂, es = es₁ ++ es₂ → I (run step s es₁) := by
  induction es generalizing s with
  | nil =>
    constructor
    · intro h es₁ es₂ he
      obtain ⟨rfl, -⟩ := List.append_eq_nil_iff.1 he.symm
      exact h
    · intro h
      exact h [] [] rfl
  | cons e es ih =>
    constructor
    · rintro ⟨hs, h⟩ es₁ es₂ he
      rcases List.cons_eq_append_iff.1 he with ⟨rfl, -⟩ | ⟨es₁', rfl, he'⟩
      · exact hs
      · exact (ih _).1 h es₁' es₂ he'
    · intro h
      refine ⟨h [] (e :: es) rfl, (ih _).2 fun es₁ es₂ he => ?_⟩
      exact h (e :: es₁) es₂ (by rw [he, List.cons_append])

/-- What holds at the start and is kept by every step that satisfies `P` holds at the end. -/
theorem run_induction (hstep : ∀ s e, I s → P s e → I (step s e)) (h0 : I s)
    (hP : Along step P s es) : I (run step s es) := by
  induction es generalizing s with
  | nil => exact h0
  | cons e es ih => exact ih (hstep s e h0 hP.1) hP.2

/-- What holds at the start and is kept by every step that satisfies `P` holds all along. -/
theorem always_of_induction (hstep : ∀ s e, I s → P s e → I (step s e)) (h0 : I s)
    (hP : Along step P s es) : Always step I s es := by
  induction es generalizing s with
  | nil => exact h0
  | cons e es ih => exact ⟨h0, ih (hstep s e h0 hP.1) hP.2⟩

theorem Always.mono {J : σ → Prop} (h : ∀ s, I s → J s) (hI : Always step I s es) :
    Always step J s es := by
  induction es generalizing s with
  | nil => exact h _ hI
  | cons e es ih => exact ⟨h _ hI.1, ih hI.2⟩

theorem Always.next (hI : Always step I s es) :
    Along step (fun s e => I (step s e)) s es := by
  induction es generalizing s with
  | nil => trivial
  | cons e es ih =>
    refine ⟨?_, ih hI.2⟩
    cases es with
    | nil => exact hI.2
    | cons e' es => exact hI.2.1

/-- An invariant kept under `P` may be assumed at every step. -/
theorem Along.with_invariant (hstep : ∀ s e, I s → P s e → I (step s e)) (h0 : I s)
    (hP : Along step P s es) :
    Along step (fun s e => I s ∧ P s e) s es := by
  induction es generalizing s with
  | nil => trivial
  | cons e es ih => exact ⟨⟨h0, hP.1⟩, ih (hstep s e h0 hP.1) hP.2⟩

end Run
