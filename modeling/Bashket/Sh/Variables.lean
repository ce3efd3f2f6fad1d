import Bashket.Lib.Run

/-!
# Variables of the shell

The two places of a variable in `user/sh.c`: the shell's own table and the environment. A process
that runs shell code goes through the events of the shells it was copied from, up to its fork, and
then its own. Whether there is memory, and an entry free in the table, is part of an event; words
that are no names are refused before anything is done and are left out.
-/

namespace Bashket.Sh

open Function (update update_of_ne update_self)

variable {ν τ : Type*}

/-- An entry of `saved_variables`. -/
structure Saved (ν τ : Type*) where
  name : ν
  value : Option τ
  exported : Bool

structure Vars (ν τ : Type*) where
  own : ν → Option τ
  env : ν → Option τ
  /-- The newest first. -/
  saved : List (Saved ν τ)
  /-- `locals_mark` of the functions being run. -/
  marks : List ℕ

inductive Event (ν τ : Type*)
  | assign (name : ν) (value : τ) (ok : Bool)
  | exportName (name : ν) (ok : Bool)
  | exportValue (name : ν) (value : τ) (ok : Bool)
  | unset (name : ν)
  | declareLocal (name : ν) (value : Option τ) (copied ok : Bool)
  /-- A function begins. -/
  | call
  /-- It returns; `ok` says which of the saved variables can be put back. -/
  | leave (ok : ℕ → Bool)
  /-- `exec_stage` in a child, which then goes on with a function or `read`. -/
  | stage (assignments : List (ν × τ))

def Vars.start (env : ν → Option τ) : Vars ν τ := ⟨fun _ => none, env, [], []⟩

def Vars.getVariable (s : Vars ν τ) (name : ν) : Option τ := (s.own name).or (s.env name)

variable [DecidableEq ν]

def Vars.setenv (s : Vars ν τ) (name : ν) (value : τ) (ok : Bool) : Vars ν τ :=
  if ok then { s with env := update s.env name (some value) } else s

def Vars.setVariable (s : Vars ν τ) (name : ν) (value : τ) (ok : Bool) : Vars ν τ :=
  if (s.env name).isSome then s.setenv name value ok
  else if ok then { s with own := update s.own name (some value) } else s

def Vars.forget (s : Vars ν τ) (name : ν) : Vars ν τ := { s with own := update s.own name none }

def Vars.unsetVariable (s : Vars ν τ) (name : ν) : Vars ν τ :=
  { s.forget name with env := update s.env name none }

def Vars.exportVariable (s : Vars ν τ) (name : ν) (ok : Bool) : Vars ν τ :=
  match s.own name with
  | none => s
  | some value => if ok then (s.setenv name value true).forget name else s

def Vars.putBack (s : Vars ν τ) (v : Saved ν τ) (ok : Bool) : Vars ν τ :=
  match v.value with
  | none => s.unsetVariable v.name
  | some value =>
    if v.exported then (s.unsetVariable v.name).setenv v.name value ok
    else (s.unsetVariable v.name).setVariable v.name value ok

/-- `restore_locals`, with the entries that are still saved. -/
def Vars.restoreLocals (ok : ℕ → Bool) (mark : ℕ) (s : Vars ν τ) : List (Saved ν τ) → Vars ν τ
  | [] => { s with saved := [] }
  | v :: rest =>
    if mark ≤ rest.length then (s.putBack v (ok rest.length)).restoreLocals ok mark rest
    else { s with saved := v :: rest }

def Vars.localBuiltin (s : Vars ν τ) (name : ν) (value : Option τ) (copied ok : Bool) : Vars ν τ :=
  if s.marks = [] ∨ 64 ≤ s.saved.length ∨ copied = false then s else
    let s' := { s with saved := ⟨name, s.getVariable name, (s.env name).isSome⟩ :: s.saved }
    match value with
    | none => s'
    | some value => s'.setVariable name value ok

def Vars.step (s : Vars ν τ) : Event ν τ → Vars ν τ
  | .assign name value ok => s.setVariable name value ok
  | .exportName name ok => s.exportVariable name ok
  | .exportValue name value ok => (s.forget name).setenv name value ok
  | .unset name => s.unsetVariable name
  | .declareLocal name value copied ok => s.localBuiltin name value copied ok
  | .call => if 64 ≤ s.marks.length then s else { s with marks := s.saved.length :: s.marks }
  | .leave ok =>
    match s.marks with
    | [] => s
    | mark :: marks => { s.restoreLocals ok mark s.saved with marks := marks }
  | .stage assignments => assignments.foldl (fun s a => s.setenv a.1 a.2 true) s

/-! ### One place -/

def Vars.OnePlace (s : Vars ν τ) : Prop := ∀ name, s.own name = none ∨ s.env name = none

/-- What the programs of the shell see of a variable is what it expands itself. -/
structure Vars.Sound (s : Vars ν τ) : Prop where
  onePlace : s.OnePlace
  seen : ∀ name value, s.env name = some value → s.getVariable name = some value

/-- No assignment in front of what a child runs is to a variable of the shell's own. -/
def Apart (s : Vars ν τ) : Event ν τ → Prop
  | .stage assignments => ∀ a ∈ assignments, s.own a.1 = none
  | _ => True

variable {s : Vars ν τ} {name : ν}

/-- A change of one name. -/
theorem Vars.OnePlace.change {s' : Vars ν τ} (h : s.OnePlace)
    (hname : s'.own name = none ∨ s'.env name = none)
    (hother : ∀ x, x ≠ name → s'.own x = s.own x ∧ s'.env x = s.env x) : s'.OnePlace := by
  intro x
  by_cases hx : x = name
  · subst hx
    exact hname
  · rw [(hother x hx).1, (hother x hx).2]
    exact h x

theorem Vars.OnePlace.setenv (h : s.OnePlace) (hown : s.own name = none) (value : τ) (ok : Bool) :
    (s.setenv name value ok).OnePlace := by
  unfold Vars.setenv
  split
  · refine h.change (.inl hown) fun x hx => ?_
    exact ⟨rfl, update_of_ne hx _ _⟩
  · exact h

theorem Vars.OnePlace.forget (h : s.OnePlace) (name : ν) : (s.forget name).OnePlace := by
  apply h.change (.inl (update_self ..))
  exact fun x hx => ⟨update_of_ne hx _ _, rfl⟩

theorem Vars.OnePlace.unsetVariable (h : s.OnePlace) (name : ν) :
    (s.unsetVariable name).OnePlace := by
  apply h.change (.inr (update_self ..))
  exact fun x hx => ⟨update_of_ne hx _ _, update_of_ne hx _ _⟩

theorem Vars.OnePlace.setVariable (h : s.OnePlace) (name : ν) (value : τ) (ok : Bool) :
    (s.setVariable name value ok).OnePlace := by
  unfold Vars.setVariable
  split_ifs with henv
  · apply h.setenv
    refine (h name).resolve_right fun h0 => ?_
    rw [h0] at henv
    cases henv
  · apply h.change (.inr (by simpa using henv))
    exact fun x hx => ⟨update_of_ne hx _ _, rfl⟩
  · exact h

theorem Vars.OnePlace.putBack (h : s.OnePlace) (v : Saved ν τ) (ok : Bool) :
    (s.putBack v ok).OnePlace := by
  have hunset := h.unsetVariable v.name
  unfold Vars.putBack
  split
  · exact hunset
  · split
    · exact hunset.setenv (update_self ..) _ _
    · exact hunset.setVariable _ _ _

theorem Vars.OnePlace.restoreLocals {ok : ℕ → Bool} {mark : ℕ} (h : s.OnePlace)
    (saved : List (Saved ν τ)) : (s.restoreLocals ok mark saved).OnePlace := by
  induction saved generalizing s with
  | nil => exact h
  | cons v rest ih =>
    rw [Vars.restoreLocals]
    split
    · exact ih (h.putBack v _)
    · exact h

theorem Vars.OnePlace.step (h : s.OnePlace) (e : Event ν τ) (he : Apart s e) :
    (s.step e).OnePlace := by
  cases e with
  | assign name value ok => exact h.setVariable name value ok
  | exportName name ok =>
    simp only [Vars.step, Vars.exportVariable]
    split
    · exact h
    · split
      · apply h.change (.inl (update_self ..))
        exact fun x hx => ⟨update_of_ne hx _ _, update_of_ne hx _ _⟩
      · exact h
  | exportValue name value ok => exact (h.forget name).setenv (update_self ..) value ok
  | unset name => exact h.unsetVariable name
  | declareLocal name value copied ok =>
    simp only [Vars.step, Vars.localBuiltin]
    split
    · exact h
    · have hsaved : { s with
        saved := ⟨name, s.getVariable name, (s.env name).isSome⟩ :: s.saved }.OnePlace := h
      split
      · exact hsaved
      · exact hsaved.setVariable name _ ok
  | call =>
    simp only [Vars.step]
    split <;> exact h
  | leave ok =>
    simp only [Vars.step]
    split
    · exact h
    · exact h.restoreLocals s.saved
  | stage assignments =>
    -- `setenv` leaves the shell's own variables, so the later names are still apart
    simp only [Vars.step]
    induction assignments generalizing s with
    | nil => exact h
    | cons a rest ih =>
      apply ih (h.setenv (he a List.mem_cons_self) a.2 true)
      intro b hb
      exact he b (List.mem_cons_of_mem _ hb)

theorem variable_in_one_place (env : ν → Option τ) (es : List (Event ν τ))
    (hes : Run.Along Vars.step Apart (.start env) es) :
    Run.Always Vars.step Vars.Sound (.start env) es := by
  have hall := Run.always_of_induction (fun t e (h : t.OnePlace) he => h.step e he)
    (fun _ => .inl rfl) hes
  refine hall.mono fun t ht => ⟨ht, fun name value hv => ?_⟩
  have hown := (ht name).resolve_right (by rw [hv]; nofun)
  rw [Vars.getVariable, hown, hv]
  rfl

/-- `X=1; X=2 f`: in `f` the shell expands 1, and its programs see 2. -/
theorem variable_in_both_places :
    let t : Vars ℕ ℕ := Run.run Vars.step (.start fun _ => none)
      [.assign 0 1 true, .stage [(0, 2)], .call]
    t.own 0 = some 1 ∧ t.env 0 = some 2 ∧ t.getVariable 0 = some 1 := ⟨rfl, rfl, rfl⟩

/-- `X=1; f() { local X=3; }; f; export X; X=2 f`. -/
theorem variable_in_one_place_exported :
    Run.Always (Vars.step (ν := ℕ)) Vars.Sound (.start fun _ => (none : Option ℕ))
      [.assign 0 1 true, .call, .declareLocal 0 (some 3) true true, .leave fun _ => true,
        .exportName 0 true, .stage [(0, 2)], .call] :=
  variable_in_one_place _ _ ⟨trivial, trivial, trivial, trivial, trivial, by simp [Apart]; rfl,
    trivial, trivial⟩

end Bashket.Sh
