import Mathlib

/-!
# Things with one owner

Things are numbered in the order they come into being.  Each is in the hands of one holder until it
is gone: `own h` are the things `h` has, `gone` those that are gone.  `Ledger.Ok` says that nothing
is lost, held twice or gone twice; the rules say how things come into being, change hands and go.
-/

namespace Ledger

open List

variable {H : Type*}

/-- Each of the things below `n` is in the hands of one holder, once, or is gone, once. -/
structure Ok (own : H → List ℕ) (gone : List ℕ) (n : ℕ) : Prop where
  nodup : ∀ h, (own h).Nodup
  disjoint : ∀ h h' k, k ∈ own h → k ∈ own h' → h = h'
  held : ∀ h k, k ∈ own h → k < n ∧ k ∉ gone
  once : gone.Nodup
  lt : ∀ k ∈ gone, k < n
  kept : ∀ k < n, k ∉ gone → ∃ h, k ∈ own h

variable {own own' : H → List ℕ} {gone : List ℕ} {n : ℕ}

theorem Ok.empty (hown : ∀ h, own h = []) : Ok own [] 0 where
  nodup h := by rw [hown]; exact nodup_nil
  disjoint h _ _ hk := by rw [hown] at hk; cases hk
  held h _ hk := by rw [hown] at hk; cases hk
  once := nodup_nil
  lt _ hk := nomatch hk
  kept _ hk := nomatch hk

theorem Ok.create (h : Ok own gone n) (h₁ : H) (hown : (own' h₁).Perm (n :: own h₁))
    (hother : ∀ x, x ≠ h₁ → own' x = own x) : Ok own' gone (n + 1) := by
  have hmem : ∀ {x k}, k ∈ own' x → (x = h₁ ∧ k = n) ∨ k ∈ own x := by
    intro x k hk
    by_cases hx : x = h₁
    · subst hx
      exact (mem_cons.1 (hown.mem_iff.1 hk)).imp_left fun hk => ⟨rfl, hk⟩
    · rw [hother x hx] at hk
      exact .inr hk
  have hnew : ∀ x, n ∉ own x := fun x hn => absurd (h.held x n hn).1 (lt_irrefl n)
  refine ⟨fun x => ?_, fun x y k hx hy => ?_, fun x k hk => ?_, h.once,
    fun k hk => Nat.lt_succ_of_lt (h.lt k hk), fun k hk hg => ?_⟩
  · by_cases hx : x = h₁
    · subst hx
      exact hown.nodup_iff.2 (nodup_cons.2 ⟨hnew x, h.nodup x⟩)
    · rw [hother x hx]
      exact h.nodup x
  · rcases hmem hx with ⟨rfl, rfl⟩ | hx <;> rcases hmem hy with ⟨rfl, hkn⟩ | hy
    · rfl
    · exact absurd hy (hnew y)
    · rw [hkn] at hx
      exact absurd hx (hnew x)
    · exact h.disjoint x y k hx hy
  · rcases hmem hk with ⟨-, rfl⟩ | hk
    · exact ⟨Nat.lt_succ_self _, fun hg => absurd (h.lt k hg) (lt_irrefl k)⟩
    · exact ⟨Nat.lt_succ_of_lt (h.held x k hk).1, (h.held x k hk).2⟩
  · rcases Nat.lt_succ_iff_lt_or_eq.1 hk with hlt | rfl
    · obtain ⟨x, hx⟩ := h.kept k hlt hg
      refine ⟨x, ?_⟩
      by_cases hxh : x = h₁
      · subst hxh
        exact hown.mem_iff.2 (mem_cons_of_mem _ hx)
      · rw [hother x hxh]
        exact hx
    · exact ⟨h₁, hown.mem_iff.2 (mem_cons_self ..)⟩

theorem Ok.create_update [DecidableEq H] (h : Ok own gone n) (x : H) {ks : List ℕ}
    (hks : ks.Perm (n :: own x)) : Ok (Function.update own x ks) gone (n + 1) := by
  refine h.create x ?_ fun y hy => Function.update_of_ne hy ..
  rw [Function.update_self]
  exact hks

theorem Ok.move (h : Ok own gone n) (h₁ h₂ : H) (ks : List ℕ) (hne : h₁ ≠ h₂)
    (hfrom : (own h₁).Perm (ks ++ own' h₁)) (hto : (own' h₂).Perm (ks ++ own h₂))
    (hother : ∀ x, x ≠ h₁ → x ≠ h₂ → own' x = own x) : Ok own' gone n := by
  -- who has a thing afterwards had it before, or it is one of those that changed hands
  have hmem : ∀ {x k}, k ∈ own' x → (x = h₂ ∧ k ∈ ks) ∨ (k ∈ own x ∧ (x = h₁ → k ∉ ks)) := by
    intro x k hk
    by_cases hx₁ : x = h₁
    · subst hx₁
      have hnd : (ks ++ own' x).Nodup := hfrom.nodup_iff.1 (h.nodup x)
      refine .inr ⟨hfrom.mem_iff.2 (mem_append_right _ hk), fun _ hks => ?_⟩
      exact (nodup_append.1 hnd).2.2 k hks k hk rfl
    · by_cases hx₂ : x = h₂
      · subst hx₂
        rcases mem_append.1 (hto.mem_iff.1 hk) with hk | hk
        · exact .inl ⟨rfl, hk⟩
        · exact .inr ⟨hk, fun he => absurd he hx₁⟩
      · rw [hother x hx₁ hx₂] at hk
        exact .inr ⟨hk, fun he => absurd he hx₁⟩
  have hks : ∀ {k}, k ∈ ks → k ∈ own h₁ := fun hk => hfrom.mem_iff.2 (mem_append_left _ hk)
  refine ⟨fun x => ?_, fun x y k hx hy => ?_, fun x k hk => ?_, h.once, h.lt, fun k hk hg => ?_⟩
  · by_cases hx₁ : x = h₁
    · subst hx₁
      exact (nodup_append.1 (hfrom.nodup_iff.1 (h.nodup x))).2.1
    · by_cases hx₂ : x = h₂
      · subst hx₂
        refine hto.nodup_iff.2 (nodup_append.2 ⟨?_, h.nodup x, ?_⟩)
        · exact (nodup_append.1 (hfrom.nodup_iff.1 (h.nodup h₁))).1
        · rintro a ha b hb rfl
          exact hne (h.disjoint h₁ x a (hks ha) hb)
      · rw [hother x hx₁ hx₂]
        exact h.nodup x
  · rcases hmem hx with ⟨rfl, hxk⟩ | ⟨hxk, hxn⟩ <;> rcases hmem hy with ⟨rfl, hyk⟩ | ⟨hyk, hyn⟩
    · rfl
    · exact absurd hxk (hyn (h.disjoint y h₁ k hyk (hks hxk)))
    · exact absurd hyk (hxn (h.disjoint x h₁ k hxk (hks hyk)))
    · exact h.disjoint x y k hxk hyk
  · rcases hmem hk with ⟨-, hk⟩ | ⟨hk, -⟩
    · exact h.held h₁ k (hks hk)
    · exact h.held x k hk
  · obtain ⟨x, hx⟩ := h.kept k hk hg
    by_cases hx₁ : x = h₁
    · subst hx₁
      rcases mem_append.1 (hfrom.mem_iff.1 hx) with hx | hx
      · exact ⟨h₂, hto.mem_iff.2 (mem_append_left _ hx)⟩
      · exact ⟨x, hx⟩
    · by_cases hx₂ : x = h₂
      · subst hx₂
        exact ⟨x, hto.mem_iff.2 (mem_append_right _ hx)⟩
      · exact ⟨x, by rw [hother x hx₁ hx₂]; exact hx⟩

theorem Ok.drop (h : Ok own gone n) (h₁ : H) {k : ℕ} (hfrom : own h₁ = k :: own' h₁)
    (hother : ∀ x, x ≠ h₁ → own' x = own x) : Ok own' (gone ++ [k]) n := by
  have hk : k ∈ own h₁ := by rw [hfrom]; exact mem_cons_self ..
  have hmem : ∀ {x j}, j ∈ own' x → j ∈ own x ∧ j ≠ k := by
    intro x j hj
    by_cases hx : x = h₁
    · subst hx
      have hnd := h.nodup x
      rw [hfrom] at hnd ⊢
      refine ⟨mem_cons_of_mem _ hj, ?_⟩
      rintro rfl
      exact (nodup_cons.1 hnd).1 hj
    · rw [hother x hx] at hj
      refine ⟨hj, ?_⟩
      rintro rfl
      exact hx (h.disjoint x h₁ j hj hk)
  refine ⟨fun x => ?_, fun x y j hx hy => h.disjoint x y j (hmem hx).1 (hmem hy).1,
    fun x j hj => ⟨(h.held x j (hmem hj).1).1, ?_⟩, ?_, fun j hj => ?_, fun j hj hg => ?_⟩
  · by_cases hx : x = h₁
    · subst hx
      have hnd := h.nodup x
      rw [hfrom] at hnd
      exact (nodup_cons.1 hnd).2
    · rw [hother x hx]
      exact h.nodup x
  · rw [mem_append, mem_singleton, not_or]
    exact ⟨(h.held x j (hmem hj).1).2, (hmem hj).2⟩
  · refine nodup_append.2 ⟨h.once, nodup_singleton k, ?_⟩
    rintro a ha b hb rfl
    rw [mem_singleton.1 hb] at ha
    exact (h.held h₁ k hk).2 ha
  · rcases mem_append.1 hj with hj | hj
    · exact h.lt j hj
    · rw [mem_singleton.1 hj]
      exact (h.held h₁ k hk).1
  · rw [mem_append, mem_singleton, not_or] at hg
    obtain ⟨x, hx⟩ := h.kept j hj hg.1
    refine ⟨x, ?_⟩
    by_cases hxh : x = h₁
    · subst hxh
      rw [hfrom] at hx
      exact (mem_cons.1 hx).resolve_left hg.2
    · rw [hother x hxh]
      exact hx

theorem Ok.count_gone (h : Ok own gone n) {k : ℕ} (hk : k < n) (hno : ∀ x, k ∉ own x) :
    gone.count k = 1 := by
  apply count_eq_one_of_mem h.once
  by_contra hg
  obtain ⟨x, hx⟩ := h.kept k hk hg
  exact hno x hx

end Ledger
