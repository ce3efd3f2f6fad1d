import Bashket.Tcp.SackRanges

/-!
# Lists of stretches as sets

A list of stretches in order and apart is determined by the numbers it covers. So the functions on
such lists are operations on sets of numbers, wherever in the sequence space the half is that all of
it lies in.
-/

namespace Bashket.Tcp

open Serial

variable {u : Seq} {hi lo : ℕ} {q q' : List Range}

theorem ahead_inj {a b : Seq} (h : ahead u a = ahead u b) : a = b := by
  rw [← add_ahead u a, h, add_ahead]

theorem Sorted.le_of_cover {r : Range} {x : ℕ} (h : Sorted u hi lo (r :: q))
    (hc : Cover u (r :: q) x) : ahead u r.start ≤ x := by
  rcases cover_cons.1 hc with hx | hx
  · exact hx.1
  · exact (h.2.1.trans (hx.bounds h.2.2.2).1).le

/-- The first stretch ends where the numbers covered first have a gap. -/
theorem Sorted.stop_le {r r' : Range} (h : Sorted u hi lo (r :: q))
    (hstart : ahead u r'.start ≤ ahead u r.start)
    (hc : ∀ x, Cover u (r' :: q') x → Cover u (r :: q) x) : ahead u r'.stop ≤ ahead u r.stop := by
  by_contra hlt
  have hx := hc (ahead u r.stop) (cover_cons.2 (.inl ⟨hstart.trans h.2.1.le, not_le.1 hlt⟩))
  rcases cover_cons.1 hx with hx | hx
  · exact lt_irrefl _ hx.2
  · exact lt_irrefl _ (hx.bounds h.2.2.2).1

theorem Sorted.ext (h : Sorted u hi lo q) (h' : Sorted u hi lo q')
    (hc : ∀ x, Cover u q x ↔ Cover u q' x) : q = q' := by
  induction q generalizing lo q' with
  | nil => exact (h'.eq_nil fun x hx => cover_nil ((hc x).2 hx)).symm
  | cons r q ih =>
    cases q' with
    | nil => exact h.eq_nil fun x hx => cover_nil ((hc x).1 hx)
    | cons r' q' =>
      have hstart : ahead u r.start = ahead u r'.start :=
        le_antisymm (h.le_of_cover ((hc _).2 (cover_cons.2 (.inl ⟨le_rfl, h'.2.1⟩))))
          (h'.le_of_cover ((hc _).1 (cover_cons.2 (.inl ⟨le_rfl, h.2.1⟩))))
      have hstop : ahead u r.stop = ahead u r'.stop :=
        le_antisymm (h'.stop_le hstart.le fun x => (hc x).1) (h.stop_le hstart.ge fun x => (hc x).2)
      obtain rfl : r = r' := by
        cases r
        cases r'
        exact congrArg₂ Range.mk (ahead_inj hstart) (ahead_inj hstop)
      refine congrArg (r :: ·) (ih h.2.2.2 h'.2.2.2 fun x => ?_)
      -- what lies beyond the first stretch is covered by the rest
      have hrest := hc x
      rw [cover_cons, cover_cons] at hrest
      constructor
      · intro hx
        exact (hrest.1 (.inr hx)).resolve_left fun hr => (hr.2.trans (hx.bounds h.2.2.2).1).false
      · intro hx
        exact (hrest.2 (.inr hx)).resolve_left fun hr => (hr.2.trans (hx.bounds h'.2.2.2).1).false

theorem sackPrune_cover {una : Seq} (hhalf : 2 * hi ≤ 2 ^ 32) (hpos : 0 < ahead u una)
    (hle : ahead u una ≤ hi) (hq : Sorted u hi lo q) (x : ℕ) :
    Cover u (sackPrune q una) x ↔ Cover u q x ∧ ahead u una ≤ x := by
  induction q generalizing lo with
  | nil => simp [sackPrune]
  | cons r q ih =>
    obtain ⟨h1, h2, h3, hrest⟩ := hq
    have hgt := gt_iff (u := u) (a := r.stop) (b := una) (by omega) (by omega)
    have hlt := lt_iff (u := u) (a := r.start) (b := una) (by omega) (by omega)
    rw [sackPrune_cons, cover_cons, or_and_right, ← ih hrest]
    by_cases hkeep : gt r.stop una = true
    · rw [if_pos hkeep, cover_cons]
      refine or_congr_left ?_
      by_cases hcut : lt r.start una = true
      · rw [if_pos hcut]
        rw [hlt] at hcut
        dsimp only
        omega
      · rw [if_neg hcut]
        rw [hlt] at hcut
        omega
    · rw [if_neg hkeep]
      rw [hgt] at hkeep
      exact (or_iff_right (by omega)).symm

/-- In the half after `u`: `m` has the longest stretches of the numbers `S`, in order. -/
def Lists (u : Seq) (m : List Range) (S : ℕ → Prop) : Prop :=
  Sorted u (2 ^ 31) 0 m ∧ ∀ x, Cover u m x ↔ S x

/-- `tcp_ooo_add` makes the stretches of the union, if there are not too many.  `tcp_ooo_take` returns
the first number that is not covered, and leaves the stretches beyond.  `tcp_sack_prune` leaves the
numbers that are not below `n`. -/
theorem range_list_is_set (u : Seq) (q : List Range) (hq : Sorted u (2 ^ 31) 0 q) :
    (∀ start stop, 0 < ahead u start → ahead u start < ahead u stop → ahead u stop ≤ 2 ^ 31 →
      ∃ m, Lists u m (fun x => Cover u q x ∨ ahead u start ≤ x ∧ x < ahead u stop) ∧
        (∀ m', Lists u m' (fun x => Cover u q x ∨ ahead u start ≤ x ∧ x < ahead u stop) → m' = m) ∧
        oooAdd q start stop = if m.length ≤ oooRanges then some m else none) ∧
    ∀ n, 0 < ahead u n → ahead u n ≤ 2 ^ 31 →
      (ahead u n ≤ ahead u (oooTake q n).2 ∧ ¬ Cover u q (ahead u (oooTake q n).2) ∧
        (∀ x, ahead u n ≤ x → x < ahead u (oooTake q n).2 → Cover u q x) ∧
        (oooTake q n).1 = q.filter fun r => ahead u (oooTake q n).2 < ahead u r.start) ∧
      Lists u (sackPrune q n) fun x => Cover u q x ∧ ahead u n ≤ x := by
  constructor
  · intro start stop h1 h2 h3
    obtain ⟨m, hm, hcover, hadd⟩ := oooAdd_spec (by decide) hq h1 h2 h3
    refine ⟨m, ⟨hm, hcover⟩, fun m' hm' => ?_, hadd⟩
    exact hm'.1.ext hm fun x => (hm'.2 x).trans (hcover x).symm
  · intro n hpos hle
    obtain ⟨t1, t2, t3, t4, gone, t5, t6⟩ := oooTake_spec (by decide) (by omega) hq hle
    have hprune := sackPrune_sorted (d := 0) (k := ahead u n) (by decide) (by omega) hq
      (Nat.zero_add _).symm (by omega) fun h0 => absurd h0 hpos.ne'
    refine ⟨⟨t1, ?_⟩, by simpa using hprune, sackPrune_cover (by decide) hpos hle hq⟩
    generalize oooTake q n = taken at t1 t2 t3 t4 t5 t6 ⊢
    subst t5
    refine ⟨fun hc => ?_, t3, ?_⟩
    · rcases cover_append.1 hc with ⟨r, hr, -, hlt⟩ | hc
      · exact absurd (t6 r hr) (not_le.2 hlt)
      · exact lt_irrefl _ (hc.bounds t4).1
    · rw [List.filter_append, List.filter_eq_nil_iff.2 fun r hr => ?_, List.nil_append]
      · exact (List.filter_eq_self.2 fun r hr => decide_eq_true (t4.mem hr).1).symm
      · have h1 := (hq.mem (List.mem_append_left _ hr)).2.1
        have h2 := t6 r hr
        simp only [decide_eq_true_eq, not_lt]
        omega

theorem range_list_is_set_wrap :
    ∃ m, Lists 0xfffffff0 m (fun x => Cover 0xfffffff0 [⟨0xfffffff8, 3⟩] x ∨ 19 ≤ x ∧ x < 21) ∧
      oooAdd [⟨0xfffffff8, 3⟩] 3 5 = if m.length ≤ oooRanges then some m else none := by
  have h := (range_list_is_set 0xfffffff0 [⟨0xfffffff8, 3⟩]
    ⟨by decide, by decide, by decide, trivial⟩).1 3 5 (by decide) (by decide) (by decide)
  obtain ⟨m, hm, -, hadd⟩ := h
  exact ⟨m, hm, hadd⟩

theorem oooAdd_empty : oooAdd [] 5 5 = some [⟨5, 5⟩] ∧ ∀ u hi lo, ¬ Sorted u hi lo [⟨5, 5⟩] :=
  ⟨by decide, fun _ _ _ h => lt_irrefl _ h.2.1⟩

end Bashket.Tcp
