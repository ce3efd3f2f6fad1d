import Bashket.Tcp.Ranges

/-!
# The reassembly list as a set

Seen from a base point, a stretch of sequence numbers is an interval of distances, and a reassembly
list stands for the union of its intervals (`Cover`). `Sorted` is what `tcp_ooo_add` and
`tcp_ooo_take` keep: the stretches are not empty, in order, apart from each other and within a bound
below half a turn.
-/

namespace Bashket.Tcp

open Serial List

/-- The stretches of `q` are in order and apart, the first after `lo` and the last up to `hi`, as
distances from `u`. -/
def Sorted (u : Seq) (hi : ℕ) : ℕ → List Range → Prop
  | _, [] => True
  | lo, r :: rest => lo < ahead u r.start ∧ ahead u r.start < ahead u r.stop ∧
      ahead u r.stop ≤ hi ∧ Sorted u hi (ahead u r.stop) rest

/-- The distance `x` from `u` is in one of the stretches. -/
def Cover (u : Seq) (q : List Range) (x : ℕ) : Prop :=
  ∃ r ∈ q, ahead u r.start ≤ x ∧ x < ahead u r.stop

section

variable {u : Seq} {hi lo : ℕ} {q : List Range} {x d : ℕ} {r : Range} {start stop : Seq}

@[simp] theorem cover_nil : ¬Cover u [] x := by simp [Cover]

theorem cover_cons :
    Cover u (r :: q) x ↔ (ahead u r.start ≤ x ∧ x < ahead u r.stop) ∨ Cover u q x := by
  simp [Cover]

theorem cover_append {p : List Range} :
    Cover u (p ++ q) x ↔ Cover u p x ∨ Cover u q x := by
  simp only [Cover, mem_append, or_and_right, exists_or]

theorem Sorted.mono_lo {lo' : ℕ} (h : Sorted u hi lo q) (hle : lo' ≤ lo) : Sorted u hi lo' q := by
  cases q with
  | nil => trivial
  | cons r rest => exact ⟨lt_of_le_of_lt hle h.1, h.2⟩

theorem Sorted.mono_hi {hi' : ℕ} (h : Sorted u hi lo q) (hle : hi ≤ hi') : Sorted u hi' lo q := by
  induction q generalizing lo with
  | nil => trivial
  | cons r rest ih => exact ⟨h.1, h.2.1, h.2.2.1.trans hle, ih h.2.2.2⟩

theorem Sorted.mem (h : Sorted u hi lo q) (hr : r ∈ q) :
    lo < ahead u r.start ∧ ahead u r.start < ahead u r.stop ∧ ahead u r.stop ≤ hi := by
  induction q generalizing lo with
  | nil => exact absurd hr not_mem_nil
  | cons r' rest ih =>
    rcases mem_cons.1 hr with rfl | hr
    · exact ⟨h.1, h.2.1, h.2.2.1⟩
    · obtain ⟨h1, h2, h3⟩ := ih h.2.2.2 hr
      exact ⟨h.1.trans (h.2.1.trans h1), h2, h3⟩

theorem Sorted.eq_nil (h : Sorted u hi lo q) (hc : ∀ x, ¬Cover u q x) : q = [] := by
  cases q with
  | nil => rfl
  | cons r rest => exact absurd (cover_cons.2 (.inl ⟨le_rfl, h.2.1⟩)) (hc _)

theorem Cover.bounds (hc : Cover u q x) (h : Sorted u hi lo q) : lo < x ∧ x < hi := by
  obtain ⟨r, hr, h1, h2⟩ := hc
  obtain ⟨h3, -, h4⟩ := h.mem hr
  exact ⟨h3.trans_le h1, h2.trans_le h4⟩

/-! ### Adding a stretch -/

theorem joinRanges_spec (hhalf : 2 * hi ≤ 2 ^ 32) (hq : Sorted u hi lo q)
    (htouch : ∀ r ∈ q, ahead u start ≤ ahead u r.stop) (h1 : lo < ahead u start)
    (h2 : ahead u start < ahead u stop) (h3 : ahead u stop ≤ hi) :
    Sorted u hi lo ((joinRanges q start stop).1 :: (joinRanges q start stop).2) ∧
    ∀ x, Cover u ((joinRanges q start stop).1 :: (joinRanges q start stop).2) x ↔
      Cover u q x ∨ ahead u start ≤ x ∧ x < ahead u stop := by
  induction q generalizing lo start stop with
  | nil => exact ⟨⟨h1, h2, h3, trivial⟩, fun x => by simp [joinRanges, Cover]⟩
  | cons r rest ih =>
    obtain ⟨hr1, hr2, hr3, hrest⟩ := hq
    have ht := htouch r mem_cons_self
    unfold joinRanges
    by_cases hjoin : leq r.start stop = true
    · have hle : ahead u r.start ≤ ahead u stop :=
        (leq_iff (u := u) (by omega) (by omega)).1 hjoin
      rw [if_pos hjoin]
      -- the joined stretch starts at the smaller start and ends at the larger end
      have hs : ahead u (if lt r.start start = true then r.start else start) =
          min (ahead u r.start) (ahead u start) := by
        have hiff := lt_iff (u := u) (a := r.start) (b := start) (by omega) (by omega)
        split_ifs with hlt
        · rw [hiff] at hlt
          omega
        · rw [hiff] at hlt
          omega
      have hp := ahead_later (u := u) (a := r.stop) (b := stop) (by omega) (by omega)
      generalize (if lt r.start start = true then r.start else start) = start' at hs ⊢
      generalize (if gt r.stop stop = true then r.stop else stop) = stop' at hp ⊢
      have hlo : Sorted u hi lo rest := hrest.mono_lo (by omega)
      have htouch' : ∀ r' ∈ rest, ahead u start' ≤ ahead u r'.stop := by
        intro r' hr'
        have := (hrest.mem hr').1
        have := (hrest.mem hr').2.1
        omega
      have hne : ahead u start' < ahead u stop' := by omega
      obtain ⟨i1, i2⟩ := ih hlo htouch' (by omega) hne (by omega)
      refine ⟨i1, fun x => ?_⟩
      rw [i2 x, cover_cons, hs, hp]
      constructor
      · rintro (hc | hc)
        · exact .inl (.inr hc)
        · by_cases hx : ahead u r.start ≤ x ∧ x < ahead u r.stop
          · exact .inl (.inl hx)
          · exact .inr (by omega)
      · rintro ((hc | hc) | hc)
        · exact .inr (by omega)
        · exact .inl hc
        · exact .inr (by omega)
    · have hgt : ahead u stop < ahead u r.start := by
        by_contra hc
        exact hjoin ((leq_iff (u := u) (by omega) (by omega)).2 (by omega))
      rw [if_neg hjoin]
      refine ⟨⟨h1, h2, h3, hgt, hr2, hr3, hrest⟩, fun x => ?_⟩
      rw [cover_cons, cover_cons]
      exact or_comm

theorem Sorted.split (start : Seq) (hhalf : 2 * hi ≤ 2 ^ 32) (hq : Sorted u hi lo q)
    (hstart : ahead u start ≤ hi) (hlo : lo < ahead u start) :
    ∃ mid, lo ≤ mid ∧ mid < ahead u start ∧
      Sorted u hi mid (q.dropWhile fun r => lt r.stop start) ∧
      (∀ r ∈ q.dropWhile fun r => lt r.stop start, ahead u start ≤ ahead u r.stop) ∧
      ∀ rest, Sorted u hi mid rest →
        Sorted u hi lo ((q.takeWhile fun r => lt r.stop start) ++ rest) := by
  induction q generalizing lo with
  | nil => exact ⟨lo, le_rfl, hlo, trivial, by simp, fun rest h => h⟩
  | cons r q ih =>
    obtain ⟨hr1, hr2, hr3, hrest⟩ := hq
    have hiff := lt_iff (u := u) (a := r.stop) (b := start) (by omega) (by omega)
    by_cases hlt : lt r.stop start = true
    · obtain ⟨mid, m1, m2, m3, m4, m5⟩ := ih hrest (hiff.1 hlt)
      refine ⟨mid, by omega, m2, ?_, ?_, fun rest h => ?_⟩
      · simpa only [dropWhile_cons, hlt, if_true] using m3
      · simpa only [dropWhile_cons, hlt, if_true] using m4
      · simp only [takeWhile_cons, hlt, if_true]
        exact ⟨hr1, hr2, hr3, m5 rest h⟩
    · have hge : ahead u start ≤ ahead u r.stop := by
        by_contra hc
        exact hlt (hiff.2 (by omega))
      refine ⟨lo, le_rfl, hlo, ?_, ?_, fun rest h => ?_⟩
      · simp only [dropWhile_cons, hlt]
        exact ⟨hr1, hr2, hr3, hrest⟩
      · simp only [dropWhile_cons, hlt]
        intro r' hr'
        rcases mem_cons.1 hr' with rfl | hr'
        · exact hge
        · have h1 := (hrest.mem hr').1
          have h2 := (hrest.mem hr').2.1
          omega
      · simp only [takeWhile_cons, hlt]
        exact h

/-- `tcp_ooo_add` makes the stretches of the union, and keeps them if there is room for them. -/
theorem oooAdd_spec (hhalf : 2 * hi ≤ 2 ^ 32) (hq : Sorted u hi lo q) (h1 : lo < ahead u start)
    (h2 : ahead u start < ahead u stop) (h3 : ahead u stop ≤ hi) :
    ∃ m, Sorted u hi lo m ∧
      (∀ x, Cover u m x ↔ Cover u q x ∨ ahead u start ≤ x ∧ x < ahead u stop) ∧
      oooAdd q start stop = if m.length ≤ oooRanges then some m else none := by
  obtain ⟨mid, m1, m2, m3, m4, m5⟩ := hq.split start hhalf (by omega) h1
  obtain ⟨j1, j2⟩ := joinRanges_spec hhalf m3 m4 m2 h2 h3
  refine ⟨_, m5 _ j1, fun x => ?_, ?_⟩
  · rw [cover_append, j2 x, ← or_assoc, ← cover_append, takeWhile_append_dropWhile]
  · unfold oooAdd
    rw [← ite_not]
    refine if_congr ?_ rfl rfl
    rw [length_append, length_cons]
    omega

theorem oooAdd_some {q' : List Range} (hhalf : 2 * hi ≤ 2 ^ 32) (hq : Sorted u hi lo q)
    (h1 : lo < ahead u start) (h2 : ahead u start < ahead u stop) (h3 : ahead u stop ≤ hi)
    (h : oooAdd q start stop = some q') :
    Sorted u hi lo q' ∧
    ∀ x, Cover u q' x ↔ Cover u q x ∨ ahead u start ≤ x ∧ x < ahead u stop := by
  obtain ⟨m, hm, hcover, hadd⟩ := oooAdd_spec hhalf hq h1 h2 h3
  rw [hadd] at h
  split_ifs at h
  exact Option.some.inj h ▸ ⟨hm, hcover⟩

/-! ### Taking what is reached -/

/-- Up to the number it returns the set has no gap, what is gone ends there, and what is left lies
beyond. -/
theorem oooTake_spec {next : Seq} (hhalf : 2 * hi ≤ 2 ^ 32)
    (hnear : 2 * hi < 2 ^ 32 + 2 * ahead u next) (hq : Sorted u hi lo q) (hnext : ahead u next ≤ hi) :
    ahead u next ≤ ahead u (oooTake q next).2 ∧ ahead u (oooTake q next).2 ≤ hi ∧
    (∀ x, ahead u next ≤ x → x < ahead u (oooTake q next).2 → Cover u q x) ∧
    Sorted u hi (ahead u (oooTake q next).2) (oooTake q next).1 ∧
    ∃ gone, q = gone ++ (oooTake q next).1 ∧
      ∀ r ∈ gone, ahead u r.stop ≤ ahead u (oooTake q next).2 := by
  induction q generalizing lo next with
  | nil => exact ⟨le_rfl, hnext, fun x h1 h2 => absurd h2 (Nat.not_lt.2 h1), trivial, [], rfl, nofun⟩
  | cons r rest ih =>
    obtain ⟨hr1, hr2, hr3, hrest⟩ := hq
    unfold oooTake
    by_cases hreach : leq r.start next = true
    · have hle := (leq_iff (u := u) (by omega) (by omega)).1 hreach
      have hm := ahead_later (u := u) (a := r.stop) (b := next) (by omega) (by omega)
      rw [if_pos hreach]
      generalize (if gt r.stop next = true then r.stop else next) = next' at hm ⊢
      have hnext' : ahead u next' ≤ hi := by omega
      obtain ⟨i1, i2, i3, i4, gone, i5, i6⟩ := ih (by omega) hrest hnext'
      rw [hm] at i1 i3
      refine ⟨by omega, i2, fun x h1 h2 => ?_, i4, r :: gone, congrArg (r :: ·) i5, fun r' hr' => ?_⟩
      · rw [cover_cons]
        by_cases hx : x < ahead u r.stop
        · exact .inl ⟨by omega, hx⟩
        · exact .inr (i3 x (by omega) h2)
      · rcases mem_cons.1 hr' with rfl | hr'
        · omega
        · exact i6 r' hr'
    · have hgt : ahead u next < ahead u r.start := by
        by_contra hc
        exact hreach ((leq_iff (u := u) (by omega) (by omega)).2 (by omega))
      rw [if_neg hreach]
      exact ⟨le_rfl, hnext, fun x h1 h2 => absurd h2 (Nat.not_lt.2 h1), ⟨hgt, hr2, hr3, hrest⟩, [],
        rfl, nofun⟩

/-! ### Moving the base point -/

/-- Seen from a point `d` further on, all distances beyond it are less by `d`. -/
theorem ahead_moved {x : Seq} (hd : d ≤ ahead u x) :
    ahead (u + BitVec.ofNat 32 d) x = ahead u x - d := by
  have hlt := ahead_lt u x
  have hv : ahead u (u + BitVec.ofNat 32 d) = d := ahead_add u (by omega)
  rw [ahead_rebase (u := u) (by omega), hv]

theorem Sorted.moved (hq : Sorted u hi lo q) (hd : d ≤ lo) :
    Sorted (u + BitVec.ofNat 32 d) (hi - d) (lo - d) q := by
  induction q generalizing lo with
  | nil => trivial
  | cons r rest ih =>
    obtain ⟨h1, h2, h3, hrest⟩ := hq
    have hs : ahead (u + BitVec.ofNat 32 d) r.start = ahead u r.start - d := ahead_moved (by omega)
    have hp : ahead (u + BitVec.ofNat 32 d) r.stop = ahead u r.stop - d := ahead_moved (by omega)
    refine ⟨by omega, by omega, by omega, ?_⟩
    rw [hp]
    exact ih hrest (by omega)

theorem Cover.moved (hq : Sorted u hi lo q) (hd : d ≤ lo) (hc : Cover (u + BitVec.ofNat 32 d) q x) :
    Cover u q (d + x) := by
  obtain ⟨r, hr, h1, h2⟩ := hc
  obtain ⟨h3, h4, -⟩ := hq.mem hr
  rw [ahead_moved (by omega)] at h1 h2
  exact ⟨r, hr, by omega, by omega⟩

end

end Bashket.Tcp
