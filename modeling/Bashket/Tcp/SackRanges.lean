import Bashket.Tcp.Reassembly

/-!
# The scoreboard in distances

The functions of `tcp.c` that work on a scoreboard, seen from a base point before all of it. The
loop of `tcp_sack_hole_bytes` ends and returns the number of bytes in the gaps between the
stretches; stretches and gaps together are no longer than the whole (`bytesIn_add_gaps_le`).
-/

namespace Bashket.Tcp

open Serial List

/-- Bytes the stretches hold, as distances from `u`. -/
def bytesIn (u : Seq) : List Range → ℕ
  | [] => 0
  | r :: rest => ahead u r.stop - ahead u r.start + bytesIn u rest

/-- Bytes in the gaps before the stretches, from the distance `p` on. -/
def gaps (u : Seq) : ℕ → List Range → ℕ
  | _, [] => 0
  | p, r :: rest => if ahead u r.stop ≤ p then gaps u p rest
      else ahead u r.start - p + gaps u (ahead u r.stop) rest

section

variable {u : Seq} {hi lo : ℕ} {q : List Range}

/-! ### Pruning -/

theorem sackPrune_cons (r : Range) (rest : List Range) (una : Seq) :
    sackPrune (r :: rest) una = if gt r.stop una then
      (if lt r.start una then ⟨una, r.stop⟩ else r) :: sackPrune rest una
      else sackPrune rest una := by
  unfold sackPrune
  rw [filterMap_cons]
  cases gt r.stop una <;> rfl

/-- In order, seen from a base point `d` further on. The list is pruned at the distance `d + k`; if
`k` is 0, no stretch may contain that point. -/
theorem sackPrune_sorted {una : Seq} {d k : ℕ} (hhalf : 2 * hi ≤ 2 ^ 32)
    (hnear : 2 * hi < 2 ^ 32 + 2 * ahead u una) (hq : Sorted u hi lo q)
    (huna : ahead u una = d + k) (hle : d + k ≤ hi)
    (hout : k = 0 → ∀ r ∈ q, ¬(ahead u r.start ≤ d ∧ d < ahead u r.stop)) :
    Sorted (u + BitVec.ofNat 32 d) (hi - d) (lo - d) (sackPrune q una) := by
  induction q generalizing lo with
  | nil => trivial
  | cons r rest ih =>
    obtain ⟨h1, h2, h3, hrest⟩ := hq
    have hout' := fun hk r' hr' => hout hk r' (mem_cons_of_mem _ hr')
    have hgt := gt_iff (u := u) (a := r.stop) (b := una) (by omega) (by omega)
    have hlt := lt_iff (u := u) (a := r.start) (b := una) (by omega) (by omega)
    have hr := fun hk => hout hk r mem_cons_self
    rw [sackPrune_cons]
    by_cases hkeep : gt r.stop una = true
    · rw [if_pos hkeep]
      rw [hgt, huna] at hkeep
      have hp : ahead (u + BitVec.ofNat 32 d) r.stop = ahead u r.stop - d := ahead_moved (by omega)
      have htail := ih hrest hout'
      by_cases hcut : lt r.start una = true
      · -- a stretch that straddles the point begins there now
        rw [if_pos hcut]
        rw [hlt, huna] at hcut
        have hk : k ≠ 0 := fun h0 => hr h0 ⟨by omega, by omega⟩
        have hs : ahead (u + BitVec.ofNat 32 d) una = ahead u una - d := ahead_moved (by omega)
        simp only [Sorted, hp, hs]
        exact ⟨by omega, by omega, by omega, htail⟩
      · rw [if_neg hcut]
        rw [hlt, huna] at hcut
        have hs : ahead (u + BitVec.ofNat 32 d) r.start = ahead u r.start - d :=
          ahead_moved (by omega)
        have hpos : d < ahead u r.start := by
          by_contra hc
          exact hr (by omega) ⟨by omega, by omega⟩
        simp only [Sorted, hp, hs]
        exact ⟨by omega, by omega, by omega, htail⟩
    · rw [if_neg hkeep]
      exact (ih hrest hout').mono_lo (by omega)

/-! ### Bytes and gaps -/

theorem sackBytes_foldl (hq : Sorted u hi lo q) (bytes : Seq) :
    q.foldl (fun bytes r => bytes + (r.stop - r.start)) bytes =
      bytes + BitVec.ofNat 32 (bytesIn u q) := by
  induction q generalizing lo bytes with
  | nil => simp [bytesIn]
  | cons r rest ih =>
    obtain ⟨-, h2, -, hrest⟩ := hq
    have hlen : r.stop - r.start = BitVec.ofNat 32 (ahead u r.stop - ahead u r.start) := by
      rw [← ahead_rebase h2.le, ahead, BitVec.ofNat_toNat, BitVec.setWidth_eq]
    rw [foldl_cons, ih hrest, bytesIn, BitVec.ofNat_add, hlen, BitVec.add_assoc]

theorem sackBytes_eq (hq : Sorted u hi lo q) : sackBytes q = BitVec.ofNat 32 (bytesIn u q) :=
  (sackBytes_foldl hq 0).trans (BitVec.zero_add _)

theorem bytesIn_add_gaps_le {m p : ℕ} (hq : Sorted u hi lo q) (hm : m ≤ lo + 1) (hmp : m ≤ p)
    (hmhi : m ≤ hi) : bytesIn u q + gaps u p q ≤ hi - m := by
  induction q generalizing lo m p with
  | nil => exact Nat.zero_le _
  | cons r rest ih =>
    obtain ⟨h1, h2, h3, hrest⟩ := hq
    unfold bytesIn gaps
    split_ifs with hpast
    · have := ih (m := ahead u r.stop) hrest (Nat.le_succ _) hpast h3
      omega
    · have := ih (m := ahead u r.stop) (p := ahead u r.stop) hrest (Nat.le_succ _) le_rfl h3
      omega

theorem gaps_eq_zero {pos : Seq} (hhalf : hi ≤ 2 ^ 31 + 1) (hq : Sorted u hi lo q)
    (hpos : 0 < ahead u pos) (hle : ahead u pos ≤ 2 ^ 31 + 1) (h : sackNextHole q pos = none) :
    gaps u (ahead u pos) q = 0 := by
  induction q generalizing lo pos with
  | nil => rfl
  | cons r rest ih =>
    obtain ⟨h1, h2, h3, hrest⟩ := hq
    have hstop := lt_iff (u := u) (a := pos) (b := r.stop) (by omega) (by omega)
    unfold sackNextHole at h
    unfold gaps
    split_ifs at h with c1 c2
    · rw [Bool.not_eq_true', ← Bool.not_eq_true, hstop] at c1
      rw [if_pos (by omega)]
      exact ih hrest hpos hle h
    · rw [Bool.not_eq_true', Bool.not_eq_false, hstop] at c1
      rw [lt_iff (u := u) (by omega) (by omega)] at c2
      rw [if_neg (by omega), ih hrest (by omega) (by omega) h]
      omega

/-- What `tcp_sack_next_hole` gives from `pos` on is a gap, and the one before a stretch. -/
structure HoleAt (u : Seq) (q : List Range) (pos start len : Seq) : Prop where
  le_start : ahead u pos ≤ ahead u start
  start_lt : ahead u start < ahead u (start + len)
  before : ∃ r ∈ q, start + len = r.start
  apart : ∀ x, ahead u start ≤ x → x < ahead u (start + len) → ¬Cover u q x

theorem gaps_eq_add {pos start len : Seq} (hhalf : hi ≤ 2 ^ 31 + 1) (hq : Sorted u hi lo q)
    (hpos : 0 < ahead u pos) (hle : ahead u pos ≤ 2 ^ 31 + 1)
    (h : sackNextHole q pos = some (start, len)) :
    HoleAt u q pos start len ∧ BitVec.ofNat 32 (gaps u (ahead u pos) q) =
      len + BitVec.ofNat 32 (gaps u (ahead u (start + len)) q) := by
  induction q generalizing lo pos with
  | nil => cases h
  | cons r rest ih =>
    obtain ⟨h1, h2, h3, hrest⟩ := hq
    have hstop := lt_iff (u := u) (a := pos) (b := r.stop) (by omega) (by omega)
    -- a hole after the first stretch is one of the whole list
    have hlater : ∀ {pos'}, ahead u pos ≤ ahead u pos' → ahead u r.stop ≤ ahead u pos' →
        HoleAt u rest pos' start len → HoleAt u (r :: rest) pos start len := by
      intro pos' hfrom hpast i
      obtain ⟨r', hr', i2⟩ := i.before
      have := i.le_start
      refine ⟨by omega, i.start_lt, ⟨r', mem_cons_of_mem _ hr', i2⟩, fun x h4 h5 hc => ?_⟩
      apply i.apart x h4 h5
      exact (cover_cons.1 hc).resolve_left fun hr => absurd hr.2 (by omega)
    unfold sackNextHole at h
    simp only [gaps]
    split_ifs at h with c1 c2
    · rw [Bool.not_eq_true', ← Bool.not_eq_true, hstop] at c1
      obtain ⟨i1, i2⟩ := ih hrest hpos hle h
      have := i1.le_start
      have := i1.start_lt
      refine ⟨hlater le_rfl (by omega) i1, ?_⟩
      rw [if_pos (by omega), if_pos (by omega), i2]
    · rw [Bool.not_eq_true', Bool.not_eq_false, hstop] at c1
      rw [lt_iff (u := u) (by omega) (by omega)] at c2
      obtain ⟨rfl, rfl⟩ := Prod.mk.inj (Option.some.inj h)
      have hend : pos + (r.start - pos) = r.start := by
        rw [BitVec.add_comm, BitVec.sub_add_cancel]
      have hlen : r.start - pos = BitVec.ofNat 32 (ahead u r.start - ahead u pos) := by
        rw [← ahead_rebase c2.le, ahead, BitVec.ofNat_toNat, BitVec.setWidth_eq]
      have happart : ∀ x, ahead u pos ≤ x → x < ahead u r.start → ¬Cover u (r :: rest) x := by
        rintro x - hx ⟨r', hr', h4, h5⟩
        rcases mem_cons.1 hr' with rfl | hr'
        · omega
        · have := (hrest.mem hr').1
          omega
      refine ⟨⟨le_rfl, by rwa [hend], ⟨r, mem_cons_self, hend⟩, by rwa [hend]⟩, ?_⟩
      rw [hend, if_neg (by omega), if_neg (by omega), hlen, ← BitVec.ofNat_add]
      congr 1
      omega
    · rw [Bool.not_eq_true', Bool.not_eq_false, hstop] at c1
      rw [lt_iff (u := u) (by omega) (by omega)] at c2
      obtain ⟨i1, i2⟩ := ih hrest (by omega) (by omega) h
      have := i1.le_start
      have := i1.start_lt
      refine ⟨hlater (by omega) le_rfl i1, ?_⟩
      rw [if_neg (by omega), if_pos (by omega), ← i2]
      congr 1
      omega

def beyond (u : Seq) (p : ℕ) (q : List Range) : ℕ := q.countP fun r => p < ahead u r.start

theorem beyond_lt {p p' : ℕ} {r : Range} (hr : r ∈ q) (h : p < ahead u r.start)
    (h' : ahead u r.start ≤ p') : beyond u p' q < beyond u p q := by
  have hsub : beyond u p' q = (q.filter fun r => p < ahead u r.start).countP
      fun r => p' < ahead u r.start := by
    rw [countP_filter, beyond]
    refine countP_congr fun x _ => ?_
    simp only [Bool.and_eq_true, decide_eq_true_eq]
    omega
  rw [hsub, beyond, countP_eq_length_filter (l := q), countP_lt_length_iff]
  exact ⟨r, mem_filter.2 ⟨hr, by simpa using h⟩, by simpa using h'⟩

theorem HoleAt.fewer {pos start len : Seq} (h : HoleAt u q pos start len) (hhalf : hi ≤ 2 ^ 31 + 1)
    (hq : Sorted u hi lo q) : beyond u (ahead u (start + len)) q < beyond u (ahead u pos) q ∧
      0 < ahead u (start + len) ∧ ahead u (start + len) ≤ 2 ^ 31 + 1 := by
  obtain ⟨r, hr, heq⟩ := h.before
  have hbefore := lt_of_le_of_lt h.le_start h.start_lt
  have := (hq.mem hr).2
  rw [heq] at hbefore ⊢
  exact ⟨beyond_lt hr hbefore le_rfl, by omega, by omega⟩

/-- The loop of `tcp_sack_hole_bytes` ends: every round leaves fewer stretches to come. -/
theorem sackHoleBytesLoop_eq {pos : Seq} {fuel : ℕ} (hhalf : hi ≤ 2 ^ 31 + 1) (hq : Sorted u hi lo q)
    (hpos : 0 < ahead u pos) (hle : ahead u pos ≤ 2 ^ 31 + 1)
    (hfuel : beyond u (ahead u pos) q < fuel) (bytes : Seq) :
    sackHoleBytesLoop q fuel pos bytes = some (bytes + BitVec.ofNat 32 (gaps u (ahead u pos) q)) := by
  induction fuel generalizing pos bytes with
  | zero => exact absurd hfuel (Nat.not_lt_zero _)
  | succ fuel ih =>
    unfold sackHoleBytesLoop
    cases hnext : sackNextHole q pos with
    | none => rw [gaps_eq_zero hhalf hq hpos hle hnext, BitVec.add_zero]
    | some hole =>
      obtain ⟨start, len⟩ := hole
      obtain ⟨hhole, heq⟩ := gaps_eq_add hhalf hq hpos hle hnext
      obtain ⟨hfewer, hnext0, hnextle⟩ := hhole.fewer hhalf hq
      simp only
      rw [ih hnext0 hnextle (by omega), heq, BitVec.add_assoc]

theorem sackHoleBytes_eq (pos : Seq) (hhalf : hi ≤ 2 ^ 31 + 1) (hq : Sorted u hi lo q)
    (hpos : 0 < ahead u pos) (hle : ahead u pos ≤ 2 ^ 31 + 1) :
    sackHoleBytes q pos = some (BitVec.ofNat 32 (gaps u (ahead u pos) q)) := by
  have hlen : beyond u (ahead u pos) q ≤ q.length := countP_le_length
  rw [sackHoleBytes, sackHoleBytesLoop_eq hhalf hq hpos hle (by omega)]
  exact congrArg some (BitVec.zero_add _)

/-! ### The holes one after the other -/

/-- What repeated calls of `tcp_sack_next_hole` give from `pos` on, until there is no hole. -/
inductive Holes (q : List Range) : Seq → List (Seq × Seq) → Prop
  | done {pos : Seq} (h : sackNextHole q pos = none) : Holes q pos []
  | next {pos start len : Seq} {holes : List (Seq × Seq)}
      (h : sackNextHole q pos = some (start, len)) (rest : Holes q (start + len) holes) :
      Holes q pos ((start, len) :: holes)

theorem exists_holes {pos : Seq} {fuel : ℕ} (hhalf : hi ≤ 2 ^ 31 + 1) (hq : Sorted u hi lo q)
    (hpos : 0 < ahead u pos) (hle : ahead u pos ≤ 2 ^ 31 + 1)
    (hfuel : beyond u (ahead u pos) q < fuel) :
    ∃ holes, Holes q pos holes ∧ (∀ g ∈ holes, HoleAt u q pos g.1 g.2) ∧
      holes.Pairwise fun g g' => ahead u (g.1 + g.2) ≤ ahead u g'.1 := by
  induction fuel generalizing pos with
  | zero => exact absurd hfuel (Nat.not_lt_zero _)
  | succ fuel ih =>
    cases hnext : sackNextHole q pos with
    | none => exact ⟨[], .done hnext, by simp, .nil⟩
    | some hole =>
      obtain ⟨start, len⟩ := hole
      have hhole := (gaps_eq_add hhalf hq hpos hle hnext).1
      obtain ⟨hfewer, hnext0, hnextle⟩ := hhole.fewer hhalf hq
      obtain ⟨holes, i1, i2, i3⟩ := ih hnext0 hnextle (by omega)
      refine ⟨_, .next hnext i1, ?_, pairwise_cons.2 ⟨fun g hg => (i2 g hg).le_start, i3⟩⟩
      intro g hg
      rcases mem_cons.1 hg with rfl | hg
      · exact hhole
      · have hbefore := hhole.le_start.trans hhole.start_lt.le
        exact { i2 g hg with le_start := hbefore.trans (i2 g hg).le_start }

/-- Bytes the stretches hold from the distance `p` on. -/
def bytesFrom (u : Seq) (p : ℕ) : List Range → ℕ
  | [] => 0
  | r :: rest => ahead u r.stop - max p (ahead u r.start) + bytesFrom u p rest

theorem bytesFrom_eq {p p' : ℕ} (hq : Sorted u hi lo q) (hp : p ≤ lo) (hp' : p' ≤ lo) :
    bytesFrom u p q = bytesFrom u p' q := by
  induction q generalizing lo with
  | nil => rfl
  | cons r rest ih =>
    obtain ⟨h1, h2, -, hrest⟩ := hq
    rw [bytesFrom, bytesFrom, ih hrest (by omega) (by omega), max_eq_right (by omega),
      max_eq_right (by omega)]

theorem gaps_add_bytesFrom {p : ℕ} {r : Range} (hq : Sorted u hi lo q) (hr : r ∈ q.getLast?)
    (hp : p ≤ ahead u r.stop) : gaps u p q + bytesFrom u p q = ahead u r.stop - p := by
  induction q generalizing lo p with
  | nil => cases hr
  | cons a rest ih =>
    obtain ⟨-, h2, -, hrest⟩ := hq
    rw [gaps, bytesFrom]
    cases rest with
    | nil =>
      obtain rfl : a = r := by simpa using hr
      simp only [gaps, bytesFrom]
      split_ifs <;> omega
    | cons b rest =>
      rw [getLast?_cons_cons] at hr
      have hlast := (hrest.mem (mem_of_mem_getLast? hr)).1
      have hlast' := (hrest.mem (mem_of_mem_getLast? hr)).2.1
      split_ifs with hpast
      · rw [← ih hrest hr hp]
        omega
      · rw [bytesFrom_eq hrest (p := p) (by omega) le_rfl]
        have := ih hrest hr (p := ahead u a.stop) (by omega)
        omega

theorem sackNextHole_none {pos : Seq} (hhalf : hi ≤ 2 ^ 31 + 1) (hq : Sorted u hi lo q)
    (hle : ahead u pos ≤ 2 ^ 31 + 1) (hpast : ∀ r ∈ q, ahead u r.stop ≤ ahead u pos) :
    sackNextHole q pos = none := by
  induction q generalizing lo with
  | nil => rfl
  | cons r rest ih =>
    have hr := hpast r mem_cons_self
    obtain ⟨h1, h2, h3, hrest⟩ := hq
    have hstop := lt_iff (u := u) (a := pos) (b := r.stop) (by omega) (by omega)
    have hbehind : (!lt pos r.stop) = true := by
      rw [Bool.not_eq_true', ← Bool.not_eq_true, hstop]
      omega
    rw [sackNextHole, if_pos hbehind]
    exact ih hrest fun r' hr' => hpast r' (mem_cons_of_mem _ hr')

/-- The half of the sequence space here is the one after `u`. From any point of it the holes come in
order, none meets a stretch, and up to the highest end they are what the stretches leave. -/
theorem holes_partition (u : Seq) (q : List Range) (hq : Sorted u (2 ^ 31 + 1) 0 q) (pos : Seq)
    (hpos : 0 < ahead u pos) (hle : ahead u pos ≤ 2 ^ 31) :
    (∃ holes, Holes q pos holes ∧ (∀ g ∈ holes, HoleAt u q pos g.1 g.2) ∧
      holes.Pairwise fun g g' => ahead u (g.1 + g.2) ≤ ahead u g'.1) ∧
    (∃ bytes, sackHoleBytes q pos = some bytes ∧
      ∀ r ∈ q.getLast?, ahead u pos < ahead u r.stop →
        bytes.toNat + bytesFrom u (ahead u pos) q = ahead u r.stop - ahead u pos) ∧
    ((∀ r ∈ q, ahead u r.stop ≤ ahead u pos) → sackNextHole q pos = none) := by
  have hle' : ahead u pos ≤ 2 ^ 31 + 1 := by omega
  refine ⟨exists_holes le_rfl hq hpos hle' (Nat.lt_succ_self _),
    ⟨_, sackHoleBytes_eq _ le_rfl hq hpos hle', fun r hr hlt => ?_⟩, sackNextHole_none le_rfl hq hle'⟩
  have hsum := gaps_add_bytesFrom hq hr hlt.le
  have := (hq.mem (mem_of_mem_getLast? hr)).2.2
  rw [BitVec.toNat_ofNat, Nat.mod_eq_of_lt (by omega)]
  exact hsum

theorem holes_partition_two :
    Sorted 0 (2 ^ 31 + 1) 0 [⟨5, 8⟩, ⟨10, 12⟩] ∧ 0 < ahead (0 : Seq) 6 ∧ ahead (0 : Seq) 6 ≤ 2 ^ 31 ∧
    ∃ bytes, sackHoleBytes [⟨5, 8⟩, ⟨10, 12⟩] 6 = some bytes ∧
      ∀ r ∈ [(⟨5, 8⟩ : Range), ⟨10, 12⟩].getLast?, ahead (0 : Seq) 6 < ahead 0 r.stop →
        bytes.toNat + bytesFrom 0 (ahead (0 : Seq) 6) [⟨5, 8⟩, ⟨10, 12⟩] =
          ahead 0 r.stop - ahead (0 : Seq) 6 := by
  have hq : Sorted 0 (2 ^ 31 + 1) 0 [⟨5, 8⟩, ⟨10, 12⟩] := by simp [Sorted, ahead]
  exact ⟨hq, by decide, by decide, (holes_partition 0 _ hq 6 (by decide) (by decide)).2.1⟩

end

end Bashket.Tcp
