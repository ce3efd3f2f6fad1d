import Bashket.Fat.Alone

/-!
# Chains of clusters

A chain is a list of clusters, each with the next one as its entry in the FAT. What the operations
on the FAT do is said here in terms of chains: a walk along one, taking a free cluster, putting it
at the end, cutting the end off and freeing it.
-/

namespace Bashket.Fat

open Bytes Program List

variable {L : Layout}

/-- A layout whose cluster numbers can all be entries of the FAT: those from `0x0FFFFFF7` on have a
meaning of their own. -/
structure Layout.Proper (L : Layout) : Prop extends L.Ok where
  small : L.clusterCount + 2 ≤ 0x0FFFFFF7

structure View.IsChain (v : View L) (cl : List ℕ) : Prop where
  valid : ∀ c ∈ cl, L.validCluster c
  nodup : cl.Nodup
  linked : cl.IsChain fun a b => v.entry a = b
  ends : ∀ c, cl.getLast? = some c → fatEnd ≤ v.entry c

def View.IsFree (v : View L) (c : ℕ) : Prop := L.validCluster c ∧ v.entry c = fatFree

instance (v : View L) (c : ℕ) : Decidable (v.IsFree c) := inferInstanceAs (Decidable (_ ∧ _))

/-- The search for a free cluster starts at a cluster, or after the last. -/
def View.HintOk (v : View L) : Prop := 2 ≤ v.allocHint ∧ v.allocHint ≤ L.clusterCount + 2

/-- The bytes of the clusters of a chain, and zeros after them. -/
def View.content (v : View L) (cl : List ℕ) : Memory := fun q =>
  match cl[q / L.clusterBytes]? with
  | some c => v.byte c (q % L.clusterBytes)
  | none => 0

theorem headD_eq_getD (cl : List ℕ) : cl.headD 0 = cl.getD 0 0 := by
  cases cl <;> rfl

theorem Layout.validCluster.pos {c : ℕ} (h : L.validCluster c) : c ≠ 0 := by
  have := h.1
  omega

theorem Layout.Ok.clusterBytes_pos (hL : L.Ok) : 0 < L.clusterBytes :=
  Nat.mul_pos hL.sectors_pos (by norm_num)

namespace View.IsChain

variable {v v' : View L} {cl : List ℕ} {c k : ℕ}

theorem nil : v.IsChain [] := ⟨nofun, .nil, .nil, nofun⟩

theorem congr (h : v.IsChain cl) (he : ∀ c ∈ cl, v'.entry c = v.entry c) : v'.IsChain cl := by
  refine ⟨h.valid, h.nodup, ?_, fun c hc => ?_⟩
  · refine h.linked.imp_of_mem_imp fun a b ha _ hab => ?_
    rw [he a ha, hab]
  · rw [he c (mem_of_getLast? hc)]
    exact h.ends c hc

theorem setCluster (h : v.IsChain cl) (c : ℕ) (m : Memory) : (v.setCluster c m).IsChain cl :=
  h.congr fun _ _ => rfl

theorem setNode (h : v.IsChain cl) (i : ℕ) (n : Node L) : (v.setNode i n).IsChain cl :=
  h.congr fun _ _ => rfl

theorem getD_valid (h : v.IsChain cl) : L.validCluster (cl.getD k 0) ↔ k < cl.length := by
  rcases lt_or_ge k cl.length with hk | hk
  · rw [getD_eq_getElem _ _ hk]
    exact iff_of_true (h.valid _ (getElem_mem hk)) hk
  · rw [getD_eq_default _ _ hk]
    exact iff_of_false (fun h0 => h0.pos rfl) (by omega)

theorem entry_ne_zero (h : v.IsChain cl) (hc : c ∈ cl) : v.entry c ≠ 0 := by
  obtain ⟨k, hk, rfl⟩ := getElem_of_mem hc
  rcases Nat.lt_or_ge (k + 1) cl.length with hlt | hge
  · rw [isChain_iff_getElem.1 h.linked k hlt]
    exact (h.valid _ (getElem_mem hlt)).pos
  · have hlast : cl.getLast? = some cl[k] := by
      rw [getLast?_eq_getElem?, show cl.length - 1 = k by omega, getElem?_eq_getElem hk]
    have hend : 0 < fatEnd := by norm_num
    have := h.ends _ hlast
    omega

theorem follow (hL : L.Proper) (h : v.IsChain cl) (hk : k < cl.length) :
    L.follow (v.entry cl[k]) = cl.getD (k + 1) 0 := by
  rcases Nat.lt_or_ge (k + 1) cl.length with hlt | hge
  · have hv := h.valid _ (getElem_mem hlt)
    rw [isChain_iff_getElem.1 h.linked k hlt, getD_eq_getElem _ _ hlt, Layout.follow,
      if_neg, if_pos hv]
    have hend : fatEnd = 0x0FFFFFF8 := rfl
    have := hv.2
    have := hL.small
    omega
  · have hlast : cl.getLast? = some cl[k] := by
      rw [getLast?_eq_getElem?, show cl.length - 1 = k by omega, getElem?_eq_getElem hk]
    rw [getD_eq_default _ _ hge, Layout.follow, if_pos (h.ends _ hlast)]

theorem push (h : v.IsChain cl) (hv : L.validCluster c) (hc : c ∉ cl)
    (hlast : ∀ d, cl.getLast? = some d → v'.entry d = c) (hend : fatEnd ≤ v'.entry c)
    (he : ∀ d ∈ cl, cl.getLast? ≠ some d → v'.entry d = v.entry d) : v'.IsChain (cl ++ [c]) := by
  refine ⟨fun d hd => ?_, ?_, ?_, fun d hd => ?_⟩
  · rcases mem_append.1 hd with hd | hd
    · exact h.valid d hd
    · rwa [mem_singleton.1 hd]
  · exact nodup_append.2 ⟨h.nodup, nodup_singleton c, fun a ha b hb hab =>
      hc (mem_singleton.1 hb ▸ hab ▸ ha)⟩
  · refine isChain_append.2 ⟨isChain_iff_getElem.2 fun k hk => ?_, .singleton c, ?_⟩
    · rw [he _ (getElem_mem _), isChain_iff_getElem.1 h.linked k hk]
      rw [getLast?_eq_getElem?, getElem?_eq_getElem (by omega)]
      intro h0
      have := (h.nodup.getElem_inj_iff).1 (Option.some.inj h0)
      omega
    · intro a ha b hb
      obtain rfl := Option.mem_some.1 hb
      exact hlast a ha
  · rw [getLast?_concat] at hd
    exact Option.some.inj hd ▸ hend

theorem take (h : v.IsChain cl) (hk : k < cl.length) (hend : fatEnd ≤ v'.entry cl[k])
    (he : ∀ d ∈ cl.take k, v'.entry d = v.entry d) : v'.IsChain (cl.take (k + 1)) := by
  have hlen : (cl.take (k + 1)).length = k + 1 := by rw [length_take]; omega
  refine ⟨fun d hd => h.valid d (mem_of_mem_take hd), h.nodup.sublist (take_sublist _ _),
    isChain_iff_getElem.2 fun j hj => ?_, fun d hd => ?_⟩
  · rw [hlen] at hj
    rw [getElem_take, getElem_take, he, isChain_iff_getElem.1 h.linked j (by omega)]
    exact mem_take_iff_getElem.2 ⟨j, by omega, rfl⟩
  · rw [getLast?_eq_getElem?, hlen, Nat.add_sub_cancel, getElem?_take_of_lt (by omega),
      getElem?_eq_getElem hk] at hd
    exact Option.some.inj hd ▸ hend

theorem drop (h : v.IsChain cl) (k : ℕ) : v.IsChain (cl.drop k) := by
  refine ⟨fun d hd => h.valid d (mem_of_mem_drop hd), h.nodup.sublist (drop_sublist _ _),
    h.linked.drop k, fun d hd => h.ends d ?_⟩
  rw [getLast?_drop] at hd
  split at hd
  · cases hd
  · exact hd

theorem length_le (h : v.IsChain cl) : cl.length ≤ L.clusterCount := by
  have hsub : cl.toFinset ⊆ Finset.Ico 2 (L.clusterCount + 2) := by
    intro c hc
    have hv := h.valid c (mem_toFinset.1 hc)
    exact Finset.mem_Ico.2 hv
  have hcard := Finset.card_le_card hsub
  rwa [toFinset_card_of_nodup h.nodup, Nat.card_Ico, Nat.add_sub_cancel] at hcard

end View.IsChain

/-! ### Walks -/

section Walks

variable {v : View L} {cl : List ℕ}

theorem ensures_skipClusters (hL : L.Proper) (h : v.IsChain cl) (skip k : ℕ) :
    Ensures (skipClusters L skip (cl.getD k 0)) v fun v' n =>
      v' = v ∧ n = cl.getD (k + skip) 0 := by
  induction skip generalizing k with
  | zero => exact .pure ⟨rfl, rfl⟩
  | succ skip ih =>
    unfold skipClusters
    rcases lt_or_ge k cl.length with hk | hk
    · rw [if_neg (h.getD_valid.2 hk).pos]
      refine (ensures_nextCluster hL.toOk _).bind fun v' n hn => ?_
      obtain ⟨rfl, rfl⟩ := hn
      rw [getD_eq_getElem _ _ hk, h.follow hL hk, Nat.add_comm skip, ← Nat.add_assoc]
      exact ih (k + 1)
    · rw [getD_eq_default _ _ hk, getD_eq_default _ _ (by omega), if_pos rfl]
      exact .pure ⟨rfl, rfl⟩

theorem ensures_lastKept (hL : L.Proper) (h : v.IsChain cl) {size k : ℕ} (fuel : ℕ)
    (hk : k * L.clusterBytes < size) (hsize : size ≤ cl.length * L.clusterBytes)
    (hfuel : size ≤ k * L.clusterBytes + fuel) :
    Ensures (lastKept L size fuel ((k + 1) * L.clusterBytes) (cl.getD k 0)) v fun v' n =>
      v' = v ∧ n = cl.getD ((size - 1) / L.clusterBytes) 0 := by
  have hpos := hL.clusterBytes_pos
  induction fuel generalizing k with
  | zero => omega
  | succ fuel ih =>
    have hlt : k < cl.length := Nat.lt_of_mul_lt_mul_right (hk.trans_le hsize)
    have hsucc : (k + 1) * L.clusterBytes = k * L.clusterBytes + L.clusterBytes := by ring
    unfold lastKept
    by_cases hmore : (k + 1) * L.clusterBytes < size
    · rw [if_neg (not_not_intro ⟨hmore, h.getD_valid.2 hlt⟩)]
      refine (ensures_nextCluster hL.toOk _).bind fun v' n hn => ?_
      obtain ⟨rfl, rfl⟩ := hn
      rw [getD_eq_getElem _ _ hlt, h.follow hL hlt,
        show (k + 1) * L.clusterBytes + L.clusterBytes = (k + 1 + 1) * L.clusterBytes by ring]
      exact ih hmore (by omega)
    · rw [if_pos fun h0 => hmore h0.1]
      have hdiv : (size - 1) / L.clusterBytes = k := Nat.div_eq_of_lt_le (by omega) (by omega)
      exact .pure ⟨rfl, by rw [hdiv]⟩

end Walks

/-! ### Taking a free cluster -/

theorem exists_search (hint : ℕ) {c : ℕ} (hc : L.validCluster c) :
    ∃ n < L.clusterCount, 2 + (hint - 2 + n) % L.clusterCount = c := by
  have h2 := hc.1
  have hlt := hc.2
  have hpos : 0 < L.clusterCount := by omega
  have hmod := Nat.mod_lt (hint - 2) hpos
  refine ⟨(c - 2 + (L.clusterCount - (hint - 2) % L.clusterCount)) % L.clusterCount,
    Nat.mod_lt _ hpos, ?_⟩
  have hsum : (hint - 2 + (c - 2 + (L.clusterCount - (hint - 2) % L.clusterCount))) %
      L.clusterCount = c - 2 := by
    have hdiv := Nat.div_add_mod (hint - 2) L.clusterCount
    rw [show hint - 2 + (c - 2 + (L.clusterCount - (hint - 2) % L.clusterCount)) =
      c - 2 + L.clusterCount * ((hint - 2) / L.clusterCount + 1) by rw [Nat.mul_add]; omega,
      Nat.add_mul_mod_self_left, Nat.mod_eq_of_lt (by omega)]
  rw [Nat.add_mod_mod, hsum]
  omega

section Allocate

variable {v : View L}

/-- What `allocate_cluster` does: nothing if no cluster is free, else it takes one. -/
def View.Allocated (v v' : View L) (c : ℕ) : Prop :=
  (c = 0 ∧ v' = v ∧ ∀ d, ¬ v.IsFree d) ∨
    (v.IsFree c ∧ v' = { v.setEntry c fatEndMark with allocHint := c + 1 })

theorem ensures_allocateLoop (hL : L.Proper) {hint fuel n loaded : ℕ} {sector : Memory}
    (hhint : hint ≤ L.clusterCount + 2) (hfuel : n + fuel = L.clusterCount)
    (hloaded : ∀ c, L.validCluster c → L.fatSector c = loaded → entryIn sector c = v.entry c)
    (hnone : ∀ m < n, ¬ v.IsFree (2 + (hint - 2 + m) % L.clusterCount)) :
    Ensures (allocateLoop L hint fuel n loaded sector) v v.Allocated := by
  have hpos := hL.clusters_pos
  induction fuel generalizing n loaded sector with
  | zero =>
    refine .pure (.inl ⟨rfl, rfl, fun d hd => ?_⟩)
    obtain ⟨m, hm, rfl⟩ := exists_search hint hd.1
    exact hnone m (by omega) hd
  | succ fuel ih =>
    have hsmall : (hint - 2 + n) % 2 ^ 32 = hint - 2 + n :=
      Nat.mod_eq_of_lt (by have := hL.small; omega)
    unfold allocateLoop
    rw [hsmall]
    dsimp only
    generalize hc : 2 + (hint - 2 + n) % L.clusterCount = c at *
    have hmod := Nat.mod_lt (hint - 2 + n) hpos
    have hv : L.validCluster c := ⟨by omega, by omega⟩
    have hread : Ensures (readIf L (L.fatSector c ≠ loaded) (L.fatSector c) sector) v
        fun v' sector' => v' = v ∧ ∀ c', L.validCluster c' → L.fatSector c' = L.fatSector c →
          entryIn sector' c' = v.entry c' := by
      unfold readIf
      split
      · exact ensures_bcacheRead_fat c
      next hsame =>
        refine .pure ⟨rfl, fun c' hv' hc' => hloaded c' hv' ?_⟩
        rw [hc', not_not.1 hsame]
    refine hread.bind fun v' sector' h => ?_
    obtain ⟨rfl, hsector⟩ := h
    split
    next hfree =>
      rw [hsector c hv rfl] at hfree
      refine (ensures_setFatEntry hL.toOk hv _).bind fun v' ok h => ?_
      obtain ⟨rfl, rfl⟩ := h
      rw [if_neg (by decide)]
      refine (ensures_setAllocHint _).bind fun v' _ h => ?_
      subst h
      exact .pure (.inr ⟨⟨hv, hfree⟩, rfl⟩)
    next hused =>
      refine ih (by omega) hsector fun m hm hfree => ?_
      rcases Nat.lt_succ_iff_lt_or_eq.1 hm with hlt | rfl
      · exact hnone m hlt hfree
      · rw [hc] at hfree
        exact hused ((hsector c hv rfl).trans hfree.2)

theorem ensures_allocateCluster (hL : L.Proper) (hhint : v.HintOk) :
    Ensures (allocateCluster L) v v.Allocated := by
  refine ensures_allocHint.bind fun v' hint h => ?_
  obtain ⟨rfl, rfl⟩ := h
  refine ensures_allocateLoop hL hhint.2 (Nat.zero_add _) (fun c hv h0 => ?_) nofun
  exact absurd h0 (Nat.add_pos_left hL.fat_pos _).ne'

end Allocate

/-! ### Freeing a chain -/

/-- The clusters of `cl` are free, and nothing else has changed but where to search. -/
structure View.Freed (v v' : View L) (cl : List ℕ) : Prop where
  entry : ∀ c, v'.entry c = if c ∈ cl then 0 else v.entry c
  byte : v'.byte = v.byte
  nodes : v'.nodes = v.nodes
  hint : v'.HintOk

section Free

variable {v : View L} {cl : List ℕ}

theorem ensures_freeLoop (hL : L.Proper) (h : v.IsChain cl) (hhint : v.HintOk) {fuel : ℕ}
    (hfuel : cl.length ≤ fuel) :
    Ensures (freeLoop L fuel (cl.headD 0)) v fun v' _ => v.Freed v' cl := by
  have hdone : v.Freed v [] := ⟨fun _ => rfl, rfl, rfl, hhint⟩
  induction cl generalizing v fuel with
  | nil =>
    cases fuel with
    | zero => exact .pure hdone
    | succ fuel =>
      unfold freeLoop
      rw [if_pos fun h0 => h0.pos rfl]
      exact .pure hdone
  | cons c cl ih =>
    obtain ⟨fuel, rfl⟩ := Nat.exists_eq_add_of_lt (Nat.lt_of_lt_of_le (Nat.succ_pos _) hfuel)
    have hv : L.validCluster c := h.valid c mem_cons_self
    have hc : c ∉ cl := (nodup_cons.1 h.nodup).1
    have hnext : L.follow (v.entry c) = cl.headD 0 := by
      rw [headD_eq_getD]
      exact h.follow hL (k := 0) (Nat.succ_pos _)
    rw [Nat.zero_add, freeLoop, headD_cons, if_neg (not_not_intro hv)]
    refine (ensures_nextCluster hL.toOk c).bind fun v₁ n hn => ?_
    obtain ⟨rfl, rfl⟩ := hn
    refine (ensures_setFatEntry hL.toOk hv _).bind fun v₂ ok hok => ?_
    obtain ⟨rfl, rfl⟩ := hok
    refine ensures_allocHint.bind fun v₃ hint h₃ => ?_
    obtain ⟨rfl, rfl⟩ := h₃
    have htail : (v₁.setEntry c fatFree).IsChain cl := by
      refine (h.drop 1).congr fun d hd => ?_
      exact Function.update_of_ne (by rintro rfl; exact hc hd) _ _
    have hwhen : Ensures ((setAllocHint c).when (c < (v₁.setEntry c fatFree).allocHint))
        (v₁.setEntry c fatFree) fun v' _ =>
          v'.entry = (v₁.setEntry c fatFree).entry ∧ v'.byte = v₁.byte ∧ v'.nodes = v₁.nodes ∧
            v'.HintOk := by
      refine .when (fun _ => (ensures_setAllocHint c).mono fun v' _ hv' => ?_) fun _ =>
        ⟨rfl, rfl, rfl, hhint⟩
      subst hv'
      exact ⟨rfl, rfl, rfl, hv.1, hv.2.le⟩
    refine hwhen.bind fun v₄ _ h₄ => ?_
    obtain ⟨hentry, hbyte, hnodes, hhint₄⟩ := h₄
    rw [hnext]
    refine (ih (htail.congr fun d _ => by rw [hentry]) hhint₄ (by simpa using hfuel)
      ⟨fun _ => rfl, rfl, rfl, hhint₄⟩).mono fun v' _ hv' => ?_
    refine ⟨fun d => ?_, hv'.byte.trans hbyte, hv'.nodes.trans hnodes, hv'.hint⟩
    rw [hv'.entry, hentry]
    by_cases hd : d = c
    · subst hd
      rw [if_neg hc, if_pos mem_cons_self, View.setEntry_entry_self]
      rfl
    · rw [View.setEntry_entry_of_ne _ _ hd]
      simp only [mem_cons, hd, false_or]

theorem ensures_freeChain (hL : L.Proper) (h : v.IsChain cl) (hhint : v.HintOk) :
    Ensures (freeChain L (cl.headD 0)) v fun v' _ => v.Freed v' cl :=
  ensures_freeLoop hL h hhint (h.length_le.trans (Nat.le_succ _))

end Free

/-! ### Bytes of a cluster -/

section Bytes

variable {v : View L} {c : ℕ}

def View.zeroed (v : View L) (c lo hi : ℕ) : View L :=
  v.setCluster c fun q => if lo ≤ q ∧ q < hi then 0 else v.byte c q

theorem View.zeroed_of_le (v : View L) (c : ℕ) {lo hi : ℕ} (h : hi ≤ lo) :
    v.zeroed c lo hi = v := by
  have hnone : ∀ q, (if lo ≤ q ∧ q < hi then 0 else v.byte c q) = v.byte c q := fun q =>
    if_neg (by omega)
  simp only [View.zeroed, hnone, View.setCluster_byte]

theorem ensures_zeroSector (hL : L.Ok) (hv : L.validCluster c) {lo s start : ℕ} {sector : Memory}
    (hs : s < L.sectorsPerCluster) (hlo : lo / sectorSize ≤ s)
    (hstart : start = if s = lo / sectorSize then lo % sectorSize else 0)
    (hsector : ∀ q < lo, q / sectorSize = s → sector (q % sectorSize) = v.byte c q) :
    Ensures (bcacheWrite (L.clusterToSector c + s) fun p => if start ≤ p then 0 else sector p)
      (v.zeroed c lo (s * sectorSize)) fun v' _ => v' = v.zeroed c lo ((s + 1) * sectorSize) := by
  refine (ensures_bcacheWrite hL hv hs _).mono fun v' _ h => ?_
  subst h
  simp only [View.zeroed, View.setCluster_setCluster, View.setCluster_byte_self]
  congr 1
  funext q
  by_cases hq : q / sectorSize = s
  · rw [if_pos hq]
    have hplace : start ≤ q % sectorSize ↔ lo ≤ q := by
      simp only [sectorSize] at *
      split at hstart <;> omega
    have hend : q < (s + 1) * sectorSize := by
      simp only [sectorSize] at *
      omega
    by_cases hin : lo ≤ q
    · rw [if_pos (hplace.2 hin), if_pos ⟨hin, hend⟩]
    · rw [if_neg (mt hplace.1 hin), if_neg fun h0 => hin h0.1, hsector q (by omega) hq]
  · have hiff : q < (s + 1) * sectorSize ↔ q < s * sectorSize := by
      simp only [sectorSize] at *
      omega
    rw [if_neg hq]
    simp only [hiff]

theorem ensures_zeroCluster (hL : L.Ok) (hv : L.validCluster c) :
    Ensures (zeroCluster L c) v fun v' _ => v' = v.zeroed c 0 L.clusterBytes := by
  refine Prog.Ensures.mono (.forM (fun k v' => v' = v.zeroed c 0 (k * sectorSize))
    (fun k hk v' hv' => ?_) ?_) fun v' _ hv' => ?_
  · subst hv'
    rw [length_range] at hk
    rw [getElem_range]
    have hzero : (fun _ : ℕ => (0 : UInt8)) = fun p => if 0 ≤ p then 0 else (fun _ => 0) p := by
      funext p
      exact (if_pos (Nat.zero_le p)).symm
    rw [hzero]
    exact ensures_zeroSector hL hv hk (Nat.zero_le _) (by simp) fun q h0 => absurd h0 (by omega)
  · rw [Nat.zero_mul, View.zeroed_of_le _ _ le_rfl]
  · rw [hv', length_range]
    rfl

theorem copyIn_sector {m sector : Memory} {start chunk : ℕ} {bytes : List UInt8}
    (hchunk : start % sectorSize + chunk ≤ sectorSize) (hlen : bytes.length = chunk)
    (hsector : chunk = sectorSize ∨
      ∀ q, q / sectorSize = start / sectorSize → sector (q % sectorSize) = m q) (q : ℕ) :
    (if q / sectorSize = start / sectorSize then
      copyIn sector (start % sectorSize) bytes (q % sectorSize) else m q) =
      copyIn m start bytes q := by
  simp only [sectorSize] at *
  unfold copyIn
  by_cases hq : q / 512 = start / 512
  · rw [if_pos hq]
    by_cases hin : start ≤ q ∧ q < start + bytes.length
    · rw [if_pos hin, if_pos (by omega), show q % 512 - start % 512 = q - start by omega]
    · rw [if_neg hin, if_neg (by omega)]
      rcases hsector with h | h
      · omega
      · exact h q hq
  · rw [if_neg hq, if_neg (by omega)]

theorem ensures_writeSectors (hL : L.Ok) (hv : L.validCluster c) {fuel start : ℕ}
    {bytes : List UInt8} (hfuel : bytes.length ≤ fuel)
    (hfit : start + bytes.length ≤ L.clusterBytes) :
    Ensures (writeSectors L c fuel start bytes) v fun v' _ =>
      v' = v.setCluster c (copyIn (v.byte c) start bytes) := by
  induction fuel generalizing v start bytes with
  | zero =>
    rw [length_eq_zero_iff.1 (Nat.le_zero.1 hfuel), copyIn_nil, View.setCluster_byte]
    exact .pure rfl
  | succ fuel ih =>
    unfold writeSectors
    split
    next h =>
      rw [h, copyIn_nil, View.setCluster_byte]
      exact .pure rfl
    next hne =>
      have hpos : 0 < bytes.length := length_pos_iff.2 hne
      dsimp only
      generalize hchunk : min (sectorSize - start % sectorSize) bytes.length = chunk
      have hmod : start % sectorSize < sectorSize := Nat.mod_lt _ (by norm_num)
      have hs : start / sectorSize < L.sectorsPerCluster := L.div_lt_sectors (by omega)
      have hread : Ensures (readIf L (chunk < sectorSize)
          (L.clusterToSector c + start / sectorSize) fun _ => 0) v fun v' sector => v' = v ∧
            (chunk = sectorSize ∨ ∀ q, q / sectorSize = start / sectorSize →
              sector (q % sectorSize) = v.byte c q) := by
        unfold readIf
        split
        · exact (ensures_bcacheRead hv hs).mono fun v' sector h => ⟨h.1, .inr h.2⟩
        · exact .pure ⟨rfl, .inl (by omega)⟩
      refine hread.bind fun v' sector h => ?_
      obtain ⟨rfl, hsector⟩ := h
      refine (ensures_bcacheWrite hL hv hs _).bind fun v'' _ h => ?_
      subst h
      refine (ih (by rw [length_drop]; omega) (by rw [length_drop]; omega)).mono
        fun v'' _ h => ?_
      have hlen : (bytes.take chunk).length = chunk := by rw [length_take]; omega
      have hsplit := copyIn_append (v'.byte c) start (bytes.take chunk) (bytes.drop chunk)
      rw [take_append_drop, hlen] at hsplit
      rw [h, View.setCluster_setCluster, View.setCluster_byte_self, ← hsplit]
      congr 3
      funext q
      exact copyIn_sector (by omega) hlen hsector q

theorem ensures_zeroRest (hL : L.Ok) (hv : L.validCluster c) (size : ℕ) :
    Ensures (zeroRest L c size) v fun v' _ =>
      v' = if size % L.clusterBytes = 0 then v
        else v.zeroed c (size % L.clusterBytes) L.clusterBytes := by
  unfold zeroRest
  dsimp only
  have hlt := Nat.mod_lt size hL.clusterBytes_pos
  generalize size % L.clusterBytes = within at *
  split
  · exact .pure rfl
  have hrow := L.div_lt_sectors hlt
  refine Prog.Ensures.mono (.forM
    (fun k v' => v' = v.zeroed c within ((within / sectorSize + k) * sectorSize))
    (fun k hk v' hv' => ?_) ?_) fun v' _ hv' => ?_
  · subst hv'
    rw [length_range'] at hk
    rw [getElem_range', Nat.one_mul]
    generalize hstart : (if within / sectorSize + k = within / sectorSize then
      within % sectorSize else 0) = start
    generalize hsk : within / sectorSize + k = s at *
    have hread : Ensures (readIf L (start ≠ 0) (L.clusterToSector c + s) fun _ => 0)
        (v.zeroed c within (s * sectorSize)) fun v' sector =>
          v' = v.zeroed c within (s * sectorSize) ∧
            ∀ q < within, q / sectorSize = s → sector (q % sectorSize) = v.byte c q := by
      unfold readIf
      split
      · refine (ensures_bcacheRead hv (by omega)).mono fun v' sector h => ⟨h.1, fun q hlt hq => ?_⟩
        rw [h.2 q hq, View.zeroed, View.setCluster_byte_self, if_neg (by omega)]
      next h =>
        refine .pure ⟨rfl, fun q hlt hq => ?_⟩
        simp only [sectorSize] at *
        split at hstart <;> omega
    refine hread.bind fun v' sector h => ?_
    obtain ⟨rfl, hsector⟩ := h
    rw [← Nat.add_assoc, hsk]
    exact ensures_zeroSector hL hv (by omega) (by omega) hstart.symm hsector
  · refine (View.zeroed_of_le _ _ ?_).symm
    simp only [sectorSize]
    omega
  · rw [hv', length_range', Nat.add_sub_cancel' hrow.le]
    rfl

end Bytes

end Bashket.Fat
