import Bashket.Fat.Chains

/-!
# Files as bytes

The bytes of a file are those of the clusters of its chain up to its size.  `write_locked` copies
its bytes in and puts zeroed clusters at the end of the chain where it has to, `fat_file_truncate`
cuts the chain and zeroes the rest of its last cluster, `read_chain` reads.
-/

namespace Bashket.Fat

open Bytes Program List
open Function (update update_eq_self update_idem update_self)

variable {L : Layout}

/-! ### The bytes of a chain -/

section Content

variable {v v' : View L} {cl : List ℕ} {c k q : ℕ}

theorem View.content_of_lt (h : q / L.clusterBytes < cl.length) :
    v.content cl q = v.byte cl[q / L.clusterBytes] (q % L.clusterBytes) := by
  simp only [View.content, getElem?_eq_getElem h]

theorem View.content_of_ge (h : cl.length ≤ q / L.clusterBytes) : v.content cl q = 0 := by
  simp only [View.content, getElem?_eq_none h]

theorem View.content_at (hL : L.Ok) (hk : k < cl.length) {p : ℕ} (hp : p < L.clusterBytes) :
    v.content cl (k * L.clusterBytes + p) = v.byte cl[k] p := by
  have hdiv : (k * L.clusterBytes + p) / L.clusterBytes = k := by
    rw [Nat.add_comm, Nat.add_mul_div_right _ _ hL.clusterBytes_pos, Nat.div_eq_of_lt hp,
      Nat.zero_add]
  have hmod : (k * L.clusterBytes + p) % L.clusterBytes = p := by
    rw [Nat.add_comm, Nat.add_mul_mod_self_right, Nat.mod_eq_of_lt hp]
  simp only [View.content, hdiv, hmod, getElem?_eq_getElem hk]

theorem View.content_congr (h : ∀ c ∈ cl, v'.byte c = v.byte c) : v'.content cl = v.content cl := by
  funext q
  rcases lt_or_ge (q / L.clusterBytes) cl.length with hq | hq
  · rw [View.content_of_lt hq, View.content_of_lt hq, h _ (getElem_mem hq)]
  · rw [View.content_of_ge hq, View.content_of_ge hq]

theorem View.content_concat (v : View L) (cl : List ℕ) (c q : ℕ) :
    v.content (cl ++ [c]) q =
      if q / L.clusterBytes = cl.length then v.byte c (q % L.clusterBytes) else v.content cl q := by
  simp only [View.content]
  split_ifs with h
  · rw [h, getElem?_concat_length]
  · rcases lt_or_ge (q / L.clusterBytes) cl.length with hq | hq
    · rw [getElem?_append_left hq]
    · rw [getElem?_eq_none hq, getElem?_eq_none (by simp; omega)]

theorem View.content_setCluster (hnd : cl.Nodup) (hk : k < cl.length) (m : Memory) (q : ℕ) :
    (v.setCluster cl[k] m).content cl q =
      if q / L.clusterBytes = k then m (q % L.clusterBytes) else v.content cl q := by
  rcases lt_or_ge (q / L.clusterBytes) cl.length with hq | hq
  · rw [View.content_of_lt hq, View.content_of_lt hq]
    split_ifs with h
    · subst h
      rw [View.setCluster_byte_self]
    · rw [View.setCluster_byte_of_ne]
      exact fun h0 => h (hnd.getElem_inj_iff.1 h0)
  · rw [View.content_of_ge hq, View.content_of_ge hq, if_neg (by omega)]

theorem View.content_take (v : View L) (cl : List ℕ) (k q : ℕ) :
    v.content (cl.take k) q = if q / L.clusterBytes < k then v.content cl q else 0 := by
  simp only [View.content, getElem?_take]
  split_ifs <;> rfl

end Content

/-! ### Reading -/

section Read

variable {v : View L} {cl : List ℕ}

theorem slice_sector (hL : L.Ok) {k within chunk : ℕ} (hk : k < cl.length) {sector : Memory}
    (hchunk : within % sectorSize + chunk ≤ sectorSize) (hin : within + chunk ≤ L.clusterBytes)
    (hsector : ∀ q, q / sectorSize = within / sectorSize →
      sector (q % sectorSize) = v.byte cl[k] q) :
    slice sector (within % sectorSize) chunk =
      slice (v.content cl) (k * L.clusterBytes + within) chunk := by
  refine map_congr_left fun i hi => ?_
  have hi := mem_range.1 hi
  have hq := hsector (within + i) (by simp only [sectorSize] at *; omega)
  rw [Nat.add_assoc, View.content_at hL hk (by omega), ← hq]
  congr 1
  simp only [sectorSize] at *
  omega

theorem ensures_readLoop (hL : L.Proper) (h : v.IsChain cl) {fuel k within steps left : ℕ}
    {out : List UInt8} (hw : within < L.clusterBytes)
    (hfit : k * L.clusterBytes + within + left ≤ cl.length * L.clusterBytes) (hsteps : steps ≤ k)
    (hfuel : left ≤ fuel) :
    Ensures (readLoop L fuel (cl.getD k 0) within steps left out) v fun v' r =>
      v' = v ∧ r = out ++ slice (v.content cl) (k * L.clusterBytes + within) left := by
  induction fuel generalizing k within steps left out with
  | zero =>
    obtain rfl : left = 0 := by omega
    exact .pure ⟨rfl, (append_nil out).symm⟩
  | succ fuel ih =>
    unfold readLoop
    rcases Nat.eq_zero_or_pos left with rfl | hleft
    · exact .pure ⟨rfl, (append_nil out).symm⟩
    have hk : k < cl.length :=
      Nat.lt_of_mul_lt_mul_right (show k * L.clusterBytes < cl.length * _ by omega)
    have hv := h.valid _ (getElem_mem hk)
    rw [getD_eq_getElem _ _ hk, if_neg (by rintro (h0 | h0); exacts [by omega, h0 hv])]
    refine (ensures_bcacheRead hv (L.div_lt_sectors hw)).bind fun v' sector hread => ?_
    obtain ⟨rfl, hsector⟩ := hread
    dsimp only
    generalize hchunk : min (sectorSize - within % sectorSize) left = chunk
    have hin : within + chunk ≤ L.clusterBytes := by
      simp only [Layout.clusterBytes, sectorSize] at *
      omega
    have hmod : within % sectorSize < sectorSize := Nat.mod_lt _ (by norm_num)
    rw [slice_sector hL.toOk hk (by omega) hin hsector]
    have hsplit := slice_append (v'.content cl) (k * L.clusterBytes + within) chunk (left - chunk)
    rw [Nat.add_sub_cancel' (by omega)] at hsplit
    have hsucc : (k + 1) * L.clusterBytes = k * L.clusterBytes + L.clusterBytes := by ring
    split
    next hend =>
      refine (ensures_nextCluster hL.toOk _).bind fun v'' n hn => ?_
      obtain ⟨rfl, rfl⟩ := hn
      have hlen := h.length_le
      rw [if_neg (by omega), h.follow hL hk]
      refine (ih (k := k + 1) hL.clusterBytes_pos (by omega) (by omega) (by omega)).mono
        fun v' r hr => ⟨hr.1, ?_⟩
      rw [hr.2, hsplit, append_assoc, Nat.add_zero, hsucc, ← hend, Nat.add_assoc]
    next hend =>
      rw [← getD_eq_getElem _ 0 hk]
      refine (ih (k := k) (by omega) (by omega) hsteps (by omega)).mono fun v' r hr => ⟨hr.1, ?_⟩
      rw [hr.2, hsplit, append_assoc, Nat.add_assoc]

theorem ensures_readChain (hL : L.Proper) (h : v.IsChain cl) {limit : ℕ}
    (hlimit : limit ≤ cl.length * L.clusterBytes) (offset count : ℕ) :
    Ensures (readChain L (cl.headD 0) limit offset count) v fun v' r =>
      v' = v ∧ r = slice (v.content cl) offset (min count (limit - offset)) := by
  unfold readChain
  split
  next hge =>
    rw [Nat.sub_eq_zero_of_le hge, Nat.min_zero]
    exact .pure ⟨rfl, rfl⟩
  next hlt =>
    rw [headD_eq_getD]
    refine (ensures_skipClusters hL h _ 0).bind fun v' n hn => ?_
    obtain ⟨rfl, rfl⟩ := hn
    have hdiv := Nat.div_add_mod offset L.clusterBytes
    rw [Nat.mul_comm] at hdiv
    rw [Nat.zero_add]
    refine (ensures_readLoop hL h (Nat.mod_lt _ hL.clusterBytes_pos) (by omega) (Nat.zero_le _)
      le_rfl).mono fun v'' r hr => ⟨hr.1, ?_⟩
    rw [hr.2, nil_append, hdiv]

end Read

/-! ### Writing -/

/-- The chain `cl₀` of the file `i` has become `cl`, by clusters that were free, and nothing outside
it has changed. -/
structure View.Extends (v₀ v : View L) (i : ℕ) (cl₀ cl : List ℕ) : Prop where
  chain : v.IsChain cl
  grown : ∃ new, cl = cl₀ ++ new ∧ ∀ c ∈ new, v₀.IsFree c
  entry : ∀ c, c ∉ cl → v.entry c = v₀.entry c
  byte : ∀ c, c ∉ cl → v.byte c = v₀.byte c
  nodes : v.nodes = update v₀.nodes i { v₀.nodes i with firstCluster := cl.headD 0 }
  hint : v.HintOk

namespace View.Extends

variable {v₀ v v' : View L} {i c k : ℕ} {cl₀ cl : List ℕ}

theorem refl (h : v.IsChain cl) (hfirst : (v.nodes i).firstCluster = cl.headD 0)
    (hhint : v.HintOk) : v.Extends v i cl cl := by
  refine ⟨h, ⟨[], (append_nil cl).symm, nofun⟩, fun _ _ => rfl, fun _ _ => rfl, ?_, hhint⟩
  rw [← hfirst, update_eq_self]

theorem isFree_iff (h : v₀.Extends v i cl₀ cl) : v.IsFree c ↔ v₀.IsFree c ∧ c ∉ cl := by
  constructor
  · intro hc
    have hnot : c ∉ cl := fun h0 => h.chain.entry_ne_zero h0 hc.2
    exact ⟨⟨hc.1, (h.entry c hnot).symm.trans hc.2⟩, hnot⟩
  · rintro ⟨hc, hnot⟩
    exact ⟨hc.1, (h.entry c hnot).trans hc.2⟩

theorem setCluster (h : v₀.Extends v i cl₀ cl) (hc : c ∈ cl) (m : Memory) :
    v₀.Extends (v.setCluster c m) i cl₀ cl := by
  refine ⟨h.chain.congr fun _ _ => rfl, h.grown, h.entry, fun d hd => ?_, h.nodes, h.hint⟩
  rw [View.setCluster_byte_of_ne _ _ (by rintro rfl; exact hd hc)]
  exact h.byte d hd

theorem add (h : v₀.Extends v i cl₀ cl) (hc : v.IsFree c) (hchain : v'.IsChain (cl ++ [c]))
    (hentry : ∀ d, d ∉ cl ++ [c] → v'.entry d = v.entry d)
    (hbyte : ∀ d, d ≠ c → v'.byte d = v.byte d)
    (hnodes : v'.nodes = update v.nodes i
      { v.nodes i with firstCluster := (cl ++ [c]).headD 0 })
    (hhint : v'.HintOk) : v₀.Extends v' i cl₀ (cl ++ [c]) := by
  obtain ⟨new, hnew, hfree⟩ := h.grown
  refine ⟨hchain, ⟨new ++ [c], by rw [hnew, append_assoc], fun d hd => ?_⟩, fun d hd => ?_,
    fun d hd => ?_, ?_, hhint⟩
  · rcases mem_append.1 hd with hd | hd
    · exact hfree d hd
    · rw [mem_singleton.1 hd]
      exact (h.isFree_iff.1 hc).1
  · rw [hentry d hd]
    exact h.entry d fun h0 => hd (mem_append_left _ h0)
  · rw [hbyte d (by rintro rfl; exact hd (mem_append_right _ (mem_singleton_self _)))]
    exact h.byte d fun h0 => hd (mem_append_left _ h0)
  · rw [hnodes, h.nodes, update_idem, update_self]

end View.Extends

section Write

variable {v₀ v : View L} {i k offset : ℕ} {cl₀ cl : List ℕ} {data : List UInt8} {w : Walk}

/-- Where `write_locked` stands before cluster number `k` of the file. -/
structure Writing (v₀ v : View L) (i : ℕ) (cl₀ cl : List ℕ) (offset : ℕ) (data : List UInt8) (k : ℕ)
    (w : Walk) : Prop where
  ext : v₀.Extends v i cl₀ cl
  length : cl.length = max cl₀.length k
  content : v.content cl = copyIn (v₀.content cl₀) offset (data.take (k * L.clusterBytes - offset))
  previous : w.previous = (0 :: cl).getD k 0
  cluster : w.cluster = cl.getD k 0
  done : w.done = min (k * L.clusterBytes - offset) data.length
  changed : w.firstClusterChanged = true ↔ cl₀ = [] ∧ cl ≠ []

/-- The state of the walk at cluster number `k`, which is now there: what the write covers of it may
hold anything. -/
structure AtCluster (v₀ v : View L) (i : ℕ) (cl₀ cl : List ℕ) (offset : ℕ) (data : List UInt8)
    (k : ℕ) (w : Walk) : Prop where
  ext : v₀.Extends v i cl₀ cl
  length : cl.length = max cl₀.length (k + 1)
  content : ∀ q, ¬ (q / L.clusterBytes = k ∧ offset ≤ q ∧ q < offset + data.length) →
    v.content cl q = copyIn (v₀.content cl₀) offset (data.take (k * L.clusterBytes - offset)) q
  cluster : w.cluster = cl.getD k 0
  done : w.done = min (k * L.clusterBytes - offset) data.length
  changed : w.firstClusterChanged = true ↔ cl₀ = [] ∧ cl ≠ []

theorem Writing.first (h : Writing v₀ v i cl₀ cl offset data k w) :
    (v.nodes i).firstCluster = cl.headD 0 := by
  rw [h.ext.nodes, update_self]

theorem Writing.ensures_linkCluster (hL : L.Proper) (h : Writing v₀ v i cl₀ cl offset data k w)
    (hk : cl.length = k) {c : ℕ} (hc : v.IsFree c) {v₁ : View L}
    (hentry : v₁.entry = (v.setEntry c fatEndMark).entry)
    (hbyte : ∀ d, d ≠ c → v₁.byte d = v.byte d)
    (hnodes : v₁.nodes = v.nodes) (hhint : v₁.HintOk) :
    Ensures (linkCluster L i c w) v₁ fun v' r => ∃ w', r = some w' ∧
      v₀.Extends v' i cl₀ (cl ++ [c]) ∧ v'.byte = v₁.byte ∧ w'.cluster = c ∧ w'.done = w.done ∧
      (w'.firstClusterChanged = true ↔ cl₀ = [] ∧ cl ++ [c] ≠ []) := by
  have hnot : c ∉ cl := (h.ext.isFree_iff.1 hc).2
  have hmark : fatEnd ≤ v₁.entry c := by
    rw [hentry, View.setEntry_entry_self]
    decide
  have hkept : ∀ d, d ≠ c → v₁.entry d = v.entry d := fun d hd => by
    rw [hentry, View.setEntry_entry_of_ne _ _ hd]
  unfold linkCluster
  rcases eq_nil_or_concat' cl with rfl | ⟨cl', last, rfl⟩
  · obtain rfl : k = 0 := hk.symm
    have hcl₀ : cl₀ = [] := by
      obtain ⟨new, hnew, -⟩ := h.ext.grown
      exact (append_eq_nil_iff.1 hnew.symm).1
    rw [h.previous]
    refine (ensures_node i).bind fun v₂ info hinfo => ?_
    obtain ⟨rfl, rfl⟩ := hinfo
    refine (ensures_setNode i _).bind fun v₃ _ h₃ => ?_
    subst h₃
    refine .pure ⟨_, rfl, h.ext.add hc ?_ (fun d hd => hkept d (by simpa using hd)) hbyte ?_ hhint,
      rfl, rfl, rfl, by simp [hcl₀]⟩
    · exact View.IsChain.push h.ext.chain hc.1 hnot nofun hmark nofun
    · simp only [View.setNode, hnodes, nil_append, headD_cons]
  · have hlast : L.validCluster last := h.ext.chain.valid last (by simp)
    have hne : last ≠ c := by rintro rfl; exact hnot (by simp)
    have hprev : w.previous = last := by
      rw [h.previous, ← hk]
      simp
    have hsmall : c % 2 ^ 28 = c := by
      have := hc.1.2
      have := hL.small
      exact Nat.mod_eq_of_lt (by omega)
    rw [hprev, if_pos hlast.pos]
    refine (ensures_setFatEntry hL.toOk hlast c).bind fun v₂ ok hok => ?_
    obtain ⟨rfl, rfl⟩ := hok
    refine .pure ⟨_, rfl, h.ext.add hc ?_ ?_ hbyte ?_ hhint, rfl, rfl, rfl, ?_⟩
    · refine View.IsChain.push h.ext.chain hc.1 hnot (fun d hd => ?_) ?_ fun d hd hd' => ?_
      · rw [getLast?_concat] at hd
        rw [← Option.some.inj hd, View.setEntry_entry_self, hsmall]
      · rwa [View.setEntry_entry_of_ne _ _ hne.symm]
      · rw [View.setEntry_entry_of_ne, hkept d (by rintro rfl; exact hnot hd)]
        rintro rfl
        exact hd' (by simp)
    · intro d hd
      have hd' : d ∉ cl' ++ [last] ∧ d ≠ c := by simpa [and_assoc] using hd
      rw [View.setEntry_entry_of_ne, hkept d hd'.2]
      rintro rfl
      exact hd'.1 (by simp)
    · have hhead : (cl' ++ [last] ++ [c]).headD 0 = (v.nodes i).firstCluster := by
        rw [h.first]
        cases cl' <;> rfl
      rw [hhead, update_eq_self]
      exact hnodes
    · simp only [h.changed, ne_eq, append_eq_nil_iff, cons_ne_self, and_false]

theorem Writing.ensures_reachCluster (hL : L.Proper) (h : Writing v₀ v i cl₀ cl offset data k w) :
    Ensures (reachCluster L i offset (offset + data.length) (k * L.clusterBytes) w) v fun v' r =>
      (r = none ∧ v' = v ∧ cl.length = k ∧ ∀ c, ¬ v.IsFree c) ∨
        ∃ w' cl', r = some w' ∧ AtCluster v₀ v' i cl₀ cl' offset data k w' := by
  have hlen := h.length
  unfold reachCluster
  rw [h.cluster]
  rcases lt_or_ge k cl.length with hk | hk
  · rw [if_pos (h.ext.chain.getD_valid.2 hk)]
    refine .pure (.inr ⟨w, cl, rfl, h.ext, by omega, fun q _ => ?_, h.cluster, h.done, h.changed⟩)
    rw [h.content]
  · rw [if_neg (mt h.ext.chain.getD_valid.1 (by omega))]
    refine (ensures_allocateCluster hL h.ext.hint).bind fun v₁ c hc => ?_
    rcases hc with ⟨rfl, rfl, hfull⟩ | ⟨hfree, rfl⟩
    · exact .pure (.inl ⟨rfl, rfl, by omega, hfull⟩)
    rw [if_neg hfree.1.pos]
    have hhint : View.HintOk { v.setEntry c fatEndMark with allocHint := c + 1 } :=
      ⟨Nat.le_succ_of_le hfree.1.1, hfree.1.2⟩
    -- the bytes that the write will not cover are zeroed
    have hzero : Ensures ((zeroCluster L c).when
        ¬ (offset ≤ k * L.clusterBytes ∧
          offset + data.length ≥ k * L.clusterBytes + L.clusterBytes))
        { v.setEntry c fatEndMark with allocHint := c + 1 } fun v' _ =>
          v'.entry = (v.setEntry c fatEndMark).entry ∧ (∀ d, d ≠ c → v'.byte d = v.byte d) ∧
            v'.nodes = v.nodes ∧ v'.HintOk ∧
            (¬ (offset ≤ k * L.clusterBytes ∧
              offset + data.length ≥ k * L.clusterBytes + L.clusterBytes) →
              ∀ q < L.clusterBytes, v'.byte c q = 0) := by
      refine .when (fun _ => (ensures_zeroCluster hL.toOk hfree.1).mono fun v' _ hv' => ?_)
        fun hcov => ⟨rfl, fun _ _ => rfl, rfl, hhint, fun h0 => absurd h0 hcov⟩
      subst hv'
      refine ⟨rfl, fun d hd => View.setCluster_byte_of_ne _ _ hd, rfl, hhint, fun _ q hq => ?_⟩
      rw [View.zeroed, View.setCluster_byte_self, if_pos ⟨Nat.zero_le q, hq⟩]
    refine hzero.bind fun v₂ _ h₂ => ?_
    obtain ⟨hentry, hbyte, hnodes, hhint₂, hz⟩ := h₂
    refine (h.ensures_linkCluster hL (by omega) hfree hentry hbyte hnodes hhint₂).mono
      fun v' r hr => ?_
    obtain ⟨w', rfl, hext, hbyte', hcluster, hdone, hchanged⟩ := hr
    have hlen' : cl.length = k := by omega
    refine .inr ⟨w', cl ++ [c], rfl, hext, ?_, fun q hq => ?_, ?_, hdone.trans h.done, hchanged⟩
    · rw [length_append, length_singleton]
      omega
    · have hnot : c ∉ cl := (h.ext.isFree_iff.1 hfree).2
      have hold : v'.content cl = v.content cl := View.content_congr fun d hd => by
        rw [hbyte', hbyte d (by rintro rfl; exact hnot hd)]
      rw [View.content_concat, hold, ← h.content, hbyte', hlen']
      split
      next hqk =>
        rw [View.content_of_ge (by omega), hz ?_ _ (Nat.mod_lt _ hL.clusterBytes_pos)]
        rintro ⟨h1, h2⟩
        have hpos := hL.clusterBytes_pos
        obtain ⟨hlo, hhi⟩ := (Nat.div_eq_iff hpos).1 hqk
        exact hq ⟨hqk, by omega, by omega⟩
      next => rfl
    · rw [hcluster, ← hlen']
      simp

/-- The bytes a write puts into the cluster at `position`: how many they are, and where. -/
theorem length_part {position done len : ℕ}
    (hdone : done = min (position - offset) data.length) (hpos : position < offset + data.length)
    (hlen : len = if position + L.clusterBytes > offset then
      min (offset + data.length - position) L.clusterBytes - (offset - position) else 0) :
    min len (data.length - done) = len ∧ (0 < len → offset - position + len ≤ L.clusterBytes) ∧
      done + len = min (position + L.clusterBytes - offset) data.length := by
  split at hlen <;> omega

theorem mem_part {position q len : ℕ} (hpos : position < offset + data.length)
    (hlen : len = if position + L.clusterBytes > offset then
      min (offset + data.length - position) L.clusterBytes - (offset - position) else 0)
    (hlo : position ≤ q) (hhi : q < position + L.clusterBytes) :
    (offset - position ≤ q - position ∧ q - position < offset - position + len) ↔
      offset ≤ q ∧ q < offset + data.length := by
  split at hlen <;> omega

theorem AtCluster.next (hL : L.Ok) (h : AtCluster v₀ v i cl₀ cl offset data k w)
    (hk : k * L.clusterBytes < offset + data.length) {len : ℕ}
    (hlen : len = if k * L.clusterBytes + L.clusterBytes > offset then
      min (offset + data.length - k * L.clusterBytes) L.clusterBytes - (offset - k * L.clusterBytes)
      else 0) :
    Writing v₀ (v.setCluster w.cluster (copyIn (v.byte w.cluster) (offset - k * L.clusterBytes)
      ((data.drop w.done).take len))) i cl₀ cl offset data (k + 1)
      { w with done := w.done + len, previous := w.cluster, cluster := cl.getD (k + 1) 0 } := by
  have hklt : k < cl.length := by have := h.length; omega
  have hcl : w.cluster = cl[k] := by rw [h.cluster, getD_eq_getElem _ _ hklt]
  obtain ⟨hpart, -, hsum⟩ := length_part h.done hk hlen
  have hsucc : (k + 1) * L.clusterBytes = k * L.clusterBytes + L.clusterBytes := by ring
  have hmem : w.cluster ∈ cl := hcl ▸ getElem_mem hklt
  refine ⟨h.ext.setCluster hmem _, h.length, ?_, ?_, rfl, ?_, h.changed⟩
  · funext q
    rw [hcl, View.content_setCluster h.ext.chain.nodup hklt]
    by_cases hq : q / L.clusterBytes = k
    · have hmod : q % L.clusterBytes = q - k * L.clusterBytes := by
        rw [← hq, Nat.mod_eq_sub_div_mul]
      have hlt := Nat.mod_lt q hL.clusterBytes_pos
      have hlo : k * L.clusterBytes ≤ q := hq ▸ Nat.div_mul_le_self q _
      have hin := mem_part hk hlen hlo (by omega)
      rw [if_pos hq, copyIn_take, copyIn_take, length_drop, hpart, hmod]
      by_cases hcov : offset ≤ q ∧ q < offset + data.length
      · rw [if_pos (hin.2 hcov), if_pos (by omega), getD_eq_getElem?_getD, getElem?_drop,
          ← getD_eq_getElem?_getD]
        congr 1
        have := h.done
        omega
      · have hold := h.content q fun h0 => hcov h0.2
        rw [View.content_of_lt (by omega), copyIn_take, if_neg (by omega), hmod] at hold
        simp only [hq] at hold
        rw [if_neg (mt hin.1 hcov), if_neg (by omega), hold]
    · have hout : q < k * L.clusterBytes ∨ k * L.clusterBytes + L.clusterBytes ≤ q := by
        by_contra hcon
        exact hq (Nat.div_eq_of_lt_le (by omega) (by omega))
      rw [if_neg hq, h.content q fun h0 => hq h0.1, copyIn_take, copyIn_take]
      congr 1
      simp only [eq_iff_iff]
      omega
  · rw [hcl, getD_cons_succ, getD_eq_getElem _ _ hklt]
  · rw [hsum, hsucc]

theorem Writing.ensures_writeLoop (hL : L.Proper) (fuel : ℕ)
    (h : Writing v₀ v i cl₀ cl offset data k w)
    (hfuel : offset + data.length ≤ k * L.clusterBytes + fuel) :
    Ensures (writeLoop L i offset data fuel (k * L.clusterBytes) w) v fun v' w' =>
      ∃ k' cl', Writing v₀ v' i cl₀ cl' offset data k' w' ∧
        (offset + data.length ≤ k' * L.clusterBytes ∨ cl'.length = k' ∧ ∀ c, ¬ v'.IsFree c) := by
  have hpos := hL.clusterBytes_pos
  induction fuel generalizing v cl k w with
  | zero => exact .pure ⟨k, cl, h, .inl hfuel⟩
  | succ fuel ih =>
    unfold writeLoop
    dsimp only
    by_cases hmore : k * L.clusterBytes < offset + data.length
    swap
    · rw [if_pos hmore]
      exact .pure ⟨k, cl, h, .inl (by omega)⟩
    rw [if_neg (not_not_intro hmore)]
    refine (h.ensures_reachCluster hL).bind fun v₁ r hr => ?_
    rcases hr with ⟨rfl, rfl, hfull⟩ | ⟨w', cl', rfl, hat⟩
    · exact .pure ⟨k, cl, h, .inr hfull⟩
    generalize hlen : (if k * L.clusterBytes + L.clusterBytes > offset then
      min (offset + data.length - k * L.clusterBytes) L.clusterBytes - (offset - k * L.clusterBytes)
      else 0) = len
    obtain ⟨hpart, hfit, -⟩ := length_part hat.done hmore hlen.symm
    have hk : k < cl'.length := by have := hat.length; omega
    have hv : L.validCluster w'.cluster := by
      rw [hat.cluster]
      exact hat.ext.chain.getD_valid.2 hk
    have hwrite : Ensures (writeSectors L w'.cluster len (offset - k * L.clusterBytes)
        ((data.drop w'.done).take len)) v₁ fun v' _ =>
          v' = v₁.setCluster w'.cluster (copyIn (v₁.byte w'.cluster) (offset - k * L.clusterBytes)
            ((data.drop w'.done).take len)) := by
      have hlength : ((data.drop w'.done).take len).length = len := by
        rw [length_take, length_drop, hpart]
      rcases Nat.eq_zero_or_pos len with rfl | hlenpos
      · rw [take_zero, copyIn_nil, View.setCluster_byte]
        exact .pure rfl
      · exact ensures_writeSectors hL.toOk hv hlength.le (by rw [hlength]; exact hfit hlenpos)
    refine hwrite.bind fun v₂ _ h₂ => ?_
    subst h₂
    refine (ensures_nextCluster hL.toOk _).bind fun v₃ n hn => ?_
    obtain ⟨rfl, rfl⟩ := hn
    have hnext := hat.next hL.toOk hmore hlen.symm
    have hfollow := hnext.ext.chain.follow hL hk
    rw [← getD_eq_getElem _ 0 hk, ← hat.cluster] at hfollow
    rw [hfollow, show k * L.clusterBytes + L.clusterBytes = (k + 1) * L.clusterBytes by ring]
    exact ih hnext (by rw [Nat.add_mul]; omega)

end Write

/-! ### The directory entry -/

/-- The directory entry of a node is in sector `s` of the cluster `d`. -/
structure Node.At (n : Node L) (d s : ℕ) : Prop where
  valid : L.validCluster d
  sector : s < L.sectorsPerCluster
  lba : n.entryLba = L.clusterToSector d + s

/-- The bytes of a cluster with a directory entry in its sector `s`, the entry changed. -/
def stampCluster (m : Memory) (s offset firstCluster size : ℕ) (now : Now) : Memory := fun q =>
  if q / sectorSize = s then
    stampEntry (fun p => m (s * sectorSize + p)) offset firstCluster size now (q % sectorSize)
  else m q

theorem stampEntry_congr {m m' : Memory} {p : ℕ} (h : m p = m' p) (offset first size : ℕ)
    (now : Now) :
    stampEntry m offset first size now p = stampEntry m' offset first size now p := by
  simp only [stampEntry, put16, put32, put8, h]

theorem ensures_updateEntry (hL : L.Ok) {v : View L} (info : Node L) {d s : ℕ} (h : info.At d s)
    (first size : ℕ) (now : Now) :
    Ensures (updateEntry L info first size now) v fun v' _ =>
      v' = v.setCluster d (stampCluster (v.byte d) s info.entryOffset first size now) := by
  have hne : info.entryLba ≠ 0 := by
    have := L.dataStart_le d s
    have := hL.data_eq
    have := hL.fat_pos
    rw [h.lba]
    omega
  unfold updateEntry
  rw [if_neg hne, h.lba]
  refine (ensures_bcacheRead h.valid h.sector).bind fun v₁ sector h₁ => ?_
  obtain ⟨rfl, hsector⟩ := h₁
  refine (ensures_bcacheWrite hL h.valid h.sector _).mono fun v' _ hv' => ?_
  rw [hv']
  congr 1
  funext q
  unfold stampCluster
  split
  next hq =>
    refine stampEntry_congr ?_ _ _ _ _
    rw [hsector q hq, ← hq, Nat.div_add_mod']
  next => rfl

/-- What `write_locked` has done: `done` bytes of `data` are in the file `i`, whose chain `cl` has
become `cl'`; its directory entry is in sector `s` of the cluster `d`. -/
structure Wrote (v v' : View L) (i d s : ℕ) (cl cl' : List ℕ) (offset : ℕ) (data : List UInt8)
    (done : ℕ) (now : Now) : Prop where
  chain : v'.IsChain cl'
  grown : ∃ new, cl' = cl ++ new ∧ ∀ c ∈ new, v.IsFree c
  long : 0 < done → offset + done ≤ cl'.length * L.clusterBytes
  entry : ∀ c, c ∉ cl' → v'.entry c = v.entry c
  byte : ∀ c, c ∉ cl' → c ≠ d → v'.byte c = v.byte c
  dir : v'.byte d = if 0 < done ∨ cl = [] ∧ cl' ≠ [] then
      stampCluster (v.byte d) s (v.nodes i).entryOffset (cl'.headD 0)
        (max (if 0 < done then offset + done else 0) (v.nodes i).size) now
    else v.byte d
  content : v'.content cl' = copyIn (v.content cl) offset (data.take done)
  nodes : ∃ mtime, v'.nodes = update v.nodes i
    { v.nodes i with
      firstCluster := cl'.headD 0
      size := max (if 0 < done then offset + done else 0) (v.nodes i).size
      mtime }
  hint : v'.HintOk
  all : done = data.length ∨
    cl'.length * L.clusterBytes < offset + data.length ∧ ∀ c, ¬ v'.IsFree c

section WriteLocked

variable {v u : View L} {i d s offset k : ℕ} {cl cl' : List ℕ} {data : List UInt8} {w : Walk}

theorem Writing.start (h : v.IsChain cl) (hhint : v.HintOk)
    (hfirst : (v.nodes i).firstCluster = cl.headD 0) :
    Writing v v i cl cl offset data 0
      { cluster := cl.headD 0, previous := 0, done := 0, firstClusterChanged := false } := by
  refine ⟨.refl h hfirst hhint, by omega, ?_, rfl, headD_eq_getD cl, by simp, ?_⟩
  · rw [Nat.zero_mul, Nat.zero_sub, take_zero, copyIn_nil]
  · simp only [Bool.false_eq_true, false_iff]
    exact fun h0 => h0.2 h0.1

theorem Writing.ensures_recordWrite (hL : L.Proper) {now : Now}
    (hw : Writing v u i cl cl' offset data k w) (hdir : (v.nodes i).At d s) (hd : d ∉ cl')
    (hall : offset + data.length ≤ k * L.clusterBytes ∨ cl'.length = k ∧ ∀ c, ¬ u.IsFree c) :
    Ensures ((recordWrite L i offset w now).when (w.done > 0 ∨ w.firstClusterChanged)) u
      fun v' _ => Wrote v v' i d s cl cl' offset data w.done now := by
  have hlen := hw.length
  have hdone := hw.done
  have hnodes := hw.ext.nodes
  have hlong : 0 < w.done → offset + w.done ≤ cl'.length * L.clusterBytes := fun h0 => by
    have := Nat.mul_le_mul_right L.clusterBytes (show k ≤ cl'.length by omega)
    omega
  have hcontent : u.content cl' = copyIn (v.content cl) offset (data.take w.done) := by
    rw [hw.content, hdone, ← take_eq_take_min]
  have hend : w.done = data.length ∨
      cl'.length * L.clusterBytes < offset + data.length ∧ ∀ c, ¬ u.IsFree c := by
    rcases hall with h0 | ⟨rfl, hfull⟩
    · exact .inl (by omega)
    · by_cases h0 : cl'.length * L.clusterBytes < offset + data.length
      · exact .inr ⟨h0, hfull⟩
      · exact .inl (by omega)
  refine .when (fun hrec => ?_) fun hrec => ?_
  · rw [hw.changed] at hrec
    refine (ensures_node i).bind fun u₁ info hinfo => ?_
    obtain ⟨rfl, rfl⟩ := hinfo
    rw [hnodes, update_self]
    refine (ensures_updateEntry hL.toOk { v.nodes i with firstCluster := cl'.headD 0 }
      ⟨hdir.valid, hdir.sector, hdir.lba⟩ _ _ now).bind fun u₂ _ h₂ => ?_
    subst h₂
    refine (ensures_setNode i _).mono fun v' _ hv' => ?_
    subst hv'
    refine ⟨hw.ext.chain.congr fun _ _ => rfl, hw.ext.grown, hlong, hw.ext.entry,
      fun c hc hcd => ?_, ?_, ?_, ⟨now.seconds, ?_⟩, hw.ext.hint, hend⟩
    · exact (View.setCluster_byte_of_ne _ _ hcd).trans (hw.ext.byte c hc)
    · rw [if_pos hrec, ← hw.ext.byte d hd]
      exact View.setCluster_byte_self _ _ _
    · rw [← hcontent]
      exact View.content_congr fun c hc =>
        View.setCluster_byte_of_ne _ _ (by rintro rfl; exact hd hc)
    · simp only [View.setNode, View.setCluster, hnodes, update_idem]
  · rw [hw.changed, not_or] at hrec
    have hzero : w.done = 0 := by omega
    refine ⟨hw.ext.chain, hw.ext.grown, hlong, hw.ext.entry, fun c hc _ => hw.ext.byte c hc, ?_,
      hcontent, ⟨(v.nodes i).mtime, ?_⟩, hw.ext.hint, hend⟩
    · rw [if_neg (not_or.2 hrec)]
      exact hw.ext.byte d hd
    · rw [hnodes, hzero, if_neg (lt_irrefl 0), Nat.zero_max]

theorem Writing.length_le (hL : L.Proper) (hw : Writing v u i cl cl' offset data k w)
    (hdata : data ≠ []) (h0 : w.done = 0) :
    cl'.length ≤ max cl.length (offset / L.clusterBytes) := by
  have hlen := hw.length
  have hdone := hw.done
  have hpos := length_pos_iff.2 hdata
  have hk : k ≤ offset / L.clusterBytes := by
    rw [Nat.le_div_iff_mul_le hL.clusterBytes_pos]
    omega
  omega

theorem ensures_writeLocked (hL : L.Proper) {now : Now} (h : v.IsChain cl) (hhint : v.HintOk)
    (hfirst : (v.nodes i).firstCluster = cl.headD 0) (hdir : (v.nodes i).At d s) (hd : d ∉ cl)
    (hused : ¬ v.IsFree d) (hdata : data ≠ []) :
    Ensures (writeLocked L i offset data now) v fun v' r => ∃ cl' done,
      Wrote v v' i d s cl cl' offset data done now ∧
        (done = 0 → cl'.length ≤ max cl.length (offset / L.clusterBytes)) ∧
        r = if done = 0 then .error .nospc else .ok done := by
  refine (ensures_node i).bind fun v₁ info hinfo => ?_
  obtain ⟨rfl, rfl⟩ := hinfo
  have hstart : Writing v₁ v₁ i cl cl offset data 0 _ := .start h hhint hfirst
  have hloop := hstart.ensures_writeLoop hL (offset + data.length) (by omega)
  rw [Nat.zero_mul] at hloop
  rw [hfirst]
  refine hloop.bind fun u w hw => ?_
  obtain ⟨k, cl', hw, hall⟩ := hw
  have hd' : d ∉ cl' := by
    obtain ⟨new, rfl, hnew⟩ := hw.ext.grown
    rw [mem_append, not_or]
    exact ⟨hd, fun h0 => hused (hnew d h0)⟩
  refine (hw.ensures_recordWrite hL hdir hd' hall).bind fun v' _ hv' => ?_
  split
  next h0 => exact .pure ⟨cl', w.done, hv', hw.length_le hL hdata, by rw [if_pos h0.1]⟩
  next h0 =>
    exact .pure ⟨cl', w.done, hv', hw.length_le hL hdata, by rw [if_neg fun h1 => h0 ⟨h1, hdata⟩]⟩

end WriteLocked

/-! ### Cutting -/

/-- What `fat_file_truncate` has done: the chain `cl` of the file `i` is cut to `cl'`, for `size`
bytes. -/
structure Cut (v v' : View L) (i d s : ℕ) (cl cl' : List ℕ) (size : ℕ) (now : Now) : Prop where
  kept : ∃ k, cl' = cl.take k
  chain : v'.IsChain cl'
  long : size ≤ cl'.length * L.clusterBytes
  entry : ∀ c, c ∉ cl → v'.entry c = v.entry c
  freed : ∀ c ∈ cl, c ∉ cl' → v'.entry c = 0
  byte : ∀ c, c ∉ cl → c ≠ d → v'.byte c = v.byte c
  dir : v'.byte d =
    stampCluster (v.byte d) s (v.nodes i).entryOffset (cl'.headD 0) size now
  content : v'.content cl' = fun q => if q < size then v.content cl q else 0
  nodes : ∃ mtime, v'.nodes = update v.nodes i
    { v.nodes i with firstCluster := cl'.headD 0, size, mtime }
  hint : v'.HintOk

section Truncate

variable {v : View L} {i d s size k : ℕ} {cl : List ℕ} {now : Now}

/-- The bytes that are left when the chain is cut after cluster number `k`, and the rest of that
cluster is zeroed. -/
theorem content_zeroRest (hL : L.Ok) (hnd : cl.Nodup) (hk : k < cl.length)
    (hlo : k * L.clusterBytes < size) (hhi : size ≤ k * L.clusterBytes + L.clusterBytes) :
    (if size % L.clusterBytes = 0 then v
        else v.zeroed cl[k] (size % L.clusterBytes) L.clusterBytes).content (cl.take (k + 1)) =
      fun q => if q < size then v.content cl q else 0 := by
  have hpos := hL.clusterBytes_pos
  have hmod : size % L.clusterBytes = if size = k * L.clusterBytes + L.clusterBytes then 0
      else size - k * L.clusterBytes := by
    split
    next h => rw [h, ← Nat.succ_mul, Nat.mul_mod_left]
    next h =>
      rw [show size = size - k * L.clusterBytes + k * L.clusterBytes by omega,
        Nat.add_mul_mod_self_right, Nat.mod_eq_of_lt (by omega), Nat.add_sub_cancel]
  funext q
  rw [View.content_take]
  have hdiv : q / L.clusterBytes < k + 1 ↔ q < k * L.clusterBytes + L.clusterBytes := by
    rw [Nat.div_lt_iff_lt_mul hpos, Nat.succ_mul]
  by_cases hq : q < k * L.clusterBytes + L.clusterBytes
  swap
  · rw [if_neg (mt hdiv.1 hq), if_neg (by omega)]
  rw [if_pos (hdiv.2 hq)]
  by_cases hfull : size = k * L.clusterBytes + L.clusterBytes
  · rw [if_pos (by rw [hmod, if_pos hfull]), if_pos (by omega)]
  · rw [if_neg hfull] at hmod
    rw [if_neg (by omega), View.zeroed, View.content_setCluster hnd hk]
    by_cases hqk : q / L.clusterBytes = k
    · have hqmod : q % L.clusterBytes = q - k * L.clusterBytes := by
        rw [← hqk, Nat.mod_eq_sub_div_mul]
      rw [if_pos hqk]
      by_cases hin : q < size
      · rw [if_neg (by omega), if_pos hin, View.content_of_lt (by omega), hqmod]
        simp only [hqk]
      · rw [if_pos (by omega), if_neg hin]
    · rw [if_neg hqk, if_pos]
      by_contra hin
      exact hqk (Nat.div_eq_of_lt_le (by omega) (by rw [Nat.succ_mul]; omega))

/-- The chain `cl` is cut after cluster number `k`. -/
structure View.CutAfter (v v' : View L) (cl : List ℕ) (k : ℕ) : Prop where
  chain : v'.IsChain (cl.take (k + 1))
  entry : ∀ c, c ∉ cl → v'.entry c = v.entry c
  freed : ∀ c ∈ cl, c ∉ cl.take (k + 1) → v'.entry c = 0
  byte : v'.byte = v.byte
  nodes : v'.nodes = v.nodes
  hint : v'.HintOk

theorem ensures_cutChain (hL : L.Proper) (h : v.IsChain cl) (hhint : v.HintOk)
    (hk : k < cl.length) :
    Ensures (cutChain L cl[k] (cl.getD (k + 1) 0)) v fun v' ok =>
      v.CutAfter v' cl k ∧ ok = true := by
  unfold cutChain
  rcases Nat.lt_or_ge (k + 1) cl.length with hmore | hend
  swap
  · rw [if_pos (mt h.getD_valid.1 (by omega))]
    have hall : cl.take (k + 1) = cl := take_of_length_le hend
    refine .pure ⟨⟨?_, fun _ _ => rfl, fun c hc hn => ?_, rfl, rfl, hhint⟩, rfl⟩
    · rwa [hall]
    · exact absurd (hall.symm ▸ hc) hn
  rw [if_neg (not_not_intro (h.getD_valid.2 hmore))]
  have hv := h.valid _ (getElem_mem hk)
  refine (ensures_setFatEntry hL.toOk hv _).bind fun v₁ ok hok => ?_
  obtain ⟨rfl, rfl⟩ := hok
  have hnd := h.nodup
  rw [← take_append_drop (k + 1) cl, nodup_append] at hnd
  have hmem : cl[k] ∈ cl.take (k + 1) := mem_take_iff_getElem.2 ⟨k, by omega, rfl⟩
  have hkept : ∀ c, c ≠ cl[k] → (v.setEntry cl[k] fatEndMark).entry c = v.entry c := fun c hc =>
    View.setEntry_entry_of_ne _ _ hc
  have hrest : (v.setEntry cl[k] fatEndMark).IsChain (cl.drop (k + 1)) :=
    (h.drop (k + 1)).congr fun c hc => hkept c fun h0 => hnd.2.2 _ hmem c hc h0.symm
  have hfirst : cl.getD (k + 1) 0 = (cl.drop (k + 1)).headD 0 := by
    rw [headD_eq_getD, getD_eq_getElem?_getD, getD_eq_getElem?_getD, getElem?_drop]
  rw [hfirst]
  refine (ensures_freeChain hL hrest hhint).bind fun v' _ hv' => .pure ⟨⟨?_, fun c hc => ?_,
    fun c hc hn => ?_, hv'.byte, hv'.nodes, hv'.hint⟩, rfl⟩
  · refine h.take hk ?_ fun c hc => ?_
    · rw [hv'.entry, if_neg fun h0 => hnd.2.2 _ hmem _ h0 rfl, View.setEntry_entry_self]
      decide
    · obtain ⟨j, hj, rfl⟩ := mem_take_iff_getElem.1 hc
      have hin : cl[j] ∈ cl.take (k + 1) := mem_take_iff_getElem.2 ⟨j, by omega, rfl⟩
      rw [hv'.entry, if_neg fun h0 => hnd.2.2 _ hin _ h0 rfl, hkept]
      intro h0
      have := h.nodup.getElem_inj_iff.1 h0
      omega
  · rw [hv'.entry, if_neg fun h0 => hc (mem_of_mem_drop h0), hkept]
    rintro rfl
    exact hc (getElem_mem hk)
  · rw [hv'.entry, if_pos]
    rw [← take_append_drop (k + 1) cl, mem_append] at hc
    exact hc.resolve_left hn

theorem ensures_fatFileTruncate_zero (hL : L.Proper) (h : v.IsChain cl) (hhint : v.HintOk)
    (hfirst : (v.nodes i).firstCluster = cl.headD 0) (hdir : (v.nodes i).At d s) :
    Ensures (fatFileTruncate L i 0 now) v fun v' r => Cut v v' i d s cl [] 0 now ∧ r = .ok () := by
  refine (ensures_node i).bind fun v₁ info hinfo => ?_
  obtain ⟨rfl, rfl⟩ := hinfo
  rw [hfirst]
  refine (ensures_updateEntry hL.toOk _ hdir 0 0 now).bind fun v₂ _ h₂ => ?_
  subst h₂
  refine (ensures_setNode i _).bind fun v₃ _ h₃ => ?_
  subst h₃
  refine (ensures_freeChain hL ((h.setCluster _ _).setNode _ _) hhint).bind fun v' _ hv' => ?_
  refine .pure ⟨?_, rfl⟩
  refine ⟨⟨0, rfl⟩, .nil, Nat.zero_le _, fun c hc => ?_, fun c hc _ => ?_, fun c _ hcd => ?_, ?_,
    ?_, ⟨(v₁.nodes i).mtime, ?_⟩, hv'.hint⟩
  · rw [hv'.entry, if_neg hc]
    rfl
  · rw [hv'.entry, if_pos hc]
  · rw [hv'.byte]
    exact View.setCluster_byte_of_ne _ _ hcd
  · rw [hv'.byte]
    exact View.setCluster_byte_self _ _ _
  · funext q
    rw [if_neg (Nat.not_lt_zero q), View.content_of_ge (Nat.zero_le _)]
  · rw [hv'.nodes]
    rfl

theorem ensures_fatFileTruncate_pos (hL : L.Proper) (h : v.IsChain cl) (hhint : v.HintOk)
    (hfirst : (v.nodes i).firstCluster = cl.headD 0) (hdir : (v.nodes i).At d s) (hd : d ∉ cl)
    (hpos : 0 < size) (hsize : size ≤ cl.length * L.clusterBytes) :
    Ensures (fatFileTruncate L i size now) v fun v' r =>
      ∃ cl', Cut v v' i d s cl cl' size now ∧ r = .ok () := by
  have hcb := hL.clusterBytes_pos
  obtain ⟨k, hkdef⟩ : ∃ k, k = (size - 1) / L.clusterBytes := ⟨_, rfl⟩
  have hlo : k * L.clusterBytes < size := by
    have := Nat.div_mul_le_self (size - 1) L.clusterBytes
    rw [hkdef]
    omega
  have hhi : size ≤ k * L.clusterBytes + L.clusterBytes := by
    have := Nat.lt_div_mul_add (a := size - 1) hcb
    rw [hkdef]
    omega
  have hk : k < cl.length := Nat.lt_of_mul_lt_mul_right (hlo.trans_le hsize)
  have hv := h.valid _ (getElem_mem hk)
  have hdk : d ≠ cl[k] := by
    rintro rfl
    exact hd (getElem_mem hk)
  refine (ensures_node i).bind fun v₁ info hinfo => ?_
  obtain ⟨rfl, rfl⟩ := hinfo
  rw [if_neg hpos.ne', hfirst]
  have hlast := ensures_lastKept hL h (k := 0) size (by omega) hsize (by omega)
  rw [Nat.one_mul, ← headD_eq_getD, ← hkdef, getD_eq_getElem _ _ hk] at hlast
  refine hlast.bind fun v₂ last hl => ?_
  obtain ⟨rfl, rfl⟩ := hl
  rw [if_neg (not_not_intro hv)]
  refine (ensures_zeroRest hL.toOk hv size).bind fun v₃ _ h₃ => ?_
  have hcontent := content_zeroRest (v := v₂) hL.toOk h.nodup hk hlo hhi
  rw [← h₃] at hcontent
  have h₃entry : v₃.entry = v₂.entry := by rw [h₃]; split <;> rfl
  have h₃nodes : v₃.nodes = v₂.nodes := by rw [h₃]; split <;> rfl
  have h₃hint : v₃.HintOk := by rw [h₃]; split <;> exact hhint
  have h₃byte : ∀ c, c ≠ cl[k] → v₃.byte c = v₂.byte c := fun c hc => by
    rw [h₃]
    split
    · rfl
    · exact View.setCluster_byte_of_ne _ _ hc
  refine (ensures_nextCluster hL.toOk _).bind fun v₄ rest hrest => ?_
  obtain ⟨rfl, rfl⟩ := hrest
  rw [h₃entry, h.follow hL hk]
  refine (ensures_updateEntry hL.toOk _ hdir _ _ now).bind fun v₅ _ h₅ => ?_
  subst h₅
  have hchain : v₄.IsChain cl := h.congr fun c _ => by rw [h₃entry]
  refine (ensures_cutChain hL (hchain.setCluster _ _) h₃hint hk).bind fun v₆ ok hok => ?_
  obtain ⟨hcut, rfl⟩ := hok
  refine (ensures_node i).bind fun v₇ info hinfo => ?_
  obtain ⟨rfl, rfl⟩ := hinfo
  refine (ensures_setNode i _).bind fun v' _ hv' => .pure ⟨cl.take (k + 1), ?_, rfl⟩
  subst hv'
  have hnodes : v₇.nodes = v₂.nodes := hcut.nodes.trans h₃nodes
  have hdbyte : v₄.byte d = v₂.byte d := h₃byte d hdk
  have hhead : (cl.take (k + 1)).headD 0 = cl.headD 0 := by
    cases cl <;> rfl
  refine ⟨⟨k + 1, rfl⟩, hcut.chain.setNode _ _, ?_, fun c hc => ?_, hcut.freed, fun c hc hcd => ?_,
    ?_, ?_, ⟨now.seconds, ?_⟩, hcut.hint⟩
  · rw [length_take, Nat.min_eq_left hk, Nat.succ_mul]
    exact hhi
  · exact (hcut.entry c hc).trans (congrFun h₃entry c)
  · refine (congrFun hcut.byte c).trans ((View.setCluster_byte_of_ne _ _ hcd).trans (h₃byte c ?_))
    rintro rfl
    exact hc (getElem_mem hk)
  · rw [hhead, ← hdbyte]
    exact (congrFun hcut.byte d).trans (View.setCluster_byte_self _ _ _)
  · rw [← hcontent]
    refine View.content_congr fun c hc => (congrFun hcut.byte c).trans ?_
    refine View.setCluster_byte_of_ne _ _ ?_
    rintro rfl
    exact hd (mem_of_mem_take hc)
  · simp only [View.setNode, hnodes, hhead, ← hfirst]

theorem ensures_fatFileTruncate (hL : L.Proper) (h : v.IsChain cl) (hhint : v.HintOk)
    (hfirst : (v.nodes i).firstCluster = cl.headD 0) (hdir : (v.nodes i).At d s) (hd : d ∉ cl)
    (hsize : size ≤ cl.length * L.clusterBytes) :
    Ensures (fatFileTruncate L i size now) v fun v' r =>
      ∃ cl', Cut v v' i d s cl cl' size now ∧ r = .ok () := by
  rcases Nat.eq_zero_or_pos size with rfl | hpos
  · exact (ensures_fatFileTruncate_zero hL h hhint hfirst hdir).mono fun v' r hr => ⟨[], hr⟩
  · exact ensures_fatFileTruncate_pos hL h hhint hfirst hdir hd hpos hsize

end Truncate

end Bashket.Fat
