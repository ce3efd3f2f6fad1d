import Bashket.Fat.Arrays

/-!
# Writes to a full volume

The walk of `fat_file_write` to the place of the write adds clusters all the way, and they are not
given back when there are too few of them. Where the chain of the file reaches the place of the
write, a write that returns `-ENOSPC` leaves the volume as it was, also when it is mounted again.
-/

namespace Bashket.Fat

open Bytes Program List

variable {L : Layout}

/-! ### Mounting the volume again -/

namespace View

variable (v : View L)

def dirEntry (n : Node L) : Memory := fun q =>
  v.byte (2 + (n.entryLba - L.dataStart) / L.sectorsPerCluster)
    ((n.entryLba - L.dataStart) % L.sectorsPerCluster * sectorSize + n.entryOffset + q)

/-- What `attach_entry` makes of the directory entry of a file, the time apart. -/
def attachEntry (n : Node L) : Node L :=
  let entry := v.dirEntry n
  let size := get32 entry 28
  { n with
    -- an empty file has no cluster
    firstCluster := if size ≠ 0 then get16 entry 20 * 2 ^ 16 + get16 entry 26 else 0
    size }

def remounted : View L := { v with allocHint := 2, nodes := fun i => v.attachEntry (v.nodes i) }

/-- The file `i`, its directory entry and the number of free clusters are the same in both. -/
structure SameFile (v' : View L) (i : ℕ) : Prop where
  size : (v'.nodes i).size = (v.nodes i).size
  contents : v'.contents i = v.contents i
  chain : v'.chainOf i = v.chainOf i
  entry : v'.dirEntry (v'.nodes i) = v.dirEntry (v.nodes i)
  free : v'.freeCount = v.freeCount

/-- The same clusters are free, the others are linked the same way and have the same bytes, and what
is remembered about files is the same, times apart. -/
structure SameVolume (v' : View L) : Prop where
  follow : ∀ c, L.follow (v'.entry c) = L.follow (v.entry c)
  free : ∀ c, v'.IsFree c ↔ v.IsFree c
  byte : v'.byte = v.byte
  nodes : ∀ i, ∃ mtime, v'.nodes i = { v.nodes i with mtime }

end View

theorem View.clusters_congr {v v' : View L} (h : ∀ c, L.follow (v'.entry c) = L.follow (v.entry c))
    (fuel c : ℕ) : v'.clusters fuel c = v.clusters fuel c := by
  induction fuel generalizing c with
  | zero => rfl
  | succ fuel ih => simp only [View.clusters, h, ih]

namespace View.SameVolume

variable {v v' : View L}

theorem refl : v.SameVolume v :=
  ⟨fun _ => rfl, fun _ => .rfl, rfl, fun i => ⟨(v.nodes i).mtime, rfl⟩⟩

theorem dirEntry_eq (h : v.SameVolume v') (n : Node L) (mtime : ℕ) :
    v'.dirEntry { n with mtime } = v.dirEntry n := by
  funext q
  simp only [View.dirEntry, h.byte]

theorem sameFile (h : v.SameVolume v') (i : ℕ) : v.SameFile v' i := by
  obtain ⟨mtime, hnode⟩ := h.nodes i
  have hchain : v'.chainOf i = v.chainOf i := by
    rw [View.chainOf, View.chainOf, hnode, View.clusters_congr h.follow]
  refine ⟨by rw [hnode], ?_, hchain, ?_, ?_⟩
  · rw [View.contents, View.contents, hchain, hnode,
      View.content_congr fun c _ => congrFun h.byte c]
  · rw [hnode, h.dirEntry_eq]
  · simp only [View.freeCount, h.free]

theorem remounted (h : v.SameVolume v') : v.remounted.SameVolume v'.remounted := by
  refine ⟨h.follow, h.free, h.byte, fun i => ?_⟩
  obtain ⟨mtime, hnode⟩ := h.nodes i
  refine ⟨mtime, ?_⟩
  simp only [View.remounted, View.attachEntry, hnode, h.dirEntry_eq]
  rfl

theorem sameFile_remounted (h : v.SameVolume v') {i : ℕ}
    (hi : v.attachEntry (v.nodes i) = v.nodes i) : v.SameFile v'.remounted i := by
  have hfile := h.remounted.sameFile i
  have hnode : v.remounted.nodes i = v.nodes i := hi
  have hchain : v.remounted.chainOf i = v.chainOf i := by
    have hfollow : ∀ c, L.follow (v.remounted.entry c) = L.follow (v.entry c) := fun _ => rfl
    rw [View.chainOf, View.chainOf, hnode, View.clusters_congr hfollow]
  refine ⟨hfile.size.trans (by rw [hnode]), hfile.contents.trans ?_, hfile.chain.trans hchain,
    hfile.entry.trans ?_, hfile.free⟩
  · rw [View.contents, View.contents, hchain, hnode]
    rfl
  · rw [hnode]
    rfl

end View.SameVolume

/-! ### Writes that fail -/

section Failed

variable {v v' : View L} {files : Set ℕ} {i d s offset : ℕ} {cl : List ℕ} {data : List UInt8}
  {now : Now} {c q : ℕ} {sh : Shared L} {bytes : List UInt8}

theorem View.IsChain.follow_eq (hL : L.Proper) (h : v.IsChain cl) (h' : v'.IsChain cl)
    (hc : c ∈ cl) : L.follow (v'.entry c) = L.follow (v.entry c) := by
  obtain ⟨k, hk, rfl⟩ := getElem_of_mem hc
  rw [h.follow hL hk, h'.follow hL hk]

theorem View.byte_eq_of_content (hL : L.Proper) (h : v'.content cl = v.content cl) (hc : c ∈ cl)
    (hq : q < L.clusterBytes) : v'.byte c q = v.byte c q := by
  obtain ⟨k, hk, rfl⟩ := getElem_of_mem hc
  have hat := congrFun h (L.clusterBytes * k + q)
  have hdiv : (L.clusterBytes * k + q) / L.clusterBytes = k := by
    rw [Nat.mul_add_div hL.clusterBytes_pos, Nat.div_eq_of_lt hq, Nat.add_zero]
  have hmod : (L.clusterBytes * k + q) % L.clusterBytes = q := by
    rw [Nat.mul_add_mod, Nat.mod_eq_of_lt hq]
  simpa only [View.content, hdiv, hmod, getElem?_eq_getElem hk] using hat

theorem Shared.view_byte_of_le (sh : Shared L) (c : ℕ) (hq : L.clusterBytes ≤ q) :
    sh.view.byte c q = 0 := if_neg fun h => absurd h.2 (Nat.not_lt.2 hq)

theorem Wrote.sameVolume {sh' : Shared L} (hL : L.Proper) (hchain : sh.view.IsChain cl)
    (hfirst : (sh.view.nodes i).firstCluster = cl.headD 0)
    (h : Wrote sh.view sh'.view i d s cl cl offset data 0 now) :
    sh.view.SameVolume sh'.view := by
  have hcontent : sh'.view.content cl = sh.view.content cl := by
    rw [h.content, take_zero, copyIn_nil]
  refine ⟨fun c => ?_, fun c => ?_, funext fun c => funext fun q => ?_, fun j => ?_⟩
  · by_cases hc : c ∈ cl
    · exact hchain.follow_eq hL h.chain hc
    · rw [h.entry c hc]
  · by_cases hc : c ∈ cl
    · exact iff_of_false (fun h0 => h.chain.entry_ne_zero hc h0.2)
        fun h0 => hchain.entry_ne_zero hc h0.2
    · rw [View.IsFree, View.IsFree, h.entry c hc]
  · rcases Nat.lt_or_ge q L.clusterBytes with hq | hq
    · by_cases hc : c ∈ cl
      · exact View.byte_eq_of_content hL hcontent hc hq
      by_cases hcd : c = d
      · have hdir := h.dir
        rw [if_neg (by rintro (h0 | h0); exacts [absurd h0 (lt_irrefl 0), h0.2 h0.1])] at hdir
        rw [hcd, hdir]
      · rw [h.byte c hc hcd]
    · rw [Shared.view_byte_of_le _ c hq, Shared.view_byte_of_le _ c hq]
  · obtain ⟨mtime, hnodes⟩ := h.nodes
    rcases eq_or_ne j i with rfl | hj
    · refine ⟨mtime, ?_⟩
      rw [hnodes, Function.update_self, if_neg (lt_irrefl 0), Nat.zero_max, ← hfirst]
    · exact ⟨(sh.view.nodes j).mtime, by rw [hnodes, Function.update_of_ne hj]⟩

/-- The volume after `fat_file_write`, and what it returns. -/
def Shared.write (sh : Shared L) (i offset : ℕ) (bytes : List UInt8) (now : Now) :
    Shared L × Except Err ℕ := (fatFileWrite L i offset bytes now).exec Shared.answer sh

theorem Shared.write_wrote (hL : L.Proper) (hs : sh.Sound) (hc : sh.view.Consistent files)
    (hi : i ∈ files) (hnil : bytes ≠ [])
    (hlong : ¬ (offset > 0xFFFFFFFF ∨ (bytes.take maxWriteBytes).length > 0xFFFFFFFF - offset)) :
    ∃ d s cl done,
      Wrote sh.view (sh.write i offset bytes now).1.view i d s (sh.view.chainOf i) cl offset
        (bytes.take maxWriteBytes) done now ∧
      (done = 0 → cl.length ≤ max (sh.view.chainOf i).length (offset / L.clusterBytes)) ∧
      (sh.write i offset bytes now).2 = if done = 0 then .error .nospc else .ok done := by
  have hmax : maxWriteBytes = 65536 := rfl
  have hdata : bytes.take maxWriteBytes ≠ [] := by
    rw [ne_eq, take_eq_nil_iff]
    exact not_or.2 ⟨by omega, hnil⟩
  unfold Shared.write fatFileWrite
  rw [if_neg hnil]
  dsimp only
  rw [if_neg hlong]
  obtain ⟨d, s, hat, hused, hnot⟩ := hc.dirs i hi
  obtain ⟨v', ⟨-, rfl⟩, cl, done, hw⟩ := ensures_writeLocked hL (hc.chain i hi) hc.hint
    (hc.first i hi) hat (hnot i hi) hused hdata sh ⟨hs, rfl⟩
  exact ⟨d, s, cl, done, hw⟩

theorem Shared.write_sameVolume (hL : L.Proper) (hs : sh.Sound) (hc : sh.view.Consistent files)
    (hi : i ∈ files) (hgap : offset / L.clusterBytes ≤ (sh.view.chainOf i).length)
    (hr : (sh.write i offset bytes now).2 = .error .nospc) :
    sh.view.SameVolume (sh.write i offset bytes now).1.view := by
  by_cases hnil : bytes = []
  · unfold Shared.write fatFileWrite
    rw [if_pos hnil]
    exact .refl
  by_cases hlong : offset > 0xFFFFFFFF ∨ (bytes.take maxWriteBytes).length > 0xFFFFFFFF - offset
  · unfold Shared.write fatFileWrite
    rw [if_neg hnil]
    dsimp only
    rw [if_pos hlong]
    exact .refl
  obtain ⟨d, s, cl, done, hw, hlen, hres⟩ := Shared.write_wrote hL hs hc hi hnil hlong
  obtain rfl : done = 0 := by
    by_contra h0
    rw [hres, if_neg h0] at hr
    cases hr
  obtain ⟨new, rfl, -⟩ := hw.grown
  -- nothing is written, so the walk has not passed the place of the write
  obtain rfl : new = [] := by
    have := hlen rfl
    rw [length_append, max_eq_left hgap] at this
    exact eq_nil_of_length_eq_zero (by omega)
  rw [append_nil] at hw
  exact hw.sameVolume hL (hc.chain i hi) (hc.first i hi)

/-- A write after all the clusters that there are fails, and takes all the free ones. -/
theorem Shared.write_beyond (hL : L.Proper) (hs : sh.Sound) (hc : sh.view.Consistent files)
    (hi : i ∈ files) (hnil : bytes ≠ []) (hlong : offset + maxWriteBytes ≤ 0xFFFFFFFF)
    (hoff : ((sh.view.chainOf i).length + sh.view.freeCount) * L.clusterBytes ≤ offset) :
    (sh.write i offset bytes now).2 = .error .nospc ∧
      (sh.write i offset bytes now).1.view.freeCount = 0 := by
  have hmax : maxWriteBytes = 65536 := rfl
  have htake := length_take_le maxWriteBytes bytes
  have hlt : ¬ (offset > 0xFFFFFFFF ∨ (bytes.take maxWriteBytes).length > 0xFFFFFFFF - offset) := by
    omega
  obtain ⟨d, s, cl, done, hw, -, hres⟩ : ∃ d s cl done,
      Wrote sh.view (sh.write i offset bytes now).1.view i d s (sh.view.chainOf i) cl offset
        (bytes.take maxWriteBytes) done now ∧ _ ∧
      (sh.write i offset bytes now).2 = if done = 0 then .error .nospc else .ok done :=
    Shared.write_wrote hL hs hc hi hnil hlt
  have hcap := hw.capacity (hc.chain i hi)
  have hle := Nat.mul_le_mul_right L.clusterBytes (hcap ▸ Nat.le_add_right cl.length _)
  obtain rfl : done = 0 := by
    by_contra h0
    have := hw.long (Nat.pos_of_ne_zero h0)
    omega
  refine ⟨hres, ?_⟩
  rcases hw.all with h0 | h0
  · have hpos := length_pos_iff.2 hnil
    rw [length_take] at h0
    omega
  · rw [View.freeCount, Finset.card_eq_zero, Finset.filter_eq_empty_iff]
    exact fun c _ => h0.2 c

end Failed

/-! ### A volume with one free cluster, or with none -/

theorem smallLayout_entry : 1056 = 0 ∨ smallLayout.dataStart ≤ 1056 := .inr le_rfl

/-- The root directory has cluster 2, the only file one byte in cluster 3. All others are in use,
except cluster 4 if `oneLeft`. -/
def packedVolume (oneLeft : Bool) : Shared smallLayout where
  disk lba :=
    if 32 ≤ lba ∧ lba < 1056 then
      if (lba = 32 ∨ lba = 544) ∧ oneLeft then put32 (fun _ => 0xFF) 16 0 else fun _ => 0xFF
    else if lba = 1056 then put32 (put16 (fun _ => 0) 26 3) 28 1
    else fun _ => 0
  fatCacheSector := 0
  fatCache _ := 0
  allocHint := 2
  fsinfoInvalidated := false
  nodes _ := { firstCluster := 3, entryLba := 1056, entryOffset := 0, size := 1, mtime := 0,
               entry_in_data := smallLayout_entry }

section Packed

variable (oneLeft : Bool)

theorem packedVolume_sound : (packedVolume oneLeft).Sound := by
  refine ⟨fun h => absurd rfl h, fun copy hcopy row hr => ?_⟩
  have hcopy : copy < 2 := hcopy
  have hr : row < 512 := hr
  change (packedVolume oneLeft).disk (32 + copy * 512 + row) =
    (packedVolume oneLeft).disk (32 + row)
  have hrow : 32 + copy * 512 + row = 32 ∨ 32 + copy * 512 + row = 544 ↔
      32 + row = 32 ∨ 32 + row = 544 := by omega
  have hin : 32 ≤ 32 + copy * 512 + row ∧ 32 + copy * 512 + row < 1056 := by omega
  have hin' : 32 ≤ 32 + row ∧ 32 + row < 1056 := by omega
  simp only [packedVolume, hrow, if_pos hin, if_pos hin']

theorem packedVolume_entry {c : ℕ} (hc : smallLayout.validCluster c) :
    (packedVolume oneLeft).view.entry c = if c = 4 ∧ oneLeft then 0 else fatEndMark := by
  have hlt : c < 65527 := hc.2
  have hplace : entryPlace c = c % 128 * 4 := rfl
  have hsector : smallLayout.fatSector c = 32 + c / 128 := rfl
  have hfull : get32 (fun _ => 0xFF) (entryPlace c) % 2 ^ 28 = fatEndMark := by
    simp [get32, get16]
  simp only [Shared.view, if_pos hc, entryIn, packedVolume, hsector]
  rw [if_pos (by omega)]
  by_cases hone : (32 + c / 128 = 32 ∨ 32 + c / 128 = 544) ∧ oneLeft
  · rw [if_pos hone]
    by_cases h4 : c = 4
    · rw [if_pos ⟨h4, hone.2⟩, h4]
      rfl
    · rw [if_neg fun h0 => h4 h0.1, get32_put32_of_disjoint (by omega), hfull]
  · rw [if_neg hone, if_neg, hfull]
    rintro ⟨rfl, h0⟩
    exact hone ⟨.inl rfl, h0⟩

theorem packedVolume_isFree (c : ℕ) : (packedVolume oneLeft).view.IsFree c ↔ c = 4 ∧ oneLeft := by
  constructor
  · rintro ⟨hc, h0⟩
    by_contra h4
    rw [packedVolume_entry oneLeft hc, if_neg h4] at h0
    cases h0
  · rintro ⟨rfl, h0⟩
    have hc : smallLayout.validCluster 4 := by decide
    exact ⟨hc, (packedVolume_entry oneLeft hc).trans (if_pos ⟨rfl, h0⟩)⟩

theorem packedVolume_freeCount : (packedVolume oneLeft).view.freeCount = oneLeft.toNat := by
  simp only [View.freeCount, packedVolume_isFree]
  cases oneLeft with
  | false => simp
  | true =>
    have hset : {c ∈ Finset.range (smallLayout.clusterCount + 2) | c = 4 ∧ true} = {4} := by
      ext c
      have hcount : smallLayout.clusterCount = 65525 := rfl
      simp only [Finset.mem_filter, Finset.mem_range, and_true, Finset.mem_singleton]
      omega
    rw [hset]
    rfl

theorem packedVolume_chain : (packedVolume oneLeft).view.IsChain [3] := by
  refine ⟨by decide, nodup_singleton 3, .singleton 3, fun c hc => ?_⟩
  cases hc
  rw [packedVolume_entry oneLeft (by decide), if_neg (by decide +revert)]
  decide

theorem packedVolume_chainOf (i : ℕ) : (packedVolume oneLeft).view.chainOf i = [3] :=
  (packedVolume_chain oneLeft).chainOf_eq smallLayout_proper rfl

theorem packedVolume_consistent : (packedVolume oneLeft).view.Consistent {0} := by
  have hchainOf := packedVolume_chainOf oneLeft
  refine ⟨fun i _ => ?_, fun i _ => ?_, fun i _ => ?_, fun i hi j hj hij => ?_, fun i _ => ?_, ?_⟩
  · exact hchainOf i ▸ packedVolume_chain oneLeft
  · rw [hchainOf]
    rfl
  · rw [hchainOf]
    change 1 ≤ 1 * 512
    omega
  · exact absurd (hi.trans hj.symm) hij
  · refine ⟨2, 0, ⟨by decide, by decide, rfl⟩, fun h0 => ?_, fun j _ => ?_⟩
    · exact absurd ((packedVolume_isFree oneLeft 2).1 h0).1 (by decide)
    · rw [hchainOf]
      decide
  · refine ⟨le_rfl, ?_⟩
    change 2 ≤ 65527
    omega

theorem packedVolume_attachEntry : (packedVolume oneLeft).view.attachEntry
    ((packedVolume oneLeft).view.nodes 0) = (packedVolume oneLeft).view.nodes 0 := by
  set entry := (packedVolume oneLeft).view.dirEntry ((packedVolume oneLeft).view.nodes 0)
    with hentry
  have hsize : get32 entry 28 = 1 := by
    cases oneLeft <;> decide +kernel
  have hfirst : get16 entry 20 * 2 ^ 16 + get16 entry 26 = 3 := by
    cases oneLeft <;> decide +kernel
  simp only [View.attachEntry, ← hentry, hsize, hfirst]
  rfl

theorem packedVolume_write {offset : ℕ} (hoff : (1 + oneLeft.toNat) * 512 ≤ offset)
    (hlong : offset + 65536 ≤ 0xFFFFFFFF) (now : Now) :
    ((packedVolume oneLeft).write 0 offset [7] now).2 = .error .nospc ∧
      ((packedVolume oneLeft).write 0 offset [7] now).1.view.freeCount = 0 := by
  refine Shared.write_beyond smallLayout_proper (packedVolume_sound oneLeft)
    (packedVolume_consistent oneLeft) rfl (cons_ne_nil _ _) hlong ?_
  rw [packedVolume_chainOf, packedVolume_freeCount]
  exact hoff

end Packed

end Bashket.Fat
