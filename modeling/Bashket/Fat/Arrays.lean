import Bashket.Fat.File
import Bashket.Lib.Run

/-!
# A file is an array of bytes

Operations on files, one at a time: `fat_file_read`, `fat_file_write` and `vfs_truncate`, which
writes zeros to make a file longer. What they should do is said with `Contents`, a number of bytes
with zeros after them.

A write that starts after the end of the file does not look at the bytes in between that its
clusters already have. In every run in which these are zeros the files are arrays of bytes
(`files_are_arrays`).
-/

namespace Bashket.Fat

open Bytes Program Run List
open Function (update update_apply update_of_ne update_self)

variable {L : Layout}

/-! ### The operations -/

variable (L) in
/-- The loop of `vfs_truncate_unlocked` that writes zeros, a page at a time; the write at `at_` is
made at the time `now at_`. -/
def growLoop (i size : ℕ) (now : ℕ → Now) : ℕ → ℕ → FatProg L Bool
  | 0, _ => pure true
  | fuel + 1, at_ => do
    if ¬ at_ < size then return true
    match ← fatFileWrite L i at_ (List.replicate (min (size - at_) 4096) 0) (now at_) with
    | .error _ => return false
    | .ok n => if n = 0 then return false else growLoop i size now fuel (at_ + n)

variable (L) in
/-- `vfs_truncate` of a file of the volume. -/
def vfsTruncate (i size : ℕ) (now : ℕ → Now) : FatProg L (Except Err Unit) := do
  let old := (← node i).size
  if size < old then return ← fatFileTruncate L i size (now size)
  if ← growLoop L i size now size old then return .ok ()
  -- full: back to how it was
  if old < (← node i).size then
    let _ ← fatFileTruncate L i old (now old)
  return .error .nospc

inductive FileOp
  | read (i offset count : ℕ)
  | write (i offset : ℕ) (bytes : List UInt8) (now : Now)
  | truncate (i size : ℕ) (now : ℕ → Now)

inductive Outcome
  | bytes (bytes : List UInt8)
  | count (result : Except Err ℕ)
  | done (result : Except Err Unit)
deriving DecidableEq

def FileOp.file : FileOp → ℕ
  | .read i _ _ | .write i _ _ _ | .truncate i _ _ => i

variable (L) in
def FileOp.prog : FileOp → FatProg L Outcome
  | .read i offset count => do return .bytes (← fatFileRead L i offset count)
  | .write i offset bytes now => do return .count (← fatFileWrite L i offset bytes now)
  | .truncate i size now => do return .done (← vfsTruncate L i size now)

def Shared.after (sh : Shared L) (op : FileOp) : Shared L := ((op.prog L).exec Shared.answer sh).1

def outcomes (sh : Shared L) : List FileOp → List Outcome
  | [] => []
  | op :: ops => ((op.prog L).exec Shared.answer sh).2 :: outcomes (sh.after op) ops

/-! ### What they should do -/

/-- The contents of a file: `size` bytes, and zeros after them. -/
@[ext]
structure Contents where
  size : ℕ
  byte : Memory

namespace Contents

/-- The bytes from `offset` on, `count` of them or up to the end. -/
def read (a : Contents) (offset count : ℕ) : List UInt8 :=
  slice a.byte offset (min count (a.size - offset))

/-- Bytes are put in from `offset` on; a gap in front of them reads as zeros. -/
def write (a : Contents) (offset : ℕ) (bytes : List UInt8) : Contents :=
  { size := max (offset + bytes.length) a.size, byte := copyIn a.byte offset bytes }

def resize (a : Contents) (size : ℕ) : Contents :=
  { size, byte := fun q => if q < size then a.byte q else 0 }

end Contents

/-- A write puts in at most `MAX_WRITE_BYTES` bytes, and none if the file would pass 4 GiB. -/
def FileOp.onArrays (a : ℕ → Contents) : FileOp → (ℕ → Contents) × Outcome
  | .read i offset count => (a, .bytes ((a i).read offset count))
  | .write i offset bytes _ =>
    let data := bytes.take maxWriteBytes
    if bytes = [] then (a, .count (.ok 0))
    else if offset + data.length > 0xFFFFFFFF then (a, .count (.error .nospc))
    else (update a i ((a i).write offset data), .count (.ok data.length))
  | .truncate i size _ => (update a i ((a i).resize size), .done (.ok ()))

def arrayOutcomes (a : ℕ → Contents) : List FileOp → List Outcome
  | [] => []
  | op :: ops => (op.onArrays a).2 :: arrayOutcomes (op.onArrays a).1 ops

/-! ### Consistent volumes -/

namespace View

variable (v : View L)

/-- The clusters from `c` on, as the FAT links them. -/
def clusters : ℕ → ℕ → List ℕ
  | 0, _ => []
  | fuel + 1, c => if L.validCluster c then c :: clusters fuel (L.follow (v.entry c)) else []

def chainOf (i : ℕ) : List ℕ := v.clusters L.clusterCount (v.nodes i).firstCluster

def contents (i : ℕ) : Contents where
  size := (v.nodes i).size
  byte q := if q < (v.nodes i).size then v.content (v.chainOf i) q else 0

def freeCount : ℕ := ((Finset.range (L.clusterCount + 2)).filter v.IsFree).card

/-- As far as these files go: chains end properly, are long enough and have no cluster in common,
and directory entries are in clusters of directories. -/
structure Consistent (files : Set ℕ) : Prop where
  chain : ∀ i ∈ files, v.IsChain (v.chainOf i)
  first : ∀ i ∈ files, (v.nodes i).firstCluster = (v.chainOf i).headD 0
  long : ∀ i ∈ files, (v.nodes i).size ≤ (v.chainOf i).length * L.clusterBytes
  apart : ∀ i ∈ files, ∀ j ∈ files, i ≠ j → (v.chainOf i).Disjoint (v.chainOf j)
  dirs : ∀ i ∈ files, ∃ d s, (v.nodes i).At d s ∧ ¬ v.IsFree d ∧ ∀ j ∈ files, d ∉ v.chainOf j
  hint : v.HintOk

/-- There are enough free clusters for the file `i` to have `size` bytes. -/
def Room (i size : ℕ) : Prop := size ≤ ((v.chainOf i).length + v.freeCount) * L.clusterBytes

end View

/-- The operation is on one of the files and below 4 GiB, and there is room for it. -/
def FileOp.Fits (files : Set ℕ) (v : View L) (op : FileOp) : Prop :=
  op.file ∈ files ∧
    match op with
    | .read _ _ _ => True
    | .write i offset bytes _ => v.Room i (offset + (bytes.take maxWriteBytes).length)
    | .truncate i size _ => size ≤ 0xFFFFFFFF ∧ v.Room i size

/-- What the clusters of the file have between its end and the place of a write are zeros. -/
def FileOp.GapClear (v : View L) : FileOp → Prop
  | .write i offset _ _ =>
    ∀ q, (v.nodes i).size ≤ q → q < offset → v.content (v.chainOf i) q = 0
  | _ => True

/-! ### What one operation leaves alone -/

section Frame

variable {v v' : View L} {i j d : ℕ} {cl : List ℕ} {files : Set ℕ}

theorem View.IsChain.clusters_eq (hL : L.Proper) (h : v.IsChain cl) {fuel : ℕ}
    (hfuel : cl.length ≤ fuel) : v.clusters fuel (cl.headD 0) = cl := by
  induction cl generalizing fuel with
  | nil =>
    cases fuel with
    | zero => rfl
    | succ fuel => exact if_neg fun h0 => h0.pos rfl
  | cons c cl ih =>
    obtain ⟨fuel, rfl⟩ := Nat.exists_eq_succ_of_ne_zero (Nat.ne_zero_of_lt hfuel)
    rw [View.clusters, headD_cons, if_pos (h.valid c mem_cons_self)]
    have hnext := h.follow hL (k := 0) (Nat.succ_pos _)
    rw [getElem_cons_zero, getD_cons_succ, ← headD_eq_getD] at hnext
    rw [hnext, ih (h.drop 1) (Nat.le_of_succ_le_succ hfuel)]

theorem View.IsChain.chainOf_eq (hL : L.Proper) (h : v.IsChain cl)
    (hfirst : (v.nodes i).firstCluster = cl.headD 0) : v.chainOf i = cl := by
  rw [View.chainOf, hfirst]
  exact h.clusters_eq hL h.length_le

/-- Only the file `i`, whose chain is now `cl`, its directory entry in the cluster `d` and what is
remembered about it have changed. -/
structure View.OnlyFile (v v' : View L) (i d : ℕ) (cl : List ℕ) : Prop where
  chain : v'.IsChain cl
  mem : ∀ c ∈ cl, c ∈ v.chainOf i ∨ v.IsFree c
  entry : ∀ c, c ∉ v.chainOf i → c ∉ cl → v'.entry c = v.entry c
  byte : ∀ c, c ∉ v.chainOf i → c ∉ cl → c ≠ d → v'.byte c = v.byte c
  nodes : ∃ size mtime, v'.nodes = update v.nodes i
    { v.nodes i with firstCluster := cl.headD 0, size, mtime } ∧ size ≤ cl.length * L.clusterBytes
  hint : v'.HintOk

namespace View.OnlyFile

theorem node_of_ne (ho : v.OnlyFile v' i d cl) (hj : j ≠ i) : v'.nodes j = v.nodes j := by
  obtain ⟨size, mtime, hnodes, -⟩ := ho.nodes
  rw [hnodes, update_of_ne hj]

theorem chainOf_self (hL : L.Proper) (ho : v.OnlyFile v' i d cl) : v'.chainOf i = cl := by
  obtain ⟨size, mtime, hnodes, -⟩ := ho.nodes
  refine ho.chain.chainOf_eq hL ?_
  rw [hnodes, update_self]

theorem not_mem (ho : v.OnlyFile v' i d cl) {c : ℕ} (hc : c ∉ v.chainOf i) (hused : ¬ v.IsFree c) :
    c ∉ cl := fun h0 => (ho.mem c h0).elim hc hused

variable (ho : v.OnlyFile v' i d cl) (h : v.Consistent files) (hi : i ∈ files)
include ho h hi

theorem apart (hj : j ∈ files) (hji : j ≠ i) {c : ℕ} (hc : c ∈ v.chainOf j) :
    c ∉ v.chainOf i ∧ c ∉ cl := by
  have hnot : c ∉ v.chainOf i := fun h0 => h.apart j hj i hi hji hc h0
  exact ⟨hnot, ho.not_mem hnot fun h0 => (h.chain j hj).entry_ne_zero hc h0.2⟩

variable (hL : L.Proper)
include hL

theorem chainOf_of_ne (hj : j ∈ files) (hji : j ≠ i) : v'.chainOf j = v.chainOf j := by
  refine View.IsChain.chainOf_eq hL ((h.chain j hj).congr fun c hc => ?_) ?_
  · exact ho.entry c (ho.apart h hi hj hji hc).1 (ho.apart h hi hj hji hc).2
  · rw [ho.node_of_ne hji]
    exact h.first j hj

theorem consistent : v'.Consistent files := by
  have hchain : ∀ j ∈ files, v'.chainOf j = if j = i then cl else v.chainOf j := fun j hj => by
    split
    next hji => rw [hji, ho.chainOf_self hL]
    next hji => exact ho.chainOf_of_ne h hi hL hj hji
  obtain ⟨size, mtime, hnodes, hlong⟩ := ho.nodes
  refine ⟨fun j hj => ?_, fun j hj => ?_, fun j hj => ?_, fun j hj k hk hjk => ?_, fun j hj => ?_,
    ho.hint⟩
  · rw [hchain j hj]
    split
    · exact ho.chain
    next hji =>
      refine (h.chain j hj).congr fun c hc => ?_
      exact ho.entry c (ho.apart h hi hj hji hc).1 (ho.apart h hi hj hji hc).2
  · rw [hchain j hj]
    split
    next hji => rw [hji, hnodes, update_self]
    next hji => rw [ho.node_of_ne hji, h.first j hj]
  · rw [hchain j hj]
    split
    next hji => rw [hji, hnodes, update_self]; exact hlong
    next hji => rw [ho.node_of_ne hji]; exact h.long j hj
  · rw [hchain j hj, hchain k hk]
    intro c hcj hck
    split at hcj
    next hji =>
      split at hck
      next hki => exact hjk (hji.trans hki.symm)
      next hki => exact (ho.apart h hi hk hki hck).2 hcj
    next hji =>
      split at hck
      next hki => exact (ho.apart h hi hj hji hcj).2 hck
      next hki => exact h.apart j hj k hk hjk hcj hck
  · obtain ⟨e, s, hat, hused, hnot⟩ := h.dirs j hj
    have he : e ∉ cl := ho.not_mem (hnot i hi) hused
    refine ⟨e, s, ?_, fun h0 => hused ⟨h0.1, ?_⟩, fun k hk => ?_⟩
    · rw [hnodes]
      rcases eq_or_ne j i with rfl | hji
      · rw [update_self]
        exact ⟨hat.valid, hat.sector, hat.lba⟩
      · rwa [update_of_ne hji]
    · rw [← ho.entry e (hnot i hi) he]
      exact h0.2
    · rw [hchain k hk]
      split
      · exact he
      · exact hnot k hk

theorem contents_of_ne (hd : ∀ k ∈ files, d ∉ v.chainOf k) (hj : j ∈ files) (hji : j ≠ i) :
    v'.contents j = v.contents j := by
  have hcontent : v'.content (v.chainOf j) = v.content (v.chainOf j) :=
    View.content_congr fun c hc => ho.byte c (ho.apart h hi hj hji hc).1
      (ho.apart h hi hj hji hc).2 (by rintro rfl; exact hd j hj hc)
  simp only [View.contents, ho.node_of_ne hji, ho.chainOf_of_ne h hi hL hj hji, hcontent]

end View.OnlyFile

end Frame

/-! ### What one operation does -/

section Operations

variable {v v' : View L} {i d s offset : ℕ} {cl : List ℕ} {files : Set ℕ} {data : List UInt8}
  {done size : ℕ} {now : Now}

theorem Wrote.onlyFile (h : Wrote v v' i d s (v.chainOf i) cl offset data done now)
    (hlong : (v.nodes i).size ≤ (v.chainOf i).length * L.clusterBytes) : v.OnlyFile v' i d cl := by
  obtain ⟨new, hnew, hfree⟩ := h.grown
  obtain ⟨mtime, hnodes⟩ := h.nodes
  refine ⟨h.chain, fun c hc => ?_, fun c _ hc => h.entry c hc, fun c _ hc => h.byte c hc,
    ⟨_, mtime, hnodes, ?_⟩, h.hint⟩
  · rw [hnew, mem_append] at hc
    exact hc.imp_right (hfree c)
  · have hle : (v.chainOf i).length ≤ cl.length := by rw [hnew, length_append]; omega
    have hmul := Nat.mul_le_mul_right L.clusterBytes hle
    have := h.long
    split <;> omega

theorem Cut.onlyFile (h : Cut v v' i d s (v.chainOf i) cl size now) :
    v.OnlyFile v' i d cl := by
  obtain ⟨k, hk⟩ := h.kept
  obtain ⟨mtime, hnodes⟩ := h.nodes
  refine ⟨h.chain, fun c hc => .inl ?_, fun c hc _ => h.entry c hc, fun c hc _ => h.byte c hc,
    ⟨_, mtime, hnodes, h.long⟩, h.hint⟩
  rw [hk] at hc
  exact mem_of_mem_take hc

theorem Wrote.capacity (h : Wrote v v' i d s (v.chainOf i) cl offset data done now)
    (hchain : v.IsChain (v.chainOf i)) :
    cl.length + v'.freeCount = (v.chainOf i).length + v.freeCount := by
  obtain ⟨new, hnew, hfree⟩ := h.grown
  have hnd : new.Nodup := (nodup_append.1 (hnew ▸ h.chain.nodup)).2.1
  have hiff : ∀ c, v'.IsFree c ↔ v.IsFree c ∧ c ∉ new := fun c => by
    constructor
    · intro hc
      have hnot : c ∉ cl := fun h0 => h.chain.entry_ne_zero h0 hc.2
      refine ⟨⟨hc.1, (h.entry c hnot).symm.trans hc.2⟩, fun h0 => hnot ?_⟩
      rw [hnew]
      exact mem_append_right _ h0
    · rintro ⟨hc, hnot⟩
      refine ⟨hc.1, (h.entry c fun h0 => ?_).trans hc.2⟩
      rw [hnew, mem_append] at h0
      exact h0.elim (fun h1 => hchain.entry_ne_zero h1 hc.2) hnot
  have hset : (Finset.range (L.clusterCount + 2)).filter v'.IsFree =
      (Finset.range (L.clusterCount + 2)).filter v.IsFree \ new.toFinset := by
    ext c
    simp only [Finset.mem_filter, Finset.mem_sdiff, mem_toFinset, hiff, and_assoc]
  have hsub : new.toFinset ⊆ (Finset.range (L.clusterCount + 2)).filter v.IsFree := by
    intro c hc
    have hc := hfree c (mem_toFinset.1 hc)
    exact Finset.mem_filter.2 ⟨Finset.mem_range.2 hc.1.2, hc⟩
  have hcard := Finset.card_le_card hsub
  rw [toFinset_card_of_nodup hnd] at hcard
  rw [View.freeCount, View.freeCount, hset, Finset.card_sdiff_of_subset hsub,
    toFinset_card_of_nodup hnd, hnew, length_append]
  omega

theorem Wrote.done_eq (h : Wrote v v' i d s (v.chainOf i) cl offset data done now)
    (hchain : v.IsChain (v.chainOf i)) (hroom : v.Room i (offset + data.length)) :
    done = data.length := by
  rcases h.all with hall | ⟨hlt, hfull⟩
  · exact hall
  · have hnone : v'.freeCount = 0 := by
      rw [View.freeCount, Finset.card_eq_zero, Finset.filter_eq_empty_iff]
      exact fun c _ => hfull c
    have hcap := h.capacity hchain
    rw [hnone, Nat.add_zero] at hcap
    rw [View.Room, ← hcap] at hroom
    omega

theorem Wrote.contents (hL : L.Proper)
    (h : Wrote v v' i d s (v.chainOf i) cl offset data data.length now) (hdata : data ≠ [])
    (hlong : (v.nodes i).size ≤ (v.chainOf i).length * L.clusterBytes)
    (hgap : ∀ q, (v.nodes i).size ≤ q → q < offset → v.content (v.chainOf i) q = 0) :
    v'.contents i = (v.contents i).write offset data := by
  have hpos : 0 < data.length := length_pos_iff.2 hdata
  obtain ⟨mtime, hnodes⟩ := h.nodes
  rw [if_pos hpos] at hnodes
  have hsize : (v'.nodes i).size = max (offset + data.length) (v.nodes i).size := by
    rw [hnodes, update_self]
  refine Contents.ext hsize (funext fun q => ?_)
  simp only [View.contents, Contents.write]
  rw [(h.onlyFile hlong).chainOf_self hL, h.content, take_length, copyIn, copyIn]
  by_cases hin : offset ≤ q ∧ q < offset + data.length
  · rw [if_pos (by omega), if_pos hin, if_pos hin]
  · by_cases hq : q < (v.nodes i).size
    · rw [if_pos (by omega), if_pos hq]
    · split
      · exact hgap q (by omega) (by omega)
      · rfl

theorem Cut.contents (hL : L.Proper) (h : Cut v v' i d s (v.chainOf i) cl size now)
    (hsize : size ≤ (v.nodes i).size) :
    v'.contents i = (v.contents i).resize size := by
  obtain ⟨mtime, hnodes⟩ := h.nodes
  have hsize' : (v'.nodes i).size = size := by rw [hnodes, update_self]
  refine Contents.ext hsize' (funext fun q => ?_)
  simp only [View.contents, Contents.resize]
  rw [hsize', h.onlyFile.chainOf_self hL, h.content]
  dsimp only
  by_cases hq : q < size
  · rw [if_pos hq, if_pos hq, if_pos hq, if_pos (by omega)]
  · rw [if_neg hq, if_neg hq]

/-- The volume is still consistent, the file `i` has become `a`, and the others are as they were. -/
structure View.Became (v v' : View L) (files : Set ℕ) (i : ℕ) (a : Contents) : Prop where
  consistent : v'.Consistent files
  self : v'.contents i = a
  others : ∀ j ∈ files, j ≠ i → v'.contents j = v.contents j

theorem ensures_fatFileRead (hL : L.Proper) (h : v.Consistent files) (hi : i ∈ files)
    (offset count : ℕ) :
    Ensures (fatFileRead L i offset count) v fun v' r =>
      v' = v ∧ r = (v.contents i).read offset count := by
  refine (ensures_node i).bind fun v₁ info hinfo => ?_
  obtain ⟨rfl, rfl⟩ := hinfo
  rw [h.first i hi]
  refine (ensures_readChain hL (h.chain i hi) (h.long i hi) offset count).mono fun v' r hr => ?_
  refine ⟨hr.1, hr.2.trans (slice_congr fun q hlo hhi => ?_)⟩
  exact (if_pos (by omega)).symm

theorem ensures_writeLocked_contents (hL : L.Proper) (h : v.Consistent files) (hi : i ∈ files)
    (offset : ℕ) (hdata : data ≠ []) (hroom : v.Room i (offset + data.length))
    (hgap : ∀ q, (v.nodes i).size ≤ q → q < offset → v.content (v.chainOf i) q = 0) (now : Now) :
    Ensures (writeLocked L i offset data now) v fun v' r =>
      v.Became v' files i ((v.contents i).write offset data) ∧
        (v'.chainOf i).length + v'.freeCount = (v.chainOf i).length + v.freeCount ∧
        r = .ok data.length := by
  obtain ⟨d, s, hat, hused, hnot⟩ := h.dirs i hi
  refine (ensures_writeLocked hL (h.chain i hi) h.hint (h.first i hi) hat (hnot i hi) hused
    hdata).mono fun v' r hr => ?_
  obtain ⟨cl, done, hw, -, rfl⟩ := hr
  obtain rfl : done = data.length := hw.done_eq (h.chain i hi) hroom
  have ho := hw.onlyFile (h.long i hi)
  refine ⟨⟨ho.consistent h hi hL, hw.contents hL hdata (h.long i hi) hgap,
    fun j hj hji => ho.contents_of_ne h hi hL hnot hj hji⟩, ?_, ?_⟩
  · rw [ho.chainOf_self hL, hw.capacity (h.chain i hi)]
  · rw [if_neg (length_pos_iff.2 hdata).ne']

theorem ensures_fatFileTruncate_contents (hL : L.Proper) (h : v.Consistent files) (hi : i ∈ files)
    (hsize : size ≤ (v.nodes i).size) (now : Now) :
    Ensures (fatFileTruncate L i size now) v fun v' r =>
      v.Became v' files i ((v.contents i).resize size) ∧ r = .ok () := by
  obtain ⟨d, s, hat, hused, hnot⟩ := h.dirs i hi
  refine (ensures_fatFileTruncate hL (h.chain i hi) h.hint (h.first i hi) hat (hnot i hi)
    (hsize.trans (h.long i hi))).mono fun v' r hr => ?_
  obtain ⟨cl, hc, rfl⟩ := hr
  have ho := hc.onlyFile
  exact ⟨⟨ho.consistent h hi hL, hc.contents hL hsize,
    fun j hj hji => ho.contents_of_ne h hi hL hnot hj hji⟩, rfl⟩

theorem Contents.write_zeros {a : Contents} (ha : ∀ q, a.size ≤ q → a.byte q = 0) {p : ℕ}
    (hp : a.size ≤ p) (n : ℕ) :
    (a.resize p).write p (List.replicate n 0) = a.resize (p + n) := by
  refine Contents.ext ?_ (funext fun q => ?_)
  · simp only [Contents.write, Contents.resize, length_replicate]
    omega
  · simp only [Contents.write, Contents.resize, copyIn, length_replicate]
    by_cases hlow : q < p
    · rw [if_neg (by omega), if_pos hlow, if_pos (by omega)]
    · by_cases hin : q < p + n
      · rw [if_pos ⟨by omega, hin⟩, if_pos hin, ha q (by omega), getD_replicate]
        omega
      · rw [if_neg (by omega), if_neg hlow, if_neg hin]

theorem View.contents_zero (v : View L) (i q : ℕ) (hq : (v.contents i).size ≤ q) :
    (v.contents i).byte q = 0 := if_neg (by simp only [View.contents] at hq; omega)

theorem ensures_growLoop (hL : L.Proper) {v₀ : View L} {at_ fuel : ℕ} (now : ℕ → Now)
    (h : v₀.Became v files i ((v₀.contents i).resize at_)) (hi : i ∈ files)
    (hat : (v₀.nodes i).size ≤ at_) (hle : at_ ≤ size) (hsize : size ≤ 0xFFFFFFFF)
    (hroom : v.Room i size) (hfuel : size ≤ at_ + fuel) :
    Ensures (growLoop L i size now fuel at_) v fun v' ok =>
      v₀.Became v' files i ((v₀.contents i).resize size) ∧ ok = true := by
  induction fuel generalizing v at_ with
  | zero =>
    obtain rfl : at_ = size := by omega
    exact .pure ⟨h, rfl⟩
  | succ fuel ih =>
    unfold growLoop
    split
    · obtain rfl : at_ = size := by omega
      exact .pure ⟨h, rfl⟩
    next hmore =>
      generalize hn : min (size - at_) 4096 = n
      have hpos : 0 < n := by omega
      have hne : List.replicate n (0 : UInt8) ≠ [] := by
        rw [ne_eq, replicate_eq_nil_iff]
        omega
      have hcurrent : (v.nodes i).size = at_ := congrArg Contents.size h.self
      have hmax : (List.replicate n (0 : UInt8)).take maxWriteBytes = List.replicate n 0 := by
        have hbytes : maxWriteBytes = 65536 := rfl
        rw [take_of_length_le]
        rw [length_replicate]
        omega
      have hwrite := ensures_writeLocked_contents hL h.consistent hi at_ hne
        (by
          rw [length_replicate]
          exact le_trans (by omega) hroom)
        (fun q hlo hhi => by omega) (now at_)
      unfold fatFileWrite
      rw [if_neg hne, hmax]
      dsimp only
      rw [length_replicate, if_neg (by omega)]
      refine hwrite.bind fun v' r hr => ?_
      obtain ⟨hb, hcap, rfl⟩ := hr
      rw [length_replicate]
      dsimp only
      rw [if_neg hpos.ne']
      have hself : v'.contents i = (v₀.contents i).resize (at_ + n) := by
        rw [hb.self, h.self]
        exact Contents.write_zeros (v₀.contents_zero i) hat n
      refine ih ⟨hb.consistent, hself, fun j hj hji => ?_⟩ (by omega) (by omega) ?_ (by omega)
      · rw [hb.others j hj hji, h.others j hj hji]
      · rw [View.Room, hcap]
        exact hroom

end Operations

/-! ### Whole runs -/

section Runs

variable {v : View L} {files : Set ℕ}

theorem ensures_vfsTruncate (hL : L.Proper) (h : v.Consistent files) {i size : ℕ} (hi : i ∈ files)
    (hsize : size ≤ 0xFFFFFFFF) (hroom : v.Room i size) (now : ℕ → Now) :
    Ensures (vfsTruncate L i size now) v fun v' r =>
      v.Became v' files i ((v.contents i).resize size) ∧ r = .ok () := by
  refine (ensures_node i).bind fun v₁ info hinfo => ?_
  obtain ⟨rfl, rfl⟩ := hinfo
  dsimp only
  split
  next hlt => exact ensures_fatFileTruncate_contents hL h hi hlt.le _
  next hge =>
    have hstart : v₁.Became v₁ files i ((v₁.contents i).resize (v₁.nodes i).size) := by
      refine ⟨h, Contents.ext rfl (funext fun q => ?_), fun _ _ _ => rfl⟩
      simp only [View.contents, Contents.resize]
      split <;> rfl
    refine (ensures_growLoop hL now hstart hi le_rfl (by omega) hsize hroom (by omega)).bind
      fun v' ok hok => ?_
    obtain ⟨hb, rfl⟩ := hok
    exact .pure ⟨hb, rfl⟩

theorem ensures_op (hL : L.Proper) (h : v.Consistent files) (op : FileOp) (hfits : op.Fits files v)
    (hgap : op.GapClear v) :
    Ensures (op.prog L) v fun v' r => v'.Consistent files ∧ r = (op.onArrays v.contents).2 ∧
      ∀ j ∈ files, v'.contents j = (op.onArrays v.contents).1 j := by
  have hbecame : ∀ {v' : View L} {i : ℕ} {a : Contents}, v.Became v' files i a →
      v'.Consistent files ∧ ∀ j ∈ files, v'.contents j = update v.contents i a j := by
    intro v' i a hb
    refine ⟨hb.consistent, fun j hj => ?_⟩
    rcases eq_or_ne j i with rfl | hji
    · rw [update_self, hb.self]
    · rw [update_of_ne hji, hb.others j hj hji]
  cases op with
  | read i offset count =>
    refine (ensures_fatFileRead hL h hfits.1 offset count).bind fun v' r hr => ?_
    obtain ⟨rfl, rfl⟩ := hr
    exact .pure ⟨h, rfl, fun _ _ => rfl⟩
  | write i offset bytes now =>
    unfold FileOp.prog fatFileWrite FileOp.onArrays
    have hmax : maxWriteBytes = 65536 := rfl
    by_cases hnil : bytes = []
    · simp only [if_pos hnil]
      exact .pure ⟨h, rfl, fun _ _ => rfl⟩
    simp only [if_neg hnil]
    by_cases hlong : offset + (bytes.take maxWriteBytes).length > 0xFFFFFFFF
    · rw [if_pos hlong, if_pos (by omega)]
      exact .pure ⟨h, rfl, fun _ _ => rfl⟩
    rw [if_neg hlong, if_neg (by omega)]
    have hdata : bytes.take maxWriteBytes ≠ [] := by
      rw [ne_eq, take_eq_nil_iff]
      exact not_or.2 ⟨by omega, hnil⟩
    refine (ensures_writeLocked_contents hL h hfits.1 offset hdata hfits.2 hgap now).bind fun v' r hr => ?_
    obtain ⟨hb, -, rfl⟩ := hr
    exact .pure ⟨(hbecame hb).1, rfl, (hbecame hb).2⟩
  | truncate i size now =>
    refine (ensures_vfsTruncate hL h hfits.1 hfits.2.1 hfits.2.2 now).bind fun v' r hr => ?_
    obtain ⟨hb, rfl⟩ := hr
    exact .pure ⟨(hbecame hb).1, rfl, (hbecame hb).2⟩

theorem FileOp.onArrays_congr {a b : ℕ → Contents} (hab : ∀ j ∈ files, a j = b j) (op : FileOp)
    (hop : op.file ∈ files) :
    (op.onArrays a).2 = (op.onArrays b).2 ∧
      ∀ j ∈ files, (op.onArrays a).1 j = (op.onArrays b).1 j := by
  have hupdate : ∀ c : Contents, ∀ j ∈ files,
      update a op.file c j = update b op.file c j := fun c j hj => by
    simp only [update_apply, hab j hj]
  cases op with
  | read i offset count =>
    simp only [FileOp.onArrays, hab i hop]
    exact ⟨trivial, hab⟩
  | write i offset bytes now =>
    simp only [FileOp.onArrays, hab i hop]
    split
    · exact ⟨rfl, hab⟩
    split
    · exact ⟨rfl, hab⟩
    · exact ⟨rfl, hupdate _⟩
  | truncate i size now =>
    simp only [FileOp.onArrays, hab i hop]
    exact ⟨trivial, hupdate _⟩

/-- On a consistent volume, if the gaps that writes leave hold zeros, the operations return what
they should by the arrays of bytes. -/
theorem files_are_arrays (hL : L.Proper) (files : Set ℕ) (sh : Shared L) (hs : sh.Sound)
    (hc : sh.view.Consistent files) (ops : List FileOp)
    (hops : Along Shared.after (fun sh op => op.Fits files sh.view ∧ op.GapClear sh.view) sh ops) :
    outcomes sh ops = arrayOutcomes sh.view.contents ops := by
  suffices hall : ∀ a : ℕ → Contents, (∀ j ∈ files, a j = sh.view.contents j) →
      outcomes sh ops = arrayOutcomes a ops from hall _ fun _ _ => rfl
  induction ops generalizing sh with
  | nil => exact fun _ _ => rfl
  | cons op ops ih =>
    intro a ha
    obtain ⟨⟨hfits, hgap⟩, hrest⟩ := hops
    obtain ⟨v', ⟨hs', rfl⟩, hc', hr, hv'⟩ := ensures_op hL hc op hfits hgap sh ⟨hs, rfl⟩
    obtain ⟨hout, hnext⟩ := FileOp.onArrays_congr ha op hfits.1
    rw [outcomes, arrayOutcomes, hout]
    congr 1
    refine ih (sh.after op) hs' hc' hrest _ fun j hj => ?_
    rw [hnext j hj]
    exact (hv' j hj).symm

end Runs

/-! ### A file written by another system -/

def smallLayout : Layout where
  sectorsPerCluster := 1
  fatCount := 2
  fsinfoSector := 1
  fatStart := 32
  fatSectors := 512
  dataStart := 1056
  clusterCount := 65525
  rootCluster := 2

theorem smallLayout_proper : smallLayout.Proper := by
  refine ⟨⟨?_, ?_, ?_, ?_, ?_, ?_⟩, ?_⟩ <;> decide

/-- The root directory has cluster 2.  The only file has one byte, in cluster 3, which is full of
what was there before. -/
def staleVolume : Shared smallLayout where
  disk lba :=
    if lba = 32 ∨ lba = 544 then put32 (put32 (fun _ => 0) 8 fatEndMark) 12 fatEndMark
    else if lba = 1057 then fun _ => 0xAA
    else fun _ => 0
  fatCacheSector := 0
  fatCache _ := 0
  allocHint := 2
  fsinfoInvalidated := false
  nodes _ := { firstCluster := 3, entryLba := 1056, entryOffset := 0, size := 1, mtime := 0,
               entry_in_data := .inr le_rfl }

theorem staleVolume_sound : staleVolume.Sound := by
  refine ⟨fun h => absurd rfl h, fun copy hcopy row hr => ?_⟩
  have hcopy : copy < 2 := hcopy
  have hr : row < 512 := hr
  interval_cases copy
  · rw [Nat.zero_mul, Nat.add_zero]
  · change staleVolume.disk (32 + 1 * 512 + row) = staleVolume.disk (32 + row)
    simp only [staleVolume]
    rcases Nat.eq_zero_or_pos row with rfl | hpos
    · rfl
    · rw [if_neg (by omega), if_neg (by omega), if_neg (by omega), if_neg (by omega)]

theorem staleVolume_chain : staleVolume.view.IsChain [3] := by
  refine ⟨?_, nodup_singleton 3, .singleton 3, ?_⟩
  · decide
  · intro c hc
    cases hc
    decide +kernel

theorem staleVolume_chainOf (i : ℕ) : staleVolume.view.chainOf i = [3] :=
  staleVolume_chain.chainOf_eq smallLayout_proper rfl

theorem staleVolume_consistent : staleVolume.view.Consistent {0} := by
  refine ⟨fun i _ => ?_, fun i _ => ?_, fun i _ => ?_, fun i hi j hj hij => ?_, fun i _ => ?_, ?_⟩
  · rw [staleVolume_chainOf]
    exact staleVolume_chain
  · rfl
  · rw [staleVolume_chainOf]
    change 1 ≤ 1 * 512
    omega
  · exact absurd (hi.trans hj.symm) hij
  · refine ⟨2, 0, ⟨by decide, by decide, rfl⟩, ?_, fun j _ => ?_⟩
    · decide +kernel
    · rw [staleVolume_chainOf]
      decide
  · exact ⟨by decide, by decide⟩

theorem staleVolume_room {n : ℕ} (hn : n ≤ 512) : staleVolume.view.Room 0 n := by
  have hbytes : smallLayout.clusterBytes = 512 := rfl
  rw [View.Room, staleVolume_chainOf, hbytes, length_singleton]
  generalize staleVolume.view.freeCount = free
  omega

/-- A byte is written after a gap of one byte, which is then read. -/
def gapRun : List FileOp := [.write 0 2 [7] ⟨0, 0, 0⟩, .read 0 1 1]

theorem gap_shows_old_bytes :
    smallLayout.Proper ∧ staleVolume.Sound ∧ staleVolume.view.Consistent {0} ∧
      Along Shared.after (fun sh op => op.Fits {0} sh.view) staleVolume gapRun ∧
      outcomes staleVolume gapRun = [.count (.ok 1), .bytes [0xAA]] ∧
      arrayOutcomes staleVolume.view.contents gapRun = [.count (.ok 1), .bytes [0]] := by
  refine ⟨smallLayout_proper, staleVolume_sound, staleVolume_consistent, ⟨⟨rfl, ?_⟩, ⟨rfl, trivial⟩,
    trivial⟩, ?_, ?_⟩
  · exact staleVolume_room (by decide +kernel)
  · decide +kernel
  · decide +kernel

theorem files_are_arrays_rewritten :
    outcomes staleVolume [.write 0 1 [7, 8] ⟨0, 0, 0⟩, .read 0 0 3] =
      [.count (.ok 2), .bytes [0xAA, 7, 8]] := by
  rw [files_are_arrays smallLayout_proper {0} staleVolume staleVolume_sound staleVolume_consistent]
  · decide +kernel
  · refine ⟨⟨⟨rfl, ?_⟩, fun q hlo hhi => ?_⟩, ⟨⟨rfl, trivial⟩, trivial⟩, trivial⟩
    · exact staleVolume_room (by decide +kernel)
    · have hsize : (staleVolume.view.nodes 0).size = 1 := rfl
      omega

end Bashket.Fat
