import Bashket.Lib.Bytes
import Bashket.Lib.Program

/-!
# A FAT32 volume and the operations on it

The operations of the driver are programs: at every call a program may be stopped and another task
go on. A call is one access to the disk (through the buffer cache), which never fails here, one
access to what the driver keeps in memory, or one of `next_cluster` and `set_fat_entry`, which take
several steps of their own and are modelled in `Bashket.Fat.Cache`.
-/

namespace Bashket.Fat

open Bytes Program

/-! ### The layout -/

abbrev sectorSize : ℕ := 512

/-- `FAT_END`: this value or above ends a chain. -/
abbrev fatEnd : ℕ := 0x0FFFFFF8

/-- `FAT_END_MARK`: what is written to end a chain. -/
abbrev fatEndMark : ℕ := 0x0FFFFFFF

abbrev fatFree : ℕ := 0

abbrev maxWriteBytes : ℕ := 64 * 1024

/-- `fat32_layout_t` -/
structure Layout where
  sectorsPerCluster : ℕ
  fatCount : ℕ
  fsinfoSector : ℕ
  fatStart : ℕ
  fatSectors : ℕ
  dataStart : ℕ
  clusterCount : ℕ
  rootCluster : ℕ
deriving DecidableEq, Repr

/-- A number with one bit set, as `n & (n - 1)` tells. -/
def powerOfTwo (n : ℕ) : Bool := n &&& (n - 1) = 0

/-- `fat32_parse_boot_sector` -/
def parseBootSector (sector : Memory) (diskSectors : ℕ) : Option Layout :=
  let sectorsPerCluster := (sector 13).toNat
  let reserved := get16 sector 14
  let fatCount := (sector 16).toNat
  let totalSectors := get32 sector 32
  let fatSectors := get32 sector 36
  let rootCluster := get32 sector 44
  let dataStart := reserved + fatCount * fatSectors
  let clusterCount := (totalSectors - dataStart) / sectorsPerCluster
  if sector 510 ≠ 0x55 ∨ sector 511 ≠ 0xAA then none
  else if get16 sector 11 ≠ sectorSize then none
  else if sectorsPerCluster = 0 ∨ sectorsPerCluster > 128 then none
  else if !powerOfTwo sectorsPerCluster then none
  else if reserved = 0 ∨ fatCount = 0 ∨ fatCount > 4 then none
  -- these mean FAT12 or FAT16
  else if get16 sector 17 ≠ 0 ∨ get16 sector 19 ≠ 0 ∨ get16 sector 22 ≠ 0 then none
  else if fatSectors = 0 ∨ totalSectors = 0 then none
  else if totalSectors > diskSectors then none
  else if dataStart ≥ totalSectors then none
  else if clusterCount < 65525 then none
  else if clusterCount + 2 > fatSectors * (sectorSize / 4) then none
  else if rootCluster < 2 ∨ rootCluster ≥ clusterCount + 2 then none
  else some
    { sectorsPerCluster, fatCount, fsinfoSector := get16 sector 48, fatStart := reserved,
      fatSectors, dataStart, clusterCount, rootCluster }

structure Layout.Ok (L : Layout) : Prop where
  sectors_pos : 0 < L.sectorsPerCluster
  fat_pos : 0 < L.fatStart
  copies_pos : 0 < L.fatCount
  data_eq : L.dataStart = L.fatStart + L.fatCount * L.fatSectors
  clusters_pos : 0 < L.clusterCount
  covered : L.clusterCount + 2 ≤ L.fatSectors * (sectorSize / 4)

theorem parseBootSector_ok {sector : Memory} {diskSectors : ℕ} {L : Layout}
    (h : parseBootSector sector diskSectors = some L) : L.Ok := by
  unfold parseBootSector at h
  simp only [Option.ite_none_left_eq_some, Option.some.injEq, not_or, not_lt] at h
  obtain ⟨-, -, hspc, -, hres, -, -, -, -, hcount, hcover, -, rfl⟩ := h
  constructor <;> dsimp only <;> omega

namespace Layout

variable (L : Layout)

def validCluster (cluster : ℕ) : Prop := 2 ≤ cluster ∧ cluster < L.clusterCount + 2

instance (cluster : ℕ) : Decidable (L.validCluster cluster) :=
  inferInstanceAs (Decidable (_ ∧ _))

def clusterToSector (cluster : ℕ) : ℕ := L.dataStart + (cluster - 2) * L.sectorsPerCluster

def clusterBytes : ℕ := L.sectorsPerCluster * sectorSize

/-- The sector of the first FAT that holds the entry of `cluster`. -/
def fatSector (cluster : ℕ) : ℕ := L.fatStart + cluster / (sectorSize / 4)

def InFat (lba : ℕ) : Prop := L.fatStart ≤ lba ∧ lba < L.fatStart + L.fatSectors

end Layout

/-- The place of the entry of `cluster` in its sector. -/
def entryPlace (cluster : ℕ) : ℕ := cluster % (sectorSize / 4) * 4

/-- The entry of `cluster` in the sector `sector` of the FAT, without its reserved bits. -/
def entryIn (sector : Memory) (cluster : ℕ) : ℕ := get32 sector (entryPlace cluster) % 2 ^ 28

/-- The cluster after `cluster` in its chain by the sector `sector` of the FAT: the end of
`next_cluster`. -/
def Layout.link (L : Layout) (sector : Memory) (cluster : ℕ) : ℕ :=
  let entry := entryIn sector cluster
  if entry ≥ fatEnd then 0 else if L.validCluster entry then entry else 0

/-- The sector with the entry of `cluster` set to `value`, its reserved bits kept. -/
def withEntry (sector : Memory) (cluster value : ℕ) : Memory :=
  let old := get32 sector (entryPlace cluster)
  put32 sector (entryPlace cluster) (old - old % 2 ^ 28 + value % 2 ^ 28)

/-! ### Programs -/

/-- `fat_node_t`, with the size and time of its `vnode_t`. Directory entries are in the data
area. -/
structure Node (L : Layout) where
  firstCluster : ℕ
  entryLba : ℕ
  entryOffset : ℕ
  size : ℕ
  mtime : ℕ
  entry_in_data : entryLba = 0 ∨ L.dataStart ≤ entryLba

inductive Call (L : Layout)
  | nextCluster (cluster : ℕ)
  | setFatEntry (cluster value : ℕ)
  | bcacheRead (lba : ℕ)
  | bcacheWrite (lba : ℕ) (sector : Memory)
  | allocHint
  | setAllocHint (cluster : ℕ)
  | node (i : ℕ)
  | setNode (i : ℕ) (n : Node L)

def Call.Answer {L : Layout} : Call L → Type
  | .nextCluster _ => ℕ
  | .setFatEntry _ _ => Bool
  | .bcacheRead _ => Memory
  | .bcacheWrite _ _ => Unit
  | .allocHint => ℕ
  | .setAllocHint _ => Unit
  | .node _ => Node L
  | .setNode _ _ => Unit

abbrev FatProg (L : Layout) : Type → Type := Prog (Call L) Call.Answer

structure Now where
  date : ℕ
  time : ℕ
  seconds : ℕ

inductive Err
  | nospc
  | io
deriving DecidableEq, Repr

section Calls

variable {L : Layout}

def nextCluster (cluster : ℕ) : FatProg L ℕ := Prog.ask (Call.nextCluster cluster)

def setFatEntry (cluster value : ℕ) : FatProg L Bool := Prog.ask (Call.setFatEntry cluster value)

/-- `bcache_read` of one sector. -/
def bcacheRead (lba : ℕ) : FatProg L Memory := Prog.ask (Call.bcacheRead lba)

/-- `bcache_write` of one sector. -/
def bcacheWrite (lba : ℕ) (sector : Memory) : FatProg L Unit := Prog.ask (Call.bcacheWrite lba sector)

def allocHint : FatProg L ℕ := Prog.ask Call.allocHint

def setAllocHint (cluster : ℕ) : FatProg L Unit := Prog.ask (Call.setAllocHint cluster)

def node (i : ℕ) : FatProg L (Node L) := Prog.ask (Call.node i)

def setNode (i : ℕ) (n : Node L) : FatProg L Unit := Prog.ask (Call.setNode i n)

end Calls

variable (L : Layout)

/-! ### Reading -/

/-- The walk of `read_chain` to the cluster that holds the first byte. -/
def skipClusters : ℕ → ℕ → FatProg L ℕ
  | 0, cluster => pure cluster
  | skip + 1, cluster => do
    if cluster = 0 then return 0
    skipClusters skip (← nextCluster cluster)

/-- The loop of `read_chain`: `left` bytes from place `within` of `cluster` on, after `out`. -/
def readLoop : ℕ → (cluster within steps left : ℕ) → List UInt8 → FatProg L (List UInt8)
  | 0, _, _, _, _, out => pure out
  | fuel + 1, cluster, within, steps, left, out => do
    if left = 0 ∨ ¬ L.validCluster cluster then return out
    let sector ← bcacheRead (L.clusterToSector cluster + within / sectorSize)
    let inSector := within % sectorSize
    let chunk := min (sectorSize - inSector) left
    let out := out ++ slice sector inSector chunk
    if within + chunk = L.clusterBytes then
      let next ← nextCluster cluster
      -- a chain longer than the volume is a loop
      if steps + 1 > L.clusterCount then return out
      readLoop fuel next 0 (steps + 1) (left - chunk) out
    else readLoop fuel cluster (within + chunk) steps (left - chunk) out

def readChain (firstCluster limit offset count : ℕ) : FatProg L (List UInt8) := do
  if offset ≥ limit then return []
  let count := min count (limit - offset)
  let cluster ← skipClusters L (offset / L.clusterBytes) firstCluster
  readLoop L count cluster (offset % L.clusterBytes) 0 count []

def fatFileRead (i offset count : ℕ) : FatProg L (List UInt8) := do
  let info ← node i
  readChain L info.firstCluster info.size offset count

/-! ### Changing the FAT -/

/-- Read the sector `lba` if `c` holds; otherwise go on with `sector`. -/
def readIf (c : Prop) [Decidable c] (lba : ℕ) (sector : Memory) : FatProg L Memory :=
  if c then bcacheRead lba else pure sector

def zeroCluster (cluster : ℕ) : FatProg L Unit :=
  (List.range L.sectorsPerCluster).forM fun s =>
    bcacheWrite (L.clusterToSector cluster + s) fun _ => 0

/-- The loop of `allocate_cluster`, with `sector` the sector `loaded` of the FAT (0: none). -/
def allocateLoop (hint : ℕ) : ℕ → (n loaded : ℕ) → Memory → FatProg L ℕ
  | 0, _, _, _ => pure 0
  | fuel + 1, n, loaded, sector => do
    let cluster := 2 + (hint - 2 + n) % 2 ^ 32 % L.clusterCount
    let lba := L.fatSector cluster
    let sector ← readIf L (lba ≠ loaded) lba sector
    if entryIn sector cluster = fatFree then
      if !(← setFatEntry cluster fatEndMark) then return 0
      setAllocHint (cluster + 1)
      return cluster
    allocateLoop hint fuel (n + 1) lba sector

def allocateCluster : FatProg L ℕ := do
  allocateLoop L (← allocHint) L.clusterCount 0 0 fun _ => 0

def freeLoop : ℕ → ℕ → FatProg L Unit
  | 0, _ => pure ()
  | fuel + 1, cluster => do
    if ¬ L.validCluster cluster then return
    let next ← nextCluster cluster
    let _ ← setFatEntry cluster fatFree
    let hint ← allocHint
    (setAllocHint cluster).when (cluster < hint)
    freeLoop fuel next

def freeChain (cluster : ℕ) : FatProg L Unit := freeLoop L (L.clusterCount + 1) cluster

/-- A directory entry with another first cluster, size and time of writing. -/
def stampEntry (sector : Memory) (offset firstCluster size : ℕ) (now : Now) : Memory :=
  let sector := put16 sector (offset + 20) (firstCluster / 2 ^ 16)
  let sector := put16 sector (offset + 26) firstCluster
  let sector := put32 sector (offset + 28) size
  let sector := put16 sector (offset + 24) now.date
  let sector := put16 sector (offset + 18) now.date
  put16 sector (offset + 22) now.time

def updateEntry (info : Node L) (firstCluster size : ℕ) (now : Now) : FatProg L Unit := do
  -- the root directory has no entry
  if info.entryLba = 0 then return
  let sector ← bcacheRead info.entryLba
  bcacheWrite info.entryLba (stampEntry sector info.entryOffset firstCluster size now)

/-! ### Writing files -/

/-- The inner loop of `write_locked`: `bytes` into `cluster` from its place `start` on. -/
def writeSectors (cluster : ℕ) : ℕ → ℕ → List UInt8 → FatProg L Unit
  | 0, _, _ => pure ()
  | fuel + 1, start, bytes => do
    if bytes = [] then return
    let lba := L.clusterToSector cluster + start / sectorSize
    let inSector := start % sectorSize
    let chunk := min (sectorSize - inSector) bytes.length
    -- part of a sector: the rest of it is kept
    let sector ← readIf L (chunk < sectorSize) lba fun _ => 0
    bcacheWrite lba (copyIn sector inSector (bytes.take chunk))
    writeSectors cluster fuel (start + chunk) (bytes.drop chunk)

structure Walk where
  cluster : ℕ
  previous : ℕ
  done : ℕ
  firstClusterChanged : Bool

/-- The new cluster `added` after the last of the chain, or as its first. -/
def linkCluster (i added : ℕ) (w : Walk) : FatProg L (Option Walk) := do
  if w.previous ≠ 0 then
    if !(← setFatEntry w.previous added) then
      let _ ← setFatEntry added fatFree
      return none
    return some { w with cluster := added }
  let info ← node i
  setNode i { info with firstCluster := added }
  return some { w with cluster := added, firstClusterChanged := true }

/-- The chain ends before `position`: add a cluster to it.  `none` if there is none left. -/
def addCluster (i offset stop position : ℕ) (w : Walk) : FatProg L (Option Walk) := do
  let added ← allocateCluster L
  if added = 0 then return none
  -- what the write does not cover of the new cluster must read as zeros
  (zeroCluster L added).when ¬ (offset ≤ position ∧ stop ≥ position + L.clusterBytes)
  linkCluster L i added w

/-- The walk is at a cluster of the chain, an added one where the chain ends. -/
def reachCluster (i offset stop position : ℕ) (w : Walk) : FatProg L (Option Walk) :=
  if L.validCluster w.cluster then pure (some w) else addCluster L i offset stop position w

/-- The loop of `write_locked`, one cluster of the file at a time. -/
def writeLoop (i offset : ℕ) (data : List UInt8) : ℕ → ℕ → Walk → FatProg L Walk
  | 0, _, w => pure w
  | fuel + 1, position, w => do
    let stop := offset + data.length
    if ¬ position < stop then return w
    let some w' ← reachCluster L i offset stop position w | return w
    let start := offset - position
    let upto := min (stop - position) L.clusterBytes
    let len := if position + L.clusterBytes > offset then upto - start else 0
    writeSectors L w'.cluster len start ((data.drop w'.done).take len)
    let next ← nextCluster w'.cluster
    writeLoop i offset data fuel (position + L.clusterBytes)
      { w' with done := w'.done + len, previous := w'.cluster, cluster := next }

/-- The new size and first cluster, in the directory entry and in the node. -/
def recordWrite (i offset : ℕ) (w : Walk) (now : Now) : FatProg L Unit := do
  let info ← node i
  let reached := if w.done > 0 then offset + w.done else 0
  let newSize := max reached info.size
  updateEntry L info info.firstCluster newSize now
  setNode i { info with size := newSize, mtime := now.seconds }

def writeLocked (i offset : ℕ) (data : List UInt8) (now : Now) : FatProg L (Except Err ℕ) := do
  let info ← node i
  let w ← writeLoop L i offset data (offset + data.length) 0
    { cluster := info.firstCluster, previous := 0, done := 0, firstClusterChanged := false }
  (recordWrite L i offset w now).when (w.done > 0 ∨ w.firstClusterChanged)
  if w.done = 0 ∧ data ≠ [] then return .error .nospc
  return .ok w.done

/-- `fat_file_write` with the volume lock; a write beyond 4 GiB is refused before. -/
def fatFileWrite (i offset : ℕ) (bytes : List UInt8) (now : Now) : FatProg L (Except Err ℕ) := do
  if bytes = [] then return .ok 0
  let data := bytes.take maxWriteBytes
  if offset > 0xFFFFFFFF ∨ data.length > 0xFFFFFFFF - offset then return .error .nospc
  writeLocked L i offset data now

/-! ### Cutting files -/

/-- The walk of `fat_file_truncate` to the cluster that holds the last byte kept. -/
def lastKept (size : ℕ) : ℕ → (at_ last : ℕ) → FatProg L ℕ
  | 0, _, last => pure last
  | fuel + 1, at_, last => do
    if ¬ (at_ < size ∧ L.validCluster last) then return last
    lastKept size fuel (at_ + L.clusterBytes) (← nextCluster last)

/-- Zero the rest of the cluster `last` of a file cut to `size` bytes. -/
def zeroRest (last size : ℕ) : FatProg L Unit := do
  let within := size % L.clusterBytes
  if within = 0 then return
  (List.range' (within / sectorSize) (L.sectorsPerCluster - within / sectorSize)).forM fun s => do
    let lba := L.clusterToSector last + s
    let start := if s = within / sectorSize then within % sectorSize else 0
    let sector ← readIf L (start ≠ 0) lba fun _ => 0
    bcacheWrite lba fun p => if start ≤ p then 0 else sector p

/-- The clusters of the chain after `last`, from `rest` on, are cut off and freed. -/
def cutChain (last rest : ℕ) : FatProg L Bool := do
  if ¬ L.validCluster rest then return true
  if !(← setFatEntry last fatEndMark) then return false
  freeChain L rest
  return true

def fatFileTruncate (i size : ℕ) (now : Now) : FatProg L (Except Err Unit) := do
  let info ← node i
  if size = 0 then
    updateEntry L info 0 0 now
    setNode i { info with firstCluster := 0, size := 0 }
    freeChain L info.firstCluster
    return .ok ()
  let last ← lastKept L size size L.clusterBytes info.firstCluster
  if ¬ L.validCluster last then return .error .io
  zeroRest L last size
  let rest ← nextCluster last
  updateEntry L info info.firstCluster size now
  if !(← cutChain L last rest) then return .error .io
  let info ← node i
  setNode i { info with size, mtime := now.seconds }
  return .ok ()

/-! ### What the operations may touch -/

variable {L}

/-- A call that writes no sector of the first FAT by itself: only `set_fat_entry` changes it. -/
def Call.OffFat : Call L → Prop
  | .bcacheWrite lba _ => ¬ L.InFat lba
  | _ => True

def Call.Reading : Call L → Prop
  | .nextCluster _ => True
  | .bcacheRead _ => True
  | .node _ => True
  | _ => False

theorem Layout.Ok.not_inFat (hL : L.Ok) {lba : ℕ} (h : L.dataStart ≤ lba) : ¬ L.InFat lba := by
  intro hin
  have hcopies : L.fatSectors ≤ L.fatCount * L.fatSectors := Nat.le_mul_of_pos_left _ hL.copies_pos
  have hdata := hL.data_eq
  unfold Layout.InFat at hin
  omega

theorem Layout.Ok.inFat_fatSector (hL : L.Ok) {cluster : ℕ} (h : L.validCluster cluster) :
    L.InFat (L.fatSector cluster) := by
  have hcover := hL.covered
  have hrow : cluster / (sectorSize / 4) < L.fatSectors :=
    Nat.div_lt_of_lt_mul (by rw [Nat.mul_comm]; exact h.2.trans_le hcover)
  exact ⟨Nat.le_add_right _ _, Nat.add_lt_add_left hrow _⟩

theorem skipClusters_reading (skip cluster : ℕ) :
    (skipClusters L skip cluster).Only Call.Reading := by
  induction skip generalizing cluster with
  | zero => exact Prog.only_pure _
  | succ skip ih =>
    unfold skipClusters
    split
    · exact Prog.only_pure _
    · exact ((Prog.only_ask _).2 trivial).bind fun _ => ih _

theorem readLoop_reading (fuel cluster within steps left : ℕ) (out : List UInt8) :
    (readLoop L fuel cluster within steps left out).Only Call.Reading := by
  induction fuel generalizing cluster within steps left out with
  | zero => exact Prog.only_pure _
  | succ fuel ih =>
    unfold readLoop
    split
    · exact Prog.only_pure _
    refine ((Prog.only_ask _).2 trivial).bind fun sector => ?_
    dsimp only
    split
    · refine ((Prog.only_ask _).2 trivial).bind fun next => ?_
      split
      · exact Prog.only_pure _
      · exact ih ..
    · exact ih ..

theorem readChain_reading (firstCluster limit offset count : ℕ) :
    (readChain L firstCluster limit offset count).Only Call.Reading := by
  unfold readChain
  split
  · exact Prog.only_pure _
  · exact (skipClusters_reading _ _).bind fun _ => readLoop_reading ..

theorem fatFileRead_reading (i offset count : ℕ) :
    (fatFileRead L i offset count).Only Call.Reading :=
  ((Prog.only_ask _).2 trivial).bind fun _ => readChain_reading ..

theorem only_offFat {c : Call L} (h : c.OffFat) :
    (Prog.ask c : FatProg L c.Answer).Only Call.OffFat := (Prog.only_ask c).2 h

theorem nextCluster_offFat (cluster : ℕ) :
    (nextCluster cluster : FatProg L ℕ).Only Call.OffFat := only_offFat trivial

theorem setFatEntry_offFat (cluster value : ℕ) :
    (setFatEntry cluster value : FatProg L Bool).Only Call.OffFat := only_offFat trivial

theorem allocHint_offFat : (allocHint : FatProg L ℕ).Only Call.OffFat := only_offFat trivial

theorem setAllocHint_offFat (cluster : ℕ) :
    (setAllocHint cluster : FatProg L Unit).Only Call.OffFat := only_offFat trivial

theorem node_offFat (i : ℕ) : (node i : FatProg L (Node L)).Only Call.OffFat := only_offFat trivial

theorem setNode_offFat (i : ℕ) (n : Node L) :
    (setNode i n : FatProg L Unit).Only Call.OffFat := only_offFat trivial

theorem bcacheRead_offFat (lba : ℕ) :
    (bcacheRead lba : FatProg L Memory).Only Call.OffFat := only_offFat trivial

theorem readIf_offFat (c : Prop) [Decidable c] (lba : ℕ) (sector : Memory) :
    (readIf L c lba sector).Only Call.OffFat := by
  unfold readIf
  split
  · exact bcacheRead_offFat lba
  · exact Prog.only_pure _

theorem allocateLoop_offFat (hint fuel n loaded : ℕ) (sector : Memory) :
    (allocateLoop L hint fuel n loaded sector).Only Call.OffFat := by
  induction fuel generalizing n loaded sector with
  | zero => exact Prog.only_pure _
  | succ fuel ih =>
    refine (readIf_offFat ..).bind fun sector => ?_
    split
    · refine (setFatEntry_offFat ..).bind fun ok => ?_
      split
      · exact Prog.only_pure _
      · exact (setAllocHint_offFat _).bind fun _ => Prog.only_pure _
    · exact ih ..

theorem allocateCluster_offFat : (allocateCluster L).Only Call.OffFat :=
  allocHint_offFat.bind fun _ => allocateLoop_offFat ..

theorem linkCluster_offFat (i added : ℕ) (w : Walk) :
    (linkCluster L i added w).Only Call.OffFat := by
  unfold linkCluster
  split
  · refine (setFatEntry_offFat ..).bind fun ok => ?_
    split
    · exact (setFatEntry_offFat ..).bind fun _ => Prog.only_pure _
    · exact Prog.only_pure _
  · exact (node_offFat i).bind fun info => (setNode_offFat ..).bind fun _ => Prog.only_pure _

section Writes

variable (hL : L.Ok)
include hL

theorem bcacheWrite_offFat (cluster s : ℕ) (sector : Memory) :
    (bcacheWrite (L.clusterToSector cluster + s) sector : FatProg L Unit).Only Call.OffFat :=
  only_offFat (hL.not_inFat (by unfold Layout.clusterToSector; omega))

theorem zeroCluster_offFat (cluster : ℕ) : (zeroCluster L cluster).Only Call.OffFat :=
  Prog.Only.forM fun s _ => bcacheWrite_offFat hL cluster s _

theorem updateEntry_offFat (info : Node L) (firstCluster size : ℕ) (now : Now) :
    (updateEntry L info firstCluster size now).Only Call.OffFat := by
  unfold updateEntry
  split
  · exact Prog.only_pure _
  next hroot =>
    refine (bcacheRead_offFat _).bind fun sector => only_offFat (hL.not_inFat ?_)
    exact info.entry_in_data.resolve_left hroot

theorem writeSectors_offFat (cluster fuel start : ℕ) (bytes : List UInt8) :
    (writeSectors L cluster fuel start bytes).Only Call.OffFat := by
  induction fuel generalizing start bytes with
  | zero => exact Prog.only_pure _
  | succ fuel ih =>
    unfold writeSectors
    split
    · exact Prog.only_pure _
    · exact (readIf_offFat ..).bind fun sector => (bcacheWrite_offFat hL ..).bind fun _ => ih ..

theorem reachCluster_offFat (i offset stop position : ℕ) (w : Walk) :
    (reachCluster L i offset stop position w).Only Call.OffFat := by
  unfold reachCluster
  split
  · exact Prog.only_pure _
  refine allocateCluster_offFat.bind fun added => ?_
  split
  · exact Prog.only_pure _
  · exact (zeroCluster_offFat hL added).when.bind fun _ => linkCluster_offFat i added w

theorem writeLoop_offFat (i offset : ℕ) (data : List UInt8) (fuel position : ℕ) (w : Walk) :
    (writeLoop L i offset data fuel position w).Only Call.OffFat := by
  induction fuel generalizing position w with
  | zero => exact Prog.only_pure _
  | succ fuel ih =>
    unfold writeLoop
    dsimp only
    split
    · exact Prog.only_pure _
    refine (reachCluster_offFat hL ..).bind fun r => ?_
    split
    · exact (writeSectors_offFat hL ..).bind fun _ => (nextCluster_offFat _).bind fun _ => ih ..
    · exact Prog.only_pure _

theorem writeLocked_offFat (i offset : ℕ) (data : List UInt8) (now : Now) :
    (writeLocked L i offset data now).Only Call.OffFat := by
  refine (node_offFat i).bind fun info => (writeLoop_offFat hL ..).bind fun w =>
    Prog.Only.bind (Prog.Only.when ?_) fun _ => ?_
  · exact (node_offFat i).bind fun _ => (updateEntry_offFat hL ..).bind fun _ => setNode_offFat ..
  · split <;> exact Prog.only_pure _

theorem fatFileWrite_offFat (i offset : ℕ) (bytes : List UInt8) (now : Now) :
    (fatFileWrite L i offset bytes now).Only Call.OffFat := by
  unfold fatFileWrite
  dsimp only
  split
  · exact Prog.only_pure _
  split
  · exact Prog.only_pure _
  · exact writeLocked_offFat hL ..

end Writes

end Bashket.Fat
