import Bashket.Fat.Cache

/-!
# The volume under one task at a time

When nobody else acts, every call of a program is one step (`Shared.answer`), and the cached sector
and the copies of the FAT agree with the disk (`Shared.Sound`). What is left to know about the
volume is its `View`: the entry and the bytes of every cluster, and what the driver remembers. Each
call is a simple change of the view.
-/

namespace Bashket.Fat

open Bytes Program
open Function (update update_apply update_eq_self update_idem update_of_ne update_self)

variable {L : Layout}

/-! ### Calls in one step -/

def Shared.nextCluster (sh : Shared L) (cluster : ℕ) : Shared L × ℕ :=
  if ¬ L.validCluster cluster then (sh, 0)
  else if sh.fatCacheSector = L.fatSector cluster then (sh, L.link sh.fatCache cluster)
  else
    let fresh := sh.disk (L.fatSector cluster)
    ({ sh with fatCache := fresh, fatCacheSector := L.fatSector cluster }, L.link fresh cluster)

def Shared.invalidateFsinfo (sh : Shared L) : Shared L :=
  if sh.fsinfoInvalidated then sh
  else if L.fsinfoSector = 0 ∨ L.fsinfoSector ≥ L.fatStart then
    { sh with fsinfoInvalidated := true }
  else
    let sector := sh.disk L.fsinfoSector
    if get32 sector 0 ≠ 0x41615252 ∨ get32 sector 484 ≠ 0x61417272 then
      { sh with fsinfoInvalidated := true }
    else
      { sh with
        fsinfoInvalidated := true
        disk := update sh.disk L.fsinfoSector (unknownFree sector) }

/-- The disk with `sector` written to row `row` of the FAT copies from `copy` on, `n` of them. -/
def Layout.writeCopies (L : Layout) (row : ℕ) (sector : Memory) (copy : ℕ) (disk : ℕ → Memory) :
    ℕ → ℕ → Memory
  | 0 => disk
  | n + 1 => writeCopies L row sector (copy + 1)
      (update disk (L.fatStart + copy * L.fatSectors + row) sector) n

def Shared.setFatEntry (sh : Shared L) (cluster value : ℕ) : Shared L × Bool :=
  if ¬ L.validCluster cluster then (sh, false)
  else
    let sh := sh.invalidateFsinfo
    let sector := withEntry (sh.disk (L.fatSector cluster)) cluster value
    let disk := L.writeCopies (cluster / (sectorSize / 4)) sector 0 sh.disk L.fatCount
    (if sh.fatCacheSector = L.fatSector cluster then { sh with disk, fatCache := sector }
      else { sh with disk }, true)

/-- What a call does and what it is answered, when nobody else acts. -/
def Shared.answer (sh : Shared L) : (c : Call L) → Shared L × c.Answer
  | .nextCluster cluster => sh.nextCluster cluster
  | .setFatEntry cluster value => sh.setFatEntry cluster value
  | .bcacheRead lba => (sh, sh.disk lba)
  | .bcacheWrite lba sector => ({ sh with disk := update sh.disk lba sector }, ())
  | .allocHint => (sh, sh.allocHint)
  | .setAllocHint cluster => ({ sh with allocHint := cluster }, ())
  | .node i => (sh, sh.nodes i)
  | .setNode i n => ({ sh with nodes := update sh.nodes i n }, ())

/-! ### A thread that is alone -/

/-! ### What the volume shows -/

/-- The cached sector is one of the FAT as it is on the disk, and all copies of the FAT are the
same. -/
structure Shared.Sound (sh : Shared L) : Prop where
  cache : sh.fatCacheSector ≠ 0 →
    L.InFat sh.fatCacheSector ∧ sh.fatCache = sh.disk sh.fatCacheSector
  copies : ∀ copy < L.fatCount, ∀ row < L.fatSectors,
    sh.disk (L.fatStart + copy * L.fatSectors + row) = sh.disk (L.fatStart + row)

/-- The FAT and the clusters, and what the driver remembers.  Outside the volume all is zero. -/
@[ext]
structure View (L : Layout) where
  entry : ℕ → ℕ
  byte : ℕ → ℕ → UInt8
  allocHint : ℕ
  nodes : ℕ → Node L

def Shared.view (sh : Shared L) : View L where
  entry c := if L.validCluster c then entryIn (sh.disk (L.fatSector c)) c else 0
  byte c q :=
    if L.validCluster c ∧ q < L.clusterBytes then
      sh.disk (L.clusterToSector c + q / sectorSize) (q % sectorSize)
    else 0
  allocHint := sh.allocHint
  nodes := sh.nodes

/-- A state without surprises, seen as `v`. -/
def Shows (sh : Shared L) (v : View L) : Prop := sh.Sound ∧ sh.view = v

/-- What a program run alone establishes, from the view `v` on. -/
abbrev Ensures {α : Type} (p : FatProg L α) (v : View L) (Q : View L → α → Prop) : Prop :=
  p.Ensures Shared.answer Shows v Q

/-- The cluster after one with this entry in a chain, 0 at its end. -/
def Layout.follow (L : Layout) (entry : ℕ) : ℕ :=
  if entry ≥ fatEnd then 0 else if L.validCluster entry then entry else 0

namespace View

variable (v : View L)

def setEntry (c value : ℕ) : View L :=
  { v with entry := update v.entry c (value % 2 ^ 28) }

def setCluster (c : ℕ) (m : Memory) : View L := { v with byte := update v.byte c m }

def setNode (i : ℕ) (n : Node L) : View L := { v with nodes := update v.nodes i n }

@[simp] theorem setEntry_entry_self (c value : ℕ) :
    (v.setEntry c value).entry c = value % 2 ^ 28 := update_self _ _ _

theorem setEntry_entry_of_ne {c d : ℕ} (value : ℕ) (h : d ≠ c) :
    (v.setEntry c value).entry d = v.entry d := update_of_ne h _ _

@[simp] theorem setCluster_byte_self (c : ℕ) (m : Memory) :
    (v.setCluster c m).byte c = m := update_self _ _ _

theorem setCluster_byte_of_ne {c d : ℕ} (m : Memory) (h : d ≠ c) :
    (v.setCluster c m).byte d = v.byte d := update_of_ne h _ _

@[simp] theorem setCluster_setCluster (c : ℕ) (m m' : Memory) :
    (v.setCluster c m).setCluster c m' = v.setCluster c m' := by
  simp only [setCluster, update_idem]

@[simp] theorem setCluster_byte (c : ℕ) : v.setCluster c (v.byte c) = v := by
  simp only [setCluster, update_eq_self]

end View

/-! ### Places on the disk -/

theorem Layout.div_lt_sectors {q : ℕ} (h : q < L.clusterBytes) :
    q / sectorSize < L.sectorsPerCluster :=
  Nat.div_lt_of_lt_mul (by rwa [Nat.mul_comm])

theorem row_column_inj {n a b r r' : ℕ} (hr : r < n) (hr' : r' < n)
    (h : a * n + r = b * n + r') : a = b ∧ r = r' := by
  have hpos : 0 < n := by omega
  rw [Nat.add_comm, Nat.add_comm (b * n)] at h
  have hdiv := congrArg (· / n) h
  simp only [Nat.add_mul_div_right _ _ hpos, Nat.div_eq_of_lt hr, Nat.div_eq_of_lt hr'] at hdiv
  have hmod := congrArg (· % n) h
  simp only [Nat.add_mul_mod_self_right, Nat.mod_eq_of_lt hr, Nat.mod_eq_of_lt hr'] at hmod
  exact ⟨by omega, hmod⟩

theorem Layout.clusterToSector_inj {c c' s s' : ℕ} (hc : L.validCluster c) (hc' : L.validCluster c')
    (hs : s < L.sectorsPerCluster) (hs' : s' < L.sectorsPerCluster)
    (h : L.clusterToSector c + s = L.clusterToSector c' + s') : c = c' ∧ s = s' := by
  have h2 := hc.1
  have h2' := hc'.1
  obtain ⟨hrow, hcol⟩ : c - 2 = c' - 2 ∧ s = s' := by
    apply row_column_inj hs hs'
    unfold Layout.clusterToSector at h
    omega
  exact ⟨by omega, hcol⟩

theorem Layout.dataStart_le (c s : ℕ) : L.dataStart ≤ L.clusterToSector c + s := by
  unfold Layout.clusterToSector
  omega

section Places

variable (hL : L.Ok)
include hL

theorem Layout.Ok.row_lt {c : ℕ} (h : L.validCluster c) : c / (sectorSize / 4) < L.fatSectors :=
  Nat.div_lt_of_lt_mul (by rw [Nat.mul_comm]; exact h.2.trans_le hL.covered)

theorem Layout.Ok.copy_lt {copy row : ℕ} (hc : copy < L.fatCount) (hr : row < L.fatSectors) :
    L.fatStart + copy * L.fatSectors + row < L.dataStart := by
  have hmul : (copy + 1) * L.fatSectors ≤ L.fatCount * L.fatSectors :=
    Nat.mul_le_mul_right _ hc
  rw [Nat.add_mul] at hmul
  have := hL.data_eq
  omega

theorem Layout.Ok.fatSector_lt {c : ℕ} (h : L.validCluster c) : L.fatSector c < L.dataStart := by
  have := hL.copy_lt hL.copies_pos (hL.row_lt h)
  unfold Layout.fatSector
  omega

end Places

variable {row copy lba n : ℕ} {sector : Memory} {disk : ℕ → Memory}

theorem Layout.copy_inj {a b r r' : ℕ} (hr : r < L.fatSectors) (hr' : r' < L.fatSectors)
    (h : L.fatStart + a * L.fatSectors + r = L.fatStart + b * L.fatSectors + r') :
    a = b ∧ r = r' := row_column_inj hr hr' (by omega)

/-! ### Entries of the FAT -/

theorem entryIn_withEntry (sector : Memory) (c value : ℕ) :
    entryIn (withEntry sector c value) c = value % 2 ^ 28 := by
  have hold := get32_lt sector (entryPlace c)
  have hvalue : value % 2 ^ 28 < 2 ^ 28 := Nat.mod_lt _ (by norm_num)
  unfold entryIn withEntry
  rw [get32_put32 _ _ (by omega)]
  omega

theorem entryIn_withEntry_of_ne {c c' : ℕ} (sector : Memory) (value : ℕ)
    (hrow : c' / (sectorSize / 4) = c / (sectorSize / 4)) (hne : c' ≠ c) :
    entryIn (withEntry sector c value) c' = entryIn sector c' := by
  unfold entryIn withEntry
  rw [get32_put32_of_disjoint]
  simp only [entryPlace, sectorSize] at hrow ⊢
  omega

theorem writeCopies_of_eq (h : disk lba = sector) :
    L.writeCopies row sector copy disk n lba = sector := by
  induction n generalizing copy disk with
  | zero => exact h
  | succ n ih =>
    refine ih ?_
    by_cases hlba : lba = L.fatStart + copy * L.fatSectors + row
    · rw [hlba, update_self]
    · rw [update_of_ne hlba, h]

theorem writeCopies_at {j : ℕ} (hj : copy ≤ j) (hn : j < copy + n) :
    L.writeCopies row sector copy disk n (L.fatStart + j * L.fatSectors + row) = sector := by
  induction n generalizing copy disk with
  | zero => omega
  | succ n ih =>
    rw [Layout.writeCopies]
    rcases hj.eq_or_lt with rfl | hlt
    · exact writeCopies_of_eq (update_self _ _ _)
    · exact ih hlt (by omega)

theorem writeCopies_of_ne (h : ∀ j, j < copy + n → lba ≠ L.fatStart + j * L.fatSectors + row) :
    L.writeCopies row sector copy disk n lba = disk lba := by
  induction n generalizing copy disk with
  | zero => rfl
  | succ n ih =>
    refine (ih fun j hj => h j (by omega)).trans ?_
    exact update_of_ne (h copy (by omega)) _ _

section Fsinfo

variable (sh : Shared L)

theorem Shared.invalidateFsinfo_disk {lba : ℕ} (h : L.fatStart ≤ lba) :
    sh.invalidateFsinfo.disk lba = sh.disk lba := by
  unfold Shared.invalidateFsinfo
  split
  · rfl
  split
  · rfl
  next hplace =>
    dsimp only
    split
    · rfl
    · exact update_of_ne (by omega) _ _

theorem Shared.invalidateFsinfo_rest :
    sh.invalidateFsinfo.fatCacheSector = sh.fatCacheSector ∧
      sh.invalidateFsinfo.fatCache = sh.fatCache ∧
      sh.invalidateFsinfo.allocHint = sh.allocHint ∧ sh.invalidateFsinfo.nodes = sh.nodes := by
  unfold Shared.invalidateFsinfo
  split
  · exact ⟨rfl, rfl, rfl, rfl⟩
  split
  · exact ⟨rfl, rfl, rfl, rfl⟩
  dsimp only
  split <;> exact ⟨rfl, rfl, rfl, rfl⟩

end Fsinfo

section SetFatEntry

variable (sh : Shared L) {c : ℕ} (value : ℕ) (hv : L.validCluster c)
include hv

theorem Shared.setFatEntry_rest :
    (sh.setFatEntry c value).1.allocHint = sh.allocHint ∧
      (sh.setFatEntry c value).1.nodes = sh.nodes ∧ (sh.setFatEntry c value).2 = true := by
  obtain ⟨-, -, hhint, hnodes⟩ := sh.invalidateFsinfo_rest
  unfold Shared.setFatEntry
  rw [if_neg (not_not_intro hv)]
  dsimp only
  split <;> exact ⟨hhint, hnodes, rfl⟩

theorem Shared.setFatEntry_cache :
    (sh.setFatEntry c value).1.fatCacheSector = sh.fatCacheSector ∧
      (sh.setFatEntry c value).1.fatCache =
        if sh.fatCacheSector = L.fatSector c then withEntry (sh.disk (L.fatSector c)) c value
        else sh.fatCache := by
  obtain ⟨hsector, hcache, -, -⟩ := sh.invalidateFsinfo_rest
  have hread : sh.invalidateFsinfo.disk (L.fatSector c) = sh.disk (L.fatSector c) :=
    sh.invalidateFsinfo_disk (Nat.le_add_right _ _)
  unfold Shared.setFatEntry
  rw [if_neg (not_not_intro hv), ← hread, ← hcache]
  dsimp only
  rw [hsector]
  split <;> exact ⟨rfl, rfl⟩

variable {sh value}

theorem Shared.setFatEntry_disk_at {copy : ℕ} (hcopy : copy < L.fatCount) :
    (sh.setFatEntry c value).1.disk
        (L.fatStart + copy * L.fatSectors + c / (sectorSize / 4)) =
      withEntry (sh.disk (L.fatSector c)) c value := by
  have hread : sh.invalidateFsinfo.disk (L.fatSector c) = sh.disk (L.fatSector c) :=
    sh.invalidateFsinfo_disk (Nat.le_add_right _ _)
  unfold Shared.setFatEntry
  rw [if_neg (not_not_intro hv), ← hread]
  dsimp only
  split <;> exact writeCopies_at (Nat.zero_le _) (by omega)

theorem Shared.setFatEntry_disk_of_ne {lba : ℕ} (hlba : L.fatStart ≤ lba)
    (h : ∀ copy < L.fatCount, lba ≠ L.fatStart + copy * L.fatSectors + c / (sectorSize / 4)) :
    (sh.setFatEntry c value).1.disk lba = sh.disk lba := by
  rw [← sh.invalidateFsinfo_disk hlba]
  unfold Shared.setFatEntry
  rw [if_neg (not_not_intro hv)]
  dsimp only
  split <;> exact writeCopies_of_ne fun j hj => h j (by omega)

variable (hL : L.Ok)
include hL

theorem Shared.setFatEntry_first {row : ℕ} (hr : row < L.fatSectors) :
    (sh.setFatEntry c value).1.disk (L.fatStart + row) =
      if row = c / (sectorSize / 4) then withEntry (sh.disk (L.fatSector c)) c value
      else sh.disk (L.fatStart + row) := by
  have hzero : L.fatStart + row = L.fatStart + 0 * L.fatSectors + row := by omega
  split
  next h =>
    rw [hzero, h]
    exact Shared.setFatEntry_disk_at hv hL.copies_pos
  next h =>
    refine Shared.setFatEntry_disk_of_ne hv (Nat.le_add_right _ _) fun copy _ h0 => ?_
    rw [hzero] at h0
    exact h (Layout.copy_inj hr (hL.row_lt hv) h0).2

theorem Shared.Sound.setFatEntry (hs : sh.Sound) : (sh.setFatEntry c value).1.Sound := by
  obtain ⟨hsector, hcache⟩ := Shared.setFatEntry_cache sh value hv
  constructor
  · intro hne
    rw [hsector] at hne
    obtain ⟨hin, hfat⟩ := hs.cache hne
    obtain ⟨row, hrow⟩ := Nat.exists_eq_add_of_le hin.1
    have hr : row < L.fatSectors := by have := hin.2; omega
    rw [hsector, hcache, hfat]
    refine ⟨hin, ?_⟩
    rw [hrow, Shared.setFatEntry_first hv hL hr]
    simp only [Layout.fatSector, Nat.add_left_cancel_iff]
  · intro copy hcopy row hr
    rw [Shared.setFatEntry_first hv hL hr]
    split
    next h => rw [h, Shared.setFatEntry_disk_at hv hcopy]
    next h =>
      rw [Shared.setFatEntry_disk_of_ne hv (by omega), hs.copies copy hcopy row hr]
      exact fun j _ h0 => h (Layout.copy_inj hr (hL.row_lt hv) h0).2

theorem Shared.view_setFatEntry :
    (sh.setFatEntry c value).1.view = sh.view.setEntry c value := by
  obtain ⟨hhint, hnodes, -⟩ := Shared.setFatEntry_rest sh value hv
  refine View.ext (funext fun c' => ?_) (funext fun c' => funext fun q => ?_) hhint ?_
  · simp only [Shared.view, View.setEntry, update_apply]
    by_cases hv' : L.validCluster c'
    · rw [if_pos hv', if_pos hv', Layout.fatSector, Shared.setFatEntry_first hv hL (hL.row_lt hv')]
      split
      next h =>
        rcases eq_or_ne c' c with rfl | hne
        · rw [if_pos rfl, entryIn_withEntry]
        · rw [if_neg hne, entryIn_withEntry_of_ne _ _ h hne, Layout.fatSector, h]
      next h => rw [if_neg (by rintro rfl; exact h rfl)]
    · rw [if_neg hv', if_neg hv', if_neg (by rintro rfl; exact hv' hv)]
  · simp only [Shared.view, View.setEntry]
    split
    · have hdata := L.dataStart_le c' (q / sectorSize)
      rw [Shared.setFatEntry_disk_of_ne hv]
      · have := hL.data_eq
        omega
      · intro copy hcopy
        have := hL.copy_lt hcopy (hL.row_lt hv)
        omega
    · rfl
  · exact hnodes

end SetFatEntry

/-! ### What each call does to the view -/

section Calls

variable {v : View L} {c s : ℕ}

theorem ensures_nextCluster (hL : L.Ok) (c : ℕ) :
    Ensures (nextCluster c) v fun v' n => v' = v ∧ n = L.follow (v.entry c) := by
  rintro sh ⟨hs, rfl⟩
  change ∃ v', Shows (sh.nextCluster c).1 v' ∧ v' = _ ∧ (sh.nextCluster c).2 = _
  unfold Shared.nextCluster
  by_cases hv : L.validCluster c
  · rw [if_neg (not_not_intro hv)]
    have hentry : sh.view.entry c = entryIn (sh.disk (L.fatSector c)) c := if_pos hv
    split
    next hcached =>
      have hne : sh.fatCacheSector ≠ 0 := by
        rw [hcached]
        exact (Nat.add_pos_left hL.fat_pos _).ne'
      refine ⟨_, ⟨hs, rfl⟩, rfl, ?_⟩
      rw [hentry, ← hcached, ← (hs.cache hne).2]
      rfl
    next =>
      refine ⟨_, ⟨⟨fun _ => ⟨hL.inFat_fatSector hv, rfl⟩, hs.copies⟩, rfl⟩, rfl, ?_⟩
      rw [hentry]
      rfl
  · rw [if_pos hv]
    have hentry : sh.view.entry c = 0 := if_neg hv
    refine ⟨_, ⟨hs, rfl⟩, rfl, ?_⟩
    rw [hentry]
    rfl

theorem ensures_setFatEntry (hL : L.Ok) (hv : L.validCluster c) (value : ℕ) :
    Ensures (setFatEntry c value) v fun v' ok => v' = v.setEntry c value ∧ ok = true := by
  rintro sh ⟨hs, rfl⟩
  exact ⟨_, ⟨hs.setFatEntry hv hL, Shared.view_setFatEntry hv hL⟩, rfl,
    (Shared.setFatEntry_rest sh value hv).2.2⟩

theorem ensures_bcacheRead (hv : L.validCluster c) (hs : s < L.sectorsPerCluster) :
    Ensures (bcacheRead (L.clusterToSector c + s)) v fun v' sector =>
      v' = v ∧ ∀ q, q / sectorSize = s → sector (q % sectorSize) = v.byte c q := by
  rintro sh ⟨hsound, rfl⟩
  refine ⟨_, ⟨hsound, rfl⟩, rfl, fun q hq => ?_⟩
  have hlt : q < L.clusterBytes := by
    unfold Layout.clusterBytes
    exact (Nat.div_lt_iff_lt_mul (by norm_num)).1 (hq.trans_lt hs)
  simp only [Shared.view]
  rw [if_pos ⟨hv, hlt⟩, hq]
  rfl

theorem ensures_bcacheRead_fat (c : ℕ) :
    Ensures (bcacheRead (L.fatSector c)) v fun v' sector =>
      v' = v ∧ ∀ c', L.validCluster c' → L.fatSector c' = L.fatSector c →
        entryIn sector c' = v.entry c' := by
  rintro sh ⟨hsound, rfl⟩
  refine ⟨_, ⟨hsound, rfl⟩, rfl, fun c' hv' hsame => ?_⟩
  simp only [Shared.view]
  rw [if_pos hv', hsame]
  rfl

theorem ensures_bcacheWrite (hL : L.Ok) (hv : L.validCluster c) (hs : s < L.sectorsPerCluster)
    (sector : Memory) :
    Ensures (bcacheWrite (L.clusterToSector c + s) sector) v fun v' _ =>
      v' = v.setCluster c fun q =>
        if q / sectorSize = s then sector (q % sectorSize) else v.byte c q := by
  rintro sh ⟨hsound, rfl⟩
  have hfat : ∀ lba < L.dataStart, update sh.disk (L.clusterToSector c + s) sector lba =
      sh.disk lba := by
    intro lba hlba
    have := L.dataStart_le c s
    exact update_of_ne (by omega) _ _
  refine ⟨_, ⟨⟨fun hne => ?_, fun copy hcopy row hr => ?_⟩, rfl⟩, ?_⟩
  · obtain ⟨hin, hcache⟩ := hsound.cache hne
    refine ⟨hin, hcache.trans (hfat _ ?_).symm⟩
    obtain ⟨row, hrow⟩ := Nat.exists_eq_add_of_le hin.1
    have := hL.copy_lt hL.copies_pos (show row < L.fatSectors by have := hin.2; omega)
    change sh.fatCacheSector < _
    omega
  · have hfirst := hL.copy_lt hL.copies_pos hr
    rw [Nat.zero_mul, Nat.add_zero] at hfirst
    refine (hfat _ (hL.copy_lt hcopy hr)).trans ?_
    rw [hsound.copies copy hcopy row hr]
    exact (hfat _ hfirst).symm
  · refine View.ext (funext fun c' => ?_) (funext fun c' => funext fun q => ?_) rfl rfl
    · simp only [Shared.view, View.setCluster]
      split
      next hv' =>
        change entryIn (update sh.disk (L.clusterToSector c + s) sector _) c' = _
        rw [hfat _ (hL.fatSector_lt hv')]
      next => rfl
    · change (if L.validCluster c' ∧ q < L.clusterBytes then
        update sh.disk (L.clusterToSector c + s) sector _ _ else 0) = _
      simp only [View.setCluster]
      rcases eq_or_ne c' c with rfl | hc
      · rw [update_self]
        by_cases hq : q / sectorSize = s
        · have hlt : q < L.clusterBytes := (Nat.div_lt_iff_lt_mul (by norm_num)).1 (hq.trans_lt hs)
          rw [if_pos hq, if_pos ⟨hv, hlt⟩, hq, update_self]
        · rw [if_neg hq, Shared.view, update_of_ne (by omega)]
      · rw [update_of_ne hc]
        simp only [Shared.view]
        split
        next h =>
          rw [update_of_ne]
          exact fun h0 => hc (L.clusterToSector_inj h.1 hv (L.div_lt_sectors h.2) hs h0).1
        next => rfl

theorem ensures_allocHint :
    Ensures (allocHint : FatProg L ℕ) v fun v' n => v' = v ∧ n = v.allocHint := by
  rintro sh ⟨hs, rfl⟩
  exact ⟨_, ⟨hs, rfl⟩, rfl, rfl⟩

theorem ensures_setAllocHint (c : ℕ) :
    Ensures (setAllocHint c) v fun v' _ => v' = { v with allocHint := c } := by
  rintro sh ⟨hs, rfl⟩
  exact ⟨_, ⟨⟨hs.cache, hs.copies⟩, rfl⟩, rfl⟩

theorem ensures_node (i : ℕ) :
    Ensures (node i) v fun v' n => v' = v ∧ n = v.nodes i := by
  rintro sh ⟨hs, rfl⟩
  exact ⟨_, ⟨hs, rfl⟩, rfl, rfl⟩

theorem ensures_setNode (i : ℕ) (n : Node L) :
    Ensures (setNode i n) v fun v' _ => v' = v.setNode i n := by
  rintro sh ⟨hs, rfl⟩
  exact ⟨_, ⟨⟨hs.cache, hs.copies⟩, rfl⟩, rfl⟩

end Calls

end Bashket.Fat
