import Bashket.Fat.Volume
import Bashket.Lib.Run

/-!
# The cached sector of the FAT

`next_cluster` looks at the cached sector of the FAT first; if another one is cached it reads the
sector it needs with no lock held and puts it into the cache afterwards. `set_fat_entry` reads the
sector, changes it, writes every copy, and changes the cached sector if it is this one. One
operation at a time changes the volume, under the volume lock; reads of files take no lock.

A thread is in its own program or inside one of these two functions, and every access to the disk
and every hold of `fat_cache_lock` is one step.
-/

namespace Bashket.Fat

open Bytes Program Run
open Function (update update_of_ne update_self)

/-! ### The steps of a thread -/

structure Shared (L : Layout) where
  disk : ℕ → Memory
  fatCacheSector : ℕ
  fatCache : Memory
  allocHint : ℕ
  fsinfoInvalidated : Bool
  nodes : ℕ → Node L

/-- Where `next_cluster` of a valid cluster stands. -/
inductive NextPoint
  | lookup (cluster : ℕ)
  | fetch (cluster : ℕ)
  | store (cluster : ℕ) (fresh : Memory)

/-- Where `set_fat_entry` of a valid cluster stands. -/
inductive SetPoint
  /-- at the start of `invalidate_fsinfo` -/
  | fsinfo (cluster value : ℕ)
  | fsinfoRead (cluster value : ℕ)
  | fsinfoWrite (cluster value : ℕ) (sector : Memory)
  | load (cluster value : ℕ)
  | copy (cluster : ℕ) (sector : Memory) (copy : ℕ)
  | update (cluster : ℕ) (sector : Memory)

/-- A thread: idle, in its own program, or in a call of `next_cluster` or `set_fat_entry` which the
program goes on from. -/
inductive Thread (L : Layout)
  | idle
  | run (p : FatProg L Unit)
  | next (point : NextPoint) (k : ℕ → FatProg L Unit)
  | set (point : SetPoint) (k : Bool → FatProg L Unit)

variable {L : Layout} {t : Thread L} {P : Call L → Prop} {lba : ℕ}

def unknownFree (sector : Memory) : Memory := fun p => if 488 ≤ p ∧ p < 496 then 0xFF else sector p

def Shared.call (sh : Shared L) : (c : Call L) → (c.Answer → FatProg L Unit) → Shared L × Thread L
  | .nextCluster cluster, k =>
    if L.validCluster cluster then (sh, .next (.lookup cluster) k) else (sh, .run (k (0 : ℕ)))
  | .setFatEntry cluster value, k =>
    if L.validCluster cluster then (sh, .set (.fsinfo cluster value) k) else (sh, .run (k false))
  | .bcacheRead lba, k => (sh, .run (k (sh.disk lba)))
  | .bcacheWrite lba sector, k =>
    ({ sh with disk := update sh.disk lba sector }, .run (k ()))
  | .allocHint, k => (sh, .run (k sh.allocHint))
  | .setAllocHint cluster, k => ({ sh with allocHint := cluster }, .run (k ()))
  | .node i, k => (sh, .run (k (sh.nodes i)))
  | .setNode i n, k => ({ sh with nodes := update sh.nodes i n }, .run (k ()))

/-- One step of `next_cluster`. -/
def Shared.next (sh : Shared L) (k : ℕ → FatProg L Unit) : NextPoint → Shared L × Thread L
  | .lookup cluster =>
    if sh.fatCacheSector = L.fatSector cluster then (sh, .run (k (L.link sh.fatCache cluster)))
    else (sh, .next (.fetch cluster) k)
  | .fetch cluster => (sh, .next (.store cluster (sh.disk (L.fatSector cluster))) k)
  | .store cluster fresh =>
    ({ sh with fatCache := fresh, fatCacheSector := L.fatSector cluster },
      .run (k (L.link fresh cluster)))

/-- One step of `set_fat_entry`. -/
def Shared.set (sh : Shared L) (k : Bool → FatProg L Unit) : SetPoint → Shared L × Thread L
  | .fsinfo cluster value =>
    if sh.fsinfoInvalidated then (sh, .set (.load cluster value) k)
    else ({ sh with fsinfoInvalidated := true },
      if L.fsinfoSector = 0 ∨ L.fsinfoSector ≥ L.fatStart then .set (.load cluster value) k
      else .set (.fsinfoRead cluster value) k)
  | .fsinfoRead cluster value =>
    let sector := sh.disk L.fsinfoSector
    if get32 sector 0 ≠ 0x41615252 ∨ get32 sector 484 ≠ 0x61417272 then
      (sh, .set (.load cluster value) k)
    else (sh, .set (.fsinfoWrite cluster value (unknownFree sector)) k)
  | .fsinfoWrite cluster value sector =>
    ({ sh with disk := update sh.disk L.fsinfoSector sector }, .set (.load cluster value) k)
  | .load cluster value =>
    (sh, .set (.copy cluster (withEntry (sh.disk (L.fatSector cluster)) cluster value) 0) k)
  | .copy cluster sector copy =>
    let lba := L.fatStart + copy * L.fatSectors + cluster / (sectorSize / 4)
    ({ sh with disk := update sh.disk lba sector },
      if copy + 1 < L.fatCount then .set (.copy cluster sector (copy + 1)) k
      else .set (.update cluster sector) k)
  | .update cluster sector =>
    (if sh.fatCacheSector = L.fatSector cluster then { sh with fatCache := sector } else sh,
      .run (k true))

def Shared.turn (sh : Shared L) : Thread L → Shared L × Thread L
  | .idle => (sh, .idle)
  | .run (.ret _) => (sh, .idle)
  | .run (.call c k) => sh.call c k
  | .next point k => sh.next k point
  | .set point k => sh.set k point

/-! ### Readers and the holder of the volume lock -/

/-- An operation that changes the volume: of its own it writes no sector of the first FAT. -/
def Change (L : Layout) : Type := { p : FatProg L Unit // p.Only Call.OffFat }

/-- Any number of readers, and the thread that holds the volume lock (idle: nobody does). -/
structure State (L : Layout) extends Shared L where
  readers : ℕ → Thread L
  writer : Thread L

inductive Event (L : Layout)
  /-- the thread `r` calls `fat_file_read` -/
  | read (r i offset count : ℕ)
  | change (p : Change L)
  /-- a step of the reader `r` -/
  | readerTurn (r : ℕ)
  | writerTurn

/-- What an event does.  A thread starts something new only when it is idle. -/
def State.step (s : State L) : Event L → State L
  | .read r i offset count =>
    match s.readers r with
    | .idle =>
      let p := fatFileRead L i offset count >>= fun _ => pure ()
      { s with readers := update s.readers r (.run p) }
    | _ => s
  | .change p =>
    match s.writer with
    | .idle => { s with writer := .run p.1 }
    | _ => s
  | .readerTurn r =>
    let t := s.toShared.turn (s.readers r)
    { s with toShared := t.1, readers := update s.readers r t.2 }
  | .writerTurn =>
    let t := s.toShared.turn s.writer
    { s with toShared := t.1, writer := t.2 }

/-- Nobody is at work, and nothing is cached or a sector of the FAT as it is on the disk. -/
structure State.AtRest (s : State L) : Prop where
  readers_idle : ∀ r, s.readers r = .idle
  writer_idle : s.writer = .idle
  cache : s.fatCacheSector ≠ 0 →
    L.InFat s.fatCacheSector ∧ s.fatCache = s.disk s.fatCacheSector

/-! ### What one step can do -/

def NextPoint.cluster : NextPoint → ℕ
  | .lookup cluster | .fetch cluster | .store cluster _ => cluster

def SetPoint.cluster : SetPoint → ℕ
  | .fsinfo cluster _ | .fsinfoRead cluster _ | .fsinfoWrite cluster _ _ | .load cluster _
  | .copy cluster _ _ | .update cluster _ => cluster

/-- The call is about a cluster of the volume, and the FSInfo sector is in front of the FAT. -/
def SetPoint.Ok (L : Layout) (point : SetPoint) : Prop :=
  L.validCluster point.cluster ∧
    match point with
    | .fsinfoRead _ _ | .fsinfoWrite _ _ _ => L.fsinfoSector < L.fatStart
    | _ => True

/-- The sector of the FAT, and what it held, that a thread has read to put it into the cache. -/
def Thread.fetched : Thread L → Option (ℕ × Memory)
  | .next (.store cluster fresh) _ => some (L.fatSector cluster, fresh)
  | _ => none

/-- The sector of the FAT, as it is now, that a thread has changed on the disk and not yet in the
cache. -/
def Thread.changed : Thread L → Option (ℕ × Memory)
  | .set (.copy cluster sector (_ + 1)) _ => some (L.fatSector cluster, sector)
  | .set (.update cluster sector) _ => some (L.fatSector cluster, sector)
  | _ => none

/-- Every call the thread can still make satisfies `P`, and the one it is in did. -/
def Thread.Only (P : Call L → Prop) : Thread L → Prop
  | .idle => True
  | .run p => p.Only P
  | .next point k => L.validCluster point.cluster ∧ ∀ n, (k n).Only P
  | .set point k =>
    (∃ value, P (.setFatEntry point.cluster value)) ∧ point.Ok L ∧ ∀ b, (k b).Only P

inductive Effect (sh : Shared L) (t : Thread L) (sh' : Shared L) (t' : Thread L) : Prop
  /-- nothing the cache depends on, but a sector may have been read -/
  | quiet (disk : ∀ lba, L.InFat lba → sh'.disk lba = sh.disk lba)
      (sector : sh'.fatCacheSector = sh.fatCacheSector) (cache : sh'.fatCache = sh.fatCache)
      (changed : t'.changed = t.changed)
      (fetched : ∀ lba fresh, t'.fetched = some (lba, fresh) → fresh = sh.disk lba)
  | store (lba : ℕ) (fresh : Memory) (from_ : t.fetched = some (lba, fresh)) (fat : L.InFat lba)
      (disk : sh'.disk = sh.disk) (sector : sh'.fatCacheSector = lba)
      (cache : sh'.fatCache = fresh) (changed : t'.changed = t.changed) (fetched : t'.fetched = none)
  | change (lba : ℕ) (sector : Memory) (fat : L.InFat lba) (before : t.changed = none)
      (disk : sh'.disk = update sh.disk lba sector)
      (same : sh'.fatCacheSector = sh.fatCacheSector) (cache : sh'.fatCache = sh.fatCache)
      (changed : t'.changed = some (lba, sector)) (fetched : t'.fetched = none)
  /-- the changed sector is put into the cache if it is the cached one -/
  | update (lba : ℕ) (sector : Memory) (from_ : t.changed = some (lba, sector))
      (disk : sh'.disk = sh.disk) (same : sh'.fatCacheSector = sh.fatCacheSector)
      (cache : sh'.fatCache = if sh.fatCacheSector = lba then sector else sh.fatCache)
      (changed : t'.changed = none) (fetched : t'.fetched = none)

theorem Effect.of_same {sh sh' : Shared L} {t' : Thread L} (disk : sh'.disk = sh.disk)
    (sector : sh'.fatCacheSector = sh.fatCacheSector) (cache : sh'.fatCache = sh.fatCache)
    (changed : t'.changed = t.changed) (fetched : t'.fetched = none) : Effect sh t sh' t' := by
  refine .quiet (fun lba _ => by rw [disk]) sector cache changed fun lba fresh h => ?_
  rw [fetched] at h
  cases h

theorem Shared.next_effect (hL : L.Ok) (sh : Shared L) (k : ℕ → FatProg L Unit) (point : NextPoint)
    (hv : L.validCluster point.cluster) :
    Effect sh (.next point k) (sh.next k point).1 (sh.next k point).2 := by
  cases point with
  | lookup cluster =>
    simp only [Shared.next]
    split <;> exact .of_same rfl rfl rfl rfl rfl
  | fetch cluster =>
    refine .quiet (fun _ _ => rfl) rfl rfl rfl fun lba fresh h => ?_
    cases h
    rfl
  | store cluster fresh =>
    exact .store _ fresh rfl (hL.inFat_fatSector hv) rfl rfl rfl rfl rfl

theorem Layout.Ok.not_inFat_copy (cluster copy : ℕ) :
    ¬ L.InFat (L.fatStart + (copy + 1) * L.fatSectors + cluster / (sectorSize / 4)) := by
  intro h
  have hcopy : L.fatSectors ≤ (copy + 1) * L.fatSectors :=
    Nat.le_mul_of_pos_left _ (Nat.succ_pos _)
  have hlt := h.2
  generalize cluster / (sectorSize / 4) = row at hlt
  omega

theorem Shared.set_effect (hL : L.Ok) (sh : Shared L) (k : Bool → FatProg L Unit) (point : SetPoint)
    (hp : point.Ok L) :
    Effect sh (.set point k) (sh.set k point).1 (sh.set k point).2 := by
  cases point with
  | fsinfo cluster value =>
    simp only [Shared.set]
    split
    · exact .of_same rfl rfl rfl rfl rfl
    · refine .of_same rfl rfl rfl ?_ ?_ <;> dsimp only <;> split <;> rfl
  | fsinfoRead cluster value =>
    simp only [Shared.set]
    split <;> exact .of_same rfl rfl rfl rfl rfl
  | fsinfoWrite cluster value sector =>
    refine .quiet (fun lba hfat => update_of_ne ?_ _ _) rfl rfl rfl fun _ _ h => nomatch h
    exact (hp.2.trans_le hfat.1).ne'
  | load cluster value => exact .of_same rfl rfl rfl rfl rfl
  | copy cluster sector copy =>
    cases copy with
    | zero =>
      refine .change (L.fatSector cluster) sector (hL.inFat_fatSector hp.1) rfl ?_ rfl rfl ?_ ?_
      · simp only [Shared.set, Layout.fatSector, Nat.zero_mul, Nat.add_zero]
      · simp only [Shared.set]; split <;> rfl
      · simp only [Shared.set]; split <;> rfl
    | succ copy =>
      have hchanged : (sh.set k (.copy cluster sector (copy + 1))).2.changed =
          some (L.fatSector cluster, sector) := by
        simp only [Shared.set]; split <;> rfl
      refine .quiet (fun lba hfat => update_of_ne ?_ _ _) rfl rfl hchanged ?_
      · rintro rfl
        exact Layout.Ok.not_inFat_copy _ _ hfat
      · intro lba fresh h
        simp only [Shared.set] at h
        split at h <;> cases h
  | update cluster sector =>
    refine .update (L.fatSector cluster) sector rfl ?_ ?_ ?_ rfl rfl
    · simp only [Shared.set]; split <;> rfl
    · simp only [Shared.set]; split <;> rfl
    · simp only [Shared.set]; split <;> rfl

theorem Shared.call_effect (sh : Shared L) (c : Call L) (k : c.Answer → FatProg L Unit)
    (hc : c.OffFat) : Effect sh (.run (.call c k)) (sh.call c k).1 (sh.call c k).2 := by
  cases c with
  | nextCluster cluster => simp only [Shared.call]; split <;> exact .of_same rfl rfl rfl rfl rfl
  | setFatEntry cluster value => simp only [Shared.call]; split <;> exact .of_same rfl rfl rfl rfl rfl
  | bcacheWrite lba sector =>
    refine .quiet (fun lba' hfat => update_of_ne ?_ _ _) rfl rfl rfl fun _ _ h => nomatch h
    rintro rfl
    exact hc hfat
  | bcacheRead lba => exact .of_same rfl rfl rfl rfl rfl
  | allocHint => exact .of_same rfl rfl rfl rfl rfl
  | setAllocHint cluster => exact .of_same rfl rfl rfl rfl rfl
  | node i => exact .of_same rfl rfl rfl rfl rfl
  | setNode i n => exact .of_same rfl rfl rfl rfl rfl

theorem Thread.Only.effect (hL : L.Ok) (ht : t.Only Call.OffFat) (sh : Shared L) :
    Effect sh t (sh.turn t).1 (sh.turn t).2 := by
  cases t with
  | idle => exact .of_same rfl rfl rfl rfl rfl
  | run p =>
    cases p with
    | ret a => exact .of_same rfl rfl rfl rfl rfl
    | call c k => exact sh.call_effect c k ht.1
  | next point k => exact sh.next_effect hL k point ht.1
  | set point k => exact sh.set_effect hL k point ht.2.1

theorem Thread.Only.mono {Q : Call L → Prop} (h : ∀ c, P c → Q c) (ht : t.Only P) : t.Only Q := by
  cases t with
  | idle => trivial
  | run p => exact Prog.Only.mono h ht
  | next point k => exact ⟨ht.1, fun n => (ht.2 n).mono h⟩
  | set point k => exact ⟨ht.1.imp fun _ => h _, ht.2.1, fun b => (ht.2.2 b).mono h⟩

theorem Thread.Only.turn (ht : t.Only P) (sh : Shared L) :
    (sh.turn t).2.Only P := by
  cases t with
  | idle => trivial
  | run p =>
    cases p with
    | ret a => trivial
    | call c k =>
      cases c with
      | nextCluster cluster =>
        simp only [Shared.turn, Shared.call]
        split
        · exact ⟨‹_›, ht.2⟩
        · exact ht.2 _
      | setFatEntry cluster value =>
        simp only [Shared.turn, Shared.call]
        split
        · exact ⟨⟨value, ht.1⟩, ⟨‹_›, trivial⟩, ht.2⟩
        · exact ht.2 _
      | bcacheRead lba => exact ht.2 _
      | bcacheWrite lba sector => exact ht.2 _
      | allocHint => exact ht.2 _
      | setAllocHint cluster => exact ht.2 _
      | node i => exact ht.2 _
      | setNode i n => exact ht.2 _
  | next point k =>
    cases point with
    | lookup cluster =>
      simp only [Shared.turn, Shared.next]
      split
      · exact ht.2 _
      · exact ht
    | fetch cluster => exact ht
    | store cluster fresh => exact ht.2 _
  | set point k =>
    cases point with
    | fsinfo cluster value =>
      simp only [Shared.turn, Shared.set]
      split
      · exact ht
      · split
        · exact ht
        · exact ⟨ht.1, ⟨ht.2.1.1, by omega⟩, ht.2.2⟩
    | fsinfoRead cluster value =>
      simp only [Shared.turn, Shared.set]
      split
      · exact ⟨ht.1, ⟨ht.2.1.1, trivial⟩, ht.2.2⟩
      · exact ht
    | fsinfoWrite cluster value sector => exact ⟨ht.1, ⟨ht.2.1.1, trivial⟩, ht.2.2⟩
    | load cluster value => exact ht
    | copy cluster sector copy =>
      simp only [Shared.turn, Shared.set]
      split <;> exact ht
    | update cluster sector => exact ht.2.2 _

theorem Call.Reading.offFat {c : Call L} (h : c.Reading) : c.OffFat := by
  cases c <;> first | exact trivial | exact h.elim

theorem Thread.Only.changed_eq_none (ht : t.Only Call.Reading) :
    t.changed = none := by
  cases t with
  | set point k =>
    obtain ⟨value, h⟩ := ht.1
    exact h.elim
  | idle | run p | next point k => rfl

/-! ### The cache and the disk agree -/

/-- The sector `lba` of the FAT has been changed on the disk and not yet in the cache. -/
def State.Pending (s : State L) (lba : ℕ) : Prop := ∃ sector, s.writer.changed = some (lba, sector)

def State.Setting (s : State L) : Prop := ∃ point k, s.writer = .set point k

/-- What holds between the cache, the disk and what the threads have read. -/
structure State.Coherent (s : State L) : Prop where
  readers : ∀ r, (s.readers r).Only Call.Reading
  writer : s.writer.Only Call.OffFat
  fetched : ∀ r lba fresh, (s.readers r).fetched = some (lba, fresh) →
    fresh = s.disk lba ∨ s.Pending lba
  own : ∀ lba fresh, s.writer.fetched = some (lba, fresh) → fresh = s.disk lba
  written : ∀ lba sector, s.writer.changed = some (lba, sector) → s.disk lba = sector
  cached : s.fatCacheSector ≠ 0 → L.InFat s.fatCacheSector ∧
    (s.fatCache = s.disk s.fatCacheSector ∨ s.Pending s.fatCacheSector)

/-- When `set_fat_entry` is about to change the cache, no reader still has the sector as it was
before to put it there. -/
def Timely (s : State L) : Event L → Prop
  | .writerTurn => ∀ cluster sector k, s.writer = .set (.update cluster sector) k →
      ∀ r fresh, (s.readers r).fetched = some (L.fatSector cluster, fresh) → fresh = sector
  | _ => True

theorem Thread.Only.inFat (hL : L.Ok) (ht : t.Only P) {fresh : Memory}
    (h : t.fetched = some (lba, fresh)) : L.InFat lba := by
  unfold Thread.fetched at h
  split at h
  · cases h
    exact hL.inFat_fatSector ht.1
  · cases h

theorem Thread.Only.changed_inFat (hL : L.Ok) (ht : t.Only P) {sector : Memory}
    (h : t.changed = some (lba, sector)) : L.InFat lba := by
  unfold Thread.changed at h
  split at h
  · cases h
    exact hL.inFat_fatSector ht.2.1.1
  · cases h
    exact hL.inFat_fatSector ht.2.1.1
  · cases h

namespace State.Coherent

variable {s : State L} (hL : L.Ok)
include hL

theorem readerTurn (h : s.Coherent) (r : ℕ) : (s.step (.readerTurn r)).Coherent := by
  have hr := h.readers r
  have hturn := hr.turn s.toShared
  have heffect := (hr.mono fun _ => Call.Reading.offFat).effect hL s.toShared
  simp only [State.step]
  generalize s.toShared.turn (s.readers r) = q at hturn heffect ⊢
  have hreaders : ∀ p, (update s.readers r q.2 p).Only Call.Reading := by
    intro p
    rcases eq_or_ne p r with rfl | hp
    · rwa [update_self]
    · rw [update_of_ne hp]
      exact h.readers p
  have hfetched : (∀ lba, L.InFat lba → q.1.disk lba = s.disk lba) →
      (∀ lba fresh, q.2.fetched = some (lba, fresh) → fresh = s.disk lba) →
      ∀ p lba fresh, (update s.readers r q.2 p).fetched = some (lba, fresh) →
        fresh = q.1.disk lba ∨ s.Pending lba := by
    intro hdisk hnew p lba fresh hp
    rw [hdisk _ ((hreaders p).inFat hL hp)]
    rcases eq_or_ne p r with rfl | hne
    · rw [update_self] at hp
      exact .inl (hnew _ _ hp)
    · rw [update_of_ne hne] at hp
      exact h.fetched p lba fresh hp
  cases heffect with
  | quiet disk sector cache changed fetched =>
    refine ⟨hreaders, h.writer, hfetched disk fetched, fun lba fresh hq => ?_,
      fun lba sec hq => ?_, fun h0 => ?_⟩
    · exact (h.own lba fresh hq).trans (disk _ (h.writer.inFat hL hq)).symm
    · exact (disk _ (h.writer.changed_inFat hL hq)).trans (h.written lba sec hq)
    · obtain ⟨hin, hagree⟩ := h.cached (by rwa [← sector])
      rw [sector, cache, disk _ hin]
      exact ⟨hin, hagree⟩
  | store lba fresh from_ fat disk sector cache changed fetched =>
    refine ⟨hreaders, h.writer, hfetched (fun _ _ => by rw [disk]) ?_, fun lba' fresh' hq => ?_,
      fun lba' sec hq => ?_, fun _ => ?_⟩
    · intro lba' fresh' hq
      rw [fetched] at hq
      cases hq
    · exact (h.own lba' fresh' hq).trans (congrFun disk lba').symm
    · exact (congrFun disk lba').trans (h.written lba' sec hq)
    · change L.InFat q.1.fatCacheSector ∧
        (q.1.fatCache = q.1.disk q.1.fatCacheSector ∨ s.Pending q.1.fatCacheSector)
      rw [sector, cache, disk]
      exact ⟨fat, h.fetched r lba fresh from_⟩
  | change lba sector fat before disk same cache changed fetched =>
    rw [hturn.changed_eq_none] at changed
    cases changed
  | update lba sector from_ disk same cache changed fetched =>
    rw [hr.changed_eq_none] at from_
    cases from_

omit hL in
theorem finishing (htimely : Timely s .writerTurn) {lba : ℕ} {sector : Memory}
    (hbefore : s.writer.changed = some (lba, sector))
    (hafter : (s.toShared.turn s.writer).2.changed = none) (r : ℕ) (fresh : Memory)
    (hr : (s.readers r).fetched = some (lba, fresh)) : fresh = sector := by
  unfold Thread.changed at hbefore
  split at hbefore
  next cluster sector' copy k heq =>
    rw [heq] at hafter
    simp only [Shared.turn, Shared.set] at hafter
    split at hafter <;> cases hafter
  next cluster sector' k heq =>
    cases hbefore
    exact htimely _ _ _ heq r fresh hr
  · cases hbefore

theorem writerTurn (h : s.Coherent) (htimely : Timely s .writerTurn) :
    (s.step .writerTurn).Coherent := by
  have hturn := h.writer.turn s.toShared
  have heffect := h.writer.effect hL s.toShared
  have hfinish : ∀ lba sector, s.writer.changed = some (lba, sector) →
      (s.toShared.turn s.writer).2.changed = none →
      ∀ r fresh, (s.readers r).fetched = some (lba, fresh) → fresh = sector :=
    fun _ _ hbefore hafter => finishing htimely hbefore hafter
  simp only [State.step]
  generalize s.toShared.turn s.writer = q at hturn heffect hfinish ⊢
  cases heffect with
  | quiet disk sector cache changed fetched =>
    have hpending : ∀ lba, s.Pending lba → ∃ sector, q.2.changed = some (lba, sector) := by
      intro lba hp
      rwa [changed]
    refine ⟨h.readers, hturn, fun r lba fresh hq => ?_, fun lba fresh hq => ?_,
      fun lba sec hq => ?_, fun h0 => ?_⟩
    · exact (h.fetched r lba fresh hq).imp
        (fun he => he.trans (disk _ ((h.readers r).inFat hL hq)).symm) (hpending lba)
    · exact (fetched lba fresh hq).trans (disk _ (hturn.inFat hL hq)).symm
    · exact (disk _ (hturn.changed_inFat hL hq)).trans (h.written lba sec (changed ▸ hq))
    · obtain ⟨hin, hagree⟩ := h.cached (by rwa [← sector])
      rw [sector, cache, disk _ hin]
      exact ⟨hin, hagree.imp_right (hpending _)⟩
  | store lba fresh from_ fat disk sector cache changed fetched =>
    refine ⟨h.readers, hturn, fun r lba' fresh' hq => ?_, fun lba' fresh' hq => ?_,
      fun lba' sec hq => ?_, fun _ => ?_⟩
    · change fresh' = q.1.disk lba' ∨ ∃ sector, q.2.changed = some (lba', sector)
      rw [disk, changed]
      exact h.fetched r lba' fresh' hq
    · rw [fetched] at hq
      cases hq
    · exact (congrFun disk lba').trans (h.written lba' sec (changed ▸ hq))
    · refine ⟨sector ▸ fat, .inl ?_⟩
      rw [sector, cache, disk]
      exact h.own lba fresh from_
  | change lba sector fat before disk same cache changed fetched =>
    -- nothing was pending before, and `lba` is now
    have hnone : ∀ lba', ¬ s.Pending lba' := fun lba' ⟨sec, hp⟩ => by
      rw [before] at hp
      cases hp
    have hother : ∀ m : Memory, ∀ lba', m = s.disk lba' →
        m = q.1.disk lba' ∨ ∃ sector, q.2.changed = some (lba', sector) := by
      intro m lba' hm
      rcases eq_or_ne lba' lba with rfl | hne
      · exact .inr ⟨sector, changed⟩
      · rw [disk, update_of_ne hne]
        exact .inl hm
    refine ⟨h.readers, hturn, fun r lba' fresh' hq => ?_, fun lba' fresh' hq => ?_,
      fun lba' sec hq => ?_, fun h0 => ?_⟩
    · exact hother _ _ ((h.fetched r lba' fresh' hq).resolve_right (hnone _))
    · rw [fetched] at hq
      cases hq
    · obtain ⟨rfl, rfl⟩ := Prod.mk.inj (Option.some.inj (changed.symm.trans hq))
      exact (congrFun disk lba).trans (update_self ..)
    · obtain ⟨hin, hagree⟩ := h.cached (by rwa [← same])
      rw [same, cache]
      exact ⟨hin, hother _ _ (hagree.resolve_right (hnone _))⟩
  | update lba sector from_ disk same cache changed fetched =>
    -- what was pending is `lba`, which holds the new sector
    have hpending : ∀ lba', s.Pending lba' → lba' = lba := fun lba' ⟨sec, hp⟩ =>
      (Prod.mk.inj (Option.some.inj (hp.symm.trans from_))).1
    have hnow := h.written lba sector from_
    refine ⟨h.readers, hturn, fun r lba' fresh' hq => .inl ?_, fun lba' fresh' hq => ?_,
      fun lba' sec hq => ?_, fun h0 => ?_⟩
    · rw [disk]
      rcases h.fetched r lba' fresh' hq with he | hp
      · exact he
      · obtain rfl := hpending _ hp
        exact (hfinish _ _ from_ changed r fresh' hq).trans hnow.symm
    · rw [fetched] at hq
      cases hq
    · exact (nomatch changed.symm.trans hq)
    · obtain ⟨hin, hagree⟩ := h.cached (by rwa [← same])
      refine ⟨same ▸ hin, .inl ?_⟩
      rw [same, cache, disk]
      split
      · next heq => rw [heq, hnow]
      · next hne => exact hagree.resolve_right fun hp => hne (hpending _ hp)

theorem step (h : s.Coherent) (e : Event L) (htimely : Timely s e) : (s.step e).Coherent := by
  cases e with
  | read r i offset count =>
    simp only [State.step]
    split
    · next hidle =>
      have hstart : (fatFileRead L i offset count >>= fun _ => pure ()).Only Call.Reading :=
        (fatFileRead_reading i offset count).bind fun _ => Prog.only_pure _
      refine ⟨fun q => ?_, h.writer, fun q lba fresh hq => ?_, h.own, h.written, h.cached⟩
      · dsimp only
        rcases eq_or_ne q r with rfl | hne
        · rw [update_self]
          exact hstart
        · rw [update_of_ne hne]
          exact h.readers q
      · dsimp only at hq
        rcases eq_or_ne q r with rfl | hne
        · rw [update_self] at hq
          cases hq
        · rw [update_of_ne hne] at hq
          exact h.fetched q lba fresh hq
    · exact h
  | change p =>
    simp only [State.step]
    split
    · next hidle =>
      have hpending : ∀ lba, ¬ s.Pending lba := fun lba ⟨sec, hp⟩ => by
        rw [hidle] at hp
        cases hp
      refine ⟨h.readers, p.2, fun r lba fresh hq => .inl ?_, fun _ _ hq => (nomatch hq),
        fun _ _ hq => (nomatch hq), fun h0 => ?_⟩
      · exact (h.fetched r lba fresh hq).resolve_right (hpending lba)
      · obtain ⟨hin, hagree⟩ := h.cached h0
        exact ⟨hin, .inl (hagree.resolve_right (hpending _))⟩
    · exact h
  | readerTurn r => exact h.readerTurn hL r
  | writerTurn => exact h.writerTurn hL htimely

end State.Coherent

/-- The cluster that `next_cluster` finds after `cluster` with nobody else acting. -/
def Shared.followed (sh : Shared L) (cluster : ℕ) : ℕ :=
  if ¬ L.validCluster cluster then 0
  else if sh.fatCacheSector = L.fatSector cluster then L.link sh.fatCache cluster
  else L.link (sh.disk (L.fatSector cluster)) cluster

def Shared.linkOnDisk (sh : Shared L) (cluster : ℕ) : ℕ :=
  if ¬ L.validCluster cluster then 0 else L.link (sh.disk (L.fatSector cluster)) cluster

/-- With no `set_fat_entry` in progress the cached sector is that of the disk, and chains are
followed by the links on the disk. -/
def State.Agrees (s : State L) : Prop :=
  ¬ s.Setting → (s.fatCacheSector ≠ 0 → s.fatCache = s.disk s.fatCacheSector) ∧
    ∀ cluster, s.followed cluster = s.linkOnDisk cluster

theorem State.Coherent.agrees (hL : L.Ok) {s : State L} (h : s.Coherent) : s.Agrees := by
  intro hset
  have hcache : s.fatCacheSector ≠ 0 → s.fatCache = s.disk s.fatCacheSector := by
    intro h0
    refine (h.cached h0).2.resolve_right fun ⟨sector, hp⟩ => hset ?_
    unfold Thread.changed at hp
    split at hp
    · next heq => exact ⟨_, _, heq⟩
    · next heq => exact ⟨_, _, heq⟩
    · cases hp
  refine ⟨hcache, fun cluster => ?_⟩
  unfold Shared.followed Shared.linkOnDisk
  split
  · rfl
  next hv =>
    split
    · next heq =>
      have h0 : s.fatCacheSector ≠ 0 := by
        have := (hL.inFat_fatSector (not_not.1 hv)).1
        have := hL.fat_pos
        omega
      rw [hcache h0, heq]
    · rfl

theorem State.AtRest.coherent {s : State L} (h : s.AtRest) : s.Coherent where
  readers r := by rw [h.readers_idle]; trivial
  writer := by rw [h.writer_idle]; trivial
  fetched r lba fresh hq := by rw [h.readers_idle] at hq; cases hq
  own lba fresh hq := by rw [h.writer_idle] at hq; cases hq
  written lba sector hq := by rw [h.writer_idle] at hq; cases hq
  cached h0 := ⟨(h.cache h0).1, .inl (h.cache h0).2⟩

/-- If no reader holds an outdated copy of a sector of the FAT when a `set_fat_entry` of it ends,
the cached sector agrees with the disk whenever none is in progress. -/
theorem fatCache_agrees {boot : Memory} {diskSectors : ℕ}
    (hmount : parseBootSector boot diskSectors = some L) (s : State L) (hs : s.AtRest)
    (es : List (Event L)) (htimely : Along State.step Timely s es) :
    Always State.step State.Agrees s es := by
  have hL := parseBootSector_ok hmount
  have hcoherent : Always State.step State.Coherent s es :=
    always_of_induction (fun s e h ht => h.step hL e ht) hs.coherent htimely
  exact hcoherent.mono fun s h => h.agrees hL

/-! ### A reader that is late -/

def smallBoot : Memory :=
  let m := put16 (fun _ => 0) 11 512
  let m := put8 m 13 1
  let m := put16 m 14 1
  let m := put8 m 16 1
  let m := put32 m 32 66038
  let m := put32 m 36 512
  let m := put32 m 44 2
  put8 (put8 m 510 0x55) 511 0xAA

def small : Layout :=
  { sectorsPerCluster := 1, fatCount := 1, fsinfoSector := 0, fatStart := 1, fatSectors := 512,
    dataStart := 513, clusterCount := 65525, rootCluster := 2 }

theorem parse_smallBoot : parseBootSector smallBoot 66038 = some small := by decide +kernel

/-- A file of one cluster, 200, named in the root directory.  The sector of the FAT with the root's
entry is cached. -/
def oneFile : State small where
  disk lba :=
    if lba = 1 then put32 (fun _ => 0) (entryPlace 2) fatEndMark
    else if lba = 2 then put32 (fun _ => 0) (entryPlace 200) fatEndMark
    else fun _ => 0
  fatCacheSector := 1
  fatCache := put32 (fun _ => 0) (entryPlace 2) fatEndMark
  allocHint := 2
  fsinfoInvalidated := false
  nodes _ := { firstCluster := 200, entryLba := 513, entryOffset := 0, size := 512, mtime := 0,
               entry_in_data := .inr le_rfl }
  readers _ := .idle
  writer := .idle

theorem oneFile_atRest : oneFile.AtRest where
  readers_idle _ := rfl
  writer_idle := rfl
  cache _ := ⟨⟨le_rfl, by decide⟩, rfl⟩

def appendByte : Change small :=
  ⟨fatFileWrite small 0 512 [7] ⟨0, 0, 0⟩ >>= fun _ => pure (),
    (fatFileWrite_offFat (parseBootSector_ok parse_smallBoot) ..).bind fun _ => Prog.only_pure _⟩

/-- A reader has read the sector of the FAT with the link of cluster 200 when the file is made
longer; then it puts what it read into the cache. -/
def lateReader : List (Event small) :=
  .read 0 0 0 512 :: List.replicate 5 (.readerTurn 0) ++
    .change appendByte :: List.replicate 40 .writerTurn ++ [.readerTurn 0]

/-- Now the cached sector ends the chain at cluster 200, and the disk does not. -/
theorem late_reader_outdated :
    let s := run State.step oneFile lateReader
    parseBootSector smallBoot 66038 = some small ∧ oneFile.AtRest ∧ s.writer = .idle ∧
      s.fatCacheSector ≠ 0 ∧ s.fatCache ≠ s.disk s.fatCacheSector ∧
      s.followed 200 = 0 ∧ s.linkOnDisk 200 = 3 := by
  have hcache : (run State.step oneFile lateReader).fatCache 288 = 0xFF := by
    decide +kernel
  have hdisk : (run State.step oneFile lateReader).disk 2 288 = 3 := by
    decide +kernel
  refine ⟨parse_smallBoot, oneFile_atRest, rfl, by decide +kernel, fun heq => ?_, by decide +kernel,
    by decide +kernel⟩
  have hsector : (run State.step oneFile lateReader).fatCacheSector = 2 := by
    decide +kernel
  rw [heq, hsector, hdisk] at hcache
  cases hcache

theorem along_timely_writer {s : State L} (h : ∀ r, s.readers r = .idle) (n : ℕ) :
    Along State.step Timely s (List.replicate n .writerTurn) := by
  induction n generalizing s with
  | zero => trivial
  | succ n ih =>
    refine ⟨fun _ _ _ _ r fresh hr => ?_, ih h⟩
    rw [h r] at hr
    cases hr

theorem fatCache_agrees_appendByte :
    Along State.step Timely oneFile (.change appendByte :: List.replicate 40 .writerTurn) ∧
      Always State.step State.Agrees oneFile
        (.change appendByte :: List.replicate 40 .writerTurn) := by
  have htimely : Along State.step Timely oneFile
      (.change appendByte :: List.replicate 40 .writerTurn) :=
    ⟨trivial, along_timely_writer (fun _ => rfl) 40⟩
  exact ⟨htimely, fatCache_agrees parse_smallBoot oneFile oneFile_atRest _ htimely⟩

end Bashket.Fat
