import Bashket.Lib.Run

/-!
# The cache of disk sectors

A write goes to the disk, sector by sector, and then under `cache_lock` into the cache. A reader
that misses fetches the sector without the lock, and puts it in the cache only if no write has come
to its end meanwhile.

A transfer of one sector is one step; a write may transfer its sectors in any order and fail at any
point. Two writes of one sector at a time can leave the older one in the cache
(`older_write_stays`); if such writes are kept apart, the cache agrees with the disk
(`cache_agrees`).
-/

namespace Bashket.Bcache

open Run
open Function (update update_of_ne update_self)

/-- `BCACHE_SECTORS`, `VIRTIO_BLK_MAX_DEVICES` -/
abbrev bcacheSectors : ℕ := 1024
abbrev maxDevices : ℕ := 3

variable {α : Type}

/-- `entry_t` of a valid entry, with its part of `data`. -/
structure Entry (α : Type) where
  dev : ℕ
  lba : ℕ
  sector : α

abbrev Entries (α : Type) := ℕ → Option (Entry α)

namespace Entries

variable (c : Entries α)

/-- `store`; the number of the disk is kept in one byte. -/
def store (dev lba : ℕ) (sector : α) : Entries α :=
  update c (lba % bcacheSectors) (some ⟨dev % 256, lba, sector⟩)

def hit (dev lba : ℕ) : Option α :=
  match c (lba % bcacheSectors) with
  | some e => if e.dev = dev ∧ e.lba = lba then some e.sector else none
  | none => none

def drop (dev lba : ℕ) : Entries α :=
  if (c.hit dev lba).isSome then update c (lba % bcacheSectors) none else c

/-- The loops of `bcache_write_dev` after a write that went well and one that failed. -/
def storeAll (dev : ℕ) : Entries α → ℕ → List α → Entries α
  | c, _, [] => c
  | c, lba, sector :: rest => storeAll dev (c.store dev lba sector) (lba + 1) rest

def dropAll (dev : ℕ) : Entries α → ℕ → ℕ → Entries α
  | c, _, 0 => c
  | c, lba, count + 1 => dropAll dev (c.drop dev lba) (lba + 1) count

end Entries

structure Write (α : Type) where
  dev : ℕ
  lba : ℕ
  sectors : List α

/-- What a call to `bcache_read_dev` has read, and what is left. -/
structure Read (α : Type) where
  dev : ℕ
  lba : ℕ
  count : ℕ
  out : List α

inductive Pc (α : Type)
  | idle
  /-- `bcache_read_dev` at the head of its loop -/
  | read (r : Read α)
  /-- the next sector is not in the cache, and `writes_before` -/
  | miss (r : Read α) (before : ℕ)
  | fetched (r : Read α) (before : ℕ) (sector : α)
  /-- in `virtio_blk_write_dev`; the sectors number `done` have been transferred -/
  | writing (w : Write α) (done : List ℕ)
  | wrote (w : Write α) (ok : Bool)
  | update (w : Write α) (ok : Bool)

/-- The disks, the cache, whether it has memory, and the tasks. -/
structure State (α : Type) where
  disk : ℕ → ℕ → α
  entries : Entries α
  ready : Bool
  writeCount : ℕ
  pc : ℕ → Pc α

inductive Event (α : Type)
  /-- `bcache_read_dev`; `memory`: there is memory for the cache -/
  | read (t dev lba count : ℕ) (memory : Bool)
  /-- the next sector is looked up, is transferred (or cannot be), is put in the cache -/
  | look (t : ℕ)
  | fetch (t : ℕ) (ok : Bool)
  | publish (t : ℕ)
  /-- `bcache_write_dev` -/
  | write (t : ℕ) (w : Write α)
  /-- the sector number `i` is transferred; `virtio_blk_write_dev` returns -/
  | transfer (t i : ℕ)
  | finish (t : ℕ) (ok : Bool)
  /-- the look at `data`; the cache is brought up to date -/
  | check (t : ℕ)
  | update (t : ℕ)
  /-- `bcache_invalidate` -/
  | invalidate

def Read.next (r : Read α) (sector : α) : Read α :=
  { r with lba := r.lba + 1, count := r.count - 1, out := r.out ++ [sector] }

namespace State

variable (s : State α)

def goto (t : ℕ) (pc : Pc α) : State α := { s with pc := update s.pc t pc }

def setSector (dev lba : ℕ) (sector : α) : State α :=
  { s with disk := update s.disk dev (update (s.disk dev) lba sector) }

/-- One that cannot happen changes nothing. -/
def step : Event α → State α
  | .read t dev lba count memory =>
    match s.pc t with
    | .idle =>
      if s.ready ∨ memory then { s with ready := true }.goto t (.read ⟨dev, lba, count, []⟩)
      -- the read goes past the cache
      else s
    | _ => s
  | .look t =>
    match s.pc t with
    | .read r =>
      if r.count = 0 then s.goto t .idle
      else
        match s.entries.hit r.dev r.lba with
        | some sector => s.goto t (.read (r.next sector))
        | none => s.goto t (.miss r s.writeCount)
    | _ => s
  | .fetch t ok =>
    match s.pc t with
    | .miss r before =>
      if ok ∧ r.dev < maxDevices then s.goto t (.fetched r before (s.disk r.dev r.lba))
      else s.goto t .idle
    | _ => s
  | .publish t =>
    match s.pc t with
    | .fetched r before sector =>
      let s' := s.goto t (.read (r.next sector))
      if s.writeCount = before then { s' with entries := s.entries.store r.dev r.lba sector }
      else s'
    | _ => s
  | .write t w =>
    match s.pc t with
    | .idle => s.goto t (.writing w [])
    | _ => s
  | .transfer t i =>
    match s.pc t with
    | .writing w done =>
      if h : i < w.sectors.length ∧ w.dev < maxDevices then
        (s.setSector w.dev (w.lba + i) w.sectors[i]).goto t (.writing w (i :: done))
      else s
    | _ => s
  | .finish t ok =>
    match s.pc t with
    | .writing w done =>
      if ok then
        if w.dev < maxDevices ∧ ∀ i < w.sectors.length, i ∈ done then s.goto t (.wrote w true)
        else s
      else s.goto t (.wrote w false)
    | _ => s
  | .check t =>
    match s.pc t with
    | .wrote w ok => if s.ready then s.goto t (.update w ok) else s.goto t .idle
    | _ => s
  | .update t =>
    match s.pc t with
    | .update w ok =>
      { s with
        writeCount := s.writeCount + 1
        entries := if ok then s.entries.storeAll w.dev w.lba w.sectors
          else s.entries.dropAll w.dev w.lba w.sectors.length }.goto t .idle
    | _ => s
  | .invalidate => { s with entries := fun _ => none, writeCount := s.writeCount + 1 }

end State

def start (disk : ℕ → ℕ → α) : State α where
  disk := disk
  entries _ := none
  ready := false
  writeCount := 0
  pc _ := .idle

/-! ### What is to hold -/

def Pc.current : Pc α → Option (Write α)
  | .writing w _ | .wrote w _ | .update w _ => some w
  | _ => none

def Write.Covers (w : Write α) (dev lba : ℕ) : Prop :=
  w.dev = dev ∧ w.lba ≤ lba ∧ lba < w.lba + w.sectors.length

namespace State

variable (s : State α)

/-- If no write is in progress, every valid entry is what the disk holds. -/
def Coherent : Prop :=
  (∀ t, (s.pc t).current = none) →
    ∀ slot e, s.entries slot = some e → e.sector = s.disk e.dev e.lba

/-- A write begins only when no write in progress has to do with one of its sectors. -/
def Apart (e : Event α) : Prop :=
  ∀ t w, e = .write t w → ∀ u w', (s.pc u).current = some w' →
    ∀ lba, w.Covers w.dev lba → ¬ w'.Covers w.dev lba

end State

/-! ### The cache alone -/

namespace Entries

variable {c : Entries α} {dev lba slot : ℕ} {e : Entry α}

theorem eq_of_store {sector : α} (h : c.store dev lba sector slot = some e) :
    (slot = lba % bcacheSectors ∧ e = ⟨dev % 256, lba, sector⟩) ∨
      slot ≠ lba % bcacheSectors ∧ c slot = some e := by
  unfold store at h
  rcases eq_or_ne slot (lba % bcacheSectors) with rfl | hne
  · rw [update_self] at h
    exact .inl ⟨rfl, (Option.some.inj h).symm⟩
  · rw [update_of_ne hne] at h
    exact .inr ⟨hne, h⟩

/-- An entry after a write is one of its sectors, or an old one in another slot. -/
theorem eq_of_storeAll {sectors : List α} (h : c.storeAll dev lba sectors slot = some e) :
    (∃ i, ∃ hi : i < sectors.length,
        slot = (lba + i) % bcacheSectors ∧ e = ⟨dev % 256, lba + i, sectors[i]⟩) ∨
      (∀ i < sectors.length, slot ≠ (lba + i) % bcacheSectors) ∧ c slot = some e := by
  induction sectors generalizing c lba with
  | nil => exact .inr ⟨nofun, h⟩
  | cons sector rest ih =>
    rcases ih h with ⟨i, hi, hslot, he⟩ | ⟨hno, h⟩
    · refine .inl ⟨i + 1, Nat.succ_lt_succ hi, ?_, ?_⟩
      · rw [hslot, Nat.add_right_comm, Nat.add_assoc]
      · rw [he, List.getElem_cons_succ, Nat.add_right_comm, Nat.add_assoc]
    · rcases eq_of_store h with ⟨hslot, he⟩ | ⟨hne, h⟩
      · exact .inl ⟨0, Nat.succ_pos _, hslot, he⟩
      · refine .inr ⟨fun i hi => ?_, h⟩
        cases i with
        | zero => exact hne
        | succ i =>
          have := hno i (Nat.lt_of_succ_lt_succ hi)
          rwa [Nat.add_right_comm] at this

theorem eq_of_drop (h : c.drop dev lba slot = some e) :
    c slot = some e ∧ (slot = e.lba % bcacheSectors → ¬ (e.dev = dev ∧ e.lba = lba)) := by
  unfold drop at h
  split at h
  next hhit =>
    rcases eq_or_ne slot (lba % bcacheSectors) with rfl | hne
    · rw [update_self] at h
      cases h
    · rw [update_of_ne hne] at h
      refine ⟨h, fun hslot heq => hne ?_⟩
      rw [hslot, heq.2]
  next hmiss =>
    refine ⟨h, fun hslot heq => hmiss ?_⟩
    rw [heq.2] at hslot
    rw [hslot] at h
    simp [hit, h, heq]

theorem eq_of_dropAll {count : ℕ} (h : c.dropAll dev lba count slot = some e) :
    c slot = some e ∧ (slot = e.lba % bcacheSectors →
      ¬ (e.dev = dev ∧ lba ≤ e.lba ∧ e.lba < lba + count)) := by
  induction count generalizing c lba with
  | zero => exact ⟨h, fun _ hin => by omega⟩
  | succ count ih =>
    obtain ⟨h, hrest⟩ := ih h
    obtain ⟨h, hfirst⟩ := eq_of_drop h
    refine ⟨h, fun hslot hin => ?_⟩
    rcases eq_or_ne e.lba lba with heq | hne
    · exact hfirst hslot ⟨hin.1, heq⟩
    · exact hrest hslot ⟨hin.1, by omega, by omega⟩

end Entries

/-! ### The invariant -/

def Pc.usesCache : Pc α → Bool
  | .read _ | .miss _ _ | .fetched _ _ _ | .update _ _ => true
  | _ => false

def Write.Done (w : Write α) (disk : ℕ → ℕ → α) : Prop :=
  w.dev < maxDevices ∧ ∀ i, ∀ h : i < w.sectors.length, disk w.dev (w.lba + i) = w.sectors[i]

theorem Write.covers_index {w : Write α} {i : ℕ} (hi : i < w.sectors.length) :
    w.Covers w.dev (w.lba + i) :=
  ⟨rfl, Nat.le_add_right .., Nat.add_lt_add_left hi _⟩

/-- `busy`: the sectors that writes in progress have to do with. -/
def TaskOk (disk : ℕ → ℕ → α) (writeCount : ℕ) (busy : ℕ → ℕ → Prop) : Pc α → Prop
  | .miss _ before => before ≤ writeCount
  | .fetched r before sector =>
    before ≤ writeCount ∧ r.dev < maxDevices ∧
      (before = writeCount → sector = disk r.dev r.lba ∨ busy r.dev r.lba)
  | .writing w done =>
    ∀ i ∈ done, ∀ h : i < w.sectors.length, disk w.dev (w.lba + i) = w.sectors[i]
  | .wrote w true | .update w true => w.Done disk
  | _ => True

theorem TaskOk.mono {disk : ℕ → ℕ → α} {n : ℕ} {busy busy' : ℕ → ℕ → Prop}
    (hbusy : ∀ dev lba, busy dev lba → busy' dev lba) {pc : Pc α} (h : TaskOk disk n busy pc) :
    TaskOk disk n busy' pc := by
  cases pc with
  | fetched r before sector => exact ⟨h.1, h.2.1, fun hb => (h.2.2 hb).imp_right (hbusy _ _)⟩
  | idle | read | miss | writing => exact h
  | wrote w ok | update w ok => cases ok <;> exact h

namespace State

def Busy (s : State α) (dev lba : ℕ) : Prop :=
  ∃ t w, (s.pc t).current = some w ∧ w.Covers dev lba

structure Inv (s : State α) : Prop where
  entry : ∀ slot e, s.entries slot = some e →
    slot = e.lba % bcacheSectors ∧ (e.sector = s.disk e.dev e.lba ∨ s.Busy e.dev e.lba)
  task : ∀ t, TaskOk s.disk s.writeCount s.Busy (s.pc t)
  apart : ∀ t u w w', (s.pc t).current = some w → (s.pc u).current = some w' → t ≠ u →
    ∀ dev lba, w.Covers dev lba → ¬ w'.Covers dev lba
  empty : s.ready = false → (∀ slot, s.entries slot = none) ∧ ∀ t, (s.pc t).usesCache = false

variable {s : State α} {t : ℕ} {pc : Pc α} {dev lba : ℕ} {sector : α} {w : Write α} {ok : Bool}

theorem start_inv (disk : ℕ → ℕ → α) : (start disk).Inv where
  entry _ _ h := nomatch h
  task _ := trivial
  apart _ _ _ _ h := nomatch h
  empty _ := ⟨fun _ => rfl, fun _ => rfl⟩

theorem Inv.coherent (h : s.Inv) : s.Coherent := by
  intro hidle slot e he
  refine (h.entry slot e he).2.resolve_right ?_
  rintro ⟨t, w, hw, -⟩
  rw [hidle t] at hw
  cases hw

@[simp] theorem pc_goto_self (s : State α) (t : ℕ) (pc : Pc α) : (s.goto t pc).pc t = pc :=
  update_self ..

theorem pc_goto_of_ne {u : ℕ} (hne : u ≠ t) (pc : Pc α) : (s.goto t pc).pc u = s.pc u :=
  update_of_ne hne ..

theorem Inv.ready (h : s.Inv) (ht : (s.pc t).usesCache = true) : s.ready = true := by
  by_contra hno
  have := (h.empty (by simpa using hno)).2 t
  rw [ht] at this
  cases this

/-! ### Steps -/

theorem current_goto (hcur : pc.current = (s.pc t).current) (u : ℕ) :
    ((s.goto t pc).pc u).current = (s.pc u).current := by
  rcases eq_or_ne u t with rfl | hne
  · rw [pc_goto_self, hcur]
  · rw [pc_goto_of_ne hne]

theorem busy_goto (hcur : pc.current = (s.pc t).current) :
    (s.goto t pc).Busy = s.Busy := by
  funext dev lba
  simp only [Busy, current_goto hcur]

theorem Inv.goto (h : s.Inv) (hcur : pc.current = (s.pc t).current)
    (htask : TaskOk s.disk s.writeCount s.Busy pc)
    (hempty : s.ready = false → pc.usesCache = false) : (s.goto t pc).Inv := by
  refine ⟨?_, fun u => ?_, ?_, fun hr => ⟨(h.empty hr).1, fun u => ?_⟩⟩
  · rw [busy_goto hcur]
    exact h.entry
  · rw [busy_goto hcur]
    rcases eq_or_ne u t with rfl | hne
    · rw [pc_goto_self]
      exact htask
    · rw [pc_goto_of_ne hne]
      exact h.task u
  · simp only [current_goto hcur]
    exact h.apart
  · rcases eq_or_ne u t with rfl | hne
    · rw [pc_goto_self]
      exact hempty hr
    · rw [pc_goto_of_ne hne]
      exact (h.empty hr).2 u

theorem Inv.setReady (h : s.Inv) : { s with ready := true }.Inv :=
  ⟨h.entry, h.task, h.apart, nofun⟩

theorem Inv.store (h : s.Inv) (hdev : dev < maxDevices)
    (hok : sector = s.disk dev lba ∨ s.Busy dev lba) (hready : s.ready = true) :
    { s with entries := s.entries.store dev lba sector }.Inv := by
  refine ⟨fun slot e he => ?_, h.task, h.apart, fun hr => ?_⟩
  · rcases Entries.eq_of_store he with ⟨hslot, rfl⟩ | ⟨-, he⟩
    · have hmod : dev % 256 = dev := Nat.mod_eq_of_lt (by simp only [maxDevices] at hdev; omega)
      rw [hmod]
      exact ⟨hslot, hok⟩
    · exact h.entry slot e he
  · rw [hready] at hr
    cases hr

theorem Inv.publish (h : s.Inv) {r : Read α} {before : ℕ}
    (hpc : s.pc t = .fetched r before sector) : (s.step (.publish t)).Inv := by
  have ht := h.task t
  have hready : s.ready = true := h.ready (t := t) (by rw [hpc]; rfl)
  have hcur : (Pc.read (r.next sector)).current = (s.pc t).current := by rw [hpc]; rfl
  have hgoto := h.goto hcur trivial (by rw [hready]; exact nofun)
  rw [hpc] at ht
  simp only [step, hpc]
  split
  next hcount =>
    refine hgoto.store ht.2.1 ?_ hready
    rw [busy_goto hcur]
    exact ht.2.2 hcount.symm
  · exact hgoto

theorem Inv.write (h : s.Inv) (hpc : s.pc t = .idle) (hapart : s.Apart (.write t w)) :
    (s.goto t (.writing w [])).Inv := by
  have hnew := hapart t w rfl
  have hbusy : ∀ dev lba, s.Busy dev lba → (s.goto t (.writing w [])).Busy dev lba := by
    rintro dev lba ⟨u, w', hu, hw'⟩
    refine ⟨u, w', ?_, hw'⟩
    rw [pc_goto_of_ne]
    · exact hu
    · rintro rfl
      rw [hpc] at hu
      cases hu
  refine ⟨fun slot e he => ?_, fun u => ?_, fun u v wu wv hu hv hne dev lba hc hc' => ?_,
    fun hr => ⟨(h.empty hr).1, fun u => ?_⟩⟩
  · exact ⟨(h.entry slot e he).1, (h.entry slot e he).2.imp_right (hbusy _ _)⟩
  · rcases eq_or_ne u t with rfl | hut
    · rw [pc_goto_self]
      exact nofun
    · rw [pc_goto_of_ne hut]
      exact (h.task u).mono hbusy
  · rcases eq_or_ne u t with rfl | hut
    · rw [pc_goto_self] at hu
      cases hu
      rw [pc_goto_of_ne (Ne.symm hne)] at hv
      obtain ⟨rfl, -⟩ := id hc
      exact hnew v wv hv lba hc hc'
    · rw [pc_goto_of_ne hut] at hu
      rcases eq_or_ne v t with rfl | hvt
      · rw [pc_goto_self] at hv
        cases hv
        obtain ⟨rfl, -⟩ := id hc'
        exact hnew u wu hu lba hc' hc
      · rw [pc_goto_of_ne hvt] at hv
        exact h.apart u v wu wv hu hv hne dev lba hc hc'
  · rcases eq_or_ne u t with rfl | hut
    · rw [pc_goto_self]
      rfl
    · rw [pc_goto_of_ne hut]
      exact (h.empty hr).2 u

theorem disk_setSector (dev lba : ℕ) (x : α) (d l : ℕ) :
    (s.setSector dev lba x).disk d l = if d = dev ∧ l = lba then x else s.disk d l := by
  unfold setSector
  rcases eq_or_ne d dev with rfl | hd
  · rcases eq_or_ne l lba with rfl | hl
    · simp
    · simp [hl]
  · simp [hd]

theorem taskOk_setSector {x : α} (hbusy : s.Busy dev lba)
    (hother : ∀ w, pc.current = some w → ¬ w.Covers dev lba)
    (h : TaskOk s.disk s.writeCount s.Busy pc) :
    TaskOk (s.setSector dev lba x).disk s.writeCount s.Busy pc := by
  have hkeep : ∀ w : Write α, pc.current = some w → ∀ i, i < w.sectors.length →
      (s.setSector dev lba x).disk w.dev (w.lba + i) = s.disk w.dev (w.lba + i) := by
    intro w hw i hi
    rw [disk_setSector, if_neg]
    rintro ⟨rfl, rfl⟩
    exact hother w hw (Write.covers_index hi)
  cases pc with
  | fetched r before sector =>
    refine ⟨h.1, h.2.1, fun hb => ?_⟩
    rw [disk_setSector]
    split
    next heq =>
      rw [heq.1, heq.2]
      exact .inr hbusy
    · exact h.2.2 hb
  | writing w done =>
    intro i hi hlt
    rw [hkeep w rfl i hlt]
    exact h i hi hlt
  | wrote w ok | update w ok =>
    cases ok
    · trivial
    · refine ⟨h.1, fun i hi => ?_⟩
      rw [hkeep w rfl i hi]
      exact h.2 i hi
  | idle | read | miss => exact h

theorem Inv.transfer (h : s.Inv) {done : List ℕ} (hpc : s.pc t = .writing w done) {i : ℕ}
    (hi : i < w.sectors.length) :
    ((s.setSector w.dev (w.lba + i) w.sectors[i]).goto t (.writing w (i :: done))).Inv := by
  have hcur : (s.pc t).current = some w := by rw [hpc]; rfl
  have hbusy : s.Busy w.dev (w.lba + i) := ⟨t, w, hcur, Write.covers_index hi⟩
  have hdone : ∀ j ∈ i :: done, ∀ hj : j < w.sectors.length,
      (s.setSector w.dev (w.lba + i) w.sectors[i]).disk w.dev (w.lba + j) = w.sectors[j] := by
    intro j hmem hj
    rw [disk_setSector]
    split
    next heq =>
      obtain rfl : j = i := by omega
      rfl
    next hne =>
      have ht := h.task t
      rw [hpc] at ht
      rcases List.mem_cons.1 hmem with rfl | hmem
      · exact absurd ⟨rfl, rfl⟩ hne
      · exact ht j hmem hj
  have hset : (s.setSector w.dev (w.lba + i) w.sectors[i]).Inv := by
    refine ⟨fun slot e he => ?_, fun u => ?_, h.apart, h.empty⟩
    · refine ⟨(h.entry slot e he).1, ?_⟩
      rw [disk_setSector]
      split
      next heq =>
        rw [heq.1, heq.2]
        exact .inr hbusy
      · exact (h.entry slot e he).2
    · rcases eq_or_ne u t with rfl | hne
      · change TaskOk _ _ _ (s.pc u)
        rw [hpc]
        exact fun j hj => hdone j (List.mem_cons_of_mem _ hj)
      · refine taskOk_setSector hbusy (fun w' hw' => ?_) (h.task u)
        exact h.apart t u w w' hcur hw' (Ne.symm hne) _ _ (Write.covers_index hi)
  refine hset.goto hcur.symm hdone fun hr => ?_
  rfl

theorem Inv.leave (h : s.Inv) (hcur : (s.pc t).current = some w) {c : Entries α} {n : ℕ}
    (hn : s.writeCount ≤ n)
    (hentry : ∀ slot e, c slot = some e → slot = e.lba % bcacheSectors ∧
      (e.sector = s.disk e.dev e.lba ∨ ¬ w.Covers e.dev e.lba ∧ s.Busy e.dev e.lba))
    (hempty : s.ready = false → ∀ slot, c slot = none) (hold : s.ready = false ∨ s.writeCount < n) :
    ({ s with entries := c, writeCount := n }.goto t .idle).Inv := by
  have hbusy : ∀ dev lba, ¬ w.Covers dev lba → s.Busy dev lba →
      ({ s with entries := c, writeCount := n }.goto t .idle).Busy dev lba := by
    rintro dev lba hno ⟨u, w', hu, hw'⟩
    refine ⟨u, w', ?_, hw'⟩
    rw [pc_goto_of_ne]
    · exact hu
    · rintro rfl
      rw [hcur] at hu
      exact hno (Option.some.inj hu ▸ hw')
  have hsome : ∀ {u w'}, (({ s with entries := c, writeCount := n }.goto t .idle).pc u).current =
      some w' → (s.pc u).current = some w' := by
    intro u w' hu
    rcases eq_or_ne u t with rfl | hne
    · rw [pc_goto_self] at hu
      cases hu
    · rwa [pc_goto_of_ne hne] at hu
  refine ⟨fun slot e he => ?_, fun u => ?_, ?_, fun hr => ⟨hempty hr, fun u => ?_⟩⟩
  · refine ⟨(hentry slot e he).1, (hentry slot e he).2.imp_right fun hb => ?_⟩
    exact hbusy _ _ hb.1 hb.2
  · rcases eq_or_ne u t with rfl | hne
    · rw [pc_goto_self]
      trivial
    · rw [pc_goto_of_ne hne]
      have hu := h.task u
      change TaskOk s.disk n _ (s.pc u)
      cases hpc : s.pc u with
      | miss r before =>
        rw [hpc] at hu
        exact hu.trans hn
      | fetched r before sector =>
        rw [hpc] at hu
        refine ⟨hu.1.trans hn, hu.2.1, fun hb => ?_⟩
        rcases hold with hr | hlt
        · have := (h.empty hr).2 u
          rw [hpc] at this
          cases this
        · have := hu.1
          omega
      | idle | read => trivial
      | writing w' done => rwa [hpc] at hu
      | wrote w' ok | update w' ok =>
        rw [hpc] at hu
        cases ok <;> exact hu
  · intro u v wu wv hu hv
    exact h.apart u v wu wv (hsome hu) (hsome hv)
  · rcases eq_or_ne u t with rfl | hne
    · rw [pc_goto_self]
      rfl
    · rw [pc_goto_of_ne hne]
      exact (h.empty hr).2 u

theorem Inv.update (h : s.Inv) (hpc : s.pc t = .update w ok) :
    (s.step (.update t)).Inv := by
  have hcur : (s.pc t).current = some w := by rw [hpc]; rfl
  have hready : s.ready = true := h.ready (t := t) (by rw [hpc]; rfl)
  have ht := h.task t
  rw [hpc] at ht
  simp only [step, hpc]
  refine h.leave hcur (Nat.le_succ _) (fun slot e he => ?_) (fun hr => ?_)
    (.inr (Nat.lt_succ_self _))
  · cases ok with
    | true =>
      rcases Entries.eq_of_storeAll he with ⟨i, hi, hslot, rfl⟩ | ⟨hno, he⟩
      · have hdev := ht.1
        have hmod : w.dev % 256 = w.dev :=
          Nat.mod_eq_of_lt (by simp only [maxDevices] at hdev; omega)
        refine ⟨hslot, .inl ?_⟩
        rw [hmod]
        exact (ht.2 i hi).symm
      · obtain ⟨hslot, hold⟩ := h.entry slot e he
        refine ⟨hslot, hold.imp_right fun hb => ⟨?_, hb⟩⟩
        rintro ⟨-, hle, hlt⟩
        refine hno (e.lba - w.lba) (by omega) ?_
        rw [hslot, Nat.add_sub_cancel' hle]
    | false =>
      obtain ⟨he, hno⟩ := Entries.eq_of_dropAll he
      obtain ⟨hslot, hold⟩ := h.entry slot e he
      refine ⟨hslot, hold.imp_right fun hb => ⟨?_, hb⟩⟩
      rintro ⟨hdev, hle, hlt⟩
      exact hno hslot ⟨hdev.symm, hle, hlt⟩
  · rw [hready] at hr
    cases hr

theorem Inv.check (h : s.Inv) (hpc : s.pc t = .wrote w ok) :
    (s.step (.check t)).Inv := by
  have hcur : (s.pc t).current = some w := by rw [hpc]; rfl
  have ht := h.task t
  rw [hpc] at ht
  simp only [step, hpc]
  split
  next hready =>
    refine h.goto hcur.symm ?_ fun hr => ?_
    · cases ok <;> exact ht
    · rw [hready] at hr
      cases hr
  next hno =>
    have hno : s.ready = false := by simpa using hno
    have hempty := (h.empty hno).1
    refine h.leave hcur le_rfl (fun slot e he => ?_) (fun _ => hempty) (.inl hno)
    rw [hempty slot] at he
    cases he

theorem Inv.invalidate (h : s.Inv) : (s.step .invalidate).Inv := by
  refine ⟨?_, fun t => ?_, h.apart, fun hr => ⟨fun _ => rfl, (h.empty hr).2⟩⟩
  · exact fun _ _ he => nomatch he
  have ht := h.task t
  change TaskOk s.disk (s.writeCount + 1) s.Busy (s.pc t)
  cases hpc : s.pc t with
  | miss r before =>
    rw [hpc] at ht
    exact Nat.le_succ_of_le ht
  | fetched r before sector =>
    rw [hpc] at ht
    have := ht.1
    exact ⟨by omega, ht.2.1, fun hb => absurd hb (by omega)⟩
  | idle | read => trivial
  | writing w done => rwa [hpc] at ht
  | wrote w ok | update w ok =>
    rw [hpc] at ht
    cases ok <;> exact ht

theorem Inv.step (h : s.Inv) {e : Event α} (he : s.Apart e) : (s.step e).Inv := by
  cases e with
  | read t dev lba count memory =>
    simp only [State.step]
    split
    next hpc =>
      split
      · exact h.setReady.goto (by rw [show State.pc _ t = _ from hpc]; rfl) trivial nofun
      · exact h
    · exact h
  | look t =>
    simp only [State.step]
    split
    next r hpc =>
      have hready : s.ready = true := h.ready (t := t) (by rw [hpc]; rfl)
      have hcur : (s.pc t).current = none := by rw [hpc]; rfl
      split
      · exact h.goto hcur.symm trivial fun _ => rfl
      · split
        · exact h.goto hcur.symm trivial (by rw [hready]; exact nofun)
        · exact h.goto hcur.symm (le_refl s.writeCount) (by rw [hready]; exact nofun)
    · exact h
  | fetch t ok =>
    simp only [State.step]
    split
    next r before hpc =>
      have hready : s.ready = true := h.ready (t := t) (by rw [hpc]; rfl)
      have hcur : (s.pc t).current = none := by rw [hpc]; rfl
      have ht := h.task t
      rw [hpc] at ht
      split
      next hok =>
        refine h.goto hcur.symm ?_ (by rw [hready]; exact nofun)
        exact ⟨ht, hok.2, fun _ => .inl rfl⟩
      · exact h.goto hcur.symm trivial fun _ => rfl
    · exact h
  | publish t =>
    cases hpc : s.pc t with
    | fetched r before sector => exact h.publish hpc
    | idle | read | miss | writing | wrote | update =>
      simp only [State.step, hpc]
      exact h
  | write t w =>
    simp only [State.step]
    split
    next hpc => exact h.write hpc he
    · exact h
  | transfer t i =>
    simp only [State.step]
    split
    next w done hpc =>
      split
      next hi => exact h.transfer hpc hi.1
      · exact h
    · exact h
  | finish t ok =>
    simp only [State.step]
    split
    next w done hpc =>
      have hcur : (s.pc t).current = some w := by rw [hpc]; rfl
      have ht := h.task t
      rw [hpc] at ht
      split
      · split
        next hall =>
          refine h.goto hcur.symm ?_ fun _ => rfl
          exact ⟨hall.1, fun i hi => ht i (hall.2 i hi) hi⟩
        · exact h
      · exact h.goto hcur.symm trivial fun _ => rfl
    · exact h
  | check t =>
    cases hpc : s.pc t with
    | wrote w ok => exact h.check hpc
    | idle | read | miss | fetched | writing | update =>
      simp only [State.step, hpc]
      exact h
  | update t =>
    cases hpc : s.pc t with
    | update w ok => exact h.update hpc
    | idle | read | miss | fetched | writing | wrote =>
      simp only [State.step, hpc]
      exact h
  | invalidate => exact h.invalidate

end State

/-! ### Runs -/

/-- If writes of one sector are kept apart, the cache agrees with the disk whenever no write is in
progress. -/
theorem cache_agrees (disk : ℕ → ℕ → α) (es : List (Event α))
    (h : Along State.step State.Apart (start disk) es) :
    Always State.step State.Coherent (start disk) es := by
  have hinv : Always State.step State.Inv (start disk) es :=
    always_of_induction (fun _ _ hI he => hI.step he) (State.start_inv disk) h
  exact hinv.mono fun _ hI => hI.coherent

def writeAndRead : List (Event ℕ) :=
  [.read 1 0 5 1 true, .look 1, .fetch 1 true, .write 0 ⟨0, 5, [1]⟩, .transfer 0 0, .publish 1,
    .finish 0 true, .check 0, .update 0]

theorem cache_agrees_writeAndRead :
    Along State.step State.Apart (start fun _ _ => 0) writeAndRead ∧
      Always State.step State.Coherent (start fun _ _ => 0) writeAndRead := by
  have hapart : Along State.step State.Apart (start fun _ _ => 0) writeAndRead := by
    refine ⟨nofun, nofun, nofun, fun t w he u w' hu => ?_, nofun, nofun, nofun, nofun, nofun,
      trivial⟩
    match u with
    | 0 | 1 | _ + 2 => cases hu
  exact ⟨hapart, cache_agrees _ _ hapart⟩

/-- Two tasks write one sector; the one whose transfer comes first updates the cache last. -/
def twoWrites : List (Event ℕ) :=
  [.read 0 0 5 0 true, .look 0, .write 0 ⟨0, 5, [1]⟩, .write 1 ⟨0, 5, [2]⟩, .transfer 0 0,
    .transfer 1 0, .finish 0 true, .finish 1 true, .check 0, .check 1, .update 1, .update 0]

/-- Then the cache holds the older one although no write is in progress any more. -/
theorem older_write_stays : ¬ (run State.step (start fun _ _ => 0) twoWrites).Coherent := by
  intro h
  have hidle : ∀ t, ((run State.step (start fun _ _ => 0) twoWrites).pc t).current = none
    | 0 | 1 | _ + 2 => rfl
  have hstale := h hidle 5 ⟨0, 5, 1⟩ rfl
  exact absurd hstale (by decide)

end Bashket.Bcache
