import Bashket.Mm.Fork

/-!
# Mappings that fail

`user_map_range` of `mmap.c` and `vmm_alloc_user_page` of `vmm.c`.  Pages of the range that are
there already are skipped, but when memory runs out, everything before that page is unmapped.
-/

namespace Bashket.Vmm

open Refs List
open Function (update update_of_ne update_self)

variable {ι : Type*} {n : ℕ}

/-! ### What a failed call should leave -/

def Pte.Empty (p : Pte) : Prop := p.present = false ∧ p.swapped = false

/-- Every page has its frame or slot, contents and permissions, and no frame or slot is lost. -/
structure Unchanged (s t : Vm ι n) : Prop where
  entry : ∀ k, t.pte k = s.pte k ∨ (t.pte k).Empty ∧ (s.pte k).Empty
  read : ∀ k, t.read k = s.read k
  used : t.used = s.used
  extra : t.extra = s.extra
  slotOwners : t.slotOwners = s.slotOwners

structure Keeps (s t : Vm ι n) : Prop where
  used : ∀ f, s.used f = true → t.used f = true
  data : ∀ f, s.used f = true → t.data f = s.data f
  deviceData : t.deviceData = s.deviceData
  slotData : t.slotData = s.slotData
  slotOwners : t.slotOwners = s.slotOwners
  held : t.held = s.held

theorem Keeps.trans {s t u : Vm ι n} (h : Keeps s t) (h' : Keeps t u) : Keeps s u where
  used f hf := h'.used f (h.used f hf)
  data f hf := (h'.data f (h.used f hf)).trans (h.data f hf)
  deviceData := h'.deviceData.trans h.deviceData
  slotData := h'.slotData.trans h.slotData
  slotOwners := h'.slotOwners.trans h.slotOwners
  held := h'.held.trans h.held

section

variable [Fintype ι] {s t u : Vm ι n}

theorem Good.zeroed {pend : List ℕ} (hg : Good s pend) (data : ℕ → ℕ → ℕ) :
    Good { s with data := data } pend :=
  ⟨hg.ne_zero, hg.pend_ne_zero, hg.used_lt, hg.count, hg.free, hg.shape, hg.single⟩

theorem Pte.Empty.not_maps {p : Pte} (h : p.Empty) (f : ℕ) : ¬p.Maps f := fun hm => by
  cases h.1.symm.trans hm.1

theorem Keeps.unchanged (h : Keeps s t) (hg : Good s []) (hu : Good u [])
    (hfixed : u.fixed = t.fixed) (hslots : u.slotOwners = t.slotOwners)
    (hentry : ∀ k, u.pte k = s.pte k ∨ (u.pte k).Empty ∧ (s.pte k).Empty) : Unchanged s u := by
  have hmaps (k : ι × Fin n) (f : ℕ) : (u.pte k).Maps f ↔ (s.pte k).Maps f := by
    rcases hentry k with h0 | ⟨h1, h2⟩
    · rw [h0]
    · exact iff_of_false (h1.not_maps f) (h2.not_maps f)
  obtain ⟨hused, hextra⟩ := hg.counts_eq hu fun f => by
    simp only [Vm.owners, refs, hmaps, (held_of_fixed hfixed).trans h.held]
  refine ⟨hentry, fun k => ?_, hused, hextra, hslots.trans h.slotOwners⟩
  rw [Vm.read, view_congr hfixed, Vm.read]
  rcases hentry k with h0 | ⟨h1, h2⟩
  · rw [h0, Vm.view, Vm.view, h.deviceData, h.slotData]
    split_ifs with hp hd
    · rfl
    · rw [h.data _ (hg.used_of_maps ⟨hp, by simpa using hd, rfl⟩)]
    · rfl
    · rfl
  · simp [Vm.view, h1.1, h1.2, h2.1, h2.2]

end

/-! ### `user_map_range` -/

variable [DecidableEq ι]

/-- `prot_to_pte_flags`; the frame is still to be put in. -/
def protToPteFlags (prot : BitVec 32) : Pte :=
  { Pte.zero with
    present := true, user := true, writable := prot.getLsbD 1, noExecute := !prot.getLsbD 2 }

/-- `ok` says whether the tables for the entry can be had. -/
def Vm.vmmAllocUserPage (s : Vm ι n) (k : ι × Fin n) (flags : Pte) (found : Option ℕ) (ok : Bool) :
    Vm ι n × Bool :=
  match s.pmmAllocFrame found with
  | none => (s, false)
  | some (s, frame) =>
    let s := { s with data := update s.data frame fun _ => 0 }
    if ok then (s.set k { flags with present := true, user := true, frame := frame }, true)
    else (s.pmmFreeFrame frame, false)

/-- The loop of `user_map_range`, with the page at which memory runs out. -/
def Vm.mapLoop (d : ι) (flags : Pte) (found : Fin n → Option ℕ) (ok : Fin n → Bool) :
    List (Fin n) → Vm ι n → Vm ι n × Option (Fin n)
  | [], s => (s, none)
  | v :: vs, s =>
    if (s.pte (d, v)).present then mapLoop d flags found ok vs s
    else
      match s.vmmAllocUserPage (d, v) flags (found v) (ok v) with
      | (s, true) => mapLoop d flags found ok vs s
      | (s, false) => (s, some v)

/-- The pages from `addr` on, for `length` bytes. -/
def pages (n addr length : ℕ) : List (Fin n) :=
  (List.finRange n).filter fun v =>
    addr ≤ v * pageSize ∧ v * pageSize < addr + (length + pageSize - 1) / pageSize * pageSize

def Vm.userMapRange (s : Vm ι n) (d : ι) (addr length : ℕ) (prot : BitVec 32)
    (found : Fin n → Option ℕ) (ok : Fin n → Bool) : Vm ι n × Bool :=
  if length = 0 ∨ ¬pageSize ∣ addr then (s, false)
  else if addr < pageSize ∨ n * pageSize ≤ addr ∨ n * pageSize - addr < length then (s, false)
  else
    match Vm.mapLoop d (protToPteFlags prot) found ok (pages n addr length) s with
    | (s, none) => (s, true)
    | (s, some v) =>
      (if addr < v * pageSize then s.userUnmapRange d addr (v * pageSize - addr) else s, false)

/-! ### The pages of a range -/

section

variable {addr length : ℕ} {v w : Fin n}

theorem mem_pages : w ∈ pages n addr length ↔ addr ≤ w * pageSize ∧
    w * pageSize < addr + (length + pageSize - 1) / pageSize * pageSize := by
  simp [pages]

theorem pairwise_pages : (pages n addr length).Pairwise (· < ·) :=
  (pairwise_lt_finRange n).filter _

theorem mem_pages_iff_lt (h : pageSize ∣ addr) (v w : Fin n) :
    w ∈ pages n addr (v * pageSize - addr) ↔ addr ≤ w * pageSize ∧ w < v := by
  rw [mem_pages, Fin.lt_def]
  obtain ⟨a, rfl⟩ := h
  unfold pageSize
  omega

theorem mem_pages_of_lt (hv : v ∈ pages n addr length) (h : addr ≤ w * pageSize ∧ w < v) :
    w ∈ pages n addr length := by
  have := Nat.mul_lt_mul_of_pos_right h.2 (by decide : 0 < pageSize)
  exact mem_pages.2 ⟨h.1, this.trans (mem_pages.1 hv).2⟩

end

/-! ### The loop -/

variable [Fintype ι] {s t : Vm ι n} {d : ι} {k : ι × Fin n} {prot : BitVec 32}

theorem vmmAllocUserPage_spec {found : Option ℕ} {ok b : Bool} (hg : Good s [])
    (hk : (s.pte k).present = false)
    (h : s.vmmAllocUserPage k (protToPteFlags prot) found ok = (t, b)) :
    Good t [] ∧ Keeps s t ∧ (b = false → t.pte = s.pte) ∧ (b = true →
      ∃ f ≠ 0, t.pte = update s.pte k { protToPteFlags prot with frame := f }) := by
  unfold Vm.vmmAllocUserPage at h
  cases ha : s.pmmAllocFrame found with
  | none =>
    simp only [ha] at h
    obtain ⟨rfl, rfl⟩ := Prod.mk.inj h
    exact ⟨hg, ⟨fun _ => id, fun _ _ => rfl, rfl, rfl, rfl, rfl⟩, fun _ => rfl, nofun⟩
  | some r =>
    obtain ⟨s', f⟩ := r
    obtain ⟨rfl, hgood, hextra, hmaps⟩ := hg.alloc ha
    have hf : f ≠ 0 := fun h0 => hgood.pend_ne_zero (h0 ▸ mem_cons_self)
    have hne {g : ℕ} (hu : s.used g = true) : g ≠ f := by
      rintro rfl
      have h1 : s.extra g + 1 = s.owners g + [g].count g := hgood.count g (update_self ..)
      have h2 := hg.count g hu
      simp only [count_nil, count_singleton_self] at h1 h2
      omega
    have hz := hgood.zeroed (update s.data f fun _ => 0)
    have hkeep : Keeps s { s with
        used := update s.used f true, data := update s.data f fun _ => 0 } :=
      ⟨fun g hu => (update_of_ne (hne hu) _ _).trans hu, fun g hu => update_of_ne (hne hu) _ _, rfl,
        rfl, rfl, rfl⟩
    simp only [ha] at h
    split_ifs at h with hok
    · obtain ⟨rfl, rfl⟩ := Prod.mk.inj h
      refine ⟨hz.set not_mem_nil (fun _ => ⟨nofun, nofun⟩) (fun g hm => hm.2.2 ▸ hf)
        (fun g => ?_) fun _ => hextra, ⟨hkeep.used, hkeep.data, rfl, rfl, rfl, rfl⟩, nofun,
        fun _ => ⟨f, hf, rfl⟩⟩
      simp [Pte.Maps, protToPteFlags, Pte.zero, count_cons, hk]
    · obtain ⟨rfl, rfl⟩ := Prod.mk.inj h
      have hfree := hz.unref
      rw [Vm.pmmUnrefFrame, if_neg hf, if_neg (by simp [hextra])] at hfree
      refine ⟨hfree, ?_⟩
      unfold Vm.pmmFreeFrame
      split_ifs
      · exact ⟨hkeep, fun _ => rfl, nofun⟩
      · refine ⟨⟨fun g hu => ?_, hkeep.data, rfl, rfl, rfl, rfl⟩, fun _ => rfl, nofun⟩
        exact (update_of_ne (hne hu) _ _).trans (hkeep.used g hu)

/-- The pages before the one at which memory runs out have been given frames. -/
theorem mapLoop_spec {found : Fin n → Option ℕ} {ok : Fin n → Bool} {v : Fin n} {vs : List (Fin n)}
    (hg : Good s []) (hvs : vs.Pairwise (· < ·))
    (h : Vm.mapLoop d (protToPteFlags prot) found ok vs s = (t, some v))
    (hempty : ∀ w ∈ vs, w < v → (s.pte (d, w)).Empty) :
    Good t [] ∧ Keeps s t ∧ v ∈ vs ∧
      (∀ w ∈ vs, w < v → (t.pte (d, w)).present = true ∧ (t.pte (d, w)).frame ≠ 0) ∧
      ∀ k, ¬(k.1 = d ∧ k.2 ∈ vs ∧ k.2 < v) → t.pte k = s.pte k := by
  induction vs generalizing s with
  | nil => cases h
  | cons w vs ih =>
    obtain ⟨hw, hvs⟩ := pairwise_cons.1 hvs
    have hfirst (hv : v ∈ vs) : (s.pte (d, w)).Empty := hempty w mem_cons_self (hw v hv)
    rw [Vm.mapLoop] at h
    by_cases hp : (s.pte (d, w)).present = true
    · rw [if_pos hp] at h
      obtain ⟨-, -, hv, -⟩ := ih hg hvs h fun u hu => hempty u (mem_cons_of_mem w hu)
      rw [(hfirst hv).1] at hp
      cases hp
    rw [if_neg hp] at h
    rcases hr : s.vmmAllocUserPage (d, w) (protToPteFlags prot) (found w) (ok w) with ⟨s', b⟩
    obtain ⟨hg', hk', hpte⟩ := vmmAllocUserPage_spec hg (by simpa using hp) hr
    rw [hr] at h
    cases b with
    | true =>
      obtain ⟨f, hf, hpte⟩ := hpte.2 rfl
      have hother (u : Fin n) (hu : u ∈ vs) : s'.pte (d, u) = s.pte (d, u) := by
        rw [hpte, update_of_ne]
        intro h0
        exact (hw u hu).ne' (congrArg Prod.snd h0)
      obtain ⟨h1, h2, hv, h4, h5⟩ := ih hg' hvs h fun u hu huv =>
        hother u hu ▸ hempty u (mem_cons_of_mem w hu) huv
      refine ⟨h1, hk'.trans h2, mem_cons_of_mem w hv, fun u hu huv => ?_, fun k hk => ?_⟩
      · rcases mem_cons.1 hu with rfl | hu
        · rw [h5 _ fun h0 => lt_irrefl _ (hw u h0.2.1), hpte, update_self]
          exact ⟨rfl, hf⟩
        · exact h4 u hu huv
      · rw [h5 k fun h0 => hk ⟨h0.1, mem_cons_of_mem w h0.2.1, h0.2.2⟩, hpte, update_of_ne]
        rintro rfl
        exact hk ⟨rfl, mem_cons_self, hw v hv⟩
    | false =>
      obtain ⟨rfl, hv⟩ := Prod.mk.inj h
      cases hv
      refine ⟨hg', hk', mem_cons_self, fun u hu huv => ?_, fun k _ => congrFun (hpte.1 rfl) k⟩
      rcases mem_cons.1 hu with rfl | hu
      · exact absurd huv (lt_irrefl u)
      · exact absurd huv (hw u hu).not_gt

/-! ### The way back -/

omit [Fintype ι] in
/-- Unmapping pages that are all there empties their entries and no others. -/
theorem unmapLoop_pte {vs : List (Fin n)} (hvs : vs.Nodup) (frames : List ℕ)
    (h : ∀ v ∈ vs, (s.pte (d, v)).present = true ∧ (s.pte (d, v)).frame ≠ 0) :
    (Vm.unmapLoop d vs s frames).slotOwners = s.slotOwners ∧
      (∀ v ∈ vs, (Vm.unmapLoop d vs s frames).pte (d, v) = Pte.zero) ∧
      ∀ k, (k.1 = d → k.2 ∉ vs) → (Vm.unmapLoop d vs s frames).pte k = s.pte k := by
  have hflush (l : List ℕ) (s : Vm ι n) :
      (l.foldl Vm.pmmUnrefFrame s).slotOwners = s.slotOwners := by
    induction l generalizing s with
    | nil => rfl
    | cons f l ih =>
      refine (ih _).trans ?_
      unfold Vm.pmmUnrefFrame Vm.pmmFreeFrame
      split_ifs <;> rfl
  induction vs generalizing s frames with
  | nil =>
    refine ⟨hflush frames s, nofun, fun k _ => ?_⟩
    rw [Vm.unmapLoop, (foldl_unref_pte frames s).1]
  | cons v vs ih =>
    obtain ⟨hv, hvs⟩ := nodup_cons.1 hvs
    have hthen {t : Vm ι n} (ht : t.pte = (s.set (d, v) Pte.zero).pte) (l : List ℕ) :
        (Vm.unmapLoop d vs t l).slotOwners = t.slotOwners ∧
          (∀ u ∈ v :: vs, (Vm.unmapLoop d vs t l).pte (d, u) = Pte.zero) ∧
          ∀ k, (k.1 = d → k.2 ∉ v :: vs) → (Vm.unmapLoop d vs t l).pte k = s.pte k := by
      have hother (k : ι × Fin n) (hk : k.1 = d → k.2 ≠ v) : t.pte k = s.pte k := by
        rw [ht, set_pte, update_of_ne]
        rintro rfl
        exact hk rfl rfl
      obtain ⟨h1, h2, h3⟩ := ih hvs l fun u hu => by
        rw [hother (d, u) fun _ h0 => hv (h0 ▸ hu)]
        exact h u (mem_cons_of_mem v hu)
      refine ⟨h1, fun u hu => ?_, fun k hk => ?_⟩
      · rcases mem_cons.1 hu with rfl | hu
        · rw [h3 _ fun _ => hv, ht, set_pte, update_self]
        · exact h2 u hu
      · rw [h3 k fun h0 hm => hk h0 (mem_cons_of_mem v hm),
          hother k fun h0 he => hk h0 (he ▸ mem_cons_self)]
    rw [Vm.unmapLoop, if_pos (h v mem_cons_self)]
    simp only
    generalize (if (s.pte (d, v)).device = true then frames else _) = frames'
    split_ifs
    · obtain ⟨h1, h2⟩ := hthen (foldl_unref_pte frames' (s.set (d, v) Pte.zero)).1 []
      exact ⟨h1.trans (hflush _ _), h2⟩
    · exact hthen rfl frames'

/-! ### A failed call -/

def emptySpace : Vm (Fin 1) 3 where
  total := 4
  used := fun _ => false
  extra := fun _ => 0
  data := fun _ _ => 5
  deviceData := fun _ _ => 0
  slotCount := 0
  slotOwners := fun _ => 0
  slotData := fun _ _ => 0
  pte := fun _ => Pte.zero
  held := fun _ => 0
  origin := id

theorem emptySpace_good : Good emptySpace [] where
  ne_zero _ f hf := absurd hf (not_maps_zero f)
  pend_ne_zero := not_mem_nil
  used_lt := nofun
  count := nofun
  free f _ := by simp [Vm.owners, refs, emptySpace, not_maps_zero]
  shape _ := shape_zero
  single _ h := absurd h not_private_zero

def oneFrame (v : Fin 3) : Option ℕ := if v = 1 then some 1 else none

/-- The second page has a frame. -/
def backedSpace : Vm (Fin 1) 3 :=
  (emptySpace.vmmAllocUserPage (0, 1) (protToPteFlags 3) (some 1) true).1

end Bashket.Vmm
