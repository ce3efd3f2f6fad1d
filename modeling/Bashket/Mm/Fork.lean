import Bashket.Lib.Run
import Bashket.Mm.AddressSpaces

/-!
# Fork isolation

The owner count of a frame is the number of entries that map it and of the references held elsewhere
(`Good`); inside a call some references are in flight. A page that its owner may write and that is
not shared has one owner. So a write through a private page reaches no other entry, and the page
that the last owner of a frame takes without copying is its own.
-/

namespace Bashket.Vmm

open Refs List
open Function (update update_of_ne update_self)

variable {ι : Type*} [Fintype ι] {n : ℕ}

/-- The owners of a frame: the entries that map it and the references held elsewhere. -/
def Vm.owners (s : Vm ι n) (f : ℕ) : ℕ := refs Pte.Maps s.pte f + s.held f

/-- What every present entry keeps to: device memory is shared, copy-on-write pages are not. -/
def Pte.Shape (p : Pte) : Prop :=
  p.present = true → (p.device = true → p.shared = true) ∧ (p.cow = true → p.shared = false)

def Pte.Private (p : Pte) : Prop := p.present = true ∧ p.writable = true ∧ p.shared = false

/-- The counts are exact, with the references `pend` in flight, and private pages have one owner. -/
structure Good (s : Vm ι n) (pend : List ℕ) : Prop where
  ne_zero : ∀ k f, (s.pte k).Maps f → f ≠ 0
  pend_ne_zero : 0 ∉ pend
  used_lt : ∀ f, s.used f = true → f < s.total
  count : ∀ f, s.used f = true → s.extra f + 1 = s.owners f + pend.count f
  free : ∀ f, s.used f = false → s.owners f + pend.count f = 0 ∧ s.extra f = 0
  shape : ∀ k, (s.pte k).Shape
  single : ∀ k, (s.pte k).Private → s.extra (s.pte k).frame = 0

/-! ### Frames -/

section

variable {s : Vm ι n} {pend pend' : List ℕ} {f : ℕ} {k k' : ι × Fin n} {p : Pte}

theorem Pte.Private.maps (h : p.Private) (hs : p.Shape) : p.Maps p.frame := by
  refine ⟨h.1, ?_, rfl⟩
  by_contra hd
  have := (hs h.1).1 (by simpa using hd)
  rw [h.2.2] at this
  cases this

theorem Good.used_of_maps (hg : Good s pend) (hk : (s.pte k).Maps f) : s.used f = true := by
  by_contra h0
  have h1 := (hg.free f (by simpa using h0)).1
  have h2 : 0 < refs Pte.Maps s.pte f := refs_pos hk
  rw [Vm.owners] at h1
  omega

theorem Good.used_of_pend (hg : Good s pend) (hf : f ∈ pend) : s.used f = true := by
  by_contra h0
  have h1 := (hg.free f (by simpa using h0)).1
  have h2 := count_pos_iff.2 hf
  omega

theorem Good.alone (hg : Good s pend) (hp : (s.pte k).Private) :
    refs Pte.Maps s.pte (s.pte k).frame ≤ 1 ∧ s.held (s.pte k).frame = 0 ∧
      (s.pte k).frame ∉ pend := by
  have hm := hp.maps (hg.shape k)
  have h1 := hg.count _ (hg.used_of_maps hm)
  have h2 : 0 < refs Pte.Maps s.pte (s.pte k).frame := refs_pos hm
  rw [hg.single k hp, Vm.owners] at h1
  refine ⟨by omega, by omega, fun h0 => ?_⟩
  have := count_pos_iff.2 h0
  omega

theorem Good.perm (hg : Good s pend) (hp : pend.Perm pend') : Good s pend' :=
  ⟨hg.ne_zero, fun h0 => hg.pend_ne_zero (hp.mem_iff.2 h0), hg.used_lt,
    fun f hu => hp.count_eq f ▸ hg.count f hu, fun f hu => hp.count_eq f ▸ hg.free f hu, hg.shape,
    hg.single⟩

theorem Good.swapSlotRef (hg : Good s pend) : Good (s.swapSlotRef f) pend := by
  unfold Vm.swapSlotRef
  split_ifs
  · exact hg
  · exact { hg with }

theorem Good.swapSlotUnref (hg : Good s pend) : Good (s.swapSlotUnref f) pend := by
  unfold Vm.swapSlotUnref
  split_ifs
  · exact hg
  · exact { hg with }

theorem Good.recount {s' : Vm ι n} (hg : Good s pend) (hp : s'.pte = s.pte) (hh : s'.held = s.held)
    (ht : s'.total = s.total) (h0 : 0 ∉ pend') (hother : ∀ g ≠ f, s'.used g = s.used g ∧
      s'.extra g = s.extra g ∧ pend'.count g = pend.count g)
    (hused : s'.used f = true → f < s.total ∧ s'.extra f + 1 = s.owners f + pend'.count f)
    (hfree : s'.used f = false → s.owners f + pend'.count f = 0 ∧ s'.extra f = 0)
    (hsingle : ∀ k, (s.pte k).Private → (s.pte k).frame = f → s'.extra f = 0) : Good s' pend' := by
  have hown (g : ℕ) : s'.owners g = s.owners g := by rw [Vm.owners, hp, hh, Vm.owners]
  refine ⟨hp ▸ hg.ne_zero, h0, fun g hu => ?_, fun g hu => ?_, fun g hu => ?_, hp ▸ hg.shape,
    fun k hk => ?_⟩
  · rw [ht]
    rcases eq_or_ne g f with rfl | hgf
    · exact (hused hu).1
    · exact hg.used_lt g ((hother g hgf).1 ▸ hu)
  · rw [hown]
    rcases eq_or_ne g f with rfl | hgf
    · exact (hused hu).2
    · obtain ⟨h1, h2, h3⟩ := hother g hgf
      rw [h2, h3]
      exact hg.count g (h1 ▸ hu)
  · rw [hown]
    rcases eq_or_ne g f with rfl | hgf
    · exact hfree hu
    · obtain ⟨h1, h2, h3⟩ := hother g hgf
      rw [h2, h3]
      exact hg.free g (h1 ▸ hu)
  · rw [hp] at hk ⊢
    rcases eq_or_ne (s.pte k).frame f with hkf | hkf
    · rw [hkf]
      exact hsingle k hk hkf
    · rw [(hother _ hkf).2.1]
      exact hg.single k hk

theorem Good.ref (hg : Good s pend) (hu : s.used f = true) (hf : f ≠ 0) (hw : s.extra f < 65535)
    (hp : ∀ k, (s.pte k).Private → (s.pte k).frame ≠ f) : Good (s.pmmRefFrame f) (f :: pend) := by
  have hlt := hg.used_lt f hu
  have hc := hg.count f hu
  rw [Vm.pmmRefFrame, if_neg (by omega)]
  refine hg.recount rfl rfl rfl (by simp [hf.symm, hg.pend_ne_zero]) (fun g hgf => ?_)
    (fun _ => ⟨hlt, ?_⟩) (fun h0 => ?_) fun k hk hkf => absurd hkf (hp k hk)
  · exact ⟨rfl, update_of_ne hgf _ _, count_cons_of_ne (Ne.symm hgf)⟩
  · show update s.extra f _ f + 1 = _
    rw [update_self, count_cons_self]
    omega
  · cases hu.symm.trans h0

theorem Good.unref (hg : Good s (f :: pend)) : Good (s.pmmUnrefFrame f) pend := by
  have hf : f ≠ 0 := fun h0 => hg.pend_ne_zero (h0 ▸ mem_cons_self)
  have hpend : 0 ∉ pend := fun h0 => hg.pend_ne_zero (mem_cons_of_mem _ h0)
  have hu := hg.used_of_pend (mem_cons_self (a := f))
  have hlt := hg.used_lt f hu
  have hcf := hg.count f hu
  rw [count_cons_self] at hcf
  have hcount (g : ℕ) (hgf : g ≠ f) : pend.count g = (f :: pend).count g :=
    (count_cons_of_ne (Ne.symm hgf)).symm
  rw [Vm.pmmUnrefFrame, if_neg hf]
  by_cases hx : 0 < s.extra f
  · rw [if_pos ⟨hlt, hx⟩]
    refine hg.recount rfl rfl rfl hpend (fun g hgf => ⟨rfl, update_of_ne hgf _ _, hcount g hgf⟩)
      (fun _ => ⟨hlt, ?_⟩) (fun h0 => ?_) fun k hk hkf => ?_
    · show update s.extra f _ f + 1 = _
      rw [update_self]
      omega
    · cases hu.symm.trans h0
    · have h0 := hg.single k hk
      rw [hkf] at h0
      omega
  · -- the last owner: the frame goes back to the allocator
    rw [if_neg (fun h0 => hx h0.2), Vm.pmmFreeFrame, if_neg (by rw [hu]; simp; omega)]
    refine hg.recount rfl rfl rfl hpend (fun g hgf => ⟨update_of_ne hgf _ _, rfl, hcount g hgf⟩)
      (fun h0 => ?_) (fun _ => ?_) fun k hk hkf => ?_
    · cases (update_self (f := s.used) f false).symm.trans h0
    · show s.owners f + _ = 0 ∧ s.extra f = 0
      omega
    · exact hkf ▸ hg.single k hk

theorem Good.alloc (hg : Good s pend) {found : Option ℕ} {s' : Vm ι n}
    (ha : s.pmmAllocFrame found = some (s', f)) :
    s' = { s with used := update s.used f true } ∧ Good s' (f :: pend) ∧ s.extra f = 0 ∧
      ∀ k, ¬(s.pte k).Maps f := by
  cases found with
  | none => cases ha
  | some g =>
    rw [Vm.pmmAllocFrame] at ha
    split_ifs at ha with h0
    cases ha
    obtain ⟨hf, hlt, hu⟩ := h0
    obtain ⟨hown, hext⟩ := hg.free f hu
    refine ⟨rfl, hg.recount rfl rfl rfl (by simp [hf.symm, hg.pend_ne_zero]) (fun g hgf => ?_)
      (fun _ => ⟨hlt, ?_⟩) (fun h0 => ?_) fun _ _ _ => hext, hext, fun k hk => ?_⟩
    · exact ⟨update_of_ne hgf _ _, rfl, count_cons_of_ne (Ne.symm hgf)⟩
    · show s.extra f + 1 = _
      rw [count_cons_self]
      omega
    · cases (update_self (f := s.used) f true).symm.trans h0
    · have : 0 < refs Pte.Maps s.pte f := refs_pos hk
      rw [Vm.owners] at hown
      omega

/-- The counts are what the owners make them. -/
theorem Good.counts_eq {t : Vm ι n} (hg : Good s []) (ht : Good t [])
    (hown : ∀ f, t.owners f = s.owners f) : t.used = s.used ∧ t.extra = s.extra := by
  have hboth (f : ℕ) : t.used f = s.used f ∧ t.extra f = s.extra f := by
    have h1 := hg.count f
    have h2 := ht.count f
    have h3 := hg.free f
    have h4 := ht.free f
    rw [hown f] at h2 h4
    cases hs : s.used f <;> cases hu : t.used f
    · exact ⟨rfl, (h4 hu).2.trans (h3 hs).2.symm⟩
    · have := (h3 hs).1
      have := h2 hu
      omega
    · have := (h4 hu).1
      have := h1 hs
      omega
    · have := h1 hs
      have := h2 hu
      exact ⟨rfl, by omega⟩
  exact ⟨funext fun f => (hboth f).1, funext fun f => (hboth f).2⟩

end

variable [DecidableEq ι]

/-! ### Entries -/

section

variable {s : Vm ι n} {pend pend' : List ℕ} {f g : ℕ} {k : ι × Fin n} {p : Pte}

/-- An entry is written: what it mapped is in flight, what it maps no longer. -/
theorem Good.set (hg : Good s pend) (h0 : 0 ∉ pend') (hp : p.Shape) (hp0 : ∀ f, p.Maps f → f ≠ 0)
    (hbal : ∀ f, pend'.count f + (if p.Maps f then 1 else 0) =
      pend.count f + (if (s.pte k).Maps f then 1 else 0))
    (hsingle : p.Private → s.extra p.frame = 0) : Good (s.set k p) pend' := by
  have hown (f : ℕ) : (s.set k p).owners f + pend'.count f = s.owners f + pend.count f := by
    have h1 : refs Pte.Maps (update s.pte k p) f + (if (s.pte k).Maps f then 1 else 0) =
      refs Pte.Maps s.pte f + (if p.Maps f then 1 else 0) := refs_update p
    have h2 := hbal f
    show refs Pte.Maps (update s.pte k p) f + s.held f + pend'.count f =
      refs Pte.Maps s.pte f + s.held f + pend.count f
    omega
  have hall {Q : Pte → Prop} (hQ : ∀ j, Q (s.pte j)) (hQp : Q p) (j : ι × Fin n) :
      Q ((s.set k p).pte j) := by
    show Q (update s.pte k p j)
    by_cases hj : j = k
    · rw [hj, update_self]
      exact hQp
    · rw [update_of_ne hj]
      exact hQ j
  exact ⟨hall (Q := fun p => ∀ f, p.Maps f → f ≠ 0) hg.ne_zero hp0, h0, hg.used_lt,
    fun f hu => (hg.count f hu).trans (hown f).symm, fun f hu => hown f ▸ hg.free f hu,
    hall hg.shape hp, hall (Q := fun p => p.Private → s.extra p.frame = 0) hg.single hsingle⟩

theorem not_maps_zero (f : ℕ) : ¬Pte.zero.Maps f := fun h => by cases h.1

theorem shape_zero : Pte.zero.Shape := fun h => by cases h

theorem not_private_zero : ¬Pte.zero.Private := fun h => by cases h.1

theorem Pte.Maps.iff (h : p.Maps f) : p.Maps g ↔ f = g := by
  constructor
  · intro h'
    exact h.2.2.symm.trans h'.2.2
  · rintro rfl
    exact h

theorem Good.clear (hg : Good s pend) (hk : (s.pte k).Maps f) :
    Good (s.set k Pte.zero) (f :: pend) := by
  refine hg.set ?_ shape_zero (fun g h0 => absurd h0 (not_maps_zero g)) (fun g => ?_)
    (fun h0 => absurd h0 not_private_zero)
  · have := hg.ne_zero k f hk
    simp [this.symm, hg.pend_ne_zero]
  · rw [if_neg (not_maps_zero g), if_congr (hk.iff (g := g)) rfl rfl, count_cons]
    simp

theorem Good.clear_other (hg : Good s pend) (hk : ∀ f, ¬(s.pte k).Maps f) :
    Good (s.set k Pte.zero) pend := by
  refine hg.set hg.pend_ne_zero shape_zero (fun g h0 => absurd h0 (not_maps_zero g)) (fun g => ?_)
    (fun h0 => absurd h0 not_private_zero)
  rw [if_neg (not_maps_zero g), if_neg (hk g)]

theorem not_private_protect : ¬p.protect.Private := by
  unfold Pte.protect
  split_ifs with h0
  · exact fun h => by cases h.2.1
  · exact fun h => h0 (by simp [h.2.1, h.2.2])

theorem protect_shape (h : p.Shape) : p.protect.Shape := by
  unfold Pte.protect
  split_ifs with h0
  · simp only [Bool.and_eq_true, Bool.not_eq_true'] at h0
    exact fun hp => ⟨(h hp).1, fun _ => h0.2⟩
  · exact h

end

/-! ### `vmm_clone_user_space` -/

section

variable {s : Vm ι n} {dst src : ι} {v : Fin n} {f : ℕ} {p : Pte} (ok : Bool) {vs : List (Fin n)}

def Descends (q p : Pte) : Prop :=
  q = Pte.zero ∨ q = p ∧ p.present = false ∨ q = p.protect.inherit ∧ p.present = true

theorem Good.protect (hg : Good s []) (k : ι × Fin n) : Good (s.set k (s.pte k).protect) [] := by
  refine hg.set hg.pend_ne_zero (protect_shape (hg.shape k))
    (fun f hf => hg.ne_zero k f (protect_maps.1 hf)) (fun f => ?_)
    fun h0 => absurd h0 not_private_protect
  rw [if_congr protect_maps rfl rfl]

theorem cloneEntry_good (hg : Good s []) (hne : dst ≠ src) (hz : s.pte (dst, v) = Pte.zero)
    (hw : ∀ f, s.owners f < 65536) : Good (s.cloneEntry dst src v ok).1 [] := by
  have hshape := hg.shape (src, v)
  have hgp := hg.protect (src, v)
  have hnm (f : ℕ) : ¬(s.pte (dst, v)).Maps f := hz ▸ not_maps_zero f
  have hk : (dst, v) ≠ (src, v) := fun h0 => hne (congrArg Prod.fst h0)
  unfold Vm.cloneEntry
  obtain ⟨p, hp⟩ : ∃ p, p = s.pte (src, v) := ⟨_, rfl⟩
  simp only [← hp]
  rw [← hp] at hshape hgp
  by_cases hsw : p.isSwapped = true
  · have hpres : p.present = false := by simpa [Pte.isSwapped] using (Bool.and_eq_true_iff.1 hsw).1
    split_ifs
    · refine Good.swapSlotRef (hg.set hg.pend_ne_zero hshape (fun f hf => ?_) (fun f => ?_) fun h0 => ?_)
      · exact hg.ne_zero (src, v) f (hp ▸ hf)
      · rw [if_neg (hnm f), if_neg fun h0 => by simp [h0.1] at hpres]
      · simp [h0.1] at hpres
    · exact hg
  · rw [if_neg hsw]
    by_cases hpres : p.present = true
    · rw [if_neg (by simp [hpres])]
      -- the entry that was empty takes over the reference in flight
      have hinstall {t : Vm ι n} {pend : List ℕ} (ht : Good t pend) (htz : t.pte (dst, v) = Pte.zero)
          (hbal : ∀ f, (if p.protect.Maps f then 1 else 0) = pend.count f) :
          Good (t.set (dst, v) p.protect.inherit) [] := by
        have hpp : p.protect.present = true := by
          unfold Pte.protect
          split_ifs <;> exact hpres
        refine ht.set not_mem_nil ?_ (fun f hf => ?_) (fun f => ?_) fun h0 => ?_
        · intro _
          exact protect_shape hshape hpp
        · exact hg.ne_zero (src, v) f (hp ▸ protect_maps.1 ((inherit_maps hpp).1 hf))
        · rw [if_congr (inherit_maps hpp) rfl rfl, hbal f, htz, if_neg (not_maps_zero f)]
          simp
        · exact absurd ⟨hpp, h0.2⟩ not_private_protect
      have htz : (s.set (src, v) p.protect).pte (dst, v) = Pte.zero := by
        rw [set_pte, update_of_ne hk, hz]
      by_cases hdev : p.protect.device = true
      · have hno (f : ℕ) : ¬p.protect.Maps f := fun h0 => absurd h0.2.1 (by simp [hdev])
        split_ifs
        · exact hinstall hgp htz fun f => by rw [if_neg (hno f)]; rfl
        · exact hgp
      · have hmaps : p.Maps p.frame :=
          ⟨hpres, by simpa [protect_device] using hdev, rfl⟩
        have hmaps' : ((s.set (src, v) p.protect).pte (src, v)).Maps p.frame := by
          rw [set_pte, update_self]
          exact protect_maps.2 hmaps
        have href : Good ((s.set (src, v) p.protect).pmmRefFrame p.protect.frame)
            [p.protect.frame] := by
          rw [protect_frame]
          refine hgp.ref (hgp.used_of_maps hmaps') (hg.ne_zero (src, v) _ (hp ▸ hmaps)) ?_
            fun k hk' hkf => ?_
          · have hu : s.used p.frame = true := hg.used_of_maps (k := (src, v)) (hp ▸ hmaps)
            have h1 := hg.count p.frame hu
            have h2 := hw p.frame
            simp only [count_nil] at h1
            show s.extra p.frame < 65535
            omega
          · -- a private page would be the only one to map this frame
            have hkm := hk'.maps (hgp.shape k)
            rw [hkf] at hkm
            have := eq_of_refs_le_one (hkf ▸ (hgp.alone hk').1) hkm hmaps'
            subst this
            rw [set_pte, update_self] at hk'
            exact not_private_protect hk'
        split_ifs
        · refine hinstall href (by rw [pmmRefFrame_pte, htz]) fun f => ?_
          rw [protect_frame, if_congr ((protect_maps.2 hmaps).iff (g := f)) rfl rfl, count_singleton]
          simp
        · exact href.unref
    · rw [if_pos (by simpa using hpres)]
      exact hg

omit [Fintype ι] in
theorem cloneEntry_pte (hne : dst ≠ src) (hz : s.pte (dst, v) = Pte.zero) :
    (s.cloneEntry dst src v ok).1.fixed = s.fixed ∧
      (∀ k, k ≠ (src, v) → k ≠ (dst, v) → (s.cloneEntry dst src v ok).1.pte k = s.pte k) ∧
      ((s.cloneEntry dst src v ok).1.pte (src, v) = s.pte (src, v) ∨
        (s.cloneEntry dst src v ok).1.pte (src, v) = (s.pte (src, v)).protect) ∧
      Descends ((s.cloneEntry dst src v ok).1.pte (dst, v)) (s.pte (src, v)) ∧
      ((s.cloneEntry dst src v ok).2 = true →
        s.view ((s.cloneEntry dst src v ok).1.pte (dst, v)) = s.view (s.pte (src, v))) := by
  have hk : (src, v) ≠ (dst, v) := fun h0 => hne (congrArg Prod.fst h0).symm
  obtain ⟨p, hp⟩ : ∃ p, p = s.pte (src, v) := ⟨_, rfl⟩
  unfold Vm.cloneEntry
  simp only [← hp]
  by_cases hsw : p.isSwapped = true
  · have hpres : p.present = false := by simpa [Pte.isSwapped] using (Bool.and_eq_true_iff.1 hsw).1
    rw [if_pos hsw]
    cases ok
    · exact ⟨rfl, fun _ _ _ => rfl, .inl hp.symm, .inl hz, fun h0 => (nomatch h0)⟩
    · refine ⟨by simp, fun k _ h2 => ?_, .inl ?_, .inr (.inl ⟨?_, hpres⟩), fun _ => ?_⟩
      · simp [h2]
      · simp [update_of_ne hk, hp]
      · simp
      · simp
  · rw [if_neg hsw]
    by_cases hpres : p.present = true
    · rw [if_neg (by simp [hpres])]
      have hpp : p.protect.present = true := by
        unfold Pte.protect
        split_ifs <;> exact hpres
      have hpte (t : Vm ι n) (c : Prop) [Decidable c] (f : ℕ) :
          (if c then t else t.pmmRefFrame f).pte = t.pte ∧
            (if c then t else t.pmmRefFrame f).fixed = t.fixed ∧
            (if c then t else t.pmmUnrefFrame f).pte = t.pte ∧
            (if c then t else t.pmmUnrefFrame f).fixed = t.fixed := by
        split_ifs <;> simp
      cases ok
      · simp only [Bool.false_eq_true, if_false, hpte, set_fixed, set_pte]
        refine ⟨trivial, fun k h1 _ => update_of_ne h1 _ _,
          .inr (update_self _ _ _), .inl ?_, fun h0 => h0.elim⟩
        rw [update_of_ne hk.symm, hz]
      · simp only [if_true, hpte, set_fixed, set_pte]
        refine ⟨trivial, fun k h1 h2 => ?_, .inr ?_, .inr (.inr ⟨?_, hpres⟩), fun _ => ?_⟩
        · rw [update_of_ne h2, update_of_ne h1]
        · rw [update_of_ne hk, update_self]
        · rw [update_self]
        · rw [update_self, view_inherit s hpp, view_protect]
    · rw [if_pos (by simpa using hpres)]
      refine ⟨rfl, fun _ _ _ => rfl, .inl hp.symm, .inl hz, fun _ => ?_⟩
      have hs : p.swapped = false := by
        simp only [Pte.isSwapped, Bool.and_eq_true] at hsw
        by_contra h0
        exact hsw ⟨by simpa using hpres, by simpa using h0⟩
      simp only [hz]
      simp [Vm.view, Pte.zero, hpres, hs]

/-- What the loops over the pages `vs` do, from `s` on. -/
structure Cloned (s : Vm ι n) (dst src : ι) (vs : List (Fin n)) (r : Vm ι n × Bool) : Prop where
  fixed : r.1.fixed = s.fixed
  others : ∀ d v, d ≠ dst → r.1.pte (d, v) = s.pte (d, v) ∨ r.1.pte (d, v) = (s.pte (d, v)).protect
  later : ∀ d v, v ∉ vs → r.1.pte (d, v) = s.pte (d, v)
  descends : ∀ v ∈ vs, Descends (r.1.pte (dst, v)) (s.pte (src, v))
  same : r.2 = true → ∀ v ∈ vs, s.view (r.1.pte (dst, v)) = s.view (s.pte (src, v))

omit [Fintype ι] in
theorem cloneLoop_cloned (ok : Fin n → Bool) (hne : dst ≠ src) (hnd : vs.Nodup)
    (hz : ∀ v ∈ vs, s.pte (dst, v) = Pte.zero) :
    Cloned s dst src vs (Vm.cloneLoop dst src ok vs s) := by
  induction vs generalizing s with
  | nil =>
    exact ⟨rfl, fun _ _ _ => .inl rfl, fun _ _ _ => rfl, fun _ h0 => (nomatch h0),
      fun _ _ h0 => (nomatch h0)⟩
  | cons v vs ih =>
    obtain ⟨hv, hnd'⟩ := nodup_cons.1 hnd
    have hzv := hz v mem_cons_self
    obtain ⟨c₁, c₂, c₃, c₄, c₅⟩ := cloneEntry_pte (ok v) hne hzv
    obtain ⟨⟨t, b⟩, hr⟩ : ∃ r, s.cloneEntry dst src v (ok v) = r := ⟨_, rfl⟩
    rw [hr] at c₁ c₂ c₃ c₄ c₅
    have hoff (d : ι) (w : Fin n) (hw : w ≠ v) : t.pte (d, w) = s.pte (d, w) :=
      c₂ _ (fun h0 => hw (congrArg Prod.snd h0)) fun h0 => hw (congrArg Prod.snd h0)
    have hothers (d : ι) (w : Fin n) (hd : d ≠ dst) :
        t.pte (d, w) = s.pte (d, w) ∨ t.pte (d, w) = (s.pte (d, w)).protect := by
      by_cases hk : (d, w) = (src, v)
      · rw [hk]
        exact c₃
      · exact .inl (c₂ _ hk fun h0 => hd (congrArg Prod.fst h0))
    rw [Vm.cloneLoop, hr]
    cases b with
    | false =>
      refine ⟨c₁, hothers, fun d w hw => hoff d w fun h0 => hw (h0 ▸ mem_cons_self),
        fun w hw => ?_, fun h0 => (nomatch h0)⟩
      by_cases hwv : w = v
      · exact hwv ▸ c₄
      · simp only [hoff dst w hwv, hz w hw]
        exact .inl rfl
    | true =>
      have hne' (w : Fin n) (hw : w ∈ vs) : w ≠ v := fun h0 => hv (h0 ▸ hw)
      obtain ⟨i₁, i₂, i₃, i₄, i₅⟩ := ih (s := t) hnd' fun w hw => by
        rw [hoff dst w (hne' w hw)]
        exact hz w (mem_cons_of_mem _ hw)
      refine ⟨i₁.trans c₁, fun d w hd => ?_, fun d w hw => ?_, fun w hw => ?_, fun h0 w hw => ?_⟩
      · by_cases hwv : w = v
        · rw [i₃ d w (hwv ▸ hv)]
          exact hothers d w hd
        · rw [← hoff d w hwv]
          exact i₂ d w hd
      · have hw' := not_mem_of_not_mem_cons hw
        rw [i₃ d w hw']
        exact hoff d w fun h0 => hw (h0 ▸ mem_cons_self)
      · rcases mem_cons.1 hw with rfl | hw
        · rw [i₃ dst w hv]
          exact c₄
        · rw [← hoff src w (hne' w hw)]
          exact i₄ w hw
      · rcases mem_cons.1 hw with rfl | hw
        · rw [i₃ dst w hv]
          exact c₅ rfl
        · rw [← hoff src w (hne' w hw), ← view_congr c₁, ← view_congr c₁]
          exact i₅ h0 w hw

theorem cloneLoop_owners (ok : Fin n → Bool) (hne : dst ≠ src) (hnd : vs.Nodup)
    (hz : ∀ v ∈ vs, s.pte (dst, v) = Pte.zero) (f : ℕ) :
    s.owners f ≤ (Vm.cloneLoop dst src ok vs s).1.owners f := by
  obtain ⟨h₁, h₂, h₃, -, -⟩ := cloneLoop_cloned ok hne hnd hz
  rw [Vm.owners, Vm.owners, held_of_fixed h₁]
  refine Nat.add_le_add_right (refs_mono ?_) _
  rintro ⟨d, v⟩ hm
  by_cases hd : d = dst
  · subst hd
    by_cases hv : v ∈ vs
    · rw [hz v hv] at hm
      exact absurd hm (not_maps_zero f)
    · rw [h₃ d v hv]
      exact hm
  · rcases h₂ d v hd with h0 | h0
    · rw [h0]
      exact hm
    · rw [h0]
      exact protect_maps.2 hm

theorem cloneLoop_good (ok : Fin n → Bool) (hg : Good s []) (hne : dst ≠ src) (hnd : vs.Nodup)
    (hz : ∀ v ∈ vs, s.pte (dst, v) = Pte.zero)
    (hw : ∀ f, (Vm.cloneLoop dst src ok vs s).1.owners f < 65536) :
    Good (Vm.cloneLoop dst src ok vs s).1 [] := by
  induction vs generalizing s with
  | nil => exact hg
  | cons v vs ih =>
    have hle := cloneLoop_owners ok hne hnd hz
    obtain ⟨hv, hnd'⟩ := nodup_cons.1 hnd
    have hzv := hz v mem_cons_self
    have hone := cloneEntry_good (ok v) hg hne hzv fun f => lt_of_le_of_lt (hle f) (hw f)
    obtain ⟨-, c₂, -, -, -⟩ := cloneEntry_pte (ok v) hne hzv
    rw [Vm.cloneLoop] at hw ⊢
    obtain ⟨⟨t, b⟩, hr⟩ : ∃ r, s.cloneEntry dst src v (ok v) = r := ⟨_, rfl⟩
    rw [hr] at hone c₂ hw ⊢
    cases b with
    | false => exact hone
    | true =>
      refine ih hone hnd' (fun w hw' => ?_) hw
      have hwv : w ≠ v := fun h0 => hv (h0 ▸ hw')
      refine (c₂ _ (fun h0 => hwv (congrArg Prod.snd h0)) fun h0 => hwv (congrArg Prod.snd h0)).trans ?_
      exact hz w (mem_cons_of_mem _ hw')

end

/-! ### `vmm_handle_cow_fault` -/

section

variable {s : Vm ι n} {k : ι × Fin n}

/-- The page reads the same and is shared as before, through the same entry if it is. -/
structure Kept (s t : Vm ι n) (k : ι × Fin n) : Prop where
  read : t.read k = s.read k
  present : (t.pte k).present = (s.pte k).present
  shared : (t.pte k).shared = (s.pte k).shared
  same : (t.pte k).shared = true → t.pte k = s.pte k

omit [Fintype ι] in
theorem copy_kept {t : Vm ι n} {p : Pte} {copy : ℕ} (hp : p = s.pte k) (hpres : p.present = true)
    (hdev : p.device = false) (hshared : p.shared = false) (htp : t.pte = s.pte)
    (htd : t.data = update s.data copy (s.data p.frame))
    (htv : t.deviceData = s.deviceData) (hts : t.slotData = s.slotData)
    (hnew : ∀ j, ¬(s.pte j).Maps copy) (j : ι × Fin n) :
    Kept s ((t.set k { p with cow := false, writable := true, frame := copy }).pmmUnrefFrame p.frame)
      j := by
  have hview (q : Pte) : ((t.set k { p with cow := false, writable := true, frame := copy }).pmmUnrefFrame
      p.frame).view q = t.view q := view_congr (pmmUnrefFrame_fixed _ _) q
  by_cases hj : j = k
  · subst hj
    refine ⟨?_, ?_, ?_, fun h0 => ?_⟩
    · rw [Vm.read, hview, Vm.read, ← hp]
      simp [Vm.view, hpres, hdev, htd]
    · simp [← hp]
    · simp [← hp]
    · simp [hshared] at h0
  · have hpte : ((t.set k { p with cow := false, writable := true, frame := copy }).pmmUnrefFrame
        p.frame).pte j = s.pte j := by
      rw [pmmUnrefFrame_pte, set_pte, update_of_ne hj, htp]
    refine ⟨?_, by rw [hpte], by rw [hpte], fun _ => hpte⟩
    rw [Vm.read, hview, hpte, Vm.read, Vm.view, Vm.view, htv, hts]
    by_cases h1 : (s.pte j).present = true
    · by_cases h2 : (s.pte j).device = true
      · rw [if_pos h2, if_pos h2]
      · rw [if_neg h2, if_neg h2, htd, update_of_ne]
        exact fun h0 => hnew j ⟨h1, by simpa using h2, h0⟩
    · rw [if_neg h1, if_neg h1]

theorem fault_spec (hg : Good s []) (k : ι × Fin n) (found : Option ℕ) :
    Good (s.vmmHandleCowFault k found).1 [] ∧ (s.vmmHandleCowFault k found).1.origin = s.origin ∧
      (s.vmmHandleCowFault k found).1.held = s.held ∧
      ∀ j, Kept s (s.vmmHandleCowFault k found).1 j := by
  have hsame : Good s [] ∧ s.origin = s.origin ∧ s.held = s.held ∧ ∀ j, Kept s s j :=
    ⟨hg, rfl, rfl, fun j => ⟨rfl, rfl, rfl, fun _ => rfl⟩⟩
  unfold Vm.vmmHandleCowFault
  obtain ⟨p, hp⟩ : ∃ p, p = s.pte k := ⟨_, rfl⟩
  simp only [← hp]
  by_cases hc : (p.present && p.cow) = true
  · obtain ⟨hpres, hcow⟩ := Bool.and_eq_true_iff.1 hc
    have hshape := hg.shape k
    rw [← hp] at hshape
    have hshared : p.shared = false := (hshape hpres).2 hcow
    have hdev : p.device = false := by
      by_contra h0
      have := (hshape hpres).1 (by simpa using h0)
      rw [hshared] at this
      cases this
    have hmaps : p.Maps p.frame := ⟨hpres, hdev, rfl⟩
    have hmapsk : (s.pte k).Maps p.frame := hp ▸ hmaps
    have hu := hg.used_of_maps hmapsk
    have hlt := hg.used_lt _ hu
    rw [if_pos hc]
    by_cases href : s.pmmGetFrameRef p.frame = 1
    · -- the last owner takes the frame
      rw [if_pos href]
      rw [Vm.pmmGetFrameRef, if_neg (by omega)] at href
      refine ⟨hg.set hg.pend_ne_zero (fun _ => ⟨fun h0 => ?_, fun h0 => (nomatch h0)⟩) (fun f hf => ?_)
        (fun f => ?_) (fun _ => by simp only; omega), rfl, rfl, fun j => ?_⟩
      · simp [hdev] at h0
      · exact hg.ne_zero k f (hp ▸ hf)
      · rw [← hp]
        rfl
      · by_cases hj : j = k
        · subst hj
          refine ⟨?_, ?_, ?_, fun h0 => ?_⟩
          · rw [Vm.read, Vm.read, set_pte, update_self, ← hp]
            rfl
          · rw [set_pte, update_self, ← hp]
          · rw [set_pte, update_self, ← hp]
          · simp [hshared] at h0
        · have hpte : (s.set k { p with cow := false, writable := true }).pte j = s.pte j := by
            rw [set_pte, update_of_ne hj]
          exact ⟨by rw [Vm.read, hpte]; rfl, by rw [hpte], by rw [hpte], fun _ => hpte⟩
    · rw [if_neg href]
      cases ha : s.pmmAllocFrame found with
      | none => exact hsame
      | some r =>
        obtain ⟨s', copy⟩ := r
        obtain ⟨rfl, hg', hext, hnew⟩ := hg.alloc ha
        have hcopy0 : copy ≠ 0 := fun h0 => hg'.pend_ne_zero (h0 ▸ mem_cons_self)
        have hset : Good (Vm.set { s with
            used := update s.used copy true
            data := update s.data copy (s.data p.frame) } k
            { p with cow := false, writable := true, frame := copy }) [p.frame] := by
          have hg'' : Good { s with
              used := update s.used copy true
              data := update s.data copy (s.data p.frame) } [copy] := { hg' with }
          refine hg''.set ?_
            (fun _ => ⟨fun h0 => ?_, fun h0 => (nomatch h0)⟩) (fun f hf => ?_) (fun f => ?_) fun _ => hext
          · simpa using (hg.ne_zero k _ hmapsk).symm
          · simp [hdev] at h0
          · exact hf.2.2 ▸ hcopy0
          · have h1 : ({ p with cow := false, writable := true, frame := copy } : Pte).Maps f ↔
                copy = f := Pte.Maps.iff ⟨hpres, hdev, rfl⟩
            rw [if_congr h1 rfl rfl, if_congr (hmapsk.iff (g := f)) rfl rfl, count_singleton,
              count_singleton]
            simp [Nat.add_comm]
        refine ⟨hset.unref, (origin_of_fixed (pmmUnrefFrame_fixed _ _)).trans rfl,
          (held_of_fixed (pmmUnrefFrame_fixed _ _)).trans rfl, ?_⟩
        exact copy_kept hp hpres hdev hshared rfl rfl rfl rfl hnew
  · rw [if_neg hc]
    exact hsame

end

/-! ### `user_unmap_range` and `vmm_destroy_address_space` -/

section

variable {s : Vm ι n} {d : ι} {t u : Vm ι n} {frames : List ℕ}

/-- Entries of one address space are emptied, and nothing else anyone reads changes. -/
structure Emptied (s t : Vm ι n) (d : ι) : Prop where
  fixed : t.fixed = s.fixed
  others : ∀ k, k.1 ≠ d → t.pte k = s.pte k
  own : ∀ k, t.pte k = s.pte k ∨ t.pte k = Pte.zero

omit [Fintype ι] [DecidableEq ι] in
theorem Emptied.trans (h₁ : Emptied s t d) (h₂ : Emptied t u d) : Emptied s u d := by
  refine ⟨h₂.fixed.trans h₁.fixed, fun k hk => (h₂.others k hk).trans (h₁.others k hk), fun k => ?_⟩
  rcases h₂.own k with h0 | h0
  · rw [h0]
    exact h₁.own k
  · exact .inr h0

omit [Fintype ι] [DecidableEq ι] in
theorem Emptied.read (h : Emptied s t d) {k : ι × Fin n} (hk : k.1 ≠ d) :
    t.read k = s.read k := by
  rw [Vm.read, view_congr h.fixed, h.others k hk]
  rfl

omit [Fintype ι] in
theorem emptied_set (s : Vm ι n) (d : ι) (v : Fin n) : Emptied s (s.set (d, v) Pte.zero) d := by
  refine ⟨rfl, fun k hk => ?_, fun k => ?_⟩
  · rw [set_pte, update_of_ne]
    exact fun h0 => hk (congrArg Prod.fst h0)
  · rw [set_pte]
    by_cases hk : k = (d, v)
    · exact .inr (by rw [hk, update_self])
    · exact .inl (update_of_ne hk _ _)

omit [Fintype ι] [DecidableEq ι] in
theorem Emptied.of_eq (h : Emptied s t d) (hf : u.fixed = t.fixed) (hp : u.pte = t.pte) :
    Emptied s u d :=
  ⟨hf.trans h.fixed, fun k hk => hp ▸ h.others k hk, fun k => hp ▸ h.own k⟩

omit [DecidableEq ι] in
theorem Good.unref_all (hg : Good s frames) :
    Good (frames.foldl Vm.pmmUnrefFrame s) [] := by
  induction frames generalizing s with
  | nil => exact hg
  | cons f frames ih => exact ih hg.unref

omit [Fintype ι] [DecidableEq ι] in
theorem foldl_unref_pte (frames : List ℕ) (s : Vm ι n) :
    (frames.foldl Vm.pmmUnrefFrame s).pte = s.pte ∧
      (frames.foldl Vm.pmmUnrefFrame s).fixed = s.fixed := by
  induction frames generalizing s with
  | nil => exact ⟨rfl, rfl⟩
  | cons f frames ih =>
    obtain ⟨h₁, h₂⟩ := ih (s.pmmUnrefFrame f)
    exact ⟨h₁.trans (pmmUnrefFrame_pte s f), h₂.trans (pmmUnrefFrame_fixed s f)⟩

theorem swapDiscard_spec {pend : List ℕ} (hg : Good s pend) (v : Fin n) :
    Good (s.vmmSwapDiscard (d, v)) pend ∧ Emptied s (s.vmmSwapDiscard (d, v)) d := by
  unfold Vm.vmmSwapDiscard
  split_ifs with hsw
  · have hpres : (s.pte (d, v)).present = false := by
      simpa [Pte.isSwapped] using (Bool.and_eq_true_iff.1 hsw).1
    exact ⟨(hg.clear_other fun f hf => by simp [hf.1] at hpres).swapSlotUnref,
      (emptied_set s d v).of_eq (swapSlotUnref_fixed _ _) (swapSlotUnref_pte _ _)⟩
  · exact ⟨hg, ⟨rfl, fun _ _ => rfl, fun _ => .inl rfl⟩⟩

theorem unmapLoop_spec (vs : List (Fin n)) (hg : Good s frames) :
    Good (Vm.unmapLoop d vs s frames) [] ∧ Emptied s (Vm.unmapLoop d vs s frames) d := by
  induction vs generalizing s frames with
  | nil =>
    have h := foldl_unref_pte frames s
    refine ⟨hg.unref_all, h.2, fun k _ => ?_, fun k => .inl ?_⟩
    · rw [Vm.unmapLoop, h.1]
    · rw [Vm.unmapLoop, h.1]
  | cons v vs ih =>
    rw [Vm.unmapLoop]
    by_cases hp : (s.pte (d, v)).present = true ∧ (s.pte (d, v)).frame ≠ 0
    · simp only [if_pos hp]
      have hset := emptied_set s d v
      have hclear : Good (s.set (d, v) Pte.zero)
          (if (s.pte (d, v)).device = true then frames else frames ++ [(s.pte (d, v)).frame]) := by
        split_ifs with hdev
        · exact hg.clear_other fun f hf => by simp [hf.2.1] at hdev
        · have hm : (s.pte (d, v)).Maps (s.pte (d, v)).frame := ⟨hp.1, by simpa using hdev, rfl⟩
          exact (hg.clear hm).perm (perm_append_singleton _ _).symm
      obtain ⟨frames', hframes⟩ : ∃ l, l = if (s.pte (d, v)).device = true then frames
        else frames ++ [(s.pte (d, v)).frame] := ⟨_, rfl⟩
      rw [← hframes] at hclear ⊢
      split_ifs
      · have hflush := foldl_unref_pte frames' (s.set (d, v) Pte.zero)
        obtain ⟨h₁, h₂⟩ := ih hclear.unref_all
        exact ⟨h₁, (hset.of_eq hflush.2 hflush.1).trans h₂⟩
      · obtain ⟨h₁, h₂⟩ := ih hclear
        exact ⟨h₁, hset.trans h₂⟩
    · simp only [if_neg hp]
      obtain ⟨g₁, g₂⟩ := swapDiscard_spec (d := d) hg v
      obtain ⟨h₁, h₂⟩ := ih g₁
      exact ⟨h₁, g₂.trans h₂⟩

theorem unmap_spec (hg : Good s []) (d : ι) (addr length : ℕ) :
    Good (s.userUnmapRange d addr length) [] ∧ Emptied s (s.userUnmapRange d addr length) d := by
  unfold Vm.userUnmapRange
  split_ifs
  · exact ⟨hg, ⟨rfl, fun _ _ => rfl, fun _ => .inl rfl⟩⟩
  · exact unmapLoop_spec _ hg

theorem freeEntry_spec (hg : Good s []) (v : Fin n) :
    Good (s.freeEntry (d, v)) [] ∧ Emptied s (s.freeEntry (d, v)) d ∧
      (s.freeEntry (d, v)).pte = update s.pte (d, v) Pte.zero := by
  have hset := emptied_set s d v
  unfold Vm.freeEntry
  by_cases hpres : (s.pte (d, v)).present = true
  · simp only [if_pos hpres]
    split_ifs with hdev
    · exact ⟨hg.clear_other fun f hf => by simp [hf.2.1] at hdev, hset, rfl⟩
    · have hm : (s.pte (d, v)).Maps (s.pte (d, v)).frame := ⟨hpres, by simpa using hdev, rfl⟩
      exact ⟨(hg.clear hm).unref, hset.of_eq (pmmUnrefFrame_fixed _ _) (pmmUnrefFrame_pte _ _),
        pmmUnrefFrame_pte _ _⟩
  · simp only [if_neg hpres]
    have hclear := hg.clear_other (k := (d, v)) fun f hf => hpres hf.1
    split_ifs
    · exact ⟨hclear.swapSlotUnref, hset.of_eq (swapSlotUnref_fixed _ _) (swapSlotUnref_pte _ _),
        swapSlotUnref_pte _ _⟩
    · exact ⟨hclear, hset, rfl⟩

theorem destroy_spec (hg : Good s []) (d : ι) :
    Good (s.vmmDestroyAddressSpace d) [] ∧ Emptied s (s.vmmDestroyAddressSpace d) d ∧
      ∀ v, (s.vmmDestroyAddressSpace d).pte (d, v) = Pte.zero := by
  -- the pages seen so far are empty, whatever comes after
  have hloop (vs : List (Fin n)) : ∀ s : Vm ι n, Good s [] →
      Good (vs.foldl (fun s v => s.freeEntry (d, v)) s) [] ∧
        Emptied s (vs.foldl (fun s v => s.freeEntry (d, v)) s) d ∧
        ∀ v, v ∈ vs ∨ s.pte (d, v) = Pte.zero →
          (vs.foldl (fun s v => s.freeEntry (d, v)) s).pte (d, v) = Pte.zero := by
    induction vs with
    | nil =>
      exact fun s hg => ⟨hg, ⟨rfl, fun _ _ => rfl, fun _ => .inl rfl⟩,
        fun v hv => hv.elim (fun h0 => (nomatch h0)) id⟩
    | cons v vs ih =>
      intro s hg
      obtain ⟨g₁, g₂, g₃⟩ := freeEntry_spec (d := d) hg v
      obtain ⟨h₁, h₂, h₃⟩ := ih _ g₁
      refine ⟨h₁, g₂.trans h₂, fun w hw => h₃ w ?_⟩
      by_cases hwv : w = v
      · right
        rw [g₃, hwv, update_self]
      · rcases hw with hw | hw
        · exact .inl ((mem_cons.1 hw).resolve_left hwv)
        · right
          rw [g₃, update_of_ne (fun h0 => hwv (congrArg Prod.snd h0)), hw]
  obtain ⟨h₁, h₂, h₃⟩ := hloop (List.finRange n) s hg
  exact ⟨h₁, h₂, fun v => h₃ v (.inl (mem_finRange v))⟩

end

/-! ### Writes and other owners -/

section

variable {s : Vm ι n}

omit [DecidableEq ι] in
theorem write_good (hg : Good s []) (k : ι × Fin n) (off x : ℕ) : Good (s.write k off x) [] := by
  unfold Vm.write
  simp only
  split_ifs
  · exact { hg with }
  · exact { hg with }
  · exact hg

omit [Fintype ι] [DecidableEq ι] in
theorem write_fields (k : ι × Fin n) (off x : ℕ) :
    (s.write k off x).pte = s.pte ∧ (s.write k off x).origin = s.origin := by
  unfold Vm.write
  simp only
  split_ifs <;> exact ⟨rfl, rfl⟩

omit [DecidableEq ι] in
theorem write_read (hg : Good s []) {k : ι × Fin n} (hk : (s.pte k).shared = false) (off x : ℕ)
    {j : ι × Fin n} (hj : j ≠ k) : (s.write k off x).read j = s.read j := by
  rw [Vm.read, Vm.read]
  unfold Vm.write
  simp only
  split_ifs with h1 h2
  · have := (hg.shape k (by simp_all)).1 h2
    rw [hk] at this
    cases this
  · -- the frame has one owner, so the entry at `j` maps another one
    simp only [Bool.and_eq_true] at h1
    have hpriv : (s.pte k).Private := ⟨h1.1.1, h1.2, hk⟩
    have hm := hpriv.maps (hg.shape k)
    rw [Vm.view, Vm.view]
    by_cases hp : (s.pte j).present = true
    · rw [if_pos hp, if_pos hp]
      by_cases hd : (s.pte j).device = true
      · rw [if_pos hd, if_pos hd]
      · rw [if_neg hd, if_neg hd]
        refine congrArg some (update_of_ne (fun h0 => ?_) _ _)
        have hm' : (s.pte j).Maps (s.pte k).frame := ⟨hp, by simpa using hd, h0⟩
        exact hj (eq_of_refs_le_one (hg.alone hpriv).1 hm' hm)
    · rw [if_neg hp, if_neg hp]
  · rfl

omit [DecidableEq ι] in
theorem Good.exchange {f c : ℕ} {pend pend' : List ℕ} (hg : Good s pend) (h0 : 0 ∉ pend')
    (hf : c + pend'.count f = s.held f + pend.count f)
    (hne : ∀ g ≠ f, pend'.count g = pend.count g) :
    Good { s with held := update s.held f c } pend' := by
  have hown (g : ℕ) : Vm.owners { s with held := update s.held f c } g + pend'.count g =
      s.owners g + pend.count g := by
    show refs Pte.Maps s.pte g + update s.held f _ g + _ = refs Pte.Maps s.pte g + s.held g + _
    by_cases hgf : g = f
    · rw [hgf, update_self]
      omega
    · rw [update_of_ne hgf, hne g hgf]
  exact ⟨hg.ne_zero, h0, hg.used_lt, fun g hu => (hg.count g hu).trans (hown g).symm,
    fun g hu => hown g ▸ hg.free g hu, hg.shape, hg.single⟩

omit [DecidableEq ι] in
theorem Good.toHeld {f : ℕ} (hg : Good s [f]) :
    Good { s with held := update s.held f (s.held f + 1) } [] :=
  hg.exchange not_mem_nil (by simp) fun g hgf => by simp [Ne.symm hgf]

omit [DecidableEq ι] in
theorem Good.fromHeld {f : ℕ} (hg : Good s []) (hf : f ≠ 0) (h : 0 < s.held f) :
    Good { s with held := update s.held f (s.held f - 1) } [f] :=
  hg.exchange (by simpa using hf.symm) (by simp; omega) fun g hgf => by simp [Ne.symm hgf]

end

/-! ### Runs -/

def Small (s : Vm ι n) : Prop := ∀ f, s.owners f < 65536

/-- Every page descends from the one its ancestor had there; if that was shared, it is the same
frame. -/
def Descended (s₀ s : Vm ι n) : Prop :=
  ∀ d v, (s.pte (d, v)).present = true →
    (s₀.pte (s.origin d, v)).present = true ∧
      (s.pte (d, v)).shared = (s₀.pte (s.origin d, v)).shared ∧
      ((s.pte (d, v)).shared = true → (s.pte (d, v)).frame = (s₀.pte (s.origin d, v)).frame)

/-- An event changes what is read only in its own address space; a write through a page that is not
shared only there; making a copy or taking a page over nowhere. -/
def Isolated (s : Vm ι n) : Event ι n → Prop
  | .clone dst src ok => ∀ k, k.1 ≠ dst → (s.step (.clone dst src ok)).read k = s.read k
  | .fault d v found => ∀ k, (s.step (.fault d v found)).read k = s.read k
  | .unmap d addr length => ∀ k, k.1 ≠ d → (s.step (.unmap d addr length)).read k = s.read k
  | .destroy d => ∀ k, k.1 ≠ d → (s.step (.destroy d)).read k = s.read k
  | .write d v off x => (s.pte (d, v)).shared = false →
      ∀ k, k ≠ (d, v) → (s.step (.write d v off x)).read k = s.read k
  | .hold f => ∀ k, (s.step (.hold f)).read k = s.read k
  | .drop f => ∀ k, (s.step (.drop f)).read k = s.read k

/-- Destroying what a clone has made, wherever it stopped, leaves the counts as before and every
other address space reading the same. -/
def Undone (s : Vm ι n) : Event ι n → Prop
  | .clone dst src ok => dst ≠ src → (∀ v, s.pte (dst, v) = Pte.zero) →
      let t := (s.step (.clone dst src ok)).step (.destroy dst)
      t.used = s.used ∧ t.extra = s.extra ∧ ∀ k, k.1 ≠ dst → t.read k = s.read k
  | _ => True

section

variable {s s₀ : Vm ι n}

theorem clone_spec (hg : Good s []) {dst src : ι} (ok : Fin n → Bool) (hne : dst ≠ src)
    (hz : ∀ v, s.pte (dst, v) = Pte.zero) (hsmall : Small (s.step (.clone dst src ok))) :
    Good (s.step (.clone dst src ok)) [] ∧
      (s.step (.clone dst src ok)).origin = update s.origin dst (s.origin src) ∧
      Cloned s dst src (List.finRange n)
        ({ s.step (.clone dst src ok) with origin := s.origin },
          (s.vmmCloneUserSpace dst src ok).2) := by
  have hnd := nodup_finRange n
  have hz' (v : Fin n) (_ : v ∈ List.finRange n) := hz v
  have hcl := cloneLoop_cloned ok hne hnd hz'
  have horigin := origin_of_fixed hcl.fixed
  have hstep : s.step (.clone dst src ok) = { (s.vmmCloneUserSpace dst src ok).1 with
      origin := update s.origin dst (s.origin src) } := by
    rw [Vm.step, if_pos ⟨hne, hz⟩]
    show { (s.vmmCloneUserSpace dst src ok).1 with
      origin := update (s.vmmCloneUserSpace dst src ok).1.origin dst
        ((s.vmmCloneUserSpace dst src ok).1.origin src) } = _
    rw [show (s.vmmCloneUserSpace dst src ok).1.origin = s.origin from horigin]
  have hgood := cloneLoop_good ok hg hne hnd hz' fun f => by
    have := hsmall f
    rw [hstep] at this
    exact this
  refine ⟨by rw [hstep]; exact { hgood with }, by rw [hstep], ?_⟩
  have hback : ({ s.step (.clone dst src ok) with origin := s.origin } : Vm ι n) =
      (s.vmmCloneUserSpace dst src ok).1 := by
    rw [hstep, ← horigin]
    rfl
  rw [hback]
  exact hcl

theorem step_good (hg : Good s []) (e : Event ι n) (hsmall : Small (s.step e)) :
    Good (s.step e) [] := by
  cases e with
  | clone dst src ok =>
    by_cases h0 : dst ≠ src ∧ ∀ v, s.pte (dst, v) = Pte.zero
    · exact (clone_spec hg ok h0.1 h0.2 hsmall).1
    · rw [Vm.step, if_neg h0]
      exact hg
  | fault d v found => exact (fault_spec hg (d, v) found).1
  | unmap d addr length => exact (unmap_spec hg d addr length).1
  | destroy d => exact (destroy_spec hg d).1
  | write d v off x => exact write_good hg (d, v) off x
  | hold f =>
    rw [Vm.step] at hsmall ⊢
    split_ifs at hsmall ⊢ with h0
    · obtain ⟨hf, hheld⟩ := h0
      have hu : s.used f = true := by
        by_contra hu
        have := (hg.free f (by simpa using hu)).1
        rw [Vm.owners] at this
        omega
      have hlt : s.owners f + 1 < 65536 := by
        have := hsmall f
        rw [Vm.owners] at this ⊢
        simp only [pmmRefFrame_pte, update_self] at this
        omega
      have hc := hg.count f hu
      rw [count_nil] at hc
      have href : Good (s.pmmRefFrame f) [f] := by
        refine hg.ref hu hf (by omega) fun k hk hkf => ?_
        have := (hg.alone hk).2.1
        rw [hkf] at this
        omega
      have hheld' : (s.pmmRefFrame f).held = s.held := held_of_fixed (pmmRefFrame_fixed s f)
      have := href.toHeld
      rw [hheld'] at this
      exact this
    · exact hg
  | drop f =>
    rw [Vm.step]
    split_ifs with h0
    · exact (hg.fromHeld h0.1 h0.2).unref
    · exact hg

theorem clone_read (hg : Good s []) {dst src : ι} (ok : Fin n → Bool)
    (hsmall : Small (s.step (.clone dst src ok))) {k : ι × Fin n} (hk : k.1 ≠ dst) :
    (s.step (.clone dst src ok)).read k = s.read k := by
  by_cases h0 : dst ≠ src ∧ ∀ v, s.pte (dst, v) = Pte.zero
  · obtain ⟨-, -, hcl⟩ := clone_spec hg ok h0.1 h0.2 hsmall
    have hview := view_congr hcl.fixed
    show Vm.view { s.step (.clone dst src ok) with origin := s.origin }
      ((s.step (.clone dst src ok)).pte k) = s.view (s.pte k)
    rw [hview]
    rcases hcl.others k.1 k.2 hk with h1 | h1
    · exact congrArg s.view h1
    · exact (congrArg s.view h1).trans (view_protect s _)
  · rw [Vm.step, if_neg h0]

theorem step_isolated (hg : Good s []) (e : Event ι n) (hsmall : Small (s.step e)) :
    Isolated s e := by
  cases e with
  | clone dst src ok => exact fun k hk => clone_read hg ok hsmall hk
  | fault d v found => exact fun k => ((fault_spec hg (d, v) found).2.2.2 k).read
  | unmap d addr length => exact fun k hk => (unmap_spec hg d addr length).2.read hk
  | destroy d => exact fun k hk => (destroy_spec hg d).2.1.read hk
  | write d v off x => exact fun hs k hk => write_read hg hs off x hk
  | hold f =>
    intro k
    rw [Vm.step]
    split_ifs
    · show Vm.view (s.pmmRefFrame f) _ = _
      rw [view_congr (pmmRefFrame_fixed s f), pmmRefFrame_pte]
      rfl
    · rfl
  | drop f =>
    intro k
    rw [Vm.step]
    split_ifs
    · rw [Vm.read, view_congr (pmmUnrefFrame_fixed _ _), pmmUnrefFrame_pte]
      rfl
    · rfl

theorem step_undone (hg : Good s []) (e : Event ι n) (hsmall : Small (s.step e)) : Undone s e := by
  cases e with
  | clone dst src ok =>
    intro hne hz
    obtain ⟨hgood, -, hcl⟩ := clone_spec hg ok hne hz hsmall
    obtain ⟨hg', he, hgone⟩ := destroy_spec hgood dst
    have hheld : ((s.step (.clone dst src ok)).vmmDestroyAddressSpace dst).held = s.held :=
      (held_of_fixed he.fixed).trans ((held_of_fixed hcl.fixed :))
    -- the same entries map the same frames as before the clone
    have hown (f : ℕ) : ((s.step (.clone dst src ok)).vmmDestroyAddressSpace dst).owners f =
        s.owners f := by
      rw [Vm.owners, hheld]
      refine congrArg (· + s.held f) (refs_congr ?_)
      rintro ⟨d, v⟩
      by_cases hd : d = dst
      · subst hd
        rw [hgone v, hz v]
      · rw [he.others (d, v) hd]
        rcases hcl.others d v hd with h1 | h1
        · exact Iff.of_eq (congrArg (Pte.Maps · f) h1)
        · exact (Iff.of_eq (congrArg (Pte.Maps · f) h1)).trans protect_maps
    obtain ⟨hused, hextra⟩ := hg.counts_eq hg' hown
    refine ⟨hused, hextra, fun k hk => ?_⟩
    exact (he.read hk).trans (clone_read hg ok hsmall hk)
  | _ => trivial

omit [Fintype ι] [DecidableEq ι] in
theorem Emptied.descended {t : Vm ι n} {d : ι} (h : Emptied s t d) (hd : Descended s₀ s) :
    Descended s₀ t := by
  intro d' v hp
  rw [origin_of_fixed h.fixed]
  rcases h.own (d', v) with h0 | h0
  · rw [h0] at hp ⊢
    exact hd d' v hp
  · rw [h0] at hp
    cases hp

theorem clone_descended (hg : Good s []) (hd : Descended s₀ s) {dst src : ι} (ok : Fin n → Bool)
    (hsmall : Small (s.step (.clone dst src ok))) : Descended s₀ (s.step (.clone dst src ok)) := by
  by_cases h0 : dst ≠ src ∧ ∀ v, s.pte (dst, v) = Pte.zero
  · obtain ⟨-, horigin, hcl⟩ := clone_spec hg ok h0.1 h0.2 hsmall
    intro d v hp
    rw [horigin]
    by_cases hdd : d = dst
    · subst hdd
      rw [update_self]
      rcases hcl.descends v (mem_finRange v) with h1 | ⟨h1, h2⟩ | ⟨h1, h2⟩
      · rw [h1] at hp
        cases hp
      · rw [h1, h2] at hp
        cases hp
      · rw [h1]
        obtain ⟨g₁, g₂, g₃⟩ := hd src v h2
        refine ⟨g₁, protect_shared.trans g₂, fun h3 => protect_frame.trans (g₃ ?_)⟩
        exact protect_shared.symm.trans h3
    · rw [update_of_ne hdd]
      rcases hcl.others d v hdd with h1 | h1
      · rw [h1] at hp ⊢
        exact hd d v hp
      · rw [h1] at hp ⊢
        obtain ⟨g₁, g₂, g₃⟩ := hd d v (by
          unfold Pte.protect at hp
          split_ifs at hp <;> exact hp)
        refine ⟨g₁, protect_shared.trans g₂, fun h3 => protect_frame.trans (g₃ ?_)⟩
        exact protect_shared.symm.trans h3
  · rw [Vm.step, if_neg h0]
    exact hd

theorem step_descended (hg : Good s []) (hd : Descended s₀ s) (e : Event ι n)
    (hsmall : Small (s.step e)) : Descended s₀ (s.step e) := by
  cases e with
  | clone dst src ok => exact clone_descended hg hd ok hsmall
  | fault d v found =>
    obtain ⟨-, horigin, -, hkept⟩ := fault_spec hg (d, v) found
    intro d' v' hp
    obtain ⟨-, k₁, k₂, k₃⟩ := hkept (d', v')
    rw [show (s.step (.fault d v found)).origin = s.origin from horigin]
    obtain ⟨g₁, g₂, g₃⟩ := hd d' v' (k₁ ▸ hp)
    refine ⟨g₁, k₂.trans g₂, fun h0 => ?_⟩
    exact (congrArg Pte.frame (k₃ h0)).trans (g₃ (k₂ ▸ h0))
  | unmap d addr length => exact (unmap_spec hg d addr length).2.descended hd
  | destroy d => exact (destroy_spec hg d).2.1.descended hd
  | write d v off x =>
    obtain ⟨h₁, h₂⟩ := write_fields (s := s) (d, v) off x
    intro d' v' hp
    rw [Vm.step] at hp ⊢
    rw [h₁] at hp ⊢
    rw [h₂]
    exact hd d' v' hp
  | hold f =>
    rw [Vm.step]
    split_ifs
    · intro d v hp
      rw [show Vm.pte { s.pmmRefFrame f with held := update s.held f (s.held f + 1) } = s.pte
        from pmmRefFrame_pte s f] at hp ⊢
      rw [show Vm.origin { s.pmmRefFrame f with held := update s.held f (s.held f + 1) } =
        s.origin from (origin_of_fixed (pmmRefFrame_fixed s f) :)]
      exact hd d v hp
    · exact hd
  | drop f =>
    rw [Vm.step]
    split_ifs
    · intro d v hp
      rw [pmmUnrefFrame_pte] at hp ⊢
      rw [origin_of_fixed (pmmUnrefFrame_fixed _ _)]
      exact hd d v hp
    · exact hd

end

/-- As long as no frame has 65536 owners, the counts stay right, shared pages stay the frames they
were in every descendant, what is read changes only where the event says so, and a clone that is
destroyed leaves no trace. -/
theorem fork_isolation {s : Vm ι n} (hg : Good s []) (ho : ∀ d, s.origin d = d)
    (es : List (Event ι n)) (hsmall : Run.Always Vm.step Small s es) :
    Run.Always Vm.step (fun t => Good t [] ∧ Descended s t) s es ∧
      Run.Along Vm.step (fun t e => Isolated t e ∧ Undone t e) s es := by
  have hstep (t : Vm ι n) (e : Event ι n) (h : Good t [] ∧ Descended s t) (hs : Small (t.step e)) :
      Good (t.step e) [] ∧ Descended s (t.step e) :=
    ⟨step_good h.1 e hs, step_descended h.1 h.2 e hs⟩
  have h0 : Good s [] ∧ Descended s s := by
    refine ⟨hg, fun d v hp => ?_⟩
    rw [ho d]
    exact ⟨hp, rfl, fun _ => rfl⟩
  constructor
  · exact Run.always_of_induction hstep h0 hsmall.next
  · refine (Run.Along.with_invariant hstep h0 hsmall.next).mono ?_
    rintro t e ⟨⟨h1, -⟩, h2⟩
    exact ⟨step_isolated h1 e h2, step_undone h1 e h2⟩

omit [DecidableEq ι] in
theorem small_of_card {s : Vm ι n} (hh : s.held = fun _ => 0)
    (hc : Fintype.card (ι × Fin n) < 65536) : Small s := by
  intro f
  have : refs Pte.Maps s.pte f ≤ Fintype.card (ι × Fin n) := Finset.card_le_univ _
  rw [Vm.owners, hh]
  exact lt_of_le_of_lt this hc

/-- A process with one page of its own, and room for a child. -/
def oneProcess : Vm (Fin 2) 1 where
  total := 4
  used := fun f => f = 1
  extra := fun _ => 0
  data := fun _ _ => 5
  deviceData := fun _ _ => 0
  slotCount := 0
  slotOwners := fun _ => 0
  slotData := fun _ _ => 0
  pte := fun k => if k.1 = 0 then ⟨true, true, true, false, false, false, false, true, 1⟩ else Pte.zero
  held := fun _ => 0
  origin := id

/-- It forks, writes (into a copy), and the child, now alone, writes and goes. -/
def forkRun : List (Event (Fin 2) 1) :=
  [.clone 1 0 fun _ => true, .fault 0 0 (some 2), .write 0 0 0 7, .fault 1 0 none, .write 1 0 0 8,
    .destroy 1]

theorem oneProcess_good : Good oneProcess [] := by
  have hpte (k : Fin 2 × Fin 1) (f : ℕ) : (oneProcess.pte k).Maps f ↔ k = (0, 0) ∧ f = 1 := by
    obtain ⟨d, v⟩ := k
    fin_cases d <;> fin_cases v <;> simp [oneProcess, Pte.Maps, Pte.zero, eq_comm]
  have hown (f : ℕ) : oneProcess.owners f = if f = 1 then 1 else 0 := by
    show (Finset.univ.filter fun k => (oneProcess.pte k).Maps f).card + 0 = _
    simp only [hpte]
    split_ifs with h0
    · simp [h0, Finset.filter_eq']
    · simp [h0]
  refine ⟨fun k f hf => by simp [((hpte k f).1 hf).2], not_mem_nil, fun f hf => ?_, fun f hf => ?_,
    fun f hf => ?_, fun k hk => ?_, fun k _ => rfl⟩
  · have : f = 1 := by simpa [oneProcess] using hf
    rw [this]
    decide
  · have : f = 1 := by simpa [oneProcess] using hf
    rw [hown, if_pos this]
    rfl
  · have : f ≠ 1 := by simpa [oneProcess] using hf
    rw [hown, if_neg this]
    exact ⟨rfl, rfl⟩
  · obtain ⟨d, v⟩ := k
    fin_cases d <;> fin_cases v <;> simp [oneProcess, Pte.zero]

theorem fork_isolation_forkRun :
    Good oneProcess [] ∧ Run.Always Vm.step Small oneProcess forkRun ∧
      Run.Along Vm.step (fun t e => Isolated t e ∧ Undone t e) oneProcess forkRun := by
  have hsmall : Run.Always Vm.step Small oneProcess forkRun :=
    ⟨small_of_card rfl (by decide), small_of_card rfl (by decide), small_of_card rfl (by decide),
      small_of_card rfl (by decide), small_of_card rfl (by decide), small_of_card rfl (by decide),
      small_of_card rfl (by decide)⟩
  exact ⟨oneProcess_good, hsmall, (fork_isolation oneProcess_good (fun _ => rfl) forkRun hsmall).2⟩

theorem destroyAll_spec {s : Vm ι n} (hg : Good s []) (ds : List ι) :
    let t := ds.foldl Vm.vmmDestroyAddressSpace s
    Good t [] ∧ t.held = s.held ∧
      ∀ d v, d ∈ ds ∨ s.pte (d, v) = Pte.zero → t.pte (d, v) = Pte.zero := by
  induction ds generalizing s with
  | nil => exact ⟨hg, rfl, fun d v h => h.resolve_left not_mem_nil⟩
  | cons e ds ih =>
    obtain ⟨g, hem, hz⟩ := destroy_spec hg e
    obtain ⟨h₁, h₂, h₃⟩ := ih g
    refine ⟨h₁, h₂.trans (held_of_fixed hem.fixed), fun d v h => h₃ d v ?_⟩
    rcases h with h | h
    · exact (mem_cons.1 h).elim (fun h0 => .inr (h0 ▸ hz v)) .inl
    · exact .inr ((hem.own (d, v)).elim (·.trans h) id)

/-- Once every address space is destroyed, in whatever order, a frame is in use only if someone else
holds it, and its count is theirs. -/
theorem destroyed_spaces_keep_no_frame {s : Vm ι n} (hg : Good s []) (es : List (Event ι n))
    (hsmall : Run.Always Vm.step Small s es) (ds : List ι) (hds : ∀ d, d ∈ ds) (f : ℕ) :
    let s' := Run.run Vm.step s es
    let t := ds.foldl Vm.vmmDestroyAddressSpace s'
    t.used f = decide (0 < s'.held f) ∧ t.extra f = s'.held f - 1 := by
  intro s' t
  have hg' : Good s' [] :=
    Run.run_induction (I := (Good · [])) (fun _ e h => step_good h e) hg hsmall.next
  obtain ⟨ht, hheld, hz⟩ : Good t [] ∧ t.held = s'.held ∧ _ := destroyAll_spec hg' ds
  have hpte (k : ι × Fin n) : t.pte k = Pte.zero := hz k.1 k.2 (.inl (hds k.1))
  have howners : t.owners f = s'.held f := by
    simp [Vm.owners, refs, hpte, not_maps_zero, hheld]
  cases hu : t.used f with
  | false =>
    obtain ⟨h1, h2⟩ := ht.free f hu
    rw [howners, count_nil] at h1
    exact ⟨(decide_eq_false (by omega)).symm, by omega⟩
  | true =>
    have h1 := ht.count f hu
    rw [howners, count_nil] at h1
    exact ⟨(decide_eq_true (by omega)).symm, by omega⟩

theorem destroyed_spaces_keep_no_frame_forkRun :
    let t := [1, 0].foldl Vm.vmmDestroyAddressSpace (Run.run Vm.step oneProcess (forkRun.take 1))
    (Run.run Vm.step oneProcess (forkRun.take 1)).extra 1 = 1 ∧ t.used 1 = false :=
  ⟨by decide, (destroyed_spaces_keep_no_frame oneProcess_good (forkRun.take 1)
    ⟨small_of_card rfl (by decide), small_of_card rfl (by decide)⟩ [1, 0] (by decide) 1).1⟩

end Bashket.Vmm
