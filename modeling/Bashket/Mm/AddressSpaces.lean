import Bashket.Lib.Refs

/-!
# User address spaces and the frames they share

`vmm_clone_user_space`, `vmm_handle_cow_fault` and `vmm_destroy_address_space` of `vmm.c`, the owner
counts of `cow.c` and `user_unmap_range` of `mmap.c`. The page tables of an address space are the
map from its user pages to their entries: the nested loops of the source visit these in the order of
their addresses and step over tables that do not exist. Whether the tables for a new entry can be
had, and which frame the allocator finds, is the environment's choice.

`held` and `origin` are not of the source: the references to a frame held elsewhere (by the page
cache, shared memory or the kernel itself), and the address space that another one descends from.
-/

namespace Bashket.Vmm

open Function (update)

def pageSize : ℕ := 4096

def batch : ℕ := 32

/-- A page-table entry: the bits that are read here, and the frame (or the swap slot). -/
structure Pte where
  present : Bool
  writable : Bool
  user : Bool
  cow : Bool
  shared : Bool
  device : Bool
  swapped : Bool
  noExecute : Bool
  frame : ℕ
deriving DecidableEq

def Pte.zero : Pte := ⟨false, false, false, false, false, false, false, false, 0⟩

def Pte.isSwapped (p : Pte) : Bool := !p.present && p.swapped

def Pte.Maps (p : Pte) (f : ℕ) : Prop := p.present = true ∧ p.device = false ∧ p.frame = f

instance (p : Pte) (f : ℕ) : Decidable (p.Maps f) := inferInstanceAs (Decidable (_ ∧ _ ∧ _))

/-- A writable page that is not shared becomes read-only and copy-on-write. -/
def Pte.protect (p : Pte) : Pte :=
  if p.writable && !p.shared then { p with writable := false, cow := true } else p

def Pte.inherit (p : Pte) : Pte :=
  ⟨true, p.writable, p.user, p.cow, p.shared, p.device, false, p.noExecute, p.frame⟩

/-- Frames, swap slots and the address spaces `ι`, of `n` user pages each. -/
structure Vm (ι : Type*) (n : ℕ) where
  /-- `total_frames`, and `tracked_frames` with it. -/
  total : ℕ
  used : ℕ → Bool
  extra : ℕ → ℕ
  data : ℕ → ℕ → ℕ
  deviceData : ℕ → ℕ → ℕ
  slotCount : ℕ
  slotOwners : ℕ → ℕ
  slotData : ℕ → ℕ → ℕ
  pte : ι × Fin n → Pte
  held : ℕ → ℕ
  origin : ι → ι

variable {ι : Type*} {n : ℕ}

/-! ### Frames and slots -/

/-- `pmm_alloc_frame`: the frame the allocator finds, if it finds one. -/
def Vm.pmmAllocFrame (s : Vm ι n) (found : Option ℕ) : Option (Vm ι n × ℕ) :=
  match found with
  | some f =>
    if f ≠ 0 ∧ f < s.total ∧ s.used f = false then
      some ({ s with used := update s.used f true }, f)
    else none
  | none => none

def Vm.pmmFreeFrame (s : Vm ι n) (f : ℕ) : Vm ι n :=
  if f = 0 ∨ s.total ≤ f ∨ s.used f = false then s
  else { s with used := update s.used f false }

def Vm.pmmRefFrame (s : Vm ι n) (f : ℕ) : Vm ι n :=
  if s.total ≤ f then s
  else { s with extra := update s.extra f ((s.extra f + 1) % 65536) }

def Vm.pmmUnrefFrame (s : Vm ι n) (f : ℕ) : Vm ι n :=
  if f = 0 then s
  else if f < s.total ∧ 0 < s.extra f then
    { s with extra := update s.extra f (s.extra f - 1) }
  else s.pmmFreeFrame f

def Vm.pmmGetFrameRef (s : Vm ι n) (f : ℕ) : ℕ := if s.total ≤ f then 1 else s.extra f + 1

def Vm.swapSlotRef (s : Vm ι n) (slot : ℕ) : Vm ι n :=
  if slot = 0 ∨ s.slotCount < slot ∨ s.slotOwners slot = 0 ∨ s.slotOwners slot = 0xFFFF then s
  else { s with slotOwners := update s.slotOwners slot (s.slotOwners slot + 1) }

def Vm.swapSlotUnref (s : Vm ι n) (slot : ℕ) : Vm ι n :=
  if slot = 0 ∨ s.slotCount < slot ∨ s.slotOwners slot = 0 then s
  else { s with slotOwners := update s.slotOwners slot (s.slotOwners slot - 1) }

def Vm.fixed (s : Vm ι n) : (ℕ → ℕ → ℕ) × (ℕ → ℕ → ℕ) × (ℕ → ℕ → ℕ) × (ℕ → ℕ) × (ι → ι) :=
  (s.data, s.deviceData, s.slotData, s.held, s.origin)

theorem held_of_fixed {s t : Vm ι n} (h : t.fixed = s.fixed) : t.held = s.held :=
  congrArg (fun x => x.2.2.2.1) h

theorem origin_of_fixed {s t : Vm ι n} (h : t.fixed = s.fixed) : t.origin = s.origin :=
  congrArg (fun x => x.2.2.2.2) h

section

variable (s : Vm ι n) (f : ℕ)

@[simp] theorem pmmRefFrame_fixed : (s.pmmRefFrame f).fixed = s.fixed := by
  unfold Vm.pmmRefFrame
  split_ifs <;> rfl

@[simp] theorem pmmRefFrame_pte : (s.pmmRefFrame f).pte = s.pte := by
  unfold Vm.pmmRefFrame
  split_ifs <;> rfl

@[simp] theorem pmmUnrefFrame_fixed : (s.pmmUnrefFrame f).fixed = s.fixed := by
  unfold Vm.pmmUnrefFrame Vm.pmmFreeFrame
  split_ifs <;> rfl

@[simp] theorem pmmUnrefFrame_pte : (s.pmmUnrefFrame f).pte = s.pte := by
  unfold Vm.pmmUnrefFrame Vm.pmmFreeFrame
  split_ifs <;> rfl

@[simp] theorem swapSlotRef_fixed : (s.swapSlotRef f).fixed = s.fixed := by
  unfold Vm.swapSlotRef
  split_ifs <;> rfl

@[simp] theorem swapSlotRef_pte : (s.swapSlotRef f).pte = s.pte := by
  unfold Vm.swapSlotRef
  split_ifs <;> rfl

@[simp] theorem swapSlotUnref_fixed : (s.swapSlotUnref f).fixed = s.fixed := by
  unfold Vm.swapSlotUnref
  split_ifs <;> rfl

@[simp] theorem swapSlotUnref_pte : (s.swapSlotUnref f).pte = s.pte := by
  unfold Vm.swapSlotUnref
  split_ifs <;> rfl

end

/-! ### Reading -/

/-- What a program reads through an entry: nothing if the page is not mapped. -/
def Vm.view (s : Vm ι n) (p : Pte) : Option (ℕ → ℕ) :=
  if p.present then some (if p.device then s.deviceData p.frame else s.data p.frame)
  else if p.swapped then some (s.slotData p.frame)
  else none

theorem view_congr {s t : Vm ι n} (h : t.fixed = s.fixed) (p : Pte) : t.view p = s.view p := by
  simp only [Vm.fixed, Prod.mk.injEq] at h
  rw [Vm.view, Vm.view, h.1, h.2.1, h.2.2.1]

section

variable {f : ℕ} {p : Pte}

theorem protect_maps : p.protect.Maps f ↔ p.Maps f := by
  unfold Pte.protect
  split_ifs <;> rfl

theorem protect_device : p.protect.device = p.device := by
  unfold Pte.protect
  split_ifs <;> rfl

theorem protect_frame : p.protect.frame = p.frame := by
  unfold Pte.protect
  split_ifs <;> rfl

theorem protect_shared : p.protect.shared = p.shared := by
  unfold Pte.protect
  split_ifs <;> rfl

theorem view_protect (s : Vm ι n) (p : Pte) : s.view p.protect = s.view p := by
  unfold Pte.protect
  split_ifs <;> rfl

theorem inherit_maps (hp : p.present = true) : p.inherit.Maps f ↔ p.Maps f := by
  simp [Pte.Maps, Pte.inherit, hp]

theorem view_inherit (s : Vm ι n) (hp : p.present = true) : s.view p.inherit = s.view p := by
  rw [Vm.view, Vm.view, hp]
  rfl

end

variable [DecidableEq ι]

/-! ### Entries -/

def Vm.set (s : Vm ι n) (k : ι × Fin n) (p : Pte) : Vm ι n :=
  { s with pte := update s.pte k p }

@[simp] theorem set_fixed (s : Vm ι n) (k : ι × Fin n) (p : Pte) : (s.set k p).fixed = s.fixed := rfl

@[simp] theorem set_pte (s : Vm ι n) (k : ι × Fin n) (p : Pte) :
    (s.set k p).pte = update s.pte k p := rfl

def Vm.vmmSwapDiscard (s : Vm ι n) (k : ι × Fin n) : Vm ι n :=
  if (s.pte k).isSwapped then (s.set k Pte.zero).swapSlotUnref (s.pte k).frame else s

/-! ### `vmm_clone_user_space` -/

/-- The innermost loop, for the page `v`; `ok`: the tables for the new entry can be had. -/
def Vm.cloneEntry (s : Vm ι n) (dst src : ι) (v : Fin n) (ok : Bool) : Vm ι n × Bool :=
  let p := s.pte (src, v)
  if p.isSwapped then
    if ok then ((s.set (dst, v) p).swapSlotRef p.frame, true) else (s, false)
  else if !p.present then (s, true)
  else
    let p := p.protect
    let s := s.set (src, v) p
    let s := if p.device then s else s.pmmRefFrame p.frame
    if ok then (s.set (dst, v) p.inherit, true)
    else (if p.device then s else s.pmmUnrefFrame p.frame, false)

/-- The loops over the pages; they end where an entry could not be made. -/
def Vm.cloneLoop (dst src : ι) (ok : Fin n → Bool) : List (Fin n) → Vm ι n → Vm ι n × Bool
  | [], s => (s, true)
  | v :: vs, s =>
    match s.cloneEntry dst src v (ok v) with
    | (s, true) => cloneLoop dst src ok vs s
    | (s, false) => (s, false)

def Vm.vmmCloneUserSpace (s : Vm ι n) (dst src : ι) (ok : Fin n → Bool) : Vm ι n × Bool :=
  Vm.cloneLoop dst src ok (List.finRange n) s

/-! ### `vmm_handle_cow_fault` -/

def Vm.vmmHandleCowFault (s : Vm ι n) (k : ι × Fin n) (found : Option ℕ) : Vm ι n × Bool :=
  let p := s.pte k
  if p.present && p.cow then
    if s.pmmGetFrameRef p.frame = 1 then
      (s.set k { p with cow := false, writable := true }, true)
    else
      match s.pmmAllocFrame found with
      | some (s, copy) =>
        let s := { s with data := update s.data copy (s.data p.frame) }
        let s := s.set k { p with cow := false, writable := true, frame := copy }
        (s.pmmUnrefFrame p.frame, true)
      | none => (s, false)
  else (s, false)

/-! ### `user_unmap_range` -/

/-- The loop of `user_unmap_range`, with the frames it has gathered. -/
def Vm.unmapLoop (d : ι) : List (Fin n) → Vm ι n → List ℕ → Vm ι n
  | [], s, frames => frames.foldl Vm.pmmUnrefFrame s
  | v :: vs, s, frames =>
    let p := s.pte (d, v)
    if p.present = true ∧ p.frame ≠ 0 then
      let s := s.set (d, v) Pte.zero
      let frames := if p.device then frames else frames ++ [p.frame]
      if frames.length = batch then unmapLoop d vs (frames.foldl Vm.pmmUnrefFrame s) []
      else unmapLoop d vs s frames
    else unmapLoop d vs (s.vmmSwapDiscard (d, v)) frames

/-- `user_unmap_range`: the pages from `addr` on, for `length` bytes. -/
def Vm.userUnmapRange (s : Vm ι n) (d : ι) (addr length : ℕ) : Vm ι n :=
  if length = 0 ∨ ¬pageSize ∣ addr ∨ n * pageSize ≤ addr ∨ n * pageSize - addr < length then s
  else Vm.unmapLoop d ((List.finRange n).filter fun v =>
    addr ≤ v * pageSize ∧
      v * pageSize < addr + (length + pageSize - 1) / pageSize * pageSize) s []

/-! ### `vmm_destroy_address_space` -/

/-- What `free_table` does with an entry of the last level; the table is gone afterwards. -/
def Vm.freeEntry (s : Vm ι n) (k : ι × Fin n) : Vm ι n :=
  let p := s.pte k
  let s := s.set k Pte.zero
  if p.present then if p.device then s else s.pmmUnrefFrame p.frame
  else if p.isSwapped then s.swapSlotUnref p.frame
  else s

def Vm.vmmDestroyAddressSpace (s : Vm ι n) (d : ι) : Vm ι n :=
  (List.finRange n).foldl (fun s v => s.freeEntry (d, v)) s

/-! ### Runs -/

/-- What the calls are, and what programs and other owners of frames do between them. -/
inductive Event (ι : Type*) (n : ℕ)
  | clone (dst src : ι) (ok : Fin n → Bool)
  | fault (d : ι) (v : Fin n) (found : Option ℕ)
  | unmap (d : ι) (addr length : ℕ)
  | destroy (d : ι)
  | write (d : ι) (v : Fin n) (off x : ℕ)
  | hold (f : ℕ)
  | drop (f : ℕ)

def Vm.write (s : Vm ι n) (k : ι × Fin n) (off x : ℕ) : Vm ι n :=
  let p := s.pte k
  if p.present && p.user && p.writable then
    if p.device then
      { s with
        deviceData :=
          update s.deviceData p.frame (update (s.deviceData p.frame) off x) }
    else { s with data := update s.data p.frame (update (s.data p.frame) off x) }
  else s

/-- A clone goes to a new address space, an empty one; only an owner makes more owners. -/
def Vm.step (s : Vm ι n) : Event ι n → Vm ι n
  | .clone dst src ok =>
    if dst ≠ src ∧ ∀ v, s.pte (dst, v) = Pte.zero then
      let r := (s.vmmCloneUserSpace dst src ok).1
      { r with origin := update r.origin dst (r.origin src) }
    else s
  | .fault d v found => (s.vmmHandleCowFault (d, v) found).1
  | .unmap d addr length => s.userUnmapRange d addr length
  | .destroy d => s.vmmDestroyAddressSpace d
  | .write d v off x => s.write (d, v) off x
  | .hold f =>
    if f ≠ 0 ∧ 0 < s.held f then
      { s.pmmRefFrame f with held := update s.held f (s.held f + 1) }
    else s
  | .drop f =>
    if f ≠ 0 ∧ 0 < s.held f then
      Vm.pmmUnrefFrame { s with held := update s.held f (s.held f - 1) } f
    else s

def Vm.read (s : Vm ι n) (k : ι × Fin n) : Option (ℕ → ℕ) := s.view (s.pte k)

attribute [grind =] Pte.Maps Pte.zero Vm.pmmFreeFrame Vm.pmmUnrefFrame

end Bashket.Vmm
