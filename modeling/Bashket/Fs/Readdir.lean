import Bashket.Lib.Run

/-!
# Reading a directory while it changes

An open directory has a position, the number of entries `file_readdir` has returned; a directory is
a list of nodes, and a new one goes to its front. A change that touches the part of the list that
has been read shifts the entries under the position.
-/

namespace Bashket.Readdir

open List
open Function (update update_apply update_self)

abbrev Name := List UInt8

abbrev vfsNameMax : ℕ := 128

def checkNewName (name : Name) : Bool :=
  name ≠ [] && 47 ∉ name && name ≠ [46] && name ≠ [46, 46] && name.length < vfsNameMax

abbrev vfsDirectory : ℕ := 2

/-- A `vnode_t`; no two have the same `serial`. -/
structure Vnode where
  serial : ℕ
  name : Name
  type : ℕ
  mode : ℕ
  uid : ℕ
  gid : ℕ
  mtime : ℕ
  size : ℕ

/-- `struct dirent_info` -/
structure DirentInfo where
  type : ℕ
  mode : ℕ
  uid : ℕ
  gid : ℕ
  mtime : ℕ
  size : ℕ
  name : Name

inductive Errno
  | badf
  | notdir

/-- What of `file_t` a listing uses; `node`: the directory the file is open on, if it is one. -/
structure File (δ : Type*) where
  readable : Bool
  node : Option δ
  offset : ℕ

/-- `unloaded`: the entries of a directory that has not been read from its disk; `listed`: the nodes
`file_readdir` has returned. -/
structure State (δ : Type*) where
  children : δ → List Vnode
  unloaded : δ → List Vnode
  nextSerial : ℕ
  file : File δ
  listed : List ℕ

/-- `ok`: no other check refuses the call and the filesystem carries it out. -/
inductive Event (δ : Type*)
  | create (d : δ) (name : Name) (type : ℕ) (ok : Bool)
  | unlink (d : δ) (name : Name) (ok : Bool)
  | rename (d : δ) (old : Name) (d' : δ) (new : Name) (ok : Bool)
  | readdir

variable {δ : Type*} [DecidableEq δ]

namespace State

variable (s : State δ) {d : δ} {v : Vnode} {e : Event δ}

/-- `vfs_load_dir` -/
def loadDir (d : δ) : State δ :=
  { s with
    children := update s.children d (s.unloaded d ++ s.children d)
    unloaded := update s.unloaded d [] }

/-- `vfs_find_child` in a directory that has been read. -/
def findChild (d : δ) (name : Name) : Option Vnode := (s.children d).find? fun v => v.name = name

def link (d : δ) (v : Vnode) : State δ :=
  { s with children := update s.children d (v :: s.children d) }

def unlink (d : δ) (v : Vnode) : State δ :=
  { s with children := update s.children d ((s.children d).filter fun w => w.serial ≠ v.serial) }

/-- `vfs_attach` -/
def attach (d : δ) (name : Name) (type : ℕ) : State δ :=
  let mode := if type = vfsDirectory then 0o755 else 0o644
  { s.link d ⟨s.nextSerial, name, type, mode, 0, 0, 0, 0⟩ with nextSerial := s.nextSerial + 1 }

/-- `readdir_locked` from its walk on, with what it returns: nothing at the end of the list. -/
def readAt (d : δ) : State δ × Option DirentInfo :=
  match (s.children d)[s.file.offset]? with
  | none => (s, none)
  | some v =>
    ({ s with
        file := { s.file with offset := s.file.offset + 1 }
        listed := s.listed ++ [v.serial] },
      some ⟨v.type, v.mode, v.uid, v.gid, v.mtime, v.size, v.name⟩)

def readdirLocked : State δ × Except Errno (Option DirentInfo) :=
  if !s.file.readable then (s, .error .badf)
  else
    match s.file.node with
    | none => (s, .error .notdir)
    | some d => (((s.loadDir d).readAt d).1, .ok ((s.loadDir d).readAt d).2)

/-- One call: `vfs_create`, `vfs_unlink`, `vfs_rename` or `file_readdir`. -/
def step : Event δ → State δ
  | .create d name type ok =>
    let s := s.loadDir d
    if checkNewName name ∧ ok ∧ (s.findChild d name).isNone then s.attach d name type else s
  | .unlink d name ok =>
    let s := s.loadDir d
    match s.findChild d name with
    | some v => if ok then s.unlink d v else s
    | none => s
  | .rename d old d' new ok =>
    let s := (s.loadDir d).loadDir d'
    match s.findChild d old with
    | some v =>
      if checkNewName new ∧ ok ∧ (s.findChild d' new).isNone then
        (s.unlink d v).link d' { v with name := new }
      else s
    | none => s
  | .readdir => s.readdirLocked.1

/-! ### What has been read -/

def passed : List ℕ :=
  match s.file.node with
  | some d => ((s.children d).take s.file.offset).map Vnode.serial
  | none => []

/-- A change leaves the part of the list in front of the position as it is. -/
def Spares (e : Event δ) : Prop := e = .readdir ∨ (s.step e).passed = s.passed

/-- No entry has been returned twice, and if the call finds the end of the list, each has been
returned. -/
def OnceEach (e : Event δ) : Prop :=
  (s.step e).listed.Nodup ∧
    (e = .readdir → s.readdirLocked.2 = .ok none → ∀ d, s.file.node = some d →
      ∀ v ∈ (s.step e).children d, (s.step e).listed.count v.serial = 1)

def nodes (d : δ) : List ℕ := (s.unloaded d ++ s.children d).map Vnode.serial

structure Distinct : Prop where
  nodup : ∀ d, (s.nodes d).Nodup
  apart : ∀ d d' x, x ∈ s.nodes d → x ∈ s.nodes d' → d = d'
  fresh : ∀ d, ∀ x ∈ s.nodes d, x < s.nextSerial

/-- The file has just been opened. -/
structure Opened : Prop extends s.Distinct where
  offset : s.file.offset = 0
  listed : s.listed = []

structure Listing : Prop extends s.Distinct where
  listed : s.listed = s.passed
  loaded : ∀ d, s.file.node = some d → s.file.offset ≠ 0 → s.unloaded d = []

variable {s} {s' : State δ}

omit [DecidableEq δ] in
theorem Distinct.congr (h : s.Distinct) (hn : ∀ d, s'.nodes d = s.nodes d)
    (hs : s'.nextSerial = s.nextSerial) : s'.Distinct := by
  refine ⟨fun d => ?_, fun d d' x => ?_, fun d => ?_⟩
  · rw [hn]
    exact h.nodup d
  · rw [hn, hn]
    exact h.apart d d' x
  · rw [hn, hs]
    exact h.fresh d

theorem nodes_loadDir (d d' : δ) : (s.loadDir d).nodes d' = s.nodes d' := by
  by_cases hd : d' = d
  · subst hd
    simp [nodes, loadDir]
  · simp [nodes, loadDir, hd]

theorem Distinct.loadDir (h : s.Distinct) (d : δ) : (s.loadDir d).Distinct :=
  h.congr (nodes_loadDir d) rfl

theorem Distinct.unlink (h : s.Distinct) (d : δ) (v : Vnode) : (s.unlink d v).Distinct := by
  have hsub (d' : δ) : List.Sublist ((s.unlink d v).nodes d') (s.nodes d') := by
    by_cases hd : d' = d
    · subst hd
      simp only [nodes, State.unlink, update_self]
      exact (filter_sublist.append_left _).map _
    · simp [nodes, State.unlink, hd]
  exact ⟨fun d' => (h.nodup d').sublist (hsub d'),
    fun d d' x hx hx' => h.apart d d' x ((hsub d).subset hx) ((hsub d').subset hx'),
    fun d' x hx => h.fresh d' x ((hsub d').subset hx)⟩

theorem Distinct.link (h : s.Distinct) (hd : s.unloaded d = []) (hv : ∀ d', v.serial ∉ s.nodes d')
    (hlt : v.serial < s.nextSerial) : (s.link d v).Distinct := by
  have hnodes (d' : δ) : (s.link d v).nodes d' = if d' = d then v.serial :: s.nodes d else s.nodes d' := by
    by_cases hd' : d' = d
    · subst hd'
      simp [nodes, State.link, hd]
    · simp [nodes, State.link, hd']
  refine ⟨fun d' => ?_, fun d₁ d₂ x hx hx' => ?_, fun d' x hx => ?_⟩
  · rw [hnodes]
    split_ifs
    · exact nodup_cons.2 ⟨hv d, h.nodup d⟩
    · exact h.nodup d'
  · rw [hnodes] at hx hx'
    split_ifs at hx hx' with h₁ h₂ h₂
    · rw [h₁, h₂]
    · rcases mem_cons.1 hx with rfl | hx
      · exact absurd hx' (hv d₂)
      · exact absurd (h.apart d d₂ x hx hx').symm h₂
    · rcases mem_cons.1 hx' with rfl | hx'
      · exact absurd hx (hv d₁)
      · exact absurd (h.apart d₁ d x hx hx') h₁
    · exact h.apart d₁ d₂ x hx hx'
  · rw [hnodes] at hx
    split_ifs at hx
    · rcases mem_cons.1 hx with rfl | hx
      · exact hlt
      · exact h.fresh d x hx
    · exact h.fresh d' x hx

omit [DecidableEq δ] in
theorem mem_nodes_of_findChild {name : Name} (h : s.findChild d name = some v) :
    v.serial ∈ s.nodes d :=
  mem_map_of_mem (mem_append_right _ (mem_of_find?_eq_some h))

theorem not_mem_nodes_unlink (h : s.Distinct) (hd : s.unloaded d = []) (hv : v.serial ∈ s.nodes d)
    (d' : δ) : v.serial ∉ (s.unlink d v).nodes d' := by
  by_cases hd' : d' = d
  · subst hd'
    simp [nodes, State.unlink, hd]
  · intro hv'
    refine hd' (h.apart d' d _ ?_ hv)
    simpa [nodes, State.unlink, hd'] using hv'

theorem Distinct.step (h : s.Distinct) (he : e ≠ .readdir) :
    (s.step e).Distinct ∧ (s.step e).file = s.file ∧ (s.step e).listed = s.listed ∧
      ∀ d, s.unloaded d = [] → (s.step e).unloaded d = [] := by
  have hload (s : State δ) (d d' : δ) (h : s.unloaded d' = []) : (s.loadDir d).unloaded d' = [] := by
    simp only [State.loadDir, update_apply, h, ite_self]
  cases e with
  | readdir => exact absurd rfl he
  | create d name type ok =>
    have hl := h.loadDir d
    simp only [State.step]
    split_ifs
    · have hnext : { s.loadDir d with nextSerial := s.nextSerial + 1 }.Distinct :=
        ⟨hl.nodup, hl.apart, fun d' x hx => (hl.fresh d' x hx).trans (Nat.lt_succ_self _)⟩
      refine ⟨hnext.link (update_self _ _ _) (fun d' hd' => (hl.fresh d' _ hd').false)
        (Nat.lt_succ_self _), rfl, rfl, hload s d⟩
    · exact ⟨hl, rfl, rfl, hload s d⟩
  | unlink d name ok =>
    have hl := h.loadDir d
    simp only [State.step]
    split
    · split_ifs
      · exact ⟨hl.unlink d _, rfl, rfl, hload s d⟩
      · exact ⟨hl, rfl, rfl, hload s d⟩
    · exact ⟨hl, rfl, rfl, hload s d⟩
  | rename d old d' new ok =>
    have hl := (h.loadDir d).loadDir d'
    have hboth (x : δ) (h : s.unloaded x = []) := hload _ d' x (hload s d x h)
    simp only [State.step]
    split
    next v hv =>
      have hmem := mem_nodes_of_findChild hv
      have hd : ((s.loadDir d).loadDir d').unloaded d = [] :=
        hload _ d' d (update_self _ _ _)
      split_ifs
      · exact ⟨(hl.unlink d v).link (update_self _ _ _) (not_mem_nodes_unlink hl hd hmem)
          (hl.fresh d _ hmem), rfl, rfl, hboth⟩
      · exact ⟨hl, rfl, rfl, hboth⟩
    · exact ⟨hl, rfl, rfl, hboth⟩

/-! ### Runs -/

theorem Listing.loadDir (h : s.Listing) (hd : s.file.node = some d) :
    (s.loadDir d).Listing := by
  refine ⟨h.toDistinct.loadDir d, ?_, fun d' hd' _ => ?_⟩
  · have hl := h.listed
    simp only [passed, State.loadDir, hd, update_self] at hl ⊢
    by_cases h0 : s.file.offset = 0
    · simpa [h0] using hl
    · simpa [h.loaded d hd h0] using hl
  · cases hd.symm.trans hd'
    exact update_self _ _ _

omit [DecidableEq δ] in
theorem Listing.nodup_listed (h : s.Listing) : s.listed.Nodup := by
  rw [h.listed, passed]
  cases s.file.node with
  | none => exact nodup_nil
  | some d =>
    have := h.nodup d
    rw [nodes, map_append] at this
    exact (nodup_append.1 this).2.1.sublist ((take_sublist _ _).map _)

omit [DecidableEq δ] in
theorem Listing.readAt (h : s.Listing) (hd : s.file.node = some d) (hl : s.unloaded d = []) :
    (s.readAt d).1.Listing ∧ ((s.readAt d).2 = none →
      (s.readAt d).1.listed = ((s.readAt d).1.children d).map Vnode.serial) := by
  have hpassed := h.listed
  simp only [passed, hd] at hpassed
  unfold State.readAt
  cases hv : (s.children d)[s.file.offset]? with
  | none =>
    refine ⟨h, fun _ => ?_⟩
    rw [hpassed, take_of_length_le (getElem?_eq_none_iff.1 hv)]
  | some v =>
    refine ⟨⟨⟨h.nodup, h.apart, h.fresh⟩, ?_, fun d' hd' _ => ?_⟩, nofun⟩
    · simp [passed, hd, hpassed, take_add_one, hv]
    · cases hd.symm.trans hd'
      exact hl

theorem readdirLocked_cases (s : State δ) :
    (s.readdirLocked.1 = s ∧ ∃ e, s.readdirLocked.2 = .error e) ∨
      ∃ d, s.file.node = some d ∧
        s.readdirLocked = (((s.loadDir d).readAt d).1, .ok ((s.loadDir d).readAt d).2) := by
  unfold readdirLocked
  split_ifs
  · exact .inl ⟨rfl, _, rfl⟩
  · cases s.file.node with
    | none => exact .inl ⟨rfl, _, rfl⟩
    | some d => exact .inr ⟨d, rfl, rfl⟩

theorem Listing.step (h : s.Listing) (hs : s.Spares e) : (s.step e).Listing := by
  by_cases he : e = .readdir
  · subst he
    obtain ⟨hsame, -⟩ | ⟨d, hd, hread⟩ := s.readdirLocked_cases
    · rwa [State.step, hsame]
    · rw [State.step, hread]
      exact ((h.loadDir hd).readAt hd (update_self _ _ _)).1
  · obtain ⟨hdis, hfile, hlisted, hunl⟩ := h.toDistinct.step he
    refine ⟨hdis, ?_, fun d hd h0 => ?_⟩
    · rw [hlisted, h.listed, hs.resolve_left he]
    · rw [hfile] at hd h0
      exact hunl d (h.loaded d hd h0)

theorem Listing.onceEach (h : s.Listing) (hs : s.Spares e) : s.OnceEach e := by
  have hn := (h.step hs).nodup_listed
  refine ⟨hn, fun he hend d hd v hv => count_eq_one_of_mem hn ?_⟩
  subst he
  obtain ⟨-, _, herr⟩ | ⟨d', hd', hread⟩ := s.readdirLocked_cases
  · cases herr.symm.trans hend
  · cases hd.symm.trans hd'
    rw [State.step, hread] at hv ⊢
    rw [hread] at hend
    rw [((h.loadDir hd).readAt hd (update_self _ _ _)).2 (Except.ok.inj hend)]
    exact mem_map_of_mem hv

omit [DecidableEq δ] in
theorem Opened.listing (h : s.Opened) : s.Listing := by
  refine ⟨h.toDistinct, ?_, fun _ _ h0 => absurd h.offset h0⟩
  rw [h.listed, passed, h.offset]
  split <;> rfl

end State

/-- A directory of two entries, named 97 and 98, and a file opened on it. -/
def twoEntries : State Unit where
  children _ := [⟨0, [97], 1, 0o644, 0, 0, 0, 0⟩, ⟨1, [98], 1, 0o644, 0, 0, 0, 0⟩]
  unloaded _ := []
  nextSerial := 2
  file := ⟨true, some (), 0⟩
  listed := []

theorem twoEntries_opened : twoEntries.Opened :=
  ⟨⟨by decide, fun _ _ _ _ _ => rfl, by decide⟩, rfl, rfl⟩

end Bashket.Readdir
