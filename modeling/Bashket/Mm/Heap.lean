import Mathlib

/-!
# The kernel heap

`kmalloc`, `kfree` and `kheap_check` of `heap.c`. `mem a` is the 64-bit word at the address `a`, a
multiple of 8. A block begins with the words `size` (bit 0 set: free) and `prev_size`; a free block
goes on with its links `next` and `prev`, and the rest of it is poisoned. Callers of `kmalloc` write
words in their payloads; everything else is written by the functions below, word by word as the
source does. The frame allocator is the environment: it says how many pages can be had during a
call.
-/

namespace Bashket.Mm

def kheapStartVirt : ℕ := 0xFFFF900000000000

def kheapInitialSize : ℕ := 1024 * 1024

def kheapMaxAlloc : ℕ := 1 <<< 30

def kheapTrimThreshold : ℕ := 256 * 1024

def kheapTrimKeep : ℕ := 64 * 1024

def pageSize : ℕ := 4096

def header : ℕ := 16

def minBlock : ℕ := 32

def classes : ℕ := 48

def growMin : ℕ := 64 * 1024

/-- A word of eight `POISON` bytes. -/
def poisonWord : ℕ := 0x6b6b6b6b6b6b6b6b

structure Heap where
  mem : ℕ → ℕ
  firstBlock : ℕ
  lastBlock : ℕ
  freeLists : ℕ → ℕ
  heapEndVirt : ℕ
  totalAllocatedBytes : ℕ
  failedAllocations : ℕ
  poisonDamage : ℕ

/-! ### Blocks -/

/-- `size_of`: a block's size without its free bit. -/
def Heap.sizeOf (h : Heap) (b : ℕ) : ℕ := h.mem b / 2 * 2

def Heap.isFree (h : Heap) (b : ℕ) : Bool := h.mem b % 2 = 1

/-- `next_block`: the block after `b` in memory, unless `b` is the last. -/
def Heap.nextBlock (h : Heap) (b : ℕ) : Option ℕ :=
  if b = h.lastBlock then none else some (b + h.sizeOf b)

/-- `prev_block`: the block before `b` in memory, unless `b` is the first. -/
def Heap.prevBlock (h : Heap) (b : ℕ) : Option ℕ :=
  if h.mem (b + 8) = 0 then none else some (b - h.mem (b + 8))

def Heap.set (h : Heap) (a v : ℕ) : Heap := { h with mem := Function.update h.mem a v }

/-- `poison`: fill `[start, start + bytes)`. -/
def Heap.poison (h : Heap) (start bytes : ℕ) : Heap :=
  { h with mem := fun a => if start ≤ a ∧ a < start + bytes then poisonWord else h.mem a }

/-- `first_unpoisoned`: the first word of `[start, start + bytes)` that is not poison. -/
def Heap.firstUnpoisoned (h : Heap) (start bytes : ℕ) : Option ℕ :=
  ((List.range (bytes / 8)).map fun i => start + 8 * i).find? fun a => h.mem a ≠ poisonWord

/-- `class_of`: the position of the highest set bit. -/
def classOf (size : ℕ) : ℕ := if Nat.log2 size < classes then Nat.log2 size else classes - 1

/-- `insert_free`: mark `b` free and put it on its class's list. -/
def Heap.insertFree (h : Heap) (b : ℕ) : Heap :=
  let k := classOf (h.sizeOf b)
  let head := h.freeLists k
  let h := h.set b (h.sizeOf b + 1)
  let h := (h.set (b + 24) 0).set (b + 16) head
  let h := if head ≠ 0 then h.set (head + 24) b else h
  { h with freeLists := Function.update h.freeLists k b }

/-- `unlink_free`: take a free block off its list. -/
def Heap.unlinkFree (h : Heap) (b : ℕ) : Heap :=
  let k := classOf (h.sizeOf b)
  let prev := h.mem (b + 24)
  let next := h.mem (b + 16)
  let h := if prev ≠ 0 then h.set (prev + 16) next
    else { h with freeLists := Function.update h.freeLists k next }
  if next ≠ 0 then h.set (next + 24) prev else h

/-- `update_next_prev_size`: tell the block after `b` its size. -/
def Heap.updateNextPrevSize (h : Heap) (b : ℕ) : Heap :=
  match h.nextBlock b with
  | some n => h.set (n + 8) (h.sizeOf b)
  | none => h

/-- `split`: cut an in-use block down to `need` bytes if what is left over can be a block. -/
def Heap.split (h : Heap) (b need : ℕ) : Heap :=
  let size := h.sizeOf b
  if size < need + minBlock then h
  else
    let rest := b + need
    let h := ((h.set rest (size - need)).set (rest + 8) need).set b need
    let h := if h.lastBlock = b then { h with lastBlock := rest } else h.updateNextPrevSize rest
    h.insertFree rest

/-! ### Pages -/

def pageAlignUp (a : ℕ) : ℕ := (a + pageSize - 1) / pageSize * pageSize

/-- `shrink_heap`: give pages back until the heap ends at `newEnd` or below. -/
def Heap.shrinkHeap (h : Heap) (newEnd : ℕ) : Heap :=
  { h with heapEndVirt := h.heapEndVirt - pageAlignUp (h.heapEndVirt - newEnd) }

/-- `expand_heap`: grow by whole pages, all or nothing. -/
def Heap.expandHeap (h : Heap) (bytes frames : ℕ) : Option Heap :=
  let pageCount := (bytes + pageSize - 1) / pageSize
  if pageCount ≤ frames then some { h with heapEndVirt := h.heapEndVirt + pageCount * pageSize }
  else none

/-- `grow_for`: make room at the end of the heap for a block of `need` bytes. -/
def Heap.growFor (h : Heap) (need frames : ℕ) : Option Heap :=
  let there := if h.isFree h.lastBlock then h.sizeOf h.lastBlock else 0
  let more := if need - there < growMin then growMin else need - there
  let oldEnd := h.heapEndVirt
  match h.expandHeap more frames with
  | none => none
  | some h =>
    let added := h.heapEndVirt - oldEnd
    let h := h.poison oldEnd added
    if h.isFree h.lastBlock then
      let last := h.lastBlock
      let h := h.unlinkFree last
      some ((h.set last (h.sizeOf last + added)).insertFree last)
    else
      let h := (h.set oldEnd added).set (oldEnd + 8) (h.sizeOf h.lastBlock)
      some ({ h with lastBlock := oldEnd }.insertFree oldEnd)

/-! ### The calls -/

/-- `kheap_init`, on memory of unknown contents. -/
def kheapInit (mem : ℕ → ℕ) (frames : ℕ) : Heap :=
  let h : Heap := ⟨mem, 0, 0, fun _ => 0, kheapStartVirt, 0, 0, 0⟩
  match h.expandHeap kheapInitialSize frames with
  | none => h
  | some h =>
    let h := { h with firstBlock := kheapStartVirt, lastBlock := kheapStartVirt }
    let h := (h.set kheapStartVirt (h.heapEndVirt - kheapStartVirt)).set (kheapStartVirt + 8) 0
    let h := h.insertFree kheapStartVirt
    h.poison (kheapStartVirt + minBlock) (h.sizeOf kheapStartVirt - minBlock)

/-- The loop of `take_free` over one list; `none` if it does not end. -/
def Heap.searchList (h : Heap) (need : ℕ) : ℕ → ℕ → Option (Option ℕ)
  | 0, _ => none
  | fuel + 1, b =>
    if b = 0 then some none
    else if h.sizeOf b ≥ need then some (some b)
    else h.searchList need fuel (h.mem (b + 16))

/-- `take_free`: a free block of at least `need` bytes, off its list. -/
def Heap.takeFree (h : Heap) (need : ℕ) : Option (Heap × Option ℕ) :=
  let k := classOf need
  (h.searchList need h.heapEndVirt (h.freeLists k)).map fun found =>
    match found with
    | some b => (h.unlinkFree b, some b)
    | none =>
      match (List.range' (k + 1) (classes - (k + 1))).find? fun j => h.freeLists j ≠ 0 with
      | some j => (h.unlinkFree (h.freeLists j), some (h.freeLists j))
      | none => (h, none)

/-- What a request of `size` bytes needs, header included. -/
def needOf (size : ℕ) : ℕ :=
  let need := (size + 15) / 16 * 16 + header
  if need < minBlock then minBlock else need

/-- `kmalloc` once a block `b` is off its list. -/
def Heap.handOut (h : Heap) (b need : ℕ) : Heap × ℕ :=
  let h := (h.set b (h.sizeOf b)).split b need
  let h := match h.firstUnpoisoned (b + minBlock) (h.sizeOf b - minBlock) with
    | some _ => { h with poisonDamage := h.poisonDamage + 1 }
    | none => h
  ({ h with totalAllocatedBytes := h.totalAllocatedBytes + (h.sizeOf b - header) }, b + header)

/-- The heap after it and the pointer it returns, 0 for none; `none` if it does not return. -/
def Heap.kmalloc (h : Heap) (size frames : ℕ) : Option (Heap × ℕ) :=
  if size = 0 ∨ h.firstBlock = 0 ∨ size > kheapMaxAlloc then some (h, 0)
  else
    match h.takeFree (needOf size) with
    | none => none
    | some (h, some b) => some (h.handOut b (needOf size))
    | some (h, none) =>
      match h.growFor (needOf size) frames with
      | none => some ({ h with failedAllocations := h.failedAllocations + 1 }, 0)
      | some h =>
        (h.takeFree (needOf size)).map fun r =>
          match r with
          | (h, some b) => h.handOut b (needOf size)
          | (h, none) => ({ h with failedAllocations := h.failedAllocations + 1 }, 0)

/-- `kfree` merges the block `b` with the free block after it. -/
def Heap.mergeNext (h : Heap) (b : ℕ) : Heap :=
  match h.nextBlock b with
  | some n =>
    if h.isFree n then
      let h := h.unlinkFree n
      let h := if n = h.lastBlock then { h with lastBlock := b } else h
      (h.set b (h.sizeOf b + h.sizeOf n)).poison n minBlock
    else h
  | none => h

/-- `kfree` merges `b` with the free block before it: the heap, and the block there is then. -/
def Heap.mergePrev (h : Heap) (b : ℕ) : Heap × ℕ :=
  match h.prevBlock b with
  | some p =>
    if h.isFree p then
      let h := h.unlinkFree p
      let h := if b = h.lastBlock then { h with lastBlock := p } else h
      ((h.set p (h.sizeOf p + h.sizeOf b)).poison b minBlock, p)
    else (h, b)
  | none => (h, b)

/-- `kfree` hands back most of a large free block at the end of the heap. -/
def Heap.trim (h : Heap) (b : ℕ) : Heap :=
  if b = h.lastBlock ∧ h.sizeOf b ≥ kheapTrimThreshold then
    let newEnd := pageAlignUp (b + header + kheapTrimKeep)
    let floor := kheapStartVirt + kheapInitialSize
    let newEnd := if newEnd < floor then floor else newEnd
    if newEnd < h.heapEndVirt then
      let h := h.shrinkHeap newEnd
      h.set b (h.heapEndVirt - b)
    else h
  else h

def Heap.kfree (h : Heap) (ptr : ℕ) : Heap :=
  if ptr = 0 then h
  else
    let b := ptr - header
    if h.isFree b then h
    else
      let h := { h with totalAllocatedBytes := h.totalAllocatedBytes - (h.sizeOf b - header) }
      let h := h.poison (b + minBlock) (h.sizeOf b - minBlock)
      let h := h.mergeNext b
      let (h, b) := h.mergePrev b
      let h := (h.set b (h.sizeOf b)).updateNextPrevSize b
      (h.trim b).insertFree b

/-! ### `kheap_check` -/

/-- How many blocks are free and how many bytes are in use, unless something is wrong. -/
def Heap.checkBlocks (h : Heap) : ℕ → ℕ → ℕ → Bool → ℕ → ℕ → Option (ℕ × ℕ)
  | 0, _, _, _, _, _ => none
  | fuel + 1, b, prevSize, prevFree, freeBlocks, inUseBytes =>
    let size := h.sizeOf b
    if size ≥ minBlock ∧ size % 16 = 0 ∧ h.mem (b + 8) = prevSize ∧ b + size ≤ h.heapEndVirt ∧
        ¬(prevFree = true ∧ h.isFree b = true) ∧
        (h.isFree b = true → h.firstUnpoisoned (b + minBlock) (size - minBlock) = none) ∧
        (b = h.lastBlock → b + size = h.heapEndVirt) then
      let freeBlocks := if h.isFree b then freeBlocks + 1 else freeBlocks
      let inUseBytes := if h.isFree b then inUseBytes else inUseBytes + (size - header)
      match h.nextBlock b with
      | some n => h.checkBlocks fuel n size (h.isFree b) freeBlocks inUseBytes
      | none => some (freeBlocks, inUseBytes)
    else none

/-- The loop over the list of class `k`: how many blocks have been on lists so far. -/
def Heap.checkList (h : Heap) (k freeBlocks : ℕ) : ℕ → ℕ → ℕ → ℕ → Option ℕ
  | 0, _, _, _ => none
  | fuel + 1, b, prev, listed =>
    if b = 0 then some listed
    else if h.isFree b ∧ classOf (h.sizeOf b) = k ∧ h.mem (b + 24) = prev ∧ listed + 1 ≤ freeBlocks then
      h.checkList k freeBlocks fuel (h.mem (b + 16)) b (listed + 1)
    else none

def Heap.kheapCheck (h : Heap) : Bool :=
  if h.firstBlock = 0 then false
  else
    match h.checkBlocks h.heapEndVirt h.firstBlock 0 false 0 0 with
    | none => false
    | some (freeBlocks, inUseBytes) =>
      match (List.range classes).foldlM
          (fun listed k => h.checkList k freeBlocks h.heapEndVirt (h.freeLists k) 0 listed) 0 with
      | none => false
      | some listed => listed = freeBlocks ∧ inUseBytes = h.totalAllocatedBytes

attribute [grind =] Heap.poison Heap.set minBlock pageSize

end Bashket.Mm
