import Bashket.Lib.Run
import Bashket.Lib.Tiles

/-!
# Fragments of IPv4 datagrams

How `ipv4_send_parts` of `net/net.c` cuts a datagram into fragments, how `ipv4_input` reads a
fragment's place from its header, and the reassembly of `net/ipfrag.c`: a table of datagrams in
progress, each with its pieces in order of offset. What a call of `kmalloc` gives is part of the
event. Offsets are added as `size_t`, and those of pieces as `uint32_t`; the counters of bytes,
which cannot overflow, are natural numbers.
-/

namespace Bashket.Net

open Function (update)

def ipv4PayloadMax : ℕ := 65515

abbrev ipfragSlots : ℕ := 8

def ipfragMemory : ℕ := 256 * 1024

def ipfragPieceOverhead : ℕ := 32

def ipfragTimeoutTicks : ℕ := 30 * 100

structure Header where
  totalLength : ℕ
  id : UInt16
  flagsFragment : ℕ
  protocol : UInt8
  src : UInt32
  dst : UInt32
  deriving DecidableEq

/-- A packet: a header and what follows it. -/
structure Packet where
  header : Header
  payload : List UInt8
  deriving DecidableEq

structure Key where
  src : UInt32
  dst : UInt32
  protocol : UInt8
  id : UInt16
  deriving DecidableEq

/-- The arguments of `ipfrag_input`, without the time. -/
structure Fragment where
  key : Key
  offset : ℕ
  more : Bool
  header : Header
  data : List UInt8
  deriving DecidableEq

def Fragment.len (f : Fragment) : ℕ := f.data.length

/-! ### Sending -/

/-- `per_fragment`: the largest multiple of 8 that fits after the header. -/
def perFragment : ℕ := (1500 - 20) / 8 * 8

def share (head body : List UInt8) (offset n : ℕ) : List UInt8 :=
  let fromHead := min (if offset < head.length then head.length - offset else 0) n
  (head.drop offset).take fromHead ++
    (body.drop (offset + fromHead - head.length)).take (n - fromHead)

def sendLoop (key : Key) (head body : List UInt8) : ℕ → ℕ → List Packet
  | 0, _ => []
  | fuel + 1, offset =>
    let len := head.length + body.length
    let n := if len - offset < perFragment then len - offset else perFragment
    let more := offset + n < len
    let packet : Packet :=
      { header :=
          { totalLength := (20 + n) % 2 ^ 16
            id := key.id
            flagsFragment :=
              if 1500 - 20 < len then (if more then 0x2000 else 0) ||| (offset / 8) % 2 ^ 16
              else 0x4000
            protocol := key.protocol
            src := key.src
            dst := key.dst }
        payload := share head body offset n }
    packet :: if offset + n < len then sendLoop key head body fuel (offset + n) else []

/-- `ipv4_send_parts`: the packets, or nothing if the datagram is too long. -/
def ipv4SendParts (key : Key) (head body : List UInt8) : Option (List Packet) :=
  let len := head.length + body.length
  if ipv4PayloadMax < len then none else some (sendLoop key head body (len + 1) 0)

/-- Hand its payload on, or to reassembly. -/
def ipv4Input (p : Packet) : List UInt8 ⊕ Fragment :=
  let payload := p.payload.take (p.header.totalLength - 20)
  let more := p.header.flagsFragment &&& 0x2000 ≠ 0
  let offset := (p.header.flagsFragment &&& 0x1FFF) * 8
  if ¬more ∧ offset = 0 then .inl payload
  else
    .inr
      { key := ⟨p.header.src, p.header.dst, p.header.protocol, p.header.id⟩
        offset := offset
        more := more
        header := p.header
        data := payload }

/-! ### Reassembly -/

structure Piece where
  offset : ℕ
  data : List UInt8
  deriving DecidableEq

namespace Piece

def len (p : Piece) : ℕ := p.data.length

def stop (p : Piece) : ℕ := (p.offset + p.len) % 2 ^ 32

end Piece

structure Reassembly where
  key : Key
  pieces : List Piece
  received : ℕ
  total : ℕ
  cost : ℕ
  deadline : ℕ
  /-- The first fragment's header and first bytes, once it has come. -/
  quote : Option (Header × List UInt8)
  deriving DecidableEq

structure Stats where
  fragments : ℕ
  reassembled : ℕ
  duplicates : ℕ
  refused : ℕ
  timeouts : ℕ
  evicted : ℕ
  deriving DecidableEq

structure State where
  slots : Fin ipfragSlots → Option Reassembly
  memoryUsed : ℕ
  timeoutTicks : ℕ
  stats : Stats

/-- What the calls of `kmalloc` give: a piece, and a buffer with what is in it. -/
structure Kmalloc where
  piece : Bool
  whole : Option Bytes.Memory

namespace Fragment

/-- Not a multiple of 8 bytes with more to come, or beyond the end of the longest datagram. -/
def malformed (f : Fragment) : Bool :=
  f.more && (f.len = 0 || f.len % 8 ≠ 0) || ipv4PayloadMax < (f.offset + f.len) % 2 ^ 64

def stop (f : Fragment) : ℕ := (f.offset + f.len) % 2 ^ 64

def cost (f : Fragment) : ℕ := ipfragPieceOverhead + f.len

def piece (f : Fragment) : Piece := ⟨f.offset % 2 ^ 32, f.data⟩

end Fragment

namespace Reassembly

variable (r : Reassembly) (f : Fragment)

def before : List Piece := r.pieces.takeWhile fun p => p.offset < f.offset

def after : List Piece := r.pieces.dropWhile fun p => p.offset < f.offset

def duplicate : Bool :=
  match (r.after f).head? with
  | some next => next.offset = f.offset && next.len = f.len && (f.more || r.total = f.stop)
  | none => false

def overlaps : Bool :=
  (match (r.before f).getLast? with
    | some prev => f.offset < prev.stop
    | none => false) ||
  match (r.after f).head? with
  | some next => next.offset < f.stop
  | none => false

/-- It lies beyond the end of the datagram, or says otherwise where the end is. -/
def contradicts : Bool :=
  (r.total ≠ 0 && r.total < f.stop) || (!f.more && r.total ≠ 0 && f.stop ≠ r.total) ||
    (!f.more && r.total = 0 && (r.after f).any fun p => f.stop < p.stop)

def keep : Reassembly :=
  { r with
    pieces := r.before f ++ f.piece :: r.after f
    received := r.received + f.len
    cost := r.cost + f.cost
    quote := if f.offset = 0 then some (f.header, f.data.take 8) else r.quote
    total := if f.more then r.total else f.stop }

def complete : Bool := r.total ≠ 0 && r.received = r.total

end Reassembly

/-- `assemble`: copy the pieces into a buffer. -/
def assemble (pieces : List Piece) (total : ℕ) (whole : Bytes.Memory) : List UInt8 :=
  Bytes.slice (Tiles.copyAll Piece.offset Piece.data whole pieces) 0 total

namespace State

def release (s : State) (i : Fin ipfragSlots) : State :=
  match s.slots i with
  | none => s
  | some r => { s with slots := update s.slots i none, memoryUsed := s.memoryUsed - r.cost }

def count (s : State) (f : Stats → Stats) : State := { s with stats := f s.stats }

def evict (s : State) (i : Fin ipfragSlots) : State :=
  (s.release i).count fun c => { c with evicted := c.evicted + 1 }

def oldestExcept (s : State) (keep : Option (Fin ipfragSlots)) : Option (Fin ipfragSlots) :=
  ((List.finRange ipfragSlots).foldl (fun oldest i =>
    match s.slots i with
    | none => oldest
    | some r =>
      if some i = keep then oldest
      else
        match oldest with
        | none => some (i, r.deadline)
        | some (j, deadline) => if r.deadline < deadline then some (i, r.deadline) else some (j, deadline))
    none).map Prod.fst

theorem oldestExcept_spec (s : State) (keep : Option (Fin ipfragSlots)) :
    (∀ i ∈ s.oldestExcept keep, s.slots i ≠ none ∧ some i ≠ keep) ∧
    (s.oldestExcept keep = none → ∀ i, s.slots i ≠ none → some i = keep) := by
  -- the invariant of the loop, over the slots looked at so far
  have hloop (l : List (Fin ipfragSlots)) : ∀ oldest : Option (Fin ipfragSlots × ℕ),
      (∀ x ∈ oldest, s.slots x.1 ≠ none ∧ some x.1 ≠ keep) →
      let result := l.foldl (fun oldest i =>
        match s.slots i with
        | none => oldest
        | some r =>
          if some i = keep then oldest
          else
            match oldest with
            | none => some (i, r.deadline)
            | some (j, deadline) =>
              if r.deadline < deadline then some (i, r.deadline) else some (j, deadline)) oldest
      (∀ x ∈ result, s.slots x.1 ≠ none ∧ some x.1 ≠ keep) ∧
      (result = none → oldest = none ∧ ∀ i ∈ l, s.slots i ≠ none → some i = keep) := by
    induction l with
    | nil => exact fun oldest h0 => ⟨h0, fun h1 => ⟨h1, fun i hi => by cases hi⟩⟩
    | cons i l ih =>
      intro oldest h0
      simp only [List.foldl_cons]
      cases hs : s.slots i with
      | none =>
        obtain ⟨h1, h2⟩ := ih oldest h0
        refine ⟨h1, fun h3 => ⟨(h2 h3).1, fun j hj hne => ?_⟩⟩
        rcases List.mem_cons.1 hj with rfl | hj
        · exact absurd hs hne
        · exact (h2 h3).2 j hj hne
      | some r =>
        simp only
        by_cases hk : some i = keep
        · rw [if_pos hk]
          obtain ⟨h1, h2⟩ := ih oldest h0
          refine ⟨h1, fun h3 => ⟨(h2 h3).1, fun j hj hne => ?_⟩⟩
          rcases List.mem_cons.1 hj with rfl | hj
          · exact hk
          · exact (h2 h3).2 j hj hne
        · rw [if_neg hk]
          have hi : s.slots i ≠ none ∧ some i ≠ keep := ⟨by rw [hs]; nofun, hk⟩
          cases oldest with
          | none =>
            obtain ⟨h1, h2⟩ := ih (some (i, r.deadline)) (fun x hx => by
              cases hx
              exact hi)
            exact ⟨h1, fun h3 => nomatch (h2 h3).1⟩
          | some x =>
            obtain ⟨j, deadline⟩ := x
            simp only
            split_ifs
            · obtain ⟨h1, h2⟩ := ih (some (i, r.deadline)) (fun x hx => by
                cases hx
                exact hi)
              exact ⟨h1, fun h3 => nomatch (h2 h3).1⟩
            · obtain ⟨h1, h2⟩ := ih (some (j, deadline)) h0
              exact ⟨h1, fun h3 => nomatch (h2 h3).1⟩
  obtain ⟨h1, h2⟩ := hloop (List.finRange ipfragSlots) none (fun _ h0 => nomatch h0)
  constructor
  · intro i hi
    obtain ⟨x, hx, rfl⟩ := Option.map_eq_some_iff.1 (Option.mem_def.1 hi)
    exact h1 x hx
  · intro hn i
    exact (h2 (Option.map_eq_none_iff.1 hn)).2 i (List.mem_finRange i)

def find (s : State) (k : Key) : Option (Fin ipfragSlots) :=
  (List.finRange ipfragSlots).find? fun i => (s.slots i).any fun r => r.key = k

/-- A slot for a new datagram: a free one, or that of the oldest, which is given up. -/
def freeSlot (s : State) : State × Fin ipfragSlots :=
  match (List.finRange ipfragSlots).find? fun i => (s.slots i).isNone with
  | some i => (s, i)
  | none =>
    match s.oldestExcept none with
    | some i => (s.evict i, i)
    | none => (s, 0)

/-- The datagram the fragment belongs to, a new one if there is none. -/
def slotFor (s : State) (k : Key) (now : ℕ) : State × Fin ipfragSlots × Reassembly × Bool :=
  match s.find k with
  | some i =>
    match s.slots i with
    | some r => (s, i, r, false)
    | none => (s, i, ⟨k, [], 0, 0, 0, 0, none⟩, false)
  | none =>
    let (s, i) := s.freeSlot
    let r : Reassembly := ⟨k, [], 0, 0, 0, (now + s.timeoutTicks) % 2 ^ 64, none⟩
    ({ s with slots := update s.slots i (some r) }, i, r, true)

/-- The loop that gives up other datagrams until there is room for `cost` more. -/
def makeRoom (i : Fin ipfragSlots) (cost : ℕ) : ℕ → State → State × Bool
  | 0, s => (s, s.memoryUsed + cost ≤ ipfragMemory)
  | fuel + 1, s =>
    if s.memoryUsed + cost ≤ ipfragMemory then (s, true)
    else
      match s.oldestExcept (some i) with
      | none => (s, false)
      | some victim => makeRoom i cost fuel (s.evict victim)

/-- Ignore it, give the datagram up, or keep the piece; the result is the datagram, if complete. -/
def place (s : State) (i : Fin ipfragSlots) (r : Reassembly) (f : Fragment) :
    State × Option Reassembly :=
  if r.duplicate f then (s.count fun c => { c with duplicates := c.duplicates + 1 }, none)
  else if r.overlaps f || r.contradicts f then
    ((s.release i).count fun c => { c with refused := c.refused + 1 }, none)
  else
    match makeRoom i f.cost ipfragSlots s with
    | (s, false) => ((s.release i).count fun c => { c with refused := c.refused + 1 }, none)
    | (s, true) =>
      let r := r.keep f
      if r.complete then
        ({ s with
            slots := update s.slots i none
            memoryUsed := s.memoryUsed + f.cost - r.cost }, some r)
      else
        ({ s with slots := update s.slots i (some r), memoryUsed := s.memoryUsed + f.cost }, none)

/-- The end of `ipfrag_input`, after the lock: a complete datagram is put together. -/
def finish (s : State) (k : Kmalloc) : Option Reassembly → State × Option (List UInt8)
  | none => (s, none)
  | some r =>
    match k.whole with
    | none => (s.count fun c => { c with refused := c.refused + 1 }, none)
    | some whole =>
      (s.count fun c => { c with reassembled := c.reassembled + 1 },
        some (assemble r.pieces r.total whole))

/-- The whole datagram, if this was the last piece missing, and whether the fragment began a
datagram. -/
def ipfragInput (s : State) (k : Kmalloc) (f : Fragment) (now : ℕ) :
    State × Option (List UInt8) × Bool :=
  let s := s.count fun c => { c with fragments := c.fragments + 1 }
  if f.malformed then
    let s := s.count fun c => { c with refused := c.refused + 1 }
    match s.find f.key with
    | some i => (s.release i, none, false)
    | none => (s, none, false)
  else if k.piece = false then (s, none, false)
  else
    let (s, i, r, started) := s.slotFor f.key now
    let (s, complete) := s.place i r f
    let (s, whole) := s.finish k complete
    (s, whole, started)

/-- The quotes to report and the next deadline. -/
def expireLoop (now : ℕ) : List (Fin ipfragSlots) → State × List (Header × List UInt8) × ℕ →
    State × List (Header × List UInt8) × ℕ
  | [], x => x
  | i :: rest, (s, quotes, next) =>
    match s.slots i with
    | none => expireLoop now rest (s, quotes, next)
    | some r =>
      if r.deadline ≤ now then
        expireLoop now rest
          ((s.release i).count fun c => { c with timeouts := c.timeouts + 1 },
            quotes ++ r.quote.toList, next)
      else
        expireLoop now rest
          (s, quotes, if next = 0 ∨ r.deadline < next then r.deadline else next)

def ipfragExpire (s : State) (now : ℕ) : State × List (Header × List UInt8) × ℕ :=
  expireLoop now (List.finRange ipfragSlots) (s, [], 0)

def init : State where
  slots _ := none
  memoryUsed := 0
  timeoutTicks := ipfragTimeoutTicks
  stats := ⟨0, 0, 0, 0, 0, 0⟩

end State

inductive Call where
  | input (k : Kmalloc) (f : Fragment) (now : ℕ)
  | expire (now : ℕ)

def State.step (s : State) : Call → State
  | .input k f now => (s.ipfragInput k f now).1
  | .expire now => (s.ipfragExpire now).1

def State.output (s : State) : Call → Option (List UInt8)
  | .input k f now => (s.ipfragInput k f now).2.1
  | .expire _ => none

def arrived (calls : List Call) : List Fragment :=
  calls.filterMap fun
    | .input _ f _ => some f
    | .expire _ => none

end Bashket.Net
