import Bashket.Lib.Serial

/-!
# Stretches of sequence numbers

The reassembly list of a receiver and the scoreboard of a sender are both a `tcp_ooo_t`: a list of
at most `oooRanges` stretches `[start, stop)` of sequence numbers, in order and never touching. This
file has the functions of `tcp.c` on such lists.
-/

namespace Bashket.Tcp

open Serial

/-- Sequence numbers: 32 bits, wrapping around. -/
abbrev Seq := BitVec 32

/-- `TCP_OOO_RANGES`: separate stretches kept. -/
def oooRanges : ℕ := 8

/-- `TCP_SACK_BLOCKS_MAX`: blocks in one option. -/
def sackBlocksMax : ℕ := 4

/-- One stretch `[start, stop)` of sequence numbers. -/
structure Range where
  start : Seq
  stop : Seq
deriving DecidableEq, Repr

/-- The new stretch joined with every stretch it touches or overlaps, and the stretches after. -/
def joinRanges : List Range → Seq → Seq → Range × List Range
  | [], start, stop => (⟨start, stop⟩, [])
  | r :: rest, start, stop =>
    if leq r.start stop then
      joinRanges rest (if lt r.start start then r.start else start)
        (if gt r.stop stop then r.stop else stop)
    else (⟨start, stop⟩, r :: rest)

/-- `[start, stop)` has arrived; `none` if there is no room for one more stretch. -/
def oooAdd (q : List Range) (start stop : Seq) : Option (List Range) :=
  let before := q.takeWhile fun r => lt r.stop start
  let joined := joinRanges (q.dropWhile fun r => lt r.stop start) start stop
  if before.length = oooRanges ∨ oooRanges < before.length + 1 + joined.2.length then none
  else some (before ++ joined.1 :: joined.2)

/-- Forget the stretches that `next` reaches, and return the next byte now expected. -/
def oooTake : List Range → Seq → List Range × Seq
  | [], next => ([], next)
  | r :: rest, next =>
    if leq r.start next then oooTake rest (if gt r.stop next then r.stop else next)
    else (r :: rest, next)

/-- The index of the last stretch that contains `recent`, counting from `i`. -/
def recentRange (recent : Seq) : ℕ → List Range → Option ℕ
  | _, [] => none
  | i, r :: rest =>
    match recentRange recent (i + 1) rest with
    | some j => some j
    | none => if !lt recent r.start && lt recent r.stop then some i else none

/-- `tcp_sack_blocks`: the blocks a receiver reports, the stretch with `recent` first. -/
def sackBlocks (held : List Range) (recent : Seq) (max : ℕ) : List Range :=
  match recentRange recent 0 held with
  | none => held.take max
  | some first => (held.drop first).head?.toList.take max ++
      (held.eraseIdx first).take (max - 1)

/-- `tcp_sack_prune`: forget what lies below `una`, cutting a stretch that straddles it. -/
def sackPrune (scoreboard : List Range) (una : Seq) : List Range :=
  scoreboard.filterMap fun r =>
    if !gt r.stop una then none
    else some (if lt r.start una then ⟨una, r.stop⟩ else r)

/-- `tcp_sack_bytes`: bytes the scoreboard holds. -/
def sackBytes (scoreboard : List Range) : Seq :=
  scoreboard.foldl (fun bytes r => bytes + (r.stop - r.start)) 0

/-- `tcp_sack_next_hole`: the first hole at or after `pos`, as its start and length. -/
def sackNextHole : List Range → Seq → Option (Seq × Seq)
  | [], _ => none
  | r :: rest, pos =>
    if !lt pos r.stop then sackNextHole rest pos
    else if lt pos r.start then some (pos, r.start - pos)
    else sackNextHole rest r.stop

/-- The loop of `tcp_sack_hole_bytes`, at most `fuel` rounds of it. -/
def sackHoleBytesLoop (scoreboard : List Range) : ℕ → Seq → Seq → Option Seq
  | 0, _, _ => none
  | fuel + 1, pos, bytes =>
    match sackNextHole scoreboard pos with
    | none => some bytes
    | some (start, len) => sackHoleBytesLoop scoreboard fuel (start + len) (bytes + len)

/-- Every round after the first starts at the start of a stretch, so the loop ends within `length +
2` rounds or goes round for ever (`none`). -/
def sackHoleBytes (scoreboard : List Range) (pos : Seq) : Option Seq :=
  sackHoleBytesLoop scoreboard (scoreboard.length + 2) pos 0

end Bashket.Tcp
