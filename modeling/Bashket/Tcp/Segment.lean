import Bashket.Tcp.Ranges

/-!
# Segments and their options

A segment as `tcp_input` sees it once its header has been read (`Segment`), and as `transmit` is
given it (`OutSegment`).  The options stay bytes: `parseOptions` is `tcp_parse_options`, and
`synOptions` and `sackOption` write the options this TCP sends.
-/

namespace Bashket.Tcp

structure Flags where
  fin : Bool
  syn : Bool
  rst : Bool
  psh : Bool
  ack : Bool
deriving DecidableEq, Repr

def Flags.none : Flags := ⟨false, false, false, false, false⟩

structure Segment where
  srcPort : BitVec 16
  dstPort : BitVec 16
  seq : Seq
  ack : Seq
  flags : Flags
  window : BitVec 16
  options : List UInt8
  data : List UInt8
deriving DecidableEq, Repr

/-- A segment handed to the IP layer. -/
structure OutSegment where
  ip : BitVec 32
  localPort : BitVec 16
  remotePort : BitVec 16
  seq : Seq
  ack : Seq
  flags : Flags
  window : BitVec 16
  options : List UInt8
  data : List UInt8
deriving DecidableEq, Repr

/-- Sequence numbers a segment takes: its data, its SYN and its FIN. -/
def OutSegment.seqLen (g : OutSegment) : ℕ :=
  g.data.length + g.flags.syn.toNat + g.flags.fin.toNat

def ourMss : ℕ := 1460

def defaultMss : ℕ := 536

def wscaleOurs : ℕ := 3

def wscaleMax : ℕ := 14

structure Options where
  mss : Option ℕ
  wscale : Option ℕ
  sackPermitted : Bool
  sack : List Range
deriving DecidableEq, Repr

/-- Four bytes of the wire, the highest first. -/
def be32 (a b c d : UInt8) : Seq :=
  BitVec.ofNat 32 (a.toNat * 2 ^ 24 + b.toNat * 2 ^ 16 + c.toNat * 2 ^ 8 + d.toNat)

def parseBlocks : List UInt8 → List Range
  | a :: b :: c :: d :: e :: f :: g :: h :: rest =>
    ⟨be32 a b c d, be32 e f g h⟩ :: parseBlocks rest
  | _ => []

/-- The loop of `tcp_parse_options`; every round takes at least one byte. -/
def parseOptionsLoop : ℕ → List UInt8 → Options → Options
  | 0, _, o => o
  | _ + 1, [], o => o
  | fuel + 1, kind :: rest, o =>
    if kind = 0 then o
    else if kind = 1 then parseOptionsLoop fuel rest o
    else match rest with
      | [] => o
      | optionLen :: body =>
        if optionLen.toNat < 2 ∨ body.length + 2 < optionLen.toNat then o
        else
          let payload := body.take (optionLen.toNat - 2)
          let next := body.drop (optionLen.toNat - 2)
          match kind.toNat, payload with
          | 2, [a, b] => parseOptionsLoop fuel next { o with mss := some (a.toNat * 256 + b.toNat) }
          | 3, [a] => parseOptionsLoop fuel next
              { o with wscale := some (if a.toNat > wscaleMax then wscaleMax else a.toNat) }
          | 4, [] => parseOptionsLoop fuel next { o with sackPermitted := true }
          | 5, payload =>
            -- a SACK option of the wrong length is not believed, nor what follows it
            if payload.length % 8 ≠ 0 ∨ payload.length = 0 ∨ payload.length / 8 > sackBlocksMax then o
            else parseOptionsLoop fuel next { o with sack := parseBlocks payload }
          | _, _ => parseOptionsLoop fuel next o

def parseOptions (options : List UInt8) : Options :=
  parseOptionsLoop options.length options ⟨none, none, false, []⟩

def toBe32 (v : Seq) : List UInt8 :=
  [UInt8.ofNat (v.toNat / 2 ^ 24), UInt8.ofNat (v.toNat / 2 ^ 16), UInt8.ofNat (v.toNat / 2 ^ 8),
    UInt8.ofNat v.toNat]

/-- `syn_options`: our segment size, window scaling if `wscale` is given, SACK-permitted. -/
def synOptions (wscale : Option ℕ) (sack : Bool) : List UInt8 :=
  [2, 4, UInt8.ofNat (ourMss / 256), UInt8.ofNat ourMss] ++
    (match wscale with
      | some shift => [1, 3, 3, UInt8.ofNat shift]
      | none => []) ++
    (if sack then [1, 1, 4, 2] else [])

def sackOption (blocks : List Range) : List UInt8 :=
  [1, 1, 5, UInt8.ofNat (2 + 8 * blocks.length)] ++
    blocks.flatMap fun b => toBe32 b.start ++ toBe32 b.stop

end Bashket.Tcp
