import NetworkEncryptor.CryptoRoute

/-!
# NetworkEncryptor.Umem

`src/core/iface/xdp_interface.c`: the pool of free UMEM frames, and packets
that are spread over up to four of them.

The pool is the FIFO its ring buffer implements.  A packet keeps its addresses,
lengths and capacities in arrays, and `nsegs = 0` stands for one segment when
the address or the length is not zero; the functions follow the source in this,
because frame 0 has address 0.

Two histories are kept beside the fields of the source: `copies`, what
`ne_packet_write` stored where, and `taken`, the frames it took from the pool
with the number of bytes it still had to place.
-/

namespace NetworkEncryptor

/-! ## the pool -/

/-- `struct ne_pool`.  `refused` counts addresses that found no room. -/
structure NePool where
  frames : List Nat
  cap : Nat
  refused : Nat

def poolPush (p : NePool) (addrs : List Nat) : NePool :=
  let freeSlots := p.cap - p.frames.length
  let put := min addrs.length freeSlots
  { p with frames := p.frames ++ addrs.take put, refused := p.refused + (addrs.length - put) }

def poolPop (p : NePool) (n : Nat) : List Nat × NePool :=
  let got := min n p.frames.length
  (p.frames.take got, { p with frames := p.frames.drop got })

/-- `struct ne_pair`, the part of it packets live in. -/
structure NePair where
  mem : Mem
  frameSize : Nat
  pool : NePool
  copies : List (Nat × Nat)
  taken : List (Nat × Nat)

def neFrameAlloc (p : NePair) : Option (Nat × NePair) :=
  match poolPop p.pool 1 with
  | (addr :: _, pool) => some (addr, { p with pool := pool })
  | ([], _) => none

theorem neFrameAlloc_nil {p : NePair} (h : p.pool.frames = []) : neFrameAlloc p = none := by
  rw [neFrameAlloc, poolPop, h]; rfl

theorem neFrameAlloc_cons {p : NePair} {addr : Nat} {rest : List Nat}
    (h : p.pool.frames = addr :: rest) :
    neFrameAlloc p = some (addr, { p with pool := { p.pool with frames := rest } }) := by
  rw [neFrameAlloc, poolPop, h]
  simp

def neFrameFree (p : NePair) (addr : Nat) : NePair := { p with pool := poolPush p.pool [addr] }

/-! ## packets -/

/-- `enum ne_packet_dir`. -/
inductive NePacketDir
  | local
  | wan
  deriving DecidableEq, Repr

/-- `struct ne_packet`; segment 0 has its address in `addr`, the others theirs
in `seg_addr`.  `tag`, `part` and `flow` are history: which received packet
this one was made from, whether it is the second of two, and the flow it was
routed by. -/
structure NePacket where
  segAddr : Nat → Nat
  len : Nat
  segLen : Nat → Nat
  segCap : Nat → Nat
  dir : NePacketDir
  wanIdx : Nat
  localIdx : Nat
  txSlot : Nat
  nsegs : Nat
  tag : Nat
  part : Nat
  flow : Option Flow

/-- A zeroed packet. -/
def NePacket.zero : NePacket :=
  ⟨fun _ => 0, 0, fun _ => 0, fun _ => 0, .local, 0, 0, 0, 0, 0, 0, none⟩

/-- The history of a packet. -/
def NePacket.history (pkt : NePacket) : Nat × Nat × Option Flow := (pkt.tag, pkt.part, pkt.flow)

/-- `packet_seg_addr(pkt, 0)`. -/
def NePacket.addr (pkt : NePacket) : Nat := pkt.segAddr 0

def packetSetSegAddr (pkt : NePacket) (seg addr : Nat) : NePacket :=
  { pkt with segAddr := Function.update pkt.segAddr seg addr }

/-- The segment count `ne_packet_write` and `ne_packet_free` start from. -/
def NePacket.segCount (pkt : NePacket) : Nat :=
  if pkt.nsegs ≠ 0 then pkt.nsegs else if pkt.addr ≠ 0 ∨ pkt.len ≠ 0 then 1 else 0

/-- The room of a segment. -/
def NePacket.segRoom (pkt : NePacket) (i : Nat) : Nat :=
  if pkt.segCap i ≠ 0 then pkt.segCap i else pkt.segLen i

/-! ## reading a packet -/

/-- The copy loop of `ne_packet_linearize`, `k` segments left from `i` on. -/
def linearizeFrom (p : NePair) (pkt : NePacket) (nsegs : Nat) :
    (k i off : Nat) → Mem → Option Nat × Mem
  | 0, _, off, dst => (some off, dst)
  | k + 1, i, off, dst =>
      let n := if nsegs = 1 ∧ pkt.segLen i = 0 then pkt.len else pkt.segLen i
      if n > pkt.len - off then (none, dst)
      else linearizeFrom p pkt nsegs k (i + 1) (off + n)
        (dst.write off (p.mem.read (pkt.segAddr i) n))

/-- `ne_packet_linearize`: whether it succeeded, and the destination buffer. -/
def nePacketLinearize (p : NePair) (pkt : NePacket) (dst : Mem) (dstSize : Nat) : Bool × Mem :=
  let nsegs := if pkt.nsegs ≠ 0 then pkt.nsegs else 1
  if pkt.len > dstSize then (false, dst)
  else if nsegs > nePacketMaxSegs then (false, dst)
  else
    match linearizeFrom p pkt nsegs nsegs 0 0 dst with
    | (some off, dst) => (off == pkt.len, dst)
    | (none, dst) => (false, dst)

/-! ## writing a packet -/

/-- A packet that is being written: with its pair, the segments it has, and the
room in them. -/
structure Growing where
  pair : NePair
  pkt : NePacket
  nsegs : Nat
  capacity : Nat

/-- One round of the allocation loop of `ne_packet_write`. -/
def Growing.add (g : Growing) (len addr : Nat) (pair : NePair) : Growing :=
  { pair := { pair with taken := pair.taken ++ [(addr, min pair.frameSize (len - g.capacity))] },
    pkt := { packetSetSegAddr g.pkt g.nsegs addr with
      segCap := Function.update g.pkt.segCap g.nsegs pair.frameSize
      segLen := Function.update g.pkt.segLen g.nsegs 0
      nsegs := g.nsegs + 1 },
    nsegs := g.nsegs + 1,
    capacity := g.capacity + pair.frameSize }

/-- The allocation loop; it ends after at most `NE_PACKET_MAX_SEGS` rounds. -/
def packetGrow (len : Nat) : (fuel : Nat) → Growing → Growing
  | 0, g => g
  | fuel + 1, g =>
      if g.capacity < len ∧ g.nsegs < nePacketMaxSegs then
        match neFrameAlloc g.pair with
        | none => g
        | some (addr, pair) => packetGrow len fuel (g.add len addr pair)
      else g

/-- `memcpy` into the UMEM. -/
def NePair.copyIn (p : NePair) (addr : Nat) (bytes : List UInt8) : NePair :=
  { p with mem := p.mem.write addr bytes, copies := p.copies ++ [(addr, bytes.length)] }

/-- The copy loop of `ne_packet_write`, `k` segments left from `i` on: the pair,
the packet and how much was placed. -/
def packetFill (src : Mem) (len : Nat) : (k i off : Nat) → NePair → NePacket →
    NePair × NePacket × Nat
  | 0, _, off, p, pkt => (p, pkt, off)
  | k + 1, i, off, p, pkt =>
      let n := min (len - off) (pkt.segRoom i)
      let p := if n ≠ 0 then p.copyIn (pkt.segAddr i) (src.read off n) else p
      packetFill src len k (i + 1) (off + n) p
        { pkt with segLen := Function.update pkt.segLen i n }

/-- The segments in use: those before the first empty one. -/
def usedSegs (pkt : NePacket) : (k i : Nat) → Nat
  | 0, i => i
  | k + 1, i => if pkt.segLen i ≠ 0 then usedSegs pkt k (i + 1) else i

/-- Free the `k` segments from `i` on. -/
def packetTrim : (k i : Nat) → NePair → NePacket → NePair × NePacket
  | 0, _, p, pkt => (p, pkt)
  | k + 1, i, p, pkt =>
      let p := neFrameFree p (pkt.segAddr i)
      let pkt := packetSetSegAddr pkt i 0
      packetTrim k (i + 1) p { pkt with segCap := Function.update pkt.segCap i 0 }

/-- The capacity of the first `n` segments. -/
def packetCapacity (pkt : NePacket) (n : Nat) : Nat := ((List.range n).map pkt.segRoom).sum

/-- `ne_packet_write`: whether it succeeded, the pair and the packet. -/
def nePacketWrite (p : NePair) (pkt : NePacket) (src : Mem) (len : Nat) : Bool × NePair × NePacket :=
  if len = 0 ∨ len > neJumboFrameMax then (false, p, pkt)
  else
    let nsegs := pkt.segCount
    let g := packetGrow len nePacketMaxSegs ⟨p, pkt, nsegs, packetCapacity pkt nsegs⟩
    if g.capacity < len then (false, g.pair, g.pkt)
    else
      let r := packetFill src len g.nsegs 0 0 g.pair g.pkt
      let used := usedSegs r.2.1 g.nsegs 0
      let t := packetTrim (g.nsegs - used) used r.1 r.2.1
      (r.2.2 == len, t.1, { t.2 with nsegs := used, len := len })

/-- Free the first `k` segments in order. -/
def freeSegs (pkt : NePacket) : (k i : Nat) → NePair → NePair
  | 0, _, p => p
  | k + 1, i, p => freeSegs pkt k (i + 1) (neFrameFree p (pkt.segAddr i))

/-- `ne_packet_free`: the packet is zeroed. -/
def nePacketFree (p : NePair) (pkt : NePacket) : NePair × NePacket :=
  (freeSegs pkt (min pkt.segCount nePacketMaxSegs) 0 p, NePacket.zero)

end NetworkEncryptor
