import NetworkEncryptor.Ring

/-!
# NetworkEncryptor.Xsk

`src/core/iface/xdp_interface.c`: the queues of an AF_XDP socket and the code
that moves frames between them, the pool and the packet rings.

A ring shared with the kernel is seen from the program's side.  A consumer
ring has the entries the program knows of (up to its cached producer index) and
those the kernel has published since; it is read again only when the first are
used up, as `xsk_cons_nb_avail` does.  The cached index of a producer ring is
not kept: `xsk_prod_nb_free` reads the real one whenever the answer could
matter.

`driverRx` and `driverTx` are the frames in the hands of the driver: taken from
the fill ring and not received yet, taken from the TX ring and not completed
yet.  `returned` and `sent` are histories: the rejected frames the pool took
back, and the packets whose descriptors were submitted.
-/

namespace NetworkEncryptor

/-! ## rings shared with the kernel -/

/-- `struct xdp_desc`; `contd` is the bit `XDP_PKT_CONTD` of its options. -/
structure XdpDesc where
  addr : Nat
  len : Nat
  contd : Bool
  deriving DecidableEq

/-- `struct xsk_ring_cons`.  The index `cached_cons` is the number of entries
peeked so far; `released` is the index published to the kernel. -/
structure XskRingCons (α : Type) where
  seen : List α
  fresh : List α
  peeked : List α
  released : Nat

/-- Entries the program has not peeked yet. -/
def XskRingCons.waiting {α : Type} (r : XskRingCons α) : List α := r.seen ++ r.fresh

/-- Read the producer index when nothing is left to see. -/
def XskRingCons.refresh {α : Type} (r : XskRingCons α) : XskRingCons α :=
  if r.seen.isEmpty then { r with seen := r.fresh, fresh := [] } else r

def xskRingConsPeek {α : Type} (r : XskRingCons α) (nb : Nat) : List α × XskRingCons α :=
  let r := r.refresh
  let got := r.seen.take nb
  (got, { r with seen := r.seen.drop nb, peeked := r.peeked ++ got })

def xskRingConsRelease {α : Type} (r : XskRingCons α) (nb : Nat) : XskRingCons α :=
  { r with released := r.released + nb }

/-- The kernel publishes entries. -/
def XskRingCons.publish {α : Type} (r : XskRingCons α) (es : List α) : XskRingCons α :=
  { r with fresh := r.fresh ++ es }

/-- `struct xsk_ring_prod`: the entries the kernel has not consumed. -/
structure XskRingProd (α : Type) where
  entries : List α
  size : Nat

def xskProdNbFree {α : Type} (r : XskRingProd α) : Nat := r.size - r.entries.length

/-- `xsk_ring_prod__reserve`: all of them or none. -/
def xskRingProdReserve {α : Type} (r : XskRingProd α) (nb : Nat) : Nat :=
  if xskProdNbFree r < nb then 0 else nb

def xskRingProdSubmit {α : Type} (r : XskRingProd α) (es : List α) : XskRingProd α :=
  { r with entries := r.entries ++ es }

/-- `struct ne_xsk_queue`. -/
structure NeXskQueue where
  rx : XskRingCons XdpDesc
  tx : XskRingProd XdpDesc
  fq : XskRingProd Nat
  cq : XskRingCons Nat
  rxPending : Nat
  rxRejectAddrs : List Nat
  rxChainDropped : Nat
  rxChain : NePacket
  rxChainInvalid : Bool
  driverRx : List Nat
  driverTx : List Nat
  returned : List Nat
  sent : List NePacket

/-- A queue as it is opened. -/
def NeXskQueue.init : NeXskQueue :=
  { rx := ⟨[], [], [], 0⟩, tx := ⟨[], neRingSize⟩, fq := ⟨[], neRingSize⟩, cq := ⟨[], [], [], 0⟩,
    rxPending := 0, rxRejectAddrs := [], rxChainDropped := 0, rxChain := NePacket.zero,
    rxChainInvalid := false, driverRx := [], driverTx := [], returned := [], sent := [] }

/-! ## RX -/

/-- The size of `rx_reject_addrs`. -/
def rxRejectMax : Nat := neBatchSize + nePacketMaxSegs

/-- Remember the frame of a rejected descriptor, as long as there is room. -/
def NeXskQueue.reject (q : NeXskQueue) (addr : Nat) : NeXskQueue :=
  if q.rxRejectAddrs.length < rxRejectMax then
    { q with rxRejectAddrs := q.rxRejectAddrs ++ [addr] }
  else q

/-- The addresses of the first `n` segments. -/
def NePacket.addrs (pkt : NePacket) (n : Nat) : List Nat := (List.range n).map pkt.segAddr

/-- The chain with one more segment. -/
def chainAppend (chain : NePacket) (d : XdpDesc) : NePacket :=
  { packetSetSegAddr chain chain.nsegs d.addr with
    segLen := Function.update chain.segLen chain.nsegs (d.len % 65536)
    segCap := Function.update chain.segCap chain.nsegs (d.len % 65536)
    len := chain.len + d.len
    nsegs := chain.nsegs + 1 }

/-- A descriptor that does not fit the chain, or follows one that did not. -/
def chainRefuses (q : NeXskQueue) (d : XdpDesc) : Bool :=
  q.rxChainInvalid || decide (q.rxChain.nsegs ≥ nePacketMaxSegs) ||
    decide (d.len > neJumboFrameMax) || decide (q.rxChain.len > neJumboFrameMax - d.len)

/-- The first half of the loop body of `recv_queue`: take the descriptor in, or
mark the chain. -/
def recvSeg (q : NeXskQueue) (d : XdpDesc) : NeXskQueue :=
  if chainRefuses q d then { q.reject d.addr with rxChainInvalid := true }
  else { q with rxChain := chainAppend q.rxChain d }

/-- Give up the chain. -/
def rejectChain (q : NeXskQueue) : NeXskQueue :=
  { (q.rxChain.addrs q.rxChain.nsegs).foldl NeXskQueue.reject q with
    rxChainDropped := q.rxChainDropped + 1, rxChain := NePacket.zero, rxChainInvalid := false }

/-- Which interface a queue belongs to, as `recv_queue` stamps it on packets. -/
structure RxStamp where
  dir : NePacketDir
  wanIdx : Nat
  localIdx : Nat

def rxStamp (dir : NePacketDir) (iface : Nat) : RxStamp :=
  match dir with
  | .local => ⟨.local, 0, iface % 256⟩
  | .wan => ⟨.wan, iface % 256, 0⟩

/-- The loop body of `recv_queue`. -/
def recvDesc (stamp : RxStamp) (max : Nat) (r : NeXskQueue × List NePacket) (d : XdpDesc) :
    NeXskQueue × List NePacket :=
  let q := recvSeg r.1 d
  if d.contd then (q, r.2)
  else if q.rxChainInvalid ∨ q.rxChain.nsegs = 0 ∨ r.2.length ≥ max then (rejectChain q, r.2)
  else
    ({ q with rxChain := NePacket.zero },
      r.2 ++ [{ q.rxChain with dir := stamp.dir, wanIdx := stamp.wanIdx,
                               localIdx := stamp.localIdx, txSlot := 0 }])

def recvQueue (q : NeXskQueue) (max : Nat) (stamp : RxStamp) : NeXskQueue × List NePacket :=
  let p := xskRingConsPeek q.rx max
  let r := p.1.foldl (recvDesc stamp max) ({ q with rx := p.2 }, [])
  ({ r.1 with rxPending := p.1.length }, r.2)

def releaseRxQueue (q : NeXskQueue) (pool : NePool) : NeXskQueue × NePool :=
  let q := if q.rxPending ≠ 0 then
      { q with rx := xskRingConsRelease q.rx q.rxPending, rxPending := 0 }
    else q
  if q.rxRejectAddrs.length ≠ 0 then
    let put := min q.rxRejectAddrs.length (pool.cap - pool.frames.length)
    ({ q with rxRejectAddrs := [], returned := q.returned ++ q.rxRejectAddrs.take put },
      poolPush pool q.rxRejectAddrs)
  else (q, pool)

/-- Which queues an RX slot serves. -/
def xskQueueForRxSlot (q rxSlot nq rxSlots : Nat) : Bool :=
  let slots := if nq < rxSlots then (if nq > 0 then nq else 1) else rxSlots
  if rxSlot ≥ slots then false else q % slots == rxSlot

/-! ## fill and completion rings -/

def refillFqQueue (q : NeXskQueue) (pool : NePool) : NeXskQueue × NePool :=
  let freeSlots := xskProdNbFree q.fq
  if freeSlots = 0 then (q, pool)
  else
    let want := if freeSlots > neBatchSize then neBatchSize else freeSlots
    let got := poolPop pool want
    if got.1.length = 0 then (q, got.2)
    else if xskRingProdReserve q.fq got.1.length ≠ got.1.length then (q, poolPush got.2 got.1)
    else ({ q with fq := xskRingProdSubmit q.fq got.1 }, got.2)

/-- `prefill_queue`; the loop ends because every round takes a frame. -/
def prefillQueue : (fuel want : Nat) → NeXskQueue → NePool → NeXskQueue × NePool
  | 0, _, q, pool => (q, pool)
  | fuel + 1, want, q, pool =>
      if want = 0 then (q, pool)
      else
        let got := poolPop pool (min want neBatchSize)
        if got.1.length = 0 then (q, got.2)
        else if xskRingProdReserve q.fq got.1.length ≠ got.1.length then (q, poolPush got.2 got.1)
        else
          prefillQueue fuel (want - got.1.length)
            { q with fq := xskRingProdSubmit q.fq got.1 } got.2

/-- The loop of `drain_cq_queue`. -/
def drainCq : (fuel : Nat) → NeXskQueue → NePool → NeXskQueue × NePool
  | 0, q, pool => (q, pool)
  | fuel + 1, q, pool =>
      let p := xskRingConsPeek q.cq neBatchSize
      if p.1.length = 0 then ({ q with cq := p.2 }, pool)
      else
        let pushed := min p.1.length (pool.cap - pool.frames.length)
        let q := { q with cq := xskRingConsRelease p.2 pushed }
        let pool := poolPush pool p.1
        if pushed < p.1.length ∨ p.1.length < neBatchSize then (q, pool)
        else drainCq fuel q pool

/-- `drain_cq_queue`; every round of the loop but the last takes an entry. -/
def drainCqQueue (q : NeXskQueue) (pool : NePool) : NeXskQueue × NePool :=
  drainCq (q.cq.waiting.length + 1) q pool

/-! ## TX -/

/-- The segments of a packet as the TX path counts them. -/
def NePacket.txSegs (job : NePacket) : Nat := if job.nsegs ≠ 0 then job.nsegs else 1

/-- The descriptors `tx_drain_queue` writes for a packet. -/
def txDescs (job : NePacket) (maxFrame : Nat) : List XdpDesc :=
  (List.range job.txSegs).map fun i =>
    let segLen := if job.txSegs = 1 ∧ job.segLen i = 0 then job.len else job.segLen i
    { addr := job.segAddr i
      len := if segLen > maxFrame then maxFrame else segLen
      contd := decide (i + 1 < job.txSegs) }

/-- One round of the loop of `tx_drain_queue`; `false` ends the loop. -/
def txRound (q : NeXskQueue) (src : NeRing) (pool : NePool) (maxFrame : Nat) :
    Bool × NeXskQueue × NeRing × NePool :=
  if xskProdNbFree q.tx < nePacketMaxSegs then (false, q, src, pool)
  else
    match neRingTryPop src with
    | none => (false, q, src, pool)
    | some (job, src) =>
        if job.txSegs > nePacketMaxSegs ∨ job.len > neJumboFrameMax ∨
            xskRingProdReserve q.tx job.txSegs ≠ job.txSegs then
          (false, q, src, poolPush pool (job.addrs (min job.txSegs nePacketMaxSegs)))
        else
          (true, { q with tx := xskRingProdSubmit q.tx (txDescs job maxFrame),
                          sent := q.sent ++ [job] }, src, pool)

/-- `NE_XSK_COPY_TX_BATCH`. -/
def neXskCopyTxBatch : Nat := 32

/-- The loop of `tx_drain_queue`. -/
def txRounds (maxFrame : Nat) : (fuel : Nat) → NeXskQueue → NeRing → NePool →
    NeXskQueue × NeRing × NePool
  | 0, q, src, pool => (q, src, pool)
  | fuel + 1, q, src, pool =>
      let r := txRound q src pool maxFrame
      if r.1 then txRounds maxFrame fuel r.2.1 r.2.2.1 r.2.2.2 else r.2

def txDrainQueue (q : NeXskQueue) (src : NeRing) (pool : NePool) (maxFrame : Nat) :
    NeXskQueue × NeRing × NePool :=
  txRounds maxFrame neXskCopyTxBatch q src pool

/-- Which queues a TX slot serves. -/
def xskQueueForTxSlot (q txSlot nq : Nat) : Bool :=
  let slots := if nq < neTxSlots then (if nq > 0 then nq else 1) else neTxSlots
  if txSlot ≥ slots then false else q % slots == txSlot

/-- The queue `tx_drain_iface_ring` sends on. -/
def txPrimary (txSlot nq : Nat) : Option Nat :=
  (List.range nq).find? fun q => xskQueueForTxSlot q txSlot nq

/-! ## interfaces -/

/-- The queues of one side, by interface and queue number. -/
abbrev Queues := Nat × Nat → NeXskQueue

/-- One side of `struct ne_pair`: its interfaces and their queues. -/
structure Ifaces where
  count : Nat
  live : Nat → Bool
  queueCount : Nat → Nat

/-- The queues of an RX slot, in the order the loops visit them. -/
def Ifaces.rxQueues (ifs : Ifaces) (rxSlot rxSlots : Nat) : List (Nat × Nat) :=
  (List.range ifs.count).flatMap fun i =>
    ((List.range (ifs.queueCount i)).filter fun q =>
      xskQueueForRxSlot q rxSlot (ifs.queueCount i) rxSlots).map fun q => (i, q)

end NetworkEncryptor
