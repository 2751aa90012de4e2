import NetworkEncryptor.Dataplane
import NetworkEncryptor.Xsk

/-!
# NetworkEncryptor.Pipeline

The process as a whole (`src/core/forwarder/forwarder.c`): the two RX threads,
the crypto workers, the TX threads and the kernel, taking steps in any order.

```
RX ring ─ batch ─ local_to_mid[w] ─ worker w ─ mid_to_wan[i][slot]   ─ TX ring
RX ring ─ batch ─ wan_to_mid[w]   ─ worker w ─ mid_to_local[i][slot] ─ TX ring
```

A step is one call of `recv_queue` or `release_rx_queue`, one lookup, one ring
operation, the processing of one packet, or one round of `tx_drain_queue`; the
steps of the kernel are those of its drivers.  A thread remembers between its
steps what the source keeps in its local variables: the batch of an RX thread
and what it looked up for the first packet in it, the packet a worker took.

`nextTag` numbers the received packets and `routed` records what the RX threads
found for each of them; both are history.
-/

namespace NetworkEncryptor

/-! ## the rings by direction -/

/-- The ring from the RX thread of a side to a worker. -/
def Forwarder.toMid (fwd : Forwarder) (dir : NePacketDir) (w : Nat) : NeRing :=
  match dir with
  | .local => fwd.localToMid w
  | .wan => fwd.wanToMid w

def Forwarder.setToMid (fwd : Forwarder) (dir : NePacketDir) (w : Nat) (ring : NeRing) : Forwarder :=
  match dir with
  | .local => { fwd with localToMid := Function.update fwd.localToMid w ring }
  | .wan => { fwd with wanToMid := Function.update fwd.wanToMid w ring }

/-- The ring to a TX slot of an interface. -/
def Forwarder.outRing (fwd : Forwarder) (dir : NePacketDir) (iface slot : Nat) : NeRing :=
  match dir with
  | .local => fwd.midToLocal iface slot
  | .wan => fwd.midToWan iface slot

def Forwarder.setOutRing (fwd : Forwarder) (dir : NePacketDir) (iface slot : Nat) (ring : NeRing) :
    Forwarder :=
  match dir with
  | .local => fwd.setMidToLocal iface slot ring
  | .wan => fwd.setMidToWan iface slot ring

section Rings

variable (fwd : Forwarder) (dir dir' : NePacketDir) (w w' i i' slot slot' : Nat) (ring : NeRing)

theorem Forwarder.toMid_setToMid : (fwd.setToMid dir w ring).toMid dir' w' =
    if dir' = dir ∧ w' = w then ring else fwd.toMid dir' w' := by
  cases dir <;> cases dir' <;>
    simp [Forwarder.toMid, Forwarder.setToMid, Function.update_apply]

@[simp] theorem Forwarder.outRing_setToMid : (fwd.setToMid dir w ring).outRing = fwd.outRing := by
  cases dir <;> rfl

@[simp] theorem Forwarder.pair_setToMid : (fwd.setToMid dir w ring).pair = fwd.pair := by
  cases dir <;> rfl

@[simp] theorem Forwarder.route_setToMid : (fwd.setToMid dir w ring).route = fwd.route := by
  cases dir <;> rfl

theorem Forwarder.outRing_setOutRing : (fwd.setOutRing dir i slot ring).outRing dir' i' slot' =
    if dir' = dir ∧ i' = i ∧ slot' = slot then ring else fwd.outRing dir' i' slot' := by
  cases dir <;> cases dir' <;>
    simp only [Forwarder.outRing, Forwarder.setOutRing, Forwarder.setMidToLocal,
      Forwarder.setMidToWan, Function.update_apply, true_and, reduceCtorEq, false_and, if_false] <;>
    (by_cases hi : i' = i <;> by_cases hs : slot' = slot <;> simp [hi, hs])

@[simp] theorem Forwarder.toMid_setOutRing : (fwd.setOutRing dir i slot ring).toMid = fwd.toMid := by
  cases dir <;> rfl

@[simp] theorem Forwarder.pair_setOutRing : (fwd.setOutRing dir i slot ring).pair = fwd.pair := by
  cases dir <;> rfl

@[simp] theorem Forwarder.route_setOutRing : (fwd.setOutRing dir i slot ring).route = fwd.route := by
  cases dir <;> rfl

end Rings

/-! ## state -/

/-- What an RX thread does with the first packet of its batch. -/
inductive Pick
  | worker (w : Nat)
  | drop
  | direct
  deriving DecidableEq

/-- What an RX thread found for a packet: the flow it was routed by, if it was
parsed, and the worker. -/
structure Routed where
  tag : Nat
  flow : Option Flow
  pick : Pick

/-- The process, its threads and the kernel's side of the sockets. -/
structure System where
  fwd : Forwarder
  ifs : NePacketDir → Ifaces
  queue : NePacketDir → Queues
  batch : NePacketDir → List NePacket
  picked : NePacketDir → Option Pick
  rxSelf : NePacketDir → Worker
  worker : Nat → Worker
  job : Nat → Option (NePacketDir × NePacket)
  txThreads : Nat
  nextTag : Nat
  routed : NePacketDir → List Routed

def System.setPool (s : System) (pool : NePool) : System :=
  { s with fwd := { s.fwd with pair := { s.fwd.pair with pool := pool } } }

def System.setQueue (s : System) (dir : NePacketDir) (k : Nat × Nat) (q : NeXskQueue) : System :=
  { s with queue := Function.update s.queue dir (Function.update (s.queue dir) k q) }

def System.setBatch (s : System) (dir : NePacketDir) (pkts : List NePacket) : System :=
  { s with batch := Function.update s.batch dir pkts }

/-- The RX thread is done with the first packet of its batch. -/
def System.advance (s : System) (dir : NePacketDir) (rest : List NePacket) : System :=
  { s with batch := Function.update s.batch dir rest, picked := Function.update s.picked dir none }

/-! ## start -/

/-- One side's part of `forwarder_active_tx_slots`. -/
def limitTxSlots (ifs : Ifaces) (r : Nat × Bool) : Nat × Bool :=
  (List.range ifs.count).foldl (fun r i =>
    if ifs.live i then (if ifs.queueCount i < r.1 then ifs.queueCount i else r.1, true) else r) r

theorem le_limitTxSlots (ifs : Ifaces) (r : Nat × Bool) (m : Nat) : m ≤ (limitTxSlots ifs r).1 ↔
    m ≤ r.1 ∧ ∀ i < ifs.count, ifs.live i = true → m ≤ ifs.queueCount i := by
  unfold limitTxSlots
  induction ifs.count with
  | zero => simp
  | succ n ih =>
      simp only [List.range_succ, List.foldl_append, List.foldl_cons, List.foldl_nil,
        Nat.forall_lt_succ_right]
      by_cases hlive : ifs.live n = true <;> grind

theorem limitTxSlots_found (ifs : Ifaces) (r : Nat × Bool) : (limitTxSlots ifs r).2 = true ↔
    r.2 = true ∨ ∃ i < ifs.count, ifs.live i = true := by
  unfold limitTxSlots
  induction ifs.count with
  | zero => simp
  | succ n ih =>
      simp only [List.range_succ, List.foldl_append, List.foldl_cons, List.foldl_nil,
        Nat.exists_lt_succ_right]
      by_cases hlive : ifs.live n = true <;> grind

def forwarderActiveTxSlots (ifs : NePacketDir → Ifaces) : Nat :=
  let r := limitTxSlots (ifs .wan) (limitTxSlots (ifs .local) (neTxSlots, false))
  if r.2 ∧ r.1 > 0 then r.1 else 1

/-- The pool `ne_pair_open` fills. -/
def poolOpen (nFrames : Nat) : NePool :=
  (List.range nFrames).foldl (fun p i => poolPush p [i * neFrame]) ⟨[], nFrames, 0⟩

/-- What `forwarder_init` and `forwarder_run` leave, before the fill rings are
filled for the first time. -/
def System.init (nFrames : Nat) (mem : Mem) (crypto : PacketCryptoCtx) (ifs : NePacketDir → Ifaces) :
    System :=
  let active := forwarderActiveTxSlots ifs
  let route := dpRouteSetActiveTxSlots RouteState.init (UInt32.ofNat active)
  let thread : Worker :=
    { tls := RouteTls.init, l2 := L2State.init, cryptoBuf := fun _ => 0, cryptoAux := fun _ => 0 }
  { fwd :=
      { pair := { mem := mem, frameSize := neFrame, pool := poolOpen nFrames,
                  copies := [], taken := [] },
        crypto := crypto, localCount := (ifs .local).count, wanCount := (ifs .wan).count,
        localToMid := fun _ => NeRing.empty, wanToMid := fun _ => NeRing.empty,
        midToWan := fun _ _ => NeRing.empty, midToLocal := fun _ _ => NeRing.empty,
        route := route, tables := fun _ => none, epoch := 0 },
    ifs := ifs, queue := fun _ _ => NeXskQueue.init, batch := fun _ => [], picked := fun _ => none,
    rxSelf := fun _ => thread,
    worker := fun w => { thread with
      tls := dpCryptoWorkerBind route w RouteTls.init
      l2 := l2CryptoBindWorker (UInt8.ofNat w) L2State.init },
    job := fun _ => none, txThreads := active, nextTag := 0, routed := fun _ => [] }

/-! ## steps of the threads -/

/-- Number the packets of a receive. -/
def tagFrom (tag : Nat) : List NePacket → List NePacket
  | [] => []
  | pkt :: pkts => { pkt with tag := tag } :: tagFrom (tag + 1) pkts

/-- `recv_queue`, after `total` packets from other queues. -/
def System.recv (s : System) (dir : NePacketDir) (k : Nat × Nat) (total : Nat) : System :=
  let r := recvQueue { s.queue dir k with rxPending := 0 } (neBatchSize - total) (rxStamp dir k.1)
  { (s.setQueue dir k r.1).setBatch dir (s.batch dir ++ tagFrom s.nextTag r.2) with
    nextTag := s.nextTag + r.2.length }

def System.release (s : System) (dir : NePacketDir) (k : Nat × Nat) : System :=
  let r := releaseRxQueue (s.queue dir k) s.fwd.pair.pool
  (s.setQueue dir k r.1).setPool r.2

def System.refill (s : System) (dir : NePacketDir) (k : Nat × Nat) : System :=
  let r := refillFqQueue (s.queue dir k) s.fwd.pair.pool
  (s.setQueue dir k r.1).setPool r.2

def System.prefill (s : System) (dir : NePacketDir) (k : Nat × Nat) (want : Nat) : System :=
  let r := prefillQueue want want (s.queue dir k) s.fwd.pair.pool
  (s.setQueue dir k r.1).setPool r.2

def System.drainCq (s : System) (dir : NePacketDir) (k : Nat × Nat) : System :=
  let r := drainCqQueue (s.queue dir k) s.fwd.pair.pool
  (s.setQueue dir k r.1).setPool r.2

/-- `ne_packet_data`. -/
def nePacketData (p : NePair) (addr : Nat) : Mem := fun i => p.mem (addr + i)

/-- `dataplane_local_needs_mid` and `dp_crypto_pick_local_worker`. -/
def System.lookupLocal (s : System) (pkt : NePacket) (rest : List NePacket) : System :=
  let data := nePacketData s.fwd.pair pkt.addr
  let r := dpCryptoPickLocalWorker s.fwd.route data pkt.len
  let flow := (dpParseFlow data pkt.len).1
  { s with
    fwd := { s.fwd with route := r.2 }
    batch := Function.update s.batch .local
      ({ pkt with txSlot := r.1.txSlot % 256, flow := flow } :: rest)
    picked := Function.update s.picked .local (some (.worker r.1.workerIdx))
    routed := Function.update s.routed .local
      (s.routed .local ++ [⟨pkt.tag, flow, .worker r.1.workerIdx⟩]) }

/-- `dataplane_wan_needs_mid` and `dp_crypto_pick_wan_worker`. -/
def wanPick (data : Mem) (len : Nat) : Pick :=
  if !cryptoEthL2HasMarker data len then .direct
  else
    match dpCryptoPickWanWorker data len with
    | none => .drop
    | some w => if w ≥ neCryptoWorkers then .drop else .worker w

def System.lookupWan (s : System) (pkt : NePacket) : System :=
  let pick := wanPick (nePacketData s.fwd.pair pkt.addr) pkt.len
  { s with
    picked := Function.update s.picked .wan (some pick)
    routed := Function.update s.routed .wan (s.routed .wan ++ [⟨pkt.tag, none, pick⟩]) }

/-- An RX thread looks up the first packet of its batch. -/
def System.lookup (s : System) (dir : NePacketDir) : System :=
  match s.picked dir, s.batch dir with
  | none, pkt :: rest =>
      match dir with
      | .local => s.lookupLocal pkt rest
      | .wan => s.lookupWan pkt
  | _, _ => s

/-- `dataplane_process_local` and `dataplane_process_wan`. -/
def dataplaneProcess (env : Env) (dir : NePacketDir) (j : Job) : Job :=
  match dir with
  | .local => dataplaneProcessLocal env j
  | .wan => dataplaneProcessWan env j

/-- The packet is handled by the RX thread itself. -/
def System.processDirect (s : System) (env : Env) (dir : NePacketDir) (pkt : NePacket) : System :=
  let slot := dpPickTxSlot s.fwd.route (nePacketData s.fwd.pair pkt.addr) pkt.len
  let self := { s.rxSelf dir with tls := dpOutRingBind s.fwd.route slot (s.rxSelf dir).tls }
  let j := dataplaneProcess env dir ⟨s.fwd, self, pkt⟩
  { s with fwd := j.fwd, rxSelf := Function.update s.rxSelf dir j.self }

def System.freePacket (s : System) (pkt : NePacket) : System :=
  { s with fwd := { s.fwd with pair := (nePacketFree s.fwd.pair pkt).1 } }

/-- An RX thread hands on the first packet of its batch. -/
def System.handOn (s : System) (env : Env) (dir : NePacketDir) : System :=
  match s.picked dir, s.batch dir with
  | some (.worker w), pkt :: rest =>
      match neRingTryPush (s.fwd.toMid dir w) pkt with
      | some ring => { s with fwd := s.fwd.setToMid dir w ring }.advance dir rest
      | none => (s.freePacket pkt).advance dir rest
  | some .drop, pkt :: rest => (s.freePacket pkt).advance dir rest
  | some .direct, pkt :: rest => (s.processDirect env dir pkt).advance dir rest
  | _, _ => s

/-- A crypto worker takes a packet. -/
def System.pop (s : System) (dir : NePacketDir) (w : Nat) : System :=
  match s.job w, neRingTryPop (s.fwd.toMid dir w) with
  | none, some (pkt, ring) =>
      { s with fwd := s.fwd.setToMid dir w ring, job := Function.update s.job w (some (dir, pkt)) }
  | _, _ => s

/-- The worker as it starts on a packet. -/
def System.bound (s : System) (dir : NePacketDir) (w : Nat) (pkt : NePacket) : Worker :=
  match dir with
  | .local =>
      { s.worker w with tls := dpOutRingBind s.fwd.route pkt.txSlot (s.worker w).tls }
  | .wan => s.worker w

/-- A crypto worker processes the packet it has taken. -/
def System.process (s : System) (env : Env) (w : Nat) : System :=
  match s.job w with
  | none => s
  | some (dir, pkt) =>
      let j := dataplaneProcess env dir ⟨s.fwd, s.bound dir w pkt, pkt⟩
      { s with
        fwd := j.fwd
        worker := Function.update s.worker w j.self
        job := Function.update s.job w none }

/-- The worker's sweep of its fragment table. -/
def System.fragGc (s : System) (w : Nat) (now : UInt64) : System :=
  { s with fwd := { s.fwd with tables := l2CryptoFragGc s.fwd.tables w now } }

/-- One round of `tx_drain_queue` by the thread of a TX slot. -/
def System.tx (s : System) (dir : NePacketDir) (iface slot : Nat) : System :=
  if slot < s.txThreads ∧ iface < (s.ifs dir).count ∧ (s.ifs dir).live iface = true then
    match txPrimary slot ((s.ifs dir).queueCount iface) with
    | none => s
    | some q =>
        let r := txRound (s.queue dir (iface, q)) (s.fwd.outRing dir iface slot) s.fwd.pair.pool
          s.fwd.pair.frameSize
        { (s.setQueue dir (iface, q) r.2.1).setPool r.2.2.2 with
          fwd := ((s.setPool r.2.2.2).fwd).setOutRing dir iface slot r.2.2.1 }
  else s

/-! ## steps of the kernel -/

/-- The driver takes a frame from the fill ring. -/
def System.fillTake (s : System) (dir : NePacketDir) (k : Nat × Nat) : System :=
  let q := s.queue dir k
  match q.fq.entries with
  | [] => s
  | a :: rest =>
      s.setQueue dir k { q with fq := { q.fq with entries := rest }, driverRx := q.driverRx ++ [a] }

/-- The driver receives into a frame it holds. -/
def System.receive (s : System) (dir : NePacketDir) (k : Nat × Nat) (d : XdpDesc) : System :=
  let q := s.queue dir k
  s.setQueue dir k { q with
    driverRx := q.driverRx.eraseP fun a => a / neFrame == d.addr / neFrame
    rx := q.rx.publish [d] }

/-- The driver takes a descriptor from the TX ring. -/
def System.txTake (s : System) (dir : NePacketDir) (k : Nat × Nat) : System :=
  let q := s.queue dir k
  match q.tx.entries with
  | [] => s
  | d :: rest =>
      s.setQueue dir k { q with
        tx := { q.tx with entries := rest }, driverTx := q.driverTx ++ [d.addr] }

/-- The driver completes the `n`th of the descriptors it holds. -/
def System.complete (s : System) (dir : NePacketDir) (k : Nat × Nat) (n : Nat) : System :=
  let q := s.queue dir k
  match q.driverTx[n]? with
  | none => s
  | some a => s.setQueue dir k { q with driverTx := q.driverTx.eraseIdx n, cq := q.cq.publish [a] }

/-! ## runs -/

inductive Step
  | prefill (dir : NePacketDir) (k : Nat × Nat) (want : Nat)
  | refill (dir : NePacketDir) (k : Nat × Nat)
  | fillTake (dir : NePacketDir) (k : Nat × Nat)
  | receive (dir : NePacketDir) (k : Nat × Nat) (d : XdpDesc)
  | recv (dir : NePacketDir) (k : Nat × Nat) (total : Nat)
  | release (dir : NePacketDir) (k : Nat × Nat)
  | lookup (dir : NePacketDir)
  | handOn (env : Env) (dir : NePacketDir)
  | pop (dir : NePacketDir) (w : Nat)
  | process (env : Env) (w : Nat)
  | fragGc (w : Nat) (now : UInt64)
  | tx (dir : NePacketDir) (iface slot : Nat)
  | txTake (dir : NePacketDir) (k : Nat × Nat)
  | complete (dir : NePacketDir) (k : Nat × Nat) (n : Nat)
  | drainCq (dir : NePacketDir) (k : Nat × Nat)

def System.step (s : System) : Step → System
  | .prefill dir k want => s.prefill dir k want
  | .refill dir k => s.refill dir k
  | .fillTake dir k => s.fillTake dir k
  | .receive dir k d => s.receive dir k d
  | .recv dir k total => s.recv dir k total
  | .release dir k => s.release dir k
  | .lookup dir => s.lookup dir
  | .handOn env dir => s.handOn env dir
  | .pop dir w => s.pop dir w
  | .process env w => s.process env w
  | .fragGc w now => s.fragGc w now
  | .tx dir iface slot => s.tx dir iface slot
  | .txTake dir k => s.txTake dir k
  | .complete dir k n => s.complete dir k n
  | .drainCq dir k => s.drainCq dir k

end NetworkEncryptor
