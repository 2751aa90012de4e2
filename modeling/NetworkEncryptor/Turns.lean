import NetworkEncryptor.FlowOrder
import NetworkEncryptor.Threads

/-!
# NetworkEncryptor.Turns

Which of the threads `forwarder_run` starts takes which step of the process, by the slot
it was given: the loops of `local_rx_thread`, `wan_rx_thread`, `tx_thread` and
`crypto_worker_thread` (`forwarder.c`) and the walks over the queues they call
(`xdp_interface.c`).

The rings of a socket have no lock.  A queue has two halves, and each half is one
thread's: the step of any other thread neither reads nor writes it, so that it gives the
same whatever the half holds (`threads_keep_halves`).
-/

namespace NetworkEncryptor

/-! ## the loops -/

/-- `NE_RX_LAN_SLOTS` and `NE_RX_WAN_SLOTS`. -/
def neRxSlots : NePacketDir → Nat
  | .local => neRxLanSlots
  | .wan => neRxWanSlots

/-- The thread of an RX slot of a side. -/
def rxThread (ifs : NePacketDir → Ifaces) (dir : NePacketDir) (rxSlot : Nat) : RxThread :=
  ⟨dir, ifs dir, rxSlot, neRxSlots dir⟩

/-- The queues `ne_drain_cq_local` and `ne_drain_cq_wan` visit. -/
def Ifaces.cqQueues (ifs : Ifaces) (txSlot : Nat) : List (Nat × Nat) :=
  ((List.range ifs.count).filter ifs.live).flatMap fun i =>
    ((List.range (ifs.queueCount i)).filter fun q =>
      xskQueueForTxSlot q txSlot (ifs.queueCount i)).map fun q => (i, q)

/-- The steps in the loops of `local_rx_thread` and `wan_rx_thread`. -/
def RxThread.Takes (t : RxThread) : Step → Prop
  | .refill dir k => dir = t.dir ∧ k ∈ t.polled
  | .recv dir k total => dir = t.dir ∧ k ∈ t.polled ∧ total < neBatchSize
  | .lookup dir => dir = t.dir
  | .handOn _ dir => dir = t.dir
  | .release dir k => dir = t.dir ∧ k ∈ t.owned
  | _ => False

/-- The steps in the loop of `tx_thread`. -/
def TxTakes (ifs : NePacketDir → Ifaces) (txSlot : Nat) : Step → Prop
  | .drainCq dir k => k ∈ (ifs dir).cqQueues txSlot
  | .tx dir iface slot => iface < (ifs dir).count ∧ slot = txSlot
  | _ => False

/-- The steps in the loop of `crypto_worker_thread`. -/
def CryptoTakes (workerIdx : Nat) : Step → Prop
  | .pop _ w => w = workerIdx
  | .process _ w => w = workerIdx
  | .fragGc w _ => w = workerIdx
  | _ => False

/-- The thread takes the step. -/
def ThreadHandle.Takes (ifs : NePacketDir → Ifaces) (h : ThreadHandle) : Step → Prop :=
  match h.group with
  | .localRx => (rxThread ifs .local h.idx).Takes
  | .tx => TxTakes ifs h.idx
  | .crypto => CryptoTakes h.idx
  | .wanRx => (rxThread ifs .wan h.idx).Takes

/-- The group of the RX threads of a side. -/
def rxGroup : NePacketDir → ThreadGroup
  | .local => .localRx
  | .wan => .wanRx

/-- The RX half of the queue is the thread's. -/
def ThreadHandle.OwnsRx (ifs : NePacketDir → Ifaces) (h : ThreadHandle) (dir : NePacketDir)
    (k : Nat × Nat) : Prop :=
  h.group = rxGroup dir ∧ k ∈ (rxThread ifs dir h.idx).owned

/-- The TX half of the queue is the thread's. -/
def ThreadHandle.OwnsTx (ifs : NePacketDir → Ifaces) (h : ThreadHandle) (dir : NePacketDir)
    (k : Nat × Nat) : Prop :=
  h.group = .tx ∧ k ∈ (ifs dir).cqQueues h.idx

/-- The thread of the RX half of a queue. -/
def rxOwner (ifs : NePacketDir → Ifaces) (dir : NePacketDir) (k : Nat × Nat) : ThreadHandle :=
  ⟨rxGroup dir, k.2 % min ((ifs dir).queueCount k.1) (neRxSlots dir)⟩

/-- The thread of the TX half of a queue, if that thread is started. -/
def txOwner (ifs : NePacketDir → Ifaces) (dir : NePacketDir) (k : Nat × Nat) : ThreadHandle :=
  ⟨.tx, k.2 % min ((ifs dir).queueCount k.1) neTxSlots⟩

/-! ## one owner a half -/

theorem Ifaces.mem_rxQueues {ifs : Ifaces} {rxSlot rxSlots : Nat} {k : Nat × Nat} :
    k ∈ ifs.rxQueues rxSlot rxSlots ↔ k.1 < ifs.count ∧ k.2 < ifs.queueCount k.1 ∧
      xskQueueForRxSlot k.2 rxSlot (ifs.queueCount k.1) rxSlots = true := by
  obtain ⟨i, q⟩ := k
  simp only [Ifaces.rxQueues, List.mem_flatMap, List.mem_map, List.mem_filter, List.mem_range,
    Prod.mk.injEq]
  grind

theorem Ifaces.mem_cqQueues {ifs : Ifaces} {txSlot : Nat} {k : Nat × Nat} :
    k ∈ ifs.cqQueues txSlot ↔ (k.1 < ifs.count ∧ ifs.live k.1 = true) ∧ k.2 < ifs.queueCount k.1 ∧
      xskQueueForTxSlot k.2 txSlot (ifs.queueCount k.1) = true := by
  obtain ⟨i, q⟩ := k
  simp only [Ifaces.cqQueues, List.mem_flatMap, List.mem_map, List.mem_filter, List.mem_range,
    Prod.mk.injEq]
  grind

theorem xskQueueForRxSlot_iff {q rxSlot nq rxSlots : Nat} (hnq : 0 < nq) (hslots : 0 < rxSlots) :
    xskQueueForRxSlot q rxSlot nq rxSlots = true ↔ q % min nq rxSlots = rxSlot := by
  have hmin : (if nq < rxSlots then (if nq > 0 then nq else 1) else rxSlots) = min nq rxSlots := by
    split_ifs <;> omega
  have hlt := Nat.mod_lt q (y := min nq rxSlots) (by omega)
  unfold xskQueueForRxSlot
  rw [hmin]
  grind

theorem neRxSlots_pos (dir : NePacketDir) : 0 < neRxSlots dir := by
  cases dir <;> decide

theorem Ifaces.queueCount_le_total {ifs : Ifaces} {i : Nat} (hi : i < ifs.count) :
    ifs.queueCount i ≤ ifs.queueTotal :=
  List.le_sum_of_mem (List.mem_map_of_mem (List.mem_range.mpr hi))

/-- The RX threads of a side that are started. -/
theorem mem_requested_rx {ifs : NePacketDir → Ifaces} {dir : NePacketDir} {h : ThreadHandle}
    (hg : h.group = rxGroup dir) : h ∈ requestedThreads ifs ↔
      h.idx < neRxSlotsForQueues (ifs dir).queueTotal (neRxSlots dir) := by
  cases dir <;>
    simp [requestedThreads, mem_threadHandles, hg, rxGroup, neRxSlots, neRxLanSlotsFor, neRxWanSlotsFor]

/-- The RX half of a queue is one thread's. -/
theorem ownsRx_iff {ifs : NePacketDir → Ifaces} {dir : NePacketDir} {k : Nat × Nat} {h : ThreadHandle}
    (hi : k.1 < (ifs dir).count) (hq : k.2 < (ifs dir).queueCount k.1) :
    h.OwnsRx ifs dir k ↔ h = rxOwner ifs dir k := by
  obtain ⟨group, idx⟩ := h
  rw [ThreadHandle.OwnsRx, RxThread.owned, Ifaces.mem_rxQueues, rxOwner, ThreadHandle.mk.injEq]
  refine and_congr_right fun _ => ?_
  have hslot := @xskQueueForRxSlot_iff k.2 idx ((ifs dir).queueCount k.1) (neRxSlots dir) (by omega)
    (neRxSlots_pos dir)
  constructor
  · rintro ⟨-, -, hs⟩
    exact (hslot.mp hs).symm
  · rintro hidx
    exact ⟨hi, hq, hslot.mpr hidx.symm⟩

/-- And that thread is started. -/
theorem rxOwner_started {ifs : NePacketDir → Ifaces} {dir : NePacketDir} {k : Nat × Nat}
    (hi : k.1 < (ifs dir).count) (hq : k.2 < (ifs dir).queueCount k.1) :
    rxOwner ifs dir k ∈ requestedThreads ifs := by
  have hpos := neRxSlots_pos dir
  have htotal := Ifaces.queueCount_le_total hi
  have hlt := Nat.mod_lt k.2 (y := min ((ifs dir).queueCount k.1) (neRxSlots dir)) (by omega)
  rw [mem_requested_rx rfl, rxOwner, neRxSlotsForQueues]
  dsimp only
  split_ifs <;> omega

/-- No TX half is two threads'. -/
theorem ownsTx_eq {ifs : NePacketDir → Ifaces} {dir : NePacketDir} {k : Nat × Nat} {h : ThreadHandle}
    (ho : h.OwnsTx ifs dir k) : h = txOwner ifs dir k := by
  obtain ⟨group, idx⟩ := h
  obtain ⟨rfl, hk⟩ := ho
  obtain ⟨-, hq, hs⟩ := Ifaces.mem_cqQueues.mp hk
  rw [xskQueueForTxSlot_iff (by omega)] at hs
  rw [txOwner, hs]

/-- The queue a TX thread sends on is its own. -/
theorem txPrimary_owned {ifs : NePacketDir → Ifaces} {dir : NePacketDir} {iface slot q : Nat}
    (hi : iface < (ifs dir).count) (hlive : (ifs dir).live iface = true)
    (hq : txPrimary slot ((ifs dir).queueCount iface) = some q) : (iface, q) ∈ (ifs dir).cqQueues slot := by
  unfold txPrimary at hq
  obtain ⟨hs, hmem, -⟩ := List.find?_range_eq_some.mp hq
  exact Ifaces.mem_cqQueues.mpr ⟨⟨hi, hlive⟩, List.mem_range.mp hmem, hs⟩

/-- A TX thread that is started has a queue to send on, on every live interface. -/
theorem txPrimary_started {ifs : NePacketDir → Ifaces} {dir : NePacketDir} {iface slot : Nat}
    (hstarted : (⟨.tx, slot⟩ : ThreadHandle) ∈ requestedThreads ifs) (hi : iface < (ifs dir).count)
    (hlive : (ifs dir).live iface = true) (hpos : 0 < (ifs dir).queueCount iface) :
    txPrimary slot ((ifs dir).queueCount iface) = some slot := by
  have hslot : slot < forwarderActiveTxSlots ifs := by
    simpa [requestedThreads, mem_threadHandles] using hstarted
  have hle := forwarderActiveTxSlots_le hi hlive hpos
  have hmax := (forwarderActiveTxSlots_bounds ifs).2
  exact txPrimary_of_lt (by omega) (by omega)

/-! ## the halves of a queue -/

/-- What the RX thread and the kernel have of a queue to receive. -/
structure RxHalf where
  rx : XskRingCons XdpDesc
  fq : XskRingProd Nat
  rxPending : Nat
  rxRejectAddrs : List Nat
  rxChainDropped : Nat
  rxChain : NePacket
  rxChainInvalid : Bool
  driverRx : List Nat
  returned : List Nat

/-- What the TX thread and the kernel have of it to send. -/
structure TxHalf where
  tx : XskRingProd XdpDesc
  cq : XskRingCons Nat
  driverTx : List Nat
  sent : List NePacket

def NeXskQueue.withRx (half : RxHalf) (q : NeXskQueue) : NeXskQueue :=
  { q with
    rx := half.rx, fq := half.fq, rxPending := half.rxPending, rxRejectAddrs := half.rxRejectAddrs
    rxChainDropped := half.rxChainDropped, rxChain := half.rxChain, rxChainInvalid := half.rxChainInvalid
    driverRx := half.driverRx, returned := half.returned }

def NeXskQueue.withTx (half : TxHalf) (q : NeXskQueue) : NeXskQueue :=
  { q with tx := half.tx, cq := half.cq, driverTx := half.driverTx, sent := half.sent }

section Halves

variable {q : NeXskQueue} {pool : NePool}

/-- `drain_cq_queue` has no business with the RX half. -/
theorem drainCq_withRx (half : RxHalf) (fuel : Nat) : ∀ (q : NeXskQueue) (pool : NePool),
    drainCq fuel (q.withRx half) pool = ((drainCq fuel q pool).1.withRx half, (drainCq fuel q pool).2) := by
  induction fuel with
  | zero => exact fun _ _ => rfl
  | succ fuel ih =>
      intro q pool
      have hcq : (q.withRx half).cq = q.cq := rfl
      unfold drainCq
      rw [hcq]
      dsimp only
      split
      · rfl
      · split
        · rfl
        · exact ih { q with cq := xskRingConsRelease (xskRingConsPeek q.cq neBatchSize).2 _ } _

theorem drainCqQueue_withRx (half : RxHalf) (q : NeXskQueue) (pool : NePool) :
    drainCqQueue (q.withRx half) pool =
      ((drainCqQueue q pool).1.withRx half, (drainCqQueue q pool).2) :=
  drainCq_withRx half _ q pool

/-- Nor has `tx_drain_queue`. -/
theorem txRound_withRx (half : RxHalf) (q : NeXskQueue) (src : NeRing) (pool : NePool) (maxFrame : Nat) :
    txRound (q.withRx half) src pool maxFrame =
      ((txRound q src pool maxFrame).1, (txRound q src pool maxFrame).2.1.withRx half,
        (txRound q src pool maxFrame).2.2) := by
  have htx : (q.withRx half).tx = q.tx := rfl
  unfold txRound
  rw [htx]
  split
  · rfl
  · cases neRingTryPop src with
    | none => rfl
    | some p =>
        dsimp only
        split <;> rfl

/-- `refill_fq_queue` has no business with the TX half. -/
theorem refillFqQueue_withTx (half : TxHalf) (q : NeXskQueue) (pool : NePool) :
    refillFqQueue (q.withTx half) pool =
      ((refillFqQueue q pool).1.withTx half, (refillFqQueue q pool).2) := by
  have hfq : (q.withTx half).fq = q.fq := rfl
  unfold refillFqQueue
  rw [hfq]
  dsimp only
  split_ifs <;> rfl

theorem releaseRxQueue_withTx (half : TxHalf) (q : NeXskQueue) (pool : NePool) :
    releaseRxQueue (q.withTx half) pool =
      ((releaseRxQueue q pool).1.withTx half, (releaseRxQueue q pool).2) := by
  by_cases hpending : q.rxPending = 0 <;> by_cases hrejects : q.rxRejectAddrs = [] <;>
    simp [releaseRxQueue, NeXskQueue.withTx, hpending, hrejects]

theorem reject_withTx (half : TxHalf) (q : NeXskQueue) (addr : Nat) :
    (q.withTx half).reject addr = (q.reject addr).withTx half := by
  have hrejects : (q.withTx half).rxRejectAddrs = q.rxRejectAddrs := rfl
  unfold NeXskQueue.reject
  rw [hrejects]
  split <;> rfl

theorem foldl_reject_withTx (half : TxHalf) (as : List Nat) : ∀ q : NeXskQueue,
    as.foldl NeXskQueue.reject (q.withTx half) = (as.foldl NeXskQueue.reject q).withTx half := by
  induction as with
  | nil => exact fun _ => rfl
  | cons a as ih =>
      intro q
      rw [List.foldl_cons, reject_withTx, ih]
      rfl

theorem recvSeg_withTx (half : TxHalf) (q : NeXskQueue) (d : XdpDesc) :
    recvSeg (q.withTx half) d = (recvSeg q d).withTx half := by
  have hrefuses : chainRefuses (q.withTx half) d = chainRefuses q d := rfl
  unfold recvSeg
  rw [hrefuses, reject_withTx]
  split <;> rfl

theorem rejectChain_withTx (half : TxHalf) (q : NeXskQueue) :
    rejectChain (q.withTx half) = (rejectChain q).withTx half := by
  have hchain : (q.withTx half).rxChain = q.rxChain := rfl
  unfold rejectChain
  rw [hchain, foldl_reject_withTx]
  rfl

theorem recvDesc_withTx (half : TxHalf) (stamp : RxStamp) (max : Nat) (q : NeXskQueue)
    (out : List NePacket) (d : XdpDesc) : recvDesc stamp max (q.withTx half, out) d =
      ((recvDesc stamp max (q, out) d).1.withTx half, (recvDesc stamp max (q, out) d).2) := by
  unfold recvDesc
  dsimp only
  rw [recvSeg_withTx]
  generalize recvSeg q d = q'
  have hinvalid : (q'.withTx half).rxChainInvalid = q'.rxChainInvalid := rfl
  have hchain : (q'.withTx half).rxChain = q'.rxChain := rfl
  rw [hinvalid, hchain, rejectChain_withTx]
  split
  · rfl
  · split <;> rfl

/-- Nor has `recv_queue`. -/
theorem recvQueue_withTx (half : TxHalf) (q : NeXskQueue) (max : Nat) (stamp : RxStamp) :
    recvQueue (q.withTx half) max stamp =
      ((recvQueue q max stamp).1.withTx half, (recvQueue q max stamp).2) := by
  have hfold : ∀ (ds : List XdpDesc) (q : NeXskQueue) (out : List NePacket),
      ds.foldl (recvDesc stamp max) (q.withTx half, out) =
        ((ds.foldl (recvDesc stamp max) (q, out)).1.withTx half,
          (ds.foldl (recvDesc stamp max) (q, out)).2) := by
    intro ds
    induction ds with
    | nil => exact fun _ _ => rfl
    | cons d ds ih =>
        intro q out
        rw [List.foldl_cons, recvDesc_withTx, ih]
        rfl
  have hrx : (q.withTx half).rx = q.rx := rfl
  unfold recvQueue
  rw [hrx]
  have hpeeked : ({ q.withTx half with rx := (xskRingConsPeek q.rx max).2 } : NeXskQueue) =
      ({ q with rx := (xskRingConsPeek q.rx max).2 } : NeXskQueue).withTx half := rfl
  dsimp only
  rw [hpeeked, hfold]
  rfl

end Halves

/-! ## the halves in the process -/

/-- Put something else into one queue. -/
def System.alter (s : System) (dir : NePacketDir) (k : Nat × Nat) (f : NeXskQueue → NeXskQueue) : System :=
  s.setQueue dir k (f (s.queue dir k))

section Alter

variable {s : System} {dir dir' : NePacketDir} {k k' : Nat × Nat} {f : NeXskQueue → NeXskQueue}

theorem System.queue_alter_of_ne (hne : (dir', k') ≠ (dir, k)) :
    (s.alter dir k f).queue dir' k' = s.queue dir' k' := by
  rw [System.alter, System.queue_setQueue, if_neg]
  exact fun h => hne (Prod.ext h.1 h.2)

theorem System.queue_alter_self : (s.alter dir k f).queue dir k = f (s.queue dir k) := by
  rw [System.alter, System.queue_setQueue, if_pos ⟨rfl, rfl⟩]

/-- The queues after a step on one queue, where another or the same one was altered. -/
theorem setQueue_alter {q q' : NeXskQueue} (h : (dir', k') ≠ (dir, k) ∧ q' = q ∨
    (dir', k') = (dir, k) ∧ q' = f q) :
    (s.alter dir k f).setQueue dir' k' q' = (s.setQueue dir' k' q).alter dir k f := by
  have hqueue : ((s.alter dir k f).setQueue dir' k' q').queue =
      ((s.setQueue dir' k' q).alter dir k f).queue := by
    funext d j
    simp only [System.alter, System.queue_setQueue]
    obtain ⟨hne, rfl⟩ | ⟨heq, rfl⟩ := h
    · grind
    · grind
  calc (s.alter dir k f).setQueue dir' k' q'
      = { s with queue := ((s.alter dir k f).setQueue dir' k' q').queue } := rfl
    _ = { s with queue := ((s.setQueue dir' k' q).alter dir k f).queue } := by rw [hqueue]
    _ = (s.setQueue dir' k' q).alter dir k f := rfl

/-- A step on one queue and the pool. -/
def System.onQueue (s : System) (dir : NePacketDir) (k : Nat × Nat)
    (step : NeXskQueue → NePool → NeXskQueue × NePool) : System :=
  let r := step (s.queue dir k) s.fwd.pair.pool
  (s.setQueue dir k r.1).setPool r.2

theorem onQueue_alter {step : NeXskQueue → NePool → NeXskQueue × NePool}
    (h : (dir', k') ≠ (dir, k) ∨ ∀ q pool, step (f q) pool = (f (step q pool).1, (step q pool).2)) :
    (s.alter dir k f).onQueue dir' k' step = (s.onQueue dir' k' step).alter dir k f := by
  have hpool : (s.alter dir k f).fwd.pair.pool = s.fwd.pair.pool := rfl
  by_cases hk : (dir', k') = (dir, k)
  · obtain hne | hstep := h
    · exact absurd hk hne
    · obtain ⟨rfl, rfl⟩ := Prod.mk.inj hk
      unfold System.onQueue
      dsimp only
      rw [System.queue_alter_self, hpool, hstep, setQueue_alter (Or.inr ⟨rfl, rfl⟩)]
      rfl
  · unfold System.onQueue
    dsimp only
    rw [System.queue_alter_of_ne hk, hpool, setQueue_alter (Or.inl ⟨hk, rfl⟩)]
    rfl

theorem recv_alter {total : Nat} (h : (dir', k') ≠ (dir, k) ∨ ∀ q max stamp,
      recvQueue { f q with rxPending := 0 } max stamp =
        (f (recvQueue { q with rxPending := 0 } max stamp).1,
          (recvQueue { q with rxPending := 0 } max stamp).2)) :
    (s.alter dir k f).recv dir' k' total = (s.recv dir' k' total).alter dir k f := by
  by_cases hk : (dir', k') = (dir, k)
  · obtain hne | hstep := h
    · exact absurd hk hne
    · obtain ⟨rfl, rfl⟩ := Prod.mk.inj hk
      unfold System.recv
      dsimp only
      rw [System.queue_alter_self, hstep, setQueue_alter (Or.inr ⟨rfl, rfl⟩)]
      rfl
  · unfold System.recv
    dsimp only
    rw [System.queue_alter_of_ne hk, setQueue_alter (Or.inl ⟨hk, rfl⟩)]
    rfl

theorem tx_alter {iface slot : Nat}
    (h : (∀ q, txPrimary slot ((s.ifs dir').queueCount iface) = some q → (dir', (iface, q)) ≠ (dir, k)) ∨
      ∀ q src pool maxFrame, txRound (f q) src pool maxFrame =
        ((txRound q src pool maxFrame).1, f (txRound q src pool maxFrame).2.1,
          (txRound q src pool maxFrame).2.2)) :
    (s.alter dir k f).tx dir' iface slot = (s.tx dir' iface slot).alter dir k f := by
  have hifs : (s.alter dir k f).ifs = s.ifs := rfl
  have hthreads : (s.alter dir k f).txThreads = s.txThreads := rfl
  have hfwd : (s.alter dir k f).fwd = s.fwd := rfl
  unfold System.tx
  rw [hifs, hthreads]
  split
  · cases hq : txPrimary slot ((s.ifs dir').queueCount iface) with
    | none => rfl
    | some q =>
        dsimp only
        rw [hfwd]
        by_cases hk : (dir', (iface, q)) = (dir, k)
        · obtain hne | hstep := h
          · exact absurd hk (hne q hq)
          · obtain ⟨rfl, rfl⟩ := Prod.mk.inj hk
            rw [System.queue_alter_self, hstep, setQueue_alter (Or.inr ⟨rfl, rfl⟩)]
            rfl
        · rw [System.queue_alter_of_ne hk, setQueue_alter (Or.inl ⟨hk, rfl⟩)]
          rfl
  · rfl

/-- The steps between the rings of the sockets. -/
theorem lookup_alter : (s.alter dir k f).lookup dir' = (s.lookup dir').alter dir k f := by
  unfold System.lookup
  have hpicked : (s.alter dir k f).picked = s.picked := rfl
  have hbatch : (s.alter dir k f).batch = s.batch := rfl
  rw [hpicked, hbatch]
  split
  · cases dir' <;> rfl
  · rfl

theorem handOn_alter (env : Env) : (s.alter dir k f).handOn env dir' = (s.handOn env dir').alter dir k f := by
  unfold System.handOn
  have hpicked : (s.alter dir k f).picked = s.picked := rfl
  have hbatch : (s.alter dir k f).batch = s.batch := rfl
  have hfwd : (s.alter dir k f).fwd = s.fwd := rfl
  rw [hpicked, hbatch, hfwd]
  split
  · split <;> rfl
  · rfl
  · rfl
  · rfl

theorem pop_alter {w : Nat} : (s.alter dir k f).pop dir' w = (s.pop dir' w).alter dir k f := by
  unfold System.pop
  have hjob : (s.alter dir k f).job = s.job := rfl
  have hfwd : (s.alter dir k f).fwd = s.fwd := rfl
  rw [hjob, hfwd]
  split <;> rfl

theorem process_alter (env : Env) {w : Nat} :
    (s.alter dir k f).process env w = (s.process env w).alter dir k f := by
  unfold System.process
  have hjob : (s.alter dir k f).job = s.job := rfl
  rw [hjob]
  cases s.job w with
  | none => rfl
  | some j => rfl

end Alter

/-! ## the owner of a half is alone with it -/

section Owners

variable {ifs : NePacketDir → Ifaces} {h : ThreadHandle} {dir : NePacketDir} {k : Nat × Nat} {s : System}
  {e : Step}

/-- A thread takes no step on the RX half of a queue that is not its own. -/
theorem rx_ne_of_not_owned {t : RxThread} {d : NePacketDir} {k' : Nat × Nat}
    (ht : t = rxThread ifs d h.idx) (hg : h.group = rxGroup d) (hown : ¬ h.OwnsRx ifs dir k)
    (hmem : k' ∈ t.owned) : (t.dir, k') ≠ (dir, k) := by
  rintro heq
  obtain ⟨hdir, rfl⟩ := Prod.mk.inj heq
  rw [ht] at hdir hmem
  change d = dir at hdir
  subst hdir
  exact hown ⟨hg, hmem⟩

theorem RxThread.owned_of_polled {t : RxThread} (hk : k ∈ t.polled) : k ∈ t.owned :=
  (List.mem_filter.mp hk).1

/-- The step of an RX thread, seen from the RX half of a queue it does not own. -/
theorem RxThread.Takes.keeps_rx {t : RxThread} {d : NePacketDir} (ht : t = rxThread ifs d h.idx)
    (hg : h.group = rxGroup d) (htake : t.Takes e) (hown : ¬ h.OwnsRx ifs dir k) (half : RxHalf) :
    (s.alter dir k (NeXskQueue.withRx half)).step e = (s.step e).alter dir k (NeXskQueue.withRx half) := by
  cases e with
  | refill d' k' =>
      obtain ⟨rfl, hk⟩ := htake
      exact onQueue_alter (Or.inl (rx_ne_of_not_owned ht hg hown (RxThread.owned_of_polled hk)))
  | recv d' k' total =>
      obtain ⟨rfl, hk, -⟩ := htake
      exact recv_alter (Or.inl (rx_ne_of_not_owned ht hg hown (RxThread.owned_of_polled hk)))
  | release d' k' =>
      obtain ⟨rfl, hk⟩ := htake
      exact onQueue_alter (Or.inl (rx_ne_of_not_owned ht hg hown hk))
  | lookup d' => exact lookup_alter
  | handOn env d' => exact handOn_alter env
  | _ => exact htake.elim

/-- The step of an RX thread, seen from the TX half of any queue. -/
theorem RxThread.Takes.keeps_tx {t : RxThread} (htake : t.Takes e) (half : TxHalf) :
    (s.alter dir k (NeXskQueue.withTx half)).step e = (s.step e).alter dir k (NeXskQueue.withTx half) := by
  cases e with
  | refill d' k' => exact onQueue_alter (Or.inr (refillFqQueue_withTx half))
  | recv d' k' total =>
      exact recv_alter (Or.inr fun q => recvQueue_withTx half { q with rxPending := 0 })
  | release d' k' => exact onQueue_alter (Or.inr (releaseRxQueue_withTx half))
  | lookup d' => exact lookup_alter
  | handOn env d' => exact handOn_alter env
  | _ => exact htake.elim

theorem CryptoTakes.keeps {w : Nat} (htake : CryptoTakes w e) (f : NeXskQueue → NeXskQueue) :
    (s.alter dir k f).step e = (s.step e).alter dir k f := by
  cases e with
  | pop d w' => exact pop_alter
  | process env w' => exact process_alter env
  | fragGc w' now => rfl
  | _ => exact htake.elim

/-- The step of a TX thread, seen from the RX half of any queue. -/
theorem TxTakes.keeps_rx {slot : Nat} (htake : TxTakes ifs slot e) (half : RxHalf) :
    (s.alter dir k (NeXskQueue.withRx half)).step e = (s.step e).alter dir k (NeXskQueue.withRx half) := by
  cases e with
  | drainCq d k' => exact onQueue_alter (Or.inr (drainCqQueue_withRx half))
  | tx d iface slot' => exact tx_alter (Or.inr (txRound_withRx half))
  | _ => exact htake.elim

/-- The step of a TX thread, seen from the TX half of a queue it does not own. -/
theorem TxTakes.keeps_tx (hg : h.group = .tx) (htake : TxTakes ifs h.idx e) (hifs : s.ifs = ifs)
    (hown : ¬ h.OwnsTx ifs dir k) (half : TxHalf) :
    (s.alter dir k (NeXskQueue.withTx half)).step e = (s.step e).alter dir k (NeXskQueue.withTx half) := by
  cases e with
  | drainCq d k' =>
      refine onQueue_alter (Or.inl fun heq => ?_)
      obtain ⟨rfl, rfl⟩ := Prod.mk.inj heq
      exact hown ⟨hg, htake⟩
  | tx d iface slot =>
      obtain ⟨hi, rfl⟩ := htake
      subst hifs
      by_cases hlive : (s.ifs d).live iface = true
      · refine tx_alter (Or.inl fun q hq heq => ?_)
        obtain ⟨rfl, rfl⟩ := Prod.mk.inj heq
        exact hown ⟨hg, txPrimary_owned hi hlive hq⟩
      · -- an interface that is not live is passed over
        have hidle : ∀ s' : System, s'.ifs = s.ifs → s'.tx d iface h.idx = s' := by
          intro s' hs'
          unfold System.tx
          rw [hs', if_neg (fun hc => hlive hc.2.2)]
        change (s.alter dir k (NeXskQueue.withTx half)).tx d iface h.idx =
          (s.tx d iface h.idx).alter dir k (NeXskQueue.withTx half)
        rw [hidle s rfl, hidle (s.alter dir k _) rfl]
  | _ => exact htake.elim

/-- No step of a thread reads or writes the RX half of a queue of another. -/
theorem ThreadHandle.Takes.keeps_rx (htake : h.Takes ifs e) (hown : ¬ h.OwnsRx ifs dir k) (half : RxHalf) :
    (s.alter dir k (NeXskQueue.withRx half)).step e = (s.step e).alter dir k (NeXskQueue.withRx half) := by
  unfold ThreadHandle.Takes at htake
  cases hg : h.group <;> rw [hg] at htake
  case localRx => exact htake.keeps_rx rfl hg hown half
  case tx => exact TxTakes.keeps_rx htake half
  case crypto => exact CryptoTakes.keeps htake _
  case wanRx => exact htake.keeps_rx rfl hg hown half

/-- Nor the TX half. -/
theorem ThreadHandle.Takes.keeps_tx (htake : h.Takes ifs e) (hifs : s.ifs = ifs) (hown : ¬ h.OwnsTx ifs dir k)
    (half : TxHalf) :
    (s.alter dir k (NeXskQueue.withTx half)).step e = (s.step e).alter dir k (NeXskQueue.withTx half) := by
  unfold ThreadHandle.Takes at htake
  cases hg : h.group <;> rw [hg] at htake
  case localRx => exact htake.keeps_tx half
  case tx => exact TxTakes.keeps_tx hg htake hifs hown half
  case crypto => exact CryptoTakes.keeps htake _
  case wanRx => exact htake.keeps_tx half

end Owners

/-- All steps are those of started threads other than `h`. -/
def OthersTake (ifs : NePacketDir → Ifaces) (h : ThreadHandle) (es : List Step) : Prop :=
  ∀ e ∈ es, ∃ h' ∈ requestedThreads ifs, h' ≠ h ∧ h'.Takes ifs e

theorem run_keeps_rx {ifs : NePacketDir → Ifaces} {dir : NePacketDir} {k : Nat × Nat} (half : RxHalf)
    (hi : k.1 < (ifs dir).count) (hq : k.2 < (ifs dir).queueCount k.1) {es : List Step} :
    ∀ s : System, OthersTake ifs (rxOwner ifs dir k) es →
      run System.step (s.alter dir k (NeXskQueue.withRx half)) es =
        (run System.step s es).alter dir k (NeXskQueue.withRx half) := by
  induction es with
  | nil => exact fun _ _ => rfl
  | cons e es ih =>
      intro s hothers
      obtain ⟨h, -, hne, htake⟩ := hothers e List.mem_cons_self
      rw [run_cons, htake.keeps_rx (fun ho => hne ((ownsRx_iff hi hq).mp ho)), run_cons]
      exact ih _ fun e' he' => hothers e' (List.mem_cons_of_mem _ he')

theorem run_keeps_tx {ifs : NePacketDir → Ifaces} {dir : NePacketDir} {k : Nat × Nat} (half : TxHalf)
    {es : List Step} : ∀ s : System, s.ifs = ifs → OthersTake ifs (txOwner ifs dir k) es →
      run System.step (s.alter dir k (NeXskQueue.withTx half)) es =
        (run System.step s es).alter dir k (NeXskQueue.withTx half) := by
  induction es with
  | nil => exact fun _ _ _ => rfl
  | cons e es ih =>
      intro s hifs hothers
      obtain ⟨h, -, hne, htake⟩ := hothers e List.mem_cons_self
      rw [run_cons, htake.keeps_tx hifs (fun ho => hne (ownsTx_eq ho)), run_cons]
      exact ih _ ((s.act_ifs (.step e)).trans hifs) fun e' he' => hothers e' (List.mem_cons_of_mem _ he')

/-- The rings of a socket need no lock.  Whatever the other threads that are started do, and
in whatever order, they neither see nor change the half of a queue that is one thread's; a
thread is started for the RX half of every queue, and a TX thread that is started owns, on
every live interface, the queue it sends on. -/
theorem threads_keep_halves {ifs : NePacketDir → Ifaces} {dir : NePacketDir} {k : Nat × Nat}
    (hi : k.1 < (ifs dir).count) (hq : k.2 < (ifs dir).queueCount k.1) :
    rxOwner ifs dir k ∈ requestedThreads ifs ∧
    (∀ (s : System) (es : List Step) (half : RxHalf), OthersTake ifs (rxOwner ifs dir k) es →
      run System.step (s.alter dir k (NeXskQueue.withRx half)) es =
        (run System.step s es).alter dir k (NeXskQueue.withRx half)) ∧
    (∀ (s : System) (es : List Step) (half : TxHalf), s.ifs = ifs → OthersTake ifs (txOwner ifs dir k) es →
      run System.step (s.alter dir k (NeXskQueue.withTx half)) es =
        (run System.step s es).alter dir k (NeXskQueue.withTx half)) ∧
    (∀ slot, (⟨.tx, slot⟩ : ThreadHandle) ∈ requestedThreads ifs → (ifs dir).live k.1 = true →
      ∃ q, txPrimary slot ((ifs dir).queueCount k.1) = some q ∧ txOwner ifs dir (k.1, q) = ⟨.tx, slot⟩) := by
  refine ⟨rxOwner_started hi hq, fun s es half => run_keeps_rx half hi hq s,
    fun s es half => run_keeps_tx half s, fun slot hstarted hlive => ?_⟩
  have hprimary := txPrimary_started hstarted hi hlive (by omega)
  exact ⟨slot, hprimary, (ownsTx_eq ⟨rfl, txPrimary_owned hi hlive hprimary⟩).symm⟩

/-- Two WAN queues and one LAN queue: the TX thread is `tx[0]`, and it does not touch the RX
half of `wan[0].queues[1]`. -/
theorem threads_keep_halves_sample :
    let ifs : NePacketDir → Ifaces := fun dir => ⟨1, fun _ => true, fun _ => if dir = .wan then 2 else 1⟩
    rxOwner ifs .wan (0, 1) ∈ requestedThreads ifs ∧ ∀ (s : System) (half : RxHalf),
      run System.step (s.alter .wan (0, 1) (NeXskQueue.withRx half)) [.drainCq .wan (0, 0), .tx .wan 0 0] =
        (run System.step s [.drainCq .wan (0, 0), .tx .wan 0 0]).alter .wan (0, 1) (NeXskQueue.withRx half) := by
  intro ifs
  have hi : (0 : Nat) < (ifs .wan).count := by decide
  have hq : (1 : Nat) < (ifs .wan).queueCount 0 := by decide
  obtain ⟨hstarted, hkeep, -⟩ := @threads_keep_halves ifs .wan (0, 1) hi hq
  refine ⟨hstarted, fun s half => hkeep s _ half fun e he => ?_⟩
  refine ⟨⟨.tx, 0⟩, by decide, by decide, ?_⟩
  simp only [List.mem_cons, List.not_mem_nil, or_false] at he
  obtain rfl | rfl := he
  · exact (by decide : ((0, 0) : Nat × Nat) ∈ (ifs .wan).cqQueues 0)
  · exact ⟨by decide, rfl⟩

end NetworkEncryptor
