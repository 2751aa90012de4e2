import NetworkEncryptor.PacketSpec
import NetworkEncryptor.RxLoop

/-!
# NetworkEncryptor.SegmentBudget

Four segments are enough for a jumbo frame (`ne_packet_write` and `recv_queue` of
`src/core/iface/xdp_interface.c`).

A received segment has the capacity of what it received, and only the missing
segments can be taken from the pool.  The kernel fills every descriptor of a chain
but the last one, so a packet of `k` segments has room for `3840 (k - 1) + 1` bytes
at least, and for `4096 (4 - k)` more.
-/

namespace NetworkEncryptor

/-! ## a queue over its life -/

/-- What happens to the RX side of a queue: the kernel publishes descriptors, the
program receives and releases. -/
inductive RxOp
  | publish (ds : List XdpDesc)
  | recv (max : Nat) (stamp : RxStamp)
  | release (pool : NePool)

/-- The queue, and the packets `recv_queue` has emitted. -/
structure RxHistory where
  queue : NeXskQueue
  emitted : List NePacket

def RxHistory.init : RxHistory := ⟨NeXskQueue.init, []⟩

def rxOpStep (s : RxHistory) : RxOp → RxHistory
  | .publish ds => { s with queue := { s.queue with rx := s.queue.rx.publish ds } }
  | .recv max stamp =>
      let r := recvQueue { s.queue with rxPending := 0 } max stamp
      ⟨r.1, s.emitted ++ r.2⟩
  | .release pool => { s with queue := (releaseRxQueue s.queue pool).1 }

/-- What a chunk holds behind its headroom of 256 bytes. -/
def chunkData : Nat := neFrame - 256

/-- A descriptor as the kernel fills it: completely unless it is the last of its
chain, and with something at least. -/
def FilledDesc (d : XdpDesc) : Prop := if d.contd then d.len = chunkData else 1 ≤ d.len

/-- A packet of up to four segments that are full but for the last. -/
structure Budgeted (pkt : NePacket) : Prop where
  segs : 1 ≤ pkt.nsegs ∧ pkt.nsegs ≤ nePacketMaxSegs
  full : ∀ i, i + 1 < pkt.nsegs → pkt.segCap i = chunkData
  last : 1 ≤ pkt.segCap (pkt.nsegs - 1)

/-! ## what is emitted -/

/-- The chain that is being put together has full segments only. -/
structure FullChain (q : NeXskQueue) : Prop where
  segs : q.rxChain.nsegs ≤ nePacketMaxSegs
  full : ∀ i < q.rxChain.nsegs, q.rxChain.segCap i = chunkData

theorem fullChain_zero {q : NeXskQueue} (h : q.rxChain = NePacket.zero) : FullChain q := by
  refine ⟨?_, fun i hi => ?_⟩
  · rw [h]; exact Nat.zero_le _
  · rw [h] at hi; exact absurd hi (Nat.not_lt_zero i)

@[simp] theorem reject_rxChain (q : NeXskQueue) (a : Nat) : (q.reject a).rxChain = q.rxChain := by
  unfold NeXskQueue.reject
  split <;> rfl

/-- A descriptor is refused, or it is the next segment. -/
theorem recvSeg_cases (q : NeXskQueue) (d : XdpDesc) :
    ((recvSeg q d).rxChainInvalid = true ∧ (recvSeg q d).rxChain = q.rxChain) ∨
    (q.rxChain.nsegs < nePacketMaxSegs ∧ d.len ≤ neJumboFrameMax ∧
      (recvSeg q d).rxChain = chainAppend q.rxChain d) := by
  unfold recvSeg
  by_cases hr : chainRefuses q d = true
  · rw [if_pos hr]
    exact .inl ⟨rfl, reject_rxChain q d.addr⟩
  · rw [if_neg hr]
    simp only [chainRefuses, Bool.or_eq_true, decide_eq_true_eq, not_or, not_le, not_lt] at hr
    exact .inr ⟨hr.1.1.2, hr.1.2, rfl⟩

theorem chainAppend_segCap (chain : NePacket) (d : XdpDesc) (i : Nat) : (chainAppend chain d).segCap i =
    if i = chain.nsegs then d.len % 65536 else chain.segCap i := by
  simp [chainAppend, Function.update_apply]

/-- The loop body keeps the chain full, and what it emits is within the budget. -/
theorem recvDesc_budgeted {q : NeXskQueue} {out : List NePacket} {stamp : RxStamp} {max : Nat} {d : XdpDesc}
    (hq : FullChain q) (hd : FilledDesc d) (hout : ∀ pkt ∈ out, Budgeted pkt) :
    FullChain (recvDesc stamp max (q, out) d).1 ∧ ∀ pkt ∈ (recvDesc stamp max (q, out) d).2, Budgeted pkt := by
  unfold FilledDesc at hd
  simp only [recvDesc]
  rcases recvSeg_cases q d with ⟨hinv, hchain⟩ | ⟨hlt, hle, hchain⟩
  · cases hc : d.contd with
    | true =>
        refine ⟨⟨?_, ?_⟩, by simpa using hout⟩
        · simpa [hchain] using hq.segs
        · simpa [hchain] using hq.full
    | false =>
        simp only [hinv, true_or, if_true, Bool.false_eq_true, if_false]
        exact ⟨fullChain_zero rfl, hout⟩
  · have hn : (recvSeg q d).rxChain.nsegs = q.rxChain.nsegs + 1 := by rw [hchain]; rfl
    have hcap := chainAppend_segCap q.rxChain d
    rw [← hchain] at hcap
    cases hc : d.contd with
    | true =>
        rw [hc, if_pos rfl] at hd
        refine ⟨⟨?_, fun i hi => ?_⟩, by simpa using hout⟩
        · simp only [if_true]; omega
        · simp only [if_true] at hi ⊢
          rw [hcap]
          split_ifs with h
          · rw [hd]; rfl
          · exact hq.full i (by omega)
    | false =>
        rw [hc, if_neg (by simp)] at hd
        simp only [Bool.false_eq_true, if_false]
        split_ifs with hbad
        · exact ⟨fullChain_zero rfl, hout⟩
        · refine ⟨fullChain_zero rfl, fun pkt hpkt => ?_⟩
          rcases List.mem_append.mp hpkt with hpkt | hpkt
          · exact hout pkt hpkt
          · obtain rfl := List.mem_singleton.mp hpkt
            refine ⟨⟨?_, ?_⟩, fun i hi => ?_, ?_⟩
            · dsimp only; omega
            · dsimp only; omega
            · dsimp only at hi ⊢
              rw [hcap, if_neg (by omega)]
              exact hq.full i (by omega)
            · dsimp only
              rw [hcap, hn, if_pos (by omega), Nat.mod_eq_of_lt (by simp only [neJumboFrameMax] at hle; omega)]
              exact hd

theorem recvDescs_budgeted {stamp : RxStamp} {max : Nat} (ds : List XdpDesc) :
    ∀ {q : NeXskQueue} {out : List NePacket}, FullChain q → (∀ d ∈ ds, FilledDesc d) →
      (∀ pkt ∈ out, Budgeted pkt) → FullChain (ds.foldl (recvDesc stamp max) (q, out)).1 ∧
        ∀ pkt ∈ (ds.foldl (recvDesc stamp max) (q, out)).2, Budgeted pkt := by
  induction ds with
  | nil => intro q out hq _ hout; exact ⟨hq, hout⟩
  | cons d ds ih =>
      intro q out hq hds hout
      obtain ⟨hd, hds⟩ := List.forall_mem_cons.mp hds
      obtain ⟨hq', hout'⟩ := @recvDesc_budgeted q out stamp max d hq hd hout
      exact ih hq' hds hout'

@[simp] theorem reject_rx (q : NeXskQueue) (a : Nat) : (q.reject a).rx = q.rx := by
  unfold NeXskQueue.reject
  split <;> rfl

theorem foldl_reject_rx (as : List Nat) (q : NeXskQueue) : (as.foldl NeXskQueue.reject q).rx = q.rx := by
  induction as generalizing q with
  | nil => rfl
  | cons a as ih => rw [List.foldl_cons, ih, reject_rx]

theorem recvDesc_rx (stamp : RxStamp) (max : Nat) (r : NeXskQueue × List NePacket) (d : XdpDesc) :
    (recvDesc stamp max r d).1.rx = r.1.rx := by
  have hseg : (recvSeg r.1 d).rx = r.1.rx := by
    unfold recvSeg
    split
    · exact reject_rx r.1 d.addr
    · rfl
  simp only [recvDesc]
  split_ifs
  · exact hseg
  · exact (foldl_reject_rx _ _).trans hseg
  · exact hseg

theorem foldl_recvDesc_rx {stamp : RxStamp} {max : Nat} (ds : List XdpDesc) (r : NeXskQueue × List NePacket) :
    (ds.foldl (recvDesc stamp max) r).1.rx = r.1.rx := by
  induction ds generalizing r with
  | nil => rfl
  | cons d ds ih => rw [List.foldl_cons, ih, recvDesc_rx]

/-! ## runs -/

/-- The chain is full, the descriptors to come are filled, and what was emitted is
within the budget. -/
structure BudgetInv (s : RxHistory) : Prop where
  chain : FullChain s.queue
  waiting : ∀ d ∈ s.queue.rx.waiting, FilledDesc d
  emitted : ∀ pkt ∈ s.emitted, Budgeted pkt

theorem budgetInv_init : BudgetInv RxHistory.init :=
  ⟨fullChain_zero rfl, by simp [RxHistory.init, NeXskQueue.init, XskRingCons.waiting],
    by simp [RxHistory.init]⟩

/-- The kernel fills its descriptors. -/
def KernelFills : RxOp → Prop
  | .publish ds => ∀ d ∈ ds, FilledDesc d
  | _ => True

theorem BudgetInv.step {s : RxHistory} (h : BudgetInv s) (op : RxOp) (hop : KernelFills op) :
    BudgetInv (rxOpStep s op) := by
  cases op with
  | publish ds =>
      refine ⟨⟨h.chain.segs, h.chain.full⟩, fun d hd => ?_, h.emitted⟩
      have hd' : d ∈ s.queue.rx.seen ++ (s.queue.rx.fresh ++ ds) := hd
      rw [← List.append_assoc] at hd'
      rcases List.mem_append.mp hd' with hd | hd
      · exact h.waiting d hd
      · exact hop d hd
  | recv max stamp =>
      obtain ⟨hwait, -, -, -⟩ := xskRingConsPeek_spec s.queue.rx max
      have hw := h.waiting
      rw [← hwait] at hw
      obtain ⟨hpeek, hrest⟩ := List.forall_mem_append.mp hw
      have hstart : FullChain { s.queue with rxPending := 0, rx := (xskRingConsPeek s.queue.rx max).2 } :=
        ⟨h.chain.segs, h.chain.full⟩
      obtain ⟨hchain, hout⟩ := @recvDescs_budgeted stamp max (xskRingConsPeek s.queue.rx max).1 _ []
        hstart hpeek (by simp)
      refine ⟨⟨hchain.segs, hchain.full⟩, fun d hd => ?_, fun pkt hpkt => ?_⟩
      · have hrx := @foldl_recvDesc_rx stamp max (xskRingConsPeek s.queue.rx max).1
          ({ s.queue with rxPending := 0, rx := (xskRingConsPeek s.queue.rx max).2 }, [])
        simp only [rxOpStep, recvQueue] at hd
        rw [hrx] at hd
        exact hrest d hd
      · rcases List.mem_append.mp hpkt with hpkt | hpkt
        · exact h.emitted pkt hpkt
        · exact hout pkt hpkt
  | release pool =>
      have hsame : (releaseRxQueue s.queue pool).1.rxChain = s.queue.rxChain ∧
          (releaseRxQueue s.queue pool).1.rx.waiting = s.queue.rx.waiting := by
        unfold releaseRxQueue
        dsimp only
        split_ifs <;> exact ⟨rfl, rfl⟩
      refine ⟨⟨?_, ?_⟩, ?_, h.emitted⟩
      · simpa only [rxOpStep, hsame.1] using h.chain.segs
      · simpa only [rxOpStep, hsame.1] using h.chain.full
      · simpa only [rxOpStep, hsame.2] using h.waiting

/-! ## room for a jumbo frame -/

/-- The room of full segments and a last one. -/
theorem Budgeted.capacity_ge {pkt : NePacket} (h : Budgeted pkt) :
    chunkData * (pkt.nsegs - 1) + 1 ≤ packetCapacity pkt pkt.nsegs := by
  obtain ⟨n, hn⟩ := Nat.exists_eq_add_of_le h.segs.1
  have hlast := h.last
  have hfirst : (List.range n).map pkt.segRoom = List.replicate n chunkData := by
    rw [List.eq_replicate_iff]
    refine ⟨by simp, fun c hc => ?_⟩
    obtain ⟨i, hi, rfl⟩ := List.mem_map.mp hc
    have hfull := h.full i (by have := List.mem_range.mp hi; omega)
    rw [NePacket.segRoom, hfull, if_pos (by decide)]
  have hroom : 1 ≤ pkt.segRoom n := by
    rw [hn, Nat.add_sub_cancel_left] at hlast
    rw [NePacket.segRoom, if_pos (by omega)]
    exact hlast
  rw [hn, Nat.add_sub_cancel_left, Nat.add_comm 1 n, packetCapacity, List.range_succ, List.map_append,
    List.sum_append, hfirst, List.sum_replicate_nat, Nat.mul_comm]
  simp only [List.map_cons, List.map_nil, List.sum_cons, List.sum_nil, Nat.add_zero]
  omega

theorem Budgeted.room_ge {p : NePair} {pkt : NePacket} (h : Budgeted pkt) (hfs : p.frameSize = neFrame)
    (hpool : 3 ≤ p.pool.frames.length) : neJumboFrameMax ≤ packetRoom p pkt := by
  obtain ⟨h1, h4⟩ := h.segs
  have hcap := h.capacity_ge
  have hcount : pkt.segCount = pkt.nsegs := by rw [NePacket.segCount, if_pos (by omega)]
  simp only [nePacketMaxSegs] at h4
  rw [packetRoom, hcount, hfs, Nat.min_eq_left (by simp only [nePacketMaxSegs]; omega)]
  simp only [chunkData, neFrame, nePacketMaxSegs, neJumboFrameMax] at hcap ⊢
  omega

/-- With three free frames a packet as received can be written with 1 to 9216 bytes, and
so can an empty packet. -/
theorem write_never_short (ops : List RxOp) (hops : ∀ op ∈ ops, KernelFills op) (p : NePair)
    (hfs : p.frameSize = neFrame) (hpool : 3 ≤ p.pool.frames.length) (src : Mem) (len : Nat)
    (hlen : 1 ≤ len ∧ len ≤ neJumboFrameMax) :
    (∀ pkt ∈ (run rxOpStep RxHistory.init ops).emitted, (nePacketWrite p pkt src len).1 = true) ∧
      (nePacketWrite p NePacket.zero src len).1 = true := by
  have hfs0 : p.frameSize ≠ 0 := by rw [hfs]; decide
  have hinv := (Along.invariant (fun s op h hop => ⟨h.step op hop, trivial⟩) budgetInv_init
    (Along.of_forall fun op hop _ => hops op hop) : BudgetInv (run rxOpStep RxHistory.init ops) ∧
      Along rxOpStep (fun _ _ => True) RxHistory.init ops).1
  refine ⟨fun pkt hpkt => (nePacketWrite_fst_iff hfs0).mpr ⟨hlen.1, hlen.2, ?_⟩,
    (nePacketWrite_fst_iff hfs0).mpr ⟨hlen.1, hlen.2, ?_⟩⟩
  · exact hlen.2.trans ((hinv.emitted pkt hpkt).room_ge hfs hpool)
  · refine hlen.2.trans ?_
    have hcount : NePacket.zero.segCount = 0 := rfl
    have hcap : packetCapacity NePacket.zero 0 = 0 := rfl
    rw [packetRoom, hcount, hcap, hfs]
    simp only [neFrame, nePacketMaxSegs, neJumboFrameMax]
    omega

/-- A last fragment of 60 bytes, grown to the largest frame. -/
def sampleRxOps : List RxOp :=
  [.publish [⟨8448, 60, false⟩, ⟨12544, 3840, true⟩, ⟨16640, 1, false⟩], .recv neBatchSize ⟨.wan, 0, 0⟩]

theorem write_never_short_sample :
    let p : NePair :=
      { mem := fun _ => 0, frameSize := neFrame, pool := ⟨[0, 4096, 20480], 8, 0⟩, copies := [], taken := [] }
    (run rxOpStep RxHistory.init sampleRxOps).emitted.map NePacket.nsegs = [1, 2] ∧
    (∀ op ∈ sampleRxOps, KernelFills op) ∧
    (∀ pkt ∈ (run rxOpStep RxHistory.init sampleRxOps).emitted,
      (nePacketWrite p pkt (fun _ => 1) 9216).1 = true) ∧
    (nePacketWrite p NePacket.zero (fun _ => 1) 9216).1 = true := by
  intro p
  have hops : ∀ op ∈ sampleRxOps, KernelFills op := by
    simp [sampleRxOps, KernelFills, FilledDesc, chunkData]
  exact ⟨rfl, hops, write_never_short sampleRxOps hops p rfl (by decide) (fun _ => 1) 9216 (by decide)⟩

end NetworkEncryptor
