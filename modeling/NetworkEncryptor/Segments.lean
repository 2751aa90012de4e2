import NetworkEncryptor.RxLoop

/-!
# NetworkEncryptor.Segments

Packets of several segments through `recv_queue`, however the descriptor stream is
cut into calls, and through `tx_drain_queue` and back.

`rxCall` is one `recv_queue` with its `release_rx_queue`; a run of calls emits the
packets of the accepted chains of what it has peeked and rejects the frames of the
others (`segments_unchanged`), because the queue keeps track of the one-shot definition of
chains across the calls (`Traced`).  The descriptors of a packet are one chain
again, so that what one side transmits the other receives.
-/

namespace NetworkEncryptor

/-! ## calls -/

/-- One call of `recv_queue` and the release after it: what the kernel has published
by then, how many packets are asked for, and the pool the release finds. -/
structure RxCall where
  arrivals : List XdpDesc
  max : Nat
  pool : NePool

/-- A queue, the packets it has emitted and the frames that went through its
reject list. -/
structure RxTrace where
  queue : NeXskQueue
  emitted : List NePacket
  rejected : List Nat

def RxTrace.init : RxTrace := ⟨NeXskQueue.init, [], []⟩

/-- The queue when `recv_queue` is called. -/
def RxTrace.atCall (s : RxTrace) (c : RxCall) : NeXskQueue :=
  { s.queue with rx := s.queue.rx.publish c.arrivals }

def rxCall (stamp : RxStamp) (s : RxTrace) (c : RxCall) : RxTrace :=
  let r := recvQueue (s.atCall c) c.max stamp
  ⟨(releaseRxQueue r.1 c.pool).1, s.emitted ++ r.2, s.rejected ++ r.1.rxRejectAddrs⟩

/-- The packet a chain is emitted as. -/
def rxPacket (stamp : RxStamp) (ch : List XdpDesc) : NePacket :=
  { chainOf ch with dir := stamp.dir, wanIdx := stamp.wanIdx, localIdx := stamp.localIdx, txSlot := 0 }

/-! ## the history of returned frames

`returned` is history that no function reads.  What is known of a queue whose pool
took everything back is known of every queue, with the frames that went through
the reject list in that place. -/

/-- The queue with another history of returned frames. -/
def NeXskQueue.withReturned (q : NeXskQueue) (as : List Nat) : NeXskQueue := { q with returned := as }

section Returned

variable {q : NeXskQueue} {as : List Nat} {stamp : RxStamp} {max : Nat}

theorem reject_withReturned (a : Nat) :
    (q.withReturned as).reject a = (q.reject a).withReturned as := by
  rw [NeXskQueue.reject, NeXskQueue.reject]
  by_cases h : q.rxRejectAddrs.length < rxRejectMax
  · rw [if_pos h, if_pos (show (q.withReturned as).rxRejectAddrs.length < rxRejectMax from h)]; rfl
  · rw [if_neg h, if_neg (show ¬ (q.withReturned as).rxRejectAddrs.length < rxRejectMax from h)]

theorem foldl_reject_withReturned (bs : List Nat) :
    bs.foldl NeXskQueue.reject (q.withReturned as) = (bs.foldl NeXskQueue.reject q).withReturned as := by
  induction bs generalizing q with
  | nil => rfl
  | cons b bs ih => rw [List.foldl_cons, List.foldl_cons, reject_withReturned, ih]

theorem recvSeg_withReturned (d : XdpDesc) :
    recvSeg (q.withReturned as) d = (recvSeg q d).withReturned as := by
  have href : chainRefuses (q.withReturned as) d = chainRefuses q d := rfl
  rw [recvSeg, recvSeg, href]
  by_cases h : chainRefuses q d = true
  · rw [if_pos h, if_pos h, reject_withReturned]; rfl
  · rw [if_neg h, if_neg h]; rfl

theorem rejectChain_withReturned :
    rejectChain (q.withReturned as) = (rejectChain q).withReturned as := by
  have h := @foldl_reject_withReturned q as (q.rxChain.addrs q.rxChain.nsegs)
  rw [rejectChain, rejectChain]
  change ({ (q.rxChain.addrs q.rxChain.nsegs).foldl NeXskQueue.reject (q.withReturned as) with
    rxChainDropped := _, rxChain := _, rxChainInvalid := _ } : NeXskQueue) = _
  rw [h]
  rfl

theorem recvDesc_withReturned (out : List NePacket) (d : XdpDesc) :
    recvDesc stamp max (q.withReturned as, out) d =
      ((recvDesc stamp max (q, out) d).1.withReturned as, (recvDesc stamp max (q, out) d).2) := by
  rw [recvDesc, recvDesc]
  dsimp only
  rw [recvSeg_withReturned]
  by_cases hc : d.contd = true
  · rw [if_pos hc, if_pos hc]
  · rw [if_neg hc, if_neg hc]
    change (if (recvSeg q d).rxChainInvalid = true ∨ (recvSeg q d).rxChain.nsegs = 0 ∨
      out.length ≥ max then _ else _) = _
    by_cases hr : (recvSeg q d).rxChainInvalid = true ∨ (recvSeg q d).rxChain.nsegs = 0 ∨
        out.length ≥ max
    · rw [if_pos hr, if_pos hr, rejectChain_withReturned]
    · rw [if_neg hr, if_neg hr]; rfl

theorem foldl_recvDesc_withReturned (ds : List XdpDesc) (out : List NePacket) :
    ds.foldl (recvDesc stamp max) (q.withReturned as, out) =
      ((ds.foldl (recvDesc stamp max) (q, out)).1.withReturned as,
        (ds.foldl (recvDesc stamp max) (q, out)).2) := by
  induction ds generalizing q out with
  | nil => rfl
  | cons d ds ih => rw [List.foldl_cons, List.foldl_cons, recvDesc_withReturned, ih]

theorem recvQueue_withReturned :
    recvQueue (q.withReturned as) max stamp =
      ((recvQueue q max stamp).1.withReturned as, (recvQueue q max stamp).2) := by
  have h := @foldl_recvDesc_withReturned { q with rx := (xskRingConsPeek q.rx max).2 } as stamp max
    (xskRingConsPeek q.rx max).1 []
  rw [recvQueue, recvQueue]
  dsimp only
  change (({ (List.foldl (recvDesc stamp max) (({ q with rx := (xskRingConsPeek q.rx max).2 } :
    NeXskQueue).withReturned as, []) (xskRingConsPeek q.rx max).1).1 with rxPending := _ } : NeXskQueue),
    (List.foldl (recvDesc stamp max) (({ q with rx := (xskRingConsPeek q.rx max).2 } :
    NeXskQueue).withReturned as, []) (xskRingConsPeek q.rx max).1).2) = _
  rw [h]
  rfl

/-- The release empties the reject list, into whatever pool. -/
theorem releaseRxQueue_withReturned (pool : NePool) :
    (releaseRxQueue q pool).1.withReturned (as ++ q.rxRejectAddrs) =
      (releaseRxQueue (q.withReturned as) ⟨[], q.rxRejectAddrs.length, 0⟩).1 := by
  have hfst (q : NeXskQueue) (pool : NePool) : (releaseRxQueue q pool).1 =
      { (if q.rxPending ≠ 0 then { q with rx := xskRingConsRelease q.rx q.rxPending, rxPending := 0 }
          else q) with
        rxRejectAddrs := []
        returned := q.returned ++ q.rxRejectAddrs.take (pool.cap - pool.frames.length) } := by
    rw [releaseRxQueue]
    dsimp only
    by_cases hp : q.rxPending ≠ 0
    · rw [if_pos hp]
      dsimp only
      by_cases hz : q.rxRejectAddrs.length ≠ 0
      · rw [if_pos hz, Nat.min_comm, ← List.take_take, List.take_length]
      · rw [if_neg hz]
        rw [not_not, List.length_eq_zero_iff] at hz
        rw [hz, List.take_nil, List.append_nil, ← hz]
    · rw [if_neg hp]
      by_cases hz : q.rxRejectAddrs.length ≠ 0
      · rw [if_pos hz, Nat.min_comm, ← List.take_take, List.take_length]
      · rw [if_neg hz]
        rw [not_not, List.length_eq_zero_iff] at hz
        rw [hz, List.take_nil, List.append_nil, ← hz]
  rw [hfst, hfst]
  change _ = ({ (if q.rxPending ≠ 0 then ({ q with
      rx := xskRingConsRelease q.rx q.rxPending, rxPending := 0 } : NeXskQueue).withReturned as
    else q.withReturned as) with
    rxRejectAddrs := []
    returned := as ++ q.rxRejectAddrs.take q.rxRejectAddrs.length } : NeXskQueue)
  rw [List.take_length]
  by_cases hp : q.rxPending ≠ 0
  · rw [if_pos hp, if_pos hp]; rfl
  · rw [if_neg hp, if_neg hp]; rfl

end Returned

/-! ## what is emitted -/

section Emitted

variable {stamp : RxStamp} {max : Nat}

/-- A descriptor that ends an accepted chain emits its packet, any other one
nothing. -/
theorem recvDesc_emits {h : List XdpDesc} {q : NeXskQueue} {out : List NePacket} (ht : Tracks h q)
    (d : XdpDesc) (hroom : q.rejectable < rxRejectMax) (hout : out.length < max) :
    ∃ new, (recvDesc stamp max (q, out) d).2 = out ++ new ∧
      (acceptedChains (h ++ [d])).map (rxPacket stamp) =
        (acceptedChains h).map (rxPacket stamp) ++ new := by
  obtain ⟨kept, lost, hf⟩ := ht
  obtain ⟨⟨kept', lost', hf'⟩, -, -⟩ := recvSeg_follows hf d hroom
  cases hc : d.contd with
  | true =>
      obtain ⟨-, hchains⟩ := chains_concat_contd (h := h) hc
      refine ⟨[], ?_, ?_⟩
      · rw [recvDesc, if_pos hc, List.append_nil]
      · rw [acceptedChains, acceptedChains, hchains, List.append_nil]
  | false =>
      obtain ⟨-, hchains⟩ := chains_concat_last (h := h) hc
      rcases hf'.recvDesc_end stamp hc hout with ⟨hfits, -, hkept, heq⟩ | ⟨hfits, -, heq⟩
      · refine ⟨[rxPacket stamp (rxOpen h ++ [d])], ?_, ?_⟩
        · rw [heq, hf'.chain, hkept]; rfl
        · rw [acceptedChains, acceptedChains, hchains]
          simp [hfits]
      · refine ⟨[], ?_, ?_⟩
        · rw [heq, List.append_nil]
        · rw [acceptedChains, acceptedChains, hchains]
          simp [hfits]

/-- The loop of `recv_queue` emits the packets of the chains it completes. -/
theorem recvDescs_emits (ds : List XdpDesc) :
    ∀ {h : List XdpDesc} {q : NeXskQueue} {out : List NePacket}, Tracks h q →
      q.rejectable + ds.length ≤ rxRejectMax → out.length + ds.length ≤ max →
      ∃ new, (ds.foldl (recvDesc stamp max) (q, out)).2 = out ++ new ∧
        (acceptedChains (h ++ ds)).map (rxPacket stamp) =
          (acceptedChains h).map (rxPacket stamp) ++ new := by
  induction ds with
  | nil =>
      intro h q out _ _ _
      exact ⟨[], by simp, by simp⟩
  | cons d ds ih =>
      intro h q out ht hroom hout
      rw [List.length_cons] at hroom hout
      obtain ⟨new, hnew, hacc⟩ := @recvDesc_emits stamp max h q out ht d (by omega) (by omega)
      cases hd : recvDesc stamp max (q, out) d with
      | mk q1 out1 =>
          obtain ⟨ht1, hrj1, -, -⟩ := recvDesc_tracks ht d (by omega) (by omega) hd
          have hone : out1.length ≤ out.length + 1 := recvDesc_length_le hd
          rw [hd] at hnew
          dsimp only at ht1 hrj1 hnew
          obtain ⟨new', hnew', hacc'⟩ := ih ht1 (by omega) (show out1.length + ds.length ≤ max by omega)
          refine ⟨new ++ new', ?_, ?_⟩
          · rw [List.foldl_cons, hd, hnew', hnew, List.append_assoc]
          · rw [← List.append_assoc, ← hacc, ← hacc', List.append_assoc, List.singleton_append]

/-- The loop of `recv_queue` starts in step with the stream and with room for all the
frames it may have to reject. -/
theorem Settled.loop {q : NeXskQueue} (hq : Settled q) (hmax : max ≤ neBatchSize) :
    Tracks q.rx.peeked { q with rx := (xskRingConsPeek q.rx max).2 } ∧
      ({ q with rx := (xskRingConsPeek q.rx max).2 } : NeXskQueue).rejectable +
        (xskRingConsPeek q.rx max).1.length ≤ rxRejectMax ∧
      ([] : List NePacket).length + (xskRingConsPeek q.rx max).1.length ≤ max := by
  obtain ⟨-, -, -, hlen⟩ := xskRingConsPeek_spec q.rx max
  have hn := hq.tracks.nsegs_le
  refine ⟨hq.tracks.of_eq rfl rfl rfl rfl, ?_, by simpa using hlen⟩
  rw [NeXskQueue.rejectable, hq.rejects, rxRejectMax]
  simp only [List.length_nil]
  omega

theorem recvQueue_rx {q : NeXskQueue} (hq : Settled q) (hmax : max ≤ neBatchSize) :
    (recvQueue q max stamp).1.rx = (xskRingConsPeek q.rx max).2 := by
  obtain ⟨htr, hroom, hlen⟩ := hq.loop hmax
  obtain ⟨-, -, hrx, -⟩ := @recvDescs_tracks stamp max _ _ _ [] _ htr hroom hlen rfl
  exact hrx

theorem recvQueue_emits {q : NeXskQueue} (hq : Settled q) (hmax : max ≤ neBatchSize) :
    (acceptedChains (recvQueue q max stamp).1.rx.peeked).map (rxPacket stamp) =
      (acceptedChains q.rx.peeked).map (rxPacket stamp) ++ (recvQueue q max stamp).2 := by
  obtain ⟨-, hpeek, -, -⟩ := xskRingConsPeek_spec q.rx max
  obtain ⟨htr, hroom, hlen⟩ := hq.loop hmax
  obtain ⟨new, hnew, hacc⟩ := @recvDescs_emits stamp max _ _ _ [] htr hroom hlen
  rw [List.nil_append] at hnew
  rw [recvQueue_rx hq hmax, hpeek, hacc, recvQueue]
  dsimp only
  rw [hnew]

end Emitted

/-! ## runs of calls -/

/-- The trace agrees with the one-shot definition of chains on everything peeked
so far. -/
structure Traced (stamp : RxStamp) (s : RxTrace) : Prop where
  settled : Settled (s.queue.withReturned s.rejected)
  emitted : s.emitted = (acceptedChains s.queue.rx.peeked).map (rxPacket stamp)

theorem traced_init (stamp : RxStamp) : Traced stamp RxTrace.init := ⟨settled_init, rfl⟩

section Calls

variable {stamp : RxStamp} {s : RxTrace} {c : RxCall}

/-- The queue at a call, with the rejected frames as its history. -/
theorem Traced.atCall (h : Traced stamp s) (c : RxCall) :
    Settled ((s.atCall c).withReturned s.rejected) :=
  h.settled.of_fresh s.queue.fq c.arrivals

theorem releaseRxQueue_rx (q : NeXskQueue) (pool : NePool) :
    (releaseRxQueue q pool).1.rx.peeked = q.rx.peeked ∧
      (releaseRxQueue q pool).1.rx.waiting = q.rx.waiting := by
  rw [releaseRxQueue]
  dsimp only
  by_cases hp : q.rxPending ≠ 0
  · rw [if_pos hp]
    dsimp only
    split <;> exact ⟨rfl, rfl⟩
  · rw [if_neg hp]
    split <;> exact ⟨rfl, rfl⟩

/-- One call keeps the trace in agreement, whatever is left in the pool. -/
theorem traced_step (h : Traced stamp s) (hmax : c.max ≤ neBatchSize) :
    Traced stamp (rxCall stamp s c) := by
  have hq := h.atCall c
  obtain ⟨hun, -, -, -⟩ := @recvQueue_spec _ c.max stamp hq hmax _ rfl
  have hem := @recvQueue_emits stamp c.max _ hq hmax
  rw [recvQueue_withReturned] at hun hem
  dsimp only at hun hem
  obtain ⟨hset, -⟩ := releaseRxQueue_spec ⟨[], _, 0⟩ hun (by simp; exact Nat.le_refl _)
  change Settled (releaseRxQueue ((recvQueue (s.atCall c) c.max stamp).1.withReturned s.rejected)
    ⟨[], (recvQueue (s.atCall c) c.max stamp).1.rxRejectAddrs.length, 0⟩).1 at hset
  rw [← releaseRxQueue_withReturned c.pool] at hset
  refine ⟨hset, ?_⟩
  change s.emitted ++ _ = (acceptedChains (releaseRxQueue _ c.pool).1.rx.peeked).map _
  rw [(releaseRxQueue_rx _ _).1, h.emitted]
  exact hem.symm

/-- Peeking takes something whenever there is something. -/
theorem xskRingConsPeek_progress {α : Type} (r : XskRingCons α) {nb : Nat} (hnb : 1 ≤ nb) :
    (xskRingConsPeek r nb).2.waiting.length ≤ r.waiting.length - 1 := by
  rw [xskRingConsPeek, XskRingCons.refresh]
  cases hs : r.seen with
  | nil =>
      simp only [List.isEmpty_nil, if_true, XskRingCons.waiting, hs, List.append_nil, List.length_drop,
        List.nil_append]
      omega
  | cons a as =>
      simp only [List.isEmpty_cons, Bool.false_eq_true, if_false, XskRingCons.waiting, hs,
        List.length_append, List.length_drop, List.length_cons]
      omega

/-- A call takes descriptors from the front of those that wait, and at least one. -/
theorem rxCall_rx (h : Traced stamp s) (hmax : c.max ≤ neBatchSize) :
    (rxCall stamp s c).queue.rx.peeked ++ (rxCall stamp s c).queue.rx.waiting =
      s.queue.rx.peeked ++ s.queue.rx.waiting ++ c.arrivals ∧
    (1 ≤ c.max → (rxCall stamp s c).queue.rx.waiting.length ≤
      (s.queue.rx.waiting ++ c.arrivals).length - 1) := by
  have hrx := @recvQueue_rx stamp c.max _ (h.atCall c) hmax
  rw [recvQueue_withReturned] at hrx
  change (recvQueue (s.atCall c) c.max stamp).1.rx =
    (xskRingConsPeek (s.queue.rx.publish c.arrivals) c.max).2 at hrx
  obtain ⟨hpk, hwt⟩ := releaseRxQueue_rx (recvQueue (s.atCall c) c.max stamp).1 c.pool
  obtain ⟨hwait, hpeek, -, -⟩ := xskRingConsPeek_spec (s.queue.rx.publish c.arrivals) c.max
  have hpub : (s.queue.rx.publish c.arrivals).waiting = s.queue.rx.waiting ++ c.arrivals :=
    (List.append_assoc ..).symm
  rw [hrx] at hpk hwt
  refine ⟨?_, fun h1 => ?_⟩
  · change (releaseRxQueue _ c.pool).1.rx.peeked ++ (releaseRxQueue _ c.pool).1.rx.waiting = _
    rw [hpk, hwt, hpeek, List.append_assoc, hwait, hpub, List.append_assoc]
    rfl
  · change (releaseRxQueue _ c.pool).1.rx.waiting.length ≤ _
    rw [hwt, ← hpub]
    exact xskRingConsPeek_progress _ h1

end Calls

/-! ## the contents of an emitted packet -/

/-- The lengths of the first `n` segments. -/
def NePacket.lens (pkt : NePacket) (n : Nat) : List Nat := (List.range n).map pkt.segLen

/-- The packet has the segments of the chain, in order. -/
structure PacketOf (stamp : RxStamp) (ch : List XdpDesc) (pkt : NePacket) : Prop where
  nsegs : pkt.nsegs = ch.length
  len : pkt.len = (ch.map XdpDesc.len).sum
  addrs : pkt.addrs pkt.nsegs = ch.map XdpDesc.addr
  lens : pkt.lens pkt.nsegs = ch.map XdpDesc.len
  stamp : pkt.dir = stamp.dir ∧ pkt.wanIdx = stamp.wanIdx ∧ pkt.localIdx = stamp.localIdx

theorem chainOf_lens (ds : List XdpDesc) :
    (chainOf ds).lens ds.length = ds.map fun d => d.len % 65536 := by
  induction ds using List.reverseRecOn with
  | nil => rfl
  | append_singleton ds d ih =>
      have hn := (chainOf_spec ds).1
      have hold : ∀ i ∈ List.range ds.length,
          (chainAppend (chainOf ds) d).segLen i = (chainOf ds).segLen i := by
        intro i hi
        have : i ≠ (chainOf ds).nsegs := by rw [hn]; exact Nat.ne_of_lt (List.mem_range.mp hi)
        simp [chainAppend, this]
      rw [chainOf_concat, NePacket.lens, List.length_append, List.length_singleton, List.range_succ,
        List.map_append, List.map_congr_left hold, List.map_append, ← ih]
      simp [chainAppend, hn, NePacket.lens]

/-- No segment of an accepted chain is longer than a jumbo frame. -/
theorem ChainFits.len_le {ch : List XdpDesc} (h : ChainFits ch) {d : XdpDesc} (hd : d ∈ ch) :
    d.len ≤ neJumboFrameMax :=
  Nat.le_trans (List.single_le_sum (by simp) _ (List.mem_map_of_mem hd)) h.2

theorem packetOf_rxPacket (stamp : RxStamp) {ch : List XdpDesc} (h : ChainFits ch) :
    PacketOf stamp ch (rxPacket stamp ch) := by
  obtain ⟨hn, hl, ha⟩ := chainOf_spec ch
  have hlens : ch.map (fun d => d.len % 65536) = ch.map XdpDesc.len := by
    refine List.map_congr_left fun d hd => ?_
    have hle := h.len_le hd
    simp only [neJumboFrameMax] at hle
    omega
  refine ⟨hn, hl, ?_, ?_, rfl, rfl, rfl⟩
  · change (chainOf ch).addrs (chainOf ch).nsegs = _
    rw [hn, ha]
  · change (chainOf ch).lens (chainOf ch).nsegs = _
    rw [hn, chainOf_lens, hlens]

theorem forall₂_packetOf (stamp : RxStamp) (ds : List XdpDesc) :
    List.Forall₂ (PacketOf stamp) (acceptedChains ds) ((acceptedChains ds).map (rxPacket stamp)) := by
  rw [List.forall₂_map_right_iff, List.forall₂_same]
  intro ch hch
  exact packetOf_rxPacket stamp (by simpa using List.of_mem_filter hch)

/-! ## any batches -/

section Batches

variable {stamp : RxStamp}

/-- What a run of calls has peeked and what still waits is what arrived, and the
trace agrees with the chains of the former. -/
theorem traced_run {s : RxTrace} (h : Traced stamp s) (cs : List RxCall)
    (hmax : ∀ c ∈ cs, c.max ≤ neBatchSize) :
    Traced stamp (run (rxCall stamp) s cs) ∧
      (run (rxCall stamp) s cs).queue.rx.peeked ++ (run (rxCall stamp) s cs).queue.rx.waiting =
        s.queue.rx.peeked ++ s.queue.rx.waiting ++ cs.flatMap RxCall.arrivals := by
  induction cs generalizing s with
  | nil => exact ⟨h, by simp⟩
  | cons c cs ih =>
      have hc := hmax c (by simp)
      obtain ⟨hend, hrx⟩ := ih (traced_step h hc) fun c' hc' => hmax c' (by simp [hc'])
      refine ⟨hend, ?_⟩
      rw [run_cons, hrx, (rxCall_rx h hc).1, List.flatMap_cons, ← List.append_assoc]

/-- Every call takes a descriptor as long as there is one. -/
theorem waiting_run {s : RxTrace} (h : Traced stamp s) (cs : List RxCall)
    (hmax : ∀ c ∈ cs, 1 ≤ c.max ∧ c.max ≤ neBatchSize) (hno : ∀ c ∈ cs, c.arrivals = [])
    (hlen : s.queue.rx.waiting.length ≤ cs.length) :
    (run (rxCall stamp) s cs).queue.rx.waiting = [] := by
  induction cs generalizing s with
  | nil => exact List.length_eq_zero_iff.mp (Nat.le_zero.mp hlen)
  | cons c cs ih =>
      obtain ⟨h1, h64⟩ := hmax c (by simp)
      have hle := (rxCall_rx h h64).2 h1
      rw [hno c (by simp), List.append_nil] at hle
      rw [List.length_cons] at hlen
      exact ih (traced_step h h64) (fun c' hc' => hmax c' (by simp [hc']))
        (fun c' hc' => hno c' (by simp [hc'])) (by omega)

/-- The reject list of a call has room for 64 descriptors and the chain that was
open before. -/
theorem recvQueue_rejects_le {q : NeXskQueue} {max : Nat} (hq : Settled q) (hmax : max ≤ neBatchSize) :
    (recvQueue q max stamp).1.rxRejectAddrs.length ≤ rxRejectMax := by
  obtain ⟨htr, hroom, hlen⟩ := hq.loop hmax
  obtain ⟨-, hrj, -, -⟩ := @recvDescs_tracks stamp max _ _ _ [] _ htr hroom hlen rfl
  rw [NeXskQueue.rejectable] at hrj
  rw [recvQueue]
  dsimp only
  omega

/-- The frames that went through the reject list are those of the rejected chains,
and those of the open chain that were refused since it became too large. -/
theorem Traced.rejected_perm {s : RxTrace} (h : Traced stamp s) :
    ∃ lost, lost <:+ rxOpen s.queue.rx.peeked ∧
      (lost ≠ [] → ¬ ChainFits (rxOpen s.queue.rx.peeked)) ∧
      s.rejected.Perm (rejectedFrames s.queue.rx.peeked ++ lost.map XdpDesc.addr) := by
  obtain ⟨kept, lost, hf⟩ := h.settled.tracks
  have hfr := hf.frames
  rw [h.settled.rejects, List.append_nil] at hfr
  exact ⟨lost, ⟨kept, hf.split.symm⟩, hf.unfit, hfr⟩

end Batches

/-! ## the descriptors of a packet -/

/-- The packets the TX path is given: one to four segments of at most a frame,
together at most a jumbo frame. -/
structure TxPacket (pkt : NePacket) : Prop where
  nsegs : 1 ≤ pkt.nsegs ∧ pkt.nsegs ≤ nePacketMaxSegs
  segs : ∀ i < pkt.nsegs, 1 ≤ pkt.segLen i ∧ pkt.segLen i ≤ neFrame
  len : pkt.len = (pkt.lens pkt.nsegs).sum
  total : pkt.len ≤ neJumboFrameMax

/-- Two packets with the same segments. -/
structure SameSegments (pkt pkt' : NePacket) : Prop where
  nsegs : pkt'.nsegs = pkt.nsegs
  len : pkt'.len = pkt.len
  addrs : pkt'.addrs pkt'.nsegs = pkt.addrs pkt.nsegs
  lens : pkt'.lens pkt'.nsegs = pkt.lens pkt.nsegs

section Descs

variable {pkt : NePacket}

theorem TxPacket.txSegs (h : TxPacket pkt) : pkt.txSegs = pkt.nsegs := by
  rw [NePacket.txSegs, if_pos (by have := h.nsegs; omega)]

/-- The descriptors of a packet are its segments, all but the last continued. -/
theorem txDescs_eq (h : TxPacket pkt) :
    txDescs pkt neFrame = (List.range pkt.nsegs).map fun i =>
      ⟨pkt.segAddr i, pkt.segLen i, decide (i + 1 < pkt.nsegs)⟩ := by
  rw [txDescs, h.txSegs]
  refine List.map_congr_left fun i hi => ?_
  obtain ⟨h1, h2⟩ := h.segs i (List.mem_range.mp hi)
  dsimp only
  rw [if_neg (show ¬ (pkt.nsegs = 1 ∧ pkt.segLen i = 0) by omega), if_neg (by omega)]

theorem txDescs_fields (h : TxPacket pkt) :
    (txDescs pkt neFrame).length = pkt.nsegs ∧
      (txDescs pkt neFrame).map XdpDesc.addr = pkt.addrs pkt.nsegs ∧
      (txDescs pkt neFrame).map XdpDesc.len = pkt.lens pkt.nsegs := by
  rw [txDescs_eq h]
  refine ⟨by simp, ?_, ?_⟩
  · rw [List.map_map]; rfl
  · rw [List.map_map]; rfl

theorem chainFits_txDescs (h : TxPacket pkt) : ChainFits (txDescs pkt neFrame) := by
  obtain ⟨hl, -, hlens⟩ := txDescs_fields h
  refine ⟨by rw [hl]; exact h.nsegs.2, ?_⟩
  rw [hlens, ← h.len]
  exact h.total

/-- They close exactly one chain. -/
theorem chainsFrom_txDescs (h : TxPacket pkt) :
    chainsFrom XdpDesc.contd [] (txDescs pkt neFrame) = ([txDescs pkt neFrame], []) := by
  obtain ⟨n, hn⟩ : ∃ n, pkt.nsegs = n + 1 := ⟨pkt.nsegs - 1, by have := h.nsegs; omega⟩
  rw [txDescs_eq h, hn, List.range_succ, List.map_append]
  refine chainsFrom_closed XdpDesc.contd ?_ ?_
  · intro d hd
    obtain ⟨i, hi, rfl⟩ := List.mem_map.mp hd
    have := List.mem_range.mp hi
    simp; omega
  · simp

theorem rxChains_txDescs (pkts : List NePacket) (h : ∀ pkt ∈ pkts, TxPacket pkt) :
    chainsFrom XdpDesc.contd [] (pkts.flatMap fun pkt => txDescs pkt neFrame) =
      (pkts.map fun pkt => txDescs pkt neFrame, []) := by
  induction pkts with
  | nil => rfl
  | cons pkt pkts ih =>
      rw [List.flatMap_cons, chainsFrom_append, chainsFrom_txDescs (h pkt (by simp)),
        ih fun p hp => h p (by simp [hp])]
      rfl

/-- A packet that was received from the descriptors of another one. -/
theorem PacketOf.sameSegments {stamp : RxStamp} {pkt' : NePacket} (h : TxPacket pkt)
    (hp : PacketOf stamp (txDescs pkt neFrame) pkt') : SameSegments pkt pkt' := by
  obtain ⟨hl, ha, hlens⟩ := txDescs_fields h
  exact ⟨hp.nsegs.trans hl, by rw [hp.len, hlens, h.len], by rw [hp.addrs, ha], by rw [hp.lens, hlens]⟩

end Descs

/-! ## the TX side -/

/-- One call of `tx_drain_queue`: how many descriptors the kernel has taken off the
TX ring by then, the packets pushed to the source ring, and the pool. -/
structure TxCall where
  taken : Nat
  pushed : List NePacket
  pool : NePool

/-- A queue, its source ring and all descriptors written to the TX ring. -/
structure TxTrace where
  queue : NeXskQueue
  src : NeRing
  written : List XdpDesc

def TxTrace.init : TxTrace := ⟨NeXskQueue.init, NeRing.empty, []⟩

/-- The queue when `tx_drain_queue` is called. -/
def TxTrace.queueAt (s : TxTrace) (c : TxCall) : NeXskQueue :=
  { s.queue with tx := { s.queue.tx with entries := s.queue.tx.entries.drop c.taken } }

/-- The source ring when `tx_drain_queue` is called. -/
def TxTrace.srcAt (s : TxTrace) (c : TxCall) : NeRing :=
  { s.src with items := s.src.items ++ c.pushed }

def txCall (s : TxTrace) (c : TxCall) : TxTrace :=
  let r := txDrainQueue (s.queueAt c) (s.srcAt c) c.pool neFrame
  ⟨r.1, r.2.1, s.written ++ r.1.tx.entries.drop (s.queueAt c).tx.entries.length⟩

/-- A round with room in the TX ring sends the packet at the head of the source. -/
theorem txRound_sends {q : NeXskQueue} {src : NeRing} {pool : NePool} {job : NePacket}
    {rest : List NePacket} (hi : src.items = job :: rest) (hjob : TxPacket job)
    (hfree : ¬ xskProdNbFree q.tx < nePacketMaxSegs) :
    txRound q src pool neFrame =
      (true, { q with tx := xskRingProdSubmit q.tx (txDescs job neFrame), sent := q.sent ++ [job] },
        { src with items := rest }, pool) := by
  have hn := hjob.nsegs
  have hgo : ¬ (job.txSegs > nePacketMaxSegs ∨ job.len > neJumboFrameMax ∨
      xskRingProdReserve q.tx job.txSegs ≠ job.txSegs) := by
    rw [xskRingProdReserve, hjob.txSegs, if_neg (by omega)]
    have := hjob.total
    omega
  rw [txRound, if_neg hfree, neRingTryPop, hi]
  dsimp only
  rw [if_neg hgo]

/-- The rounds of `tx_drain_queue` write the descriptors of the packets they take
off the ring: none is dropped, and none is left out. -/
theorem txRounds_writes (fuel : Nat) :
    ∀ {q : NeXskQueue} {src : NeRing} {pool : NePool}, (∀ pkt ∈ src.items, TxPacket pkt) →
      ∃ jobs, src.items = jobs ++ (txRounds neFrame fuel q src pool).2.1.items ∧
        (txRounds neFrame fuel q src pool).1.tx.entries =
          q.tx.entries ++ jobs.flatMap fun pkt => txDescs pkt neFrame := by
  induction fuel with
  | zero =>
      intro q src pool _
      exact ⟨[], rfl, (List.append_nil _).symm⟩
  | succ fuel ih =>
      intro q src pool hok
      rw [txRounds]
      by_cases hfree : xskProdNbFree q.tx < nePacketMaxSegs
      · rw [txRound, if_pos hfree]
        exact ⟨[], rfl, (List.append_nil _).symm⟩
      · cases hi : src.items with
        | nil =>
            have hround : txRound q src pool neFrame = (false, q, src, pool) := by
              rw [txRound, if_neg hfree, neRingTryPop, hi]
            rw [hround]
            exact ⟨[], by simp [hi], (List.append_nil _).symm⟩
        | cons job rest =>
            rw [txRound_sends hi (hok job (by rw [hi]; simp)) hfree]
            obtain ⟨jobs, hitems, hwrote⟩ := @ih
              { q with tx := xskRingProdSubmit q.tx (txDescs job neFrame), sent := q.sent ++ [job] }
              { src with items := rest } pool (fun p hp => hok p (by rw [hi]; simp [hp]))
            refine ⟨job :: jobs, ?_, ?_⟩
            · rw [List.cons_append]
              exact congrArg (job :: ·) hitems
            · dsimp only
              rw [if_pos rfl, hwrote, xskRingProdSubmit, List.flatMap_cons, List.append_assoc]

/-- Everything written are the descriptors of the packets that were pushed and have
left the ring, in order. -/
theorem written_run {s : TxTrace} {before : List NePacket}
    (hs : ∃ sent, before = sent ++ s.src.items ∧
      s.written = sent.flatMap fun pkt => txDescs pkt neFrame)
    (hbefore : ∀ pkt ∈ before, TxPacket pkt) (cs : List TxCall)
    (hok : ∀ c ∈ cs, ∀ pkt ∈ c.pushed, TxPacket pkt) :
    ∃ sent, before ++ cs.flatMap TxCall.pushed = sent ++ (run txCall s cs).src.items ∧
      (run txCall s cs).written = sent.flatMap fun pkt => txDescs pkt neFrame := by
  induction cs generalizing s before with
  | nil => simpa using hs
  | cons c cs ih =>
      obtain ⟨sent, hsent, hwritten⟩ := hs
      have hall : ∀ pkt ∈ before ++ c.pushed, TxPacket pkt := by
        intro pkt hpkt
        rcases List.mem_append.mp hpkt with h | h
        · exact hbefore pkt h
        · exact hok c (by simp) pkt h
      obtain ⟨jobs, hitems, hwrote⟩ := @txRounds_writes neXskCopyTxBatch (s.queueAt c) (s.srcAt c)
        c.pool (fun pkt hpkt => hall pkt (by
          rcases List.mem_append.mp hpkt with h | h
          · rw [hsent]; simp [h]
          · simp [h]))
      have hsrc : s.src.items ++ c.pushed = jobs ++ (txCall s c).src.items := hitems
      rw [List.flatMap_cons, ← List.append_assoc, run_cons]
      refine ih ⟨sent ++ jobs, ?_, ?_⟩ hall fun c' hc' => hok c' (by simp [hc'])
      · rw [hsent, List.append_assoc, hsrc, List.append_assoc]
      · change s.written ++ List.drop _ (txRounds neFrame neXskCopyTxBatch _ _ _).1.tx.entries = _
        rw [hwrote, List.drop_left, hwritten, List.flatMap_append]

/-! ## there and back -/

/-- Segmented packets are unchanged, whatever the batching.  The calls emit the
packets of the accepted chains of everything they have peeked, in order; the frames
of the other complete chains go through the reject list exactly once, and the list
never needs more than its 68 entries; and every call gets on with the stream.  What
is received from the descriptors that `tx_drain_queue` wrote are the packets that
were transmitted. -/
theorem segments_unchanged (stamp : RxStamp) (cs : List RxCall)
    (hmax : ∀ c ∈ cs, 1 ≤ c.max ∧ c.max ≤ neBatchSize) {s : RxTrace}
    (hs : s = run (rxCall stamp) RxTrace.init cs) :
    s.queue.rx.peeked ++ s.queue.rx.waiting = cs.flatMap RxCall.arrivals ∧
    List.Forall₂ (PacketOf stamp) (acceptedChains s.queue.rx.peeked) s.emitted ∧
    (∃ lost, lost <:+ rxOpen s.queue.rx.peeked ∧
      (lost ≠ [] → ¬ ChainFits (rxOpen s.queue.rx.peeked)) ∧
      s.rejected.Perm (rejectedFrames s.queue.rx.peeked ++ lost.map XdpDesc.addr)) ∧
    Along (rxCall stamp) (fun s c => (recvQueue (s.atCall c) c.max stamp).1.rxRejectAddrs.length ≤ 68)
      RxTrace.init cs ∧
    (∀ cs', (∀ c ∈ cs', 1 ≤ c.max ∧ c.max ≤ neBatchSize) → (∀ c ∈ cs', c.arrivals = []) →
      s.queue.rx.waiting.length ≤ cs'.length →
      (run (rxCall stamp) s cs').queue.rx.waiting = []) ∧
    ∀ ts : List TxCall, (∀ c ∈ ts, ∀ pkt ∈ c.pushed, TxPacket pkt) →
      cs.flatMap RxCall.arrivals = (run txCall TxTrace.init ts).written →
      s.queue.rx.waiting = [] →
      ∃ sent, ts.flatMap TxCall.pushed = sent ++ (run txCall TxTrace.init ts).src.items ∧
        List.Forall₂ SameSegments sent s.emitted := by
  have hmax' : ∀ c ∈ cs, c.max ≤ neBatchSize := fun c hc => (hmax c hc).2
  obtain ⟨htr, hrx⟩ := traced_run (traced_init stamp) cs hmax'
  rw [← hs] at htr hrx
  have hpackets := forall₂_packetOf stamp s.queue.rx.peeked
  rw [← htr.emitted] at hpackets
  refine ⟨hrx, hpackets, htr.rejected_perm, ?_, ?_, ?_⟩
  · refine (@Along.invariant _ _ _ (fun _ c => c.max ≤ neBatchSize) _ (Traced stamp) ?_ _ _
      (traced_init stamp) (Along.of_forall fun c hc _ => hmax' c hc)).2
    intro s c h hc
    have hle := @recvQueue_rejects_le stamp _ c.max (h.atCall c) hc
    rw [recvQueue_withReturned] at hle
    exact ⟨traced_step h hc, hle⟩
  · exact fun cs' h1 h2 h3 => waiting_run htr cs' h1 h2 h3
  · intro ts hok harr hwait
    obtain ⟨sent, hsent, hwritten⟩ := @written_run TxTrace.init [] ⟨[], rfl, rfl⟩ (by simp) ts hok
    rw [List.nil_append] at hsent
    refine ⟨sent, hsent, ?_⟩
    have hsentok : ∀ pkt ∈ sent, TxPacket pkt := by
      intro pkt hpkt
      have hmem : pkt ∈ ts.flatMap TxCall.pushed := by rw [hsent]; simp [hpkt]
      obtain ⟨c, hc, hp⟩ := List.mem_flatMap.mp hmem
      exact hok c hc pkt hp
    have hpeeked : s.queue.rx.peeked = sent.flatMap fun pkt => txDescs pkt neFrame := by
      rw [hwait, List.append_nil, harr, hwritten] at hrx
      exact hrx
    have hacc : acceptedChains s.queue.rx.peeked = sent.map fun pkt => txDescs pkt neFrame := by
      rw [acceptedChains, rxChains, hpeeked, rxChains_txDescs sent hsentok, List.filter_eq_self]
      intro ch hch
      obtain ⟨pkt, hpkt, rfl⟩ := List.mem_map.mp hch
      exact decide_eq_true (chainFits_txDescs (hsentok pkt hpkt))
    rw [hacc, List.forall₂_map_left_iff] at hpackets
    exact ((List.forall₂_and_left _ _).mpr ⟨hsentok, hpackets⟩).imp
      fun pkt pkt' h => h.2.sameSegments h.1

/-- A packet of two segments. -/
def sampleTxPacket : NePacket :=
  { NePacket.zero with segAddr := fun i => neFrame * i + 256, len := 2000, segLen := fun _ => 1000, nsegs := 2 }

/-- The packet is pushed once and sent at once. -/
def sampleTxCalls : List TxCall := [⟨0, [sampleTxPacket], ⟨[], neNFrames, 0⟩⟩]

/-- Its descriptors arrive together, and are taken one by one. -/
def sampleRxCalls : List RxCall :=
  [⟨(run txCall TxTrace.init sampleTxCalls).written, 1, ⟨[], neNFrames, 0⟩⟩, ⟨[], 1, ⟨[], neNFrames, 0⟩⟩]

/-- The packet comes back, although its chain is cut between two calls. -/
theorem segments_unchanged_sample :
    (run (rxCall (rxStamp .wan 0)) RxTrace.init sampleRxCalls).emitted.length = 1 ∧
      ∃ sent, [sampleTxPacket] = sent ++ (run txCall TxTrace.init sampleTxCalls).src.items ∧
        List.Forall₂ SameSegments sent
          (run (rxCall (rxStamp .wan 0)) RxTrace.init sampleRxCalls).emitted := by
  have hpkt : TxPacket sampleTxPacket :=
    ⟨by decide, fun i _ => ⟨by simp [sampleTxPacket], by simp [sampleTxPacket]⟩, by decide, by decide⟩
  refine ⟨by decide +kernel, ?_⟩
  refine (segments_unchanged (rxStamp .wan 0) sampleRxCalls ?_ rfl).2.2.2.2.2 sampleTxCalls ?_ ?_ ?_
  · simp [sampleRxCalls]
  · simp [sampleTxCalls, hpkt]
  · simp [sampleRxCalls]
  · exact List.length_eq_zero_iff.mp (by decide +kernel)

end NetworkEncryptor
