import NetworkEncryptor.Lib.Chains
import NetworkEncryptor.Lib.Run
import NetworkEncryptor.Xsk
import Mathlib.Algebra.Order.BigOperators.Group.List
import Mathlib.Algebra.Order.Group.Nat
import Mathlib.Data.List.Induction
import Mathlib.Data.List.Nodup
import Mathlib.Data.List.Perm.Subperm

/-!
# NetworkEncryptor.RxLoop

The loop of `local_rx_thread` and `wan_rx_thread` (`forwarder.c`) with
`ne_recv_local_slot`, `ne_recv_wan_slot` and their release functions, over
arbitrary streams of RX descriptors.

An iteration that receives no packet goes back to the head of the loop without
the release, and the next `ne_recv_*_slot` forgets how many entries were
pending.  So the published consumer index keeps up with what was peeked exactly
as long as every iteration that peeks a descriptor also completes a packet
(`rx_accounted_iff`).
-/

namespace NetworkEncryptor

/-! ## the loop -/

/-- An RX thread: its side of the pair and its slot. -/
structure RxThread where
  dir : NePacketDir
  ifs : Ifaces
  rxSlot : Nat
  rxSlots : Nat

/-- The queues the release visits. -/
def RxThread.owned (t : RxThread) : List (Nat × Nat) := t.ifs.rxQueues t.rxSlot t.rxSlots

/-- The queues the receive and the refill visit: those of live interfaces. -/
def RxThread.polled (t : RxThread) : List (Nat × Nat) := t.owned.filter fun k => t.ifs.live k.1

/-- `ne_recv_local_slot` and `ne_recv_wan_slot`. -/
def neRecvSlot (t : RxThread) (max : Nat) : List (Nat × Nat) → Queues → List NePacket →
    Queues × List NePacket
  | [], qs, out => (qs, out)
  | k :: ks, qs, out =>
      if out.length ≥ max then (qs, out)
      else
        let r := recvQueue { qs k with rxPending := 0 } (max - out.length) (rxStamp t.dir k.1)
        neRecvSlot t max ks (Function.update qs k r.1) (out ++ r.2)

/-- `ne_recv_release_local_slot` and `ne_recv_release_wan_slot`. -/
def neRecvReleaseSlot : List (Nat × Nat) → Queues → NePool → Queues × NePool
  | [], qs, pool => (qs, pool)
  | k :: ks, qs, pool =>
      let r := releaseRxQueue (qs k) pool
      neRecvReleaseSlot ks (Function.update qs k r.1) r.2

/-- `ne_refill_fq_local_slot` and `ne_refill_fq_wan_slot`. -/
def neRefillFqSlot : List (Nat × Nat) → Queues → NePool → Queues × NePool
  | [], qs, pool => (qs, pool)
  | k :: ks, qs, pool =>
      let r := refillFqQueue (qs k) pool
      neRefillFqSlot ks (Function.update qs k r.1) r.2

/-- What an iteration meets: the descriptors the kernel has published since the
last one, the pool as it finds it, and the pool after the received packets were
handed on. -/
structure RxRound where
  arrivals : Nat × Nat → List XdpDesc
  pool : NePool
  poolLater : NePool

/-- The queues with the new descriptors. -/
def RxRound.publish (e : RxRound) (qs : Queues) : Queues := fun k =>
  { qs k with rx := (qs k).rx.publish (e.arrivals k) }

/-- One iteration of the loop. -/
def rxIteration (t : RxThread) (qs : Queues) (e : RxRound) : Queues :=
  let f := neRefillFqSlot t.polled (e.publish qs) e.pool
  let r := neRecvSlot t neBatchSize t.polled f.1 []
  if r.2.length = 0 then r.1 else (neRecvReleaseSlot t.owned r.1 e.poolLater).1

/-! ## chains of descriptors -/

/-- A chain the program accepts. -/
def ChainFits (ch : List XdpDesc) : Prop :=
  ch.length ≤ nePacketMaxSegs ∧ (ch.map XdpDesc.len).sum ≤ neJumboFrameMax

instance (ch : List XdpDesc) : Decidable (ChainFits ch) := inferInstanceAs (Decidable (_ ∧ _))

/-- The complete chains of a stream. -/
def rxChains (ds : List XdpDesc) : List (List XdpDesc) := (chainsFrom XdpDesc.contd [] ds).1

/-- The chain a stream leaves open. -/
def rxOpen (ds : List XdpDesc) : List XdpDesc := (chainsFrom XdpDesc.contd [] ds).2

/-- The frames of the rejected chains of a stream. -/
def rejectedFrames (ds : List XdpDesc) : List Nat :=
  ((rxChains ds).filter fun ch => ¬ ChainFits ch).flatten.map XdpDesc.addr

/-- The accepted chains of a stream. -/
def acceptedChains (ds : List XdpDesc) : List (List XdpDesc) :=
  (rxChains ds).filter fun ch => ChainFits ch

/-- Every descriptor peeked on the queue has been released, and every frame of
a rejected chain is back in the pool. -/
structure Accounted (q : NeXskQueue) : Prop where
  consumer : q.rx.released = q.rx.peeked.length
  frames : (rejectedFrames q.rx.peeked).Subperm q.returned

/-- What the next iteration peeks on the queue if it starts with it. -/
def rxPortion (q : NeXskQueue) : List XdpDesc := (xskRingConsPeek q.rx neBatchSize).1

/-- The next descriptors of the queue complete a chain that is accepted. -/
def Completes (q : NeXskQueue) : Prop :=
  ∃ ch ∈ (chainsFrom XdpDesc.contd (rxOpen q.rx.peeked) (rxPortion q)).1, ChainFits ch

/-- An iteration finds no descriptor at all, or completes a packet. -/
def Productive (t : RxThread) (qs : Queues) (e : RxRound) : Prop :=
  (∀ k ∈ t.polled, rxPortion (e.publish qs k) = []) ∨ ∃ k ∈ t.polled, Completes (e.publish qs k)

/-- Frames the RX side of a queue holds. -/
def NeXskQueue.rxHeld (q : NeXskQueue) : Nat :=
  q.rxRejectAddrs.length + q.rxChain.nsegs + q.rx.waiting.length

/-- The pool has room for the frames that are not in it. -/
def PoolHasRoom (t : RxThread) (qs : Queues) (e : RxRound) : Prop :=
  e.poolLater.frames.length + (t.owned.map fun k => (e.publish qs k).rxHeld).sum ≤ e.poolLater.cap

/-! ## one descriptor -/

/-- The packet a chain of descriptors makes. -/
def chainOf (ds : List XdpDesc) : NePacket := ds.foldl chainAppend NePacket.zero

theorem chainOf_concat (ds : List XdpDesc) (d : XdpDesc) :
    chainOf (ds ++ [d]) = chainAppend (chainOf ds) d := by
  rw [chainOf, List.foldl_append]; rfl

theorem chainOf_spec (ds : List XdpDesc) :
    (chainOf ds).nsegs = ds.length ∧ (chainOf ds).len = (ds.map XdpDesc.len).sum ∧
      (chainOf ds).addrs ds.length = ds.map XdpDesc.addr := by
  induction ds using List.reverseRecOn with
  | nil => exact ⟨rfl, rfl, rfl⟩
  | append_singleton ds d ih =>
      obtain ⟨hn, hl, ha⟩ := ih
      rw [chainOf_concat]
      refine ⟨?_, ?_, ?_⟩
      · rw [chainAppend]; simp [hn]
      · rw [chainAppend]; simp [hl]
      · have hold : ∀ i ∈ List.range ds.length,
            (chainAppend (chainOf ds) d).segAddr i = (chainOf ds).segAddr i := by
          intro i hi
          have : i ≠ (chainOf ds).nsegs := by rw [hn]; exact Nat.ne_of_lt (List.mem_range.mp hi)
          simp [chainAppend, packetSetSegAddr, this]
        rw [NePacket.addrs, List.length_append, List.length_singleton, List.range_succ,
          List.map_append, List.map_congr_left hold, List.map_append, ← ha]
        simp [chainAppend, packetSetSegAddr, hn, NePacket.addrs]

/-- The queue has an open chain `op`: it is the packet being put together and,
once it has become too large, the descriptors `lost` refused since.  The frames
`gone` of rejected chains and those of `lost` wait for the release or are back
in the pool. -/
structure Follows (op : List XdpDesc) (gone : List Nat) (q : NeXskQueue)
    (kept lost : List XdpDesc) : Prop where
  split : op = kept ++ lost
  chain : q.rxChain = chainOf kept
  fits : ChainFits kept
  invalid : q.rxChainInvalid = !lost.isEmpty
  unfit : lost ≠ [] → ¬ ChainFits op
  frames : (q.returned ++ q.rxRejectAddrs).Perm (gone ++ lost.map XdpDesc.addr)

theorem ChainFits.of_append {as bs : List XdpDesc} (h : ChainFits (as ++ bs)) : ChainFits as := by
  obtain ⟨hlen, hsum⟩ := h
  rw [List.length_append] at hlen
  rw [List.map_append, List.sum_append] at hsum
  exact ⟨by omega, by omega⟩

/-- The test of the source is the limit on chains. -/
theorem chainRefuses_iff {op gone kept lost} {q : NeXskQueue} (h : Follows op gone q kept lost)
    (d : XdpDesc) : chainRefuses q d = true ↔ ¬ ChainFits (op ++ [d]) := by
  obtain ⟨hn, hl, -⟩ := chainOf_spec kept
  have hfits := h.fits
  cases lost with
  | cons l ls =>
      have hover := h.unfit (by simp)
      have hinv := h.invalid
      rw [List.isEmpty_cons, Bool.not_false] at hinv
      rw [chainRefuses, hinv]
      simp only [Bool.true_or, true_iff]
      exact fun hf => hover hf.of_append
  | nil =>
      have hinv := h.invalid
      rw [List.isEmpty_nil, Bool.not_true] at hinv
      rw [chainRefuses, hinv, h.chain, hn, hl, h.split, List.append_nil]
      simp only [ChainFits, nePacketMaxSegs, neJumboFrameMax] at hfits
      simp only [Bool.false_or, Bool.or_eq_true, decide_eq_true_eq, ChainFits, List.length_append,
        List.length_singleton, List.map_append, List.map_cons, List.map_nil, List.sum_append,
        List.sum_cons, List.sum_nil, nePacketMaxSegs, neJumboFrameMax]
      omega

theorem NeXskQueue.reject_eq {q : NeXskQueue} (h : q.rxRejectAddrs.length < rxRejectMax) (a : Nat) :
    q.reject a = { q with rxRejectAddrs := q.rxRejectAddrs ++ [a] } := by
  rw [NeXskQueue.reject, if_pos h]

theorem foldl_reject {q : NeXskQueue} (as : List Nat)
    (h : q.rxRejectAddrs.length + as.length ≤ rxRejectMax) :
    as.foldl NeXskQueue.reject q = { q with rxRejectAddrs := q.rxRejectAddrs ++ as } := by
  induction as generalizing q with
  | nil => simp
  | cons a as ih =>
      rw [List.length_cons] at h
      rw [List.foldl_cons, NeXskQueue.reject_eq (by omega), ih]
      · simp
      · simp only [List.length_append, List.length_singleton]; omega

/-- Room left for the frames of the chains that may be rejected. -/
def NeXskQueue.rejectable (q : NeXskQueue) : Nat := q.rxRejectAddrs.length + q.rxChain.nsegs

/-- Taking a descriptor in, before it is asked whether it ends the chain. -/
theorem recvSeg_follows {op gone kept lost} {q : NeXskQueue} (h : Follows op gone q kept lost)
    (d : XdpDesc) (hroom : q.rejectable < rxRejectMax) :
    (∃ kept' lost', Follows (op ++ [d]) gone (recvSeg q d) kept' lost') ∧
      (recvSeg q d).rejectable = q.rejectable + 1 ∧ (recvSeg q d).rx = q.rx := by
  have hiff := chainRefuses_iff h d
  rw [NeXskQueue.rejectable] at hroom
  rw [recvSeg]
  by_cases hr : chainRefuses q d = true
  · rw [if_pos hr, NeXskQueue.reject_eq (by omega)]
    refine ⟨⟨kept, lost ++ [d], ?_, h.chain, h.fits, ?_, ?_, ?_⟩, ?_, rfl⟩
    · rw [h.split, List.append_assoc]
    · simp
    · exact fun _ => hiff.mp hr
    · rw [List.map_append, ← List.append_assoc, ← List.append_assoc]
      exact h.frames.append_right _
    · simp only [NeXskQueue.rejectable, List.length_append, List.length_singleton]; omega
  · rw [if_neg hr]
    have hf : ChainFits (op ++ [d]) := by
      by_contra hc; exact hr (hiff.mpr hc)
    have hlost : lost = [] := by
      by_contra hne; exact h.unfit hne hf.of_append
    have hop : op = kept := by rw [h.split, hlost, List.append_nil]
    refine ⟨⟨kept ++ [d], [], ?_, ?_, ?_, ?_, ?_, ?_⟩, ?_, rfl⟩
    · rw [hop, List.append_nil]
    · rw [chainOf_concat, ← h.chain]
    · rw [← hop]; exact hf
    · rw [h.invalid, hlost]
    · exact fun hne => absurd rfl hne
    · rw [hlost] at h; exact h.frames
    · simp only [NeXskQueue.rejectable, chainAppend]; omega

/-! ## streams that grow by one descriptor -/

theorem chains_concat_contd {h : List XdpDesc} {d : XdpDesc} (hc : d.contd = true) :
    rxOpen (h ++ [d]) = rxOpen h ++ [d] ∧ rxChains (h ++ [d]) = rxChains h := by
  rw [rxOpen, rxChains, chainsFrom_concat, chainStep, if_pos hc]
  exact ⟨rfl, rfl⟩

theorem chains_concat_last {h : List XdpDesc} {d : XdpDesc} (hc : d.contd = false) :
    rxOpen (h ++ [d]) = [] ∧ rxChains (h ++ [d]) = rxChains h ++ [rxOpen h ++ [d]] := by
  rw [rxOpen, rxChains, chainsFrom_concat, chainStep, if_neg (by rw [hc]; simp)]
  exact ⟨rfl, rfl⟩

/-- The queue has followed the stream `h`. -/
def Tracks (h : List XdpDesc) (q : NeXskQueue) : Prop :=
  ∃ kept lost, Follows (rxOpen h) (rejectedFrames h) q kept lost

theorem Tracks.of_eq {h : List XdpDesc} {q q' : NeXskQueue} (ht : Tracks h q)
    (hchain : q'.rxChain = q.rxChain) (hinv : q'.rxChainInvalid = q.rxChainInvalid)
    (hret : q'.returned = q.returned) (hrej : q'.rxRejectAddrs = q.rxRejectAddrs) : Tracks h q' := by
  obtain ⟨kept, lost, hf⟩ := ht
  refine ⟨kept, lost, hf.split, hchain.trans hf.chain, hf.fits, hinv.trans hf.invalid, hf.unfit, ?_⟩
  rw [hret, hrej]
  exact hf.frames

/-- A descriptor that ends its chain: the chain fits and is handed out, or it does not
and is given up. -/
theorem Follows.recvDesc_end {op gone kept lost} {q : NeXskQueue} {out : List NePacket} {max : Nat}
    {d : XdpDesc} (stamp : RxStamp) (hf : Follows (op ++ [d]) gone (recvSeg q d) kept lost)
    (hc : d.contd = false) (hout : out.length < max) :
    (ChainFits (op ++ [d]) ∧ lost = [] ∧ kept = op ++ [d] ∧
      recvDesc stamp max (q, out) d = ({ recvSeg q d with rxChain := NePacket.zero },
        out ++ [{ (recvSeg q d).rxChain with
          dir := stamp.dir, wanIdx := stamp.wanIdx, localIdx := stamp.localIdx, txSlot := 0 }])) ∨
    (¬ ChainFits (op ++ [d]) ∧ lost ≠ [] ∧
      recvDesc stamp max (q, out) d = (rejectChain (recvSeg q d), out)) := by
  rw [recvDesc]
  dsimp only
  rw [if_neg (by simp [hc])]
  have hn : (recvSeg q d).rxChain.nsegs = kept.length := by
    rw [hf.chain]; exact (chainOf_spec kept).1
  by_cases hfits : ChainFits (op ++ [d])
  · have hlost : lost = [] := by
      by_contra hne; exact hf.unfit hne hfits
    have hinv : (recvSeg q d).rxChainInvalid = false := by rw [hf.invalid, hlost]; rfl
    have hkept : kept = op ++ [d] := by rw [hf.split, hlost, List.append_nil]
    have hne : (recvSeg q d).rxChain.nsegs ≠ 0 := by rw [hn, hkept]; simp
    have hgo : ¬ ((recvSeg q d).rxChainInvalid = true ∨ (recvSeg q d).rxChain.nsegs = 0 ∨
        out.length ≥ max) := by
      rw [hinv]
      simp only [Bool.false_eq_true, false_or, not_or]
      exact ⟨hne, by omega⟩
    rw [if_neg hgo]
    exact .inl ⟨hfits, hlost, hkept, rfl⟩
  · have hlost : lost ≠ [] := by
      intro hl
      have hkept : kept = op ++ [d] := by rw [hf.split, hl, List.append_nil]
      exact hfits (hkept ▸ hf.fits)
    have hinv : (recvSeg q d).rxChainInvalid = true := by
      rw [hf.invalid]
      cases hl : lost with
      | nil => exact absurd hl hlost
      | cons => rfl
    rw [if_pos (.inl hinv)]
    exact .inr ⟨hfits, hlost, rfl⟩

/-- A chain that is given up leaves the frames it kept behind those that were refused. -/
theorem Follows.rejectChain {op gone kept lost} {q : NeXskQueue} (h : Follows op gone q kept lost)
    (hroom : q.rejectable ≤ rxRejectMax) :
    NetworkEncryptor.rejectChain q = { q with
      rxRejectAddrs := q.rxRejectAddrs ++ kept.map XdpDesc.addr
      rxChainDropped := q.rxChainDropped + 1
      rxChain := NePacket.zero, rxChainInvalid := false } ∧
    (q.returned ++ (q.rxRejectAddrs ++ kept.map XdpDesc.addr)).Perm (gone ++ op.map XdpDesc.addr) := by
  have hn : q.rxChain.nsegs = kept.length := by
    rw [h.chain]; exact (chainOf_spec kept).1
  have haddrs : q.rxChain.addrs q.rxChain.nsegs = kept.map XdpDesc.addr := by
    rw [hn, h.chain]; exact (chainOf_spec kept).2.2
  constructor
  · rw [NetworkEncryptor.rejectChain, haddrs, foldl_reject]
    rw [NeXskQueue.rejectable, hn] at hroom
    rw [List.length_map]
    omega
  · rw [h.split, List.map_append, ← List.append_assoc]
    refine (h.frames.append_right _).trans ?_
    rw [List.append_assoc]
    exact List.perm_append_comm.append_left _

/-- The loop body keeps track of the stream, and hands out a packet for every
accepted chain. -/
theorem recvDesc_tracks {h : List XdpDesc} {q : NeXskQueue} {out : List NePacket} {max : Nat}
    {stamp : RxStamp} (ht : Tracks h q) (d : XdpDesc) (hroom : q.rejectable < rxRejectMax)
    (hout : out.length < max) {r : NeXskQueue × List NePacket}
    (hr : recvDesc stamp max (q, out) d = r) :
    Tracks (h ++ [d]) r.1 ∧ r.1.rejectable ≤ q.rejectable + 1 ∧ r.1.rx = q.rx ∧
      r.2.length + (acceptedChains h).length = out.length + (acceptedChains (h ++ [d])).length := by
  obtain ⟨kept, lost, hf⟩ := ht
  obtain ⟨⟨kept', lost', hf'⟩, hrj, hrx⟩ := recvSeg_follows hf d hroom
  have hzero : NePacket.zero.nsegs = 0 := rfl
  cases hc : d.contd with
  | true =>
      obtain ⟨hopen, hchains⟩ := chains_concat_contd (h := h) hc
      have hgone : rejectedFrames (h ++ [d]) = rejectedFrames h := by
        rw [rejectedFrames, rejectedFrames, hchains]
      have hacc : acceptedChains (h ++ [d]) = acceptedChains h := by
        rw [acceptedChains, acceptedChains, hchains]
      rw [← hr, recvDesc, if_pos hc, hacc]
      refine ⟨⟨kept', lost', ?_⟩, Nat.le_of_eq hrj, hrx, rfl⟩
      rw [hopen, hgone]
      exact hf'
  | false =>
      obtain ⟨hopen, hchains⟩ := chains_concat_last (h := h) hc
      rcases hf'.recvDesc_end stamp hc hout with ⟨hfits, hlost, hkept, heq⟩ | ⟨hfits, -, heq⟩
      · have hgone : rejectedFrames (h ++ [d]) = rejectedFrames h := by
          rw [rejectedFrames, rejectedFrames, hchains]
          simp [hfits]
        have hacc : (acceptedChains (h ++ [d])).length = (acceptedChains h).length + 1 := by
          rw [acceptedChains, acceptedChains, hchains]
          simp [hfits]
        rw [← hr, heq, hacc]
        refine ⟨⟨[], [], ?_, rfl, ?_, ?_, ?_, ?_⟩, ?_, hrx, ?_⟩
        · rw [hopen]; rfl
        · decide
        · dsimp only; rw [hf'.invalid, hlost]
        · exact fun hne => absurd rfl hne
        · rw [hgone]
          have := hf'.frames
          rw [hlost] at this
          exact this
        · rw [NeXskQueue.rejectable] at hrj ⊢
          dsimp only
          omega
        · rw [List.length_append, List.length_singleton]; omega
      · have hgone : rejectedFrames (h ++ [d]) =
            rejectedFrames h ++ (rxOpen h ++ [d]).map XdpDesc.addr := by
          rw [rejectedFrames, rejectedFrames, hchains]
          simp [hfits]
        have hacc : acceptedChains (h ++ [d]) = acceptedChains h := by
          rw [acceptedChains, acceptedChains, hchains]
          simp [hfits]
        have hn : (recvSeg q d).rxChain.nsegs = kept'.length := by
          rw [hf'.chain]; exact (chainOf_spec kept').1
        obtain ⟨hfold, hperm⟩ := hf'.rejectChain (by omega)
        rw [← hr, heq, hfold, hacc]
        refine ⟨⟨[], [], ?_, rfl, ?_, rfl, ?_, ?_⟩, ?_, hrx, rfl⟩
        · rw [hopen]; rfl
        · decide
        · exact fun hne => absurd rfl hne
        · rw [hgone, List.map_nil, List.append_nil]
          exact hperm
        · rw [NeXskQueue.rejectable] at hrj ⊢
          dsimp only
          rw [List.length_append, List.length_map]
          omega

/-- A descriptor ends at most one packet. -/
theorem recvDesc_length_le {stamp : RxStamp} {max : Nat} {q : NeXskQueue} {out : List NePacket}
    {d : XdpDesc} {r : NeXskQueue × List NePacket} (hr : recvDesc stamp max (q, out) d = r) :
    r.2.length ≤ out.length + 1 := by
  rw [← hr, recvDesc]
  dsimp only
  split
  · exact Nat.le_succ _
  · split
    · exact Nat.le_succ _
    · rw [List.length_append, List.length_singleton]

/-- The loop of `recv_queue`. -/
theorem recvDescs_tracks {stamp : RxStamp} {max : Nat} (ds : List XdpDesc) :
    ∀ {h : List XdpDesc} {q : NeXskQueue} {out : List NePacket} {r : NeXskQueue × List NePacket},
      Tracks h q → q.rejectable + ds.length ≤ rxRejectMax → out.length + ds.length ≤ max →
      ds.foldl (recvDesc stamp max) (q, out) = r →
      Tracks (h ++ ds) r.1 ∧ r.1.rejectable ≤ q.rejectable + ds.length ∧ r.1.rx = q.rx ∧
        r.2.length + (acceptedChains h).length = out.length + (acceptedChains (h ++ ds)).length := by
  induction ds with
  | nil =>
      intro h q out r ht _ _ hr
      rw [← hr, List.append_nil]
      exact ⟨ht, Nat.le_refl _, rfl, rfl⟩
  | cons d ds ih =>
      intro h q out r ht hroom hout hr
      rw [List.length_cons] at hroom hout
      cases hd : recvDesc stamp max (q, out) d with
      | mk q1 out1 =>
          obtain ⟨ht1, hrj1, hrx1, hlen1⟩ := recvDesc_tracks ht d (by omega) (by omega) hd
          have hone : out1.length ≤ out.length + 1 := recvDesc_length_le hd
          rw [List.foldl_cons, hd] at hr
          dsimp only at ht1 hrj1 hrx1 hlen1
          obtain ⟨ht2, hrj2, hrx2, hlen2⟩ := ih ht1 (by omega) (by omega) hr
          rw [List.append_assoc, List.singleton_append] at ht2 hlen2
          rw [List.length_cons]
          exact ⟨ht2, by omega, hrx2.trans hrx1, by omega⟩

/-! ## one queue -/

theorem xskRingConsPeek_spec {α : Type} (r : XskRingCons α) (nb : Nat) :
    (xskRingConsPeek r nb).1 ++ (xskRingConsPeek r nb).2.waiting = r.waiting ∧
      (xskRingConsPeek r nb).2.peeked = r.peeked ++ (xskRingConsPeek r nb).1 ∧
      (xskRingConsPeek r nb).2.released = r.released ∧ (xskRingConsPeek r nb).1.length ≤ nb := by
  have hwait : r.refresh.waiting = r.waiting := by
    rw [XskRingCons.refresh]
    split
    · rename_i h
      rw [XskRingCons.waiting, XskRingCons.waiting, List.isEmpty_iff.mp h]
      simp
    · rfl
  have hsame : r.refresh.peeked = r.peeked ∧ r.refresh.released = r.released := by
    rw [XskRingCons.refresh]
    split <;> exact ⟨rfl, rfl⟩
  refine ⟨?_, ?_, hsame.2, ?_⟩
  · rw [← hwait, xskRingConsPeek, XskRingCons.waiting, XskRingCons.waiting, ← List.append_assoc,
      List.take_append_drop]
  · rw [← hsame.1]; rfl
  · exact List.length_take_le _ _

/-- Nothing of the queue is left over from the last iteration. -/
structure Settled (q : NeXskQueue) : Prop where
  tracks : Tracks q.rx.peeked q
  rejects : q.rxRejectAddrs = []
  pending : q.rxPending = 0
  consumer : q.rx.released = q.rx.peeked.length

/-- A queue between the receive and the release. -/
structure Unreleased (q : NeXskQueue) : Prop where
  tracks : Tracks q.rx.peeked q
  consumer : q.rx.released + q.rxPending = q.rx.peeked.length
  rejects : q.rxPending = 0 → q.rxRejectAddrs = []

theorem Settled.unreleased {q : NeXskQueue} (h : Settled q) : Unreleased q :=
  ⟨h.tracks, by rw [h.pending, h.consumer]; rfl, fun _ => h.rejects⟩

/-- The pending count is forgotten before the next receive. -/
theorem Settled.forget {q : NeXskQueue} (h : Settled q) : Settled { q with rxPending := 0 } :=
  ⟨h.tracks.of_eq rfl rfl rfl rfl, h.rejects, rfl, h.consumer⟩

/-- The fill ring and newly published descriptors do not matter. -/
theorem Settled.of_fresh {q : NeXskQueue} (h : Settled q) (fq : XskRingProd Nat) (es : List XdpDesc) :
    Settled { q with fq := fq, rx := q.rx.publish es } :=
  ⟨h.tracks.of_eq rfl rfl rfl rfl, h.rejects, h.pending, h.consumer⟩

/-- With nothing peeked there is nothing to release. -/
theorem Unreleased.settled {q : NeXskQueue} (h : Unreleased q) (hp : q.rxPending = 0) : Settled q :=
  ⟨h.tracks, h.rejects hp, hp, by have := h.consumer; rw [hp] at this; exact this⟩

/-- A settled queue meets the claim of the RX loop. -/
theorem Settled.accounted {q : NeXskQueue} (h : Settled q) : Accounted q := by
  obtain ⟨kept, lost, hf⟩ := h.tracks
  refine ⟨h.consumer, ?_⟩
  have hfr := hf.frames
  rw [h.rejects, List.append_nil] at hfr
  exact (List.sublist_append_left _ _).subperm.trans hfr.symm.subperm

theorem Tracks.nsegs_le {h : List XdpDesc} {q : NeXskQueue} (ht : Tracks h q) :
    q.rxChain.nsegs ≤ nePacketMaxSegs := by
  obtain ⟨kept, lost, hf⟩ := ht
  rw [hf.chain, (chainOf_spec kept).1]
  exact hf.fits.1

theorem acceptedChains_append (h ds : List XdpDesc) :
    acceptedChains (h ++ ds) = acceptedChains h ++
      (chainsFrom XdpDesc.contd (rxOpen h) ds).1.filter fun ch => ChainFits ch := by
  rw [acceptedChains, rxChains, chainsFrom_append, List.filter_append]
  rfl

/-- `recv_queue` on a settled queue. -/
theorem recvQueue_spec {q : NeXskQueue} {max : Nat} {stamp : RxStamp} (hq : Settled q)
    (hmax : max ≤ neBatchSize) {r : NeXskQueue × List NePacket} (hr : recvQueue q max stamp = r) :
    Unreleased r.1 ∧ r.1.rxPending = (xskRingConsPeek q.rx max).1.length ∧ r.1.rxHeld ≤ q.rxHeld ∧
      (r.2 = [] ↔ ∀ ch ∈ (chainsFrom XdpDesc.contd (rxOpen q.rx.peeked)
        (xskRingConsPeek q.rx max).1).1, ¬ ChainFits ch) := by
  obtain ⟨hwait, hpeek, hrel, hlen⟩ := xskRingConsPeek_spec q.rx max
  have hn := hq.tracks.nsegs_le
  generalize hp : xskRingConsPeek q.rx max = p at hwait hpeek hrel hlen
  generalize hf : p.1.foldl (recvDesc stamp max) ({ q with rx := p.2 }, []) = f
  have htr : Tracks q.rx.peeked { q with rx := p.2 } := hq.tracks.of_eq rfl rfl rfl rfl
  have hrj : ({ q with rx := p.2 } : NeXskQueue).rejectable = q.rxChain.nsegs := by
    rw [NeXskQueue.rejectable, hq.rejects]; simp
  have hroom : ({ q with rx := p.2 } : NeXskQueue).rejectable + p.1.length ≤ rxRejectMax := by
    rw [hrj, rxRejectMax]; omega
  obtain ⟨ht, hrj', hrx, hout⟩ := recvDescs_tracks p.1 htr hroom (by simpa using hlen) hf
  rw [recvQueue, hp] at hr
  dsimp only at hr
  rw [hf] at hr
  rw [← hr]
  dsimp only at hrx
  refine ⟨⟨?_, ?_, ?_⟩, rfl, ?_, ?_⟩
  · dsimp only
    rw [hrx, hpeek]
    exact ht.of_eq rfl rfl rfl rfl
  · dsimp only
    rw [hrx, hpeek, hrel, hq.consumer, List.length_append]
  · intro hzero
    have hnil : p.1 = [] := List.eq_nil_of_length_eq_zero hzero
    rw [hnil] at hf
    rw [← hf]
    exact hq.rejects
  · have hwl := congrArg List.length hwait
    rw [List.length_append] at hwl
    have hz := hq.rejects
    rw [NeXskQueue.rejectable] at hrj'
    rw [NeXskQueue.rxHeld, NeXskQueue.rxHeld, hz]
    dsimp only
    rw [hrx]
    rw [hrj] at hrj'
    simp only [List.length_nil]
    omega
  · dsimp only
    rw [acceptedChains_append, List.length_append, List.length_nil] at hout
    have hcount : f.2.length = ((chainsFrom XdpDesc.contd (rxOpen q.rx.peeked) p.1).1.filter
        fun ch => ChainFits ch).length := by omega
    rw [← List.length_eq_zero_iff, hcount, List.length_eq_zero_iff, List.filter_eq_nil_iff]
    simp only [decide_eq_true_eq]

/-- `release_rx_queue` settles the queue, when the pool has room. -/
theorem releaseRxQueue_spec {q : NeXskQueue} (pool : NePool) (hq : Unreleased q)
    (hroom : pool.frames.length + q.rxRejectAddrs.length ≤ pool.cap) :
    Settled (releaseRxQueue q pool).1 ∧ (releaseRxQueue q pool).2.cap = pool.cap ∧
      (releaseRxQueue q pool).2.frames.length = pool.frames.length + q.rxRejectAddrs.length := by
  obtain ⟨kept, lost, hf⟩ := hq.tracks
  generalize hq1 : (if q.rxPending ≠ 0 then
    { q with rx := xskRingConsRelease q.rx q.rxPending, rxPending := 0 } else q) = q1
  have hfields : q1.rx.peeked = q.rx.peeked ∧ q1.rxRejectAddrs = q.rxRejectAddrs ∧
      q1.rxPending = 0 ∧ q1.rx.released = q.rx.peeked.length ∧
      Follows (rxOpen q.rx.peeked) (rejectedFrames q.rx.peeked) q1 kept lost := by
    have hc := hq.consumer
    rw [← hq1]
    by_cases hp : q.rxPending ≠ 0
    · rw [if_pos hp]
      exact ⟨rfl, rfl, rfl, hc, ⟨hf.split, hf.chain, hf.fits, hf.invalid, hf.unfit, hf.frames⟩⟩
    · rw [if_neg hp]
      rw [not_not] at hp
      rw [hp] at hc
      exact ⟨rfl, rfl, hp, hc, hf⟩
  obtain ⟨hpk, hrj, hpd, hrel, hf1⟩ := hfields
  rw [releaseRxQueue]
  dsimp only
  rw [hq1, hrj]
  by_cases hz : q.rxRejectAddrs.length ≠ 0
  · have hput : min q.rxRejectAddrs.length (pool.cap - pool.frames.length) =
        q.rxRejectAddrs.length := by omega
    rw [if_pos hz, poolPush]
    simp only [hput, List.take_length]
    refine ⟨⟨⟨kept, lost, ?_, hf1.chain, hf1.fits, hf1.invalid, ?_, ?_⟩, rfl, hpd, ?_⟩, trivial, ?_⟩
    · dsimp only; rw [hpk]; exact hf1.split
    · dsimp only; rw [hpk]; exact hf1.unfit
    · dsimp only
      rw [hpk, List.append_nil, ← hrj]
      exact hf1.frames
    · dsimp only; rw [hrel, hpk]
    · rw [List.length_append]
  · rw [if_neg hz]
    rw [not_not] at hz
    refine ⟨⟨⟨kept, lost, ?_⟩, ?_, hpd, ?_⟩, rfl, ?_⟩
    · rw [hpk]; exact hf1
    · rw [hrj]; exact List.eq_nil_of_length_eq_zero hz
    · rw [hrel, hpk]
    · rw [hz]; rfl

/-! ## the queues of a slot -/

theorem Ifaces.nodup_rxQueues (ifs : Ifaces) (rxSlot rxSlots : Nat) :
    (ifs.rxQueues rxSlot rxSlots).Nodup := by
  rw [Ifaces.rxQueues, List.nodup_flatMap]
  refine ⟨?_, ?_⟩
  · intro i _
    exact (List.nodup_range.filter _).map fun a b hab => (Prod.mk.inj hab).2
  · refine List.nodup_range.imp ?_
    intro i j hij k hi hj
    obtain ⟨a, -, ha⟩ := List.mem_map.mp hi
    obtain ⟨b, -, hb⟩ := List.mem_map.mp hj
    exact hij (by rw [← hb] at ha; exact (Prod.mk.inj ha).1)

theorem RxThread.nodup_polled (t : RxThread) : t.polled.Nodup :=
  (t.ifs.nodup_rxQueues t.rxSlot t.rxSlots).filter _

theorem neRecvSlot_of_not_mem (t : RxThread) (max : Nat) {k : Nat × Nat} (ks : List (Nat × Nat)) :
    ∀ {qs : Queues} {out : List NePacket}, k ∉ ks → (neRecvSlot t max ks qs out).1 k = qs k := by
  induction ks with
  | nil => intro qs out _; rfl
  | cons k' ks ih =>
      intro qs out hk
      rw [List.mem_cons, not_or] at hk
      rw [neRecvSlot]
      split
      · rfl
      · rw [ih hk.2, Function.update_of_ne hk.1]

/-- Receiving on a list of queues. -/
theorem neRecvSlot_unreleased (t : RxThread) {max : Nat} (hmax : max ≤ neBatchSize)
    {k : Nat × Nat} (ks : List (Nat × Nat)) :
    ∀ (qs : Queues) (out : List NePacket), ks.Nodup → Settled (qs k) →
      Unreleased ((neRecvSlot t max ks qs out).1 k) ∧
        ((neRecvSlot t max ks qs out).1 k).rxHeld ≤ (qs k).rxHeld := by
  induction ks with
  | nil => intro qs out _ hk; exact ⟨hk.unreleased, Nat.le_refl _⟩
  | cons k' ks ih =>
      intro qs out hnd hk
      rw [List.nodup_cons] at hnd
      rw [neRecvSlot]
      by_cases hfull : out.length ≥ max
      · rw [if_pos hfull]; exact ⟨hk.unreleased, Nat.le_refl _⟩
      · rw [if_neg hfull]
        by_cases hkk : k = k'
        · have hs : Settled { qs k' with rxPending := 0 } := by
            rw [← hkk]; exact hk.forget
          generalize hr : recvQueue { qs k' with rxPending := 0 } (max - out.length)
            (rxStamp t.dir k'.1) = r
          have hspec := recvQueue_spec hs (show max - out.length ≤ _ by omega) hr
          rw [neRecvSlot_of_not_mem t max ks (hkk ▸ hnd.1), hkk, Function.update_self]
          exact ⟨hspec.1, hspec.2.2.1⟩
        · generalize recvQueue { qs k' with rxPending := 0 } (max - out.length) (rxStamp t.dir k'.1) = r
          have hsame : Function.update qs k' r.1 k = qs k := Function.update_of_ne hkk _ _
          have hrest := ih (Function.update qs k' r.1) (out ++ r.2) hnd.2 (by rw [hsame]; exact hk)
          rw [hsame] at hrest
          exact hrest

/-- What was received stays received. -/
theorem neRecvSlot_length_le (t : RxThread) (max : Nat) (ks : List (Nat × Nat)) :
    ∀ (qs : Queues) (out : List NePacket), out.length ≤ (neRecvSlot t max ks qs out).2.length := by
  induction ks with
  | nil => intro qs out; exact Nat.le_refl _
  | cons k' ks ih =>
      intro qs out
      rw [neRecvSlot]
      split
      · exact Nat.le_refl _
      · refine Nat.le_trans ?_ (ih _ _)
        rw [List.length_append]
        omega

/-- An iteration receives nothing exactly when no queue completes a packet, and
then it has peeked what every queue had. -/
theorem neRecvSlot_empty_iff (t : RxThread) (ks : List (Nat × Nat)) :
    ∀ (qs : Queues), ks.Nodup → (∀ k ∈ ks, Settled (qs k)) →
      ((neRecvSlot t neBatchSize ks qs []).2.length = 0 ↔ ∀ k ∈ ks, ¬ Completes (qs k)) ∧
        ((neRecvSlot t neBatchSize ks qs []).2.length = 0 →
          ∀ k ∈ ks, ((neRecvSlot t neBatchSize ks qs []).1 k).rxPending = (rxPortion (qs k)).length) := by
  induction ks with
  | nil =>
      intro qs _ _
      exact ⟨⟨fun _ k hk => absurd hk (List.not_mem_nil), fun _ => rfl⟩,
        fun _ k hk => absurd hk (List.not_mem_nil)⟩
  | cons k' ks ih =>
      intro qs hnd hs
      rw [List.nodup_cons] at hnd
      have hk' := hs k' (List.mem_cons_self ..)
      generalize hr : recvQueue { qs k' with rxPending := 0 } neBatchSize (rxStamp t.dir k'.1) = r
      obtain ⟨-, hpend, -, hnil⟩ := recvQueue_spec hk'.forget (Nat.le_refl _) hr
      have hstep : neRecvSlot t neBatchSize (k' :: ks) qs [] =
          neRecvSlot t neBatchSize ks (Function.update qs k' r.1) r.2 := by
        rw [neRecvSlot, if_neg (by simp)]
        dsimp only
        rw [List.length_nil, Nat.sub_zero, hr, List.nil_append]
      have hcomp : r.2 = [] ↔ ¬ Completes (qs k') := by
        rw [hnil, Completes]
        simp only [not_exists, not_and]
        rfl
      have hrest : ∀ k ∈ ks, Function.update qs k' r.1 k = qs k := by
        intro k hk
        have hne : k ≠ k' := by intro h; rw [h] at hk; exact hnd.1 hk
        exact Function.update_of_ne hne _ _
      rw [hstep]
      by_cases hout : r.2 = []
      · rw [hout]
        obtain ⟨hiff, hpending⟩ := ih (Function.update qs k' r.1) hnd.2 (by
          intro k hk; rw [hrest k hk]; exact hs k (List.mem_cons_of_mem _ hk))
        rw [hiff]
        refine ⟨⟨?_, ?_⟩, ?_⟩
        · intro h k hk
          rcases List.mem_cons.mp hk with rfl | hk
          · exact hcomp.mp hout
          · rw [← hrest k hk]; exact h k hk
        · intro h k hk
          rw [hrest k hk]
          exact h k (List.mem_cons_of_mem _ hk)
        · intro h k hk
          rcases List.mem_cons.mp hk with rfl | hk
          · rw [neRecvSlot_of_not_mem t neBatchSize ks hnd.1, Function.update_self]
            exact hpend
          · rw [← hrest k hk]
            exact hpending (hiff.mpr h) k hk
      · have hpos : (neRecvSlot t neBatchSize ks (Function.update qs k' r.1) r.2).2.length ≠ 0 := by
          have hle := neRecvSlot_length_le t neBatchSize ks (Function.update qs k' r.1) r.2
          have hlen : r.2.length ≠ 0 := fun h => hout (List.eq_nil_of_length_eq_zero h)
          omega
        refine ⟨⟨fun h => absurd h hpos, fun h => ?_⟩, fun h => absurd h hpos⟩
        exact absurd (hcomp.mpr (h k' (List.mem_cons_self ..))) hout

theorem neRecvReleaseSlot_of_not_mem {k : Nat × Nat} (ks : List (Nat × Nat)) :
    ∀ {qs : Queues} {pool : NePool}, k ∉ ks → (neRecvReleaseSlot ks qs pool).1 k = qs k := by
  induction ks with
  | nil => intro qs pool _; rfl
  | cons k' ks ih =>
      intro qs pool hk
      rw [List.mem_cons, not_or] at hk
      rw [neRecvReleaseSlot, ih hk.2, Function.update_of_ne hk.1]

/-- The release settles all queues of the slot. -/
theorem neRecvReleaseSlot_settled (ks : List (Nat × Nat)) :
    ∀ {qs : Queues} {pool : NePool}, ks.Nodup → (∀ k ∈ ks, Unreleased (qs k)) →
      pool.frames.length + (ks.map fun k => (qs k).rxHeld).sum ≤ pool.cap →
      ∀ k ∈ ks, Settled ((neRecvReleaseSlot ks qs pool).1 k) := by
  induction ks with
  | nil => intro qs pool _ _ _ k hk; exact absurd hk (List.not_mem_nil)
  | cons k' ks ih =>
      intro qs pool hnd hu hroom k hk
      rw [List.nodup_cons] at hnd
      rw [List.map_cons, List.sum_cons] at hroom
      have hheld : (qs k').rxRejectAddrs.length ≤ (qs k').rxHeld := by
        rw [NeXskQueue.rxHeld]; omega
      obtain ⟨hs, hcap, hfr⟩ := releaseRxQueue_spec pool (hu k' (List.mem_cons_self ..))
        (by omega)
      have hrest : ∀ k ∈ ks, Function.update qs k' (releaseRxQueue (qs k') pool).1 k = qs k := by
        intro k hk
        have hne : k ≠ k' := by intro h; rw [h] at hk; exact hnd.1 hk
        exact Function.update_of_ne hne _ _
      rw [neRecvReleaseSlot]
      rcases List.mem_cons.mp hk with rfl | hk
      · rw [neRecvReleaseSlot_of_not_mem ks hnd.1, Function.update_self]
        exact hs
      · refine ih hnd.2 ?_ ?_ k hk
        · intro k hk; rw [hrest k hk]; exact hu k (List.mem_cons_of_mem _ hk)
        · have hsum : (ks.map fun k => (Function.update qs k' (releaseRxQueue (qs k') pool).1 k).rxHeld) =
              ks.map fun k => (qs k).rxHeld := List.map_congr_left fun k hk => by rw [hrest k hk]
          rw [hsum, hcap, hfr]
          omega

/-! ## one iteration -/

theorem refillFqQueue_fst (q : NeXskQueue) (pool : NePool) :
    ∃ fq, (refillFqQueue q pool).1 = { q with fq := fq } := by
  rw [refillFqQueue]
  dsimp only
  generalize poolPop pool _ = got
  split
  · exact ⟨_, rfl⟩
  · split
    · exact ⟨_, rfl⟩
    · split
      · exact ⟨_, rfl⟩
      · exact ⟨_, rfl⟩

theorem neRefillFqSlot_fst {k : Nat × Nat} (ks : List (Nat × Nat)) :
    ∀ (qs : Queues) (pool : NePool), ∃ fq, (neRefillFqSlot ks qs pool).1 k = { qs k with fq := fq } := by
  induction ks with
  | nil => intro qs pool; exact ⟨_, rfl⟩
  | cons k' ks ih =>
      intro qs pool
      rw [neRefillFqSlot]
      obtain ⟨fq, hfq⟩ := ih (Function.update qs k' (refillFqQueue (qs k') pool).1)
        (refillFqQueue (qs k') pool).2
      rw [hfq]
      by_cases hkk : k = k'
      · obtain ⟨fq', hfq'⟩ := refillFqQueue_fst (qs k') pool
        rw [hkk, Function.update_self, hfq']
        exact ⟨fq, rfl⟩
      · rw [Function.update_of_ne hkk]
        exact ⟨fq, rfl⟩

/-- An iteration that starts with settled queues ends so exactly when it finds
nothing or completes a packet. -/
theorem rxIteration_spec {t : RxThread} {qs : Queues} {e : RxRound}
    (hs : ∀ k ∈ t.owned, Settled (qs k)) (hroom : PoolHasRoom t qs e) :
    (Productive t qs e → ∀ k ∈ t.owned, Settled (rxIteration t qs e k)) ∧
      (¬ Productive t qs e → ∃ k ∈ t.owned, ¬ Accounted (rxIteration t qs e k)) := by
  have hsub : ∀ k ∈ t.polled, k ∈ t.owned := fun k hk => List.mem_of_mem_filter hk
  have hnd : t.owned.Nodup := t.ifs.nodup_rxQueues t.rxSlot t.rxSlots
  generalize hf : (neRefillFqSlot t.polled (e.publish qs) e.pool).1 = f
  have hfq : ∀ k, ∃ fq, f k = { e.publish qs k with fq := fq } := by
    intro k; rw [← hf]; exact neRefillFqSlot_fst t.polled (e.publish qs) e.pool
  have hsf : ∀ k ∈ t.owned, Settled (f k) := by
    intro k hk
    obtain ⟨fq, h⟩ := hfq k
    rw [h]
    exact (hs k hk).of_fresh fq (e.arrivals k)
  have hport : ∀ k, rxPortion (f k) = rxPortion (e.publish qs k) := by
    intro k; obtain ⟨fq, h⟩ := hfq k; rw [h]; rfl
  have hcomp : ∀ k, Completes (f k) ↔ Completes (e.publish qs k) := by
    intro k; obtain ⟨fq, h⟩ := hfq k; rw [h]; rfl
  have hheld : ∀ k, (f k).rxHeld = (e.publish qs k).rxHeld := by
    intro k; obtain ⟨fq, h⟩ := hfq k; rw [h]; rfl
  obtain ⟨hempty, hpending⟩ := neRecvSlot_empty_iff t t.polled f t.nodup_polled
    fun k hk => hsf k (hsub k hk)
  have hun : ∀ k ∈ t.owned, Unreleased ((neRecvSlot t neBatchSize t.polled f []).1 k) ∧
      ((neRecvSlot t neBatchSize t.polled f []).1 k).rxHeld ≤ (f k).rxHeld := fun k hk =>
    neRecvSlot_unreleased t (Nat.le_refl _) t.polled f [] t.nodup_polled (hsf k hk)
  have hskip : ∀ k ∉ t.polled, (neRecvSlot t neBatchSize t.polled f []).1 k = f k := fun k hk =>
    neRecvSlot_of_not_mem t neBatchSize t.polled hk
  have hrun : rxIteration t qs e =
      if (neRecvSlot t neBatchSize t.polled f []).2.length = 0 then
        (neRecvSlot t neBatchSize t.polled f []).1
      else (neRecvReleaseSlot t.owned (neRecvSlot t neBatchSize t.polled f []).1 e.poolLater).1 := by
    rw [← hf]; rfl
  generalize neRecvSlot t neBatchSize t.polled f [] = r at hempty hpending hun hskip hrun
  rw [hrun]
  by_cases hz : r.2.length = 0
  · have hnone := hempty.mp hz
    have hpend := hpending hz
    rw [if_pos hz]
    refine ⟨?_, ?_⟩
    · intro hprod k hk
      refine (hun k hk).1.settled ?_
      by_cases hp : k ∈ t.polled
      · rcases hprod with hnil | ⟨k', hk', hc⟩
        · rw [hpend k hp, hport k, hnil k hp]; rfl
        · exact absurd ((hcomp k').mpr hc) (hnone k' hk')
      · rw [hskip k hp]
        exact (hsf k hk).pending
    · intro hprod
      rw [Productive, not_or] at hprod
      have hsome : ∃ k ∈ t.polled, rxPortion (e.publish qs k) ≠ [] := by
        by_contra hc
        exact hprod.1 fun k hk => by_contra fun hne => hc ⟨k, hk, hne⟩
      obtain ⟨k, hk, hne⟩ := hsome
      refine ⟨k, hsub k hk, fun hacc => ?_⟩
      have hcons := (hun k (hsub k hk)).1.consumer
      have hpos := List.length_pos_of_ne_nil hne
      rw [hacc.consumer, hpend k hk, hport k] at hcons
      omega
  · have hsome : ∃ k ∈ t.polled, Completes (e.publish qs k) := by
      by_contra hc
      rw [not_exists] at hc
      exact hz (hempty.mpr fun k hk h => hc k ⟨hk, (hcomp k).mp h⟩)
    rw [if_neg hz]
    refine ⟨?_, ?_⟩
    · intro _ k hk
      refine neRecvReleaseSlot_settled t.owned hnd (fun k hk => (hun k hk).1) ?_ k hk
      have hsum : (t.owned.map fun k => (r.1 k).rxHeld).sum ≤
          (t.owned.map fun k => (e.publish qs k).rxHeld).sum := by
        refine List.sum_le_sum ?_
        intro k hk
        rw [← hheld k]
        exact (hun k hk).2
      have := hroom
      rw [PoolHasRoom] at this
      omega
    · intro hprod
      exact absurd (.inr hsome) hprod

/-! ## runs -/

theorem settled_init : Settled NeXskQueue.init := by
  refine ⟨⟨[], [], rfl, rfl, ?_, rfl, ?_, ?_⟩, rfl, rfl, rfl⟩
  · decide
  · exact fun hne => absurd rfl hne
  · exact List.Perm.refl []

/-- After every iteration the RX thread has released what it peeked and
returned the frames of the rejected chains, on every queue of its slot, exactly
if every iteration that peeks a descriptor completes a packet. -/
theorem rx_accounted_iff (t : RxThread) (es : List RxRound)
    (hroom : Along (rxIteration t) (PoolHasRoom t) (fun _ => NeXskQueue.init) es) :
    Along (rxIteration t) (fun qs e => ∀ k ∈ t.owned, Accounted (rxIteration t qs e k))
        (fun _ => NeXskQueue.init) es ↔
      Along (rxIteration t) (Productive t) (fun _ => NeXskQueue.init) es := by
  have hinit : ∀ k ∈ t.owned, Settled ((fun _ => NeXskQueue.init : Queues) k) := fun _ _ => settled_init
  constructor
  · intro hacc
    refine (@Along.invariant _ _ _ _ _ (fun qs => ∀ k ∈ t.owned, Settled (qs k)) ?_ _ _ hinit
      (hroom.and hacc)).2
    intro qs e hs hp
    have hprod : Productive t qs e := by
      by_contra hn
      obtain ⟨k, hk, hna⟩ := (rxIteration_spec hs hp.1).2 hn
      exact hna (hp.2 k hk)
    exact ⟨(rxIteration_spec hs hp.1).1 hprod, hprod⟩
  · intro hprod
    refine (@Along.invariant _ _ _ _ _ (fun qs => ∀ k ∈ t.owned, Settled (qs k)) ?_ _ _ hinit
      (hroom.and hprod)).2
    intro qs e hs hp
    have hs' := (rxIteration_spec hs hp.1).1 hp.2
    exact ⟨hs', fun k hk => (hs' k hk).accounted⟩

/-- The LAN thread with one interface that has one queue. -/
def sampleRxThread : RxThread := ⟨.local, ⟨1, fun _ => true, fun _ => 1⟩, 0, neRxLanSlots⟩

/-- A chain of `n` descriptors of 1000 bytes each. -/
def sampleChain (n : Nat) : List XdpDesc :=
  (List.range n).map fun i => ⟨neFrame * i + 256, 1000, decide (i + 1 < n)⟩

/-- A round that finds `ds`, with an empty pool. -/
def sampleRound (ds : List XdpDesc) : RxRound :=
  ⟨fun _ => ds, ⟨[], neNFrames, 0⟩, ⟨[], neNFrames, 0⟩⟩

/-- A chain of five descriptors followed by a packet: nothing is lost. -/
theorem rx_accounted_sample :
    Along (rxIteration sampleRxThread)
      (fun qs e => ∀ k ∈ sampleRxThread.owned, Accounted (rxIteration sampleRxThread qs e k))
      (fun _ => NeXskQueue.init) [sampleRound [], sampleRound (sampleChain 5 ++ sampleChain 1)] := by
  refine (rx_accounted_iff sampleRxThread _ ?_).mpr ?_
  · refine ⟨?_, ?_, trivial⟩ <;> rw [PoolHasRoom] <;> decide +kernel
  · refine ⟨.inl (by decide +kernel), .inr ⟨(0, 0), by decide, sampleChain 1, ?_, ?_⟩, trivial⟩ <;>
      decide +kernel

/-- A chain of five descriptors alone: it is rejected, no packet comes of the
iteration, and neither the ring entries nor the frames are given back. -/
theorem rejected_chain_kept :
    ¬ ∀ (t : RxThread) (es : List RxRound),
      Along (rxIteration t) (PoolHasRoom t) (fun _ => NeXskQueue.init) es →
      Along (rxIteration t) (fun qs e => ∀ k ∈ t.owned, Accounted (rxIteration t qs e k))
        (fun _ => NeXskQueue.init) es := by
  intro hall
  have hroom : PoolHasRoom sampleRxThread (fun _ => NeXskQueue.init) (sampleRound (sampleChain 5)) := by
    rw [PoolHasRoom]; decide +kernel
  have hacc := hall sampleRxThread [sampleRound (sampleChain 5)] ⟨hroom, trivial⟩
  have hkeeps := hacc.1 (0, 0) (by decide)
  exact absurd hkeeps.consumer (by decide +kernel)

end NetworkEncryptor
