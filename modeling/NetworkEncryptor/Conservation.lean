import NetworkEncryptor.Custody
import NetworkEncryptor.Lib.Partition
import NetworkEncryptor.Pipeline
import NetworkEncryptor.RxLoop

/-!
# NetworkEncryptor.Conservation

No step of the process loses a UMEM frame or frees one twice: in every state
every frame has one place (`frames_conserved`).

A frame is known by its chunk, the address divided by the frame size, because
the address changes inside the chunk when the kernel receives into it.
-/

namespace NetworkEncryptor

/-! ## the queues of a socket -/

/-- All complete chains of the stream are accepted, and so is the open one. -/
def StreamFits (ds : List XdpDesc) : Prop := (∀ ch ∈ rxChains ds, ChainFits ch) ∧ ChainFits (rxOpen ds)

instance (ds : List XdpDesc) : Decidable (StreamFits ds) := inferInstanceAs (Decidable (_ ∧ _))

theorem StreamFits.of_append {as bs : List XdpDesc} (h : StreamFits (as ++ bs)) : StreamFits as := by
  have hall : ∀ ch ∈ rxChains (as ++ bs) ++ [rxOpen (as ++ bs)], ChainFits ch := by
    intro ch hch
    rcases List.mem_append.mp hch with hch | hch
    · exact h.1 ch hch
    · rw [List.mem_singleton.mp hch]; exact h.2
  rw [rxChains, rxOpen, chainsFrom_append] at hall
  refine ⟨fun ch hch => hall ch ?_, ?_⟩
  · exact List.mem_append_left _ (List.mem_append_left _ hch)
  · obtain ⟨ch, hch, rest, hpre⟩ := exists_prefix_of_chainsFrom XdpDesc.contd (rxOpen as) bs
    have hfit : ChainFits ch := hall ch (by
      rw [List.append_assoc]; exact List.mem_append_right _ hch)
    rw [← hpre] at hfit
    exact hfit.of_append

/-- The RX side of a queue whose stream is within the limits. -/
structure RxSound (q : NeXskQueue) : Prop where
  tracks : Tracks q.rx.peeked q
  fits : StreamFits (q.rx.peeked ++ q.rx.waiting)
  positive : ∀ d ∈ q.rx.waiting, 1 ≤ d.len
  chain : q.rxChain.Sound

/-- Nothing of such a stream is rejected. -/
theorem Tracks.rejects_eq_nil {h : List XdpDesc} {q : NeXskQueue} (ht : Tracks h q)
    (hfits : StreamFits h) : q.rxRejectAddrs = [] := by
  obtain ⟨kept, lost, hf⟩ := ht
  have hlost : lost = [] := by
    by_contra hne; exact hf.unfit hne hfits.2
  have hgone : rejectedFrames h = [] := by
    have hnone : (rxChains h).filter (fun ch => ¬ ChainFits ch) = [] := by
      rw [List.filter_eq_nil_iff]
      intro ch hch
      simp [hfits.1 ch hch]
    rw [rejectedFrames, hnone]
    rfl
  have hperm := hf.frames
  rw [hlost, hgone] at hperm
  exact (List.append_eq_nil_iff.mp hperm.eq_nil).2

/-- The chain has one frame more. -/
theorem frames_chainAppend (chain : NePacket) (d : XdpDesc) :
    (chainAppend chain d).frames = chain.frames ++ [d.addr] := by
  have hold : ∀ i ∈ List.range chain.nsegs,
      Function.update chain.segAddr chain.nsegs d.addr i = chain.segAddr i := fun i hi =>
    Function.update_of_ne (Nat.ne_of_lt (List.mem_range.mp hi)) _ _
  rw [NePacket.frames, NePacket.frames]
  simp only [chainAppend, packetSetSegAddr, NePacket.addrs, List.range_succ, List.map_append,
    List.map_cons, List.map_nil, Function.update_self]
  rw [List.map_congr_left hold]

theorem sound_chainAppend {chain : NePacket} {d : XdpDesc} (h : chain.Sound)
    (hn : chain.nsegs < nePacketMaxSegs) (hpos : 1 ≤ d.len) (hmax : d.len ≤ neJumboFrameMax) :
    (chainAppend chain d).Sound := by
  refine ⟨?_, ?_, fun h0 => absurd h0 (Nat.succ_ne_zero _)⟩
  · dsimp only [chainAppend]; omega
  · intro i hi
    dsimp only [chainAppend] at hi ⊢
    by_cases hi' : i = chain.nsegs
    · rw [hi', Function.update_self]; simp only [neJumboFrameMax] at hmax; omega
    · rw [Function.update_of_ne hi']; exact h.segCap i (by omega)

/-- Taking a descriptor in keeps its frame. -/
theorem recvSeg_frames {q : NeXskQueue} (d : XdpDesc) (hc : q.rxChain.Sound) (hpos : 1 ≤ d.len)
    (hroom : q.rejectable < rxRejectMax) :
    (recvSeg q d).rxChain.Sound ∧
      ((recvSeg q d).rxRejectAddrs ++ (recvSeg q d).rxChain.frames).Perm
        (q.rxRejectAddrs ++ q.rxChain.frames ++ [d.addr]) := by
  rw [NeXskQueue.rejectable] at hroom
  rw [recvSeg]
  by_cases hr : chainRefuses q d = true
  · rw [if_pos hr, NeXskQueue.reject_eq (by omega)]
    refine ⟨hc, ?_⟩
    dsimp only
    rw [List.append_assoc, List.append_assoc]
    exact List.perm_append_comm.append_left _
  · rw [if_neg hr]
    have hlim : q.rxChain.nsegs < nePacketMaxSegs ∧ d.len ≤ neJumboFrameMax := by
      simp only [chainRefuses, Bool.or_eq_true, decide_eq_true_eq] at hr
      omega
    refine ⟨sound_chainAppend hc hlim.1 hpos hlim.2, ?_⟩
    dsimp only
    rw [frames_chainAppend, List.append_assoc]

/-- The loop body of `recv_queue` keeps the frames, whether the chain is handed
out or rejected. -/
theorem recvDesc_frames {stamp : RxStamp} {max : Nat} {q : NeXskQueue} {out : List NePacket}
    {d : XdpDesc} {r : NeXskQueue × List NePacket} (hc : q.rxChain.Sound) (hpos : 1 ≤ d.len)
    (ho : ∀ pkt ∈ out, pkt.Sound) (hroom : q.rejectable < rxRejectMax)
    (hr : recvDesc stamp max (q, out) d = r) :
    r.1.rxChain.Sound ∧ (∀ pkt ∈ r.2, pkt.Sound) ∧
      (r.1.rxRejectAddrs ++ r.1.rxChain.frames ++ framesOf r.2).Perm
        (q.rxRejectAddrs ++ q.rxChain.frames ++ framesOf out ++ [d.addr]) := by
  obtain ⟨hs, hp⟩ := recvSeg_frames d hc hpos hroom
  have hmove : (q.rxRejectAddrs ++ q.rxChain.frames ++ [d.addr] ++ framesOf out).Perm
      (q.rxRejectAddrs ++ q.rxChain.frames ++ framesOf out ++ [d.addr]) := by
    rw [List.append_assoc, List.append_assoc _ (framesOf out)]
    exact List.perm_append_comm.append_left _
  rw [← hr, recvDesc]
  dsimp only
  by_cases hcontd : d.contd = true
  · rw [if_pos hcontd]
    exact ⟨hs, ho, (hp.append_right _).trans hmove⟩
  · rw [if_neg hcontd]
    split
    · -- the chain is rejected
      have hlen := hp.length_eq
      simp only [List.length_append, NePacket.frames, NePacket.length_addrs, List.length_singleton]
        at hlen
      rw [NeXskQueue.rejectable] at hroom
      rw [rejectChain, foldl_reject _ (by rw [NePacket.length_addrs]; omega)]
      refine ⟨NePacket.sound_zero, ho, ?_⟩
      dsimp only
      rw [NePacket.frames_zero, List.append_nil]
      exact (hp.append_right _).trans hmove
    · refine ⟨NePacket.sound_zero, ?_, ?_⟩
      · intro pkt hpkt
        rcases List.mem_append.mp hpkt with hpkt | hpkt
        · exact ho pkt hpkt
        · rw [List.mem_singleton.mp hpkt]
          exact @SameSegs.sound (recvSeg q d).rxChain _ ⟨rfl, rfl, rfl, rfl, rfl⟩ hs
      · rw [NePacket.frames_zero, List.append_nil, framesOf_append, framesOf_cons, framesOf_nil,
          List.append_nil]
        refine List.Perm.trans ?_ ((hp.append_right _).trans hmove)
        rw [List.append_assoc]
        exact List.perm_append_comm.append_left _

theorem recvDescs_frames {stamp : RxStamp} {max : Nat} (ds : List XdpDesc) :
    ∀ {q : NeXskQueue} {out : List NePacket} {r : NeXskQueue × List NePacket} {h : List XdpDesc},
      Tracks h q → q.rxChain.Sound → (∀ d ∈ ds, 1 ≤ d.len) → (∀ pkt ∈ out, pkt.Sound) →
      q.rejectable + ds.length ≤ rxRejectMax → out.length + ds.length ≤ max →
      ds.foldl (recvDesc stamp max) (q, out) = r →
      r.1.rxChain.Sound ∧ (∀ pkt ∈ r.2, pkt.Sound) ∧
        (r.1.rxRejectAddrs ++ r.1.rxChain.frames ++ framesOf r.2).Perm
          (q.rxRejectAddrs ++ q.rxChain.frames ++ framesOf out ++ ds.map XdpDesc.addr) := by
  induction ds with
  | nil =>
      intro q out r h _ hc _ ho _ _ hr
      rw [← hr, List.map_nil, List.append_nil]
      exact ⟨hc, ho, .refl _⟩
  | cons d ds ih =>
      intro q out r h ht hc hpos ho hroom hout hr
      rw [List.length_cons] at hroom hout
      rw [List.foldl_cons] at hr
      generalize hd : recvDesc stamp max (q, out) d = r1 at hr
      obtain ⟨ht1, hrj1, -, -⟩ := recvDesc_tracks ht d (by omega) (by omega) hd
      obtain ⟨hc1, ho1, hp1⟩ := recvDesc_frames hc (hpos d (List.mem_cons_self ..)) ho (by omega) hd
      have hlen1 : r1.2.length ≤ out.length + 1 := recvDesc_length_le hd
      obtain ⟨hc2, ho2, hp2⟩ := ih ht1 hc1 (fun d hd => hpos d (List.mem_cons_of_mem _ hd)) ho1
        (by omega) (by omega) hr
      refine ⟨hc2, ho2, hp2.trans ?_⟩
      rw [List.map_cons, List.append_cons]
      exact hp1.append_right _

/-- The frames a queue has. -/
def NeXskQueue.owned (q : NeXskQueue) : List Nat :=
  q.fq.entries ++ q.driverRx ++ q.rx.waiting.map XdpDesc.addr ++ q.rxRejectAddrs ++ q.rxChain.frames ++
    q.tx.entries.map XdpDesc.addr ++ q.driverTx ++ q.cq.waiting

/-- The rings `recv_queue` has no business with. -/
def NeXskQueue.others (q : NeXskQueue) :
    XskRingProd Nat × XskRingProd XdpDesc × XskRingCons Nat × List Nat × List Nat × List NePacket :=
  (q.fq, q.tx, q.cq, q.driverRx, q.driverTx, q.sent)

theorem NeXskQueue.others_reject (q : NeXskQueue) (a : Nat) : (q.reject a).others = q.others := by
  rw [NeXskQueue.reject]; split <;> rfl

theorem recvDesc_others {stamp : RxStamp} {max : Nat} (r : NeXskQueue × List NePacket) (d : XdpDesc) :
    (recvDesc stamp max r d).1.others = r.1.others := by
  have hseg : (recvSeg r.1 d).others = r.1.others := by
    rw [recvSeg]
    split
    · exact NeXskQueue.others_reject r.1 d.addr
    · rfl
  have hfold : ∀ (as : List Nat) (q : NeXskQueue), (as.foldl NeXskQueue.reject q).others = q.others := by
    intro as
    induction as with
    | nil => intro q; rfl
    | cons a as ih => intro q; exact (ih _).trans (q.others_reject a)
  rw [recvDesc]
  dsimp only
  split
  · exact hseg
  · split
    · exact (hfold _ (recvSeg r.1 d)).trans hseg
    · exact hseg

/-- `recv_queue` keeps the frames. -/
theorem recvQueue_owned {q : NeXskQueue} {max : Nat} {stamp : RxStamp} (hq : RxSound q)
    (hmax : max ≤ neBatchSize) {r : NeXskQueue × List NePacket} (hr : recvQueue q max stamp = r) :
    RxSound r.1 ∧ (∀ pkt ∈ r.2, pkt.Sound) ∧ (framesOf r.2 ++ r.1.owned).Perm q.owned ∧
      r.1.sent = q.sent := by
  obtain ⟨hwait, hpeek, -, hlen⟩ := xskRingConsPeek_spec q.rx max
  generalize hp : xskRingConsPeek q.rx max = p at hwait hpeek hlen
  have hrej := hq.tracks.rejects_eq_nil hq.fits.of_append
  have hn := hq.tracks.nsegs_le
  have htr : Tracks q.rx.peeked { q with rx := p.2 } := hq.tracks.of_eq rfl rfl rfl rfl
  have hroom : ({ q with rx := p.2 } : NeXskQueue).rejectable + p.1.length ≤ rxRejectMax := by
    simp only [NeXskQueue.rejectable, hrej, List.length_nil, rxRejectMax]; omega
  have hpos : ∀ d ∈ p.1, 1 ≤ d.len := fun d hd =>
    hq.positive d (by rw [← hwait]; exact List.mem_append_left _ hd)
  generalize hf : p.1.foldl (recvDesc stamp max) ({ q with rx := p.2 }, []) = f
  obtain ⟨ht, -, hrx, -⟩ := recvDescs_tracks p.1 htr hroom (by simpa using hlen) hf
  obtain ⟨hc, ho, hperm⟩ := recvDescs_frames p.1 htr hq.chain hpos (fun _ h => absurd h
    (List.not_mem_nil)) hroom (by simpa using hlen) hf
  have hoth : f.1.others = q.others := by
    have : ∀ (ds : List XdpDesc) (r : NeXskQueue × List NePacket),
        (ds.foldl (recvDesc stamp max) r).1.others = r.1.others := by
      intro ds
      induction ds with
      | nil => intro r; rfl
      | cons d ds ih => intro r; exact (ih _).trans (recvDesc_others r d)
    rw [← hf]
    exact this p.1 _
  rw [recvQueue, hp] at hr
  dsimp only at hr hrx
  rw [hf] at hr
  rw [← hr]
  simp only [NeXskQueue.others, Prod.mk.injEq] at hoth
  obtain ⟨h1, h2, h3, h4, h5, h6⟩ := hoth
  refine ⟨⟨?_, ?_, ?_, hc⟩, ho, ?_, h6⟩
  · dsimp only
    rw [hrx, hpeek]
    exact ht.of_eq rfl rfl rfl rfl
  · dsimp only
    rw [hrx, hpeek, List.append_assoc, hwait]
    exact hq.fits
  · dsimp only
    rw [hrx]
    exact fun d hd => hq.positive d (by rw [← hwait]; exact List.mem_append_right _ hd)
  · rw [List.perm_iff_count] at hperm ⊢
    intro a
    have ha := hperm a
    rw [NeXskQueue.owned, NeXskQueue.owned, ← hwait]
    dsimp only
    rw [h1, h2, h3, h4, h5, hrx]
    simp only [List.count_append, List.map_append, framesOf_nil, List.count_nil] at ha ⊢
    omega

/-- Without rejected chains the release moves an index only. -/
theorem releaseRxQueue_owned {q : NeXskQueue} (hq : RxSound q) (pool : NePool) :
    RxSound (releaseRxQueue q pool).1 ∧ (releaseRxQueue q pool).1.owned = q.owned ∧
      (releaseRxQueue q pool).2 = pool ∧ (releaseRxQueue q pool).1.sent = q.sent := by
  have hrej := hq.tracks.rejects_eq_nil hq.fits.of_append
  rw [releaseRxQueue]
  dsimp only
  by_cases hp : q.rxPending ≠ 0
  · rw [if_pos hp, if_neg (by simp [hrej])]
    exact ⟨⟨hq.tracks.of_eq rfl rfl rfl rfl, hq.fits, hq.positive, hq.chain⟩, rfl, rfl, rfl⟩
  · rw [if_neg hp, if_neg (by simp [hrej])]
    exact ⟨hq, rfl, rfl, rfl⟩

/-- Frames that went from the pool to the fill ring. -/
structure Filled (q : NeXskQueue) (pool : NePool) (q' : NeXskQueue) (pool' : NePool) : Prop where
  queue : ∃ fq, q' = { q with fq := fq }
  cap : pool'.cap = pool.cap
  refused : pool'.refused = pool.refused
  frames : (pool'.frames ++ q'.fq.entries).Perm (pool.frames ++ q.fq.entries)

theorem Filled.refl (q : NeXskQueue) (pool : NePool) : Filled q pool q pool :=
  ⟨⟨_, rfl⟩, rfl, rfl, .refl _⟩

theorem Filled.trans {q q' q'' : NeXskQueue} {pool pool' pool'' : NePool} (h : Filled q pool q' pool')
    (h' : Filled q' pool' q'' pool'') : Filled q pool q'' pool'' := by
  obtain ⟨fq, hq⟩ := h.queue
  obtain ⟨fq', hq'⟩ := h'.queue
  exact ⟨⟨fq', by rw [hq', hq]⟩, h'.cap.trans h.cap, h'.refused.trans h.refused,
    h'.frames.trans h.frames⟩

theorem poolPop_spec (pool : NePool) (n : Nat) : (poolPop pool n).2.cap = pool.cap ∧
    (poolPop pool n).2.refused = pool.refused ∧
    (poolPop pool n).1 ++ (poolPop pool n).2.frames = pool.frames :=
  ⟨rfl, rfl, List.take_append_drop _ _⟩

/-- Frames that were popped are submitted, or put back. -/
theorem filled_of_pop (q : NeXskQueue) {pool : NePool} (n : Nat)
    (hroom : pool.frames.length ≤ pool.cap) :
    Filled q pool { q with fq := xskRingProdSubmit q.fq (poolPop pool n).1 } (poolPop pool n).2 ∧
      Filled q pool q (poolPush (poolPop pool n).2 (poolPop pool n).1) := by
  obtain ⟨hcap, href, hfr⟩ := poolPop_spec pool n
  generalize poolPop pool n = got at *
  have hlen := congrArg List.length hfr
  rw [List.length_append] at hlen
  refine ⟨⟨⟨_, rfl⟩, hcap, href, ?_⟩, ?_⟩
  · rw [List.perm_iff_count]
    intro a
    have := congrArg (List.count a) hfr
    simp only [xskRingProdSubmit, List.count_append] at this ⊢
    omega
  · rw [poolPush_eq (by omega)]
    refine ⟨⟨_, rfl⟩, hcap, href, ?_⟩
    rw [← hfr]
    exact List.perm_append_comm.append_right _

theorem refillFqQueue_filled (q : NeXskQueue) {pool : NePool}
    (hroom : pool.frames.length ≤ pool.cap) :
    Filled q pool (refillFqQueue q pool).1 (refillFqQueue q pool).2 := by
  rw [refillFqQueue]
  dsimp only
  by_cases hfree : xskProdNbFree q.fq = 0
  · rw [if_pos hfree]; exact .refl q pool
  · rw [if_neg hfree]
    generalize (if xskProdNbFree q.fq > neBatchSize then neBatchSize else xskProdNbFree q.fq) = want
    obtain ⟨hsubmit, hback⟩ := filled_of_pop q want hroom
    by_cases hgot : (poolPop pool want).1.length = 0
    · rw [if_pos hgot]
      have hnil := List.eq_nil_of_length_eq_zero hgot
      rw [hnil] at hsubmit
      rw [xskRingProdSubmit, List.append_nil] at hsubmit
      exact hsubmit
    · rw [if_neg hgot]
      by_cases hres : xskRingProdReserve q.fq (poolPop pool want).1.length ≠
          (poolPop pool want).1.length
      · rw [if_pos hres]; exact hback
      · rw [if_neg hres]; exact hsubmit

theorem prefillQueue_filled (fuel : Nat) : ∀ (want : Nat) (q : NeXskQueue) {pool : NePool},
    pool.frames.length ≤ pool.cap →
      Filled q pool (prefillQueue fuel want q pool).1 (prefillQueue fuel want q pool).2 := by
  induction fuel with
  | zero => intro want q pool _; exact .refl q pool
  | succ fuel ih =>
      intro want q pool hroom
      rw [prefillQueue]
      by_cases hwant : want = 0
      · rw [if_pos hwant]; exact .refl q pool
      · rw [if_neg hwant]
        dsimp only
        obtain ⟨hsubmit, hback⟩ := filled_of_pop q (min want neBatchSize) hroom
        obtain ⟨hcap, -, hfr⟩ := poolPop_spec pool (min want neBatchSize)
        generalize poolPop pool (min want neBatchSize) = got at *
        have hlen := congrArg List.length hfr
        rw [List.length_append] at hlen
        by_cases hgot : got.1.length = 0
        · rw [if_pos hgot]
          rw [List.eq_nil_of_length_eq_zero hgot, xskRingProdSubmit, List.append_nil] at hsubmit
          exact hsubmit
        · rw [if_neg hgot]
          by_cases hres : xskRingProdReserve q.fq got.1.length ≠ got.1.length
          · rw [if_pos hres]; exact hback
          · rw [if_neg hres]
            exact hsubmit.trans (ih _ _ (by rw [hcap]; omega))

/-- Frames that went from the completion ring to the pool. -/
structure Drained (q : NeXskQueue) (pool : NePool) (q' : NeXskQueue) (pool' : NePool) : Prop where
  queue : ∃ cq, q' = { q with cq := cq }
  cap : pool'.cap = pool.cap
  refused : pool'.refused = pool.refused
  frames : (pool'.frames ++ q'.cq.waiting).Perm (pool.frames ++ q.cq.waiting)

theorem drainCq_drained (fuel : Nat) : ∀ (q : NeXskQueue) (pool : NePool),
    pool.frames.length + q.cq.waiting.length ≤ pool.cap →
      Drained q pool (drainCq fuel q pool).1 (drainCq fuel q pool).2 := by
  induction fuel with
  | zero => intro q pool _; exact ⟨⟨_, rfl⟩, rfl, rfl, .refl _⟩
  | succ fuel ih =>
      intro q pool hroom
      rw [drainCq]
      dsimp only
      obtain ⟨hwait, -, -, -⟩ := xskRingConsPeek_spec q.cq neBatchSize
      generalize xskRingConsPeek q.cq neBatchSize = p at *
      have hlen := congrArg List.length hwait
      rw [List.length_append] at hlen
      by_cases hgot : p.1.length = 0
      · rw [if_pos hgot]
        refine ⟨⟨_, rfl⟩, rfl, rfl, ?_⟩
        rw [← hwait, List.eq_nil_of_length_eq_zero hgot]
        exact .refl _
      · rw [if_neg hgot]
        have hput : min p.1.length (pool.cap - pool.frames.length) = p.1.length := by omega
        rw [hput, poolPush_eq (by omega)]
        have hone : (pool.frames ++ p.1 ++ p.2.waiting).Perm (pool.frames ++ q.cq.waiting) := by
          rw [← hwait, List.append_assoc]
        by_cases hstop : p.1.length < p.1.length ∨ p.1.length < neBatchSize
        · rw [if_pos hstop]
          exact ⟨⟨_, rfl⟩, rfl, rfl, hone⟩
        · rw [if_neg hstop]
          generalize hq' : ({ q with cq := xskRingConsRelease p.2 p.1.length } : NeXskQueue) = q'
          have hcq : q'.cq.waiting = p.2.waiting := by rw [← hq']; rfl
          have hrec := ih q' { pool with frames := pool.frames ++ p.1 } (by
            rw [hcq]; dsimp only; rw [List.length_append]; omega)
          obtain ⟨cq, hcq'⟩ := hrec.queue
          refine ⟨⟨cq, ?_⟩, hrec.cap, hrec.refused, hrec.frames.trans ?_⟩
          · rw [hcq', ← hq']
          · rw [hcq]; exact hone

/-! ## TX -/

theorem NePacket.Sound.txSegs {job : NePacket} (h : job.Sound) (hlen : job.len ≠ 0) :
    job.txSegs = job.nsegs := by
  rw [NePacket.txSegs, if_pos]
  intro h0
  exact hlen (h.empty h0).2

theorem addr_txDescs (job : NePacket) (maxFrame : Nat) :
    (txDescs job maxFrame).map XdpDesc.addr = job.addrs job.txSegs := by
  rw [txDescs, List.map_map]
  rfl

/-- A round of `tx_drain_queue` keeps the frames: it moves those of a packet to
the TX ring or, if the packet cannot be sent, to the pool. -/
theorem txRound_owned {q : NeXskQueue} {src : NeRing} {pool : NePool} {maxFrame : Nat}
    {r : Bool × NeXskQueue × NeRing × NePool} (hs : ∀ job ∈ src.items, job.Sound ∧ job.len ≠ 0)
    (hroom : pool.frames.length + (framesOf src.items).length ≤ pool.cap)
    (hr : txRound q src pool maxFrame = r) :
    (∃ tx sent, r.2.1 = { q with tx := tx, sent := sent }) ∧ r.2.2.2.cap = pool.cap ∧
      r.2.2.2.refused = pool.refused ∧ (∀ job ∈ r.2.2.1.items, job ∈ src.items) ∧
      (r.2.2.2.frames ++ framesOf r.2.2.1.items ++ r.2.1.tx.entries.map XdpDesc.addr).Perm
        (pool.frames ++ framesOf src.items ++ q.tx.entries.map XdpDesc.addr) := by
  rw [txRound] at hr
  by_cases hfree : xskProdNbFree q.tx < nePacketMaxSegs
  · rw [if_pos hfree] at hr
    rw [← hr]
    exact ⟨⟨_, _, rfl⟩, rfl, rfl, fun _ h => h, .refl _⟩
  · rw [if_neg hfree, neRingTryPop] at hr
    cases hi : src.items with
    | nil =>
        rw [hi] at hr
        rw [← hr]
        dsimp only
        rw [hi]
        exact ⟨⟨_, _, rfl⟩, rfl, rfl, fun _ h => h, .refl _⟩
    | cons job rest =>
        rw [hi] at hr hs hroom
        obtain ⟨hsnd, hlen⟩ := hs job (List.mem_cons_self ..)
        rw [framesOf_cons, List.length_append] at hroom
        have htx := hsnd.txSegs hlen
        dsimp only at hr
        split at hr
        · have haddrs : job.addrs (min job.txSegs nePacketMaxSegs) = job.frames := by
            rw [htx, Nat.min_eq_left hsnd.nsegs_le]; rfl
          rw [haddrs, poolPush_eq (by omega)] at hr
          rw [← hr]
          refine ⟨⟨_, _, rfl⟩, rfl, rfl, fun _ h => List.mem_cons_of_mem _ h, ?_⟩
          dsimp only
          rw [framesOf_cons, List.append_assoc pool.frames]
        · rw [← hr]
          refine ⟨⟨_, _, rfl⟩, rfl, rfl, fun _ h => List.mem_cons_of_mem _ h, ?_⟩
          dsimp only [xskRingProdSubmit]
          rw [List.map_append, addr_txDescs, htx, framesOf_cons]
          rw [List.perm_iff_count]
          intro a
          simp only [List.count_append, NePacket.frames]
          omega

/-! ## places -/

/-- Where a frame can be. -/
inductive Place
  | pool
  | fill (dir : NePacketDir) (k : Nat × Nat)
  | driverRx (dir : NePacketDir) (k : Nat × Nat)
  | rx (dir : NePacketDir) (k : Nat × Nat)
  | reject (dir : NePacketDir) (k : Nat × Nat)
  | chain (dir : NePacketDir) (k : Nat × Nat)
  | batch (dir : NePacketDir)
  | toMid (dir : NePacketDir) (w : Nat)
  | job (w : Nat)
  | outRing (dir : NePacketDir) (iface slot : Nat)
  | tx (dir : NePacketDir) (k : Nat × Nat)
  | driverTx (dir : NePacketDir) (k : Nat × Nat)
  | completion (dir : NePacketDir) (k : Nat × Nat)

/-- The packet a worker is processing. -/
def System.jobPackets (s : System) (w : Nat) : List NePacket :=
  match s.job w with
  | none => []
  | some j => [j.2]

/-- The addresses at a place. -/
def System.addrs (s : System) : Place → List Nat
  | .pool => s.fwd.pair.pool.frames
  | .fill dir k => (s.queue dir k).fq.entries
  | .driverRx dir k => (s.queue dir k).driverRx
  | .rx dir k => (s.queue dir k).rx.waiting.map XdpDesc.addr
  | .reject dir k => (s.queue dir k).rxRejectAddrs
  | .chain dir k => (s.queue dir k).rxChain.frames
  | .batch dir => framesOf (s.batch dir)
  | .toMid dir w => framesOf (s.fwd.toMid dir w).items
  | .job w => framesOf (s.jobPackets w)
  | .outRing dir i slot => framesOf (s.fwd.outRing dir i slot).items
  | .tx dir k => (s.queue dir k).tx.entries.map XdpDesc.addr
  | .driverTx dir k => (s.queue dir k).driverTx
  | .completion dir k => (s.queue dir k).cq.waiting

/-- The frame of an address. -/
def chunk (addr : Nat) : Nat := addr / neFrame

/-- The frames at a place. -/
def System.frames (s : System) (p : Place) : List Nat := (s.addrs p).map chunk

/-- The places one step can change: one queue, the batch of one thread, one ring
to a worker, one worker's packet, one output ring, and the pool. -/
structure Focus where
  dir : NePacketDir
  k : Nat × Nat
  w : Nat
  outDir : NePacketDir
  iface : Nat
  slot : Nat

def Focus.places (f : Focus) : List Place :=
  [.pool, .batch f.dir, .toMid f.dir f.w, .job f.w, .outRing f.outDir f.iface f.slot,
    .fill f.dir f.k, .driverRx f.dir f.k, .rx f.dir f.k, .reject f.dir f.k, .chain f.dir f.k,
    .tx f.dir f.k, .driverTx f.dir f.k, .completion f.dir f.k]

theorem Focus.nodup_places (f : Focus) : f.places.Nodup := by
  rw [Focus.places]
  simp

/-- All addresses in focus. -/
def System.focus (s : System) (f : Focus) : List Nat :=
  s.fwd.pair.pool.frames ++ framesOf (s.batch f.dir) ++ framesOf (s.fwd.toMid f.dir f.w).items ++
    framesOf (s.jobPackets f.w) ++ framesOf (s.fwd.outRing f.outDir f.iface f.slot).items ++
    (s.queue f.dir f.k).owned

theorem System.flatMap_places (s : System) (f : Focus) :
    f.places.flatMap s.frames = (s.focus f).map chunk := by
  simp only [Focus.places, System.frames, System.addrs, System.focus, NeXskQueue.owned,
    List.flatMap_cons, List.flatMap_nil, List.map_append, List.append_assoc, List.append_nil]

/-- The step touches nothing outside its focus. -/
structure Focused (f : Focus) (s s' : System) : Prop where
  queue : ∀ dir k, ¬ (dir = f.dir ∧ k = f.k) → s'.queue dir k = s.queue dir k
  batch : ∀ dir, dir ≠ f.dir → s'.batch dir = s.batch dir
  toMid : ∀ dir w, ¬ (dir = f.dir ∧ w = f.w) → s'.fwd.toMid dir w = s.fwd.toMid dir w
  job : ∀ w, w ≠ f.w → s'.job w = s.job w
  outRing : ∀ dir i slot, ¬ (dir = f.outDir ∧ i = f.iface ∧ slot = f.slot) →
    s'.fwd.outRing dir i slot = s.fwd.outRing dir i slot

theorem Focused.addrs {f : Focus} {s s' : System} (h : Focused f s s') {p : Place}
    (hp : p ∉ f.places) : s'.addrs p = s.addrs p := by
  cases p with
  | pool => exact absurd (by simp [Focus.places]) hp
  | batch dir =>
      have hne : dir ≠ f.dir := by intro he; rw [he] at hp; exact hp (by simp [Focus.places])
      rw [System.addrs, System.addrs, h.batch dir hne]
  | toMid dir w =>
      have hne : ¬ (dir = f.dir ∧ w = f.w) := by
        intro he; rw [he.1, he.2] at hp; exact hp (by simp [Focus.places])
      rw [System.addrs, System.addrs, h.toMid dir w hne]
  | job w =>
      have hne : w ≠ f.w := by intro he; rw [he] at hp; exact hp (by simp [Focus.places])
      rw [System.addrs, System.addrs, System.jobPackets, System.jobPackets, h.job w hne]
  | outRing dir i slot =>
      have hne : ¬ (dir = f.outDir ∧ i = f.iface ∧ slot = f.slot) := by
        intro he; rw [he.1, he.2.1, he.2.2] at hp; exact hp (by simp [Focus.places])
      rw [System.addrs, System.addrs, h.outRing dir i slot hne]
  | fill dir k | driverRx dir k | rx dir k | reject dir k | chain dir k | tx dir k | driverTx dir k
  | completion dir k =>
      have hne : ¬ (dir = f.dir ∧ k = f.k) := by
        intro he; rw [he.1, he.2] at hp; exact hp (by simp [Focus.places])
      rw [System.addrs, System.addrs, h.queue dir k hne]

/-- A step that keeps what is in focus keeps the partition. -/
theorem Focused.partition {f : Focus} {s s' : System} {U : Nat → Prop} (h : Focused f s s')
    (hperm : ((s'.focus f).map chunk).Perm ((s.focus f).map chunk)) (hs : Partition s.frames U) :
    Partition s'.frames U := by
  refine hs.move f.nodup_places (fun p hp => ?_) ?_
  · rw [System.frames, System.frames, h.addrs hp]
  · rw [System.flatMap_places, System.flatMap_places]; exact hperm

/-! ## the invariant -/

/-- Every frame has one place, the pool has refused none, and the packets and
queues are in a state the next step can count on. -/
structure Conserved (n : Nat) (s : System) : Prop where
  places : Partition s.frames (· < n)
  cap : s.fwd.pair.pool.cap = n
  refused : s.fwd.pair.pool.refused = 0
  frameSize : s.fwd.pair.frameSize = neFrame
  batch : ∀ dir, ∀ pkt ∈ s.batch dir, pkt.Sound
  toMid : ∀ dir w, ∀ pkt ∈ (s.fwd.toMid dir w).items, pkt.Sound
  job : ∀ w, ∀ pkt ∈ s.jobPackets w, pkt.Sound
  outRing : ∀ dir i slot, ∀ pkt ∈ (s.fwd.outRing dir i slot).items, pkt.Sound ∧ pkt.len ≠ 0
  rx : ∀ dir k, RxSound (s.queue dir k)

/-- There is room in the pool for all frames in focus. -/
theorem Conserved.room {n : Nat} {s : System} (h : Conserved n s) (f : Focus) :
    (s.focus f).length ≤ s.fwd.pair.pool.cap := by
  have := h.places.length_le f.nodup_places
  rw [System.flatMap_places, List.length_map] at this
  rw [h.cap]
  exact this

/-- What the kernel is trusted with: a descriptor lies inside a frame that the
driver took from the fill ring, is not empty, and belongs to a chain within the
limits. -/
def KernelLegal (s : System) : Step → Prop
  | .receive dir k d =>
      (∃ a ∈ (s.queue dir k).driverRx, chunk a = chunk d.addr) ∧ 1 ≤ d.len ∧
        d.addr % neFrame + d.len ≤ neFrame ∧
        StreamFits ((s.queue dir k).rx.peeked ++ ((s.queue dir k).rx.publish [d]).waiting)
  | _ => True

/-! ## steps on a queue -/

section QueueStep

variable {n : Nat} {s : System} {dir : NePacketDir} {k : Nat × Nat} {q : NeXskQueue}

theorem System.queue_setQueue (s : System) (dir dir' : NePacketDir) (k k' : Nat × Nat)
    (q : NeXskQueue) : (s.setQueue dir k q).queue dir' k' =
      if dir' = dir ∧ k' = k then q else s.queue dir' k' := by
  rw [System.setQueue]
  by_cases hd : dir' = dir
  · rw [hd]
    by_cases hk : k' = k
    · simp [hk]
    · simp [hk]
  · simp [hd]

/-- A step that changes one queue and the pool. -/
theorem Conserved.queueStep (h : Conserved n s) (pool : NePool) (hrx : RxSound q)
    (hcap : pool.cap = s.fwd.pair.pool.cap)
    (href : pool.refused = s.fwd.pair.pool.refused)
    (hperm : ((pool.frames ++ q.owned).map chunk).Perm
      ((s.fwd.pair.pool.frames ++ (s.queue dir k).owned).map chunk)) :
    Conserved n ((s.setQueue dir k q).setPool pool) := by
  have hq : ∀ dir' k', ((s.setQueue dir k q).setPool pool).queue dir' k' =
      if dir' = dir ∧ k' = k then q else s.queue dir' k' := fun dir' k' =>
    s.queue_setQueue dir dir' k k' q
  have hfocused : Focused ⟨dir, k, 0, dir, 0, 0⟩ s ((s.setQueue dir k q).setPool pool) := by
    refine ⟨?_, fun _ _ => rfl, fun _ _ _ => rfl, fun _ _ => rfl, fun _ _ _ _ => rfl⟩
    intro dir' k' hne
    rw [hq, if_neg hne]
  refine ⟨hfocused.partition ?_ h.places, hcap.trans h.cap, href.trans h.refused, h.frameSize,
    h.batch, h.toMid, h.job, h.outRing, ?_⟩
  · rw [List.perm_iff_count] at hperm ⊢
    intro a
    have ha := hperm a
    have hself : ((s.setQueue dir k q).setPool pool).queue dir k = q := by
      rw [hq, if_pos ⟨rfl, rfl⟩]
    have hpool : ((s.setQueue dir k q).setPool pool).fwd.pair.pool = pool := rfl
    simp only [System.focus, hself, hpool, List.map_append, List.count_append] at ha ⊢
    change _ + List.count a (List.map chunk (framesOf (s.batch dir))) +
      List.count a (List.map chunk (framesOf (s.fwd.toMid dir 0).items)) +
      List.count a (List.map chunk (framesOf (s.jobPackets 0))) +
      List.count a (List.map chunk (framesOf (s.fwd.outRing dir 0 0).items)) + _ = _
    omega
  · intro dir' k'
    rw [hq]
    split
    · exact hrx
    · exact h.rx dir' k'

/-- The same for a step that leaves the pool alone. -/
theorem Conserved.queueOnly (h : Conserved n s) (hrx : RxSound q)
    (hperm : (q.owned.map chunk).Perm ((s.queue dir k).owned.map chunk)) :
    Conserved n (s.setQueue dir k q) := by
  refine h.queueStep s.fwd.pair.pool hrx rfl rfl ?_
  rw [List.map_append, List.map_append]
  exact hperm.append_left _

theorem Conserved.fill (h : Conserved n s) {q' : NeXskQueue} {pool : NePool}
    (hf : Filled (s.queue dir k) s.fwd.pair.pool q' pool) :
    Conserved n ((s.setQueue dir k q').setPool pool) := by
  obtain ⟨fq, hq⟩ := hf.queue
  have hrx := h.rx dir k
  refine h.queueStep pool ?_ hf.cap hf.refused (List.Perm.map _ ?_)
  · rw [hq]; exact ⟨hrx.tracks.of_eq rfl rfl rfl rfl, hrx.fits, hrx.positive, hrx.chain⟩
  · have hperm := hf.frames
    rw [hq] at hperm ⊢
    rw [List.perm_iff_count] at hperm ⊢
    intro a
    have ha := hperm a
    simp only [NeXskQueue.owned, List.count_append] at ha ⊢
    omega

theorem Conserved.frames_length_le (h : Conserved n s) (dir : NePacketDir) (k : Nat × Nat) :
    s.fwd.pair.pool.frames.length + (s.queue dir k).owned.length ≤ s.fwd.pair.pool.cap := by
  have hroom := h.room ⟨dir, k, 0, dir, 0, 0⟩
  simp only [System.focus, List.length_append] at hroom
  omega

theorem Conserved.refill (h : Conserved n s) : Conserved n (s.refill dir k) := by
  have hroom := h.frames_length_le dir k
  exact h.fill (refillFqQueue_filled (s.queue dir k) (by omega))

theorem Conserved.prefill (h : Conserved n s) (want : Nat) : Conserved n (s.prefill dir k want) := by
  have hroom := h.frames_length_le dir k
  exact h.fill (prefillQueue_filled want want (s.queue dir k) (by omega))

theorem Conserved.drainCq (h : Conserved n s) : Conserved n (s.drainCq dir k) := by
  have hrx := h.rx dir k
  have hroom := h.frames_length_le dir k
  have hd := drainCq_drained ((s.queue dir k).cq.waiting.length + 1) (s.queue dir k)
    s.fwd.pair.pool (by simp only [NeXskQueue.owned, List.length_append] at hroom; omega)
  obtain ⟨cq, hq⟩ := hd.queue
  refine h.queueStep _ ?_ hd.cap hd.refused (List.Perm.map _ ?_)
  · rw [drainCqQueue, hq]
    exact ⟨hrx.tracks.of_eq rfl rfl rfl rfl, hrx.fits, hrx.positive, hrx.chain⟩
  · have hperm := hd.frames
    rw [drainCqQueue]
    rw [hq] at hperm ⊢
    rw [List.perm_iff_count] at hperm ⊢
    intro a
    have ha := hperm a
    simp only [NeXskQueue.owned, List.count_append] at ha ⊢
    omega

theorem Conserved.release (h : Conserved n s) : Conserved n (s.release dir k) := by
  obtain ⟨hrx, hown, hpool, -⟩ := releaseRxQueue_owned (h.rx dir k) s.fwd.pair.pool
  refine h.queueStep _ hrx (by rw [hpool]) (by rw [hpool]) ?_
  rw [hown, hpool]

theorem Conserved.fillTake (h : Conserved n s) : Conserved n (s.fillTake dir k) := by
  have hrx := h.rx dir k
  rw [System.fillTake]
  dsimp only
  cases hfq : (s.queue dir k).fq.entries with
  | nil => exact h
  | cons a rest =>
      refine h.queueOnly ⟨hrx.tracks.of_eq rfl rfl rfl rfl, hrx.fits, hrx.positive, hrx.chain⟩
        (List.Perm.map _ ?_)
      rw [List.perm_iff_count]
      intro b
      simp only [NeXskQueue.owned, hfq, List.count_append, List.count_cons, List.count_nil]
      omega

theorem Conserved.txTake (h : Conserved n s) : Conserved n (s.txTake dir k) := by
  have hrx := h.rx dir k
  rw [System.txTake]
  dsimp only
  cases htx : (s.queue dir k).tx.entries with
  | nil => exact h
  | cons d rest =>
      refine h.queueOnly ⟨hrx.tracks.of_eq rfl rfl rfl rfl, hrx.fits, hrx.positive, hrx.chain⟩
        (List.Perm.map _ ?_)
      rw [List.perm_iff_count]
      intro b
      simp only [NeXskQueue.owned, htx, List.map_cons, List.count_append, List.count_cons,
        List.count_nil]
      omega

theorem Conserved.complete (h : Conserved n s) (m : Nat) : Conserved n (s.complete dir k m) := by
  have hrx := h.rx dir k
  rw [System.complete]
  cases hm : (s.queue dir k).driverTx[m]? with
  | none => exact h
  | some a =>
      obtain ⟨hlt, hget⟩ := List.getElem?_eq_some_iff.mp hm
      have herase : ((s.queue dir k).driverTx).Perm (a :: (s.queue dir k).driverTx.eraseIdx m) := by
        rw [← hget]; exact (List.getElem_cons_eraseIdx_perm hlt).symm
      refine h.queueOnly ⟨hrx.tracks.of_eq rfl rfl rfl rfl, hrx.fits, hrx.positive, hrx.chain⟩
        (List.Perm.map _ ?_)
      rw [List.perm_iff_count] at herase ⊢
      intro b
      have hb := herase b
      simp only [NeXskQueue.owned, XskRingCons.publish, XskRingCons.waiting, List.count_append,
        List.count_cons, List.count_nil] at hb ⊢
      omega

/-- The kernel receives into a frame: the address moves inside the chunk. -/
theorem Conserved.receive (h : Conserved n s) {d : XdpDesc}
    (hl : KernelLegal s (.receive dir k d)) : Conserved n (s.receive dir k d) := by
  obtain ⟨⟨a, ha, hchunk⟩, hpos, -, hfits⟩ := hl
  have hrx := h.rx dir k
  refine h.queueOnly ⟨hrx.tracks.of_eq rfl rfl rfl rfl, hfits, ?_, hrx.chain⟩ ?_
  · intro d' hd'
    simp only [XskRingCons.publish, XskRingCons.waiting, ← List.append_assoc] at hd'
    rcases List.mem_append.mp hd' with hd' | hd'
    · exact hrx.positive d' hd'
    · rw [List.mem_singleton.mp hd']; exact hpos
  · have herase : ((s.queue dir k).driverRx.map chunk).Perm (chunk d.addr ::
        ((s.queue dir k).driverRx.eraseP fun a => a / neFrame == d.addr / neFrame).map chunk) := by
      obtain ⟨b, l, l', -, hb, heq, herase⟩ := List.exists_of_eraseP ha
        (p := fun a => a / neFrame == d.addr / neFrame) (by rw [beq_iff_eq]; exact hchunk)
      have hbd : chunk b = chunk d.addr := beq_iff_eq.mp hb
      rw [herase, heq, List.map_append, List.map_cons, List.map_append, hbd]
      exact List.perm_middle
    rw [List.perm_iff_count] at herase ⊢
    intro b
    have hb := herase b
    simp only [NeXskQueue.owned, XskRingCons.publish, XskRingCons.waiting, List.map_append,
      List.map_cons, List.map_nil, List.count_append, List.count_cons, List.count_nil] at hb ⊢
    omega

theorem framesOf_tagFrom (pkts : List NePacket) : ∀ tag, framesOf (tagFrom tag pkts) = framesOf pkts := by
  induction pkts with
  | nil => intro tag; rfl
  | cons pkt pkts ih => intro tag; rw [tagFrom, framesOf_cons, framesOf_cons, ih]; rfl

theorem sound_tagFrom {pkts : List NePacket} (h : ∀ pkt ∈ pkts, pkt.Sound) :
    ∀ tag, ∀ pkt ∈ tagFrom tag pkts, pkt.Sound := by
  induction pkts with
  | nil => intro tag pkt hpkt; exact absurd hpkt (List.not_mem_nil)
  | cons p pkts ih =>
      intro tag pkt hpkt
      rcases List.mem_cons.mp hpkt with rfl | hpkt
      · exact @SameSegs.sound p _ ⟨rfl, rfl, rfl, rfl, rfl⟩ (h p (List.mem_cons_self ..))
      · exact ih (fun q hq => h q (List.mem_cons_of_mem _ hq)) _ pkt hpkt

theorem Conserved.recv (h : Conserved n s) (total : Nat) : Conserved n (s.recv dir k total) := by
  have hrx := h.rx dir k
  generalize hr : recvQueue { s.queue dir k with rxPending := 0 } (neBatchSize - total)
    (rxStamp dir k.1) = r
  obtain ⟨hrx', hsnd, hperm, -⟩ := recvQueue_owned
    (show RxSound { s.queue dir k with rxPending := 0 } from
      ⟨hrx.tracks.of_eq rfl rfl rfl rfl, hrx.fits, hrx.positive, hrx.chain⟩) (Nat.sub_le _ _) hr
  have hq : ∀ dir' k', (s.recv dir k total).queue dir' k' =
      if dir' = dir ∧ k' = k then r.1 else s.queue dir' k' := by
    intro dir' k'
    rw [← hr]
    exact s.queue_setQueue dir dir' k k' _
  have hb : (s.recv dir k total).batch dir = s.batch dir ++ tagFrom s.nextTag r.2 := by
    rw [← hr]; exact Function.update_self ..
  have hbne : ∀ dir', dir' ≠ dir → (s.recv dir k total).batch dir' = s.batch dir' := fun dir' hne =>
    Function.update_of_ne hne ..
  have hfocused : Focused ⟨dir, k, 0, dir, 0, 0⟩ s (s.recv dir k total) := by
    refine ⟨?_, hbne, fun _ _ _ => rfl, fun _ _ => rfl, fun _ _ _ _ => rfl⟩
    intro dir' k' hne
    rw [hq, if_neg hne]
  refine ⟨hfocused.partition (List.Perm.map _ ?_) h.places, h.cap, h.refused, h.frameSize, ?_,
    h.toMid, h.job, h.outRing, ?_⟩
  · rw [List.perm_iff_count] at hperm ⊢
    intro a
    have ha := hperm a
    have hself : (s.recv dir k total).queue dir k = r.1 := by rw [hq, if_pos ⟨rfl, rfl⟩]
    have hfwd : (s.recv dir k total).fwd = s.fwd := rfl
    have hjob : (s.recv dir k total).jobPackets 0 = s.jobPackets 0 := rfl
    simp only [System.focus, hself, hb, hfwd, hjob, framesOf_append, framesOf_tagFrom,
      List.count_append] at ha ⊢
    change _ = List.count a (s.queue dir k).owned at ha
    omega
  · intro dir' pkt hpkt
    by_cases hd : dir' = dir
    · rw [hd, hb] at hpkt
      rcases List.mem_append.mp hpkt with hpkt | hpkt
      · exact h.batch dir pkt hpkt
      · exact sound_tagFrom hsnd s.nextTag pkt hpkt
    · rw [hbne dir' hd] at hpkt
      exact h.batch dir' pkt hpkt
  · intro dir' k'
    rw [hq]
    split
    · exact hrx'
    · exact h.rx dir' k'

end QueueStep

/-! ## steps on packets -/

section PacketStep

variable {n : Nat} {s s' : System} {dir : NePacketDir} {w : Nat} {pkt : NePacket}
  {rest : List NePacket}

theorem Conserved.lookup (h : Conserved n s) : Conserved n (s.lookup dir) := by
  rw [System.lookup]
  split
  · rename_i pkt rest hp hb
    cases dir with
    | wan => exact ⟨h.places, h.cap, h.refused, h.frameSize, h.batch, h.toMid, h.job, h.outRing, h.rx⟩
    | «local» =>
        generalize hs' : s.lookupLocal pkt rest = s'
        obtain ⟨pkt', hsame, hbatch⟩ : ∃ pkt', SameSegs pkt pkt' ∧
            s'.batch = Function.update s.batch .local (pkt' :: rest) := by
          rw [← hs']
          refine ⟨_, ?_, rfl⟩
          exact ⟨rfl, rfl, rfl, rfl, rfl⟩
        have hpair : s'.fwd.pair = s.fwd.pair := by rw [← hs']; rfl
        have htoMid : s'.fwd.toMid = s.fwd.toMid := by rw [← hs']; rfl
        have hout : s'.fwd.outRing = s.fwd.outRing := by rw [← hs']; rfl
        have hjob : s'.job = s.job := by rw [← hs']; rfl
        have hqueue : s'.queue = s.queue := by rw [← hs']; rfl
        have hframes : s'.frames = s.frames := by
          funext p
          rw [System.frames, System.frames]
          congr 1
          cases p with
          | batch dir =>
              rw [System.addrs, System.addrs, hbatch]
              by_cases hd : dir = .local
              · rw [hd, Function.update_self, hb, framesOf_cons, framesOf_cons, hsame.frames]
              · rw [Function.update_of_ne hd]
          | _ => simp only [System.addrs, System.jobPackets, hpair, htoMid, hout, hjob, hqueue]
        refine ⟨by rw [hframes]; exact h.places, by rw [hpair]; exact h.cap,
          by rw [hpair]; exact h.refused, by rw [hpair]; exact h.frameSize, ?_,
          by rw [htoMid]; exact h.toMid, ?_, by rw [hout]; exact h.outRing,
          by rw [hqueue]; exact h.rx⟩
        · intro dir q hq
          rw [hbatch] at hq
          by_cases hd : dir = .local
          · rw [hd, Function.update_self] at hq
            rcases List.mem_cons.mp hq with rfl | hq
            · exact hsame.sound (h.batch .local pkt (by rw [hb]; exact List.mem_cons_self ..))
            · exact h.batch .local q (by rw [hb]; exact List.mem_cons_of_mem _ hq)
          · rw [Function.update_of_ne hd] at hq
            exact h.batch dir q hq
        · intro w q hq
          rw [System.jobPackets, hjob] at hq
          exact h.job w q hq
  · exact h

/-- What processing a packet does to the process: it hands packets to one output
ring, and keeps the frames. -/
structure Processed (fwd : Forwarder) (pkt : NePacket) (fwd' : Forwarder) (dir : NePacketDir)
    (slot : Nat) (pkts : List NePacket) : Prop where
  toMid : fwd'.toMid = fwd.toMid
  outRing : ∀ dir' i slot', fwd'.outRing dir' i slot' =
    if dir' = dir ∧ i = 0 ∧ slot' = slot then (fwd.outRing dir 0 slot).append pkts
    else fwd.outRing dir' i slot'
  moves : UmemMoves (fwd.pair, [pkt]) (fwd'.pair, pkts)
  len : ∀ q ∈ pkts, q.len ≠ 0

theorem processed_of_wan {j j' : Job} {pkts : List NePacket} (h : PushedWan j j' pkts) :
    Processed j.fwd j.pkt j'.fwd .wan j.self.tls.outRingIdx pkts := by
  obtain ⟨route, epoch, hf, -⟩ := h.fwd
  refine ⟨?_, ?_, h.moves, ?_⟩
  · rw [hf]; rfl
  · intro dir' i slot'
    rw [hf]
    exact j.fwd.outRing_setOutRing .wan dir' 0 i j.self.tls.outRingIdx slot' _
  · intro q hq
    cases h.handed with
    | none => exact absurd hq (List.not_mem_nil)
    | one hlen _ => rw [List.mem_singleton.mp hq]; exact hlen
    | pair hlen _ hlen' _ =>
        rcases List.mem_cons.mp hq with rfl | hq
        · exact hlen
        · rw [List.mem_singleton.mp hq]; exact hlen'

theorem PushedLocal.len {j j' : Job} {pkts : List NePacket} (h : PushedLocal j j' pkts) :
    ∀ q ∈ pkts, q.len ≠ 0 := by
  obtain ⟨ri, route, tables, -, -, hpkts⟩ := h.fwd
  intro q hq
  rcases hpkts with rfl | ⟨q', rfl, hh⟩
  · exact absurd hq (List.not_mem_nil)
  · rw [List.mem_singleton.mp hq]; exact hh.len

theorem processed_of_local {j j' : Job} {pkts : List NePacket} {ri : Nat} {route : RouteState}
    {tables : FragTables} (h : PushedLocal j j' pkts)
    (hf : j'.fwd = { j.fwd.pushLocal ri pkts with
      pair := j'.fwd.pair, route := route, tables := tables }) :
    Processed j.fwd j.pkt j'.fwd .local ri pkts := by
  refine ⟨?_, ?_, h.moves, h.len⟩
  · rw [hf]; rfl
  · intro dir' i slot'
    rw [hf]
    exact j.fwd.outRing_setOutRing .local dir' 0 i ri slot' _

/-- Every exit of the two process functions. -/
theorem dataplaneProcess_processed (env : Env) (dir : NePacketDir) (j : Job) :
    ∃ outDir slot pkts, Processed j.fwd j.pkt (dataplaneProcess env dir j).fwd outDir slot pkts := by
  cases dir with
  | «local» =>
      obtain ⟨pkts, h⟩ := dataplaneProcessLocal_outcome env j
      exact ⟨.wan, _, pkts, processed_of_wan h⟩
  | wan =>
      obtain ⟨pkts, h⟩ := dataplaneProcessWan_outcome env j
      obtain ⟨ri, route, tables, hf, -⟩ := h.fwd
      exact ⟨.local, ri, pkts, processed_of_local h hf⟩

/-- A thread is done with a packet it held: the frames of the packet are in an
output ring or in the pool. -/
theorem Conserved.processed {fwd' : Forwarder} {outDir : NePacketDir} {slot : Nat}
    {pkts : List NePacket} (h : Conserved n s) (dir : NePacketDir) (w : Nat)
    (hp : Processed s.fwd pkt fwd' outDir slot pkts) (hs : pkt.Sound) (hfwd : s'.fwd = fwd') (hqueue : s'.queue = s.queue)
    (hbatch : ∀ d, d ≠ dir → s'.batch d = s.batch d)
    (hsub : ∀ q ∈ s'.batch dir, q ∈ s.batch dir)
    (hjob : ∀ v, v ≠ w → s'.job v = s.job v) (hjsub : ∀ q ∈ s'.jobPackets w, q ∈ s.jobPackets w)
    (hheld : (pkt.frames ++ framesOf (s'.batch dir) ++ framesOf (s'.jobPackets w)).Perm
      (framesOf (s.batch dir) ++ framesOf (s.jobPackets w))) :
    Conserved n s' := by
  have hroom := h.room ⟨dir, (0, 0), w, outDir, 0, slot⟩
  have hlen := hheld.length_eq
  simp only [System.focus, List.length_append] at hroom hlen
  have hk := hp.moves.allKept (fun q hq => by rw [List.mem_singleton.mp hq]; exact hs)
    (by rw [h.frameSize]; decide)
    (by simp only [framesOf_cons, framesOf_nil, List.append_nil]; omega)
  have hfocused : Focused ⟨dir, (0, 0), w, outDir, 0, slot⟩ s s' := by
    refine ⟨fun d k _ => by rw [hqueue], hbatch, fun d v _ => ?_, hjob, fun d i sl hne => ?_⟩
    · rw [hfwd, hp.toMid]
    · rw [hfwd, hp.outRing, if_neg hne]
  refine ⟨hfocused.partition (List.Perm.map _ ?_) h.places, ?_, ?_, ?_, ?_, ?_, ?_, ?_, ?_⟩
  · have hframes := hk.frames
    rw [List.perm_iff_count] at hframes hheld ⊢
    intro a
    have h1 := hframes a
    have h2 := hheld a
    simp only [System.focus, hfwd, hqueue, hp.toMid, hp.outRing, and_self, if_true, NeRing.append,
      framesOf_append, framesOf_cons, framesOf_nil, List.append_nil, List.count_append] at h1 h2 ⊢
    omega
  · rw [hfwd]; exact hk.cap.trans h.cap
  · rw [hfwd]; exact hk.refused.trans h.refused
  · rw [hfwd]; exact hk.frameSize.trans h.frameSize
  · intro d q hq
    by_cases hd : d = dir
    · rw [hd] at hq; exact h.batch dir q (hsub q hq)
    · rw [hbatch d hd] at hq; exact h.batch d q hq
  · rw [hfwd, hp.toMid]; exact h.toMid
  · intro v q hq
    by_cases hv : v = w
    · rw [hv] at hq; exact h.job w q (hjsub q hq)
    · rw [System.jobPackets, hjob v hv] at hq
      exact h.job v q hq
  · intro d i sl q hq
    rw [hfwd, hp.outRing] at hq
    split at hq
    · rcases List.mem_append.mp hq with hq | hq
      · exact h.outRing _ _ _ q hq
      · exact ⟨hk.sound q hq, hp.len q hq⟩
    · exact h.outRing _ _ _ q hq
  · rw [hqueue]; exact h.rx

/-- Freeing a packet is a way to be done with it. -/
theorem processed_of_free {fwd : Forwarder} (pkt : NePacket) :
    Processed fwd pkt { fwd with pair := (nePacketFree fwd.pair pkt).1 } .wan 0 [] := by
  refine ⟨rfl, ?_, umemMoves_drop _ _ _, fun q hq => absurd hq (List.not_mem_nil)⟩
  intro dir' i slot'
  split
  · rename_i hc
    rw [hc.1, hc.2.1, hc.2.2, NeRing.append_nil]
    rfl
  · rfl

/-- The RX thread is done with the first packet of its batch. -/
theorem Conserved.advance {fwd' : Forwarder} {outDir : NePacketDir} {slot : Nat}
    {pkts : List NePacket} (h : Conserved n s) (hb : s.batch dir = pkt :: rest)
    (hp : Processed s.fwd pkt fwd' outDir slot pkts) (hfwd : s'.fwd = fwd')
    (hqueue : s'.queue = s.queue) (hbatch : s'.batch = Function.update s.batch dir rest)
    (hjob : s'.job = s.job) : Conserved n s' := by
  have hrest : s'.batch dir = rest := by rw [hbatch, Function.update_self]
  have hj : s'.jobPackets 0 = s.jobPackets 0 := by rw [System.jobPackets, hjob]; rfl
  refine h.processed dir 0 hp ?_ hfwd hqueue ?_ ?_ ?_ ?_ ?_
  · exact h.batch dir pkt (by rw [hb]; exact List.mem_cons_self ..)
  · intro d hd; rw [hbatch, Function.update_of_ne hd]
  · intro q hq; rw [hrest] at hq; rw [hb]; exact List.mem_cons_of_mem _ hq
  · intro v _; rw [hjob]
  · intro q hq; rw [← hj]; exact hq
  · rw [hrest, hj, hb, framesOf_cons]

/-- The RX thread pushed the first packet of its batch. -/
theorem Conserved.pushed {ring : NeRing} (h : Conserved n s) (hb : s.batch dir = pkt :: rest)
    (hring : neRingTryPush (s.fwd.toMid dir w) pkt = some ring) :
    Conserved n ({ s with fwd := s.fwd.setToMid dir w ring }.advance dir rest) := by
  generalize hs' : ({ s with fwd := s.fwd.setToMid dir w ring } : System).advance dir rest = s'
  have hfwd : s'.fwd = s.fwd.setToMid dir w ring := by rw [← hs']; rfl
  have hqueue : s'.queue = s.queue := by rw [← hs']; rfl
  have hjob : s'.job = s.job := by rw [← hs']; rfl
  have hbatch : s'.batch = Function.update s.batch dir rest := by rw [← hs']; rfl
  have hrest : s'.batch dir = rest := by rw [hbatch, Function.update_self]
  have hitems := neRingTryPush_eq_some hring
  have hmid : ∀ d v, s'.fwd.toMid d v =
      if d = dir ∧ v = w then ring else s.fwd.toMid d v := by
    intro d v; rw [hfwd]; exact s.fwd.toMid_setToMid dir d w v ring
  have hpair : s'.fwd.pair = s.fwd.pair := by rw [hfwd, Forwarder.pair_setToMid]
  have hout : s'.fwd.outRing = s.fwd.outRing := by rw [hfwd, Forwarder.outRing_setToMid]
  have hfocused : Focused ⟨dir, (0, 0), w, dir, 0, 0⟩ s s' := by
    refine ⟨fun d k _ => by rw [hqueue], fun d hd => ?_, fun d v hne => ?_, fun v _ => by rw [hjob],
      fun d i sl _ => by rw [hout]⟩
    · rw [hbatch, Function.update_of_ne hd]
    · rw [hmid, if_neg hne]
  refine ⟨hfocused.partition (List.Perm.map _ ?_) h.places, by rw [hpair]; exact h.cap,
    by rw [hpair]; exact h.refused, by rw [hpair]; exact h.frameSize, ?_, ?_, ?_,
    by rw [hout]; exact h.outRing, by rw [hqueue]; exact h.rx⟩
  · rw [List.perm_iff_count]
    intro a
    have hj : s'.jobPackets w = s.jobPackets w := by rw [System.jobPackets, hjob]; rfl
    simp only [System.focus, hpair, hrest, hmid, and_self, if_true, hj, hout, hqueue, hb, hitems,
      framesOf_append, framesOf_cons, framesOf_nil, List.append_nil, List.count_append]
    omega
  · intro d q hq
    by_cases hd : d = dir
    · rw [hd, hrest] at hq
      exact h.batch dir q (by rw [hb]; exact List.mem_cons_of_mem _ hq)
    · rw [hbatch, Function.update_of_ne hd] at hq
      exact h.batch d q hq
  · intro d v q hq
    rw [hmid] at hq
    split at hq
    · rw [hitems] at hq
      rcases List.mem_append.mp hq with hq | hq
      · exact h.toMid dir w q hq
      · rw [List.mem_singleton.mp hq]
        exact h.batch dir pkt (by rw [hb]; exact List.mem_cons_self ..)
    · exact h.toMid d v q hq
  · intro v q hq
    rw [System.jobPackets, hjob] at hq
    exact h.job v q hq

theorem Conserved.handOn (h : Conserved n s) (env : Env) : Conserved n (s.handOn env dir) := by
  rw [System.handOn]
  split
  · rename_i w pkt rest _ hb
    cases hring : neRingTryPush (s.fwd.toMid dir w) pkt with
    | none => exact h.advance hb (processed_of_free pkt) rfl rfl rfl rfl
    | some ring => exact h.pushed hb hring
  · rename_i pkt rest _ hb
    exact h.advance hb (processed_of_free pkt) rfl rfl rfl rfl
  · rename_i pkt rest _ hb
    rw [System.processDirect]
    dsimp only
    generalize hself : ({ s.rxSelf dir with
      tls := dpOutRingBind s.fwd.route (dpPickTxSlot s.fwd.route (nePacketData s.fwd.pair pkt.addr)
        pkt.len) (s.rxSelf dir).tls } : Worker) = self
    obtain ⟨outDir, slot, pkts, hp⟩ := dataplaneProcess_processed env dir ⟨s.fwd, self, pkt⟩
    exact h.advance hb hp rfl rfl rfl rfl
  · exact h

theorem Conserved.pop (h : Conserved n s) : Conserved n (s.pop dir w) := by
  rw [System.pop]
  split
  · rename_i pkt ring hj hpop
    rw [neRingTryPop] at hpop
    cases hi : (s.fwd.toMid dir w).items with
    | nil => rw [hi] at hpop; cases hpop
    | cons pkt' rest =>
        rw [hi] at hpop
        injection hpop with hpop
        rw [Prod.mk.injEq] at hpop
        obtain ⟨rfl, hring⟩ := hpop
        generalize hs' : ({ s with
          fwd := s.fwd.setToMid dir w ring
          job := Function.update s.job w (some (dir, pkt')) } : System) = s'
        have hfwd : s'.fwd = s.fwd.setToMid dir w ring := by rw [← hs']
        have hqueue : s'.queue = s.queue := by rw [← hs']
        have hbatch : s'.batch = s.batch := by rw [← hs']
        have hjob : s'.job = Function.update s.job w (some (dir, pkt')) := by rw [← hs']
        have hitems : ring.items = rest := by rw [← hring]
        have hmid : ∀ d v, s'.fwd.toMid d v =
            if d = dir ∧ v = w then ring else s.fwd.toMid d v := by
          intro d v; rw [hfwd]; exact s.fwd.toMid_setToMid dir d w v ring
        have hpair : s'.fwd.pair = s.fwd.pair := by rw [hfwd, Forwarder.pair_setToMid]
        have hout : s'.fwd.outRing = s.fwd.outRing := by rw [hfwd, Forwarder.outRing_setToMid]
        have hself : s'.jobPackets w = [pkt'] := by
          rw [System.jobPackets, hjob, Function.update_self]
        have hempty : s.jobPackets w = [] := by rw [System.jobPackets, hj]
        have hfocused : Focused ⟨dir, (0, 0), w, dir, 0, 0⟩ s s' := by
          refine ⟨fun d k _ => by rw [hqueue], fun d _ => by rw [hbatch], fun d v hne => ?_,
            fun v hv => ?_, fun d i sl _ => by rw [hout]⟩
          · rw [hmid, if_neg hne]
          · rw [hjob, Function.update_of_ne hv]
        refine ⟨hfocused.partition (List.Perm.map _ ?_) h.places, by rw [hpair]; exact h.cap,
          by rw [hpair]; exact h.refused, by rw [hpair]; exact h.frameSize,
          by rw [hbatch]; exact h.batch, ?_, ?_, by rw [hout]; exact h.outRing,
          by rw [hqueue]; exact h.rx⟩
        · rw [List.perm_iff_count]
          intro a
          simp only [System.focus, hpair, hbatch, hmid, and_self, if_true, hself, hempty, hout,
            hqueue, hitems, hi, framesOf_cons, framesOf_nil, List.append_nil, List.count_append]
          omega
        · intro d v q hq
          rw [hmid] at hq
          split at hq
          · rw [hitems] at hq
            exact h.toMid dir w q (by rw [hi]; exact List.mem_cons_of_mem _ hq)
          · exact h.toMid d v q hq
        · intro v q hq
          by_cases hv : v = w
          · rw [hv, hself] at hq
            rw [List.mem_singleton.mp hq]
            exact h.toMid dir w pkt' (by rw [hi]; exact List.mem_cons_self ..)
          · rw [System.jobPackets, hjob, Function.update_of_ne hv] at hq
            exact h.job v q hq
  · exact h

theorem Conserved.process (h : Conserved n s) (env : Env) : Conserved n (s.process env w) := by
  rw [System.process]
  cases hj : s.job w with
  | none => exact h
  | some j =>
      obtain ⟨dir, pkt⟩ := j
      dsimp only
      obtain ⟨outDir, slot, pkts, hp⟩ := dataplaneProcess_processed env dir
        ⟨s.fwd, s.bound dir w pkt, pkt⟩
      generalize dataplaneProcess env dir ⟨s.fwd, s.bound dir w pkt, pkt⟩ = j' at hp
      have hheld : s.jobPackets w = [pkt] := by rw [System.jobPackets, hj]
      have hdone : ({ s with
          fwd := j'.fwd
          worker := Function.update s.worker w j'.self
          job := Function.update s.job w none } : System).jobPackets w = [] := by
        simp only [System.jobPackets, Function.update_self]
      refine h.processed .local w hp ?_ rfl rfl (fun _ _ => rfl) (fun _ hq => hq)
        ?_ ?_ ?_
      · exact h.job w pkt (by rw [hheld]; exact List.mem_cons_self ..)
      · intro v hv; exact Function.update_of_ne hv ..
      · intro q hq; rw [hdone] at hq; exact absurd hq (List.not_mem_nil)
      · rw [hdone, hheld]
        simp only [framesOf_nil, framesOf_cons, List.append_nil]
        exact List.perm_append_comm

theorem Conserved.tx (h : Conserved n s) (iface slot : Nat) : Conserved n (s.tx dir iface slot) := by
  rw [System.tx]
  split
  · cases hq : txPrimary slot ((s.ifs dir).queueCount iface) with
    | none => exact h
    | some q =>
        dsimp only
        generalize hr : txRound (s.queue dir (iface, q)) (s.fwd.outRing dir iface slot)
          s.fwd.pair.pool s.fwd.pair.frameSize = r
        have hroom := h.room ⟨dir, (iface, q), 0, dir, iface, slot⟩
        simp only [System.focus, List.length_append] at hroom
        obtain ⟨⟨tx, sent, hqueue⟩, hcap, href, hsub, hperm⟩ := txRound_owned
          (h.outRing dir iface slot) (by omega) hr
        generalize hs' : ({ (s.setQueue dir (iface, q) r.2.1).setPool r.2.2.2 with
          fwd := ((s.setPool r.2.2.2).fwd).setOutRing dir iface slot r.2.2.1 } : System) = s'
        have hq' : ∀ d k, s'.queue d k =
            if d = dir ∧ k = (iface, q) then r.2.1 else s.queue d k := by
          intro d k; rw [← hs']; exact s.queue_setQueue dir d (iface, q) k r.2.1
        have hout : ∀ d i sl, s'.fwd.outRing d i sl =
            if d = dir ∧ i = iface ∧ sl = slot then r.2.2.1 else s.fwd.outRing d i sl := by
          intro d i sl
          rw [← hs']
          exact (s.setPool r.2.2.2).fwd.outRing_setOutRing dir d iface i slot sl r.2.2.1
        have hmid : s'.fwd.toMid = s.fwd.toMid := by
          rw [← hs']; exact Forwarder.toMid_setOutRing ..
        have hpool : s'.fwd.pair = { s.fwd.pair with pool := r.2.2.2 } := by
          rw [← hs']; exact Forwarder.pair_setOutRing ..
        have hbatch : s'.batch = s.batch := by rw [← hs']; rfl
        have hjob : s'.job = s.job := by rw [← hs']; rfl
        have hfocused : Focused ⟨dir, (iface, q), 0, dir, iface, slot⟩ s s' := by
          refine ⟨fun d k hne => by rw [hq', if_neg hne], fun d _ => by rw [hbatch],
            fun d v _ => by rw [hmid], fun v _ => by rw [hjob],
            fun d i sl hne => by rw [hout, if_neg hne]⟩
        have hrx := h.rx dir (iface, q)
        refine ⟨hfocused.partition (List.Perm.map _ ?_) h.places, by rw [hpool]; exact hcap.trans h.cap,
          by rw [hpool]; exact href.trans h.refused, by rw [hpool]; exact h.frameSize,
          by rw [hbatch]; exact h.batch, by rw [hmid]; exact h.toMid, ?_, ?_, ?_⟩
        · rw [List.perm_iff_count] at hperm ⊢
          intro a
          have ha := hperm a
          have hj : s'.jobPackets 0 = s.jobPackets 0 := by rw [System.jobPackets, hjob]; rfl
          rw [hqueue] at ha
          simp only [System.focus, NeXskQueue.owned, hq', and_self, if_true, hout, hmid, hbatch, hj,
            hpool, hqueue, List.count_append] at ha ⊢
          omega
        · intro v p hp
          rw [System.jobPackets, hjob] at hp
          exact h.job v p hp
        · intro d i sl p hp
          rw [hout] at hp
          split at hp
          · exact h.outRing dir iface slot p (hsub p hp)
          · exact h.outRing d i sl p hp
        · intro d k
          rw [hq']
          split
          · rw [hqueue]
            exact ⟨hrx.tracks.of_eq rfl rfl rfl rfl, hrx.fits, hrx.positive, hrx.chain⟩
          · exact h.rx d k
  · exact h

end PacketStep

/-! ## runs -/

theorem Conserved.step {n : Nat} {s : System} (h : Conserved n s) {e : Step} (hl : KernelLegal s e) :
    Conserved n (s.step e) := by
  cases e with
  | prefill dir k want => exact h.prefill want
  | refill dir k => exact h.refill
  | fillTake dir k => exact h.fillTake
  | receive dir k d => exact h.receive hl
  | recv dir k total => exact h.recv total
  | release dir k => exact h.release
  | lookup dir => exact h.lookup
  | handOn env dir => exact h.handOn env
  | pop dir w => exact h.pop
  | process env w => exact h.process env
  | fragGc w now =>
      exact ⟨h.places, h.cap, h.refused, h.frameSize, h.batch, h.toMid, h.job, h.outRing, h.rx⟩
  | tx dir iface slot => exact h.tx iface slot
  | txTake dir k => exact h.txTake
  | complete dir k m => exact h.complete m
  | drainCq dir k => exact h.drainCq

theorem poolOpen_eq (n : Nat) : poolOpen n = ⟨(List.range n).map (· * neFrame), n, 0⟩ := by
  have hfold : ∀ m ≤ n, (List.range m).foldl (fun p i => poolPush p [i * neFrame]) ⟨[], n, 0⟩ =
      ⟨(List.range m).map (· * neFrame), n, 0⟩ := by
    intro m
    induction m with
    | zero => intro _; rfl
    | succ m ih =>
        intro hm
        rw [List.range_succ, List.foldl_append, ih (by omega), List.foldl_cons, List.foldl_nil,
          poolPush_eq (by simp; omega)]
        simp
  exact hfold n (Nat.le_refl n)

theorem conserved_init (n : Nat) (mem : Mem) (crypto : PacketCryptoCtx) (ifs : NePacketDir → Ifaces) :
    Conserved n (System.init n mem crypto ifs) := by
  have hpool : (System.init n mem crypto ifs).frames .pool = List.range n := by
    have hpo : (System.init n mem crypto ifs).fwd.pair.pool = poolOpen n := rfl
    rw [System.frames, System.addrs, hpo, poolOpen_eq, List.map_map]
    refine List.map_id'' (fun i => ?_) _
    rw [Function.comp_apply, chunk, Nat.mul_div_cancel _ (by decide)]
  have hempty : ∀ p, p ≠ .pool → (System.init n mem crypto ifs).frames p = [] := by
    intro p hp
    cases p with
    | pool => exact absurd rfl hp
    | toMid dir w => cases dir <;> rfl
    | outRing dir i slot => cases dir <;> rfl
    | _ => rfl
  refine ⟨⟨?_, ?_, ?_⟩, ?_, ?_, rfl, ?_, ?_, ?_, ?_, ?_⟩
  · intro p
    by_cases hp : p = .pool
    · rw [hp, hpool]; exact List.nodup_range
    · rw [hempty p hp]; exact List.nodup_nil
  · intro p p' hne a ha ha'
    by_cases hp : p = .pool
    · rw [hempty p' (fun h => hne (hp.trans h.symm))] at ha'
      exact absurd ha' (List.not_mem_nil)
    · rw [hempty p hp] at ha
      exact absurd ha (List.not_mem_nil)
  · intro a
    constructor
    · intro ha; exact ⟨.pool, by rw [hpool]; exact List.mem_range.mpr ha⟩
    · intro ⟨p, ha⟩
      by_cases hp : p = .pool
      · rw [hp, hpool] at ha; exact List.mem_range.mp ha
      · rw [hempty p hp] at ha; exact absurd ha (List.not_mem_nil)
  · exact congrArg NePool.cap (poolOpen_eq n)
  · exact congrArg NePool.refused (poolOpen_eq n)
  · intro dir pkt hpkt; exact absurd hpkt (List.not_mem_nil)
  · intro dir w pkt hpkt; cases dir <;> exact absurd hpkt (List.not_mem_nil)
  · intro w pkt hpkt; exact absurd hpkt (List.not_mem_nil)
  · intro dir i slot pkt hpkt; cases dir <;> exact absurd hpkt (List.not_mem_nil)
  · intro dir k
    exact ⟨settled_init.tracks, show StreamFits [] by decide, fun d hd => absurd hd (List.not_mem_nil),
      NePacket.sound_zero⟩

/-- In every state the process can reach, every frame of the UMEM is in exactly
one place, once, and the pool never had to refuse a frame. -/
theorem frames_conserved (nFrames : Nat) (mem : Mem) (crypto : PacketCryptoCtx)
    (ifs : NePacketDir → Ifaces) (es : List Step)
    (hlegal : Along System.step KernelLegal (System.init nFrames mem crypto ifs) es) :
    (∀ c < nFrames, ∃! p, c ∈ (run System.step (System.init nFrames mem crypto ifs) es).frames p) ∧
      (∀ p, ((run System.step (System.init nFrames mem crypto ifs) es).frames p).Nodup) ∧
      (∀ p, ∀ c ∈ (run System.step (System.init nFrames mem crypto ifs) es).frames p, c < nFrames) ∧
      (run System.step (System.init nFrames mem crypto ifs) es).fwd.pair.pool.refused = 0 := by
  have hinv := (@Along.invariant _ _ System.step KernelLegal (fun _ _ => True) (Conserved nFrames)
    (fun s e h hl => ⟨h.step hl, trivial⟩) _ _ (conserved_init nFrames mem crypto ifs) hlegal).1
  refine ⟨fun c hc => hinv.places.existsUnique hc, hinv.places.nodup, ?_, hinv.refused⟩
  intro p c hc
  exact (hinv.places.covers c).mpr ⟨p, hc⟩

/-- One LAN and one WAN interface with one queue each. -/
def sampleIfs : NePacketDir → Ifaces := fun _ => ⟨1, fun _ => true, fun _ => 1⟩

/-- A frame of 60 bytes from the LAN on its way to the WAN and back to the pool. -/
def sampleSteps (env : Env) : List Step :=
  [.prefill .local (0, 0) 2, .fillTake .local (0, 0), .receive .local (0, 0) ⟨256, 60, false⟩,
    .recv .local (0, 0) 0, .release .local (0, 0), .lookup .local, .handOn env .local, .pop .local 0,
    .process env 0, .tx .wan 0 0, .txTake .wan (0, 0), .complete .wan (0, 0) 0, .drainCq .wan (0, 0)]

theorem frames_conserved_sample :
    (∀ c < 4, ∃! p, c ∈ (run System.step
      (System.init 4 (fun _ => 0) (packetCryptoInit coreKey) sampleIfs)
      (sampleSteps (sampleEnv 0))).frames p) ∧
    (run System.step (System.init 4 (fun _ => 0) (packetCryptoInit coreKey) sampleIfs)
      (sampleSteps (sampleEnv 0))).fwd.pair.pool.refused = 0 := by
  have h := frames_conserved 4 (fun _ => 0) (packetCryptoInit coreKey) sampleIfs
    (sampleSteps (sampleEnv 0)) ?_
  · exact ⟨h.1, h.2.2.2⟩
  refine ⟨trivial, trivial, ⟨?_, ?_, ?_, ?_⟩, trivial, trivial, trivial, trivial, trivial, trivial,
    trivial, trivial, trivial, trivial, trivial⟩
  · exact ⟨0, by decide +kernel, by decide⟩
  · decide
  · decide
  · decide +kernel

end NetworkEncryptor
