import NetworkEncryptor.Chunks
import NetworkEncryptor.Conservation
import NetworkEncryptor.Lanes

/-!
# NetworkEncryptor.FlowOrder

The threads of the process keep the packets of a flow in order
(`flows_in_order`), whatever they and the kernel do in turn.

Every step of the process is a step of both its lanes (`Wired.act`), so what
holds of lanes holds of the process.  A lane knows nothing of packets that cannot be
sent and of rings without a TX thread; that there are none is the other half of
the argument (`Wired`).
-/

namespace NetworkEncryptor

/-- Where the packets of a side go to. -/
def NePacketDir.other : NePacketDir → NePacketDir
  | .local => .wan
  | .wan => .local

theorem NePacketDir.other_inj {dir dir' : NePacketDir} : dir.other = dir'.other ↔ dir = dir' := by
  cases dir <;> cases dir' <;> simp [NePacketDir.other]

@[simp] theorem NePacketDir.other_other (dir : NePacketDir) : dir.other.other = dir := by
  cases dir <;> rfl

/-! ## packets that can be sent -/

/-- `tx_drain_queue` sends the packet. -/
structure Sendable (pkt : NePacket) : Prop where
  nsegs : pkt.nsegs ≤ nePacketMaxSegs
  len : pkt.len ≤ neJumboFrameMax

theorem sendable_zero : Sendable NePacket.zero := ⟨by decide, by decide⟩

theorem SameSegs.sendable {pkt pkt' : NePacket} (h : SameSegs pkt pkt') (hs : Sendable pkt) : Sendable pkt' :=
  ⟨h.nsegs ▸ hs.nsegs, h.len ▸ hs.len⟩

theorem Sendable.segCount {pkt : NePacket} (h : Sendable pkt) : pkt.segCount ≤ nePacketMaxSegs := by
  unfold NePacket.segCount
  have := h.nsegs
  split_ifs
  · exact this
  · decide
  · decide

/-- A packet never grows beyond its segments. -/
theorem Sendable.grown {pkt : NePacket} (h : Sendable pkt) (p : NePair) (len : Nat) :
    (grown p pkt len).nsegs ≤ nePacketMaxSegs ∧ Sendable (grown p pkt len).pkt := by
  unfold NetworkEncryptor.grown
  refine packetGrow_induct (I := fun g => g.nsegs ≤ nePacketMaxSegs ∧ Sendable g.pkt) ?_ _ _ ⟨h.segCount, h⟩
  intro g addr rest hg _ hn _
  exact ⟨hn, hn, hg.2.len⟩

theorem nePacketWrite_sendable {p p' : NePair} {pkt pkt' : NePacket} {src : Mem} {len : Nat} {ok : Bool}
    (h : Sendable pkt) (hw : nePacketWrite p pkt src len = (ok, p', pkt')) : Sendable pkt' := by
  obtain ⟨hsegs, hgrown⟩ := h.grown p len
  rcases nePacketWrite_cases p pkt src len with hc | ⟨-, hc⟩ | ⟨-, hlen, -, used, hused, t, -, hc⟩
  · rw [hc] at hw
    simp only [Prod.mk.injEq] at hw
    exact hw.2.2 ▸ h
  · rw [hc] at hw
    simp only [Prod.mk.injEq] at hw
    exact hw.2.2 ▸ hgrown
  · rw [hc] at hw
    simp only [Prod.mk.injEq] at hw
    obtain ⟨-, hle, -, -⟩ := usedSegs_spec (filled p pkt src len).2.1 (NetworkEncryptor.grown p pkt len).nsegs 0
    rw [← hw.2.2]
    exact ⟨by dsimp only; omega, hlen⟩

theorem UmemMove.sendable {s s' : NePair × List NePacket} (h : UmemMove s s') (hs : ∀ pkt ∈ s.2, Sendable pkt) :
    ∀ pkt ∈ s'.2, Sendable pkt := by
  cases h with
  | write hw =>
      simp only [List.forall_mem_cons] at hs ⊢
      exact ⟨nePacketWrite_sendable hs.1 hw, hs.2⟩
  | free p pkt rest =>
      simp only [List.forall_mem_cons] at hs ⊢
      exact ⟨sendable_zero, hs.2⟩
  | stamp hsame =>
      simp only [List.forall_mem_cons] at hs ⊢
      exact ⟨hsame.sendable hs.1, hs.2⟩
  | new p rest =>
      simp only [List.forall_mem_cons]
      exact ⟨sendable_zero, hs⟩
  | forget p rest =>
      simp only [List.forall_mem_cons] at hs
      exact hs.2
  | swap p a b =>
      simp only [List.forall_mem_cons] at hs ⊢
      exact ⟨hs.2.1, hs.1, hs.2.2⟩

theorem UmemMoves.sendable {s s' : NePair × List NePacket} (h : UmemMoves s s')
    (hs : ∀ pkt ∈ s.2, Sendable pkt) : ∀ pkt ∈ s'.2, Sendable pkt := by
  induction h with
  | refl => exact hs
  | tail _ hmove ih => exact hmove.sendable ih

/-! ## received packets -/

/-- A packet as `recv_queue` hands it out. -/
def Arrived (pkt : NePacket) : Prop := Sendable pkt ∧ pkt.part = 0

theorem recvSeg_arrived {q : NeXskQueue} (h : Arrived q.rxChain) (d : XdpDesc) :
    Arrived (recvSeg q d).rxChain := by
  unfold recvSeg
  split_ifs with hrefused
  · simpa only [reject_chain] using h
  · simp only [chainRefuses, Bool.or_eq_true, decide_eq_true_eq, not_or] at hrefused
    exact ⟨⟨by dsimp only [chainAppend]; omega, by dsimp only [chainAppend]; omega⟩, h.2⟩

theorem recvDesc_arrived {stamp : RxStamp} {max : Nat} {r : NeXskQueue × List NePacket} (d : XdpDesc)
    (h : Arrived r.1.rxChain) (hout : ∀ pkt ∈ r.2, Arrived pkt) :
    Arrived (recvDesc stamp max r d).1.rxChain ∧ ∀ pkt ∈ (recvDesc stamp max r d).2, Arrived pkt := by
  have hseg := recvSeg_arrived h d
  unfold recvDesc
  dsimp only
  split_ifs
  · exact ⟨hseg, hout⟩
  · exact ⟨⟨sendable_zero, rfl⟩, hout⟩
  · refine ⟨⟨sendable_zero, rfl⟩, fun pkt hp => ?_⟩
    rcases List.mem_append.mp hp with hp | hp
    · exact hout pkt hp
    · rw [List.mem_singleton.mp hp]
      exact ⟨⟨hseg.1.nsegs, hseg.1.len⟩, hseg.2⟩

theorem recvDescs_arrived {stamp : RxStamp} {max : Nat} (ds : List XdpDesc) :
    ∀ (r : NeXskQueue × List NePacket), Arrived r.1.rxChain → (∀ pkt ∈ r.2, Arrived pkt) →
      Arrived (ds.foldl (recvDesc stamp max) r).1.rxChain ∧
        ∀ pkt ∈ (ds.foldl (recvDesc stamp max) r).2, Arrived pkt := by
  induction ds with
  | nil => intro r h hout; exact ⟨h, hout⟩
  | cons d ds ih =>
      intro r h hout
      obtain ⟨h', hout'⟩ := @recvDesc_arrived stamp max r d h hout
      exact ih _ h' hout'

theorem recvQueue_arrived {q : NeXskQueue} (max : Nat) (stamp : RxStamp) (h : Arrived q.rxChain) :
    Arrived (recvQueue q max stamp).1.rxChain ∧ (recvQueue q max stamp).1.sent = q.sent ∧
      ∀ pkt ∈ (recvQueue q max stamp).2, Arrived pkt := by
  obtain ⟨hchain, hout⟩ := @recvDescs_arrived stamp max (xskRingConsPeek q.rx max).1
    ({ q with rx := (xskRingConsPeek q.rx max).2 }, []) h (by simp)
  obtain ⟨-, hsent⟩ := @recvDescs_view stamp max (xskRingConsPeek q.rx max).1
    ({ q with rx := (xskRingConsPeek q.rx max).2 }, [])
  exact ⟨hchain, hsent, hout⟩

/-! ## processing -/

theorem RouteCalls.kept {rt rt' : RouteState} (h : RouteCalls rt rt') (ht : TableInv rt) :
    TableInv rt' ∧ Sticks rt rt' := by
  induction h with
  | refl => exact ⟨ht, .refl rt⟩
  | tail _ hcall ih =>
      cases hcall with
      | nextSeq tls buf len =>
          obtain ⟨ht', hs⟩ := nextTxSeq_route ih.1 tls buf len
          exact ⟨ht', ih.2.trans hs⟩
      | get buf len hint => exact ⟨ih.1.get buf len hint, ih.2.trans (sticks_get _ buf len hint)⟩

theorem Sticks.activeTxSlots {rt rt' : RouteState} (h : Sticks rt rt') :
    dpActiveTxSlots rt' = dpActiveTxSlots rt := by
  unfold dpActiveTxSlots
  rw [h.active]

/-- How many interfaces a side has. -/
def Forwarder.count (fwd : Forwarder) (dir : NePacketDir) : Nat :=
  match dir with
  | .local => fwd.localCount
  | .wan => fwd.wanCount

theorem dpOutRingBind_lt (rt : RouteState) (slot : Nat) (tls : RouteTls) :
    (dpOutRingBind rt slot tls).outRingIdx < (dpActiveTxSlots rt).toNat := by
  unfold dpOutRingBind
  have := (dpActiveTxSlots_bounds rt).1
  dsimp only
  split_ifs <;> omega

theorem dpOutRingBind_of_lt {rt : RouteState} {slot : Nat} {tls : RouteTls}
    (h : slot < (dpActiveTxSlots rt).toNat) : (dpOutRingBind rt slot tls).outRingIdx = slot :=
  if_neg (by omega)

/-- What a worker did with a packet of the side `dir`: the order of packets and the rings
depend on no more. -/
structure Handled (dir : NePacketDir) (fwd : Forwarder) (pkt : NePacket) (fwd' : Forwarder) (slot : Nat)
    (pkts : List NePacket) : Prop where
  processed : Processed fwd pkt fwd' dir.other slot pkts
  yields : Yields pkt pkts
  route : TableInv fwd'.route ∧ Sticks fwd.route fwd'.route
  slotBy : ∀ q ∈ pkts, SlotBy dir pkt fwd'.route slot q
  slot_lt : ∀ q ∈ pkts, slot < (dpActiveTxSlots fwd'.route).toNat
  count : fwd'.count = fwd.count
  single : ∀ q ∈ pkts, fwd.count dir.other = 1

/-- Nothing is pushed towards the WAN unless it has one interface. -/
theorem dataplaneProcessLocal_idle (env : Env) {j : Job} (h : j.fwd.wanCount ≠ 1) :
    (dataplaneProcessLocal env j).fwd.midToWan = j.fwd.midToWan := by
  rw [dataplaneProcessLocal_eq rfl]
  split_ifs
  · rfl
  · rfl
  · exact absurd h ‹_›

theorem routeLocal_idle {j : Job} (h : j.fwd.localCount ≠ 1) (pkt : Mem) (w : Nat) :
    (routeLocal j pkt w).fwd.midToLocal = j.fwd.midToLocal := by
  unfold routeLocal forwardLocal
  simp only [if_pos h]
  rfl

/-- Nothing is pushed towards the LAN unless it has one interface. -/
theorem dataplaneProcessWan_idle (env : Env) {j : Job} (h : j.fwd.localCount ≠ 1) :
    (dataplaneProcessWan env j).fwd.midToLocal = j.fwd.midToLocal := by
  unfold dataplaneProcessWan
  dsimp only
  split
  · rfl
  · split_ifs
    · rfl
    · rfl
    · rfl
    · split
      · rfl
      · rfl
      · split_ifs
        · refine routeLocal_idle ?_ _ _
          exact h
        · rfl
    · split
      · rfl
      · split_ifs
        · refine routeLocal_idle ?_ _ _
          exact h
        · rfl

/-- If the ring is as before, nothing was pushed. -/
theorem Processed.eq_nil {fwd fwd' : Forwarder} {pkt : NePacket} {dir : NePacketDir} {slot : Nat}
    {pkts : List NePacket} (h : Processed fwd pkt fwd' dir slot pkts)
    (hsame : fwd'.outRing dir 0 slot = fwd.outRing dir 0 slot) : pkts = [] := by
  have hring := h.outRing dir 0 slot
  rw [if_pos ⟨rfl, rfl, rfl⟩, hsame] at hring
  have hitems := congrArg NeRing.items hring
  simpa [NeRing.append] using hitems

theorem Handed.yields {pkt : NePacket} {pkts : List NePacket} (h : Handed pkt.history pkts) :
    Yields pkt pkts ∧ ∀ q ∈ pkts, q.flow = pkt.flow := by
  cases h with
  | none => exact ⟨.none, by simp⟩
  | one _ hq =>
      simp only [NePacket.history, Prod.mk.injEq] at hq
      exact ⟨.one hq.1 hq.2.1, by simp [hq.2.2]⟩
  | pair _ hq _ hr =>
      simp only [NePacket.history, Prod.mk.injEq] at hq hr
      exact ⟨.two hq.1 hq.2.1 hr.1 hr.2.1 (hr.2.2.trans hq.2.2.symm), by simp [hq.2.2, hr.2.2]⟩

/-- A packet from the LAN goes to the ring of the slot it was looked up with. -/
theorem handled_local (env : Env) {fwd : Forwarder} {self : Worker} {pkt : NePacket} (ht : TableInv fwd.route) :
    ∃ slot pkts, Handled .local fwd pkt (dataplaneProcess env .local
      ⟨fwd, { self with tls := dpOutRingBind fwd.route pkt.txSlot self.tls }, pkt⟩).fwd slot pkts := by
  generalize hj : (⟨fwd, { self with tls := dpOutRingBind fwd.route pkt.txSlot self.tls }, pkt⟩ : Job) = j
  obtain ⟨pkts, hpushed⟩ := dataplaneProcessLocal_outcome env j
  have hidle : j.fwd.wanCount ≠ 1 → (dataplaneProcess env .local j).fwd.midToWan = j.fwd.midToWan :=
    fun h => dataplaneProcessLocal_idle env h
  change PushedWan j (dataplaneProcess env .local j) pkts at hpushed
  generalize dataplaneProcess env .local j = j' at hpushed hidle
  have hfwd : j.fwd = fwd := by rw [← hj]
  have hpkt : j.pkt = pkt := by rw [← hj]
  have hring : j.self.tls.outRingIdx = (dpOutRingBind fwd.route pkt.txSlot self.tls).outRingIdx := by rw [← hj]
  have hp := processed_of_wan hpushed
  obtain ⟨hyields, hflow⟩ := hpushed.handed.yields
  obtain ⟨route, epoch, hf, hcalls⟩ := hpushed.fwd
  rw [hfwd, hpkt] at hp
  rw [hpkt] at hyields hflow
  rw [hfwd] at hcalls
  have hroute : j'.fwd.route = route := by rw [hf]
  obtain ⟨ht', hs⟩ := hcalls.kept ht
  rw [← hroute] at ht' hs
  refine ⟨j.self.tls.outRingIdx, pkts, hp, hyields, ⟨ht', hs⟩, fun q hq => ⟨hflow q hq, fun hlt => ?_⟩,
    fun q _ => ?_, ?_, fun q hq => ?_⟩
  · rw [hs.activeTxSlots] at hlt
    rw [hring, dpOutRingBind_of_lt hlt]
  · rw [hs.activeTxSlots, hring]
    exact dpOutRingBind_lt ..
  · funext dir
    rw [hf, ← hfwd]
    cases dir <;> rfl
  · by_contra hne
    have hsame := congrFun (congrFun (hidle (by rw [hfwd]; exact hne)) 0) j.self.tls.outRingIdx
    rw [hfwd] at hsame
    rw [hp.eq_nil hsame] at hq
    cases hq

/-- A packet from the WAN goes to the ring of the flow that was found in it. -/
theorem handled_wan (env : Env) {fwd : Forwarder} {self : Worker} {pkt : NePacket} (ht : TableInv fwd.route) :
    ∃ slot pkts, Handled .wan fwd pkt (dataplaneProcess env .wan ⟨fwd, self, pkt⟩).fwd slot pkts := by
  generalize hj : (⟨fwd, self, pkt⟩ : Job) = j
  obtain ⟨pkts, hpushed⟩ := dataplaneProcessWan_outcome env j
  have hidle : j.fwd.localCount ≠ 1 → (dataplaneProcess env .wan j).fwd.midToLocal = j.fwd.midToLocal :=
    fun h => dataplaneProcessWan_idle env h
  change PushedLocal j (dataplaneProcess env .wan j) pkts at hpushed
  generalize dataplaneProcess env .wan j = j' at hpushed hidle
  have hfwd : j.fwd = fwd := by rw [← hj]
  have hpkt : j.pkt = pkt := by rw [← hj]
  obtain ⟨ri, route, tables, hf, hcalls, hpkts⟩ := hpushed.fwd
  rw [hfwd] at hcalls
  have hroute : j'.fwd.route = route := by rw [hf]
  obtain ⟨ht', hs⟩ := hcalls.kept ht
  rw [← hroute] at ht' hs
  have hp : Processed fwd pkt j'.fwd .local ri pkts := hfwd ▸ hpkt ▸ processed_of_local hpushed hf
  have hcount : j'.fwd.count = fwd.count := by
    funext dir
    rw [hf, ← hfwd]
    cases dir <;> rfl
  rcases hpkts with rfl | ⟨q, rfl, hh⟩
  · exact ⟨ri, [], hp, .none, ⟨ht', hs⟩, by simp, by simp, hcount, by simp⟩
  obtain ⟨w, out, len, hw, -, hget, hri, hflow⟩ := hh.worker
  rw [hfwd] at hget hri
  have hri_lt : ri < (dpActiveTxSlots j'.fwd.route).toNat := by
    rw [hroute, hri]
    exact dpOutRingBind_lt ..
  refine ⟨ri, [q], hp, .one (hpkt ▸ hh.tag) (hpkt ▸ hh.part), ⟨ht', hs⟩, ?_, fun _ _ => hri_lt, hcount, ?_⟩
  · intro q' hq' f hqf hf'
    rw [List.mem_singleton.mp hq', hflow] at hqf
    have hans := @routeAnswer_get fwd.route out len f hqf hf' (some w)
    change route = (dpFlowRouteGet fwd.route out len (some w)).2 at hget
    rw [← hget, ← hroute] at hans
    have hlt := (hans.bounds ht'.bounds).2
    refine ⟨(dpFlowRouteGet fwd.route out len (some w)).1.workerIdx, ?_⟩
    rw [hroute] at hlt
    change ri = (dpOutRingBind route (dpFlowRouteGet fwd.route out len (some w)).1.txSlot j.self.tls).outRingIdx at hri
    rw [dpOutRingBind_of_lt hlt] at hri
    rw [hri]
    exact hans
  · intro _ _
    by_contra hne
    have hsame := congrFun (congrFun (hidle (by rw [hfwd]; exact hne)) 0) ri
    rw [hfwd] at hsame
    have hnil := hp.eq_nil hsame
    cases hnil

/-! ## the lanes of the process -/

/-- The packets a worker has of a side: the one it is processing, and its queue. -/
def System.mid (s : System) (dir : NePacketDir) (w : Nat) : List NePacket :=
  (match s.job w with
    | some (d, pkt) => if d = dir then [pkt] else []
    | none => []) ++ (s.fwd.toMid dir w).items

/-- What went to a TX slot of the first interface. -/
def System.line (s : System) (dir : NePacketDir) (slot : Nat) : List NePacket :=
  (s.queue dir (0, slot)).sent ++ (s.fwd.outRing dir 0 slot).items

def System.lane (s : System) (dir : NePacketDir) : Lane :=
  { batch := s.batch dir, picked := s.picked dir, mid := s.mid dir, line := s.line dir.other,
    routed := s.routed dir, route := s.fwd.route, nextTag := s.nextTag }

/-- What the lanes leave out: the RX threads process nothing themselves, all packets can
be sent, and only rings with a TX thread have any. -/
structure Wired (s : System) : Prop where
  self : ∀ dir, (s.rxSelf dir).tls.cryptoWorkerIdx = none
  picked : s.picked .local ≠ some .direct
  chain : ∀ dir k, Arrived (s.queue dir k).rxChain
  batch : ∀ dir, ∀ pkt ∈ s.batch dir, Sendable pkt
  mid : ∀ dir w, ∀ pkt ∈ s.mid dir w, Sendable pkt
  out : ∀ dir i slot, ∀ pkt ∈ (s.fwd.outRing dir i slot).items,
    Sendable pkt ∧ i = 0 ∧ slot < s.txThreads ∧ (s.ifs dir).count = 1
  sent : ∀ dir k, ∀ pkt ∈ (s.queue dir k).sent, k.1 = 0
  count : ∀ dir, s.fwd.count dir = (s.ifs dir).count
  active : (dpActiveTxSlots s.fwd.route).toNat = s.txThreads
  threads : s.txThreads = forwarderActiveTxSlots s.ifs

/-- The step keeps what the lanes leave out, and is a step of both lanes. -/
def Moves (s s' : System) : Prop := Wired s' ∧ ∀ dir, LaneStep dir (s.lane dir) (s'.lane dir)

/-- Nothing the order depends on changes. -/
structure Unmoved (s s' : System) : Prop where
  self : ∀ dir, (s'.rxSelf dir).tls.cryptoWorkerIdx = (s.rxSelf dir).tls.cryptoWorkerIdx
  picked : s'.picked = s.picked
  chain : ∀ dir k, (s'.queue dir k).rxChain = (s.queue dir k).rxChain
  sent : ∀ dir k, (s'.queue dir k).sent = (s.queue dir k).sent
  batch : s'.batch = s.batch
  job : s'.job = s.job
  toMid : s'.fwd.toMid = s.fwd.toMid
  outRing : s'.fwd.outRing = s.fwd.outRing
  count : s'.fwd.count = s.fwd.count
  route : s'.fwd.route = s.fwd.route
  routed : s'.routed = s.routed
  nextTag : s'.nextTag = s.nextTag
  ifs : s'.ifs = s.ifs
  txThreads : s'.txThreads = s.txThreads

section Steps

variable {s s' : System} {dir : NePacketDir} {k : Nat × Nat} {w : Nat} {pkt : NePacket} {rest : List NePacket}

theorem Unmoved.lane (h : Unmoved s s') (dir : NePacketDir) : s'.lane dir = s.lane dir := by
  have hmid : s'.mid dir = s.mid dir := by
    funext w
    simp only [System.mid, h.job, h.toMid]
  have hline : s'.line dir.other = s.line dir.other := by
    funext slot
    simp only [System.line, h.sent, h.outRing]
  simp only [System.lane, hmid, hline, h.batch, h.picked, h.routed, h.route, h.nextTag]

theorem Unmoved.wired (h : Unmoved s s') (hw : Wired s) : Wired s' where
  self := fun dir => (h.self dir).trans (hw.self dir)
  picked := by rw [h.picked]; exact hw.picked
  chain := fun dir k => by rw [h.chain]; exact hw.chain dir k
  batch := by rw [h.batch]; exact hw.batch
  mid := fun dir w => by
    have hmid : s'.mid dir w = s.mid dir w := by simp only [System.mid, h.job, h.toMid]
    rw [hmid]; exact hw.mid dir w
  out := by rw [h.outRing, h.txThreads, h.ifs]; exact hw.out
  sent := fun dir k => by rw [h.sent]; exact hw.sent dir k
  count := by rw [h.count, h.ifs]; exact hw.count
  active := by rw [h.route, h.txThreads]; exact hw.active
  threads := by rw [h.txThreads, h.ifs]; exact hw.threads

theorem laneStep_of_eq (ht : TableInv s.fwd.route) (h : s'.lane dir = s.lane dir) :
    LaneStep dir (s.lane dir) (s'.lane dir) := by
  rw [h]
  exact @LaneStep.idle dir (s.lane dir) _ _ ht (.refl _) (Nat.le_refl _)

theorem Unmoved.moves (h : Unmoved s s') (ht : TableInv s.fwd.route) (hw : Wired s) : Moves s s' :=
  ⟨h.wired hw, fun dir => laneStep_of_eq ht (h.lane dir)⟩

/-- Frames move between a queue and the pool. -/
theorem unmoved_queue (s : System) (dir : NePacketDir) (k : Nat × Nat) {q : NeXskQueue} (pool : NePool)
    (hchain : q.rxChain = (s.queue dir k).rxChain) (hsent : q.sent = (s.queue dir k).sent) :
    Unmoved s ((s.setQueue dir k q).setPool pool) := by
  have hqueue : ∀ d k', ((s.setQueue dir k q).setPool pool).queue d k' =
      if d = dir ∧ k' = k then q else s.queue d k' := fun d k' => s.queue_setQueue dir d k k' q
  refine ⟨fun _ => rfl, rfl, fun d k' => ?_, fun d k' => ?_, rfl, rfl, rfl, rfl, rfl, rfl, rfl, rfl, rfl, rfl⟩
  · rw [hqueue]
    split_ifs with h
    · rw [h.1, h.2, hchain]
    · rfl
  · rw [hqueue]
    split_ifs with h
    · rw [h.1, h.2, hsent]
    · rfl

theorem unmoved_view (s : System) (dir : NePacketDir) (k : Nat × Nat) {q : NeXskQueue} (pool : NePool)
    (hview : q.view = (s.queue dir k).view) : Unmoved s ((s.setQueue dir k q).setPool pool) := by
  simp only [NeXskQueue.view, Prod.mk.injEq] at hview
  exact unmoved_queue s dir k pool hview.2.1 hview.2.2

theorem Unmoved.refl (s : System) : Unmoved s s :=
  ⟨fun _ => rfl, rfl, fun _ _ => rfl, fun _ _ => rfl, rfl, rfl, rfl, rfl, rfl, rfl, rfl, rfl, rfl, rfl⟩

theorem unmoved_refill (s : System) (dir : NePacketDir) (k : Nat × Nat) : Unmoved s (s.refill dir k) := by
  refine unmoved_view s dir k _ ?_
  unfold refillFqQueue
  dsimp only
  split_ifs <;> rfl

theorem unmoved_fillTake (s : System) (dir : NePacketDir) (k : Nat × Nat) : Unmoved s (s.fillTake dir k) := by
  unfold System.fillTake
  dsimp only
  cases (s.queue dir k).fq.entries with
  | nil => exact .refl s
  | cons a rest => exact unmoved_queue s dir k s.fwd.pair.pool rfl rfl

theorem unmoved_receive (s : System) (dir : NePacketDir) (k : Nat × Nat) (d : XdpDesc) :
    Unmoved s (s.receive dir k d) := by
  unfold System.receive
  exact unmoved_queue s dir k s.fwd.pair.pool rfl rfl

theorem unmoved_txTake (s : System) (dir : NePacketDir) (k : Nat × Nat) : Unmoved s (s.txTake dir k) := by
  unfold System.txTake
  dsimp only
  cases (s.queue dir k).tx.entries with
  | nil => exact .refl s
  | cons d rest => exact unmoved_queue s dir k s.fwd.pair.pool rfl rfl

theorem unmoved_complete (s : System) (dir : NePacketDir) (k : Nat × Nat) (n : Nat) :
    Unmoved s (s.complete dir k n) := by
  unfold System.complete
  dsimp only
  cases (s.queue dir k).driverTx[n]? with
  | none => exact .refl s
  | some a => exact unmoved_queue s dir k s.fwd.pair.pool rfl rfl

/-! ## steps of the RX threads -/

theorem sendable_tagFrom {pkts : List NePacket} (h : ∀ pkt ∈ pkts, Arrived pkt) :
    ∀ tag, ∀ pkt ∈ tagFrom tag pkts, Sendable pkt := by
  induction pkts with
  | nil => intro tag pkt hp; cases hp
  | cons p pkts ih =>
      intro tag pkt hp
      rcases List.mem_cons.mp hp with rfl | hp
      · exact ⟨(h p (by simp)).1.nsegs, (h p (by simp)).1.len⟩
      · exact ih (fun q hq => h q (by simp [hq])) _ pkt hp

theorem Wired.recv (hw : Wired s) (ht : TableInv s.fwd.route) (dir : NePacketDir) (k : Nat × Nat) (total : Nat) :
    Moves s (s.recv dir k total) := by
  obtain ⟨hchain, hsent, hpkts⟩ := recvQueue_arrived (neBatchSize - total) (rxStamp dir k.1)
    (show Arrived { s.queue dir k with rxPending := 0 }.rxChain from hw.chain dir k)
  generalize hs' : s.recv dir k total = s'
  unfold System.recv at hs'
  generalize recvQueue { s.queue dir k with rxPending := 0 } (neBatchSize - total) (rxStamp dir k.1) = r
    at hchain hsent hpkts hs'
  have hqueue : ∀ d k', s'.queue d k' = if d = dir ∧ k' = k then r.1 else s.queue d k' := by
    intro d k'; rw [← hs']; exact s.queue_setQueue dir d k k' r.1
  have hbatch : s'.batch = Function.update s.batch dir (s.batch dir ++ tagFrom s.nextTag r.2) := by
    rw [← hs']; rfl
  have hsents : ∀ d k', (s'.queue d k').sent = (s.queue d k').sent := by
    intro d k'
    rw [hqueue]
    split_ifs with h
    · rw [h.1, h.2]; exact hsent
    · rfl
  have hmid : s'.mid = s.mid := by rw [← hs']; rfl
  have hline : s'.line = s.line := by
    funext d slot
    have hout : s'.fwd.outRing = s.fwd.outRing := by rw [← hs']; rfl
    simp only [System.line, hsents, hout]
  constructor
  · refine ⟨by rw [← hs']; exact hw.self, by rw [← hs']; exact hw.picked, fun d k' => ?_, fun d => ?_,
      by rw [hmid]; exact hw.mid, by rw [← hs']; exact hw.out, fun d k' => by rw [hsents]; exact hw.sent d k',
      by rw [← hs']; exact hw.count, by rw [← hs']; exact hw.active, by rw [← hs']; exact hw.threads⟩
    · rw [hqueue]
      split_ifs
      · exact hchain
      · exact hw.chain d k'
    · rw [hbatch]
      by_cases hd : d = dir
      · subst hd
        rw [Function.update_self]
        intro pkt hp
        rcases List.mem_append.mp hp with hp | hp
        · exact hw.batch d pkt hp
        · exact sendable_tagFrom hpkts _ pkt hp
      · rw [Function.update_of_ne hd]; exact hw.batch d
  · intro d
    by_cases hd : d = dir
    · have hlane : s'.lane d = { s.lane d with
          batch := s.batch d ++ tagFrom s.nextTag r.2
          nextTag := s.nextTag + r.2.length } := by
        rw [System.lane, hmid, hline, hbatch, hd, Function.update_self, ← hs']
        rfl
      rw [hlane]
      exact @LaneStep.recv d (s.lane d) r.2 fun pkt hp => (hpkts pkt hp).2
    · have hlane : s'.lane d = { s.lane d with
          route := s.fwd.route
          nextTag := s.nextTag + r.2.length } := by
        rw [System.lane, hmid, hline, hbatch, Function.update_of_ne hd, ← hs']
        rfl
      rw [hlane]
      exact @LaneStep.idle d (s.lane d) _ _ ht (.refl _) (Nat.le_add_right ..)

theorem neTxSlots_lt : neTxSlots < 256 := by decide

/-- A lookup for a packet from the LAN gives it the route of its flow. -/
theorem lookedUp_get {rt : RouteState} (ht : TableInv rt) (data : Mem) {pkt' : NePacket}
    (hslot : pkt'.txSlot = (dpFlowRouteGet rt data pkt.len none).1.txSlot % 256)
    (hflow : pkt'.flow = (dpParseFlow data pkt.len).1) :
    LookedUp (dpFlowRouteGet rt data pkt.len none).2
      (.worker (dpFlowRouteGet rt data pkt.len none).1.workerIdx) pkt' := by
  intro w f hw hf hrouted
  injection hw with hw
  have hans := @routeAnswer_get rt data pkt.len f (hflow.symm.trans hf) hrouted none
  have hlt := (hans.bounds (ht.get data pkt.len none).bounds).2
  have hle := (dpActiveTxSlots_bounds (dpFlowRouteGet rt data pkt.len none).2).2
  have := neTxSlots_lt
  rw [← hw, hslot, Nat.mod_eq_of_lt (by omega)]
  exact hans

theorem Wired.lookupLocal (hw : Wired s) (ht : TableInv s.fwd.route) (hp : s.picked .local = none)
    (hb : s.batch .local = pkt :: rest) : Moves s (s.lookupLocal pkt rest) := by
  generalize hdata : nePacketData s.fwd.pair pkt.addr = data
  have hsticks := sticks_get s.fwd.route data pkt.len none
  have htable := ht.get data pkt.len none
  generalize hs' : s.lookupLocal pkt rest = s'
  have hroute : s'.fwd.route = (dpFlowRouteGet s.fwd.route data pkt.len none).2 := by rw [← hs', ← hdata]; rfl
  obtain ⟨pkt', hbatch, htag, hpart, hslot, hflow, hsame⟩ : ∃ pkt',
      s'.batch = Function.update s.batch .local (pkt' :: rest) ∧ pkt'.tag = pkt.tag ∧ pkt'.part = pkt.part ∧
      pkt'.txSlot = (dpFlowRouteGet s.fwd.route data pkt.len none).1.txSlot % 256 ∧
      pkt'.flow = (dpParseFlow data pkt.len).1 ∧ SameSegs pkt pkt' := by
    rw [← hs', ← hdata]
    exact ⟨_, rfl, rfl, rfl, rfl, rfl, rfl, rfl, rfl, rfl, rfl⟩
  have hpicked : s'.picked = Function.update s.picked .local
      (some (.worker (dpFlowRouteGet s.fwd.route data pkt.len none).1.workerIdx)) := by
    rw [← hs', ← hdata]; rfl
  have hrouted : s'.routed = Function.update s.routed .local (s.routed .local ++
      [⟨pkt.tag, pkt'.flow, .worker (dpFlowRouteGet s.fwd.route data pkt.len none).1.workerIdx⟩]) := by
    rw [hflow, ← hs', ← hdata]; rfl
  have hmid : s'.mid = s.mid := by rw [← hs']; rfl
  have hline : s'.line = s.line := by rw [← hs']; rfl
  have hnext : s'.nextTag = s.nextTag := by rw [← hs']; rfl
  constructor
  · refine ⟨by rw [← hs']; exact hw.self, ?_, by rw [← hs']; exact hw.chain, fun d => ?_,
      by rw [hmid]; exact hw.mid, by rw [← hs']; exact hw.out, by rw [← hs']; exact hw.sent,
      by rw [← hs']; exact hw.count, ?_, by rw [← hs']; exact hw.threads⟩
    · rw [hpicked, Function.update_self]; simp
    · rw [hbatch]
      cases d with
      | wan => exact hw.batch .wan
      | «local» =>
          have hold := hw.batch .local
          rw [hb] at hold
          simp only [Function.update_self, List.forall_mem_cons] at hold ⊢
          exact ⟨hsame.sendable hold.1, hold.2⟩
    · rw [hroute, hsticks.activeTxSlots, ← hs']; exact hw.active
  · intro d
    cases d with
    | «local» =>
        have hlane : s'.lane .local = { s.lane .local with
            batch := pkt' :: rest
            picked := some (.worker (dpFlowRouteGet s.fwd.route data pkt.len none).1.workerIdx)
            routed := (s.lane .local).routed ++
              [⟨pkt.tag, pkt'.flow, .worker (dpFlowRouteGet s.fwd.route data pkt.len none).1.workerIdx⟩]
            route := (dpFlowRouteGet s.fwd.route data pkt.len none).2 } := by
          simp only [System.lane, hbatch, hpicked, hrouted, hroute, hmid, hline, hnext, Function.update_self]
        rw [hlane]
        exact .lookup hp hb htag hpart htable hsticks fun _ => ⟨rfl, lookedUp_get ht data hslot hflow⟩
    | wan =>
        have hlane : s'.lane .wan = { s.lane .wan with
            route := (dpFlowRouteGet s.fwd.route data pkt.len none).2
            nextTag := s.nextTag } := by
          rw [System.lane, hbatch, hpicked, hrouted, hroute, hmid, hline, hnext]
          rfl
        rw [hlane]
        exact .idle htable hsticks (Nat.le_refl _)

theorem Wired.lookupWan (hw : Wired s) (ht : TableInv s.fwd.route) (hp : s.picked .wan = none)
    (hb : s.batch .wan = pkt :: rest) : Moves s (s.lookupWan pkt) := by
  generalize hpick : wanPick (nePacketData s.fwd.pair pkt.addr) pkt.len = pick
  constructor
  · exact ⟨hw.self, hw.picked, hw.chain, hw.batch, hw.mid, hw.out, hw.sent, hw.count, hw.active, hw.threads⟩
  · intro d
    cases d with
    | «local» => exact .idle ht (.refl _) (Nat.le_refl _)
    | wan =>
        have hlane : (s.lookupWan pkt).lane .wan = { s.lane .wan with
            batch := pkt :: rest
            picked := some pick
            routed := (s.lane .wan).routed ++ [⟨pkt.tag, none, pick⟩]
            route := s.fwd.route } := by
          rw [← hpick, ← hb]
          rfl
        rw [hlane]
        exact .lookup hp hb rfl rfl ht (.refl _) fun hd => by cases hd

theorem Wired.lookup (hw : Wired s) (ht : TableInv s.fwd.route) (dir : NePacketDir) : Moves s (s.lookup dir) := by
  unfold System.lookup
  split
  · rename_i pkt rest hp hb
    cases dir with
    | «local» => exact hw.lookupLocal ht hp hb
    | wan => exact hw.lookupWan ht hp hb
  · exact (Unmoved.refl s).moves ht hw

theorem Unmoved.trans {s'' : System} (h : Unmoved s s') (hm : Moves s' s'') : Moves s s'' := by
  refine ⟨hm.1, fun dir => ?_⟩
  rw [← h.lane dir]
  exact hm.2 dir

/-- The packet leaves the batch for good. -/
theorem Wired.drop (hw : Wired s) (ht : TableInv s.fwd.route) {pick : Pick} (hp : s.picked dir = some pick)
    (hb : s.batch dir = pkt :: rest) : Moves s (s.advance dir rest) := by
  have hmid : (s.advance dir rest).mid = s.mid := rfl
  constructor
  · refine ⟨hw.self, ?_, hw.chain, fun d => ?_, hw.mid, hw.out, hw.sent, hw.count, hw.active, hw.threads⟩
    · unfold System.advance
      cases dir with
      | «local» => simp
      | wan => simpa using hw.picked
    · unfold System.advance
      by_cases hd : d = dir
      · subst hd
        have hold := hw.batch d
        rw [hb, List.forall_mem_cons] at hold
        simpa using hold.2
      · simpa [hd] using hw.batch d
  · intro d
    by_cases hd : d = dir
    · subst hd
      have hlane : (s.advance d rest).lane d = { s.lane d with
          batch := rest
          picked := none } := by
        simp only [System.lane, System.advance, Function.update_self]
        rfl
      rw [hlane]
      exact .drop hp hb
    · have hlane : (s.advance dir rest).lane d = { s.lane d with
          route := s.fwd.route
          nextTag := s.nextTag } := by
        simp only [System.lane, System.advance, Function.update_of_ne hd]
        rfl
      rw [hlane]
      exact .idle ht (.refl _) (Nat.le_refl _)

/-- A family of queues of which one has changed, seen from the direction of this queue... -/
theorem update_of_changed {f g : NePacketDir → Nat → List NePacket} {k : Nat} {x : List NePacket}
    (h : ∀ d i, f d i = if d = dir ∧ i = k then x else g d i) : f dir = Function.update (g dir) k x := by
  funext i
  rw [h, Function.update_apply]
  by_cases hi : i = k
  · rw [if_pos ⟨rfl, hi⟩, if_pos hi]
  · rw [if_neg fun hc => hi hc.2, if_neg hi]

/-- ... and from the other one. -/
theorem eq_of_changed {f g : NePacketDir → Nat → List NePacket} {k : Nat} {x : List NePacket} {d : NePacketDir}
    (h : ∀ d i, f d i = if d = dir ∧ i = k then x else g d i) (hd : d ≠ dir) : f d = g d := by
  funext i
  rw [h, if_neg fun hc => hd hc.1]

/-- The packet goes to the queue of its worker. -/
theorem Wired.push (hw : Wired s) (ht : TableInv s.fwd.route) {ring : NeRing}
    (hp : s.picked dir = some (.worker w)) (hb : s.batch dir = pkt :: rest)
    (hring : ring.items = (s.fwd.toMid dir w).items ++ [pkt]) :
    Moves s ({ s with fwd := s.fwd.setToMid dir w ring }.advance dir rest) := by
  generalize hs1 : ({ s with fwd := s.fwd.setToMid dir w ring } : System) = s1
  have hb1 : s1.batch = s.batch := by rw [← hs1]
  have hmid : ∀ d v, s1.mid d v = if d = dir ∧ v = w then s.mid dir w ++ [pkt] else s.mid d v := by
    intro d v
    rw [← hs1]
    simp only [System.mid, Forwarder.toMid_setToMid]
    split_ifs with h
    · rw [h.1, h.2, hring, List.append_assoc]
    · rfl
  have hpkt : Sendable pkt := hw.batch dir pkt (by rw [hb]; exact List.mem_cons_self ..)
  -- all but the queue is as if the packet had been dropped
  obtain ⟨hdrop, -⟩ := hw.drop ht hp hb
  have hcount : s1.fwd.count = s.fwd.count := by
    rw [← hs1]
    cases dir <;> rfl
  constructor
  · refine ⟨?_, ?_, ?_, ?_, fun d v => ?_, ?_, ?_, ?_, ?_, ?_⟩
    · rw [← hs1]; exact hdrop.self
    · rw [← hs1]; exact hdrop.picked
    · rw [← hs1]; exact hdrop.chain
    · rw [← hs1]; exact hdrop.batch
    · change ∀ p ∈ s1.mid d v, Sendable p
      rw [hmid]
      split_ifs
      · intro p hp
        rcases List.mem_append.mp hp with hp | hp
        · exact hw.mid dir w p hp
        · rw [List.mem_singleton.mp hp]; exact hpkt
      · exact hw.mid d v
    · rw [← hs1]
      change ∀ d i slot, ∀ p ∈ ((s.fwd.setToMid dir w ring).outRing d i slot).items, _
      rw [Forwarder.outRing_setToMid]
      exact hw.out
    · rw [← hs1]; exact hdrop.sent
    · change ∀ d, s1.fwd.count d = _
      rw [hcount, ← hs1]
      exact hw.count
    · rw [← hs1]
      change (dpActiveTxSlots (s.fwd.setToMid dir w ring).route).toNat = _
      rw [Forwarder.route_setToMid]
      exact hw.active
    · rw [← hs1]; exact hdrop.threads
  · intro d
    have hline : s1.line = s.line := by
      funext d slot
      rw [← hs1]
      simp only [System.line, Forwarder.outRing_setToMid]
    have hroute : s1.fwd.route = s.fwd.route := by rw [← hs1]; exact Forwarder.route_setToMid ..
    by_cases hd : d = dir
    · subst hd
      have hmids := update_of_changed hmid
      have hlane : (s1.advance d rest).lane d = { s.lane d with
          batch := rest
          picked := none
          mid := Function.update (s.mid d) w (s.mid d w ++ [pkt]) } := by
        rw [← hmids]
        simp only [System.lane, ← hline, ← hroute]
        rw [← hs1]
        simp only [System.advance, Function.update_self]
        rfl
      rw [hlane]
      exact .handOn hp hb
    · have hmids := eq_of_changed hmid hd
      have hlane : (s1.advance dir rest).lane d = { s.lane d with
          route := s.fwd.route
          nextTag := s.nextTag } := by
        simp only [System.lane, ← hmids, ← hline, ← hroute]
        rw [← hs1]
        simp only [System.advance, Function.update_of_ne hd]
        rfl
      rw [hlane]
      exact .idle ht (.refl _) (Nat.le_refl _)

/-- A thread that has bound no worker frees what comes from the WAN. -/
theorem dataplaneProcessWan_unbound (env : Env) {j : Job} (h : j.self.tls.cryptoWorkerIdx = none) :
    dataplaneProcessWan env j = j.free := by
  unfold dataplaneProcessWan
  rw [h]

theorem unmoved_processDirect (hw : Wired s) (env : Env) (pkt : NePacket) :
    Unmoved s (s.processDirect env .wan pkt) := by
  generalize hslot : dpPickTxSlot s.fwd.route (nePacketData s.fwd.pair pkt.addr) pkt.len = slot
  generalize hself : ({ s.rxSelf .wan with
    tls := dpOutRingBind s.fwd.route slot (s.rxSelf .wan).tls } : Worker) = self
  have hnone : self.tls.cryptoWorkerIdx = none := by rw [← hself]; exact hw.self .wan
  have hrun : s.processDirect env .wan pkt = { s with
      fwd := (Job.free ⟨s.fwd, self, pkt⟩).fwd
      rxSelf := Function.update s.rxSelf .wan self } := by
    unfold System.processDirect dataplaneProcess
    dsimp only
    rw [hslot, hself, @dataplaneProcessWan_unbound env ⟨s.fwd, self, pkt⟩ hnone]
    rfl
  rw [hrun]
  refine ⟨fun d => ?_, rfl, fun _ _ => rfl, fun _ _ => rfl, rfl, rfl, rfl, rfl, rfl, rfl, rfl, rfl, rfl, rfl⟩
  by_cases hd : d = .wan
  · subst hd
    simp only [Function.update_self]
    rw [hnone, hw.self]
  · simp only [Function.update_of_ne hd]

theorem unmoved_freePacket (s : System) (pkt : NePacket) : Unmoved s (s.freePacket pkt) :=
  ⟨fun _ => rfl, rfl, fun _ _ => rfl, fun _ _ => rfl, rfl, rfl, rfl, rfl, rfl, rfl, rfl, rfl, rfl, rfl⟩

theorem Wired.handOn (hw : Wired s) (ht : TableInv s.fwd.route) (env : Env) (dir : NePacketDir) :
    Moves s (s.handOn env dir) := by
  have hdrop : ∀ {s1 : System} {pick : Pick} {pkt : NePacket} {rest : List NePacket}, Unmoved s s1 →
      s.picked dir = some pick → s.batch dir = pkt :: rest → Moves s (s1.advance dir rest) := by
    intro s1 pick pkt rest hu hp hb
    have hp1 : s1.picked dir = some pick := by rw [hu.picked]; exact hp
    have hb1 : s1.batch dir = pkt :: rest := by rw [hu.batch]; exact hb
    exact hu.trans ((hu.wired hw).drop (by rw [hu.route]; exact ht) hp1 hb1)
  unfold System.handOn
  split
  · rename_i w pkt rest hp hb
    cases hring : neRingTryPush (s.fwd.toMid dir w) pkt with
    | none => exact hdrop (unmoved_freePacket s pkt) hp hb
    | some ring =>
        refine hw.push ht hp hb ?_
        rw [neRingTryPush_eq_some hring]
  · rename_i pkt rest hp hb
    exact hdrop (unmoved_freePacket s pkt) hp hb
  · rename_i pkt rest hp hb
    cases dir with
    | «local» => exact absurd hp hw.picked
    | wan => exact hdrop (unmoved_processDirect hw env pkt) hp hb
  · exact (Unmoved.refl s).moves ht hw

/-! ## steps of the workers -/

theorem neRingTryPop_eq_some {r r' : NeRing} {pkt : NePacket} (h : neRingTryPop r = some (pkt, r')) :
    r.items = pkt :: r'.items := by
  unfold neRingTryPop at h
  cases hi : r.items with
  | nil => rw [hi] at h; cases h
  | cons p rest =>
      rw [hi] at h
      simp only [Option.some.injEq, Prod.mk.injEq] at h
      rw [h.1, ← h.2]

/-- A packet that was taken still counts to its queue. -/
theorem Wired.pop (hw : Wired s) (ht : TableInv s.fwd.route) (dir : NePacketDir) (w : Nat) :
    Moves s (s.pop dir w) := by
  unfold System.pop
  split
  · rename_i pkt ring hj hpop
    have hitems := neRingTryPop_eq_some hpop
    generalize hs' : ({ s with
      fwd := s.fwd.setToMid dir w ring
      job := Function.update s.job w (some (dir, pkt)) } : System) = s'
    have hmid : s'.mid = s.mid := by
      funext d v
      rw [← hs']
      simp only [System.mid, Forwarder.toMid_setToMid]
      by_cases hv : v = w
      · subst hv
        by_cases hd : d = dir
        · simp [hd, hj, hitems]
        · simp [hd, hj, Ne.symm hd]
      · simp [hv]
    have hout : s'.fwd.outRing = s.fwd.outRing := by rw [← hs']; exact Forwarder.outRing_setToMid ..
    have hroute : s'.fwd.route = s.fwd.route := by rw [← hs']; exact Forwarder.route_setToMid ..
    have hcount : s'.fwd.count = s.fwd.count := by
      rw [← hs']
      cases dir <;> rfl
    have hline : s'.line = s.line := by
      funext d slot
      simp only [System.line, hout]
      rw [← hs']
    constructor
    · refine ⟨?_, ?_, ?_, ?_, by rw [hmid]; exact hw.mid, ?_, ?_, ?_, ?_, ?_⟩
      · rw [← hs']; exact hw.self
      · rw [← hs']; exact hw.picked
      · rw [← hs']; exact hw.chain
      · rw [← hs']; exact hw.batch
      · rw [hout, ← hs']; exact hw.out
      · rw [← hs']; exact hw.sent
      · rw [hcount, ← hs']; exact hw.count
      · rw [hroute, ← hs']; exact hw.active
      · rw [← hs']; exact hw.threads
    · intro d
      refine laneStep_of_eq ht ?_
      simp only [System.lane, hmid, hline, hroute]
      rw [← hs']
  · exact (Unmoved.refl s).moves ht hw

theorem System.mid_of_job {d : NePacketDir} (hj : s.job w = some (d, pkt)) (dir : NePacketDir) :
    s.mid dir w = (if d = dir then [pkt] else []) ++ (s.fwd.toMid dir w).items := by
  unfold System.mid
  rw [hj]

/-- What was made of a packet goes to one line. -/
theorem Wired.handled (hw : Wired s) {fwd' : Forwarder} {slot : Nat} {pkts : List NePacket}
    (hj : s.job w = some (dir, pkt)) (hh : Handled dir s.fwd pkt fwd' slot pkts) (hfwd : s'.fwd = fwd')
    (hjob : s'.job = Function.update s.job w none) (hqueue : s'.queue = s.queue) (hbatch : s'.batch = s.batch)
    (hpicked : s'.picked = s.picked) (hself : s'.rxSelf = s.rxSelf) (hrouted : s'.routed = s.routed)
    (hnext : s'.nextTag = s.nextTag) (hifs : s'.ifs = s.ifs) (hthreads : s'.txThreads = s.txThreads) :
    Moves s s' := by
  have hmidw : s.mid dir w = pkt :: (s.fwd.toMid dir w).items := by
    rw [System.mid_of_job hj, if_pos rfl]
    rfl
  have hpkt : Sendable pkt := hw.mid dir w pkt (by rw [hmidw]; exact List.mem_cons_self ..)
  have hpkts : ∀ q ∈ pkts, Sendable q := hh.processed.moves.sendable (by simpa using hpkt)
  have hmid : ∀ d v, s'.mid d v = if d = dir ∧ v = w then (s.fwd.toMid dir w).items else s.mid d v := by
    intro d v
    unfold System.mid
    rw [hjob, hfwd, hh.processed.toMid]
    by_cases hv : v = w
    · subst hv
      by_cases hd : d = dir
      · simp [hd]
      · simp [hd, hj, Ne.symm hd]
    · simp [hv]
  have hactive : dpActiveTxSlots s'.fwd.route = dpActiveTxSlots s.fwd.route := by
    rw [hfwd]; exact hh.route.2.activeTxSlots
  have hline : ∀ d sl, s'.line d sl =
      if d = dir.other ∧ sl = slot then s.line dir.other slot ++ pkts else s.line d sl := by
    intro d sl
    unfold System.line
    rw [hqueue, hfwd, hh.processed.outRing]
    by_cases hd : d = dir.other
    · by_cases hs : sl = slot
      · simp [hd, hs, NeRing.append]
      · simp [hs]
    · simp [hd]
  constructor
  · refine ⟨by rw [hself]; exact hw.self, by rw [hpicked]; exact hw.picked, by rw [hqueue]; exact hw.chain,
      by rw [hbatch]; exact hw.batch, fun d v => ?_, fun d i sl => ?_, by rw [hqueue]; exact hw.sent, ?_, ?_,
      by rw [hthreads, hifs]; exact hw.threads⟩
    · rw [hmid]
      split_ifs
      · intro p hp
        exact hw.mid dir w p (by rw [hmidw]; exact List.mem_cons_of_mem _ hp)
      · exact hw.mid d v
    · rw [hfwd, hh.processed.outRing, hthreads, hifs]
      split_ifs with h
      · intro p hp
        rcases List.mem_append.mp hp with hp | hp
        · obtain ⟨h1, -, h2, h3⟩ := hw.out dir.other 0 slot p hp
          rw [h.1, h.2.1, h.2.2]
          exact ⟨h1, rfl, h2, h3⟩
        · have hlt := hh.slot_lt p hp
          rw [hh.route.2.activeTxSlots, hw.active] at hlt
          rw [h.1, h.2.1, h.2.2, ← hw.count]
          exact ⟨hpkts p hp, rfl, hlt, hh.single p hp⟩
      · exact hw.out d i sl
    · rw [hfwd, hh.count, hifs]; exact hw.count
    · rw [hactive, hthreads]; exact hw.active
  · intro d
    by_cases hd : d = dir
    · subst hd
      have hlane : s'.lane d = { s.lane d with
          mid := Function.update (s.mid d) w (s.fwd.toMid d w).items
          line := Function.update (s.line d.other) slot (s.line d.other slot ++ pkts)
          route := fwd'.route } := by
        simp only [System.lane, update_of_changed hmid, update_of_changed hline, hbatch, hpicked, hrouted, hnext, hfwd]
      rw [hlane]
      exact .process hmidw hh.route.1 hh.route.2 hh.yields hh.slotBy
    · have hlane : s'.lane d = { s.lane d with
          route := fwd'.route
          nextTag := s.nextTag } := by
        have hlines := eq_of_changed hline fun ho => hd (NePacketDir.other_inj.mp ho)
        simp only [System.lane, eq_of_changed hmid hd, hlines, hbatch, hpicked, hrouted, hnext, hfwd]
      rw [hlane]
      exact .idle hh.route.1 hh.route.2 (Nat.le_refl _)

theorem Wired.process (hw : Wired s) (ht : TableInv s.fwd.route) (env : Env) (w : Nat) :
    Moves s (s.process env w) := by
  unfold System.process
  cases hj : s.job w with
  | none => exact (Unmoved.refl s).moves ht hw
  | some j =>
      obtain ⟨dir, pkt⟩ := j
      cases dir with
      | «local» =>
          obtain ⟨slot, pkts, hh⟩ := @handled_local env s.fwd (s.worker w) pkt ht
          exact hw.handled hj hh rfl rfl rfl rfl rfl rfl rfl rfl rfl rfl
      | wan =>
          obtain ⟨slot, pkts, hh⟩ := @handled_wan env s.fwd (s.worker w) pkt ht
          exact hw.handled hj hh rfl rfl rfl rfl rfl rfl rfl rfl rfl rfl

/-! ## steps of the TX threads -/

theorem xskQueueForTxSlot_iff {q slot nq : Nat} (hnq : 0 < nq) :
    xskQueueForTxSlot q slot nq = true ↔ q % min nq neTxSlots = slot := by
  have hslots : (if nq < neTxSlots then (if nq > 0 then nq else 1) else neTxSlots) = min nq neTxSlots := by
    split_ifs <;> omega
  have hpos : 0 < min nq neTxSlots := by simp [hnq, neTxSlots, neCpuTx]
  unfold xskQueueForTxSlot
  rw [hslots]
  have := Nat.mod_lt q hpos
  by_cases hs : slot ≥ min nq neTxSlots
  · rw [if_pos hs]
    constructor
    · intro h; cases h
    · intro h; omega
  · rw [if_neg hs, beq_iff_eq]

/-- A TX slot sends on the queue of its number. -/
theorem txPrimary_eq_some {slot nq q : Nat} (h : txPrimary slot nq = some q) : q = slot := by
  unfold txPrimary at h
  obtain ⟨hq, hmem, hfirst⟩ := List.find?_range_eq_some.mp h
  have hnq : 0 < nq := by have := List.mem_range.mp hmem; omega
  rw [xskQueueForTxSlot_iff hnq] at hq
  have hle := Nat.mod_le q (min nq neTxSlots)
  by_contra hne
  have hslot := hfirst slot (by omega)
  rw [Bool.not_eq_true', Bool.eq_false_iff, Ne, xskQueueForTxSlot_iff hnq, ← hq, Nat.mod_mod] at hslot
  exact hslot rfl

theorem txPrimary_of_lt {slot nq : Nat} (hnq : slot < nq) (hslots : slot < neTxSlots) :
    txPrimary slot nq = some slot := by
  cases h : txPrimary slot nq with
  | some q => rw [txPrimary_eq_some h]
  | none =>
      unfold txPrimary at h
      have hslot := List.find?_eq_none.mp h slot (List.mem_range.mpr hnq)
      rw [xskQueueForTxSlot_iff (by omega), Nat.mod_eq_of_lt (by omega)] at hslot
      exact absurd rfl hslot

theorem Sendable.txSegs {job : NePacket} (h : Sendable job) : job.txSegs ≤ nePacketMaxSegs := by
  unfold NePacket.txSegs
  have := h.nsegs
  split_ifs
  · exact this
  · decide

/-- A round sends the first packet of its ring or does nothing. -/
theorem txRound_line {q : NeXskQueue} {src : NeRing} {pool : NePool} {maxFrame : Nat}
    (hs : ∀ job ∈ src.items, Sendable job) {r : Bool × NeXskQueue × NeRing × NePool}
    (hr : txRound q src pool maxFrame = r) :
    r.2.1.rxChain = q.rxChain ∧ r.2.1.sent ++ r.2.2.1.items = q.sent ++ src.items ∧
      ∀ job ∈ r.2.2.1.items, job ∈ src.items := by
  unfold txRound at hr
  split_ifs at hr with hfree
  · subst hr
    exact ⟨rfl, rfl, fun _ h => h⟩
  · unfold neRingTryPop at hr
    cases hi : src.items with
    | nil =>
        rw [hi] at hr
        subst hr
        simp [hi]
    | cons job rest =>
        rw [hi] at hr hs
        have hjob := hs job (List.mem_cons_self ..)
        have hsegs := hjob.txSegs
        have hsend : ¬ (job.txSegs > nePacketMaxSegs ∨ job.len > neJumboFrameMax ∨
            xskRingProdReserve q.tx job.txSegs ≠ job.txSegs) := by
          have := hjob.len
          have hres : xskRingProdReserve q.tx job.txSegs = job.txSegs := if_neg (by omega)
          omega
        simp only [if_neg hsend] at hr
        subst hr
        exact ⟨rfl, by simp, fun _ h => List.mem_cons_of_mem _ h⟩

/-- A packet that was submitted still counts to its line. -/
theorem Wired.tx (hw : Wired s) (ht : TableInv s.fwd.route) (dir : NePacketDir) (iface slot : Nat) :
    Moves s (s.tx dir iface slot) := by
  unfold System.tx
  split
  · cases hq : txPrimary slot ((s.ifs dir).queueCount iface) with
    | none => exact (Unmoved.refl s).moves ht hw
    | some q =>
        obtain rfl := txPrimary_eq_some hq
        dsimp only
        generalize hr : txRound (s.queue dir (iface, q)) (s.fwd.outRing dir iface q) s.fwd.pair.pool
          s.fwd.pair.frameSize = r
        obtain ⟨hchain, hline, hsub⟩ := txRound_line (fun job hj => (hw.out dir iface q job hj).1) hr
        generalize hs' : ({ (s.setQueue dir (iface, q) r.2.1).setPool r.2.2.2 with
          fwd := ((s.setPool r.2.2.2).fwd).setOutRing dir iface q r.2.2.1 } : System) = s'
        have hqueue : ∀ d k, s'.queue d k = if d = dir ∧ k = (iface, q) then r.2.1 else s.queue d k := by
          intro d k; rw [← hs']; exact s.queue_setQueue dir d (iface, q) k r.2.1
        have hout : ∀ d i sl, s'.fwd.outRing d i sl =
            if d = dir ∧ i = iface ∧ sl = q then r.2.2.1 else s.fwd.outRing d i sl := by
          intro d i sl
          rw [← hs']
          exact (s.setPool r.2.2.2).fwd.outRing_setOutRing dir d iface i q sl r.2.2.1
        have htoMid : s'.fwd.toMid = s.fwd.toMid := by rw [← hs']; exact Forwarder.toMid_setOutRing ..
        have hroute : s'.fwd.route = s.fwd.route := by rw [← hs']; exact Forwarder.route_setOutRing ..
        have hcount : s'.fwd.count = s.fwd.count := by
          rw [← hs']
          cases dir <;> rfl
        have hmid : s'.mid = s.mid := by
          funext d v
          simp only [System.mid, htoMid]
          rw [← hs']
          rfl
        have hlines : s'.line = s.line := by
          funext d sl
          simp only [System.line, hqueue, hout]
          by_cases hd : d = dir ∧ iface = 0 ∧ sl = q
          · obtain ⟨rfl, rfl, rfl⟩ := hd
            simpa using hline
          · rw [if_neg (by rintro ⟨rfl, hk⟩; simp only [Prod.mk.injEq] at hk; exact hd ⟨rfl, hk.1.symm, hk.2⟩),
              if_neg (by rintro ⟨rfl, hi, hs⟩; exact hd ⟨rfl, hi.symm, hs⟩)]
        constructor
        · refine ⟨by rw [← hs']; exact hw.self, by rw [← hs']; exact hw.picked, fun d k => ?_,
            by rw [← hs']; exact hw.batch, by rw [hmid]; exact hw.mid, fun d i sl => ?_, fun d k => ?_,
            by rw [hcount, ← hs']; exact hw.count, by rw [hroute, ← hs']; exact hw.active,
            by rw [← hs']; exact hw.threads⟩
          · rw [hqueue]
            split_ifs
            · rw [hchain]; exact hw.chain dir (iface, q)
            · exact hw.chain d k
          · have hconst : s'.txThreads = s.txThreads ∧ s'.ifs = s.ifs := by rw [← hs']; exact ⟨rfl, rfl⟩
            rw [hout, hconst.1, hconst.2]
            split_ifs with h
            · rw [h.1, h.2.1, h.2.2]
              exact fun p hp => hw.out dir iface q p (hsub p hp)
            · exact hw.out d i sl
          · rw [hqueue]
            split_ifs with h
            · rw [h.2]
              intro p hp
              have hp' : p ∈ (s.queue dir (iface, q)).sent ++ (s.fwd.outRing dir iface q).items := by
                rw [← hline]; exact List.mem_append_left _ hp
              rcases List.mem_append.mp hp' with hp' | hp'
              · exact hw.sent dir (iface, q) p hp'
              · exact (hw.out dir iface q p hp').2.1
            · exact hw.sent d k
        · intro d
          refine laneStep_of_eq ht ?_
          simp only [System.lane, hmid, hlines, hroute]
          rw [← hs']
          rfl
  · exact (Unmoved.refl s).moves ht hw

/-! ## runs -/

/-- What can happen next: a step of a thread or a driver, or the NIC writes to the UMEM. -/
inductive Action
  | step (e : Step)
  | dma (mem : Mem)

def System.act (s : System) : Action → System
  | .step e => s.step e
  | .dma mem => { s with fwd := { s.fwd with pair := { s.fwd.pair with mem := mem } } }

theorem Wired.step (hw : Wired s) (ht : TableInv s.fwd.route) (e : Step) : Moves s (s.step e) := by
  cases e with
  | prefill dir k want => exact (unmoved_view s dir k _ (prefillQueue_view ..)).moves ht hw
  | refill dir k => exact (unmoved_refill s dir k).moves ht hw
  | fillTake dir k => exact (unmoved_fillTake s dir k).moves ht hw
  | receive dir k d => exact (unmoved_receive s dir k d).moves ht hw
  | recv dir k total => exact hw.recv ht dir k total
  | release dir k => exact (unmoved_view s dir k _ (releaseRxQueue_view ..)).moves ht hw
  | lookup dir => exact hw.lookup ht dir
  | handOn env dir => exact hw.handOn ht env dir
  | pop dir w => exact hw.pop ht dir w
  | process env w => exact hw.process ht env w
  | fragGc w now =>
      have hu : Unmoved s (s.fragGc w now) :=
        ⟨fun _ => rfl, rfl, fun _ _ => rfl, fun _ _ => rfl, rfl, rfl, rfl, rfl, rfl, rfl, rfl, rfl, rfl, rfl⟩
      exact hu.moves ht hw
  | tx dir iface slot => exact hw.tx ht dir iface slot
  | txTake dir k => exact (unmoved_txTake s dir k).moves ht hw
  | complete dir k n => exact (unmoved_complete s dir k n).moves ht hw
  | drainCq dir k => exact (unmoved_view s dir k _ (drainCq_view ..)).moves ht hw

theorem Wired.act (hw : Wired s) (ht : TableInv s.fwd.route) (a : Action) : Moves s (s.act a) := by
  cases a with
  | step e => exact hw.step ht e
  | dma mem =>
      have hu : Unmoved s (s.act (.dma mem)) :=
        ⟨fun _ => rfl, rfl, fun _ _ => rfl, fun _ _ => rfl, rfl, rfl, rfl, rfl, rfl, rfl, rfl, rfl, rfl, rfl⟩
      exact hu.moves ht hw

/-- The process between steps. -/
structure Flowing (s : System) : Prop where
  wired : Wired s
  lanes : ∀ dir, LaneOk dir (s.lane dir)

theorem Flowing.act (h : Flowing s) (a : Action) : Flowing (s.act a) := by
  obtain ⟨hw, hstep⟩ := h.wired.act (h.lanes .local).table a
  exact ⟨hw, fun dir => (hstep dir).ok (h.lanes dir)⟩

end Steps

/-! ## start -/

theorem limitTxSlots_le (ifs : Ifaces) (r : Nat × Bool) : (limitTxSlots ifs r).1 ≤ r.1 ∧
    ∀ i < ifs.count, ifs.live i = true → (limitTxSlots ifs r).1 ≤ ifs.queueCount i :=
  (le_limitTxSlots ifs r _).mp le_rfl

theorem forwarderActiveTxSlots_bounds (ifs : NePacketDir → Ifaces) :
    0 < forwarderActiveTxSlots ifs ∧ forwarderActiveTxSlots ifs ≤ neTxSlots := by
  have hlan := (limitTxSlots_le (ifs .local) (neTxSlots, false)).1
  have hwan := (limitTxSlots_le (ifs .wan) (limitTxSlots (ifs .local) (neTxSlots, false))).1
  have hone : 1 ≤ neTxSlots := by decide
  unfold forwarderActiveTxSlots
  dsimp only at hlan ⊢
  split_ifs with h
  · exact ⟨h.2, hwan.trans hlan⟩
  · exact ⟨Nat.one_pos, hone⟩

theorem forwarderActiveTxSlots_le {ifs : NePacketDir → Ifaces} {dir : NePacketDir} {i : Nat}
    (hi : i < (ifs dir).count) (hlive : (ifs dir).live i = true) (hpos : 0 < (ifs dir).queueCount i) :
    forwarderActiveTxSlots ifs ≤ (ifs dir).queueCount i := by
  have hlan := (limitTxSlots_le (ifs .local) (neTxSlots, false)).2
  have hwan := limitTxSlots_le (ifs .wan) (limitTxSlots (ifs .local) (neTxSlots, false))
  unfold forwarderActiveTxSlots
  dsimp only
  split_ifs
  · cases dir with
    | «local» => exact hwan.1.trans (hlan i hi hlive)
    | wan => exact hwan.2 i hi hlive
  · exact hpos

theorem dpActiveTxSlots_set {rt : RouteState} {n : Nat} (hpos : 0 < n) (hle : n ≤ neTxSlots) :
    (dpActiveTxSlots (dpRouteSetActiveTxSlots rt (UInt32.ofNat n))).toNat = n := by
  have hlt := neTxSlots_lt
  have hn : (UInt32.ofNat n).toNat = n := UInt32.toNat_ofNat_of_lt' (by simp only [UInt32.size]; omega)
  have hne : UInt32.ofNat n ≠ 0 := by
    intro h
    rw [h] at hn
    simp at hn
    omega
  have hset : (dpRouteSetActiveTxSlots rt (UInt32.ofNat n)).activeTxSlots = UInt32.ofNat n := by
    unfold dpRouteSetActiveTxSlots
    simp only [if_neg hne]
    exact if_neg (by rw [hn]; omega)
  unfold dpActiveTxSlots
  rw [hset, if_pos ⟨by rw [gt_iff_lt, UInt32.lt_iff_toNat_lt, hn]; exact hpos, by rw [hn]; exact hle⟩, hn]

theorem flowing_init (nFrames : Nat) (mem : Mem) (crypto : PacketCryptoCtx) (ifs : NePacketDir → Ifaces) :
    Flowing (System.init nFrames mem crypto ifs) := by
  obtain ⟨hpos, hle⟩ := forwarderActiveTxSlots_bounds ifs
  have hmid : ∀ dir, (System.init nFrames mem crypto ifs).mid dir = fun _ => [] := by
    intro dir
    cases dir <;> rfl
  have hout : ∀ dir i slot, ((System.init nFrames mem crypto ifs).fwd.outRing dir i slot).items = [] := by
    intro dir i slot
    cases dir <;> rfl
  constructor
  · refine ⟨fun _ => rfl, by simp [System.init], fun _ _ => ⟨sendable_zero, rfl⟩, ?_, ?_, ?_, ?_, ?_,
      dpActiveTxSlots_set hpos hle, rfl⟩
    · intro dir pkt hp; cases hp
    · intro dir w pkt hp
      rw [hmid] at hp
      cases hp
    · intro dir i slot pkt hp
      rw [hout] at hp
      cases hp
    · intro dir k pkt hp; cases hp
    · intro dir
      cases dir <;> rfl
  · intro dir
    have hlane : (System.init nFrames mem crypto ifs).lane dir =
        ⟨[], none, fun _ => [], fun _ => [], [], (System.init nFrames mem crypto ifs).fwd.route, 0⟩ := by
      have hline : (System.init nFrames mem crypto ifs).line dir.other = fun _ => [] := by
        funext slot
        unfold System.line
        rw [hout]
        rfl
      unfold System.lane
      rw [hmid, hline]
      rfl
    rw [hlane]
    exact laneOk_init dir (TableInv.init _)

/-! ## the order of a flow -/

/-- The process after some actions. -/
def System.after (nFrames : Nat) (mem : Mem) (crypto : PacketCryptoCtx) (ifs : NePacketDir → Ifaces)
    (as : List Action) : System :=
  run System.act (System.init nFrames mem crypto ifs) as

/-- What `ne_pair_open` leaves when it succeeds: every interface is live and has a queue. -/
def Opened (ifs : NePacketDir → Ifaces) : Prop :=
  ∀ dir, ∀ i < (ifs dir).count, (ifs dir).live i = true ∧ 0 < (ifs dir).queueCount i

/-- A TX thread takes from this ring. -/
def System.consumed (s : System) (dir : NePacketDir) (i slot : Nat) : Prop :=
  slot < s.txThreads ∧ i < (s.ifs dir).count ∧ (s.ifs dir).live i = true ∧
    ∃ q, txPrimary slot ((s.ifs dir).queueCount i) = some q

/-- The frames of a flow that came in at `dir` are submitted on one queue, and are there,
in order, what became of some of the received packets. -/
def FlowInOrder (s : System) (dir : NePacketDir) (f : Flow) (received : List Routed) : Prop :=
  ∃ slot, (∀ k, ∀ pkt ∈ (s.queue dir.other k).sent, pkt.flow = some f → k = (0, slot)) ∧
    InOrder ((s.queue dir.other (0, slot)).sent.filter (·.flow = some f)) received

/-- The wire frames of a flow carry one worker id. -/
def OneWorker (s : System) (f : Flow) (w : Nat) : Prop :=
  ∀ k, ∀ pkt ∈ (s.queue .local k).sent, pkt.flow = some f → ∀ r ∈ s.routed .wan, r.tag = pkt.tag →
    r.pick = .worker w

theorem flowing_after (nFrames : Nat) (mem : Mem) (crypto : PacketCryptoCtx) (ifs : NePacketDir → Ifaces)
    (as : List Action) : Flowing (System.after nFrames mem crypto ifs as) := by
  have hinv := @Along.invariant _ _ System.act (fun _ _ => True) (fun _ _ => True) Flowing
    (fun s a h _ => ⟨h.act a, trivial⟩) _ as (flowing_init nFrames mem crypto ifs)
    (Along.of_forall fun _ _ _ => trivial)
  exact hinv.1

section Flows

variable {s : System} {dir : NePacketDir} {f : Flow} {pkt : NePacket} {k : Nat × Nat}

/-- What was submitted is on a line. -/
theorem Flowing.mem_line (h : Flowing s) (hp : pkt ∈ (s.queue dir k).sent) :
    k = (0, k.2) ∧ pkt ∈ s.line dir k.2 := by
  have hk : k = (0, k.2) := Prod.ext (h.wired.sent dir k pkt hp) rfl
  refine ⟨hk, List.mem_append_left _ ?_⟩
  rw [← hk]
  exact hp

/-- If one worker has put all of a flow on its line, the flow is in order. -/
theorem Flowing.flowInOrder (h : Flowing s) (hf : f.routed) {w : Nat} {received : List Routed}
    (hw : ∀ slot, ∀ pkt ∈ (s.queue dir.other (0, slot)).sent, pkt.flow = some f →
      (s.lane dir).took w pkt = true)
    (hreceived : received.Sublist (s.routed dir))
    (hmade : ∀ slot, ∀ pkt ∈ (s.queue dir.other (0, slot)).sent, pkt.flow = some f →
      ∃ r ∈ received, r.tag = pkt.tag) : FlowInOrder s dir f received := by
  have hlane := h.lanes dir
  have hone : ∃ slot, ∀ k, ∀ pkt ∈ (s.queue dir.other k).sent, pkt.flow = some f → k = (0, slot) := by
    by_cases hany : ∃ k, ∃ pkt ∈ (s.queue dir.other k).sent, pkt.flow = some f
    · obtain ⟨k, pkt, hp, hpf⟩ := hany
      obtain ⟨-, hline⟩ := h.mem_line hp
      refine ⟨k.2, fun k' pkt' hp' hpf' => ?_⟩
      obtain ⟨hk', hline'⟩ := h.mem_line hp'
      rw [hk', hlane.slot_unique hf hline' hline hpf' hpf]
    · exact ⟨0, fun k pkt hp hpf => absurd ⟨k, pkt, hp, hpf⟩ hany⟩
  obtain ⟨slot, hslot⟩ := hone
  refine ⟨slot, hslot, ?_⟩
  have hsub : ((s.queue dir.other (0, slot)).sent.filter (·.flow = some f)).Sublist ((s.lane dir).line slot) :=
    List.filter_sublist.trans (List.sublist_append_left ..)
  refine hlane.inOrder (w := w) hsub (fun pkt hp => ?_) hreceived (fun pkt hp => ?_)
  · obtain ⟨hp, hpf⟩ := List.mem_filter.mp hp
    exact hw slot pkt hp (of_decide_eq_true hpf)
  · obtain ⟨hp, hpf⟩ := List.mem_filter.mp hp
    exact hmade slot pkt hp (of_decide_eq_true hpf)

/-- From the LAN: the sticky route has one worker. -/
theorem Flowing.lan_inOrder (h : Flowing s) (hf : f.routed) :
    FlowInOrder s .local f ((s.routed .local).filter (·.flow = some f)) := by
  have hlane := h.lanes .local
  have hmade : ∀ slot, ∀ pkt ∈ (s.queue .wan (0, slot)).sent, pkt.flow = some f →
      ∃ r ∈ (s.routed .local).filter (·.flow = some f), r.tag = pkt.tag := by
    intro slot pkt hp hpf
    obtain ⟨w, ⟨r, hr, htag, -, hflow⟩, -⟩ := hlane.line slot pkt (h.mem_line hp).2
    exact ⟨r, List.mem_filter.mpr ⟨hr, by simp [hflow rfl, hpf]⟩, htag⟩
  by_cases hany : ∃ slot, ∃ pkt ∈ (s.queue .wan (0, slot)).sent, pkt.flow = some f
  · obtain ⟨slot, pkt, hp, hpf⟩ := hany
    obtain ⟨w, hfound, -⟩ := hlane.line slot pkt (h.mem_line hp).2
    refine h.flowInOrder hf (w := w) (fun slot' pkt' hp' hpf' => ?_) List.filter_sublist hmade
    exact hlane.worker_unique hf (h.mem_line hp).2 (h.mem_line hp').2 hpf hpf' hfound.took
  · refine h.flowInOrder hf (w := 0) (fun slot pkt hp hpf => ?_) List.filter_sublist hmade
    exact absurd ⟨slot, pkt, hp, hpf⟩ hany

/-- From the WAN: the peer has sent the flow by one worker. -/
theorem Flowing.wan_inOrder (h : Flowing s) (hf : f.routed) {w : Nat} (hw : OneWorker s f w) :
    FlowInOrder s .wan f ((s.routed .wan).filter (·.pick = .worker w)) := by
  have hfound : ∀ slot, ∀ pkt ∈ (s.queue .local (0, slot)).sent, pkt.flow = some f →
      ∃ r ∈ s.routed .wan, r.tag = pkt.tag ∧ r.pick = .worker w := by
    intro slot pkt hp hpf
    obtain ⟨v, ⟨r, hr, htag, -⟩, -⟩ := (h.lanes .wan).line slot pkt (h.mem_line hp).2
    exact ⟨r, hr, htag, hw (0, slot) pkt hp hpf r hr htag⟩
  refine h.flowInOrder hf (w := w) (fun slot pkt hp hpf => ?_) List.filter_sublist fun slot pkt hp hpf => ?_
  · exact Lane.took_iff.mpr (hfound slot pkt hp hpf)
  · obtain ⟨r, hr, htag, hpick⟩ := hfound slot pkt hp hpf
    exact ⟨r, List.mem_filter.mpr ⟨hr, by simp [hpick]⟩, htag⟩

theorem Flowing.pairedLine (h : Flowing s) (dir : NePacketDir) (k : Nat × Nat) :
    PairedLine (s.queue dir k).sent := by
  by_cases hk : k.1 = 0
  · have hline := (h.lanes dir.other).pairs k.2
    simp only [System.lane, System.line, NePacketDir.other_other] at hline
    have hk' : k = (0, k.2) := Prod.ext hk rfl
    rw [hk']
    exact hline.of_append
  · have hnil : (s.queue dir k).sent = [] :=
      List.eq_nil_iff_forall_not_mem.mpr fun pkt hp => hk (h.wired.sent dir k pkt hp)
    rw [hnil]
    exact paired_nil

theorem Flowing.consumed (h : Flowing s) (hopen : Opened s.ifs) {i slot : Nat}
    (hne : (s.fwd.outRing dir i slot).items ≠ []) : s.consumed dir i slot := by
  obtain ⟨pkt, hp⟩ := List.exists_mem_of_ne_nil _ hne
  obtain ⟨-, rfl, hslot, hcount⟩ := h.wired.out dir i slot pkt hp
  have hi : 0 < (s.ifs dir).count := by omega
  obtain ⟨hlive, hpos⟩ := hopen dir 0 hi
  have hle := forwarderActiveTxSlots_le hi hlive hpos
  have hmax := (forwarderActiveTxSlots_bounds s.ifs).2
  rw [h.wired.threads] at hslot
  exact ⟨h.wired.threads ▸ hslot, hi, hlive, slot, txPrimary_of_lt (by omega) (by omega)⟩

end Flows

theorem System.act_ifs (s : System) (a : Action) : (s.act a).ifs = s.ifs := by
  cases a with
  | dma mem => rfl
  | step e =>
      cases e with
      | prefill | refill | receive | recv | release | fragGc | drainCq => rfl
      | fillTake dir k => simp only [System.act, System.step, System.fillTake]; split <;> rfl
      | lookup dir =>
          simp only [System.act, System.step, System.lookup]
          split
          · cases dir <;> rfl
          · rfl
      | handOn env dir =>
          simp only [System.act, System.step, System.handOn]
          split
          · split <;> rfl
          · rfl
          · rfl
          · rfl
      | pop dir w => simp only [System.act, System.step, System.pop]; split <;> rfl
      | process env w => simp only [System.act, System.step, System.process]; split <;> rfl
      | tx dir iface slot =>
          simp only [System.act, System.step, System.tx]
          split_ifs
          · split <;> rfl
          · rfl
      | txTake dir k => simp only [System.act, System.step, System.txTake]; split <;> rfl
      | complete dir k n => simp only [System.act, System.step, System.complete]; split <;> rfl

theorem System.after_ifs (nFrames : Nat) (mem : Mem) (crypto : PacketCryptoCtx) (ifs : NePacketDir → Ifaces)
    (as : List Action) : (System.after nFrames mem crypto ifs as).ifs = ifs := by
  have hrun : ∀ (as : List Action) (s : System), (run System.act s as).ifs = s.ifs := by
    intro as
    induction as with
    | nil => intro s; rfl
    | cons a as ih => intro s; exact (ih _).trans (s.act_ifs a)
  exact hrun as _

/-- What the pipeline does for the flows of TCP and UDP.  The packets are numbered as they
were received; those of a flow from the LAN are known by the flow they were looked up
with, those of a flow from the WAN by the worker id they carried. -/
structure FlowsKept (s : System) : Prop where
  numbered : ∀ dir, ((s.routed dir).map Routed.tag).Pairwise (· < ·)
  lan : ∀ f : Flow, f.routed → FlowInOrder s .local f ((s.routed .local).filter (·.flow = some f))
  wan : ∀ (f : Flow) (w : Nat), f.routed → OneWorker s f w →
    FlowInOrder s .wan f ((s.routed .wan).filter (·.pick = .worker w))
  pairs : ∀ dir k, PairedLine (s.queue dir k).sent
  consumed : ∀ dir i slot, (s.fwd.outRing dir i slot).items ≠ [] → s.consumed dir i slot

/-- In every state the process can reach, in any order of steps: the frames of a flow are
submitted in the order of the packets they were made from, the fragments of a datagram
one after the other, and no packet is in a ring that no TX thread empties. -/
theorem flows_in_order (nFrames : Nat) (mem : Mem) (crypto : PacketCryptoCtx) (ifs : NePacketDir → Ifaces)
    (hopen : Opened ifs) (as : List Action) : FlowsKept (System.after nFrames mem crypto ifs as) := by
  have h := flowing_after nFrames mem crypto ifs as
  have hifs := System.after_ifs nFrames mem crypto ifs as
  exact {
    numbered := fun dir => (List.pairwise_append.mp (h.lanes dir).tags).1
    lan := fun f hf => h.lan_inOrder hf
    wan := fun f w hf hw => h.wan_inOrder hf hw
    pairs := h.pairedLine
    consumed := fun dir i slot hne => h.consumed (by rw [hifs]; exact hopen) hne }

/-- A UDP frame from the LAN, as the NIC writes it to the second of four frames. -/
def sampleFrame : Mem := fun i =>
  if i = 268 then 8 else if i = 270 then 69 else if i = 279 then 17 else if i = 291 then 53 else 0

def sampleActions (env : Env) : List Action := .dma sampleFrame :: (sampleSteps env).map .step

theorem flows_in_order_sample :
    FlowsKept (System.after 4 (fun _ => 0) (packetCryptoInit coreKey) sampleIfs (sampleActions (sampleEnv 0))) ∧
      ((System.after 4 (fun _ => 0) (packetCryptoInit coreKey) sampleIfs (sampleActions (sampleEnv 0))).queue
        .wan (0, 0)).sent.map (fun pkt => (pkt.tag, pkt.flow)) = [(0, some ⟨0, 0, 53, 0, 17⟩)] := by
  refine ⟨flows_in_order 4 (fun _ => 0) (packetCryptoInit coreKey) sampleIfs ?_ _, ?_⟩
  · exact fun dir i hi => ⟨rfl, Nat.one_pos⟩
  · decide +kernel

end NetworkEncryptor
