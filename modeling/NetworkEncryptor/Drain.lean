import NetworkEncryptor.Lib.Fair
import NetworkEncryptor.Lib.Weight
import NetworkEncryptor.Turns

/-!
# NetworkEncryptor.Drain

The pipeline comes to rest: when the NICs receive nothing more, and every thread and the
kernel get their turns, in whatever order, the rings run empty, and every frame of the
UMEM is back where the next one can be received into it or written to it
(`pipeline_drains`).

A step either moves frames on, to a place of lower rank, or it changes nothing that the
next steps depend on (`drains`).  A packet a worker has taken may become two, of four
segments each, so its frames outrank eight frames in an output ring.
-/

namespace NetworkEncryptor

/-! ## work in progress -/

/-- What is to be done about a queue. -/
structure QueueWork where
  rx : List XdpDesc
  chain : List Nat
  tx : XskRingProd XdpDesc
  driverTx : List Nat
  cq : List Nat

/-- What is to be done. -/
structure Work where
  queue : NePacketDir → Nat × Nat → QueueWork
  batch : NePacketDir → List NePacket
  picked : NePacketDir → Option Pick
  toMid : NePacketDir → Nat → NeRing
  job : Nat → Option (NePacketDir × NePacket)
  outRing : NePacketDir → Nat → Nat → NeRing
  ifs : NePacketDir → Ifaces
  txThreads : Nat

def NeXskQueue.work (q : NeXskQueue) : QueueWork :=
  ⟨q.rx.waiting, q.rxChain.frames, q.tx, q.driverTx, q.cq.waiting⟩

def System.work (s : System) : Work :=
  ⟨fun dir k => (s.queue dir k).work, s.batch, s.picked, s.fwd.toMid, s.job, s.fwd.outRing, s.ifs,
    s.txThreads⟩

/-- The turn does something. -/
def Ready (t : Work) : Action → Prop
  | .step (.recv dir k total) => (t.queue dir k).rx ≠ [] ∧ total < neBatchSize
  | .step (.lookup dir) => t.picked dir = none ∧ t.batch dir ≠ []
  | .step (.handOn _ dir) => t.picked dir ≠ none ∧ t.batch dir ≠ []
  | .step (.pop dir w) => t.job w = none ∧ (t.toMid dir w).items ≠ []
  | .step (.process _ w) => t.job w ≠ none
  | .step (.tx dir iface slot) =>
      (slot < t.txThreads ∧ iface < (t.ifs dir).count ∧ (t.ifs dir).live iface = true) ∧
        (t.outRing dir iface slot).items ≠ [] ∧
        ∃ q, txPrimary slot ((t.ifs dir).queueCount iface) = some q ∧
          nePacketMaxSegs ≤ xskProdNbFree (t.queue dir (iface, q)).tx
  | .step (.txTake dir k) => (t.queue dir k).tx.entries ≠ []
  | .step (.complete dir k n) => n < (t.queue dir k).driverTx.length
  | .step (.drainCq dir k) => (t.queue dir k).cq ≠ []
  | _ => False

/-- Nothing is to be done. -/
structure AtRest (t : Work) : Prop where
  rx : ∀ dir k, (t.queue dir k).rx = []
  batch : ∀ dir, t.batch dir = []
  toMid : ∀ dir w, (t.toMid dir w).items = []
  job : ∀ w, t.job w = none
  outRing : ∀ dir i slot, (t.outRing dir i slot).items = []
  tx : ∀ dir k, (t.queue dir k).tx.entries = []
  driverTx : ∀ dir k, (t.queue dir k).driverTx = []
  cq : ∀ dir k, (t.queue dir k).cq = []

/-- How far a place is from the end of the way. -/
def rank : Place → Nat
  | .rx _ _ => 38
  | .chain _ _ => 37
  | .batch _ => 36
  | .toMid _ _ => 34
  | .job _ => 33
  | .outRing _ _ _ => 4
  | .tx _ _ => 3
  | .driverTx _ _ => 2
  | .completion _ _ => 1
  | .pool | .fill _ _ | .driverRx _ _ | .reject _ _ => 0

/-- The RX thread still has to look up the packet at the head of its batch. -/
def System.unpicked (s : System) (dir : NePacketDir) : Nat := if (s.picked dir).isNone then 1 else 0

/-- The way the frames have before them, and the lookups. -/
noncomputable def System.load (n : Nat) (s : System) : Nat :=
  weight s.frames rank n + (s.unpicked .local + s.unpicked .wan)

/-- The load of a queue. -/
def QueueWork.load (q : QueueWork) : Nat :=
  38 * q.rx.length + 37 * q.chain.length + 3 * q.tx.entries.length + 2 * q.driverTx.length + q.cq.length

section Load

variable {n : Nat} {s s' : System} {f : Focus}

end Load

/-! ## the turns on a queue -/

section QueueTurns

variable {n : Nat} {s : System} {dir : NePacketDir} {k : Nat × Nat}

/-- A peek finds an entry if there is one. -/
theorem xskRingConsPeek_ne_nil {α : Type} {r : XskRingCons α} {nb : Nat} (hne : r.waiting ≠ []) (hnb : 0 < nb) :
    (xskRingConsPeek r nb).1 ≠ [] := by
  have hseen : r.refresh.seen ≠ [] := by
    rw [XskRingCons.refresh]
    split
    · rename_i hempty
      rw [XskRingCons.waiting, List.isEmpty_iff.mp hempty] at hne
      exact hne
    · rename_i hseen
      exact fun hnil => hseen (List.isEmpty_iff.mpr hnil)
  intro hnil
  rw [xskRingConsPeek] at hnil
  rcases List.take_eq_nil_iff.mp hnil with hzero | hzero
  · omega
  · exact hseen hzero

/-- A round of `drain_cq_queue` leaves no more entries than it found. -/
theorem drainCq_length (fuel : Nat) : ∀ (q : NeXskQueue) (pool : NePool),
    (drainCq fuel q pool).1.cq.waiting.length ≤ q.cq.waiting.length ∧
      (0 < fuel → q.cq.waiting ≠ [] → (drainCq fuel q pool).1.cq.waiting.length < q.cq.waiting.length) := by
  induction fuel with
  | zero => exact fun q pool => ⟨Nat.le_refl _, fun hlt => absurd hlt (Nat.lt_irrefl _)⟩
  | succ fuel ih =>
      intro q pool
      obtain ⟨hwait, -⟩ := xskRingConsPeek_spec q.cq neBatchSize
      have hpos : q.cq.waiting ≠ [] → (xskRingConsPeek q.cq neBatchSize).1.length ≠ 0 := by
        intro hne
        exact fun hzero => xskRingConsPeek_ne_nil hne (by decide) (List.eq_nil_of_length_eq_zero hzero)
      have hlen := congrArg List.length hwait
      rw [List.length_append] at hlen
      rw [drainCq]
      dsimp only
      generalize xskRingConsPeek q.cq neBatchSize = p at *
      split
      · dsimp only
        exact ⟨by omega, fun _ hne => absurd ‹_› (hpos hne)⟩
      · have hcq : ∀ m : Nat, (xskRingConsRelease p.2 m).waiting = p.2.waiting := fun _ => rfl
        split
        · dsimp only
          rw [hcq]
          omega
        · generalize min p.1.length (pool.cap - pool.frames.length) = pushed
          generalize hq' : ({ q with cq := xskRingConsRelease p.2 pushed } : NeXskQueue) = q'
          have hcq' : q'.cq.waiting = p.2.waiting := by rw [← hq']; rfl
          have hrest := (ih q' (poolPush pool p.1)).1
          rw [hcq'] at hrest
          omega

theorem recvQueue_others (q : NeXskQueue) (max : Nat) (stamp : RxStamp) :
    (recvQueue q max stamp).1.others = q.others ∧
      (recvQueue q max stamp).1.rx = (xskRingConsPeek q.rx max).2 := by
  have hfold : ∀ (ds : List XdpDesc) (r : NeXskQueue × List NePacket),
      (ds.foldl (recvDesc stamp max) r).1.others = r.1.others := by
    intro ds
    induction ds with
    | nil => exact fun _ => rfl
    | cons d ds ih => exact fun r => (ih _).trans (recvDesc_others r d)
  exact ⟨hfold _ ({ q with rx := (xskRingConsPeek q.rx max).2 }, []),
    (@recvDescs_view stamp max (xskRingConsPeek q.rx max).1
      ({ q with rx := (xskRingConsPeek q.rx max).2 }, [])).1⟩

end QueueTurns

/-! ## the turns between the rings -/

/-- Every packet on its way to a worker has a segment, and so a frame. -/
structure Laden (s : System) : Prop where
  batch : ∀ dir, ∀ pkt ∈ s.batch dir, pkt.nsegs ≠ 0
  toMid : ∀ dir w, ∀ pkt ∈ (s.fwd.toMid dir w).items, pkt.nsegs ≠ 0
  job : ∀ w dir pkt, s.job w = some (dir, pkt) → pkt.nsegs ≠ 0

section PacketTurns

variable {n : Nat} {s : System} {dir : NePacketDir} {w : Nat} {pkt : NePacket} {rest : List NePacket}

/-- An RX thread that hands on a packet gives it to a worker or to the pool. -/
theorem handOn_work (hw : Wired s) (env : Env) {pick : Pick} (hp : s.picked dir = some pick)
    (hb : s.batch dir = pkt :: rest) :
    (s.handOn env dir).queue = s.queue ∧ ∃ toMid : NePacketDir → Nat → NeRing,
      (s.handOn env dir).work = { s.work with
        batch := Function.update s.batch dir rest, picked := Function.update s.picked dir none, toMid := toMid } ∧
      (toMid = s.fwd.toMid ∨ ∃ w, pick = .worker w ∧ ∀ d v, toMid d v =
        if d = dir ∧ v = w then { s.fwd.toMid dir w with items := (s.fwd.toMid dir w).items ++ [pkt] }
        else s.fwd.toMid d v) := by
  simp only [System.handOn, hp, hb]
  cases pick with
  | worker w =>
      dsimp only
      cases hring : neRingTryPush (s.fwd.toMid dir w) pkt with
      | none => exact ⟨rfl, s.fwd.toMid, rfl, Or.inl rfl⟩
      | some ring =>
          refine ⟨rfl, (s.fwd.setToMid dir w ring).toMid, ?_, Or.inr ⟨w, rfl, fun d v => ?_⟩⟩
          · simp only [System.work, System.advance, Forwarder.outRing_setToMid]
          · rw [Forwarder.toMid_setToMid, neRingTryPush_eq_some hring]
  | drop => exact ⟨rfl, s.fwd.toMid, rfl, Or.inl rfl⟩
  | direct =>
      cases dir with
      | «local» => exact absurd hp hw.picked
      | wan =>
          have hu := unmoved_processDirect hw env pkt
          refine ⟨rfl, s.fwd.toMid, ?_, Or.inl rfl⟩
          simp only [System.work, System.advance, hu.batch, hu.picked, hu.toMid, hu.job, hu.outRing, hu.ifs,
            hu.txThreads]
          rfl

theorem pop_work (hj : s.job w = none) (hi : (s.fwd.toMid dir w).items = pkt :: rest) :
    (s.pop dir w).queue = s.queue ∧ (s.pop dir w).work = { s.work with
      toMid := fun d v => if d = dir ∧ v = w then { s.fwd.toMid dir w with items := rest } else s.fwd.toMid d v
      job := Function.update s.job w (some (dir, pkt)) } := by
  have hpop : neRingTryPop (s.fwd.toMid dir w) = some (pkt, { s.fwd.toMid dir w with items := rest }) := by
    rw [neRingTryPop, hi]
  have htoMid : (s.fwd.setToMid dir w { s.fwd.toMid dir w with items := rest }).toMid = fun d v =>
      if d = dir ∧ v = w then { s.fwd.toMid dir w with items := rest } else s.fwd.toMid d v := by
    funext d v
    exact s.fwd.toMid_setToMid dir d w v _
  simp only [System.pop, hj, hpop]
  refine ⟨trivial, ?_⟩
  simp only [System.work, htoMid, Forwarder.outRing_setToMid]

/-- Processing a packet pushes two packets at most. -/
theorem dataplaneProcess_two (env : Env) (dir : NePacketDir) (j : Job) : ∃ outDir slot pkts,
    Processed j.fwd j.pkt (dataplaneProcess env dir j).fwd outDir slot pkts ∧ pkts.length ≤ 2 := by
  cases dir with
  | «local» =>
      obtain ⟨pkts, h⟩ := dataplaneProcessLocal_outcome env j
      refine ⟨.wan, _, pkts, processed_of_wan h, ?_⟩
      cases h.handed <;> simp
  | wan =>
      obtain ⟨pkts, h⟩ := dataplaneProcessWan_outcome env j
      obtain ⟨ri, route, tables, hf, hpkts⟩ := h.fwd
      refine ⟨.local, ri, pkts, processed_of_local h hf, ?_⟩
      obtain rfl | ⟨q, rfl, -⟩ := hpkts.2 <;> simp

theorem process_work (dir : NePacketDir) (pkt : NePacket) (env : Env) (hj : s.job w = some (dir, pkt)) :
    (s.process env w).queue = s.queue ∧
    ∃ outDir slot pkts, pkts.length ≤ 2 ∧ (s.process env w).work = { s.work with
      outRing := fun d i sl => if d = outDir ∧ i = 0 ∧ sl = slot then (s.fwd.outRing outDir 0 slot).append pkts
        else s.fwd.outRing d i sl
      job := Function.update s.job w none } := by
  obtain ⟨outDir, slot, pkts, hp, htwo⟩ := dataplaneProcess_two env dir ⟨s.fwd, s.bound dir w pkt, pkt⟩
  refine ⟨by simp only [System.process, hj], outDir, slot, pkts, htwo, ?_⟩
  have hout : (dataplaneProcess env dir ⟨s.fwd, s.bound dir w pkt, pkt⟩).fwd.outRing = fun d i sl =>
      if d = outDir ∧ i = 0 ∧ sl = slot then (s.fwd.outRing outDir 0 slot).append pkts
      else s.fwd.outRing d i sl := by
    funext d i sl
    exact hp.outRing d i sl
  simp only [System.work, System.process, hj, hp.toMid, hout]

end PacketTurns

/-! ## work is where a thread looks for it -/

/-- A queue of an interface. -/
def IsQueue (ifs : NePacketDir → Ifaces) (dir : NePacketDir) (k : Nat × Nat) : Prop :=
  k.1 < (ifs dir).count ∧ k.2 < (ifs dir).queueCount k.1

instance (ifs : NePacketDir → Ifaces) (dir : NePacketDir) (k : Nat × Nat) : Decidable (IsQueue ifs dir k) :=
  inferInstanceAs (Decidable (_ ∧ _))

/-- A queue a TX thread sends on. -/
def IsPrimary (s : System) (dir : NePacketDir) (k : Nat × Nat) : Prop :=
  k.1 < (s.ifs dir).count ∧ (s.ifs dir).live k.1 = true ∧ k.2 < s.txThreads ∧
    txPrimary k.2 ((s.ifs dir).queueCount k.1) = some k.2

/-- The RX half of the queue has a frame that is not in a packet yet. -/
def NeXskQueue.Receiving (q : NeXskQueue) : Prop :=
  q.fq.entries ≠ [] ∨ q.driverRx ≠ [] ∨ q.rx.waiting ≠ []

/-- The TX half of the queue has a frame. -/
def NeXskQueue.Sending (q : NeXskQueue) : Prop :=
  q.tx.entries ≠ [] ∨ q.driverTx ≠ [] ∨ q.cq.waiting ≠ []

/-- Whatever is to be done, a thread that is started looks there. -/
structure Staffed (s : System) : Prop where
  laden : Laden s
  rx : ∀ dir k, (s.queue dir k).Receiving → IsQueue s.ifs dir k
  tx : ∀ dir k, (s.queue dir k).Sending → IsPrimary s dir k
  size : ∀ dir k, (s.queue dir k).tx.size = neRingSize
  toMid : ∀ dir w, (s.fwd.toMid dir w).items ≠ [] → w < neCryptoWorkers
  job : ∀ w, s.job w ≠ none → w < neCryptoWorkers
  picked : ∀ dir w, s.picked dir = some (.worker w) → w < neCryptoWorkers

section Staff

variable {n : Nat} {s s' : System} {dir : NePacketDir} {k : Nat × Nat} {w : Nat}

/-- A step on a queue and the pool. -/
theorem Staffed.queueStep (h : Staffed s) {q : NeXskQueue} (pool : NePool)
    (hrx : q.Receiving → (s.queue dir k).Receiving ∨ IsQueue s.ifs dir k)
    (htx : q.Sending → (s.queue dir k).Sending) (hsize : q.tx.size = (s.queue dir k).tx.size) :
    Staffed ((s.setQueue dir k q).setPool pool) := by
  have hq : ∀ d j, ((s.setQueue dir k q).setPool pool).queue d j =
      if d = dir ∧ j = k then q else s.queue d j := fun d j => s.queue_setQueue dir d k j q
  refine ⟨⟨h.laden.batch, h.laden.toMid, h.laden.job⟩, fun d j hr => ?_, fun d j hr => ?_, fun d j => ?_, h.toMid, h.job, h.picked⟩
  · rw [hq] at hr
    split_ifs at hr with hc
    · rw [hc.1, hc.2]
      exact (hrx hr).elim (h.rx dir k) id
    · exact h.rx d j hr
  · rw [hq] at hr
    split_ifs at hr with hc
    · rw [hc.1, hc.2]
      exact h.tx dir k (htx hr)
    · exact h.tx d j hr
  · rw [hq]
    split_ifs with hc
    · rw [hsize]; exact h.size dir k
    · exact h.size d j

theorem Staffed.fill (h : Staffed s) {q : NeXskQueue} {pool : NePool} (hq : ∃ fq, q = { s.queue dir k with fq := fq })
    (hk : IsQueue s.ifs dir k) : Staffed ((s.setQueue dir k q).setPool pool) := by
  obtain ⟨fq, rfl⟩ := hq
  exact h.queueStep pool (fun _ => Or.inr hk) id rfl

theorem Staffed.fillTake (h : Staffed s) : Staffed (s.fillTake dir k) := by
  unfold System.fillTake
  dsimp only
  cases hfq : (s.queue dir k).fq.entries with
  | nil => exact h
  | cons a rest =>
      refine h.queueStep s.fwd.pair.pool (fun _ => Or.inl (Or.inl ?_)) id rfl
      rw [hfq]
      exact List.cons_ne_nil _ _

theorem Staffed.receive (h : Staffed s) {d : XdpDesc} (hd : (s.queue dir k).driverRx ≠ []) :
    Staffed (s.receive dir k d) :=
  h.queueStep s.fwd.pair.pool (fun _ => Or.inl (Or.inr (Or.inl hd))) id rfl

theorem Staffed.release (h : Staffed s) : Staffed (s.release dir k) := by
  have hparts : (releaseRxQueue (s.queue dir k) s.fwd.pair.pool).1.others = (s.queue dir k).others ∧
      (releaseRxQueue (s.queue dir k) s.fwd.pair.pool).1.rx.waiting = (s.queue dir k).rx.waiting := by
    unfold releaseRxQueue
    dsimp only
    split_ifs <;> exact ⟨rfl, rfl⟩
  obtain ⟨hothers, hrx⟩ := hparts
  simp only [NeXskQueue.others, Prod.mk.injEq] at hothers
  obtain ⟨hfq, htx, hcq, hdrx, hdtx, -⟩ := hothers
  refine h.queueStep _ (fun hr => Or.inl ?_) (fun hr => ?_) (by rw [htx])
  · rwa [NeXskQueue.Receiving, hfq, hdrx, hrx] at hr
  · rwa [NeXskQueue.Sending, htx, hdtx, hcq] at hr

theorem Staffed.txTake (h : Staffed s) : Staffed (s.txTake dir k) := by
  unfold System.txTake
  dsimp only
  cases htx : (s.queue dir k).tx.entries with
  | nil => exact h
  | cons d rest =>
      refine h.queueStep s.fwd.pair.pool Or.inl (fun _ => Or.inl ?_) rfl
      rw [htx]
      exact List.cons_ne_nil _ _

theorem Staffed.complete (h : Staffed s) (m : Nat) : Staffed (s.complete dir k m) := by
  unfold System.complete
  dsimp only
  cases hm : (s.queue dir k).driverTx[m]? with
  | none => exact h
  | some a =>
      refine h.queueStep s.fwd.pair.pool Or.inl (fun _ => Or.inr (Or.inl fun hnil => ?_)) rfl
      rw [hnil] at hm
      cases hm

theorem Staffed.drainCq (h : Staffed s) (hc : Conserved n s) : Staffed (s.drainCq dir k) := by
  have hroom := hc.frames_length_le dir k
  obtain ⟨⟨cq, hcq⟩, -, -, -⟩ := drainCq_drained ((s.queue dir k).cq.waiting.length + 1) (s.queue dir k)
    s.fwd.pair.pool (by simp only [NeXskQueue.owned, List.length_append] at hroom; omega)
  have hle := (drainCq_length ((s.queue dir k).cq.waiting.length + 1) (s.queue dir k) s.fwd.pair.pool).1
  refine h.queueStep _ (fun hr => Or.inl ?_) (fun hr => ?_) ?_
  · rw [drainCqQueue, hcq] at hr
    exact hr
  · rw [hcq] at hle
    rw [drainCqQueue, hcq] at hr
    refine hr.imp id (Or.imp id fun hne hnil => hne ?_)
    rw [hnil] at hle
    exact List.eq_nil_of_length_eq_zero (Nat.le_zero.mp hle)
  · rw [drainCqQueue, hcq]

/-- A packet that is handed out has a segment. -/
theorem recvDesc_laden {stamp : RxStamp} {max : Nat} {r : NeXskQueue × List NePacket} (d : XdpDesc)
    (hout : ∀ pkt ∈ r.2, pkt.nsegs ≠ 0) : ∀ pkt ∈ (recvDesc stamp max r d).2, pkt.nsegs ≠ 0 := by
  unfold recvDesc
  dsimp only
  split_ifs with hcontd hrefuse
  · exact hout
  · exact hout
  · intro pkt hp
    rcases List.mem_append.mp hp with hp | hp
    · exact hout pkt hp
    · rw [List.mem_singleton.mp hp]
      exact fun hz => hrefuse (Or.inr (Or.inl hz))

theorem recvQueue_laden (q : NeXskQueue) (max : Nat) (stamp : RxStamp) :
    ∀ pkt ∈ (recvQueue q max stamp).2, pkt.nsegs ≠ 0 := by
  have hfold : ∀ (ds : List XdpDesc) (r : NeXskQueue × List NePacket), (∀ pkt ∈ r.2, pkt.nsegs ≠ 0) →
      ∀ pkt ∈ (ds.foldl (recvDesc stamp max) r).2, pkt.nsegs ≠ 0 := by
    intro ds
    induction ds with
    | nil => exact fun r h => h
    | cons d ds ih => exact fun r h => ih _ (recvDesc_laden d h)
  exact hfold _ _ fun pkt hp => nomatch hp

theorem laden_tagFrom {pkts : List NePacket} (h : ∀ pkt ∈ pkts, pkt.nsegs ≠ 0) :
    ∀ tag, ∀ pkt ∈ tagFrom tag pkts, pkt.nsegs ≠ 0 := by
  induction pkts with
  | nil => exact fun tag pkt hp => nomatch hp
  | cons p pkts ih =>
      intro tag pkt hp
      rcases List.mem_cons.mp hp with rfl | hp
      · exact h p List.mem_cons_self
      · exact ih (fun q hq => h q (List.mem_cons_of_mem _ hq)) _ pkt hp

theorem Staffed.recv (h : Staffed s) (total : Nat) : Staffed (s.recv dir k total) := by
  have hladen := recvQueue_laden { s.queue dir k with rxPending := 0 } (neBatchSize - total) (rxStamp dir k.1)
  obtain ⟨hothers, hrx⟩ := recvQueue_others { s.queue dir k with rxPending := 0 } (neBatchSize - total)
    (rxStamp dir k.1)
  simp only [NeXskQueue.others, Prod.mk.injEq] at hothers
  obtain ⟨hfq, htx, hcq, hdrx, hdtx, -⟩ := hothers
  have hwait := (xskRingConsPeek_spec (s.queue dir k).rx (neBatchSize - total)).1
  unfold System.recv
  generalize recvQueue { s.queue dir k with rxPending := 0 } (neBatchSize - total) (rxStamp dir k.1) = r at *
  -- the queue first, then the batch
  have hset : Staffed ((s.setQueue dir k r.1).setPool s.fwd.pair.pool) := by
    refine h.queueStep s.fwd.pair.pool (fun hr => Or.inl ?_) (fun hr => ?_) (by rw [htx])
    · rw [NeXskQueue.Receiving, hfq, hdrx, hrx] at hr
      refine hr.imp id (Or.imp id fun hne hnil => hne ?_)
      rw [hnil] at hwait
      exact (List.append_eq_nil_iff.mp hwait).2
    · rwa [NeXskQueue.Sending, htx, hdtx, hcq] at hr
  refine ⟨⟨fun d => ?_, h.laden.toMid, h.laden.job⟩, hset.rx, hset.tx, hset.size, h.toMid, h.job, h.picked⟩
  by_cases hd : d = dir
  · subst hd
    intro pkt hp
    simp only [System.setBatch, Function.update_self] at hp
    rcases List.mem_append.mp hp with hp | hp
    · exact h.laden.batch d pkt hp
    · exact laden_tagFrom hladen _ pkt hp
  · simp only [System.setBatch, Function.update_of_ne hd]
    exact h.laden.batch d

theorem routeGet_worker_lt {rt : RouteState} (ht : TableInv rt) (pkt : Mem) (len : Nat) (hint : Option Nat) :
    (dpFlowRouteGet rt pkt len hint).1.workerIdx < neCryptoWorkers := by
  unfold dpFlowRouteGet
  cases dpRouteKeyParse pkt len with
  | none => exact (hashRoute_bounds _).1
  | some key => exact ((routeAnswer_getKey rt key hint).bounds (ht.getKey key hint).bounds).1

theorem wanPick_lt {data : Mem} {len : Nat} (h : wanPick data len = .worker w) : w < neCryptoWorkers := by
  unfold wanPick at h
  split at h
  · cases h
  · split at h
    · cases h
    · split at h
      · cases h
      · rename_i hlt
        injection h with h
        omega

theorem Staffed.lookup (h : Staffed s) (ht : TableInv s.fwd.route) : Staffed (s.lookup dir) := by
  unfold System.lookup
  split
  · rename_i pkt rest hp hb
    cases dir with
    | «local» =>
        have hlt := routeGet_worker_lt ht (nePacketData s.fwd.pair pkt.addr) pkt.len none
        refine ⟨⟨fun d => ?_, h.laden.toMid, h.laden.job⟩, h.rx, h.tx, h.size, h.toMid, h.job, fun d w hw => ?_⟩
        · have hold := h.laden.batch .local
          rw [hb, List.forall_mem_cons] at hold
          cases d with
          | «local» =>
              simp only [System.lookupLocal, Function.update_self, List.forall_mem_cons]
              exact hold
          | wan => exact h.laden.batch .wan
        · cases d with
          | «local» =>
              simp only [System.lookupLocal, Function.update_self, Option.some.injEq, Pick.worker.injEq] at hw
              rw [← hw]
              exact hlt
          | wan => exact h.picked .wan w hw
    | wan =>
        refine ⟨⟨h.laden.batch, h.laden.toMid, h.laden.job⟩, h.rx, h.tx, h.size, h.toMid, h.job, fun d w hw => ?_⟩
        cases d with
        | «local» => exact h.picked .local w hw
        | wan =>
            simp only [System.lookupWan, Function.update_self, Option.some.injEq] at hw
            exact wanPick_lt hw
  · exact h

theorem Staffed.of_work (h : Staffed s) (hqueue : s'.queue = s.queue) (hifs : s'.ifs = s.ifs)
    (hthreads : s'.txThreads = s.txThreads) (hladen : Laden s')
    (htoMid : ∀ dir w, (s'.fwd.toMid dir w).items ≠ [] → w < neCryptoWorkers)
    (hjob : ∀ w, s'.job w ≠ none → w < neCryptoWorkers)
    (hpicked : ∀ dir w, s'.picked dir = some (.worker w) → w < neCryptoWorkers) : Staffed s' := by
  refine ⟨hladen, ?_, ?_, ?_, htoMid, hjob, hpicked⟩
  · rw [hqueue, hifs]; exact h.rx
  · simp only [IsPrimary, hqueue, hifs, hthreads]; exact h.tx
  · rw [hqueue]; exact h.size

theorem Staffed.handOn (h : Staffed s) (hw : Wired s) (env : Env) : Staffed (s.handOn env dir) := by
  cases hp : s.picked dir with
  | none => simpa only [System.handOn, hp] using h
  | some pick =>
      cases hb : s.batch dir with
      | nil => cases pick <;> simpa only [System.handOn, hp, hb] using h
      | cons pkt rest =>
          obtain ⟨hqueue, toMid, hwork, hto⟩ := handOn_work hw env hp hb
          have hbatch : (s.handOn env dir).batch = Function.update s.batch dir rest := congrArg Work.batch hwork
          have hpicked : (s.handOn env dir).picked = Function.update s.picked dir none :=
            congrArg Work.picked hwork
          have htoMid : (s.handOn env dir).fwd.toMid = toMid := congrArg Work.toMid hwork
          have hjob : (s.handOn env dir).job = s.job := congrArg Work.job hwork
          have hold := h.laden.batch dir
          rw [hb, List.forall_mem_cons] at hold
          -- only the worker that was picked can have one packet more
          have hring : ∀ d v, ∀ q ∈ (toMid d v).items,
              q ∈ (s.fwd.toMid d v).items ∨ q = pkt ∧ v < neCryptoWorkers := by
            intro d v q hq
            obtain rfl | ⟨w, rfl, heq⟩ := hto
            · exact Or.inl hq
            · rw [heq] at hq
              split_ifs at hq with hc
              · obtain ⟨rfl, rfl⟩ := hc
                rcases List.mem_append.mp hq with hq | hq
                · exact Or.inl hq
                · exact Or.inr ⟨List.mem_singleton.mp hq, h.picked d v hp⟩
              · exact Or.inl hq
          refine h.of_work hqueue (congrArg Work.ifs hwork) (congrArg Work.txThreads hwork) ⟨?_, ?_, ?_⟩ ?_ ?_ ?_
          · intro d
            rw [hbatch]
            by_cases hd : d = dir
            · rw [hd, Function.update_self]; exact hold.2
            · rw [Function.update_of_ne hd]; exact h.laden.batch d
          · intro d v q hq
            rw [htoMid] at hq
            obtain hq | ⟨rfl, -⟩ := hring d v q hq
            · exact h.laden.toMid d v q hq
            · exact hold.1
          · rw [hjob]; exact h.laden.job
          · intro d v hne
            rw [htoMid] at hne
            obtain ⟨q, hq⟩ := List.exists_mem_of_ne_nil _ hne
            obtain hq | ⟨-, hlt⟩ := hring d v q hq
            · exact h.toMid d v (List.ne_nil_of_mem hq)
            · exact hlt
          · rw [hjob]; exact h.job
          · intro d v hv
            rw [hpicked] at hv
            by_cases hd : d = dir
            · rw [hd, Function.update_self] at hv
              cases hv
            · rw [Function.update_of_ne hd] at hv
              exact h.picked d v hv

theorem Staffed.pop (h : Staffed s) : Staffed (s.pop dir w) := by
  cases hj : s.job w with
  | some j => simpa only [System.pop, hj] using h
  | none =>
      cases hi : (s.fwd.toMid dir w).items with
      | nil => simpa only [System.pop, hj, neRingTryPop, hi] using h
      | cons pkt rest =>
          obtain ⟨hqueue, hwork⟩ := pop_work hj hi
          have hbatch : (s.pop dir w).batch = s.batch := congrArg Work.batch hwork
          have hpicked : (s.pop dir w).picked = s.picked := congrArg Work.picked hwork
          have htoMid := congrArg Work.toMid hwork
          change (s.pop dir w).fwd.toMid = _ at htoMid
          have hjob : (s.pop dir w).job = Function.update s.job w (some (dir, pkt)) := congrArg Work.job hwork
          have hold := h.laden.toMid dir w
          rw [hi, List.forall_mem_cons] at hold
          have hw : w < neCryptoWorkers := h.toMid dir w (by rw [hi]; exact List.cons_ne_nil _ _)
          refine h.of_work hqueue (congrArg Work.ifs hwork) (congrArg Work.txThreads hwork) ⟨?_, ?_, ?_⟩ ?_ ?_ ?_
          · rw [hbatch]; exact h.laden.batch
          · intro d v
            rw [htoMid]
            dsimp only
            split_ifs
            · exact hold.2
            · exact h.laden.toMid d v
          · intro v d q hq
            rw [hjob] at hq
            by_cases hv : v = w
            · rw [hv, Function.update_self, Option.some.injEq, Prod.mk.injEq] at hq
              rw [← hq.2]
              exact hold.1
            · rw [Function.update_of_ne hv] at hq
              exact h.laden.job v d q hq
          · intro d v hne
            rw [htoMid] at hne
            dsimp only at hne
            split_ifs at hne with hc
            · rw [hc.2]; exact hw
            · exact h.toMid d v hne
          · intro v hne
            rw [hjob] at hne
            by_cases hv : v = w
            · rw [hv]; exact hw
            · rw [Function.update_of_ne hv] at hne
              exact h.job v hne
          · rw [hpicked]; exact h.picked

theorem Staffed.process (h : Staffed s) (env : Env) : Staffed (s.process env w) := by
  cases hj : s.job w with
  | none => simpa only [System.process, hj] using h
  | some j =>
      obtain ⟨hqueue, outDir, slot, pkts, -, hwork⟩ := process_work j.1 j.2 env hj
      have hbatch : (s.process env w).batch = s.batch := congrArg Work.batch hwork
      have hpicked : (s.process env w).picked = s.picked := congrArg Work.picked hwork
      have htoMid : (s.process env w).fwd.toMid = s.fwd.toMid := congrArg Work.toMid hwork
      have hjob : (s.process env w).job = Function.update s.job w none := congrArg Work.job hwork
      have hsub : ∀ v j', (s.process env w).job v = some j' → s.job v = some j' := by
        intro v j' hv
        rw [hjob] at hv
        by_cases hvw : v = w
        · rw [hvw, Function.update_self] at hv
          cases hv
        · rwa [Function.update_of_ne hvw] at hv
      refine h.of_work hqueue (congrArg Work.ifs hwork) (congrArg Work.txThreads hwork) ⟨?_, ?_, ?_⟩ ?_ ?_ ?_
      · rw [hbatch]; exact h.laden.batch
      · rw [htoMid]; exact h.laden.toMid
      · exact fun v d q hq => h.laden.job v d q (hsub v _ hq)
      · rw [htoMid]; exact h.toMid
      · intro v hne
        obtain ⟨j', hj'⟩ := Option.ne_none_iff_exists'.mp hne
        exact h.job v (by rw [hsub v j' hj']; exact Option.some_ne_none _)
      · rw [hpicked]; exact h.picked

/-- A round of `tx_drain_queue` has only the TX ring of the queue to do with. -/
theorem txRound_queue (q : NeXskQueue) (src : NeRing) (pool : NePool) (maxFrame : Nat) : ∃ tx sent,
    (txRound q src pool maxFrame).2.1 = { q with tx := tx, sent := sent } ∧ tx.size = q.tx.size := by
  unfold txRound
  split
  · exact ⟨_, _, rfl, rfl⟩
  · cases neRingTryPop src with
    | none => exact ⟨_, _, rfl, rfl⟩
    | some p =>
        dsimp only
        split
        · exact ⟨_, _, rfl, rfl⟩
        · exact ⟨_, _, rfl, rfl⟩

theorem Staffed.txStep (h : Staffed s) (iface slot : Nat) : Staffed (s.tx dir iface slot) := by
  unfold System.tx
  split
  · rename_i hguard
    cases hq : txPrimary slot ((s.ifs dir).queueCount iface) with
    | none => exact h
    | some q =>
        obtain rfl := txPrimary_eq_some hq
        obtain ⟨tx, sent, hqueue, hsize⟩ := txRound_queue (s.queue dir (iface, q)) (s.fwd.outRing dir iface q)
          s.fwd.pair.pool s.fwd.pair.frameSize
        dsimp only
        generalize txRound (s.queue dir (iface, q)) (s.fwd.outRing dir iface q) s.fwd.pair.pool
          s.fwd.pair.frameSize = r at *
        generalize hs' : ({ (s.setQueue dir (iface, q) r.2.1).setPool r.2.2.2 with
          fwd := ((s.setPool r.2.2.2).fwd).setOutRing dir iface q r.2.2.1 } : System) = s'
        have hq' : ∀ d j, s'.queue d j = if d = dir ∧ j = (iface, q) then r.2.1 else s.queue d j := by
          intro d j; rw [← hs']; exact s.queue_setQueue dir d (iface, q) j r.2.1
        have hmid : s'.fwd.toMid = s.fwd.toMid := by rw [← hs']; exact Forwarder.toMid_setOutRing ..
        have hbatch : s'.batch = s.batch := by rw [← hs']; rfl
        have hpicked : s'.picked = s.picked := by rw [← hs']; rfl
        have hjob : s'.job = s.job := by rw [← hs']; rfl
        have hifs : s'.ifs = s.ifs := by rw [← hs']; rfl
        have hthreads : s'.txThreads = s.txThreads := by rw [← hs']; rfl
        refine ⟨⟨?_, ?_, ?_⟩, fun d j hr => ?_, fun d j hr => ?_, fun d j => ?_, ?_, ?_, ?_⟩
        · rw [hbatch]; exact h.laden.batch
        · rw [hmid]; exact h.laden.toMid
        · rw [hjob]; exact h.laden.job
        · rw [hifs]
          rw [hq'] at hr
          split_ifs at hr with hc
          · rw [hqueue] at hr
            rw [hc.1, hc.2]
            exact h.rx dir (iface, q) hr
          · exact h.rx d j hr
        · rw [IsPrimary, hifs, hthreads]
          rw [hq'] at hr
          split_ifs at hr with hc
          · rw [hc.1, hc.2]
            exact ⟨hguard.2.1, hguard.2.2, hguard.1, hq⟩
          · exact h.tx d j hr
        · rw [hq']
          split_ifs with hc
          · rw [hqueue]
            exact hsize.trans (h.size dir (iface, q))
          · exact h.size d j
        · rw [hmid]; exact h.toMid
        · rw [hjob]; exact h.job
        · rw [hpicked]; exact h.picked
  · exact h

end Staff

/-! ## runs -/

/-- What happens on the way out: the threads that are started take their steps, and the
kernel sends, or takes frames to receive into. -/
def Turn (ifs : NePacketDir → Ifaces) : Action → Prop
  | .dma _ => True
  | .step (.fillTake _ _) => True
  | .step (.txTake _ _) => True
  | .step (.complete _ _ _) => True
  | .step e => ∃ h ∈ requestedThreads ifs, h.Takes ifs e

/-- What can happen: a turn, the kernel receives, or `ne_pair_open` fills a queue. -/
def Happens (s : System) : Action → Prop
  | .step (.receive dir k d) => KernelLegal s (.receive dir k d)
  | .step (.prefill dir k _) => IsQueue s.ifs dir k
  | a => Turn s.ifs a

/-- The process, between what can happen. -/
structure Working (n : Nat) (ifs : NePacketDir → Ifaces) (s : System) : Prop where
  conserved : Conserved n s
  flowing : Flowing s
  staffed : Staffed s
  ifs_eq : s.ifs = ifs

section Runs

variable {n : Nat} {ifs : NePacketDir → Ifaces} {s : System}

/-- A thread refills queues of interfaces only. -/
theorem ThreadHandle.Takes.isQueue {h : ThreadHandle} {dir : NePacketDir} {k : Nat × Nat}
    (htake : h.Takes ifs (.refill dir k)) : IsQueue ifs dir k := by
  have hrx : ∀ d, (rxThread ifs d h.idx).Takes (.refill dir k) → IsQueue ifs dir k := by
    rintro d ⟨rfl, hk⟩
    obtain ⟨hi, hq, -⟩ := Ifaces.mem_rxQueues.mp (RxThread.owned_of_polled hk)
    exact ⟨hi, hq⟩
  unfold ThreadHandle.Takes at htake
  cases hg : h.group <;> rw [hg] at htake
  case localRx => exact hrx .local htake
  case tx => exact htake.elim
  case crypto => exact htake.elim
  case wanRx => exact hrx .wan htake

theorem Staffed.act (hs : Staffed s) (hc : Conserved n s) (hf : Flowing s) {a : Action} (ha : Happens s a) :
    Staffed (s.act a) := by
  cases a with
  | dma mem => exact ⟨⟨hs.laden.batch, hs.laden.toMid, hs.laden.job⟩, hs.rx, hs.tx, hs.size, hs.toMid, hs.job, hs.picked⟩
  | step e =>
      cases e with
      | prefill dir k want =>
          have hroom := hc.frames_length_le dir k
          exact hs.fill (prefillQueue_filled want want (s.queue dir k) (by omega)).queue ha
      | refill dir k =>
          obtain ⟨h, -, htake⟩ := ha
          exact hs.fill (refillFqQueue_fst ..) htake.isQueue
      | fillTake dir k => exact hs.fillTake
      | receive dir k d =>
          obtain ⟨⟨a, ha, -⟩, -⟩ := ha
          exact hs.receive (List.ne_nil_of_mem ha)
      | recv dir k total => exact hs.recv total
      | release dir k => exact hs.release
      | lookup dir => exact hs.lookup (hf.lanes .local).table
      | handOn env dir => exact hs.handOn hf.wired env
      | pop dir w => exact hs.pop
      | process env w => exact hs.process env
      | fragGc w now =>
          exact ⟨⟨hs.laden.batch, hs.laden.toMid, hs.laden.job⟩, hs.rx, hs.tx, hs.size, hs.toMid, hs.job, hs.picked⟩
      | tx dir iface slot => exact hs.txStep iface slot
      | txTake dir k => exact hs.txTake
      | complete dir k m => exact hs.complete m
      | drainCq dir k => exact hs.drainCq hc

theorem Conserved.act (hc : Conserved n s) {a : Action} (ha : Happens s a) : Conserved n (s.act a) := by
  cases a with
  | dma mem => exact ⟨hc.places, hc.cap, hc.refused, hc.frameSize, hc.batch, hc.toMid, hc.job, hc.outRing, hc.rx⟩
  | step e =>
      refine hc.step ?_
      cases e with
      | receive dir k d => exact ha
      | _ => trivial

theorem Working.act (h : Working n ifs s) {a : Action} (ha : Happens s a) : Working n ifs (s.act a) :=
  ⟨h.conserved.act ha, h.flowing.act a, h.staffed.act h.conserved h.flowing ha, (s.act_ifs a).trans h.ifs_eq⟩

end Runs

/-- A stretch of a run in which nothing new comes in, every thread that is started gets
through each step of its loop, for each queue it visits, and the kernel sends on every queue. -/
structure FairRound (ifs : NePacketDir → Ifaces) (r : List Action) : Prop where
  turn : ∀ a ∈ r, Turn ifs a
  recv : ∀ dir k, IsQueue ifs dir k → ∃ total < neBatchSize, .step (.recv dir k total) ∈ r
  lookup : ∀ dir, .step (.lookup dir) ∈ r
  handOn : ∀ dir, ∃ env, .step (.handOn env dir) ∈ r
  pop : ∀ dir, ∀ w < neCryptoWorkers, .step (.pop dir w) ∈ r
  process : ∀ w < neCryptoWorkers, ∃ env, .step (.process env w) ∈ r
  tx : ∀ dir i slot, i < (ifs dir).count → slot < forwarderActiveTxSlots ifs → .step (.tx dir i slot) ∈ r
  drainCq : ∀ dir k slot, slot < forwarderActiveTxSlots ifs → k ∈ (ifs dir).cqQueues slot →
    .step (.drainCq dir k) ∈ r
  txTake : ∀ dir k, IsQueue ifs dir k → .step (.txTake dir k) ∈ r
  complete : ∀ dir k, IsQueue ifs dir k → .step (.complete dir k 0) ∈ r

section Rounds

variable {n : Nat} {ifs : NePacketDir → Ifaces} {s : System}

/-- Unless all is done, some turn of a fair round does something. -/
theorem FairRound.ready {r : List Action} (hr : FairRound ifs r) (hopen : Opened ifs) (h : Working n ifs s)
    (hrest : ¬ AtRest s.work) : ∃ a ∈ r, Ready s.work a := by
  by_contra hnone
  have hnot : ∀ {a}, a ∈ r → ¬ Ready s.work a := fun ha hready => hnone ⟨_, ha, hready⟩
  have hst := h.staffed
  have hw := h.flowing.wired
  have hifs := h.ifs_eq
  have hthreads : s.txThreads = forwarderActiveTxSlots ifs := by rw [hw.threads, hifs]
  -- from the end of the way to its start
  have hprimary : ∀ dir k, (s.queue dir k).Sending → IsQueue ifs dir k ∧
      .step (.drainCq dir k) ∈ r := by
    intro dir k hsend
    obtain ⟨hi, hlive, hslot, hq⟩ := hst.tx dir k hsend
    rw [hifs] at hi hlive hq
    have hmem := txPrimary_owned hi hlive hq
    exact ⟨⟨hi, (Ifaces.mem_cqQueues.mp hmem).2.1⟩, hr.drainCq dir k k.2 (hthreads ▸ hslot) hmem⟩
  have hcq : ∀ dir k, (s.queue dir k).cq.waiting = [] := by
    intro dir k
    by_contra hne
    exact hnot (hprimary dir k (Or.inr (Or.inr hne))).2 hne
  have hdriver : ∀ dir k, (s.queue dir k).driverTx = [] := by
    intro dir k
    by_contra hne
    exact hnot (hr.complete dir k (hprimary dir k (Or.inr (Or.inl hne))).1) (List.length_pos_of_ne_nil hne)
  have htx : ∀ dir k, (s.queue dir k).tx.entries = [] := by
    intro dir k
    by_contra hne
    exact hnot (hr.txTake dir k (hprimary dir k (Or.inl hne)).1) hne
  have hout : ∀ dir i slot, (s.fwd.outRing dir i slot).items = [] := by
    intro dir i slot
    by_contra hne
    obtain ⟨hslot, hi, hlive, q, hq⟩ := h.flowing.consumed (hifs.symm ▸ hopen) hne
    refine hnot (hr.tx dir i slot (hifs ▸ hi) (hthreads ▸ hslot)) ⟨⟨hslot, hi, hlive⟩, hne, q, hq, ?_⟩
    change nePacketMaxSegs ≤ xskProdNbFree (s.queue dir (i, q)).tx
    rw [xskProdNbFree, hst.size, htx]
    decide
  have hjob : ∀ w, s.job w = none := by
    intro w
    by_contra hne
    obtain ⟨env, hmem⟩ := hr.process w (hst.job w hne)
    exact hnot hmem hne
  have hmid : ∀ dir w, (s.fwd.toMid dir w).items = [] := by
    intro dir w
    by_contra hne
    exact hnot (hr.pop dir w (hst.toMid dir w hne)) ⟨hjob w, hne⟩
  have hbatch : ∀ dir, s.batch dir = [] := by
    intro dir
    by_contra hne
    by_cases hp : s.picked dir = none
    · exact hnot (hr.lookup dir) ⟨hp, hne⟩
    · obtain ⟨env, hmem⟩ := hr.handOn dir
      exact hnot hmem ⟨hp, hne⟩
  have hrx : ∀ dir k, (s.queue dir k).rx.waiting = [] := by
    intro dir k
    by_contra hne
    have hk := hst.rx dir k (Or.inr (Or.inr hne))
    rw [hifs] at hk
    obtain ⟨total, htotal, hmem⟩ := hr.recv dir k hk
    exact hnot hmem ⟨hne, htotal⟩
  exact hrest ⟨hrx, hbatch, hmid, hjob, hout, htx, hdriver, hcq⟩

end Rounds

end NetworkEncryptor
