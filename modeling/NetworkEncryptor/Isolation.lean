import NetworkEncryptor.Chunks
import NetworkEncryptor.Lib.Footprint
import NetworkEncryptor.Turns

/-!
# NetworkEncryptor.Isolation

All threads, the drivers and the NICs share one UMEM without a lock; what keeps them
apart is that everyone stores into frames of their own only.  `ne_packet_write` stores
into the frames of the packet a thread has in its hand and into those it takes from the
pool, a NIC into the frames its driver has from the fill ring.

`System.Reaches s a` are the frames an action may store into.  The frames that an action
does not reach are as they were (`frames_untouched`), unless a copy runs past the end
of its frame; when that can happen is the subject of `NetworkEncryptor.Chunks`.  A
packet that is on its way out of the process is in nobody's reach, so that what the NIC
reads is what was put into the output ring (`sent_intact`).
-/

namespace NetworkEncryptor

/-! ## reach -/

/-- The frames an action may store into. -/
def System.Reaches (s : System) : Action → Nat → Prop
  | .dma _, c => ∃ dir k, c ∈ s.frames (.driverRx dir k)
  | .step (.process _ w), c => c ∈ s.frames .pool ∨ c ∈ s.frames (.job w)
  | .step (.handOn _ dir), c => c ∈ s.frames .pool ∨ c ∈ (framesOf ((s.batch dir).take 1)).map chunk
  | .step _, _ => False

/-- What the kernel is trusted with: the descriptors it publishes, and that a NIC stores
into frames its driver holds to receive. -/
def ActionLegal (s : System) : Action → Prop
  | .dma mem => ∀ x, mem x ≠ s.fwd.pair.mem x → ∃ dir k, chunk x ∈ s.frames (.driverRx dir k)
  | .step e => KernelLegal s e

/-! ## what a write stores -/

/-- What happened to the UMEM: some copies were made, all of them to one of the
addresses, and no other byte has changed. -/
structure Stored (p p' : NePair) (addrs : List Nat) (new : List (Nat × Nat)) : Prop where
  copies : p'.copies = p.copies ++ new
  addrs : ∀ c ∈ new, c.1 ∈ addrs
  mem : Changes new p.mem p'.mem

theorem Stored.refl (p : NePair) (addrs : List Nat) : Stored p p addrs [] :=
  ⟨(List.append_nil _).symm, fun _ hc => absurd hc List.not_mem_nil, .refl [] p.mem⟩

theorem Stored.trans {p p' p'' : NePair} {addrs addrs' : List Nat} {new new' : List (Nat × Nat)}
    (h : Stored p p' addrs new) (h' : Stored p' p'' addrs' new') (hsub : ∀ a ∈ addrs', a ∈ addrs) :
    Stored p p'' addrs (new ++ new') := by
  refine ⟨by rw [h'.copies, h.copies, List.append_assoc], fun c hc => ?_, h.mem.trans h'.mem⟩
  rcases List.mem_append.mp hc with hc | hc
  · exact h.addrs c hc
  · exact hsub _ (h'.addrs c hc)

theorem copyIn_stored (p : NePair) (addr : Nat) (bytes : List UInt8) :
    Stored p (p.copyIn addr bytes) [addr] [(addr, bytes.length)] := by
  refine ⟨rfl, fun c hc => by rw [List.mem_singleton.mp hc]; exact List.mem_singleton_self addr, fun x hx => ?_⟩
  refine ⟨_, List.mem_singleton_self _, ?_⟩
  by_contra hout
  refine hx (Mem.write_of_not_mem _ ?_)
  simp only [InRegion, not_and_or, Nat.not_le, Nat.not_lt] at hout
  exact hout

section Write

variable {p p' : NePair} {pkt pkt' : NePacket} {src : Mem} {len : Nat} {ok : Bool}

/-- The copy loop stores into the segments, as much as their lengths then say. -/
theorem packetFill_stored (src : Mem) (len k : Nat) : ∀ (i off : Nat) (p : NePair) (pkt : NePacket),
    ∃ new, Stored p (packetFill src len k i off p pkt).1 ((List.range' i k).map pkt.segAddr) new ∧
      ∀ j, i ≤ j → j < i + k → (packetFill src len k i off p pkt).2.1.segLen j ≠ 0 →
        (pkt.segAddr j, (packetFill src len k i off p pkt).2.1.segLen j) ∈ new := by
  induction k with
  | zero => exact fun i off p pkt => ⟨[], .refl p _, fun j h1 h2 => absurd h2 (by omega)⟩
  | succ k ih =>
      intro i off p pkt
      rw [packetFill_succ]
      obtain ⟨rest, hrest, hlog⟩ := ih (i + 1) (off + min (len - off) (pkt.segRoom i))
        (fillPair src len i off p pkt) (fillPacket len i off pkt)
      obtain ⟨segLen, hpkt, hsame⟩ := packetFill_pkt src len k (i + 1) (off + min (len - off) (pkt.segRoom i))
        (fillPair src len i off p pkt) (fillPacket len i off pkt)
      have hself := (hsame i (by omega)).trans (fillPacket_segLen_self len i off pkt)
      -- the copy into segment `i`, if there is one
      have hone : ∃ new, Stored p (fillPair src len i off p pkt) [pkt.segAddr i] new ∧
          (segLen i ≠ 0 → (pkt.segAddr i, segLen i) ∈ new) := by
        rw [hself, fillPair]
        split
        · have hst := copyIn_stored p (pkt.segAddr i) (src.read off (min (len - off) (pkt.segRoom i)))
          rw [Mem.length_read] at hst
          exact ⟨_, hst, fun _ => List.mem_singleton_self _⟩
        · rename_i hzero
          exact ⟨[], .refl p _, fun hne => absurd hne hzero⟩
      obtain ⟨new, hnew, hin⟩ := hone
      refine ⟨new ++ rest, ?_, fun j h1 h2 hne => ?_⟩
      · rw [List.range'_succ, List.map_cons]
        have hwide : Stored p (fillPair src len i off p pkt)
            (pkt.segAddr i :: (List.range' (i + 1) k).map pkt.segAddr) new :=
          ⟨hnew.copies, fun c hc => by rw [List.mem_singleton.mp (hnew.addrs c hc)]; exact List.mem_cons_self ..,
            hnew.mem⟩
        exact hwide.trans hrest fun a ha => List.mem_cons_of_mem _ ha
      · by_cases hj : j = i
        · rw [hj, hpkt] at hne ⊢
          exact List.mem_append_left _ (hin hne)
        · exact List.mem_append_right _ (hlog j (by omega) (by omega) hne)

/-- The allocation loop stores nothing. -/
theorem grown_mem (p : NePair) (pkt : NePacket) (len : Nat) :
    (grown p pkt len).pair.mem = p.mem := by
  refine packetGrow_induct (I := fun g => g.pair.mem = p.mem) ?_ nePacketMaxSegs _ rfl
  exact fun _ _ _ h _ _ _ => h

/-- A write stores into the frames of the packet and of the pool. -/
theorem nePacketWrite_stored (hs : pkt.Sound) (hfs : p.frameSize ≠ 0)
    (hw : nePacketWrite p pkt src len = (ok, p', pkt')) :
    ∃ new, Stored p p' (p.pool.frames ++ pkt.frames) new := by
  have hg := growKept_grown hs hfs len
  have hcopies := (grownFrom_grown p pkt len).copies
  rcases nePacketWrite_cases p pkt src len with hc | ⟨-, hc⟩ | ⟨-, -, -, used, -, t, ht, hc⟩
  · rw [hc, Prod.mk.injEq, Prod.mk.injEq] at hw
    obtain ⟨-, rfl, -⟩ := hw
    exact ⟨[], .refl p _⟩
  · rw [hc, Prod.mk.injEq, Prod.mk.injEq] at hw
    obtain ⟨-, rfl, -⟩ := hw
    refine ⟨[], ⟨by rw [hcopies, List.append_nil], fun _ hc => absurd hc List.not_mem_nil, ?_⟩⟩
    rw [grown_mem]
    exact .refl [] p.mem
  · rw [hc, Prod.mk.injEq, Prod.mk.injEq] at hw
    obtain ⟨-, rfl, -⟩ := hw
    obtain ⟨new, hnew, -⟩ := packetFill_stored src len (grown p pkt len).nsegs 0 0 (grown p pkt len).pair
      (grown p pkt len).pkt
    have hmem := (packetTrim_spec ((grown p pkt len).nsegs - used) used (filled p pkt src len).1
      (filled p pkt src len).2.1).1
    have hlog := (packetTrim_pair ((grown p pkt len).nsegs - used) used (filled p pkt src len).1
      (filled p pkt src len).2.1).1
    rw [← ht] at hmem hlog
    refine ⟨new, ?_, fun c hc => ?_, ?_⟩
    · rw [hlog, filled, hnew.copies, hcopies]
    · refine hg.kept.frames.mem_iff.mp (List.mem_append_right _ ?_)
      rw [NePacket.frames, hg.nsegs, NePacket.addrs, List.range_eq_range']
      exact hnew.addrs c hc
    · rw [hmem, ← grown_mem p pkt len]
      exact hnew.mem

/-- A packet that is written with copies that stay in their chunks is in its chunks. -/
theorem nePacketWrite_inChunks (hpkt : PktFits pkt) (hw : nePacketWrite p pkt src len = (ok, p', pkt'))
    (hcopies : ∀ c ∈ p'.copies, InChunk c.1 c.2) : PktFits pkt' := by
  have hg := grownFrom_grown p pkt len
  rcases nePacketWrite_cases p pkt src len with hc | ⟨-, hc⟩ | ⟨hpos, -, hcap, used, hused, t, ht, hc⟩
  · rw [hc, Prod.mk.injEq, Prod.mk.injEq] at hw
    obtain ⟨-, -, rfl⟩ := hw
    exact hpkt
  · rw [hc, Prod.mk.injEq, Prod.mk.injEq] at hw
    obtain ⟨-, -, rfl⟩ := hw
    exact hg.pktFits hpkt
  · rw [hc, Prod.mk.injEq, Prod.mk.injEq] at hw
    obtain ⟨-, rfl, rfl⟩ := hw
    obtain ⟨new, hnew, hlog⟩ := packetFill_stored src len (grown p pkt len).nsegs 0 0 (grown p pkt len).pair
      (grown p pkt len).pkt
    obtain ⟨segLen, hpkt', hbeyond⟩ := packetFill_pkt src len (grown p pkt len).nsegs 0 0
      (grown p pkt len).pair (grown p pkt len).pkt
    have htrim := packetTrim_segAddr ((grown p pkt len).nsegs - used) used (filled p pkt src len).1
      (filled p pkt src len).2.1
    have hlens : t.2.segLen = segLen := by
      rw [ht, (packetTrim_spec _ _ _ _).2.1, filled, hpkt']
    have hlogged : t.1.copies = p.copies ++ new := by
      rw [ht, (packetTrim_pair _ _ _ _).1, filled, hnew.copies, hg.copies]
    obtain ⟨-, hle, hne, -⟩ := usedSegs_spec (filled p pkt src len).2.1 (grown p pkt len).nsegs 0
    rw [← hused] at hle hne
    rw [← ht, filled, hpkt'] at htrim
    simp only [filled, hpkt'] at hlog hne
    have hfits : ∀ j < (grown p pkt len).nsegs, InChunk ((grown p pkt len).pkt.segAddr j) (segLen j) := by
      intro j hj
      by_cases hzero : segLen j = 0
      · rw [hzero]; exact inChunk_zero _
      · exact hcopies _ (by rw [hlogged]; exact List.mem_append_right _ (hlog j (Nat.zero_le j) (by omega) hzero))
    refine ⟨fun j => ?_, fun hone hzero => ?_⟩
    · simp only [hlens, htrim]
      by_cases hj : j < (grown p pkt len).nsegs
      · split_ifs
        · exact (hfits j hj).base
        · exact hfits j hj
      · rw [if_neg (by omega), hbeyond j (by omega)]
        obtain ⟨haddr, -, hlen⟩ := hg.old j (by omega)
        rw [haddr, hlen]
        exact hpkt.segs j
    · -- its first segment is empty, so none is used and the address is gone
      simp only [hlens] at hzero
      have hsegs : 0 < (grown p pkt len).nsegs := by
        by_contra hno
        have hroom := hg.capacity
        have hsome := hg.le
        rw [show (grown p pkt len).nsegs - pkt.segCount = 0 by omega, show pkt.segCount = 0 by omega,
          Nat.zero_mul] at hroom
        simp only [packetCapacity, List.range_zero, List.map_nil, List.sum_nil] at hroom
        omega
      have hnone : used = 0 := by
        by_contra hsome
        exact hne 0 (Nat.le_refl 0) (by omega) hzero
      simp only [htrim, hnone]
      rw [if_pos (by omega)]
      simp only [InChunk, Nat.zero_mod]
      omega

end Write

theorem SameSegs.fits {pkt pkt' : NePacket} (h : SameSegs pkt pkt') (hf : PktFits pkt) : PktFits pkt' := by
  refine ⟨fun i => ?_, fun hone hzero => ?_⟩
  · rw [h.segAddr, h.segLen]
    exact hf.segs i
  · rw [NePacket.txSegs, h.nsegs] at hone
    rw [h.segLen] at hzero
    rw [h.segAddr, h.len]
    exact hf.whole hone hzero

/-- One operation, if its copies stay in their chunks, leaves packets that do. -/
theorem UmemMove.fits {s s' : NePair × List NePacket} (h : UmemMove s s') (hfits : ∀ pkt ∈ s.2, PktFits pkt)
    (hcopies : ∀ c ∈ s'.1.copies, InChunk c.1 c.2) : ∀ pkt ∈ s'.2, PktFits pkt := by
  -- all but the first packet are as they were
  have hrest : ∀ {pkt q : NePacket} {rest : List NePacket}, (∀ q ∈ pkt :: rest, PktFits q) → PktFits q →
      ∀ r ∈ q :: rest, PktFits r := fun hall hq r hr =>
    (List.mem_cons.mp hr).elim (fun heq => by rw [heq]; exact hq) fun hr => hall r (List.mem_cons_of_mem _ hr)
  cases h with
  | write hw => exact hrest hfits (nePacketWrite_inChunks (hfits _ (List.mem_cons_self ..)) hw hcopies)
  | free _ _ _ => exact hrest hfits pktFits_zero
  | stamp hsame => exact hrest hfits (hsame.fits (hfits _ (List.mem_cons_self ..)))
  | new _ _ => exact fun q hq => (List.mem_cons.mp hq).elim (fun heq => by rw [heq]; exact pktFits_zero) (hfits q)
  | forget _ _ => exact fun q hq => hfits q (List.mem_cons_of_mem _ hq)
  | swap _ a b => exact fun q hq => hfits q (by
      rw [List.mem_cons, List.mem_singleton] at hq ⊢
      exact hq.symm)

/-- One operation stores into the frames of the packets and of the pool. -/
theorem UmemMove.stored {s s' : NePair × List NePacket} (h : UmemMove s s') (hs : ∀ pkt ∈ s.2, pkt.Sound)
    (hfs : s.1.frameSize ≠ 0) (hroom : s.1.pool.frames.length + (framesOf s.2).length ≤ s.1.pool.cap) :
    ∃ new, Stored s.1 s'.1 (s.1.pool.frames ++ framesOf s.2) new := by
  cases h with
  | write hw =>
      obtain ⟨new, hst⟩ := nePacketWrite_stored (hs _ (List.mem_cons_self ..)) hfs hw
      refine ⟨new, hst.copies, fun c hc => ?_, hst.mem⟩
      rw [framesOf_cons, ← List.append_assoc]
      exact List.mem_append_left _ (hst.addrs c hc)
  | free p pkt rest =>
      rw [framesOf_cons, List.length_append] at hroom
      rw [nePacketFree_eq (hs _ (List.mem_cons_self ..)) (by dsimp only at *; omega)]
      exact ⟨[], (List.append_nil _).symm, fun _ hc => absurd hc List.not_mem_nil, .refl [] _⟩
  | stamp _ | new _ _ | forget _ _ | swap _ _ _ => exact ⟨[], .refl _ _⟩

/-- Whatever a thread does with its packets, it stores into their frames and those of the
pool, and if every copy stays in its chunk, so do the packets. -/
theorem UmemMoves.stored {s s' : NePair × List NePacket} (h : UmemMoves s s') (hs : ∀ pkt ∈ s.2, pkt.Sound)
    (hfs : s.1.frameSize = neFrame) (hroom : s.1.pool.frames.length + (framesOf s.2).length ≤ s.1.pool.cap) :
    ∃ new, Stored s.1 s'.1 (s.1.pool.frames ++ framesOf s.2) new ∧
      ((∀ pkt ∈ s.2, PktFits pkt) → (∀ c ∈ s'.1.copies, InChunk c.1 c.2) → ∀ pkt ∈ s'.2, PktFits pkt) := by
  have hfs0 : s.1.frameSize ≠ 0 := by rw [hfs]; decide
  induction h with
  | refl => exact ⟨[], .refl _ _, fun hfits _ => hfits⟩
  | tail hmoves hmove ih =>
      obtain ⟨new, hnew, hfits⟩ := ih
      have hk := UmemMoves.allKept hmoves hs hfs0 hroom
      have hlen := hk.frames.length_eq
      rw [List.length_append, List.length_append] at hlen
      obtain ⟨new', hnew'⟩ := hmove.stored hk.sound (by rw [hk.frameSize]; exact hfs0) (by rw [hk.cap]; omega)
      refine ⟨new ++ new', hnew.trans hnew' fun a ha => hk.frames.mem_iff.mp ha, fun hpkts hcopies => ?_⟩
      have hbefore := hfits hpkts fun c hc => hcopies c (by rw [hnew'.copies]; exact List.mem_append_left _ hc)
      exact hmove.fits hbefore hcopies

/-! ## steps -/

section Steps

variable {n : Nat} {s : System}

/-- What processing a packet stores. -/
theorem Processed.stored {fwd fwd' : Forwarder} {pkt : NePacket} {dir : NePacketDir} {slot : Nat}
    {pkts : List NePacket} (hp : Processed fwd pkt fwd' dir slot pkts) (hs : pkt.Sound)
    (hfs : fwd.pair.frameSize = neFrame)
    (hroom : fwd.pair.pool.frames.length + pkt.frames.length ≤ fwd.pair.pool.cap) :
    ∃ new, Stored fwd.pair fwd'.pair (fwd.pair.pool.frames ++ pkt.frames) new ∧
      (PktFits pkt → (∀ c ∈ fwd'.pair.copies, InChunk c.1 c.2) → ∀ q ∈ pkts, PktFits q) := by
  obtain ⟨new, hst, hfits⟩ := hp.moves.stored (fun q hq => by rw [List.mem_singleton.mp hq]; exact hs) hfs
    (by simpa only [framesOf_cons, framesOf_nil, List.append_nil] using hroom)
  refine ⟨new, by simpa only [framesOf_cons, framesOf_nil, List.append_nil] using hst, fun hpkt hcopies => ?_⟩
  exact hfits (fun q hq => by rw [List.mem_singleton.mp hq]; exact hpkt) hcopies

/-- The pool and the packets of one batch and one worker are no more frames than the pool
can take. -/
theorem Conserved.roomFor (h : Conserved n s) (dir : NePacketDir) (w : Nat) :
    s.fwd.pair.pool.frames.length + (framesOf (s.batch dir)).length + (framesOf (s.jobPackets w)).length ≤
      s.fwd.pair.pool.cap := by
  have hroom := h.room ⟨dir, (0, 0), w, dir, 0, 0⟩
  simp only [System.focus, List.length_append] at hroom
  omega

/-- What a step has stored: copies to frames it reaches. -/
def StoredBy (s : System) (a : Action) (new : List (Nat × Nat)) : Prop :=
  (s.act a).fwd.pair.copies = s.fwd.pair.copies ++ new ∧ (∀ c ∈ new, s.Reaches a (chunk c.1)) ∧
    ∀ x, (s.act a).fwd.pair.mem x ≠ s.fwd.pair.mem x →
      s.Reaches a (chunk x) ∨ ∃ c ∈ new, InRegion c x

theorem storedBy_of_same {a : Action} (hc : (s.act a).fwd.pair.copies = s.fwd.pair.copies)
    (hm : (s.act a).fwd.pair.mem = s.fwd.pair.mem) : StoredBy s a [] :=
  ⟨by rw [hc, List.append_nil], fun _ hc => absurd hc List.not_mem_nil, fun x hx => absurd (by rw [hm]) hx⟩

theorem storedBy_of_stored {a : Action} {addrs : List Nat} {new : List (Nat × Nat)}
    (h : Stored s.fwd.pair (s.act a).fwd.pair addrs new) (hreach : ∀ x ∈ addrs, s.Reaches a (chunk x)) :
    StoredBy s a new :=
  ⟨h.copies, fun c hc => hreach _ (h.addrs c hc), fun x hx => .inr (h.mem x hx)⟩

theorem Conserved.process_stored (h : Conserved n s) (env : Env) (w : Nat) :
    ∃ new, StoredBy s (.step (.process env w)) new := by
  cases hj : s.job w with
  | none =>
      have hsame : s.act (.step (.process env w)) = s := by
        simp only [System.act, System.step, System.process, hj]
      exact ⟨[], storedBy_of_same (by rw [hsame]) (by rw [hsame])⟩
  | some j =>
      obtain ⟨dir, pkt⟩ := j
      have hheld : s.jobPackets w = [pkt] := by rw [System.jobPackets, hj]
      have hroom := h.roomFor .local w
      rw [hheld, framesOf_cons, framesOf_nil, List.append_nil] at hroom
      obtain ⟨outDir, slot, pkts, hp⟩ := dataplaneProcess_processed env dir ⟨s.fwd, s.bound dir w pkt, pkt⟩
      obtain ⟨new, hst, -⟩ := hp.stored (h.job w pkt (by rw [hheld]; exact List.mem_cons_self ..)) h.frameSize
        (by dsimp only; omega)
      have hfwd : (s.act (.step (.process env w))).fwd =
          (dataplaneProcess env dir ⟨s.fwd, s.bound dir w pkt, pkt⟩).fwd := by
        simp only [System.act, System.step, System.process, hj]
      refine ⟨new, storedBy_of_stored (by rw [hfwd]; exact hst) fun x hx => ?_⟩
      rcases List.mem_append.mp hx with hx | hx
      · exact .inl (List.mem_map_of_mem hx)
      · refine .inr (List.mem_map_of_mem ?_)
        rw [System.addrs, hheld, framesOf_cons, framesOf_nil, List.append_nil]
        exact hx

theorem Conserved.handOn_stored (h : Conserved n s) (env : Env) (dir : NePacketDir) :
    ∃ new, StoredBy s (.step (.handOn env dir)) new := by
  cases hb : s.batch dir with
  | nil =>
      have hsame : s.act (.step (.handOn env dir)) = s := by
        simp only [System.act, System.step, System.handOn, hb]
        split
        · rename_i heq; cases heq
        · rename_i heq; cases heq
        · rename_i heq; cases heq
        · rfl
      exact ⟨[], storedBy_of_same (by rw [hsame]) (by rw [hsame])⟩
  | cons pkt rest =>
      have hroom := h.roomFor dir 0
      rw [hb, framesOf_cons, List.length_append] at hroom
      have hs := h.batch dir pkt (by rw [hb]; exact List.mem_cons_self ..)
      -- the packet is processed, or given back, or stays as it is
      have hst : ∃ new, Stored s.fwd.pair (s.act (.step (.handOn env dir))).fwd.pair
          (s.fwd.pair.pool.frames ++ pkt.frames) new := by
        simp only [System.act, System.step, System.handOn, hb]
        split
        · rename_i heq
          obtain ⟨rfl, -⟩ := List.cons.inj heq
          split
          · rename_i ring _
            exact ⟨[], by simpa only [System.advance, Forwarder.pair_setToMid] using .refl _ _⟩
          · obtain ⟨new, hst, -⟩ := (processed_of_free pkt).stored hs h.frameSize (by omega)
            exact ⟨new, hst⟩
        · rename_i heq
          obtain ⟨rfl, -⟩ := List.cons.inj heq
          obtain ⟨new, hst, -⟩ := (processed_of_free pkt).stored hs h.frameSize (by omega)
          exact ⟨new, hst⟩
        · rename_i heq
          obtain ⟨rfl, -⟩ := List.cons.inj heq
          obtain ⟨outDir, slot, pkts, hp⟩ := dataplaneProcess_processed env dir ⟨s.fwd, { s.rxSelf dir with
            tls := dpOutRingBind s.fwd.route (dpPickTxSlot s.fwd.route (nePacketData s.fwd.pair pkt.addr)
              pkt.len) (s.rxSelf dir).tls }, pkt⟩
          obtain ⟨new, hst, -⟩ := hp.stored hs h.frameSize (by dsimp only; omega)
          exact ⟨new, hst⟩
        · exact ⟨[], .refl _ _⟩
      obtain ⟨new, hst⟩ := hst
      refine ⟨new, storedBy_of_stored hst fun x hx => ?_⟩
      rcases List.mem_append.mp hx with hx | hx
      · exact .inl (List.mem_map_of_mem hx)
      · refine .inr (List.mem_map_of_mem ?_)
        rw [hb, List.take_succ_cons, List.take_zero, framesOf_cons, framesOf_nil, List.append_nil]
        exact hx

/-- The steps that store nothing into the UMEM. -/
theorem System.step_pair (s : System) {e : Step} (hp : ∀ env w, e ≠ .process env w)
    (hh : ∀ env dir, e ≠ .handOn env dir) :
    (s.step e).fwd.pair.mem = s.fwd.pair.mem ∧ (s.step e).fwd.pair.copies = s.fwd.pair.copies := by
  cases e with
  | prefill dir k want | refill dir k | receive dir k d | recv dir k total | release dir k | drainCq dir k
  | fragGc w now => exact ⟨rfl, rfl⟩
  | fillTake dir k =>
      simp only [System.step, System.fillTake]
      split <;> exact ⟨rfl, rfl⟩
  | txTake dir k =>
      simp only [System.step, System.txTake]
      split <;> exact ⟨rfl, rfl⟩
  | complete dir k n =>
      simp only [System.step, System.complete]
      split <;> exact ⟨rfl, rfl⟩
  | lookup dir =>
      simp only [System.step, System.lookup]
      split
      · split <;> exact ⟨rfl, rfl⟩
      · exact ⟨rfl, rfl⟩
  | pop dir w =>
      simp only [System.step, System.pop]
      split
      · simp only [Forwarder.pair_setToMid]
        exact ⟨trivial, trivial⟩
      · exact ⟨rfl, rfl⟩
  | tx dir iface slot =>
      simp only [System.step, System.tx]
      split
      · split
        · exact ⟨rfl, rfl⟩
        · simp only [Forwarder.pair_setOutRing]
          exact ⟨rfl, rfl⟩
      · exact ⟨rfl, rfl⟩
  | process env w => exact absurd rfl (hp env w)
  | handOn env dir => exact absurd rfl (hh env dir)

/-- Every action stores into frames it reaches. -/
theorem Conserved.act_stored (h : Conserved n s) {a : Action} (hl : ActionLegal s a) :
    ∃ new, StoredBy s a new := by
  cases a with
  | dma mem =>
      exact ⟨[], by rw [List.append_nil]; rfl, fun _ hc => absurd hc List.not_mem_nil, fun x hx => .inl (hl x hx)⟩
  | step e =>
      by_cases hp : ∃ env w, e = .process env w
      · obtain ⟨env, w, rfl⟩ := hp
        exact h.process_stored env w
      by_cases hh : ∃ env dir, e = .handOn env dir
      · obtain ⟨env, dir, rfl⟩ := hh
        exact h.handOn_stored env dir
      obtain ⟨hm, hc⟩ := s.step_pair (fun env w he => hp ⟨env, w, he⟩) fun env dir he => hh ⟨env, dir, he⟩
      exact ⟨[], storedBy_of_same hc hm⟩

theorem Conserved.act_legal (h : Conserved n s) {a : Action} (hl : ActionLegal s a) : Conserved n (s.act a) := by
  cases a with
  | dma mem =>
      exact ⟨h.places, h.cap, h.refused, h.frameSize, h.batch, h.toMid, h.job, h.outRing, h.rx⟩
  | step e => exact h.step hl

end Steps

/-! ## packets in their chunks -/

/-- All packets lie in their chunks, and so do the descriptors to come. -/
structure Boxed (s : System) : Prop where
  queue : ∀ dir k, QueueFits (s.queue dir k)
  batch : ∀ dir, ∀ pkt ∈ s.batch dir, PktFits pkt
  toMid : ∀ dir w, ∀ pkt ∈ (s.fwd.toMid dir w).items, PktFits pkt
  job : ∀ w, ∀ pkt ∈ s.jobPackets w, PktFits pkt
  outRing : ∀ dir i slot, ∀ pkt ∈ (s.fwd.outRing dir i slot).items, PktFits pkt

theorem boxed_init (nFrames : Nat) (mem : Mem) (crypto : PacketCryptoCtx) (ifs : NePacketDir → Ifaces) :
    Boxed (System.init nFrames mem crypto ifs) where
  queue _ _ := queueFits_init
  batch _ _ hpkt := absurd hpkt List.not_mem_nil
  toMid dir _ _ hpkt := by cases dir <;> exact absurd hpkt List.not_mem_nil
  job _ _ hpkt := absurd hpkt List.not_mem_nil
  outRing dir _ _ _ hpkt := by cases dir <;> exact absurd hpkt List.not_mem_nil

theorem pktFits_tagFrom {pkts : List NePacket} (h : ∀ pkt ∈ pkts, PktFits pkt) :
    ∀ tag, ∀ pkt ∈ tagFrom tag pkts, PktFits pkt := by
  induction pkts with
  | nil => exact fun _ _ hpkt => absurd hpkt List.not_mem_nil
  | cons p pkts ih =>
      intro tag pkt hpkt
      rcases List.mem_cons.mp hpkt with rfl | hpkt
      · exact ⟨(h p (List.mem_cons_self ..)).segs, (h p (List.mem_cons_self ..)).whole⟩
      · exact ih (fun q hq => h q (List.mem_cons_of_mem _ hq)) _ pkt hpkt

section Boxes

variable {n : Nat} {s s' : System} {dir : NePacketDir} {k : Nat × Nat} {pkt : NePacket} {rest : List NePacket}

/-- One queue changes. -/
theorem Boxed.setQueue (h : Boxed s) {q : NeXskQueue} (pool : NePool) (hq : QueueFits q) :
    Boxed ((s.setQueue dir k q).setPool pool) := by
  refine { h with queue := fun d j => ?_ }
  have hqueue := s.queue_setQueue dir d k j q
  change QueueFits ((s.setQueue dir k q).queue d j)
  rw [hqueue]
  split
  · exact hq
  · exact h.queue d j

/-- Frames go to and fro between a queue and the pool. -/
theorem Boxed.queueStep (h : Boxed s) {q : NeXskQueue} (pool : NePool) (hview : q.view = (s.queue dir k).view) :
    Boxed ((s.setQueue dir k q).setPool pool) := by
  simp only [NeXskQueue.view, Prod.mk.injEq] at hview
  obtain ⟨hrx, hchain, -⟩ := hview
  obtain ⟨hwait, hch⟩ := h.queue dir k
  exact h.setQueue pool ⟨by rw [hrx]; exact hwait, by rw [hchain]; exact hch⟩

theorem Boxed.recv (h : Boxed s) (total : Nat) : Boxed (s.recv dir k total) := by
  obtain ⟨hwait, hchain⟩ := h.queue dir k
  have hq : QueueFits { s.queue dir k with rxPending := 0 } := ⟨hwait, hchain⟩
  obtain ⟨hfits, -, hout⟩ := hq.recv (neBatchSize - total) (rxStamp dir k.1)
  have hset := @Boxed.setQueue s dir k h _ s.fwd.pair.pool hfits
  refine { hset with batch := fun d pkt hpkt => ?_ }
  by_cases hd : d = dir
  · subst hd
    rw [System.recv] at hpkt
    dsimp only [System.setBatch] at hpkt
    rw [Function.update_self] at hpkt
    rcases List.mem_append.mp hpkt with hpkt | hpkt
    · exact h.batch d pkt hpkt
    · exact pktFits_tagFrom hout _ pkt hpkt
  · rw [System.recv] at hpkt
    dsimp only [System.setBatch] at hpkt
    rw [Function.update_of_ne hd] at hpkt
    exact h.batch d pkt hpkt

theorem Boxed.receive (h : Boxed s) {d : XdpDesc} (hd : InChunk d.addr d.len) :
    Boxed (s.receive dir k d) := by
  obtain ⟨hwait, hch⟩ := h.queue dir k
  refine h.setQueue s.fwd.pair.pool ⟨fun d' hd' => ?_, hch⟩
  simp only [XskRingCons.waiting, XskRingCons.publish, List.mem_append, List.mem_singleton] at hd'
  rcases hd' with hd' | hd' | rfl
  · exact hwait d' (by simp [XskRingCons.waiting, hd'])
  · exact hwait d' (by simp [XskRingCons.waiting, hd'])
  · exact hd

theorem Boxed.lookup (h : Boxed s) : Boxed (s.lookup dir) := by
  rw [System.lookup]
  split
  · rename_i pkt rest _ hb
    have hpkt := h.batch dir pkt (by rw [hb]; exact List.mem_cons_self ..)
    cases dir with
    | wan => exact { h with }
    | «local» =>
        refine { h with batch := fun d q hq => ?_ }
        simp only [System.lookupLocal] at hq
        by_cases hd : d = .local
        · subst hd
          rw [Function.update_self] at hq
          rcases List.mem_cons.mp hq with rfl | hq
          · exact ⟨hpkt.segs, hpkt.whole⟩
          · exact h.batch .local q (by rw [hb]; exact List.mem_cons_of_mem _ hq)
        · rw [Function.update_of_ne hd] at hq
          exact h.batch d q hq
  · exact h

/-- A thread is done with a packet it held. -/
theorem Boxed.processed (h : Boxed s) {fwd' : Forwarder} {outDir : NePacketDir} {slot : Nat}
    {pkts : List NePacket} (hp : Processed s.fwd pkt fwd' outDir slot pkts) (hpkts : ∀ q ∈ pkts, PktFits q)
    (hfwd : s'.fwd = fwd') (hqueue : s'.queue = s.queue) (hbatch : ∀ d, ∀ q ∈ s'.batch d, q ∈ s.batch d)
    (hjob : ∀ w, ∀ q ∈ s'.jobPackets w, q ∈ s.jobPackets w) : Boxed s' where
  queue := by rw [hqueue]; exact h.queue
  batch d q hq := h.batch d q (hbatch d q hq)
  toMid := by rw [hfwd, hp.toMid]; exact h.toMid
  job w q hq := h.job w q (hjob w q hq)
  outRing d i sl q hq := by
    rw [hfwd, hp.outRing] at hq
    split at hq
    · rcases List.mem_append.mp hq with hq | hq
      · exact h.outRing _ _ _ q hq
      · exact hpkts q hq
    · exact h.outRing _ _ _ q hq

/-- What is left of a batch was in it. -/
theorem mem_batch_advance {s : System} (hb : s.batch dir = pkt :: rest) {d : NePacketDir} {q : NePacket}
    (hq : q ∈ Function.update s.batch dir rest d) : q ∈ s.batch d := by
  by_cases hd : d = dir
  · rw [hd, Function.update_self] at hq
    rw [hd, hb]
    exact List.mem_cons_of_mem _ hq
  · rw [Function.update_of_ne hd] at hq
    exact hq

theorem Boxed.handOn (h : Boxed s) (hc : Conserved n s) (env : Env)
    (hcopies : ∀ c ∈ (s.handOn env dir).fwd.pair.copies, InChunk c.1 c.2) : Boxed (s.handOn env dir) := by
  -- the packet is processed, or given back
  have hadvance : ∀ {fwd' : Forwarder} {outDir : NePacketDir} {slot : Nat} {pkts : List NePacket}
      {pkt : NePacket} {rest : List NePacket} {s' : System}, s.batch dir = pkt :: rest →
      Processed s.fwd pkt fwd' outDir slot pkts → s'.fwd = fwd' → s'.queue = s.queue →
      s'.batch = Function.update s.batch dir rest → s'.job = s.job →
      (∀ c ∈ s'.fwd.pair.copies, InChunk c.1 c.2) → Boxed s' := by
    intro fwd' outDir slot pkts pkt rest s' hb hp hfwd hqueue hbatch hjob hfit
    have hmem : pkt ∈ s.batch dir := by rw [hb]; exact List.mem_cons_self ..
    have hroom := hc.roomFor dir 0
    rw [hb, framesOf_cons, List.length_append] at hroom
    obtain ⟨-, -, hfits⟩ := hp.stored (hc.batch dir pkt hmem) hc.frameSize (by omega)
    refine h.processed hp (hfits (h.batch dir pkt hmem) (by rw [← hfwd]; exact hfit)) hfwd hqueue ?_ ?_
    · intro d q hq
      rw [hbatch] at hq
      exact mem_batch_advance hb hq
    · intro w q hq
      rw [System.jobPackets, hjob] at hq
      exact hq
  revert hcopies
  rw [System.handOn]
  split
  · rename_i w pkt rest _ hb
    cases hring : neRingTryPush (s.fwd.toMid dir w) pkt with
    | none => exact fun hcopies => hadvance hb (processed_of_free pkt) rfl rfl rfl rfl hcopies
    | some ring =>
        refine fun _ => ⟨h.queue, fun d q hq => h.batch d q (mem_batch_advance hb hq), fun d v q hq => ?_,
          fun v q hq => h.job v q hq, fun d i sl q hq => ?_⟩
        · change q ∈ ((s.fwd.setToMid dir w ring).toMid d v).items at hq
          rw [Forwarder.toMid_setToMid, neRingTryPush_eq_some hring] at hq
          split at hq
          · rcases List.mem_append.mp hq with hq | hq
            · exact h.toMid dir w q hq
            · rw [List.mem_singleton.mp hq]
              exact h.batch dir pkt (by rw [hb]; exact List.mem_cons_self ..)
          · exact h.toMid d v q hq
        · change q ∈ ((s.fwd.setToMid dir w ring).outRing d i sl).items at hq
          rw [Forwarder.outRing_setToMid] at hq
          exact h.outRing d i sl q hq
  · rename_i pkt rest _ hb
    exact fun hcopies => hadvance hb (processed_of_free pkt) rfl rfl rfl rfl hcopies
  · rename_i pkt rest _ hb
    obtain ⟨outDir, slot, pkts, hp⟩ := dataplaneProcess_processed env dir ⟨s.fwd, { s.rxSelf dir with
      tls := dpOutRingBind s.fwd.route (dpPickTxSlot s.fwd.route (nePacketData s.fwd.pair pkt.addr)
        pkt.len) (s.rxSelf dir).tls }, pkt⟩
    exact fun hcopies => hadvance hb hp rfl rfl rfl rfl hcopies
  · exact fun _ => h

theorem Boxed.pop (h : Boxed s) (w : Nat) : Boxed (s.pop dir w) := by
  rw [System.pop]
  split
  · rename_i pkt ring hj hpop
    have hitems := neRingTryPop_eq_some hpop
    have hpkt : PktFits pkt := h.toMid dir w pkt (by rw [hitems]; exact List.mem_cons_self ..)
    refine ⟨h.queue, h.batch, fun d v q hq => ?_, fun v q hq => ?_, fun d i sl q hq => ?_⟩
    · change q ∈ ((s.fwd.setToMid dir w ring).toMid d v).items at hq
      rw [Forwarder.toMid_setToMid] at hq
      split at hq
      · exact h.toMid dir w q (by rw [hitems]; exact List.mem_cons_of_mem _ hq)
      · exact h.toMid d v q hq
    · simp only [System.jobPackets] at hq
      by_cases hv : v = w
      · rw [hv, Function.update_self] at hq
        rw [List.mem_singleton.mp hq]
        exact hpkt
      · rw [Function.update_of_ne hv] at hq
        exact h.job v q hq
    · change q ∈ ((s.fwd.setToMid dir w ring).outRing d i sl).items at hq
      rw [Forwarder.outRing_setToMid] at hq
      exact h.outRing d i sl q hq
  · exact h

theorem Boxed.process (h : Boxed s) (hc : Conserved n s) (env : Env) (w : Nat)
    (hcopies : ∀ c ∈ (s.process env w).fwd.pair.copies, InChunk c.1 c.2) : Boxed (s.process env w) := by
  revert hcopies
  rw [System.process]
  cases hj : s.job w with
  | none => exact fun _ => h
  | some j =>
      obtain ⟨d, pkt⟩ := j
      dsimp only
      obtain ⟨outDir, slot, pkts, hp⟩ := dataplaneProcess_processed env d ⟨s.fwd, s.bound d w pkt, pkt⟩
      generalize dataplaneProcess env d ⟨s.fwd, s.bound d w pkt, pkt⟩ = j' at hp
      intro hcopies
      have hheld : s.jobPackets w = [pkt] := by rw [System.jobPackets, hj]
      have hmem : pkt ∈ s.jobPackets w := by rw [hheld]; exact List.mem_cons_self ..
      have hroom := hc.roomFor .local w
      rw [hheld, framesOf_cons, framesOf_nil, List.append_nil] at hroom
      obtain ⟨-, -, hfits⟩ := hp.stored (hc.job w pkt hmem) hc.frameSize (by dsimp only; omega)
      refine h.processed hp (hfits (h.job w pkt hmem) hcopies) rfl rfl (fun _ _ hq => hq) fun v q hq => ?_
      simp only [System.jobPackets] at hq
      by_cases hv : v = w
      · rw [hv, Function.update_self] at hq
        exact absurd hq List.not_mem_nil
      · rw [Function.update_of_ne hv] at hq
        exact hq

theorem Boxed.tx (h : Boxed s) (iface slot : Nat) : Boxed (s.tx dir iface slot) := by
  rw [System.tx]
  split
  · split
    · exact h
    · rename_i q _
      obtain ⟨hrx, hchain, hitems, -⟩ := txRound_view (s.queue dir (iface, q)) (s.fwd.outRing dir iface slot)
        s.fwd.pair.pool s.fwd.pair.frameSize
      obtain ⟨hwait, hch⟩ := h.queue dir (iface, q)
      have hset := @Boxed.setQueue s dir (iface, q) h _ (txRound (s.queue dir (iface, q))
        (s.fwd.outRing dir iface slot) s.fwd.pair.pool s.fwd.pair.frameSize).2.2.2
        ⟨by rw [hrx]; exact hwait, by rw [hchain]; exact hch⟩
      refine ⟨hset.queue, hset.batch, ?_, hset.job, fun d i sl p hp => ?_⟩
      · dsimp only
        rw [Forwarder.toMid_setOutRing]
        exact hset.toMid
      · dsimp only at hp
        rw [Forwarder.outRing_setOutRing] at hp
        split at hp
        · exact h.outRing dir iface slot p (hitems p hp)
        · exact hset.outRing d i sl p hp
  · exact h

/-- An action whose copies stay in their chunks leaves all packets in theirs. -/
theorem Boxed.act (h : Boxed s) (hc : Conserved n s) {a : Action} (hl : ActionLegal s a)
    (hcopies : ∀ c ∈ (s.act a).fwd.pair.copies, InChunk c.1 c.2) : Boxed (s.act a) := by
  cases a with
  | dma mem => exact { h with }
  | step e =>
      cases e with
      | prefill dir k want => exact h.queueStep _ (prefillQueue_view ..)
      | refill dir k =>
          obtain ⟨fq, hfq⟩ := refillFqQueue_fst (s.queue dir k) s.fwd.pair.pool
          exact h.queueStep _ (by rw [hfq]; rfl)
      | fillTake dir k =>
          simp only [System.act, System.step, System.fillTake]
          split
          · exact h
          · exact h.queueStep s.fwd.pair.pool rfl
      | receive dir k d => exact h.receive hl.2.2.1
      | recv dir k total => exact h.recv total
      | release dir k => exact h.queueStep _ (releaseRxQueue_view ..)
      | lookup dir => exact h.lookup
      | handOn env dir => exact h.handOn hc env hcopies
      | pop dir w => exact h.pop w
      | process env w => exact h.process hc env w hcopies
      | fragGc w now => exact { h with }
      | tx dir iface slot => exact h.tx iface slot
      | txTake dir k =>
          simp only [System.act, System.step, System.txTake]
          split
          · exact h
          · exact h.queueStep s.fwd.pair.pool rfl
      | complete dir k m =>
          simp only [System.act, System.step, System.complete]
          split
          · exact h
          · exact h.queueStep s.fwd.pair.pool rfl
      | drainCq dir k => exact h.queueStep _ (drainCq_view ..)

end Boxes

/-! ## on the way out -/

/-- The addresses to be sent on a queue: those in the TX ring and those the driver took. -/
def NeXskQueue.sending (q : NeXskQueue) : List Nat := q.tx.entries.map XdpDesc.addr ++ q.driverTx

/-- The frame is in an output ring or being sent. -/
def System.Outbound (s : System) (c : Nat) : Prop :=
  (∃ dir i slot, c ∈ s.frames (.outRing dir i slot)) ∨ ∃ dir k, c ∈ (s.queue dir k).sending.map chunk

/-- The driver is done with a frame of the list. -/
def System.Completes (s : System) (cs : List Nat) : Action → Prop
  | .step (.complete dir k m) => ∃ a, (s.queue dir k).driverTx[m]? = some a ∧ chunk a ∈ cs
  | _ => False

section Outbound

variable {n : Nat} {s s' : System} {dir : NePacketDir} {k : Nat × Nat} {c : Nat}

/-- Nobody reaches what is on its way out. -/
theorem Conserved.outbound_unreached (h : Conserved n s) (ho : s.Outbound c) (a : Action) : ¬ s.Reaches a c := by
  have hplace : ∃ p : Place, c ∈ s.frames p ∧ p ≠ .pool ∧ (∀ dir k, p ≠ .driverRx dir k) ∧
      (∀ dir, p ≠ .batch dir) ∧ ∀ w, p ≠ .job w := by
    rcases ho with ⟨dir, i, slot, hc⟩ | ⟨dir, k, hc⟩
    · exact ⟨.outRing dir i slot, hc, by simp, by simp, by simp, by simp⟩
    · rw [NeXskQueue.sending, List.map_append] at hc
      rcases List.mem_append.mp hc with hc | hc
      · exact ⟨.tx dir k, hc, by simp, by simp, by simp, by simp⟩
      · exact ⟨.driverTx dir k, hc, by simp, by simp, by simp, by simp⟩
  obtain ⟨p, hc, hpool, hrx, hbatch, hjob⟩ := hplace
  have hapart : ∀ {p'}, p ≠ p' → c ∉ s.frames p' := fun hne hc' => h.places.disjoint p _ hne hc hc'
  cases a with
  | dma mem => exact fun ⟨dir, k, hr⟩ => hapart (hrx dir k) hr
  | step e =>
      cases e with
      | process env w => exact fun hr => hr.elim (hapart hpool) (hapart (hjob w))
      | handOn env dir =>
          refine fun hr => hr.elim (hapart hpool) fun hr => hapart (hbatch dir) ?_
          obtain ⟨a, ha, rfl⟩ := List.mem_map.mp hr
          obtain ⟨pkt, hpkt, ha⟩ := List.mem_flatMap.mp ha
          exact List.mem_map_of_mem (List.mem_flatMap.mpr ⟨pkt, List.mem_of_mem_take hpkt, ha⟩)
      | _ => exact fun hr => hr

/-- What leaves neither the output rings nor the senders' lists stays on its way. -/
theorem System.Outbound.mono (ho : s.Outbound c)
    (hout : ∀ dir i slot, ∀ pkt ∈ (s.fwd.outRing dir i slot).items, pkt ∈ (s'.fwd.outRing dir i slot).items)
    (hq : ∀ dir k, ∀ a ∈ (s.queue dir k).sending, a ∈ (s'.queue dir k).sending) : s'.Outbound c := by
  rcases ho with ⟨dir, i, slot, hc⟩ | ⟨dir, k, hc⟩
  · obtain ⟨a, ha, rfl⟩ := List.mem_map.mp hc
    obtain ⟨pkt, hpkt, ha⟩ := List.mem_flatMap.mp ha
    exact .inl ⟨dir, i, slot, List.mem_map_of_mem (List.mem_flatMap.mpr ⟨pkt, hout dir i slot pkt hpkt, ha⟩)⟩
  · obtain ⟨a, ha, rfl⟩ := List.mem_map.mp hc
    exact .inr ⟨dir, k, List.mem_map_of_mem (hq dir k a ha)⟩

/-- A step on one queue. -/
theorem System.Outbound.setQueue (ho : s.Outbound c) {q : NeXskQueue} (pool : NePool)
    (hq : ∀ a ∈ (s.queue dir k).sending, a ∈ q.sending) : ((s.setQueue dir k q).setPool pool).Outbound c := by
  refine ho.mono (fun _ _ _ _ h => h) fun d j a ha => ?_
  change a ∈ ((s.setQueue dir k q).queue d j).sending
  rw [System.queue_setQueue]
  split
  · rename_i heq
    rw [heq.1, heq.2] at ha
    exact hq a ha
  · exact ha

/-- A step that processes a packet or gives it back. -/
theorem System.Outbound.processed (ho : s.Outbound c) {fwd' : Forwarder} {outDir : NePacketDir} {slot : Nat}
    {pkt : NePacket} {pkts : List NePacket} (hp : Processed s.fwd pkt fwd' outDir slot pkts)
    (hfwd : s'.fwd = fwd') (hqueue : s'.queue = s.queue) : s'.Outbound c := by
  refine ho.mono (fun d i sl q hq => ?_) fun d j a ha => by rw [hqueue]; exact ha
  rw [hfwd, hp.outRing]
  split
  · rename_i heq
    rw [heq.1, heq.2.1, heq.2.2] at hq
    exact List.mem_append_left _ hq
  · exact hq

/-- A round of `tx_drain_queue` moves a packet from its ring to the TX ring. -/
theorem txRound_sending {q : NeXskQueue} {src : NeRing} {pool : NePool} {maxFrame : Nat}
    (hs : ∀ job ∈ src.items, Sendable job) :
    (∀ a ∈ q.sending, a ∈ (txRound q src pool maxFrame).2.1.sending) ∧
      ∀ job ∈ src.items, job ∈ (txRound q src pool maxFrame).2.2.1.items ∨
        ∀ a ∈ job.frames, a ∈ (txRound q src pool maxFrame).2.1.sending := by
  rw [txRound]
  split
  · exact ⟨fun _ ha => ha, fun _ hj => .inl hj⟩
  · rename_i hfree
    rw [neRingTryPop]
    cases hi : src.items with
    | nil => exact ⟨fun _ ha => ha, fun _ hj => by cases hj⟩
    | cons job rest =>
        rw [hi] at hs
        have hjob := hs job (List.mem_cons_self ..)
        have hsegs := hjob.txSegs
        have hsend : ¬ (job.txSegs > nePacketMaxSegs ∨ job.len > neJumboFrameMax ∨
            xskRingProdReserve q.tx job.txSegs ≠ job.txSegs) := by
          have := hjob.len
          have hres : xskRingProdReserve q.tx job.txSegs = job.txSegs := if_neg (by omega)
          omega
        simp only [if_neg hsend, NeXskQueue.sending, xskRingProdSubmit, List.map_append, addr_txDescs]
        refine ⟨fun a ha => ?_, fun j hj => ?_⟩
        · rcases List.mem_append.mp ha with ha | ha
          · exact List.mem_append_left _ (List.mem_append_left _ ha)
          · exact List.mem_append_right _ ha
        · rcases List.mem_cons.mp hj with rfl | hj
          · refine .inr fun a ha => List.mem_append_left _ (List.mem_append_right _ ?_)
            have hn : j.nsegs ≠ 0 := by
              intro h0
              rw [NePacket.frames, h0] at ha
              exact absurd ha List.not_mem_nil
            rw [NePacket.txSegs, if_pos hn]
            exact ha
          · exact .inl hj

theorem System.Outbound.tx (ho : s.Outbound c) (hw : Wired s) (iface slot : Nat) :
    (s.tx dir iface slot).Outbound c := by
  rw [System.tx]
  split
  · split
    · exact ho
    · rename_i q _
      obtain ⟨hkeep, hmove⟩ := @txRound_sending (s.queue dir (iface, q)) (s.fwd.outRing dir iface slot)
        s.fwd.pair.pool s.fwd.pair.frameSize fun job hjob => (hw.out dir iface slot job hjob).1
      dsimp only
      generalize txRound (s.queue dir (iface, q)) (s.fwd.outRing dir iface slot) s.fwd.pair.pool
        s.fwd.pair.frameSize = r at hkeep hmove
      have hqueue : ∀ d j, ∀ a ∈ (s.queue d j).sending,
          a ∈ ((s.setQueue dir (iface, q) r.2.1).queue d j).sending := by
        intro d j a ha
        rw [System.queue_setQueue]
        split
        · rename_i heq
          rw [heq.1, heq.2] at ha
          exact hkeep a ha
        · exact ha
      rcases ho with ⟨d, i, sl, hc⟩ | ⟨d, j, hc⟩
      · obtain ⟨a, ha, rfl⟩ := List.mem_map.mp hc
        obtain ⟨pkt, hpkt, ha⟩ := List.mem_flatMap.mp ha
        by_cases hhere : d = dir ∧ i = iface ∧ sl = slot
        · obtain ⟨rfl, rfl, rfl⟩ := hhere
          rcases hmove pkt hpkt with hstay | hsent
          · refine .inl ⟨d, i, sl, List.mem_map_of_mem (List.mem_flatMap.mpr ⟨pkt, ?_, ha⟩)⟩
            dsimp only
            rw [Forwarder.outRing_setOutRing, if_pos ⟨rfl, rfl, rfl⟩]
            exact hstay
          · refine .inr ⟨d, (i, q), List.mem_map_of_mem ?_⟩
            change a ∈ ((s.setQueue d (i, q) r.2.1).queue d (i, q)).sending
            rw [System.queue_setQueue, if_pos ⟨rfl, rfl⟩]
            exact hsent a ha
        · refine .inl ⟨d, i, sl, List.mem_map_of_mem (List.mem_flatMap.mpr ⟨pkt, ?_, ha⟩)⟩
          dsimp only
          rw [Forwarder.outRing_setOutRing, if_neg hhere]
          exact hpkt
      · obtain ⟨a, ha, rfl⟩ := List.mem_map.mp hc
        exact .inr ⟨d, j, List.mem_map_of_mem (hqueue d j a ha)⟩
  · exact ho

theorem System.Outbound.handOn (ho : s.Outbound c) (env : Env) : (s.handOn env dir).Outbound c := by
  rw [System.handOn]
  split
  · rename_i w pkt rest _ _
    cases hring : neRingTryPush (s.fwd.toMid dir w) pkt with
    | none => exact ho.processed (processed_of_free pkt) rfl rfl
    | some ring =>
        refine ho.mono (fun d i sl q hq => ?_) fun _ _ _ ha => ha
        change q ∈ ((s.fwd.setToMid dir w ring).outRing d i sl).items
        rw [Forwarder.outRing_setToMid]
        exact hq
  · rename_i pkt rest _ _
    exact ho.processed (processed_of_free pkt) rfl rfl
  · rename_i pkt rest _ _
    obtain ⟨outDir, slot, pkts, hp⟩ := dataplaneProcess_processed env dir ⟨s.fwd, { s.rxSelf dir with
      tls := dpOutRingBind s.fwd.route (dpPickTxSlot s.fwd.route (nePacketData s.fwd.pair pkt.addr)
        pkt.len) (s.rxSelf dir).tls }, pkt⟩
    exact ho.processed hp rfl rfl
  · exact ho

theorem System.Outbound.process (ho : s.Outbound c) (env : Env) (w : Nat) : (s.process env w).Outbound c := by
  rw [System.process]
  cases s.job w with
  | none => exact ho
  | some j =>
      obtain ⟨d, pkt⟩ := j
      obtain ⟨outDir, slot, pkts, hp⟩ := dataplaneProcess_processed env d ⟨s.fwd, s.bound d w pkt, pkt⟩
      exact ho.processed hp rfl rfl

theorem System.Outbound.pop (ho : s.Outbound c) (w : Nat) : (s.pop dir w).Outbound c := by
  rw [System.pop]
  split
  · refine ho.mono (fun d i sl q hq => ?_) fun _ _ _ ha => ha
    dsimp only
    rw [Forwarder.outRing_setToMid]
    exact hq
  · exact ho

theorem System.Outbound.lookup (ho : s.Outbound c) : (s.lookup dir).Outbound c := by
  rw [System.lookup]
  split
  · split <;> exact ho.mono (fun _ _ _ _ h => h) fun _ _ _ ha => ha
  · exact ho

/-- The driver takes the first descriptor. -/
theorem System.Outbound.txTake (ho : s.Outbound c) : (s.txTake dir k).Outbound c := by
  rw [System.txTake]
  dsimp only
  split
  · exact ho
  · rename_i d rest hd
    refine ho.setQueue s.fwd.pair.pool fun a ha => ?_
    rw [NeXskQueue.sending, hd, List.map_cons, List.cons_append] at ha
    simp only [NeXskQueue.sending]
    rcases List.mem_cons.mp ha with rfl | ha
    · exact List.mem_append_right _ (List.mem_append_right _ (List.mem_singleton_self _))
    · rcases List.mem_append.mp ha with ha | ha
      · exact List.mem_append_left _ ha
      · exact List.mem_append_right _ (List.mem_append_left _ ha)

/-- What the driver completes is another frame. -/
theorem System.Outbound.complete (ho : s.Outbound c) {m : Nat}
    (hno : ¬ s.Completes [c] (.step (.complete dir k m))) : (s.complete dir k m).Outbound c := by
  rw [System.complete]
  split
  · exact ho
  · rename_i a ha
    have hne : chunk a ≠ c := fun heq => hno ⟨a, ha, by rw [heq]; exact List.mem_singleton_self c⟩
    rcases ho with hring | ⟨d, j, hc⟩
    · exact .inl hring
    · obtain ⟨x, hx, rfl⟩ := List.mem_map.mp hc
      refine .inr ⟨d, j, List.mem_map_of_mem ?_⟩
      rw [System.queue_setQueue]
      split
      · rename_i heq
        rw [heq.1, heq.2] at hx
        rcases List.mem_append.mp hx with hx | hx
        · exact List.mem_append_left _ hx
        · refine List.mem_append_right _ ((List.mem_eraseIdx_iff_getElem? ..).mpr ?_)
          obtain ⟨i, hi⟩ := List.mem_iff_getElem?.mp hx
          refine ⟨i, fun him => hne ?_, hi⟩
          rw [him, ha] at hi
          rw [Option.some.inj hi]
      · exact hx

/-- Whatever has no business with the TX half of a queue leaves what is to be sent. -/
theorem sending_of_withTx {f : NeXskQueue → NeXskQueue} (h : ∀ half q, f (q.withTx half) = (f q).withTx half)
    (q : NeXskQueue) : (f q).sending = q.sending := by
  have hself : f q = (f q).withTx ⟨q.tx, q.cq, q.driverTx, q.sent⟩ := h ⟨q.tx, q.cq, q.driverTx, q.sent⟩ q
  exact (congrArg NeXskQueue.sending hself).trans rfl

/-- A frame that is on its way out stays there until the driver completes it. -/
theorem System.Outbound.act (ho : s.Outbound c) (hc : Conserved n s) (hw : Wired s) {a : Action}
    (hno : ¬ s.Completes [c] a) : (s.act a).Outbound c := by
  cases a with
  | dma mem => exact ho.mono (fun _ _ _ _ h => h) fun _ _ _ ha => ha
  | step e =>
      cases e with
      | prefill dir k want =>
          obtain ⟨fq, hfq⟩ := (@prefillQueue_filled want want (s.queue dir k) s.fwd.pair.pool
            (by have := hc.frames_length_le dir k; omega)).queue
          exact ho.setQueue _ fun _ ha => by rw [hfq]; exact ha
      | refill dir k =>
          obtain ⟨fq, hfq⟩ := refillFqQueue_fst (s.queue dir k) s.fwd.pair.pool
          exact ho.setQueue _ fun _ ha => by rw [hfq]; exact ha
      | fillTake dir k =>
          simp only [System.act, System.step, System.fillTake]
          split
          · exact ho
          · exact ho.setQueue s.fwd.pair.pool fun _ ha => ha
      | receive dir k d => exact ho.setQueue s.fwd.pair.pool fun _ ha => ha
      | recv dir k total =>
          have hsame := sending_of_withTx (f := fun q => (recvQueue { q with rxPending := 0 } (neBatchSize - total)
            (rxStamp dir k.1)).1)
            (fun half q => congrArg Prod.fst (recvQueue_withTx half { q with rxPending := 0 } _ _)) (s.queue dir k)
          exact ho.setQueue s.fwd.pair.pool fun _ ha => by rw [hsame]; exact ha
      | release dir k =>
          have hsame := sending_of_withTx (f := fun q => (releaseRxQueue q s.fwd.pair.pool).1)
            (fun half q => congrArg Prod.fst (releaseRxQueue_withTx half q _)) (s.queue dir k)
          exact ho.setQueue _ fun _ ha => by rw [hsame]; exact ha
      | lookup dir => exact ho.lookup
      | handOn env dir => exact ho.handOn env
      | pop dir w => exact ho.pop w
      | process env w => exact ho.process env w
      | fragGc w now => exact ho.mono (fun _ _ _ _ h => h) fun _ _ _ ha => ha
      | tx dir iface slot => exact ho.tx hw iface slot
      | txTake dir k => exact ho.txTake
      | complete dir k m => exact ho.complete hno
      | drainCq dir k =>
          have hroom := hc.frames_length_le dir k
          simp only [NeXskQueue.owned, List.length_append] at hroom
          obtain ⟨cq, hcq⟩ := (drainCq_drained ((s.queue dir k).cq.waiting.length + 1) (s.queue dir k)
            s.fwd.pair.pool (by omega)).queue
          exact ho.setQueue _ fun _ ha => by rw [drainCqQueue, hcq]; exact ha

end Outbound

/-! ## runs -/

section Runs

variable {n : Nat} {s : System} {as : List Action} {cs : List Nat}

theorem Conserved.acts (h : Conserved n s) (hl : Along System.act ActionLegal s as) :
    Conserved n (run System.act s as) :=
  (Along.invariant (Q := fun _ _ => True) (fun _ _ hc hl => ⟨hc.act_legal hl, trivial⟩) h hl).1

/-- Where a frame that no action of a run reaches has changed, a copy of the run has left
its chunk. -/
theorem Conserved.acts_stored : ∀ {s : System}, Conserved n s → Along System.act ActionLegal s as →
    ∃ new, (run System.act s as).fwd.pair.copies = s.fwd.pair.copies ++ new ∧
      ∀ i, Along System.act (fun s a => ¬ s.Reaches a (chunk i)) s as →
        (run System.act s as).fwd.pair.mem i ≠ s.fwd.pair.mem i →
          ∃ x ∈ new, InRegion x i ∧ ¬ InChunk x.1 x.2 := by
  induction as with
  | nil => exact fun _ _ => ⟨[], (List.append_nil _).symm, fun _ _ hne => absurd rfl hne⟩
  | cons a as ih =>
      intro s h hl
      obtain ⟨new, hcopies, hreached, hmem⟩ := h.act_stored hl.1
      obtain ⟨rest, hrest, hlater⟩ := ih (h.act_legal hl.1) hl.2
      refine ⟨new ++ rest, by rw [run_cons, hrest, hcopies, List.append_assoc], fun i hi hne => ?_⟩
      by_cases hnow : (s.act a).fwd.pair.mem i = s.fwd.pair.mem i
      · obtain ⟨x, hx, hcross⟩ := hlater i hi.2 (by rw [hnow]; exact hne)
        exact ⟨x, List.mem_append_right _ hx, hcross⟩
      · rcases hmem i hnow with hr | ⟨x, hx, hin⟩
        · exact absurd hr hi.1
        · refine ⟨x, List.mem_append_left _ hx, hin, fun hfit => hi.1 ?_⟩
          -- a copy in its chunk would have been to a frame the action reaches
          have hsame : chunk i = chunk x.1 := hin.div_eq hfit
          rw [hsame]
          exact hreached x hx

/-- Copies that stay in their chunks leave all packets in theirs. -/
theorem Boxed.acts : ∀ {s : System}, Boxed s → Conserved n s → Along System.act ActionLegal s as →
    (∀ x ∈ (run System.act s as).fwd.pair.copies, InChunk x.1 x.2) → Boxed (run System.act s as) := by
  induction as with
  | nil => exact fun hb _ _ _ => hb
  | cons a as ih =>
      intro s hb h hl hfit
      obtain ⟨rest, hrest, -⟩ := (h.act_legal hl.1).acts_stored hl.2
      refine ih (hb.act h hl.1 fun x hx => hfit x ?_) (h.act_legal hl.1) hl.2 hfit
      rw [run_cons, hrest]
      exact List.mem_append_left _ hx

/-- Frames that are on their way out stay there, out of reach, as long as the driver
completes none of them. -/
theorem outbound_acts (h : Conserved n s) (hf : Flowing s) (ho : ∀ c ∈ cs, s.Outbound c)
    (hl : Along System.act ActionLegal s as) (hno : Along System.act (fun s a => ¬ s.Completes cs a) s as) :
    (∀ c ∈ cs, (run System.act s as).Outbound c) ∧
      Along System.act (fun s a => ∀ c ∈ cs, ¬ s.Reaches a c) s as := by
  have hstep : ∀ (s : System) (a : Action), (Conserved n s ∧ Flowing s ∧ ∀ c ∈ cs, s.Outbound c) →
      (ActionLegal s a ∧ ¬ s.Completes cs a) →
      (Conserved n (s.act a) ∧ Flowing (s.act a) ∧ ∀ c ∈ cs, (s.act a).Outbound c) ∧
        ∀ c ∈ cs, ¬ s.Reaches a c := by
    rintro s a ⟨h, hf, ho⟩ ⟨hl, hno⟩
    refine ⟨⟨h.act_legal hl, hf.act a, fun c hc => (ho c hc).act h hf.wired fun hone => hno ?_⟩,
      fun c hc => h.outbound_unreached (ho c hc) a⟩
    cases a with
    | dma mem => exact hone
    | step e =>
        cases e with
        | complete dir k m =>
            obtain ⟨x, hx, hxc⟩ := hone
            exact ⟨x, hx, by rw [List.mem_singleton.mp hxc]; exact hc⟩
        | _ => exact hone
  obtain ⟨hend, hall⟩ := Along.invariant hstep ⟨h, hf, ho⟩ (hl.and hno)
  exact ⟨hend.2.2, hall⟩

end Runs

/-- The frames of the UMEM are apart: in every run of the threads, the drivers and the
NICs, a byte of a frame that none of the actions reaches changes only where a copy that
began in another frame has run past the end of that frame. -/
theorem frames_untouched (nFrames : Nat) (mem : Mem) (crypto : PacketCryptoCtx) (ifs : NePacketDir → Ifaces)
    (before as : List Action) (i : Nat)
    (hbefore : Along System.act ActionLegal (System.init nFrames mem crypto ifs) before)
    (hlegal : Along System.act ActionLegal (System.after nFrames mem crypto ifs before) as)
    (hreach : Along System.act (fun s a => ¬ s.Reaches a (chunk i))
      (System.after nFrames mem crypto ifs before) as) :
    (System.after nFrames mem crypto ifs (before ++ as)).fwd.pair.mem i =
        (System.after nFrames mem crypto ifs before).fwd.pair.mem i ∨
      ∃ x ∈ (System.after nFrames mem crypto ifs (before ++ as)).fwd.pair.copies.drop
          (System.after nFrames mem crypto ifs before).fwd.pair.copies.length,
        InRegion x i ∧ ¬ InChunk x.1 x.2 := by
  have hc : Conserved nFrames (System.after nFrames mem crypto ifs before) :=
    (conserved_init nFrames mem crypto ifs).acts hbefore
  obtain ⟨new, hnew, hcross⟩ := hc.acts_stored hlegal
  have hrun : System.after nFrames mem crypto ifs (before ++ as) =
      run System.act (System.after nFrames mem crypto ifs before) as := run_append _ _ _
  rw [hrun, hnew, List.drop_left, or_iff_not_imp_left]
  exact hcross i hreach

/-- A UDP frame from the LAN is received and given to a worker. -/
def sampleReceived (env : Env) : List Action :=
  [.step (.prefill .local (0, 0) 2), .step (.fillTake .local (0, 0)), .dma sampleFrame,
    .step (.receive .local (0, 0) ⟨256, 60, false⟩), .step (.recv .local (0, 0) 0), .step (.release .local (0, 0)),
    .step (.lookup .local), .step (.handOn env .local), .step (.pop .local 0)]

/-- The worker processes it, and it is sent. -/
def sampleSent (env : Env) : List Action :=
  [.step (.process env 0), .step (.tx .wan 0 0), .step (.txTake .wan (0, 0))]

theorem sampleReceived_legal (env : Env) : Along System.act ActionLegal
    (System.init 4 (fun _ => 0) (packetCryptoInit coreKey) sampleIfs) (sampleReceived env) := by
  refine ⟨trivial, trivial, fun x hx => ⟨.local, (0, 0), ?_⟩, ⟨⟨0, ?_, ?_⟩, ?_, ?_, ?_⟩, trivial, trivial,
    trivial, trivial, trivial, trivial⟩
  · have hin : chunk x = 0 := by
      refine Nat.div_eq_of_lt ?_
      by_contra hge
      refine hx (?_ : sampleFrame x = 0)
      simp only [neFrame] at hge
      simp only [sampleFrame]
      repeat rw [if_neg (by omega)]
    rw [hin]
    decide +kernel
  · decide +kernel
  · decide
  · decide
  · decide
  · decide +kernel

/-- No kernel is needed to process and send it. -/
theorem sampleSent_legal (env : Env) (s : System) : Along System.act ActionLegal s (sampleSent env) :=
  ⟨trivial, trivial, trivial, trivial⟩

/-- The second frame stays in the fill ring. -/
theorem frames_untouched_sample :
    (System.after 4 (fun _ => 0) (packetCryptoInit coreKey) sampleIfs
        (sampleReceived (sampleEnv 0) ++ sampleSent (sampleEnv 0))).fwd.pair.mem.read neFrame neFrame =
      (System.after 4 (fun _ => 0) (packetCryptoInit coreKey) sampleIfs
        (sampleReceived (sampleEnv 0))).fwd.pair.mem.read neFrame neFrame := by
  refine Mem.read_eq_read_iff.mpr fun i hi => ?_
  have hchunk : chunk (neFrame + i) = 1 := by
    rw [chunk, Nat.add_div_left _ (by decide), Nat.div_eq_of_lt hi]
  have hreach : Along System.act (fun s a => ¬ s.Reaches a (chunk (neFrame + i))) (System.after 4 (fun _ => 0)
      (packetCryptoInit coreKey) sampleIfs (sampleReceived (sampleEnv 0))) (sampleSent (sampleEnv 0)) := by
    rw [hchunk]
    refine ⟨?_, fun hr => hr, fun hr => hr, trivial⟩
    change ¬ (_ ∨ _)
    decide +kernel
  have hfits : ∀ x ∈ (System.after 4 (fun _ => 0) (packetCryptoInit coreKey) sampleIfs
      (sampleReceived (sampleEnv 0) ++ sampleSent (sampleEnv 0))).fwd.pair.copies, InChunk x.1 x.2 := by
    decide +kernel
  rcases frames_untouched 4 (fun _ => 0) (packetCryptoInit coreKey) sampleIfs (sampleReceived (sampleEnv 0))
    (sampleSent (sampleEnv 0)) (neFrame + i) (sampleReceived_legal _) (sampleSent_legal _ _) hreach with
    hsame | ⟨x, hx, -, hleft⟩
  · exact hsame
  · exact absurd (hfits x (List.mem_of_mem_drop hx)) hleft

/-- A packet in an output ring is as good as sent: until the driver completes one of its
frames, they stay on their way out and nothing is stored into them, so that whenever
the NIC reads one of the descriptors, it reads what was put into the ring. -/
theorem sent_intact (nFrames : Nat) (mem : Mem) (crypto : PacketCryptoCtx) (ifs : NePacketDir → Ifaces)
    (before as : List Action) (dir : NePacketDir) (iface slot : Nat) (pkt : NePacket)
    (hbefore : Along System.act ActionLegal (System.init nFrames mem crypto ifs) before)
    (hpkt : pkt ∈ ((System.after nFrames mem crypto ifs before).fwd.outRing dir iface slot).items)
    (hlegal : Along System.act ActionLegal (System.after nFrames mem crypto ifs before) as)
    (hno : Along System.act (fun s a => ¬ s.Completes (pkt.frames.map chunk) a)
      (System.after nFrames mem crypto ifs before) as)
    (hcopies : ∀ x ∈ (System.after nFrames mem crypto ifs (before ++ as)).fwd.pair.copies, InChunk x.1 x.2) :
    (∀ c ∈ pkt.frames.map chunk, (System.after nFrames mem crypto ifs (before ++ as)).Outbound c) ∧
      ∀ d ∈ txDescs pkt neFrame,
        (System.after nFrames mem crypto ifs (before ++ as)).fwd.pair.mem.read d.addr d.len =
          (System.after nFrames mem crypto ifs before).fwd.pair.mem.read d.addr d.len := by
  have hc : Conserved nFrames (System.after nFrames mem crypto ifs before) :=
    (conserved_init nFrames mem crypto ifs).acts hbefore
  obtain ⟨new, hnew, hcross⟩ := hc.acts_stored hlegal
  have hrun : System.after nFrames mem crypto ifs (before ++ as) =
      run System.act (System.after nFrames mem crypto ifs before) as := run_append _ _ _
  rw [hrun] at hcopies ⊢
  rw [hnew] at hcopies
  have hboxed : Boxed (System.after nFrames mem crypto ifs before) :=
    (boxed_init nFrames mem crypto ifs).acts (conserved_init nFrames mem crypto ifs) hbefore
      fun x hx => hcopies x (List.mem_append_left _ hx)
  have hout : ∀ c ∈ pkt.frames.map chunk, (System.after nFrames mem crypto ifs before).Outbound c := by
    intro c hc
    obtain ⟨a, ha, rfl⟩ := List.mem_map.mp hc
    exact .inl ⟨dir, iface, slot, List.mem_map_of_mem (List.mem_flatMap.mpr ⟨pkt, hpkt, ha⟩)⟩
  obtain ⟨hend, hreach⟩ := outbound_acts hc (flowing_after nFrames mem crypto ifs before) hout hlegal hno
  refine ⟨hend, fun d hd => Mem.read_eq_read_iff.mpr fun i hi => ?_⟩
  -- the descriptor is in the chunk of one of the frames
  obtain ⟨hsound, hlen⟩ := hc.outRing dir iface slot pkt hpkt
  have haddr : d.addr ∈ pkt.frames := by
    rw [NePacket.frames, ← hsound.txSegs hlen, ← addr_txDescs pkt neFrame]
    exact List.mem_map_of_mem hd
  have hchunk : chunk (d.addr + i) = chunk d.addr :=
    InRegion.div_eq (c := (d.addr, d.len)) ⟨Nat.le_add_right .., Nat.add_lt_add_left hi _⟩
      ((hboxed.outRing dir iface slot pkt hpkt).txDescs d hd)
  have hreached := (@Along.invariant _ _ System.act _ (fun s a => ¬ s.Reaches a (chunk (d.addr + i))) (fun _ => True)
    (fun _ _ _ hr => ⟨trivial, by rw [hchunk]; exact hr _ (List.mem_map_of_mem haddr)⟩) _ _ trivial hreach).2
  by_contra hne
  obtain ⟨x, hx, -, hleft⟩ := hcross (d.addr + i) hreached hne
  exact hleft (hcopies x (List.mem_append_right _ hx))

/-- The process once the worker is done. -/
def sampleRinged (env : Env) : List Action := sampleReceived env ++ [.step (.process env 0)]

theorem sampleRinged_legal (env : Env) : Along System.act ActionLegal
    (System.init 4 (fun _ => 0) (packetCryptoInit coreKey) sampleIfs) (sampleRinged env) :=
  (sampleReceived_legal env).append ⟨trivial, trivial⟩

theorem sent_intact_sample :
    ∃ pkt ∈ ((System.after 4 (fun _ => 0) (packetCryptoInit coreKey) sampleIfs
        (sampleRinged (sampleEnv 0))).fwd.outRing .wan 0 0).items,
      (txDescs pkt neFrame).length = 2 ∧ ∀ d ∈ txDescs pkt neFrame,
        (System.after 4 (fun _ => 0) (packetCryptoInit coreKey) sampleIfs
          (sampleRinged (sampleEnv 0) ++ (sampleSent (sampleEnv 0)).drop 1)).fwd.pair.mem.read d.addr d.len =
        (System.after 4 (fun _ => 0) (packetCryptoInit coreKey) sampleIfs
          (sampleRinged (sampleEnv 0))).fwd.pair.mem.read d.addr d.len := by
  have hone : ((System.after 4 (fun _ => 0) (packetCryptoInit coreKey) sampleIfs
      (sampleRinged (sampleEnv 0))).fwd.outRing .wan 0 0).items.map
      (fun pkt => (txDescs pkt neFrame).length) = [2] := by decide +kernel
  have hfits : ∀ x ∈ (System.after 4 (fun _ => 0) (packetCryptoInit coreKey) sampleIfs
      (sampleRinged (sampleEnv 0) ++ (sampleSent (sampleEnv 0)).drop 1)).fwd.pair.copies, InChunk x.1 x.2 := by
    decide +kernel
  have hlegal : ∀ s, Along System.act ActionLegal s ((sampleSent (sampleEnv 0)).drop 1) :=
    fun s => ⟨trivial, trivial, trivial⟩
  have hno : ∀ s cs, Along System.act (fun s a => ¬ s.Completes cs a) s ((sampleSent (sampleEnv 0)).drop 1) :=
    fun s cs => ⟨fun hr => hr, fun hr => hr, trivial⟩
  obtain ⟨pkt, hpkt, hlen⟩ := List.mem_map.mp (hone ▸ List.mem_singleton_self 2)
  exact ⟨pkt, hpkt, hlen, (sent_intact 4 (fun _ => 0) (packetCryptoInit coreKey) sampleIfs
    (sampleRinged (sampleEnv 0)) ((sampleSent (sampleEnv 0)).drop 1) .wan 0 0 pkt
    (sampleRinged_legal _) hpkt (hlegal _) (hno _ _) hfits).2⟩

end NetworkEncryptor
