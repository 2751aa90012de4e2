import NetworkEncryptor.Outcomes
import NetworkEncryptor.PacketSpec
import NetworkEncryptor.Xsk

/-!
# NetworkEncryptor.Custody

Which frames a packet has in its custody, and that the operations on packets
neither lose nor duplicate any: writing takes frames from the pool and gives
back the ones it does not use, freeing gives back all of them.

A packet is `Sound` if its segment count can be trusted; frame 0 has address 0,
so an empty packet is told by its address and its length both being zero.
-/

namespace NetworkEncryptor

/-! ## packets -/

/-- The frames of a packet. -/
def NePacket.frames (pkt : NePacket) : List Nat := pkt.addrs pkt.nsegs

/-- The frames of several packets. -/
def framesOf (pkts : List NePacket) : List Nat := pkts.flatMap NePacket.frames

@[simp] theorem framesOf_nil : framesOf [] = [] := rfl

@[simp] theorem framesOf_cons (pkt : NePacket) (pkts : List NePacket) :
    framesOf (pkt :: pkts) = pkt.frames ++ framesOf pkts := rfl

@[simp] theorem framesOf_append (as bs : List NePacket) :
    framesOf (as ++ bs) = framesOf as ++ framesOf bs := List.flatMap_append

@[simp] theorem NePacket.frames_zero : NePacket.zero.frames = [] := rfl

@[simp] theorem NePacket.length_addrs (pkt : NePacket) (n : Nat) : (pkt.addrs n).length = n := by
  rw [NePacket.addrs, List.length_map, List.length_range]

/-- The first segments and the ones behind them. -/
theorem NePacket.addrs_split (pkt : NePacket) {used n : Nat} (h : used ≤ n) :
    pkt.addrs n = pkt.addrs used ++ (List.range' used (n - used)).map pkt.segAddr := by
  have happ := @List.range'_append_1 0 used (n - used)
  rw [Nat.zero_add, Nat.add_sub_cancel' h] at happ
  rw [NePacket.addrs, NePacket.addrs, List.range_eq_range', List.range_eq_range', ← happ, List.map_append]

/-- The segment count of the packet can be trusted. -/
structure NePacket.Sound (pkt : NePacket) : Prop where
  nsegs_le : pkt.nsegs ≤ nePacketMaxSegs
  segCap : ∀ i < pkt.nsegs, pkt.segCap i ≠ 0
  empty : pkt.nsegs = 0 → pkt.addr = 0 ∧ pkt.len = 0

theorem NePacket.sound_zero : NePacket.zero.Sound :=
  ⟨by decide, fun i hi => absurd hi (by simp [NePacket.zero]), fun _ => ⟨rfl, rfl⟩⟩

theorem NePacket.Sound.segCount {pkt : NePacket} (h : pkt.Sound) : pkt.segCount = pkt.nsegs := by
  rw [NePacket.segCount]
  by_cases hn : pkt.nsegs ≠ 0
  · rw [if_pos hn]
  · rw [if_neg hn]
    rw [not_not] at hn
    obtain ⟨ha, hl⟩ := h.empty hn
    rw [if_neg (by rw [ha, hl]; simp), hn]

theorem SameSegs.sound {pkt pkt' : NePacket} (h : SameSegs pkt pkt') (hs : pkt.Sound) :
    pkt'.Sound := by
  refine ⟨?_, ?_, ?_⟩
  · rw [h.nsegs]; exact hs.nsegs_le
  · rw [h.nsegs, h.segCap]; exact hs.segCap
  · rw [h.nsegs, NePacket.addr, h.segAddr, h.len]; exact hs.empty

theorem SameSegs.frames {pkt pkt' : NePacket} (h : SameSegs pkt pkt') : pkt'.frames = pkt.frames := by
  rw [NePacket.frames, NePacket.frames, NePacket.addrs, NePacket.addrs, h.nsegs, h.segAddr]

/-! ## the pool -/

/-- A push that finds room. -/
theorem poolPush_eq {p : NePool} {as : List Nat} (h : p.frames.length + as.length ≤ p.cap) :
    poolPush p as = { p with frames := p.frames ++ as } := by
  have hput : min as.length (p.cap - p.frames.length) = as.length := by omega
  rw [poolPush]
  simp only [hput, List.take_length, Nat.sub_self, Nat.add_zero]

/-- The pair with frames put back. -/
def NePair.putBack (p : NePair) (as : List Nat) : NePair :=
  { p with pool := { p.pool with frames := p.pool.frames ++ as } }

theorem NePair.putBack_nil (p : NePair) : p.putBack [] = p := by
  rw [NePair.putBack, List.append_nil]

theorem NePair.putBack_putBack (p : NePair) (as bs : List Nat) :
    (p.putBack as).putBack bs = p.putBack (as ++ bs) := by
  rw [NePair.putBack, NePair.putBack, NePair.putBack, List.append_assoc]

theorem neFrameFree_eq {p : NePair} (h : p.pool.frames.length < p.pool.cap) (a : Nat) :
    neFrameFree p a = p.putBack [a] := by
  rw [neFrameFree, poolPush_eq (by rw [List.length_singleton]; omega), NePair.putBack]

/-! ## freeing -/

theorem freeSegs_eq (pkt : NePacket) (k : Nat) : ∀ {i : Nat} {p : NePair},
    p.pool.frames.length + k ≤ p.pool.cap →
      freeSegs pkt k i p = p.putBack ((List.range' i k).map pkt.segAddr) := by
  induction k with
  | zero => intro i p _; rw [freeSegs]; exact (p.putBack_nil).symm
  | succ k ih =>
      intro i p h
      rw [freeSegs, neFrameFree_eq (by omega), ih]
      · rw [NePair.putBack_putBack, List.range'_succ]; rfl
      · simp only [NePair.putBack, List.length_append, List.length_singleton]; omega

/-- Freeing a packet gives back its frames. -/
theorem nePacketFree_eq {p : NePair} {pkt : NePacket} (hs : pkt.Sound)
    (h : p.pool.frames.length + pkt.frames.length ≤ p.pool.cap) :
    nePacketFree p pkt = (p.putBack pkt.frames, NePacket.zero) := by
  rw [NePacket.frames, NePacket.length_addrs] at h
  rw [nePacketFree, hs.segCount, Nat.min_eq_left hs.nsegs_le, freeSegs_eq pkt _ h, NePacket.frames,
    NePacket.addrs, List.range_eq_range']

/-! ## writing -/

/-- What a write has done to the frames of a packet and the pool: they are the
same together, and the packet is sound. -/
structure Kept (p : NePair) (pkt : NePacket) (p' : NePair) (pkt' : NePacket) : Prop where
  sound : pkt'.Sound
  frameSize : p'.frameSize = p.frameSize
  cap : p'.pool.cap = p.pool.cap
  refused : p'.pool.refused = p.pool.refused
  frames : (p'.pool.frames ++ pkt'.frames).Perm (p.pool.frames ++ pkt.frames)

/-- A packet that grows. -/
structure GrowKept (p : NePair) (pkt : NePacket) (g : Growing) : Prop where
  kept : Kept p pkt g.pair g.pkt
  nsegs : g.pkt.nsegs = g.nsegs
  capacity : g.nsegs = 0 → g.capacity = 0

/-- The new segment is listed last. -/
theorem frames_add {g : Growing} {len addr : Nat} {pair : NePair} (hn : g.pkt.nsegs = g.nsegs) :
    (g.add len addr pair).pkt.frames = g.pkt.frames ++ [addr] := by
  have hold : ∀ i ∈ List.range g.nsegs,
      (Function.update g.pkt.segAddr g.nsegs addr) i = g.pkt.segAddr i := by
    intro i hi
    exact Function.update_of_ne (Nat.ne_of_lt (List.mem_range.mp hi)) _ _
  rw [NePacket.frames, NePacket.frames, hn]
  simp only [Growing.add, NePacket.addrs, packetSetSegAddr, List.range_succ, List.map_append,
    List.map_cons, List.map_nil, Function.update_self]
  rw [List.map_congr_left hold]

theorem growKept_add {p : NePair} {pkt : NePacket} {g : Growing} {len addr : Nat} {rest : List Nat}
    (hfs : p.frameSize ≠ 0) (h : GrowKept p pkt g) (hn : g.nsegs < nePacketMaxSegs)
    (hf : g.pair.pool.frames = addr :: rest) :
    GrowKept p pkt (g.add len addr { g.pair with pool := { g.pair.pool with frames := rest } }) := by
  have hfs' := h.kept.frameSize
  refine ⟨⟨⟨?_, ?_, ?_⟩, hfs', h.kept.cap, h.kept.refused, ?_⟩, rfl, fun h0 => absurd h0 (Nat.succ_ne_zero _)⟩
  · dsimp only [Growing.add]; omega
  · intro i hi
    dsimp only [Growing.add] at hi ⊢
    by_cases hi' : i = g.nsegs
    · rw [hi', Function.update_self, hfs']; exact hfs
    · rw [Function.update_of_ne hi']
      exact h.kept.sound.segCap i (by rw [h.nsegs]; omega)
  · intro h0
    dsimp only [Growing.add] at h0
    omega
  · refine List.Perm.trans ?_ h.kept.frames
    rw [hf, frames_add h.nsegs, ← List.append_assoc, List.cons_append]
    exact List.perm_append_singleton ..

theorem growKept_grown {p : NePair} {pkt : NePacket} (hs : pkt.Sound) (hfs : p.frameSize ≠ 0)
    (len : Nat) : GrowKept p pkt (grown p pkt len) := by
  refine packetGrow_induct ?_ nePacketMaxSegs _ ?_
  · intro g addr rest hg _ hn hf
    exact growKept_add hfs hg hn hf
  · refine ⟨⟨hs, rfl, rfl, rfl, .refl _⟩, hs.segCount.symm, fun h0 => ?_⟩
    dsimp only at h0 ⊢
    rw [h0]
    rfl

theorem packetTrim_eq (k : Nat) : ∀ (i : Nat) (p : NePair) (pkt : NePacket),
    p.pool.frames.length + k ≤ p.pool.cap →
      (packetTrim k i p pkt).1 = p.putBack ((List.range' i k).map pkt.segAddr) ∧
      ∀ j < i, (packetTrim k i p pkt).2.segCap j = pkt.segCap j := by
  induction k with
  | zero => intro i p pkt _; exact ⟨(p.putBack_nil).symm, fun _ _ => rfl⟩
  | succ k ih =>
      intro i p pkt h
      have hroom : (p.putBack [pkt.segAddr i]).pool.frames.length + k ≤
          (p.putBack [pkt.segAddr i]).pool.cap := by
        simp only [NePair.putBack, List.length_append, List.length_singleton]; omega
      have hrest : (List.range' (i + 1) k).map (Function.update pkt.segAddr i 0) =
          (List.range' (i + 1) k).map pkt.segAddr := by
        refine List.map_congr_left fun j hj => Function.update_of_ne ?_ _ _
        have := (List.mem_range'_1.mp hj).1
        omega
      rw [packetTrim, neFrameFree_eq (by omega)]
      obtain ⟨h1, h2⟩ := ih (i + 1) (p.putBack [pkt.segAddr i]) { packetSetSegAddr pkt i 0 with
        segCap := Function.update (packetSetSegAddr pkt i 0).segCap i 0 } hroom
      refine ⟨?_, fun j hj => ?_⟩
      · refine h1.trans ?_
        rw [NePair.putBack_putBack, List.range'_succ, List.map_cons, ← hrest]
        rfl
      · exact (h2 j (by omega)).trans (Function.update_of_ne (by omega) _ _)

/-- Copying into a grown packet and giving back what was not needed. -/
theorem GrowKept.trimmed {p : NePair} {pkt : NePacket} {g : Growing} {src : Mem} {len used : Nat}
    {f : NePair × NePacket × Nat} {t : NePair × NePacket} (hg : GrowKept p pkt g) (hpos : 0 < len)
    (hcap : len ≤ g.capacity) (hroom : p.pool.frames.length + pkt.frames.length ≤ p.pool.cap)
    (hf : packetFill src len g.nsegs 0 0 g.pair g.pkt = f)
    (hu : used = usedSegs f.2.1 g.nsegs 0)
    (ht : t = packetTrim (g.nsegs - used) used f.1 f.2.1) :
    Kept p pkt t.1 { t.2 with nsegs := used, len := len } := by
  have hsnd := hg.kept.sound
  have hn0 : g.nsegs ≠ 0 := by
    intro h0; have := hg.capacity h0; omega
  -- the copy loop changes no frame, and fills the first segment
  obtain ⟨segLen, hpkt, -⟩ := packetFill_pkt src len g.nsegs 0 0 g.pair g.pkt
  obtain ⟨hpool, hfsz⟩ := packetFill_pool src len g.nsegs 0 0 g.pair g.pkt
  have hfirst := packetFill_ne_zero src len g.nsegs 0 0 g.pair g.pkt 0 (by omega) (fun m _ hm => by
    have hm' := hsnd.segCap m (by rw [hg.nsegs]; omega)
    rw [NePacket.segRoom, if_pos hm']; exact hm') (by simpa [segRegions] using hpos)
  rw [hf] at hpkt hpool hfsz hfirst
  obtain ⟨-, hle, -, hend⟩ := usedSegs_spec f.2.1 g.nsegs 0
  rw [← hu] at hle hend
  have hused : used ≠ 0 := by
    intro h0
    rw [h0] at hend
    exact hfirst (hend (by omega))
  -- there is room for the unused segments, because the packet had them
  have hlen := hg.kept.frames.length_eq
  rw [List.length_append, List.length_append, NePacket.frames, NePacket.length_addrs, hg.nsegs] at hlen
  have htroom : f.1.pool.frames.length + (g.nsegs - used) ≤ f.1.pool.cap := by
    rw [hpool, hg.kept.cap]; omega
  obtain ⟨htp, htcap⟩ := packetTrim_eq (g.nsegs - used) used f.1 f.2.1 htroom
  obtain ⟨-, -, htaddr⟩ := packetTrim_spec (g.nsegs - used) used f.1 f.2.1
  rw [← ht] at htp htcap htaddr
  refine ⟨⟨?_, ?_, fun h0 => absurd h0 hused⟩, ?_, ?_, ?_, ?_⟩
  · have := hsnd.nsegs_le
    rw [hg.nsegs] at this
    dsimp only
    omega
  · intro i hi
    dsimp only at hi ⊢
    rw [htcap i hi, hpkt]
    exact hsnd.segCap i (by rw [hg.nsegs]; omega)
  · rw [htp]; exact hfsz.trans hg.kept.frameSize
  · rw [htp]; exact (congrArg NePool.cap hpool).trans hg.kept.cap
  · rw [htp]; exact (congrArg NePool.refused hpool).trans hg.kept.refused
  · refine List.Perm.trans ?_ hg.kept.frames
    have hhead : ({ t.2 with nsegs := used, len := len } : NePacket).frames =
        (List.range used).map g.pkt.segAddr := by
      refine List.map_congr_left fun i hi => ?_
      dsimp only
      rw [htaddr i (List.mem_range.mp hi), hpkt]
    have hsplit : g.pkt.frames = (List.range used).map g.pkt.segAddr ++
        (List.range' used (g.nsegs - used)).map g.pkt.segAddr := by
      rw [NePacket.frames, hg.nsegs, g.pkt.addrs_split (by omega : used ≤ g.nsegs)]
      rfl
    rw [hhead, hsplit, htp, hpkt]
    simp only [NePair.putBack]
    rw [hpool, List.append_assoc]
    exact List.perm_append_comm.append_left _

/-- A write keeps the frames, along all its exits. -/
theorem nePacketWrite_kept {p p' : NePair} {pkt pkt' : NePacket} {src : Mem} {len : Nat} {ok : Bool}
    (hs : pkt.Sound) (hfs : p.frameSize ≠ 0)
    (hroom : p.pool.frames.length + pkt.frames.length ≤ p.pool.cap)
    (hw : nePacketWrite p pkt src len = (ok, p', pkt')) : Kept p pkt p' pkt' := by
  have hg := growKept_grown hs hfs len
  rcases nePacketWrite_cases p pkt src len with hc | ⟨-, hc⟩ | ⟨hpos, -, hcap, used, hu, t, ht, hc⟩
  · rw [hc, Prod.mk.injEq, Prod.mk.injEq] at hw
    obtain ⟨-, rfl, rfl⟩ := hw
    exact ⟨hs, rfl, rfl, rfl, .refl _⟩
  · rw [hc, Prod.mk.injEq, Prod.mk.injEq] at hw
    obtain ⟨-, rfl, rfl⟩ := hw
    exact hg.kept
  · rw [hc, Prod.mk.injEq, Prod.mk.injEq] at hw
    obtain ⟨-, rfl, rfl⟩ := hw
    exact hg.trimmed hpos hcap hroom rfl hu ht

/-! ## the packets of a thread -/

/-- What a thread has done to the frames of the packets it holds and the pool. -/
structure AllKept (p : NePair) (pkts : List NePacket) (p' : NePair) (pkts' : List NePacket) :
    Prop where
  sound : ∀ pkt ∈ pkts', pkt.Sound
  frameSize : p'.frameSize = p.frameSize
  cap : p'.pool.cap = p.pool.cap
  refused : p'.pool.refused = p.pool.refused
  frames : (p'.pool.frames ++ framesOf pkts').Perm (p.pool.frames ++ framesOf pkts)

/-- The rest of the packets is in the way of nothing. -/
theorem Kept.cons {p p' : NePair} {pkt pkt' : NePacket} {rest : List NePacket}
    (h : Kept p pkt p' pkt') (hrest : ∀ q ∈ rest, q.Sound) :
    AllKept p (pkt :: rest) p' (pkt' :: rest) := by
  refine ⟨?_, h.frameSize, h.cap, h.refused, ?_⟩
  · intro q hq
    rcases List.mem_cons.mp hq with rfl | hq
    · exact h.sound
    · exact hrest q hq
  · rw [framesOf_cons, framesOf_cons, ← List.append_assoc, ← List.append_assoc]
    exact h.frames.append_right _

theorem UmemMove.allKept {p p' : NePair} {pkts pkts' : List NePacket}
    (h : UmemMove (p, pkts) (p', pkts')) (hs : ∀ pkt ∈ pkts, pkt.Sound) (hfs : p.frameSize ≠ 0)
    (hroom : p.pool.frames.length + (framesOf pkts).length ≤ p.pool.cap) :
    AllKept p pkts p' pkts' := by
  cases h with
  | write hw =>
      rw [framesOf_cons, List.length_append] at hroom
      exact (nePacketWrite_kept (hs _ (List.mem_cons_self ..)) hfs (by omega) hw).cons
        fun q hq => hs q (List.mem_cons_of_mem _ hq)
  | free _ pkt rest =>
      rw [framesOf_cons, List.length_append] at hroom
      rw [nePacketFree_eq (hs _ (List.mem_cons_self ..)) (by omega)]
      refine Kept.cons ⟨NePacket.sound_zero, rfl, rfl, rfl, ?_⟩
        fun q hq => hs q (List.mem_cons_of_mem _ hq)
      rw [NePacket.frames_zero, List.append_nil]
      exact .refl _
  | stamp hsame =>
      refine Kept.cons ⟨hsame.sound (hs _ (List.mem_cons_self ..)), rfl, rfl, rfl, ?_⟩
        fun q hq => hs q (List.mem_cons_of_mem _ hq)
      rw [hsame.frames]
  | new =>
      refine ⟨?_, rfl, rfl, rfl, .refl _⟩
      intro q hq
      rcases List.mem_cons.mp hq with rfl | hq
      · exact NePacket.sound_zero
      · exact hs q hq
  | forget => exact ⟨fun q hq => hs q (List.mem_cons_of_mem _ hq), rfl, rfl, rfl, .refl _⟩
  | swap _ a b =>
      refine ⟨fun q hq => hs q ?_, rfl, rfl, rfl, ?_⟩
      · rw [List.mem_cons, List.mem_singleton] at hq ⊢
        exact hq.symm
      · simp only [framesOf_cons, framesOf_nil, List.append_nil]
        exact List.perm_append_comm.append_left _

/-- However long a thread works on its packets, it keeps the frames. -/
theorem UmemMoves.allKept {s s' : NePair × List NePacket} (h : UmemMoves s s')
    (hs : ∀ pkt ∈ s.2, pkt.Sound) (hfs : s.1.frameSize ≠ 0)
    (hroom : s.1.pool.frames.length + (framesOf s.2).length ≤ s.1.pool.cap) :
    AllKept s.1 s.2 s'.1 s'.2 := by
  induction h with
  | refl => exact ⟨hs, rfl, rfl, rfl, .refl _⟩
  | tail _ hmove ih =>
      have hlen := ih.frames.length_eq
      rw [List.length_append, List.length_append] at hlen
      have hk := hmove.allKept ih.sound (by rw [ih.frameSize]; exact hfs) (by rw [ih.cap]; omega)
      exact ⟨hk.sound, hk.frameSize.trans ih.frameSize, hk.cap.trans ih.cap,
        hk.refused.trans ih.refused, hk.frames.trans ih.frames⟩

end NetworkEncryptor
