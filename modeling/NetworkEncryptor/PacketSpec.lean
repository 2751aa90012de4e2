import NetworkEncryptor.PacketWrite

/-!
# NetworkEncryptor.PacketSpec

What callers of `ne_packet_write` rely on: when it succeeds
(`nePacketWrite_fst_iff`), what memory it leaves alone (`nePacketWrite_read`),
and that a packet that is filled up keeps all its segments
(`nePacketWrite_full`), so that it can be told apart from the pool afterwards.
-/

namespace NetworkEncryptor

/-! ## room -/

/-- The room of a packet: that of its segments, and of the frames it may still
take from the pool. -/
def packetRoom (p : NePair) (pkt : NePacket) : Nat :=
  packetCapacity pkt pkt.segCount +
    p.frameSize * min (nePacketMaxSegs - pkt.segCount) p.pool.frames.length

/-- The same while the packet grows. -/
def Growing.room (g : Growing) : Nat :=
  g.capacity + g.pair.frameSize * min (nePacketMaxSegs - g.nsegs) g.pair.pool.frames.length

/-- A frame taken from the pool is room that was counted before. -/
theorem Growing.room_add {g : Growing} {len addr : Nat} {rest : List Nat}
    (hn : g.nsegs < nePacketMaxSegs) (hf : g.pair.pool.frames = addr :: rest) :
    (g.add len addr { g.pair with pool := { g.pair.pool with frames := rest } }).room = g.room := by
  have hmin : min (nePacketMaxSegs - g.nsegs) (rest.length + 1) =
      min (nePacketMaxSegs - (g.nsegs + 1)) rest.length + 1 := by omega
  rw [Growing.room, Growing.room, hf, List.length_cons, hmin, Nat.mul_add, Nat.mul_one]
  simp only [Growing.add]
  omega

theorem packetGrow_room (len fuel : Nat) (g : Growing) :
    (packetGrow len fuel g).room = g.room := by
  refine @packetGrow_induct (fun g' => g'.room = g.room) len ?_ fuel g rfl
  intro g' addr rest hg _ hn hf
  exact (Growing.room_add hn hf).trans hg

section Write

variable {p p' : NePair} {pkt pkt' : NePacket} {src : Mem} {len : Nat}

/-- The packet is grown to `len` exactly when there is room for it. -/
theorem le_grown_capacity_iff : len ≤ (grown p pkt len).capacity ↔ len ≤ packetRoom p pkt := by
  have hroom : (grown p pkt len).room = packetRoom p pkt := packetGrow_room len nePacketMaxSegs
    ⟨p, pkt, pkt.segCount, packetCapacity pkt pkt.segCount⟩
  have hstop := @packetGrow_stop len nePacketMaxSegs
    ⟨p, pkt, pkt.segCount, packetCapacity pkt pkt.segCount⟩ (Nat.le_add_left _ _)
  change len ≤ (grown p pkt len).capacity ∨ nePacketMaxSegs ≤ (grown p pkt len).nsegs ∨
    (grown p pkt len).pair.pool.frames = [] at hstop
  rw [← hroom, Growing.room]
  constructor
  · intro h; omega
  · intro h
    rcases hstop with hc | hn | hf
    · exact hc
    · rw [Nat.sub_eq_zero_of_le hn, Nat.zero_min, Nat.mul_zero] at h; exact h
    · rw [hf, List.length_nil, Nat.min_zero, Nat.mul_zero] at h; exact h

/-- `ne_packet_write` succeeds exactly on a length that is in bounds and for
which there is room. -/
theorem nePacketWrite_fst_iff (hfs : p.frameSize ≠ 0) :
    (nePacketWrite p pkt src len).1 = true ↔
      0 < len ∧ len ≤ neJumboFrameMax ∧ len ≤ packetRoom p pkt := by
  rw [← le_grown_capacity_iff, nePacketWrite]
  by_cases hlen : len = 0 ∨ len > neJumboFrameMax
  · rw [if_pos hlen]
    constructor
    · intro hc; cases hc
    · intro hc; omega
  · rw [if_neg hlen]
    by_cases hcap : (grown p pkt len).capacity < len
    · have hc : (packetGrow len nePacketMaxSegs
          ⟨p, pkt, pkt.segCount, packetCapacity pkt pkt.segCount⟩).capacity < len := hcap
      simp only [if_pos hc]
      constructor
      · intro hc; cases hc
      · intro hc; omega
    · have hoff := filled_off hfs src (show len ≤ (grown p pkt len).capacity by omega)
      have hc : ¬ (packetGrow len nePacketMaxSegs
          ⟨p, pkt, pkt.segCount, packetCapacity pkt pkt.segCount⟩).capacity < len := hcap
      simp only [if_neg hc]
      change ((filled p pkt src len).2.2 == len) = true ↔ _
      rw [hoff, beq_self_eq_true]
      constructor
      · intro _; omega
      · intro _; rfl

/-! ## what is left alone -/

/-- A write does not touch memory outside the packet and the pool. -/
theorem nePacketWrite_read (h : Writable p pkt pkt.segCount) {ok : Bool} {a n : Nat}
    (hw : nePacketWrite p pkt src len = (ok, p', pkt'))
    (hd : ∀ r ∈ regions pkt pkt.segCount p, Region.Disjoint (a, n) r) :
    p'.mem.read a n = p.mem.read a n := by
  have hg := growInv_grown h len
  have hfill : (filled p pkt src len).1.mem.read a n = p.mem.read a n := by
    rw [filled, packetFill_read, hg.mem]
    intro r hr
    rw [← hg.regions] at hd
    exact hd r (List.mem_append_left _ hr)
  rcases nePacketWrite_cases p pkt src len with hc | ⟨-, hc⟩ | ⟨-, -, -, used, -, t, ht, hc⟩
  · rw [hc, Prod.mk.injEq, Prod.mk.injEq] at hw
    rw [← hw.2.1]
  · rw [hc, Prod.mk.injEq, Prod.mk.injEq] at hw
    rw [← hw.2.1, hg.mem]
  · rw [hc, Prod.mk.injEq, Prod.mk.injEq] at hw
    rw [← hw.2.1, ht, (packetTrim_spec ((grown p pkt len).nsegs - used) used _ _).1, hfill]

/-! ## filling a packet up -/

/-- The last segment of the grown packet is needed. -/
theorem grown_last_needed (h : Writable p pkt pkt.segCount) (hpos : 0 < len)
    (hcap : packetCapacity pkt pkt.segCount ≤ len) :
    packetCapacity (grown p pkt len).pkt ((grown p pkt len).nsegs - 1) < len := by
  have hinit : packetCapacity pkt (pkt.segCount - 1) < len := by
    cases hn : pkt.segCount with
    | zero => exact hpos
    | succ n =>
        have hroom := h.room (show n < pkt.segCount by omega)
        rw [hn, packetCapacity_eq_sum, segRegions_succ_right, List.map_append, List.sum_append,
          ← packetCapacity_eq_sum] at hcap
        simp only [List.map_cons, List.map_nil, List.sum_cons, List.sum_nil] at hcap
        rw [Nat.add_sub_cancel]
        omega
  refine (@packetGrow_induct (fun g => GrowInv p pkt pkt.segCount g ∧
    packetCapacity g.pkt (g.nsegs - 1) < len) len ?_ nePacketMaxSegs _ ⟨growInv_init h, hinit⟩).2
  intro g addr rest hg hlt hn hf
  refine ⟨growInv_add hg.1 hn hf, ?_⟩
  have hns (pair : NePair) : (g.add len addr pair).nsegs - 1 = g.nsegs := rfl
  rw [hns, packetCapacity_eq_sum, segRegions_add, ← packetCapacity_eq_sum, ← hg.1.capacity]
  exact hlt

/-- A segment is filled if the data does not end before it. -/
theorem packetFill_ne_zero (src : Mem) (len k : Nat) : ∀ (i off : Nat) (p : NePair) (pkt : NePacket)
    (j : Nat), j < k → (∀ m, i ≤ m → m < i + k → pkt.segRoom m ≠ 0) →
    off + ((segRegions pkt i j).map Prod.snd).sum < len →
    (packetFill src len k i off p pkt).2.1.segLen (i + j) ≠ 0 := by
  induction k with
  | zero => intro i off p pkt j hj; omega
  | succ k ih =>
      intro i off p pkt j hj hroom hsum
      rw [packetFill_succ]
      cases j with
      | zero =>
          obtain ⟨segLen, hpkt, hout⟩ := packetFill_pkt src len k (i + 1)
            (off + min (len - off) (pkt.segRoom i)) (fillPair src len i off p pkt)
            (fillPacket len i off pkt)
          have hi := hroom i (Nat.le_refl i) (by omega)
          simp only [segRegions, List.range'_zero, List.map_nil, List.sum_nil] at hsum
          rw [hpkt, Nat.add_zero]
          dsimp only
          rw [hout i (by omega), fillPacket_segLen_self]
          omega
      | succ j =>
          rw [segRegions_succ, List.map_cons, List.sum_cons] at hsum
          have hrec := ih (i + 1) (off + min (len - off) (pkt.segRoom i))
            (fillPair src len i off p pkt) (fillPacket len i off pkt) j (by omega)
            (fun m h1 h2 => by
              rw [fillPacket_segRoom_of_ne (by omega)]
              exact hroom m (by omega) (by omega))
            (by rw [segRegions_fillPacket]; omega)
          rw [show i + (j + 1) = i + 1 + j by omega]
          exact hrec

/-- No segment gets more than it has room for. -/
theorem packetFill_le (src : Mem) (len k : Nat) : ∀ (i off : Nat) (p : NePair) (pkt : NePacket)
    (j : Nat), i ≤ j → j < i + k → (packetFill src len k i off p pkt).2.1.segLen j ≤ pkt.segRoom j := by
  induction k with
  | zero => intro i off p pkt j h1 h2; omega
  | succ k ih =>
      intro i off p pkt j h1 h2
      rw [packetFill_succ]
      by_cases hj : j = i
      · subst hj
        obtain ⟨segLen, hpkt, hout⟩ := packetFill_pkt src len k (j + 1)
          (off + min (len - off) (pkt.segRoom j)) (fillPair src len j off p pkt)
          (fillPacket len j off pkt)
        rw [hpkt]
        dsimp only
        rw [hout j (by omega), fillPacket_segLen_self]
        omega
      · have hrec := ih (i + 1) (off + min (len - off) (pkt.segRoom i))
          (fillPair src len i off p pkt) (fillPacket len i off pkt) j (by omega) (by omega)
        rw [fillPacket_segRoom_of_ne hj] at hrec
        exact hrec

/-- A prefix of the segments has at most the room of all of them. -/
theorem packetCapacity_mono (pkt : NePacket) {m n : Nat} (h : m ≤ n) :
    packetCapacity pkt m ≤ packetCapacity pkt n := by
  obtain ⟨k, rfl⟩ := Nat.exists_eq_add_of_le h
  rw [packetCapacity, packetCapacity, List.range_add, List.map_append, List.sum_append]
  omega

/-- With its capacity set, a segment's region does not depend on its length. -/
theorem segRegions_of_cap {n : Nat} (haddr : pkt'.segAddr = pkt.segAddr)
    (hcap : pkt'.segCap = pkt.segCap) (h : ∀ i < n, pkt.segCap i ≠ 0) :
    segRegions pkt' 0 n = segRegions pkt 0 n := by
  rw [segRegions, segRegions]
  apply List.map_congr_left
  intro j hj
  have hj' := h j (by have := List.mem_range'_1.mp hj; omega)
  rw [NePacket.segRoom, NePacket.segRoom, hcap, haddr, if_pos hj', if_pos hj']

/-- A packet written to its end keeps all its segments: with the pool they are
the regions they were before. -/
theorem nePacketWrite_full (h : Writable p pkt pkt.segCount)
    (hcap : packetCapacity pkt pkt.segCount ≤ len)
    (hw : nePacketWrite p pkt src len = (true, p', pkt')) :
    regions pkt' pkt'.nsegs p' = regions pkt pkt.segCount p ∧ Writable p' pkt' pkt'.nsegs ∧
      ∀ i < pkt'.nsegs, pkt'.segLen i ≤ pkt'.segRoom i := by
  rcases nePacketWrite_cases p pkt src len with hc | ⟨-, hc⟩ | ⟨hpos, -, hroom, used, hused, t, ht, hc⟩
  · rw [hc] at hw; cases hw
  · rw [hc] at hw; cases hw
  · have hg := growInv_grown h len
    have hlast := grown_last_needed h hpos hcap
    -- every segment is used, so nothing is trimmed
    have hfull : used = (grown p pkt len).nsegs := by
      obtain ⟨-, hle, -, hzero⟩ := usedSegs_spec (filled p pkt src len).2.1 (grown p pkt len).nsegs 0
      rw [← hused] at hle hzero
      by_contra hne
      have hne0 := packetFill_ne_zero src len (grown p pkt len).nsegs 0 0 (grown p pkt len).pair
        (grown p pkt len).pkt used (by omega) (fun m _ hm => hg.writable.room (by omega)) (by
          rw [← packetCapacity_eq_sum, Nat.zero_add]
          exact Nat.lt_of_le_of_lt (packetCapacity_mono _ (by omega)) hlast)
      rw [Nat.zero_add] at hne0
      exact hne0 (hzero (by omega))
    obtain ⟨segLen, hpkt, -⟩ := packetFill_pkt src len (grown p pkt len).nsegs 0 0
      (grown p pkt len).pair (grown p pkt len).pkt
    obtain ⟨hpool, hsize⟩ := packetFill_pool src len (grown p pkt len).nsegs 0 0
      (grown p pkt len).pair (grown p pkt len).pkt
    change (filled p pkt src len).2.1 = _ at hpkt
    change (filled p pkt src len).1.pool = _ at hpool
    change (filled p pkt src len).1.frameSize = _ at hsize
    rw [hfull, Nat.sub_self, packetTrim] at ht
    have hle := packetFill_le src len (grown p pkt len).nsegs 0 0 (grown p pkt len).pair
      (grown p pkt len).pkt
    change ∀ j, 0 ≤ j → j < 0 + (grown p pkt len).nsegs →
      (filled p pkt src len).2.1.segLen j ≤ (grown p pkt len).pkt.segRoom j at hle
    rw [hc, Prod.mk.injEq, Prod.mk.injEq, ht, hfull, hpkt] at hw
    rw [hpkt] at hle
    obtain ⟨-, hp', hpkt'⟩ := hw
    have hlen' : pkt'.segLen = segLen := by rw [← hpkt']
    have haddr : pkt'.segAddr = (grown p pkt len).pkt.segAddr := by rw [← hpkt']
    have hcap' : pkt'.segCap = (grown p pkt len).pkt.segCap := by rw [← hpkt']
    have hns : pkt'.nsegs = (grown p pkt len).nsegs := by rw [← hpkt']
    have hregs : regions pkt' pkt'.nsegs p' = regions pkt pkt.segCount p := by
      rw [regions, hns, segRegions_of_cap haddr hcap' hg.writable.cap, ← hp', hpool, hsize]
      exact hg.regions
    refine ⟨hregs, ⟨?_, ?_, ?_, ?_⟩, ?_⟩
    · rw [hns]; exact hg.writable.segs
    · rw [hregs]; exact h.disjoint
    · rw [hns, hcap']; exact hg.writable.cap
    · rw [← hp', hsize]; exact hg.writable.frame
    · intro i hi
      rw [hns] at hi
      have hcapi := hg.writable.cap i hi
      have hroomi := hle i (Nat.zero_le i) (by omega)
      rw [NePacket.segRoom, if_pos hcapi] at hroomi
      rw [NePacket.segRoom, hcap', hlen', if_pos hcapi]
      exact hroomi

/-- A packet keeps its bytes as long as its segments are left alone. -/
theorem Holds.of_read {bytes : List UInt8} (h : Holds p pkt bytes)
    (hread : ∀ i < pkt.nsegs,
      p'.mem.read (pkt.segAddr i) (pkt.segLen i) = p.mem.read (pkt.segAddr i) (pkt.segLen i)) :
    Holds p' pkt bytes := by
  refine ⟨h.segs, h.pos, h.len, ?_⟩
  rw [← h.bytes]
  exact segBytes_congr fun j _ hj => hread j (by omega)

end Write

end NetworkEncryptor
