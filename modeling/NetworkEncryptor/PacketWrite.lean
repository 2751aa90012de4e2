import NetworkEncryptor.Umem
import Mathlib.Data.List.Range

/-!
# NetworkEncryptor.PacketWrite

What the packet functions of `NetworkEncryptor.Umem` do to the bytes of a
packet: `ne_packet_linearize` reads the segments one after the other, and
`ne_packet_write` leaves a packet whose segments hold the source.

A packet is seen as the list of its segments' regions followed by the regions
of the pool's frames.  The allocation loop moves a frame from one part of this
list to the other and so does not change it (`regions_grow`); if its regions
are pairwise disjoint, the copies do not hit each other.
-/

namespace NetworkEncryptor

/-! ## the bytes of a packet -/

/-- The bytes of the `k` segments from `i` on. -/
def segBytes (m : Mem) (pkt : NePacket) (i k : Nat) : List UInt8 :=
  (List.range' i k).flatMap fun j => m.read (pkt.segAddr j) (pkt.segLen j)

@[simp] theorem segBytes_zero (m : Mem) (pkt : NePacket) (i : Nat) : segBytes m pkt i 0 = [] := rfl

theorem segBytes_succ (m : Mem) (pkt : NePacket) (i k : Nat) :
    segBytes m pkt i (k + 1) = m.read (pkt.segAddr i) (pkt.segLen i) ++ segBytes m pkt (i + 1) k := by
  rw [segBytes, List.range'_succ, List.flatMap_cons, segBytes]

theorem segBytes_append (m : Mem) (pkt : NePacket) (i k l : Nat) :
    segBytes m pkt i (k + l) = segBytes m pkt i k ++ segBytes m pkt (i + k) l := by
  rw [segBytes, ← List.range'_append_1, List.flatMap_append, segBytes, segBytes]

theorem length_segBytes (m : Mem) (pkt : NePacket) (n : Nat) :
    (segBytes m pkt 0 n).length = ((List.range n).map pkt.segLen).sum := by
  rw [segBytes, List.length_flatMap, List.range_eq_range']
  simp only [Mem.length_read]

theorem segBytes_congr {m m' : Mem} {pkt pkt' : NePacket} {i k : Nat}
    (h : ∀ j, i ≤ j → j < i + k →
      m.read (pkt.segAddr j) (pkt.segLen j) = m'.read (pkt'.segAddr j) (pkt'.segLen j)) :
    segBytes m pkt i k = segBytes m' pkt' i k := by
  induction k generalizing i with
  | zero => rfl
  | succ k ih =>
      rw [segBytes_succ, segBytes_succ, h i (Nat.le_refl i) (by omega),
        ih fun j h1 h2 => h j (by omega) (by omega)]

/-- A packet that holds `bytes`: one to four segments, none of them empty, with
exactly these bytes. -/
structure Holds (p : NePair) (pkt : NePacket) (bytes : List UInt8) : Prop where
  segs : 1 ≤ pkt.nsegs ∧ pkt.nsegs ≤ nePacketMaxSegs
  pos : ∀ i < pkt.nsegs, pkt.segLen i ≠ 0
  len : pkt.len = bytes.length
  bytes : segBytes p.mem pkt 0 pkt.nsegs = bytes

/-! ## `ne_packet_linearize` -/

/-- The copy loop appends the bytes of the remaining segments, if these are
what is missing to the length. -/
theorem linearizeFrom_eq {p : NePair} {pkt : NePacket} {nsegs : Nat} (k : Nat) :
    ∀ (i off : Nat) (dst : Mem), off + (segBytes p.mem pkt i k).length = pkt.len →
      (∀ j, i ≤ j → j < i + k → pkt.segLen j ≠ 0) →
      ∃ dst', linearizeFrom p pkt nsegs k i off dst = (some pkt.len, dst') ∧
        dst'.read 0 pkt.len = dst.read 0 off ++ segBytes p.mem pkt i k := by
  induction k with
  | zero =>
      intro i off dst hlen _
      rw [segBytes_zero, List.length_nil, Nat.add_zero] at hlen
      exact ⟨dst, by rw [linearizeFrom, hlen], by rw [hlen, segBytes_zero, List.append_nil]⟩
  | succ k ih =>
      intro i off dst hlen hpos
      rw [segBytes_succ, List.length_append, Mem.length_read] at hlen
      have hi := hpos i (Nat.le_refl i) (by omega)
      rw [linearizeFrom]
      simp only [hi, and_false, if_false]
      rw [if_neg (by omega)]
      obtain ⟨dst', hrun, hread⟩ := ih (i + 1) (off + pkt.segLen i)
        (dst.write off (p.mem.read (pkt.segAddr i) (pkt.segLen i))) (by omega)
        fun j h1 h2 => hpos j (by omega) (by omega)
      refine ⟨dst', hrun, ?_⟩
      rw [hread, segBytes_succ, Mem.read_add, Nat.zero_add,
        Mem.read_write_of_disjoint _ (.inl (by omega)), Mem.read_write_self _ (by simp),
        List.append_assoc]

/-- A packet that holds `bytes` linearizes to them. -/
theorem nePacketLinearize_of_holds {p : NePair} {pkt : NePacket} {bytes : List UInt8}
    (h : Holds p pkt bytes) (dst : Mem) {dstSize : Nat} (hsize : bytes.length ≤ dstSize) :
    ∃ dst', nePacketLinearize p pkt dst dstSize = (true, dst') ∧
      dst'.read 0 bytes.length = bytes := by
  have hn : pkt.nsegs ≠ 0 := by have := h.segs.1; omega
  have hlen : 0 + (segBytes p.mem pkt 0 pkt.nsegs).length = pkt.len := by
    rw [h.bytes, h.len, Nat.zero_add]
  obtain ⟨dst', hrun, hread⟩ := @linearizeFrom_eq p pkt pkt.nsegs pkt.nsegs 0 0 dst hlen
    fun j _ hj => h.pos j (by omega)
  refine ⟨dst', ?_, ?_⟩
  · rw [nePacketLinearize]
    simp only [if_pos hn]
    rw [if_neg (by rw [h.len]; omega), if_neg (by have := h.segs.2; omega), hrun]
    simp
  · rw [← h.len, hread, h.bytes, Mem.read_zero, List.nil_append]

/-! ## the allocation loop -/

/-- To show something of the packet `ne_packet_write` has grown, show it of the
packet it starts with and keep it when one frame is moved from the pool. -/
theorem packetGrow_induct {I : Growing → Prop} {len : Nat}
    (hstep : ∀ g addr rest, I g → g.capacity < len → g.nsegs < nePacketMaxSegs →
      g.pair.pool.frames = addr :: rest →
      I (g.add len addr { g.pair with pool := { g.pair.pool with frames := rest } }))
    (fuel : Nat) : ∀ g, I g → I (packetGrow len fuel g) := by
  induction fuel with
  | zero => intro g hg; exact hg
  | succ fuel ih =>
      intro g hg
      rw [packetGrow]
      by_cases hc : g.capacity < len ∧ g.nsegs < nePacketMaxSegs
      · rw [if_pos hc]
        cases hf : g.pair.pool.frames with
        | nil =>
            rw [neFrameAlloc_nil hf]; exact hg
        | cons addr rest =>
            rw [neFrameAlloc_cons hf]
            exact ih _ (hstep g addr rest hg hc.1 hc.2 hf)
      · rw [if_neg hc]; exact hg

/-- When the loop stops, there is room, or four segments, or an empty pool. -/
theorem packetGrow_stop {len : Nat} (fuel : Nat) : ∀ g : Growing, nePacketMaxSegs ≤ g.nsegs + fuel →
    len ≤ (packetGrow len fuel g).capacity ∨ nePacketMaxSegs ≤ (packetGrow len fuel g).nsegs ∨
      (packetGrow len fuel g).pair.pool.frames = [] := by
  induction fuel with
  | zero => intro g hg; exact .inr (.inl hg)
  | succ fuel ih =>
      intro g hg
      rw [packetGrow]
      by_cases hc : g.capacity < len ∧ g.nsegs < nePacketMaxSegs
      · rw [if_pos hc]
        cases hf : g.pair.pool.frames with
        | nil =>
            rw [neFrameAlloc_nil hf]; exact .inr (.inr hf)
        | cons addr rest =>
            rw [neFrameAlloc_cons hf]
            refine ih _ ?_
            rw [Growing.add]
            dsimp only
            omega
      · rw [if_neg hc]; omega

/-- A region of the UMEM: address and size. -/
abbrev Region := Nat × Nat

/-- Two regions share no byte. -/
def Region.Disjoint (a b : Region) : Prop := a.1 + a.2 ≤ b.1 ∨ b.1 + b.2 ≤ a.1

/-- The regions of the `k` segments from `i` on. -/
def segRegions (pkt : NePacket) (i k : Nat) : List Region :=
  (List.range' i k).map fun j => (pkt.segAddr j, pkt.segRoom j)

/-- The segments of a packet, then the frames of the pool. -/
def regions (pkt : NePacket) (n : Nat) (p : NePair) : List Region :=
  segRegions pkt 0 n ++ p.pool.frames.map fun a => (a, p.frameSize)

/-- A packet with `n` segments that can be written: what it has and what the
pool could give it do not overlap, and every segment has its capacity set. -/
structure Writable (p : NePair) (pkt : NePacket) (n : Nat) : Prop where
  segs : n ≤ nePacketMaxSegs
  disjoint : (regions pkt n p).Pairwise Region.Disjoint
  cap : ∀ i < n, pkt.segCap i ≠ 0
  frame : p.frameSize ≠ 0

theorem Writable.room {p : NePair} {pkt : NePacket} {n i : Nat} (h : Writable p pkt n) (hi : i < n) :
    pkt.segRoom i ≠ 0 := by
  rw [NePacket.segRoom, if_pos (h.cap i hi)]
  exact h.cap i hi

theorem segRegions_succ_right (pkt : NePacket) (n : Nat) :
    segRegions pkt 0 (n + 1) = segRegions pkt 0 n ++ [(pkt.segAddr n, pkt.segRoom n)] := by
  rw [segRegions, List.range'_concat, List.map_append, segRegions]
  simp

/-- Adding a segment leaves the ones before it alone. -/
theorem segRegions_add (g : Growing) (len addr : Nat) (pair : NePair) :
    segRegions (g.add len addr pair).pkt 0 g.nsegs = segRegions g.pkt 0 g.nsegs := by
  rw [segRegions, segRegions]
  apply List.map_congr_left
  intro j hj
  have hne : j ≠ g.nsegs := by
    have := List.mem_range'_1.mp hj
    omega
  simp only [Growing.add, packetSetSegAddr, NePacket.segRoom, Function.update_of_ne hne]

/-- The new segment has a frame's room. -/
theorem segRoom_add {g : Growing} {len addr : Nat} {pair : NePair} (h : pair.frameSize ≠ 0) :
    (g.add len addr pair).pkt.segRoom g.nsegs = pair.frameSize := by
  simp only [Growing.add, NePacket.segRoom, Function.update_self]
  rw [if_pos h]

/-- What is true of a packet while it grows. -/
structure GrowInv (p : NePair) (pkt : NePacket) (n : Nat) (g : Growing) : Prop where
  writable : Writable g.pair g.pkt g.nsegs
  regions : regions g.pkt g.nsegs g.pair = NetworkEncryptor.regions pkt n p
  capacity : g.capacity = packetCapacity g.pkt g.nsegs
  mem : g.pair.mem = p.mem
  copies : g.pair.copies = p.copies

theorem packetCapacity_eq_sum (pkt : NePacket) (n : Nat) :
    packetCapacity pkt n = ((segRegions pkt 0 n).map Prod.snd).sum := by
  rw [packetCapacity, segRegions, List.map_map, List.range_eq_range']
  rfl

/-- The capacity grows by a frame. -/
theorem packetCapacity_add {g : Growing} {len addr : Nat} {pair : NePair} (h : pair.frameSize ≠ 0) :
    packetCapacity (g.add len addr pair).pkt (g.nsegs + 1) = packetCapacity g.pkt g.nsegs + pair.frameSize := by
  rw [packetCapacity_eq_sum, segRegions_succ_right, segRegions_add, segRoom_add h, List.map_append,
    List.sum_append, ← packetCapacity_eq_sum]
  simp

theorem growInv_init {p : NePair} {pkt : NePacket} {n : Nat} (h : Writable p pkt n) :
    GrowInv p pkt n ⟨p, pkt, n, packetCapacity pkt n⟩ := ⟨h, rfl, rfl, rfl, rfl⟩

theorem growInv_add {p : NePair} {pkt : NePacket} {n : Nat} {g : Growing} {len addr : Nat}
    {rest : List Nat} (h : GrowInv p pkt n g) (hn : g.nsegs < nePacketMaxSegs)
    (hf : g.pair.pool.frames = addr :: rest) :
    GrowInv p pkt n (g.add len addr { g.pair with pool := { g.pair.pool with frames := rest } }) := by
  generalize hp : ({ g.pair with pool := { g.pair.pool with frames := rest } } : NePair) = pair
  have hsize : pair.frameSize = g.pair.frameSize := by rw [← hp]
  have hroom := @segRoom_add g len addr pair (by rw [hsize]; exact h.writable.frame)
  have haddr : (g.add len addr pair).pkt.segAddr g.nsegs = addr := by
    simp only [Growing.add, packetSetSegAddr, Function.update_self]
  have hseg : segRegions (g.add len addr pair).pkt 0 (g.nsegs + 1) =
      segRegions g.pkt 0 g.nsegs ++ [(addr, g.pair.frameSize)] := by
    rw [segRegions_succ_right, segRegions_add, hroom, haddr, hsize]
  have hreg : regions (g.add len addr pair).pkt (g.nsegs + 1) (g.add len addr pair).pair =
      regions g.pkt g.nsegs g.pair := by
    have hpool : (g.add len addr pair).pair.pool.frames = rest := by
      rw [Growing.add, ← hp]
    have hfs : (g.add len addr pair).pair.frameSize = g.pair.frameSize := by
      rw [Growing.add, ← hp]
    rw [regions, regions, hseg, hpool, hfs, hf, List.map_cons, List.append_assoc]
    rfl
  refine ⟨⟨hn, ?_, ?_, ?_⟩, ?_, ?_, ?_, ?_⟩
  · have := h.writable.disjoint
    rw [← hreg] at this
    exact this
  · intro i hi
    by_cases hie : i = g.nsegs
    · subst hie
      simp only [Growing.add, Function.update_self, hsize]
      exact h.writable.frame
    · have hlt : i < g.nsegs := by
        have : i < g.nsegs + 1 := hi
        omega
      have := h.writable.cap i hlt
      simpa only [Growing.add, Function.update_of_ne hie] using this
  · rw [Growing.add, ← hp]; exact h.writable.frame
  · exact hreg.trans h.regions
  · have hns : (g.add len addr pair).nsegs = g.nsegs + 1 := rfl
    rw [hns, packetCapacity_add (by rw [hsize]; exact h.writable.frame), ← h.capacity]
    rfl
  · rw [Growing.add, ← hp]; exact h.mem
  · rw [Growing.add, ← hp]; exact h.copies

/-- The grown packet of a writable packet. -/
theorem growInv_packetGrow {p : NePair} {pkt : NePacket} {n : Nat} (h : Writable p pkt n)
    (len fuel : Nat) : GrowInv p pkt n (packetGrow len fuel ⟨p, pkt, n, packetCapacity pkt n⟩) :=
  packetGrow_induct (fun _ _ _ hg _ hn hf => growInv_add hg hn hf) fuel _ (growInv_init h)

/-! ## the copy loop -/

section Fill

variable {src : Mem} {len : Nat}

/-- The pair after the copy into segment `i`. -/
def fillPair (src : Mem) (len i off : Nat) (p : NePair) (pkt : NePacket) : NePair :=
  if min (len - off) (pkt.segRoom i) ≠ 0 then
    p.copyIn (pkt.segAddr i) (src.read off (min (len - off) (pkt.segRoom i)))
  else p

/-- The packet after the copy into segment `i`. -/
def fillPacket (len i off : Nat) (pkt : NePacket) : NePacket :=
  { pkt with segLen := Function.update pkt.segLen i (min (len - off) (pkt.segRoom i)) }

theorem packetFill_succ (src : Mem) (len k i off : Nat) (p : NePair) (pkt : NePacket) :
    packetFill src len (k + 1) i off p pkt =
      packetFill src len k (i + 1) (off + min (len - off) (pkt.segRoom i))
        (fillPair src len i off p pkt) (fillPacket len i off pkt) := rfl

@[simp] theorem fillPacket_segLen_self (len i off : Nat) (pkt : NePacket) :
    (fillPacket len i off pkt).segLen i = min (len - off) (pkt.segRoom i) :=
  Function.update_self ..

theorem fillPacket_segLen_of_ne {len i off j : Nat} {pkt : NePacket} (h : j ≠ i) :
    (fillPacket len i off pkt).segLen j = pkt.segLen j := Function.update_of_ne h ..

theorem fillPacket_segRoom_of_ne {len i off j : Nat} {pkt : NePacket} (h : j ≠ i) :
    (fillPacket len i off pkt).segRoom j = pkt.segRoom j := by
  rw [NePacket.segRoom, NePacket.segRoom, fillPacket_segLen_of_ne h]
  rfl

@[simp] theorem fillPair_pool (src : Mem) (len i off : Nat) (p : NePair) (pkt : NePacket) :
    (fillPair src len i off p pkt).pool = p.pool := by
  rw [fillPair]; split <;> rfl

@[simp] theorem fillPair_frameSize (src : Mem) (len i off : Nat) (p : NePair) (pkt : NePacket) :
    (fillPair src len i off p pkt).frameSize = p.frameSize := by
  rw [fillPair]; split <;> rfl

/-- The copy stays within the segment. -/
theorem fillPair_read {i off a n : Nat} {p : NePair} {pkt : NePacket}
    (h : Region.Disjoint (a, n) (pkt.segAddr i, pkt.segRoom i)) :
    (fillPair src len i off p pkt).mem.read a n = p.mem.read a n := by
  rw [fillPair]
  split
  · rw [NePair.copyIn, Mem.read_write_of_disjoint]
    rw [Mem.length_read]
    rcases h with h | h
    · exact .inl h
    · exact .inr (by dsimp only at h; omega)
  · rfl

/-- The copied bytes read back. -/
theorem fillPair_read_self (i off : Nat) (p : NePair) (pkt : NePacket) :
    (fillPair src len i off p pkt).mem.read (pkt.segAddr i) (min (len - off) (pkt.segRoom i)) =
      src.read off (min (len - off) (pkt.segRoom i)) := by
  rw [fillPair]
  by_cases h : min (len - off) (pkt.segRoom i) ≠ 0
  · rw [if_pos h, NePair.copyIn, Mem.read_write_self _ (by simp)]
  · rw [if_neg h, Decidable.not_not.mp h]; rfl

/-- The loop changes segment lengths only. -/
theorem packetFill_pkt (src : Mem) (len k : Nat) : ∀ (i off : Nat) (p : NePair) (pkt : NePacket),
    ∃ segLen, (packetFill src len k i off p pkt).2.1 = { pkt with segLen := segLen } ∧
      ∀ j, (j < i ∨ i + k ≤ j) → segLen j = pkt.segLen j := by
  induction k with
  | zero => intro i off p pkt; exact ⟨pkt.segLen, rfl, fun _ _ => rfl⟩
  | succ k ih =>
      intro i off p pkt
      rw [packetFill_succ]
      obtain ⟨segLen, h1, h2⟩ := ih (i + 1) (off + min (len - off) (pkt.segRoom i))
        (fillPair src len i off p pkt) (fillPacket len i off pkt)
      refine ⟨segLen, h1, fun j hj => ?_⟩
      rw [h2 j (by omega), fillPacket_segLen_of_ne (by omega)]

/-- Filling reads the first `len` bytes of the source. -/
theorem packetFill_congr {src src' : Mem} {len : Nat} (h : src.read 0 len = src'.read 0 len) (k : Nat) :
    ∀ (i off : Nat) (p : NePair) (pkt : NePacket), off ≤ len →
      packetFill src len k i off p pkt = packetFill src' len k i off p pkt := by
  induction k with
  | zero => intro i off p pkt _; rfl
  | succ k ih =>
      intro i off p pkt hoff
      have hbyte := Mem.read_eq_read_iff.mp h
      have hread : ∀ n, off + n ≤ len → src.read off n = src'.read off n := fun n hn =>
        Mem.read_eq_read_iff.mpr fun i hi => by simpa using hbyte (off + i) (by omega)
      rw [packetFill_succ, packetFill_succ, ih _ _ _ _ (by omega), fillPair, fillPair,
        hread _ (by omega)]

/-- The loop leaves the pool alone. -/
theorem packetFill_pool (src : Mem) (len k : Nat) : ∀ (i off : Nat) (p : NePair) (pkt : NePacket),
    (packetFill src len k i off p pkt).1.pool = p.pool ∧
      (packetFill src len k i off p pkt).1.frameSize = p.frameSize := by
  induction k with
  | zero => intro i off p pkt; exact ⟨rfl, rfl⟩
  | succ k ih =>
      intro i off p pkt
      rw [packetFill_succ]
      obtain ⟨h1, h2⟩ := ih (i + 1) (off + min (len - off) (pkt.segRoom i))
        (fillPair src len i off p pkt) (fillPacket len i off pkt)
      exact ⟨h1.trans (fillPair_pool ..), h2.trans (fillPair_frameSize ..)⟩

theorem segRegions_succ (pkt : NePacket) (i k : Nat) :
    segRegions pkt i (k + 1) = (pkt.segAddr i, pkt.segRoom i) :: segRegions pkt (i + 1) k := by
  rw [segRegions, List.range'_succ, List.map_cons, segRegions]

/-- The segments behind the one just filled are as they were. -/
theorem segRegions_fillPacket (len i off : Nat) (pkt : NePacket) (k : Nat) :
    segRegions (fillPacket len i off pkt) (i + 1) k = segRegions pkt (i + 1) k := by
  rw [segRegions, segRegions]
  apply List.map_congr_left
  intro j hj
  have := List.mem_range'_1.mp hj
  rw [fillPacket_segRoom_of_ne (by omega)]
  rfl

/-- How much is placed: everything that is left, or all the room. -/
theorem packetFill_off (src : Mem) (len k : Nat) : ∀ (i off : Nat) (p : NePair) (pkt : NePacket),
    off ≤ len → (packetFill src len k i off p pkt).2.2 =
      off + min (len - off) ((segRegions pkt i k).map Prod.snd).sum := by
  induction k with
  | zero => intro i off p pkt _; rw [packetFill]; simp [segRegions]
  | succ k ih =>
      intro i off p pkt hoff
      rw [packetFill_succ, ih _ _ _ _ (by omega), segRegions_fillPacket, segRegions_succ,
        List.map_cons, List.sum_cons]
      omega

/-- The loop writes nothing outside the segments it fills. -/
theorem packetFill_read (src : Mem) (len k : Nat) : ∀ (i off : Nat) (p : NePair) (pkt : NePacket)
    (a n : Nat), (∀ r ∈ segRegions pkt i k, Region.Disjoint (a, n) r) →
    (packetFill src len k i off p pkt).1.mem.read a n = p.mem.read a n := by
  induction k with
  | zero => intro i off p pkt a n _; rfl
  | succ k ih =>
      intro i off p pkt a n hd
      rw [segRegions_succ] at hd
      rw [packetFill_succ, ih, fillPair_read (hd _ List.mem_cons_self)]
      rw [segRegions_fillPacket]
      exact fun r hr => hd r (List.mem_cons_of_mem _ hr)

/-- The filled segments hold the source from where the loop started. -/
theorem packetFill_bytes (src : Mem) (len k : Nat) : ∀ (i off : Nat) (p : NePair) (pkt : NePacket),
    off ≤ len → (segRegions pkt i k).Pairwise Region.Disjoint →
    segBytes (packetFill src len k i off p pkt).1.mem (packetFill src len k i off p pkt).2.1 i k =
      src.read off ((packetFill src len k i off p pkt).2.2 - off) := by
  induction k with
  | zero => intro i off p pkt _ _; rw [segBytes_zero, packetFill]; simp
  | succ k ih =>
      intro i off p pkt hoff hd
      rw [segRegions_succ, List.pairwise_cons] at hd
      have hn : off + min (len - off) (pkt.segRoom i) ≤ len := by omega
      have hlen := packetFill_off src len k (i + 1) (off + min (len - off) (pkt.segRoom i))
        (fillPair src len i off p pkt) (fillPacket len i off pkt) hn
      obtain ⟨segLen, hpkt, hout⟩ := packetFill_pkt src len k (i + 1)
        (off + min (len - off) (pkt.segRoom i)) (fillPair src len i off p pkt)
        (fillPacket len i off pkt)
      have hfirst := packetFill_read src len k (i + 1) (off + min (len - off) (pkt.segRoom i))
        (fillPair src len i off p pkt) (fillPacket len i off pkt) (pkt.segAddr i)
        (min (len - off) (pkt.segRoom i)) (by
          rw [segRegions_fillPacket]
          intro r hr
          rcases hd.1 r hr with h | h
          · exact .inl (by dsimp only at h ⊢; omega)
          · exact .inr h)
      have hrest := ih (i + 1) (off + min (len - off) (pkt.segRoom i))
        (fillPair src len i off p pkt) (fillPacket len i off pkt) hn (by
          rw [segRegions_fillPacket]; exact hd.2)
      rw [packetFill_succ, segBytes_succ, hrest]
      have haddr : (packetFill src len k (i + 1) (off + min (len - off) (pkt.segRoom i))
          (fillPair src len i off p pkt) (fillPacket len i off pkt)).2.1.segAddr i =
          pkt.segAddr i := by rw [hpkt]; rfl
      have hseg : (packetFill src len k (i + 1) (off + min (len - off) (pkt.segRoom i))
          (fillPair src len i off p pkt) (fillPacket len i off pkt)).2.1.segLen i =
          min (len - off) (pkt.segRoom i) := by
        rw [hpkt]
        dsimp only
        rw [hout i (by omega), fillPacket_segLen_self]
      rw [haddr, hseg, hfirst, fillPair_read_self, ← Mem.read_add]
      congr 1
      omega

/-- Once nothing is left, the segments stay empty. -/
theorem packetFill_done (src : Mem) (len k : Nat) : ∀ (i off : Nat) (p : NePair) (pkt : NePacket),
    len ≤ off → ∀ j, i ≤ j → j < i + k → (packetFill src len k i off p pkt).2.1.segLen j = 0 := by
  induction k with
  | zero => intro i off p pkt _ j h1 h2; omega
  | succ k ih =>
      intro i off p pkt hoff j h1 h2
      rw [packetFill_succ]
      by_cases hj : j = i
      · subst hj
        obtain ⟨segLen, hpkt, hout⟩ := packetFill_pkt src len k (j + 1)
          (off + min (len - off) (pkt.segRoom j)) (fillPair src len j off p pkt)
          (fillPacket len j off pkt)
        rw [hpkt]
        dsimp only
        rw [hout j (by omega), fillPacket_segLen_self]
        omega
      · exact ih (i + 1) _ _ _ (by omega) j (by omega) (by omega)

/-- A segment with room that stays empty is behind the end of the data, and so
are all segments after it. -/
theorem packetFill_empty (src : Mem) (len k : Nat) : ∀ (i off : Nat) (p : NePair) (pkt : NePacket),
    (∀ j, i ≤ j → j < i + k → pkt.segRoom j ≠ 0) → ∀ j j', i ≤ j → j ≤ j' → j' < i + k →
      (packetFill src len k i off p pkt).2.1.segLen j = 0 →
      (packetFill src len k i off p pkt).2.1.segLen j' = 0 := by
  induction k with
  | zero => intro i off p pkt _ j j' h1 h2 h3; omega
  | succ k ih =>
      intro i off p pkt hroom j j' h1 h2 h3
      by_cases hj : j = i
      · subst hj
        intro h0
        have hfull : len ≤ off := by
          rw [packetFill_succ] at h0
          obtain ⟨segLen, hpkt, hout⟩ := packetFill_pkt src len k (j + 1)
            (off + min (len - off) (pkt.segRoom j)) (fillPair src len j off p pkt)
            (fillPacket len j off pkt)
          rw [hpkt] at h0
          dsimp only at h0
          rw [hout j (by omega), fillPacket_segLen_self] at h0
          have := hroom j (Nat.le_refl j) (by omega)
          omega
        exact packetFill_done src len (k + 1) j off p pkt hfull j' h2 h3
      · rw [packetFill_succ]
        refine ih (i + 1) _ _ _ (fun m hm1 hm2 => ?_) j j' (by omega) h2 (by omega)
        rw [fillPacket_segRoom_of_ne (by omega)]
        exact hroom m (by omega) (by omega)

end Fill

/-! ## trimming -/

/-- The used segments are those before the first empty one. -/
theorem usedSegs_spec (pkt : NePacket) (k : Nat) : ∀ i,
    i ≤ usedSegs pkt k i ∧ usedSegs pkt k i ≤ i + k ∧
      (∀ j, i ≤ j → j < usedSegs pkt k i → pkt.segLen j ≠ 0) ∧
      (usedSegs pkt k i < i + k → pkt.segLen (usedSegs pkt k i) = 0) := by
  induction k with
  | zero =>
      intro i
      exact ⟨Nat.le_refl i, Nat.le_refl i, fun j h1 h2 => absurd h2 (by rw [usedSegs]; omega),
        fun h => absurd h (by rw [usedSegs]; omega)⟩
  | succ k ih =>
      intro i
      rw [usedSegs]
      by_cases h : pkt.segLen i ≠ 0
      · rw [if_pos h]
        obtain ⟨h1, h2, h3, h4⟩ := ih (i + 1)
        refine ⟨by omega, by omega, fun j hj1 hj2 => ?_, fun hlt => h4 (by omega)⟩
        by_cases hj : j = i
        · rw [hj]; exact h
        · exact h3 j (by omega) hj2
      · rw [if_neg h]
        exact ⟨Nat.le_refl i, by omega, fun j h1 h2 => absurd h2 (by omega),
          fun _ => Decidable.not_not.mp h⟩

/-- Trimming frees segments; it touches neither the memory nor the lengths nor
the segments before. -/
theorem packetTrim_spec (k : Nat) : ∀ (i : Nat) (p : NePair) (pkt : NePacket),
    (packetTrim k i p pkt).1.mem = p.mem ∧
      (packetTrim k i p pkt).2.segLen = pkt.segLen ∧
      ∀ j < i, (packetTrim k i p pkt).2.segAddr j = pkt.segAddr j := by
  induction k with
  | zero => intro i p pkt; exact ⟨rfl, rfl, fun _ _ => rfl⟩
  | succ k ih =>
      intro i p pkt
      rw [packetTrim]
      obtain ⟨h1, h2, h3⟩ := ih (i + 1) (neFrameFree p (pkt.segAddr i))
        { packetSetSegAddr pkt i 0 with
          segCap := Function.update (packetSetSegAddr pkt i 0).segCap i 0 }
      refine ⟨h1, h2, fun j hj => ?_⟩
      refine (h3 j (by omega)).trans ?_
      simp only [packetSetSegAddr]
      rw [Function.update_of_ne (by omega)]

/-! ## `ne_packet_write` -/

section Write

variable {p p' : NePair} {pkt pkt' : NePacket} {src : Mem} {len : Nat}

/-- The packet `ne_packet_write` copies into. -/
def grown (p : NePair) (pkt : NePacket) (len : Nat) : Growing :=
  packetGrow len nePacketMaxSegs ⟨p, pkt, pkt.segCount, packetCapacity pkt pkt.segCount⟩

/-- What the copy loop makes of it. -/
def filled (p : NePair) (pkt : NePacket) (src : Mem) (len : Nat) : NePair × NePacket × Nat :=
  packetFill src len (grown p pkt len).nsegs 0 0 (grown p pkt len).pair (grown p pkt len).pkt

/-- A write that fails has grown the packet at most; one that succeeds has
copied and trimmed. -/
theorem nePacketWrite_cases (p : NePair) (pkt : NePacket) (src : Mem) (len : Nat) :
    nePacketWrite p pkt src len = (false, p, pkt) ∨
      ((grown p pkt len).capacity < len ∧
        nePacketWrite p pkt src len = (false, (grown p pkt len).pair, (grown p pkt len).pkt)) ∨
      (0 < len ∧ len ≤ neJumboFrameMax ∧ len ≤ (grown p pkt len).capacity ∧
        ∃ used, used = usedSegs (filled p pkt src len).2.1 (grown p pkt len).nsegs 0 ∧
          ∃ t, t = packetTrim ((grown p pkt len).nsegs - used) used (filled p pkt src len).1
              (filled p pkt src len).2.1 ∧
            nePacketWrite p pkt src len =
              ((filled p pkt src len).2.2 == len, t.1, { t.2 with nsegs := used, len := len })) := by
  rw [nePacketWrite]
  by_cases hlen : len = 0 ∨ len > neJumboFrameMax
  · rw [if_pos hlen]; exact .inl rfl
  · rw [if_neg hlen]
    by_cases hcap : (grown p pkt len).capacity < len
    · exact .inr (.inl ⟨hcap, if_pos hcap⟩)
    · exact .inr (.inr ⟨by omega, by omega, by omega, _, rfl, _, rfl, if_neg hcap⟩)

theorem growInv_grown (h : Writable p pkt pkt.segCount) (len : Nat) :
    GrowInv p pkt pkt.segCount (grown p pkt len) := growInv_packetGrow h len _

/-- The segments of a packet are disjoint. -/
theorem Writable.segRegions {n : Nat} (h : Writable p pkt n) :
    (segRegions pkt 0 n).Pairwise Region.Disjoint := (List.pairwise_append.mp h.disjoint).1

/-- The capacity that is counted is the one the segments have. -/
theorem grown_capacity (hfs : p.frameSize ≠ 0) (pkt : NePacket) (len : Nat) :
    (grown p pkt len).capacity = packetCapacity (grown p pkt len).pkt (grown p pkt len).nsegs := by
  refine (@packetGrow_induct (fun g => g.pair.frameSize = p.frameSize ∧
    g.capacity = packetCapacity g.pkt g.nsegs) len ?_ nePacketMaxSegs _ ⟨rfl, rfl⟩).2
  rintro g addr rest ⟨hsize, hcap⟩ _ _ _
  refine ⟨hsize, ?_⟩
  refine Eq.trans ?_ (packetCapacity_add (by dsimp only; rw [hsize]; exact hfs)).symm
  rw [← hcap]
  rfl

/-- With room enough, everything is copied. -/
theorem filled_off (hfs : p.frameSize ≠ 0) (src : Mem)
    (hcap : len ≤ (grown p pkt len).capacity) : (filled p pkt src len).2.2 = len := by
  have hg := grown_capacity hfs pkt len
  rw [filled, packetFill_off _ _ _ _ _ _ _ (Nat.zero_le len), ← packetCapacity_eq_sum, ← hg]
  omega

/-- A write depends on the bytes that are to be written. -/
theorem nePacketWrite_congr {src src' : Mem} {len : Nat} (h : src.read 0 len = src'.read 0 len)
    (p : NePair) (pkt : NePacket) : nePacketWrite p pkt src len = nePacketWrite p pkt src' len := by
  simp only [nePacketWrite, packetFill_congr h _ _ _ _ _ (Nat.zero_le len)]

/-- A packet written to holds the source. -/
theorem nePacketWrite_holds (h : Writable p pkt pkt.segCount)
    (hw : nePacketWrite p pkt src len = (true, p', pkt')) : Holds p' pkt' (src.read 0 len) := by
  rcases nePacketWrite_cases p pkt src len with hc | ⟨-, hc⟩ | ⟨hpos, -, hcap, used, hused, t, ht, hc⟩
  · rw [hc] at hw; cases hw
  · rw [hc] at hw; cases hw
  · have hg := growInv_grown h len
    have hoff := filled_off h.frame src hcap
    have hbytes := packetFill_bytes src len (grown p pkt len).nsegs 0 0 (grown p pkt len).pair
      (grown p pkt len).pkt (Nat.zero_le len) hg.writable.segRegions
    have hempty := packetFill_empty src len (grown p pkt len).nsegs 0 0 (grown p pkt len).pair
      (grown p pkt len).pkt fun j _ hj => hg.writable.room (by omega)
    change segBytes (filled p pkt src len).1.mem (filled p pkt src len).2.1 0
      (grown p pkt len).nsegs = src.read 0 ((filled p pkt src len).2.2 - 0) at hbytes
    change ∀ j j', 0 ≤ j → j ≤ j' → j' < 0 + (grown p pkt len).nsegs →
      (filled p pkt src len).2.1.segLen j = 0 → (filled p pkt src len).2.1.segLen j' = 0 at hempty
    rw [hoff, Nat.sub_zero] at hbytes
    obtain ⟨-, hle, hne, hzero⟩ := usedSegs_spec (filled p pkt src len).2.1 (grown p pkt len).nsegs 0
    rw [← hused] at hle hne hzero
    obtain ⟨hmem, hsegLen, haddr⟩ := packetTrim_spec ((grown p pkt len).nsegs - used) used
      (filled p pkt src len).1 (filled p pkt src len).2.1
    rw [← ht] at hmem hsegLen haddr
    rw [hc, Prod.mk.injEq, Prod.mk.injEq] at hw
    obtain ⟨-, rfl, rfl⟩ := hw
    -- the segments behind the used ones are empty
    have hused_bytes : segBytes (filled p pkt src len).1.mem (filled p pkt src len).2.1 0 used =
        src.read 0 len := by
      have hsplit : (grown p pkt len).nsegs = used + ((grown p pkt len).nsegs - used) := by omega
      have hrest : segBytes (filled p pkt src len).1.mem (filled p pkt src len).2.1 (0 + used)
          ((grown p pkt len).nsegs - used) = [] := by
        rw [segBytes, List.flatMap_eq_nil_iff]
        intro j hj
        have hj' := List.mem_range'_1.mp hj
        have hlt : used < 0 + (grown p pkt len).nsegs := by omega
        rw [hempty used j (Nat.zero_le _) (by omega) (by omega) (hzero hlt), Mem.read_zero]
      rw [hsplit, segBytes_append, hrest, List.append_nil] at hbytes
      exact hbytes
    have hpos' : 1 ≤ used := by
      by_contra h0
      have : used = 0 := by omega
      rw [this, segBytes_zero] at hused_bytes
      have := congrArg List.length hused_bytes
      rw [Mem.length_read, List.length_nil] at this
      omega
    refine ⟨⟨hpos', by have := hg.writable.segs; dsimp only; omega⟩, ?_, ?_, ?_⟩
    · intro j hj
      dsimp only at hj ⊢
      rw [hsegLen]
      exact hne j (Nat.zero_le j) hj
    · rw [Mem.length_read]
    · refine Eq.trans ?_ hused_bytes
      apply segBytes_congr
      intro j _ hj
      dsimp only at hj ⊢
      rw [hmem, hsegLen, haddr j (by omega)]

end Write

end NetworkEncryptor
