import NetworkEncryptor.Lib.Run
import NetworkEncryptor.PacketWrite
import NetworkEncryptor.Pipeline
import NetworkEncryptor.RxLoop
import Mathlib.Tactic.SplitIfs

/-!
# NetworkEncryptor.Chunks

Where packets lie in their UMEM chunks.  The driver receives a packet somewhere
inside a chunk, behind its headroom, and `recv_queue` records the room from there on.
A frame that comes back to the pool keeps the address the driver gave it; the next
`ne_packet_write` that takes it records a whole chunk of room from that address, and
can store past the end of the chunk.

`UmemState` is the pool, the queues, the rings and the packets in the hands of the
threads, with every operation on them as a step in any order.  As long as no write
takes such a frame for more bytes than it has (`WriteFits`), all copies and all TX
descriptors stay inside their chunks (`chunks_kept`).
-/

namespace NetworkEncryptor

/-! ## the system -/

/-- `n` bytes from `addr` on lie in one chunk. -/
def InChunk (addr n : Nat) : Prop := addr % neFrame + n ≤ neFrame

instance (addr n : Nat) : Decidable (InChunk addr n) := inferInstanceAs (Decidable (_ ≤ _))

/-- The pool with the memory, the queues of all sockets, the rings between the threads,
and the packets the threads hold. -/
structure UmemState where
  pair : NePair
  queue : Nat → NeXskQueue
  ring : Nat → NeRing
  held : List NePacket

/-- What `ne_pair_open` leaves. -/
def UmemState.init (nFrames : Nat) (mem : Mem) : UmemState :=
  { pair := ⟨mem, neFrame, poolOpen nFrames, [], []⟩
    queue := fun _ => NeXskQueue.init
    ring := fun _ => NeRing.empty
    held := [] }

/-- The operations on the UMEM, and what the kernel does with its side of the rings. -/
inductive UmemEvent
  | prefill (i want : Nat)
  | refill (i : Nat)
  | fillTake (i : Nat)
  | receive (i : Nat) (d : XdpDesc)
  | recv (i max : Nat) (stamp : RxStamp)
  | release (i : Nat)
  | free (n : Nat)
  | alloc
  | write (n : Nat) (src : Mem) (len : Nat)
  | push (n r : Nat)
  | tx (i r : Nat)
  | txTake (i : Nat)
  | complete (i n : Nat)
  | drainCq (i : Nat)

def UmemState.setPool (s : UmemState) (pool : NePool) : UmemState :=
  { s with pair := { s.pair with pool := pool } }

def UmemState.setQueue (s : UmemState) (i : Nat) (q : NeXskQueue) : UmemState :=
  { s with queue := Function.update s.queue i q }

/-- The driver has a frame of the chunk of `d`, and the packet is inside the chunk. -/
def receivable (q : NeXskQueue) (d : XdpDesc) : Bool :=
  (q.driverRx.any fun a => a / neFrame == d.addr / neFrame) && decide (InChunk d.addr d.len)

def UmemState.step (s : UmemState) : UmemEvent → UmemState
  | .prefill i want =>
      let r := prefillQueue want want (s.queue i) s.pair.pool
      (s.setQueue i r.1).setPool r.2
  | .refill i =>
      let r := refillFqQueue (s.queue i) s.pair.pool
      (s.setQueue i r.1).setPool r.2
  | .fillTake i =>
      match (s.queue i).fq.entries with
      | [] => s
      | a :: rest =>
          s.setQueue i { s.queue i with
            fq := { (s.queue i).fq with entries := rest }
            driverRx := (s.queue i).driverRx ++ [a] }
  | .receive i d =>
      if receivable (s.queue i) d then
        s.setQueue i { s.queue i with
          driverRx := (s.queue i).driverRx.eraseP fun a => a / neFrame == d.addr / neFrame
          rx := (s.queue i).rx.publish [d] }
      else s
  | .recv i max stamp =>
      let r := recvQueue { s.queue i with rxPending := 0 } max stamp
      { s.setQueue i r.1 with held := s.held ++ r.2 }
  | .release i =>
      let r := releaseRxQueue (s.queue i) s.pair.pool
      (s.setQueue i r.1).setPool r.2
  | .free n =>
      match s.held[n]? with
      | none => s
      | some pkt => { s with pair := (nePacketFree s.pair pkt).1, held := s.held.eraseIdx n }
  | .alloc => { s with held := s.held ++ [NePacket.zero] }
  | .write n src len =>
      match s.held[n]? with
      | none => s
      | some pkt =>
          let r := nePacketWrite s.pair pkt src len
          { s with pair := r.2.1, held := s.held.set n r.2.2 }
  | .push n r =>
      match s.held[n]? with
      | none => s
      | some pkt =>
          match neRingTryPush (s.ring r) pkt with
          | none => s
          | some ring => { s with ring := Function.update s.ring r ring, held := s.held.eraseIdx n }
  | .tx i r =>
      let t := txRound (s.queue i) (s.ring r) s.pair.pool s.pair.frameSize
      { (s.setQueue i t.2.1).setPool t.2.2.2 with ring := Function.update s.ring r t.2.2.1 }
  | .txTake i =>
      match (s.queue i).tx.entries with
      | [] => s
      | d :: rest =>
          s.setQueue i { s.queue i with
            tx := { (s.queue i).tx with entries := rest }
            driverTx := (s.queue i).driverTx ++ [d.addr] }
  | .complete i n =>
      match (s.queue i).driverTx[n]? with
      | none => s
      | some a =>
          s.setQueue i { s.queue i with
            driverTx := (s.queue i).driverTx.eraseIdx n
            cq := (s.queue i).cq.publish [a] }
  | .drainCq i =>
      let r := drainCqQueue (s.queue i) s.pair.pool
      (s.setQueue i r.1).setPool r.2

/-- Every copy of a write and every descriptor that was submitted lies in one chunk. -/
def ChunksKept (s : UmemState) : Prop :=
  (∀ c ∈ s.pair.copies, InChunk c.1 c.2) ∧
    ∀ i, ∀ job ∈ (s.queue i).sent, ∀ d ∈ txDescs job s.pair.frameSize, InChunk d.addr d.len

/-- The write has room: the segments the packet has are in their chunks as recorded,
and each frame it takes from the pool holds the bytes that are left for it. -/
def WriteFits (pair : NePair) (pkt : NePacket) (len : Nat) : Prop :=
  (∀ i < pkt.segCount, InChunk (pkt.segAddr i) (pkt.segRoom i)) ∧
    ∀ r a, pair.pool.frames[r]? = some a → pkt.segCount + r < nePacketMaxSegs →
      packetCapacity pkt pkt.segCount + r * neFrame < len →
      InChunk a (min neFrame (len - (packetCapacity pkt pkt.segCount + r * neFrame)))

/-- All writes have room. -/
def WritesFit (s : UmemState) : UmemEvent → Prop
  | .write n _ len => ∀ pkt, s.held[n]? = some pkt → WriteFits s.pair pkt len
  | _ => True

/-! ## what a write stores where -/

theorem InChunk.of_le {addr n m : Nat} (h : InChunk addr n) (hm : m ≤ n) : InChunk addr m := by
  simp only [InChunk] at h ⊢
  omega

theorem inChunk_zero (addr : Nat) : InChunk addr 0 := by
  have := Nat.mod_lt addr (show 0 < neFrame by decide)
  simp only [InChunk] at *
  omega

/-- Every chunk starts where frame 0 does. -/
theorem InChunk.base {addr n : Nat} (h : InChunk addr n) : InChunk 0 n := by
  simp only [InChunk, Nat.zero_mod] at h ⊢
  omega

section Write

variable {p : NePair} {pkt : NePacket} {src : Mem} {len : Nat}

/-- The rooms of the `k` segments from `i` on. -/
def roomsFrom (pkt : NePacket) (i k : Nat) : Nat := ((List.range' i k).map pkt.segRoom).sum

/-- How much goes into each segment: what is left for it, up to its room. -/
theorem packetFill_segLen (src : Mem) (len k : Nat) : ∀ (i off : Nat) (p : NePair) (pkt : NePacket), off ≤ len →
    ∀ j < k, (packetFill src len k i off p pkt).2.1.segLen (i + j) =
      min (len - (off + roomsFrom pkt i j)) (pkt.segRoom (i + j)) := by
  induction k with
  | zero => intro i off p pkt _ j hj; omega
  | succ k ih =>
      intro i off p pkt hoff j hj
      rw [packetFill_succ]
      cases j with
      | zero =>
          obtain ⟨segLen, hpkt, hsame⟩ := packetFill_pkt src len k (i + 1) (off + min (len - off) (pkt.segRoom i))
            (fillPair src len i off p pkt) (fillPacket len i off pkt)
          rw [hpkt]
          simp only [Nat.add_zero, roomsFrom, List.range'_zero, List.map_nil, List.sum_nil]
          rw [hsame i (by omega), fillPacket_segLen_self]
      | succ j =>
          have hrooms : roomsFrom (fillPacket len i off pkt) (i + 1) j = roomsFrom pkt (i + 1) j := by
            refine congrArg List.sum (List.map_congr_left fun l hl => ?_)
            have := (List.mem_range'_1.mp hl).1
            exact fillPacket_segRoom_of_ne (by omega)
          have hnext := ih (i + 1) (off + min (len - off) (pkt.segRoom i)) (fillPair src len i off p pkt)
            (fillPacket len i off pkt) (by omega) j (by omega)
          rw [hrooms, fillPacket_segRoom_of_ne (by omega)] at hnext
          have hcons : roomsFrom pkt i (j + 1) = pkt.segRoom i + roomsFrom pkt (i + 1) j := by
            simp [roomsFrom, List.range'_succ]
          rw [hcons, show i + (j + 1) = i + 1 + j by omega, hnext]
          omega

/-- The copies are into the segments, as long as their lengths then say. -/
theorem packetFill_copies (src : Mem) (len k : Nat) : ∀ (i off : Nat) (p : NePair) (pkt : NePacket),
    ∀ c ∈ (packetFill src len k i off p pkt).1.copies, c ∈ p.copies ∨
      ∃ j < k, c = (pkt.segAddr (i + j), (packetFill src len k i off p pkt).2.1.segLen (i + j)) := by
  induction k with
  | zero => intro i off p pkt c hc; exact .inl hc
  | succ k ih =>
      intro i off p pkt c hc
      rw [packetFill_succ] at hc ⊢
      rcases ih _ _ _ _ c hc with hc | ⟨j, hj, hc⟩
      · rw [fillPair] at hc
        split_ifs at hc with hn
        · rcases List.mem_append.mp hc with hc | hc
          · exact .inl hc
          · refine .inr ⟨0, by omega, ?_⟩
            obtain ⟨segLen, hpkt, hsame⟩ := packetFill_pkt src len k (i + 1) (off + min (len - off) (pkt.segRoom i))
              (fillPair src len i off p pkt) (fillPacket len i off pkt)
            rw [hpkt]
            simp only [Nat.add_zero]
            rw [hsame i (by omega), fillPacket_segLen_self, List.mem_singleton.mp hc, Mem.length_read]
        · exact .inl hc
      · refine .inr ⟨j + 1, by omega, ?_⟩
        rw [show i + (j + 1) = i + 1 + j by omega]
        exact hc

/-- What the allocation loop does: one frame of the pool after the other becomes a
segment with a whole chunk of room. -/
structure GrownFrom (p : NePair) (pkt : NePacket) (len : Nat) (g : Growing) : Prop where
  le : pkt.segCount ≤ g.nsegs
  frameSize : g.pair.frameSize = p.frameSize
  copies : g.pair.copies = p.copies
  pool : g.pair.pool.frames = p.pool.frames.drop (g.nsegs - pkt.segCount)
  capacity : g.capacity = packetCapacity pkt pkt.segCount + (g.nsegs - pkt.segCount) * p.frameSize
  old : ∀ i, i < pkt.segCount ∨ g.nsegs ≤ i →
    g.pkt.segAddr i = pkt.segAddr i ∧ g.pkt.segCap i = pkt.segCap i ∧ g.pkt.segLen i = pkt.segLen i
  new : ∀ r, pkt.segCount + r < g.nsegs →
    p.pool.frames[r]? = some (g.pkt.segAddr (pkt.segCount + r)) ∧
      g.pkt.segCap (pkt.segCount + r) = p.frameSize ∧ g.pkt.segLen (pkt.segCount + r) = 0 ∧
      pkt.segCount + r < nePacketMaxSegs ∧ packetCapacity pkt pkt.segCount + r * p.frameSize < len
  pktLen : g.pkt.len = pkt.len
  kept : g.nsegs = pkt.segCount → g.pkt.nsegs = pkt.nsegs
  nsegs : pkt.segCount < g.nsegs → g.pkt.nsegs = g.nsegs

theorem grownFrom_init (p : NePair) (pkt : NePacket) (len : Nat) :
    GrownFrom p pkt len ⟨p, pkt, pkt.segCount, packetCapacity pkt pkt.segCount⟩ := by
  constructor <;> simp

theorem GrownFrom.add {g : Growing} (h : GrownFrom p pkt len g) {addr : Nat} {rest : List Nat}
    (hcap : g.capacity < len) (hsegs : g.nsegs < nePacketMaxSegs) (hpool : g.pair.pool.frames = addr :: rest) :
    GrownFrom p pkt len (g.add len addr { g.pair with
      pool := { g.pair.pool with frames := rest } }) := by
  have hle := h.le
  have hdrop := h.pool
  rw [hpool] at hdrop
  have hhead : p.pool.frames[g.nsegs - pkt.segCount]? = some addr := by
    rw [← List.head?_drop, ← hdrop]; rfl
  constructor
  · simp only [Growing.add]; omega
  · exact h.frameSize
  · exact h.copies
  · simp only [Growing.add]
    rw [show g.nsegs + 1 - pkt.segCount = (g.nsegs - pkt.segCount) + 1 by omega, ← List.tail_drop, ← hdrop]
    rfl
  · simp only [Growing.add]
    rw [h.capacity, h.frameSize, show g.nsegs + 1 - pkt.segCount = (g.nsegs - pkt.segCount) + 1 by omega,
      Nat.add_mul, Nat.one_mul, Nat.add_assoc]
  · intro i hi
    simp only [Growing.add] at hi
    have hne : i ≠ g.nsegs := by omega
    have hold := h.old i (by omega)
    simpa [Growing.add, packetSetSegAddr, hne] using hold
  · intro r hr
    simp only [Growing.add] at hr
    by_cases heq : pkt.segCount + r = g.nsegs
    · have hr' : r = g.nsegs - pkt.segCount := by omega
      have hc := h.capacity
      rw [← hr'] at hc hhead
      simp only [Growing.add, packetSetSegAddr, heq, Function.update_self]
      exact ⟨hhead, h.frameSize, trivial, hsegs, by omega⟩
    · have hnew := h.new r (by omega)
      simpa [Growing.add, packetSetSegAddr, heq] using hnew
  · exact h.pktLen
  · intro heq
    simp only [Growing.add] at heq
    omega
  · intro _
    rfl

theorem grownFrom_grown (p : NePair) (pkt : NePacket) (len : Nat) : GrownFrom p pkt len (grown p pkt len) :=
  packetGrow_induct (fun _ _ _ h hcap hsegs hpool => h.add hcap hsegs hpool) _ _ (grownFrom_init p pkt len)

/-- The rooms before a new segment are the capacity the loop had counted. -/
theorem GrownFrom.rooms {g : Growing} (h : GrownFrom p pkt len g) (hsize : p.frameSize ≠ 0) :
    ∀ r, pkt.segCount + r ≤ g.nsegs →
      roomsFrom g.pkt 0 (pkt.segCount + r) = packetCapacity pkt pkt.segCount + r * p.frameSize := by
  intro r
  induction r with
  | zero =>
      intro _
      simp only [Nat.add_zero, Nat.zero_mul, roomsFrom, packetCapacity, ← List.range_eq_range']
      refine congrArg List.sum (List.map_congr_left fun i hi => ?_)
      obtain ⟨-, hcap, hlen⟩ := h.old i (.inl (List.mem_range.mp hi))
      rw [NePacket.segRoom, NePacket.segRoom, hcap, hlen]
  | succ r ih =>
      intro hr
      obtain ⟨-, hcap, -⟩ := h.new r (by omega)
      have hroom : g.pkt.segRoom (pkt.segCount + r) = p.frameSize := by
        rw [NePacket.segRoom, hcap, if_pos hsize]
      have hlast : roomsFrom g.pkt 0 (pkt.segCount + (r + 1)) =
          roomsFrom g.pkt 0 (pkt.segCount + r) + g.pkt.segRoom (pkt.segCount + r) := by
        rw [← Nat.add_assoc]
        simp [roomsFrom, List.range'_concat]
      rw [hlast, ih (by omega), hroom, Nat.add_mul, Nat.one_mul, Nat.add_assoc]

/-- All of it stays in its chunk if the write has room. -/
theorem GrownFrom.fits {g : Growing} (h : GrownFrom p pkt len g) (hsize : p.frameSize = neFrame)
    (hw : WriteFits p pkt len) {j : Nat} (hj : j < g.nsegs) :
    InChunk (g.pkt.segAddr j) (min (len - roomsFrom g.pkt 0 j) (g.pkt.segRoom j)) := by
  by_cases hold : j < pkt.segCount
  · obtain ⟨haddr, hcap, hlen⟩ := h.old j (.inl hold)
    have hroom : g.pkt.segRoom j = pkt.segRoom j := by rw [NePacket.segRoom, NePacket.segRoom, hcap, hlen]
    rw [haddr, hroom]
    exact (hw.1 j hold).of_le (Nat.min_le_right _ _)
  · obtain ⟨r, rfl⟩ : ∃ r, j = pkt.segCount + r := ⟨j - pkt.segCount, by omega⟩
    obtain ⟨hpool, hcap, -, hsegs, hcapacity⟩ := h.new r hj
    have hroom : g.pkt.segRoom (pkt.segCount + r) = neFrame := by
      rw [NePacket.segRoom, hcap, if_pos (by rw [hsize]; decide), hsize]
    rw [h.rooms (by rw [hsize]; decide) r (by omega), hroom, hsize, Nat.min_comm]
    rw [hsize] at hcapacity
    exact hw.2 r _ hpool hsegs hcapacity

/-- The segments of a packet lie in their chunks, also when its one segment is sent
with the length of the packet. -/
structure PktFits (pkt : NePacket) : Prop where
  segs : ∀ i, InChunk (pkt.segAddr i) (pkt.segLen i)
  whole : pkt.txSegs = 1 → pkt.segLen 0 = 0 → InChunk (pkt.segAddr 0) (min pkt.len neFrame)

theorem pktFits_zero : PktFits NePacket.zero := by
  constructor
  · intro i; exact inChunk_zero 0
  · intro _ _; exact inChunk_zero 0

theorem segCount_eq_zero_iff : pkt.segCount = 0 ↔ pkt.nsegs = 0 ∧ pkt.addr = 0 ∧ pkt.len = 0 := by
  rw [NePacket.segCount]
  split_ifs with h1 h2
  · simp [h1]
  · simp at h1; simp; intro _ h; exact h2.resolve_left (fun hne => hne h)
  · simp at h1 h2; simp [h1, h2]

/-- A write that failed for lack of frames. -/
theorem GrownFrom.pktFits {g : Growing} (h : GrownFrom p pkt len g) (hpkt : PktFits pkt) : PktFits g.pkt := by
  have hle := h.le
  constructor
  · intro i
    by_cases hi : i < pkt.segCount ∨ g.nsegs ≤ i
    · obtain ⟨haddr, -, hlen⟩ := h.old i hi
      rw [haddr, hlen]
      exact hpkt.segs i
    · obtain ⟨-, -, hlen, -⟩ := h.new (i - pkt.segCount) (by omega)
      rw [Nat.add_sub_cancel' (by omega)] at hlen
      rw [hlen]
      exact inChunk_zero _
  · intro hone hzero
    rw [h.pktLen]
    by_cases heq : g.nsegs = pkt.segCount
    · obtain ⟨haddr, -, hlen⟩ := h.old 0 (by omega)
      rw [haddr]
      refine hpkt.whole ?_ (hlen ▸ hzero)
      rw [NePacket.txSegs, ← h.kept heq]
      exact hone
    · have hlt : pkt.segCount < g.nsegs := by omega
      have hsegs : g.nsegs = 1 := by
        rw [NePacket.txSegs, h.nsegs hlt, if_pos (by omega)] at hone
        exact hone
      rw [(segCount_eq_zero_iff.mp (show pkt.segCount = 0 by omega)).2.2]
      exact inChunk_zero _

theorem packetTrim_segAddr (k : Nat) : ∀ (i : Nat) (p : NePair) (pkt : NePacket) (j : Nat),
    (packetTrim k i p pkt).2.segAddr j = if i ≤ j ∧ j < i + k then 0 else pkt.segAddr j := by
  induction k with
  | zero => intro i p pkt j; rw [if_neg (by omega)]; rfl
  | succ k ih =>
      intro i p pkt j
      rw [packetTrim, ih]
      by_cases hj : j = i
      · subst hj; simp [packetSetSegAddr]
      · have hiff : (i + 1 ≤ j ∧ j < i + 1 + k) ↔ (i ≤ j ∧ j < i + (k + 1)) := by omega
        simp only [hiff, packetSetSegAddr, Function.update_of_ne hj]

theorem packetTrim_pair (k : Nat) : ∀ (i : Nat) (p : NePair) (pkt : NePacket),
    (packetTrim k i p pkt).1.copies = p.copies ∧ (packetTrim k i p pkt).1.frameSize = p.frameSize := by
  induction k with
  | zero => intro i p pkt; exact ⟨rfl, rfl⟩
  | succ k ih => intro i p pkt; rw [packetTrim]; exact ih _ _ _

theorem nePacketWrite_fits (hsize : p.frameSize = neFrame) (hpkt : PktFits pkt) (hw : WriteFits p pkt len)
    (src : Mem) :
    PktFits (nePacketWrite p pkt src len).2.2 ∧ (nePacketWrite p pkt src len).2.1.frameSize = neFrame ∧
      ∀ c ∈ (nePacketWrite p pkt src len).2.1.copies, c ∈ p.copies ∨ InChunk c.1 c.2 := by
  have hg := grownFrom_grown p pkt len
  rcases nePacketWrite_cases p pkt src len with heq | ⟨-, heq⟩ | ⟨hpos, -, hcap, used, hused, t, ht, heq⟩
  · rw [heq]; exact ⟨hpkt, hsize, fun c hc => .inl hc⟩
  · rw [heq]
    refine ⟨hg.pktFits hpkt, hg.frameSize.trans hsize, fun c hc => .inl ?_⟩
    rwa [hg.copies] at hc
  · rw [heq]
    have hlens := packetFill_segLen src len (grown p pkt len).nsegs 0 0 (grown p pkt len).pair
      (grown p pkt len).pkt (Nat.zero_le len)
    obtain ⟨segLen, hfilled, hbeyond⟩ := packetFill_pkt src len (grown p pkt len).nsegs 0 0
      (grown p pkt len).pair (grown p pkt len).pkt
    have hfits : ∀ j < (grown p pkt len).nsegs,
        InChunk ((grown p pkt len).pkt.segAddr j) ((filled p pkt src len).2.1.segLen j) := by
      intro j hj
      have hj' := hlens j hj
      simp only [Nat.zero_add] at hj'
      rw [filled, hj']
      exact hg.fits hsize hw hj
    have haddr : (filled p pkt src len).2.1.segAddr = (grown p pkt len).pkt.segAddr := by
      rw [filled, hfilled]
    have htrim := packetTrim_segAddr ((grown p pkt len).nsegs - used) used (filled p pkt src len).1
      (filled p pkt src len).2.1
    have hsegLen : t.2.segLen = (filled p pkt src len).2.1.segLen := by
      rw [ht]; exact (packetTrim_spec _ _ _ _).2.1
    obtain ⟨-, husedle, husednz, husedz⟩ := usedSegs_spec (filled p pkt src len).2.1 (grown p pkt len).nsegs 0
    rw [← hused, Nat.zero_add] at husedle husedz
    rw [← hused] at husednz
    rw [← ht] at htrim
    refine ⟨⟨?_, ?_⟩, ?_, ?_⟩
    · intro j
      simp only [hsegLen, htrim, haddr]
      by_cases hj : j < (grown p pkt len).nsegs
      · split_ifs
        · exact (hfits j hj).base
        · exact hfits j hj
      · rw [if_neg (by omega), filled, hfilled]
        have hold := hg.old j (by omega)
        simp only [hbeyond j (by omega)]
        rw [hold.1, hold.2.2]
        exact hpkt.segs j
    · intro hone hzero
      simp only [NePacket.txSegs] at hone
      simp only [hsegLen] at hzero
      -- the first segment is empty, so none is used and its address is gone
      have hzeroUsed : used = 0 := by
        by_contra hne
        exact husednz 0 (Nat.le_refl 0) (by omega) hzero
      have hsegs : 0 < (grown p pkt len).nsegs := by
        by_contra hno
        have hc := hg.capacity
        have hle := hg.le
        rw [show (grown p pkt len).nsegs - pkt.segCount = 0 by omega,
          show pkt.segCount = 0 by omega, Nat.zero_mul] at hc
        simp only [packetCapacity, List.range_zero, List.map_nil, List.sum_nil] at hc
        omega
      simp only [htrim, hzeroUsed]
      rw [if_pos (by omega)]
      simp only [InChunk, Nat.zero_mod]
      omega
    · rw [ht, (packetTrim_pair _ _ _ _).2, filled, (packetFill_pool ..).2, hg.frameSize, hsize]
    · intro c hc
      rw [ht, (packetTrim_pair _ _ _ _).1] at hc
      rcases packetFill_copies src len _ _ _ _ _ c hc with hc | ⟨j, hj, rfl⟩
      · rw [hg.copies] at hc; exact .inl hc
      · refine .inr ?_
        simp only [Nat.zero_add]
        exact hfits j hj

end Write

/-! ## receiving -/

/-- A chain that is being received. -/
structure ChainInChunks (chain : NePacket) : Prop where
  segs : ∀ i, InChunk (chain.segAddr i) (chain.segLen i)
  none : chain.nsegs = 0 → chain.len = 0
  one : chain.nsegs = 1 → chain.len ≤ chain.segLen 0

theorem chainInChunks_zero : ChainInChunks NePacket.zero :=
  ⟨fun _ => inChunk_zero 0, fun _ => rfl, fun h => by cases h⟩

theorem ChainInChunks.append {chain : NePacket} (h : ChainInChunks chain) {d : XdpDesc}
    (hd : InChunk d.addr d.len) : ChainInChunks (chainAppend chain d) := by
  have hlen : d.len % 65536 = d.len := by
    refine Nat.mod_eq_of_lt (Nat.lt_of_le_of_lt ?_ (show neFrame < 65536 by decide))
    simp only [InChunk] at hd
    omega
  constructor
  · intro i
    by_cases hi : i = chain.nsegs
    · simpa [chainAppend, packetSetSegAddr, hi, hlen] using hd
    · simpa [chainAppend, packetSetSegAddr, hi] using h.segs i
  · intro hz; simp [chainAppend] at hz
  · intro hone
    have hz : chain.nsegs = 0 := by simpa [chainAppend] using hone
    simp [chainAppend, packetSetSegAddr, hz, hlen, h.none hz]

/-- A received packet. -/
theorem ChainInChunks.pktFits {chain : NePacket} (h : ChainInChunks chain) (hsegs : chain.nsegs ≠ 0)
    (stamp : RxStamp) :
    PktFits { chain with
      dir := stamp.dir, wanIdx := stamp.wanIdx, localIdx := stamp.localIdx, txSlot := 0 } := by
  refine ⟨h.segs, ?_⟩
  intro hone hzero
  have hn : chain.nsegs = 1 := by simpa [NePacket.txSegs, hsegs] using hone
  have hle := h.one hn
  simp only at hzero
  have hlen : chain.len = 0 := by omega
  simp only [hlen, Nat.zero_min]
  exact inChunk_zero _

/-- What is known of a queue: the descriptors to come and the chain under way lie in
their chunks. -/
structure QueueFits (q : NeXskQueue) : Prop where
  rx : ∀ d ∈ q.rx.waiting, InChunk d.addr d.len
  chain : ChainInChunks q.rxChain

theorem queueFits_init : QueueFits NeXskQueue.init :=
  ⟨fun d hd => by simp [NeXskQueue.init, XskRingCons.waiting] at hd, chainInChunks_zero⟩

theorem reject_chain (q : NeXskQueue) (a : Nat) : (q.reject a).rxChain = q.rxChain := by
  rw [NeXskQueue.reject]; split_ifs <;> rfl

theorem ChainInChunks.recvSeg {q : NeXskQueue} (h : ChainInChunks q.rxChain) {d : XdpDesc}
    (hd : InChunk d.addr d.len) : ChainInChunks (recvSeg q d).rxChain := by
  rw [NetworkEncryptor.recvSeg]
  split_ifs
  · simpa [reject_chain] using h
  · exact h.append hd

/-- A descriptor leaves the chain and the packets that are complete in their chunks. -/
theorem recvDesc_fits {stamp : RxStamp} {max : Nat} {r : NeXskQueue × List NePacket} {d : XdpDesc}
    (hd : InChunk d.addr d.len) (hc : ChainInChunks r.1.rxChain) (ho : ∀ pkt ∈ r.2, PktFits pkt) :
    ChainInChunks (recvDesc stamp max r d).1.rxChain ∧ ∀ pkt ∈ (recvDesc stamp max r d).2, PktFits pkt := by
  have hseg := hc.recvSeg hd
  rw [recvDesc]
  dsimp only
  split_ifs with hcontd hrej
  · exact ⟨hseg, ho⟩
  · exact ⟨chainInChunks_zero, ho⟩
  · refine ⟨chainInChunks_zero, ?_⟩
    intro pkt hmem
    rcases List.mem_append.mp hmem with hmem | hmem
    · exact ho pkt hmem
    · rw [List.mem_singleton.mp hmem]
      exact hseg.pktFits (fun hz => hrej (.inr (.inl hz))) stamp

theorem recvDescs_fits {stamp : RxStamp} {max : Nat} (ds : List XdpDesc) :
    ∀ (r : NeXskQueue × List NePacket), (∀ d ∈ ds, InChunk d.addr d.len) → ChainInChunks r.1.rxChain →
      (∀ pkt ∈ r.2, PktFits pkt) →
      ChainInChunks (ds.foldl (recvDesc stamp max) r).1.rxChain ∧
        ∀ pkt ∈ (ds.foldl (recvDesc stamp max) r).2, PktFits pkt := by
  induction ds with
  | nil => intro r _ hc ho; exact ⟨hc, ho⟩
  | cons d ds ih =>
      intro r hds hc ho
      obtain ⟨hc', ho'⟩ := recvDesc_fits (hds d (by simp)) hc ho
      exact ih _ (fun d' hd' => hds d' (by simp [hd'])) hc' ho'

/-- A call of `recv_queue` touches neither the waiting descriptors it does not peek nor
what was sent. -/
theorem recvDesc_view {stamp : RxStamp} {max : Nat} (r : NeXskQueue × List NePacket) (d : XdpDesc) :
    (recvDesc stamp max r d).1.rx = r.1.rx ∧ (recvDesc stamp max r d).1.sent = r.1.sent := by
  have hrej : ∀ (q : NeXskQueue) (a : Nat), (q.reject a).rx = q.rx ∧ (q.reject a).sent = q.sent := by
    intro q a
    rw [NeXskQueue.reject]; split_ifs <;> exact ⟨rfl, rfl⟩
  have hfold : ∀ (as : List Nat) (q : NeXskQueue), (as.foldl NeXskQueue.reject q).rx = q.rx ∧
      (as.foldl NeXskQueue.reject q).sent = q.sent := by
    intro as
    induction as with
    | nil => intro q; exact ⟨rfl, rfl⟩
    | cons a as ih => intro q; exact ⟨(ih _).1.trans (hrej q a).1, (ih _).2.trans (hrej q a).2⟩
  have hseg : (recvSeg r.1 d).rx = r.1.rx ∧ (recvSeg r.1 d).sent = r.1.sent := by
    rw [recvSeg]
    split_ifs
    · exact hrej r.1 d.addr
    · exact ⟨rfl, rfl⟩
  rw [recvDesc]
  dsimp only
  split_ifs
  · exact hseg
  · exact ⟨(hfold _ _).1.trans hseg.1, (hfold _ _).2.trans hseg.2⟩
  · exact hseg

theorem recvDescs_view {stamp : RxStamp} {max : Nat} (ds : List XdpDesc) :
    ∀ (r : NeXskQueue × List NePacket), (ds.foldl (recvDesc stamp max) r).1.rx = r.1.rx ∧
      (ds.foldl (recvDesc stamp max) r).1.sent = r.1.sent := by
  induction ds with
  | nil => intro r; exact ⟨rfl, rfl⟩
  | cons d ds ih =>
      intro r
      obtain ⟨h1, h2⟩ := @recvDesc_view stamp max r d
      exact ⟨(ih _).1.trans h1, (ih _).2.trans h2⟩

theorem QueueFits.recv {q : NeXskQueue} (h : QueueFits q) (max : Nat) (stamp : RxStamp) :
    QueueFits (recvQueue q max stamp).1 ∧ (recvQueue q max stamp).1.sent = q.sent ∧
      ∀ pkt ∈ (recvQueue q max stamp).2, PktFits pkt := by
  obtain ⟨hwait, -⟩ := xskRingConsPeek_spec q.rx max
  have hin : ∀ d ∈ (xskRingConsPeek q.rx max).1, InChunk d.addr d.len := by
    intro d hd
    exact h.rx d (hwait ▸ List.mem_append_left _ hd)
  obtain ⟨hchain, hout⟩ := @recvDescs_fits stamp max (xskRingConsPeek q.rx max).1
    ({ q with rx := (xskRingConsPeek q.rx max).2 }, []) hin h.chain (fun pkt hp => by cases hp)
  obtain ⟨hrx, hsent⟩ := @recvDescs_view stamp max (xskRingConsPeek q.rx max).1
    ({ q with rx := (xskRingConsPeek q.rx max).2 }, [])
  refine ⟨⟨?_, hchain⟩, hsent, hout⟩
  intro d hd
  have hd' : d ∈ (xskRingConsPeek q.rx max).2.waiting := by
    simpa only [recvQueue, hrx] using hd
  exact h.rx d (hwait ▸ List.mem_append_right _ hd')

/-! ## sending -/

/-- The descriptors of a packet lie in its chunks. -/
theorem PktFits.txDescs {job : NePacket} (h : PktFits job) : ∀ d ∈ txDescs job neFrame, InChunk d.addr d.len := by
  intro d hd
  obtain ⟨i, hi, rfl⟩ := List.mem_map.mp hd
  rw [List.mem_range] at hi
  dsimp only
  by_cases hone : job.txSegs = 1 ∧ job.segLen i = 0
  · obtain rfl : i = 0 := by omega
    rw [if_pos hone]
    refine (h.whole hone.1 hone.2).of_le ?_
    split_ifs <;> omega
  · rw [if_neg hone]
    refine (h.segs i).of_le ?_
    split_ifs <;> omega

/-- A round sends the first packet of the ring, or gives it back, or does nothing. -/
theorem txRound_view (q : NeXskQueue) (src : NeRing) (pool : NePool) (maxFrame : Nat) :
    (txRound q src pool maxFrame).2.1.rx = q.rx ∧ (txRound q src pool maxFrame).2.1.rxChain = q.rxChain ∧
      (∀ pkt ∈ (txRound q src pool maxFrame).2.2.1.items, pkt ∈ src.items) ∧
      ∀ job ∈ (txRound q src pool maxFrame).2.1.sent, job ∈ q.sent ∨ job ∈ src.items := by
  rw [txRound]
  split_ifs with hfree
  · exact ⟨rfl, rfl, fun _ h => h, fun _ h => .inl h⟩
  · cases hitems : src.items with
    | nil =>
        simp only [neRingTryPop, hitems]
        exact ⟨trivial, trivial, fun _ h => h, fun _ h => .inl h⟩
    | cons job rest =>
        simp only [neRingTryPop, hitems]
        split_ifs with hrej
        · exact ⟨rfl, rfl, fun _ h => List.mem_cons_of_mem _ h, fun _ h => .inl h⟩
        · refine ⟨rfl, rfl, fun _ h => List.mem_cons_of_mem _ h, ?_⟩
          intro job' hmem
          rcases List.mem_append.mp hmem with hmem | hmem
          · exact .inl hmem
          · rw [List.mem_singleton.mp hmem]; exact .inr (List.mem_cons_self ..)

/-! ## frames that only move -/

/-- What the chunks depend on in a queue. -/
def NeXskQueue.view (q : NeXskQueue) : List XdpDesc × NePacket × List NePacket :=
  (q.rx.waiting, q.rxChain, q.sent)

theorem prefillQueue_view (fuel : Nat) : ∀ (want : Nat) (q : NeXskQueue) (pool : NePool),
    (prefillQueue fuel want q pool).1.view = q.view := by
  induction fuel with
  | zero => intro want q pool; rfl
  | succ fuel ih =>
      intro want q pool
      rw [prefillQueue]
      dsimp only
      split_ifs
      · rfl
      · rfl
      · rfl
      · exact ih ..

theorem drainCq_view (fuel : Nat) : ∀ (q : NeXskQueue) (pool : NePool),
    (drainCq fuel q pool).1.view = q.view := by
  induction fuel with
  | zero => intro q pool; rfl
  | succ fuel ih =>
      intro q pool
      rw [drainCq]
      dsimp only
      split_ifs
      · rfl
      · rfl
      · exact ih ..

theorem releaseRxQueue_view (q : NeXskQueue) (pool : NePool) : (releaseRxQueue q pool).1.view = q.view := by
  rw [releaseRxQueue]
  dsimp only
  split_ifs <;> rfl

/-- Freeing touches the pool only. -/
theorem freeSegs_pair (pkt : NePacket) (k : Nat) : ∀ (i : Nat) (p : NePair),
    (freeSegs pkt k i p).copies = p.copies ∧ (freeSegs pkt k i p).frameSize = p.frameSize := by
  induction k with
  | zero => intro i p; exact ⟨rfl, rfl⟩
  | succ k ih => intro i p; rw [freeSegs]; exact ih ..

/-! ## the invariant -/

structure UmemInv (s : UmemState) : Prop where
  frameSize : s.pair.frameSize = neFrame
  kept : ChunksKept s
  queues : ∀ i, QueueFits (s.queue i)
  rings : ∀ r, ∀ pkt ∈ (s.ring r).items, PktFits pkt
  held : ∀ pkt ∈ s.held, PktFits pkt

theorem umemInv_init (nFrames : Nat) (mem : Mem) : UmemInv (UmemState.init nFrames mem) where
  frameSize := rfl
  kept := by constructor <;> simp [UmemState.init, NeXskQueue.init]
  queues := fun _ => queueFits_init
  rings := by simp [UmemState.init, NeRing.empty]
  held := by simp [UmemState.init]

section Steps

variable {s : UmemState} (h : UmemInv s)

include h

/-- One queue changes, and what it has newly sent fits. -/
theorem UmemInv.setQueue {i : Nat} {q : NeXskQueue} (pool : NePool) (hq : QueueFits q)
    (hsent : ∀ job ∈ q.sent, job ∈ (s.queue i).sent ∨ PktFits job) :
    UmemInv ((s.setQueue i q).setPool pool) := by
  refine { h with kept := ⟨h.kept.1, ?_⟩, queues := ?_ }
  · intro j job hjob
    by_cases hj : j = i
    · subst hj
      simp only [UmemState.setPool, UmemState.setQueue, Function.update_self] at hjob
      rcases hsent job hjob with hold | hnew
      · exact h.kept.2 j job hold
      · have hd := hnew.txDescs
        rw [← h.frameSize] at hd
        exact hd
    · exact h.kept.2 j job (by simpa [UmemState.setPool, UmemState.setQueue, hj] using hjob)
  · intro j
    by_cases hj : j = i
    · subst hj
      simpa [UmemState.setPool, UmemState.setQueue] using hq
    · simpa [UmemState.setPool, UmemState.setQueue, hj] using h.queues j

/-- Frames go to and fro between a queue and the pool. -/
theorem UmemInv.queueStep {i : Nat} {q : NeXskQueue} (hview : q.view = (s.queue i).view) (pool : NePool) :
    UmemInv ((s.setQueue i q).setPool pool) := by
  simp only [NeXskQueue.view, Prod.mk.injEq] at hview
  obtain ⟨hrx, hchain, hsent⟩ := hview
  obtain ⟨hwait, hch⟩ := h.queues i
  refine h.setQueue pool ⟨by rw [hrx]; exact hwait, by rw [hchain]; exact hch⟩ ?_
  rw [hsent]
  exact fun job hjob => .inl hjob

/-- Frames move inside a queue. -/
theorem UmemInv.queueOnly {i : Nat} {q : NeXskQueue} (hview : q.view = (s.queue i).view) :
    UmemInv (s.setQueue i q) := h.queueStep hview s.pair.pool

theorem UmemInv.receive {i : Nat} {d : XdpDesc} (hd : receivable (s.queue i) d = true) :
    UmemInv (s.step (.receive i d)) := by
  simp only [receivable, Bool.and_eq_true, decide_eq_true_eq] at hd
  simp only [UmemState.step, receivable, Bool.and_eq_true, decide_eq_true_eq, if_pos hd]
  obtain ⟨hwait, hch⟩ := h.queues i
  refine h.setQueue s.pair.pool ⟨?_, hch⟩ fun job hjob => .inl hjob
  intro d' hd'
  simp only [XskRingCons.waiting, XskRingCons.publish, List.mem_append, List.mem_singleton] at hd'
  rcases hd' with hd' | hd' | rfl
  · exact hwait d' (by simp [XskRingCons.waiting, hd'])
  · exact hwait d' (by simp [XskRingCons.waiting, hd'])
  · exact hd.2

theorem UmemInv.recv (i max : Nat) (stamp : RxStamp) : UmemInv (s.step (.recv i max stamp)) := by
  obtain ⟨hwait, hchain⟩ := h.queues i
  have hq : QueueFits { s.queue i with rxPending := 0 } := ⟨hwait, hchain⟩
  obtain ⟨hfits, hsent, hout⟩ := hq.recv max stamp
  have hset := h.setQueue s.pair.pool hfits fun job hjob => .inl (by rw [hsent] at hjob; exact hjob)
  refine { hset with held := ?_ }
  intro pkt hpkt
  rcases List.mem_append.mp hpkt with hpkt | hpkt
  · exact h.held pkt hpkt
  · exact hout pkt hpkt

theorem UmemInv.tx (i r : Nat) : UmemInv (s.step (.tx i r)) := by
  obtain ⟨hrx, hchain, hitems, hsent⟩ := txRound_view (s.queue i) (s.ring r) s.pair.pool s.pair.frameSize
  obtain ⟨hwait, hch⟩ := h.queues i
  have hset := h.setQueue (txRound (s.queue i) (s.ring r) s.pair.pool s.pair.frameSize).2.2.2
    ⟨by rw [hrx]; exact hwait, by rw [hchain]; exact hch⟩
    fun job hjob => (hsent job hjob).imp_right (h.rings r job)
  refine { hset with rings := ?_ }
  intro r' pkt hpkt
  by_cases hr : r' = r
  · subst hr
    exact h.rings r' pkt (hitems pkt (by simpa [UmemState.step] using hpkt))
  · exact h.rings r' pkt (by simpa [UmemState.step, hr] using hpkt)

theorem UmemInv.write {n len : Nat} {src : Mem} (hw : WritesFit s (.write n src len)) :
    UmemInv (s.step (.write n src len)) := by
  simp only [UmemState.step]
  cases hn : s.held[n]? with
  | none => exact h
  | some pkt =>
      obtain ⟨hfits, hsize, hcopies⟩ := nePacketWrite_fits h.frameSize
        (h.held pkt (List.mem_of_getElem? hn)) (hw pkt hn) src
      refine ⟨hsize, ⟨?_, ?_⟩, h.queues, h.rings, ?_⟩
      · intro c hc
        exact (hcopies c hc).elim (h.kept.1 c) id
      · intro i job hjob
        have hold := h.kept.2 i job hjob
        rw [h.frameSize] at hold
        rw [hsize]
        exact hold
      · intro pkt' hpkt'
        rcases List.mem_or_eq_of_mem_set hpkt' with hmem | rfl
        · exact h.held pkt' hmem
        · exact hfits

theorem UmemInv.free (n : Nat) : UmemInv (s.step (.free n)) := by
  simp only [UmemState.step]
  cases hn : s.held[n]? with
  | none => exact h
  | some pkt =>
      obtain ⟨hcopies, hsize⟩ := freeSegs_pair pkt (min pkt.segCount nePacketMaxSegs) 0 s.pair
      refine ⟨hsize.trans h.frameSize, ⟨?_, ?_⟩, h.queues, h.rings, ?_⟩
      · intro c hc
        simp only [nePacketFree, hcopies] at hc
        exact h.kept.1 c hc
      · intro i job hjob
        have hold := h.kept.2 i job hjob
        simp only [nePacketFree, hsize]
        exact hold
      · intro pkt' hpkt'
        exact h.held pkt' (List.mem_of_mem_eraseIdx hpkt')

theorem UmemInv.push (n r : Nat) : UmemInv (s.step (.push n r)) := by
  simp only [UmemState.step]
  cases hn : s.held[n]? with
  | none => exact h
  | some pkt =>
      cases hpush : neRingTryPush (s.ring r) pkt with
      | none => simp only [hpush]; exact h
      | some ring =>
          simp only [hpush]
          refine { h with rings := ?_, held := ?_ }
          · intro r' pkt' hpkt'
            by_cases hr : r' = r
            · subst hr
              rw [neRingTryPush_eq_some hpush] at hpkt'
              simp only [Function.update_self, List.mem_append, List.mem_singleton] at hpkt'
              rcases hpkt' with hmem | rfl
              · exact h.rings r' pkt' hmem
              · exact h.held pkt' (List.mem_of_getElem? hn)
            · exact h.rings r' pkt' (by simpa [hr] using hpkt')
          · intro pkt' hpkt'
            exact h.held pkt' (List.mem_of_mem_eraseIdx hpkt')

theorem UmemInv.step (e : UmemEvent) (hw : WritesFit s e) : UmemInv (s.step e) := by
  cases e with
  | prefill i want => exact h.queueStep (prefillQueue_view ..) _
  | refill i =>
      obtain ⟨fq, hfq⟩ := refillFqQueue_fst (s.queue i) s.pair.pool
      exact h.queueStep (by rw [hfq]; rfl) _
  | fillTake i =>
      simp only [UmemState.step]
      cases (s.queue i).fq.entries with
      | nil => exact h
      | cons a rest => exact h.queueOnly rfl
  | receive i d =>
      by_cases hd : receivable (s.queue i) d = true
      · exact h.receive hd
      · simp only [UmemState.step, hd]; exact h
  | recv i max stamp => exact h.recv i max stamp
  | release i => exact h.queueStep (releaseRxQueue_view ..) _
  | free n => exact h.free n
  | alloc =>
      refine { h with held := ?_ }
      intro pkt hpkt
      rcases List.mem_append.mp hpkt with hpkt | hpkt
      · exact h.held pkt hpkt
      · rw [List.mem_singleton.mp hpkt]; exact pktFits_zero
  | write n src len => exact h.write hw
  | push n r => exact h.push n r
  | tx i r => exact h.tx i r
  | txTake i =>
      simp only [UmemState.step]
      cases (s.queue i).tx.entries with
      | nil => exact h
      | cons d rest => exact h.queueOnly rfl
  | complete i n =>
      simp only [UmemState.step]
      cases (s.queue i).driverTx[n]? with
      | none => exact h
      | some a => exact h.queueOnly rfl
  | drainCq i => exact h.queueStep (drainCq_view ..) _

end Steps

/-- In every run in which no write takes a frame for more bytes than it has from its
address to the end of its chunk, nothing is stored or sent across a chunk. -/
theorem chunks_kept (nFrames : Nat) (mem : Mem) (es : List UmemEvent)
    (h : Along UmemState.step WritesFit (UmemState.init nFrames mem) es) :
    ChunksKept (run UmemState.step (UmemState.init nFrames mem) es) ∧
      Along UmemState.step (fun s _ => ChunksKept s) (UmemState.init nFrames mem) es := by
  have hstep : ∀ s e, UmemInv s → WritesFit s e → UmemInv (s.step e) ∧ ChunksKept s :=
    fun s e hs hw => ⟨hs.step e hw, hs.kept⟩
  obtain ⟨hend, hall⟩ := Along.invariant hstep (umemInv_init nFrames mem) h
  exact ⟨hend.kept, hall⟩

/-- A packet is written into a frame the driver has not had yet, and sent. -/
def freshRun : List UmemEvent := [.alloc, .write 0 (fun _ => 0) 4000, .push 0 0, .tx 0 0]

theorem chunks_kept_fresh :
    (run UmemState.step (UmemState.init 1 fun _ => 0) freshRun).pair.copies = [(0, 4000)] ∧
      ((run UmemState.step (UmemState.init 1 fun _ => 0) freshRun).queue 0).sent.length = 1 ∧
      ChunksKept (run UmemState.step (UmemState.init 1 fun _ => 0) freshRun) := by
  refine ⟨by decide +kernel, by decide +kernel, (chunks_kept 1 (fun _ => 0) freshRun ?_).1⟩
  refine ⟨trivial, ?_, trivial, trivial, trivial⟩
  intro pkt hpkt
  obtain rfl : NePacket.zero = pkt := Option.some.inj hpkt
  refine ⟨fun i hi => absurd hi (Nat.not_lt_zero i), ?_⟩
  intro r a hr _ _
  have hpool : ((UmemState.init 1 fun _ => 0).step .alloc).pair.pool.frames = [0] := by decide
  rw [hpool] at hr
  cases r with
  | zero =>
      obtain rfl : 0 = a := Option.some.inj hr
      decide
  | succ r => simp at hr

/-- A frame is received into behind the headroom, given back, and taken for a packet
that nearly fills a chunk. -/
def recycledRun : List UmemEvent :=
  [.refill 0, .fillTake 0, .receive 0 ⟨256, 60, false⟩, .recv 0 64 ⟨.local, 0, 0⟩, .free 0, .alloc,
    .write 0 (fun _ => 0) 4000]

theorem recycled_frame_crosses : ¬ ChunksKept (run UmemState.step (UmemState.init 1 fun _ => 0) recycledRun) := by
  have hcopies : (run UmemState.step (UmemState.init 1 fun _ => 0) recycledRun).pair.copies = [(256, 4000)] := by
    decide +kernel
  intro h
  have hc := h.1 (256, 4000) (by rw [hcopies]; exact List.mem_singleton.mpr rfl)
  revert hc
  decide

end NetworkEncryptor
