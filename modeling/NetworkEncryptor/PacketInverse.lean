import NetworkEncryptor.Custody

/-!
# NetworkEncryptor.PacketInverse

`ne_packet_write` and `ne_packet_linearize` undo each other
(`src/core/iface/xdp_interface.c`).

A packet of up to four segments is rewritten with data of any length.  The
segments it has are filled one after the other, frames are taken from the pool
while they are too small, and what is left over behind the data goes back to it.
`WriteDone` says what holds after a write that succeeds, `WriteFailed` after one
that finds too little room; `nePacketWrite_inverse` is that there is no third
outcome.
-/

namespace NetworkEncryptor

section Inverse

variable {p p' : NePair} {pkt pkt' : NePacket} {src : Mem} {len : Nat}

/-- A packet that can be rewritten: it is empty or has up to four segments of
positive capacity, which lie apart from each other and from the frames of the
pool, and the pool could take them back. -/
structure Rewritable (p : NePair) (pkt : NePacket) : Prop where
  sound : pkt.Sound
  disjoint : (regions pkt pkt.nsegs p).Pairwise Region.Disjoint
  frameSize : 0 < p.frameSize ∧ p.frameSize < 2 ^ 16
  room : p.pool.frames.length + pkt.nsegs ≤ p.pool.cap

/-- What a write of the first `len` bytes of `src` leaves when it returns 0. -/
structure WriteDone (p : NePair) (pkt : NePacket) (src : Mem) (len : Nat) (p' : NePair) (pkt' : NePacket) :
    Prop where
  segs : 1 ≤ pkt'.nsegs ∧ pkt'.nsegs ≤ nePacketMaxSegs
  segLen : ∀ i < pkt'.nsegs, 1 ≤ pkt'.segLen i ∧ pkt'.segLen i ≤ pkt'.segCap i
  total : pkt'.len = len ∧ ((List.range pkt'.nsegs).map pkt'.segLen).sum = len
  linearize : ∀ dst dstSize, len ≤ dstSize →
    ∃ dst', nePacketLinearize p' pkt' dst dstSize = (true, dst') ∧ dst'.read 0 len = src.read 0 len
  untouched : ∀ a, (∀ i < pkt'.nsegs, a < pkt'.segAddr i ∨ pkt'.segAddr i + pkt'.segLen i ≤ a) →
    p'.mem a = p.mem a
  frames : ∃ taken rest removed, p.pool.frames = taken ++ rest ∧
    pkt.frames ++ taken = pkt'.frames ++ removed ∧
    p'.pool = { p.pool with frames := rest ++ removed }

/-- What it leaves when it returns -1. -/
structure WriteFailed (p : NePair) (pkt : NePacket) (p' : NePair) (pkt' : NePacket) : Prop where
  mem : p'.mem = p.mem
  frames : ∃ taken rest, p.pool.frames = taken ++ rest ∧ pkt'.frames = pkt.frames ++ taken ∧
    p'.pool = { p.pool with frames := rest } ∧
    (nePacketFree p' pkt').1.pool = { p.pool with frames := rest ++ (pkt.frames ++ taken) } ∧
    (rest ++ (pkt.frames ++ taken)).Nodup

theorem Rewritable.writable (h : Rewritable p pkt) : Writable p pkt pkt.segCount := by
  rw [h.sound.segCount]
  exact ⟨h.sound.nsegs_le, h.disjoint, h.sound.segCap, Nat.pos_iff_ne_zero.mp h.frameSize.1⟩

/-! ## the frames of the packet -/

/-- The frames taken are the first of the pool, and they are listed in the packet. -/
theorem grown_takes (hs : pkt.Sound) (hfs : p.frameSize ≠ 0) (len : Nat) :
    ∃ taken, p.pool.frames = taken ++ (grown p pkt len).pair.pool.frames ∧
      (grown p pkt len).pkt.frames = pkt.frames ++ taken ∧
      (grown p pkt len).pair.pool = { p.pool with frames := (grown p pkt len).pair.pool.frames } := by
  refine (@packetGrow_induct (fun g => GrowKept p pkt g ∧ ∃ taken,
    p.pool.frames = taken ++ g.pair.pool.frames ∧ g.pkt.frames = pkt.frames ++ taken ∧
    g.pair.pool = { p.pool with frames := g.pair.pool.frames }) len ?_ nePacketMaxSegs _ ?_).2
  · rintro g addr rest ⟨hg, taken, hpool, hframes, hsame⟩ _ hn hf
    refine ⟨growKept_add hfs hg hn hf, taken ++ [addr], ?_, ?_, ?_⟩
    · rw [hpool, hf]
      simp [Growing.add]
    · rw [frames_add hg.nsegs, hframes, List.append_assoc]
    · simp only [Growing.add]
      rw [hsame]
  · refine ⟨?_, [], by simp, by simp, by simp⟩
    refine ⟨⟨hs, rfl, rfl, rfl, .refl _⟩, hs.segCount.symm, fun h0 => ?_⟩
    dsimp only at h0 ⊢
    rw [h0]
    rfl

/-- Regions that share no byte and are not empty start at different addresses. -/
theorem nodup_of_disjoint {rs : List Region} (h : rs.Pairwise Region.Disjoint) (hpos : ∀ r ∈ rs, 0 < r.2) :
    (rs.map Prod.fst).Nodup := by
  rw [List.Nodup, List.pairwise_map]
  refine List.Pairwise.imp_of_mem (fun {a b} ha hb hab heq => ?_) h
  have hapos := hpos a ha
  have hbpos := hpos b hb
  rcases hab with hab | hab <;> omega

/-! ## the bytes left alone -/

/-- The copy loop stores nothing but what the lengths say it stored. -/
theorem packetFill_untouched (src : Mem) (len k : Nat) : ∀ (i off : Nat) (p : NePair) (pkt : NePacket) (a : Nat),
    (∀ j, i ≤ j → j < i + k → a < pkt.segAddr j ∨
      pkt.segAddr j + (packetFill src len k i off p pkt).2.1.segLen j ≤ a) →
    (packetFill src len k i off p pkt).1.mem a = p.mem a := by
  induction k with
  | zero => intro i off p pkt a _; rfl
  | succ k ih =>
      intro i off p pkt a hout
      rw [packetFill_succ] at hout ⊢
      obtain ⟨segLen, hpkt, hkeep⟩ := packetFill_pkt src len k (i + 1)
        (off + min (len - off) (pkt.segRoom i)) (fillPair src len i off p pkt) (fillPacket len i off pkt)
      have hfirst := hout i (Nat.le_refl i) (by omega)
      rw [hpkt] at hfirst
      dsimp only at hfirst
      rw [hkeep i (by omega), fillPacket_segLen_self] at hfirst
      rw [ih (i + 1) _ _ _ a fun j h1 h2 => hout j (by omega) (by omega), fillPair]
      split
      · exact Mem.write_of_not_mem _ (by rw [Mem.length_read]; exact hfirst)
      · rfl

/-! ## the two outcomes -/

theorem Rewritable.done (h : Rewritable p pkt) (hw : nePacketWrite p pkt src len = (true, p', pkt')) :
    WriteDone p pkt src len p' pkt' := by
  have hholds := nePacketWrite_holds h.writable hw
  have hfs : p.frameSize ≠ 0 := h.writable.frame
  have hlen : pkt'.len = len := by rw [hholds.len, Mem.length_read]
  rcases nePacketWrite_cases p pkt src len with hc | ⟨-, hc⟩ | ⟨hpos, -, hcap, used, hused, t, ht, hc⟩
  · rw [hc] at hw; cases hw
  · rw [hc] at hw; cases hw
  · have hg := growInv_grown h.writable len
    have hkept := growKept_grown h.sound hfs len
    obtain ⟨taken, hpool, hframes, hsame⟩ := grown_takes h.sound hfs len
    -- the copy loop
    obtain ⟨segLen, hpkt, -⟩ := packetFill_pkt src len (grown p pkt len).nsegs 0 0
      (grown p pkt len).pair (grown p pkt len).pkt
    have hfpool := (packetFill_pool src len (grown p pkt len).nsegs 0 0 (grown p pkt len).pair
      (grown p pkt len).pkt).1
    have hle := packetFill_le src len (grown p pkt len).nsegs 0 0 (grown p pkt len).pair
      (grown p pkt len).pkt
    have hout := packetFill_untouched src len (grown p pkt len).nsegs 0 0 (grown p pkt len).pair
      (grown p pkt len).pkt
    have hempty := packetFill_empty src len (grown p pkt len).nsegs 0 0 (grown p pkt len).pair
      (grown p pkt len).pkt fun j _ hj => hg.writable.room (by omega)
    rw [← filled] at hpkt hfpool hle hout hempty
    -- the trimming
    obtain ⟨-, huse, -, hzero⟩ := usedSegs_spec (filled p pkt src len).2.1 (grown p pkt len).nsegs 0
    rw [← hused] at huse hzero
    obtain ⟨hmem, hsegLen, haddr⟩ := packetTrim_spec ((grown p pkt len).nsegs - used) used
      (filled p pkt src len).1 (filled p pkt src len).2.1
    have hroom : (filled p pkt src len).1.pool.frames.length + ((grown p pkt len).nsegs - used) ≤
        (filled p pkt src len).1.pool.cap := by
      have hn := congrArg List.length hframes
      have hp := congrArg List.length hpool
      have hr := h.room
      rw [List.length_append, NePacket.frames, NePacket.frames, NePacket.length_addrs,
        NePacket.length_addrs, hkept.nsegs] at hn
      rw [List.length_append] at hp
      rw [hfpool, hkept.kept.cap]
      omega
    obtain ⟨htrim, htcap⟩ := packetTrim_eq ((grown p pkt len).nsegs - used) used
      (filled p pkt src len).1 (filled p pkt src len).2.1 hroom
    rw [← ht] at hmem hsegLen haddr htrim htcap
    rw [hc, Prod.mk.injEq, Prod.mk.injEq] at hw
    obtain ⟨-, rfl, rfl⟩ := hw
    have haddr' : ∀ j < used, t.2.segAddr j = (grown p pkt len).pkt.segAddr j := by
      intro j hj
      rw [haddr j hj, hpkt]
    refine ⟨hholds.segs, ?_, ⟨hlen, ?_⟩, ?_, ?_, ?_⟩
    · intro i hi
      have hi' : i < used := hi
      have hcapi := hg.writable.cap i (by omega)
      have hli := hle i (Nat.zero_le i) (by omega)
      rw [NePacket.segRoom, if_pos hcapi] at hli
      refine ⟨Nat.one_le_iff_ne_zero.mpr (hholds.pos i hi), ?_⟩
      dsimp only
      rw [hsegLen, htcap i hi', hpkt]
      rw [hpkt] at hli
      exact hli
    · rw [← length_segBytes t.1.mem, hholds.bytes, Mem.length_read]
    · intro dst dstSize hsize
      obtain ⟨dst', hlin, hread⟩ := nePacketLinearize_of_holds hholds dst
        (by rw [Mem.length_read]; exact hsize : (src.read 0 len).length ≤ dstSize)
      rw [Mem.length_read] at hread
      exact ⟨dst', hlin, hread⟩
    · intro a ha
      rw [hmem, hout a, hg.mem]
      intro j _ hj
      by_cases hj' : j < used
      · have haj := ha j hj'
        dsimp only at haj
        rw [hsegLen, haddr' j hj'] at haj
        exact haj
      · rw [hempty used j (Nat.zero_le _) (by omega) hj (hzero (by omega))]
        omega
    · refine ⟨taken, (grown p pkt len).pair.pool.frames,
        (List.range' used ((grown p pkt len).nsegs - used)).map (grown p pkt len).pkt.segAddr, hpool, ?_, ?_⟩
      · rw [← hframes, NePacket.frames, hkept.nsegs,
          (grown p pkt len).pkt.addrs_split (by omega : used ≤ (grown p pkt len).nsegs)]
        congr 1
        exact (List.map_congr_left fun i hi => haddr' i (List.mem_range.mp hi)).symm
      · rw [htrim, NePair.putBack, hfpool, hpkt, hsame]

/-- No frame is in the packet and in the pool, or twice in one of them. -/
theorem Rewritable.nodup (h : Rewritable p pkt) : (pkt.frames ++ p.pool.frames).Nodup := by
  have hfst : (regions pkt pkt.nsegs p).map Prod.fst = pkt.frames ++ p.pool.frames := by
    simp [regions, segRegions, NePacket.frames, NePacket.addrs, List.range_eq_range', Function.comp_def]
  rw [← hfst]
  refine nodup_of_disjoint h.disjoint fun r hr => ?_
  rcases List.mem_append.mp hr with hr | hr
  · obtain ⟨j, hj, rfl⟩ := List.mem_map.mp hr
    exact Nat.pos_of_ne_zero (h.writable.room (by
      rw [h.sound.segCount]
      have := List.mem_range'_1.mp hj
      omega))
  · obtain ⟨a, -, rfl⟩ := List.mem_map.mp hr
    exact h.frameSize.1

/-- A packet that has taken frames and lists them gives all of them back. -/
theorem Rewritable.failed_of_takes (h : Rewritable p pkt) (hs : pkt'.Sound) {taken : List Nat}
    (hmem : p'.mem = p.mem) (hpool : p.pool.frames = taken ++ p'.pool.frames)
    (hframes : pkt'.frames = pkt.frames ++ taken)
    (hsame : p'.pool = { p.pool with frames := p'.pool.frames }) : WriteFailed p pkt p' pkt' := by
  have hroom : p'.pool.frames.length + pkt'.frames.length ≤ p'.pool.cap := by
    have hcap : p'.pool.cap = p.pool.cap := by rw [hsame]
    have hp := congrArg List.length hpool
    have hn := congrArg List.length hframes
    have hr := h.room
    have hlen : pkt.frames.length = pkt.nsegs := pkt.length_addrs pkt.nsegs
    rw [List.length_append] at hp hn
    omega
  refine ⟨hmem, taken, p'.pool.frames, hpool, hframes, hsame, ?_, ?_⟩
  · rw [nePacketFree_eq hs hroom, hframes, NePair.putBack, hsame]
  · have hnodup := h.nodup
    rw [hpool, ← List.append_assoc] at hnodup
    exact (List.perm_append_comm.nodup_iff).mpr hnodup

theorem Rewritable.failed (h : Rewritable p pkt) (hw : nePacketWrite p pkt src len = (false, p', pkt')) :
    WriteFailed p pkt p' pkt' := by
  have hfs : p.frameSize ≠ 0 := h.writable.frame
  rcases nePacketWrite_cases p pkt src len with hc | ⟨-, hc⟩ | ⟨-, -, hcap, used, -, t, -, hc⟩
  · rw [hc, Prod.mk.injEq, Prod.mk.injEq] at hw
    obtain ⟨-, rfl, rfl⟩ := hw
    exact h.failed_of_takes h.sound rfl (List.nil_append _).symm (List.append_nil _).symm rfl
  · obtain ⟨taken, hpool, hframes, hsame⟩ := grown_takes h.sound hfs len
    rw [hc, Prod.mk.injEq, Prod.mk.injEq] at hw
    obtain ⟨-, rfl, rfl⟩ := hw
    exact h.failed_of_takes (growKept_grown h.sound hfs len).kept.sound (growInv_grown h.writable len).mem
      hpool hframes hsame
  · -- with room enough everything is copied
    rw [hc, filled_off hfs src hcap, beq_self_eq_true] at hw
    cases hw

end Inverse

/-- A write into a packet that is empty or has up to four segments
either leaves a packet that linearizes to these bytes, having stored nowhere else and
given the frames it does not need to the pool, or leaves a packet that lists all its
frames and those it took, which `ne_packet_free` then gives back, each once. -/
theorem nePacketWrite_inverse (p : NePair) (pkt : NePacket) (src : Mem) (len : Nat) (h : Rewritable p pkt) :
    ((nePacketWrite p pkt src len).1 = true →
      WriteDone p pkt src len (nePacketWrite p pkt src len).2.1 (nePacketWrite p pkt src len).2.2) ∧
    ((nePacketWrite p pkt src len).1 = false →
      WriteFailed p pkt (nePacketWrite p pkt src len).2.1 (nePacketWrite p pkt src len).2.2) := by
  refine ⟨fun hok => h.done ?_, fun hok => @Rewritable.failed p _ pkt _ src len h ?_⟩
  · rw [← hok]
  · rw [← hok]

/-- A received packet of one small segment, and a pool of two frames. -/
def smallPacket : NePacket :=
  { NePacket.zero with
    segAddr := fun _ => 8448, len := 60, segLen := fun _ => 60, segCap := fun _ => 60, nsegs := 1 }

def twoFrames : NePair :=
  { mem := fun _ => 0, frameSize := neFrame, pool := ⟨[0, 4096], 4, 0⟩, copies := [], taken := [] }

/-- Written with 5000 bytes it takes both frames and reads back; 9216 bytes find no room. -/
theorem nePacketWrite_inverse_small :
    let src : Mem := fun i => UInt8.ofNat i
    Rewritable twoFrames smallPacket ∧
    WriteDone twoFrames smallPacket src 5000 (nePacketWrite twoFrames smallPacket src 5000).2.1
      (nePacketWrite twoFrames smallPacket src 5000).2.2 ∧
    WriteFailed twoFrames smallPacket (nePacketWrite twoFrames smallPacket src 9216).2.1
      (nePacketWrite twoFrames smallPacket src 9216).2.2 := by
  intro src
  have h : Rewritable twoFrames smallPacket := by
    refine ⟨⟨by decide, fun i _ => by simp [smallPacket], by simp [smallPacket]⟩, ?_, by decide, by decide⟩
    simp [regions, segRegions, smallPacket, twoFrames, NePacket.segRoom, Region.Disjoint]
  exact ⟨h, (nePacketWrite_inverse twoFrames smallPacket src 5000 h).1 rfl,
    (nePacketWrite_inverse twoFrames smallPacket src 9216 h).2 rfl⟩

end NetworkEncryptor
