import NetworkEncryptor.Bpf
import NetworkEncryptor.Frames
import NetworkEncryptor.Outcomes
import NetworkEncryptor.PacketSpec
import NetworkEncryptor.WireFormat

/-!
# NetworkEncryptor.Egress

What `dataplane_process_local` makes of a frame from the LAN, in bytes: the
wire frames of `Encodes`, each held by a packet on the output ring, or nothing.
-/

namespace NetworkEncryptor

/-! ## packets from the LAN -/

/-- A frame `lan_redirect` sends to the socket, whatever part of it is linear. -/
def Admitted (frame : List UInt8) : Prop :=
  ∃ dataLen ≤ frame.length, lanRedirect (Mem.ofList frame) dataLen frame.length = .redirect

/-- A packet as `recv_queue` makes it: it holds the frame, its segments and the
pool are disjoint, and a segment has the capacity of what was received in it. -/
structure Received (p : NePair) (pkt : NePacket) (frame : List UInt8) : Prop where
  holds : Holds p pkt frame
  writable : Writable p pkt pkt.nsegs
  cap : ∀ i < pkt.nsegs, pkt.segCap i = pkt.segLen i

section Received

variable {p p' : NePair} {pkt pkt' : NePacket} {frame : List UInt8}

theorem Holds.segCount (h : Holds p pkt frame) : pkt.segCount = pkt.nsegs := by
  have := h.segs.1
  rw [NePacket.segCount, if_pos (by omega)]

/-- What a packet holds is determined. -/
theorem Holds.unique {frame' : List UInt8} (h : Holds p pkt frame) (h' : Holds p pkt frame') :
    frame = frame' := h.bytes.symm.trans h'.bytes

theorem Received.writable' (h : Received p pkt frame) : Writable p pkt pkt.segCount := by
  rw [h.holds.segCount]; exact h.writable

/-- A received packet is full. -/
theorem Received.capacity (h : Received p pkt frame) :
    packetCapacity pkt pkt.segCount = frame.length := by
  rw [h.holds.segCount, ← h.holds.bytes, length_segBytes, packetCapacity]
  congr 1
  apply List.map_congr_left
  intro i hi
  have hi' := List.mem_range.mp hi
  rw [NePacket.segRoom, if_pos (h.writable.cap i hi'), h.cap i hi']

theorem Admitted.spec (h : Admitted frame) :
    34 ≤ frame.length ∧ frame.length ≤ 9014 ∧ ethReadEt (Mem.ofList frame) 12 = ethPIp := by
  obtain ⟨dataLen, hle, hred⟩ := h
  obtain ⟨h34, het, -, -, -, hmax⟩ := lanRedirect_eq_redirect_iff.mp hred
  exact ⟨by omega, hmax, het⟩

/-- What the buffer shows of an admitted frame. -/
theorem Admitted.ipv4 (h : Admitted frame) {buf : Mem} (hbuf : buf.read 0 frame.length = frame) :
    cryptoPktIsIpv4 buf frame.length = true := by
  obtain ⟨h34, -, het⟩ := h.spec
  rw [cryptoPktIsIpv4_iff, (agree_ofList hbuf).ethReadEt (by omega)]
  exact ⟨h34, het⟩

end Received

/-! ## the wire frames of a LAN frame -/

/-- What a thread going from `s` to `s'` encodes a frame as: one DATA frame, one
UDP-format frame, or the two fragments of a datagram. -/
inductive Encodes (env : Env) (ctx : PacketCryptoCtx) (s s' : L2State) (frame : List UInt8) :
    List (List UInt8) → Prop
  | data {nonce c t} : frameProto frame ≠ .udp → frame.length + 31 ≤ 9014 →
      SealedFrame env ctx s s' ((clampedFrame frame).drop 12) nonce c t →
      Encodes env ctx s s' frame [dataWire ((clampedFrame frame).take 12) s.workerIdx nonce (c ++ t)]
  | full {nonce c t} : frameProto frame = .udp → frame.length + 46 ≤ 9014 →
      SealedFrame env ctx (s.withEpoch env) s' (l2UdpShim .full (s.txMeta env) ++ frame.drop 14)
        nonce c t →
      Encodes env ctx s s' frame [udpWire (frame.take 12) s.workerIdx nonce (c ++ t)]
  | split {s1 nonce0 c0 t0 nonce1 c1 t1} : frameProto frame = .udp → 9014 < frame.length + 46 →
      Splittable (Mem.ofList frame) frame.length →
      SealedFrame env ctx (s.withEpoch env) s1
        (l2UdpShim .frag1 (s.txMeta env) ++ frame.drop 8968) nonce1 c1 t1 →
      SealedFrame env ctx s1 s'
        (l2UdpShim .frag0 (s.txMeta env) ++ (frame.drop 14).take 8954) nonce0 c0 t0 →
      Encodes env ctx s s' frame
        [udpWire (frame.take 12) s.workerIdx nonce0 (c0 ++ t0),
          udpWire (frame.take 12) s.workerIdx nonce1 (c1 ++ t1)]

section Encoders

variable {env : Env} {j j' : Job} {frame : List UInt8} {buf : Mem} {len : Nat}

theorem read_take {n : Nat} (h : buf.read 0 frame.length = frame) (hn : n ≤ frame.length) :
    buf.read 0 n = frame.take n := by
  rw [← Mem.take_read buf hn, h]

theorem read_drop {n : Nat} (h : buf.read 0 frame.length = frame) (hn : n ≤ frame.length) :
    buf.read n (frame.length - n) = frame.drop n := by
  have hd := @Mem.drop_read buf 0 _ _ hn
  rw [Nat.zero_add, h] at hd
  exact hd.symm

/-- The state of the thread does not name its worker anew. -/
theorem SealedFrame.workerIdx {ctx : PacketCryptoCtx} {s s' : L2State} {plain c t : List UInt8}
    {nonce : Nonce} (h : SealedFrame env ctx s s' plain nonce c t) : s'.workerIdx = s.workerIdx := by
  rw [h.state]

/-- A single frame that was encoded and written. -/
theorem encryptSingle_holds {proto : L2CryptoProto} (hw : Writable j.fwd.pair j.pkt j.pkt.segCount)
    (h : encryptSingle env j proto len = (.inPlace, j')) :
    ∃ buf n s, l2CryptoEncrypt env proto j.fwd.crypto j.self.cryptoBuf len j.l2 =
        (some (buf, n), s) ∧ n ≤ 9014 ∧ Holds j'.fwd.pair j'.pkt (buf.read 0 n) ∧ j'.l2 = s := by
  rw [encryptSingle] at h
  cases henc : l2CryptoEncrypt env proto j.fwd.crypto j.self.cryptoBuf len j.l2 with
  | mk r s =>
      rw [henc] at h
      cases r with
      | none => cases h
      | some r =>
          obtain ⟨buf, n⟩ := r
          dsimp only at h
          by_cases hmax : n > ethHeaderSize + l2CryptoMtu
          · rw [if_pos hmax] at h; cases h
          · rw [if_neg hmax, Prod.mk.injEq] at h
            obtain ⟨hok, hj'⟩ := h
            simp only [ethHeaderSize, l2CryptoMtu] at hmax
            refine ⟨buf, n, s, rfl, by omega, ?_, by rw [← hj']; rfl⟩
            generalize hj1 : ({ j.setL2 s with
              self := { (j.setL2 s).self with cryptoBuf := buf } } : Job) = j1 at hok hj'
            have hw1 : Writable j1.fwd.pair j1.pkt j1.pkt.segCount := by rw [← hj1]; exact hw
            have hwr := Job.write_eq j1 buf n
            cases hres : (j1.write buf n).1 with
            | false => rw [hres] at hok; cases hok
            | true =>
                rw [hres, hj'] at hwr
                exact nePacketWrite_holds hw1 hwr

/-- Two packets written one after the other, the second from nothing: both hold
their bytes in the end. -/
theorem holds_pair {p p2 p3 : NePair} {pkt q t : NePacket} {src src' : Mem} {n n' : Nat}
    (hr : Received p pkt frame) (hn : frame.length ≤ n)
    (hq : nePacketWrite p pkt src n = (true, p2, q))
    (ht : nePacketWrite p2 NePacket.zero src' n' = (true, p3, t)) :
    Holds p3 q (src.read 0 n) ∧ Holds p3 t (src'.read 0 n') := by
  have hqh := nePacketWrite_holds hr.writable' hq
  obtain ⟨-, hwq, hle⟩ := nePacketWrite_full hr.writable' (by rw [hr.capacity]; exact hn) hq
  obtain ⟨-, hpool, hcross⟩ := List.pairwise_append.mp hwq.disjoint
  have hzero : NePacket.zero.segCount = 0 := rfl
  have hwz : Writable p2 NePacket.zero NePacket.zero.segCount :=
    ⟨by rw [hzero]; omega, hpool, fun i hi => by rw [hzero] at hi; omega, hwq.frame⟩
  refine ⟨hqh.of_read fun i hi => ?_, nePacketWrite_holds hwz ht⟩
  refine nePacketWrite_read hwz ht fun r hr => ?_
  -- the segment is disjoint from every frame of the pool
  have hmem : (q.segAddr i, q.segRoom i) ∈ segRegions q 0 q.nsegs :=
    List.mem_map.mpr ⟨i, List.mem_range'_1.mpr ⟨Nat.zero_le i, by omega⟩, rfl⟩
  have hlei := hle i hi
  rcases hcross _ hmem r hr with h | h
  · exact .inl (by dsimp only at h ⊢; omega)
  · exact .inr h

theorem Holds.same {p : NePair} {pkt pkt' : NePacket} (h : Holds p pkt frame)
    (hs : SameSegs pkt pkt') : Holds p pkt' frame := by
  refine ⟨by rw [hs.nsegs]; exact h.segs, ?_, by rw [hs.len]; exact h.len, ?_⟩
  · rw [hs.nsegs, hs.segLen]; exact h.pos
  · rw [hs.nsegs, ← h.bytes, segBytes, segBytes, hs.segAddr, hs.segLen]

/-- A pair that was encoded, written and pushed. -/
theorem encryptSplit_holds (hr : Received j.fwd.pair j.pkt frame)
    (h : encryptSplit env j len 0 = (.pushed, j')) :
    ∃ r s, l2CryptoSplitUdp env j.fwd.crypto j.self.cryptoBuf len neJumboFrameMax
        j.self.cryptoAux neJumboFrameMax j.l2 = (some r, s) ∧ j'.l2 = s ∧
      (frame.length ≤ r.firstLen → ∃ q t,
        j'.fwd.midToWan = (j.fwd.pushWan j.self.tls.outRingIdx [q, t]).midToWan ∧
        Holds j'.fwd.pair q (r.first.read 0 r.firstLen) ∧
        Holds j'.fwd.pair t (r.second.read 0 r.secondLen)) := by
  rw [encryptSplit] at h
  cases hsplit : l2CryptoSplitUdp env j.fwd.crypto j.self.cryptoBuf len neJumboFrameMax
      j.self.cryptoAux neJumboFrameMax j.l2 with
  | mk o s =>
      rw [hsplit] at h
      cases o with
      | none => cases h
      | some r =>
          dsimp only at h
          generalize hj1 : ({ j.setL2 s with
            self := { (j.setL2 s).self with cryptoBuf := r.first, cryptoAux := r.second } } : Job) =
              j1 at h
          have hr1 : Received j1.fwd.pair j1.pkt frame := by rw [← hj1]; exact hr
          have hl2 : j1.l2 = s := by rw [← hj1]; rfl
          have hring : j1.self.tls = j.self.tls ∧ j1.fwd.midToWan = j.fwd.midToWan := by
            rw [← hj1]; exact ⟨rfl, rfl⟩
          refine ⟨r, s, rfl, ?_⟩
          have hwr := Job.write_eq j1 r.first r.firstLen
          cases hok : (j1.write r.first r.firstLen).1 with
          | false => rw [hok, if_neg (by simp)] at h; cases h
          | true =>
              rw [hok, if_pos rfl] at h
              rw [hok] at hwr
              have hj2 : (j1.write r.first r.firstLen).2.self = j1.self ∧
                  (j1.write r.first r.firstLen).2.fwd.midToWan = j1.fwd.midToWan ∧
                  (j1.write r.first r.firstLen).2.l2 = j1.l2 := ⟨rfl, rfl, rfl⟩
              generalize (j1.write r.first r.firstLen).2 = j2 at h hwr hj2
              cases ht : nePacketWrite j2.fwd.pair NePacket.zero r.second r.secondLen with
              | mk okt rest =>
                  obtain ⟨p3, tail⟩ := rest
                  rw [ht] at h
                  dsimp only at h
                  cases okt with
                  | false => rw [if_neg (by simp)] at h; cases h
                  | true =>
                      rw [if_pos rfl] at h
                      rcases pushSplitToWan_outcome { j2 with fwd := { j2.fwd with pair := p3 } }
                          r.firstLen r.secondLen tail (nePacketWrite_len hwr).1
                          (nePacketWrite_len ht).1 with
                        ⟨hfail, -⟩ | ⟨hpushed, q, t, hsq, hst, -, hres⟩
                      · rw [hfail] at h; cases h
                      · rw [hpushed, hres, if_pos rfl, Prod.mk.injEq] at h
                        obtain ⟨-, rfl⟩ := h
                        refine ⟨hj2.2.2.trans hl2, fun hcap => ⟨q, t, ?_, ?_, ?_⟩⟩
                        · dsimp only
                          rw [Forwarder.pushWan, Forwarder.pushWan, Forwarder.setMidToWan,
                            Forwarder.setMidToWan]
                          dsimp only
                          rw [hj2.1, hj2.2.1, hring.1, hring.2]
                        · exact (holds_pair hr1 hcap hwr ht).1.same hsq
                        · exact (holds_pair hr1 hcap hwr ht).2.same hst

/-! ## `encrypt_to_wan` -/

/-- The thread when it encodes the frame: a UDP datagram has its sequence number
set, for any other frame nothing has happened yet. -/
def TxState (j : Job) (frame : List UInt8) (s : L2State) : Prop :=
  if frameProto frame = .udp then ∃ seq, s = l2CryptoUdpSetTxSeq seq j.l2 else s = j.l2

/-- A single frame is encoded as `Encodes` says. -/
theorem encodes_single {ctx : PacketCryptoCtx} {s s' : L2State} {out : Mem} {n : Nat}
    (hadm : Admitted frame)
    (hbuf : buf.read 0 frame.length = if frameProto frame ≠ .udp then clampedFrame frame else frame)
    (hip : cryptoPktIsIpv4 buf frame.length = true)
    (henc : l2CryptoEncrypt env (frameProto frame) ctx buf frame.length s = (some (out, n), s'))
    (hn : n ≤ 9014) : Encodes env ctx s s' frame [out.read 0 n] := by
  obtain ⟨h34, -, -⟩ := hadm.spec
  rw [l2CryptoEncrypt] at henc
  by_cases hudp : frameProto frame = .udp
  · rw [if_pos hudp] at henc
    rw [if_neg (by simp [hudp])] at hbuf
    obtain ⟨-, -, nonce, c, t, hs, hlen, hread⟩ := l2UdpEncrypt_eq_some hip henc
    rw [read_drop hbuf (by omega)] at hs
    rw [read_take hbuf (by omega)] at hread
    rw [Mem.length_read] at hlen
    rw [hread]
    exact .full hudp (by omega) hs
  · rw [if_neg hudp] at henc
    rw [if_pos hudp] at hbuf
    obtain ⟨-, nonce, c, t, hs, hlen, hread⟩ := l2TcpEncrypt_eq_some henc
    rw [← length_clampedFrame frame] at hbuf
    rw [← length_clampedFrame frame, read_drop hbuf (by simp; omega)] at hs
    rw [read_take hbuf (by simp; omega)] at hread
    rw [Mem.length_read] at hlen
    rw [hread]
    exact .data hudp (by omega) hs

/-- The two frames of a split are encoded as `Encodes` says. -/
theorem encodes_split {ctx : PacketCryptoCtx} {s s' : L2State} {aux : Mem} {n0 n1 : Nat}
    {r : SplitFrames} (hadm : Admitted frame) (hbuf : buf.read 0 frame.length = frame)
    (hudp : frameProto frame = .udp) (hneed : 9014 < frame.length + 46)
    (h : l2Split env ctx buf frame.length n0 aux n1 s = (some r, s')) :
    r.firstLen = 9014 ∧ r.secondLen = frame.length - 8908 ∧
      Encodes env ctx s s' frame [r.first.read 0 r.firstLen, r.second.read 0 r.secondLen] := by
  obtain ⟨h34, hmax, -⟩ := hadm.spec
  obtain ⟨hsp, -, s2, ⟨n1, c1, t1, hs1, hl1, hr1⟩, ⟨n0, c0, t0, hs0, hl0, hr0⟩⟩ := l2Split_eq_some h
  have hpt : splitPoint frame.length = 8954 := by rw [splitPoint]; omega
  rw [hpt] at hs1 hl1 hs0 hl0
  rw [Mem.length_read] at hl1 hl0
  have hrest : buf.read (14 + 8954) (frame.length - 14 - 8954) = frame.drop 8968 := by
    have hlen : frame.length - 14 - 8954 = frame.length - 8968 := by omega
    rw [hlen]
    exact read_drop hbuf (by omega)
  have hfirst : buf.read 14 8954 = (frame.drop 14).take 8954 := by
    rw [← @read_drop frame buf 14 hbuf (by omega), Mem.take_read buf (by omega)]
  have hsp' : Splittable (Mem.ofList frame) frame.length := by
    have hag := agree_ofList hbuf
    obtain ⟨h1, h2, h3, h4, h5⟩ := hsp
    rw [hag 14 (by omega)] at h2 h3 h5
    rw [hag 23 (by omega)] at h4
    exact ⟨hadm.ipv4 (Mem.read_ofList frame rfl), h2, h3, h4, h5⟩
  have hw : s2.workerIdx = s.workerIdx := hs1.workerIdx
  rw [hrest] at hs1
  rw [hfirst] at hs0
  rw [read_take hbuf (by omega)] at hr1 hr0
  rw [hw] at hr0
  refine ⟨hl0, by omega, ?_⟩
  rw [hr0, hr1]
  exact .split hudp hneed hsp' hs1 hs0

/-- The protocol of a flow is the protocol that was read. -/
theorem dpParseFlow_proto {m : Mem} {n : Nat} {f : Flow} (h : (dpParseFlow m n).1 = some f) :
    f.proto = (dpParseFlow m n).2 := by
  rw [dpParseFlow] at h ⊢
  cases hoff : cryptoEthIpv4Offset m n with
  | none => rw [hoff] at h; cases h
  | some off =>
      rw [hoff] at h
      dsimp only at h ⊢
      split at h
      · cases h
      · rename_i hihl
        rw [if_neg hihl]
        split at h
        · rename_i htu
          rw [if_pos htu]
          split at h
          · cases h
          · rename_i hl4
            rw [if_neg hl4]
            rw [Option.some.injEq] at h
            rw [← h]
        · rename_i htu
          rw [if_neg htu]
          rw [Option.some.injEq] at h
          rw [← h]

/-- No sequence number for ICMP: its route key is refused. -/
theorem dpUdpNextTxSeq_of_icmp {rt : RouteState} {tls : RouteTls} {m : Mem} {n : Nat}
    (h : l2CryptoClassify (dpParseFlow m n).2.toNat = .icmp) :
    (dpUdpNextTxSeq rt tls m n).1 = none := by
  have hproto : (dpParseFlow m n).2.toNat = ipprotoIcmp := by
    rw [l2CryptoClassify] at h
    by_cases h17 : (dpParseFlow m n).2.toNat = ipprotoUdp
    · rw [if_pos h17] at h; cases h
    · rw [if_neg h17] at h
      by_cases h1 : (dpParseFlow m n).2.toNat = ipprotoIcmp
      · exact h1
      · rw [if_neg h1] at h; cases h
  have hkey : dpRouteKeyParseDirection m n = none := by
    rw [dpRouteKeyParseDirection]
    cases hf : (dpParseFlow m n).1 with
    | none => rfl
    | some f =>
        have hfp : f.proto = (dpParseFlow m n).2 := dpParseFlow_proto hf
        dsimp only
        rw [dpRouteKeyFromTuple, if_pos]
        rw [hfp, hproto]
        simp
  rw [dpUdpNextTxSeq, hkey]

/-- The buffer `encrypt_to_wan` encodes from. -/
def egressBuf (proto : L2CryptoProto) (buf : Mem) (len : Nat) : Mem :=
  if proto ≠ .udp then (cryptoTcpClampMss buf len l2CryptoMtu l2CryptoDataOverhead).2 else buf

theorem read_egressBuf (hbuf : buf.read 0 frame.length = frame) :
    (egressBuf (frameProto frame) buf frame.length).read 0 frame.length =
      if frameProto frame ≠ .udp then clampedFrame frame else frame := by
  rw [egressBuf]
  by_cases h : frameProto frame ≠ .udp
  · rw [if_pos h, if_pos h, read_cryptoTcpClampMss hbuf]
  · rw [if_neg h, if_neg h, hbuf]

/-- The clamp keeps an IPv4 frame one. -/
theorem ipv4_egressBuf (hadm : Admitted frame) (hbuf : buf.read 0 frame.length = frame) :
    cryptoPktIsIpv4 (egressBuf (frameProto frame) buf frame.length) frame.length = true := by
  have hip := hadm.ipv4 hbuf
  rw [egressBuf]
  by_cases h : frameProto frame ≠ .udp
  · rw [if_pos h]
    rw [cryptoPktIsIpv4_iff] at hip ⊢
    refine ⟨hip.1, ?_⟩
    rw [ethReadEt_congr (cryptoTcpClampMss_front _ _ _ _ (by omega))
      (cryptoTcpClampMss_front _ _ _ _ (by omega))]
    exact hip.2
  · rw [if_neg h]; exact hip

/-- The job when it gets to the encoder: the frame is clamped, and its sequence
number set if it needs one. -/
def txStart (j : Job) (proto : L2CryptoProto) (flowOk : Bool) : Bool × Job :=
  let j1 := j.withBuf (egressBuf proto j.self.cryptoBuf j.pkt.len)
  if proto = .udp ∨ l2CryptoNeedSplit proto j.pkt.len = true then
    txSeqStep j1 j1.self.cryptoBuf j.pkt.len flowOk
  else (true, j1)

/-- The steps of `encrypt_to_wan` on a frame: the sequence number, then the
encoder. -/
theorem encryptToWan_eq (env : Env) (j : Job) (wanDp : Nat) (proto : L2CryptoProto) (flowOk : Bool) :
    encryptToWan env j wanDp proto flowOk =
      if !(txStart j proto flowOk).1 then (.fail, (txStart j proto flowOk).2)
      else if l2CryptoNeedSplit proto j.pkt.len then
        encryptSplit env (txStart j proto flowOk).2 j.pkt.len wanDp
      else encryptSingle env (txStart j proto flowOk).2 proto j.pkt.len := rfl

/-- A frame that is neither UDP nor to be split goes straight to the encoder. -/
theorem encryptToWan_of_data {proto : L2CryptoProto} {wanDp : Nat} {flowOk : Bool}
    (hproto : proto ≠ .udp) (hsplit : l2CryptoNeedSplit proto j.pkt.len = false) :
    encryptToWan env j wanDp proto flowOk =
      encryptSingle env (j.withBuf (egressBuf proto j.self.cryptoBuf j.pkt.len)) proto j.pkt.len := by
  rw [encryptToWan_eq, txStart]
  simp only [hproto, hsplit, false_or, Bool.false_eq_true, if_false, Bool.not_true]

/-- A sequence number that was found is set, and nothing else the encoders look
at has changed. -/
theorem txSeqStep_eq_true {flowOk : Bool} {n : Nat} (h : txSeqStep j buf n flowOk = (true, j')) :
    (∃ seq, j'.l2 = l2CryptoUdpSetTxSeq seq j.l2) ∧ j'.fwd.pair = j.fwd.pair ∧ j'.pkt = j.pkt ∧
      j'.self.cryptoBuf = j.self.cryptoBuf ∧ j'.self.cryptoAux = j.self.cryptoAux ∧
      j'.fwd.crypto = j.fwd.crypto ∧ j'.fwd.midToWan = j.fwd.midToWan ∧
      j'.self.tls.outRingIdx = j.self.tls.outRingIdx := by
  have hq := Quiet.txSeqStep j buf n flowOk
  rw [h] at hq
  have hring := hq.ring
  rw [txSeqStep] at h
  cases flowOk with
  | false => cases h
  | true =>
      simp only [Bool.not_true, Bool.false_eq_true, if_false] at h
      cases hr : (dpUdpNextTxSeq j.fwd.route j.self.tls buf n).1 with
      | none => rw [hr] at h; cases h
      | some seq =>
          rw [hr, Prod.mk.injEq] at h
          obtain ⟨-, rfl⟩ := h
          exact ⟨⟨seq, rfl⟩, rfl, rfl, rfl, rfl, rfl, rfl, hring⟩

/-- A job that is ready for the encoder. -/
structure TxReady (j : Job) (frame : List UInt8) (q : Job) : Prop where
  tx : TxState j frame q.l2
  received : Received q.fwd.pair q.pkt frame
  buf : q.self.cryptoBuf = egressBuf (frameProto frame) j.self.cryptoBuf frame.length
  crypto : q.fwd.crypto = j.fwd.crypto
  rings : q.fwd.midToWan = j.fwd.midToWan ∧ q.self.tls.outRingIdx = j.self.tls.outRingIdx
  split : l2CryptoNeedSplit (frameProto frame) frame.length = true → frameProto frame = .udp

/-- An ICMP frame is still one in the buffer it is encoded from. -/
theorem classify_egressBuf_icmp (hbuf : buf.read 0 frame.length = frame)
    (hp : frameProto frame = .icmp) :
    l2CryptoClassify (dpParseFlow (egressBuf (frameProto frame) buf frame.length)
      frame.length).2.toNat = .icmp := by
  have hnt : (dpParseFlow (Mem.ofList frame) frame.length).2 = Mem.ofList frame 23 :=
    (l2CryptoClassify_dpParseFlow (by rw [frameProto] at hp; rw [hp]; simp)).1
  have hb : (egressBuf (frameProto frame) buf frame.length).read 0 frame.length = frame := by
    rw [read_egressBuf hbuf, if_pos (by rw [hp]; simp), clampedFrame, cryptoTcpClampMss_of_not_tcp,
      Mem.read_ofList frame rfl]
    rw [← hnt]
    intro h6
    rw [frameProto, h6] at hp
    simp [l2CryptoClassify] at hp
  rw [classify_dpParseFlow hb, hp]

/-- The job gets to the encoder with its sequence number, and only a UDP frame
gets there to be split: an oversized ICMP frame has no sequence number. -/
theorem txStart_ready {flowOk : Bool} (hr : Received j.fwd.pair j.pkt frame)
    (hbuf : j.self.cryptoBuf.read 0 frame.length = frame)
    (h : txStart j (frameProto frame) flowOk = (true, j')) : TxReady j frame j' := by
  have hlen : j.pkt.len = frame.length := hr.holds.len
  rw [txStart, hlen] at h
  have hicmp := @classify_egressBuf_icmp frame j.self.cryptoBuf hbuf
  generalize hj1 : j.withBuf (egressBuf (frameProto frame) j.self.cryptoBuf frame.length) = j1 at h
  have hbuf1 : j1.self.cryptoBuf = egressBuf (frameProto frame) j.self.cryptoBuf frame.length := by
    rw [← hj1]; rfl
  have hsame1 : j1.fwd = j.fwd ∧ j1.pkt = j.pkt ∧ j1.self.tls = j.self.tls ∧ j1.l2 = j.l2 := by
    rw [← hj1]; exact ⟨rfl, rfl, rfl, rfl⟩
  by_cases hc : frameProto frame = .udp ∨ l2CryptoNeedSplit (frameProto frame) frame.length = true
  · rw [if_pos hc] at h
    obtain ⟨hs, hp, hpk, hcb, -, hcr, hmw, hri⟩ := txSeqStep_eq_true h
    have hudp : frameProto frame = .udp := by
      cases hp : frameProto frame with
      | udp => rfl
      | data => rw [hp] at hc; simp [l2CryptoNeedSplit] at hc
      | icmp =>
          have hclass := hicmp hp
          rw [← hbuf1] at hclass
          rw [txSeqStep] at h
          cases flowOk with
          | false => cases h
          | true =>
              simp only [Bool.not_true, Bool.false_eq_true, if_false] at h
              rw [dpUdpNextTxSeq_of_icmp hclass] at h
              cases h
    refine ⟨?_, ?_, hcb.trans hbuf1, ?_, ⟨?_, ?_⟩, fun _ => hudp⟩
    · rw [TxState, if_pos hudp, ← hsame1.2.2.2]; exact hs
    · rw [hp, hpk, hsame1.1, hsame1.2.1]; exact hr
    · rw [hcr, hsame1.1]
    · rw [hmw, hsame1.1]
    · rw [hri, hsame1.2.2.1]
  · rw [if_neg hc, Prod.mk.injEq] at h
    obtain ⟨-, rfl⟩ := h
    rw [not_or] at hc
    refine ⟨?_, ?_, hbuf1, ?_, ⟨?_, ?_⟩, fun h => absurd h hc.2⟩
    · rw [TxState, if_neg hc.1]; exact hsame1.2.2.2
    · rw [hsame1.1, hsame1.2.1]; exact hr
    · rw [hsame1.1]
    · rw [hsame1.1]
    · rw [hsame1.2.2.1]

/-- The split branch on a job that is ready: nothing, or a pair on the ring. -/
theorem encryptSplit_spec {q : Job} (hq : TxReady j frame q) (hadm : Admitted frame)
    (hbuf : j.self.cryptoBuf.read 0 frame.length = frame)
    (hneed : l2CryptoNeedSplit (frameProto frame) frame.length = true)
    (h : encryptSplit env q frame.length 0 = (.pushed, j')) :
    ∃ s w0 w1 a b, TxState j frame s ∧ Encodes env j.fwd.crypto s j'.l2 frame [w0, w1] ∧
      j'.fwd.midToWan = (j.fwd.pushWan j.self.tls.outRingIdx [a, b]).midToWan ∧
      Holds j'.fwd.pair a w0 ∧ Holds j'.fwd.pair b w1 := by
  obtain ⟨-, hmax, -⟩ := hadm.spec
  have hudp := hq.split hneed
  have hread := read_egressBuf hbuf
  rw [hudp] at hneed
  simp only [l2CryptoNeedSplit, l2CryptoNeedUdpSplit, decide_eq_true_eq, ethHeaderSize, l2CryptoMtu,
    optFragMetaLen] at hneed
  rw [if_neg (by simp [hudp]), ← hq.buf] at hread
  obtain ⟨r, s', hsp, hl2, hpush⟩ := encryptSplit_holds hq.received h
  obtain ⟨hl0, -, henc⟩ := encodes_split hadm hread hudp (by omega) hsp
  obtain ⟨a, b, hring, ha, hb⟩ := hpush (by omega)
  refine ⟨q.l2, _, _, a, b, hq.tx, ?_, ?_, ha, hb⟩
  · rw [← hq.crypto, hl2]; exact henc
  · rw [hring, Forwarder.pushWan, Forwarder.pushWan, Forwarder.setMidToWan, Forwarder.setMidToWan,
      hq.rings.2, hq.rings.1]

/-- The single-frame branch on a job that is ready: nothing, or a frame in place. -/
theorem encryptSingle_spec {q : Job} (hq : TxReady j frame q) (hadm : Admitted frame)
    (hbuf : j.self.cryptoBuf.read 0 frame.length = frame)
    (h : encryptSingle env q (frameProto frame) frame.length = (.inPlace, j')) :
    ∃ s wire, TxState j frame s ∧ Encodes env j.fwd.crypto s j'.l2 frame [wire] ∧
      Holds j'.fwd.pair j'.pkt wire := by
  obtain ⟨out, n, s', henc, hn, hh, hl2⟩ := encryptSingle_holds hq.received.writable' h
  refine ⟨q.l2, _, hq.tx, ?_, hh⟩
  rw [← hq.crypto, hl2]
  refine encodes_single hadm ?_ ?_ henc hn
  · rw [hq.buf]; exact read_egressBuf hbuf
  · rw [hq.buf]; exact ipv4_egressBuf hadm hbuf

/-- What `encrypt_to_wan` made of a frame: in place, or as a pair on the ring. -/
theorem encryptToWan_spec (hr : Received j.fwd.pair j.pkt frame) (hadm : Admitted frame)
    (hbuf : j.self.cryptoBuf.read 0 frame.length = frame) (flowOk : Bool) :
    match encryptToWan env j 0 (frameProto frame) flowOk with
    | (.fail, _) => True
    | (.inPlace, j') => ∃ s wire, TxState j frame s ∧
        Encodes env j.fwd.crypto s j'.l2 frame [wire] ∧ Holds j'.fwd.pair j'.pkt wire
    | (.pushed, j') => ∃ s w0 w1 q t, TxState j frame s ∧
        Encodes env j.fwd.crypto s j'.l2 frame [w0, w1] ∧
        j'.fwd.midToWan = (j.fwd.pushWan j.self.tls.outRingIdx [q, t]).midToWan ∧
        Holds j'.fwd.pair q w0 ∧ Holds j'.fwd.pair t w1 := by
  have hlen : j.pkt.len = frame.length := hr.holds.len
  rw [encryptToWan_eq, hlen]
  cases hstart : txStart j (frameProto frame) flowOk with
  | mk ok q =>
      cases ok with
      | false => rw [if_pos (by simp)]; trivial
      | true =>
          have hq := txStart_ready hr hbuf hstart
          rw [if_neg (by simp)]
          by_cases hneed : l2CryptoNeedSplit (frameProto frame) frame.length = true
          · rw [if_pos hneed]
            cases hres : encryptSplit env q frame.length 0 with
            | mk r j' =>
                cases r with
                | fail => trivial
                | inPlace =>
                    rcases encryptSplit_outcome env q frame.length with ⟨h, -⟩ | ⟨h, -⟩
                    · rw [hres] at h; cases h
                    · rw [hres] at h; cases h
                | pushed => exact encryptSplit_spec hq hadm hbuf hneed hres
          · rw [if_neg hneed]
            cases hres : encryptSingle env q (frameProto frame) frame.length with
            | mk r j' =>
                cases r with
                | fail => trivial
                | pushed =>
                    have h := (encryptSingle_outcome env q (frameProto frame) frame.length).1
                    rw [hres] at h
                    exact absurd rfl h
                | inPlace => exact encryptSingle_spec hq hadm hbuf hres

/-- A packet with a wire frame in it goes to the ring as it is, or is dropped. -/
theorem pushToWan_spec {wire : List UInt8} (h : Holds j.fwd.pair j.pkt wire) :
    (pushToWan j 0).2.fwd.midToWan = j.fwd.midToWan ∨
      ∃ q, (pushToWan j 0).2.fwd.midToWan = (j.fwd.pushWan j.self.tls.outRingIdx [q]).midToWan ∧
        Holds (pushToWan j 0).2.fwd.pair q wire := by
  rw [pushToWan]
  rcases dpRingPush_cases { j with pkt := { j.pkt with dir := .wan, wanIdx := 0 % 256 } }
      (j.fwd.midToWan 0 j.self.tls.outRingIdx)
      (fun ring fwd => fwd.setMidToWan 0 j.self.tls.outRingIdx ring) with hc | hc
  · refine .inl ?_
    dsimp only
    rw [hc]
    rfl
  · refine .inr ⟨{ j.pkt with dir := .wan, wanIdx := 0 % 256 }, ?_, ?_⟩
    · dsimp only
      rw [hc]
      rfl
    · dsimp only
      rw [hc]
      exact h.same ⟨rfl, rfl, rfl, rfl, rfl⟩

/-- What `dataplane_process_local` makes of an admitted frame: nothing, or the
wire frames of `Encodes` on the output ring of the thread. -/
theorem dataplaneProcessLocal_spec (hr : Received j.fwd.pair j.pkt frame) (hadm : Admitted frame) :
    (dataplaneProcessLocal env j).fwd.midToWan = j.fwd.midToWan ∨
      ∃ s s' pkts wires, TxState j frame s ∧ Encodes env j.fwd.crypto s s' frame wires ∧
        (dataplaneProcessLocal env j).fwd.midToWan =
          (j.fwd.pushWan j.self.tls.outRingIdx pkts).midToWan ∧
        List.Forall₂ (Holds (dataplaneProcessLocal env j).fwd.pair) pkts wires := by
  obtain ⟨-, hmax, -⟩ := hadm.spec
  have hlen : j.pkt.len = frame.length := hr.holds.len
  obtain ⟨buf, hlin, hbuf⟩ := nePacketLinearize_of_holds hr.holds j.self.cryptoBuf
    (show frame.length ≤ neJumboFrameMax by simp; omega)
  have hclass : l2CryptoClassify (dpParseFlow buf j.pkt.len).2.toNat = frameProto frame := by
    rw [hlen]; exact classify_dpParseFlow hbuf
  rw [dataplaneProcessLocal_eq hlin]
  dsimp only
  rw [if_neg (by simp)]
  by_cases hwan : (j.withBuf buf).fwd.wanCount ≠ 1
  · rw [if_pos hwan]; exact .inl rfl
  · rw [if_neg hwan, hclass]
    have hspec := @encryptToWan_spec env (j.withBuf buf) frame hr hadm hbuf
      (dpParseFlow buf j.pkt.len).1.isSome
    have hout := encryptToWan_outcome env (j.withBuf buf) (frameProto frame)
      (dpParseFlow buf j.pkt.len).1.isSome
    cases hres : encryptToWan env (j.withBuf buf) 0 (frameProto frame)
        (dpParseFlow buf j.pkt.len).1.isSome with
    | mk r j' =>
        rw [hres] at hspec hout
        cases r with
        | fail =>
            obtain ⟨route, epoch, hf, -⟩ := hout.fwd
            refine .inl ?_
            change j'.fwd.midToWan = j.fwd.midToWan
            rw [hf]
            rfl
        | pushed =>
            obtain ⟨s, w0, w1, q, t, hs, henc, hring, hq, ht⟩ := hspec
            exact .inr ⟨s, j'.l2, [q, t], [w0, w1], hs, henc, hring, .cons hq (.cons ht .nil)⟩
        | inPlace =>
            obtain ⟨s, wire, hs, henc, hh⟩ := hspec
            obtain ⟨route, epoch, hf, -⟩ := hout.1.fwd
            have hmw : j'.fwd.midToWan = j.fwd.midToWan := by rw [hf]; rfl
            have hri : j'.self.tls.outRingIdx = j.self.tls.outRingIdx := hout.1.ring
            rcases pushToWan_spec hh with h | ⟨q, h, hq⟩
            · exact .inl (h.trans hmw)
            · refine .inr ⟨s, j'.l2, [q], [wire], hs, henc, ?_, .cons hq .nil⟩
              refine h.trans ?_
              rw [Forwarder.pushWan, Forwarder.pushWan, Forwarder.setMidToWan, Forwarder.setMidToWan,
                hri, hmw]

end Encoders

/-! ## a packet as the driver delivers it -/

/-- A frame laid out in chunks of 4096 bytes behind the headroom of each. -/
def sampleMem (frame : List UInt8) : Mem := fun a =>
  frame.getD (3840 * (a / 4096) + (a % 4096 - 256)) 0

/-- The packet of that layout. -/
def samplePacket (frame : List UInt8) : NePacket :=
  { NePacket.zero with
    segAddr := fun i => 4096 * i + 256
    len := frame.length
    segLen := fun i => min 3840 (frame.length - 3840 * i)
    segCap := fun i => min 3840 (frame.length - 3840 * i)
    nsegs := (frame.length + 3839) / 3840 }

/-- Behind the packet, eight free frames. -/
def samplePair (frame : List UInt8) : NePair :=
  { mem := sampleMem frame, frameSize := neFrame,
    pool := ⟨(List.range 8).map fun i => 4096 * (i + 4), neNFrames, 0⟩, copies := [], taken := [] }

/-- A process with empty queues, one LAN and one WAN interface. -/
def sampleForwarder (frame : List UInt8) : Forwarder :=
  { pair := samplePair frame, crypto := packetCryptoInit coreKey, localCount := 1, wanCount := 1,
    localToMid := fun _ => NeRing.empty, wanToMid := fun _ => NeRing.empty,
    midToWan := fun _ _ => NeRing.empty, midToLocal := fun _ _ => NeRing.empty,
    route := RouteState.init, tables := fun _ => none, epoch := 0x5eed }

/-- Worker `w` before its first packet. -/
def sampleWorker (w : Nat) : Worker :=
  { tls := dpCryptoWorkerBind RouteState.init w RouteTls.init,
    l2 := l2CryptoBindWorker (UInt8.ofNat w) L2State.init,
    cryptoBuf := fun _ => 0, cryptoAux := fun _ => 0 }

/-- Worker `w` with a received frame. -/
def sampleJob (w : Nat) (frame : List UInt8) : Job :=
  ⟨sampleForwarder frame, sampleWorker w, samplePacket frame⟩

/-- Segment `i` holds its part of the frame. -/
theorem read_sampleMem (frame : List UInt8) (i : Nat) :
    (sampleMem frame).read (4096 * i + 256) (min 3840 (frame.length - 3840 * i)) =
      (frame.drop (3840 * i)).take 3840 := by
  apply List.ext_getElem (by simp)
  intro k h1 h2
  have hk : k < 3840 ∧ k < frame.length - 3840 * i := by
    rw [Mem.length_read] at h1; omega
  rw [Mem.getElem_read, sampleMem, List.getElem_take, List.getElem_drop]
  have hdiv : (4096 * i + 256 + k) / 4096 = i := by omega
  have hmod : (4096 * i + 256 + k) % 4096 = 256 + k := by omega
  rw [hdiv, hmod, Nat.add_sub_cancel_left, List.getD_eq_getElem?_getD,
    List.getElem?_eq_getElem (by omega), Option.getD_some]

theorem segBytes_sample (frame : List UInt8) (n : Nat) :
    segBytes (sampleMem frame) (samplePacket frame) 0 n = frame.take (3840 * n) := by
  induction n with
  | zero => simp
  | succ n ih =>
      rw [segBytes_append, ih, segBytes_succ, segBytes_zero, List.append_nil, Nat.zero_add]
      change frame.take (3840 * n) ++ (sampleMem frame).read (4096 * n + 256)
        (min 3840 (frame.length - 3840 * n)) = _
      rw [read_sampleMem, Nat.mul_add, Nat.mul_one, List.take_add]

theorem segRoom_sample (frame : List UInt8) (i : Nat) : (samplePacket frame).segRoom i ≤ 3840 := by
  rw [NePacket.segRoom]
  change (if min 3840 (frame.length - 3840 * i) ≠ 0 then min 3840 (frame.length - 3840 * i)
    else min 3840 (frame.length - 3840 * i)) ≤ 3840
  split <;> omega

theorem received_sample {frame : List UInt8} (hpos : 0 < frame.length) (hmax : frame.length ≤ 9014) :
    Received (samplePair frame) (samplePacket frame) frame := by
  have hn : (samplePacket frame).nsegs = (frame.length + 3839) / 3840 := rfl
  have hseg : ∀ i < (samplePacket frame).nsegs, (samplePacket frame).segLen i ≠ 0 := by
    intro i hi
    rw [hn] at hi
    change min 3840 (frame.length - 3840 * i) ≠ 0
    omega
  refine ⟨⟨⟨by rw [hn]; omega, by rw [hn]; simp; omega⟩, hseg, rfl, ?_⟩, ⟨?_, ?_, hseg, ?_⟩,
    fun i _ => rfl⟩
  · change segBytes (sampleMem frame) (samplePacket frame) 0 (samplePacket frame).nsegs = frame
    rw [segBytes_sample, List.take_of_length_le (by rw [hn]; omega)]
  · rw [hn]; simp; omega
  · -- every region lies in a chunk of its own, in the order of the list
    rw [regions, List.pairwise_append]
    refine ⟨?_, ?_, ?_⟩
    · rw [segRegions, List.pairwise_map]
      refine List.Pairwise.imp ?_ List.pairwise_lt_range'
      intro a b hab
      refine .inl ?_
      have hroom := segRoom_sample frame a
      change 4096 * a + 256 + (samplePacket frame).segRoom a ≤ 4096 * b + 256
      omega
    · change (((List.range 8).map fun i => 4096 * (i + 4)).map fun a => (a, 4096)).Pairwise _
      rw [List.map_map, List.pairwise_map]
      refine List.Pairwise.imp ?_ List.pairwise_lt_range
      intro a b hab
      refine .inl ?_
      change 4096 * (a + 4) + 4096 ≤ 4096 * (b + 4)
      omega
    · intro r hr r' hr'
      obtain ⟨i, hi, rfl⟩ := List.mem_map.mp hr
      obtain ⟨a, ha, rfl⟩ := List.mem_map.mp hr'
      obtain ⟨k, -, rfl⟩ :=
        List.mem_map.mp (show a ∈ (List.range 8).map (fun k => 4096 * (k + 4)) from ha)
      have hi' := List.mem_range'_1.mp hi
      rw [hn] at hi'
      have hroom := segRoom_sample frame i
      refine .inl ?_
      change 4096 * i + 256 + (samplePacket frame).segRoom i ≤ 4096 * (k + 4)
      omega
  · change neFrame ≠ 0
    decide

end NetworkEncryptor
