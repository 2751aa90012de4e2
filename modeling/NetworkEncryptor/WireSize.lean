import NetworkEncryptor.Egress

/-!
# NetworkEncryptor.WireSize

The lengths on the wire: the split decision of the sender, the lengths the
encoders produce, and the limit of the receiver's `wan_redirect` agree.
-/

namespace NetworkEncryptor

section WireSize

variable {env : Env} {j : Job} {frame : List UInt8}

/-! ## what is sent -/

/-- A frame that was encoded within the MTU is written to the packet if there is
room for it. -/
theorem encryptSingle_of_encrypt {proto : L2CryptoProto} {len n : Nat} {buf : Mem} {s : L2State}
    (hw : Writable j.fwd.pair j.pkt j.pkt.segCount)
    (henc : l2CryptoEncrypt env proto j.fwd.crypto j.self.cryptoBuf len j.l2 = (some (buf, n), s))
    (hpos : 0 < n) (hmax : n ≤ 9014) (hroom : n ≤ packetRoom j.fwd.pair j.pkt) :
    ∃ j', encryptSingle env j proto len = (.inPlace, j') ∧ j'.pkt.len = n := by
  rw [encryptSingle, henc]
  dsimp only
  rw [if_neg (by simp; omega)]
  generalize hj1 : ({ j.setL2 s with
    self := { (j.setL2 s).self with cryptoBuf := buf } } : Job) = j1
  have hok : (j1.write buf n).1 = true := by
    have hw1 : Writable j1.fwd.pair j1.pkt j1.pkt.segCount := by rw [← hj1]; exact hw
    have hroom1 : n ≤ packetRoom j1.fwd.pair j1.pkt := by rw [← hj1]; exact hroom
    exact (nePacketWrite_fst_iff hw1.frame).mpr ⟨hpos, by simp; omega, hroom1⟩
  have hwr := Job.write_eq j1 buf n
  rw [hok] at hwr
  rw [hok, if_pos rfl]
  exact ⟨_, rfl, (nePacketWrite_len hwr).1⟩

/-- A packet is pushed if there is room in the ring. -/
theorem pushToWan_of_room (hlen : j.pkt.len ≤ neJumboFrameMax)
    (hroom : (j.fwd.midToWan 0 j.self.tls.outRingIdx).items.length <
      (j.fwd.midToWan 0 j.self.tls.outRingIdx).cap) :
    ∃ q, (pushToWan j 0).2.fwd.midToWan = (j.fwd.pushWan j.self.tls.outRingIdx [q]).midToWan ∧
      q.len = j.pkt.len := by
  refine ⟨{ j.pkt with dir := .wan, wanIdx := 0 % 256 }, ?_, rfl⟩
  rw [pushToWan, dpRingPush]
  dsimp only
  rw [if_neg (by omega), neRingTryPush, if_neg (by omega)]
  rfl

/-- Nothing that is pushed leaves the rings as they were. -/
theorem pushWan_injective {fwd : Forwarder} {ri : Nat} {pkts pkts' : List NePacket}
    (h : (fwd.pushWan ri pkts).midToWan = (fwd.pushWan ri pkts').midToWan) : pkts = pkts' := by
  have hring := congrFun (congrFun h 0) ri
  simp only [Forwarder.pushWan, Forwarder.setMidToWan, Function.update_self, NeRing.append,
    NeRing.mk.injEq, List.append_cancel_left_eq] at hring
  exact hring.1

/-- A frame that is neither UDP nor to be split is sent as soon as its 31 bytes
of overhead fit the MTU. -/
theorem dataplaneProcessLocal_of_data (hr : Received j.fwd.pair j.pkt frame)
    (hadm : Admitted frame) (hready : EncReady env j.fwd.crypto j.l2) (hwan : j.fwd.wanCount = 1)
    (hring : (j.fwd.midToWan 0 j.self.tls.outRingIdx).items.length <
      (j.fwd.midToWan 0 j.self.tls.outRingIdx).cap)
    (hroom : frame.length + 31 ≤ packetRoom j.fwd.pair j.pkt) (hproto : frameProto frame ≠ .udp)
    (hsplit : l2CryptoNeedSplit (frameProto frame) frame.length = false)
    (hmax : frame.length + 31 ≤ 9014) :
    ∃ q, (dataplaneProcessLocal env j).fwd.midToWan =
        (j.fwd.pushWan j.self.tls.outRingIdx [q]).midToWan ∧ q.len = frame.length + 31 := by
  obtain ⟨h34, -, -⟩ := hadm.spec
  have hlen : j.pkt.len = frame.length := hr.holds.len
  obtain ⟨buf, hlin, hbuf⟩ := nePacketLinearize_of_holds hr.holds j.self.cryptoBuf
    (show frame.length ≤ neJumboFrameMax by simp; omega)
  have hread := read_egressBuf hbuf
  have hip := ipv4_egressBuf hadm hbuf
  rw [if_pos hproto] at hread
  -- the encoder succeeds on the clamped frame
  have het : cryptoEthL2PrefixLen (egressBuf (frameProto frame) buf frame.length) frame.length =
      some 12 :=
    cryptoEthInnerEtOff_eq_some_iff.mpr ⟨rfl, by omega, .inl (cryptoPktIsIpv4_iff.mp hip).2⟩
  obtain ⟨⟨out, n⟩, s, henc, -⟩ := l2TcpEncrypt_of_ready hready het (by omega)
  obtain ⟨-, _, _, _, -, hn, -⟩ := l2TcpEncrypt_eq_some henc
  rw [Mem.length_read] at hn
  generalize hj1 : (j.withBuf buf).withBuf (egressBuf (frameProto frame) buf frame.length) = j1
  have hj1' : j1.fwd = j.fwd ∧ j1.pkt = j.pkt ∧ j1.self.tls = j.self.tls := by
    rw [← hj1]; exact ⟨rfl, rfl, rfl⟩
  have hw1 : Writable j1.fwd.pair j1.pkt j1.pkt.segCount := by
    rw [hj1'.1, hj1'.2.1]; exact hr.writable'
  have henc1 : l2CryptoEncrypt env (frameProto frame) j1.fwd.crypto j1.self.cryptoBuf frame.length
      j1.l2 = (some (out, n), s) := by
    rw [← hj1, l2CryptoEncrypt, if_neg hproto]; exact henc
  obtain ⟨j2, hsingle, hlen2⟩ := encryptSingle_of_encrypt hw1 henc1 (by omega) (by omega)
    (by rw [hj1'.1, hj1'.2.1]; omega)
  have hquiet := (encryptSingle_outcome env j1 (frameProto frame) frame.length).2.1
  rw [hsingle] at hquiet
  obtain ⟨route, epoch, hf, -⟩ := hquiet.fwd
  have hmw : j2.fwd.midToWan = j.fwd.midToWan := by rw [hf, ← hj1'.1]
  have hri : j2.self.tls.outRingIdx = j.self.tls.outRingIdx := by rw [hquiet.ring, hj1'.2.2]
  -- and the packet goes to the ring
  have hrun : dataplaneProcessLocal env j = (pushToWan j2 0).2 := by
    have hsplit' : l2CryptoNeedSplit (frameProto frame) (j.withBuf buf).pkt.len = false := by
      change l2CryptoNeedSplit (frameProto frame) j.pkt.len = false
      rw [hlen]; exact hsplit
    rw [dataplaneProcessLocal_eq hlin]
    dsimp only
    rw [if_neg (by simp), if_neg (show ¬ (j.withBuf buf).fwd.wanCount ≠ 1 from fun h => h hwan), hlen,
      classify_dpParseFlow hbuf, encryptToWan_of_data hproto hsplit']
    change egressEnd (encryptSingle env ((j.withBuf buf).withBuf
      (egressBuf (frameProto frame) buf j.pkt.len)) (frameProto frame) j.pkt.len) = _
    rw [hlen, hj1, hsingle]
    rfl
  obtain ⟨q, hq, hqlen⟩ := @pushToWan_of_room j2 (by simp; omega) (by rw [hmw, hri]; exact hring)
  refine ⟨q, ?_, by omega⟩
  rw [hrun, hq, Forwarder.pushWan, Forwarder.pushWan, Forwarder.setMidToWan, Forwarder.setMidToWan,
    hmw, hri]

/-! ## what the peer receives -/

/-- The EtherType and the length of a frame laid out as an encoder does it. -/
theorem dataWire_spec {ctx : PacketCryptoCtx} {s s' : L2State} {macs plain c t : List UInt8}
    {nonce : Nonce} (h : SealedFrame env ctx s s' plain nonce c t) (hmacs : macs.length = 12)
    (w : UInt8) :
    (dataWire macs w nonce (c ++ t)).length = plain.length + 43 ∧
      ethReadEt (Mem.ofList (dataWire macs w nonce (c ++ t))) 12 = neL2FakeEthertype := by
  obtain ⟨hc, ht⟩ := env.gcm.length_encrypt h.cipher
  obtain ⟨hn, -, het, -⟩ := read_dataWire hmacs ht (Mem.read_ofList (dataWire macs w nonce (c ++ t)) rfl)
  exact ⟨by omega, het⟩

theorem udpWire_spec {ctx : PacketCryptoCtx} {s s' : L2State} {macs plain c t : List UInt8}
    {nonce : Nonce} (h : SealedFrame env ctx s s' plain nonce c t) (hmacs : macs.length = 12)
    (w : UInt8) :
    (udpWire macs w nonce (c ++ t)).length = plain.length + 47 ∧
      ethReadEt (Mem.ofList (udpWire macs w nonce (c ++ t))) 12 = neL2FakeEthertypeUdp := by
  obtain ⟨hc, ht⟩ := env.gcm.length_encrypt h.cipher
  obtain ⟨hn, -, het, -⟩ := read_udpWire hmacs ht (Mem.read_ofList (udpWire macs w nonce (c ++ t)) rfl)
  exact ⟨by omega, het⟩

/-- A wire frame as the peer's `wan_redirect` wants it. -/
structure OnWire (wire : List UInt8) : Prop where
  et : ethReadEt (Mem.ofList wire) 12 = neL2FakeEthertype ∨
    ethReadEt (Mem.ofList wire) 12 = neL2FakeEthertypeUdp
  len : wire.length ≤ 9014

/-- Whatever part of it is linear, the peer's socket gets the frame. -/
theorem OnWire.redirect {wire : List UInt8} (h : OnWire wire) {dataLen : Nat} (hd : 14 ≤ dataLen) :
    wanRedirect wanConfigEt (Mem.ofList wire) dataLen wire.length = .redirect :=
  wanRedirect_eq_redirect hd h.et h.len

/-- Every encoding is within the limit of the peer. -/
theorem Encodes.onWire {ctx : PacketCryptoCtx} {s s' : L2State} {wires : List (List UInt8)}
    (h : Encodes env ctx s s' frame wires) (hadm : Admitted frame) :
    ∀ wire ∈ wires, OnWire wire := by
  obtain ⟨h34, hmax, -⟩ := hadm.spec
  have hmacs : (frame.take 12).length = 12 := by rw [List.length_take]; omega
  cases h with
  | data hp hlen hs =>
      have hmacs' : ((clampedFrame frame).take 12).length = 12 := by
        rw [List.length_take, length_clampedFrame]; omega
      obtain ⟨hl, het⟩ := dataWire_spec hs hmacs' s.workerIdx
      intro wire hw
      rw [List.mem_singleton] at hw
      rw [List.length_drop, length_clampedFrame] at hl
      rw [hw]
      exact ⟨.inl het, by omega⟩
  | full hp hlen hs =>
      obtain ⟨hl, het⟩ := udpWire_spec hs hmacs s.workerIdx
      intro wire hw
      rw [List.mem_singleton] at hw
      rw [List.length_append, length_l2UdpShim, List.length_drop] at hl
      rw [hw]
      exact ⟨.inr het, by omega⟩
  | split hp hlen hsp hs1 hs0 =>
      obtain ⟨hl0, het0⟩ := udpWire_spec hs0 hmacs s.workerIdx
      obtain ⟨hl1, het1⟩ := udpWire_spec hs1 hmacs s.workerIdx
      rw [List.length_append, length_l2UdpShim, List.length_take, List.length_drop] at hl0
      rw [List.length_append, length_l2UdpShim, List.length_drop] at hl1
      intro wire hw
      rw [List.mem_cons, List.mem_singleton] at hw
      rcases hw with hw | hw
      · rw [hw]; exact ⟨.inr het0, by omega⟩
      · rw [hw]; exact ⟨.inr het1, by omega⟩

/-- Every packet that is pushed holds a frame the peer takes. -/
theorem pushed_onWire (hr : Received j.fwd.pair j.pkt frame) (hadm : Admitted frame) :
    ∃ pkts, (dataplaneProcessLocal env j).fwd.midToWan =
        (j.fwd.pushWan j.self.tls.outRingIdx pkts).midToWan ∧
      ∀ q ∈ pkts, ∃ wire, Holds (dataplaneProcessLocal env j).fwd.pair q wire ∧ OnWire wire := by
  rcases @dataplaneProcessLocal_spec env j frame hr hadm with h | ⟨s, s', pkts, wires, -, henc, h, hall⟩
  · exact ⟨[], by rw [Forwarder.pushWan_nil]; exact h, fun q hq => by cases hq⟩
  · refine ⟨pkts, h, fun q hq => ?_⟩
    obtain ⟨i, hi, rfl⟩ := List.mem_iff_getElem.mp hq
    have hlen := hall.length_eq
    exact ⟨wires[i], List.forall₂_iff_get.mp hall |>.2 i hi (by omega),
      henc.onWire hadm _ (List.getElem_mem _)⟩

/-! ## the split decision -/

/-- `l2_crypto_need_split` for UDP: one frame would be too long. -/
theorem l2CryptoNeedSplit_udp_iff (len : Nat) :
    l2CryptoNeedSplit .udp len = true ↔ 9014 < len + 46 := by
  simp only [l2CryptoNeedSplit, l2CryptoNeedUdpSplit, decide_eq_true_eq, ethHeaderSize, l2CryptoMtu,
    optFragMetaLen]
  omega

section Udp

variable {ctx : PacketCryptoCtx} {s : L2State} {packet : Mem} {len : Nat}

/-- A datagram that fits is encoded with 46 bytes of overhead. -/
theorem l2CryptoEncrypt_udp_of_ready (hready : EncReady env ctx s) (hv : s.udpTxValid = true)
    (hip : cryptoPktIsIpv4 packet len = true) (hlen : len + 46 ≤ 9014) :
    ∃ out s', l2CryptoEncrypt env .udp ctx packet len s = (some (out, len + 46), s') := by
  obtain ⟨h34, -⟩ := cryptoPktIsIpv4_iff.mp hip
  obtain ⟨⟨out, n⟩, s', henc, -⟩ := l2UdpEncrypt_of_ready hready hv hip (by simp; omega)
  obtain ⟨-, -, _, _, _, -, hn, -⟩ := l2UdpEncrypt_eq_some hip henc
  rw [Mem.length_read] at hn
  refine ⟨out, s', ?_⟩
  rw [l2CryptoEncrypt, if_pos rfl, henc, hn, show len - 14 + 60 = len + 46 by omega]

/-- One that does not fit is split into a frame of the MTU and the rest. -/
theorem l2CryptoSplitUdp_of_ready (hready : EncReady env ctx s) (hv : s.udpTxValid = true)
    (hip : cryptoPktIsIpv4 packet len = true) (hver : (packet 14).toNat / 16 = 4)
    (hihl : 5 ≤ (packet 14).toNat % 16) (hproto : (packet 23).toNat = ipprotoUdp)
    (hlen : 9014 < len + 46) (hmax : len ≤ 9014) (aux : Mem) :
    ∃ r s', l2CryptoSplitUdp env ctx packet len neJumboFrameMax aux neJumboFrameMax s =
        (some r, s') ∧ r.firstLen = 9014 ∧ r.secondLen = len - 8908 := by
  have hsp : Splittable packet len := ⟨hip, hver, hihl, .inl hproto, by omega⟩
  have hpt : splitPoint len = 8954 := by rw [splitPoint]; omega
  obtain ⟨r, s', hrun⟩ := @l2Split_of_ready env ctx packet len s neJumboFrameMax neJumboFrameMax aux
    hready hv hsp (by rw [hpt]; simp) (by rw [hpt]; simp; omega)
  obtain ⟨-, -, _, ⟨_, _, _, -, hl1, -⟩, ⟨_, _, _, -, hl0, -⟩⟩ := l2Split_eq_some hrun
  rw [Mem.length_read, hpt] at hl1 hl0
  exact ⟨r, s', hrun, by omega, by omega⟩

end Udp

/-- Sizes on the wire: when UDP datagrams are split and how long the frames are,
when other frames are sent and how long they are, and that the peer's
`wan_redirect` takes every frame that is pushed. -/
theorem wireSizes_agree (env : Env) :
    (∀ {ctx : PacketCryptoCtx} {s : L2State} {packet aux : Mem} {len : Nat},
      EncReady env ctx s → s.udpTxValid = true → cryptoPktIsIpv4 packet len = true →
      (packet 14).toNat / 16 = 4 → 5 ≤ (packet 14).toNat % 16 → (packet 23).toNat = ipprotoUdp →
      len ≤ 9014 →
      (l2CryptoNeedSplit .udp len = true ↔ 9014 < len + 46) ∧
      (l2CryptoNeedSplit .udp len = false →
        ∃ out s', l2CryptoEncrypt env .udp ctx packet len s = (some (out, len + 46), s')) ∧
      (l2CryptoNeedSplit .udp len = true →
        ∃ r s', l2CryptoSplitUdp env ctx packet len neJumboFrameMax aux neJumboFrameMax s =
          (some r, s') ∧ r.firstLen = 9014 ∧ r.secondLen = len - 8908)) ∧
    (∀ {j : Job} {frame : List UInt8}, Received j.fwd.pair j.pkt frame → Admitted frame →
      EncReady env j.fwd.crypto j.l2 → j.fwd.wanCount = 1 →
      (j.fwd.midToWan 0 j.self.tls.outRingIdx).items.length <
        (j.fwd.midToWan 0 j.self.tls.outRingIdx).cap →
      frame.length + 31 ≤ packetRoom j.fwd.pair j.pkt → frameProto frame ≠ .udp →
      l2CryptoNeedSplit (frameProto frame) frame.length = false →
      ((∃ q, (dataplaneProcessLocal env j).fwd.midToWan =
          (j.fwd.pushWan j.self.tls.outRingIdx [q]).midToWan ∧ q.len = frame.length + 31) ↔
        frame.length + 31 ≤ 9014)) ∧
    ∀ {j : Job} {frame : List UInt8}, Received j.fwd.pair j.pkt frame → Admitted frame →
      ∃ pkts, (dataplaneProcessLocal env j).fwd.midToWan =
          (j.fwd.pushWan j.self.tls.outRingIdx pkts).midToWan ∧
        ∀ q ∈ pkts, ∃ wire, Holds (dataplaneProcessLocal env j).fwd.pair q wire ∧
          (ethReadEt (Mem.ofList wire) 12 = neL2FakeEthertype ∨
            ethReadEt (Mem.ofList wire) 12 = neL2FakeEthertypeUdp) ∧ q.len ≤ 9014 ∧
          ∀ dataLen, 14 ≤ dataLen →
            wanRedirect wanConfigEt (Mem.ofList wire) dataLen q.len = .redirect := by
  refine ⟨?_, ?_, ?_⟩
  · intro ctx s packet aux len hready hv hip hver hihl hproto hmax
    refine ⟨l2CryptoNeedSplit_udp_iff len, fun hneed => ?_, fun hneed => ?_⟩
    · have hno : ¬ 9014 < len + 46 := by
        rw [← l2CryptoNeedSplit_udp_iff, hneed]; simp
      exact l2CryptoEncrypt_udp_of_ready hready hv hip (by omega)
    · exact l2CryptoSplitUdp_of_ready hready hv hip hver hihl hproto
        ((l2CryptoNeedSplit_udp_iff len).mp hneed) hmax aux
  · intro j frame hr hadm hready hwan hring hroom hproto hsplit
    constructor
    · intro h
      obtain ⟨q, hq, -⟩ := h
      rcases @dataplaneProcessLocal_spec env j frame hr hadm with
        hc | ⟨s, s', pkts, wires, -, henc, -, -⟩
      · -- nothing was pushed
        rw [hc] at hq
        have hnil := @pushWan_injective j.fwd j.self.tls.outRingIdx [] [q] (by
          rw [Forwarder.pushWan_nil]; exact hq)
        cases hnil
      · cases henc with
        | data _ hlen _ => exact hlen
        | full hp _ _ => exact absurd hp hproto
        | split hp _ _ _ _ => exact absurd hp hproto
    · exact dataplaneProcessLocal_of_data hr hadm hready hwan hring hroom hproto hsplit
  · intro j frame hr hadm
    obtain ⟨pkts, hpush, hall⟩ := @pushed_onWire env j frame hr hadm
    refine ⟨pkts, hpush, fun q hq => ?_⟩
    obtain ⟨wire, hh, hw⟩ := hall q hq
    refine ⟨wire, hh, hw.et, ?_, fun dataLen hd => ?_⟩
    · rw [hh.len]; exact hw.len
    · rw [hh.len]; exact hw.redirect hd

end WireSize

/-- A 42-byte UDP datagram behind its Ethernet header. -/
def sampleDatagram : List UInt8 :=
  [0x02, 0, 0, 0, 0, 0x02, 0x02, 0, 0, 0, 0, 0x01, 0x08, 0x00,
    0x45, 0, 0, 28, 0, 1, 0, 0, 64, 17, 0, 0, 10, 0, 0, 1, 10, 0, 0, 2,
    0x13, 0x88, 0x13, 0x89, 0, 8, 0, 0]

theorem encReady_sample (ctx : PacketCryptoCtx) (h : ctx.initialized = true) (s : L2State) :
    EncReady (sampleEnv 0) ctx s := ⟨h, rfl, .inr rfl, sampleGcm_working⟩

theorem admitted_samplePing : Admitted samplePing := ⟨42, by decide, by decide⟩

/-- The sizes of a datagram and of a ping: 88 and 73 bytes. -/
theorem wireSizes_agree_ping :
    (∃ out s', l2CryptoEncrypt (sampleEnv 0) .udp (packetCryptoInit coreKey) (Mem.ofList sampleDatagram) 42
      (l2CryptoUdpSetTxSeq 0 L2State.init) = (some (out, 88), s')) ∧
    (∃ q, (dataplaneProcessLocal (sampleEnv 0) (sampleJob 0 samplePing)).fwd.midToWan =
      ((sampleJob 0 samplePing).fwd.pushWan (sampleJob 0 samplePing).self.tls.outRingIdx
        [q]).midToWan ∧ q.len = 73) ∧
    ∃ pkts, (dataplaneProcessLocal (sampleEnv 0) (sampleJob 0 samplePing)).fwd.midToWan =
        ((sampleJob 0 samplePing).fwd.pushWan (sampleJob 0 samplePing).self.tls.outRingIdx
          pkts).midToWan ∧
      ∀ q ∈ pkts, q.len ≤ 9014 := by
  have hr : Received (sampleJob 0 samplePing).fwd.pair (sampleJob 0 samplePing).pkt samplePing :=
    received_sample (by decide) (by decide)
  obtain ⟨hudp, hdata, hall⟩ := wireSizes_agree (sampleEnv 0)
  refine ⟨?_, ?_, ?_⟩
  · exact (@hudp _ _ (Mem.ofList sampleDatagram) (fun _ => 0) 42 (encReady_sample (packetCryptoInit coreKey)
      rfl (l2CryptoUdpSetTxSeq 0 L2State.init)) rfl (by decide) (by decide) (by decide) (by decide)
      (by decide)).2.1 (by decide)
  · exact (hdata hr admitted_samplePing (encReady_sample _ rfl _) rfl (by decide) (by decide)
      (by decide) (by decide)).mpr (by decide)
  · obtain ⟨pkts, hpush, h⟩ := hall hr admitted_samplePing
    refine ⟨pkts, hpush, fun q hq => ?_⟩
    obtain ⟨_, -, -, hlen, -⟩ := h q hq
    exact hlen

end NetworkEncryptor
