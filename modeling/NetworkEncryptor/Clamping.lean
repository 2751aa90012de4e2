import NetworkEncryptor.AccessParse
import NetworkEncryptor.Egress

/-!
# NetworkEncryptor.Clamping

The MSS clamp on the egress path: what it touches, what it is good for, and which
frames it rewrites.

A call replaces one value and the checksum, and a second call finds nothing to do;
a SYN that has passed it advertises no segment that would leave the WAN MTU when
encrypted (`clamp_meets_purpose`).

`crypto_tcp_clamp_mss` finds its TCP header behind the IP header of every frame
with protocol 6.  A fragment with a non-zero offset has no TCP header there, and
the clamp does not look at the offset: payload bytes that read as a SYN with a
large MSS are rewritten (`fragment_kept_iff`).
-/

namespace NetworkEncryptor

/-! ## what a rewrite does to the bytes -/

section clamped

variable {pkt : Mem} {pktLen pathMtu wireOverhead off : Nat}

/-- The option value after the clamp is the cap. -/
theorem mssAt_clamped (hihl : 20 ≤ ipIhl pkt) (hoff : 20 ≤ off) {cap : Nat} (hcap : cap ≤ 65535) :
    mssAt (clamped pkt off cap) off = cap := by
  obtain ⟨-, hstart, -, -⟩ := @clamped_header pkt off cap hihl hoff
  have hval : ∀ i ∈ [0, 1], clamped pkt off cap (tcpStart pkt + off + 2 + i) =
      [UInt8.ofNat (cap / 256), UInt8.ofNat (cap % 256)].getD i 0 := by
    intro i hi
    have hi' : i < 2 := by simp at hi; omega
    unfold clamped tcpChecksumReplaceWord
    split_ifs
    · rw [Mem.write_of_mem _ (by omega) (by simp; omega), Nat.add_sub_cancel_left]
    · simp only
      rw [Mem.write_of_not_mem _ (by simp; omega), Mem.write_of_mem _ (by omega) (by simp; omega),
        Nat.add_sub_cancel_left]
  have h0 := hval 0 (by simp)
  have h1 := hval 1 (by simp)
  rw [Nat.add_zero] at h0
  rw [mssAt, hstart, ethReadEt, h0, h1]
  simp only [List.getD_cons_zero, List.getD_cons_succ, (wordBytes hcap).1, (wordBytes hcap).2]
  omega

/-- A rewrite shows in the bytes of the frame. -/
theorem Clamps.read_ne (h : Clamps pkt pktLen pathMtu wireOverhead off) :
    (clamped pkt off (clampCap pkt pathMtu wireOverhead)).read 0 pktLen ≠ pkt.read 0 pktLen := by
  intro heq
  have hb := h.option.bounds
  have hd := h.header.dataOff
  have habove := h.above
  have hle : mssAt pkt off ≤ 65535 := ethReadEt_le pkt _
  have hag := Mem.read_eq_read_iff.mp heq
  simp only [Nat.zero_add] at hag
  have hval := mssAt_clamped h.header.ihl.1 hb.1
    (show clampCap pkt pathMtu wireOverhead ≤ 65535 by omega)
  obtain ⟨-, hstart, -, -⟩ :=
    @clamped_header pkt off (clampCap pkt pathMtu wireOverhead) h.header.ihl.1 hb.1
  rw [mssAt, hstart, ethReadEt_congr (hag _ (by omega)) (hag _ (by omega))] at hval
  rw [mssAt] at habove
  omega

end clamped

/-- The clamp leaves a buffer alone exactly when it finds nothing to rewrite. -/
theorem cryptoTcpClampMss_kept_iff {pkt : Mem} {pktLen pathMtu wireOverhead : Nat} :
    (cryptoTcpClampMss pkt pktLen pathMtu wireOverhead).2.read 0 pktLen = pkt.read 0 pktLen ↔
      ∀ off, ¬Clamps pkt pktLen pathMtu wireOverhead off := by
  rcases cryptoTcpClampMss_cases pkt pktLen pathMtu wireOverhead with ⟨off, hoff, heq⟩ | ⟨hnot, -, heq⟩
  · rw [heq]
    exact ⟨fun h => absurd h hoff.read_ne, fun h => absurd hoff (h off)⟩
  · simp [heq, hnot]

/-! ## a second call -/

/-- The options up to the one found decide the walk. -/
theorem MssOptionAt.congr {pkt pkt' : Mem} {tcp optEnd o off : Nat}
    (h : MssOptionAt pkt tcp optEnd o off)
    (hsame : ∀ i, o ≤ i → i < off + 2 → pkt' (tcp + i) = pkt (tcp + i)) :
    MssOptionAt pkt' tcp optEnd o off := by
  induction h with
  | @here o hkind hlen hend =>
      exact .here (by rw [hsame o (by omega) (by omega)]; exact hkind)
        (by rw [Nat.add_assoc, hsame (o + 1) (by omega) (by omega)]; exact hlen) hend
  | @nop o off hkind hat ih =>
      have hb := hat.bounds
      exact .nop (by rw [hsame o (by omega) (by omega)]; exact hkind)
        (ih fun i h1 h2 => hsame i (by omega) h2)
  | @skip o off h0 h1 hlen hend hmss hat ih =>
      have hb := hat.bounds
      have hk := hsame o (by omega) (by omega)
      have hl : pkt' (tcp + o + 1) = pkt (tcp + o + 1) := hsame (o + 1) (by omega) (by omega)
      rw [← hk] at h0 h1 hmss
      rw [← hl] at hlen hend hmss ih
      exact .skip h0 h1 hlen hend hmss (ih fun i h1 h2 => hsame i (by omega) h2)

section second

variable {pkt : Mem} {pktLen pathMtu wireOverhead off : Nat}

/-- The clamp keeps what makes the frame a SYN. -/
theorem SynHeader.clamped (h : SynHeader pkt pktLen pathMtu wireOverhead) (hoff : 20 ≤ off)
    (cap : Nat) : SynHeader (clamped pkt off cap) pktLen pathMtu wireOverhead := by
  obtain ⟨hmtu, hip, hver, hproto, hihl, hsyn, hdata, hroom⟩ := h
  obtain ⟨hihl', hstart, hdata', -⟩ := @clamped_header pkt off cap hihl.1 hoff
  have hfix : ∀ i < tcpStart pkt + 16, NetworkEncryptor.clamped pkt off cap i = pkt i :=
    fun i hi => clamped_of_lt hi hoff
  have hfront : ∀ i < 34, NetworkEncryptor.clamped pkt off cap i = pkt i :=
    fun i hi => hfix i (by rw [tcpStart]; omega)
  refine ⟨hmtu, ⟨hip.1, ?_⟩, ?_, ?_, ?_, ?_, ?_, ?_⟩
  · rw [ethReadEt_congr (hfront _ (by omega)) (hfront _ (by omega))]; exact hip.2
  · rw [hfront _ (by simp)]; exact hver
  · rw [hfront _ (by simp)]; exact hproto
  · rw [hihl', hstart]; exact hihl
  · rw [hstart, hfix _ (by omega)]; exact hsyn
  · rw [hdata', hstart]; exact hdata
  · rw [hihl']; exact hroom

/-- A clamped frame has nothing left to clamp. -/
theorem Clamps.clamped_kept (h : Clamps pkt pktLen pathMtu wireOverhead off) :
    cryptoTcpClampMss (clamped pkt off (clampCap pkt pathMtu wireOverhead)) pktLen pathMtu
        wireOverhead =
      (some false, clamped pkt off (clampCap pkt pathMtu wireOverhead)) := by
  have hb := h.option.bounds
  have hihl := h.header.ihl.1
  refine (h.header.clamped hb.1 _).kept fun off' h' => ?_
  obtain ⟨hihl', hstart, hdata', -⟩ :=
    @clamped_header pkt off (clampCap pkt pathMtu wireOverhead) hihl hb.1
  have hcap : clampCap (NetworkEncryptor.clamped pkt off (clampCap pkt pathMtu wireOverhead)) pathMtu
      wireOverhead = clampCap pkt pathMtu wireOverhead := by rw [clampCap, hihl', ← clampCap]
  have hat : MssOptionAt (NetworkEncryptor.clamped pkt off (clampCap pkt pathMtu wireOverhead))
      (tcpStart pkt) (tcpDataOff pkt) 20 off :=
    h.option.congr fun i h1 h2 => clamped_of_not_clampedByte (by simp only [ClampedByte]; omega)
  have hat' := h'.option
  rw [hstart, hdata'] at hat'
  obtain rfl := hat.unique hat'
  have habove := h'.above
  rw [hcap, mssAt_clamped hihl hb.1 (by rw [clampCap, mssCap]; omega)] at habove
  omega

/-- A second call finds nothing to change. -/
theorem cryptoTcpClampMss_again (pkt : Mem) (pktLen pathMtu wireOverhead : Nat) :
    cryptoTcpClampMss (cryptoTcpClampMss pkt pktLen pathMtu wireOverhead).2 pktLen pathMtu
        wireOverhead =
      ((cryptoTcpClampMss pkt pktLen pathMtu wireOverhead).1.map fun _ => false,
        (cryptoTcpClampMss pkt pktLen pathMtu wireOverhead).2) := by
  rcases cryptoTcpClampMss_cases pkt pktLen pathMtu wireOverhead with
    ⟨off, hoff, heq⟩ | ⟨-, hres, heq⟩
  · rw [heq]; exact hoff.clamped_kept
  · rw [heq]
    refine Prod.ext ?_ heq
    generalize (cryptoTcpClampMss pkt pktLen pathMtu wireOverhead).1 = r at hres
    rcases r with _ | _ | _ <;> simp at hres ⊢

end second

/-! ## what the clamp is for -/

section purpose

variable {pkt : Mem} {pktLen off : Nat}

/-- What a SYN advertises after a call, with the values of the egress path. -/
theorem advertised_le (hres : (cryptoTcpClampMss pkt pktLen l2CryptoMtu l2CryptoDataOverhead).1 ≠ none)
    (hsyn : (pkt (tcpStart pkt + 13)).toNat / 2 % 2 ≠ 0)
    (hat : MssOptionAt pkt (tcpStart pkt) (tcpDataOff pkt) 20 off) :
    mssAt (cryptoTcpClampMss pkt pktLen l2CryptoMtu l2CryptoDataOverhead).2 off + ipIhl pkt ≤ 8949 := by
  have hheader : SynHeader pkt pktLen l2CryptoMtu l2CryptoDataOverhead := by
    by_contra hnot
    rcases (cryptoTcpClampMss_of_not_syn hnot).1 with h | ⟨h, -⟩
    · exact hres h
    · exact hsyn h
  have hihl : ipIhl pkt ≤ 60 := by rw [ipIhl]; omega
  have hcap : clampCap pkt l2CryptoMtu l2CryptoDataOverhead = 8949 - ipIhl pkt := by
    rw [clampCap, mssCap]
    simp only [l2CryptoMtu, l2CryptoDataOverhead, packetCryptoNonceBytes, aesGcmTagSize]
    omega
  rcases cryptoTcpClampMss_cases pkt pktLen l2CryptoMtu l2CryptoDataOverhead with
    ⟨off', hoff', heq⟩ | ⟨hnot, -, heq⟩
  · obtain rfl := hat.unique hoff'.option
    rw [heq, mssAt_clamped hheader.ihl.1 hat.bounds.1 (by omega)]
    omega
  · rw [heq]
    have hle : ¬clampCap pkt l2CryptoMtu l2CryptoDataOverhead < mssAt pkt off :=
      fun habove => hnot off ⟨hheader, hat, habove⟩
    omega

/-- A segment of the connection: the IP header length of the SYN, a TCP header
without options, and no more data than the SYN advertised.  It is encrypted when
the thread is ready, and every encryption of it fits the WAN MTU. -/
theorem segment_fits {mss d : Nat} {seg : Mem} (hmss : mss + ipIhl pkt ≤ 8949)
    (hihl : ipIhl seg = ipIhl pkt) (hdata : tcpDataOff seg = 20) (hd : d ≤ mss) (env : Env)
    (ctx : PacketCryptoCtx) (s : L2State) :
    (ethReadEt seg 12 = ethPIp → EncReady env ctx s → ∃ r s',
        l2CryptoEncrypt env .data ctx seg (tcpStart seg + tcpDataOff seg + d) s = (some r, s')) ∧
      ∀ {out n s'}, l2CryptoEncrypt env .data ctx seg (tcpStart seg + tcpDataOff seg + d) s =
        (some (out, n), s') → n ≤ ethHeaderSize + l2CryptoMtu := by
  have hstart : tcpStart seg = 14 + ipIhl seg := rfl
  constructor
  · intro het hready
    have hoff : cryptoEthL2PrefixLen seg (tcpStart seg + tcpDataOff seg + d) = some 12 :=
      cryptoEthInnerEtOff_eq_some_iff.mpr ⟨rfl, by omega, .inl het⟩
    obtain ⟨r, s', hrun, -⟩ := l2TcpEncrypt_of_ready hready hoff (by omega)
    exact ⟨r, s', hrun⟩
  · intro out n s' henc
    obtain ⟨-, nonce, c, t, -, hn, -⟩ := l2TcpEncrypt_eq_some henc
    rw [Mem.length_read] at hn
    simp only [ethHeaderSize, l2CryptoMtu]
    omega

end purpose

/-! ## one buffer -/

/-- A state that is one buffer. -/
instance : Buffers Unit Mem := ⟨fun m _ => m, fun _ _ m => m⟩

theorem cell_unit : Buffers.Cell Unit Mem () := ⟨fun _ _ => rfl, fun _ _ _ => rfl, fun _ => rfl⟩

/-- An access the clamp may make: bytes of the frame, options of the TCP header. -/
def ClampAccess (pkt : Mem) (pktLen : Nat) : Access Unit → Prop
  | .read _ off n _ => ClampRange pkt pktLen off n
  | .write _ off n => ClampRange pkt pktLen off n
  | .sub _ _ => True

/-- The clamp, for every frame, MTU and overhead: it touches bytes of the frame only
and behind the fixed TCP header only those of the header; if it returns 1, it
changed at most the value of the first MSS option of the list and the checksum, and
otherwise nothing; a second call returns the same error or 0 and changes nothing;
and with the values of the egress path, no segment of a connection whose SYN passed
without an error grows beyond the WAN MTU. -/
theorem clamp_meets_purpose (pkt : Mem) (pktLen pathMtu wireOverhead : Nat) :
    ((Code.cryptoTcpClampMss () pktLen pathMtu wireOverhead).run pkt =
        cryptoTcpClampMss pkt pktLen pathMtu wireOverhead ∧
      ∀ a ∈ (Code.cryptoTcpClampMss () pktLen pathMtu wireOverhead).accesses pkt,
        ClampAccess pkt pktLen a) ∧
    ((cryptoTcpClampMss pkt pktLen pathMtu wireOverhead).1 = some true →
      ∃ off, MssOptionAt pkt (tcpStart pkt) (tcpDataOff pkt) 20 off ∧
        ∀ i, ¬ClampedByte pkt off i → (cryptoTcpClampMss pkt pktLen pathMtu wireOverhead).2 i = pkt i) ∧
    ((cryptoTcpClampMss pkt pktLen pathMtu wireOverhead).1 ≠ some true →
      (cryptoTcpClampMss pkt pktLen pathMtu wireOverhead).2 = pkt) ∧
    cryptoTcpClampMss (cryptoTcpClampMss pkt pktLen pathMtu wireOverhead).2 pktLen pathMtu
        wireOverhead =
      ((cryptoTcpClampMss pkt pktLen pathMtu wireOverhead).1.map fun _ => false,
        (cryptoTcpClampMss pkt pktLen pathMtu wireOverhead).2) ∧
    ∀ off, (cryptoTcpClampMss pkt pktLen l2CryptoMtu l2CryptoDataOverhead).1 ≠ none →
      (pkt (tcpStart pkt + 13)).toNat / 2 % 2 ≠ 0 →
      MssOptionAt pkt (tcpStart pkt) (tcpDataOff pkt) 20 off →
      ∀ seg d, ipIhl seg = ipIhl pkt → tcpDataOff seg = 20 →
        d ≤ mssAt (cryptoTcpClampMss pkt pktLen l2CryptoMtu l2CryptoDataOverhead).2 off →
        ∀ env ctx s,
          (ethReadEt seg 12 = ethPIp → EncReady env ctx s → ∃ r s',
            l2CryptoEncrypt env .data ctx seg (tcpStart seg + tcpDataOff seg + d) s = (some r, s')) ∧
          ∀ {out n s'}, l2CryptoEncrypt env .data ctx seg (tcpStart seg + tcpDataOff seg + d) s =
            (some (out, n), s') → n ≤ ethHeaderSize + l2CryptoMtu := by
  refine ⟨?_, ?_, ?_, cryptoTcpClampMss_again pkt pktLen pathMtu wireOverhead, ?_⟩
  · exact Code.cryptoTcpClampMss_does cell_unit (fun _ _ h => h) (fun _ _ h => h)
      (fun _ _ _ => ⟨trivial, trivial, trivial⟩)
  · intro hres
    rcases cryptoTcpClampMss_cases pkt pktLen pathMtu wireOverhead with ⟨off, hoff, heq⟩ | ⟨-, hne, -⟩
    · refine ⟨off, hoff.option, fun i hi => ?_⟩
      rw [heq]
      exact clamped_of_not_clampedByte hi
    · exact absurd hres hne
  · intro hres
    rcases cryptoTcpClampMss_cases pkt pktLen pathMtu wireOverhead with ⟨off, -, heq⟩ | ⟨-, -, heq⟩
    · rw [heq] at hres
      exact absurd rfl hres
    · exact heq
  · intro off hres hsyn hat seg d hihl hdata hd env ctx s
    exact segment_fits (advertised_le hres hsyn hat) hihl hdata hd env ctx s

/-! ## fragments -/

/-- The fragment offset of the IPv4 header, in units of eight bytes. -/
def ipFragOffset (frame : List UInt8) : Nat := ethReadEt (Mem.ofList frame) (ethHeaderSize + 6) % 8192

/-- The bytes behind the IP header read as a TCP SYN that advertises more than the
path takes. -/
def ReadsAsLargeSyn (frame : List UInt8) : Prop :=
  ∃ off, Clamps (Mem.ofList frame) frame.length l2CryptoMtu l2CryptoDataOverhead off

/-- The frame reaches the encoder as it was received, and the clamp leaves the
whole buffer as it was. -/
def KeptForWan (j : Job) (frame : List UInt8) (flowOk : Bool) : Prop :=
  (txStart j (frameProto frame) flowOk).2.self.cryptoBuf.read 0 frame.length = frame ∧
    (cryptoTcpClampMss j.self.cryptoBuf frame.length l2CryptoMtu l2CryptoDataOverhead).2 =
      j.self.cryptoBuf

section fragments

variable {j : Job} {frame : List UInt8} {flowOk : Bool}

theorem clampedFrame_eq_iff : clampedFrame frame = frame ↔ ¬ReadsAsLargeSyn frame := by
  have h := @cryptoTcpClampMss_kept_iff (Mem.ofList frame) frame.length l2CryptoMtu
    l2CryptoDataOverhead
  rw [Mem.read_ofList frame rfl] at h
  rw [clampedFrame, h, ReadsAsLargeSyn, not_exists]

theorem txSeqStep_cryptoBuf (j : Job) (pkt : Mem) (len : Nat) (flowOk : Bool) :
    (txSeqStep j pkt len flowOk).2.self.cryptoBuf = j.self.cryptoBuf := by
  unfold txSeqStep
  cases flowOk with
  | false => rfl
  | true => cases hseq : (dpUdpNextTxSeq j.fwd.route j.self.tls pkt len).1 <;> simp [hseq]

/-- What `encrypt_to_wan` hands to the encoders, whatever the class of the frame. -/
theorem read_txStart (hlen : j.pkt.len = frame.length)
    (hbuf : j.self.cryptoBuf.read 0 frame.length = frame) :
    (txStart j (frameProto frame) flowOk).2.self.cryptoBuf.read 0 frame.length =
      clampedFrame frame := by
  have hread := read_egressBuf hbuf
  have hbuf' : (txStart j (frameProto frame) flowOk).2.self.cryptoBuf =
      egressBuf (frameProto frame) j.self.cryptoBuf frame.length := by
    rw [txStart, hlen]
    split_ifs
    · exact txSeqStep_cryptoBuf _ _ _ _
    · rfl
  rw [hbuf', hread]
  split_ifs with hudp
  · rfl
  · exact (clampedFrame_of_udp (not_not.mp hudp)).symm

theorem keptForWan_iff (hlen : j.pkt.len = frame.length)
    (hbuf : j.self.cryptoBuf.read 0 frame.length = frame) :
    KeptForWan j frame flowOk ↔ ¬ReadsAsLargeSyn frame := by
  rw [KeptForWan, read_txStart hlen hbuf, ← clampedFrame_eq_iff, and_iff_left_iff_imp]
  intro hkept
  -- a rewrite of the buffer would show in the frame
  rcases cryptoTcpClampMss_cases j.self.cryptoBuf frame.length l2CryptoMtu l2CryptoDataOverhead with
    ⟨off, hoff, heq⟩ | ⟨-, -, heq⟩
  · have hread := read_cryptoTcpClampMss hbuf
    rw [heq, hkept] at hread
    exact absurd (hread.trans hbuf.symm) hoff.read_ne
  · exact heq

/-- An admitted fragment with a non-zero offset is encrypted as it was received
exactly when its payload does not read as a SYN that advertises too much. -/
theorem fragment_kept_iff (hlen : j.pkt.len = frame.length)
    (hbuf : j.self.cryptoBuf.read 0 frame.length = frame) :
    (Admitted frame → ipFragOffset frame ≠ 0 → KeptForWan j frame flowOk) ↔
      ¬(Admitted frame ∧ ipFragOffset frame ≠ 0 ∧ ReadsAsLargeSyn frame) := by
  rw [keptForWan_iff hlen hbuf, not_and, not_and]

/-- The second fragment of a TCP segment; its payload starts with the bytes of a
SYN with MSS 8960. -/
def synLikeFragment : List UInt8 :=
  [0x02, 0x00, 0x00, 0x00, 0x00, 0x02, 0x02, 0x00, 0x00, 0x00, 0x00, 0x01, 0x08, 0x00] ++
    [0x45, 0x00, 0x00, 0x2c, 0x00, 0x01, 0x00, 0xb9, 0x40, 0x06, 0x66, 0x10, 0x0a, 0x00, 0x00,
      0x01, 0x0a, 0x00, 0x00, 0x02] ++
    [0x9c, 0x40, 0x00, 0x50, 0x00, 0x00, 0x00, 0x01, 0x00, 0x00, 0x00, 0x00, 0x60, 0x02, 0xff,
      0xff, 0xca, 0x46, 0x00, 0x00] ++ [0x02, 0x04, 0x23, 0x00]

/-- Worker `w` with a frame in its buffer. -/
def linearizedJob (w : Nat) (frame : List UInt8) : Job :=
  (sampleJob w frame).withBuf (Mem.ofList frame)

/-- The fragment is received from the LAN, and what is encrypted is not what was
received. -/
theorem fragment_rewritten :
    Admitted synLikeFragment ∧ ipFragOffset synLikeFragment ≠ 0 ∧
      ¬KeptForWan (linearizedJob 0 synLikeFragment) synLikeFragment true := by
  refine ⟨⟨58, by decide, by decide +kernel⟩, by decide +kernel, fun h => ?_⟩
  have hbytes : (txStart (linearizedJob 0 synLikeFragment) (frameProto synLikeFragment)
      true).2.self.cryptoBuf.read 0 58 ≠ synLikeFragment := by decide +kernel
  exact hbytes h.1

/-- The same fragment without the bit the clamp takes for the SYN flag. -/
def plainFragment : List UInt8 := synLikeFragment.set 47 0x10

theorem fragment_kept_plain :
    Admitted plainFragment ∧ ipFragOffset plainFragment ≠ 0 ∧
      KeptForWan (linearizedJob 0 plainFragment) plainFragment true := by
  have hadm : Admitted plainFragment := ⟨58, by decide, by decide +kernel⟩
  have hfrag : ipFragOffset plainFragment ≠ 0 := by decide +kernel
  refine ⟨hadm, hfrag, (fragment_kept_iff rfl (by decide +kernel)).mpr ?_ hadm hfrag⟩
  rintro ⟨-, -, off, hoff⟩
  exact absurd hoff.header.syn (by decide +kernel)

end fragments

end NetworkEncryptor
