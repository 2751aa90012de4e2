import NetworkEncryptor.CryptoRoute
import NetworkEncryptor.MssClamp

/-!
# NetworkEncryptor.Frames

What the egress code decides about a LAN frame depends on the bytes of the
frame and on nothing else in the buffer of the worker: its flow, its protocol
class, and what the MSS clamp makes of it.  The frame is therefore a byte
string here, and the buffer any memory that starts with it.
-/

namespace NetworkEncryptor

/-- Two buffers with the same first `n` bytes. -/
def Agree (n : Nat) (m m' : Mem) : Prop := ∀ i < n, m i = m' i

theorem agree_iff_read {n : Nat} {m m' : Mem} : Agree n m m' ↔ m.read 0 n = m'.read 0 n := by
  rw [Mem.read_eq_read_iff]
  simp only [Nat.zero_add]
  exact Iff.rfl

/-- A buffer that starts with a frame agrees with the frame. -/
theorem agree_ofList {m : Mem} {frame : List UInt8} (h : m.read 0 frame.length = frame) :
    Agree frame.length m (Mem.ofList frame) := by
  rw [agree_iff_read, h, Mem.read_ofList frame rfl]

section Agree

variable {n : Nat} {m m' : Mem}

theorem Agree.ethReadEt {off : Nat} (h : Agree n m m') (hoff : off + 2 ≤ n) :
    ethReadEt m off = NetworkEncryptor.ethReadEt m' off :=
  ethReadEt_congr (h off (by omega)) (h (off + 1) (by omega))

theorem Agree.readBe32 {off : Nat} (h : Agree n m m') (hoff : off + 4 ≤ n) :
    readBe32 m off = NetworkEncryptor.readBe32 m' off := by
  rw [NetworkEncryptor.readBe32, NetworkEncryptor.readBe32, h off (by omega), h (off + 1) (by omega),
    h (off + 2) (by omega), h (off + 3) (by omega)]

theorem Agree.cryptoEthIpv4Offset (h : Agree n m m') :
    cryptoEthIpv4Offset m n = NetworkEncryptor.cryptoEthIpv4Offset m' n := by
  by_cases hlen : 34 ≤ n
  · apply Option.ext
    intro off
    rw [cryptoEthIpv4Offset_eq_some_iff, cryptoEthIpv4Offset_eq_some_iff, h.ethReadEt (by omega)]
  · have hnone (k : Mem) : NetworkEncryptor.cryptoEthIpv4Offset k n = none := by
      cases hk : NetworkEncryptor.cryptoEthIpv4Offset k n with
      | none => rfl
      | some off => exact absurd (cryptoEthIpv4Offset_eq_some_iff.mp hk).2.1 hlen
    rw [hnone, hnone]

/-- The flow is in the frame. -/
theorem Agree.dpParseFlow (h : Agree n m m') : dpParseFlow m n = NetworkEncryptor.dpParseFlow m' n := by
  rw [NetworkEncryptor.dpParseFlow, NetworkEncryptor.dpParseFlow, h.cryptoEthIpv4Offset]
  cases hoff : NetworkEncryptor.cryptoEthIpv4Offset m' n with
  | none => rfl
  | some off =>
      obtain ⟨rfl, h34, -⟩ := cryptoEthIpv4Offset_eq_some_iff.mp hoff
      dsimp only
      rw [h 14 (by omega), h (14 + 9) (by omega), h.readBe32 (by omega : 14 + 12 + 4 ≤ n),
        h.readBe32 (by omega : 14 + 16 + 4 ≤ n)]
      by_cases hihl : (m' 14).toNat % 16 * 4 < 20 ∨ n < 14 + (m' 14).toNat % 16 * 4
      · rw [if_pos hihl, if_pos hihl]
      · rw [if_neg hihl, if_neg hihl]
        by_cases hl4 : n < 14 + (m' 14).toNat % 16 * 4 + 4
        · simp only [if_pos hl4]
        · simp only [if_neg hl4]
          rw [h.ethReadEt (by omega), h.ethReadEt (by omega)]

/-! ## the clamp -/

/-- The option walk stays within the TCP header. -/
theorem Agree.tcpMssOption {tcp optEnd : Nat} (h : Agree n m m') (hend : tcp + optEnd ≤ n)
    (fuel : Nat) : ∀ off, tcpMssOption m tcp optEnd fuel off =
      NetworkEncryptor.tcpMssOption m' tcp optEnd fuel off := by
  induction fuel with
  | zero => intro off; rfl
  | succ fuel ih =>
      intro off
      rw [NetworkEncryptor.tcpMssOption, NetworkEncryptor.tcpMssOption]
      by_cases hoff : off + 1 < optEnd
      · rw [if_pos hoff, if_pos hoff, h (tcp + off) (by omega), h (tcp + off + 1) (by omega)]
        simp only [ih]
      · rw [if_neg hoff, if_neg hoff]

theorem Agree.write {off : Nat} {bs : List UInt8} (h : Agree n m m') :
    Agree n (m.write off bs) (m'.write off bs) := by
  intro i hi
  rw [Mem.write, Mem.write, h i hi]

theorem Agree.tcpReplaceMss {tcp off cap : Nat} (h : Agree n m m') (hoff : tcp + off + 4 ≤ n)
    (hsum : tcp + 20 ≤ n) :
    Agree n (tcpReplaceMss m tcp off cap).2 (NetworkEncryptor.tcpReplaceMss m' tcp off cap).2 := by
  rw [NetworkEncryptor.tcpReplaceMss, NetworkEncryptor.tcpReplaceMss, h.ethReadEt (by omega)]
  generalize hold : NetworkEncryptor.ethReadEt m' (tcp + off + 2) = old
  generalize hnew : (if old > cap then cap else old) = new
  by_cases hne : new ≠ old
  · rw [if_pos hne, if_pos hne]
    dsimp only
    have hw : Agree n (m.write (tcp + off + 2) [UInt8.ofNat (new / 256), UInt8.ofNat (new % 256)])
        (m'.write (tcp + off + 2) [UInt8.ofNat (new / 256), UInt8.ofNat (new % 256)]) := h.write
    rw [tcpChecksumReplaceWord, tcpChecksumReplaceWord, if_neg (Ne.symm hne), if_neg (Ne.symm hne)]
    dsimp only
    rw [hw.ethReadEt (by omega)]
    exact hw.write
  · rw [if_neg hne, if_neg hne]; exact h

/-- What the clamp makes of a frame is in the frame. -/
theorem Agree.cryptoTcpClampMss {mtu ovh : Nat} (h : Agree n m m') :
    Agree n (cryptoTcpClampMss m n mtu ovh).2 (NetworkEncryptor.cryptoTcpClampMss m' n mtu ovh).2 := by
  rw [NetworkEncryptor.cryptoTcpClampMss, NetworkEncryptor.cryptoTcpClampMss, h.cryptoEthIpv4Offset]
  by_cases hmtu : mtu < 576
  · rw [if_pos hmtu, if_pos hmtu]; exact h
  · rw [if_neg hmtu, if_neg hmtu]
    cases hoff : NetworkEncryptor.cryptoEthIpv4Offset m' n with
    | none => exact h
    | some off =>
        obtain ⟨rfl, h34, -⟩ := cryptoEthIpv4Offset_eq_some_iff.mp hoff
        dsimp only
        rw [h 14 (by omega), h (14 + 9) (by omega)]
        generalize hih : (m' 14).toNat % 16 * 4 = ihl
        split
        · exact h
        · split
          · exact h
          · split
            · exact h
            · by_cases hfits : ihl < 20 ∨ n < 14 + ihl + 20
              · rw [if_pos hfits, if_pos hfits]; exact h
              · rw [if_neg hfits, if_neg hfits, h (14 + ihl + 12) (by omega),
                  h (14 + ihl + 13) (by omega)]
                split
                · exact h
                · by_cases hdata : (m' (14 + ihl + 12)).toNat / 16 * 4 < 20 ∨
                      n < 14 + ihl + (m' (14 + ihl + 12)).toNat / 16 * 4
                  · rw [if_pos hdata, if_pos hdata]; exact h
                  · rw [if_neg hdata, if_neg hdata]
                    split
                    · exact h
                    · rw [h.tcpMssOption (by omega)]
                      generalize hd : (m' (14 + ihl + 12)).toNat / 16 * 4 = d at hdata ⊢
                      cases hopt : NetworkEncryptor.tcpMssOption m' (14 + ihl) d d 20 with
                      | none => exact h
                      | some o =>
                          have ho := (tcpMssOption_sound hopt).bounds
                          exact h.tcpReplaceMss (by omega) (by omega)

end Agree

/-- The clamp leaves Ethernet and IP headers alone. -/
theorem cryptoTcpClampMss_front (m : Mem) (n mtu ovh : Nat) {i : Nat} (hi : i < 34) :
    (cryptoTcpClampMss m n mtu ovh).2 i = m i := by
  rcases cryptoTcpClampMss_cases m n mtu ovh with ⟨off, hoff, heq⟩ | ⟨-, -, heq⟩
  · have hstart := hoff.header.ihl.1
    rw [heq]
    exact clamped_of_lt (by rw [tcpStart]; omega) hoff.option.bounds.1
  · rw [heq]

/-- The clamp is for TCP. -/
theorem cryptoTcpClampMss_of_not_tcp {m : Mem} {n mtu ovh : Nat}
    (h : (m 23).toNat ≠ ipprotoTcp) : (cryptoTcpClampMss m n mtu ovh).2 = m :=
  (cryptoTcpClampMss_of_not_syn fun hsyn => h hsyn.proto).2

/-! ## frames -/

/-- The class `dataplane_process_local` puts a frame into. -/
def frameProto (frame : List UInt8) : L2CryptoProto :=
  l2CryptoClassify (dpParseFlow (Mem.ofList frame) frame.length).2.toNat

/-- A frame after `crypto_tcp_clamp_mss`. -/
def clampedFrame (frame : List UInt8) : List UInt8 :=
  (cryptoTcpClampMss (Mem.ofList frame) frame.length l2CryptoMtu l2CryptoDataOverhead).2.read 0
    frame.length

@[simp] theorem length_clampedFrame (frame : List UInt8) :
    (clampedFrame frame).length = frame.length := Mem.length_read ..

section Frames

variable {buf : Mem} {frame : List UInt8}

theorem classify_dpParseFlow (h : buf.read 0 frame.length = frame) :
    l2CryptoClassify (dpParseFlow buf frame.length).2.toNat = frameProto frame := by
  rw [(agree_ofList h).dpParseFlow, frameProto]

theorem read_cryptoTcpClampMss (h : buf.read 0 frame.length = frame) :
    (cryptoTcpClampMss buf frame.length l2CryptoMtu l2CryptoDataOverhead).2.read 0 frame.length =
      clampedFrame frame := agree_iff_read.mp (agree_ofList h).cryptoTcpClampMss

/-- The protocol byte behind a class other than DATA. -/
theorem l2CryptoClassify_dpParseFlow {m : Mem} {n : Nat}
    (h : l2CryptoClassify (dpParseFlow m n).2.toNat ≠ .data) :
    (dpParseFlow m n).2 = m 23 ∧ 34 ≤ n ∧ 20 ≤ (m 14).toNat % 16 * 4 := by
  rw [dpParseFlow] at h ⊢
  cases hoff : cryptoEthIpv4Offset m n with
  | none => simp [hoff, l2CryptoClassify] at h
  | some off =>
      obtain ⟨rfl, h34, -⟩ := cryptoEthIpv4Offset_eq_some_iff.mp hoff
      rw [hoff] at h
      dsimp only at h ⊢
      by_cases hihl : (m 14).toNat % 16 * 4 < 20 ∨ n < 14 + (m 14).toNat % 16 * 4
      · rw [if_pos hihl] at h; simp [l2CryptoClassify] at h
      · rw [if_neg hihl]
        refine ⟨?_, h34, by omega⟩
        split
        · split <;> rfl
        · rfl

/-- The clamp does nothing to a UDP frame. -/
theorem clampedFrame_of_udp (h : frameProto frame = .udp) : clampedFrame frame = frame := by
  have hne : l2CryptoClassify (dpParseFlow (Mem.ofList frame) frame.length).2.toNat ≠ .data := by
    rw [frameProto] at h; rw [h]; simp
  have hbyte := (l2CryptoClassify_dpParseFlow hne).1
  have h17 : (Mem.ofList frame 23).toNat ≠ ipprotoTcp := by
    rw [← hbyte]
    intro h6
    rw [frameProto, h6] at h
    simp [l2CryptoClassify] at h
  rw [clampedFrame, cryptoTcpClampMss_of_not_tcp h17, Mem.read_ofList frame rfl]

end Frames

end NetworkEncryptor
