import NetworkEncryptor.CryptoRoute
import NetworkEncryptor.Lib.Access
import NetworkEncryptor.MssClamp

/-!
# NetworkEncryptor.AccessParse

`src/crypto/common/eth_parse.c`, `dp_parse_flow` of `packet_util.c` and the
lookups of `crypto_route.c` that parse a packet, access by access.

The functions of `EthParse` and `CryptoRoute` say what is computed from a frame.
The ones here, under the same names in the namespace `Code`, make the reads and
the writes of the source one after the other on a buffer.  Each has one `Does`
lemma: it computes what the function of the model does, and every byte it reads
is one of the packet.
-/

namespace NetworkEncryptor

namespace Code

open Prog

variable {ι σ : Type}

/-! ## EtherType and header offsets -/

def ethReadEt (b : ι) (pktLen off : Nat) : Prog ι σ Nat := do
  let hi ← byte b pktLen off
  let lo ← byte b pktLen (off + 1)
  return hi.toNat * 256 + lo.toNat

def cryptoEthInnerEtOff (b : ι) (pktLen : Nat) : Prog ι σ (Option Nat) := do
  if pktLen < 14 then return none
  let et ← ethReadEt b pktLen 12
  if ethMatchEt et ethPIp neL2FakeEthertype || et == neL2FakeEthertypeUdp then return some 12
  return none

def cryptoEthIpv4Offset (b : ι) (pktLen : Nat) : Prog ι σ (Option Nat) := do
  let some etOff ← cryptoEthInnerEtOff b pktLen | return none
  let et ← ethReadEt b pktLen etOff
  if et != ethPIp then return none
  if pktLen < etOff + 2 + 20 then return none
  return some (etOff + 2)

def cryptoEthL2PrefixLen (b : ι) (pktLen : Nat) : Prog ι σ (Option Nat) :=
  cryptoEthInnerEtOff b pktLen

def cryptoPktIsIpv4 (b : ι) (pktLen : Nat) : Prog ι σ Bool := do
  let off ← cryptoEthIpv4Offset b pktLen
  return off.isSome

def cryptoEthSetIpv4Et (b : ι) (innerEtOff : Nat) : Prog ι σ Unit := store b innerEtOff [0x08, 0x00]

def cryptoEthL2HasMarker (b : ι) (pktLen : Nat) : Prog ι σ Bool := do
  let some etOff ← cryptoEthInnerEtOff b pktLen | return false
  let et ← ethReadEt b pktLen etOff
  return et == neL2FakeEthertype || et == neL2FakeEthertypeUdp

def cryptoEthL2CoreIdOff (b : ι) (pktLen : Nat) : Prog ι σ (Option Nat) := do
  let some off ← cryptoEthInnerEtOff b pktLen | return none
  if pktLen < off + 3 then return none
  return some (off + 2)

def cryptoEthL2FragMagicOff (b : ι) (pktLen nonceSize : Nat) : Prog ι σ (Option Nat) := do
  let some off ← cryptoEthL2CoreIdOff b pktLen | return none
  if pktLen < off + 1 + nonceSize then return none
  return some (off + 1 + nonceSize)

/-! ## the MSS clamp -/

def tcpChecksumReplaceWord (b : ι) (pktLen tcp oldWord newWord : Nat) : Prog ι σ Unit := do
  if oldWord = newWord then return ()
  let hc ← ethReadEt b pktLen (tcp + 16)
  let sum := foldCarries ((65535 - hc) + (65535 - oldWord) + newWord)
  let hc := 65535 - sum
  store b (tcp + 16) [UInt8.ofNat (hc / 256), UInt8.ofNat (hc % 256)]

def tcpMssOption (b : ι) (pktLen tcp optEnd : Nat) : Nat → Nat → Prog ι σ (Option Nat)
  | 0, _ => return none
  | fuel + 1, optOff => do
      if ¬optOff + 1 < optEnd then return none
      let kind ← byte b pktLen (tcp + optOff)
      if kind.toNat = 0 then return none
      if kind.toNat = 1 then return ← tcpMssOption b pktLen tcp optEnd fuel (optOff + 1)
      let olen ← byte b pktLen (tcp + optOff + 1)
      if olen.toNat < 2 ∨ optOff + olen.toNat > optEnd then return none
      if kind.toNat = 2 ∧ olen.toNat = 4 ∧ optOff + 4 ≤ optEnd then return some optOff
      tcpMssOption b pktLen tcp optEnd fuel (optOff + olen.toNat)

def tcpReplaceMss (b : ι) (pktLen tcp optOff cap : Nat) : Prog ι σ Bool := do
  let oldMss ← ethReadEt b pktLen (tcp + optOff + 2)
  let newMss := if oldMss > cap then cap else oldMss
  if newMss = oldMss then return false
  store b (tcp + optOff + 2) [UInt8.ofNat (newMss / 256), UInt8.ofNat (newMss % 256)]
  tcpChecksumReplaceWord b pktLen tcp oldMss newMss
  return true

/-- `crypto_tcp_clamp_mss`.  The cap is the difference of the source's three
subtractions, in 32-bit arithmetic. -/
def cryptoTcpClampMss (b : ι) (pktLen pathMtu wireOverhead : Nat) : Prog ι σ (Option Bool) := do
  if pathMtu < 576 then return none
  let some l3Off ← cryptoEthIpv4Offset b pktLen | return none
  if pktLen < l3Off + 20 then return none
  let verIhl ← byte b pktLen l3Off
  if verIhl.toNat / 16 ≠ 4 then return none
  let proto ← byte b pktLen (l3Off + 9)
  if proto.toNat ≠ ipprotoTcp then return none
  let ihl := verIhl.toNat % 16 * 4
  if ihl < 20 ∨ pktLen < l3Off + ihl + 20 then return none
  let tcp := l3Off + ihl
  let flags ← byte b pktLen (tcp + 13)
  if flags.toNat / 2 % 2 = 0 then return some false
  let off ← byte b pktLen (tcp + 12)
  let dataOff := off.toNat / 16 * 4
  if dataOff < 20 ∨ pktLen < l3Off + ihl + dataOff then return none
  let used := (ihl + 20 + wireOverhead) % 2 ^ 32
  if pathMtu ≤ used then return none
  let rest ← minus pathMtu ihl
  let rest ← minus rest 20
  let _ ← minus rest wireOverhead
  let some optOff ← tcpMssOption b pktLen tcp dataOff dataOff 20 | return some false
  let changed ← tcpReplaceMss b pktLen tcp optOff (mssCap pathMtu used)
  return some changed

/-! ## flows -/

def readBe32 (b : ι) (pktLen off : Nat) : Prog ι σ UInt32 := do
  let bs ← bytes b pktLen off 4
  return NetworkEncryptor.readBe32 (Mem.ofList bs) 0

def dpParseFlow (b : ι) (pktLen : Nat) : Prog ι σ (Option Flow × UInt8) := do
  let some l3Off ← cryptoEthIpv4Offset b pktLen | return (none, 0)
  let verIhl ← byte b pktLen l3Off
  let ihl := verIhl.toNat % 16 * 4
  if ihl < 20 ∨ pktLen < l3Off + ihl then return (none, 0)
  let srcIp ← readBe32 b pktLen (l3Off + 12)
  let dstIp ← readBe32 b pktLen (l3Off + 16)
  let proto ← byte b pktLen (l3Off + 9)
  if proto.toNat = ipprotoTcp ∨ proto.toNat = ipprotoUdp then
    let l4 := l3Off + ihl
    if pktLen < l4 + 4 then return (none, proto)
    let srcPort ← ethReadEt b pktLen l4
    let dstPort ← ethReadEt b pktLen (l4 + 2)
    return (some ⟨srcIp, dstIp, UInt16.ofNat srcPort, UInt16.ofNat dstPort, proto⟩, proto)
  return (some ⟨srcIp, dstIp, 0, 0, proto⟩, proto)

def dpPktFlowHash (b : ι) (len : Nat) : Prog ι σ UInt32 := do
  if len < 14 then return 0
  let flow ← dpParseFlow b len
  match flow.1 with
  | none =>
      let front ← bytes b len 0 14
      let hash := front.foldl (fun h b => h * 31 + b.toUInt32) (UInt32.ofNat len)
      return dpFlowHashMix hash (hash >>> 16) (UInt16.ofNat len) 0 0
  | some f => return dpFlowHashMix f.srcIp f.dstIp f.srcPort f.dstPort f.proto

def dpRouteKeyParseDirection (b : ι) (len : Nat) : Prog ι σ (Option (RouteKey × Bool)) := do
  let flow ← dpParseFlow b len
  match flow.1 with
  | none => return none
  | some f => return dpRouteKeyFromTuple f

/-! ## what the functions do -/

/-- Every read below `e` of a buffer with `len` bytes of content is allowed. -/
def Reads (ok : Access ι → Prop) (b : ι) (len e : Nat) : Prop :=
  ∀ off n, off + n ≤ e → ok (.read b off n len)

section does

variable [Buffers ι σ] {ok : Access ι → Prop} {b : ι} {pktLen : Nat}

theorem ethReadEt_does {off e : Nat} (hr : Reads ok b pktLen e) (hoff : off + 2 ≤ e) (s : σ) :
    Does ok (ethReadEt b pktLen off) s (NetworkEncryptor.ethReadEt (Buffers.get s b) off, s) :=
  (Does.byte (hr _ _ (by omega)) s).bind ((Does.byte (hr _ _ (by omega)) s).bind (Does.pure _ s))

section header

variable (hr : 14 ≤ pktLen → Reads ok b pktLen 14) (s : σ)

include hr

theorem cryptoEthInnerEtOff_does :
    Does ok (cryptoEthInnerEtOff b pktLen) s
      (NetworkEncryptor.cryptoEthInnerEtOff (Buffers.get s b) pktLen, s) := by
  unfold cryptoEthInnerEtOff NetworkEncryptor.cryptoEthInnerEtOff
  by_cases hlen : pktLen < 14
  · simp only [if_pos hlen]
    exact Does.pure _ s
  · simp only [if_neg hlen]
    refine (ethReadEt_does (hr (by omega)) (by omega) s).bind ?_
    split <;> exact Does.pure _ s

theorem cryptoEthIpv4Offset_does :
    Does ok (cryptoEthIpv4Offset b pktLen) s
      (NetworkEncryptor.cryptoEthIpv4Offset (Buffers.get s b) pktLen, s) := by
  unfold cryptoEthIpv4Offset NetworkEncryptor.cryptoEthIpv4Offset
  refine (cryptoEthInnerEtOff_does hr s).bind ?_
  cases hoff : NetworkEncryptor.cryptoEthInnerEtOff (Buffers.get s b) pktLen with
  | none => exact Does.pure _ s
  | some off =>
      obtain ⟨rfl, hlen, -⟩ := cryptoEthInnerEtOff_eq_some_iff.mp hoff
      refine (ethReadEt_does (hr hlen) (by omega) s).bind ?_
      dsimp only
      split
      · exact Does.pure _ s
      · split <;> exact Does.pure _ s

theorem cryptoPktIsIpv4_does :
    Does ok (cryptoPktIsIpv4 b pktLen) s
      (NetworkEncryptor.cryptoPktIsIpv4 (Buffers.get s b) pktLen, s) :=
  (cryptoEthIpv4Offset_does hr s).bind (Does.pure _ s)

theorem cryptoEthL2HasMarker_does :
    Does ok (cryptoEthL2HasMarker b pktLen) s
      (NetworkEncryptor.cryptoEthL2HasMarker (Buffers.get s b) pktLen, s) := by
  unfold cryptoEthL2HasMarker NetworkEncryptor.cryptoEthL2HasMarker
  refine (cryptoEthInnerEtOff_does hr s).bind ?_
  cases hoff : NetworkEncryptor.cryptoEthInnerEtOff (Buffers.get s b) pktLen with
  | none => exact Does.pure _ s
  | some off =>
      obtain ⟨rfl, hlen, -⟩ := cryptoEthInnerEtOff_eq_some_iff.mp hoff
      exact (ethReadEt_does (hr hlen) (by omega) s).bind (Does.pure _ s)

theorem cryptoEthL2CoreIdOff_does :
    Does ok (cryptoEthL2CoreIdOff b pktLen) s
      (NetworkEncryptor.cryptoEthL2CoreIdOff (Buffers.get s b) pktLen, s) := by
  unfold cryptoEthL2CoreIdOff NetworkEncryptor.cryptoEthL2CoreIdOff
  refine (cryptoEthInnerEtOff_does hr s).bind ?_
  cases NetworkEncryptor.cryptoEthInnerEtOff (Buffers.get s b) pktLen with
  | none => exact Does.pure _ s
  | some off => dsimp only; split <;> exact Does.pure _ s

theorem cryptoEthL2FragMagicOff_does (nonceSize : Nat) :
    Does ok (cryptoEthL2FragMagicOff b pktLen nonceSize) s
      (NetworkEncryptor.cryptoEthL2FragMagicOff (Buffers.get s b) pktLen nonceSize, s) := by
  unfold cryptoEthL2FragMagicOff NetworkEncryptor.cryptoEthL2FragMagicOff
  refine (cryptoEthL2CoreIdOff_does hr s).bind ?_
  cases NetworkEncryptor.cryptoEthL2CoreIdOff (Buffers.get s b) pktLen with
  | none => exact Does.pure _ s
  | some off => dsimp only; split <;> exact Does.pure _ s

end header

/-! ### the clamp -/

section clamp

variable {tcp : Nat}

/-- The walk reads the options of the header and nothing behind it. -/
theorem tcpMssOption_does {optEnd : Nat} (hr : Reads ok b pktLen (tcp + optEnd)) (s : σ) (fuel : Nat) :
    ∀ optOff, Does ok (tcpMssOption b pktLen tcp optEnd fuel optOff) s
      (NetworkEncryptor.tcpMssOption (Buffers.get s b) tcp optEnd fuel optOff, s) := by
  induction fuel with
  | zero => intro optOff; exact Does.pure _ s
  | succ fuel ih =>
      intro optOff
      unfold tcpMssOption NetworkEncryptor.tcpMssOption
      by_cases hend : optOff + 1 < optEnd
      · simp only [hend, not_true_eq_false, if_false, if_true]
        refine (Does.byte (hr _ _ (by omega)) s).bind ?_
        split
        · exact Does.pure _ s
        · split
          · exact ih _
          · refine (Does.byte (hr _ _ (by omega)) s).bind ?_
            split
            · exact Does.pure _ s
            · split
              · exact Does.pure _ s
              · exact ih _
      · simp only [hend, not_false_eq_true, if_true, if_false]
        exact Does.pure _ s

variable (hcell : Buffers.Cell ι σ b)

include hcell

theorem tcpChecksumReplaceWord_does {oldWord newWord : Nat} (hr : Reads ok b pktLen (tcp + 20))
    (hw : ok (.write b (tcp + 16) 2)) (s : σ) :
    Does ok (tcpChecksumReplaceWord b pktLen tcp oldWord newWord) s
      ((), Buffers.set s b
        (NetworkEncryptor.tcpChecksumReplaceWord (Buffers.get s b) tcp oldWord newWord)) := by
  unfold tcpChecksumReplaceWord NetworkEncryptor.tcpChecksumReplaceWord
  by_cases heq : oldWord = newWord
  · simp only [if_pos heq, hcell.set_get]
    exact Does.pure _ s
  · simp only [if_neg heq]
    exact (ethReadEt_does hr (by omega) s).bind (Does.store hw s)

theorem tcpReplaceMss_does {optOff cap : Nat} (hr : Reads ok b pktLen (tcp + optOff + 4))
    (hr' : Reads ok b pktLen (tcp + 20)) (hw : ok (.write b (tcp + optOff + 2) 2))
    (hw' : ok (.write b (tcp + 16) 2)) (s : σ) :
    Does ok (tcpReplaceMss b pktLen tcp optOff cap) s
      ((NetworkEncryptor.tcpReplaceMss (Buffers.get s b) tcp optOff cap).1,
        Buffers.set s b (NetworkEncryptor.tcpReplaceMss (Buffers.get s b) tcp optOff cap).2) := by
  unfold tcpReplaceMss NetworkEncryptor.tcpReplaceMss
  refine (ethReadEt_does hr (by omega) s).bind ?_
  dsimp only
  generalize NetworkEncryptor.ethReadEt (Buffers.get s b) (tcp + optOff + 2) = old
  generalize (if old > cap then cap else old) = new
  by_cases heq : new = old
  · simp only [heq, ne_eq, not_true_eq_false, if_true, if_false, hcell.set_get]
    exact Does.pure _ s
  · simp only [ne_eq, heq, not_false_eq_true, if_true, if_false]
    refine (Does.store hw s).bind ?_
    have hsum := @tcpChecksumReplaceWord_does _ _ _ ok b pktLen tcp hcell old new hr' hw'
      (Buffers.set s b ((Buffers.get s b).write (tcp + optOff + 2)
        [UInt8.ofNat (new / 256), UInt8.ofNat (new % 256)]))
    rw [hcell.get_set, hcell.set_set] at hsum
    exact hsum.bind (Does.pure _ _)

theorem cryptoTcpClampMss_does {pathMtu wireOverhead : Nat} {s : σ}
    (hr : ∀ off n, ClampRange (Buffers.get s b) pktLen off n → ok (.read b off n pktLen))
    (hw : ∀ off n, ClampRange (Buffers.get s b) pktLen off n → ok (.write b off n))
    (hsub : ∀ ihl ≤ 60, (ihl + 20 + wireOverhead) % 2 ^ 32 < pathMtu → ok (.sub pathMtu ihl) ∧
      ok (.sub (pathMtu - ihl) 20) ∧ ok (.sub (pathMtu - ihl - 20) wireOverhead)) :
    Does ok (cryptoTcpClampMss b pktLen pathMtu wireOverhead) s
      ((NetworkEncryptor.cryptoTcpClampMss (Buffers.get s b) pktLen pathMtu wireOverhead).1,
        Buffers.set s b
          (NetworkEncryptor.cryptoTcpClampMss (Buffers.get s b) pktLen pathMtu wireOverhead).2) := by
  obtain ⟨-, ht, hd⟩ := headerFields (Buffers.get s b)
  have hstop : ∀ r, Does ok (pure r : Prog ι σ (Option Bool)) s
      (r, Buffers.set s b (Buffers.get s b)) := by
    intro r
    rw [hcell.set_get]
    exact Does.pure r s
  have hfixed : ∀ off n, off + n ≤ pktLen → off + n ≤ tcpStart (Buffers.get s b) + 20 →
      ok (.read b off n pktLen) := fun off n h1 h2 => hr off n ⟨h1, .inl h2⟩
  unfold cryptoTcpClampMss NetworkEncryptor.cryptoTcpClampMss
  by_cases hmtu : pathMtu < 576
  · simp only [if_pos hmtu]; exact hstop none
  · simp only [if_neg hmtu]
    refine (cryptoEthIpv4Offset_does (fun hlen off n h => hfixed off n (by omega) (by omega)) s).bind ?_
    cases hl3 : NetworkEncryptor.cryptoEthIpv4Offset (Buffers.get s b) pktLen with
    | none => exact hstop none
    | some l3Off =>
        obtain ⟨rfl, hlen, -⟩ := cryptoEthIpv4Offset_eq_some_iff.mp hl3
        dsimp only
        rw [if_neg (by omega), if_neg (by omega)]
        refine (Does.byte (hfixed _ _ (by omega) (by omega)) s).bind ?_
        split
        · exact hstop none
        · refine (Does.byte (hfixed _ _ (by omega) (by omega)) s).bind ?_
          split
          · exact hstop none
          · split
            · exact hstop none
            · refine (Does.byte (hfixed _ _ (by omega) (by omega)) s).bind ?_
              split
              · exact hstop (some false)
              · refine (Does.byte (hfixed _ _ (by omega) (by omega)) s).bind ?_
                split
                · exact hstop none
                · split
                  · exact hstop none
                  · rename_i hihl _ hdata hroom
                    obtain ⟨hs1, hs2, hs3⟩ := hsub ((Buffers.get s b 14).toNat % 16 * 4) (by omega)
                      (by omega)
                    refine (Does.minus hs1 s).bind ((Does.minus hs2 s).bind ((Does.minus hs3 s).bind ?_))
                    refine (tcpMssOption_does
                      (fun off n h => hr off n ⟨by omega, .inr (by omega)⟩) s _ _).bind ?_
                    generalize hopt : NetworkEncryptor.tcpMssOption (Buffers.get s b) _ _ _ 20 = o
                    cases o with
                    | none => exact hstop (some false)
                    | some optOff =>
                        have hb := (tcpMssOption_sound hopt).bounds
                        refine (tcpReplaceMss_does hcell
                          (fun off n h => hr off n ⟨by omega, .inr (by omega)⟩)
                          (fun off n h => hfixed off n (by omega) (by omega))
                          (hw _ _ ⟨by omega, .inr (by omega)⟩)
                          (hw _ _ ⟨by omega, .inl (by omega)⟩) s).bind (Does.pure _ _)

end clamp

/-! ### flows -/

theorem Reads.front {e e' : Nat} (hr : Reads ok b pktLen e) (h : e' ≤ e) : Reads ok b pktLen e' :=
  fun off n hn => hr off n (by omega)

theorem readBe32_does {off e : Nat} (hr : Reads ok b pktLen e) (hoff : off + 4 ≤ e) (s : σ) :
    Does ok (readBe32 b pktLen off) s (NetworkEncryptor.readBe32 (Buffers.get s b) off, s) := by
  have hbytes : NetworkEncryptor.readBe32 (Mem.ofList ((Buffers.get s b).read off 4)) 0 =
      NetworkEncryptor.readBe32 (Buffers.get s b) off := by
    simp [NetworkEncryptor.readBe32, Mem.ofList, Mem.read_succ]
  unfold readBe32
  rw [← hbytes]
  exact (Does.bytes (hr _ _ hoff) s).bind (Does.pure _ s)

section flow

variable (hr : Reads ok b pktLen pktLen) (s : σ)

include hr

theorem dpParseFlow_does :
    Does ok (dpParseFlow b pktLen) s (NetworkEncryptor.dpParseFlow (Buffers.get s b) pktLen, s) := by
  unfold dpParseFlow NetworkEncryptor.dpParseFlow
  refine (cryptoEthIpv4Offset_does (fun h => hr.front h) s).bind ?_
  cases hl3 : NetworkEncryptor.cryptoEthIpv4Offset (Buffers.get s b) pktLen with
  | none => exact Does.pure _ s
  | some l3Off =>
      obtain ⟨rfl, hlen, -⟩ := cryptoEthIpv4Offset_eq_some_iff.mp hl3
      refine (Does.byte (hr _ _ (by omega)) s).bind ?_
      dsimp only
      split
      · exact Does.pure _ s
      · refine (readBe32_does hr (by omega) s).bind ((readBe32_does hr (by omega) s).bind
          ((Does.byte (hr _ _ (by omega)) s).bind ?_))
        split
        · split
          · exact Does.pure _ s
          · exact (ethReadEt_does hr (by omega) s).bind ((ethReadEt_does hr (by omega) s).bind
              (Does.pure _ s))
        · exact Does.pure _ s

theorem dpPktFlowHash_does :
    Does ok (dpPktFlowHash b pktLen) s
      (NetworkEncryptor.dpPktFlowHash (Buffers.get s b) pktLen, s) := by
  unfold dpPktFlowHash NetworkEncryptor.dpPktFlowHash
  by_cases hlen : pktLen < 14
  · simp only [if_pos hlen]; exact Does.pure _ s
  · simp only [if_neg hlen]
    refine (dpParseFlow_does hr s).bind ?_
    cases (NetworkEncryptor.dpParseFlow (Buffers.get s b) pktLen).1 with
    | none => exact (Does.bytes (hr _ _ (by omega)) s).bind (Does.pure _ s)
    | some f => exact Does.pure _ s

theorem dpRouteKeyParseDirection_does :
    Does ok (dpRouteKeyParseDirection b pktLen) s
      (NetworkEncryptor.dpRouteKeyParseDirection (Buffers.get s b) pktLen, s) := by
  unfold dpRouteKeyParseDirection NetworkEncryptor.dpRouteKeyParseDirection
  refine (dpParseFlow_does hr s).bind ?_
  cases (NetworkEncryptor.dpParseFlow (Buffers.get s b) pktLen).1 <;> exact Does.pure _ s

end flow

end does

end Code

end NetworkEncryptor
