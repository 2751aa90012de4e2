import NetworkEncryptor.Config
import NetworkEncryptor.Lib.Mem

/-!
# NetworkEncryptor.EthParse

`src/crypto/common/eth_parse.c`: where the EtherType, the IPv4 header and the
fields of the wire header of a frame are, and the TCP MSS clamp.

A frame is a buffer and a length; every function reads the buffer at the
source's own offsets.  An `int` offset with `-1` for "none" is an
`Option Nat`.
-/

namespace NetworkEncryptor

/-! ## EtherType and header offsets -/

/-- A big-endian 16-bit field. -/
def ethReadEt (pkt : Mem) (off : Nat) : Nat := (pkt off).toNat * 256 + (pkt (off + 1)).toNat

def ethMatchEt (et target fake : Nat) : Bool := et == target || (fake != 0 && et == fake)

def cryptoEthInnerEtOff (pkt : Mem) (pktLen : Nat) : Option Nat :=
  if pktLen < 14 then none
  else
    let et := ethReadEt pkt 12
    if ethMatchEt et ethPIp neL2FakeEthertype || et == neL2FakeEthertypeUdp then some 12 else none

def cryptoEthIpv4Offset (pkt : Mem) (pktLen : Nat) : Option Nat :=
  match cryptoEthInnerEtOff pkt pktLen with
  | none => none
  | some etOff =>
      if ethReadEt pkt etOff != ethPIp then none
      else if pktLen < etOff + 2 + 20 then none
      else some (etOff + 2)

def cryptoEthL2PrefixLen (pkt : Mem) (pktLen : Nat) : Option Nat := cryptoEthInnerEtOff pkt pktLen

def cryptoPktIsIpv4 (pkt : Mem) (pktLen : Nat) : Bool := (cryptoEthIpv4Offset pkt pktLen).isSome

def cryptoEthSetIpv4Et (pkt : Mem) (innerEtOff : Nat) : Mem := pkt.write innerEtOff [0x08, 0x00]

def cryptoEthL2HasMarker (pkt : Mem) (pktLen : Nat) : Bool :=
  match cryptoEthInnerEtOff pkt pktLen with
  | none => false
  | some etOff =>
      let et := ethReadEt pkt etOff
      et == neL2FakeEthertype || et == neL2FakeEthertypeUdp

def cryptoEthL2CoreIdOff (packet : Mem) (pktLen : Nat) : Option Nat :=
  match cryptoEthInnerEtOff packet pktLen with
  | none => none
  | some off => if pktLen < off + 3 then none else some (off + 2)

def cryptoEthL2FragMagicOff (packet : Mem) (pktLen nonceSize : Nat) : Option Nat :=
  match cryptoEthL2CoreIdOff packet pktLen with
  | none => none
  | some off => if pktLen < off + 1 + nonceSize then none else some (off + 1 + nonceSize)

def cryptoEthL2ReadWorkerIdx (packet : Mem) (pktLen : Nat) : Option UInt8 :=
  if !cryptoEthL2HasMarker packet pktLen then none
  else (cryptoEthL2CoreIdOff packet pktLen).map fun coreOff => packet coreOff

/-! ## the MSS clamp -/

/-- Fold the carries of a one's-complement sum; a sum of three 16-bit words
needs two rounds of the source's `while`. -/
def foldCarries (sum : Nat) : Nat :=
  let sum := if sum / 65536 ≠ 0 then sum % 65536 + sum / 65536 else sum
  if sum / 65536 ≠ 0 then sum % 65536 + sum / 65536 else sum

/-- Update the checksum of the TCP header at `tcp` for one replaced 16-bit word. -/
def tcpChecksumReplaceWord (pkt : Mem) (tcp oldWord newWord : Nat) : Mem :=
  if oldWord = newWord then pkt
  else
    let hc := ethReadEt pkt (tcp + 16)
    let sum := foldCarries ((65535 - hc) + (65535 - oldWord) + newWord)
    let hc := 65535 - sum
    pkt.write (tcp + 16) [UInt8.ofNat (hc / 256), UInt8.ofNat (hc % 256)]

/-- The option walk: the offset, from the TCP header, of the MSS option it
stops at.  Every round advances by at least one byte, so `optEnd` rounds are
enough. -/
def tcpMssOption (pkt : Mem) (tcp optEnd : Nat) : Nat → Nat → Option Nat
  | 0, _ => none
  | fuel + 1, optOff =>
      if optOff + 1 < optEnd then
        let kind := (pkt (tcp + optOff)).toNat
        if kind = 0 then none
        else if kind = 1 then tcpMssOption pkt tcp optEnd fuel (optOff + 1)
        else
          let olen := (pkt (tcp + optOff + 1)).toNat
          if olen < 2 ∨ optOff + olen > optEnd then none
          else if kind = 2 ∧ olen = 4 ∧ optOff + 4 ≤ optEnd then some optOff
          else tcpMssOption pkt tcp optEnd fuel (optOff + olen)
      else none

/-- The cap: what the path leaves beside the IP and TCP headers and the
encryption, between 536 and the largest 16-bit value. -/
def mssCap (pathMtu used : Nat) : Nat := min (max (pathMtu - used) 536) 0xFFFF

/-- Write the new value over the MSS option at `optOff` when it is too large;
the flag says whether anything changed. -/
def tcpReplaceMss (pkt : Mem) (tcp optOff cap : Nat) : Bool × Mem :=
  let oldMss := ethReadEt pkt (tcp + optOff + 2)
  let newMss := if oldMss > cap then cap else oldMss
  if newMss ≠ oldMss then
    (true, tcpChecksumReplaceWord
      (pkt.write (tcp + optOff + 2) [UInt8.ofNat (newMss / 256), UInt8.ofNat (newMss % 256)])
      tcp oldMss newMss)
  else (false, pkt)

/-- `crypto_tcp_clamp_mss`: `none` is the `-1` of a frame the clamp does not
apply to, `some changed` its `0` or `1`. -/
def cryptoTcpClampMss (pkt : Mem) (pktLen pathMtu wireOverhead : Nat) : Option Bool × Mem :=
  if pathMtu < 576 then (none, pkt)
  else
    match cryptoEthIpv4Offset pkt pktLen with
    | none => (none, pkt)
    | some l3Off =>
        let ihl := (pkt l3Off).toNat % 16 * 4
        let tcp := l3Off + ihl
        if pktLen < l3Off + 20 then (none, pkt)
        else if (pkt l3Off).toNat / 16 ≠ 4 then (none, pkt)
        else if (pkt (l3Off + 9)).toNat ≠ ipprotoTcp then (none, pkt)
        else if ihl < 20 ∨ pktLen < l3Off + ihl + 20 then (none, pkt)
        else if (pkt (tcp + 13)).toNat / 2 % 2 = 0 then (some false, pkt)
        else
          let dataOff := (pkt (tcp + 12)).toNat / 16 * 4
          let used := (ihl + 20 + wireOverhead) % 2 ^ 32
          if dataOff < 20 ∨ pktLen < l3Off + ihl + dataOff then (none, pkt)
          else if pathMtu ≤ used then (none, pkt)
          else
            match tcpMssOption pkt tcp dataOff dataOff 20 with
            | none => (some false, pkt)
            | some optOff =>
                let r := tcpReplaceMss pkt tcp optOff (mssCap pathMtu used)
                (some r.1, r.2)

/-! ## what the offsets are -/

/-- Every EtherType the dataplane looks at sits right behind the two
addresses. -/
theorem cryptoEthInnerEtOff_eq_some_iff {pkt : Mem} {pktLen off : Nat} :
    cryptoEthInnerEtOff pkt pktLen = some off ↔
      off = 12 ∧ 14 ≤ pktLen ∧ (ethReadEt pkt 12 = ethPIp ∨
        ethReadEt pkt 12 = neL2FakeEthertype ∨ ethReadEt pkt 12 = neL2FakeEthertypeUdp) := by
  have hmatch : (ethMatchEt (ethReadEt pkt 12) ethPIp neL2FakeEthertype ||
      ethReadEt pkt 12 == neL2FakeEthertypeUdp) = true ↔ ethReadEt pkt 12 = ethPIp ∨
        ethReadEt pkt 12 = neL2FakeEthertype ∨ ethReadEt pkt 12 = neL2FakeEthertypeUdp := by
    simp [ethMatchEt, or_assoc]
  unfold cryptoEthInnerEtOff
  by_cases hlen : pktLen < 14
  · rw [if_pos hlen]
    constructor
    · intro h; cases h
    · rintro ⟨-, h, -⟩; omega
  · rw [if_neg hlen]
    by_cases het : ethReadEt pkt 12 = ethPIp ∨
        ethReadEt pkt 12 = neL2FakeEthertype ∨ ethReadEt pkt 12 = neL2FakeEthertypeUdp
    · rw [if_pos (hmatch.mpr het), Option.some.injEq]
      constructor
      · rintro rfl; exact ⟨rfl, by omega, het⟩
      · rintro ⟨rfl, -⟩; rfl
    · rw [if_neg (fun h => het (hmatch.mp h))]
      constructor
      · intro h; cases h
      · rintro ⟨-, -, h⟩; exact absurd h het

theorem cryptoEthIpv4Offset_eq_some_iff {pkt : Mem} {pktLen off : Nat} :
    cryptoEthIpv4Offset pkt pktLen = some off ↔
      off = 14 ∧ 34 ≤ pktLen ∧ ethReadEt pkt 12 = ethPIp := by
  unfold cryptoEthIpv4Offset
  cases h : cryptoEthInnerEtOff pkt pktLen with
  | none =>
      constructor
      · intro hc; cases hc
      · rintro ⟨-, hl, he⟩
        have hs := cryptoEthInnerEtOff_eq_some_iff.mpr ⟨rfl, (by omega : 14 ≤ pktLen), .inl he⟩
        rw [h] at hs; cases hs
  | some o =>
      obtain ⟨rfl, hl, -⟩ := cryptoEthInnerEtOff_eq_some_iff.mp h
      by_cases he : ethReadEt pkt 12 = ethPIp
      · by_cases hl' : pktLen < 12 + 2 + 20
        · simp only [he, bne_self_eq_false, Bool.false_eq_true, if_false, if_pos hl']
          constructor
          · intro hc; cases hc
          · rintro ⟨-, h34, -⟩; omega
        · simp only [he, bne_self_eq_false, Bool.false_eq_true, if_false, if_neg hl',
            Option.some.injEq]
          constructor
          · intro ho; exact ⟨ho.symm, by omega, trivial⟩
          · rintro ⟨rfl, -⟩; rfl
      · simp only [bne_iff_ne, ne_eq, he, not_false_eq_true, if_true]
        constructor
        · intro hc; cases hc
        · rintro ⟨-, -, hc⟩; exact hc.elim

theorem cryptoPktIsIpv4_iff {pkt : Mem} {pktLen : Nat} :
    cryptoPktIsIpv4 pkt pktLen = true ↔ 34 ≤ pktLen ∧ ethReadEt pkt 12 = ethPIp := by
  rw [cryptoPktIsIpv4, Option.isSome_iff_exists]
  simp only [cryptoEthIpv4Offset_eq_some_iff]
  constructor
  · rintro ⟨o, -, h⟩; exact h
  · intro h; exact ⟨14, rfl, h⟩

theorem cryptoEthL2HasMarker_iff {pkt : Mem} {pktLen : Nat} :
    cryptoEthL2HasMarker pkt pktLen = true ↔ 14 ≤ pktLen ∧
      (ethReadEt pkt 12 = neL2FakeEthertype ∨ ethReadEt pkt 12 = neL2FakeEthertypeUdp) := by
  unfold cryptoEthL2HasMarker
  cases h : cryptoEthInnerEtOff pkt pktLen with
  | none =>
      constructor
      · intro hc; cases hc
      · rintro ⟨hl, he⟩
        have hs := cryptoEthInnerEtOff_eq_some_iff.mpr ⟨rfl, hl, .inr he⟩
        rw [h] at hs; cases hs
  | some o =>
      obtain ⟨rfl, hl, -⟩ := cryptoEthInnerEtOff_eq_some_iff.mp h
      simp [hl]

/-- Two EtherType bytes read as their number. -/
theorem ethReadEt_of_read {pkt : Mem} {off : Nat} {a b : UInt8}
    (h : pkt.read off 2 = [a, b]) : ethReadEt pkt off = a.toNat * 256 + b.toNat := by
  simp only [Mem.read_succ, Mem.read_zero, List.cons.injEq] at h
  rw [ethReadEt, h.1, h.2.1]

/-- An EtherType field holds the IPv4 number exactly when its bytes say so. -/
theorem ethReadEt_eq_ethPIp_iff {pkt : Mem} {off : Nat} :
    ethReadEt pkt off = ethPIp ↔ pkt.read off 2 = [0x08, 0x00] := by
  have h0 := (pkt off).toNat_lt
  have h1 := (pkt (off + 1)).toNat_lt
  simp only [Mem.read_succ, Mem.read_zero, List.cons.injEq, and_true, ethReadEt, ethPIp]
  rw [← UInt8.toNat_inj, ← UInt8.toNat_inj]
  simp only [UInt8.reduceToNat]
  omega

/-- The EtherType depends on its two bytes only. -/
theorem ethReadEt_congr {pkt pkt' : Mem} {off : Nat} (h0 : pkt off = pkt' off)
    (h1 : pkt (off + 1) = pkt' (off + 1)) : ethReadEt pkt off = ethReadEt pkt' off := by
  rw [ethReadEt, ethReadEt, h0, h1]

end NetworkEncryptor
