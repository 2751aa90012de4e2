import Mathlib.Algebra.Ring.Nat

/-!
# NetworkEncryptor.Config

The compile-time constants of the dataplane, under the source's names:
`inc/core/iface/interface.h`, `inc/core/util/cpu_map.h`,
`inc/crypto/l2_crypto.h`, `inc/crypto/packet_crypto.h` and
`inc/crypto/eth_parse.h`.
-/

namespace NetworkEncryptor

/-! ## UMEM and rings (`interface.h`) -/

def neRingSize : Nat := 16384
def neFrame : Nat := 4096
def neNFrames : Nat := 524288
def nePacketMaxSegs : Nat := 4
def neJumboFrameMax : Nat := 9216
def neBatchSize : Nat := 64
def neFqPrefill : Nat := 16384
def maxQueues : Nat := 64

/-! ## thread placement (`cpu_map.h`) -/

def neCpuRxLan : List Nat := [0]
def neCpuTx : List Nat := [1, 2, 9, 10]
def neCpuCrypto : List Nat := [3, 4, 5, 6, 7, 8]
def neCpuRxWan : List Nat := [11]

def neRxLanSlots : Nat := neCpuRxLan.length
def neRxWanSlots : Nat := neCpuRxWan.length
def neTxSlots : Nat := neCpuTx.length
def neCryptoWorkers : Nat := neCpuCrypto.length

/-! ## Ethernet and the wire header (`eth_parse.h`, `packet_crypto.h`) -/

def ethHeaderSize : Nat := 14
def ethL2HdrMax : Nat := 18
def ethPIp : Nat := 0x0800
def neL2FakeEthertype : Nat := 0x104A
def neL2FakeEthertypeUdp : Nat := 0x104B
def packetCryptoNonceBytes : Nat := 12
def aesGcmTagSize : Nat := 16

def ipprotoIcmp : Nat := 1
def ipprotoTcp : Nat := 6
def ipprotoUdp : Nat := 17
def ipprotoOspf : Nat := 89

/-! ## the encrypted formats (`l2_crypto.h`, `pqc_l2_option.c`) -/

def l2CryptoMtu : Nat := 9000
def l2CryptoDataOverhead : Nat := 2 + 1 + packetCryptoNonceBytes + aesGcmTagSize
def optFragMetaLen : Nat := 46
def l2CoreIdLen : Nat := 1
def l2NonceSize : Nat := packetCryptoNonceBytes
def l2UdpMarkerSize : Nat := 4
def l2UdpShimSize : Nat := 13
def l2UdpShimVersion : Nat := 1
def minEthPkt : Nat := ethHeaderSize + 8
def l2FragTableSize : Nat := 256
def l2FragTimeoutNs : UInt64 := 200 * 1000000

/- The constants are numerals to every proof: `simp` replaces them by their
values, and `omega` does the rest. -/
attribute [simp, reducible] neRingSize neFrame neNFrames nePacketMaxSegs neJumboFrameMax neBatchSize
  neFqPrefill maxQueues neCpuRxLan neCpuTx neCpuCrypto neCpuRxWan neRxLanSlots neRxWanSlots
  neTxSlots neCryptoWorkers ethHeaderSize ethL2HdrMax ethPIp neL2FakeEthertype
  neL2FakeEthertypeUdp packetCryptoNonceBytes aesGcmTagSize ipprotoIcmp ipprotoTcp ipprotoUdp
  ipprotoOspf l2CryptoMtu l2CryptoDataOverhead optFragMetaLen l2CoreIdLen l2NonceSize
  l2UdpMarkerSize l2UdpShimSize l2UdpShimVersion minEthPkt l2FragTableSize

end NetworkEncryptor
