import NetworkEncryptor.AccessParse
import NetworkEncryptor.Outcomes
import NetworkEncryptor.WireFormat

/-!
# NetworkEncryptor.AccessCrypto

`src/crypto/pqc/pqc_l2_option.c` and `traffic_crypto.c`, access by access: the
encoders and decoders at work in the buffers of a worker.

The functions of `L2Crypto` take a buffer and return the new one.  The ones here,
under the same names in the namespace `Code`, move, write and encrypt in
`crypto_buf` and `crypto_aux` as the source does.  The current length of a packet
is the length it arrived with, and from the move on the length it is laid out to.
-/

namespace NetworkEncryptor

/-! ## the buffers of a worker -/

/-- The two buffers of the worker, and the three arrays of entry `i` of the
reassembly table `t`. -/
inductive Buf
  | cryptoBuf
  | cryptoAux
  | ethHdr (t i : Nat)
  | first (t i : Nat)
  | second (t i : Nat)
  deriving DecidableEq

/-- The size of the array. -/
def Buf.cap : Buf → Nat
  | .cryptoBuf => neJumboFrameMax
  | .cryptoAux => neJumboFrameMax
  | .ethHdr _ _ => ethL2HdrMax
  | .first _ _ => neJumboFrameMax
  | .second _ _ => neJumboFrameMax

/-- What is read is content, and the content is in the buffer; what is written is
in the buffer; no length underflows. -/
def Access.InRange : Access Buf → Prop
  | .read b off n len => off + n ≤ len ∧ len ≤ b.cap
  | .write b off n => off + n ≤ b.cap
  | .sub a b => b ≤ a

/-- Entry `i` of table `t`; a table that is not there yet is empty. -/
def Job.entry (j : Job) (t i : Nat) : OptEntry := ((j.fwd.tables t).getD OptTable.empty).entries i

/-- Store an entry of a table. -/
def Job.setEntry (j : Job) (t i : Nat) (e : OptEntry) : Job :=
  let ft := (j.fwd.tables t).getD OptTable.empty
  { j with fwd := { j.fwd with tables := Function.update j.fwd.tables t (some (ft.set i e)) } }

instance : Buffers Buf Job where
  get j
    | .cryptoBuf => j.self.cryptoBuf
    | .cryptoAux => j.self.cryptoAux
    | .ethHdr t i => (j.entry t i).ethHdr
    | .first t i => (j.entry t i).first
    | .second t i => (j.entry t i).second
  set j b m :=
    match b with
    | .cryptoBuf => { j with self := { j.self with cryptoBuf := m } }
    | .cryptoAux => { j with self := { j.self with cryptoAux := m } }
    | .ethHdr t i => j.setEntry t i { j.entry t i with ethHdr := m }
    | .first t i => j.setEntry t i { j.entry t i with first := m }
    | .second t i => j.setEntry t i { j.entry t i with second := m }

namespace Code

open Prog

/-! ## shim, marker and wire header -/

/-- A step of the thread-local crypto state. -/
def thread {α : Type} (x : Attempt L2State α) : Prog Buf Job (Option α) :=
  step fun j => ((x j.l2).1, j.setL2 (x j.l2).2)

def l2UdpWriteShim (b : Buf) (off : Nat) (kind : L2UdpKind) (dg : UdpMeta) : Prog Buf Job Unit :=
  store b off (l2UdpShim kind dg)

def l2UdpReadShim (b : Buf) (len off : Nat) : Prog Buf Job (Option (L2UdpKind × UdpMeta)) := do
  let tag ← byte b len off
  if tag.toNat / 16 ≠ l2UdpShimVersion then return none
  let some kind := L2UdpKind.ofCode (tag.toNat % 16) | return none
  let epoch ← readBe32 b len (off + 1)
  let seq ← readBe32 b len (off + 5)
  let datagramId ← readBe32 b len (off + 9)
  return some (kind, ⟨epoch, seq, datagramId⟩)

def l2UdpMarkerMatch (b : Buf) (pktLen off : Nat) : Prog Buf Job Bool := do
  if ¬off + l2UdpMarkerSize ≤ pktLen then return false
  let bs ← bytes b pktLen off l2UdpMarkerSize
  return bs == l2UdpMarker

def l2UdpMarkerWrite (b : Buf) (off : Nat) : Prog Buf Job Unit := store b off l2UdpMarker

def l2CoreIdOff (b : Buf) (pktLen : Nat) : Prog Buf Job (Option Nat) := cryptoEthL2CoreIdOff b pktLen

def l2NonceOff (b : Buf) (pktLen : Nat) : Prog Buf Job (Option Nat) := do
  let some off ← l2CoreIdOff b pktLen | return none
  return some (off + l2CoreIdLen)

def l2EncStartOff (b : Buf) (pktLen : Nat) : Prog Buf Job (Option Nat) := do
  let some off ← l2NonceOff b pktLen | return none
  if pktLen < off + l2NonceSize then return none
  return some (off + l2NonceSize)

def l2FragMagicOff (b : Buf) (pktLen : Nat) : Prog Buf Job (Option Nat) := l2EncStartOff b pktLen

def l2WriteWireHeaderEt (b : Buf) (etOff fake : Nat) (nonce : Nonce) : Prog Buf Job Unit := do
  let worker ← step fun j => (j.l2.workerIdx, j)
  store b etOff (wireHeader fake worker nonce)

def l2RestorePlainPacket (b : Buf) (pktLen payload payloadLen : Nat) : Prog Buf Job (Option Nat) := do
  let some etOff ← cryptoEthL2PrefixLen b pktLen | return none
  move b pktLen etOff payload payloadLen
  return some (etOff + payloadLen)

def l2WirePrefixLen (b : Buf) (pktLen : Nat) : Prog Buf Job (Option Nat) := do
  let some etOff ← cryptoEthL2PrefixLen b pktLen | return none
  return some (etOff + 2)

/-! ## the cipher calls -/

/-- The packet ends with the `len` bytes at `off`; the tag makes it longer. -/
def trfEncryptPayloadGcm (env : Env) (key : Key) (nonce : Nonce) (b : Buf) (off len : Nat) :
    Prog Buf Job (Option Nat) := do
  if !env.initialized || len == 0 then return none
  let plain ← bytes b (off + len) off len
  let some (cipher, tag) := env.gcm.encrypt key nonce plain | return none
  store b off cipher
  store b (off + cipher.length) tag
  return some (cipher.length + aesGcmTagSize)

/-- The two steps around the cipher keep the history of encryptions; they are no
accesses of the program. -/
def cryptoPqcEncryptPayload (env : Env) (key : Key) (nonce : Nonce) (b : Buf) (off len : Nat) :
    Prog Buf Job (Option Nat) := do
  let before ← step fun j => (Buffers.get j b, j)
  let some newLen ← trfEncryptPayloadGcm env key nonce b off len | return none
  let after ← step fun j => (Buffers.get j b, j)
  let _ ← thread (Attempt.modify fun s => { s with sealed := s.sealed ++
    [⟨key, nonce, before.read off len, after.read off (newLen - aesGcmTagSize),
      after.read (off + (newLen - aesGcmTagSize)) aesGcmTagSize⟩] })
  return some newLen

/-- `len` is an `int` here, and a payload without room for a tag is refused. -/
def trfDecryptPayloadGcm (env : Env) (key : Key) (nonce : Nonce) (b : Buf) (pktLen off len : Nat) :
    Prog Buf Job (Option Nat) := do
  let cipherLen := len - aesGcmTagSize
  if !env.initialized || cipherLen == 0 then return none
  let tag ← bytes b pktLen (off + cipherLen) 16
  let cipher ← bytes b pktLen off cipherLen
  let some plain := env.gcm.decrypt key nonce cipher tag | return none
  store b off plain
  return some plain.length

def cryptoPqcDecryptPayloadResilient (env : Env) (ctx : PacketCryptoCtx) (nonce : Nonce) (b : Buf)
    (pktLen off len : Nat) : Prog Buf Job (Option Nat) :=
  if ctx.initialized then trfDecryptPayloadGcm env ctx.key nonce b pktLen off len else return none

/-! ## whole frames -/

def l2DoEncrypt (env : Env) (ctx : PacketCryptoCtx) (pktLen : Nat) : Prog Buf Job (Option Nat) := do
  let some etOff ← cryptoEthL2PrefixLen .cryptoBuf pktLen | return none
  if pktLen < etOff + 2 then return none
  let payloadLen ← minus pktLen etOff
  let encStart := etOff + 2 + l2CoreIdLen + l2NonceSize
  if pktLen < encStart then return none
  move .cryptoBuf pktLen encStart etOff payloadLen
  let some key := cryptoPqcSessLoad ctx | return none
  let some nonce ← thread (cryptoPqcGenerateNonce env) | return none
  l2WriteWireHeaderEt .cryptoBuf etOff neL2FakeEthertype nonce
  let some newLen ← cryptoPqcEncryptPayload env key nonce .cryptoBuf encStart payloadLen | return none
  return some (encStart + newLen)

def l2DoEncryptUdp (env : Env) (ctx : PacketCryptoCtx) (pktLen : Nat) : Prog Buf Job (Option Nat) := do
  let l3Off ← cryptoEthIpv4Offset .cryptoBuf pktLen
  let etOff ← cryptoEthL2PrefixLen .cryptoBuf pktLen
  let some l3Off := l3Off | return none
  let some etOff := etOff | return none
  let some dg ← thread (l2CryptoUdpTxMeta env) | return none
  let payloadLen ← minus pktLen l3Off
  let magicOff := etOff + 2 + l2CoreIdLen + l2NonceSize
  let encStart := magicOff + l2UdpMarkerSize
  let plainLen := l2UdpShimSize + payloadLen
  if encStart + plainLen + aesGcmTagSize > neJumboFrameMax then return none
  move .cryptoBuf pktLen (encStart + l2UdpShimSize) l3Off payloadLen
  l2UdpWriteShim .cryptoBuf encStart .full dg
  let some key := cryptoPqcSessLoad ctx | return none
  let some nonce ← thread (cryptoPqcGenerateNonce env) | return none
  l2WriteWireHeaderEt .cryptoBuf etOff neL2FakeEthertypeUdp nonce
  l2UdpMarkerWrite .cryptoBuf magicOff
  let some newLen ← cryptoPqcEncryptPayload env key nonce .cryptoBuf encStart plainLen | return none
  return some (encStart + newLen)

def l2DoDecrypt (env : Env) (ctx : PacketCryptoCtx) (pktLen : Nat) : Prog Buf Job (Option Nat) := do
  let some encStart ← l2EncStartOff .cryptoBuf pktLen | return none
  let some _ := cryptoPqcSessLoad ctx | return none
  let some nonceOff ← l2NonceOff .cryptoBuf pktLen | return none
  let nonce ← bytes .cryptoBuf pktLen nonceOff l2NonceSize
  let len ← minus pktLen encStart
  let some decLen ← cryptoPqcDecryptPayloadResilient env ctx ((Mem.ofList nonce).readNonce 0)
    .cryptoBuf pktLen encStart len | return none
  l2RestorePlainPacket .cryptoBuf pktLen encStart decLen

/-- The shim fields and the length of the restored packet. -/
def l2DoDecryptUdp (env : Env) (ctx : PacketCryptoCtx) (pktLen : Nat) :
    Prog Buf Job (Option (L2UdpKind × UdpMeta × Nat)) := do
  let some magicOff ← l2FragMagicOff .cryptoBuf pktLen | return none
  let marked ← l2UdpMarkerMatch .cryptoBuf pktLen magicOff
  if !marked then return none
  let encStart := magicOff + l2UdpMarkerSize
  if pktLen < encStart + l2UdpShimSize + aesGcmTagSize then return none
  let some _ := cryptoPqcSessLoad ctx | return none
  let some nonceOff ← l2NonceOff .cryptoBuf pktLen | return none
  let nonce ← bytes .cryptoBuf pktLen nonceOff l2NonceSize
  let len ← minus pktLen encStart
  let some decLen ← cryptoPqcDecryptPayloadResilient env ctx ((Mem.ofList nonce).readNonce 0)
    .cryptoBuf pktLen encStart len | return none
  if decLen < l2UdpShimSize then return none
  let some (kind, dg) ← l2UdpReadShim .cryptoBuf (encStart + decLen) encStart | return none
  let payloadLen ← minus decLen l2UdpShimSize
  let some etOff ← cryptoEthL2PrefixLen .cryptoBuf pktLen | return none
  let l3Off := etOff + 2
  move .cryptoBuf (encStart + decLen) l3Off (encStart + l2UdpShimSize) payloadLen
  if kind = .full then cryptoEthSetIpv4Et .cryptoBuf (l3Off - 2)
  return some (kind, dg, l3Off + payloadLen)

/-! ## the two fragments of an oversized datagram -/

/-- The addresses and the plaintext come from the packet in `crypto_buf`. -/
def l2EncryptFragmentSingle (env : Env) (ctx : PacketCryptoCtx) (pktLen plainOff encPlainLen : Nat)
    (dg : UdpMeta) (kind : L2UdpKind) (outMax etOff : Nat) : Prog Buf Job (Option Nat) := do
  let magicOff := etOff + 2 + l2CoreIdLen + l2NonceSize
  let encOff := magicOff + l2UdpMarkerSize
  let plainLen := l2UdpShimSize + encPlainLen
  if encOff + plainLen + aesGcmTagSize > outMax then return none
  let ethHdr ← bytes .cryptoBuf pktLen 0 etOff
  store .cryptoAux 0 ethHdr
  let some key := cryptoPqcSessLoad ctx | return none
  let some nonce ← thread (cryptoPqcGenerateNonce env) | return none
  let encPlain ← bytes .cryptoBuf pktLen plainOff encPlainLen
  store .cryptoAux (encOff + l2UdpShimSize) encPlain
  l2UdpWriteShim .cryptoAux encOff kind dg
  l2WriteWireHeaderEt .cryptoAux etOff neL2FakeEthertypeUdp nonce
  l2UdpMarkerWrite .cryptoAux magicOff
  let some newLen ← cryptoPqcEncryptPayload env key nonce .cryptoAux encOff plainLen | return none
  return some (encOff + newLen)

def l2EncryptFragment0Inplace (env : Env) (ctx : PacketCryptoCtx) (pktLen frag0PlainLen : Nat)
    (dg : UdpMeta) (outMax etOff l3Off : Nat) : Prog Buf Job (Option Nat) := do
  let magicOff := etOff + 2 + l2CoreIdLen + l2NonceSize
  let encOff := magicOff + l2UdpMarkerSize
  let plainLen := l2UdpShimSize + frag0PlainLen
  if encOff + plainLen + aesGcmTagSize > outMax then return none
  move .cryptoBuf pktLen (encOff + l2UdpShimSize) l3Off frag0PlainLen
  l2UdpWriteShim .cryptoBuf encOff .frag0 dg
  let some key := cryptoPqcSessLoad ctx | return none
  let some nonce ← thread (cryptoPqcGenerateNonce env) | return none
  l2WriteWireHeaderEt .cryptoBuf etOff neL2FakeEthertypeUdp nonce
  l2UdpMarkerWrite .cryptoBuf magicOff
  let some newLen ← cryptoPqcEncryptPayload env key nonce .cryptoBuf encOff plainLen | return none
  return some (encOff + newLen)

/-- `if (half1 >= app_len) half1 = app_len - 1`. -/
def splitHalf1 (half1 appLen : Nat) : Prog Buf Job Nat :=
  if half1 ≥ appLen then minus appLen 1 else return half1

/-- The lengths of both frames.  The second look at the EtherType passes
`ETH_L2_HDR_MAX` for the length, which is less than the packet has by then. -/
def l2Split (env : Env) (ctx : PacketCryptoCtx) (pktLen frag0Max frag1Max : Nat) :
    Prog Buf Job (Option (Nat × Nat)) := do
  let fragMtu := ethHeaderSize + l2CryptoMtu
  let some l3Off ← cryptoEthIpv4Offset .cryptoBuf pktLen | return none
  let verIhl ← byte .cryptoBuf pktLen l3Off
  let ipHdrLen := verIhl.toNat % 16 * 4
  if ¬(verIhl.toNat / 16 = 4 ∧ 20 ≤ ipHdrLen ∧ l3Off + ipHdrLen ≤ pktLen) then return none
  let proto ← byte .cryptoBuf pktLen (l3Off + 9)
  let ipPayloadLen ← minus pktLen l3Off
  let ipPayloadLen ← minus ipPayloadLen ipHdrLen
  if ¬(proto.toNat = ipprotoUdp ∨ proto.toNat = ipprotoIcmp) then return none
  if ipPayloadLen < 8 then return none
  let appLen ← minus ipPayloadLen 8
  if appLen = 0 then return none
  let fragOverhead := l3Off + optFragMetaLen
  if fragOverhead ≥ fragMtu then return none
  let maxPlain0 ← minus fragMtu fragOverhead
  let fixedPlain0 := ipHdrLen + 8
  if maxPlain0 ≤ fixedPlain0 then return none
  let half1 ← minus maxPlain0 fixedPlain0
  let half1 ← splitHalf1 half1 appLen
  let half2 ← minus appLen half1
  let some dg ← thread (l2CryptoUdpTxMeta env) | return none
  let some etOff1 ← cryptoEthL2PrefixLen .cryptoBuf ethL2HdrMax | return none
  let some frag1Len ← l2EncryptFragmentSingle env ctx pktLen (l3Off + ipHdrLen + 8 + half1) half2 dg
    .frag1 frag1Max etOff1 | return none
  let some etOff0 ← cryptoEthL2PrefixLen .cryptoBuf pktLen | return none
  let some frag0Len ← l2EncryptFragment0Inplace env ctx pktLen (ipHdrLen + 8 + half1) dg frag0Max
    etOff0 l3Off | return none
  return some (frag0Len, frag1Len)

/-! ## the entry points -/

def l2UdpEncrypt (env : Env) (ctx : PacketCryptoCtx) (pktLen : Nat) : Prog Buf Job (Option Nat) := do
  if ¬(ctx.initialized = true ∧ minEthPkt ≤ pktLen) then return none
  let ipv4 ← cryptoPktIsIpv4 .cryptoBuf pktLen
  if !ipv4 then return some pktLen
  let l3Off ← cryptoEthIpv4Offset .cryptoBuf pktLen
  let etOff ← cryptoEthL2PrefixLen .cryptoBuf pktLen
  let some _ := l3Off | return none
  let some _ := etOff | return none
  l2DoEncryptUdp env ctx pktLen

def l2TcpEncrypt (env : Env) (ctx : PacketCryptoCtx) (pktLen : Nat) : Prog Buf Job (Option Nat) := do
  if ¬(ctx.initialized = true ∧ minEthPkt ≤ pktLen) then return none
  let some _ ← cryptoEthL2PrefixLen .cryptoBuf pktLen | return none
  l2DoEncrypt env ctx pktLen

def l2TcpDecrypt (env : Env) (ctx : PacketCryptoCtx) (pktLen : Nat) : Prog Buf Job (Option Nat) := do
  if !ctx.initialized then return none
  let marked ← cryptoEthL2HasMarker .cryptoBuf pktLen
  if !marked then return some pktLen
  l2DoDecrypt env ctx pktLen

def l2CryptoEncrypt (env : Env) (proto : L2CryptoProto) (ctx : PacketCryptoCtx) (packetLen : Nat) :
    Prog Buf Job (Option Nat) :=
  if proto = .udp then l2UdpEncrypt env ctx packetLen else l2TcpEncrypt env ctx packetLen

end Code

/-! ## running on a worker -/

/-- The job with the crypto state `s` and the buffers `m` and `a`. -/
def Job.at (j : Job) (s : L2State) (m a : Mem) : Job :=
  { j with
    fwd := { j.fwd with epoch := s.udpEpoch }
    self := { j.self with l2 := s, cryptoBuf := m, cryptoAux := a } }

/-- The job as a function of the crypto state and of one of its buffers. -/
def Job.onBuf (j : Job) (a : Mem) (s : L2State) (m : Mem) : Job := j.at s m a

def Job.onAux (j : Job) (m : Mem) (s : L2State) (a : Mem) : Job := j.at s m a

/-- `put s m` is the job with the crypto state `s` and the content `m` of the
buffer `b`, one of the two large ones. -/
structure View (b : Buf) (put : L2State → Mem → Job) : Prop where
  cap : b.cap = neJumboFrameMax
  l2 : ∀ s m, (put s m).l2 = s
  setL2 : ∀ s m s', (put s m).setL2 s' = put s' m
  get : ∀ s m, Buffers.get (put s m) b = m
  set : ∀ s m m', Buffers.set (put s m) b m' = put s m'

theorem view_buf (j : Job) (a : Mem) : View .cryptoBuf (j.onBuf a) :=
  ⟨rfl, fun _ _ => rfl, fun _ _ _ => rfl, fun _ _ => rfl, fun _ _ _ => rfl⟩

theorem view_aux (j : Job) (m : Mem) : View .cryptoAux (j.onAux m) :=
  ⟨rfl, fun _ _ => rfl, fun _ _ _ => rfl, fun _ _ => rfl, fun _ _ _ => rfl⟩

namespace Code

open Prog

/-- All accesses are in range, and the program ends in `out`. -/
abbrev Safely {α : Type} (x : Prog Buf Job α) (j : Job) (out : α × Job) : Prop :=
  Does Access.InRange x j out

/-- Reading a packet that fits its buffer. -/
theorem reads_of_fits {b : Buf} {len : Nat} (h : len ≤ b.cap) : Reads Access.InRange b len len :=
  fun _ _ hn => ⟨hn, h⟩

theorem minus_safely {x y : Nat} (h : y ≤ x) (j : Job) : Safely (minus x y) j (x - y, j) :=
  Does.minus h j

/-- What is left in a buffer by a function that may have failed before it wrote. -/
def leaves (m : Mem) (r : Option (Mem × Nat)) : Mem := (r.map (·.1)).getD m

section view

variable {b : Buf} {put : L2State → Mem → Job} (hv : View b put) {s : L2State} {m : Mem} {α : Type}

include hv

theorem thread_safely (x : Attempt L2State α) :
    Safely (thread x) (put s m) ((x s).1, put (x s).2 m) := by
  have h : Safely (thread x) (put s m) ((x (put s m).l2).1, (put s m).setL2 (x (put s m).l2).2) :=
    Does.step _ _
  rw [hv.l2, hv.setL2] at h
  exact h

theorem store_safely {off : Nat} {bs : List UInt8} (h : off + bs.length ≤ neJumboFrameMax) :
    Safely (store b off bs) (put s m) ((), put s (m.write off bs)) := by
  have hstore : Safely (store b off bs) (put s m) _ :=
    Does.store (show off + bs.length ≤ b.cap by rw [hv.cap]; exact h) _
  rw [hv.get, hv.set] at hstore
  exact hstore

theorem bytes_safely {len off n : Nat} (h : off + n ≤ len) (hlen : len ≤ neJumboFrameMax) :
    Safely (bytes b len off n) (put s m) (m.read off n, put s m) := by
  have hread : Safely (bytes b len off n) (put s m) _ :=
    Does.bytes (show off + n ≤ len ∧ len ≤ b.cap from ⟨h, by rw [hv.cap]; exact hlen⟩) _
  rw [hv.get] at hread
  exact hread

theorem move_safely {len dst src n : Nat} (h : src + n ≤ len) (hlen : len ≤ neJumboFrameMax)
    (hdst : dst + n ≤ neJumboFrameMax) :
    Safely (move b len dst src n) (put s m) ((), put s (m.move dst src n)) :=
  (bytes_safely hv h hlen).bind (store_safely hv (by rw [Mem.length_read]; exact hdst))

theorem header_safely {fake : Nat} (nonce : Nonce) :
    Safely (l2WriteWireHeaderEt b 12 fake nonce) (put s m)
      ((), put s (m.write 12 (wireHeader fake s.workerIdx nonce))) := by
  refine (Does.step _ _).bind ?_
  rw [hv.l2]
  exact store_safely hv (by simp)

/-! ### the cipher calls -/

theorem trfEncryptPayloadGcm_safely {env : Env} {key : Key} {nonce : Nonce} {off len : Nat}
    (hfit : off + len + aesGcmTagSize ≤ neJumboFrameMax) :
    Safely (trfEncryptPayloadGcm env key nonce b off len) (put s m)
      ((NetworkEncryptor.trfEncryptPayloadGcm env key nonce m off len).map (·.2),
        put s (leaves m (NetworkEncryptor.trfEncryptPayloadGcm env key nonce m off len))) := by
  unfold trfEncryptPayloadGcm NetworkEncryptor.trfEncryptPayloadGcm
  simp only [aesGcmTagSize, neJumboFrameMax] at hfit
  by_cases hready : (!env.initialized || len == 0) = true
  · simp only [if_pos hready]
    exact Does.pure _ _
  · simp only [if_neg hready]
    refine (bytes_safely hv (Nat.le_refl _) (by simp; omega)).bind ?_
    cases hcipher : env.gcm.encrypt key nonce (m.read off len) with
    | none => exact Does.pure _ _
    | some r =>
        obtain ⟨cipher, tag⟩ := r
        obtain ⟨hc, ht⟩ := env.gcm.length_encrypt hcipher
        rw [Mem.length_read] at hc
        exact (store_safely hv (by simp; omega)).bind ((store_safely hv (by simp; omega)).bind
          (Does.pure _ _))

/-- The cipher call, and the record of it. -/
theorem encryptPayload_safely {env : Env} {key : Key} {nonce : Nonce} {off len : Nat}
    (hfit : off + len + aesGcmTagSize ≤ neJumboFrameMax) :
    Safely (cryptoPqcEncryptPayload env key nonce b off len) (put s m)
      ((NetworkEncryptor.cryptoPqcEncryptPayload env key nonce m off len s).1.map (·.2),
        put (NetworkEncryptor.cryptoPqcEncryptPayload env key nonce m off len s).2
          (leaves m (NetworkEncryptor.cryptoPqcEncryptPayload env key nonce m off len s).1)) := by
  unfold cryptoPqcEncryptPayload NetworkEncryptor.cryptoPqcEncryptPayload
  refine (Does.step _ _).bind ((trfEncryptPayloadGcm_safely hv hfit).bind ?_)
  rw [hv.get]
  cases NetworkEncryptor.trfEncryptPayloadGcm env key nonce m off len with
  | none => exact Does.pure _ _
  | some r =>
      refine (Does.step _ _).bind ?_
      rw [hv.get]
      exact (thread_safely hv _).bind (Does.pure _ _)

end view

/-! ### the encoders -/

/-- In the buffer of a view, the program does what an encoder of the model does: on
success the buffer holds the frame it returns. -/
def EncodesTo (put : L2State → Mem → Job) (x : Prog Buf Job (Option Nat)) (s : L2State) (m : Mem)
    (out : Option (Mem × Nat) × L2State) : Prop :=
  ∃ m', Safely x (put s m) (out.1.map (·.2), put out.2 m') ∧ ∀ r ∈ out.1, r.1 = m'

theorem l2WriteWireHeaderEt_apply (packet : Mem) (etOff fake : Nat) (nonce : Nonce) (s : L2State) :
    NetworkEncryptor.l2WriteWireHeaderEt packet etOff fake nonce s =
      (some (packet.write etOff (wireHeader fake s.workerIdx nonce)), s) := rfl

section encoders

variable {b : Buf} {put : L2State → Mem → Job} {env : Env} {ctx : PacketCryptoCtx} {s s' : L2State}
  {m m' : Mem} {n fake : Nat}

theorem EncodesTo.fail : EncodesTo put (pure none) s m (none, s) :=
  ⟨m, Does.pure _ _, by simp⟩

theorem EncodesTo.bind {α : Type} {x : Prog Buf Job α} {f : α → Prog Buf Job (Option Nat)} {r : α}
    {out : Option (Mem × Nat) × L2State} (hx : Safely x (put s m) (r, put s' m'))
    (hf : EncodesTo put (f r) s' m' out) : EncodesTo put (x >>= f) s m out := by
  obtain ⟨m'', hrun, heq⟩ := hf
  exact ⟨m'', hx.bind hrun, heq⟩

variable (hv : View b put)

include hv

/-- A step of the thread state that may fail, on both sides. -/
theorem EncodesTo.thread {α : Type} {x : Attempt L2State α} {f : Option α → Prog Buf Job (Option Nat)}
    {g : α → Attempt L2State (Mem × Nat)} (hnone : f none = pure none)
    (h : ∀ v t, EncodesTo put (f (some v)) t m (g v t)) :
    EncodesTo put (thread x >>= f) s m ((x >>= g) s) := by
  have hx := @thread_safely b put hv s m _ x
  rw [Attempt.bind_apply]
  generalize x s = out at hx ⊢
  obtain ⟨r, t⟩ := out
  cases r with
  | none => exact EncodesTo.bind hx (by rw [hnone]; exact EncodesTo.fail)
  | some v => exact EncodesTo.bind hx (h v t)

/-- Encrypt behind the header; the frame ends with the tag. -/
theorem encodes_payload {key : Key} {nonce : Nonce} {off : Nat}
    (hfit : off + n + aesGcmTagSize ≤ neJumboFrameMax) :
    EncodesTo put (do
        let some newLen ← cryptoPqcEncryptPayload env key nonce b off n | return none
        return some (off + newLen)) s m
      ((do
        let (packet, newLen) ← NetworkEncryptor.cryptoPqcEncryptPayload env key nonce m off n
        pure (packet, off + newLen) : Attempt L2State (Mem × Nat)) s) := by
  have hpayload := @encryptPayload_safely b put hv s m env key nonce off n hfit
  rw [Attempt.bind_apply]
  generalize NetworkEncryptor.cryptoPqcEncryptPayload env key nonce m off n s = out at hpayload ⊢
  obtain ⟨r, t⟩ := out
  cases r with
  | none => exact EncodesTo.bind hpayload EncodesTo.fail
  | some r => exact EncodesTo.bind hpayload ⟨r.1, Does.pure _ _, by simp⟩

/-- Load the key, draw a nonce, write the header and encrypt. -/
theorem encodes_data (hfit : 27 + n + aesGcmTagSize ≤ neJumboFrameMax) :
    EncodesTo put (do
        let some key := cryptoPqcSessLoad ctx | return none
        let some nonce ← thread (cryptoPqcGenerateNonce env) | return none
        l2WriteWireHeaderEt b 12 fake nonce
        let some newLen ← cryptoPqcEncryptPayload env key nonce b 27 n | return none
        return some (27 + newLen)) s m (sealTail env ctx m fake [] n s) := by
  unfold sealTail
  cases cryptoPqcSessLoad ctx with
  | none => exact EncodesTo.fail
  | some key =>
      rw [Attempt.ofOption_some_bind rfl]
      refine EncodesTo.thread hv rfl fun nonce t => EncodesTo.bind (header_safely hv nonce) ?_
      rw [Attempt.bind_of_some (l2WriteWireHeaderEt_apply ..), Mem.write_nil]
      exact encodes_payload hv hfit

/-- Write header and marker and encrypt. -/
theorem encodes_marked {key : Key} {nonce : Nonce} (hfit : 31 + n + aesGcmTagSize ≤ neJumboFrameMax) :
    EncodesTo put (do
        l2WriteWireHeaderEt b 12 fake nonce
        l2UdpMarkerWrite b 27
        let some newLen ← cryptoPqcEncryptPayload env key nonce b 31 n | return none
        return some (31 + newLen)) s m
      ((do
        let packet ← NetworkEncryptor.l2WriteWireHeaderEt m 12 fake nonce
        let (packet, newLen) ← NetworkEncryptor.cryptoPqcEncryptPayload env key nonce
          (packet.write 27 l2UdpMarker) 31 n
        pure (packet, 31 + newLen) : Attempt L2State (Mem × Nat)) s) := by
  refine EncodesTo.bind (header_safely hv nonce) (EncodesTo.bind (store_safely hv (by simp)) ?_)
  rw [Attempt.bind_of_some (l2WriteWireHeaderEt_apply ..)]
  exact encodes_payload hv hfit

end encoders

section frames

variable {env : Env} {ctx : PacketCryptoCtx} {j : Job} {s : L2State} {m a : Mem} {pktLen n : Nat}

theorem prefixLen_safely (hlen : pktLen ≤ neJumboFrameMax) :
    Safely (cryptoEthL2PrefixLen .cryptoBuf pktLen) (j.onBuf a s m)
      (NetworkEncryptor.cryptoEthL2PrefixLen m pktLen, j.onBuf a s m) :=
  cryptoEthInnerEtOff_does (fun h => (reads_of_fits hlen).front h) (j.at s m a)

theorem ipv4Offset_safely (hlen : pktLen ≤ neJumboFrameMax) :
    Safely (cryptoEthIpv4Offset .cryptoBuf pktLen) (j.onBuf a s m)
      (NetworkEncryptor.cryptoEthIpv4Offset m pktLen, j.onBuf a s m) :=
  cryptoEthIpv4Offset_does (fun h => (reads_of_fits hlen).front h) (j.at s m a)

theorem pktIsIpv4_safely (hlen : pktLen ≤ neJumboFrameMax) :
    Safely (cryptoPktIsIpv4 .cryptoBuf pktLen) (j.onBuf a s m)
      (NetworkEncryptor.cryptoPktIsIpv4 m pktLen, j.onBuf a s m) :=
  cryptoPktIsIpv4_does (fun h => (reads_of_fits hlen).front h) (j.at s m a)

theorem l2DoEncrypt_safely (hlen : pktLen ≤ 9014) :
    EncodesTo (j.onBuf a) (l2DoEncrypt env ctx pktLen) s m
      (NetworkEncryptor.l2DoEncrypt env ctx m pktLen s) := by
  have hcap : pktLen ≤ neJumboFrameMax := by simp; omega
  unfold l2DoEncrypt
  refine EncodesTo.bind (prefixLen_safely hcap) ?_
  cases het : NetworkEncryptor.cryptoEthL2PrefixLen m pktLen with
  | none =>
      rw [NetworkEncryptor.l2DoEncrypt, Attempt.ofOption_none_bind het]
      exact EncodesTo.fail
  | some etOff =>
      obtain ⟨rfl, h14, -⟩ := cryptoEthInnerEtOff_eq_some_iff.mp het
      dsimp only
      rw [if_neg (by omega)]
      refine EncodesTo.bind (minus_safely (by omega) _) ?_
      by_cases h27 : pktLen < 27
      · rw [if_pos (by simpa using h27), NetworkEncryptor.l2DoEncrypt,
          Attempt.ofOption_some_bind het, Attempt.check_bind (by omega),
          Attempt.check_bind_of_not (by simp; omega)]
        exact EncodesTo.fail
      · rw [if_neg (by simpa using h27), l2DoEncrypt_eq_sealTail het (by omega)]
        exact EncodesTo.bind (move_safely (view_buf j a) (by omega) hcap (by simp; omega))
          (encodes_data (view_buf j a) (by simp; omega))

/-- Load the key, draw a nonce, and write and encrypt behind the shim. -/
theorem encodes_udp (hfit : 31 + n + aesGcmTagSize ≤ neJumboFrameMax) :
    EncodesTo (j.onBuf a) (do
        let some key := cryptoPqcSessLoad ctx | return none
        let some nonce ← thread (cryptoPqcGenerateNonce env) | return none
        l2WriteWireHeaderEt .cryptoBuf 12 neL2FakeEthertypeUdp nonce
        l2UdpMarkerWrite .cryptoBuf 27
        let some newLen ← cryptoPqcEncryptPayload env key nonce .cryptoBuf 31 n | return none
        return some (31 + newLen)) s m (sealTail env ctx m neL2FakeEthertypeUdp l2UdpMarker n s) := by
  unfold sealTail
  cases cryptoPqcSessLoad ctx with
  | none => exact EncodesTo.fail
  | some key =>
      rw [Attempt.ofOption_some_bind rfl]
      exact EncodesTo.thread (view_buf j a) rfl fun nonce t => encodes_marked (view_buf j a) hfit

theorem l2DoEncryptUdp_safely (hlen : pktLen ≤ neJumboFrameMax) :
    EncodesTo (j.onBuf a) (l2DoEncryptUdp env ctx pktLen) s m
      (NetworkEncryptor.l2DoEncryptUdp env ctx m pktLen s) := by
  unfold l2DoEncryptUdp
  refine EncodesTo.bind (ipv4Offset_safely hlen) (EncodesTo.bind (prefixLen_safely hlen) ?_)
  cases hip : NetworkEncryptor.cryptoEthIpv4Offset m pktLen with
  | none =>
      rw [NetworkEncryptor.l2DoEncryptUdp, Attempt.ofOption_none_bind hip]
      exact EncodesTo.fail
  | some l3Off =>
      obtain ⟨rfl, h34, het⟩ := cryptoEthIpv4Offset_eq_some_iff.mp hip
      have hetOff : NetworkEncryptor.cryptoEthL2PrefixLen m pktLen = some 12 :=
        cryptoEthInnerEtOff_eq_some_iff.mpr ⟨rfl, by omega, .inl het⟩
      rw [hetOff, NetworkEncryptor.l2DoEncryptUdp, Attempt.ofOption_some_bind hip,
        Attempt.ofOption_some_bind hetOff]
      refine EncodesTo.thread (view_buf j a) rfl fun dg t => EncodesTo.bind (minus_safely (by omega) _) ?_
      by_cases hfit : pktLen + 46 ≤ 9216
      · rw [if_neg (by simp; omega), Attempt.check_bind (by simp; omega)]
        exact EncodesTo.bind (move_safely (view_buf j a) (by omega) hlen (by simp; omega))
          (EncodesTo.bind (store_safely (view_buf j a) (by simp)) (encodes_udp (by simp; omega)))
      · rw [if_pos (by simp; omega), Attempt.check_bind_of_not (by simp; omega)]
        exact EncodesTo.fail

/-- The first fragment, in place. -/
theorem l2EncryptFragment0Inplace_safely {outMax : Nat} {dg : UdpMeta}
    (hlen : pktLen ≤ neJumboFrameMax) (hn : 14 + n ≤ pktLen) (hmax : outMax ≤ neJumboFrameMax) :
    EncodesTo (j.onBuf a) (l2EncryptFragment0Inplace env ctx pktLen n dg outMax 12 14) s m
      (NetworkEncryptor.l2EncryptFragment0Inplace env ctx m n dg outMax 12 14 s) := by
  unfold l2EncryptFragment0Inplace NetworkEncryptor.l2EncryptFragment0Inplace
  simp only [neJumboFrameMax] at hmax
  by_cases hfit : 60 + n ≤ outMax
  · rw [if_neg (by simp; omega), Attempt.check_bind (by simp; omega)]
    exact EncodesTo.bind (move_safely (view_buf j a) hn hlen (by simp; omega))
      (EncodesTo.bind (store_safely (view_buf j a) (by simp)) (encodes_udp (by simp; omega)))
  · rw [if_pos (by simp; omega), Attempt.check_bind_of_not (by simp; omega)]
    exact EncodesTo.fail

/-- The second fragment, in `crypto_aux`. -/
theorem l2EncryptFragmentSingle_safely {plainOff outMax : Nat} {dg : UdpMeta} {kind : L2UdpKind}
    (hlen : pktLen ≤ neJumboFrameMax) (h12 : 12 ≤ pktLen) (hn : plainOff + n ≤ pktLen)
    (hmax : outMax ≤ neJumboFrameMax) :
    EncodesTo (j.onAux m) (l2EncryptFragmentSingle env ctx pktLen plainOff n dg kind outMax 12) s a
      (NetworkEncryptor.l2EncryptFragmentSingle env ctx m plainOff n dg kind a outMax 12 s) := by
  have hv := view_aux j m
  have hread : ∀ {off k : Nat} (t : L2State) (c : Mem), off + k ≤ pktLen →
      Safely (bytes .cryptoBuf pktLen off k) (j.onAux m t c) (m.read off k, j.onAux m t c) :=
    fun t c h => bytes_safely (view_buf j c) h hlen
  unfold l2EncryptFragmentSingle NetworkEncryptor.l2EncryptFragmentSingle
  simp only [neJumboFrameMax] at hmax
  by_cases hfit : 60 + n ≤ outMax
  · rw [if_neg (by simp; omega), Attempt.check_bind (by simp; omega)]
    refine EncodesTo.bind (hread s a (by omega)) (EncodesTo.bind (store_safely hv (by simp)) ?_)
    cases cryptoPqcSessLoad ctx with
    | none => exact EncodesTo.fail
    | some key =>
        rw [Attempt.ofOption_some_bind rfl]
        exact EncodesTo.thread hv rfl fun nonce t => EncodesTo.bind (hread t _ hn)
          (EncodesTo.bind (store_safely hv (by simp; omega)) (EncodesTo.bind (store_safely hv (by simp))
            (encodes_marked hv (by simp; omega))))
  · rw [if_pos (by simp; omega), Attempt.check_bind_of_not (by simp; omega)]
    exact EncodesTo.fail

/-- The program does what the splitting function of the model does: on success the
two buffers hold the two frames it returns. -/
def SplitsTo (x : Prog Buf Job (Option (Nat × Nat))) (j : Job) (s : L2State) (m a : Mem)
    (out : Option SplitFrames × L2State) : Prop :=
  ∃ m' a', Safely x (j.at s m a)
      (out.1.map fun r => (r.firstLen, r.secondLen), j.at out.2 m' a') ∧
    ∀ r ∈ out.1, r.first = m' ∧ r.second = a'

theorem SplitsTo.fail : SplitsTo (pure none) j s m a (none, s) := ⟨m, a, Does.pure _ _, by simp⟩

theorem SplitsTo.bind {α : Type} {x : Prog Buf Job α} {f : α → Prog Buf Job (Option (Nat × Nat))}
    {r : α} {s' : L2State} {m' a' : Mem} {out : Option SplitFrames × L2State}
    (hx : Safely x (j.at s m a) (r, j.at s' m' a')) (hf : SplitsTo (f r) j s' m' a' out) :
    SplitsTo (x >>= f) j s m a out := by
  obtain ⟨m'', a'', hrun, heq⟩ := hf
  exact ⟨m'', a'', hx.bind hrun, heq⟩

/-- A part that may fail, on both sides, and what comes after it. -/
theorem SplitsTo.seq {α β : Type} {x : Prog Buf Job (Option α)}
    {f : Option α → Prog Buf Job (Option (Nat × Nat))} {y : Attempt L2State β}
    {g : β → Attempt L2State SplitFrames} {val : β → α} {m' a' : Mem}
    (hx : Safely x (j.at s m a) ((y s).1.map val, j.at (y s).2 m' a')) (hnone : f none = pure none)
    (h : ∀ r ∈ (y s).1, SplitsTo (f (some (val r))) j (y s).2 m' a' (g r (y s).2)) :
    SplitsTo (x >>= f) j s m a ((y >>= g) s) := by
  rw [Attempt.bind_apply]
  generalize y s = out at hx h ⊢
  obtain ⟨r, t⟩ := out
  cases r with
  | none => exact SplitsTo.bind hx (by rw [Option.map_none, hnone]; exact SplitsTo.fail)
  | some r => exact SplitsTo.bind hx (h r rfl)

/-- An encoder in `crypto_aux`, and what comes after it. -/
theorem SplitsTo.aux {x : Prog Buf Job (Option Nat)} {f : Option Nat → Prog Buf Job (Option (Nat × Nat))}
    {y : Attempt L2State (Mem × Nat)} {g : Mem × Nat → Attempt L2State SplitFrames}
    (hx : EncodesTo (j.onAux m) x s a (y s)) (hnone : f none = pure none)
    (h : ∀ r t, SplitsTo (f (some r.2)) j t m r.1 (g r t)) :
    SplitsTo (x >>= f) j s m a ((y >>= g) s) := by
  obtain ⟨a', hrun, heq⟩ := hx
  refine SplitsTo.seq hrun hnone fun r hr => ?_
  rw [← heq r hr]
  exact h r _

/-- An encoder in `crypto_buf`, and what comes after it. -/
theorem SplitsTo.buf {x : Prog Buf Job (Option Nat)} {f : Option Nat → Prog Buf Job (Option (Nat × Nat))}
    {y : Attempt L2State (Mem × Nat)} {g : Mem × Nat → Attempt L2State SplitFrames}
    (hx : EncodesTo (j.onBuf a) x s m (y s)) (hnone : f none = pure none)
    (h : ∀ r t, SplitsTo (f (some r.2)) j t r.1 a (g r t)) :
    SplitsTo (x >>= f) j s m a ((y >>= g) s) := by
  obtain ⟨m', hrun, heq⟩ := hx
  refine SplitsTo.seq hrun hnone fun r hr => ?_
  rw [← heq r hr]
  exact h r _

/-- A step of the thread state, and what comes after it. -/
theorem SplitsTo.thread {α : Type} {x : Attempt L2State α}
    {f : Option α → Prog Buf Job (Option (Nat × Nat))} {g : α → Attempt L2State SplitFrames}
    (hnone : f none = pure none) (h : ∀ v t, SplitsTo (f (some v)) j t m a (g v t)) :
    SplitsTo (thread x >>= f) j s m a ((x >>= g) s) := by
  have hx := @thread_safely _ _ (view_buf j a) s m _ x
  have hid : (x s).1.map id = (x s).1 := by simp
  rw [← hid] at hx
  exact SplitsTo.seq hx hnone fun v _ => h v _

/-- From the point on where the lengths are known, both fragments are cut from the
packet. -/
theorem l2SplitTail_safely {frag0Max frag1Max ihl half1 half2 : Nat} (hlen : pktLen ≤ neJumboFrameMax)
    (h34 : 34 ≤ pktLen) (het : NetworkEncryptor.ethReadEt m 12 = ethPIp)
    (hcut : 14 + ihl + 8 + half1 + half2 = pktLen) (h0 : frag0Max ≤ neJumboFrameMax)
    (h1 : frag1Max ≤ neJumboFrameMax) :
    SplitsTo (do
        let some dg ← thread (l2CryptoUdpTxMeta env) | return none
        let some etOff1 ← cryptoEthL2PrefixLen .cryptoBuf ethL2HdrMax | return none
        let some frag1Len ← l2EncryptFragmentSingle env ctx pktLen (14 + ihl + 8 + half1) half2 dg
          .frag1 frag1Max etOff1 | return none
        let some etOff0 ← cryptoEthL2PrefixLen .cryptoBuf pktLen | return none
        let some frag0Len ← l2EncryptFragment0Inplace env ctx pktLen (ihl + 8 + half1) dg frag0Max
          etOff0 14 | return none
        return some (frag0Len, frag1Len)) j s m a
      ((do
        let dg ← l2CryptoUdpTxMeta env
        let etOff1 ← Attempt.ofOption (NetworkEncryptor.cryptoEthL2PrefixLen m ethL2HdrMax)
        let (frag1, frag1Len) ← NetworkEncryptor.l2EncryptFragmentSingle env ctx m
          (14 + ihl + 8 + half1) half2 dg .frag1 a frag1Max etOff1
        let etOff0 ← Attempt.ofOption (NetworkEncryptor.cryptoEthL2PrefixLen m pktLen)
        let (pktData, frag0Len) ← NetworkEncryptor.l2EncryptFragment0Inplace env ctx m
          (ihl + 8 + half1) dg frag0Max etOff0 14
        pure ⟨pktData, frag0Len, frag1, frag1Len⟩ : Attempt L2State SplitFrames) s) := by
  have hoff1 : NetworkEncryptor.cryptoEthL2PrefixLen m ethL2HdrMax = some 12 :=
    cryptoEthInnerEtOff_eq_some_iff.mpr ⟨rfl, by simp, .inl het⟩
  have hoff0 : NetworkEncryptor.cryptoEthL2PrefixLen m pktLen = some 12 :=
    cryptoEthInnerEtOff_eq_some_iff.mpr ⟨rfl, by omega, .inl het⟩
  refine SplitsTo.thread rfl fun dg t => ?_
  rw [Attempt.ofOption_some_bind hoff1]
  refine SplitsTo.bind (prefixLen_safely (by simp)) ?_
  rw [hoff1]
  refine SplitsTo.aux (l2EncryptFragmentSingle_safely hlen (by omega) (by omega) h1) rfl fun r t => ?_
  obtain ⟨frag1, frag1Len⟩ := r
  dsimp only
  rw [Attempt.ofOption_some_bind hoff0]
  refine SplitsTo.bind (prefixLen_safely hlen) ?_
  rw [hoff0]
  refine SplitsTo.buf (l2EncryptFragment0Inplace_safely hlen (by omega) h0) rfl fun q t => ?_
  exact ⟨q.1, frag1, Does.pure _ _, by simp⟩

theorem splitHalf1_safely {half1 appLen : Nat} (h : appLen ≠ 0) (j : Job) :
    Safely (splitHalf1 half1 appLen) j (if half1 ≥ appLen then appLen - 1 else half1, j) := by
  unfold splitHalf1
  split
  · exact minus_safely (by omega) j
  · exact Does.pure _ j

theorem l2Split_safely {frag0Max frag1Max : Nat} (hlen : pktLen ≤ neJumboFrameMax)
    (h0 : frag0Max ≤ neJumboFrameMax) (h1 : frag1Max ≤ neJumboFrameMax) :
    SplitsTo (l2Split env ctx pktLen frag0Max frag1Max) j s m a
      (NetworkEncryptor.l2Split env ctx m pktLen frag0Max a frag1Max s) := by
  have hbyte : ∀ off, off + 1 ≤ pktLen →
      Safely (byte .cryptoBuf pktLen off) (j.at s m a) (m off, j.at s m a) :=
    fun off h => Does.byte (reads_of_fits hlen off 1 h) (j.at s m a)
  unfold l2Split NetworkEncryptor.l2Split
  refine SplitsTo.bind (ipv4Offset_safely hlen) ?_
  cases hip : NetworkEncryptor.cryptoEthIpv4Offset m pktLen with
  | none => exact SplitsTo.fail
  | some l3Off =>
      obtain ⟨rfl, h34, het⟩ := cryptoEthIpv4Offset_eq_some_iff.mp hip
      rw [Attempt.ofOption_some_bind rfl]
      refine SplitsTo.bind (hbyte 14 (by omega)) ?_
      dsimp only
      generalize hihl : (m 14).toNat % 16 * 4 = ihl
      by_cases hver : ¬((m 14).toNat / 16 = 4 ∧ 20 ≤ ihl ∧ 14 + ihl ≤ pktLen)
      · rw [if_pos hver, Attempt.check_bind_of_not hver]; exact SplitsTo.fail
      rw [if_neg hver, Attempt.check_bind (not_not.mp hver)]
      refine SplitsTo.bind (hbyte (14 + 9) (by omega)) (SplitsTo.bind (minus_safely (by omega) _)
        (SplitsTo.bind (minus_safely (by omega) _) ?_))
      by_cases hproto : ¬((m (14 + 9)).toNat = ipprotoUdp ∨ (m (14 + 9)).toNat = ipprotoIcmp)
      · rw [if_pos hproto, Attempt.check_bind_of_not hproto]; exact SplitsTo.fail
      rw [if_neg hproto, Attempt.check_bind (not_not.mp hproto)]
      by_cases h8 : pktLen - 14 - ihl < 8
      · rw [if_pos h8, Attempt.check_bind_of_not (by omega)]; exact SplitsTo.fail
      rw [if_neg h8, Attempt.check_bind (by omega)]
      refine SplitsTo.bind (minus_safely (by omega) _) ?_
      by_cases happ : pktLen - 14 - ihl - 8 = 0
      · rw [if_pos happ, Attempt.check_bind_of_not (by omega)]; exact SplitsTo.fail
      rw [if_neg happ, Attempt.check_bind happ, if_neg (by simp), Attempt.check_bind (by simp)]
      refine SplitsTo.bind (minus_safely (by simp) _) ?_
      rw [if_neg (by simp; omega), Attempt.check_bind (by simp; omega)]
      refine SplitsTo.bind (minus_safely (by simp; omega) _) (SplitsTo.bind (splitHalf1_safely happ _)
        (SplitsTo.bind (minus_safely (by split <;> omega) _) ?_))
      exact l2SplitTail_safely hlen h34 het (by split <;> omega) h0 h1

theorem l2UdpEncrypt_safely (hlen : pktLen ≤ neJumboFrameMax) :
    EncodesTo (j.onBuf a) (l2UdpEncrypt env ctx pktLen) s m
      (NetworkEncryptor.l2UdpEncrypt env ctx m pktLen s) := by
  unfold l2UdpEncrypt NetworkEncryptor.l2UdpEncrypt
  by_cases hready : ¬(ctx.initialized = true ∧ minEthPkt ≤ pktLen)
  · rw [if_pos hready, Attempt.check_bind_of_not hready]; exact EncodesTo.fail
  rw [if_neg hready, Attempt.check_bind (not_not.mp hready)]
  refine EncodesTo.bind (pktIsIpv4_safely hlen) ?_
  by_cases hip : (!NetworkEncryptor.cryptoPktIsIpv4 m pktLen) = true
  · rw [if_pos hip, if_pos hip]; exact ⟨m, Does.pure _ _, by simp⟩
  rw [if_neg hip, if_neg hip]
  refine EncodesTo.bind (ipv4Offset_safely hlen) (EncodesTo.bind (prefixLen_safely hlen) ?_)
  cases NetworkEncryptor.cryptoEthIpv4Offset m pktLen with
  | none => exact EncodesTo.fail
  | some l3Off =>
      cases NetworkEncryptor.cryptoEthL2PrefixLen m pktLen with
      | none => exact EncodesTo.fail
      | some etOff => exact l2DoEncryptUdp_safely hlen

theorem l2TcpEncrypt_safely (hlen : pktLen ≤ 9014) :
    EncodesTo (j.onBuf a) (l2TcpEncrypt env ctx pktLen) s m
      (NetworkEncryptor.l2TcpEncrypt env ctx m pktLen s) := by
  unfold l2TcpEncrypt NetworkEncryptor.l2TcpEncrypt
  by_cases hready : ¬(ctx.initialized = true ∧ minEthPkt ≤ pktLen)
  · rw [if_pos hready, Attempt.check_bind_of_not hready]; exact EncodesTo.fail
  rw [if_neg hready, Attempt.check_bind (not_not.mp hready)]
  refine EncodesTo.bind (prefixLen_safely (by simp; omega)) ?_
  cases NetworkEncryptor.cryptoEthL2PrefixLen m pktLen with
  | none => exact EncodesTo.fail
  | some etOff => exact l2DoEncrypt_safely hlen

theorem l2CryptoEncrypt_safely {proto : L2CryptoProto} (hlen : pktLen ≤ 9014) :
    EncodesTo (j.onBuf a) (l2CryptoEncrypt env proto ctx pktLen) s m
      (NetworkEncryptor.l2CryptoEncrypt env proto ctx m pktLen s) := by
  unfold l2CryptoEncrypt NetworkEncryptor.l2CryptoEncrypt
  split
  · exact l2UdpEncrypt_safely (by simp; omega)
  · exact l2TcpEncrypt_safely hlen

end frames

/-! ### the decoders -/

section decoders

variable {env : Env} {ctx : PacketCryptoCtx} {j : Job} {s : L2State} {m a : Mem} {pktLen : Nat}

theorem hasMarker_safely (hlen : pktLen ≤ neJumboFrameMax) :
    Safely (cryptoEthL2HasMarker .cryptoBuf pktLen) (j.onBuf a s m)
      (NetworkEncryptor.cryptoEthL2HasMarker m pktLen, j.onBuf a s m) :=
  cryptoEthL2HasMarker_does (fun h => (reads_of_fits hlen).front h) (j.at s m a)

theorem l2NonceOff_safely (hlen : pktLen ≤ neJumboFrameMax) :
    Safely (l2NonceOff .cryptoBuf pktLen) (j.onBuf a s m)
      (NetworkEncryptor.l2NonceOff m pktLen, j.onBuf a s m) := by
  unfold l2NonceOff NetworkEncryptor.l2NonceOff
  refine Does.bind (cryptoEthL2CoreIdOff_does (fun h => (reads_of_fits hlen).front h) (j.at s m a)) ?_
  have hget : Buffers.get (j.at s m a) Buf.cryptoBuf = m := rfl
  rw [hget]
  unfold NetworkEncryptor.l2CoreIdOff
  cases NetworkEncryptor.cryptoEthL2CoreIdOff m pktLen <;> exact Does.pure _ _

theorem l2EncStartOff_safely (hlen : pktLen ≤ neJumboFrameMax) :
    Safely (l2EncStartOff .cryptoBuf pktLen) (j.onBuf a s m)
      (NetworkEncryptor.l2EncStartOff m pktLen, j.onBuf a s m) := by
  unfold l2EncStartOff NetworkEncryptor.l2EncStartOff
  refine Does.bind (l2NonceOff_safely hlen) ?_
  cases NetworkEncryptor.l2NonceOff m pktLen with
  | none => exact Does.pure _ _
  | some off => dsimp only; split <;> exact Does.pure _ _

/-- A payload of the packet is decrypted in place. -/
theorem decryptPayload_safely {nonce : Nonce} {off len : Nat} (hlen : pktLen ≤ neJumboFrameMax)
    (hoff : off + len ≤ pktLen) :
    EncodesTo (j.onBuf a) (cryptoPqcDecryptPayloadResilient env ctx nonce .cryptoBuf pktLen off len) s m
      (NetworkEncryptor.cryptoPqcDecryptPayloadResilient env ctx nonce m off len, s) := by
  unfold cryptoPqcDecryptPayloadResilient NetworkEncryptor.cryptoPqcDecryptPayloadResilient
  by_cases hctx : ctx.initialized = true
  · rw [if_pos hctx, if_pos hctx]
    unfold trfDecryptPayloadGcm NetworkEncryptor.trfDecryptPayloadGcm
    by_cases hready : (!env.initialized || len - aesGcmTagSize == 0) = true
    · simp only [if_pos hready]; exact EncodesTo.fail
    · simp only [if_neg hready]
      have h16 : 16 < len := by simp at hready; omega
      refine EncodesTo.bind (bytes_safely (view_buf j a) (by simp; omega) hlen)
        (EncodesTo.bind (bytes_safely (view_buf j a) (by omega) hlen) ?_)
      cases hplain : env.gcm.decrypt ctx.key nonce (m.read off (len - aesGcmTagSize))
          (m.read (off + (len - aesGcmTagSize)) 16) with
      | none => exact EncodesTo.fail
      | some plain =>
          have hl := env.gcm.length_decrypt hplain
          rw [Mem.length_read] at hl
          exact EncodesTo.bind (store_safely (view_buf j a) (by simp at hlen ⊢; omega))
            ⟨_, Does.pure _ _, by simp⟩
  · rw [if_neg hctx, if_neg hctx]; exact EncodesTo.fail

/-- The nonce field of the packet, copied out of it. -/
theorem readNonce_ofList (m : Mem) (off : Nat) :
    (Mem.ofList (m.read off 12)).readNonce 0 = m.readNonce off :=
  Subtype.ext (Mem.read_ofList _ (by simp))

/-- A decryption that succeeded: what it wrote lies within the packet. -/
theorem decryptPayload_fits {off decLen : Nat} {p : Mem} (hoff : 14 ≤ off) (hlen : off ≤ pktLen)
    (h : NetworkEncryptor.cryptoPqcDecryptPayloadResilient env ctx (m.readNonce 15) m off
      (pktLen - off) = some (p, decLen)) :
    off + decLen ≤ pktLen ∧ NetworkEncryptor.ethReadEt p 12 = NetworkEncryptor.ethReadEt m 12 := by
  obtain ⟨plain, ⟨-, -, h16, hdec⟩, rfl, rfl⟩ :=
    (cryptoPqcDecryptPayloadResilient_eq_some_iff hlen).mp h
  have hl := env.gcm.length_decrypt hdec
  rw [Mem.length_read] at hl
  exact ⟨by omega, ethReadEt_congr (Mem.write_of_not_mem _ (by omega))
    (Mem.write_of_not_mem _ (by omega))⟩

theorem l2DoDecrypt_safely (hlen : pktLen ≤ neJumboFrameMax) :
    EncodesTo (j.onBuf a) (l2DoDecrypt env ctx pktLen) s m
      (NetworkEncryptor.l2DoDecrypt env ctx m pktLen, s) := by
  have hv := view_buf j a
  unfold l2DoDecrypt NetworkEncryptor.l2DoDecrypt
  refine EncodesTo.bind (l2EncStartOff_safely hlen) ?_
  cases hs : NetworkEncryptor.l2EncStartOff m pktLen with
  | none => exact EncodesTo.fail
  | some encStart =>
      obtain ⟨rfl, h27, het⟩ := l2EncStartOff_eq_some_iff.mp hs
      have hn := l2NonceOff_of_knownEt het h27
      rw [hn]
      cases cryptoPqcSessLoad ctx with
      | none => exact EncodesTo.fail
      | some key =>
          refine EncodesTo.bind (l2NonceOff_safely hlen) ?_
          rw [hn]
          refine EncodesTo.bind (bytes_safely hv (by simp; omega) hlen)
            (EncodesTo.bind (minus_safely h27 _) ?_)
          dsimp only
          rw [show l2NonceSize = 12 from rfl, readNonce_ofList]
          obtain ⟨m', hrun, heq⟩ := @decryptPayload_safely env ctx j s m a pktLen (m.readNonce 15) 27
            (pktLen - 27) hlen (by omega)
          cases hd : NetworkEncryptor.cryptoPqcDecryptPayloadResilient env ctx (m.readNonce 15) m 27
              (pktLen - 27) with
          | none =>
              rw [hd] at hrun
              exact EncodesTo.bind hrun EncodesTo.fail
          | some r =>
              obtain ⟨p, decLen⟩ := r
              rw [hd] at hrun
              obtain rfl := heq _ hd
              obtain ⟨hfit, hety⟩ := decryptPayload_fits (by omega) h27 hd
              have hoff : NetworkEncryptor.cryptoEthL2PrefixLen p pktLen = some 12 :=
                cryptoEthInnerEtOff_eq_some_iff.mpr ⟨rfl, by omega, by rw [hety]; exact het⟩
              refine EncodesTo.bind hrun ?_
              dsimp only [Option.map_some]
              unfold l2RestorePlainPacket NetworkEncryptor.l2RestorePlainPacket
              refine EncodesTo.bind (prefixLen_safely hlen) ?_
              rw [hoff]
              exact EncodesTo.bind (move_safely hv hfit hlen (by simp at hlen ⊢; omega))
                ⟨_, Does.pure _ _, by simp⟩

theorem l2TcpDecrypt_safely (hlen : pktLen ≤ neJumboFrameMax) :
    EncodesTo (j.onBuf a) (l2TcpDecrypt env ctx pktLen) s m
      (NetworkEncryptor.l2TcpDecrypt env ctx m pktLen, s) := by
  unfold l2TcpDecrypt NetworkEncryptor.l2TcpDecrypt
  by_cases hctx : (!ctx.initialized) = true
  · simp only [if_pos hctx]; exact EncodesTo.fail
  · simp only [if_neg hctx]
    refine EncodesTo.bind (hasMarker_safely hlen) ?_
    by_cases hm : (!NetworkEncryptor.cryptoEthL2HasMarker m pktLen) = true
    · simp only [if_pos hm]; exact ⟨m, Does.pure _ _, by simp⟩
    · simp only [if_neg hm]; exact l2DoDecrypt_safely hlen

theorem l2UdpReadShim_safely {len off : Nat} (h : off + 13 ≤ len) (hlen : len ≤ neJumboFrameMax) :
    Safely (l2UdpReadShim .cryptoBuf len off) (j.onBuf a s m)
      (NetworkEncryptor.l2UdpReadShim m off, j.onBuf a s m) := by
  have hr : Reads Access.InRange Buf.cryptoBuf len len := reads_of_fits hlen
  have hword : ∀ o, o + 4 ≤ len → Safely (readBe32 .cryptoBuf len o) (j.onBuf a s m)
      (NetworkEncryptor.readBe32 m o, j.onBuf a s m) := fun o ho => readBe32_does hr ho (j.at s m a)
  unfold l2UdpReadShim NetworkEncryptor.l2UdpReadShim
  refine Does.bind (Does.byte (hr off 1 (by omega)) (j.at s m a)) ?_
  have hget : Buffers.get (j.at s m a) Buf.cryptoBuf = m := rfl
  rw [hget]
  by_cases hversion : (m off).toNat / 16 ≠ l2UdpShimVersion
  · simp only [if_pos hversion]; exact Does.pure _ _
  · simp only [if_neg hversion]
    cases L2UdpKind.ofCode ((m off).toNat % 16) with
    | none => exact Does.pure _ _
    | some kind =>
        exact Does.bind (hword _ (by omega)) (Does.bind (hword _ (by omega))
          (Does.bind (hword _ (by omega)) (Does.pure _ _)))

theorem l2UdpMarkerMatch_safely {off : Nat} (hlen : pktLen ≤ neJumboFrameMax) :
    Safely (l2UdpMarkerMatch .cryptoBuf pktLen off) (j.onBuf a s m)
      (NetworkEncryptor.l2UdpMarkerMatch m pktLen off, j.onBuf a s m) := by
  unfold l2UdpMarkerMatch NetworkEncryptor.l2UdpMarkerMatch
  by_cases hoff : off + l2UdpMarkerSize ≤ pktLen
  · simp only [hoff, not_true_eq_false, if_false, decide_true, Bool.true_and]
    exact Does.bind (bytes_safely (view_buf j a) hoff hlen) (Does.pure _ _)
  · simp only [hoff, not_false_eq_true, if_true, decide_false, Bool.false_and]
    exact Does.pure _ _

/-- The program does what the UDP decoder of the model does: on success `crypto_buf`
holds the restored packet. -/
def RestoresTo (x : Prog Buf Job (Option (L2UdpKind × UdpMeta × Nat))) (j : Job) (s : L2State)
    (m a : Mem) (out : Option UdpPlain) : Prop :=
  ∃ m', Safely x (j.onBuf a s m) (out.map fun r => (r.kind, r.dg, r.len), j.onBuf a s m') ∧
    ∀ r ∈ out, r.packet = m'

theorem RestoresTo.fail : RestoresTo (pure none) j s m a none := ⟨m, Does.pure _ _, by simp⟩

theorem RestoresTo.bind {α : Type} {x : Prog Buf Job α}
    {f : α → Prog Buf Job (Option (L2UdpKind × UdpMeta × Nat))} {r : α} {m' : Mem}
    {out : Option UdpPlain} (hx : Safely x (j.onBuf a s m) (r, j.onBuf a s m'))
    (hf : RestoresTo (f r) j s m' a out) : RestoresTo (x >>= f) j s m a out := by
  obtain ⟨m'', hrun, heq⟩ := hf
  exact ⟨m'', hx.bind hrun, heq⟩

/-- The part behind the cipher call: the shim is read, and the payload moved behind
the Ethernet header. -/
theorem restoreUdp_safely {p : Mem} {decLen : Nat} (hlen : pktLen ≤ neJumboFrameMax)
    (hfit : 31 + decLen ≤ pktLen) (hoff : NetworkEncryptor.cryptoEthL2PrefixLen p pktLen = some 12) :
    RestoresTo (do
        if decLen < l2UdpShimSize then return none
        let some (kind, dg) ← l2UdpReadShim .cryptoBuf (31 + decLen) 31 | return none
        let payloadLen ← minus decLen l2UdpShimSize
        let some etOff ← cryptoEthL2PrefixLen .cryptoBuf pktLen | return none
        let l3Off := etOff + 2
        move .cryptoBuf (31 + decLen) l3Off (31 + l2UdpShimSize) payloadLen
        if kind = .full then cryptoEthSetIpv4Et .cryptoBuf (l3Off - 2)
        return some (kind, dg, l3Off + payloadLen)) j s p a
      (if decLen < l2UdpShimSize then none
        else
          match NetworkEncryptor.l2UdpReadShim p 31, NetworkEncryptor.cryptoEthL2PrefixLen p pktLen with
          | some (kind, dg), some etOff =>
              let payloadLen := decLen - l2UdpShimSize
              let l3Off := etOff + 2
              let packet := p.move l3Off (31 + l2UdpShimSize) payloadLen
              let packet := if kind = .full then NetworkEncryptor.cryptoEthSetIpv4Et packet (l3Off - 2)
                else packet
              some ⟨kind, dg, packet, l3Off + payloadLen⟩
          | _, _ => none) := by
  have hv := view_buf j a
  simp only [neJumboFrameMax] at hlen
  by_cases h13 : decLen < l2UdpShimSize
  · rw [if_pos h13, if_pos h13]; exact RestoresTo.fail
  · rw [if_neg h13, if_neg h13]
    simp only [l2UdpShimSize] at h13
    refine RestoresTo.bind (l2UdpReadShim_safely (by omega) (by simp; omega)) ?_
    rw [hoff]
    cases NetworkEncryptor.l2UdpReadShim p 31 with
    | none => exact RestoresTo.fail
    | some kd =>
        obtain ⟨kind, dg⟩ := kd
        refine RestoresTo.bind (minus_safely (by simp; omega) _)
          (RestoresTo.bind (prefixLen_safely (by simp; omega)) ?_)
        rw [hoff]
        refine RestoresTo.bind (move_safely hv (by simp; omega) (by simp; omega) (by simp; omega)) ?_
        dsimp only
        split
        · exact RestoresTo.bind (store_safely hv (by simp))
            ⟨_, Does.pure _ _, by simp [NetworkEncryptor.cryptoEthSetIpv4Et]⟩
        · exact ⟨_, Does.pure _ _, by simp⟩

theorem l2DoDecryptUdp_safely (hlen : pktLen ≤ neJumboFrameMax) :
    RestoresTo (l2DoDecryptUdp env ctx pktLen) j s m a
      (NetworkEncryptor.l2DoDecryptUdp env ctx m pktLen) := by
  have hv := view_buf j a
  unfold l2DoDecryptUdp NetworkEncryptor.l2DoDecryptUdp
  refine RestoresTo.bind (l2EncStartOff_safely hlen) ?_
  unfold NetworkEncryptor.l2FragMagicOff
  cases hs : NetworkEncryptor.l2EncStartOff m pktLen with
  | none => exact RestoresTo.fail
  | some encStart =>
      obtain ⟨rfl, h27, het⟩ := l2EncStartOff_eq_some_iff.mp hs
      have hn := l2NonceOff_of_knownEt het h27
      rw [hn]
      refine RestoresTo.bind (l2UdpMarkerMatch_safely hlen) ?_
      dsimp only
      by_cases hmark : (!NetworkEncryptor.l2UdpMarkerMatch m pktLen 27) = true
      · rw [if_pos hmark, if_pos hmark]; exact RestoresTo.fail
      rw [if_neg hmark, if_neg hmark]
      by_cases h60 : pktLen < 27 + l2UdpMarkerSize + l2UdpShimSize + aesGcmTagSize
      · rw [if_pos h60, if_pos h60]; exact RestoresTo.fail
      rw [if_neg h60, if_neg h60]
      simp only [l2UdpMarkerSize, l2UdpShimSize, aesGcmTagSize] at h60
      cases cryptoPqcSessLoad ctx with
      | none => exact RestoresTo.fail
      | some key =>
          refine RestoresTo.bind (l2NonceOff_safely hlen) ?_
          rw [hn]
          refine RestoresTo.bind (bytes_safely hv (by simp; omega) hlen)
            (RestoresTo.bind (minus_safely (by simp; omega) _) ?_)
          dsimp only
          rw [show l2NonceSize = 12 from rfl, readNonce_ofList]
          obtain ⟨m', hrun, heq⟩ := @decryptPayload_safely env ctx j s m a pktLen (m.readNonce 15)
            (27 + l2UdpMarkerSize) (pktLen - (27 + l2UdpMarkerSize)) hlen (by simp; omega)
          cases hd : NetworkEncryptor.cryptoPqcDecryptPayloadResilient env ctx (m.readNonce 15) m
              (27 + l2UdpMarkerSize) (pktLen - (27 + l2UdpMarkerSize)) with
          | none =>
              rw [hd] at hrun
              exact RestoresTo.bind hrun RestoresTo.fail
          | some r =>
              obtain ⟨p, decLen⟩ := r
              rw [hd] at hrun
              obtain rfl := heq _ hd
              obtain ⟨hfit, hety⟩ := decryptPayload_fits (by omega) (by simp; omega) hd
              have hoff : NetworkEncryptor.cryptoEthL2PrefixLen p pktLen = some 12 :=
                cryptoEthInnerEtOff_eq_some_iff.mpr ⟨rfl, by omega, by rw [hety]; exact het⟩
              exact RestoresTo.bind hrun (restoreUdp_safely hlen hfit hoff)

end decoders

end Code

end NetworkEncryptor
