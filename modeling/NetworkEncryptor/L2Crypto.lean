import NetworkEncryptor.EthParse
import NetworkEncryptor.TrafficCrypto

/-!
# NetworkEncryptor.L2Crypto

`src/crypto/pqc/pqc_l2_option.c`, the stateless half: the three wire formats,
built and undone in place.

```
DATA   MACs | 104A | worker | nonce | GCM(EtherType, L3) | tag
FULL   MACs | 104B | worker | nonce | marker | GCM(shim, L3) | tag
FRAGn  MACs | 104B | worker | nonce | marker | GCM(shim, part of L3) | tag
```

The functions follow the source move by move: shift the payload, write the
header over the gap, encrypt behind it.  A failed function leaves a buffer the
caller drops, so only the thread state survives a failure (`Attempt`).
-/

namespace NetworkEncryptor

open Attempt

/-! ## thread state -/

/-- `enum l2_crypto_proto`. -/
inductive L2CryptoProto
  | data
  | udp
  | icmp
  deriving DecidableEq, Repr

def l2CryptoClassify (ipProto : Nat) : L2CryptoProto :=
  if ipProto = ipprotoUdp then .udp else if ipProto = ipprotoIcmp then .icmp else .data

/-- One encryption done: what was encrypted, and what came out of it. -/
structure Sealed where
  key : Key
  nonce : Nonce
  plain : List UInt8
  cipher : List UInt8
  tag : List UInt8
  deriving DecidableEq

/-- The crypto state one worker thread sees: its thread-local variables and
the process-wide epoch.  `sealed` is history, oldest first. -/
structure L2State where
  workerIdx : UInt8
  udpEpoch : UInt32
  udpTxSeq : UInt32
  udpTxDatagramId : UInt32
  udpTxDatagramClock : UInt32
  udpTxValid : Bool
  nonce : NonceState
  sealed : List Sealed

/-- A thread that has not sent anything yet. -/
def L2State.init : L2State := ⟨0, 0, 0, 0, 0, false, NonceState.init, []⟩

def l2CryptoBindWorker (workerIdx : UInt8) (s : L2State) : L2State :=
  { s with workerIdx := workerIdx }

/-- The epoch: drawn once per process, never zero. -/
def l2CryptoEpoch (env : Env) : Attempt L2State UInt32 := fun s =>
  if s.udpEpoch ≠ 0 then (some s.udpEpoch, s)
  else
    let epoch := match env.getrandom with
      | some r => if r = 0 then env.clockMix else r
      | none => env.clockMix
    let epoch := if epoch = 0 then 1 else epoch
    (some epoch, { s with udpEpoch := epoch })

def l2CryptoUdpSetTxSeq (seq : UInt32) (s : L2State) : L2State :=
  { s with udpTxSeq := seq,
           udpTxDatagramId := s.udpTxDatagramClock,
           udpTxDatagramClock := s.udpTxDatagramClock + 1,
           udpTxValid := true }

/-- What identifies a datagram on the wire. -/
structure UdpMeta where
  epoch : UInt32
  seq : UInt32
  datagramId : UInt32
  deriving DecidableEq

def l2CryptoUdpTxMeta (env : Env) : Attempt L2State UdpMeta := do
  let valid ← read (·.udpTxValid)
  check (valid = true)
  let epoch ← l2CryptoEpoch env
  read fun s => ⟨epoch, s.udpTxSeq, s.udpTxDatagramId⟩

def cryptoPqcGenerateNonce (env : Env) : Attempt L2State Nonce := fun s =>
  let r := trfPqcGenerateNonce env s.nonce
  (r.1, { s with nonce := r.2 })

/-- Encrypt in place; the encryption is recorded. -/
def cryptoPqcEncryptPayload (env : Env) (key : Key) (nonce : Nonce) (data : Mem) (off len : Nat) :
    Attempt L2State (Mem × Nat) := do
  let (data', newLen) ← ofOption (trfEncryptPayloadGcm env key nonce data off len)
  modify fun s => { s with sealed := s.sealed ++
    [⟨key, nonce, data.read off len, data'.read off (newLen - aesGcmTagSize),
      data'.read (off + (newLen - aesGcmTagSize)) aesGcmTagSize⟩] }
  pure (data', newLen)

/-! ## shim, marker and wire header -/

/-- `enum l2_udp_kind`. -/
inductive L2UdpKind
  | frag0
  | frag1
  | full
  deriving DecidableEq, Repr

def L2UdpKind.code : L2UdpKind → Nat
  | .frag0 => 0
  | .frag1 => 1
  | .full => 2

def L2UdpKind.ofCode : Nat → Option L2UdpKind
  | 0 => some .frag0
  | 1 => some .frag1
  | 2 => some .full
  | _ => none

/-- A big-endian 32-bit field. -/
def be32 (n : UInt32) : List UInt8 :=
  [UInt8.ofNat (n.toNat / 16777216), UInt8.ofNat (n.toNat / 65536), UInt8.ofNat (n.toNat / 256),
    UInt8.ofNat n.toNat]

def readBe32 (m : Mem) (off : Nat) : UInt32 :=
  UInt32.ofNat ((m off).toNat * 16777216 + (m (off + 1)).toNat * 65536 +
    (m (off + 2)).toNat * 256 + (m (off + 3)).toNat)

/-- The thirteen shim bytes. -/
def l2UdpShim (kind : L2UdpKind) (dg : UdpMeta) : List UInt8 :=
  UInt8.ofNat (l2UdpShimVersion * 16 + kind.code) ::
    (be32 dg.epoch ++ be32 dg.seq ++ be32 dg.datagramId)

def l2UdpWriteShim (buf : Mem) (off : Nat) (kind : L2UdpKind) (dg : UdpMeta) : Mem :=
  buf.write off (l2UdpShim kind dg)

def l2UdpReadShim (buf : Mem) (off : Nat) : Option (L2UdpKind × UdpMeta) :=
  let dg : UdpMeta := ⟨readBe32 buf (off + 1), readBe32 buf (off + 5), readBe32 buf (off + 9)⟩
  if (buf off).toNat / 16 ≠ l2UdpShimVersion then none
  else (L2UdpKind.ofCode ((buf off).toNat % 16)).map fun kind => (kind, dg)

/-- magic, `'U'`, `'D'`, wire version -/
def l2UdpMarker : List UInt8 := [0x5B, 0x55, 0x44, 0x01]

def l2UdpMarkerMatch (packet : Mem) (pktLen off : Nat) : Bool :=
  decide (off + l2UdpMarkerSize ≤ pktLen) && packet.read off l2UdpMarkerSize == l2UdpMarker

def l2UdpMarkerWrite (packet : Mem) (off : Nat) : Mem := packet.write off l2UdpMarker

def l2CoreIdOff (packet : Mem) (pktLen : Nat) : Option Nat := cryptoEthL2CoreIdOff packet pktLen

def l2NonceOff (packet : Mem) (pktLen : Nat) : Option Nat :=
  (l2CoreIdOff packet pktLen).map (· + l2CoreIdLen)

def l2EncStartOff (packet : Mem) (pktLen : Nat) : Option Nat :=
  match l2NonceOff packet pktLen with
  | none => none
  | some off => if pktLen < off + l2NonceSize then none else some (off + l2NonceSize)

def l2FragMagicOff (packet : Mem) (pktLen : Nat) : Option Nat := l2EncStartOff packet pktLen

/-- EtherType, worker id and nonce of a wire frame. -/
def wireHeader (fake : Nat) (workerIdx : UInt8) (nonce : Nonce) : List UInt8 :=
  [UInt8.ofNat (fake / 256), UInt8.ofNat fake, workerIdx] ++ nonce.1

def l2WriteWireHeaderEt (packet : Mem) (etOff fake : Nat) (nonce : Nonce) : Attempt L2State Mem :=
  read fun s => packet.write etOff (wireHeader fake s.workerIdx nonce)

def l2WriteWireHeader (packet : Mem) (etOff : Nat) (nonce : Nonce) : Attempt L2State Mem :=
  l2WriteWireHeaderEt packet etOff neL2FakeEthertype nonce

def l2RestorePlainPacket (packet : Mem) (pktLen payload payloadLen : Nat) : Option (Mem × Nat) :=
  (cryptoEthL2PrefixLen packet pktLen).map fun etOff =>
    (packet.move etOff payload payloadLen, etOff + payloadLen)

def l2WirePrefixLen (packet : Mem) (pktLen : Nat) : Option Nat :=
  (cryptoEthL2PrefixLen packet pktLen).map (· + 2)

/-! ## whole frames -/

def l2DoEncrypt (env : Env) (ctx : PacketCryptoCtx) (packet : Mem) (pktLen : Nat) :
    Attempt L2State (Mem × Nat) := do
  let etOff ← ofOption (cryptoEthL2PrefixLen packet pktLen)
  check (etOff + 2 ≤ pktLen)
  let payloadLen := pktLen - etOff
  let encStart := etOff + 2 + l2CoreIdLen + l2NonceSize
  check (encStart ≤ pktLen)
  let packet := packet.move encStart etOff payloadLen
  let key ← ofOption (cryptoPqcSessLoad ctx)
  let nonce ← cryptoPqcGenerateNonce env
  let packet ← l2WriteWireHeader packet etOff nonce
  let (packet, newLen) ← cryptoPqcEncryptPayload env key nonce packet encStart payloadLen
  pure (packet, encStart + newLen)

def l2DoEncryptUdp (env : Env) (ctx : PacketCryptoCtx) (packet : Mem) (pktLen : Nat) :
    Attempt L2State (Mem × Nat) := do
  let l3Off ← ofOption (cryptoEthIpv4Offset packet pktLen)
  let etOff ← ofOption (cryptoEthL2PrefixLen packet pktLen)
  let dg ← l2CryptoUdpTxMeta env
  let payloadLen := pktLen - l3Off
  let magicOff := etOff + 2 + l2CoreIdLen + l2NonceSize
  let encStart := magicOff + l2UdpMarkerSize
  let plainLen := l2UdpShimSize + payloadLen
  check (encStart + plainLen + aesGcmTagSize ≤ neJumboFrameMax)
  let packet := packet.move (encStart + l2UdpShimSize) l3Off payloadLen
  let packet := l2UdpWriteShim packet encStart .full dg
  let key ← ofOption (cryptoPqcSessLoad ctx)
  let nonce ← cryptoPqcGenerateNonce env
  let packet ← l2WriteWireHeaderEt packet etOff neL2FakeEthertypeUdp nonce
  let packet := l2UdpMarkerWrite packet magicOff
  let (packet, newLen) ← cryptoPqcEncryptPayload env key nonce packet encStart plainLen
  pure (packet, encStart + newLen)

def l2DoDecrypt (env : Env) (ctx : PacketCryptoCtx) (packet : Mem) (pktLen : Nat) :
    Option (Mem × Nat) :=
  match l2EncStartOff packet pktLen, l2NonceOff packet pktLen, cryptoPqcSessLoad ctx with
  | some encStart, some nonceOff, some _ =>
      match cryptoPqcDecryptPayloadResilient env ctx (packet.readNonce nonceOff) packet encStart
          (pktLen - encStart) with
      | none => none
      | some (packet, decLen) => l2RestorePlainPacket packet pktLen encStart decLen
  | _, _, _ => none

/-- The decoded shim fields, the restored packet and its length. -/
structure UdpPlain where
  kind : L2UdpKind
  dg : UdpMeta
  packet : Mem
  len : Nat

def l2DoDecryptUdp (env : Env) (ctx : PacketCryptoCtx) (packet : Mem) (pktLen : Nat) :
    Option UdpPlain :=
  match l2FragMagicOff packet pktLen, l2NonceOff packet pktLen with
  | some magicOff, some nonceOff =>
      let encStart := magicOff + l2UdpMarkerSize
      if !l2UdpMarkerMatch packet pktLen magicOff then none
      else if pktLen < encStart + l2UdpShimSize + aesGcmTagSize then none
      else
        match cryptoPqcSessLoad ctx with
        | none => none
        | some _ =>
            match cryptoPqcDecryptPayloadResilient env ctx (packet.readNonce nonceOff) packet encStart
                (pktLen - encStart) with
            | none => none
            | some (packet, decLen) =>
                if decLen < l2UdpShimSize then none
                else
                  match l2UdpReadShim packet encStart, cryptoEthL2PrefixLen packet pktLen with
                  | some (kind, dg), some etOff =>
                      let payloadLen := decLen - l2UdpShimSize
                      let l3Off := etOff + 2
                      let packet := packet.move l3Off (encStart + l2UdpShimSize) payloadLen
                      let packet := if kind = .full then cryptoEthSetIpv4Et packet (l3Off - 2) else packet
                      some ⟨kind, dg, packet, l3Off + payloadLen⟩
                  | _, _ => none
  | _, _ => none

/-! ## the two fragments of an oversized datagram -/

/-- A fragment built in a buffer of its own: the addresses of `ethHdr`, then
the `plainLen` bytes of it at `plainOff` behind a fresh shim. -/
def l2EncryptFragmentSingle (env : Env) (ctx : PacketCryptoCtx) (ethHdr : Mem)
    (plainOff encPlainLen : Nat) (dg : UdpMeta) (kind : L2UdpKind) (outBuf : Mem)
    (outMax etOff : Nat) : Attempt L2State (Mem × Nat) := do
  let magicOff := etOff + 2 + l2CoreIdLen + l2NonceSize
  let encOff := magicOff + l2UdpMarkerSize
  let plainLen := l2UdpShimSize + encPlainLen
  check (encOff + plainLen + aesGcmTagSize ≤ outMax)
  let outBuf := outBuf.write 0 (ethHdr.read 0 etOff)
  let key ← ofOption (cryptoPqcSessLoad ctx)
  let nonce ← cryptoPqcGenerateNonce env
  let outBuf := outBuf.write (encOff + l2UdpShimSize) (ethHdr.read plainOff encPlainLen)
  let outBuf := l2UdpWriteShim outBuf encOff kind dg
  let outBuf ← l2WriteWireHeaderEt outBuf etOff neL2FakeEthertypeUdp nonce
  let outBuf := l2UdpMarkerWrite outBuf magicOff
  let (outBuf, newLen) ← cryptoPqcEncryptPayload env key nonce outBuf encOff plainLen
  pure (outBuf, encOff + newLen)

def l2EncryptFragment0Inplace (env : Env) (ctx : PacketCryptoCtx) (packet : Mem)
    (frag0PlainLen : Nat) (dg : UdpMeta) (outMax etOff l3Off : Nat) :
    Attempt L2State (Mem × Nat) := do
  let magicOff := etOff + 2 + l2CoreIdLen + l2NonceSize
  let encOff := magicOff + l2UdpMarkerSize
  let plainLen := l2UdpShimSize + frag0PlainLen
  check (encOff + plainLen + aesGcmTagSize ≤ outMax)
  let packet := packet.move (encOff + l2UdpShimSize) l3Off frag0PlainLen
  let packet := l2UdpWriteShim packet encOff .frag0 dg
  let key ← ofOption (cryptoPqcSessLoad ctx)
  let nonce ← cryptoPqcGenerateNonce env
  let packet ← l2WriteWireHeaderEt packet etOff neL2FakeEthertypeUdp nonce
  let packet := l2UdpMarkerWrite packet magicOff
  let (packet, newLen) ← cryptoPqcEncryptPayload env key nonce packet encOff plainLen
  pure (packet, encOff + newLen)

/-- Both wire frames of a split datagram with their lengths. -/
structure SplitFrames where
  first : Mem
  firstLen : Nat
  second : Mem
  secondLen : Nat

/-- `l2_split`.  UDP and ICMP both keep their eight-byte header in fragment
zero; fragment one is cut from the buffer before fragment zero overwrites it. -/
def l2Split (env : Env) (ctx : PacketCryptoCtx) (pktData : Mem) (pktLen frag0Max : Nat)
    (frag1 : Mem) (frag1Max : Nat) : Attempt L2State SplitFrames := do
  let fragMtu := ethHeaderSize + l2CryptoMtu
  let l3Off ← ofOption (cryptoEthIpv4Offset pktData pktLen)
  let ipHdrLen := (pktData l3Off).toNat % 16 * 4
  check ((pktData l3Off).toNat / 16 = 4 ∧ 20 ≤ ipHdrLen ∧ l3Off + ipHdrLen ≤ pktLen)
  let ipProto := (pktData (l3Off + 9)).toNat
  let ipPayloadLen := pktLen - l3Off - ipHdrLen
  check (ipProto = ipprotoUdp ∨ ipProto = ipprotoIcmp)
  check (8 ≤ ipPayloadLen)
  let appLen := ipPayloadLen - 8
  check (appLen ≠ 0)
  let fragOverhead := l3Off + optFragMetaLen
  check (fragOverhead < fragMtu)
  let maxPlain0 := fragMtu - fragOverhead
  let fixedPlain0 := ipHdrLen + 8
  check (fixedPlain0 < maxPlain0)
  let half1 := if maxPlain0 - fixedPlain0 ≥ appLen then appLen - 1 else maxPlain0 - fixedPlain0
  let half2 := appLen - half1
  let dg ← l2CryptoUdpTxMeta env
  let etOff1 ← ofOption (cryptoEthL2PrefixLen pktData ethL2HdrMax)
  let (frag1, frag1Len) ← l2EncryptFragmentSingle env ctx pktData
    (l3Off + ipHdrLen + 8 + half1) half2 dg .frag1 frag1 frag1Max etOff1
  let etOff0 ← ofOption (cryptoEthL2PrefixLen pktData pktLen)
  let (pktData, frag0Len) ← l2EncryptFragment0Inplace env ctx pktData (ipHdrLen + 8 + half1) dg
    frag0Max etOff0 l3Off
  pure ⟨pktData, frag0Len, frag1, frag1Len⟩

/-! ## the entry points -/

def l2UdpEncrypt (env : Env) (ctx : PacketCryptoCtx) (pkt : Mem) (pktLen : Nat) :
    Attempt L2State (Mem × Nat) := do
  check (ctx.initialized = true ∧ minEthPkt ≤ pktLen)
  if !cryptoPktIsIpv4 pkt pktLen then pure (pkt, pktLen)
  else do
    let _ ← ofOption (cryptoEthIpv4Offset pkt pktLen)
    let _ ← ofOption (cryptoEthL2PrefixLen pkt pktLen)
    l2DoEncryptUdp env ctx pkt pktLen

def l2TcpEncrypt (env : Env) (ctx : PacketCryptoCtx) (pkt : Mem) (pktLen : Nat) :
    Attempt L2State (Mem × Nat) := do
  check (ctx.initialized = true ∧ minEthPkt ≤ pktLen)
  let _ ← ofOption (cryptoEthL2PrefixLen pkt pktLen)
  l2DoEncrypt env ctx pkt pktLen

def l2TcpDecrypt (env : Env) (ctx : PacketCryptoCtx) (pkt : Mem) (pktLen : Nat) :
    Option (Mem × Nat) :=
  if !ctx.initialized then none
  else if !cryptoEthL2HasMarker pkt pktLen then some (pkt, pktLen)
  else l2DoDecrypt env ctx pkt pktLen

def l2UdpDecrypt (env : Env) (ctx : PacketCryptoCtx) (pkt : Mem) (pktLen : Nat) :
    Option (Mem × Nat) :=
  if !ctx.initialized then none
  else if !cryptoEthL2HasMarker pkt pktLen then some (pkt, pktLen)
  else
    match l2DoDecryptUdp env ctx pkt pktLen with
    | none => none
    | some r => if r.kind = .full ∧ cryptoPktIsIpv4 r.packet r.len then some (r.packet, r.len) else none

/-- The packet length includes the Ethernet header, the interface MTU does not. -/
def l2CryptoNeedUdpSplit (packetLen : Nat) : Bool :=
  decide (packetLen > ethHeaderSize + l2CryptoMtu - optFragMetaLen)

def l2CryptoNeedSplit (proto : L2CryptoProto) (packetLen : Nat) : Bool :=
  match proto with
  | .udp => l2CryptoNeedUdpSplit packetLen
  | .icmp => decide (packetLen > ethHeaderSize + l2CryptoMtu - l2CryptoDataOverhead)
  | .data => false

def l2CryptoSplitUdp (env : Env) (ctx : PacketCryptoCtx) (packet : Mem) (packetLen firstMax : Nat)
    (second : Mem) (secondMax : Nat) : Attempt L2State SplitFrames :=
  l2Split env ctx packet packetLen firstMax second secondMax

def l2CryptoEncrypt (env : Env) (proto : L2CryptoProto) (ctx : PacketCryptoCtx) (packet : Mem)
    (packetLen : Nat) : Attempt L2State (Mem × Nat) :=
  if proto = .udp then l2UdpEncrypt env ctx packet packetLen
  else l2TcpEncrypt env ctx packet packetLen

def l2CryptoDecrypt (env : Env) (proto : L2CryptoProto) (ctx : PacketCryptoCtx) (packet : Mem)
    (packetLen : Nat) : Option (Mem × Nat) :=
  if proto = .udp then l2UdpDecrypt env ctx packet packetLen
  else l2TcpDecrypt env ctx packet packetLen

/-! ## what the encoders do to the thread -/

/-- A relation between thread states that drawing a nonce, fixing the epoch and
recording an encryption stay within. -/
structure EncoderRel (R : L2State → L2State → Prop) (env : Env) : Prop where
  refl : ∀ s, R s s
  trans : ∀ s t u, R s t → R t u → R s u
  draw : Within R (cryptoPqcGenerateNonce env)
  epoch : Within R (l2CryptoEpoch env)
  record : ∀ s e, R s { s with sealed := s.sealed ++ [e] }

namespace EncoderRel

variable {R : L2State → L2State → Prop} {env : Env} {α β : Type}

theorem bind (h : EncoderRel R env) {x : Attempt L2State α} {f : α → Attempt L2State β}
    (hx : Within R x) (hf : ∀ a, Within R (f a)) : Within R (x >>= f) := Within.bind h.trans hx hf

theorem check (h : EncoderRel R env) (c : Prop) [Decidable c] :
    Within R (Attempt.check c : Attempt L2State Unit) := Within.check h.refl c

theorem ofOption (h : EncoderRel R env) (o : Option α) :
    Within R (Attempt.ofOption o : Attempt L2State α) := Within.ofOption h.refl o

theorem pure (h : EncoderRel R env) (a : α) : Within R (Pure.pure a : Attempt L2State α) :=
  Within.pure h.refl a

theorem header (h : EncoderRel R env) (packet : Mem) (etOff fake : Nat) (nonce : Nonce) :
    Within R (l2WriteWireHeaderEt packet etOff fake nonce) := Within.read h.refl _

theorem txMeta (h : EncoderRel R env) : Within R (l2CryptoUdpTxMeta env) :=
  h.bind (Within.read h.refl _) fun _ => h.bind (h.check _) fun _ => h.bind h.epoch fun _ =>
    Within.read h.refl _

theorem payload (h : EncoderRel R env) (key : Key) (nonce : Nonce) (data : Mem) (off len : Nat) :
    Within R (cryptoPqcEncryptPayload env key nonce data off len) :=
  h.bind (h.ofOption _) fun _ => h.bind (fun s => h.record s _) fun _ => h.pure _

theorem doEncrypt (h : EncoderRel R env) (ctx : PacketCryptoCtx) (packet : Mem) (pktLen : Nat) :
    Within R (l2DoEncrypt env ctx packet pktLen) :=
  h.bind (h.ofOption _) fun _ => h.bind (h.check _) fun _ => h.bind (h.check _) fun _ =>
    h.bind (h.ofOption _) fun _ => h.bind h.draw fun _ => h.bind (h.header _ _ _ _) fun _ =>
    h.bind (h.payload _ _ _ _ _) fun _ => h.pure _

theorem doEncryptUdp (h : EncoderRel R env) (ctx : PacketCryptoCtx) (packet : Mem) (pktLen : Nat) :
    Within R (l2DoEncryptUdp env ctx packet pktLen) :=
  h.bind (h.ofOption _) fun _ => h.bind (h.ofOption _) fun _ => h.bind h.txMeta fun _ =>
    h.bind (h.check _) fun _ => h.bind (h.ofOption _) fun _ => h.bind h.draw fun _ =>
    h.bind (h.header _ _ _ _) fun _ => h.bind (h.payload _ _ _ _ _) fun _ => h.pure _

theorem fragmentSingle (h : EncoderRel R env) (ctx : PacketCryptoCtx) (ethHdr : Mem)
    (plainOff encPlainLen : Nat) (dg : UdpMeta) (kind : L2UdpKind) (outBuf : Mem)
    (outMax etOff : Nat) :
    Within R (l2EncryptFragmentSingle env ctx ethHdr plainOff encPlainLen dg kind outBuf outMax etOff) :=
  h.bind (h.check _) fun _ => h.bind (h.ofOption _) fun _ => h.bind h.draw fun _ =>
    h.bind (h.header _ _ _ _) fun _ => h.bind (h.payload _ _ _ _ _) fun _ => h.pure _

theorem fragment0Inplace (h : EncoderRel R env) (ctx : PacketCryptoCtx) (packet : Mem)
    (frag0PlainLen : Nat) (dg : UdpMeta) (outMax etOff l3Off : Nat) :
    Within R (l2EncryptFragment0Inplace env ctx packet frag0PlainLen dg outMax etOff l3Off) :=
  h.bind (h.check _) fun _ => h.bind (h.ofOption _) fun _ => h.bind h.draw fun _ =>
    h.bind (h.header _ _ _ _) fun _ => h.bind (h.payload _ _ _ _ _) fun _ => h.pure _

theorem split (h : EncoderRel R env) (ctx : PacketCryptoCtx) (pktData : Mem) (pktLen frag0Max : Nat)
    (frag1 : Mem) (frag1Max : Nat) : Within R (l2Split env ctx pktData pktLen frag0Max frag1 frag1Max) :=
  h.bind (h.ofOption _) fun _ => h.bind (h.check _) fun _ => h.bind (h.check _) fun _ =>
    h.bind (h.check _) fun _ => h.bind (h.check _) fun _ => h.bind (h.check _) fun _ =>
    h.bind (h.check _) fun _ => h.bind h.txMeta fun _ => h.bind (h.ofOption _) fun _ =>
    h.bind (h.fragmentSingle _ _ _ _ _ _ _ _ _) fun _ => h.bind (h.ofOption _) fun _ =>
    h.bind (h.fragment0Inplace _ _ _ _ _ _ _) fun _ => h.pure _

theorem encrypt (h : EncoderRel R env) (proto : L2CryptoProto) (ctx : PacketCryptoCtx) (packet : Mem)
    (packetLen : Nat) : Within R (l2CryptoEncrypt env proto ctx packet packetLen) := by
  unfold l2CryptoEncrypt
  by_cases hp : proto = .udp
  · rw [if_pos hp]
    refine h.bind (h.check _) fun _ => ?_
    by_cases hip : (!cryptoPktIsIpv4 packet packetLen) = true
    · rw [if_pos hip]; exact h.pure _
    · rw [if_neg hip]
      exact h.bind (h.ofOption _) fun _ => h.bind (h.ofOption _) fun _ => h.doEncryptUdp _ _ _
  · rw [if_neg hp]
    exact h.bind (h.check _) fun _ => h.bind (h.ofOption _) fun _ => h.doEncrypt _ _ _

end EncoderRel

end NetworkEncryptor
