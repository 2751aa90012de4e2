import NetworkEncryptor.CryptoRoute
import NetworkEncryptor.Reassembly
import NetworkEncryptor.Ring

/-!
# NetworkEncryptor.Dataplane

`src/core/dataplane/local_egress.c` and `wan_ingress.c`: what a crypto worker
does with one packet, from the linearization of the received segments to the
push on an output ring, along every error branch.

A function takes the state of the process (`Forwarder`), the state of the
calling thread (`Worker`) and the packet, and returns all three, as every exit
either hands the packet on, frees it, or leaves it to the caller to free.
-/

namespace NetworkEncryptor

/-! ## state -/

/-- `struct forwarder` with the process-wide variables of the files it calls:
the route table, the fragment tables and the epoch. -/
structure Forwarder where
  pair : NePair
  crypto : PacketCryptoCtx
  localCount : Nat
  wanCount : Nat
  localToMid : Nat → NeRing
  wanToMid : Nat → NeRing
  midToWan : Nat → Nat → NeRing
  midToLocal : Nat → Nat → NeRing
  route : RouteState
  tables : FragTables
  epoch : UInt32

/-- A thread: its thread-local variables and the two buffers of its worker. -/
structure Worker where
  tls : RouteTls
  l2 : L2State
  cryptoBuf : Mem
  cryptoAux : Mem

/-- Process, thread and packet together. -/
structure Job where
  fwd : Forwarder
  self : Worker
  pkt : NePacket

/-- `ne_packet_free(&fwd->pair, &job)`. -/
def Job.free (j : Job) : Job :=
  let r := nePacketFree j.fwd.pair j.pkt
  { j with fwd := { j.fwd with pair := r.1 }, pkt := r.2 }

/-- `ne_packet_write(&fwd->pair, &job, src, len)`. -/
def Job.write (j : Job) (src : Mem) (len : Nat) : Bool × Job :=
  let r := nePacketWrite j.fwd.pair j.pkt src len
  (r.1, { j with fwd := { j.fwd with pair := r.2.1 }, pkt := r.2.2 })

/-- The crypto state of the thread with the process-wide epoch. -/
def Job.l2 (j : Job) : L2State := { j.self.l2 with udpEpoch := j.fwd.epoch }

/-- Store the crypto state back. -/
def Job.setL2 (j : Job) (s : L2State) : Job :=
  { j with fwd := { j.fwd with epoch := s.udpEpoch }, self := { j.self with l2 := s } }

/-! ## LAN to WAN -/

/-- `dp_ring_push` on an output ring: `put` stores the ring back.  A refused
packet is freed. -/
def dpRingPush (j : Job) (ring : NeRing) (put : NeRing → Forwarder → Forwarder) : Bool × Job :=
  if j.pkt.len > neJumboFrameMax then (false, j.free)
  else
    match neRingTryPush ring j.pkt with
    | none => (false, j.free)
    | some ring => (true, { j with fwd := put ring j.fwd })

def Forwarder.setMidToWan (fwd : Forwarder) (wanDp slot : Nat) (ring : NeRing) : Forwarder :=
  let rings := Function.update (fwd.midToWan wanDp) slot ring
  { fwd with midToWan := Function.update fwd.midToWan wanDp rings }

def Forwarder.setMidToLocal (fwd : Forwarder) (localIdx slot : Nat) (ring : NeRing) : Forwarder :=
  let rings := Function.update (fwd.midToLocal localIdx) slot ring
  { fwd with midToLocal := Function.update fwd.midToLocal localIdx rings }

def pushToWan (j : Job) (wanDp : Nat) : Bool × Job :=
  let ri := j.self.tls.outRingIdx
  let j := { j with pkt := { j.pkt with dir := .wan, wanIdx := wanDp % 256 } }
  dpRingPush j (j.fwd.midToWan wanDp ri) fun ring fwd => fwd.setMidToWan wanDp ri ring

/-- `push_split_to_wan`; on failure the tail is freed, the job is the caller's. -/
def pushSplitToWan (j : Job) (l1 : Nat) (tail : NePacket) (l2 wanDp : Nat) : Bool × Job :=
  let ri := j.self.tls.outRingIdx
  let tx := j.fwd.midToWan wanDp ri
  let freeTail (j : Job) : Job := { j with fwd := { j.fwd with pair := (nePacketFree j.fwd.pair tail).1 } }
  if wanDp ≥ j.fwd.wanCount ∨ neRingCount tx + 2 > tx.cap then (false, freeTail j)
  else if l1 = 0 ∨ l2 = 0 ∨ l1 > neJumboFrameMax ∨ l2 > neJumboFrameMax then (false, freeTail j)
  else
    let tail := { tail with len := l2, dir := .wan, wanIdx := wanDp % 256,
                            tag := j.pkt.tag, part := 1, flow := j.pkt.flow }
    let j := { j with pkt := { j.pkt with len := l1, dir := .wan, wanIdx := wanDp % 256 } }
    match neRingTryPushPair tx j.pkt tail with
    | none => (false, { j with fwd := { j.fwd with pair := (nePacketFree j.fwd.pair tail).1 } })
    | some ring => (true, { j with fwd := j.fwd.setMidToWan wanDp ri ring })

/-- The three answers of `encrypt_to_wan`. -/
inductive EncResult
  | fail
  | inPlace
  | pushed
  deriving DecidableEq

/-- The sequence number step of `encrypt_to_wan`. -/
def txSeqStep (j : Job) (pkt : Mem) (len : Nat) (flowOk : Bool) : Bool × Job :=
  if !flowOk then (false, j)
  else
    let r := dpUdpNextTxSeq j.fwd.route j.self.tls pkt len
    let j := { j with fwd := { j.fwd with route := r.2.1 }, self := { j.self with tls := r.2.2 } }
    match r.1 with
    | none => (false, j)
    | some seq => (true, { j with self := { j.self with l2 := l2CryptoUdpSetTxSeq seq j.self.l2 } })

/-- The split branch of `encrypt_to_wan`. -/
def encryptSplit (env : Env) (j : Job) (len wanDp : Nat) : EncResult × Job :=
  match l2CryptoSplitUdp env j.fwd.crypto j.self.cryptoBuf len neJumboFrameMax j.self.cryptoAux
      neJumboFrameMax j.l2 with
  | (none, s) => (.fail, j.setL2 s)
  | (some r, s) =>
      let j := j.setL2 s
      let j := { j with self := { j.self with cryptoBuf := r.first, cryptoAux := r.second } }
      let w := j.write r.first r.firstLen
      if w.1 then
        let t := nePacketWrite w.2.fwd.pair NePacket.zero r.second r.secondLen
        let j := { w.2 with fwd := { w.2.fwd with pair := t.2.1 } }
        if t.1 then
          let q := pushSplitToWan j r.firstLen t.2.2 r.secondLen wanDp
          (if q.1 then .pushed else .fail, q.2)
        else (.fail, { j with fwd := { j.fwd with pair := (nePacketFree j.fwd.pair t.2.2).1 } })
      else
        (.fail, { w.2 with fwd := { w.2.fwd with
          pair := (nePacketFree w.2.fwd.pair NePacket.zero).1 } })

/-- The single-frame branch of `encrypt_to_wan`. -/
def encryptSingle (env : Env) (j : Job) (proto : L2CryptoProto) (len : Nat) : EncResult × Job :=
  match l2CryptoEncrypt env proto j.fwd.crypto j.self.cryptoBuf len j.l2 with
  | (none, s) => (.fail, j.setL2 s)
  | (some (buf, len), s) =>
      let j := j.setL2 s
      let j := { j with self := { j.self with cryptoBuf := buf } }
      if len > ethHeaderSize + l2CryptoMtu then (.fail, j)
      else
        let w := j.write buf len
        (if w.1 then .inPlace else .fail, w.2)

def encryptToWan (env : Env) (j : Job) (wanDp : Nat) (proto : L2CryptoProto) (flowOk : Bool) :
    EncResult × Job :=
  let len := j.pkt.len
  let split := l2CryptoNeedSplit proto len
  let buf := if proto ≠ .udp then
      (cryptoTcpClampMss j.self.cryptoBuf len l2CryptoMtu l2CryptoDataOverhead).2
    else j.self.cryptoBuf
  let j := { j with self := { j.self with cryptoBuf := buf } }
  let q := if proto = .udp ∨ split = true then txSeqStep j buf len flowOk else (true, j)
  if !q.1 then (.fail, q.2)
  else if split then encryptSplit env q.2 len wanDp
  else encryptSingle env q.2 proto len

/-- `dataplane_process_local`. -/
def dataplaneProcessLocal (env : Env) (j : Job) : Job :=
  let lin := nePacketLinearize j.fwd.pair j.pkt j.self.cryptoBuf neJumboFrameMax
  let j := { j with self := { j.self with cryptoBuf := lin.2 } }
  if !lin.1 then j.free
  else
    let flow := dpParseFlow lin.2 j.pkt.len
    if j.fwd.wanCount ≠ 1 then j.free
    else
      match encryptToWan env j 0 (l2CryptoClassify flow.2.toNat) flow.1.isSome with
      | (.fail, j) => j.free
      | (.pushed, j) => j
      | (.inPlace, j) => (pushToWan j 0).2

/-! ## WAN to LAN -/

def isUdpWire (pkt : Mem) (len : Nat) : Bool :=
  if !cryptoEthL2HasMarker pkt len then false
  else
    match cryptoEthL2FragMagicOff pkt len packetCryptoNonceBytes with
    | none => false
    | some off => decide (len ≥ off + 4) && pkt.read off 4 == [0x5b, 0x55, 0x44, 0x01]

def forwardLocal (j : Job) : Bool × Job :=
  if j.fwd.localCount ≠ 1 then (false, j)
  else
    let ri := j.self.tls.outRingIdx
    let j := { j with pkt := { j.pkt with dir := .local, localIdx := 0 } }
    dpRingPush j (j.fwd.midToLocal 0 ri) fun ring fwd => fwd.setMidToLocal 0 ri ring

/-- Bind the output ring of the restored frame and hand it on. -/
def routeLocal (j : Job) (pkt : Mem) (workerIdx : Nat) : Job :=
  let r := dpFlowPickTxSlot j.fwd.route pkt j.pkt.len (some workerIdx)
  let flow := (dpParseFlow pkt j.pkt.len).1
  let j := { j with
    fwd := { j.fwd with route := r.2 }
    self := { j.self with tls := dpOutRingBind r.2 r.1 j.self.tls }
    pkt := { j.pkt with flow := flow } }
  let f := forwardLocal j
  if f.1 then f.2 else f.2.free

/-- `dataplane_process_wan`. -/
def dataplaneProcessWan (env : Env) (j : Job) : Job :=
  match j.self.tls.cryptoWorkerIdx with
  | none => j.free
  | some workerIdx =>
      if workerIdx ≥ neCryptoWorkers then j.free
      else
        let lin := nePacketLinearize j.fwd.pair j.pkt j.self.cryptoBuf neJumboFrameMax
        let j := { j with self := { j.self with cryptoBuf := lin.2 } }
        if !lin.1 then j.free
        else if !cryptoEthL2HasMarker lin.2 j.pkt.len then j.free
        else if isUdpWire lin.2 j.pkt.len then
          let q := l2CryptoReassembleUdp env j.fwd.crypto j.fwd.tables workerIdx lin.2 j.pkt.len
            j.self.cryptoAux
          let j := { j with fwd := { j.fwd with tables := q.1 } }
          match q.2 with
          | .wait => j.free
          | .fail => j.free
          | .done out outLen =>
              let j := { j with self := { j.self with cryptoAux := out } }
              let w := j.write out outLen
              if w.1 then routeLocal w.2 out workerIdx else w.2.free
        else
          match l2CryptoDecrypt env .data j.fwd.crypto lin.2 j.pkt.len with
          | none => j.free
          | some (buf, len) =>
              let j := { j with self := { j.self with cryptoBuf := buf } }
              let w := j.write buf len
              if w.1 then routeLocal w.2 buf workerIdx else w.2.free

end NetworkEncryptor
