import NetworkEncryptor.AccessReasm
import NetworkEncryptor.Egress

/-!
# NetworkEncryptor.AccessPath

`dataplane_process_local` and `dataplane_process_wan` from the linearized packet on,
access by access.

What the two functions do with the packet is put together here from the programs of
`AccessParse`, `AccessCrypto` and `AccessReasm`; what they do with rings, frames and
routes reads and writes none of the buffers and is one step.  `Mirrors` ties every
program to the function of `Dataplane` it stands for: it leaves the same process, the
same thread and the same packet, and only the two buffers of the worker, which the
next packet overwrites, may hold something else.
-/

namespace NetworkEncryptor

namespace Code

open Prog

/-! ## routes and sequence numbers -/

/-- A step on the route table of the process and the route state of the thread. -/
def route {α : Type} (f : RouteState → RouteTls → α × RouteState × RouteTls) : Prog Buf Job α :=
  step fun j =>
    let r := f j.fwd.route j.self.tls
    (r.1, { j with fwd := { j.fwd with route := r.2.1 }, self := { j.self with tls := r.2.2 } })

def dpFlowRouteGet (b : Buf) (len : Nat) (workerHint : Option Nat) : Prog Buf Job FlowRoute := do
  let hash ← dpPktFlowHash b len
  let key ← dpRouteKeyParseDirection b len
  match key with
  | none => route fun rt tls => (hashRoute rt hash, rt, tls)
  | some (key, _) => route fun rt tls =>
      let r := dpFlowRouteGetKey rt key workerHint
      (r.1, r.2, tls)

def dpFlowPickTxSlot (b : Buf) (len : Nat) (workerHint : Option Nat) : Prog Buf Job Nat := do
  let r ← dpFlowRouteGet b len workerHint
  return r.txSlot

/-- Draw from the route entry of the flow, if it has one. -/
def drawSeq (key : RouteKey) (dir : Bool) : Prog Buf Job (Option UInt32) :=
  route fun rt tls =>
    match routeFind rt key with
    | none => (none, rt, tls)
    | some way =>
        let r := routeBumpSeq rt (routeSet key) way dir
        (some r.1, r.2, tls)

def dpUdpNextTxSeq (b : Buf) (len : Nat) : Prog Buf Job (Option UInt32) := do
  let some (key, dir) ← dpRouteKeyParseDirection b len | return none
  if key.protocol.toNat ≠ ipprotoUdp ∧ key.protocol.toNat ≠ ipprotoIcmp then return none
  if let some seq ← drawSeq key dir then return some seq
  let workerHint ← route fun rt tls => (tls.cryptoWorkerIdx, rt, tls)
  let _ ← dpFlowRouteGet b len workerHint
  if let some seq ← drawSeq key dir then return some seq
  route fun rt tls =>
    let r := dpUdpSeqFromFallback tls key dir
    (some r.1, rt, r.2)

/-! ## LAN to WAN -/

/-- `ne_packet_write(&fwd->pair, &job, b, len)`: all it reads of the buffer. -/
def nePacketWrite (b : Buf) (len : Nat) : Prog Buf Job Bool := do
  let src ← bytes b len 0 len
  step fun j => j.write (Mem.ofList src) len

/-- The same for the packet of the second half. -/
def nePacketWriteTail (b : Buf) (len : Nat) : Prog Buf Job (Bool × NePacket) := do
  let src ← bytes b len 0 len
  step fun j =>
    let t := NetworkEncryptor.nePacketWrite j.fwd.pair NePacket.zero (Mem.ofList src) len
    ((t.1, t.2.2), { j with fwd := { j.fwd with pair := t.2.1 } })

def freeTail (tail : NePacket) : Prog Buf Job Unit :=
  step fun j => ((), { j with fwd := { j.fwd with pair := (nePacketFree j.fwd.pair tail).1 } })

def txSeqStep (len : Nat) (flowOk : Bool) : Prog Buf Job Bool := do
  if !flowOk then return false
  let some seq ← dpUdpNextTxSeq .cryptoBuf len | return false
  step fun j => (true, { j with self := { j.self with l2 := l2CryptoUdpSetTxSeq seq j.self.l2 } })

def encryptSplit (env : Env) (len wanDp : Nat) : Prog Buf Job EncResult := do
  let ctx ← step fun j => (j.fwd.crypto, j)
  let some (l1, l2) ← l2Split env ctx len neJumboFrameMax neJumboFrameMax | return .fail
  let ok ← nePacketWrite .cryptoBuf l1
  if !ok then
    freeTail NePacket.zero
    return .fail
  let (ok, tail) ← nePacketWriteTail .cryptoAux l2
  if !ok then
    freeTail tail
    return .fail
  let ok ← step fun j => pushSplitToWan j l1 tail l2 wanDp
  return if ok then .pushed else .fail

def encryptSingle (env : Env) (proto : L2CryptoProto) (len : Nat) : Prog Buf Job EncResult := do
  let ctx ← step fun j => (j.fwd.crypto, j)
  let some len ← l2CryptoEncrypt env proto ctx len | return .fail
  if len > ethHeaderSize + l2CryptoMtu then return .fail
  let ok ← nePacketWrite .cryptoBuf len
  return if ok then .inPlace else .fail

/-- The clamp of `encrypt_to_wan`. -/
def clampMss (proto : L2CryptoProto) (len : Nat) : Prog Buf Job Unit := do
  if proto ≠ .udp then
    let _ ← cryptoTcpClampMss .cryptoBuf len l2CryptoMtu l2CryptoDataOverhead

/-- The sequence number of a datagram that needs one. -/
def seqStep (proto : L2CryptoProto) (len : Nat) (flowOk : Bool) : Prog Buf Job Bool :=
  if proto = .udp ∨ l2CryptoNeedSplit proto len = true then txSeqStep len flowOk else pure true

def encryptToWan (env : Env) (wanDp : Nat) (proto : L2CryptoProto) (flowOk : Bool) :
    Prog Buf Job EncResult := do
  let len ← step fun j => (j.pkt.len, j)
  clampMss proto len
  let ok ← seqStep proto len flowOk
  if !ok then return .fail
  if l2CryptoNeedSplit proto len then encryptSplit env len wanDp else encryptSingle env proto len

/-- The epoch is one variable of the process; the copy the thread state has of it is
brought up to date. -/
def syncEpoch : Prog Buf Job Unit := step fun j => ((), j.setL2 j.l2)

def free : Prog Buf Job Unit := step fun j => ((), j.free)

def localRest (env : Env) : Prog Buf Job Unit := do
  let len ← step fun j => (j.pkt.len, j)
  let flow ← dpParseFlow .cryptoBuf len
  let wanCount ← step fun j => (j.fwd.wanCount, j)
  if wanCount ≠ 1 then free
  else
    let enc ← encryptToWan env 0 (l2CryptoClassify flow.2.toNat) flow.1.isSome
    match enc with
    | .fail => free
    | .pushed => return ()
    | .inPlace => step fun j => ((), (pushToWan j 0).2)

/-- `dataplane_process_local`, when the packet is in `crypto_buf`. -/
def dataplaneProcessLocal (env : Env) : Prog Buf Job Unit := do
  syncEpoch
  localRest env

/-! ## WAN to LAN -/

def isUdpWire (b : Buf) (len : Nat) : Prog Buf Job Bool := do
  let marked ← cryptoEthL2HasMarker b len
  if !marked then return false
  let some off ← cryptoEthL2FragMagicOff b len packetCryptoNonceBytes | return false
  if ¬len ≥ off + 4 then return false
  let mark ← bytes b len off 4
  return mark == [0x5b, 0x55, 0x44, 0x01]

/-- The restored packet is in `b`.  The last step before it is handed on keeps its flow
for the record; it is no access of the program. -/
def routeLocal (b : Buf) (workerIdx : Nat) : Prog Buf Job Unit := do
  let len ← step fun j => (j.pkt.len, j)
  let slot ← dpFlowPickTxSlot b len (some workerIdx)
  route fun rt tls => ((), rt, dpOutRingBind rt slot tls)
  step fun j => ((), { j with pkt := { j.pkt with
    flow := (NetworkEncryptor.dpParseFlow (Buffers.get j b) len).1 } })
  let ok ← step forwardLocal
  if ok then return () else free

def deliverLocal (b : Buf) (len workerIdx : Nat) : Prog Buf Job Unit := do
  let ok ← nePacketWrite b len
  if ok then routeLocal b workerIdx else free

def wanRest (env : Env) (workerIdx : Nat) : Prog Buf Job Unit := do
  let len ← step fun j => (j.pkt.len, j)
  let ctx ← step fun j => (j.fwd.crypto, j)
  let marked ← cryptoEthL2HasMarker .cryptoBuf len
  if !marked then free
  else
    let udp ← isUdpWire .cryptoBuf len
    if udp then
      let rr ← l2CryptoReassembleUdp env ctx workerIdx len
      match rr with
      | .wait => free
      | .fail => free
      | .done outLen => deliverLocal .cryptoAux outLen workerIdx
    else
      let dec ← l2TcpDecrypt env ctx len
      match dec with
      | none => free
      | some len => deliverLocal .cryptoBuf len workerIdx

/-- `dataplane_process_wan`, when the packet is in `crypto_buf`. -/
def dataplaneProcessWan (env : Env) (workerIdx : Nat) : Prog Buf Job Unit := do
  syncEpoch
  wanRest env workerIdx

end Code

/-! ## the functions of the model from the linearized packet on -/

/-- `dataplane_process_local` behind the linearization. -/
def localRest (env : Env) (j : Job) : Job :=
  if j.fwd.wanCount ≠ 1 then j.free
  else
    let flow := dpParseFlow j.self.cryptoBuf j.pkt.len
    egressEnd (encryptToWan env j 0 (l2CryptoClassify flow.2.toNat) flow.1.isSome)

theorem dataplaneProcessLocal_of_linearized {env : Env} {j : Job} {m : Mem}
    (h : nePacketLinearize j.fwd.pair j.pkt j.self.cryptoBuf neJumboFrameMax = (true, m)) :
    dataplaneProcessLocal env j = localRest env (j.withBuf m) := dataplaneProcessLocal_eq h

/-- Write the restored packet back and hand it on. -/
def deliverLocal (j : Job) (buf : Mem) (len workerIdx : Nat) : Job :=
  let w := j.write buf len
  if w.1 then routeLocal w.2 buf workerIdx else w.2.free

/-- `dataplane_process_wan` behind the linearization. -/
def wanRest (env : Env) (workerIdx : Nat) (j : Job) : Job :=
  if !cryptoEthL2HasMarker j.self.cryptoBuf j.pkt.len then j.free
  else if isUdpWire j.self.cryptoBuf j.pkt.len then
    let q := l2CryptoReassembleUdp env j.fwd.crypto j.fwd.tables workerIdx j.self.cryptoBuf j.pkt.len
      j.self.cryptoAux
    let j := { j with fwd := { j.fwd with tables := q.1 } }
    match q.2 with
    | .wait => j.free
    | .fail => j.free
    | .done out outLen =>
        deliverLocal { j with self := { j.self with cryptoAux := out } } out outLen workerIdx
  else
    match l2CryptoDecrypt env .data j.fwd.crypto j.self.cryptoBuf j.pkt.len with
    | none => j.free
    | some (buf, len) => deliverLocal (j.withBuf buf) buf len workerIdx

theorem dataplaneProcessWan_of_linearized {env : Env} {j : Job} {m : Mem} {workerIdx : Nat}
    (hw : j.self.tls.cryptoWorkerIdx = some workerIdx) (hlt : workerIdx < neCryptoWorkers)
    (h : nePacketLinearize j.fwd.pair j.pkt j.self.cryptoBuf neJumboFrameMax = (true, m)) :
    dataplaneProcessWan env j = wanRest env workerIdx (j.withBuf m) := by
  unfold dataplaneProcessWan
  simp only [hw, if_neg (Nat.not_le.mpr hlt), h]
  rfl

/-! ## the job behind the buffers -/

/-- The job with `m` and `a` in the two buffers and the epoch copied. -/
def Job.holding (j : Job) (m a : Mem) : Job := j.at j.l2 m a

@[simp] theorem holding_fwd (j : Job) (m a : Mem) : (j.holding m a).fwd = j.fwd := by cases j; rfl

@[simp] theorem holding_pkt (j : Job) (m a : Mem) : (j.holding m a).pkt = j.pkt := by cases j; rfl

@[simp] theorem holding_tls (j : Job) (m a : Mem) : (j.holding m a).self.tls = j.self.tls := by
  cases j; rfl

theorem get_cryptoBuf (j : Job) (m a : Mem) : Buffers.get (j.holding m a) Buf.cryptoBuf = m := rfl

theorem get_cryptoAux (j : Job) (m a : Mem) : Buffers.get (j.holding m a) Buf.cryptoAux = a := rfl

/-- Store the two parts of the route state. -/
def Job.setRoute (j : Job) (rt : RouteState) (tls : RouteTls) : Job :=
  { j with fwd := { j.fwd with route := rt }, self := { j.self with tls := tls } }

namespace Code

open Prog

variable {α : Type} {j : Job} {m a : Mem} {len : Nat}

/-- A step that leaves the buffers alone. -/
theorem step_safely {f : Job → α × Job}
    (h : f (j.holding m a) = ((f j).1, (f j).2.holding m a)) :
    Safely (step f) (j.holding m a) ((f j).1, (f j).2.holding m a) := by
  rw [← h]
  exact Does.step f _

theorem route_safely (f : RouteState → RouteTls → α × RouteState × RouteTls) :
    Safely (route f) (j.holding m a) ((f j.fwd.route j.self.tls).1,
      (j.setRoute (f j.fwd.route j.self.tls).2.1 (f j.fwd.route j.self.tls).2.2).holding m a) :=
  step_safely rfl

/-! ### routes and sequence numbers -/

theorem dpFlowRouteGet_safely {b : Buf} {c : Mem} {hint : Option Nat}
    (hr : Reads Access.InRange b len len) (hc : Buffers.get (j.holding m a) b = c) :
    Safely (dpFlowRouteGet b len hint) (j.holding m a)
      ((NetworkEncryptor.dpFlowRouteGet j.fwd.route c len hint).1,
        (j.setRoute (NetworkEncryptor.dpFlowRouteGet j.fwd.route c len hint).2 j.self.tls).holding m a) := by
  have hhash := dpPktFlowHash_does hr (j.holding m a)
  have hkey := dpRouteKeyParseDirection_does hr (j.holding m a)
  rw [hc] at hhash hkey
  unfold dpFlowRouteGet NetworkEncryptor.dpFlowRouteGet NetworkEncryptor.dpRouteKeyParse
  refine hhash.bind (hkey.bind ?_)
  cases NetworkEncryptor.dpRouteKeyParseDirection c len with
  | none => exact route_safely _
  | some key => exact route_safely _

theorem drawSeq_none {key : RouteKey} {dir : Bool} (h : routeFind j.fwd.route key = none) :
    Safely (drawSeq key dir) (j.holding m a) (none, j.holding m a) := by
  have hdraw : Safely (drawSeq key dir) (j.holding m a) _ := route_safely _
  rw [h] at hdraw
  exact hdraw

theorem drawSeq_some {key : RouteKey} {dir : Bool} {way : Nat}
    (h : routeFind j.fwd.route key = some way) :
    Safely (drawSeq key dir) (j.holding m a)
      (some (routeBumpSeq j.fwd.route (routeSet key) way dir).1,
        (j.setRoute (routeBumpSeq j.fwd.route (routeSet key) way dir).2 j.self.tls).holding m a) := by
  have hdraw : Safely (drawSeq key dir) (j.holding m a) _ := route_safely _
  rw [h] at hdraw
  exact hdraw

theorem dpUdpNextTxSeq_safely (hlen : len ≤ neJumboFrameMax) :
    Safely (dpUdpNextTxSeq .cryptoBuf len) (j.holding m a)
      ((NetworkEncryptor.dpUdpNextTxSeq j.fwd.route j.self.tls m len).1,
        (j.setRoute (NetworkEncryptor.dpUdpNextTxSeq j.fwd.route j.self.tls m len).2.1
          (NetworkEncryptor.dpUdpNextTxSeq j.fwd.route j.self.tls m len).2.2).holding m a) := by
  have hkey := dpRouteKeyParseDirection_does (reads_of_fits (b := .cryptoBuf) hlen) (j.holding m a)
  unfold dpUdpNextTxSeq NetworkEncryptor.dpUdpNextTxSeq
  refine hkey.bind ?_
  rw [get_cryptoBuf]
  cases NetworkEncryptor.dpRouteKeyParseDirection m len with
  | none => exact Does.pure _ _
  | some kd =>
      obtain ⟨key, dir⟩ := kd
      dsimp only
      by_cases hproto : key.protocol.toNat ≠ ipprotoUdp ∧ key.protocol.toNat ≠ ipprotoIcmp
      · rw [if_pos hproto, if_pos hproto]; exact Does.pure _ _
      rw [if_neg hproto, if_neg hproto]
      cases hfind : routeFind j.fwd.route key with
      | some way => exact (drawSeq_some hfind).bind (Does.pure _ _)
      | none =>
          refine (drawSeq_none hfind).bind ((route_safely _).bind
            ((dpFlowRouteGet_safely (reads_of_fits hlen) rfl).bind ?_))
          dsimp only
          cases hagain : routeFind (NetworkEncryptor.dpFlowRouteGet j.fwd.route m len
              j.self.tls.cryptoWorkerIdx).2 key with
          | some way => exact (drawSeq_some hagain).bind (Does.pure _ _)
          | none => exact (drawSeq_none hagain).bind (route_safely _)

/-! ### LAN to WAN -/

/-- The program does what the function of the model does, the two buffers apart. -/
def Mirrors (x : Prog Buf Job α) (j : Job) (m a : Mem) (out : α × Job) : Prop :=
  ∃ m' a', Safely x (j.holding m a) (out.1, out.2.holding m' a')

theorem Mirrors.stop (r : α) : Mirrors (pure r) j m a (r, j) := ⟨m, a, Does.pure _ _⟩

theorem Mirrors.of {x : Prog Buf Job α} {out : α × Job} {m' a' : Mem}
    (h : Safely x (j.holding m a) (out.1, out.2.holding m' a')) : Mirrors x j m a out := ⟨m', a', h⟩

theorem Mirrors.free : Mirrors free j m a ((), j.free) := Mirrors.of (step_safely rfl)

theorem Mirrors.bind {β : Type} {x : Prog Buf Job α} {f : α → Prog Buf Job β} {r : α} {j' : Job}
    {m' a' : Mem} {out : β × Job} (hx : Safely x (j.holding m a) (r, j'.holding m' a'))
    (hf : Mirrors (f r) j' m' a' out) : Mirrors (x >>= f) j m a out := by
  obtain ⟨m'', a'', hrun⟩ := hf
  exact ⟨m'', a'', hx.bind hrun⟩

section write

variable {b : Buf} {c : Mem} (hcap : b.cap = neJumboFrameMax) (hc : Buffers.get (j.holding m a) b = c)
  (hlen : len ≤ neJumboFrameMax)

include hcap hc hlen

theorem bytesAll_safely : Safely (bytes b len 0 len) (j.holding m a) (c.read 0 len, j.holding m a) := by
  rw [← hc]
  exact Does.bytes (show 0 + len ≤ len ∧ len ≤ b.cap from ⟨by omega, by rw [hcap]; exact hlen⟩) _

theorem nePacketWrite_safely :
    Safely (nePacketWrite b len) (j.holding m a) ((j.write c len).1, (j.write c len).2.holding m a) := by
  have hbytes : (Mem.ofList (c.read 0 len)).read 0 len = c.read 0 len :=
    Mem.read_ofList _ (Mem.length_read ..)
  refine (bytesAll_safely hcap hc hlen).bind ?_
  rw [Job.write, ← nePacketWrite_congr hbytes]
  exact step_safely rfl

theorem nePacketWriteTail_safely :
    Safely (nePacketWriteTail b len) (j.holding m a)
      (((NetworkEncryptor.nePacketWrite j.fwd.pair NePacket.zero c len).1,
        (NetworkEncryptor.nePacketWrite j.fwd.pair NePacket.zero c len).2.2),
        { j with fwd := { j.fwd with
          pair := (NetworkEncryptor.nePacketWrite j.fwd.pair NePacket.zero c len).2.1 } }.holding m a) := by
  have hbytes : (Mem.ofList (c.read 0 len)).read 0 len = c.read 0 len :=
    Mem.read_ofList _ (Mem.length_read ..)
  refine (bytesAll_safely hcap hc hlen).bind ?_
  rw [← nePacketWrite_congr hbytes]
  exact step_safely rfl

end write

theorem encryptSingle_mirrors {env : Env} {proto : L2CryptoProto} (hlen : len ≤ 9014) :
    Mirrors (encryptSingle env proto len) j j.self.cryptoBuf a
      (NetworkEncryptor.encryptSingle env j proto len) := by
  unfold encryptSingle NetworkEncryptor.encryptSingle
  refine Mirrors.bind (step_safely rfl) ?_
  obtain ⟨m', hrun, heq⟩ := @l2CryptoEncrypt_safely env j.fwd.crypto j j.l2 j.self.cryptoBuf a len
    proto hlen
  generalize NetworkEncryptor.l2CryptoEncrypt env proto j.fwd.crypto j.self.cryptoBuf len j.l2 = out
    at hrun heq ⊢
  obtain ⟨r, s⟩ := out
  cases r with
  | none => exact ⟨m', a, hrun.bind (Does.pure _ _)⟩
  | some r =>
      obtain ⟨buf, n⟩ := r
      obtain rfl : buf = m' := heq _ rfl
      refine @Mirrors.bind _ _ _ _ _ _ _ _ ((j.setL2 s).withBuf buf) buf a _ hrun ?_
      simp only [Option.map_some]
      by_cases hmax : n > ethHeaderSize + l2CryptoMtu
      · simp only [if_pos hmax]; exact Mirrors.stop _
      · simp only [if_neg hmax]
        have hn : n ≤ neJumboFrameMax := by simp at hmax ⊢; omega
        exact Mirrors.bind (nePacketWrite_safely rfl (get_cryptoBuf ..) hn) (Mirrors.stop _)

/-- Both halves fit a buffer. -/
theorem l2Split_lengths {env : Env} {ctx : PacketCryptoCtx} {n0 n1 : Nat} {s s' : L2State}
    {r : SplitFrames} (hlen : len ≤ 9014)
    (h : NetworkEncryptor.l2Split env ctx m len n0 a n1 s = (some r, s')) :
    r.firstLen ≤ neJumboFrameMax ∧ r.secondLen ≤ neJumboFrameMax := by
  obtain ⟨-, -, s2, ⟨-, -, -, -, hsecond, -⟩, -, -, -, -, hfirst, -⟩ := l2Split_eq_some h
  rw [hfirst, hsecond, Mem.length_read, Mem.length_read, splitPoint]
  simp
  omega

/-- Pushing the pair leaves the buffers alone. -/
theorem pushSplitToWan_holding {l1 l2 wanDp : Nat} {tail : NePacket} :
    pushSplitToWan (j.holding m a) l1 tail l2 wanDp =
      ((pushSplitToWan j l1 tail l2 wanDp).1, (pushSplitToWan j l1 tail l2 wanDp).2.holding m a) := by
  simp only [pushSplitToWan, holding_fwd, holding_pkt, holding_tls]
  by_cases hroom : wanDp ≥ j.fwd.wanCount ∨
      neRingCount (j.fwd.midToWan wanDp j.self.tls.outRingIdx) + 2 >
        (j.fwd.midToWan wanDp j.self.tls.outRingIdx).cap
  · simp only [if_pos hroom]; rfl
  by_cases hlens : l1 = 0 ∨ l2 = 0 ∨ l1 > neJumboFrameMax ∨ l2 > neJumboFrameMax
  · simp only [if_neg hroom, if_pos hlens]; rfl
  simp only [if_neg hroom, if_neg hlens]
  generalize neRingTryPushPair _ _ _ = pushed
  cases pushed <;> rfl

/-- Both halves are written to packets, and these pushed together. -/
theorem pushHalves_mirrors {l1 l2 wanDp : Nat} (hl1 : l1 ≤ neJumboFrameMax) (hl2 : l2 ≤ neJumboFrameMax) :
    Mirrors (do
        let ok ← nePacketWrite .cryptoBuf l1
        if !ok then
          freeTail NePacket.zero
          return .fail
        let (ok, tail) ← nePacketWriteTail .cryptoAux l2
        if !ok then
          freeTail tail
          return .fail
        let ok ← step fun j => pushSplitToWan j l1 tail l2 wanDp
        return if ok then .pushed else .fail) j m a
      (let w := j.write m l1
      if w.1 then
        let t := NetworkEncryptor.nePacketWrite w.2.fwd.pair NePacket.zero a l2
        let j := { w.2 with fwd := { w.2.fwd with pair := t.2.1 } }
        if t.1 then
          let q := pushSplitToWan j l1 t.2.2 l2 wanDp
          (if q.1 then EncResult.pushed else .fail, q.2)
        else (.fail, { j with fwd := { j.fwd with pair := (nePacketFree j.fwd.pair t.2.2).1 } })
      else
        (.fail, { w.2 with fwd := { w.2.fwd with
          pair := (nePacketFree w.2.fwd.pair NePacket.zero).1 } })) := by
  refine Mirrors.bind (nePacketWrite_safely rfl (get_cryptoBuf ..) hl1) ?_
  generalize j.write m l1 = w
  obtain ⟨ok, j'⟩ := w
  cases ok with
  | false =>
      simp only [Bool.not_false, if_true, Bool.false_eq_true, if_false]
      exact Mirrors.bind (step_safely rfl) (Mirrors.stop _)
  | true =>
      simp only [Bool.not_true, Bool.false_eq_true, if_false, if_true]
      refine Mirrors.bind (nePacketWriteTail_safely rfl (get_cryptoAux ..) hl2) ?_
      generalize NetworkEncryptor.nePacketWrite j'.fwd.pair NePacket.zero a l2 = t
      obtain ⟨ok, p, tail⟩ := t
      cases ok with
      | false =>
          simp only [Bool.not_false, if_true, Bool.false_eq_true, if_false]
          exact Mirrors.bind (step_safely rfl) (Mirrors.stop _)
      | true =>
          simp only [Bool.not_true, Bool.false_eq_true, if_false, if_true]
          exact Mirrors.bind (step_safely pushSplitToWan_holding) (Mirrors.stop _)

theorem encryptSplit_mirrors {env : Env} {wanDp : Nat} (hlen : len ≤ 9014) :
    Mirrors (encryptSplit env len wanDp) j j.self.cryptoBuf j.self.cryptoAux
      (NetworkEncryptor.encryptSplit env j len wanDp) := by
  unfold encryptSplit NetworkEncryptor.encryptSplit l2CryptoSplitUdp
  refine Mirrors.bind (step_safely rfl) ?_
  obtain ⟨m', a', hrun, heq⟩ := @l2Split_safely env j.fwd.crypto j j.l2 j.self.cryptoBuf
    j.self.cryptoAux len neJumboFrameMax neJumboFrameMax (by simp; omega) (Nat.le_refl _) (Nat.le_refl _)
  cases hout : NetworkEncryptor.l2Split env j.fwd.crypto j.self.cryptoBuf len neJumboFrameMax
    j.self.cryptoAux neJumboFrameMax j.l2 with
  | mk r s =>
  rw [hout] at hrun heq
  cases r with
  | none => exact ⟨m', a', hrun.bind (Does.pure _ _)⟩
  | some r =>
      obtain ⟨hl1, hl2⟩ := l2Split_lengths hlen hout
      obtain ⟨rfl, rfl⟩ := heq r rfl
      let j' := { j.setL2 s with
        self := { (j.setL2 s).self with cryptoBuf := r.first, cryptoAux := r.second } }
      exact @Mirrors.bind _ _ _ _ _ _ _ _ j' r.first r.second _ hrun (pushHalves_mirrors hl1 hl2)

theorem cell_cryptoBuf : Buffers.Cell Buf Job .cryptoBuf :=
  ⟨fun _ _ => rfl, fun _ _ _ => rfl, fun _ => rfl⟩

theorem clampMss_safely {proto : L2CryptoProto} (hlen : len ≤ neJumboFrameMax) :
    Safely (clampMss proto len) (j.holding m a) ((), j.holding (egressBuf proto m len) a) := by
  unfold clampMss egressBuf
  by_cases hproto : proto ≠ .udp
  · rw [if_pos hproto, if_pos hproto]
    have hclamp := @cryptoTcpClampMss_does _ _ _ Access.InRange Buf.cryptoBuf len cell_cryptoBuf
      l2CryptoMtu l2CryptoDataOverhead (j.holding m a) (fun off n h => ⟨h.1, hlen⟩)
      (fun off n h => Nat.le_trans h.1 hlen)
      (fun ihl hihl _ => ⟨show ihl ≤ 9000 by omega, show 20 ≤ 9000 - ihl by omega,
        show l2CryptoDataOverhead ≤ 9000 - ihl - 20 by simp; omega⟩)
    exact hclamp.bind (Does.pure _ _)
  · rw [if_neg hproto, if_neg hproto]
    exact Does.pure _ _

theorem txSeqStep_safely {flowOk : Bool} (hlen : len ≤ neJumboFrameMax) :
    Safely (txSeqStep len flowOk) (j.holding m a)
      ((NetworkEncryptor.txSeqStep j m len flowOk).1,
        (NetworkEncryptor.txSeqStep j m len flowOk).2.holding m a) := by
  unfold txSeqStep NetworkEncryptor.txSeqStep
  cases flowOk with
  | false => exact Does.pure _ _
  | true =>
      refine (dpUdpNextTxSeq_safely hlen).bind ?_
      simp only [Bool.not_true, Bool.false_eq_true, if_false]
      generalize NetworkEncryptor.dpUdpNextTxSeq j.fwd.route j.self.tls m len = r
      obtain ⟨seq, rt, tls⟩ := r
      cases seq with
      | none => exact Does.pure _ _
      | some seq => exact step_safely rfl

/-- The job gets to the encoder as it does in the model. -/
theorem seqStep_safely {proto : L2CryptoProto} {flowOk : Bool} (hlen : j.pkt.len ≤ neJumboFrameMax) :
    Safely (seqStep proto j.pkt.len flowOk)
      (j.holding (egressBuf proto j.self.cryptoBuf j.pkt.len) a)
      ((txStart j proto flowOk).1,
        (txStart j proto flowOk).2.holding (egressBuf proto j.self.cryptoBuf j.pkt.len) a) := by
  unfold seqStep txStart
  split
  · exact @txSeqStep_safely (j.withBuf (egressBuf proto j.self.cryptoBuf j.pkt.len)) _ a _ _ hlen
  · exact Does.pure _ _

/-- Drawing a number leaves the buffers alone. -/
theorem txSeqStep_buffers (j : Job) (pkt : Mem) (flowOk : Bool) :
    (NetworkEncryptor.txSeqStep j pkt len flowOk).2.self.cryptoBuf = j.self.cryptoBuf ∧
      (NetworkEncryptor.txSeqStep j pkt len flowOk).2.self.cryptoAux = j.self.cryptoAux := by
  unfold NetworkEncryptor.txSeqStep
  cases flowOk with
  | false => exact ⟨rfl, rfl⟩
  | true =>
      generalize NetworkEncryptor.dpUdpNextTxSeq j.fwd.route j.self.tls pkt len = r
      obtain ⟨seq, rt, tls⟩ := r
      cases seq <;> exact ⟨rfl, rfl⟩

theorem txStart_buffers (j : Job) (proto : L2CryptoProto) (flowOk : Bool) :
    (txStart j proto flowOk).2.self.cryptoBuf = egressBuf proto j.self.cryptoBuf j.pkt.len ∧
      (txStart j proto flowOk).2.self.cryptoAux = j.self.cryptoAux := by
  unfold txStart
  split
  · exact txSeqStep_buffers _ _ flowOk
  · exact ⟨rfl, rfl⟩

theorem encryptToWan_mirrors {env : Env} {wanDp : Nat} {proto : L2CryptoProto} {flowOk : Bool}
    (hlen : j.pkt.len ≤ 9014) :
    Mirrors (encryptToWan env wanDp proto flowOk) j j.self.cryptoBuf j.self.cryptoAux
      (NetworkEncryptor.encryptToWan env j wanDp proto flowOk) := by
  have hcap : j.pkt.len ≤ neJumboFrameMax := by simp; omega
  unfold encryptToWan
  rw [encryptToWan_eq]
  refine Mirrors.bind (step_safely rfl) (Mirrors.bind (clampMss_safely hcap)
    (Mirrors.bind (seqStep_safely hcap) ?_))
  obtain ⟨hbuf, haux⟩ := txStart_buffers j proto flowOk
  rw [← hbuf, ← haux]
  generalize txStart j proto flowOk = q
  obtain ⟨ok, j'⟩ := q
  cases ok with
  | false => exact Mirrors.stop _
  | true =>
      simp only [Bool.not_true, Bool.false_eq_true, if_false]
      by_cases hsplit : l2CryptoNeedSplit proto j.pkt.len = true
      · simp only [if_pos hsplit]
        exact encryptSplit_mirrors hlen
      · simp only [if_neg hsplit]
        exact encryptSingle_mirrors hlen

theorem dpRingPush_holding {ring : NeRing} {put : NeRing → Forwarder → Forwarder}
    (hput : ∀ ring, (put ring j.fwd).epoch = j.fwd.epoch) :
    dpRingPush (j.holding m a) ring put =
      ((dpRingPush j ring put).1, (dpRingPush j ring put).2.holding m a) := by
  simp only [dpRingPush, holding_pkt, holding_fwd]
  by_cases hlen : j.pkt.len > neJumboFrameMax
  · simp only [if_pos hlen]; rfl
  · simp only [if_neg hlen]
    cases neRingTryPush ring j.pkt with
    | none => rfl
    | some ring =>
        simp only [Job.holding, Job.at, Job.l2, hput]
        rw [← hput ring]

theorem pushToWan_holding {wanDp : Nat} :
    pushToWan (j.holding m a) wanDp = ((pushToWan j wanDp).1, (pushToWan j wanDp).2.holding m a) :=
  @dpRingPush_holding { j with pkt := { j.pkt with dir := .wan, wanIdx := wanDp % 256 } } m a
    (j.fwd.midToWan wanDp j.self.tls.outRingIdx)
    (fun ring fwd => fwd.setMidToWan wanDp j.self.tls.outRingIdx ring) fun _ => rfl

theorem localRest_mirrors {env : Env} (hlen : j.pkt.len ≤ 9014) :
    Mirrors (localRest env) j j.self.cryptoBuf j.self.cryptoAux ((), NetworkEncryptor.localRest env j) := by
  have hcap : j.pkt.len ≤ neJumboFrameMax := by simp; omega
  have hflow : Safely (dpParseFlow .cryptoBuf j.pkt.len) (j.holding j.self.cryptoBuf j.self.cryptoAux)
      (NetworkEncryptor.dpParseFlow j.self.cryptoBuf j.pkt.len,
        j.holding j.self.cryptoBuf j.self.cryptoAux) := dpParseFlow_does (reads_of_fits hcap) _
  unfold localRest NetworkEncryptor.localRest
  refine Mirrors.bind (step_safely rfl) (Mirrors.bind hflow (Mirrors.bind (step_safely rfl) ?_))
  by_cases hwan : j.fwd.wanCount ≠ 1
  · simp only [if_pos hwan]
    exact Mirrors.free
  · simp only [if_neg hwan]
    obtain ⟨m', a', henc⟩ := @encryptToWan_mirrors j env 0 (l2CryptoClassify
      (NetworkEncryptor.dpParseFlow j.self.cryptoBuf j.pkt.len).2.toNat)
      (NetworkEncryptor.dpParseFlow j.self.cryptoBuf j.pkt.len).1.isSome hlen
    refine Mirrors.bind henc ?_
    generalize NetworkEncryptor.encryptToWan env j 0 _ _ = out
    obtain ⟨r, j'⟩ := out
    cases r with
    | fail => exact Mirrors.free
    | pushed => exact Mirrors.stop _
    | inPlace => exact Mirrors.of (step_safely (by rw [pushToWan_holding]))

/-! ### WAN to LAN -/

theorem isUdpWire_safely (hlen : len ≤ neJumboFrameMax) :
    Safely (isUdpWire .cryptoBuf len) (j.holding m a)
      (NetworkEncryptor.isUdpWire m len, j.holding m a) := by
  have hfront : 14 ≤ len → Reads Access.InRange Buf.cryptoBuf len 14 :=
    fun h => (reads_of_fits hlen).front h
  unfold isUdpWire NetworkEncryptor.isUdpWire
  refine Does.bind (hasMarker_safely hlen) ?_
  by_cases hmark : (!NetworkEncryptor.cryptoEthL2HasMarker m len) = true
  · simp only [if_pos hmark]; exact Does.pure _ _
  · simp only [if_neg hmark]
    refine (cryptoEthL2FragMagicOff_does hfront _ _).bind ?_
    rw [(view_buf j a).get]
    cases NetworkEncryptor.cryptoEthL2FragMagicOff m len packetCryptoNonceBytes with
    | none => exact Does.pure _ _
    | some off =>
        by_cases hoff : len ≥ off + 4
        · simp only [hoff, not_true_eq_false, if_false, decide_true, Bool.true_and]
          exact (Does.bytes (reads_of_fits hlen off 4 hoff) _).bind (Does.pure _ _)
        · simp only [hoff, not_false_eq_true, if_true, decide_false, Bool.false_and]
          exact Does.pure _ _

theorem forwardLocal_holding :
    forwardLocal (j.holding m a) = ((forwardLocal j).1, (forwardLocal j).2.holding m a) := by
  unfold forwardLocal
  rw [holding_fwd]
  by_cases hcount : j.fwd.localCount ≠ 1
  · simp only [if_pos hcount]
  · simp only [if_neg hcount]
    exact @dpRingPush_holding { j with pkt := { j.pkt with dir := .local, localIdx := 0 } } m a
      (j.fwd.midToLocal 0 j.self.tls.outRingIdx)
      (fun ring fwd => fwd.setMidToLocal 0 j.self.tls.outRingIdx ring) fun _ => rfl

/-- The packet is pushed, or freed. -/
theorem forwardOrFree_mirrors :
    Mirrors (do
        let ok ← step forwardLocal
        if ok then return () else free) j m a
      ((), if (forwardLocal j).1 then (forwardLocal j).2 else (forwardLocal j).2.free) := by
  refine Mirrors.bind (step_safely forwardLocal_holding) ?_
  generalize forwardLocal j = f
  obtain ⟨ok, j'⟩ := f
  cases ok with
  | false => exact Mirrors.free
  | true => exact Mirrors.stop _

/-- The record of the flow. -/
theorem keepFlow_safely {b : Buf} {c : Mem} (hc : Buffers.get (j.holding m a) b = c) :
    Safely (step fun j : Job => ((), { j with pkt := { j.pkt with
        flow := (NetworkEncryptor.dpParseFlow (Buffers.get j b) len).1 } })) (j.holding m a)
      ((), { j with pkt := { j.pkt with flow := (NetworkEncryptor.dpParseFlow c len).1 } }.holding m a) := by
  rw [← hc]
  exact Does.step _ _

section deliver

variable {b : Buf} {c : Mem} {workerIdx : Nat} (hcap : b.cap = neJumboFrameMax)
  (hc : ∀ j : Job, Buffers.get (j.holding m a) b = c)

include hcap hc

theorem routeLocal_mirrors (hlen : j.pkt.len ≤ neJumboFrameMax) :
    Mirrors (routeLocal b workerIdx) j m a ((), NetworkEncryptor.routeLocal j c workerIdx) := by
  have hr : Reads Access.InRange b j.pkt.len j.pkt.len := reads_of_fits (by rw [hcap]; exact hlen)
  unfold routeLocal NetworkEncryptor.routeLocal NetworkEncryptor.dpFlowPickTxSlot
  exact Mirrors.bind (step_safely rfl) (Mirrors.bind
    ((dpFlowRouteGet_safely hr (hc j)).bind (Does.pure _ _)) (Mirrors.bind (route_safely _)
      (Mirrors.bind (keepFlow_safely (hc _)) forwardOrFree_mirrors)))

theorem deliverLocal_mirrors (hlen : len ≤ neJumboFrameMax) :
    Mirrors (deliverLocal b len workerIdx) j m a
      ((), NetworkEncryptor.deliverLocal j c len workerIdx) := by
  unfold deliverLocal NetworkEncryptor.deliverLocal
  refine Mirrors.bind (nePacketWrite_safely hcap (hc j) hlen) ?_
  cases hw : j.write c len with
  | mk ok j' =>
  cases ok with
  | false => exact Mirrors.free
  | true =>
      have hpkt : j'.pkt.len = len := by
        unfold Job.write at hw
        rw [Prod.mk.injEq] at hw
        have hlen := nePacketWrite_len (Prod.ext hw.1 rfl)
        rw [← hw.2]
        exact hlen.1
      exact routeLocal_mirrors hcap hc (by rw [hpkt]; exact hlen)

end deliver

/-- A decrypted packet is no longer than the frame it came in. -/
theorem l2TcpDecrypt_len {env : Env} {ctx : PacketCryptoCtx} {buf : Mem} {n : Nat}
    (h : NetworkEncryptor.l2TcpDecrypt env ctx m len = some (buf, n)) : n ≤ len := by
  unfold NetworkEncryptor.l2TcpDecrypt at h
  split at h
  · cases h
  · split at h
    · cases h; exact Nat.le_refl _
    · obtain ⟨-, plain, ⟨-, -, h43, hdec⟩, -, rfl⟩ := l2DoDecrypt_eq_some_iff.mp h
      have hl := env.gcm.length_decrypt hdec
      rw [Mem.length_read] at hl
      omega

theorem wanRest_mirrors {env : Env} {workerIdx : Nat} (hlen : j.pkt.len ≤ neJumboFrameMax)
    (hfit : TablesFit j.fwd.tables) :
    Mirrors (wanRest env workerIdx) j j.self.cryptoBuf j.self.cryptoAux
      ((), NetworkEncryptor.wanRest env workerIdx j) := by
  unfold wanRest NetworkEncryptor.wanRest
  refine Mirrors.bind (step_safely rfl) (Mirrors.bind (step_safely rfl)
    (Mirrors.bind (hasMarker_safely hlen) ?_))
  by_cases hmark : (!NetworkEncryptor.cryptoEthL2HasMarker j.self.cryptoBuf j.pkt.len) = true
  · simp only [if_pos hmark]
    exact Mirrors.free
  simp only [if_neg hmark]
  refine Mirrors.bind (isUdpWire_safely hlen) ?_
  by_cases hudp : NetworkEncryptor.isUdpWire j.self.cryptoBuf j.pkt.len = true
  · simp only [if_pos hudp]
    obtain ⟨m', a', hrun, hdone⟩ := @l2CryptoReassembleUdp_safely env j.fwd.crypto j j.l2
      j.self.cryptoBuf j.self.cryptoAux j.pkt.len workerIdx hlen hfit
    generalize NetworkEncryptor.l2CryptoReassembleUdp env j.fwd.crypto j.fwd.tables workerIdx
      j.self.cryptoBuf j.pkt.len j.self.cryptoAux = q at hrun hdone ⊢
    obtain ⟨tables, r⟩ := q
    cases r with
    | fail => exact @Mirrors.bind _ _ _ _ _ _ _ _ (j.setTables tables) m' a' _ hrun Mirrors.free
    | wait => exact @Mirrors.bind _ _ _ _ _ _ _ _ (j.setTables tables) m' a' _ hrun Mirrors.free
    | done out outLen =>
        obtain ⟨rfl, hout⟩ := hdone out outLen rfl
        let j' := { j.setTables tables with self := { j.self with cryptoAux := out } }
        exact @Mirrors.bind _ _ _ _ _ _ _ _ j' m' out _ hrun
          (deliverLocal_mirrors rfl (fun k => get_cryptoAux k m' out) hout)
  · simp only [if_neg hudp]
    obtain ⟨m', hrun, heq⟩ := @l2TcpDecrypt_safely env j.fwd.crypto j j.l2 j.self.cryptoBuf
      j.self.cryptoAux j.pkt.len hlen
    have hdata : NetworkEncryptor.l2CryptoDecrypt env .data j.fwd.crypto j.self.cryptoBuf j.pkt.len =
        NetworkEncryptor.l2TcpDecrypt env j.fwd.crypto j.self.cryptoBuf j.pkt.len := rfl
    rw [hdata]
    cases hdec : NetworkEncryptor.l2TcpDecrypt env j.fwd.crypto j.self.cryptoBuf j.pkt.len with
    | none =>
        rw [hdec] at hrun
        exact Mirrors.bind hrun Mirrors.free
    | some r =>
        obtain ⟨buf, n⟩ := r
        rw [hdec] at hrun
        obtain rfl : buf = m' := heq _ hdec
        exact @Mirrors.bind _ _ _ _ _ _ _ _ (j.withBuf buf) buf j.self.cryptoAux _ hrun
          (deliverLocal_mirrors rfl (fun k => get_cryptoBuf k buf _)
            (Nat.le_trans (l2TcpDecrypt_len hdec) hlen))

/-- With the epoch copied, the job is one that holds its own buffers. -/
theorem Mirrors.synced {x : Prog Buf Job α} {out : α × Job}
    (h : Mirrors x j j.self.cryptoBuf j.self.cryptoAux out) :
    ∃ m a, Safely (do syncEpoch; x) j (out.1, out.2.holding m a) := by
  obtain ⟨m, a, hrun⟩ := h
  exact ⟨m, a, Does.bind (Does.step _ j) hrun⟩

theorem dataplaneProcessLocal_safely (env : Env) (hlen : j.pkt.len ≤ 9014) :
    ∃ m a, Safely (dataplaneProcessLocal env) j ((), (NetworkEncryptor.localRest env j).holding m a) :=
  Mirrors.synced (localRest_mirrors hlen)

theorem dataplaneProcessWan_safely (env : Env) (workerIdx : Nat) (hlen : j.pkt.len ≤ neJumboFrameMax)
    (hfit : TablesFit j.fwd.tables) :
    ∃ m a, Safely (dataplaneProcessWan env workerIdx) j
      ((), (NetworkEncryptor.wanRest env workerIdx j).holding m a) :=
  Mirrors.synced (wanRest_mirrors hlen hfit)

end Code

/-! ## the two paths -/

/-- Behind the linearization, the program for the LAN leaves what `dataplane_process_local`
of the model leaves, the two buffers apart. -/
theorem processLocal_refines {env : Env} {j : Job} {m : Mem} (hlen : j.pkt.len ≤ 9014)
    (h : nePacketLinearize j.fwd.pair j.pkt j.self.cryptoBuf neJumboFrameMax = (true, m)) :
    ∃ m' a', ((Code.dataplaneProcessLocal env).run (j.withBuf m)).2 =
      (dataplaneProcessLocal env j).holding m' a' := by
  rw [dataplaneProcessLocal_of_linearized h]
  obtain ⟨m', a', hrun, -⟩ := @Code.dataplaneProcessLocal_safely (j.withBuf m) env hlen
  exact ⟨m', a', by rw [hrun]⟩

/-- The same for the WAN, on the tables of a running process. -/
theorem processWan_refines {env : Env} {j : Job} {m : Mem} {workerIdx : Nat} (hlen : j.pkt.len ≤ 9014)
    (htables : ReachableTables j.fwd.tables) (hw : j.self.tls.cryptoWorkerIdx = some workerIdx)
    (hlt : workerIdx < neCryptoWorkers)
    (h : nePacketLinearize j.fwd.pair j.pkt j.self.cryptoBuf neJumboFrameMax = (true, m)) :
    ∃ m' a', ((Code.dataplaneProcessWan env workerIdx).run (j.withBuf m)).2 =
      (dataplaneProcessWan env j).holding m' a' := by
  rw [dataplaneProcessWan_of_linearized hw hlt h]
  obtain ⟨m', a', hrun, -⟩ := @Code.dataplaneProcessWan_safely (j.withBuf m) env workerIdx
    (by change j.pkt.len ≤ 9216; omega) htables.fit
  exact ⟨m', a', by rw [hrun]⟩

/-- Whatever is in `crypto_buf`, as long as the packet is no longer than the BPF programs
let through: on both paths every byte that is read is one of the packet, every byte
that is written is in its buffer, and no length underflows. -/
theorem accesses_in_range (env : Env) (j : Job) (hlen : j.pkt.len ≤ 9014)
    (htables : ReachableTables j.fwd.tables) :
    (∀ x ∈ (Code.dataplaneProcessLocal env).accesses j, x.InRange) ∧
      ∀ workerIdx, ∀ x ∈ (Code.dataplaneProcessWan env workerIdx).accesses j, x.InRange := by
  constructor
  · obtain ⟨m, a, -, hall⟩ := Code.dataplaneProcessLocal_safely env hlen
    exact hall
  · intro workerIdx
    obtain ⟨m, a, -, hall⟩ :=
      Code.dataplaneProcessWan_safely env workerIdx (by simp; omega) htables.fit
    exact hall

/-- The first worker has the echo request in `crypto_buf`. -/
def pingInBuf : Job := (sampleJob 0 samplePing).withBuf (Mem.ofList samplePing)

/-- Twenty-six accesses make a wire frame of 73 bytes of it. -/
theorem accesses_in_range_ping :
    ((Code.dataplaneProcessLocal (sampleEnv firstWorker)).accesses pingInBuf).length = 26 ∧
      (Access.read .cryptoBuf 0 73 73 ∈
        (Code.dataplaneProcessLocal (sampleEnv firstWorker)).accesses pingInBuf) ∧
      ∀ x ∈ (Code.dataplaneProcessLocal (sampleEnv firstWorker)).accesses pingInBuf, x.InRange :=
  ⟨by decide +kernel, by decide +kernel,
    (accesses_in_range (sampleEnv firstWorker) pingInBuf (by decide) .init).1⟩

end NetworkEncryptor
