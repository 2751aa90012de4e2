import NetworkEncryptor.L2Crypto
import Mathlib.Logic.Function.Basic

/-!
# NetworkEncryptor.CryptoRoute

`src/core/dataplane/crypto_route.c` and `dp_parse_flow` of `packet_util.c`:
which worker and which TX slot a packet belongs to, and the sequence number of
the next UDP datagram of a flow.

TCP and UDP flows are kept in a set-associative table under a key that is the
same for both directions.  An entry is written once and never changed or
removed; a flow whose set is full falls back to the hash of its key.  A lookup
here is one atomic step.
-/

namespace NetworkEncryptor

/-! ## flows -/

/-- What `dp_parse_flow` extracts; addresses and ports in host byte order. -/
structure Flow where
  srcIp : UInt32
  dstIp : UInt32
  srcPort : UInt16
  dstPort : UInt16
  proto : UInt8
  deriving DecidableEq

/-- `dp_parse_flow`: the flow if it returns 0, and in any case what it has left
in `*proto`, which its callers start at zero. -/
def dpParseFlow (pkt : Mem) (pktLen : Nat) : Option Flow × UInt8 :=
  match cryptoEthIpv4Offset pkt pktLen with
  | none => (none, 0)
  | some l3Off =>
      let ihl := (pkt l3Off).toNat % 16 * 4
      if ihl < 20 ∨ pktLen < l3Off + ihl then (none, 0)
      else
        let srcIp := readBe32 pkt (l3Off + 12)
        let dstIp := readBe32 pkt (l3Off + 16)
        let proto := pkt (l3Off + 9)
        if proto.toNat = ipprotoTcp ∨ proto.toNat = ipprotoUdp then
          let l4 := l3Off + ihl
          if pktLen < l4 + 4 then (none, proto)
          else (some ⟨srcIp, dstIp, UInt16.ofNat (ethReadEt pkt l4),
            UInt16.ofNat (ethReadEt pkt (l4 + 2)), proto⟩, proto)
        else (some ⟨srcIp, dstIp, 0, 0, proto⟩, proto)

def dpFlowHashMix (srcIp dstIp : UInt32) (srcPort dstPort : UInt16) (protocol : UInt8) : UInt32 :=
  let hash := srcIp ^^^ dstIp
  let hash := hash ^^^ ((srcPort.toUInt32 <<< 16) ||| dstPort.toUInt32)
  let hash := hash ^^^ protocol.toUInt32
  let hash := hash ^^^ (hash >>> 16)
  let hash := hash * 0x85ebca6b
  let hash := hash ^^^ (hash >>> 13)
  let hash := hash * 0xc2b2ae35
  hash ^^^ (hash >>> 16)

def dpHashToN (hash n : UInt32) : Nat :=
  if n = 0 then 0
  else if n &&& (n - 1) = 0 then (hash &&& (n - 1)).toNat
  else (hash % n).toNat

/-- The hash of a packet; one without a flow is hashed by its length and its
first fourteen bytes. -/
def dpPktFlowHash (pkt : Mem) (len : Nat) : UInt32 :=
  if len < 14 then 0
  else
    match (dpParseFlow pkt len).1 with
    | none =>
        let hash := (pkt.read 0 14).foldl (fun h b => h * 31 + b.toUInt32) (UInt32.ofNat len)
        dpFlowHashMix hash (hash >>> 16) (UInt16.ofNat len) 0 0
    | some f => dpFlowHashMix f.srcIp f.dstIp f.srcPort f.dstPort f.proto

/-! ## route keys -/

/-- `struct dp_route_key`. -/
structure RouteKey where
  ipA : UInt32
  ipB : UInt32
  portA : UInt16
  portB : UInt16
  protocol : UInt8
  deriving DecidableEq

/-- `dp_route_key_from_tuple`: the key and the direction, `true` when the
endpoints were swapped. -/
def dpRouteKeyFromTuple (f : Flow) : Option (RouteKey × Bool) :=
  if f.proto.toNat ≠ ipprotoTcp ∧ f.proto.toNat ≠ ipprotoUdp then none
  else if f.srcIp > f.dstIp ∨ (f.srcIp = f.dstIp ∧ f.srcPort > f.dstPort) then
    some (⟨f.dstIp, f.srcIp, f.dstPort, f.srcPort, f.proto⟩, true)
  else some (⟨f.srcIp, f.dstIp, f.srcPort, f.dstPort, f.proto⟩, false)

def dpRouteKeyParseDirection (pkt : Mem) (len : Nat) : Option (RouteKey × Bool) :=
  match (dpParseFlow pkt len).1 with
  | none => none
  | some f => dpRouteKeyFromTuple f

def dpRouteKeyParse (pkt : Mem) (len : Nat) : Option RouteKey :=
  (dpRouteKeyParseDirection pkt len).map (·.1)

def dpRouteKeyHash (key : RouteKey) : UInt32 :=
  dpFlowHashMix key.ipA key.ipB key.portA key.portB key.protocol

/-! ## the route table -/

def dpRouteSetCount : Nat := 8192
def dpRouteWays : Nat := 8

/-- `struct dp_route_entry`. -/
structure RouteEntry where
  key : RouteKey
  udpTxSeq : Bool → UInt32
  workerIdx : Nat
  txSlot : Nat
  valid : Bool

/-- The process-wide routing state. -/
structure RouteState where
  table : Nat → Nat → RouteEntry
  workerConnectionCount : Nat → UInt64
  txConnectionCount : Nat → UInt64
  workerRr : UInt32
  txRr : UInt32
  activeTxSlots : UInt32

/-- `g_route_table` and its counters at program start. -/
def RouteState.init : RouteState :=
  { table := fun _ _ => ⟨⟨0, 0, 0, 0, 0⟩, fun _ => 0, 0, 0, false⟩,
    workerConnectionCount := fun _ => 0, txConnectionCount := fun _ => 0,
    workerRr := 0, txRr := 0, activeTxSlots := UInt32.ofNat neTxSlots }

def RouteState.setEntry (rt : RouteState) (set way : Nat) (e : RouteEntry) : RouteState :=
  { rt with table := Function.update rt.table set (Function.update (rt.table set) way e) }

def dpActiveTxSlots (rt : RouteState) : UInt32 :=
  if rt.activeTxSlots > 0 ∧ rt.activeTxSlots.toNat ≤ neTxSlots then rt.activeTxSlots else 1

def dpRouteSetActiveTxSlots (rt : RouteState) (slots : UInt32) : RouteState :=
  let slots := if slots = 0 then 1 else slots
  let slots := if slots.toNat > neTxSlots then UInt32.ofNat neTxSlots else slots
  { rt with activeTxSlots := slots }

/-- `struct dp_flow_route`. -/
structure FlowRoute where
  workerIdx : Nat
  txSlot : Nat
  deriving DecidableEq

/-- The scan of `dp_route_least_loaded` from `cursor` on; the caller stores
`cursor + 1`. -/
def dpRouteLeastLoaded (counts : Nat → UInt64) (count : Nat) (cursor : UInt32) : Nat :=
  ((List.range count).foldl (fun (best : UInt64 × Nat) off =>
    let idx := ((cursor + UInt32.ofNat off) % UInt32.ofNat count).toNat
    if counts idx < best.1 then (counts idx, idx) else best) (0xFFFFFFFFFFFFFFFF, 0)).2

/-- The set a key lives in. -/
def routeSet (key : RouteKey) : Nat := (dpRouteKeyHash key).toNat % dpRouteSetCount

/-- The way that holds `key`. -/
def routeFind (rt : RouteState) (key : RouteKey) : Option Nat :=
  (List.range dpRouteWays).find? fun way =>
    (rt.table (routeSet key) way).valid && (rt.table (routeSet key) way).key = key

/-- The first free way of the set of `key`. -/
def routeEmpty (rt : RouteState) (key : RouteKey) : Option Nat :=
  (List.range dpRouteWays).find? fun way => !(rt.table (routeSet key) way).valid

/-- What a flow gets that is not in the table and cannot be put into it. -/
def hashRoute (rt : RouteState) (hash : UInt32) : FlowRoute :=
  ⟨dpHashToN hash (UInt32.ofNat neCryptoWorkers), dpHashToN hash (dpActiveTxSlots rt)⟩

/-- Write a new entry into the free way `empty`. -/
def routeInsert (rt : RouteState) (key : RouteKey) (workerHint : Option Nat) (empty : Nat) :
    FlowRoute × RouteState :=
  let hinted := match workerHint with
    | some w => if w < neCryptoWorkers then some w else none
    | none => none
  let worker := match hinted with
    | some w => w
    | none => dpRouteLeastLoaded rt.workerConnectionCount neCryptoWorkers rt.workerRr
  let slot := dpRouteLeastLoaded rt.txConnectionCount (dpActiveTxSlots rt).toNat rt.txRr
  let rt' := rt.setEntry (routeSet key) empty ⟨key, fun _ => 0, worker % 256, slot % 256, true⟩
  (⟨worker, slot⟩,
    { rt' with
      workerConnectionCount := Function.update rt.workerConnectionCount worker
        (rt.workerConnectionCount worker + 1)
      txConnectionCount := Function.update rt.txConnectionCount slot
        (rt.txConnectionCount slot + 1)
      workerRr := if hinted.isSome then rt.workerRr else rt.workerRr + 1
      txRr := rt.txRr + 1 })

def dpFlowRouteGetKey (rt : RouteState) (key : RouteKey) (workerHint : Option Nat) :
    FlowRoute × RouteState :=
  match routeFind rt key with
  | some way =>
      let e := rt.table (routeSet key) way
      (⟨e.workerIdx, e.txSlot⟩, rt)
  | none =>
      match routeEmpty rt key with
      | none => (hashRoute rt (dpRouteKeyHash key), rt)
      | some empty => routeInsert rt key workerHint empty

def dpFlowRouteGet (rt : RouteState) (pkt : Mem) (len : Nat) (workerHint : Option Nat) :
    FlowRoute × RouteState :=
  match dpRouteKeyParse pkt len with
  | none => (hashRoute rt (dpPktFlowHash pkt len), rt)
  | some key => dpFlowRouteGetKey rt key workerHint

/-- The route of a LAN packet: worker and TX slot. -/
def dpCryptoPickLocalWorker (rt : RouteState) (pkt : Mem) (len : Nat) : FlowRoute × RouteState :=
  dpFlowRouteGet rt pkt len none

def dpFlowPickTxSlot (rt : RouteState) (pkt : Mem) (len : Nat) (workerHint : Option Nat) :
    Nat × RouteState :=
  let r := dpFlowRouteGet rt pkt len workerHint
  (r.1.txSlot, r.2)

/-- The slot of a packet that is handled without the table. -/
def dpPickTxSlot (rt : RouteState) (pkt : Mem) (len : Nat) : Nat :=
  match dpRouteKeyParse pkt len with
  | some key => dpHashToN (dpRouteKeyHash key) (dpActiveTxSlots rt)
  | none => dpHashToN (dpPktFlowHash pkt len) (dpActiveTxSlots rt)

/-! ## UDP sequence numbers -/

def dpUdpSeqFallbackSets : Nat := 256
def dpUdpSeqFallbackWays : Nat := 4

/-- `struct dp_udp_seq_fallback`. -/
structure UdpSeqFallback where
  key : RouteKey
  nextSeq : Bool → UInt32
  stamp : UInt32
  valid : Bool

/-- The thread-local state of this file. -/
structure RouteTls where
  cryptoWorkerIdx : Option Nat
  outRingIdx : Nat
  udpSeqFallback : Nat → Nat → UdpSeqFallback
  udpSeqStamp : UInt32

/-- A thread that has bound no worker. -/
def RouteTls.init : RouteTls :=
  { cryptoWorkerIdx := none, outRingIdx := 0,
    udpSeqFallback := fun _ _ => ⟨⟨0, 0, 0, 0, 0⟩, fun _ => 0, 0, false⟩, udpSeqStamp := 0 }

def dpOutRingBind (rt : RouteState) (ringIdx : Nat) (tls : RouteTls) : RouteTls :=
  { tls with outRingIdx := if ringIdx ≥ (dpActiveTxSlots rt).toNat then 0 else ringIdx }

def dpCryptoWorkerBind (rt : RouteState) (workerIdx : Nat) (tls : RouteTls) : RouteTls :=
  let w := if workerIdx ≥ neCryptoWorkers then 0 else workerIdx
  { tls with cryptoWorkerIdx := some w, outRingIdx := w % (dpActiveTxSlots rt).toNat }

/-- Draw the next number of an entry. -/
def routeBumpSeq (rt : RouteState) (set way : Nat) (dir : Bool) : UInt32 × RouteState :=
  let e := rt.table set way
  (e.udpTxSeq dir,
    rt.setEntry set way { e with udpTxSeq := Function.update e.udpTxSeq dir (e.udpTxSeq dir + 1) })

/-- The fallback scan: the way of the key, or the way to overwrite. -/
def fallbackScan (set : Nat → UdpSeqFallback) (key : RouteKey) : (ways way victim : Nat) → Nat ⊕ Nat
  | 0, _, victim => .inr victim
  | ways + 1, way, victim =>
      if (set way).valid = true ∧ (set way).key = key then .inl way
      else if (set way).valid = false then fallbackScan set key ways (way + 1) way
      else if (set way).stamp < (set victim).stamp then fallbackScan set key ways (way + 1) way
      else fallbackScan set key ways (way + 1) victim

/-- The worker-local sequence of a flow whose route set is saturated. -/
def dpUdpSeqFromFallback (tls : RouteTls) (key : RouteKey) (dir : Bool) : UInt32 × RouteTls :=
  let s := (dpRouteKeyHash key).toNat % dpUdpSeqFallbackSets
  let set := tls.udpSeqFallback s
  let stamp := tls.udpSeqStamp + 1
  match fallbackScan set key dpUdpSeqFallbackWays 0 0 with
  | .inl way =>
      let e := set way
      let e' := { e with stamp := stamp,
                         nextSeq := Function.update e.nextSeq dir (e.nextSeq dir + 1) }
      let table := Function.update tls.udpSeqFallback s (Function.update set way e')
      (e.nextSeq dir, { tls with udpSeqStamp := stamp, udpSeqFallback := table })
  | .inr victim =>
      let e' : UdpSeqFallback :=
        ⟨key, Function.update (fun _ => 0) dir 1, stamp, true⟩
      let table := Function.update tls.udpSeqFallback s (Function.update set victim e')
      (0, { tls with udpSeqStamp := stamp, udpSeqFallback := table })

/-- `dp_udp_next_tx_seq`; `none` is its `-1`. -/
def dpUdpNextTxSeq (rt : RouteState) (tls : RouteTls) (pkt : Mem) (len : Nat) :
    Option UInt32 × RouteState × RouteTls :=
  match dpRouteKeyParseDirection pkt len with
  | none => (none, rt, tls)
  | some (key, dir) =>
      if key.protocol.toNat ≠ ipprotoUdp ∧ key.protocol.toNat ≠ ipprotoIcmp then (none, rt, tls)
      else
        match routeFind rt key with
        | some way =>
            let r := routeBumpSeq rt (routeSet key) way dir
            (some r.1, r.2, tls)
        | none =>
            let rt := (dpFlowRouteGet rt pkt len tls.cryptoWorkerIdx).2
            match routeFind rt key with
            | some way =>
                let r := routeBumpSeq rt (routeSet key) way dir
                (some r.1, r.2, tls)
            | none =>
                let r := dpUdpSeqFromFallback tls key dir
                (some r.1, rt, r.2)

/-! ## the worker of a wire frame -/

def dpCryptoWorkerIdxForCpu (cpuId : UInt8) : Option Nat :=
  neCpuCrypto.findIdx? (· = cpuId.toNat)

/-- `dp_crypto_pick_wan_worker`: the worker named in the wire header. -/
def dpCryptoPickWanWorker (pkt : Mem) (len : Nat) : Option Nat :=
  match cryptoEthL2ReadWorkerIdx pkt len with
  | none => none
  | some wireId =>
      if wireId.toNat < neCryptoWorkers then some wireId.toNat
      else dpCryptoWorkerIdxForCpu wireId

/-- The worker of a wire frame whose header names an existing worker. -/
theorem dpCryptoPickWanWorker_eq {pkt : Mem} {len w : Nat}
    (het : ethReadEt pkt 12 = neL2FakeEthertype ∨ ethReadEt pkt 12 = neL2FakeEthertypeUdp)
    (hlen : 15 ≤ len) (hw : w < neCryptoWorkers) (hid : pkt 14 = UInt8.ofNat w) :
    dpCryptoPickWanWorker pkt len = some w := by
  have hmark : cryptoEthL2HasMarker pkt len = true :=
    cryptoEthL2HasMarker_iff.mpr ⟨by omega, het⟩
  have hoff : cryptoEthInnerEtOff pkt len = some 12 :=
    cryptoEthInnerEtOff_eq_some_iff.mpr ⟨rfl, by omega, .inr het⟩
  have hread : cryptoEthL2ReadWorkerIdx pkt len = some (UInt8.ofNat w) := by
    rw [cryptoEthL2ReadWorkerIdx, hmark, Bool.not_true, if_neg (by simp), cryptoEthL2CoreIdOff, hoff]
    simp only [if_neg (show ¬ len < 12 + 3 by omega), Option.map_some, Nat.reduceAdd, hid]
  have hnat : (UInt8.ofNat w).toNat = w := by
    rw [UInt8.toNat_ofNat', Nat.mod_eq_of_lt]
    exact Nat.lt_trans hw (by decide)
  rw [dpCryptoPickWanWorker, hread]
  simp only [hnat, if_pos hw]

end NetworkEncryptor
