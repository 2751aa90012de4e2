import NetworkEncryptor.Idle
import NetworkEncryptor.Lib.Attempt
import NetworkEncryptor.Lib.Ledger

/-!
# NetworkEncryptor.Opening

How the process gets hold of what it needs from the operating system, and lets go
of it: `main.c`, `forwarder_init` and `forwarder_cleanup` of `forwarder.c`,
`ne_pair_open`, `ne_pair_close` and what they call in `xdp_interface.c`,
`xdp_attach.c`, and the start and end of `idle.c`.

`Os` has the outcome of every call that can fail, by the interface, queue or ring it
is made for.  `Host` is the process and the kernel: the variables that hold handles
and the handles that are live are a ledger; the kernel has the XDP program of each
interface and the contents of the XSKMAPs.  Rings shared with the kernel, and the
frames in them, are in `Xsk` and `Pipeline`.
-/

namespace NetworkEncryptor

/-! ## configuration -/

/-- A name without its final zero. -/
abbrev Ifname := List UInt8

def maxInterfaces : Nat := 16

/-- `struct app_config`, without the key and the paths of the object files. -/
structure AppConfig where
  ifname : NePacketDir → Nat → Ifname
  count : NePacketDir → Nat

/-- `isalnum` of the C locale. -/
def isalnum (c : UInt8) : Bool :=
  (48 ≤ c && c ≤ 57) || (65 ≤ c && c ≤ 90) || (97 ≤ c && c ≤ 122)

def ifnameIsSafe (name : Ifname) : Bool :=
  !name.isEmpty && name.all fun c => isalnum c || c == 95 || c == 45 || c == 46

/-- The copy of `ifname_is_safe` in `xdp_attach.c`. -/
def xdpAttachIfnameSafe (name : Ifname) : Bool := ifnameIsSafe name

/-! ## the operating system -/

/-- Whether a call succeeds.  `stop n` is the answer of the `n`th
`forwarder_should_stop` in `forwarder_init`; `attempt` is 1 when `ne_pair_open` tries
an interface again. -/
structure Os where
  allocCfg : Bool
  allocFwd : Bool
  mtu9000 : NePacketDir → Nat → Bool
  scryptInit : Bool
  stop : Nat → Bool
  eventfd : Nat → Bool
  rxQueues : NePacketDir → Nat → Nat
  found : NePacketDir → Nat → Bool
  up : NePacketDir → Nat → Bool
  mmap : Bool
  poolAlloc : Bool
  poolLock : Bool
  promisc : NePacketDir → Nat → Bool
  umemCreate : Bool
  index : (attempt : Nat) → NePacketDir → Nat → Bool
  xskCreate : (attempt : Nat) → NePacketDir → Nat → Nat → Bool
  umemFd : Nat → Bool
  bindIndex : NePacketDir → Nat → Bool
  bpfOpen : NePacketDir → Nat → Bool
  bpfFind : NePacketDir → Nat → Bool
  bpfFlags : NePacketDir → Nat → Bool
  bpfLoad : NePacketDir → Nat → Bool
  attach : NePacketDir → Nat → Bool
  wanConfig : Nat → Bool
  xskmap : NePacketDir → Nat → Nat → Bool
  ringAlloc : RingId → Bool
  ringLock : RingId → Bool

/-! ## the process -/

/-- The variables that hold handles. -/
inductive Holder
  | cfg
  | fwd
  | scrypt
  | efd (id : Nat)
  | bufs
  | pool
  | umem
  | xsk (dir : NePacketDir) (i q : Nat)
  | bpf (dir : NePacketDir) (i : Nat)
  | obj
  | ring (r : RingId)
  deriving DecidableEq

/-- The variable is in `struct ne_pair`. -/
def Holder.inPair : Holder → Bool
  | .bufs | .pool | .umem | .xsk .. | .bpf .. => true
  | _ => false

/-- The variable is in `struct forwarder`. -/
def Holder.inFwd : Holder → Bool
  | .ring _ => true
  | p => p.inPair

def Holder.isXsk : Holder → Bool
  | .xsk .. => true
  | _ => false

/-- The process and what the kernel keeps for it. -/
structure Host where
  ledger : Ledger Holder
  count : NePacketDir → Nat
  queueCount : NePacketDir → Nat → Nat
  ifname : NePacketDir → Nat → Ifname
  xdpSgEnabled : NePacketDir → Nat → Bool
  live : NePacketDir → Nat → Bool
  ready : Bool
  /-- the XDP program attached to an interface, by the handle of its object -/
  xdp : Ifname → Option Nat
  /-- the sockets in the XSKMAP of an object, by queue -/
  xsksMap : Nat → Nat → Option Nat
  /-- the EtherType in the `wan_config_map` of an object -/
  wanConfigMap : Nat → Nat

/-- One interface's field. -/
def setAt {α : Type} (f : NePacketDir → Nat → α) (dir : NePacketDir) (i : Nat) (v : α) :
    NePacketDir → Nat → α :=
  Function.update f dir (Function.update (f dir) i v)

/-- What a variable holds. -/
def Host.slot (h : Host) (p : Holder) : Option Nat := h.ledger.slot p

def Host.acquire (h : Host) (p : Holder) : Host := { h with ledger := h.ledger.acquire p }

def Host.release (h : Host) (p : Holder) : Host := { h with ledger := h.ledger.release p }

/-- Release what some variables hold, in order. -/
def Host.releaseAll (h : Host) (ps : List Holder) : Host := { h with ledger := h.ledger.releaseAll ps }

/-! ## `idle.c` -/

def Holder.isEfd : Holder → Bool
  | .efd _ => true
  | _ => false

/-- `ne_dp_idle_init`; an eventfd that cannot be made is left out. -/
def neDpIdleInit (os : Os) (h : Host) : Host :=
  if h.ready then h
  else
    let ids := (List.range neDpWakeN).filter fun id => os.eventfd id
    { h with ledger := (h.ledger.clear Holder.isEfd).acquireAll (ids.map .efd), ready := true }

def neDpIdleShutdown (h : Host) : Host :=
  if !h.ready then h
  else { h.releaseAll ((List.range neDpWakeN).map .efd) with ready := false }

/-! ## XDP programs -/

/-- `xdp_attach_link_off`: `ip link set dev .. xdp off`. -/
def xdpAttachLinkOff (name : Ifname) (h : Host) : Host :=
  if xdpAttachIfnameSafe name then { h with xdp := Function.update h.xdp name none } else h

def xdpAttachDetachIfname (name : Ifname) (h : Host) : Host :=
  if name.isEmpty then h else xdpAttachLinkOff name h

/-- The interfaces of a side that are configured, as far as there is room. -/
def AppConfig.used (cfg : AppConfig) (dir : NePacketDir) : Nat := min (cfg.count dir) maxInterfaces

def AppConfig.ifaces (cfg : AppConfig) (dir : NePacketDir) : List Nat := List.range (cfg.used dir)

def xdpAttachDetachConfig (cfg : AppConfig) (h : Host) : Host :=
  let h := (cfg.ifaces .local).foldl (fun h i => xdpAttachDetachIfname (cfg.ifname .local i) h) h
  (cfg.ifaces .wan).foldl (fun h i => xdpAttachDetachIfname (cfg.ifname .wan i) h) h

def xdpAttachPrepareInit (cfg : AppConfig) (h : Host) : Host :=
  xdpAttachDetachConfig cfg (xdpAttachDetachConfig cfg h)

/-! ## sockets -/

/-- The queues of an interface, for the loops over them. -/
def xsks (dir : NePacketDir) (i n : Nat) : List Holder := (List.range n).map (.xsk dir i)

/-- `queue_holds_umem_fd`: the first socket of a UMEM shares its file descriptor. -/
def queueHoldsUmemFd (os : Os) (l : Ledger Holder) (p : Holder) : Bool :=
  match l.slot .umem, l.slot p with
  | some _, some x => os.umemFd x
  | _, _ => false

/-- One pass of `delete_iface_xsks`: over the sockets with the UMEM's descriptor, or
over the others. -/
def deleteXsksPass (os : Os) (shared : Bool) : List Holder → Ledger Holder → Ledger Holder
  | [], l => l
  | p :: ps, l =>
      deleteXsksPass os shared ps (if queueHoldsUmemFd os l p == shared then l.release p else l)

def deleteIfaceXsks (os : Os) (dir : NePacketDir) (i nq : Nat) (h : Host) : Host :=
  { h with
    ledger := deleteXsksPass os true (xsks dir i nq) (deleteXsksPass os false (xsks dir i nq) h.ledger) }

/-- One interface of `delete_all_live_xsks`. -/
def deleteLiveXsks (os : Os) (dir : NePacketDir) (i : Nat) (h : Host) : Host :=
  if h.live dir i = true ∨ h.queueCount dir i > 0 then deleteIfaceXsks os dir i (h.queueCount dir i) h
  else h

def deleteAllLiveXsks (os : Os) (h : Host) : Host :=
  (List.range maxInterfaces).foldl
    (fun h i => deleteLiveXsks os .wan i (deleteLiveXsks os .local i h)) h

/-- The loop of `open_iface_queues`, `k` queues left from `q` on: the queue it ends at. -/
def createQueues (os : Os) (attempt : Nat) (dir : NePacketDir) (i : Nat) :
    (k q : Nat) → Ledger Holder → Nat × Ledger Holder
  | 0, q, l => (q, l)
  | k + 1, q, l =>
      if os.xskCreate attempt dir i q then
        createQueues os attempt dir i k (q + 1) ((l.use .umem).acquire (.xsk dir i q))
      else (q, l)

def openIfaceQueuesRollback (dir : NePacketDir) (i opened : Nat) (h : Host) : Host :=
  let h := h.releaseAll (xsks dir i opened)
  { h with
    queueCount := setAt h.queueCount dir i 0
    ifname := setAt h.ifname dir i []
    xdpSgEnabled := setAt h.xdpSgEnabled dir i false }

def openIfaceQueues (os : Os) (attempt : Nat) (dir : NePacketDir) (i : Nat) (name : Ifname)
    (queueCount : Nat) : Attempt Host Unit := fun h =>
  if queueCount = 0 ∨ queueCount > maxQueues then (none, h)
  else if !os.index attempt dir i then (none, h)
  else
    let h := { h with
      ifname := setAt h.ifname dir i name
      queueCount := setAt h.queueCount dir i queueCount
      xdpSgEnabled := setAt h.xdpSgEnabled dir i false }
    let r := createQueues os attempt dir i queueCount 0 h.ledger
    if r.1 = queueCount then
      (some (), { h with
        ledger := r.2
        xdpSgEnabled := setAt h.xdpSgEnabled dir i true })
    else (none, openIfaceQueuesRollback dir i r.1 { h with ledger := r.2 })

/-! ## `ne_pair_open` and `ne_pair_close` -/

def interfaceGetQueueCount (os : Os) (dir : NePacketDir) (i : Nat) (name : Ifname) : Nat :=
  if !ifnameIsSafe name then 1 else if os.rxQueues dir i > 0 then os.rxQueues dir i else 1

/-- `resolve_iface_queue_count`; `NE_QUEUE_OVERRIDE` is 0. -/
def resolveIfaceQueueCount (os : Os) (dir : NePacketDir) (i : Nat) (name : Ifname) : Nat :=
  let hw := interfaceGetQueueCount os dir i name
  let want := if hw < 1 then 1 else hw
  let want := if want > maxQueues then maxQueues else want
  if want < 1 then 1 else want

def interfacePreflight (os : Os) (dir : NePacketDir) (i : Nat) (name : Ifname) : Bool :=
  ifnameIsSafe name && os.found dir i && os.up dir i

def interfaceSetPromisc (os : Os) (dir : NePacketDir) (i : Nat) (name : Ifname) : Bool :=
  ifnameIsSafe name && os.promisc dir i

/-- `pool_init`. -/
def poolInit (os : Os) : Attempt Host Unit := do
  Attempt.check (os.poolAlloc = true)
  Attempt.modify (·.acquire .pool)
  if !os.poolLock then do
    Attempt.modify (·.release .pool)
    Attempt.fail

/-- The checks of an interface, and its number of queues. -/
def preflightIface (os : Os) (cfg : AppConfig) (dir : NePacketDir) (i : Nat) : Attempt Host Unit := do
  Attempt.check (interfacePreflight os dir i (cfg.ifname dir i) = true)
  Attempt.modify fun h =>
    { h with queueCount := setAt h.queueCount dir i (resolveIfaceQueueCount os dir i (cfg.ifname dir i)) }

def promiscIface (os : Os) (cfg : AppConfig) (dir : NePacketDir) (i : Nat) : Attempt Host Unit :=
  Attempt.check (interfaceSetPromisc os dir i (cfg.ifname dir i) = true)

/-- The sockets of an interface; after a failure its XDP program is removed and
everything is tried once more. -/
def openIface (os : Os) (cfg : AppConfig) (dir : NePacketDir) (i : Nat) : Attempt Host Unit := fun h =>
  let name := cfg.ifname dir i
  let wantedQueues := h.queueCount dir i
  match openIfaceQueues os 0 dir i name wantedQueues h with
  | (some _, h) => (some (), h)
  | (none, h) => openIfaceQueues os 1 dir i name wantedQueues (xdpAttachDetachIfname name h)

/-- `memset` of the pair, and the counts. -/
def pairReset (cfg : AppConfig) (h : Host) : Host :=
  { h with
    ledger := h.ledger.clear Holder.inPair
    count := cfg.used
    queueCount := fun _ _ => 0, ifname := fun _ _ => [], xdpSgEnabled := fun _ _ => false,
    live := fun _ _ => false }

/-- `ne_pair_open` up to its label `fail`. -/
def openStages (os : Os) (cfg : AppConfig) : Attempt Host Unit := do
  Attempt.modify (pairReset cfg)
  Attempt.forEach (preflightIface os cfg .local) (cfg.ifaces .local)
  Attempt.forEach (preflightIface os cfg .wan) (cfg.ifaces .wan)
  Attempt.check (os.mmap = true)
  Attempt.modify (·.acquire .bufs)
  poolInit os
  Attempt.forEach (promiscIface os cfg .local) (cfg.ifaces .local)
  Attempt.forEach (promiscIface os cfg .wan) (cfg.ifaces .wan)
  Attempt.modify (xdpAttachDetachConfig cfg)
  Attempt.check (os.umemCreate = true)
  Attempt.modify fun h => { h with ledger := (h.ledger.use .bufs).acquire .umem }
  Attempt.forEach (openIface os cfg .local) (cfg.ifaces .local)
  Attempt.forEach (openIface os cfg .wan) (cfg.ifaces .wan)
  Attempt.modify fun h => { h with live := fun dir i => decide (i < h.count dir) }

/-- `ne_pair_close` with a configuration.  `xsk_umem__delete` does nothing while a
socket uses the UMEM. -/
def nePairClose (os : Os) (cfg : AppConfig) (h : Host) : Host :=
  let h := deleteAllLiveXsks os h
  let h := h.releaseAll ((List.range (h.count .local)).map (.bpf .local))
  let h := h.releaseAll ((List.range (h.count .wan)).map (.bpf .wan))
  let h := xdpAttachDetachConfig cfg h
  let h := { h with ledger := h.ledger.releaseIdle Holder.isXsk .umem }
  let h := (h.release .pool).release .bufs
  { h with
    ledger := h.ledger.clear Holder.inPair
    count := fun _ => 0, queueCount := fun _ _ => 0, ifname := fun _ _ => [],
    xdpSgEnabled := fun _ _ => false, live := fun _ _ => false }

def nePairOpen (os : Os) (cfg : AppConfig) (h : Host) : Bool × Host :=
  if cfg.count .local = 0 then (false, h)
  else
    match openStages os cfg h with
    | (some _, h) => (true, h)
    | (none, h) => (false, nePairClose os cfg (xdpAttachDetachConfig cfg h))

/-! ## binding -/

/-- `open_bpf_object`: the object goes to `p` when all calls succeed, and is closed
again when one after the first does not. -/
def openBpfObject (os : Os) (dir : NePacketDir) (i : Nat) (frags : Bool) : Attempt Host Unit := do
  Attempt.check (os.bpfOpen dir i = true)
  if !os.bpfFind dir i || (frags && !os.bpfFlags dir i) || !os.bpfLoad dir i then do
    Attempt.modify fun h => (h.acquire .obj).release .obj
    Attempt.fail
  else Attempt.modify (·.acquire (.bpf dir i))

/-- `update_xsk_map_queue`. -/
def updateXskMapQueue (os : Os) (dir : NePacketDir) (i q : Nat) : Attempt Host Unit := fun h =>
  match h.slot (.bpf dir i), h.slot (.xsk dir i q) with
  | some obj, some xsk =>
      let h := { h with ledger := (h.ledger.use (.bpf dir i)).use (.xsk dir i q) }
      if os.xskmap dir i q then
        (some (), { h with
          xsksMap := Function.update h.xsksMap obj (Function.update (h.xsksMap obj) q (some xsk)) })
      else (none, h)
  | _, _ => (none, h)

def updateXskMapIface (os : Os) (dir : NePacketDir) (i : Nat) : Attempt Host Unit := fun h =>
  Attempt.forEach (updateXskMapQueue os dir i) (List.range (h.queueCount dir i)) h

/-- `update_wan_fake_ethertype`; its result is ignored. -/
def updateWanFakeEthertype (os : Os) (i : Nat) (h : Host) : Host :=
  match h.slot (.bpf .wan i) with
  | some obj =>
      if os.wanConfig i then
        { h with wanConfigMap := Function.update h.wanConfigMap obj neL2FakeEthertype }
      else h
  | none => h

/-- `xdp_attach_prog`, and what the callers do when it fails. -/
def xdpAttachProg (os : Os) (dir : NePacketDir) (i : Nat) : Attempt Host Unit := fun h =>
  let h := { h with ledger := h.ledger.use (.bpf dir i) }
  if os.attach dir i then
    (some (), { h with xdp := Function.update h.xdp (h.ifname dir i) (h.slot (.bpf dir i)) })
  else (none, h.release (.bpf dir i))

def xdpAttachBindLocal (os : Os) (pairLi : Nat) : Attempt Host Unit := do
  let name ← Attempt.read fun h => h.ifname .local pairLi
  let sg ← Attempt.read fun h => h.xdpSgEnabled .local pairLi
  Attempt.check (name.isEmpty = false ∧ os.bindIndex .local pairLi = true)
  Attempt.modify (·.release (.bpf .local pairLi))
  openBpfObject os .local pairLi sg
  Attempt.modify (xdpAttachLinkOff name)
  xdpAttachProg os .local pairLi
  updateXskMapIface os .local pairLi

def xdpAttachBindWan (os : Os) (dpSlot : Nat) : Attempt Host Unit := do
  let name ← Attempt.read fun h => h.ifname .wan dpSlot
  let sg ← Attempt.read fun h => h.xdpSgEnabled .wan dpSlot
  Attempt.check (name.isEmpty = false ∧ os.bindIndex .wan dpSlot = true)
  openBpfObject os .wan dpSlot sg
  Attempt.modify (updateWanFakeEthertype os dpSlot)
  Attempt.modify (xdpAttachLinkOff name)
  xdpAttachProg os .wan dpSlot
  updateXskMapIface os .wan dpSlot

def xdpAttachAll (os : Os) : Attempt Host Unit := fun h =>
  (do
    Attempt.forEach (xdpAttachBindLocal os) (List.range (h.count .local))
    Attempt.forEach (xdpAttachBindWan os) (List.range (h.count .wan))) h

/-! ## `forwarder_init`, `forwarder_cleanup` and `main` -/

/-- `ne_ring_init` with a power of two and one consumer. -/
def neRingInit (os : Os) (r : RingId) : Attempt Host Unit := do
  Attempt.modify fun h => { h with ledger := h.ledger.clear fun p => p == .ring r }
  Attempt.check (os.ringAlloc r = true)
  Attempt.modify (·.acquire (.ring r))
  if !os.ringLock r then do
    Attempt.modify (·.release (.ring r))
    Attempt.fail

def initRings (os : Os) (rs : List RingId) : Attempt Host Unit := Attempt.forEach (neRingInit os) rs

/-- The rings `forwarder_init` makes, in order. -/
def forwarderRings (localCount wanCount : Nat) : List RingId :=
  ((List.finRange neCryptoWorkers).flatMap fun w => [.localToMid w, .wanToMid w]) ++
    (((List.range localCount).flatMap fun i => (List.finRange neCryptoWorkers).map (.midToLocal i)) ++
      (List.range wanCount).flatMap fun i => (List.finRange neCryptoWorkers).map (.midToWan i))

/-- The rings `forwarder_cleanup` looks at, in order. -/
def cleanupRings : List RingId :=
  ((List.finRange neCryptoWorkers).flatMap fun w => [.localToMid w, .wanToMid w]) ++
    (((List.range maxInterfaces).flatMap fun i => (List.finRange neCryptoWorkers).map (.midToWan i)) ++
      (List.range maxInterfaces).flatMap fun i => (List.finRange neCryptoWorkers).map (.midToLocal i))

def forwarderCleanup (os : Os) (cfg : AppConfig) (h : Host) : Host :=
  let h := h.releaseAll (cleanupRings.map .ring)
  neDpIdleShutdown (nePairClose os cfg h)

/-- `memset` of `struct forwarder`. -/
def forwarderReset (h : Host) : Host :=
  { h with
    ledger := h.ledger.clear Holder.inFwd
    count := fun _ => 0, queueCount := fun _ _ => 0, ifname := fun _ _ => [],
    xdpSgEnabled := fun _ _ => false, live := fun _ _ => false }

def forwarderInit (os : Os) (cfg : AppConfig) (h : Host) : Bool × Host :=
  if cfg.count .local = 0 then (false, h)
  else if os.stop 0 then (false, h)
  else
    let h := neDpIdleInit os (forwarderReset h)
    let h := xdpAttachPrepareInit cfg h
    -- `packet_crypto_init` cannot fail here
    if os.stop 1 then (false, h)
    else
      match nePairOpen os cfg h with
      | (false, h) => (false, neDpIdleShutdown h)
      | (true, h) =>
          match xdpAttachAll os h with
          | (none, h) => (false, forwarderCleanup os cfg h)
          | (some _, h) =>
              if os.stop 2 then (false, forwarderCleanup os cfg h)
              else
                match initRings os (forwarderRings (cfg.used .local) (cfg.used .wan)) h with
                | (none, h) => (false, forwarderCleanup os cfg h)
                | (some _, h) => (true, h)

/-- The names in `static_config_build`: `enp1s0f0` and `enp2s0f0`. -/
def staticIfname : NePacketDir → Ifname
  | .local => [101, 110, 112, 49, 115, 48, 102, 48]
  | .wan => [101, 110, 112, 50, 115, 48, 102, 48]

end NetworkEncryptor
