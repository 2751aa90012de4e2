import NetworkEncryptor.Ingress
import NetworkEncryptor.WireSize

/-!
# NetworkEncryptor.Tunnel

Both ends of the tunnel together: a frame from the LAN goes through
`dataplane_process_local`, the wire frames it is encoded as reach a peer with
the same key in some order, and `dataplane_process_wan` restores the frame.

The receiver tells the formats apart by four bytes at offset 27.  In a DATA
frame these are the first four bytes of the ciphertext, so a DATA frame whose
ciphertext starts like the marker goes to the wrong decoder (`MarkerFree`).
-/

namespace NetworkEncryptor

/-! ## the receiving peer -/

/-- A wire frame at the peer: what the environment answers while it is handled,
the UMEM at that time, and the packet. -/
structure Arrival where
  env : Env
  pair : NePair
  pkt : NePacket

/-- The arrival in the hands of a worker of the peer. -/
def Arrival.job (a : Arrival) (s : Forwarder × Worker) : Job :=
  ⟨{ s.1 with pair := a.pair }, s.2, a.pkt⟩

/-- The worker handles the arrival. -/
def deliver (s : Forwarder × Worker) (a : Arrival) : Forwarder × Worker :=
  let j := dataplaneProcessWan a.env (a.job s)
  (j.fwd, j.self)

/-- The frames the worker emits for a list of arrivals. -/
def EmitsAll : Forwarder × Worker → List Arrival → List (List UInt8) → Prop
  | _, [], frames => frames = []
  | s, a :: as, frames => ∃ xs ys, frames = xs ++ ys ∧ Emits s.1 (deliver s a).1 xs ∧
      EmitsAll (deliver s a) as ys

/-- A worker of a peer with the key of the sender, a table without halves, one
LAN interface and room in the rings towards it. -/
structure Peer (ctx : PacketCryptoCtx) (s : Forwarder × Worker) (w : Nat) : Prop where
  ctx : s.1.crypto = ctx
  worker : s.2.tls.cryptoWorkerIdx = some w ∧ w < neCryptoWorkers
  lan : s.1.localCount = 1
  ring : ∀ slot, (s.1.midToLocal 0 slot).items.length < (s.1.midToLocal 0 slot).cap

/-- The worker's fragment table has no halves, or is not there yet. -/
def Peer.NoHalves (s : Forwarder × Worker) (w : Nat) : Prop :=
  ∀ ft, s.1.tables w = some ft → ft.Vacant

/-- A wire frame arrives with the library up, and with room in the UMEM for the
frame it belongs to. -/
structure Arrives (env : Env) (frame : List UInt8) (a : Arrival) (wire : List UInt8) : Prop where
  received : Received a.pair a.pkt wire
  room : frame.length ≤ packetRoom a.pair a.pkt
  gcm : a.env.gcm = env.gcm
  lib : a.env.initialized = true
  calloc : a.env.callocOk = true

section Peer

variable {env : Env} {ctx : PacketCryptoCtx} {s : Forwarder × Worker} {w : Nat} {a : Arrival}
  {frame wire : List UInt8} {xs ys : List (List UInt8)}

/-- A delivery that emits nothing leaves the peer ready for the next. -/
theorem Peer.deliver (h : Peer ctx s w) (he : Emits s.1 (deliver s a).1 []) :
    Peer ctx (deliver s a) w := by
  obtain ⟨pkts, hout⟩ := dataplaneProcessWan_outcome a.env (a.job s)
  obtain ⟨ri, route, tables, hf, -, -⟩ := hout.fwd
  have hfwd : (NetworkEncryptor.deliver s a).1 = _ := hf
  have hmid : (NetworkEncryptor.deliver s a).1.midToLocal = s.1.midToLocal := by
    obtain ⟨ri', pkts', hring, hall⟩ := he
    cases hall
    rw [hring, Forwarder.pushLocal_nil]
  refine ⟨?_, ⟨hout.worker.trans h.worker.1, h.worker.2⟩, ?_, by rw [hmid]; exact h.ring⟩
  · rw [hfwd]; exact h.ctx
  · rw [hfwd]; exact h.lan

end Peer

/-! ## one wire frame -/

section Single

variable {env : Env} {ctx : PacketCryptoCtx} {s : Forwarder × Worker} {w : Nat} {a : Arrival}
  {frame macs plain payload c t : List UInt8} {wid : UInt8} {nonce : Nonce} {dg : UdpMeta}
  {kind : L2UdpKind}

end Single

/-! ## two fragments -/

section Pair

variable {env : Env} {ctx : PacketCryptoCtx} {s : Forwarder × Worker} {w : Nat} {a a0 a1 : Arrival}
  {frame macs payload c t c0 t0 c1 t1 : List UInt8} {wid : UInt8} {nonce nonce0 nonce1 : Nonce}
  {dg : UdpMeta} {kind : L2UdpKind} {ft : OptTable}

theorem Peer.optTableIdx (hp : Peer ctx s w) : optTableIdx w = w := by
  rw [NetworkEncryptor.optTableIdx, if_neg (by have := hp.worker.2; omega)]

/-- A table without halves is there for the first fragment. -/
theorem Peer.NoHalves.table (htab : Peer.NoHalves s w) (hcalloc : a.env.callocOk = true) :
    ∃ ft, optTable a.env s.1.tables w = some ft ∧ ft.Vacant := by
  rw [optTable]
  cases hw : s.1.tables w with
  | none => exact ⟨OptTable.empty, by simp [hcalloc], vacant_empty⟩
  | some ft => exact ⟨ft, rfl, htab ft hw⟩

end Pair

/-! ## the tunnel -/

/-- The second of two fragments arrives before the first one has expired. -/
def Timely : List Arrival → Prop
  | [a, b] => b.env.now - a.env.now ≤ l2FragTimeoutNs
  | _ => True

section Tunnel

variable {env : Env} {ctx : PacketCryptoCtx} {j : Job} {frame : List UInt8}
  {wires order : List (List UInt8)} {s : Forwarder × Worker} {w : Nat} {arrivals : List Arrival}

end Tunnel

/-! ## a ping through the tunnel -/

/-- An oversized frame is carried: as one pair of wire frames that fit, and the
receiver restores it from them in either order. -/
def CarriedAsPair (env : Env) (j : Job) (frame : List UInt8) : Prop :=
  ∃ q r w0 w1, (dataplaneProcessLocal env j).fwd.midToWan =
      (j.fwd.pushWan j.self.tls.outRingIdx [q, r]).midToWan ∧
    List.Forall₂ (Holds (dataplaneProcessLocal env j).fwd.pair) [q, r] [w0, w1] ∧
    w0.length ≤ 9014 ∧ w1.length ≤ 9014 ∧
    ∀ s w order arrivals, Peer j.fwd.crypto s w → Peer.NoHalves s w →
      (order = [w0, w1] ∨ order = [w1, w0]) → List.Forall₂ (Arrives env frame) arrivals order →
      Timely arrivals → EmitsAll s arrivals [frame]

section Icmp

variable {env : Env} {j : Job} {frame : List UInt8}

/-- The class of an ICMP frame. -/
theorem frameProto_icmp (hadm : Admitted frame)
    (hicmp : (Mem.ofList frame 23).toNat = ipprotoIcmp) (hihl : 5 ≤ (Mem.ofList frame 14).toNat % 16)
    (hlen : 14 + (Mem.ofList frame 14).toNat % 16 * 4 ≤ frame.length) : frameProto frame = .icmp := by
  obtain ⟨h34, -, het⟩ := hadm.spec
  have hoff : cryptoEthIpv4Offset (Mem.ofList frame) frame.length = some 14 :=
    cryptoEthIpv4Offset_eq_some_iff.mpr ⟨rfl, h34, het⟩
  have hno : ¬ ((Mem.ofList frame 14).toNat % 16 * 4 < 20 ∨
      frame.length < 14 + (Mem.ofList frame 14).toNat % 16 * 4) := by omega
  have hproto : (dpParseFlow (Mem.ofList frame) frame.length).2 = Mem.ofList frame 23 := by
    rw [dpParseFlow, hoff]
    dsimp only
    rw [if_neg hno, if_neg]
    rw [Nat.add_comm 14 9, hicmp]
    simp
  rw [frameProto, hproto, hicmp]
  rfl

/-- Nothing is pushed for an oversized ICMP frame: no encoding of it exists. -/
theorem midToWan_of_oversizedIcmp (hr : Received j.fwd.pair j.pkt frame) (hadm : Admitted frame)
    (hproto : frameProto frame = .icmp) (hlo : 8983 < frame.length) :
    (dataplaneProcessLocal env j).fwd.midToWan = j.fwd.midToWan := by
  rcases @dataplaneProcessLocal_spec env j frame hr hadm with h | ⟨_, _, _, _, -, henc, -, -⟩
  · exact h
  · cases henc with
    | data _ hlen _ => omega
    | full hp _ _ => rw [hproto] at hp; cases hp
    | split hp _ _ _ _ => rw [hproto] at hp; cases hp

/-- A frame for which nothing is pushed is not carried. -/
theorem not_carriedAsPair_of_midToWan
    (hnone : (dataplaneProcessLocal env j).fwd.midToWan = j.fwd.midToWan) :
    ¬ CarriedAsPair env j frame := by
  intro h
  obtain ⟨q, r, w0, w1, hpush, -⟩ := h
  have hnil := @pushWan_injective j.fwd j.self.tls.outRingIdx [] [q, r] (by
    rw [Forwarder.pushWan_nil, ← hpush]; exact hnone.symm)
  cases hnil

/-- An oversized ICMP frame is dropped, whatever the state. -/
theorem oversizedIcmp_not_carried (hr : Received j.fwd.pair j.pkt frame) (hadm : Admitted frame)
    (hicmp : (Mem.ofList frame 23).toNat = ipprotoIcmp) (hihl : 5 ≤ (Mem.ofList frame 14).toNat % 16)
    (hlo : 8983 < frame.length) :
    (dataplaneProcessLocal env j).fwd.midToWan = j.fwd.midToWan ∧ ¬ CarriedAsPair env j frame := by
  have hproto := frameProto_icmp hadm hicmp hihl (by omega)
  have hnone := @midToWan_of_oversizedIcmp env j frame hr hadm hproto hlo
  exact ⟨hnone, not_carriedAsPair_of_midToWan hnone⟩

end Icmp

/-- An ICMP echo request of 9000 bytes behind its Ethernet header. -/
def jumboPing : List UInt8 :=
  [0x02, 0, 0, 0, 0, 0x02, 0x02, 0, 0, 0, 0, 0x01, 0x08, 0x00,
    0x45, 0, 0x23, 0x28, 0, 1, 0, 0, 64, 1, 0, 0, 10, 0, 0, 1, 10, 0, 0, 2,
    8, 0, 0, 0, 0, 1, 0, 1] ++ List.replicate 8972 0

theorem length_jumboPing : jumboPing.length = 9014 := by
  rw [jumboPing, List.length_append, List.length_replicate]
  rfl

theorem admitted_jumboPing : Admitted jumboPing := by
  refine ⟨42, by rw [length_jumboPing]; decide, lanRedirect_eq_redirect_iff.mpr ?_⟩
  rw [length_jumboPing]
  exact ⟨by decide, rfl, .inl rfl, by decide, by decide, by decide⟩

/-- The jumbo ping meets a worker with empty rings and free frames, and is lost. -/
theorem oversizedIcmp_not_carried_ping :
    Received (sampleJob 0 jumboPing).fwd.pair (sampleJob 0 jumboPing).pkt jumboPing ∧
      Admitted jumboPing ∧
      (dataplaneProcessLocal (sampleEnv 0) (sampleJob 0 jumboPing)).fwd.midToWan =
        (sampleJob 0 jumboPing).fwd.midToWan := by
  have hr : Received (sampleJob 0 jumboPing).fwd.pair (sampleJob 0 jumboPing).pkt jumboPing :=
    received_sample (by rw [length_jumboPing]; decide) (by rw [length_jumboPing])
  exact ⟨hr, admitted_jumboPing, (oversizedIcmp_not_carried hr admitted_jumboPing rfl (by decide)
    (by rw [length_jumboPing]; decide)).1⟩

/-- With room in the output ring, free frames and a working cipher, the jumbo
ping is not carried. -/
theorem jumboPing_lost :
    EncReady (sampleEnv 0) (sampleJob 0 jumboPing).fwd.crypto (sampleJob 0 jumboPing).l2 ∧
      ((sampleJob 0 jumboPing).fwd.midToWan 0 (sampleJob 0 jumboPing).self.tls.outRingIdx).items = [] ∧
      (sampleJob 0 jumboPing).fwd.pair.pool.frames.length = 8 ∧
      ¬ CarriedAsPair (sampleEnv 0) (sampleJob 0 jumboPing) jumboPing := by
  have hr : Received (sampleJob 0 jumboPing).fwd.pair (sampleJob 0 jumboPing).pkt jumboPing :=
    received_sample (by rw [length_jumboPing]; decide) (by rw [length_jumboPing])
  have hproto : frameProto jumboPing = .icmp :=
    frameProto_icmp admitted_jumboPing rfl (by decide) (by rw [length_jumboPing]; decide)
  refine ⟨encReady_sample _ rfl _, rfl, rfl, not_carriedAsPair_of_midToWan ?_⟩
  exact midToWan_of_oversizedIcmp hr admitted_jumboPing hproto (by rw [length_jumboPing]; decide)

end NetworkEncryptor
