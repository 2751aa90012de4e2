import NetworkEncryptor.Egress
import NetworkEncryptor.Joining

/-!
# NetworkEncryptor.Ingress

What `dataplane_process_wan` makes of a wire frame, in bytes: the restored frame
on an output ring towards the LAN, or nothing.
-/

namespace NetworkEncryptor

/-! ## what is emitted -/

/-- The frames that a step put on an output ring towards the LAN. -/
def Emits (fwd fwd' : Forwarder) (frames : List (List UInt8)) : Prop :=
  ∃ ri pkts, fwd'.midToLocal = (fwd.pushLocal ri pkts).midToLocal ∧
    List.Forall₂ (Holds fwd'.pair) pkts frames

section Emits

variable {fwd fwd' : Forwarder} {xs ys : List (List UInt8)}

theorem emits_nil (h : fwd'.midToLocal = fwd.midToLocal) : Emits fwd fwd' [] :=
  ⟨0, [], by rw [Forwarder.pushLocal_nil]; exact h, .nil⟩

/-- The ring `i` after a push to ring `ri`. -/
theorem items_pushLocal (fwd : Forwarder) (ri : Nat) (pkts : List NePacket) (i : Nat) :
    ((fwd.pushLocal ri pkts).midToLocal 0 i).items =
      (fwd.midToLocal 0 i).items ++ if i = ri then pkts else [] := by
  simp only [Forwarder.pushLocal, Forwarder.setMidToLocal, Function.update_self]
  by_cases hi : i = ri
  · subst hi; rw [Function.update_self, if_pos rfl]; rfl
  · rw [Function.update_of_ne hi, if_neg hi, List.append_nil]

theorem forall₂_holds_unique {p : NePair} {pkts : List NePacket}
    (h : List.Forall₂ (Holds p) pkts xs) (h' : List.Forall₂ (Holds p) pkts ys) : xs = ys := by
  induction h generalizing ys with
  | nil => cases h'; rfl
  | cons hx _ ih =>
      cases h' with
      | cons hy hys => rw [hx.unique hy, ih hys]

/-- What a step emits is determined. -/
theorem Emits.unique (h : Emits fwd fwd' xs) (h' : Emits fwd fwd' ys) : xs = ys := by
  obtain ⟨ri, pkts, hring, hx⟩ := h
  obtain ⟨ri', pkts', hring', hy⟩ := h'
  have hitems (i : Nat) : (if i = ri then pkts else []) = if i = ri' then pkts' else [] := by
    have h0 := congrArg NeRing.items (congrFun (congrFun (hring.symm.trans hring') 0) i)
    rw [items_pushLocal, items_pushLocal] at h0
    exact List.append_cancel_left h0
  by_cases hri : ri = ri'
  · have hp := hitems ri
    rw [if_pos rfl, if_pos hri] at hp
    subst hp
    exact forall₂_holds_unique hx hy
  · have hp := hitems ri
    have hp' := hitems ri'
    rw [if_pos rfl, if_neg hri] at hp
    rw [if_neg (Ne.symm hri), if_pos rfl] at hp'
    subst hp
    subst hp'
    cases hx
    cases hy
    rfl

end Emits

/-! ## a packet from the WAN -/

section Answered

variable {env : Env} {j j' : Job} {w : Nat} {wire : List UInt8} {out : Mem} {n : Nat}

/-- Routing does not look at the fragment tables. -/
theorem routeLocal_tables (j : Job) (out : Mem) (w : Nat) :
    (routeLocal j out w).fwd.tables = j.fwd.tables := by
  rw [routeLocal]
  dsimp only
  generalize dpFlowPickTxSlot j.fwd.route out j.pkt.len (some w) = r
  obtain ⟨q, -, -, h | h | h⟩ := forwardLocal_cases ({ j with
    fwd := { j.fwd with route := r.2 }
    self := { j.self with tls := dpOutRingBind r.2 r.1 j.self.tls }
    pkt := { j.pkt with flow := (dpParseFlow out j.pkt.len).1 } } : Job)
  · rw [h]; rfl
  · rw [h]; rfl
  · rw [h]; rfl

/-- The answer of `l2_crypto_reassemble_udp` as a frame. -/
def ReasmResult.frame : ReasmResult → Option (Mem × Nat)
  | .done out n => some (out, n)
  | _ => none

end Answered

/-! ## decoding a wire frame -/

section Decode

variable {env : Env} {ctx : PacketCryptoCtx} {buf : Mem} {n : Nat} {macs c t plain payload : List UInt8}
  {wid : UInt8} {nonce : Nonce} {kind : L2UdpKind} {dg : UdpMeta}

/-- The choice between the decoders: four bytes at a fixed offset. -/
theorem isUdpWire_iff (hmark : cryptoEthL2HasMarker buf n = true) :
    isUdpWire buf n = true ↔ 31 ≤ n ∧ buf.read 27 4 = l2UdpMarker := by
  obtain ⟨h14, het⟩ := cryptoEthL2HasMarker_iff.mp hmark
  have hoff : cryptoEthInnerEtOff buf n = some 12 :=
    cryptoEthInnerEtOff_eq_some_iff.mpr ⟨rfl, h14, .inr het⟩
  rw [isUdpWire, hmark, Bool.not_true, if_neg (by simp), cryptoEthL2FragMagicOff,
    cryptoEthL2CoreIdOff, hoff]
  by_cases h15 : n < 12 + 3
  · simp only [if_pos h15]
    constructor
    · intro h; cases h
    · intro h; omega
  · simp only [if_neg h15, packetCryptoNonceBytes]
    by_cases h27 : n < 12 + 2 + 1 + 12
    · rw [if_pos h27]
      constructor
      · intro h; cases h
      · intro h; omega
    · rw [if_neg h27]
      simp only [Bool.and_eq_true, decide_eq_true_eq, beq_iff_eq, l2UdpMarker, Nat.reduceAdd, ge_iff_le]

/-- What both sides know of the cipher: the receiver's library is up and
decrypts what the sender encrypted. -/
structure SameCipher (env env' : Env) (ctx : PacketCryptoCtx) : Prop where
  gcm : env'.gcm = env.gcm
  lawful : env.gcm.Lawful
  lib : env'.initialized = true
  ctx : ctx.initialized = true

/-- A DATA frame the cipher opens is restored by the DATA decoder. -/
theorem l2CryptoDecrypt_dataWire {env' : Env} (hctx : ctx.initialized = true)
    (hlib : env'.initialized = true) (hdec : env'.gcm.decrypt ctx.key nonce c t = some plain)
    (ht : t.length = 16) (hpos : plain ≠ [])
    (hmacs : macs.length = 12) (h : buf.read 0 n = dataWire macs wid nonce (c ++ t)) :
    ∃ out, l2CryptoDecrypt env' .data ctx buf n = some (out, 12 + plain.length) ∧
      out.read 0 (12 + plain.length) = macs ++ plain := by
  have hc := env'.gcm.length_decrypt hdec
  obtain ⟨hn, hm, het, -, hnonce, hcipher, htag⟩ := read_dataWire hmacs ht h
  have hplen : 0 < plain.length := List.length_pos_iff.mpr hpos
  have hopens : Opens env' ctx buf 27 n plain := by
    refine ⟨hctx, hlib, by omega, ?_⟩
    rw [hcipher, htag, hnonce]
    exact hdec
  have hdo := l2DoDecrypt_eq_some_iff.mpr ⟨.inr (.inl het), plain, hopens, rfl, rfl⟩
  refine ⟨_, ?_, by rw [read_dataPlain, hm]⟩
  rw [l2CryptoDecrypt, if_neg (by simp), l2TcpDecrypt, hctx,
    cryptoEthL2HasMarker_iff.mpr ⟨by omega, .inl het⟩]
  exact hdo

/-- A UDP-format frame is opened by the UDP decoder. -/
theorem l2DoDecryptUdp_udpWire {env' : Env} (hs : SameCipher env env' ctx)
    (henc : env.gcm.encrypt ctx.key nonce (l2UdpShim kind dg ++ payload) = some (c, t))
    (hmacs : macs.length = 12) (h : buf.read 0 n = udpWire macs wid nonce (c ++ t)) :
    l2DoDecryptUdp env' ctx buf n = some (udpPlain buf kind dg payload) ∧
      buf.read 0 12 = macs ∧ ethReadEt buf 12 = neL2FakeEthertypeUdp := by
  obtain ⟨hc, ht⟩ := env.gcm.length_encrypt henc
  obtain ⟨hn, hm, het, -, hnonce, hmark, hcipher, htag⟩ := read_udpWire hmacs ht h
  rw [List.length_append, length_l2UdpShim] at hc
  have hopens : Opens env' ctx buf 31 n (l2UdpShim kind dg ++ payload) := by
    refine ⟨hs.ctx, hs.lib, by omega, ?_⟩
    rw [hcipher, htag, hnonce, hs.gcm]
    exact hs.lawful henc
  exact ⟨l2DoDecryptUdp_eq_some_iff.mpr ⟨.inr (.inr het), hmark, by omega, kind, dg, payload, hopens,
    rfl⟩, hm, het⟩

/-- Reassembly of a frame that the UDP decoder opens. -/
theorem l2CryptoReassembleUdp_of_frag {env' : Env} {tables : FragTables} {w : Nat} {ft : OptTable}
    {output : Mem} (hd : l2DoDecryptUdp env' ctx buf n = some (udpPlain buf kind dg payload))
    (hkind : kind ≠ .full) (hft : optTable env' tables (optTableIdx w) = some ft) :
    l2CryptoReassembleUdp env' ctx tables w buf n output =
      (Function.update tables (optTableIdx w) (some (l2Reassemble ft
        (udpPlain buf kind dg payload).packet (14 + payload.length) dg kind env'.now output).1),
        (l2Reassemble ft (udpPlain buf kind dg payload).packet (14 + payload.length) dg kind env'.now
          output).2) := by
  rw [l2CryptoReassembleUdp, hd]
  dsimp only
  rw [if_neg (show (udpPlain buf kind dg payload).kind ≠ .full from hkind), hft]
  rfl

/-- A whole datagram is restored at once. -/
theorem l2CryptoReassembleUdp_of_full {env' : Env} {tables : FragTables} {w : Nat} {output : Mem}
    (hd : l2DoDecryptUdp env' ctx buf n = some (udpPlain buf .full dg payload))
    (hlen : 20 ≤ payload.length) :
    ∃ out, l2CryptoReassembleUdp env' ctx tables w buf n output =
        (tables, .done out (14 + payload.length)) ∧
      out.read 0 (14 + payload.length) = joined (buf.read 0 12) payload [] := by
  obtain ⟨hmacs, het, hpay⟩ := read_udpPlain buf .full dg payload
  rw [if_pos rfl] at het
  have hip : cryptoPktIsIpv4 (udpPlain buf .full dg payload).packet (14 + payload.length) = true :=
    cryptoPktIsIpv4_iff.mpr ⟨by omega, ethReadEt_eq_ethPIp_iff.mpr het⟩
  refine ⟨output.write 0 ((udpPlain buf .full dg payload).packet.read 0 (14 + payload.length)), ?_, ?_⟩
  · rw [l2CryptoReassembleUdp, hd]
    dsimp only
    rw [if_pos (show (udpPlain buf .full dg payload).kind = .full from rfl),
      if_pos (show cryptoPktIsIpv4 (udpPlain buf .full dg payload).packet
        (udpPlain buf .full dg payload).len = true from hip)]
    rfl
  · rw [Mem.read_write_self _ (Mem.length_read ..), show 14 = 12 + 2 from rfl, Nat.add_assoc,
      Mem.read_add, Mem.read_add, Nat.zero_add, hmacs, het, hpay, joined, List.append_nil,
      List.append_assoc]

/-- The parts of a decoded fragment the table looks at. -/
theorem udpPlain_fragOk (hkind : kind ≠ .full) (het : ethReadEt buf 12 = neL2FakeEthertypeUdp)
    (hlen : payload.length ≤ neJumboFrameMax) :
    FragOk (udpPlain buf kind dg payload).packet (14 + payload.length) := by
  obtain ⟨-, hrest, -⟩ := read_udpPlain buf kind dg payload
  rw [if_neg hkind, Mem.read_eq_read_iff] at hrest
  refine ⟨.inr (.inr ?_), by omega, by omega⟩
  rw [ethReadEt_congr (hrest 0 (by omega)) (hrest 1 (by omega))]
  exact het

end Decode

/-! ## any bytes from the WAN -/

/-- What a worker made of a wire frame, whatever it contains: the fragment tables
it left, and the frames it emitted. -/
inductive Restores (env : Env) (j : Job) (wire : List UInt8) : FragTables → List (List UInt8) → Prop
  | drop : Restores env j wire j.fwd.tables []
  | data {buf out n} : buf.read 0 wire.length = wire →
      cryptoEthL2HasMarker buf wire.length = true → isUdpWire buf wire.length = false →
      l2CryptoDecrypt env .data j.fwd.crypto buf wire.length = some (out, n) →
      Restores env j wire j.fwd.tables [out.read 0 n]
  | udp {w buf frames} : j.self.tls.cryptoWorkerIdx = some w → w < neCryptoWorkers →
      buf.read 0 wire.length = wire →
      (∀ frame ∈ frames, ∃ out n, frame = out.read 0 n ∧ (l2CryptoReassembleUdp env j.fwd.crypto
        j.fwd.tables w buf wire.length j.self.cryptoAux).2 = .done out n) →
      Restores env j wire (l2CryptoReassembleUdp env j.fwd.crypto j.fwd.tables w buf wire.length
        j.self.cryptoAux).1 frames

section Restores

variable {env : Env} {j j' : Job} {w : Nat} {wire frame : List UInt8} {out : Mem} {n : Nat}

/-- A packet that holds a frame is routed or dropped. -/
theorem routeLocal_emits_or (h : Holds j.fwd.pair j.pkt frame) :
    Emits j.fwd (routeLocal j out w).fwd [frame] ∨ Emits j.fwd (routeLocal j out w).fwd [] := by
  generalize hr : dpFlowPickTxSlot j.fwd.route out j.pkt.len (some w) = r
  generalize hj1 : ({ j with
    fwd := { j.fwd with route := r.2 }
    self := { j.self with tls := dpOutRingBind r.2 r.1 j.self.tls }
    pkt := { j.pkt with flow := (dpParseFlow out j.pkt.len).1 } } : Job) = j1
  have hrun : routeLocal j out w =
      if (forwardLocal j1).1 then (forwardLocal j1).2 else (forwardLocal j1).2.free := by
    rw [routeLocal, hr]
    dsimp only
    rw [hj1]
  have hmid : j1.fwd.midToLocal = j.fwd.midToLocal := by rw [← hj1]
  have hpair : j1.fwd.pair = j.fwd.pair := by rw [← hj1]
  have hsame : SameSegs j.pkt j1.pkt := by rw [← hj1]; exact ⟨rfl, rfl, rfl, rfl, rfl⟩
  obtain ⟨q, hq, -, hf | hf | hf⟩ := forwardLocal_cases j1
  · rw [hrun, hf, if_neg (by simp)]; exact .inr (emits_nil hmid)
  · rw [hrun, hf, if_neg (by simp)]; exact .inr (emits_nil hmid)
  · rw [hrun, hf, if_pos rfl]
    refine .inl ⟨j1.self.tls.outRingIdx, [q], ?_, .cons ?_ .nil⟩
    · rw [Forwarder.pushLocal, Forwarder.pushLocal, Forwarder.setMidToLocal, Forwarder.setMidToLocal,
        hmid]
    · change Holds j1.fwd.pair q frame
      rw [hpair]
      exact (h.same hsame).same hq

/-- A restored frame is written and routed, or dropped. -/
theorem writeRoute_emits_or (hw : Writable j.fwd.pair j.pkt j.pkt.segCount)
    (hpair : j'.fwd.pair = j.fwd.pair) (hpkt : j'.pkt = j.pkt)
    (hmid : j'.fwd.midToLocal = j.fwd.midToLocal) :
    ∃ frames, Emits j.fwd (if (j'.write out n).1 then routeLocal (j'.write out n).2 out w
        else (j'.write out n).2.free).fwd frames ∧
      (frames = [out.read 0 n] ∨ frames = []) ∧
      (if (j'.write out n).1 then routeLocal (j'.write out n).2 out w
        else (j'.write out n).2.free).fwd.tables = j'.fwd.tables := by
  have hwr := Job.write_eq j' out n
  rw [← hpair, ← hpkt] at hw
  have hmid2 : (j'.write out n).2.fwd.midToLocal = j.fwd.midToLocal := hmid
  have hemits {x : Forwarder} {frames : List (List UInt8)}
      (h : Emits (j'.write out n).2.fwd x frames) : Emits j.fwd x frames := by
    obtain ⟨ri, pkts, hpush, hall⟩ := h
    refine ⟨ri, pkts, ?_, hall⟩
    rw [hpush, Forwarder.pushLocal, Forwarder.pushLocal, Forwarder.setMidToLocal,
      Forwarder.setMidToLocal, hmid2]
  cases hok : (j'.write out n).1 with
  | false => rw [if_neg (by simp)]; exact ⟨[], emits_nil hmid, .inr rfl, rfl⟩
  | true =>
      rw [if_pos rfl]
      rw [hok] at hwr
      have ht := routeLocal_tables (j'.write out n).2 out w
      rcases @routeLocal_emits_or (j'.write out n).2 w _ out (nePacketWrite_holds hw hwr) with h | h
      · exact ⟨_, hemits h, .inl rfl, ht⟩
      · exact ⟨_, hemits h, .inr rfl, ht⟩

/-- `dataplane_process_wan` on any bytes. -/
theorem dataplaneProcessWan_restores (env : Env) (hr : Received j.fwd.pair j.pkt wire) :
    ∃ frames, Emits j.fwd (dataplaneProcessWan env j).fwd frames ∧
      Restores env j wire (dataplaneProcessWan env j).fwd.tables frames := by
  have hpl : j.pkt.len = wire.length := hr.holds.len
  have hdrop {x : Job} (hmid : x.fwd.midToLocal = j.fwd.midToLocal)
      (ht : x.fwd.tables = j.fwd.tables) : ∃ frames, Emits j.fwd x.fwd frames ∧
        Restores env j wire x.fwd.tables frames :=
    ⟨[], emits_nil hmid, by rw [ht]; exact .drop⟩
  rw [dataplaneProcessWan]
  cases hw : j.self.tls.cryptoWorkerIdx with
  | none => exact hdrop rfl rfl
  | some w =>
      dsimp only
      by_cases hwlt : w ≥ neCryptoWorkers
      · rw [if_pos hwlt]; exact hdrop rfl rfl
      rw [if_neg hwlt]
      by_cases hmax : wire.length ≤ neJumboFrameMax
      · obtain ⟨buf, hlin, hbuf⟩ := nePacketLinearize_of_holds hr.holds j.self.cryptoBuf hmax
        rw [hlin]
        dsimp only
        rw [if_neg (by simp), hpl]
        cases hmark : cryptoEthL2HasMarker buf wire.length with
        | false => rw [if_pos (by simp)]; exact hdrop rfl rfl
        | true =>
            rw [if_neg (by simp)]
            cases hudp : isUdpWire buf wire.length with
            | false =>
                rw [if_neg (by simp)]
                cases hd : l2CryptoDecrypt env .data j.fwd.crypto buf wire.length with
                | none => exact hdrop rfl rfl
                | some r =>
                    obtain ⟨out, n⟩ := r
                    obtain ⟨frames, hemit, hframes, ht⟩ := @writeRoute_emits_or j
                      { j with self := { j.self with cryptoBuf := out } } w out n hr.writable' rfl rfl rfl
                    refine ⟨frames, hemit, ?_⟩
                    rw [show _ = j.fwd.tables from ht]
                    rcases hframes with rfl | rfl
                    · exact .data hbuf hmark hudp hd
                    · exact .drop
            | true =>
                rw [if_pos rfl]
                have hwait {x : Job} (hmid : x.fwd.midToLocal = j.fwd.midToLocal)
                    (ht : x.fwd.tables = (l2CryptoReassembleUdp env j.fwd.crypto j.fwd.tables w buf
                      wire.length j.self.cryptoAux).1) : ∃ frames, Emits j.fwd x.fwd frames ∧
                        Restores env j wire x.fwd.tables frames := by
                  refine ⟨[], emits_nil hmid, ?_⟩
                  rw [ht]
                  exact .udp hw (by omega) hbuf fun _ hf => by cases hf
                cases hq : (l2CryptoReassembleUdp env j.fwd.crypto j.fwd.tables w buf wire.length
                    j.self.cryptoAux).2 with
                | wait => exact hwait rfl rfl
                | fail => exact hwait rfl rfl
                | done out n =>
                    dsimp only
                    generalize hj1 : ({ j with
                      fwd := { j.fwd with tables := (l2CryptoReassembleUdp env j.fwd.crypto
                        j.fwd.tables w buf wire.length j.self.cryptoAux).1 }
                      self := { j.self with cryptoBuf := buf, cryptoAux := out } } : Job) = j1
                    have ht1 : j1.fwd.tables = (l2CryptoReassembleUdp env j.fwd.crypto j.fwd.tables w
                        buf wire.length j.self.cryptoAux).1 := by rw [← hj1]
                    obtain ⟨frames, hemit, hframes, ht⟩ := @writeRoute_emits_or j j1 w out n
                      hr.writable' (by rw [← hj1]) (by rw [← hj1]) (by rw [← hj1])
                    refine ⟨frames, hemit, ?_⟩
                    rw [ht, ht1]
                    refine .udp hw (by omega) hbuf fun frame hf => ?_
                    rcases hframes with rfl | rfl
                    · rw [List.mem_singleton] at hf
                      exact ⟨out, n, hf, hq⟩
                    · cases hf
      · -- longer than the buffer of the worker
        have hlin : nePacketLinearize j.fwd.pair j.pkt j.self.cryptoBuf neJumboFrameMax =
            (false, j.self.cryptoBuf) := by
          rw [nePacketLinearize, if_pos (by rw [hpl]; omega)]
        rw [hlin]
        exact hdrop rfl rfl

end Restores

end NetworkEncryptor
