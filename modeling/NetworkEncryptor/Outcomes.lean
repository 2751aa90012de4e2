import NetworkEncryptor.Dataplane
import Mathlib.Logic.Relation

/-!
# NetworkEncryptor.Outcomes

What `dataplane_process_local` and `dataplane_process_wan` can do, along all
their exits, said once: they hand a list of packets to one output ring, they
change the UMEM by a sequence of packet operations that takes the packet they
were given to the packets they hand on, and they leave every other part of the
process alone.

The invariants over whole runs (no frame lost, order kept) are proved from
`dataplaneProcessLocal_outcome` and `dataplaneProcessWan_outcome`; nothing
above this module unfolds the two functions for them.
-/

namespace NetworkEncryptor

/-! ## operations on held packets -/

/-- The same segments, lengths and capacities; addressing and history may
differ. -/
structure SameSegs (pkt pkt' : NePacket) : Prop where
  segAddr : pkt'.segAddr = pkt.segAddr
  segLen : pkt'.segLen = pkt.segLen
  segCap : pkt'.segCap = pkt.segCap
  nsegs : pkt'.nsegs = pkt.nsegs
  len : pkt'.len = pkt.len

theorem SameSegs.refl (pkt : NePacket) : SameSegs pkt pkt := ⟨rfl, rfl, rfl, rfl, rfl⟩

/-- One operation on the UMEM and the packets a thread holds. -/
inductive UmemMove : NePair × List NePacket → NePair × List NePacket → Prop
  | write {p p' pkt pkt' rest src len ok} : nePacketWrite p pkt src len = (ok, p', pkt') →
      UmemMove (p, pkt :: rest) (p', pkt' :: rest)
  | free (p pkt rest) :
      UmemMove (p, pkt :: rest) ((nePacketFree p pkt).1, NePacket.zero :: rest)
  | stamp {p pkt pkt' rest} : SameSegs pkt pkt' → UmemMove (p, pkt :: rest) (p, pkt' :: rest)
  | new (p rest) : UmemMove (p, rest) (p, NePacket.zero :: rest)
  | forget (p rest) : UmemMove (p, NePacket.zero :: rest) (p, rest)
  | swap (p a b) : UmemMove (p, [a, b]) (p, [b, a])

/-- Any number of operations. -/
abbrev UmemMoves := Relation.ReflTransGen UmemMove

theorem umemMoves_drop (p : NePair) (pkt : NePacket) (rest : List NePacket) :
    UmemMoves (p, pkt :: rest) ((nePacketFree p pkt).1, rest) :=
  .tail (.single (.free p pkt rest)) (.forget _ _)

theorem freeSegs_congr {pkt pkt' : NePacket} (h : pkt'.segAddr = pkt.segAddr) (k : Nat) :
    ∀ (i : Nat) (p : NePair), freeSegs pkt' k i p = freeSegs pkt k i p := by
  induction k with
  | zero => intro i p; rfl
  | succ k ih => intro i p; rw [freeSegs, freeSegs, h, ih]

/-- Freeing looks at the segments only. -/
theorem SameSegs.free {pkt pkt' : NePacket} (h : SameSegs pkt pkt') (p : NePair) :
    nePacketFree p pkt' = nePacketFree p pkt := by
  have hcount : pkt'.segCount = pkt.segCount := by
    rw [NePacket.segCount, NePacket.segCount, NePacket.addr, NePacket.addr, h.nsegs, h.len, h.segAddr]
  rw [nePacketFree, nePacketFree, hcount, freeSegs_congr h.segAddr]

/-- What a successful write says of the length. -/
theorem nePacketWrite_len {p p' : NePair} {pkt pkt' : NePacket} {src : Mem} {len : Nat}
    (h : nePacketWrite p pkt src len = (true, p', pkt')) :
    pkt'.len = len ∧ 0 < len ∧ len ≤ neJumboFrameMax := by
  rw [nePacketWrite] at h
  by_cases hlen : len = 0 ∨ len > neJumboFrameMax
  · rw [if_pos hlen] at h; cases h
  · rw [if_neg hlen] at h
    dsimp only at h
    split at h
    · cases h
    · rw [Prod.mk.injEq, Prod.mk.injEq] at h
      exact ⟨by rw [← h.2.2], by omega, by omega⟩

/-- A packet keeps its history while it grows. -/
theorem packetGrow_history (len fuel : Nat) : ∀ g : Growing,
    (packetGrow len fuel g).pkt.history = g.pkt.history := by
  induction fuel with
  | zero => intro g; rfl
  | succ fuel ih =>
      intro g
      rw [packetGrow]
      split
      · cases neFrameAlloc g.pair with
        | none => rfl
        | some r => exact ih _
      · rfl

theorem packetFill_history (src : Mem) (len k : Nat) :
    ∀ (i off : Nat) (p : NePair) (pkt : NePacket),
      (packetFill src len k i off p pkt).2.1.history = pkt.history := by
  induction k with
  | zero => intro i off p pkt; rfl
  | succ k ih => intro i off p pkt; rw [packetFill]; exact ih ..

theorem packetTrim_history (k : Nat) : ∀ (i : Nat) (p : NePair) (pkt : NePacket),
    (packetTrim k i p pkt).2.history = pkt.history := by
  induction k with
  | zero => intro i p pkt; rfl
  | succ k ih => intro i p pkt; rw [packetTrim]; exact ih ..

/-- A write keeps the history of the packet. -/
theorem nePacketWrite_history (p : NePair) (pkt : NePacket) (src : Mem) (len : Nat) :
    (nePacketWrite p pkt src len).2.2.history = pkt.history := by
  rw [nePacketWrite]
  by_cases hlen : len = 0 ∨ len > neJumboFrameMax
  · rw [if_pos hlen]
  · rw [if_neg hlen]
    dsimp only
    generalize hg : packetGrow len nePacketMaxSegs
      ⟨p, pkt, pkt.segCount, packetCapacity pkt pkt.segCount⟩ = g
    have hgrow := packetGrow_history len nePacketMaxSegs
      ⟨p, pkt, pkt.segCount, packetCapacity pkt pkt.segCount⟩
    rw [hg] at hgrow
    split
    · exact hgrow
    · exact (packetTrim_history _ _ _ _).trans ((packetFill_history src len g.nsegs 0 0 _ _).trans hgrow)

/-! ## rings -/

/-- A ring with packets appended. -/
def NeRing.append (r : NeRing) (pkts : List NePacket) : NeRing := { r with items := r.items ++ pkts }

@[simp] theorem NeRing.append_nil (r : NeRing) : r.append [] = r := by
  rw [NeRing.append, List.append_nil]

/-- The process after `pkts` went to an output ring towards the WAN. -/
def Forwarder.pushWan (fwd : Forwarder) (ri : Nat) (pkts : List NePacket) : Forwarder :=
  fwd.setMidToWan 0 ri ((fwd.midToWan 0 ri).append pkts)

/-- The process after `pkts` went to an output ring towards the LAN. -/
def Forwarder.pushLocal (fwd : Forwarder) (ri : Nat) (pkts : List NePacket) : Forwarder :=
  fwd.setMidToLocal 0 ri ((fwd.midToLocal 0 ri).append pkts)

@[simp] theorem Forwarder.pushWan_nil (fwd : Forwarder) (ri : Nat) : fwd.pushWan ri [] = fwd := by
  rw [Forwarder.pushWan, Forwarder.setMidToWan, NeRing.append_nil, Function.update_eq_self,
    Function.update_eq_self]

@[simp] theorem Forwarder.pushLocal_nil (fwd : Forwarder) (ri : Nat) :
    fwd.pushLocal ri [] = fwd := by
  rw [Forwarder.pushLocal, Forwarder.setMidToLocal, NeRing.append_nil, Function.update_eq_self,
    Function.update_eq_self]

/-- What a worker hands on for a packet with history `h`: nothing, one packet,
or a pair.  What it hands on is not empty and keeps the history. -/
inductive Handed (h : Nat × Nat × Option Flow) : List NePacket → Prop
  | none : Handed h []
  | one {q} : q.len ≠ 0 → q.history = h → Handed h [q]
  | pair {q r} : q.len ≠ 0 → q.history = h → r.len ≠ 0 → r.history = (h.1, 1, h.2.2) →
      Handed h [q, r]

/-! ## the inside of a worker -/

/-- A lookup in the route table. -/
inductive RouteCall : RouteState → RouteState → Prop
  | nextSeq (rt tls buf len) : RouteCall rt (dpUdpNextTxSeq rt tls buf len).2.1
  | get (rt buf len hint) : RouteCall rt (dpFlowRouteGet rt buf len hint).2

/-- Any number of lookups. -/
abbrev RouteCalls := Relation.ReflTransGen RouteCall

/-- A stretch of a worker's code that touches no ring. -/
structure Quiet (j j' : Job) : Prop where
  fwd : ∃ route epoch, j'.fwd =
    { j.fwd with pair := j'.fwd.pair, route := route, epoch := epoch } ∧ RouteCalls j.fwd.route route
  moves : UmemMoves (j.fwd.pair, [j.pkt]) (j'.fwd.pair, [j'.pkt])
  history : j'.pkt.history = j.pkt.history
  worker : j'.self.tls.cryptoWorkerIdx = j.self.tls.cryptoWorkerIdx
  ring : j'.self.tls.outRingIdx = j.self.tls.outRingIdx

theorem Quiet.refl (j : Job) : Quiet j j := ⟨⟨_, _, rfl, .refl⟩, .refl, rfl, rfl, rfl⟩

theorem Quiet.trans {j j' j'' : Job} (h : Quiet j j') (h' : Quiet j' j'') : Quiet j j'' := by
  obtain ⟨rt, e, hf, hr⟩ := h.fwd
  obtain ⟨rt', e', hf', hr'⟩ := h'.fwd
  refine ⟨⟨rt', e', ?_, ?_⟩, h.moves.trans h'.moves, h'.history.trans h.history,
    h'.worker.trans h.worker, h'.ring.trans h.ring⟩
  · rw [hf', hf]
  · rw [hf] at hr'; exact hr.trans hr'

/-- Only the buffers and the crypto state of the thread change. -/
theorem Quiet.of_self {j j' : Job} (hf : j'.fwd = { j.fwd with epoch := j'.fwd.epoch })
    (hp : j'.pkt = j.pkt) (ht : j'.self.tls = j.self.tls) : Quiet j j' := by
  have hpair : j'.fwd.pair = j.fwd.pair := by rw [hf]
  refine ⟨⟨j.fwd.route, j'.fwd.epoch, ?_, .refl⟩, ?_, ?_, ?_, ?_⟩
  · rw [hpair]; exact hf
  · rw [hpair, hp]
  · rw [hp]
  · rw [ht]
  · rw [ht]

theorem Quiet.write (j : Job) (src : Mem) (len : Nat) : Quiet j (j.write src len).2 :=
  ⟨⟨_, _, rfl, .refl⟩, .single (.write rfl), nePacketWrite_history j.fwd.pair j.pkt src len, rfl, rfl⟩

/-- The answer of `Job.write` on the packet. -/
theorem Job.write_eq (j : Job) (src : Mem) (len : Nat) :
    nePacketWrite j.fwd.pair j.pkt src len =
      ((j.write src len).1, (j.write src len).2.fwd.pair, (j.write src len).2.pkt) := rfl

theorem Quiet.txSeqStep (j : Job) (buf : Mem) (len : Nat) (flowOk : Bool) :
    Quiet j (txSeqStep j buf len flowOk).2 := by
  have hcall := Relation.ReflTransGen.single
    (RouteCall.nextSeq j.fwd.route j.self.tls buf len)
  have htls : (dpUdpNextTxSeq j.fwd.route j.self.tls buf len).2.2.cryptoWorkerIdx =
        j.self.tls.cryptoWorkerIdx ∧
      (dpUdpNextTxSeq j.fwd.route j.self.tls buf len).2.2.outRingIdx = j.self.tls.outRingIdx := by
    rw [dpUdpNextTxSeq]
    split
    · exact ⟨rfl, rfl⟩
    · split
      · exact ⟨rfl, rfl⟩
      · split
        · exact ⟨rfl, rfl⟩
        · dsimp only
          split
          · exact ⟨rfl, rfl⟩
          · rw [dpUdpSeqFromFallback]
            dsimp only
            split <;> exact ⟨rfl, rfl⟩
  rw [NetworkEncryptor.txSeqStep]
  cases flowOk with
  | false => exact Quiet.refl j
  | true =>
      simp only [Bool.not_true, Bool.false_eq_true, if_false]
      cases hr : (dpUdpNextTxSeq j.fwd.route j.self.tls buf len).1 with
      | none => exact ⟨⟨_, _, rfl, hcall⟩, .refl, rfl, htls.1, htls.2⟩
      | some seq => exact ⟨⟨_, _, rfl, hcall⟩, .refl, rfl, htls.1, htls.2⟩

/-! ## LAN to WAN -/

/-- A frame encrypted in place is in the packet; otherwise the caller has the
packet to free. -/
theorem encryptSingle_outcome (env : Env) (j : Job) (proto : L2CryptoProto) (len : Nat) :
    (encryptSingle env j proto len).1 ≠ .pushed ∧ Quiet j (encryptSingle env j proto len).2 ∧
      ((encryptSingle env j proto len).1 = .inPlace →
        (encryptSingle env j proto len).2.pkt.len ≠ 0) := by
  rw [encryptSingle]
  cases henc : l2CryptoEncrypt env proto j.fwd.crypto j.self.cryptoBuf len j.l2 with
  | mk r s =>
      cases r with
      | none => exact ⟨by simp, .of_self rfl rfl rfl, by simp⟩
      | some r =>
          obtain ⟨buf, len'⟩ := r
          dsimp only
          generalize hj : ({ j.setL2 s with self := { (j.setL2 s).self with cryptoBuf := buf } } : Job) =
            j1
          have hq : Quiet j j1 := by rw [← hj]; exact .of_self rfl rfl rfl
          by_cases hlen : len' > ethHeaderSize + l2CryptoMtu
          · rw [if_pos hlen]; exact ⟨by simp, hq, by simp⟩
          · rw [if_neg hlen]
            have hw := Job.write_eq j1 buf len'
            refine ⟨?_, hq.trans (.write j1 buf len'), ?_⟩
            · dsimp only; split <;> simp
            · intro hin
              cases hok : (j1.write buf len').1 with
              | false => rw [hok] at hin; cases hin
              | true =>
                  rw [hok] at hw
                  have := nePacketWrite_len hw
                  dsimp only
                  omega

/-- Packets handed to an output ring towards the WAN. -/
structure PushedWan (j j' : Job) (pkts : List NePacket) : Prop where
  fwd : ∃ route epoch, j'.fwd = { j.fwd.pushWan j.self.tls.outRingIdx pkts with
    pair := j'.fwd.pair, route := route, epoch := epoch } ∧ RouteCalls j.fwd.route route
  moves : UmemMoves (j.fwd.pair, [j.pkt]) (j'.fwd.pair, pkts)
  handed : Handed j.pkt.history pkts
  worker : j'.self.tls.cryptoWorkerIdx = j.self.tls.cryptoWorkerIdx

/-- A quiet stretch before a push. -/
theorem Quiet.pushedWan {j j' j'' : Job} {pkts : List NePacket} (h : Quiet j j')
    (h' : PushedWan j' j'' pkts) : PushedWan j j'' pkts := by
  obtain ⟨rt, e, hf, hr⟩ := h.fwd
  obtain ⟨rt', e', hf', hr'⟩ := h'.fwd
  refine ⟨⟨rt', e', ?_, ?_⟩, h.moves.trans h'.moves, ?_, h'.worker.trans h.worker⟩
  · rw [hf', hf, h.ring]; rfl
  · rw [hf] at hr'; exact hr.trans hr'
  · rw [← h.history]; exact h'.handed

/-- A dropped packet is freed, and nothing is pushed. -/
theorem Quiet.freed {j j' : Job} (h : Quiet j j') : PushedWan j j'.free [] := by
  obtain ⟨rt, e, hf, hr⟩ := h.fwd
  refine ⟨⟨rt, e, ?_, hr⟩, h.moves.trans (umemMoves_drop _ _ _), .none, h.worker⟩
  rw [Forwarder.pushWan_nil, Job.free, hf]

/-- With a second packet in hand, the pair goes to the ring or the second
packet is freed. -/
theorem pushSplitToWan_outcome (j : Job) (l1 l2 : Nat) (tail : NePacket)
    (hl1 : j.pkt.len = l1) (hl2 : tail.len = l2) :
    ((pushSplitToWan j l1 tail l2 0).1 = false ∧
      ∃ pkt, SameSegs j.pkt pkt ∧ pkt.history = j.pkt.history ∧
        (pushSplitToWan j l1 tail l2 0).2 =
          { j with fwd := { j.fwd with pair := (nePacketFree j.fwd.pair tail).1 }, pkt := pkt }) ∨
      ((pushSplitToWan j l1 tail l2 0).1 = true ∧ ∃ q t, SameSegs j.pkt q ∧ SameSegs tail t ∧
        Handed j.pkt.history [q, t] ∧
        (pushSplitToWan j l1 tail l2 0).2 =
          { j with fwd := j.fwd.pushWan j.self.tls.outRingIdx [q, t], pkt := q }) := by
  have hsame : SameSegs j.pkt { j.pkt with len := l1, dir := .wan, wanIdx := 0 % 256 } :=
    ⟨rfl, rfl, rfl, rfl, hl1.symm⟩
  have htail : SameSegs tail
      { tail with len := l2, dir := .wan, wanIdx := 0 % 256,
                  tag := j.pkt.tag, part := 1, flow := j.pkt.flow } := ⟨rfl, rfl, rfl, rfl, hl2.symm⟩
  rw [pushSplitToWan]
  by_cases hcount : 0 ≥ j.fwd.wanCount ∨
      neRingCount (j.fwd.midToWan 0 j.self.tls.outRingIdx) + 2 >
        (j.fwd.midToWan 0 j.self.tls.outRingIdx).cap
  · rw [if_pos hcount]
    exact .inl ⟨rfl, j.pkt, .refl _, rfl, rfl⟩
  · rw [if_neg hcount]
    by_cases hlen : l1 = 0 ∨ l2 = 0 ∨ l1 > neJumboFrameMax ∨ l2 > neJumboFrameMax
    · rw [if_pos hlen]
      exact .inl ⟨rfl, j.pkt, .refl _, rfl, rfl⟩
    · rw [if_neg hlen]
      dsimp only
      cases hpush : neRingTryPushPair (j.fwd.midToWan 0 j.self.tls.outRingIdx)
          { j.pkt with len := l1, dir := .wan, wanIdx := 0 % 256 }
          { tail with len := l2, dir := .wan, wanIdx := 0 % 256,
                      tag := j.pkt.tag, part := 1, flow := j.pkt.flow } with
      | none =>
          refine .inl ⟨rfl, _, hsame, rfl, ?_⟩
          dsimp only
          rw [htail.free]
      | some ring =>
          have hring := neRingTryPushPair_eq_some hpush
          refine .inr ⟨rfl, _, _, hsame, htail, ?_, ?_⟩
          · exact .pair (by dsimp only; omega) rfl (by dsimp only; omega) rfl
          · rw [hring]; rfl

/-- The split branch: a pair on the ring, or everything but the packet freed. -/
theorem encryptSplit_outcome (env : Env) (j : Job) (len : Nat) :
    ((encryptSplit env j len 0).1 = .fail ∧ Quiet j (encryptSplit env j len 0).2) ∨
      ((encryptSplit env j len 0).1 = .pushed ∧
        ∃ q t, PushedWan j (encryptSplit env j len 0).2 [q, t]) := by
  rw [encryptSplit]
  cases hsplit : l2CryptoSplitUdp env j.fwd.crypto j.self.cryptoBuf len neJumboFrameMax
      j.self.cryptoAux neJumboFrameMax j.l2 with
  | mk r s =>
      cases r with
      | none => exact .inl ⟨rfl, .of_self rfl rfl rfl⟩
      | some r =>
          dsimp only
          generalize hj : ({ j.setL2 s with
            self := { (j.setL2 s).self with cryptoBuf := r.first, cryptoAux := r.second } } : Job) = j1
          have hq1 : Quiet j j1 := by rw [← hj]; exact .of_self rfl rfl rfl
          have hw := Job.write_eq j1 r.first r.firstLen
          have hq2 : Quiet j (j1.write r.first r.firstLen).2 := hq1.trans (.write j1 _ _)
          generalize hj2 : (j1.write r.first r.firstLen).2 = j2 at hw hq2
          cases hok : (j1.write r.first r.firstLen).1 with
          | false =>
              rw [if_neg (by simp)]
              refine .inl ⟨rfl, hq2.trans ?_⟩
              exact ⟨⟨_, _, rfl, .refl⟩, .trans (.single (.new _ _)) (umemMoves_drop _ _ _), rfl, rfl, rfl⟩
          | true =>
              rw [hok] at hw
              have hl1 := (nePacketWrite_len hw).1
              rw [if_pos rfl]
              cases ht : nePacketWrite j2.fwd.pair NePacket.zero r.second r.secondLen with
              | mk okt rest =>
                  obtain ⟨p3, tail⟩ := rest
                  have hmv : UmemMoves (j2.fwd.pair, [j2.pkt]) (p3, [tail, j2.pkt]) :=
                    .tail (.single (.new _ _)) (.write ht)
                  dsimp only
                  cases okt with
                  | false =>
                      rw [if_neg (by simp)]
                      exact .inl ⟨rfl, hq2.trans
                        ⟨⟨_, _, rfl, .refl⟩, hmv.trans (umemMoves_drop _ _ _), rfl, rfl, rfl⟩⟩
                  | true =>
                      have hl2 := (nePacketWrite_len ht).1
                      rw [if_pos rfl]
                      rcases pushSplitToWan_outcome { j2 with fwd := { j2.fwd with pair := p3 } }
                          r.firstLen r.secondLen tail hl1 hl2 with
                        ⟨hfail, pkt, hsame, hhist, hres⟩ | ⟨hpushed, q, t, hsq, hst, hh, hres⟩
                      · refine .inl ⟨by rw [hfail]; rfl, hq2.trans ?_⟩
                        rw [hres]
                        exact ⟨⟨_, _, rfl, .refl⟩,
                          hmv.trans (.tail (umemMoves_drop _ _ _) (.stamp hsame)), hhist, rfl, rfl⟩
                      · refine .inr ⟨by rw [hpushed]; rfl, q, t, hq2.pushedWan ?_⟩
                        rw [hres]
                        refine ⟨⟨_, _, rfl, .refl⟩, hmv.trans ?_, hh, rfl⟩
                        have hq : UmemMoves (p3, [tail, j2.pkt]) (p3, [tail, q]) :=
                          .tail (.tail (.single (.swap _ _ _)) (.stamp hsq)) (.swap _ _ _)
                        exact .tail (.tail hq (.stamp hst)) (.swap _ _ _)

/-- What `encrypt_to_wan` leaves to its caller. -/
theorem encryptToWan_outcome (env : Env) (j : Job) (proto : L2CryptoProto) (flowOk : Bool) :
    match encryptToWan env j 0 proto flowOk with
    | (.fail, j') => Quiet j j'
    | (.inPlace, j') => Quiet j j' ∧ j'.pkt.len ≠ 0
    | (.pushed, j') => ∃ q t, PushedWan j j' [q, t] := by
  rw [encryptToWan]
  dsimp only
  generalize hbuf : (if proto ≠ .udp then
    (cryptoTcpClampMss j.self.cryptoBuf j.pkt.len l2CryptoMtu l2CryptoDataOverhead).2
    else j.self.cryptoBuf) = buf
  generalize hj1 : ({ j with self := { j.self with cryptoBuf := buf } } : Job) = j1
  have hq1 : Quiet j j1 := by rw [← hj1]; exact .of_self rfl rfl rfl
  generalize hseq : (if proto = .udp ∨ l2CryptoNeedSplit proto j.pkt.len = true then
    txSeqStep j1 buf j.pkt.len flowOk else (true, j1)) = q
  have hq2 : Quiet j q.2 := by
    rw [← hseq]
    by_cases hc : proto = .udp ∨ l2CryptoNeedSplit proto j.pkt.len = true
    · rw [if_pos hc]; exact hq1.trans (.txSeqStep j1 _ _ _)
    · rw [if_neg hc]; exact hq1
  cases hok : q.1 with
  | false => rw [if_pos (by simp)]; exact hq2
  | true =>
      rw [if_neg (by simp)]
      by_cases hsplit : l2CryptoNeedSplit proto j.pkt.len = true
      · rw [if_pos hsplit]
        rcases encryptSplit_outcome env q.2 j.pkt.len with ⟨hf, hq⟩ | ⟨hp, a, b, hpw⟩
        · cases hr : encryptSplit env q.2 j.pkt.len 0 with
          | mk r j' =>
              rw [hr] at hf hq
              cases hf
              exact hq2.trans hq
        · cases hr : encryptSplit env q.2 j.pkt.len 0 with
          | mk r j' =>
              rw [hr] at hp hpw
              cases hp
              exact ⟨a, b, hq2.pushedWan hpw⟩
      · rw [if_neg hsplit]
        obtain ⟨hnp, hq, hin⟩ := encryptSingle_outcome env q.2 proto j.pkt.len
        cases hr : encryptSingle env q.2 proto j.pkt.len with
        | mk r j' =>
            rw [hr] at hnp hq hin
            cases r with
            | fail => exact hq2.trans hq
            | inPlace => exact ⟨hq2.trans hq, hin rfl⟩
            | pushed => exact absurd rfl hnp

/-- `dp_ring_push` hands the packet to the ring or frees it. -/
theorem dpRingPush_cases (j : Job) (ring : NeRing) (put : NeRing → Forwarder → Forwarder) :
    dpRingPush j ring put = (false, j.free) ∨
      dpRingPush j ring put = (true, { j with fwd := put (ring.append [j.pkt]) j.fwd }) := by
  rw [dpRingPush]
  by_cases hlen : j.pkt.len > neJumboFrameMax
  · rw [if_pos hlen]; exact .inl rfl
  · rw [if_neg hlen]
    cases hpush : neRingTryPush ring j.pkt with
    | none => exact .inl rfl
    | some r => exact .inr (by rw [neRingTryPush_eq_some hpush]; rfl)

/-- The job with the linearized packet in the buffer of its worker. -/
def Job.withBuf (j : Job) (buf : Mem) : Job := { j with self := { j.self with cryptoBuf := buf } }

theorem Quiet.withBuf (j : Job) (buf : Mem) : Quiet j (j.withBuf buf) := .of_self rfl rfl rfl

/-- The end of `dataplane_process_local`: push what was encrypted in place. -/
theorem pushToWan_outcome {j : Job} (hlen : j.pkt.len ≠ 0) :
    ∃ pkts, PushedWan j (pushToWan j 0).2 pkts := by
  generalize hj1 : ({ j with pkt := { j.pkt with dir := .wan, wanIdx := 0 % 256 } } : Job) = j1
  have hq : Quiet j j1 := by
    rw [← hj1]
    exact ⟨⟨_, _, rfl, .refl⟩, .single (.stamp ⟨rfl, rfl, rfl, rfl, rfl⟩), rfl, rfl, rfl⟩
  have hlen1 : j1.pkt.len ≠ 0 := by rw [← hj1]; exact hlen
  have hpush : (pushToWan j 0).2 = (dpRingPush j1 (j1.fwd.midToWan 0 j1.self.tls.outRingIdx)
      fun ring fwd => fwd.setMidToWan 0 j1.self.tls.outRingIdx ring).2 := by
    rw [← hj1]; rfl
  rw [hpush]
  rcases dpRingPush_cases j1 (j1.fwd.midToWan 0 j1.self.tls.outRingIdx)
      (fun ring fwd => fwd.setMidToWan 0 j1.self.tls.outRingIdx ring) with h | h
  · rw [h]; exact ⟨[], hq.freed⟩
  · rw [h]
    exact ⟨_, hq.pushedWan ⟨⟨_, _, rfl, .refl⟩, .refl, .one hlen1 rfl, rfl⟩⟩

/-- What `dataplane_process_local` does with the answer of `encrypt_to_wan`. -/
def egressEnd : EncResult × Job → Job
  | (.fail, j) => j.free
  | (.pushed, j) => j
  | (.inPlace, j) => (pushToWan j 0).2

/-- The steps of `dataplane_process_local`: linearize, parse, encrypt, push. -/
theorem dataplaneProcessLocal_eq {env : Env} {j : Job} {lin : Bool × Mem}
    (hlin : nePacketLinearize j.fwd.pair j.pkt j.self.cryptoBuf neJumboFrameMax = lin) :
    dataplaneProcessLocal env j =
      if !lin.1 then (j.withBuf lin.2).free
      else if (j.withBuf lin.2).fwd.wanCount ≠ 1 then (j.withBuf lin.2).free
      else egressEnd (encryptToWan env (j.withBuf lin.2) 0
        (l2CryptoClassify (dpParseFlow lin.2 j.pkt.len).2.toNat)
        (dpParseFlow lin.2 j.pkt.len).1.isSome) := by
  rw [← hlin]; rfl

/-- What `dataplane_process_local` does, on every path. -/
theorem dataplaneProcessLocal_outcome (env : Env) (j : Job) :
    ∃ pkts, PushedWan j (dataplaneProcessLocal env j) pkts := by
  generalize hlin : nePacketLinearize j.fwd.pair j.pkt j.self.cryptoBuf neJumboFrameMax = lin
  have hq1 := Quiet.withBuf j lin.2
  rw [dataplaneProcessLocal_eq hlin]
  generalize j.withBuf lin.2 = j1 at hq1
  cases hok : lin.1 with
  | false => rw [if_pos (by simp)]; exact ⟨[], hq1.freed⟩
  | true =>
      rw [if_neg (by simp)]
      by_cases hwan : j1.fwd.wanCount ≠ 1
      · rw [if_pos hwan]; exact ⟨[], hq1.freed⟩
      · rw [if_neg hwan]
        generalize l2CryptoClassify (dpParseFlow lin.2 j.pkt.len).2.toNat = proto
        generalize (dpParseFlow lin.2 j.pkt.len).1.isSome = flowOk
        have henc := encryptToWan_outcome env j1 proto flowOk
        cases hr : encryptToWan env j1 0 proto flowOk with
        | mk r j2 =>
            rw [hr] at henc
            cases r with
            | fail => exact ⟨[], (hq1.trans henc).freed⟩
            | pushed =>
                obtain ⟨a, b, hpw⟩ := henc
                exact ⟨[a, b], hq1.pushedWan hpw⟩
            | inPlace =>
                obtain ⟨pkts, hpw⟩ := pushToWan_outcome henc.2
                exact ⟨pkts, (hq1.trans henc.1).pushedWan hpw⟩

/-! ## WAN to LAN -/

/-- A packet handed to output ring `ri` towards the LAN: routed by the restored
frame, `len` bytes of `out`. -/
structure HandedLocal (j : Job) (ri : Nat) (route : RouteState) (q : NePacket) : Prop where
  worker : ∃ w out len, j.self.tls.cryptoWorkerIdx = some w ∧ w < neCryptoWorkers ∧
    route = (dpFlowPickTxSlot j.fwd.route out len (some w)).2 ∧
    ri = (dpOutRingBind route (dpFlowPickTxSlot j.fwd.route out len (some w)).1 j.self.tls).outRingIdx ∧
    q.flow = (dpParseFlow out len).1
  len : q.len ≠ 0
  tag : q.tag = j.pkt.tag
  part : q.part = j.pkt.part

/-- What a worker did with a packet from the WAN: it handed on at most one. -/
structure PushedLocal (j j' : Job) (pkts : List NePacket) : Prop where
  fwd : ∃ ri route tables, j'.fwd = { j.fwd.pushLocal ri pkts with
    pair := j'.fwd.pair, route := route, tables := tables } ∧ RouteCalls j.fwd.route route ∧
      (pkts = [] ∨ ∃ q, pkts = [q] ∧ HandedLocal j ri route q)
  moves : UmemMoves (j.fwd.pair, [j.pkt]) (j'.fwd.pair, pkts)
  worker : j'.self.tls.cryptoWorkerIdx = j.self.tls.cryptoWorkerIdx

/-- A dropped packet is freed. -/
theorem PushedLocal.freed {j j' : Job} (hf : ∃ route tables, j'.fwd = { j.fwd with
      pair := j'.fwd.pair, route := route, tables := tables } ∧ RouteCalls j.fwd.route route)
    (hm : UmemMoves (j.fwd.pair, [j.pkt]) (j'.fwd.pair, [j'.pkt]))
    (hw : j'.self.tls.cryptoWorkerIdx = j.self.tls.cryptoWorkerIdx) : PushedLocal j j'.free [] := by
  obtain ⟨rt, tables, hfwd, hr⟩ := hf
  refine ⟨⟨0, rt, tables, ?_, hr, .inl rfl⟩, hm.trans (umemMoves_drop _ _ _), hw⟩
  rw [Forwarder.pushLocal_nil, Job.free, hfwd]

/-- `forward_local` refuses, frees, or hands on. -/
theorem forwardLocal_cases (j : Job) : ∃ q, SameSegs j.pkt q ∧ q.history = j.pkt.history ∧
    (forwardLocal j = (false, j) ∨ forwardLocal j = (false, { j with pkt := q }.free) ∨
      forwardLocal j =
        (true, { j with fwd := j.fwd.pushLocal j.self.tls.outRingIdx [q], pkt := q })) := by
  refine ⟨{ j.pkt with dir := .local, localIdx := 0 }, ⟨rfl, rfl, rfl, rfl, rfl⟩, rfl, ?_⟩
  rw [forwardLocal]
  by_cases hcount : j.fwd.localCount ≠ 1
  · rw [if_pos hcount]; exact .inl rfl
  · rw [if_neg hcount]
    exact .inr (dpRingPush_cases { j with pkt := { j.pkt with dir := .local, localIdx := 0 } }
      (j.fwd.midToLocal 0 j.self.tls.outRingIdx)
      (fun ring fwd => fwd.setMidToLocal 0 j.self.tls.outRingIdx ring))

/-- The end of `dataplane_process_wan`: the packet has been written, and goes to
the ring its flow is bound to. -/
theorem routeLocal_outcome {j j' : Job} {out : Mem} {w : Nat}
    (hf : ∃ tables, j'.fwd = { j.fwd with pair := j'.fwd.pair, tables := tables })
    (hm : UmemMoves (j.fwd.pair, [j.pkt]) (j'.fwd.pair, [j'.pkt]))
    (ht : j'.self.tls = j.self.tls) (hw : j.self.tls.cryptoWorkerIdx = some w)
    (hwlt : w < neCryptoWorkers) (hlen : j'.pkt.len ≠ 0) (hhist : j'.pkt.history = j.pkt.history) :
    ∃ pkts, PushedLocal j (routeLocal j' out w) pkts := by
  obtain ⟨tables, hfwd⟩ := hf
  have hroute : j'.fwd.route = j.fwd.route := by rw [hfwd]
  have htag : j'.pkt.tag = j.pkt.tag := congrArg (·.1) hhist
  have hpart : j'.pkt.part = j.pkt.part := congrArg (·.2.1) hhist
  generalize hr : dpFlowPickTxSlot j.fwd.route out j'.pkt.len (some w) = r
  have hcall : RouteCalls j.fwd.route r.2 := by
    rw [← hr]; exact .single (.get j.fwd.route out j'.pkt.len (some w))
  -- the job as `forward_local` gets it
  generalize hj1 : ({ j' with
    fwd := { j'.fwd with route := r.2 }
    self := { j'.self with tls := dpOutRingBind r.2 r.1 j'.self.tls }
    pkt := { j'.pkt with flow := (dpParseFlow out j'.pkt.len).1 } } : Job) = j1
  have hrun : routeLocal j' out w =
      if (forwardLocal j1).1 then (forwardLocal j1).2 else (forwardLocal j1).2.free := by
    rw [routeLocal, hroute, hr]
    dsimp only
    rw [hj1]
  have hfwd1 : j1.fwd = { j.fwd with pair := j'.fwd.pair, tables := tables, route := r.2 } := by
    rw [← hj1, hfwd]
  have hm1 : UmemMoves (j.fwd.pair, [j.pkt]) (j1.fwd.pair, [j1.pkt]) := by
    rw [← hj1]; exact .tail hm (.stamp ⟨rfl, rfl, rfl, rfl, rfl⟩)
  have hw1 : j1.self.tls.cryptoWorkerIdx = j.self.tls.cryptoWorkerIdx := by
    rw [← hj1, ← ht]; rfl
  have hpair1 : j1.fwd.pair = j'.fwd.pair := by rw [hfwd1]
  have hring1 : j1.self.tls.outRingIdx = (dpOutRingBind r.2 r.1 j.self.tls).outRingIdx := by
    rw [← hj1, ht]
  obtain ⟨q, hsame, hqhist, hcases⟩ := forwardLocal_cases j1
  have hm2 : UmemMoves (j.fwd.pair, [j.pkt]) (j1.fwd.pair, [q]) := .tail hm1 (.stamp hsame)
  rw [hrun]
  rcases hcases with h | h | h
  · rw [h]
    simp only [Bool.false_eq_true, if_false]
    exact ⟨[], .freed ⟨r.2, tables, by rw [hfwd1], hcall⟩ hm1 hw1⟩
  · -- freed in the callee, and once more, as a zeroed packet, by the caller
    rw [h]
    simp only [Bool.false_eq_true, if_false]
    refine ⟨[], .freed ⟨r.2, tables, ?_, hcall⟩ (hm2.tail (.free _ _ _)) hw1⟩
    simp only [Job.free, hfwd1]
  · rw [h]
    simp only [if_true]
    refine ⟨[q], ⟨j1.self.tls.outRingIdx, r.2, tables, ?_, hcall, .inr ⟨_, rfl, ?_⟩⟩, hm2, hw1⟩
    · rw [hfwd1]; rfl
    · have hq : q.history = (j'.pkt.tag, j'.pkt.part, (dpParseFlow out j'.pkt.len).1) := by
        rw [hqhist, ← hj1]; rfl
      refine ⟨⟨w, out, j'.pkt.len, hw, hwlt, by rw [hr], by rw [hr]; exact hring1, ?_⟩, ?_, ?_, ?_⟩
      · exact congrArg (·.2.2) hq
      · rw [hsame.len, ← hj1]; exact hlen
      · exact (congrArg (·.1) hq).trans htag
      · exact (congrArg (·.2.1) hq).trans hpart

/-- The two decoders end alike: write the restored frame and route it. -/
theorem writeRoute_outcome {j j' : Job} {out : Mem} {len w : Nat}
    (hf : ∃ tables, j'.fwd = { j.fwd with tables := tables }) (hpkt : j'.pkt = j.pkt)
    (ht : j'.self.tls = j.self.tls) (hw : j.self.tls.cryptoWorkerIdx = some w)
    (hwlt : w < neCryptoWorkers) :
    ∃ pkts, PushedLocal j (if (j'.write out len).1 then routeLocal (j'.write out len).2 out w
      else (j'.write out len).2.free) pkts := by
  obtain ⟨tables, hfwd⟩ := hf
  have hwr := Job.write_eq j' out len
  have hm : UmemMoves (j.fwd.pair, [j.pkt])
      ((j'.write out len).2.fwd.pair, [(j'.write out len).2.pkt]) := by
    have hp : j.fwd.pair = j'.fwd.pair := by rw [hfwd]
    rw [hp, ← hpkt]
    exact .single (.write hwr)
  have hhist : (j'.write out len).2.pkt.history = j.pkt.history := by
    rw [← hpkt]; exact nePacketWrite_history ..
  have hfwd' : (j'.write out len).2.fwd =
      { j.fwd with pair := (j'.write out len).2.fwd.pair, tables := tables } := by
    rw [Job.write, hfwd]
  have ht' : (j'.write out len).2.self.tls = j.self.tls := ht
  cases hok : (j'.write out len).1 with
  | false =>
      rw [if_neg (by simp)]
      exact ⟨[], .freed ⟨j.fwd.route, tables, hfwd', .refl⟩ hm (by rw [ht'])⟩
  | true =>
      rw [hok] at hwr
      have hlen := nePacketWrite_len hwr
      rw [if_pos rfl]
      exact routeLocal_outcome ⟨tables, hfwd'⟩ hm ht' hw hwlt (by omega) hhist

/-- What `dataplane_process_wan` does, on every path. -/
theorem dataplaneProcessWan_outcome (env : Env) (j : Job) :
    ∃ pkts, PushedLocal j (dataplaneProcessWan env j) pkts := by
  have hfree {j' : Job} (hf : ∃ tables, j'.fwd = { j.fwd with tables := tables })
      (hpkt : j'.pkt = j.pkt) (ht : j'.self.tls = j.self.tls) :
      ∃ pkts, PushedLocal j j'.free pkts := by
    obtain ⟨tables, hfwd⟩ := hf
    refine ⟨[], .freed ⟨j.fwd.route, tables, by rw [hfwd], .refl⟩ ?_ (by rw [ht])⟩
    rw [hfwd, hpkt]
  rw [dataplaneProcessWan]
  cases hw : j.self.tls.cryptoWorkerIdx with
  | none => exact hfree ⟨_, rfl⟩ rfl rfl
  | some w =>
      dsimp only
      by_cases hwlt : w ≥ neCryptoWorkers
      · rw [if_pos hwlt]; exact hfree ⟨_, rfl⟩ rfl rfl
      · rw [if_neg hwlt]
        generalize nePacketLinearize j.fwd.pair j.pkt j.self.cryptoBuf neJumboFrameMax = lin
        split
        · exact hfree ⟨_, rfl⟩ rfl rfl
        · split
          · exact hfree ⟨_, rfl⟩ rfl rfl
          · split
            · cases hq : (l2CryptoReassembleUdp env j.fwd.crypto j.fwd.tables w lin.2 j.pkt.len
                  j.self.cryptoAux).2 with
              | wait => exact hfree ⟨_, rfl⟩ rfl rfl
              | fail => exact hfree ⟨_, rfl⟩ rfl rfl
              | done out outLen => exact writeRoute_outcome ⟨_, rfl⟩ rfl rfl hw (by omega)
            · cases hd : l2CryptoDecrypt env .data j.fwd.crypto lin.2 j.pkt.len with
              | none => exact hfree ⟨_, rfl⟩ rfl rfl
              | some r => exact writeRoute_outcome ⟨_, rfl⟩ rfl rfl hw (by omega)

end NetworkEncryptor
