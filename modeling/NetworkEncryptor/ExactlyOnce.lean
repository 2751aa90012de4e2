import NetworkEncryptor.Delivery
import NetworkEncryptor.FragWindow
import NetworkEncryptor.Ingress
import NetworkEncryptor.Lib.Pairing
import Mathlib.Data.List.Perm.Subperm

/-!
# NetworkEncryptor.ExactlyOnce

UDP datagrams over a network that loses and reorders frames but does not
duplicate them: which of them come out, and how often.

`reassembled_mem_frames` says that nothing comes out that was not sent.  Here the
fragments of a datagram arrive within the timeout, the clock does not go back, and
fewer than eight datagrams of a worker wait for their second half at a time, so no
half has to give way.  Then the tables of the receiver do what the state machine of
`Lib.Pairing` does with the datagrams themselves (`Mirrors`): each datagram comes out
exactly once if all its wire frames arrived, and not at all otherwise.
-/

namespace NetworkEncryptor

deriving instance DecidableEq for SentDatagram

/-! ## what was sent -/

/-- What a step of the sender made of its frame: the datagram, and the wire frames. -/
structure Dispatch where
  step : SendStep
  datagram : SentDatagram
  wires : List (List UInt8)

def Sender.dispatch (ctx : PacketCryptoCtx) (p : Sender) (e : SendStep) : Dispatch :=
  ⟨e, e.datagram (p.view e.worker), (sendUdp ctx e (p.view e.worker)).1⟩

def Sender.log (ctx : PacketCryptoCtx) : Sender → List SendStep → List Dispatch
  | _, [] => []
  | p, e :: es => p.dispatch ctx e :: Sender.log ctx (p.step ctx e) es

/-- What the steps of a run were made into, in order. -/
def sendLog (ctx : PacketCryptoCtx) (steps : List SendStep) : List Dispatch :=
  Sender.init.log ctx steps

/-- The first bytes of an IP packet are a whole header, as the table asks of a first half. -/
def HeadOk (p : List UInt8) : Prop :=
  (Mem.ofList p 0).toNat / 16 = 4 ∧ 20 ≤ (Mem.ofList p 0).toNat % 16 * 4 ∧
    (Mem.ofList p 0).toNat % 16 * 4 ≤ p.length

/-- What a datagram is sent as. -/
inductive SentAs (g : Gcm) (ctx : PacketCryptoCtx) (d : SentDatagram) : List (List UInt8) → Prop
  | nothing : SentAs g ctx d []
  | whole {wire} (ready : ctx.initialized = true) (hlen : 20 ≤ d.payload.length)
      (h : WireOf g ctx.key d .full wire) : SentAs g ctx d [wire]
  | halves {w0 w1} (ready : ctx.initialized = true) (hlen : 14 + d.payload.length ≤ neJumboFrameMax)
      (head : HeadOk (d.part .frag0)) (h0 : WireOf g ctx.key d .frag0 w0) (h1 : WireOf g ctx.key d .frag1 w1) :
      SentAs g ctx d [w0, w1]

section Send

variable {g : Gcm} {ctx : PacketCryptoCtx} {e : SendStep} {s : L2State}

/-- A frame made for the datagram of a step is a wire frame of it, and the library was up. -/
theorem UdpFrame.wireOf {s1 s2 : L2State} {kind : L2UdpKind} {part : List UInt8} {out : Mem} {len : Nat}
    (hw : s1.workerIdx = UInt8.ofNat e.worker) (hpart : (e.datagram s).part kind = part)
    (h : UdpFrame e.env ctx s1 s2 (e.packet.read 0 12) kind (e.datagram s).dg part out len) :
    ctx.initialized = true ∧ WireOf e.env.gcm ctx.key (e.datagram s) kind (out.read 0 len) := by
  obtain ⟨nonce, c, t, hs, -, hread⟩ := h
  refine ⟨hs.ready.1, Mem.length_read .., nonce, c, t, ?_, ?_⟩
  · rw [hpart]
    exact hs.cipher
  · rw [hread, hw]
    rfl

theorem sendUdp_sentAs (hip : cryptoPktIsIpv4 e.packet e.len = true) (hmax : e.len ≤ 9014)
    (hw : s.workerIdx = UInt8.ofNat e.worker) :
    SentAs e.env.gcm ctx (e.datagram s) (sendUdp ctx e s).1 := by
  obtain ⟨h34, -⟩ := cryptoPktIsIpv4_iff.mp hip
  have hcut : splitPoint e.len ≤ e.len - 14 := by rw [splitPoint]; omega
  have htake : (e.datagram s).part .frag0 = e.packet.read 14 (splitPoint e.len) := Mem.take_read _ hcut
  have hdrop : (e.datagram s).part .frag1 =
      e.packet.read (14 + splitPoint e.len) (e.len - 14 - splitPoint e.len) := Mem.drop_read _ hcut
  have hlen : (e.datagram s).payload.length = e.len - 14 := Mem.length_read ..
  have hset : ((l2CryptoUdpSetTxSeq e.seq s).withEpoch e.env).workerIdx = UInt8.ofNat e.worker := hw
  rw [sendUdp]
  by_cases hsplit : l2CryptoNeedSplit .udp e.len = true
  · rw [if_pos hsplit, l2CryptoSplitUdp]
    cases hr : l2Split e.env ctx e.packet e.len neJumboFrameMax e.aux neJumboFrameMax
        (l2CryptoUdpSetTxSeq e.seq s) with
    | mk r s' =>
        cases r with
        | none => exact .nothing
        | some r =>
            obtain ⟨hsp, -, s2, hsecond, hfirst⟩ := l2Split_eq_some hr
            have hw2 : s2.workerIdx = UInt8.ofNat e.worker := by
              obtain ⟨_, _, _, hs, -⟩ := hsecond
              rw [hs.state]; exact hw
            obtain ⟨hready, h0⟩ := UdpFrame.wireOf hw2 htake hfirst
            obtain ⟨-, h1⟩ := UdpFrame.wireOf hset hdrop hsecond
            refine .halves hready (by rw [hlen]; simp; omega) ?_ h0 h1
            -- the first half starts with the IP header
            have hbig : 8968 < e.len := by
              simp only [l2CryptoNeedSplit, l2CryptoNeedUdpSplit, decide_eq_true_eq] at hsplit
              simpa using hsplit
            have hpoint : splitPoint e.len = 8954 := by rw [splitPoint]; omega
            have h0 : Mem.ofList ((e.datagram s).part .frag0) 0 = e.packet 14 := by
              rw [htake, hpoint]
              exact Mem.getD_read _ (by decide)
            have hlt := (e.packet 14).toNat_lt
            refine ⟨by rw [h0]; exact hsp.version, by rw [h0]; have := hsp.ihl; omega, ?_⟩
            rw [h0, htake, hpoint, Mem.length_read]
            omega
  · rw [if_neg hsplit]
    cases hr : l2CryptoEncrypt e.env .udp ctx e.packet e.len (l2CryptoUdpSetTxSeq e.seq s) with
    | mk r s' =>
        cases r with
        | none => exact .nothing
        | some r =>
            rw [l2CryptoEncrypt, if_pos rfl] at hr
            obtain ⟨-, -, hfull⟩ := l2UdpEncrypt_eq_some hip hr
            obtain ⟨hready, h⟩ := UdpFrame.wireOf hset rfl hfull
            exact .whole hready (by rw [hlen]; omega) h

end Send

/-! ## the log of a run -/

/-- The datagrams of a log are told apart by worker and id. -/
def Apart (x y : Dispatch) : Prop :=
  ¬(x.datagram.worker = y.datagram.worker ∧ x.datagram.dg.datagramId = y.datagram.dg.datagramId)

/-- What is known of the log of a run. -/
structure Logged (g : Gcm) (ctx : PacketCryptoCtx) (steps : List SendStep) (log : List Dispatch) : Prop where
  made : log.map Dispatch.step = steps
  sent : ∀ x ∈ log, SentAs g ctx x.datagram x.wires
  frame : ∀ x ∈ log, x.datagram.frame = x.step.frame
  ids : ∀ x ∈ log, x.datagram.worker = x.step.worker ∧
    ∃ j < sendCount x.step.worker steps, x.datagram.dg.datagramId = UInt32.ofNat j
  apart : log.Pairwise Apart

section Log

variable {g : Gcm} {ctx : PacketCryptoCtx}

theorem Sender.log_append (p : Sender) (steps : List SendStep) (e : SendStep) :
    p.log ctx (steps ++ [e]) = p.log ctx steps ++ [(steps.foldl (Sender.step ctx) p).dispatch ctx e] := by
  induction steps generalizing p with
  | nil => rfl
  | cons e' steps ih => exact congrArg _ (ih (p.step ctx e'))

/-- The wire frames of the log are what was put on the wire. -/
theorem Sender.wires_log (p : Sender) (steps : List SendStep) :
    (steps.foldl (Sender.step ctx) p).wires = p.wires ++ (p.log ctx steps).flatMap Dispatch.wires := by
  induction steps generalizing p with
  | nil => exact (List.append_nil _).symm
  | cons e steps ih =>
      rw [List.foldl_cons, ih, Sender.log, List.flatMap_cons, ← List.append_assoc]
      rfl

theorem logged_run (steps : List SendStep) (hg : ∀ e ∈ steps, e.env.gcm = g)
    (hip : ∀ e ∈ steps, cryptoPktIsIpv4 e.packet e.len = true) (hmax : ∀ e ∈ steps, e.len ≤ 9014)
    (hcount : ∀ w, sendCount w steps < 2 ^ 32) : Logged g ctx steps (sendLog ctx steps) := by
  induction steps using List.reverseRecOn with
  | nil =>
      exact {
        made := rfl
        sent := fun x h => (List.not_mem_nil h).elim
        frame := fun x h => (List.not_mem_nil h).elim
        ids := fun x h => (List.not_mem_nil h).elim
        apart := List.Pairwise.nil }
  | append_singleton steps e ih =>
      have he : e ∈ steps ++ [e] := List.mem_append_right _ (List.mem_singleton_self _)
      have hlt : ∀ w, sendCount w steps < 2 ^ 32 := fun w => by
        have := hcount w
        rw [sendCount_append] at this
        omega
      have h := ih (fun e' h' => hg e' (List.mem_append_left _ h')) (fun e' h' => hip e' (List.mem_append_left _ h'))
        (fun e' h' => hmax e' (List.mem_append_left _ h')) hlt
      obtain ⟨sent, hinv⟩ := @senderInv_run g ctx steps (fun e' h' => hg e' (List.mem_append_left _ h'))
        (fun e' h' => hip e' (List.mem_append_left _ h')) hlt
      generalize hs : (runSender ctx steps).view e.worker = s
      have hw : s.workerIdx = UInt8.ofNat e.worker := by
        rw [← hs]; exact hinv.worker e.worker
      have hclock : s.udpTxDatagramClock = UInt32.ofNat (sendCount e.worker steps) := by
        rw [← hs]; exact hinv.clock e.worker
      have hlog : sendLog ctx (steps ++ [e]) = sendLog ctx steps ++ [⟨e, e.datagram s, (sendUdp ctx e s).1⟩] := by
        rw [sendLog, Sender.log_append, ← hs]
        rfl
      have hnew := sendCount_append e.worker steps e
      rw [if_pos rfl] at hnew
      rw [hlog]
      constructor
      · rw [List.map_append, h.made]
        rfl
      · intro x hx
        rcases List.mem_append.mp hx with hx | hx
        · exact h.sent x hx
        · rw [List.mem_singleton.mp hx, ← hg e he]
          exact sendUdp_sentAs (hip e he) (hmax e he) hw
      · intro x hx
        rcases List.mem_append.mp hx with hx | hx
        · exact h.frame x hx
        · rw [List.mem_singleton.mp hx]
          exact SendStep.frame_datagram (hip e he)
      · intro x hx
        rcases List.mem_append.mp hx with hx | hx
        · obtain ⟨hxw, j, hj, hid⟩ := h.ids x hx
          exact ⟨hxw, j, by rw [sendCount_append]; omega, hid⟩
        · rw [List.mem_singleton.mp hx]
          exact ⟨rfl, _, by rw [hnew]; exact Nat.lt_succ_self _, hclock⟩
      · refine List.pairwise_append.mpr ⟨h.apart, List.pairwise_singleton _ _, fun x hx y hy => ?_⟩
        rw [List.mem_singleton.mp hy]
        rintro ⟨hsame, hid⟩
        -- an older datagram of the worker has a smaller number
        obtain ⟨hxw, j, hj, hxid⟩ := h.ids x hx
        have hworker : x.step.worker = e.worker := Fin.ext (hxw.symm.trans hsame)
        rw [hworker] at hj
        have hnum : UInt32.ofNat j = UInt32.ofNat (sendCount e.worker steps) := (hxid.symm.trans hid).trans hclock
        have hnat := congrArg UInt32.toNat hnum
        have := hlt e.worker
        rw [UInt32.toNat_ofNat', UInt32.toNat_ofNat'] at hnat
        omega

end Log

/-! ## what arrives -/

def SentDatagram.piece (d : SentDatagram) : L2UdpKind → Piece SentDatagram
  | .full => .whole d
  | .frag0 => .half d false
  | .frag1 => .half d true

/-- Which piece of the datagram a wire frame is. -/
def Dispatch.piece? (x : Dispatch) (wire : List UInt8) : Option (Piece SentDatagram) :=
  match x.wires with
  | [w] => if wire = w then some (x.datagram.piece .full) else none
  | [w0, w1] =>
      if wire = w0 then some (x.datagram.piece .frag0)
      else if wire = w1 then some (x.datagram.piece .frag1)
      else none
  | _ => none

/-- The clock when the event happens. -/
def RecvEvent.time : RecvEvent → UInt64
  | .deliver env _ _ _ => env.now
  | .gc _ now => now

/-- The wire frame the event delivers. -/
def RecvEvent.wire? : RecvEvent → Option (List UInt8)
  | .deliver _ packet len _ => some (packet.read 0 len)
  | .gc _ _ => none

def delivered (events : List RecvEvent) : List (List UInt8) := events.filterMap RecvEvent.wire?

/-- Which piece of the datagrams of the log a wire frame is. -/
def pieceOf (log : List Dispatch) (wire : List UInt8) : Option (Piece SentDatagram) :=
  log.findSome? (·.piece? wire)

/-- The piece the event brings, and when. -/
def RecvEvent.arrival? (log : List Dispatch) (ev : RecvEvent) : Option (Piece SentDatagram × UInt64) :=
  match ev.wire? with
  | none => none
  | some wire => (pieceOf log wire).map (·, ev.time)

def arrivals (log : List Dispatch) (events : List RecvEvent) : List (Piece SentDatagram × UInt64) :=
  events.filterMap (RecvEvent.arrival? log)

section Arrive

variable {g : Gcm} {ctx : PacketCryptoCtx} {steps : List SendStep} {log : List Dispatch} {x y : Dispatch}
  {d d' : SentDatagram} {kind kind' : L2UdpKind} {wire : List UInt8} {p : Piece SentDatagram}

/-- A wire frame tells its worker, kind and datagram. -/
theorem WireOf.inj (hlaw : g.Lawful) {key : Key} (h : WireOf g key d kind wire) (h' : WireOf g key d' kind' wire) :
    UInt8.ofNat d.worker = UInt8.ofNat d'.worker ∧ kind = kind' ∧ d.dg = d'.dg := by
  obtain ⟨hmacs, nonce, c, t, henc, hw⟩ := h
  obtain ⟨hmacs', nonce', c', t', henc', hw'⟩ := h'
  have hread := Mem.read_ofList wire rfl
  obtain ⟨-, -, -, hid, hnonce, -, hc, ht⟩ := read_udpWire hmacs (g.length_encrypt henc).2 (hread.trans hw)
  obtain ⟨-, -, -, hid', hnonce', -, hc', ht'⟩ := read_udpWire hmacs' (g.length_encrypt henc').2 (hread.trans hw')
  rw [hid] at hid'
  rw [hnonce] at hnonce'
  rw [hc] at hc'
  rw [ht] at ht'
  subst hnonce' hc' ht'
  have hplain := (hlaw henc).symm.trans (hlaw henc')
  rw [Option.some.injEq] at hplain
  obtain ⟨hkind, hdg, -⟩ := l2UdpShim_append_inj hplain
  exact ⟨hid', hkind, hdg⟩

theorem Logged.lt (h : Logged g ctx steps log) (hx : x ∈ log) : x.datagram.worker < neCryptoWorkers := by
  rw [(h.ids x hx).1]
  exact x.step.worker.isLt

/-- Worker and id tell the datagrams of the log apart. -/
theorem Logged.same (h : Logged g ctx steps log) (hx : x ∈ log) (hy : y ∈ log)
    (hw : x.datagram.worker = y.datagram.worker) (hid : x.datagram.dg.datagramId = y.datagram.dg.datagramId) :
    x = y := by
  by_contra hne
  have hsymm : Std.Symm Apart := ⟨fun a b hab hba => hab ⟨hba.1.symm, hba.2.symm⟩⟩
  exact h.apart.forall hx hy hne ⟨hw, hid⟩

theorem Logged.piece?_eq (h : Logged g ctx steps log) (hlaw : g.Lawful) (hx : x ∈ log) :
    x.piece? wire = some p ↔
      wire ∈ x.wires ∧ ∃ kind, WireOf g ctx.key x.datagram kind wire ∧ p = x.datagram.piece kind := by
  have hs := h.sent x hx
  unfold Dispatch.piece?
  generalize x.wires = wires at hs
  cases hs with
  | nothing => simp
  | @whole w ready hlen hwire =>
      dsimp only
      constructor
      · intro hp
        split_ifs at hp with hw
        subst hw
        exact ⟨List.mem_singleton_self _, .full, hwire, (Option.some.inj hp).symm⟩
      · rintro ⟨hw, kind, hkind, rfl⟩
        obtain rfl := List.mem_singleton.mp hw
        rw [if_pos rfl, (hwire.inj hlaw hkind).2.1]
  | @halves w0 w1 ready hlen head h0 h1 =>
      dsimp only
      constructor
      · intro hp
        split_ifs at hp with hw hw'
        · exact ⟨by simp [hw], .frag0, hw ▸ h0, (Option.some.inj hp).symm⟩
        · exact ⟨by simp [hw'], .frag1, hw' ▸ h1, (Option.some.inj hp).symm⟩
      · rintro ⟨hw, kind, hkind, rfl⟩
        by_cases hw0 : wire = w0
        · subst hw0
          rw [if_pos rfl, (h0.inj hlaw hkind).2.1]
        · obtain rfl : wire = w1 := by simpa [hw0] using hw
          rw [if_neg hw0, if_pos rfl, (h1.inj hlaw hkind).2.1]

/-- A wire frame is found in the log under the datagram it belongs to. -/
theorem Logged.pieceOf_eq (h : Logged g ctx steps log) (hlaw : g.Lawful) :
    pieceOf log wire = some p ↔ ∃ x ∈ log, x.piece? wire = some p := by
  refine ⟨List.exists_of_findSome?_eq_some, ?_⟩
  rintro ⟨x, hx, hp⟩
  have hsome : (pieceOf log wire).isSome := by
    rw [pieceOf, List.findSome?_isSome_iff]
    exact ⟨x, hx, by rw [hp]; rfl⟩
  obtain ⟨p', hp'⟩ := Option.isSome_iff_exists.mp hsome
  obtain ⟨y, hy, hyp⟩ := List.exists_of_findSome?_eq_some hp'
  obtain ⟨-, kind, hwire, rfl⟩ := (h.piece?_eq hlaw hx).mp hp
  obtain ⟨-, kind', hwire', rfl⟩ := (h.piece?_eq hlaw hy).mp hyp
  obtain ⟨hw, rfl, hdg⟩ := hwire.inj hlaw hwire'
  have hworker : x.datagram.worker = y.datagram.worker := by
    have hnat := congrArg UInt8.toNat hw
    have hlx := h.lt hx
    have hly := h.lt hy
    simp only [UInt8.toNat_ofNat'] at hnat
    simp only [neCryptoWorkers, List.length_cons, List.length_nil] at hlx hly
    omega
  rw [hp', h.same hx hy hworker (congrArg UdpMeta.datagramId hdg)]

theorem SentDatagram.piece_key (d : SentDatagram) (kind : L2UdpKind) : (d.piece kind).key = d := by
  cases kind <;> rfl

theorem SentDatagram.piece_inj (h : d.piece kind = d'.piece kind') : d = d' ∧ kind = kind' := by
  have hd : d = d' := by rw [← d.piece_key kind, h, d'.piece_key]
  subst hd
  refine ⟨rfl, ?_⟩
  cases kind <;> cases kind' <;> simp_all [SentDatagram.piece]

/-- A wire frame is the only one of its piece. -/
theorem Dispatch.piece?_inj {wire' : List UInt8} (h : x.piece? wire = some p) (h' : x.piece? wire' = some p) :
    wire = wire' := by
  have hne : x.datagram.piece .frag0 ≠ x.datagram.piece .frag1 := fun heq => by
    cases (SentDatagram.piece_inj heq).2
  unfold Dispatch.piece? at h h'
  generalize x.wires = wires at h h'
  match wires, h, h' with
  | [w], h, h' => grind
  | [w0, w1], h, h' => grind
  | [], h, _ => cases h
  | _ :: _ :: _ :: _, h, _ => cases h

theorem Logged.pieceOf_inj (h : Logged g ctx steps log) (hlaw : g.Lawful) {wire' : List UInt8}
    (hp : pieceOf log wire = some p) (hp' : pieceOf log wire' = some p) : wire = wire' := by
  obtain ⟨x, hx, hxp⟩ := (h.pieceOf_eq hlaw).mp hp
  obtain ⟨y, hy, hyp⟩ := (h.pieceOf_eq hlaw).mp hp'
  obtain ⟨-, kind, -, rfl⟩ := (h.piece?_eq hlaw hx).mp hxp
  obtain ⟨-, kind', -, heq⟩ := (h.piece?_eq hlaw hy).mp hyp
  obtain ⟨hd, -⟩ := SentDatagram.piece_inj heq
  have hxy : x = y := h.same hx hy (by rw [hd]) (by rw [hd])
  rw [← hxy] at hyp
  exact Dispatch.piece?_inj hxp hyp

theorem mem_arrivals {events : List RecvEvent} {t : UInt64} : (p, t) ∈ arrivals log events ↔
    ∃ ev ∈ events, ev.time = t ∧ ∃ wire, ev.wire? = some wire ∧ pieceOf log wire = some p := by
  rw [arrivals, List.mem_filterMap]
  refine exists_congr fun ev => and_congr_right fun _ => ?_
  rw [RecvEvent.arrival?]
  cases ev.wire? with
  | none => simp
  | some wire => simp [and_comm]

theorem arrivals_pieces (log : List Dispatch) (events : List RecvEvent) :
    (arrivals log events).map Prod.fst = (delivered events).filterMap (pieceOf log) := by
  rw [arrivals, delivered, List.map_filterMap, List.filterMap_filterMap]
  refine List.filterMap_congr fun ev _ => ?_
  rw [RecvEvent.arrival?]
  cases ev.wire? with
  | none => rfl
  | some wire => cases h : pieceOf log wire <;> simp [h]

/-- Frames that arrive at most once bring pieces that do so. -/
theorem Logged.pieces (h : Logged g ctx steps log) (hlaw : g.Lawful) {events : List RecvEvent}
    (hone : (delivered events).Nodup) : Pieces ((arrivals log events).map Prod.fst) := by
  rw [arrivals_pieces]
  refine ⟨hone.filterMap fun wire wire' p hp hp' => h.pieceOf_inj hlaw hp hp', fun d b hw hh => ?_⟩
  obtain ⟨w, -, hw⟩ := List.mem_filterMap.mp hw
  obtain ⟨w', -, hh⟩ := List.mem_filterMap.mp hh
  obtain ⟨x, hx, hxp⟩ := (h.pieceOf_eq hlaw).mp hw
  obtain ⟨y, hy, hyp⟩ := (h.pieceOf_eq hlaw).mp hh
  obtain ⟨-, kind, -, hk⟩ := (h.piece?_eq hlaw hx).mp hxp
  obtain ⟨-, kind', -, hk'⟩ := (h.piece?_eq hlaw hy).mp hyp
  have hd : x.datagram = d := by rw [← x.datagram.piece_key kind, ← hk]; rfl
  have hd' : y.datagram = d := by rw [← y.datagram.piece_key kind', ← hk']; rfl
  have hxy : x = y := h.same hx hy (by rw [hd, hd']) (by rw [hd, hd'])
  subst hxy
  -- one dispatch is not sent as a whole and in halves
  unfold Dispatch.piece? at hxp hyp
  generalize x.wires = wires at hxp hyp
  match wires, hxp, hyp with
  | [w], _, hyp => grind [SentDatagram.piece]
  | [w0, w1], hxp, _ => grind [SentDatagram.piece]
  | [], hxp, _ => cases hxp
  | _ :: _ :: _ :: _, hxp, _ => cases hxp

end Arrive

/-! ## one table -/

/-- The entry has the half of the datagram, since `t`. -/
def KeepsHalf (e : OptEntry) (d : SentDatagram) (t : UInt64) : Bool → Prop
  | false => KeepsFirst e d.dg t d.macs (d.part .frag0)
  | true => KeepsSecond e d.dg t (d.part .frag1)

/-- The call brings the half of the datagram. -/
def BringsHalf (c : ReasmCall) (d : SentDatagram) : Bool → Prop
  | false => BringsFirst c d.dg d.macs (d.part .frag0)
  | true => BringsSecond c d.dg (d.part .frag1)

section Table

variable {ft : OptTable} {c : ReasmCall} {d : SentDatagram} {b : Bool} {t : UInt64} {e : OptEntry} {j : Nat}

theorem KeepsHalf.occupied (h : KeepsHalf e d t b) : e.occupied = true := by
  cases b with
  | false => exact KeepsFirst.occupied h
  | true => exact KeepsSecond.occupied h

theorem KeepsHalf.hasKey (h : KeepsHalf e d t b) : e.HasKey d.dg.epoch d.dg.datagramId := by
  have hdg : e.dg = d.dg := by
    cases b with
    | false => exact KeepsFirst.dg h
    | true => exact KeepsSecond.dg h
  exact ⟨congrArg UdpMeta.epoch hdg, congrArg UdpMeta.datagramId hdg⟩

theorem KeepsHalf.time (h : KeepsHalf e d t b) : e.timestampNs = t := by
  cases b with
  | false => exact KeepsFirst.time h
  | true => exact KeepsSecond.time h

theorem BringsHalf.dg (h : BringsHalf c d b) : c.dg = d.dg := by
  cases b with
  | false => exact BringsFirst.dg h
  | true => exact BringsSecond.dg h

/-- What a call for a datagram with no entry does: the half is kept in a slot that no live
entry was in, or the oldest of eight gave way. -/
theorem half_waits (hno : ∀ i, (ft.entries i).occupied = true → ¬(ft.entries i).HasKey d.dg.epoch d.dg.datagramId)
    (hc : BringsHalf c d b) : ∃ ft' idx e, c.apply ft = (ft'.set idx e, .wait) ∧ Swept c.now ft ft' ∧
      KeepsHalf e d c.now b := by
  obtain ⟨ft', idx, hpick, hdead, hfirst, hsecond⟩ := optPickSlot_fresh hno c.now
  have hswept := (optPickSlot_spec ft d.dg.epoch d.dg.datagramId c.now).1
  rw [hpick] at hswept
  cases b with
  | false =>
      have hc : BringsFirst c d.dg d.macs (d.part .frag0) := hc
      obtain ⟨e, hrun, hkeeps⟩ :=
        @frag0_kept_of_fresh ft d.dg c.now c.data c.outBuf c.len ft' idx hc.ok hpick hsecond
      rw [hc.macs, hc.half] at hkeeps
      refine ⟨ft', idx, e, ?_, hswept, hkeeps⟩
      rw [ReasmCall.apply, hc.dg, hc.kind]
      exact hrun
  | true =>
      have hc : BringsSecond c d.dg (d.part .frag1) := hc
      obtain ⟨e, hrun, hkeeps⟩ :=
        @frag1_kept_of_fresh ft d.dg c.now c.data c.outBuf c.len ft' idx hc.ok hpick hdead hfirst
      rw [hc.half] at hkeeps
      refine ⟨ft', idx, e, ?_, hswept, hkeeps⟩
      rw [ReasmCall.apply, hc.dg, hc.kind]
      exact hrun

/-- The parts of a datagram make the datagram. -/
theorem SentDatagram.joined_parts (d : SentDatagram) :
    joined d.macs (d.part .frag0) (d.part .frag1) = d.frame := by
  simp only [joined, SentDatagram.part, SentDatagram.frame, List.take_append_drop, List.append_nil]

theorem SentDatagram.length_parts (d : SentDatagram) :
    (d.part .frag0).length + (d.part .frag1).length = d.payload.length := by
  rw [← List.length_append, SentDatagram.part, SentDatagram.part, List.take_append_drop]

/-- What a call does when the other half is there: the frame is complete, and the entry
gone. -/
theorem half_joins (hp : Placed ft) (hkeeps : KeepsHalf (ft.entries j) d t (!b)) (hwithin : Within t c.now)
    (hc : BringsHalf c d b) (hlen : 14 + d.payload.length ≤ neJumboFrameMax) :
    ∃ ft' e out n, c.apply ft = (ft'.set j (optClearEntry e), .done out n) ∧ Swept c.now ft ft' ∧
      out.read 0 n = d.frame := by
  have hlive : (ft.entries j).Live c.now := ⟨hkeeps.occupied, hwithin.not_expired hkeeps.time⟩
  obtain ⟨ft', hpick, hswept⟩ := @optPickSlot_found d.dg ft j hp c.now hlive hkeeps.hasKey
  have hsame : ft'.entries j = ft.entries j := hswept.live hlive
  have hparts := d.length_parts
  cases b with
  | false =>
      have hc : BringsFirst c d.dg d.macs (d.part .frag0) := hc
      have hkeeps : KeepsSecond (ft.entries j) d.dg t (d.part .frag1) := hkeeps
      have hl := hc.length
      obtain ⟨out, e, hdone, hread⟩ := @frag0_done ft d.dg c.now t c.data c.outBuf c.len (d.part .frag1) ft' j hpick
        (by rw [hsame]; exact hkeeps) hwithin.sub_le hc.ok (by omega)
      rw [hc.macs, hc.half, d.joined_parts] at hread
      refine ⟨ft', e, out, _, ?_, hswept, hread⟩
      rw [ReasmCall.apply, hc.dg, hc.kind]
      exact hdone
  | true =>
      have hc : BringsSecond c d.dg (d.part .frag1) := hc
      have hkeeps : KeepsFirst (ft.entries j) d.dg t d.macs (d.part .frag0) := hkeeps
      have hl := hc.length
      obtain ⟨out, e, hdone, hread⟩ := @frag1_done ft d.dg c.now t c.data c.outBuf c.len d.macs (d.part .frag0) ft' j
        hpick (by rw [hsame]; exact hkeeps) hwithin.sub_le hc.ok (by omega)
      rw [hc.half, d.joined_parts] at hread
      refine ⟨ft', e, out, _, ?_, hswept, hread⟩
      rw [ReasmCall.apply, hc.dg, hc.kind]
      exact hdone

end Table

/-! ## one delivery -/

def halfKind : Bool → L2UdpKind
  | false => .frag0
  | true => .frag1

/-- The receiver can open what is delivered: its library is up, it has the cipher of the
sender, and memory for its tables. -/
structure Opener (g : Gcm) (env : Env) : Prop where
  gcm : env.gcm = g
  lib : env.initialized = true
  calloc : env.callocOk = true

section Deliver

variable {g : Gcm} {ctx : PacketCryptoCtx} {d : SentDatagram} {b : Bool} {env : Env} {packet output : Mem} {len : Nat}
  {r : Receiver} {kind : L2UdpKind}

/-- A wire frame goes to the worker it names. -/
theorem WireOf.worker {key : Key} (h : WireOf g key d kind (packet.read 0 len)) (hw : d.worker < neCryptoWorkers) :
    dpCryptoPickWanWorker packet len = some d.worker := by
  obtain ⟨hmacs, nonce, c, t, henc, hread⟩ := h
  obtain ⟨hlen, -, het, hid, -⟩ := read_udpWire hmacs (g.length_encrypt henc).2 hread
  exact dpCryptoPickWanWorker_eq (.inr het) (by omega) hw hid

/-- A wire frame is decrypted to its part of the datagram. -/
theorem WireOf.decrypts (hlaw : g.Lawful) (ho : Opener g env) (hctx : ctx.initialized = true)
    (h : WireOf g ctx.key d kind (packet.read 0 len)) :
    l2DoDecryptUdp env ctx packet len = some (udpPlain packet kind d.dg (d.part kind)) ∧
      packet.read 0 12 = d.macs ∧ ethReadEt packet 12 = neL2FakeEthertypeUdp := by
  obtain ⟨hmacs, nonce, c, t, henc, hread⟩ := h
  obtain ⟨rfl, hlib, -⟩ := ho
  have hsame : SameCipher env env ctx := ⟨rfl, hlaw, hlib, hctx⟩
  exact l2DoDecryptUdp_udpWire hsame henc hmacs hread

theorem step_whole (hlaw : g.Lawful) (ho : Opener g env) (hctx : ctx.initialized = true)
    (hw : d.worker < neCryptoWorkers) (hlen : 20 ≤ d.payload.length)
    (h : WireOf g ctx.key d .full (packet.read 0 len)) :
    r.step ctx (.deliver env packet len output) = ⟨r.tables, r.emitted ++ [d.frame]⟩ := by
  obtain ⟨hd, hmacs, -⟩ := h.decrypts hlaw ho hctx
  obtain ⟨out, hre, hread⟩ := @l2CryptoReassembleUdp_of_full ctx packet len d.payload d.dg env r.tables d.worker output
    hd hlen
  rw [hmacs] at hread
  rw [Receiver.step, h.worker hw]
  dsimp only
  rw [hre]
  dsimp only
  rw [hread]
  rfl

theorem step_half (hlaw : g.Lawful) (ho : Opener g env) (hctx : ctx.initialized = true)
    (hw : d.worker < neCryptoWorkers) (hlen : 14 + d.payload.length ≤ neJumboFrameMax) (head : HeadOk (d.part .frag0))
    (h : WireOf g ctx.key d (halfKind b) (packet.read 0 len)) {ft : OptTable}
    (hft : optTable env r.tables d.worker = some ft) :
    ∃ c, BringsHalf c d b ∧ c.now = env.now ∧ r.step ctx (.deliver env packet len output) =
      ⟨Function.update r.tables d.worker (some (c.apply ft).1),
        match (c.apply ft).2 with
        | .done out n => r.emitted ++ [out.read 0 n]
        | _ => r.emitted⟩ := by
  obtain ⟨hd, hmacs, het⟩ := h.decrypts hlaw ho hctx
  obtain ⟨hread, -, hpay⟩ := read_udpPlain packet (halfKind b) d.dg (d.part (halfKind b))
  have hidx : optTableIdx d.worker = d.worker := by
    rw [optTableIdx, if_neg (Nat.not_le.mpr hw)]
  have hkind : halfKind b ≠ .full := by cases b <;> simp [halfKind]
  have hparts := d.length_parts
  have hpart : (d.part (halfKind b)).length ≤ neJumboFrameMax := by
    cases b <;> simp only [halfKind] <;> omega
  have hok : FragOk (udpPlain packet (halfKind b) d.dg (d.part (halfKind b))).packet
      (14 + (d.part (halfKind b)).length) := udpPlain_fragOk hkind het hpart
  refine ⟨⟨(udpPlain packet (halfKind b) d.dg (d.part (halfKind b))).packet, 14 + (d.part (halfKind b)).length, d.dg,
    halfKind b, env.now, output⟩, ?_, rfl, ?_⟩
  · have hpay' : (udpPlain packet (halfKind b) d.dg (d.part (halfKind b))).packet.read 14
        (14 + (d.part (halfKind b)).length - 14) = d.part (halfKind b) := by
      rw [Nat.add_sub_cancel_left]
      exact hpay
    cases b with
    | false =>
        have h14 : (udpPlain packet .frag0 d.dg (d.part .frag0)).packet 14 = Mem.ofList (d.part .frag0) 0 := by
          obtain ⟨h1, h2, h3⟩ := head
          have hpos : 0 < (d.part .frag0).length := by omega
          have hpay : (udpPlain packet .frag0 d.dg (d.part .frag0)).packet.read 14 (d.part .frag0).length =
            d.part .frag0 := hpay
          have hfst := @Mem.getD_read (udpPlain packet .frag0 d.dg (d.part .frag0)).packet 14 _ 0 hpos
          rw [hpay] at hfst
          exact hfst.symm
        refine ⟨rfl, rfl, ⟨hok, ?_, ?_⟩, hread.trans hmacs, hpay'⟩
        · dsimp only [halfKind]
          rw [h14]
          exact head.1
        · dsimp only [halfKind]
          rw [h14, Nat.add_sub_cancel_left]
          exact head.2
    | true => exact ⟨rfl, rfl, hok, hpay'⟩
  · have hre := @l2CryptoReassembleUdp_of_frag ctx packet len (d.part (halfKind b)) (halfKind b) d.dg env r.tables
      d.worker ft output hd hkind (by rw [hidx]; exact hft)
    rw [hidx] at hre
    rw [Receiver.step, h.worker hw]
    dsimp only
    rw [hre, ReasmCall.apply]
    generalize l2Reassemble ft _ _ _ _ _ _ = res
    obtain ⟨ft', res⟩ := res
    cases res <;> rfl

end Deliver

/-! ## the tables and the state machine -/

/-- The table of a worker keeps what waits for its other half and is not too old, and
nothing else. -/
structure TableMirrors (waiting : SentDatagram → Option (Bool × UInt64)) (w : Nat) (ft : OptTable) (now : UInt64) :
    Prop where
  placed : Placed ft
  kept : ∀ d b t, d.worker = w → waiting d = some (b, t) → Within t now → ∃ j, KeepsHalf (ft.entries j) d t b
  only : ∀ j, (ft.entries j).occupied = true → ∃ d b t, d.worker = w ∧ waiting d = some (b, t) ∧
    KeepsHalf (ft.entries j) d t b

section Mirror

variable {waiting waiting' : SentDatagram → Option (Bool × UInt64)} {w : Nat} {ft : OptTable} {now now' : UInt64}
  {d : SentDatagram} {b : Bool} {t : UInt64} {c : ReasmCall}

theorem tableMirrors_empty (now : UInt64) : TableMirrors (fun _ => none) w OptTable.empty now where
  placed := placed_empty
  kept _ _ _ _ h := by cases h
  only _ h := by cases h

theorem Within.le_of_le (h : Within t now') (ht : t ≤ now) (hle : now ≤ now') : Within t now := by
  rw [Within, UInt64.le_iff_toNat_le] at h ⊢
  rw [UInt64.le_iff_toNat_le] at ht hle
  omega

/-- An entry that is not too old was stamped within the timeout. -/
theorem Within.of_live {e : OptEntry} (ht : e.timestampNs = t) (hle : t ≤ now) (h : e.expired now = false) :
    Within t now := by
  rw [OptEntry.expired_eq ht, decide_eq_false_iff_not, gt_iff_lt, UInt64.not_lt, UInt64.le_iff_toNat_le,
    UInt64.toNat_sub_of_le _ _ hle] at h
  rw [UInt64.le_iff_toNat_le] at hle
  exact ⟨UInt64.le_iff_toNat_le.mpr hle, by omega⟩

/-- Time passes, and datagrams of other workers come and go. -/
theorem TableMirrors.later (h : TableMirrors waiting w ft now) (hle : now ≤ now')
    (hsince : ∀ d b t, waiting d = some (b, t) → t ≤ now) (hsame : ∀ d, d.worker = w → waiting' d = waiting d) :
    TableMirrors waiting' w ft now' where
  placed := h.placed
  kept d b t hw hd hwithin := by
    rw [hsame d hw] at hd
    exact h.kept d b t hw hd (hwithin.le_of_le (hsince d b t hd) hle)
  only j ho := by
    obtain ⟨d, b, t, hw, hd, hkeeps⟩ := h.only j ho
    exact ⟨d, b, t, hw, by rw [hsame d hw]; exact hd, hkeeps⟩

/-- A worker collects garbage. -/
theorem TableMirrors.gc (h : TableMirrors waiting w ft now) :
    TableMirrors waiting w (optFragGcTable ft now) now where
  placed := h.placed.swept (swept_optFragGcTable ft now)
  kept d b t hw hd hwithin := by
    obtain ⟨j, hkeeps⟩ := h.kept d b t hw hd hwithin
    refine ⟨j, ?_⟩
    rw [(swept_optFragGcTable ft now).live ⟨hkeeps.occupied, hwithin.not_expired hkeeps.time⟩]
    exact hkeeps
  only j ho := by
    have hsame := (swept_optFragGcTable ft now).occupied ho
    rw [hsame] at ho ⊢
    exact h.only j ho

/-- With fewer than eight datagrams waiting there is room. -/
theorem TableMirrors.hasRoom (h : TableMirrors waiting w ft c.now)
    (hsince : ∀ d b t, waiting d = some (b, t) → t ≤ c.now)
    (hfew : ∀ ds : List SentDatagram, ds.Nodup →
      (∀ d ∈ ds, d.worker = w ∧ ∃ b t, waiting d = some (b, t) ∧ Within t c.now) → ds.length < 8) :
    c.HasRoom ft := by
  by_contra hno
  have hslot : ∀ i < 8, ∃ d b t, d.worker = w ∧ waiting d = some (b, t) ∧ Within t c.now ∧
      KeepsHalf (ft.entries (windowSlot (optBase c.dg.epoch c.dg.datagramId) i)) d t b := by
    intro i hi
    have hlive : (ft.entries (windowSlot (optBase c.dg.epoch c.dg.datagramId) i)).Live c.now := by
      by_contra hdead
      exact hno ⟨i, hi, .inl hdead⟩
    obtain ⟨d, b, t, hw, hd, hkeeps⟩ := h.only _ hlive.1
    exact ⟨d, b, t, hw, hd, Within.of_live hkeeps.time (hsince d b t hd) hlive.2, hkeeps⟩
  choose f hf using hslot
  have hall := hfew ((List.range 8).attach.map fun i => f i.1 (List.mem_range.mp i.2)) ?_ ?_
  · simp at hall
  · -- two slots with one datagram would be one slot
    refine List.Nodup.map_on ?_ (List.nodup_attach.mpr List.nodup_range)
    intro i _ j _ hij
    obtain ⟨bi, ti, -, -, -, hi⟩ := hf i.1 (List.mem_range.mp i.2)
    obtain ⟨bj, tj, -, -, -, hj⟩ := hf j.1 (List.mem_range.mp j.2)
    have hkey := hj.hasKey
    rw [← hij] at hkey
    refine Subtype.ext (windowSlot_inj (List.mem_range.mp i.2) (List.mem_range.mp j.2)
      (h.placed.unique _ _ hi.occupied hj.occupied ?_))
    rw [hi.hasKey.1, hi.hasKey.2]
    exact hkey
  · intro d hd
    obtain ⟨i, -, rfl⟩ := List.mem_map.mp hd
    obtain ⟨bi, ti, hw, hwait, hwithin, -⟩ := hf i.1 (List.mem_range.mp i.2)
    exact ⟨hw, bi, ti, hwait, hwithin⟩

/-- The first half of a datagram to arrive waits, and no other one gives way. -/
theorem TableMirrors.first (h : TableMirrors waiting w ft c.now) (hw : d.worker = w) (hc : BringsHalf c d b)
    (hnone : waiting d = none) (hroom : c.HasRoom ft)
    (hsame : ∀ d' b t, waiting d' = some (b, t) → d'.worker = w → d'.dg.datagramId = d.dg.datagramId → d' = d) :
    (c.apply ft).2 = .wait ∧
      TableMirrors (Function.update waiting d (some (b, c.now))) w (c.apply ft).1 c.now := by
  have hother : ∀ d' b t e, d'.worker = w → waiting d' = some (b, t) → KeepsHalf e d' t b →
      ¬e.HasKey d.dg.epoch d.dg.datagramId := by
    intro d' b t e hw' hd' hkeeps hkey
    have := hsame d' b t hd' hw' (hkeeps.hasKey.2.symm.trans hkey.2)
    rw [this, hnone] at hd'
    cases hd'
  obtain ⟨ft', idx, e, happly, hswept, hkeeps⟩ := half_waits (fun i ho => by
    obtain ⟨d', b', t', hw', hd', hkeeps'⟩ := h.only i ho
    exact hother d' b' t' _ hw' hd' hkeeps') hc
  have hstay := fun j => @ReasmCall.keeps c ft j
  rw [happly] at hstay ⊢
  refine ⟨rfl, ?_, fun d' b' t' hw' hd' hwithin => ?_, fun j ho => ?_⟩
  · have hplaced := c.placed h.placed
    rw [happly] at hplaced
    exact hplaced
  · by_cases hdd : d' = d
    · subst hdd
      rw [Function.update_self, Option.some.injEq, Prod.mk.injEq] at hd'
      obtain ⟨rfl, rfl⟩ := hd'
      exact ⟨idx, by rw [ft'.set_entries_self]; exact hkeeps⟩
    · rw [Function.update_of_ne hdd] at hd'
      obtain ⟨j, hkeeps'⟩ := h.kept d' b' t' hw' hd' hwithin
      refine ⟨j, ?_⟩
      rw [hstay j ⟨hkeeps'.occupied, hwithin.not_expired hkeeps'.time⟩ ?_ hroom]
      · exact hkeeps'
      · rw [hc.dg]
        exact hother d' b' t' _ hw' hd' hkeeps'
  · by_cases hj : j = idx
    · subst hj
      exact ⟨d, b, c.now, hw, Function.update_self .., by rw [ft'.set_entries_self]; exact hkeeps⟩
    · rw [ft'.set_entries_of_ne _ hj] at ho ⊢
      have hold := hswept.occupied ho
      rw [hold] at ho ⊢
      obtain ⟨d', b', t', hw', hd', hkeeps'⟩ := h.only j ho
      refine ⟨d', b', t', hw', ?_, hkeeps'⟩
      rw [Function.update_of_ne ?_]
      · exact hd'
      · rintro rfl
        rw [hnone] at hd'
        cases hd'

/-- The second half of a datagram to arrive completes it. -/
theorem TableMirrors.second (h : TableMirrors waiting w ft c.now) (hw : d.worker = w) (hc : BringsHalf c d b)
    (hwait : waiting d = some (!b, t)) (hwithin : Within t c.now)
    (hlen : 14 + d.payload.length ≤ neJumboFrameMax)
    (hsame : ∀ d' b t, waiting d' = some (b, t) → d'.worker = w → d'.dg.datagramId = d.dg.datagramId → d' = d) :
    (∃ out n, (c.apply ft).2 = .done out n ∧ out.read 0 n = d.frame) ∧
      TableMirrors (Function.update waiting d none) w (c.apply ft).1 c.now := by
  obtain ⟨j, hkeeps⟩ := h.kept d (!b) t hw hwait hwithin
  have hroom : c.HasRoom ft := by
    obtain ⟨i, hi, hj⟩ := h.placed.window j hkeeps.occupied
    rw [hkeeps.hasKey.1, hkeeps.hasKey.2, ← hc.dg] at hj
    refine ⟨i, hi, .inr ?_⟩
    rw [← hj, hc.dg]
    exact hkeeps.hasKey
  obtain ⟨ft', e, out, n, happly, hswept, hread⟩ := half_joins h.placed hkeeps hwithin hc hlen
  have hstay := fun j => @ReasmCall.keeps c ft j
  rw [happly] at hstay ⊢
  refine ⟨⟨out, n, rfl, hread⟩, ?_, fun d' b' t' hw' hd' hwithin' => ?_, fun i ho => ?_⟩
  · have hplaced := c.placed h.placed
    rw [happly] at hplaced
    exact hplaced
  · have hdd : d' ≠ d := by
      rintro rfl
      rw [Function.update_self] at hd'
      cases hd'
    rw [Function.update_of_ne hdd] at hd'
    obtain ⟨i, hkeeps'⟩ := h.kept d' b' t' hw' hd' hwithin'
    refine ⟨i, ?_⟩
    rw [hstay i ⟨hkeeps'.occupied, hwithin'.not_expired hkeeps'.time⟩ ?_ hroom]
    · exact hkeeps'
    · rw [hc.dg]
      exact fun hkey => hdd (hsame d' b' t' hd' hw' (hkeeps'.hasKey.2.symm.trans hkey.2))
  · have hi : i ≠ j := by
      rintro rfl
      rw [ft'.set_entries_self] at ho
      cases ho
    rw [ft'.set_entries_of_ne _ hi] at ho ⊢
    have hold := hswept.occupied ho
    rw [hold] at ho ⊢
    obtain ⟨d', b', t', hw', hd', hkeeps'⟩ := h.only i ho
    refine ⟨d', b', t', hw', ?_, hkeeps'⟩
    rw [Function.update_of_ne ?_]
    · exact hd'
    · -- no other entry belongs to the datagram
      rintro rfl
      refine hi (h.placed.unique i j ho hkeeps.occupied ?_)
      rw [hkeeps'.hasKey.1, hkeeps'.hasKey.2]
      exact hkeeps.hasKey

end Mirror

/-! ## what the network does -/

/-- The event delivers a wire frame of the dispatch. -/
def RecvEvent.Brings (ev : RecvEvent) (x : Dispatch) : Prop := ∃ wire ∈ x.wires, ev.wire? = some wire

instance (ev : RecvEvent) (x : Dispatch) : Decidable (ev.Brings x) :=
  inferInstanceAs (Decidable (∃ wire ∈ x.wires, _))

/-- One frame of the dispatch came within the timeout, and another has not come yet. -/
def Dispatch.HalfCame (x : Dispatch) (events : List RecvEvent) (now : UInt64) : Prop :=
  (∃ ev ∈ events, ev.Brings x ∧ Within ev.time now) ∧ ∃ wire ∈ x.wires, wire ∉ delivered events

instance (x : Dispatch) (events : List RecvEvent) (now : UInt64) : Decidable (x.HalfCame events now) :=
  inferInstanceAs (Decidable ((∃ ev ∈ events, _) ∧ ∃ wire ∈ x.wires, _))

/-- Of the datagrams of a worker, those that wait for their second half. -/
def halfCame (log : List Dispatch) (events : List RecvEvent) (now : UInt64) (w : Nat) : List Dispatch :=
  log.filter fun x => x.datagram.worker = w ∧ x.HalfCame events now

/-- No frame comes twice, the clock does not go back, the two frames of a datagram come
within the timeout, and fewer than eight datagrams of a worker wait at a time. -/
structure Orderly (log : List Dispatch) (events : List RecvEvent) : Prop where
  once : (delivered events).Nodup
  clock : events.Pairwise fun a b => a.time ≤ b.time
  timely : ∀ x ∈ log, events.Pairwise fun a b => a.Brings x → b.Brings x → Within a.time b.time
  few : ∀ pre ev, pre ++ [ev] <+: events → ∀ w, (halfCame log pre ev.time w).length < 8

theorem Orderly.of_append {log : List Dispatch} {events : List RecvEvent} {ev : RecvEvent}
    (h : Orderly log (events ++ [ev])) : Orderly log events where
  once := by
    have honce := h.once
    rw [delivered, List.filterMap_append] at honce
    exact (List.nodup_append'.mp honce).1
  clock := (List.pairwise_append.mp h.clock).1
  timely x hx := (List.pairwise_append.mp (h.timely x hx)).1
  few pre ev' hpre := h.few pre ev' (hpre.trans (List.prefix_append _ _))

/-! ## the receiver does what the state machine does -/

/-- The receiver at a time, and the state machine that has seen the same pieces. -/
structure Mirrors (a : Pairing SentDatagram UInt64) (r : Receiver) (now : UInt64) : Prop where
  emitted : r.emitted = a.done.map SentDatagram.frame
  since : ∀ d b t, a.waiting d = some (b, t) → t ≤ now
  tables : ∀ w, TableMirrors a.waiting w ((r.tables w).getD OptTable.empty) now

section Run

variable {g : Gcm} {ctx : PacketCryptoCtx} {steps : List SendStep} {log : List Dispatch} {events : List RecvEvent}
  {a : Pairing SentDatagram UInt64} {r : Receiver} {now now' : UInt64} {d : SentDatagram} {b : Bool}
  {env : Env} {packet output : Mem} {len : Nat}

theorem Mirrors.later (h : Mirrors a r now) (hle : now ≤ now') : Mirrors a r now' where
  emitted := h.emitted
  since d b t hd := UInt64.le_trans (h.since d b t hd) hle
  tables w := (h.tables w).later hle h.since fun _ _ => rfl

theorem Mirrors.gc (h : Mirrors a r now) (w : Nat) : Mirrors a (r.step ctx (.gc w now)) now where
  emitted := h.emitted
  since := h.since
  tables v := by
    rw [Receiver.step, l2CryptoFragGc]
    cases hw : r.tables (optTableIdx w) with
    | none => exact h.tables v
    | some ft =>
        dsimp only
        by_cases hv : v = optTableIdx w
        · subst hv
          rw [Function.update_self]
          have hft := h.tables (optTableIdx w)
          rw [hw] at hft
          exact hft.gc
        · rw [Function.update_of_ne hv]
          exact h.tables v

/-- A table is there for every fragment. -/
theorem Opener.optTable (ho : Opener g env) (tables : FragTables) (w : Nat) :
    optTable env tables w = some ((tables w).getD OptTable.empty) := by
  rw [NetworkEncryptor.optTable]
  cases tables w with
  | none => exact if_pos ho.calloc
  | some ft => rfl

/-- A half of a datagram is handed to the table of its worker. -/
theorem Mirrors.half {c : ReasmCall} {v : Option (Bool × UInt64)} {done : List SentDatagram}
    {emitted : List (List UInt8)} (h : Mirrors a r c.now) (hv : ∀ b t, v = some (b, t) → t ≤ c.now)
    (htable : TableMirrors (Function.update a.waiting d v) d.worker
      (c.apply ((r.tables d.worker).getD OptTable.empty)).1 c.now)
    (hemitted : emitted = done.map SentDatagram.frame) :
    Mirrors ⟨Function.update a.waiting d v, done⟩
      ⟨Function.update r.tables d.worker (some (c.apply ((r.tables d.worker).getD OptTable.empty)).1), emitted⟩ c.now where
  emitted := hemitted
  since d' b t hd' := by
    dsimp only at hd'
    by_cases hdd : d' = d
    · rw [hdd, Function.update_self] at hd'
      exact hv b t hd'
    · rw [Function.update_of_ne hdd] at hd'
      exact h.since d' b t hd'
  tables w := by
    dsimp only
    by_cases hw : w = d.worker
    · subst hw
      rw [Function.update_self]
      exact htable
    · rw [Function.update_of_ne hw]
      refine (h.tables w).later (UInt64.le_refl _) h.since fun d' hd' => Function.update_of_ne ?_ ..
      rintro rfl
      exact hw hd'.symm

/-- The frame of a kind, if the dispatch has one. -/
theorem Logged.pieceOf_piece (h : Logged g ctx steps log) (hlaw : g.Lawful) {x : Dispatch} (hx : x ∈ log)
    {wire : List UInt8} {kind : L2UdpKind} (hw : wire ∈ x.wires) (hwire : WireOf g ctx.key x.datagram kind wire) :
    pieceOf log wire = some (x.datagram.piece kind) :=
  (h.pieceOf_eq hlaw).mpr ⟨x, hx, (h.piece?_eq hlaw hx).mpr ⟨hw, kind, hwire, rfl⟩⟩

/-- What a datagram that waits has sent and received. -/
theorem Logged.waits (h : Logged g ctx steps log) (hlaw : g.Lawful) (hp : PairedUp (arrivals log events) a)
    {t : UInt64} (hd : a.waiting d = some (b, t)) : ∃ x ∈ log, x.datagram = d ∧
      (∃ ev ∈ events, ev.Brings x ∧ ev.time = t) ∧ ∃ wire ∈ x.wires, wire ∉ delivered events := by
  obtain ⟨hmem, hno⟩ := hp.waiting d b t hd
  obtain ⟨ev, hev, htime, wire, hwire, hpiece⟩ := mem_arrivals.mp hmem
  obtain ⟨x, hx, hxp⟩ := (h.pieceOf_eq hlaw).mp hpiece
  obtain ⟨hin, kind, hkind, heq⟩ := (h.piece?_eq hlaw hx).mp hxp
  have hxd : x.datagram = d := by rw [← x.datagram.piece_key kind, ← heq]; rfl
  refine ⟨x, hx, hxd, ⟨ev, hev, ⟨wire, hin, hwire⟩, htime⟩, ?_⟩
  have hmiss : ∀ w kind', w ∈ x.wires → WireOf g ctx.key x.datagram kind' w →
      x.datagram.piece kind' = .half d (!b) → w ∉ delivered events := by
    intro w kind' hw hwire' hpc hdel
    rw [arrivals_pieces, List.mem_filterMap] at hno
    exact hno ⟨w, hdel, by rw [h.pieceOf_piece hlaw hx hw hwire', hpc]⟩
  have hs := h.sent x hx
  generalize hwires : x.wires = wires at hs hin hmiss
  cases hs with
  | nothing => cases hin
  | @whole w0 _ _ h0 =>
      obtain rfl := List.mem_singleton.mp hin
      rw [← (h0.inj hlaw hkind).2.1] at heq
      cases heq
  | @halves w0 w1 _ _ _ h0 h1 =>
      cases b with
      | false => exact ⟨w1, by simp, hmiss w1 .frag1 (by simp) h1 (by rw [hxd]; rfl)⟩
      | true => exact ⟨w0, by simp, hmiss w0 .frag0 (by simp) h0 (by rw [hxd]; rfl)⟩

/-- The datagrams of a worker that wait are few. -/
theorem Logged.few (h : Logged g ctx steps log) (hlaw : g.Lawful) (hp : PairedUp (arrivals log events) a)
    {w : Nat} (hfew : (halfCame log events now w).length < 8) {ds : List SentDatagram} (hnodup : ds.Nodup)
    (hds : ∀ d ∈ ds, d.worker = w ∧ ∃ b t, a.waiting d = some (b, t) ∧ Within t now) : ds.length < 8 := by
  refine Nat.lt_of_le_of_lt ?_ hfew
  rw [← List.length_map Dispatch.datagram]
  refine (List.subperm_of_subset hnodup fun d hd => ?_).length_le
  obtain ⟨hw, b, t, hwait, hwithin⟩ := hds d hd
  obtain ⟨x, hx, rfl, ⟨ev, hev, hbrings, rfl⟩, hmiss⟩ := h.waits hlaw hp hwait
  exact List.mem_map_of_mem (List.mem_filter.mpr
    ⟨hx, decide_eq_true ⟨hw, ⟨ev, hev, hbrings, hwithin⟩, hmiss⟩⟩)

/-- A delivery is a step of the state machine. -/
theorem Mirrors.deliver (h : Logged g ctx steps log) (hlaw : g.Lawful) (hp : PairedUp (arrivals log events) a)
    (hm : Mirrors a r env.now) (ho : Opener g env) {x : Dispatch} (hx : x ∈ log)
    (hw : packet.read 0 len ∈ x.wires) (horder : Orderly log (events ++ [.deliver env packet len output])) :
    ∃ p, pieceOf log (packet.read 0 len) = some p ∧
      Mirrors (a.step (p, env.now)) (r.step ctx (.deliver env packet len output)) env.now := by
  have hpieces := h.pieces hlaw horder.once
  have htimely : ∀ ev ∈ events, ev.Brings x → Within ev.time env.now := fun ev hev hbrings =>
    (List.pairwise_append.mp (horder.timely x hx)).2.2 ev hev _ (List.mem_singleton_self _) hbrings ⟨_, hw, rfl⟩
  have harrivals : ∀ p, pieceOf log (packet.read 0 len) = some p →
      arrivals log (events ++ [.deliver env packet len output]) = arrivals log events ++ [(p, env.now)] := by
    intro p hpiece
    rw [arrivals, List.filterMap_append, ← arrivals]
    simp [RecvEvent.arrival?, RecvEvent.wire?, RecvEvent.time, hpiece]
  -- the datagrams of a worker are told apart by their ids
  have hsame : ∀ d' b t, a.waiting d' = some (b, t) → d'.worker = x.datagram.worker →
      d'.dg.datagramId = x.datagram.dg.datagramId → d' = x.datagram := by
    intro d' b t hd' hworker hid
    obtain ⟨y, hy, rfl, -⟩ := h.waits hlaw hp hd'
    rw [h.same hy hx hworker hid]
  have hhalf : ∀ b, 14 + x.datagram.payload.length ≤ neJumboFrameMax → HeadOk (x.datagram.part .frag0) →
      ctx.initialized = true → WireOf g ctx.key x.datagram (halfKind b) (packet.read 0 len) →
      ∃ p, pieceOf log (packet.read 0 len) = some p ∧
        Mirrors (a.step (p, env.now)) (r.step ctx (.deliver env packet len output)) env.now := by
    intro b hlen head hctx hwire
    have hpiece : pieceOf log (packet.read 0 len) = some (.half x.datagram b) := by
      rw [h.pieceOf_piece hlaw hx hw hwire]
      cases b <;> rfl
    refine ⟨_, hpiece, ?_⟩
    rw [harrivals _ hpiece] at hpieces
    obtain ⟨c, hc, hnow, hstep⟩ := @step_half g ctx x.datagram b env packet output len r hlaw ho hctx (h.lt hx) hlen
      head hwire _ (ho.optTable r.tables x.datagram.worker)
    rw [hstep]
    rw [← hnow] at hm htimely ⊢
    have htable := hm.tables x.datagram.worker
    cases hwait : a.waiting x.datagram with
    | none =>
        have hroom := htable.hasRoom hm.since fun ds hnodup hds => h.few hlaw hp
          (by rw [hnow]; exact horder.few events _ (List.prefix_refl _) x.datagram.worker) hnodup hds
        obtain ⟨hres, hnext⟩ := htable.first rfl hc hwait hroom hsame
        rw [hres]
        simp only [Pairing.step, hwait]
        exact hm.half (fun b t heq => by cases heq; exact UInt64.le_refl _) hnext hm.emitted
    | some v =>
        obtain ⟨b', t⟩ := v
        obtain ⟨hmem, -⟩ := hp.waiting x.datagram b' t hwait
        have hb : b' = !b := by
          rcases Bool.eq_or_eq_not b' b with rfl | hb
          · exact absurd (List.mem_map_of_mem hmem) hpieces.fresh
          · exact hb
        subst hb
        have hwithin : Within t c.now := by
          obtain ⟨y, hy, hyd, ⟨ev, hev, hbrings, rfl⟩, -⟩ := h.waits hlaw hp hwait
          rw [h.same hy hx (by rw [hyd]) (by rw [hyd])] at hbrings
          exact htimely ev hev hbrings
        obtain ⟨⟨out, n, hres, hread⟩, hnext⟩ := htable.second rfl hc hwait hwithin hlen hsame
        rw [hres]
        simp only [Pairing.step, hwait]
        refine hm.half (fun b t heq => by cases heq) hnext ?_
        rw [hread, hm.emitted, List.map_append]
        rfl
  have hs := h.sent x hx
  have hin := hw
  generalize x.wires = wires at hs hin
  cases hs with
  | nothing => cases hin
  | @whole w0 hctx hlen h0 =>
      obtain rfl := List.mem_singleton.mp hin
      refine ⟨_, h.pieceOf_piece hlaw hx hw h0, ?_⟩
      rw [step_whole hlaw ho hctx (h.lt hx) hlen h0]
      refine ⟨?_, hm.since, hm.tables⟩
      dsimp only [Pairing.step, SentDatagram.piece]
      rw [hm.emitted, List.map_append]
      rfl
  | @halves w0 w1 hctx hlen head h0 h1 =>
      rcases List.mem_pair.mp hin with rfl | rfl
      · exact hhalf false hlen head hctx h0
      · exact hhalf true hlen head hctx h1

/-- Over a run, the receiver does what the state machine does with the datagrams. -/
theorem mirrors_run (h : Logged g ctx steps log) (hlaw : g.Lawful) (horder : Orderly log events)
    (hdeliver : ∀ env packet len output, .deliver env packet len output ∈ events →
      Opener g env ∧ ∃ x ∈ log, packet.read 0 len ∈ x.wires) (hnow : ∀ ev ∈ events, ev.time ≤ now) :
    Mirrors (run Pairing.step Pairing.init (arrivals log events)) (runReceiver ctx events) now := by
  induction events using List.reverseRecOn generalizing now with
  | nil =>
      refine ⟨rfl, ?_, fun w => tableMirrors_empty now⟩
      intro _ _ _ h
      cases h
  | append_singleton events ev ih =>
      have hlast : ev.time ≤ now := hnow ev (List.mem_append_right _ (List.mem_singleton_self _))
      have hm := @ih ev.time horder.of_append
        (fun env packet len output hev => hdeliver env packet len output (List.mem_append_left _ hev))
        fun e he => (List.pairwise_append.mp horder.clock).2.2 e he ev (List.mem_singleton_self _)
      have hrun : runReceiver ctx (events ++ [ev]) = (runReceiver ctx events).step ctx ev := List.foldl_append ..
      rw [hrun]
      refine Mirrors.later ?_ hlast
      cases ev with
      | gc w t =>
          have hnone : arrivals log (events ++ [.gc w t]) = arrivals log events := by
            rw [arrivals, List.filterMap_append]
            exact List.append_nil _
          rw [hnone]
          exact hm.gc w
      | deliver env packet len output =>
          obtain ⟨ho, x, hx, hw⟩ := hdeliver env packet len output
            (List.mem_append_right _ (List.mem_singleton_self _))
          have hp := pairedUp_run (h.pieces hlaw horder.of_append.once)
          obtain ⟨p, hpiece, hnext⟩ := hm.deliver h hlaw hp ho hx hw horder
          have hsome : arrivals log (events ++ [.deliver env packet len output]) =
              arrivals log events ++ [(p, env.now)] := by
            rw [arrivals, List.filterMap_append, ← arrivals]
            simp [RecvEvent.arrival?, RecvEvent.wire?, RecvEvent.time, hpiece]
          rw [hsome, run_append]
          exact hnext

/-- The pieces that arrived are complete when all frames of the dispatch were delivered. -/
theorem Logged.complete_iff (h : Logged g ctx steps log) (hlaw : g.Lawful) :
    Complete ((arrivals log events).map Prod.fst) d ↔
      ∃ x ∈ log, x.datagram = d ∧ x.wires ≠ [] ∧ ∀ wire ∈ x.wires, wire ∈ delivered events := by
  rw [arrivals_pieces]
  have hfind : ∀ {kind}, d.piece kind ∈ (delivered events).filterMap (pieceOf log) →
      ∃ x ∈ log, x.datagram = d ∧ ∃ wire ∈ x.wires, wire ∈ delivered events ∧ WireOf g ctx.key d kind wire := by
    intro kind hmem
    obtain ⟨wire, hdel, hpiece⟩ := List.mem_filterMap.mp hmem
    obtain ⟨x, hx, hxp⟩ := (h.pieceOf_eq hlaw).mp hpiece
    obtain ⟨hin, kind', hkind, heq⟩ := (h.piece?_eq hlaw hx).mp hxp
    obtain ⟨rfl, rfl⟩ := SentDatagram.piece_inj heq
    exact ⟨x, hx, rfl, wire, hin, hdel, hkind⟩
  constructor
  · rintro (hwhole | hall)
    · obtain ⟨x, hx, rfl, wire, hin, hdel, hwire⟩ := @hfind .full hwhole
      refine ⟨x, hx, rfl, List.ne_nil_of_mem hin, ?_⟩
      have hs := h.sent x hx
      generalize x.wires = wires at hs hin
      cases hs with
      | nothing => cases hin
      | @whole w0 _ _ _ =>
          obtain rfl := List.mem_singleton.mp hin
          simpa using hdel
      | @halves w0 w1 _ _ _ h0 h1 =>
          rcases List.mem_pair.mp hin with rfl | rfl
          · cases (h0.inj hlaw hwire).2.1
          · cases (h1.inj hlaw hwire).2.1
    · obtain ⟨x, hx, rfl, wire, hin, hdel, hwire⟩ := @hfind .frag0 (hall false)
      obtain ⟨y, hy, hyd, wire', hin', hdel', hwire'⟩ := @hfind .frag1 (hall true)
      obtain rfl : y = x := h.same hy hx (by rw [hyd]) (by rw [hyd])
      refine ⟨y, hx, rfl, List.ne_nil_of_mem hin, ?_⟩
      have hs := h.sent y hx
      generalize y.wires = wires at hs hin hin'
      cases hs with
      | nothing => cases hin
      | @whole w0 _ _ h0 =>
          obtain rfl := List.mem_singleton.mp hin
          cases (h0.inj hlaw hwire).2.1
      | @halves w0 w1 _ _ _ h0 h1 =>
          intro w hw
          rcases List.mem_pair.mp hin with rfl | rfl
          · rcases List.mem_pair.mp hin' with rfl | rfl
            · cases (h0.inj hlaw hwire').2.1
            · rcases List.mem_pair.mp hw with rfl | rfl
              · exact hdel
              · exact hdel'
          · cases (h1.inj hlaw hwire).2.1
  · rintro ⟨x, hx, rfl, hne, hall⟩
    have hin : ∀ {kind wire}, wire ∈ x.wires → WireOf g ctx.key x.datagram kind wire →
        x.datagram.piece kind ∈ (delivered events).filterMap (pieceOf log) := fun hw hwire =>
      List.mem_filterMap.mpr ⟨_, hall _ hw, h.pieceOf_piece hlaw hx hw hwire⟩
    have hs := h.sent x hx
    generalize x.wires = wires at hs hin hne
    cases hs with
    | nothing => exact absurd rfl hne
    | @whole w0 _ _ h0 => exact .inl (hin (List.mem_singleton_self _) h0)
    | @halves w0 w1 _ _ _ h0 h1 =>
        refine .inr fun b => ?_
        cases b with
        | false => exact hin (by simp) h0
        | true => exact hin (by simp) h1

end Run

/-- Exactly once: when the frames of a sending process reach the receiver in any order and
interleaving, some of them perhaps never, but none twice, the fragments of a datagram within
the timeout and with fewer than eight of a worker waiting, then what comes out is each frame
all of whose wire frames arrived, once, and nothing else. -/
theorem delivered_exactly_once {g : Gcm} (hlaw : g.Lawful) (ctx : PacketCryptoCtx) (steps : List SendStep)
    (hg : ∀ e ∈ steps, e.env.gcm = g) (hip : ∀ e ∈ steps, cryptoPktIsIpv4 e.packet e.len = true)
    (hmax : ∀ e ∈ steps, e.len ≤ 9014) (hcount : ∀ w, sendCount w steps < 2 ^ 32) (events : List RecvEvent)
    (hdeliver : ∀ env packet len output, .deliver env packet len output ∈ events →
      Opener g env ∧ packet.read 0 len ∈ (runSender ctx steps).wires)
    (horder : Orderly (sendLog ctx steps) events) :
    (runReceiver ctx events).emitted.Perm
      (((sendLog ctx steps).filter fun x => x.wires ≠ [] ∧ ∀ wire ∈ x.wires, wire ∈ delivered events).map
        fun x => x.step.frame) := by
  have h := @logged_run g ctx steps hg hip hmax hcount
  have hwires : (runSender ctx steps).wires = (sendLog ctx steps).flatMap Dispatch.wires := Sender.wires_log _ steps
  have hm := @mirrors_run g ctx steps (sendLog ctx steps) events 18446744073709551615 h hlaw horder
    (fun env packet len output hev => by
      obtain ⟨ho, hw⟩ := hdeliver env packet len output hev
      rw [hwires, List.mem_flatMap] at hw
      exact ⟨ho, hw⟩)
    fun ev _ => by
      have hlt := ev.time.toNat_lt
      have hlast : (18446744073709551615 : UInt64).toNat = 18446744073709551615 := rfl
      rw [UInt64.le_iff_toNat_le, hlast]
      omega
  have hp := pairedUp_run (h.pieces hlaw horder.once)
  have hdatagrams : ((sendLog ctx steps).map Dispatch.datagram).Nodup :=
    List.pairwise_map.mpr (h.apart.imp fun hapart heq => hapart ⟨by rw [heq], by rw [heq]⟩)
  have hdone : (run Pairing.step Pairing.init (arrivals (sendLog ctx steps) events)).done.Perm
      (((sendLog ctx steps).filter fun x => x.wires ≠ [] ∧ ∀ wire ∈ x.wires, wire ∈ delivered events).map
        Dispatch.datagram) := by
    refine (List.perm_ext_iff_of_nodup hp.nodup (hdatagrams.sublist (List.filter_sublist.map _))).mpr fun d => ?_
    rw [hp.done, h.complete_iff hlaw, List.mem_map]
    refine exists_congr fun x => ?_
    rw [List.mem_filter, decide_eq_true_eq]
    tauto
  have hframes := hdone.map SentDatagram.frame
  rw [← hm.emitted, List.map_map] at hframes
  refine hframes.trans (List.Perm.of_eq (List.map_congr_left fun x hx => ?_))
  exact h.frame x (List.mem_of_mem_filter hx)

/-- Three workers send a datagram each. -/
def sampleSends : List SendStep :=
  [sampleSend, { sampleSend with worker := sampleSend.worker.rev }, { sampleSend with worker := Fin.last 5 }]

/-- The frame of the last worker arrives before that of the first, and the one in between is lost. -/
def sampleReordered : List RecvEvent :=
  let wires := (runSender (packetCryptoInit coreKey) sampleSends).wires
  let deliver (wire : List UInt8) : RecvEvent := .deliver sampleSend.env (Mem.ofList wire) wire.length fun _ => 0
  [deliver (wires.getD 2 []), .gc 2 0, deliver (wires.getD 0 [])]

theorem delivered_exactly_once_sample :
    (runReceiver (packetCryptoInit coreKey) sampleReordered).emitted.length = 2 ∧
      (runReceiver (packetCryptoInit coreKey) sampleReordered).emitted.Perm
        (((sendLog (packetCryptoInit coreKey) sampleSends).filter fun x =>
          x.wires ≠ [] ∧ ∀ wire ∈ x.wires, wire ∈ delivered sampleReordered).map fun x => x.step.frame) := by
  refine ⟨by decide +kernel, delivered_exactly_once sampleGcm_lawful (packetCryptoInit coreKey) sampleSends
    (by simp [sampleSends, sampleSend, sampleEnv]) (by decide) (by decide) (by decide) sampleReordered ?_ ?_⟩
  · have hall : ∀ wire ∈ delivered sampleReordered, wire ∈ (runSender (packetCryptoInit coreKey) sampleSends).wires := by
      decide +kernel
    intro env packet len output hev
    refine ⟨?_, hall _ (List.mem_filterMap.mpr ⟨_, hev, rfl⟩)⟩
    simp only [sampleReordered, List.mem_cons, RecvEvent.deliver.injEq, reduceCtorEq, false_or, List.not_mem_nil,
      or_false] at hev
    rcases hev with ⟨rfl, -⟩ | ⟨rfl, -⟩ <;> exact ⟨rfl, rfl, rfl⟩
  · refine ⟨by decide +kernel, by decide +kernel, by decide +kernel, fun pre ev _ w => ?_⟩
    exact Nat.lt_of_le_of_lt (List.length_filter_le ..) (by decide)

end NetworkEncryptor
