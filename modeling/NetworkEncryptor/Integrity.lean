import NetworkEncryptor.Lib.Run
import NetworkEncryptor.Seals
import NetworkEncryptor.Tunnel

/-!
# NetworkEncryptor.Integrity

A receiver against arbitrary bytes from the WAN, with an ideal cipher: it opens
only what some holder of the key encrypted.

What is outside the authenticated data steers the decoding, and two things go
wrong with it.  A UDP-format encryption without its marker is taken for DATA,
and its shim for an EtherType.  And the worker id selects the fragment table,
while the key of a datagram, `(epoch, seq, datagram id)`, is counted by each
worker of the sender for itself, so halves of different frames can meet in one
table.  `Kept` says that neither happens; then every emitted frame is one that
was encrypted.
-/

namespace NetworkEncryptor

/-! ## the world -/

/-- An encryption, with the frame it was done for. -/
structure Encryption where
  frame : List UInt8
  made : Sealed

/-- A receiving process, everything key holders have encrypted so far, and every
wire frame that was handed to a worker. -/
structure World where
  log : List Encryption
  fwd : Forwarder
  workers : Nat → Worker
  handed : List (Nat × List UInt8)

/-- A key holder processes a frame from its LAN; a worker is handed a wire frame;
a worker collects garbage. -/
inductive NetStep
  | send (env : Env) (j : Job) (frame : List UInt8)
  | recv (w : Nat) (a : Arrival) (wire : List UInt8)
  | gc (w : Nat) (now : UInt64)

/-- What a run of `dataplane_process_local` encrypted. -/
def newSeals (env : Env) (j : Job) : List Sealed :=
  (dataplaneProcessLocal env j).self.l2.sealed.drop j.self.l2.sealed.length

def World.step (W : World) : NetStep → World
  | .send env j frame => { W with log := W.log ++ (newSeals env j).map fun e => ⟨frame, e⟩ }
  | .recv w a wire =>
      let s := deliver (W.fwd, W.workers w) a
      { W with fwd := s.1, workers := Function.update W.workers w s.2,
               handed := W.handed ++ [(w, wire)] }
  | .gc w now => { W with fwd := { W.fwd with tables := l2CryptoFragGc W.fwd.tables w now } }

/-- The cipher opens only what was encrypted under the key, and opens it to what
was encrypted. -/
def IdealGcm (log : List Encryption) (key : Key) (g : Gcm) : Prop :=
  ∀ n c t p, g.decrypt key n c t = some p → ∃ x ∈ log, x.made = ⟨key, n, p, c, t⟩

/-- The receiver before its first packet. -/
structure World.Fresh (key : Key) (W : World) : Prop where
  log : W.log = []
  handed : W.handed = []
  tables : W.fwd.tables = fun _ => none
  key : W.fwd.crypto.key = key
  workers : ∀ w < neCryptoWorkers, (W.workers w).tls.cryptoWorkerIdx = some w

/-- From the EtherType on, the frame is one that was encrypted, after its clamp. -/
def Genuine (log : List Encryption) (frame : List UInt8) : Prop :=
  12 ≤ frame.length ∧ ∃ x ∈ log, frame.drop 12 = (clampedFrame x.frame).drop 12

/-- Whatever a worker emits for a wire frame is genuine. -/
def World.EmitsGenuine (W : World) : NetStep → Prop
  | .recv w a _ => ∃ frames, Emits W.fwd (deliver (W.fwd, W.workers w) a).1 frames ∧
      ∀ frame ∈ frames, Genuine W.log frame
  | _ => True

/-! ## the condition -/

/-- The wire frame carries the encryption behind its header. -/
def Sealed.AsData (e : Sealed) (wire : List UInt8) : Prop :=
  (wire.drop 15).take 12 = e.nonce.1 ∧ wire.drop 27 = e.cipher ++ e.tag

/-- The wire frame carries the encryption behind header and marker. -/
def Sealed.AsUdp (e : Sealed) (wire : List UInt8) : Prop :=
  (wire.drop 15).take 12 = e.nonce.1 ∧ wire.drop 27 = l2UdpMarker ++ (e.cipher ++ e.tag)

/-- A frame for the DATA decoder does not carry an encryption in UDP format. -/
def FormatKept (log : List Encryption) (wire : List UInt8) : Prop :=
  isUdpWire (Mem.ofList wire) wire.length = false → ∀ x ∈ log, x.made.AsData wire →
    ∀ kind dg payload, x.made.plain ≠ l2UdpShim kind dg ++ payload

/-- A first and a second half for one key, both handed to one worker, were
encrypted for one frame. -/
def HalvesKept (log : List Encryption) (wires : List (List UInt8)) : Prop :=
  ∀ wire0 ∈ wires, ∀ wire1 ∈ wires, ∀ x ∈ log, ∀ y ∈ log, x.made.AsUdp wire0 → y.made.AsUdp wire1 →
    ∀ dg p q, x.made.plain = l2UdpShim .frag0 dg ++ p → y.made.plain = l2UdpShim .frag1 dg ++ q →
      ∃ frame, ⟨frame, x.made⟩ ∈ log ∧ ⟨frame, y.made⟩ ∈ log

/-- The wire frames handed to a worker. -/
def handedTo (handed : List (Nat × List UInt8)) (w : Nat) : List (List UInt8) :=
  (handed.filter fun h => h.1 = w).map (·.2)

/-- Marker and worker id were not tampered with to effect. -/
def World.Kept (W : World) : NetStep → Prop
  | .recv w _ wire => FormatKept W.log wire ∧ HalvesKept W.log (handedTo W.handed w ++ [wire])
  | _ => True

/-! ## what the cipher opens -/

section Opens

variable {env : Env} {ctx : PacketCryptoCtx} {log : List Encryption} {buf : Mem}
  {wire plain frame : List UInt8}

/-- What lies behind the header, as the decoders cut it. -/
theorem drop_eq_of_read {off : Nat} (hbuf : buf.read 0 wire.length = wire)
    (hoff : off + 16 < wire.length) :
    wire.drop off = buf.read off (wire.length - off - 16) ++ buf.read (wire.length - 16) 16 := by
  have hlen : wire.length - off = wire.length - off - 16 + 16 := by omega
  have htag : off + (wire.length - off - 16) = wire.length - 16 := by omega
  rw [← read_drop hbuf (by omega), hlen, Mem.read_add, htag]
  rfl

theorem nonce_of_read (hbuf : buf.read 0 wire.length = wire) (hlen : 27 ≤ wire.length) :
    (wire.drop 15).take 12 = (buf.readNonce 15).1 := by
  rw [← read_drop hbuf (by omega), Mem.take_read _ (by omega)]
  rfl

/-- The DATA decoder opens an encryption that the wire frame carries as DATA. -/
theorem asData_of_opens (hbuf : buf.read 0 wire.length = wire)
    (hideal : IdealGcm log ctx.key env.gcm) (ho : Opens env ctx buf 27 wire.length plain) :
    ∃ x ∈ log, x.made.AsData wire ∧ x.made.plain = plain := by
  obtain ⟨-, -, hlen, hdec⟩ := ho
  obtain ⟨x, hx, hmade⟩ := hideal _ _ _ _ hdec
  refine ⟨x, hx, ⟨?_, ?_⟩, by rw [hmade]⟩
  · rw [hmade]; exact nonce_of_read hbuf (by omega)
  · rw [hmade]; exact drop_eq_of_read hbuf hlen

/-- The UDP decoder opens an encryption that the wire frame carries behind the
marker. -/
theorem asUdp_of_opens (hbuf : buf.read 0 wire.length = wire)
    (hideal : IdealGcm log ctx.key env.gcm) (hmark : buf.read 27 4 = l2UdpMarker)
    (ho : Opens env ctx buf 31 wire.length plain) :
    ∃ x ∈ log, x.made.AsUdp wire ∧ x.made.plain = plain := by
  obtain ⟨-, -, hlen, hdec⟩ := ho
  obtain ⟨x, hx, hmade⟩ := hideal _ _ _ _ hdec
  have hsplit : wire.drop 27 = l2UdpMarker ++ wire.drop 31 := by
    have hfour : (wire.drop 27).take 4 = l2UdpMarker := by
      rw [← hmark, ← read_drop hbuf (by omega), Mem.take_read _ (by omega)]
    have hrest : wire.drop 31 = (wire.drop 27).drop 4 := by rw [List.drop_drop]
    rw [hrest, ← hfour, List.take_append_drop]
  refine ⟨x, hx, ⟨?_, ?_⟩, by rw [hmade]⟩
  · rw [hmade]; exact nonce_of_read hbuf (by omega)
  · rw [hsplit, hmade, drop_eq_of_read hbuf hlen]

/-! ## plaintexts -/

/-- A clamped frame is IPv4 behind its addresses. -/
theorem drop_clampedFrame (hadm : Admitted frame) :
    (clampedFrame frame).drop 12 = [0x08, 0x00] ++ (clampedFrame frame).drop 14 := by
  obtain ⟨h34, -, het⟩ := hadm.spec
  have hread : (Mem.ofList frame).read 12 2 = [0x08, 0x00] := ethReadEt_eq_ethPIp_iff.mp het
  have hclamp : (clampedFrame frame).drop 12 = (cryptoTcpClampMss (Mem.ofList frame) frame.length
      l2CryptoMtu l2CryptoDataOverhead).2.read 12 (frame.length - 12) := by
    rw [clampedFrame]
    exact Mem.drop_read _ (by omega)
  have hfront : (cryptoTcpClampMss (Mem.ofList frame) frame.length l2CryptoMtu
      l2CryptoDataOverhead).2.read 12 2 = [0x08, 0x00] := by
    rw [← hread, Mem.read_eq_read_iff]
    intro i hi
    exact cryptoTcpClampMss_front _ _ _ _ (by omega)
  have htwo : ((clampedFrame frame).drop 12).take 2 = [0x08, 0x00] := by
    rw [hclamp, Mem.take_read _ (by omega), hfront]
  have hrest : (clampedFrame frame).drop 14 = ((clampedFrame frame).drop 12).drop 2 := by
    rw [List.drop_drop]
  rw [hrest, ← htwo, List.take_append_drop]

/-- No DATA plaintext starts with a shim. -/
theorem drop_clampedFrame_ne_shim (hadm : Admitted frame) (kind : L2UdpKind) (dg : UdpMeta)
    (payload : List UInt8) : (clampedFrame frame).drop 12 ≠ l2UdpShim kind dg ++ payload := by
  intro h
  rw [drop_clampedFrame hadm] at h
  have hhead := congrArg List.head? h
  cases kind <;> simp [l2UdpShim, L2UdpKind.code] at hhead

/-- The part of a frame that goes behind a shim of each kind. -/
def udpPart (frame : List UInt8) : L2UdpKind → List UInt8
  | .full => frame.drop 14
  | .frag0 => (frame.drop 14).take 8954
  | .frag1 => frame.drop 8968

/-- What a plaintext in UDP format contains. -/
theorem PlainOf.of_shim {kind : L2UdpKind} {dg : UdpMeta} {payload : List UInt8}
    (hadm : Admitted frame) (h : PlainOf frame (l2UdpShim kind dg ++ payload)) :
    frameProto frame = .udp ∧ payload = udpPart frame kind := by
  generalize hp : l2UdpShim kind dg ++ payload = plain at h
  cases h with
  | data => exact absurd hp.symm (drop_clampedFrame_ne_shim hadm kind dg payload)
  | full dg' hudp =>
      obtain ⟨rfl, -, rfl⟩ := l2UdpShim_append_inj hp
      exact ⟨hudp, rfl⟩
  | frag0 dg' hudp =>
      obtain ⟨rfl, -, rfl⟩ := l2UdpShim_append_inj hp
      exact ⟨hudp, rfl⟩
  | frag1 dg' hudp =>
      obtain ⟨rfl, -, rfl⟩ := l2UdpShim_append_inj hp
      exact ⟨hudp, rfl⟩

/-- What a plaintext in DATA format contains. -/
theorem PlainOf.of_not_shim (h : PlainOf frame plain)
    (hno : ∀ kind dg payload, plain ≠ l2UdpShim kind dg ++ payload) :
    plain = (clampedFrame frame).drop 12 := by
  cases h with
  | data => rfl
  | full dg _ => exact absurd rfl (hno .full dg _)
  | frag0 dg _ => exact absurd rfl (hno .frag0 dg _)
  | frag1 dg _ => exact absurd rfl (hno .frag1 dg _)

/-- A frame put together behind any addresses. -/
theorem drop_joined {macs : List UInt8} (hmacs : macs.length = 12) (hadm : Admitted frame)
    (hudp : frameProto frame = .udp) {p q : List UInt8} (hpq : p ++ q = frame.drop 14) :
    12 ≤ (joined macs p q).length ∧ (joined macs p q).drop 12 = (clampedFrame frame).drop 12 := by
  rw [drop_clampedFrame hadm, clampedFrame_of_udp hudp, joined, hpq, List.append_assoc]
  refine ⟨by rw [List.length_append]; omega, ?_⟩
  exact List.drop_left' hmacs

end Opens

/-! ## the invariant -/

/-- A half that was encrypted as `l2UdpShim kind dg ++ part` has been handed to a
worker. -/
def HalfAt (W : World) (kind : L2UdpKind) (w : Nat) (dg : UdpMeta) (part : List UInt8) : Prop :=
  ∃ wire ∈ handedTo W.handed w, ∃ x ∈ W.log, x.made.AsUdp wire ∧
    x.made.plain = l2UdpShim kind dg ++ part

/-- The log is of admitted frames, and the tables hold halves that were handed
to their workers. -/
structure World.Inv (key : Key) (W : World) : Prop where
  crypto : W.fwd.crypto.key = key
  workers : ∀ w < neCryptoWorkers, (W.workers w).tls.cryptoWorkerIdx = some w
  log : ∀ x ∈ W.log, Admitted x.frame ∧ SealOf key x.frame x.made
  tables : TablesFrom (fun w dg macs p => macs.length = 12 ∧ HalfAt W .frag0 w dg p)
    (fun w dg q => HalfAt W .frag1 w dg q) W.fwd.tables

section Step

variable {key : Key} {W W' : World} {env : Env} {j : Job} {frame wire : List UInt8} {w : Nat}
  {a : Arrival}

theorem World.Fresh.inv (h : W.Fresh key) : W.Inv key := by
  refine ⟨h.key, h.workers, ?_, ?_⟩
  · rw [h.log]; intro x hx; cases hx
  · rw [h.tables]; exact tablesFrom_none

theorem mem_handedTo {handed : List (Nat × List UInt8)} :
    wire ∈ handedTo handed w ↔ (w, wire) ∈ handed := by
  rw [handedTo, List.mem_map]
  constructor
  · intro h
    obtain ⟨⟨w', wire'⟩, hm, rfl⟩ := h
    rw [List.mem_filter, decide_eq_true_eq] at hm
    rw [← hm.2]
    exact hm.1
  · intro h
    exact ⟨(w, wire), List.mem_filter.mpr ⟨h, by simp⟩, rfl⟩

theorem handedTo_append (handed : List (Nat × List UInt8)) (w : Nat) (wire : List UInt8) :
    handedTo (handed ++ [(w, wire)]) w = handedTo handed w ++ [wire] := by
  rw [handedTo, List.filter_append, List.map_append]
  simp [handedTo]

/-- Halves stay handed. -/
theorem HalfAt.mono {kind : L2UdpKind} {dg : UdpMeta} {part : List UInt8}
    (h : HalfAt W kind w dg part) (hlog : ∀ x ∈ W.log, x ∈ W'.log)
    (hhanded : ∀ x ∈ W.handed, x ∈ W'.handed) : HalfAt W' kind w dg part := by
  obtain ⟨wire, hwire, x, hx, hrest⟩ := h
  exact ⟨wire, mem_handedTo.mpr (hhanded _ (mem_handedTo.mp hwire)), x, hlog x hx, hrest⟩

/-- The tables of a world that has seen more. -/
theorem World.Inv.tables_mono (h : W.Inv key) (hlog : ∀ x ∈ W.log, x ∈ W'.log)
    (hhanded : ∀ x ∈ W.handed, x ∈ W'.handed) :
    TablesFrom (fun w dg macs p => macs.length = 12 ∧ HalfAt W' .frag0 w dg p)
      (fun w dg q => HalfAt W' .frag1 w dg q) W.fwd.tables :=
  h.tables.mono (fun _ _ _ _ hp => ⟨hp.1, hp.2.mono hlog hhanded⟩)
    (fun _ _ _ hq => hq.mono hlog hhanded)

/-- A key holder encrypts: only the log grows. -/
theorem World.Inv.send (h : W.Inv key) (hr : Received j.fwd.pair j.pkt frame) (hadm : Admitted frame)
    (hkey : j.fwd.crypto.key = key) : (W.step (.send env j frame)).Inv key := by
  refine ⟨h.crypto, h.workers, fun x hx => ?_, ?_⟩
  · rcases List.mem_append.mp hx with hx | hx
    · exact h.log x hx
    · obtain ⟨e, he, rfl⟩ := List.mem_map.mp hx
      obtain ⟨new, hnew, hall⟩ := @sealsOnly_dataplaneProcessLocal env j frame hr hadm
      rw [newSeals, hnew, List.drop_left] at he
      rw [hkey] at hall
      exact ⟨hadm, hall e he⟩
  · exact h.tables_mono (fun x hx => List.mem_append_left _ hx) (fun x hx => hx)

/-- A worker collects garbage: entries are cleared. -/
theorem World.Inv.gc (h : W.Inv key) (w : Nat) (now : UInt64) : (W.step (.gc w now)).Inv key :=
  ⟨h.crypto, h.workers, h.log, tablesFrom_gc h.tables w now⟩

/-- What the DATA decoder emits is genuine. -/
theorem genuine_of_data (h : W.Inv key) (hideal : IdealGcm W.log key env.gcm)
    (hkept : FormatKept W.log wire) {ctx : PacketCryptoCtx} (hctx : ctx.key = key) {buf out : Mem}
    {n : Nat} (hbuf : buf.read 0 wire.length = wire)
    (hmark : cryptoEthL2HasMarker buf wire.length = true) (hudp : isUdpWire buf wire.length = false)
    (hd : l2CryptoDecrypt env .data ctx buf wire.length = some (out, n)) :
    Genuine W.log (out.read 0 n) := by
  have hdo : l2DoDecrypt env ctx buf wire.length = some (out, n) := by
    rw [l2CryptoDecrypt, if_neg (by simp), l2TcpDecrypt] at hd
    by_cases hi : ctx.initialized = true
    · rw [hi, hmark] at hd; exact hd
    · rw [Bool.not_eq_true] at hi
      rw [hi] at hd
      cases hd
  obtain ⟨-, plain, ho, rfl, rfl⟩ := l2DoDecrypt_eq_some_iff.mp hdo
  rw [← hctx] at hideal
  obtain ⟨x, hx, has, rfl⟩ := asData_of_opens hbuf hideal ho
  have hno : isUdpWire (Mem.ofList wire) wire.length = false := by
    have het := (cryptoEthL2HasMarker_iff.mp hmark)
    have hag := agree_ofList hbuf
    have hmark' : cryptoEthL2HasMarker (Mem.ofList wire) wire.length = true := by
      rw [cryptoEthL2HasMarker_iff, ← hag.ethReadEt (by omega)]
      exact het
    rw [← Bool.not_eq_true] at hudp ⊢
    rw [isUdpWire_iff hmark] at hudp
    rw [isUdpWire_iff hmark']
    intro hc
    refine hudp ⟨hc.1, ?_⟩
    rw [← hc.2, Mem.read_eq_read_iff]
    intro i hi
    exact hag _ (by omega)
  have hplain := (h.log x hx).2.2.of_not_shim (hkept hno x hx has)
  rw [read_dataPlain]
  refine ⟨by rw [List.length_append, Mem.length_read]; omega, x, hx, ?_⟩
  rw [List.drop_left' (Mem.length_read ..), hplain]

/-- The UDP decoder keeps the tables to halves that were handed over, and what it
emits is genuine. -/
theorem genuine_of_udp (h : W.Inv key) (hideal : IdealGcm W.log key env.gcm)
    (hkept : HalvesKept W.log (handedTo W.handed w ++ [wire])) (hw : w < neCryptoWorkers)
    {ctx : PacketCryptoCtx} (hctx : ctx.key = key) {buf output : Mem}
    (hbuf : buf.read 0 wire.length = wire) {fwd' : Forwarder} {workers' : Nat → Worker} :
    TablesFrom
        (fun w' dg macs p => macs.length = 12 ∧
          HalfAt ⟨W.log, fwd', workers', W.handed ++ [(w, wire)]⟩ .frag0 w' dg p)
        (fun w' dg q => HalfAt ⟨W.log, fwd', workers', W.handed ++ [(w, wire)]⟩ .frag1 w' dg q)
        (l2CryptoReassembleUdp env ctx W.fwd.tables w buf wire.length output).1 ∧
      ∀ out n, (l2CryptoReassembleUdp env ctx W.fwd.tables w buf wire.length output).2 =
        .done out n → Genuine W.log (out.read 0 n) := by
  have hidx : optTableIdx w = w := by rw [optTableIdx, if_neg (by omega)]
  rw [← hctx] at hideal
  have hmem : wire ∈ handedTo (W.handed ++ [(w, wire)]) w := by
    rw [handedTo_append]; exact List.mem_append_right _ List.mem_cons_self
  obtain ⟨htab, hdone⟩ := @l2CryptoReassembleUdp_from _ _
    (fun macs payload => macs.length = 12 ∧ ∃ x ∈ W.log, ∃ dg,
      x.made.plain = l2UdpShim .full dg ++ payload) env ctx W.fwd.tables w buf wire.length output
    (@World.Inv.tables_mono key W ⟨W.log, fwd', workers', W.handed ++ [(w, wire)]⟩ h
      (fun x hx => hx) (fun x hx => List.mem_append_left _ hx))
    (by
      intro kind dg payload _ hmark ho
      obtain ⟨x, hx, has, hplain⟩ := asUdp_of_opens hbuf hideal hmark ho
      rw [hidx]
      cases kind with
      | full => exact ⟨Mem.length_read .., x, hx, dg, hplain⟩
      | frag0 => exact ⟨Mem.length_read .., wire, hmem, x, hx, has, hplain⟩
      | frag1 => exact ⟨wire, hmem, x, hx, has, hplain⟩)
  refine ⟨htab, fun out n hd => ?_⟩
  rcases hdone out n hd with ⟨macs, payload, ⟨hm, x, hx, dg, hplain⟩, hread⟩ |
    ⟨dg, macs, p, q, ⟨hm, wire0, hw0, x, hx, has, hpx⟩, ⟨wire1, hw1, y, hy, hay, hpy⟩, hread⟩
  · -- a whole datagram
    obtain ⟨hadm, -, hof⟩ := h.log x hx
    rw [hplain] at hof
    obtain ⟨hudp, hpart⟩ := hof.of_shim hadm
    have hall : payload ++ [] = x.frame.drop 14 := by rw [List.append_nil, hpart, udpPart]
    obtain ⟨hlen, hdrop⟩ := drop_joined hm hadm hudp hall
    rw [hread]
    exact ⟨hlen, x, hx, hdrop⟩
  · -- two halves, of one frame
    rw [hidx, handedTo_append] at hw0 hw1
    obtain ⟨frame, hfx, hfy⟩ := hkept wire0 hw0 wire1 hw1 x hx y hy has hay dg p q hpx hpy
    obtain ⟨hadm, -, hofx⟩ := h.log _ hfx
    obtain ⟨-, -, hofy⟩ := h.log _ hfy
    rw [hpx] at hofx
    rw [hpy] at hofy
    obtain ⟨hudp, hp⟩ := hofx.of_shim hadm
    obtain ⟨-, hq⟩ := hofy.of_shim hadm
    have hpq : p ++ q = frame.drop 14 := by
      have hrest : frame.drop 8968 = (frame.drop 14).drop 8954 := by rw [List.drop_drop]
      rw [hp, hq, udpPart, udpPart, hrest, List.take_append_drop]
    obtain ⟨hlen, hdrop⟩ := drop_joined hm hadm hudp hpq
    rw [hread]
    exact ⟨hlen, ⟨frame, x.made⟩, hfx, hdrop⟩

/-- A worker is handed a wire frame: the invariant stays, and what is emitted is
genuine. -/
theorem World.Inv.recv (h : W.Inv key) (hw : w < neCryptoWorkers) (hr : Received a.pair a.pkt wire)
    (hideal : IdealGcm W.log key a.env.gcm) (hkept : W.Kept (.recv w a wire)) :
    (W.step (.recv w a wire)).Inv key ∧ W.EmitsGenuine (.recv w a wire) := by
  obtain ⟨frames, hemit, hres⟩ := @dataplaneProcessWan_restores (a.job (W.fwd, W.workers w)) wire
    a.env hr
  obtain ⟨pkts, hout⟩ := dataplaneProcessWan_outcome a.env (a.job (W.fwd, W.workers w))
  obtain ⟨ri, route, tables, hf, -, -⟩ := hout.fwd
  have hkey : (deliver (W.fwd, W.workers w) a).1.crypto.key = key := by
    have hfwd : (deliver (W.fwd, W.workers w) a).1 = _ := hf
    rw [hfwd]
    exact h.crypto
  have hworkers : ∀ w' < neCryptoWorkers, (Function.update W.workers w
      (deliver (W.fwd, W.workers w) a).2 w').tls.cryptoWorkerIdx = some w' := by
    intro w' hw'
    by_cases heq : w' = w
    · subst heq
      rw [Function.update_self]
      exact hout.worker.trans (h.workers w' hw')
    · rw [Function.update_of_ne heq]
      exact h.workers w' hw'
  -- tables and frames by the branch that was taken
  have hmain : TablesFrom
        (fun w' dg macs p => macs.length = 12 ∧ HalfAt (W.step (.recv w a wire)) .frag0 w' dg p)
        (fun w' dg q => HalfAt (W.step (.recv w a wire)) .frag1 w' dg q)
        (deliver (W.fwd, W.workers w) a).1.tables ∧ ∀ frame ∈ frames, Genuine W.log frame := by
    change Restores a.env (a.job (W.fwd, W.workers w)) wire
      (deliver (W.fwd, W.workers w) a).1.tables frames at hres
    have hmono := @World.Inv.tables_mono key W (W.step (.recv w a wire)) h (fun x hx => hx)
      (fun x hx => List.mem_append_left _ hx)
    generalize (deliver (W.fwd, W.workers w) a).1.tables = tables' at hres
    cases hres with
    | drop => exact ⟨hmono, fun _ hf => by cases hf⟩
    | data hbuf hmark hudp hd =>
        refine ⟨hmono, fun frame hf => ?_⟩
        rw [List.mem_singleton] at hf
        rw [hf]
        exact genuine_of_data h hideal hkept.1 h.crypto hbuf hmark hudp hd
    | udp hw' hlt hbuf hall =>
        have hsame := hw'.symm.trans (h.workers w hw)
        rw [Option.some.injEq] at hsame
        subst hsame
        obtain ⟨htab, hgen⟩ := genuine_of_udp h hideal hkept.2 hw h.crypto hbuf
        refine ⟨htab, fun frame hf => ?_⟩
        obtain ⟨out, n, rfl, hdone⟩ := hall frame hf
        exact hgen out n hdone
  exact ⟨⟨hkey, hworkers, h.log, hmain.1⟩, frames, hemit, hmain.2⟩

end Step

/-! ## one datagram, delivered and forged -/

end NetworkEncryptor
