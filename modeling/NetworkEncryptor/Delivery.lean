import NetworkEncryptor.CryptoRoute
import NetworkEncryptor.Fragments
import Mathlib.Data.List.Induction

/-!
# NetworkEncryptor.Delivery

Reassembly of what an honest peer sent, over a network that may lose,
duplicate, reorder and interleave frames but not change them.

The sender is a process with one thread per worker and a common epoch; every
UDP datagram gets a sequence number and the next value of the thread's datagram
clock, and leaves as one FULL frame or as two fragments.  A receiver worker is
the one named in the header, so a table only ever sees the datagrams of one
sender thread, and there the clock alone tells them apart.
-/

namespace NetworkEncryptor

/-! ## the sender -/

/-- One datagram a worker of the sender encrypts: the frame, the sequence number
its flow is at, and the buffer a second fragment goes to. -/
structure SendStep where
  worker : Fin neCryptoWorkers
  env : Env
  seq : UInt32
  packet : Mem
  len : Nat
  aux : Mem

/-- The frame as it was received from the LAN. -/
def SendStep.frame (e : SendStep) : List UInt8 := e.packet.read 0 e.len

/-- The UDP path of `encrypt_to_wan`: the wire frames of one datagram. -/
def sendUdp (ctx : PacketCryptoCtx) (e : SendStep) (s : L2State) : List (List UInt8) × L2State :=
  let s := l2CryptoUdpSetTxSeq e.seq s
  if l2CryptoNeedSplit .udp e.len then
    match l2CryptoSplitUdp e.env ctx e.packet e.len neJumboFrameMax e.aux neJumboFrameMax s with
    | (some r, s') => ([r.first.read 0 r.firstLen, r.second.read 0 r.secondLen], s')
    | (none, s') => ([], s')
  else
    match l2CryptoEncrypt e.env .udp ctx e.packet e.len s with
    | (some r, s') => ([r.1.read 0 r.2], s')
    | (none, s') => ([], s')

/-- The sending process: its epoch, its threads, and everything it has put on
the wire. -/
structure Sender where
  epoch : UInt32
  threads : Fin neCryptoWorkers → L2State
  wires : List (List UInt8)

def Sender.init : Sender :=
  ⟨0, fun w => l2CryptoBindWorker (UInt8.ofNat w) L2State.init, []⟩

/-- A thread with the process-wide epoch. -/
def Sender.view (p : Sender) (w : Fin neCryptoWorkers) : L2State :=
  { p.threads w with udpEpoch := p.epoch }

/-- A thread encrypts one datagram. -/
def Sender.step (ctx : PacketCryptoCtx) (p : Sender) (e : SendStep) : Sender :=
  let r := sendUdp ctx e (p.view e.worker)
  ⟨r.2.udpEpoch, Function.update p.threads e.worker r.2, p.wires ++ r.1⟩

def runSender (ctx : PacketCryptoCtx) (steps : List SendStep) : Sender :=
  steps.foldl (Sender.step ctx) Sender.init

/-! ## the receiver -/

/-- What happens at the receiver: a frame is handed to the worker its header
names, or a worker collects garbage. -/
inductive RecvEvent
  | deliver (env : Env) (packet : Mem) (len : Nat) (output : Mem)
  | gc (workerIdx : Nat) (now : UInt64)

/-- The receiver's tables, and the frames reassembly has returned. -/
structure Receiver where
  tables : FragTables
  emitted : List (List UInt8)

def Receiver.init : Receiver := ⟨fun _ => none, []⟩

def Receiver.step (ctx : PacketCryptoCtx) (r : Receiver) : RecvEvent → Receiver
  | .deliver env packet len output =>
      match dpCryptoPickWanWorker packet len with
      | none => r
      | some w =>
          match l2CryptoReassembleUdp env ctx r.tables w packet len output with
          | (tables, .done out n) => ⟨tables, r.emitted ++ [out.read 0 n]⟩
          | (tables, _) => ⟨tables, r.emitted⟩
  | .gc workerIdx now => ⟨l2CryptoFragGc r.tables workerIdx now, r.emitted⟩

def runReceiver (ctx : PacketCryptoCtx) (events : List RecvEvent) : Receiver :=
  events.foldl (Receiver.step ctx) Receiver.init

/-! ## what was sent -/

/-- A datagram as the sender knows it: thread, metadata, addresses, IP packet
and split point. -/
structure SentDatagram where
  worker : Nat
  dg : UdpMeta
  macs : List UInt8
  payload : List UInt8
  cut : Nat

/-- The part of the IP packet that goes into a frame of each kind. -/
def SentDatagram.part (d : SentDatagram) : L2UdpKind → List UInt8
  | .full => d.payload
  | .frag0 => d.payload.take d.cut
  | .frag1 => d.payload.drop d.cut

/-- The frame that was encrypted. -/
def SentDatagram.frame (d : SentDatagram) : List UInt8 := joined d.macs d.payload []

/-- `wire` is a frame of kind `kind` made of `d`. -/
def WireOf (g : Gcm) (key : Key) (d : SentDatagram) (kind : L2UdpKind) (wire : List UInt8) : Prop :=
  d.macs.length = 12 ∧ ∃ nonce c t,
    g.encrypt key nonce (l2UdpShim kind d.dg ++ d.part kind) = some (c, t) ∧
      wire = udpWire d.macs (UInt8.ofNat d.worker) nonce (c ++ t)

/-- The datagram a step sends from the thread state `s`. -/
def SendStep.datagram (e : SendStep) (s : L2State) : SentDatagram :=
  ⟨e.worker, (l2CryptoUdpSetTxSeq e.seq s).txMeta e.env, e.packet.read 0 12,
    e.packet.read 14 (e.len - 14), splitPoint e.len⟩

/-! ## one send -/

section Send

variable {ctx : PacketCryptoCtx} {e : SendStep} {s : L2State}

/-- Encrypting leaves the thread's worker id and datagram clock alone. -/
private theorem encoderRel_clock (env : Env) :
    EncoderRel (fun s t => t.workerIdx = s.workerIdx ∧
      t.udpTxDatagramClock = s.udpTxDatagramClock) env where
  refl _ := ⟨rfl, rfl⟩
  trans _ _ _ h1 h2 := ⟨h2.1.trans h1.1, h2.2.trans h1.2⟩
  draw _ := ⟨rfl, rfl⟩
  epoch := by
    intro s
    unfold l2CryptoEpoch
    by_cases h : s.udpEpoch ≠ 0
    · rw [if_pos h]; exact ⟨rfl, rfl⟩
    · rw [if_neg h]; exact ⟨rfl, rfl⟩
  record _ _ := ⟨rfl, rfl⟩

/-- Each datagram advances the clock by one, whether or not it could be sent. -/
theorem sendUdp_state (ctx : PacketCryptoCtx) (e : SendStep) (s : L2State) :
    (sendUdp ctx e s).2.workerIdx = s.workerIdx ∧
      (sendUdp ctx e s).2.udpTxDatagramClock = s.udpTxDatagramClock + 1 := by
  rw [sendUdp]
  by_cases hsplit : l2CryptoNeedSplit .udp e.len = true
  · rw [if_pos hsplit]
    have h := (encoderRel_clock e.env).split ctx e.packet e.len neJumboFrameMax e.aux neJumboFrameMax
      (l2CryptoUdpSetTxSeq e.seq s)
    rw [l2CryptoSplitUdp]
    generalize l2Split e.env ctx e.packet e.len neJumboFrameMax e.aux neJumboFrameMax
      (l2CryptoUdpSetTxSeq e.seq s) = r at h
    obtain ⟨r, t⟩ := r
    cases r with
    | none => exact h
    | some r => exact h
  · rw [if_neg hsplit]
    have h := (encoderRel_clock e.env).encrypt .udp ctx e.packet e.len (l2CryptoUdpSetTxSeq e.seq s)
    generalize l2CryptoEncrypt e.env .udp ctx e.packet e.len (l2CryptoUdpSetTxSeq e.seq s) = r at h
    obtain ⟨r, t⟩ := r
    cases r with
    | none => exact h
    | some r => exact h

/-- An IPv4 frame is its addresses, the IPv4 EtherType and the rest. -/
theorem read_eq_joined {packet : Mem} {len : Nat} (hip : cryptoPktIsIpv4 packet len = true) :
    packet.read 0 len = joined (packet.read 0 12) (packet.read 14 (len - 14)) [] := by
  obtain ⟨h34, het⟩ := cryptoPktIsIpv4_iff.mp hip
  have hlen : len = 12 + (2 + (len - 14)) := by omega
  have h2 := ethReadEt_eq_ethPIp_iff.mp het
  rw [joined, List.append_nil, List.append_assoc, ← h2, ← Mem.read_add]
  calc packet.read 0 len = packet.read 0 (12 + (2 + (len - 14))) := by rw [← hlen]
    _ = packet.read 0 12 ++ packet.read 12 (2 + (len - 14)) := Mem.read_add ..

theorem SendStep.frame_datagram (hip : cryptoPktIsIpv4 e.packet e.len = true) :
    (e.datagram s).frame = e.frame := (read_eq_joined hip).symm

/-- A frame sealed for the datagram of a step is a wire frame of that datagram. -/
private theorem wireOf_udpFrame {s1 s2 : L2State} {kind : L2UdpKind} {out : Mem} {len : Nat}
    (hw : s1.workerIdx = UInt8.ofNat e.worker)
    (h : UdpFrame e.env ctx s1 s2 (e.packet.read 0 12) kind (e.datagram s).dg
      ((e.datagram s).part kind) out len) :
    WireOf e.env.gcm ctx.key (e.datagram s) kind (out.read 0 len) := by
  obtain ⟨nonce, c, t, hs, -, hread⟩ := h
  refine ⟨Mem.length_read .., nonce, c, t, hs.cipher, ?_⟩
  rw [hread, hw]
  rfl

/-- Everything a send puts on the wire is a frame of its datagram. -/
theorem sendUdp_wires (hip : cryptoPktIsIpv4 e.packet e.len = true)
    (hw : s.workerIdx = UInt8.ofNat e.worker) {wire : List UInt8}
    (h : wire ∈ (sendUdp ctx e s).1) :
    ∃ kind, WireOf e.env.gcm ctx.key (e.datagram s) kind wire := by
  have hcut : splitPoint e.len ≤ e.len - 14 := by rw [splitPoint]; omega
  have htake : e.packet.read 14 (splitPoint e.len) = (e.datagram s).part .frag0 :=
    (Mem.take_read _ hcut).symm
  have hdrop : e.packet.read (14 + splitPoint e.len) (e.len - 14 - splitPoint e.len) =
      (e.datagram s).part .frag1 := (Mem.drop_read _ hcut).symm
  have hset : ((l2CryptoUdpSetTxSeq e.seq s).withEpoch e.env).workerIdx = UInt8.ofNat e.worker := hw
  rw [sendUdp] at h
  by_cases hsplit : l2CryptoNeedSplit .udp e.len = true
  · rw [if_pos hsplit, l2CryptoSplitUdp] at h
    cases hr : l2Split e.env ctx e.packet e.len neJumboFrameMax e.aux neJumboFrameMax
        (l2CryptoUdpSetTxSeq e.seq s) with
    | mk r s' =>
        cases r with
        | none => simp only [hr, List.not_mem_nil] at h
        | some r =>
            obtain ⟨-, -, s2, hsecond, hfirst⟩ := l2Split_eq_some hr
            have hw2 : s2.workerIdx = UInt8.ofNat e.worker := by
              obtain ⟨_, _, _, hs, -⟩ := hsecond
              rw [hs.state]; exact hw
            rw [htake] at hfirst
            rw [hdrop] at hsecond
            simp only [hr, List.mem_cons, List.not_mem_nil, or_false] at h
            rcases h with rfl | rfl
            · exact ⟨.frag0, wireOf_udpFrame hw2 hfirst⟩
            · exact ⟨.frag1, wireOf_udpFrame hset hsecond⟩
  · rw [if_neg hsplit] at h
    cases hr : l2CryptoEncrypt e.env .udp ctx e.packet e.len (l2CryptoUdpSetTxSeq e.seq s) with
    | mk r s' =>
        cases r with
        | none => simp only [hr, List.not_mem_nil] at h
        | some r =>
            simp only [hr, List.mem_cons, List.not_mem_nil, or_false] at h
            rw [l2CryptoEncrypt, if_pos rfl] at hr
            obtain ⟨-, -, hfull⟩ := l2UdpEncrypt_eq_some hip hr
            rw [h]
            exact ⟨.full, wireOf_udpFrame hset hfull⟩

end Send

/-! ## the sender's run -/

/-- How many datagrams worker `w` has handled. -/
def sendCount (w : Fin neCryptoWorkers) (steps : List SendStep) : Nat :=
  (steps.filter fun e => e.worker = w).length

/-- What the sender has done so far: every thread knows its id and how many
datagrams it has handled, every frame on the wire is of one of `sent`, and a
thread's datagrams are told apart by their ids. -/
structure SenderInv (g : Gcm) (ctx : PacketCryptoCtx) (steps : List SendStep)
    (sent : List SentDatagram) (p : Sender) : Prop where
  worker : ∀ w, (p.threads w).workerIdx = UInt8.ofNat w
  clock : ∀ w, (p.threads w).udpTxDatagramClock = UInt32.ofNat (sendCount w steps)
  wires : ∀ wire ∈ p.wires, ∃ d ∈ sent, ∃ kind, WireOf g ctx.key d kind wire
  frames : ∀ d ∈ sent, d.frame ∈ steps.map SendStep.frame
  ids : ∀ d ∈ sent, ∃ w : Fin neCryptoWorkers, d.worker = w ∧
    ∃ j < sendCount w steps, d.dg.datagramId = UInt32.ofNat j
  unique : ∀ d ∈ sent, ∀ d' ∈ sent, d.worker = d'.worker →
    d.dg.datagramId = d'.dg.datagramId → d = d'

theorem senderInv_init (g : Gcm) (ctx : PacketCryptoCtx) : SenderInv g ctx [] [] Sender.init where
  worker _ := rfl
  clock _ := rfl
  wires _ h := by cases h
  frames _ h := by cases h
  ids _ h := by cases h
  unique _ h := by cases h

theorem sendCount_append (w : Fin neCryptoWorkers) (steps : List SendStep) (e : SendStep) :
    sendCount w (steps ++ [e]) = sendCount w steps + if e.worker = w then 1 else 0 := by
  rw [sendCount, List.filter_append, List.length_append, sendCount]
  by_cases h : e.worker = w
  · simp [h]
  · simp [h]

/-- Two clock values below the wrap are different ids. -/
private theorem clock_inj {i j : Nat} (hi : i < 2 ^ 32) (hj : j < 2 ^ 32)
    (h : UInt32.ofNat i = UInt32.ofNat j) : i = j := by
  have h' := congrArg UInt32.toNat h
  rw [UInt32.toNat_ofNat', UInt32.toNat_ofNat'] at h'
  omega

/-- One more datagram keeps the invariant. -/
theorem senderInv_step {g : Gcm} {ctx : PacketCryptoCtx} {steps : List SendStep}
    {sent : List SentDatagram} {p : Sender} (h : SenderInv g ctx steps sent p) {e : SendStep}
    (hg : e.env.gcm = g) (hip : cryptoPktIsIpv4 e.packet e.len = true)
    (hcount : sendCount e.worker (steps ++ [e]) < 2 ^ 32) :
    ∃ sent', SenderInv g ctx (steps ++ [e]) sent' (p.step ctx e) := by
  generalize hs : p.view e.worker = s
  have hstep : p.step ctx e = ⟨(sendUdp ctx e s).2.udpEpoch,
      Function.update p.threads e.worker (sendUdp ctx e s).2, p.wires ++ (sendUdp ctx e s).1⟩ := by
    rw [Sender.step, hs]
  have hw : s.workerIdx = UInt8.ofNat e.worker := by
    rw [← hs]; exact h.worker e.worker
  have hclock : s.udpTxDatagramClock = UInt32.ofNat (sendCount e.worker steps) := by
    rw [← hs]; exact h.clock e.worker
  obtain ⟨hstw, hstc⟩ := sendUdp_state ctx e s
  have hid : (e.datagram s).dg.datagramId = UInt32.ofNat (sendCount e.worker steps) := hclock
  rw [sendCount_append, if_pos rfl] at hcount
  -- an older datagram of this thread has a smaller id
  have hfresh : ∀ d ∈ sent, d.worker = e.worker →
      d.dg.datagramId ≠ UInt32.ofNat (sendCount e.worker steps) := by
    intro d hd hdw heq
    obtain ⟨w, hw', j, hj, hdj⟩ := h.ids d hd
    have hwe : w = e.worker := Fin.ext (hw'.symm.trans hdw)
    subst hwe
    rw [hdj] at heq
    have := clock_inj (by omega) (by omega) heq
    omega
  rw [hstep]
  refine ⟨sent ++ [e.datagram s], ?_, ?_, ?_, ?_, ?_, ?_⟩
  · intro w
    dsimp only
    by_cases hwe : w = e.worker
    · subst hwe; rw [Function.update_self]; exact hstw.trans hw
    · rw [Function.update_of_ne hwe]; exact h.worker w
  · intro w
    dsimp only
    rw [sendCount_append]
    by_cases hwe : w = e.worker
    · subst hwe
      rw [Function.update_self, if_pos rfl, UInt32.ofNat_add]
      exact hstc.trans (by rw [hclock]; rfl)
    · rw [Function.update_of_ne hwe, if_neg (fun he => hwe he.symm)]
      exact h.clock w
  · intro wire hwire
    rw [List.mem_append] at hwire
    rcases hwire with hold | hnew
    · obtain ⟨d, hd, hk⟩ := h.wires wire hold
      exact ⟨d, List.mem_append_left _ hd, hk⟩
    · obtain ⟨kind, hk⟩ := sendUdp_wires hip hw hnew
      rw [hg] at hk
      exact ⟨e.datagram s, List.mem_append_right _ (List.mem_singleton_self _), kind, hk⟩
  · intro d hd
    rw [List.map_append, List.mem_append]
    rcases List.mem_append.mp hd with hold | hnew
    · exact .inl (h.frames d hold)
    · rw [List.mem_singleton.mp hnew, SendStep.frame_datagram hip]
      exact .inr (List.mem_singleton_self _)
  · intro d hd
    rcases List.mem_append.mp hd with hold | hnew
    · obtain ⟨w, hw', j, hj, hdj⟩ := h.ids d hold
      refine ⟨w, hw', j, ?_, hdj⟩
      rw [sendCount_append]; omega
    · rw [List.mem_singleton.mp hnew]
      refine ⟨e.worker, rfl, sendCount e.worker steps, ?_, hid⟩
      rw [sendCount_append, if_pos rfl]; omega
  · intro d hd d' hd' hdw hdid
    rcases List.mem_append.mp hd with hold | hnew
    · rcases List.mem_append.mp hd' with hold' | hnew'
      · exact h.unique d hold d' hold' hdw hdid
      · rw [List.mem_singleton.mp hnew'] at hdw hdid
        exact absurd (hdid.trans hid) (hfresh d hold hdw)
    · rcases List.mem_append.mp hd' with hold' | hnew'
      · rw [List.mem_singleton.mp hnew] at hdw hdid
        exact absurd (hdid.symm.trans hid) (hfresh d' hold' hdw.symm)
      · rw [List.mem_singleton.mp hnew, List.mem_singleton.mp hnew']

/-- The invariant holds after every run in which no thread's clock wraps. -/
theorem senderInv_run {g : Gcm} {ctx : PacketCryptoCtx} (steps : List SendStep)
    (hg : ∀ e ∈ steps, e.env.gcm = g) (hip : ∀ e ∈ steps, cryptoPktIsIpv4 e.packet e.len = true)
    (hcount : ∀ w, sendCount w steps < 2 ^ 32) :
    ∃ sent, SenderInv g ctx steps sent (runSender ctx steps) := by
  induction steps using List.reverseRecOn with
  | nil => exact ⟨[], senderInv_init g ctx⟩
  | append_singleton steps e ih =>
      have hlt : ∀ w, sendCount w steps < 2 ^ 32 := by
        intro w
        have := hcount w
        rw [sendCount_append] at this
        omega
      obtain ⟨sent, hinv⟩ := ih (fun e' h' => hg e' (List.mem_append_left _ h'))
        (fun e' h' => hip e' (List.mem_append_left _ h')) hlt
      have he : e ∈ steps ++ [e] := List.mem_append_right _ (List.mem_singleton_self _)
      have hstep := senderInv_step hinv (hg e he) (hip e he) (hcount e.worker)
      rw [runSender, List.foldl_append]
      exact hstep

/-! ## the receiver's run -/

section Receive

variable {g : Gcm} {ctx : PacketCryptoCtx} {sent : List SentDatagram}

/-- A first half that belongs to a sent datagram. -/
def SentFirst (sent : List SentDatagram) (w : Nat) (dg : UdpMeta) (macs p : List UInt8) : Prop :=
  ∃ d ∈ sent, d.worker = w ∧ d.dg = dg ∧ macs = d.macs ∧ p = d.part .frag0

/-- A second half that belongs to a sent datagram. -/
def SentSecond (sent : List SentDatagram) (w : Nat) (dg : UdpMeta) (q : List UInt8) : Prop :=
  ∃ d ∈ sent, d.worker = w ∧ d.dg = dg ∧ q = d.part .frag1

/-- A whole datagram that was sent. -/
def SentWhole (sent : List SentDatagram) (macs payload : List UInt8) : Prop :=
  ∃ d ∈ sent, macs = d.macs ∧ payload = d.part .full

/-- The tables hold sent halves, and everything emitted was sent. -/
structure ReceiverInv (sent : List SentDatagram) (r : Receiver) : Prop where
  tables : TablesFrom (SentFirst sent) (SentSecond sent) r.tables
  emitted : ∀ out ∈ r.emitted, ∃ d ∈ sent, out = d.frame

theorem receiverInv_init : ReceiverInv sent Receiver.init where
  tables := tablesFrom_none
  emitted _ h := by cases h

/-- What the cipher accepts of an unmodified frame is what was encrypted. -/
theorem opens_wireOf (hlaw : g.Lawful) {env : Env} (henv : env.gcm = g) {packet : Mem} {len : Nat}
    {d : SentDatagram} {kind : L2UdpKind} {plain : List UInt8}
    (hwire : WireOf g ctx.key d kind (packet.read 0 len))
    (ho : Opens env ctx packet 31 len plain) :
    plain = l2UdpShim kind d.dg ++ d.part kind ∧ packet.read 0 12 = d.macs := by
  obtain ⟨hmacs, nonce, c, t, henc, hread⟩ := hwire
  obtain ⟨-, ht⟩ := g.length_encrypt henc
  obtain ⟨-, hm, -, -, hnonce, -, hc, htag⟩ := read_udpWire hmacs ht hread
  have hdec := ho.2.2.2
  rw [henv, hnonce, hc, htag, hlaw henc, Option.some.injEq] at hdec
  exact ⟨hdec.symm, hm⟩

/-- A join of two sent halves of one worker and one key is the datagram itself. -/
theorem joined_sent
    (hunique : ∀ d ∈ sent, ∀ d' ∈ sent, d.worker = d'.worker →
      d.dg.datagramId = d'.dg.datagramId → d = d') {w : Nat} {dg : UdpMeta}
    {macs p q : List UInt8} (hp : SentFirst sent w dg macs p) (hq : SentSecond sent w dg q) :
    ∃ d ∈ sent, joined macs p q = d.frame := by
  obtain ⟨d, hd, hdw, hdg, rfl, rfl⟩ := hp
  obtain ⟨d', hd', hdw', hdg', rfl⟩ := hq
  have heq : d = d' := hunique d hd d' hd' (hdw.trans hdw'.symm) (by rw [hdg, hdg'])
  subst heq
  refine ⟨d, hd, ?_⟩
  rw [joined, SentDatagram.part, SentDatagram.part, List.take_append_drop, SentDatagram.frame, joined,
    List.append_nil]

/-- One event keeps the invariant, if what it delivers was sent. -/
theorem receiverInv_step (hlaw : g.Lawful)
    (hworker : ∀ d ∈ sent, d.worker < neCryptoWorkers)
    (hunique : ∀ d ∈ sent, ∀ d' ∈ sent, d.worker = d'.worker →
      d.dg.datagramId = d'.dg.datagramId → d = d')
    {r : Receiver} (h : ReceiverInv sent r) {ev : RecvEvent}
    (hev : ∀ env packet len output, ev = .deliver env packet len output → env.gcm = g ∧
      ∃ d ∈ sent, ∃ kind, WireOf g ctx.key d kind (packet.read 0 len)) :
    ReceiverInv sent (r.step ctx ev) := by
  cases ev with
  | gc workerIdx now => exact ⟨tablesFrom_gc h.tables workerIdx now, h.emitted⟩
  | deliver env packet len output =>
      obtain ⟨henv, d, hd, kind, hwire⟩ := hev env packet len output rfl
      have hpick : dpCryptoPickWanWorker packet len = some d.worker := by
        obtain ⟨hmacs, nonce, c, t, henc, hread⟩ := hwire
        obtain ⟨hlen, -, het, hid, -⟩ := read_udpWire hmacs (g.length_encrypt henc).2 hread
        exact dpCryptoPickWanWorker_eq (.inr het) (by omega) (hworker d hd) hid
      have hidx : optTableIdx d.worker = d.worker := by
        rw [optTableIdx, if_neg (Nat.not_le.mpr (hworker d hd))]
      have harrive : ∀ kind' dg payload, KnownEt packet → packet.read 27 4 = l2UdpMarker →
          Opens env ctx packet 31 len (l2UdpShim kind' dg ++ payload) →
          match kind' with
          | .full => SentWhole sent (packet.read 0 12) payload
          | .frag0 => SentFirst sent (optTableIdx d.worker) dg (packet.read 0 12) payload
          | .frag1 => SentSecond sent (optTableIdx d.worker) dg payload := by
        intro kind' dg payload _ _ ho
        obtain ⟨hplain, hm⟩ := opens_wireOf hlaw henv hwire ho
        obtain ⟨rfl, rfl, rfl⟩ := l2UdpShim_append_inj hplain
        rw [hidx, hm]
        cases kind' with
        | full => exact ⟨d, hd, rfl, rfl⟩
        | frag0 => exact ⟨d, hd, rfl, rfl, rfl, rfl⟩
        | frag1 => exact ⟨d, hd, rfl, rfl, rfl⟩
      obtain ⟨htables, hdone⟩ := l2CryptoReassembleUdp_from output h.tables harrive
      rw [Receiver.step, hpick]
      dsimp only
      cases hr : l2CryptoReassembleUdp env ctx r.tables d.worker packet len output with
      | mk tables res =>
          rw [hr] at htables hdone
          cases res with
          | fail => exact ⟨htables, h.emitted⟩
          | wait => exact ⟨htables, h.emitted⟩
          | done out n =>
              refine ⟨htables, fun o ho => ?_⟩
              rcases List.mem_append.mp ho with hold | hnew
              · exact h.emitted o hold
              · rw [List.mem_singleton.mp hnew]
                rcases hdone out n rfl with ⟨macs, payload, ⟨d', hd', rfl, rfl⟩, hout⟩ |
                  ⟨dg, macs, p, q, hp, hq, hout⟩
                · exact ⟨d', hd', hout⟩
                · obtain ⟨d', hd', hjoin⟩ := joined_sent hunique hp hq
                  exact ⟨d', hd', hout.trans hjoin⟩

/-- The invariant holds after every sequence of events. -/
theorem receiverInv_run (hlaw : g.Lawful)
    (hworker : ∀ d ∈ sent, d.worker < neCryptoWorkers)
    (hunique : ∀ d ∈ sent, ∀ d' ∈ sent, d.worker = d'.worker →
      d.dg.datagramId = d'.dg.datagramId → d = d') (events : List RecvEvent)
    (hev : ∀ env packet len output, .deliver env packet len output ∈ events → env.gcm = g ∧
      ∃ d ∈ sent, ∃ kind, WireOf g ctx.key d kind (packet.read 0 len)) :
    ReceiverInv sent (runReceiver ctx events) := by
  induction events using List.reverseRecOn with
  | nil => exact receiverInv_init
  | append_singleton events ev ih =>
      have hinv := ih fun env packet len output h' =>
        hev env packet len output (List.mem_append_left _ h')
      have hstep : ReceiverInv sent ((runReceiver ctx events).step ctx ev) := receiverInv_step hlaw hworker hunique hinv
        fun env packet len output h' =>
          hev env packet len output (List.mem_append_right _ (by rw [h']; simp))
      rw [runReceiver, List.foldl_append]
      exact hstep

/-- Whatever is delivered, in whatever order and however often, every frame
reassembly returns is one of the frames the sender encrypted. -/
theorem reassembled_mem_frames (hlaw : g.Lawful) (ctx : PacketCryptoCtx) (steps : List SendStep)
    (hg : ∀ e ∈ steps, e.env.gcm = g) (hip : ∀ e ∈ steps, cryptoPktIsIpv4 e.packet e.len = true)
    (hcount : ∀ w, sendCount w steps < 2 ^ 32) (events : List RecvEvent)
    (hdeliver : ∀ env packet len output, .deliver env packet len output ∈ events → env.gcm = g ∧
      packet.read 0 len ∈ (runSender ctx steps).wires) :
    ∀ out ∈ (runReceiver ctx events).emitted, out ∈ steps.map SendStep.frame := by
  intro out hout
  obtain ⟨sent, hs⟩ := @senderInv_run g ctx steps hg hip hcount
  have hworker : ∀ d ∈ sent, d.worker < neCryptoWorkers := by
    intro d hd
    obtain ⟨w, hw, -⟩ := hs.ids d hd
    rw [hw]; exact w.isLt
  have hr := @receiverInv_run g ctx sent hlaw hworker hs.unique events
    fun env packet len output h =>
      ⟨(hdeliver env packet len output h).1, hs.wires _ (hdeliver env packet len output h).2⟩
  obtain ⟨d, hd, rfl⟩ := hr.emitted out hout
  exact hs.frames d hd

/-- A 46-byte UDP datagram behind its Ethernet header. -/
def sampleUdp : List UInt8 :=
  [0x02, 0, 0, 0, 0, 0x02, 0x02, 0, 0, 0, 0, 0x01, 0x08, 0x00,
    0x45, 0, 0, 32, 0, 1, 0, 0, 64, 17, 0, 0, 10, 0, 0, 1, 10, 0, 0, 2,
    0x10, 0x00, 0x00, 0x35, 0, 12, 0, 0, 1, 2, 3, 4]

/-- Worker 2 sends the datagram. -/
def sampleSend : SendStep := ⟨2, sampleEnv 2, 7, Mem.ofList sampleUdp, 46, fun _ => 0⟩

/-- Every frame it made is delivered twice. -/
def sampleDeliveries : List RecvEvent :=
  ((runSender (packetCryptoInit coreKey) [sampleSend, sampleSend]).wires.flatMap fun wire =>
    List.replicate 2 (.deliver (sampleEnv 0) (Mem.ofList wire) wire.length fun _ => 0))

theorem reassembled_mem_frames_sample :
    (runReceiver (packetCryptoInit coreKey) sampleDeliveries).emitted.length = 4 ∧
      ∀ out ∈ (runReceiver (packetCryptoInit coreKey) sampleDeliveries).emitted,
        out ∈ [sampleSend, sampleSend].map SendStep.frame :=
  ⟨by decide +kernel, reassembled_mem_frames sampleGcm_lawful (packetCryptoInit coreKey)
    [sampleSend, sampleSend]
    (by simp [sampleSend, sampleEnv]) (by decide) (by decide) sampleDeliveries
    (by
      intro env packet len output h
      simp only [sampleDeliveries, List.mem_flatMap] at h
      obtain ⟨wire, hwire, h⟩ := h
      have heq := List.eq_of_mem_replicate h
      simp only [RecvEvent.deliver.injEq] at heq
      obtain ⟨rfl, rfl, rfl, -⟩ := heq
      exact ⟨rfl, by rw [Mem.read_ofList _ rfl]; exact hwire⟩)⟩

end Receive

end NetworkEncryptor
