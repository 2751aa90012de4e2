import NetworkEncryptor.L2Crypto
import Mathlib.Logic.Function.Basic

/-!
# NetworkEncryptor.Reassembly

`src/crypto/pqc/pqc_l2_option.c`, the stateful half: the table in which a
receiver worker keeps the first half of a split datagram until the other one
arrives.

An entry is found by an eight-way probe over `(epoch, datagram_id)`; expired
entries met on the way are cleared, and when all eight are live the oldest
makes room.  Clearing resets the metadata only: the payload bytes of an
earlier datagram stay in the buffers (`OptEntry.first`, `OptEntry.second`),
and it is the lengths and flags that keep them from being read.
-/

namespace NetworkEncryptor

/-! ## the table -/

/-- `struct opt_entry`. -/
structure OptEntry where
  epoch : UInt32
  datagramId : UInt32
  udpSeq : UInt32
  firstLen : Nat
  secondLen : Nat
  timestampNs : UInt64
  ethHdr : Mem
  ethLen : Nat
  gotFirst : Bool
  gotSecond : Bool
  first : Mem
  second : Mem

/-- An entry as `calloc` leaves it. -/
def OptEntry.zero : OptEntry :=
  ⟨0, 0, 0, 0, 0, 0, fun _ => 0, 0, false, false, fun _ => 0, fun _ => 0⟩

/-- `struct opt_table`; the entries from `L2_FRAG_TABLE_SIZE` on do not exist. -/
structure OptTable where
  gcCursor : Nat
  entries : Nat → OptEntry

def OptTable.empty : OptTable := ⟨0, fun _ => OptEntry.zero⟩

def OptTable.set (ft : OptTable) (idx : Nat) (e : OptEntry) : OptTable :=
  { ft with entries := Function.update ft.entries idx e }

@[simp] theorem OptTable.set_entries_self (ft : OptTable) (idx : Nat) (e : OptEntry) :
    (ft.set idx e).entries idx = e := Function.update_self ..

theorem OptTable.set_entries_of_ne (ft : OptTable) {idx i : Nat} (e : OptEntry) (h : i ≠ idx) :
    (ft.set idx e).entries i = ft.entries i := Function.update_of_ne h ..

/-- `got_first || got_second`. -/
def OptEntry.occupied (e : OptEntry) : Bool := e.gotFirst || e.gotSecond

/-- Older than the timeout, in unsigned 64-bit time. -/
def OptEntry.expired (e : OptEntry) (now : UInt64) : Bool :=
  decide (now - e.timestampNs > l2FragTimeoutNs)

/-- Payload bytes are overwritten before their lengths become visible, so only
the metadata is cleared. -/
def optClearEntry (e : OptEntry) : OptEntry :=
  { e with epoch := 0, datagramId := 0, udpSeq := 0, firstLen := 0, secondLen := 0,
           timestampNs := 0, ethLen := 0, gotFirst := false, gotSecond := false }

def optPrepareEntry (e : OptEntry) (dg : UdpMeta) (now : UInt64) : OptEntry :=
  let e :=
    if e.epoch ≠ dg.epoch ∨ e.datagramId ≠ dg.datagramId ∨ e.udpSeq ≠ dg.seq ∨
        (e.occupied = true ∧ e.expired now = true) then
      optClearEntry e
    else e
  { e with epoch := dg.epoch, datagramId := dg.datagramId, udpSeq := dg.seq, timestampNs := now }

/-- The first slot of the probe. -/
def optBase (epoch datagramId : UInt32) : Nat :=
  (datagramId ^^^ (epoch * 0x9e3779b9)).toNat % l2FragTableSize

/-- The probe loop with `k` slots left of the eight, from slot `i` on: the
table without the expired entries met, and the slot chosen. -/
def optProbe (epoch datagramId : UInt32) (now : UInt64) (base : Nat) :
    (k i : Nat) → OptTable → (emptyIdx oldestIdx : Option Nat) → (oldestAge : UInt64) →
    OptTable × Nat
  | 0, _, ft, emptyIdx, oldestIdx, _ =>
      (ft, match emptyIdx with
        | some idx => idx
        | none => oldestIdx.getD base)
  | k + 1, i, ft, emptyIdx, oldestIdx, oldestAge =>
      let idx := (base + i) % l2FragTableSize
      let e := ft.entries idx
      if e.occupied = true ∧ e.expired now = false then
        if e.epoch = epoch ∧ e.datagramId = datagramId then (ft, idx)
        else
          let age := now - e.timestampNs
          if oldestIdx = none ∨ age > oldestAge then
            optProbe epoch datagramId now base k (i + 1) ft emptyIdx (some idx) age
          else optProbe epoch datagramId now base k (i + 1) ft emptyIdx oldestIdx oldestAge
      else
        let ft := if e.occupied = true then ft.set idx (optClearEntry e) else ft
        optProbe epoch datagramId now base k (i + 1) ft (emptyIdx <|> some idx) oldestIdx oldestAge

def optPickSlot (ft : OptTable) (epoch datagramId : UInt32) (now : UInt64) : OptTable × Nat :=
  optProbe epoch datagramId now (optBase epoch datagramId) 8 0 ft none none 0

/-- Keep the first half: the Ethernet header `eth` and `dataLen` bytes of `data`
at `off`. -/
def optStoreFirst (e : OptEntry) (dg : UdpMeta) (eth : Mem) (ethLen : Nat) (data : Mem)
    (off dataLen : Nat) (now : UInt64) : Option OptEntry :=
  if dataLen > neJumboFrameMax then none
  else if ethLen = 0 ∨ ethLen > ethL2HdrMax then none
  else
    let e := optPrepareEntry e dg now
    some { e with firstLen := dataLen, first := e.first.write 0 (data.read off dataLen),
                  ethHdr := e.ethHdr.write 0 (eth.read 0 ethLen), ethLen := ethLen,
                  gotFirst := true }

def optStoreSecond (e : OptEntry) (dg : UdpMeta) (data : Mem) (off dataLen : Nat) (now : UInt64) :
    Option OptEntry :=
  if dataLen > neJumboFrameMax then none
  else
    let e := optPrepareEntry e dg now
    some { e with secondLen := dataLen, second := e.second.write 0 (data.read off dataLen),
                  gotSecond := true }

/-- The `-1`, `0` or `1` of a reassembly step; a finished frame is in the
output buffer. -/
inductive ReasmResult
  | fail
  | wait
  | done (out : Mem) (len : Nat)

/-- Join the halves once both are there. -/
def optEmitJoin (e : OptEntry) (outBuf : Mem) : OptEntry × ReasmResult :=
  if !e.gotFirst || !e.gotSecond then (e, .wait)
  else
    let ethLen := if e.ethLen ≠ 0 then e.ethLen else ethHeaderSize
    if e.firstLen + e.secondLen + ethLen > neJumboFrameMax then (optClearEntry e, .fail)
    else
      let out := outBuf.write 0 (e.ethHdr.read 0 ethLen)
      let out := out.write ethLen (e.first.read 0 e.firstLen)
      let out := out.write (ethLen + e.firstLen) (e.second.read 0 e.secondLen)
      let out := if ethLen ≥ 2 then cryptoEthSetIpv4Et out (ethLen - 2) else out
      (optClearEntry e, .done out (ethLen + e.firstLen + e.secondLen))

/-- One sweep over `n` entries from `start` on. -/
def optGcSweep (now : UInt64) (start : Nat) : Nat → OptTable → OptTable
  | 0, ft => ft
  | n + 1, ft =>
      let ft := optGcSweep now start n ft
      let i := (start + n) % l2FragTableSize
      let e := ft.entries i
      if e.occupied = true ∧ e.expired now = true then ft.set i (optClearEntry e) else ft

def optFragGcTable (ft : OptTable) (now : UInt64) : OptTable :=
  let start := ft.gcCursor
  { optGcSweep now start 256 ft with gcCursor := (start + 256) % l2FragTableSize }

/-! ## reassembly -/

/-- The first half of a datagram, or the only thing there is to do with it. -/
def l2ReassembleFirst (ft : OptTable) (idx : Nat) (pktData : Mem) (wireEth innerLen : Nat)
    (dg : UdpMeta) (now : UInt64) (outBuf : Mem) : OptTable × ReasmResult :=
  let ipHdrLen := (pktData wireEth).toNat % 16 * 4
  if innerLen < 20 ∨ (pktData wireEth).toNat / 16 ≠ 4 then (ft, .fail)
  else if ipHdrLen < 20 ∨ innerLen < ipHdrLen then (ft, .fail)
  else
    match optStoreFirst (ft.entries idx) dg pktData wireEth pktData wireEth innerLen now with
    | none => (ft, .fail)
    | some e =>
        let r := optEmitJoin e outBuf
        (ft.set idx r.1, r.2)

def l2ReassembleSecond (ft : OptTable) (idx : Nat) (pktData : Mem) (wireEth innerLen : Nat)
    (dg : UdpMeta) (now : UInt64) (outBuf : Mem) : OptTable × ReasmResult :=
  let e := ft.entries idx
  let e := if e.occupied = true ∧ e.epoch = dg.epoch ∧ e.datagramId = dg.datagramId ∧
      e.expired now = true then optClearEntry e else e
  match optStoreSecond e dg pktData wireEth innerLen now with
  | none => (ft.set idx e, .fail)
  | some e =>
      let r := optEmitJoin e outBuf
      (ft.set idx r.1, r.2)

def l2Reassemble (ft : OptTable) (pktData : Mem) (pktLen : Nat) (dg : UdpMeta) (kind : L2UdpKind)
    (now : UInt64) (outBuf : Mem) : OptTable × ReasmResult :=
  match l2WirePrefixLen pktData pktLen with
  | none => (ft, .fail)
  | some wireEth =>
      if wireEth > ethL2HdrMax ∨ pktLen < wireEth then (ft, .fail)
      else
        let innerLen := pktLen - wireEth
        let r := optPickSlot ft dg.epoch dg.datagramId now
        match kind with
        | .frag0 => l2ReassembleFirst r.1 r.2 pktData wireEth innerLen dg now outBuf
        | .frag1 => l2ReassembleSecond r.1 r.2 pktData wireEth innerLen dg now outBuf
        | .full => (r.1, .fail)

/-- `g_tables`: one table per receiver worker, allocated on first use. -/
abbrev FragTables := Nat → Option OptTable

/-- `opt_table(worker_idx, 1)`. -/
def optTable (env : Env) (tables : FragTables) (workerIdx : Nat) : Option OptTable :=
  match tables workerIdx with
  | some t => some t
  | none => if env.callocOk then some OptTable.empty else none

/-- A worker index out of range selects table 0. -/
def optTableIdx (workerIdx : Nat) : Nat := if workerIdx ≥ neCryptoWorkers then 0 else workerIdx

/-- `l2_crypto_reassemble_udp`: decrypt a UDP wire frame, and hand a fragment
to the table of the worker. -/
def l2CryptoReassembleUdp (env : Env) (ctx : PacketCryptoCtx) (tables : FragTables)
    (workerIdx : Nat) (packet : Mem) (packetLen : Nat) (output : Mem) : FragTables × ReasmResult :=
  match l2DoDecryptUdp env ctx packet packetLen with
  | none => (tables, .fail)
  | some r =>
      if r.kind = .full then
        if cryptoPktIsIpv4 r.packet r.len then
          (tables, .done (output.write 0 (r.packet.read 0 r.len)) r.len)
        else (tables, .fail)
      else
        match optTable env tables (optTableIdx workerIdx) with
        | none => (tables, .fail)
        | some ft =>
            let q := l2Reassemble ft r.packet r.len r.dg r.kind env.now output
            (Function.update tables (optTableIdx workerIdx) (some q.1), q.2)

/-- `l2_crypto_frag_gc`. -/
def l2CryptoFragGc (tables : FragTables) (workerIdx : Nat) (now : UInt64) : FragTables :=
  match tables (optTableIdx workerIdx) with
  | none => tables
  | some ft => Function.update tables (optTableIdx workerIdx) (some (optFragGcTable ft now))

end NetworkEncryptor
