import NetworkEncryptor.AccessCrypto
import NetworkEncryptor.Fragments

/-!
# NetworkEncryptor.AccessReasm

The stateful half of `src/crypto/pqc/pqc_l2_option.c`, access by access: storing
the halves of a datagram and joining them.

The three arrays of an entry are buffers of their own; its other fields are read and
set like any variable.  A join reads as much of an array as the length field of the
entry says, so it stays within what was stored only as long as these fields are
right.  `TablesFit` says that they are, and `ReachableTables.fit` that they stay so.
-/

namespace NetworkEncryptor

/-! ## the code -/

/-- Store a table. -/
def Job.setTable (j : Job) (t : Nat) (ft : OptTable) : Job :=
  { j with fwd := { j.fwd with tables := Function.update j.fwd.tables t (some ft) } }

/-- An entry without its arrays. -/
def OptEntry.fields (e : OptEntry) : OptEntry :=
  { e with ethHdr := fun _ => 0, first := fun _ => 0, second := fun _ => 0 }

@[simp] theorem fields_flags (e : OptEntry) : e.fields.gotFirst = e.gotFirst ∧
    e.fields.gotSecond = e.gotSecond := ⟨rfl, rfl⟩

@[simp] theorem fields_lengths (e : OptEntry) : e.fields.ethLen = e.ethLen ∧
    e.fields.firstLen = e.firstLen ∧ e.fields.secondLen = e.secondLen := ⟨rfl, rfl, rfl⟩

/-- The `-1`, `0` or `1` of a reassembly step; the frame is in `crypto_aux`. -/
inductive Reasm
  | fail
  | wait
  | done (len : Nat)

def ReasmResult.code : ReasmResult → Reasm
  | .fail => .fail
  | .wait => .wait
  | .done _ len => .done len

namespace Code

open Prog

/-- Set fields of an entry. -/
def updateEntry (t i : Nat) (f : OptEntry → OptEntry) : Prog Buf Job Unit :=
  step fun j => ((), j.setEntry t i (f (j.entry t i)))

def optStoreFirst (t i : Nat) (dg : UdpMeta) (pktLen ethLen off dataLen : Nat) (now : UInt64) :
    Prog Buf Job Bool := do
  if dataLen > neJumboFrameMax then return false
  if ethLen = 0 ∨ ethLen > ethL2HdrMax then return false
  updateEntry t i fun e => { optPrepareEntry e dg now with firstLen := dataLen }
  let data ← bytes .cryptoBuf pktLen off dataLen
  store (.first t i) 0 data
  let eth ← bytes .cryptoBuf pktLen 0 ethLen
  store (.ethHdr t i) 0 eth
  updateEntry t i fun e => { e with ethLen := ethLen, gotFirst := true }
  return true

def optStoreSecond (t i : Nat) (dg : UdpMeta) (pktLen off dataLen : Nat) (now : UInt64) :
    Prog Buf Job Bool := do
  if dataLen > neJumboFrameMax then return false
  updateEntry t i fun e => { optPrepareEntry e dg now with secondLen := dataLen }
  let data ← bytes .cryptoBuf pktLen off dataLen
  store (.second t i) 0 data
  updateEntry t i fun e => { e with gotSecond := true }
  return true

/-- The copies of `opt_emit_join`.  The content of an array is as long as the field of
the entry says. -/
def optCopyHalves (t i ethLen : Nat) (e : OptEntry) : Prog Buf Job Unit := do
  let eth ← bytes (.ethHdr t i) e.ethLen 0 ethLen
  store .cryptoAux 0 eth
  let first ← bytes (.first t i) e.firstLen 0 e.firstLen
  store .cryptoAux ethLen first
  if e.secondLen > 0 then
    let second ← bytes (.second t i) e.secondLen 0 e.secondLen
    store .cryptoAux (ethLen + e.firstLen) second

def optEmitJoin (t i : Nat) : Prog Buf Job Reasm := do
  let e ← step fun j => ((j.entry t i).fields, j)
  if !e.gotFirst || !e.gotSecond then return .wait
  let ethLen := if e.ethLen ≠ 0 then e.ethLen else ethHeaderSize
  if e.firstLen + e.secondLen + ethLen > neJumboFrameMax then
    updateEntry t i optClearEntry
    return .fail
  optCopyHalves t i ethLen e
  if ethLen ≥ 2 then cryptoEthSetIpv4Et .cryptoAux (ethLen - 2)
  updateEntry t i optClearEntry
  return .done (ethLen + e.firstLen + e.secondLen)

def l2ReassembleFirst (t i pktLen wireEth innerLen : Nat) (dg : UdpMeta) (now : UInt64) :
    Prog Buf Job Reasm := do
  if innerLen < 20 then return .fail
  let verIhl ← byte .cryptoBuf pktLen wireEth
  if verIhl.toNat / 16 ≠ 4 then return .fail
  let ipHdrLen := verIhl.toNat % 16 * 4
  if ipHdrLen < 20 ∨ innerLen < ipHdrLen then return .fail
  let stored ← optStoreFirst t i dg pktLen wireEth wireEth innerLen now
  if !stored then return .fail
  optEmitJoin t i

def l2ReassembleSecond (t i pktLen wireEth innerLen : Nat) (dg : UdpMeta) (now : UInt64) :
    Prog Buf Job Reasm := do
  updateEntry t i fun e => if e.occupied = true ∧ e.epoch = dg.epoch ∧ e.datagramId = dg.datagramId ∧
    e.expired now = true then optClearEntry e else e
  let stored ← optStoreSecond t i dg pktLen wireEth innerLen now
  if !stored then return .fail
  optEmitJoin t i

def l2Reassemble (t pktLen : Nat) (dg : UdpMeta) (kind : L2UdpKind) (now : UInt64) :
    Prog Buf Job Reasm := do
  let some wireEth ← l2WirePrefixLen .cryptoBuf pktLen | return .fail
  if wireEth > ethL2HdrMax ∨ pktLen < wireEth then return .fail
  let innerLen ← minus pktLen wireEth
  let i ← step fun j =>
    let r := optPickSlot ((j.fwd.tables t).getD OptTable.empty) dg.epoch dg.datagramId now
    (r.2, j.setTable t r.1)
  match kind with
  | .frag0 => l2ReassembleFirst t i pktLen wireEth innerLen dg now
  | .frag1 => l2ReassembleSecond t i pktLen wireEth innerLen dg now
  | .full => return .fail

/-- `opt_table(worker_idx, 1)`; no array is touched. -/
def optTable (env : Env) (t : Nat) : Prog Buf Job Bool :=
  step fun j =>
    match NetworkEncryptor.optTable env j.fwd.tables t with
    | none => (false, j)
    | some ft => (true, j.setTable t ft)

def l2CryptoReassembleUdp (env : Env) (ctx : PacketCryptoCtx) (workerIdx packetLen : Nat) :
    Prog Buf Job Reasm := do
  let some (kind, dg, len) ← l2DoDecryptUdp env ctx packetLen | return .fail
  if kind = .full then
    let ipv4 ← cryptoPktIsIpv4 .cryptoBuf len
    if !ipv4 then return .fail
    let frame ← bytes .cryptoBuf len 0 len
    store .cryptoAux 0 frame
    return .done len
  let found ← optTable env (optTableIdx workerIdx)
  if !found then return .fail
  l2Reassemble (optTableIdx workerIdx) len dg kind env.now

end Code

/-! ## the entry in use -/

/-- The halves an entry has fit its arrays. -/
abbrev EntryFits : OptEntry → Prop :=
  EntryFrom (fun _ _ p => p.length ≤ neJumboFrameMax) fun _ q => q.length ≤ neJumboFrameMax

/-- The job with `e` for entry `i` of the table `ft`, the table of worker `t`. -/
def Job.onEntry (j : Job) (t i : Nat) (ft : OptTable) (s : L2State) (m : Mem) (e : OptEntry) (a : Mem) :
    Job := (j.setTable t (ft.set i e)).at s m a

section entry

variable {j : Job} {t i : Nat} {ft : OptTable} {s : L2State} {m a : Mem} {e : OptEntry}

@[simp] theorem entry_onEntry : (j.onEntry t i ft s m e a).entry t i = e := by
  simp [Job.entry, Job.onEntry, Job.at, Job.setTable]

@[simp] theorem setEntry_onEntry (e' : OptEntry) :
    (j.onEntry t i ft s m e a).setEntry t i e' = j.onEntry t i ft s m e' a := by
  simp [Job.setEntry, Job.onEntry, Job.at, Job.setTable, OptTable.set]

theorem onEntry_self : j.onEntry t i ft s m (ft.entries i) a = (j.setTable t ft).at s m a := by
  simp [Job.onEntry, OptTable.set]

theorem get_ethHdr : Buffers.get (j.onEntry t i ft s m e a) (Buf.ethHdr t i) = e.ethHdr :=
  congrArg OptEntry.ethHdr entry_onEntry

theorem get_first : Buffers.get (j.onEntry t i ft s m e a) (Buf.first t i) = e.first :=
  congrArg OptEntry.first entry_onEntry

theorem get_second : Buffers.get (j.onEntry t i ft s m e a) (Buf.second t i) = e.second :=
  congrArg OptEntry.second entry_onEntry

namespace Code

open Prog

theorem updateEntry_safely (f : OptEntry → OptEntry) :
    Safely (updateEntry t i f) (j.onEntry t i ft s m e a) ((), j.onEntry t i ft s m (f e) a) := by
  have h : Safely (updateEntry t i f) (j.onEntry t i ft s m e a) _ := Does.step _ _
  simpa using h

/-- Writing one of the three arrays of the entry. -/
theorem storeEntry_safely {b : Buf} {bs : List UInt8} (hb : bs.length ≤ b.cap) {e' : OptEntry}
    (hset : Buffers.set (j.onEntry t i ft s m e a) b
      ((Buffers.get (j.onEntry t i ft s m e a) b).write 0 bs) = j.onEntry t i ft s m e' a) :
    Safely (store b 0 bs) (j.onEntry t i ft s m e a) ((), j.onEntry t i ft s m e' a) := by
  rw [← hset]
  exact Does.store (show 0 + bs.length ≤ b.cap by omega) _

theorem bytesEntry_safely {b : Buf} {len n : Nat} {c : Mem} (hn : n ≤ len) (hlen : len ≤ b.cap)
    (hget : Buffers.get (j.onEntry t i ft s m e a) b = c) :
    Safely (bytes b len 0 n) (j.onEntry t i ft s m e a) (c.read 0 n, j.onEntry t i ft s m e a) := by
  rw [← hget]
  exact Does.bytes (show 0 + n ≤ len ∧ len ≤ b.cap from ⟨by omega, hlen⟩) _

variable {dg : UdpMeta} {pktLen n : Nat} {now : UInt64}

/-- Reading the packet that is being stored. -/
theorem bytesPacket_safely {off k : Nat} (hlen : pktLen ≤ neJumboFrameMax) (h : off + k ≤ pktLen) :
    Safely (bytes .cryptoBuf pktLen off k) (j.onEntry t i ft s m e a)
      (m.read off k, j.onEntry t i ft s m e a) :=
  bytes_safely (view_buf (j.setTable t (ft.set i e)) a) h hlen

theorem optStoreFirst_safely {e' : OptEntry} (hlen : pktLen ≤ neJumboFrameMax) (hn : 14 + n ≤ pktLen)
    (h : NetworkEncryptor.optStoreFirst e dg m 14 m 14 n now = some e') :
    Safely (optStoreFirst t i dg pktLen 14 14 n now) (j.onEntry t i ft s m e a)
      (true, j.onEntry t i ft s m e' a) := by
  unfold optStoreFirst
  unfold NetworkEncryptor.optStoreFirst at h
  simp only [neJumboFrameMax] at hlen
  rw [if_neg (by simp; omega), if_neg (by simp), Option.some.injEq] at h
  rw [if_neg (by simp; omega), if_neg (by simp), ← h]
  refine (updateEntry_safely _).bind ((bytesPacket_safely (by simp; omega) hn).bind ?_)
  refine (storeEntry_safely (by simp [Buf.cap]; omega) (by simp [Buffers.get, Buffers.set]; rfl)).bind ?_
  refine (bytesPacket_safely (by simp; omega) (by omega)).bind ?_
  refine (storeEntry_safely (by simp [Buf.cap]) (by simp [Buffers.get, Buffers.set]; rfl)).bind ?_
  exact (updateEntry_safely _).bind (Does.pure _ _)

theorem optStoreSecond_safely {e' : OptEntry} (hlen : pktLen ≤ neJumboFrameMax) (hn : 14 + n ≤ pktLen)
    (h : NetworkEncryptor.optStoreSecond e dg m 14 n now = some e') :
    Safely (optStoreSecond t i dg pktLen 14 n now) (j.onEntry t i ft s m e a)
      (true, j.onEntry t i ft s m e' a) := by
  unfold optStoreSecond
  unfold NetworkEncryptor.optStoreSecond at h
  simp only [neJumboFrameMax] at hlen
  rw [if_neg (by simp; omega), Option.some.injEq] at h
  rw [if_neg (by simp; omega), ← h]
  refine (updateEntry_safely _).bind ((bytesPacket_safely (by simp; omega) hn).bind ?_)
  refine (storeEntry_safely (by simp [Buf.cap]; omega) (by simp [Buffers.get, Buffers.set]; rfl)).bind ?_
  exact (updateEntry_safely _).bind (Does.pure _ _)

/-- The program does what a reassembly step of the model does: it leaves the table the
step returns, and a finished frame is in `crypto_aux`. -/
def JoinsTo (x : Prog Buf Job Reasm) (k j : Job) (t : Nat) (s : L2State) (m : Mem)
    (out : OptTable × ReasmResult) : Prop :=
  ∃ a', Safely x k (out.2.code, (j.setTable t out.1).at s m a') ∧
    ∀ frame len, out.2 = .done frame len → frame = a' ∧ len ≤ neJumboFrameMax

theorem JoinsTo.bind {α : Type} {x : Prog Buf Job α} {f : α → Prog Buf Job Reasm} {k k' : Job} {r : α}
    {out : OptTable × ReasmResult} (hx : Safely x k (r, k')) (hf : JoinsTo (f r) k' j t s m out) :
    JoinsTo (x >>= f) k j t s m out := by
  obtain ⟨a', hrun, hdone⟩ := hf
  exact ⟨a', hx.bind hrun, hdone⟩

theorem JoinsTo.fail : JoinsTo (pure .fail) ((j.setTable t ft).at s m a) j t s m (ft, .fail) :=
  ⟨a, Does.pure _ _, by simp⟩

/-- Storing into `crypto_aux` beside the entry. -/
theorem storeAux_safely {off : Nat} {bs : List UInt8} (h : off + bs.length ≤ neJumboFrameMax) :
    Safely (store .cryptoAux off bs) (j.onEntry t i ft s m e a)
      ((), j.onEntry t i ft s m e (a.write off bs)) :=
  store_safely (view_aux (j.setTable t (ft.set i e)) m) h

/-- The halves of a whole datagram are copied one behind the other. -/
theorem optCopyHalves_safely {e' : OptEntry} (heth : e'.ethLen = 14) (hfirst : e'.firstLen = e.firstLen)
    (hsecond : e'.secondLen = e.secondLen) (hfit : 14 + e.firstLen + e.secondLen ≤ neJumboFrameMax) :
    Safely (optCopyHalves t i 14 e') (j.onEntry t i ft s m e a) ((), j.onEntry t i ft s m e
      (((a.write 0 (e.ethHdr.read 0 14)).write 14 (e.first.read 0 e.firstLen)).write (14 + e.firstLen)
        (e.second.read 0 e.secondLen))) := by
  unfold optCopyHalves
  rw [heth, hfirst, hsecond]
  simp only [neJumboFrameMax] at hfit
  refine (bytesEntry_safely (Nat.le_refl 14) (by simp [Buf.cap]) get_ethHdr).bind
    ((storeAux_safely (by simp)).bind ?_)
  refine (bytesEntry_safely (Nat.le_refl _) (by simp [Buf.cap]; omega) get_first).bind
    ((storeAux_safely (by simp; omega)).bind ?_)
  split
  · exact (bytesEntry_safely (Nat.le_refl _) (by simp [Buf.cap]; omega) get_second).bind
      (storeAux_safely (by simp; omega))
  · next h0 =>
      rw [show e.secondLen = 0 by omega, Mem.read_zero, Mem.write_nil]
      exact Does.pure _ _

/-- A join reads the halves that were stored, and what it puts together fits. -/
theorem optEmitJoin_safely (he : EntryFits e) :
    JoinsTo (optEmitJoin t i) (j.onEntry t i ft s m e a) j t s m
      (ft.set i (NetworkEncryptor.optEmitJoin e a).1, (NetworkEncryptor.optEmitJoin e a).2) := by
  unfold optEmitJoin NetworkEncryptor.optEmitJoin
  refine JoinsTo.bind (Does.step _ _) ?_
  simp only [entry_onEntry, fields_flags, fields_lengths]
  by_cases hboth : (!e.gotFirst || !e.gotSecond) = true
  · simp only [if_pos hboth]
    exact ⟨a, Does.pure _ _, by simp⟩
  simp only [if_neg hboth]
  simp only [Bool.or_eq_true, Bool.not_eq_true', not_or, Bool.not_eq_false] at hboth
  obtain ⟨heth, hfirst⟩ := he.first hboth.1
  simp only [heth, ne_eq, OfNat.ofNat_ne_zero, not_false_eq_true, if_true]
  by_cases hfit : e.firstLen + e.secondLen + 14 > neJumboFrameMax
  · simp only [if_pos hfit]
    exact ⟨a, (updateEntry_safely _).bind (Does.pure _ _), by simp⟩
  simp only [if_neg hfit, ge_iff_le, Nat.reduceLeDiff, if_true]
  refine JoinsTo.bind (optCopyHalves_safely heth rfl rfl (by omega))
    (JoinsTo.bind (storeAux_safely (by simp)) (JoinsTo.bind (updateEntry_safely _) ?_))
  refine ⟨_, Does.pure _ _, fun frame len h => ?_⟩
  simp only [ReasmResult.done.injEq] at h
  exact ⟨h.1.symm, by omega⟩

theorem l2ReassembleFirst_safely (hlen : pktLen ≤ neJumboFrameMax) (h14 : 14 ≤ pktLen)
    (he : EntryFits (ft.entries i)) :
    JoinsTo (l2ReassembleFirst t i pktLen 14 (pktLen - 14) dg now) ((j.setTable t ft).at s m a) j t s m
      (NetworkEncryptor.l2ReassembleFirst ft i m 14 (pktLen - 14) dg now a) := by
  unfold l2ReassembleFirst NetworkEncryptor.l2ReassembleFirst
  dsimp only
  by_cases h20 : pktLen - 14 < 20
  · rw [if_pos h20, if_pos (.inl h20)]; exact JoinsTo.fail
  rw [if_neg h20]
  refine JoinsTo.bind (Does.byte (reads_of_fits hlen 14 1 (by omega)) _) ?_
  have hget : Buffers.get ((j.setTable t ft).at s m a) Buf.cryptoBuf = m := rfl
  rw [hget]
  by_cases hver : (m 14).toNat / 16 ≠ 4
  · rw [if_pos hver, if_pos (.inr hver)]; exact JoinsTo.fail
  rw [if_neg hver, if_neg (not_or.mpr ⟨h20, hver⟩)]
  by_cases hihl : (m 14).toNat % 16 * 4 < 20 ∨ pktLen - 14 < (m 14).toNat % 16 * 4
  · rw [if_pos hihl, if_pos hihl]; exact JoinsTo.fail
  rw [if_neg hihl, if_neg hihl]
  cases hstore : NetworkEncryptor.optStoreFirst (ft.entries i) dg m 14 m 14 (pktLen - 14) now with
  | none =>
      unfold NetworkEncryptor.optStoreFirst at hstore
      rw [if_neg (by omega), if_neg (by simp)] at hstore
      cases hstore
  | some e =>
      have hfits : EntryFits e :=
        entryFrom_storeFirst he (by rw [Mem.length_read]; omega) hstore
      rw [← onEntry_self]
      exact JoinsTo.bind (optStoreFirst_safely hlen (by omega) hstore) (optEmitJoin_safely hfits)

theorem l2ReassembleSecond_safely (hlen : pktLen ≤ neJumboFrameMax) (h14 : 14 ≤ pktLen)
    (he : EntryFits (ft.entries i)) :
    JoinsTo (l2ReassembleSecond t i pktLen 14 (pktLen - 14) dg now) ((j.setTable t ft).at s m a) j t s m
      (NetworkEncryptor.l2ReassembleSecond ft i m 14 (pktLen - 14) dg now a) := by
  unfold l2ReassembleSecond NetworkEncryptor.l2ReassembleSecond
  rw [← onEntry_self]
  refine JoinsTo.bind (updateEntry_safely _) ?_
  dsimp only
  have hclear : EntryFits (if (ft.entries i).occupied = true ∧ (ft.entries i).epoch = dg.epoch ∧
      (ft.entries i).datagramId = dg.datagramId ∧ (ft.entries i).expired now = true then
        optClearEntry (ft.entries i) else ft.entries i) := by
    split
    · exact entryFrom_clear _
    · exact he
  generalize (if (ft.entries i).occupied = true ∧ (ft.entries i).epoch = dg.epoch ∧
      (ft.entries i).datagramId = dg.datagramId ∧ (ft.entries i).expired now = true then
        optClearEntry (ft.entries i) else ft.entries i) = e at hclear ⊢
  cases hstore : NetworkEncryptor.optStoreSecond e dg m 14 (pktLen - 14) now with
  | none =>
      unfold NetworkEncryptor.optStoreSecond at hstore
      rw [if_neg (by omega)] at hstore
      cases hstore
  | some e' =>
      have hfits : EntryFits e' :=
        entryFrom_storeSecond hclear (by rw [Mem.length_read]; omega) hstore
      exact JoinsTo.bind (optStoreSecond_safely hlen (by omega) hstore) (optEmitJoin_safely hfits)

theorem l2WirePrefixLen_safely (hlen : pktLen ≤ neJumboFrameMax) :
    Safely (l2WirePrefixLen .cryptoBuf pktLen) (j.at s m a)
      (NetworkEncryptor.l2WirePrefixLen m pktLen, j.at s m a) := by
  unfold l2WirePrefixLen NetworkEncryptor.l2WirePrefixLen
  refine Does.bind (prefixLen_safely hlen) ?_
  cases NetworkEncryptor.cryptoEthL2PrefixLen m pktLen <;> exact Does.pure _ _

/-- The slot is picked by fields of the entries alone. -/
theorem pickSlot_safely :
    Safely (step fun j : Job =>
        let r := optPickSlot ((j.fwd.tables t).getD OptTable.empty) dg.epoch dg.datagramId now
        (r.2, j.setTable t r.1)) ((j.setTable t ft).at s m a)
      ((optPickSlot ft dg.epoch dg.datagramId now).2,
        (j.setTable t (optPickSlot ft dg.epoch dg.datagramId now).1).at s m a) := by
  have htable : ((j.setTable t ft).at s m a).fwd.tables t = some ft := by
    simp [Job.at, Job.setTable]
  have hset : ∀ ft', ((j.setTable t ft).at s m a).setTable t ft' = (j.setTable t ft').at s m a := by
    simp [Job.at, Job.setTable]
  have h := @Does.step Buf Job _ _ Access.InRange (fun j : Job =>
    let r := optPickSlot ((j.fwd.tables t).getD OptTable.empty) dg.epoch dg.datagramId now
    (r.2, j.setTable t r.1)) ((j.setTable t ft).at s m a)
  dsimp only at h
  rw [htable, hset] at h
  exact h

theorem l2Reassemble_safely {kind : L2UdpKind} (hlen : pktLen ≤ neJumboFrameMax)
    (hft : ∀ i, EntryFits (ft.entries i)) :
    JoinsTo (l2Reassemble t pktLen dg kind now) ((j.setTable t ft).at s m a) j t s m
      (NetworkEncryptor.l2Reassemble ft m pktLen dg kind now a) := by
  unfold l2Reassemble NetworkEncryptor.l2Reassemble
  refine JoinsTo.bind (l2WirePrefixLen_safely hlen) ?_
  cases hw : NetworkEncryptor.l2WirePrefixLen m pktLen with
  | none => exact JoinsTo.fail
  | some wireEth =>
      obtain ⟨etOff, het, rfl⟩ := Option.map_eq_some_iff.mp hw
      obtain ⟨rfl, h14, -⟩ := cryptoEthInnerEtOff_eq_some_iff.mp het
      have hgo : ¬(12 + 2 > ethL2HdrMax ∨ pktLen < 12 + 2) := by simp; omega
      simp only [if_neg hgo]
      refine JoinsTo.bind (minus_safely (by omega) _) (JoinsTo.bind pickSlot_safely ?_)
      have hpick : ∀ i, EntryFits ((optPickSlot ft dg.epoch dg.datagramId now).1.entries i) :=
        TableFrom.cleaned hft (cleaned_optPickSlot ft dg.epoch dg.datagramId now)
      cases kind with
      | frag0 => exact l2ReassembleFirst_safely hlen h14 (hpick _)
      | frag1 => exact l2ReassembleSecond_safely hlen h14 (hpick _)
      | full => exact JoinsTo.fail

end Code

end entry

/-! ## the tables that can come about -/

/-- The halves in the tables fit their arrays. -/
abbrev TablesFit : FragTables → Prop :=
  TablesFrom (fun _ _ _ p => p.length ≤ neJumboFrameMax) fun _ _ q => q.length ≤ neJumboFrameMax

/-- The tables after any number of calls of the two functions that work on them.  A
packet that is handed in has been linearized into `crypto_buf`. -/
inductive ReachableTables : FragTables → Prop
  | init : ReachableTables fun _ => none
  | reassemble {tables : FragTables} (h : ReachableTables tables) (env : Env) (ctx : PacketCryptoCtx)
      (workerIdx : Nat) (packet : Mem) (len : Nat) (hlen : len ≤ neJumboFrameMax) (output : Mem) :
      ReachableTables (l2CryptoReassembleUdp env ctx tables workerIdx packet len output).1
  | gc {tables : FragTables} (h : ReachableTables tables) (workerIdx : Nat) (now : UInt64) :
      ReachableTables (l2CryptoFragGc tables workerIdx now)

/-- What the cipher accepts is shorter than the frame it came in. -/
theorem Opens.payload_fits {env : Env} {ctx : PacketCryptoCtx} {packet : Mem} {pktLen : Nat}
    {kind : L2UdpKind} {dg : UdpMeta} {payload : List UInt8}
    (h : Opens env ctx packet 31 pktLen (l2UdpShim kind dg ++ payload)) :
    60 + payload.length = pktLen := by
  obtain ⟨-, -, hlt, hdec⟩ := h
  have hl := env.gcm.length_decrypt hdec
  simp only [List.length_append, length_l2UdpShim, Mem.length_read] at hl
  omega

theorem TablesFit.reassemble {env : Env} {ctx : PacketCryptoCtx} {tables : FragTables}
    {workerIdx : Nat} {packet : Mem} {len : Nat} (output : Mem) (h : TablesFit tables)
    (hlen : len ≤ neJumboFrameMax) :
    TablesFit (l2CryptoReassembleUdp env ctx tables workerIdx packet len output).1 := by
  refine (l2CryptoReassembleUdp_from (F := fun _ _ => True) output h ?_).1
  intro kind dg payload _ _ hopen
  have hfits := hopen.payload_fits
  cases kind with
  | full => trivial
  | frag0 => exact Nat.le_trans (by omega) hlen
  | frag1 => exact Nat.le_trans (by omega) hlen

theorem ReachableTables.fit {tables : FragTables} (h : ReachableTables tables) : TablesFit tables := by
  induction h with
  | init => exact tablesFrom_none
  | reassemble _ env ctx workerIdx packet len hlen output ih => exact TablesFit.reassemble output ih hlen
  | gc _ workerIdx now ih => exact tablesFrom_gc ih workerIdx now

/-! ## one call -/

/-- Store all tables. -/
def Job.setTables (j : Job) (tables : FragTables) : Job :=
  { j with fwd := { j.fwd with tables := tables } }

namespace Code

open Prog

variable {env : Env} {ctx : PacketCryptoCtx} {j : Job} {s : L2State} {m a : Mem} {pktLen workerIdx : Nat}

/-- The program does what a call of the model does: it leaves the tables the call
returns, and a finished frame is in `crypto_aux`. -/
def ReassemblesTo (x : Prog Buf Job Reasm) (j : Job) (s : L2State) (m a : Mem)
    (out : FragTables × ReasmResult) : Prop :=
  ∃ m' a', Safely x (j.at s m a) (out.2.code, (j.setTables out.1).at s m' a') ∧
    ∀ frame len, out.2 = .done frame len → frame = a' ∧ len ≤ neJumboFrameMax

theorem ReassemblesTo.bind {α : Type} {x : Prog Buf Job α} {f : α → Prog Buf Job Reasm} {r : α}
    {m' a' : Mem} {out : FragTables × ReasmResult} (hx : Safely x (j.at s m a) (r, j.at s m' a'))
    (hf : ReassemblesTo (f r) j s m' a' out) : ReassemblesTo (x >>= f) j s m a out := by
  obtain ⟨m'', a'', hrun, hdone⟩ := hf
  exact ⟨m'', a'', hx.bind hrun, hdone⟩

theorem ReassemblesTo.fail : ReassemblesTo (pure .fail) j s m a (j.fwd.tables, .fail) :=
  ⟨m, a, Does.pure _ _, by simp⟩

/-- A decrypted packet is shorter than the frame it came in. -/
theorem l2DoDecryptUdp_len {r : UdpPlain}
    (h : NetworkEncryptor.l2DoDecryptUdp env ctx m pktLen = some r) : r.len ≤ pktLen := by
  obtain ⟨-, -, -, kind, dg, payload, hopen, rfl⟩ := l2DoDecryptUdp_eq_some_iff.mp h
  have hpay := hopen.payload_fits
  have hlen : (udpPlain m kind dg payload).len = 14 + payload.length := rfl
  omega

/-- A whole datagram is copied to `crypto_aux`. -/
theorem deliverFull_safely {len : Nat} (hlen : len ≤ neJumboFrameMax) :
    ReassemblesTo (do
        let ipv4 ← cryptoPktIsIpv4 .cryptoBuf len
        if !ipv4 then return .fail
        let frame ← bytes .cryptoBuf len 0 len
        store .cryptoAux 0 frame
        return .done len) j s m a
      (if NetworkEncryptor.cryptoPktIsIpv4 m len then
          (j.fwd.tables, .done (a.write 0 (m.read 0 len)) len)
        else (j.fwd.tables, .fail)) := by
  refine ReassemblesTo.bind (pktIsIpv4_safely hlen) ?_
  by_cases hip : NetworkEncryptor.cryptoPktIsIpv4 m len = true
  · simp only [hip, Bool.not_true, Bool.false_eq_true, if_false, if_true]
    refine ReassemblesTo.bind (bytes_safely (view_buf j a) (by omega) hlen)
      (ReassemblesTo.bind (store_safely (view_aux j m) (by simp at hlen ⊢; omega)) ?_)
    refine ⟨m, _, Does.pure _ _, fun frame n h => ?_⟩
    simp only [ReasmResult.done.injEq] at h
    exact ⟨h.1.symm, by omega⟩
  · simp only [hip, Bool.not_false, if_true]
    exact ReassemblesTo.fail

/-- A fragment goes to the table of the worker. -/
theorem deliverFragment_safely {t len : Nat} {dg : UdpMeta} {kind : L2UdpKind}
    (hlen : len ≤ neJumboFrameMax) (hfit : TablesFit j.fwd.tables) :
    ReassemblesTo (do
        let found ← optTable env t
        if !found then return .fail
        l2Reassemble t len dg kind env.now) j s m a
      (match NetworkEncryptor.optTable env j.fwd.tables t with
      | none => (j.fwd.tables, .fail)
      | some ft =>
          let q := NetworkEncryptor.l2Reassemble ft m len dg kind env.now a
          (Function.update j.fwd.tables t (some q.1), q.2)) := by
  have hstep : Safely (optTable env t) (j.at s m a) _ := Does.step _ _
  have htables : (j.at s m a).fwd.tables = j.fwd.tables := rfl
  rw [htables] at hstep
  cases hft : NetworkEncryptor.optTable env j.fwd.tables t with
  | none =>
      rw [hft] at hstep
      exact ReassemblesTo.bind hstep ReassemblesTo.fail
  | some ft =>
      rw [hft] at hstep
      obtain ⟨a', hrun, hdone⟩ := @l2Reassemble_safely j t ft s m a dg len env.now kind hlen
        (hfit.optTable hft)
      exact ⟨m, a', hstep.bind hrun, hdone⟩

theorem l2CryptoReassembleUdp_safely (hlen : pktLen ≤ neJumboFrameMax) (hfit : TablesFit j.fwd.tables) :
    ReassemblesTo (l2CryptoReassembleUdp env ctx workerIdx pktLen) j s m a
      (NetworkEncryptor.l2CryptoReassembleUdp env ctx j.fwd.tables workerIdx m pktLen a) := by
  unfold l2CryptoReassembleUdp NetworkEncryptor.l2CryptoReassembleUdp
  obtain ⟨m', hrun, hpacket⟩ := @l2DoDecryptUdp_safely env ctx j s m a pktLen hlen
  refine ReassemblesTo.bind hrun ?_
  cases hd : NetworkEncryptor.l2DoDecryptUdp env ctx m pktLen with
  | none => exact ReassemblesTo.fail
  | some r =>
      have hr := Nat.le_trans (l2DoDecryptUdp_len hd) hlen
      obtain rfl := hpacket r hd
      simp only [Option.map_some]
      by_cases hfull : r.kind = .full
      · simp only [if_pos hfull]
        exact deliverFull_safely hr
      · simp only [if_neg hfull]
        exact deliverFragment_safely hr hfit

end Code

end NetworkEncryptor
