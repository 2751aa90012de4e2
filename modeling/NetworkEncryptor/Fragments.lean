import NetworkEncryptor.Reassembly
import NetworkEncryptor.WireFormat

/-!
# NetworkEncryptor.Fragments

What a fragment table can hold and what it can emit.

The table is followed through two predicates: `P dg macs p` for what may have
arrived as a first half of the datagram `dg`, `Q dg q` for a second half.
Probing, expiry, eviction and garbage collection only clear entries
(`Cleaned`), so every occupied entry holds halves that arrived for the datagram
its key names (`EntryFrom`), and a join is a first and a second half of one
key.  What `P` and `Q` are is up to the sender (`NetworkEncryptor.Delivery`) or
the attacker (`NetworkEncryptor.Integrity`).
-/

namespace NetworkEncryptor

/-! ## operations that only clear -/

/-- Every entry of `ft'` is the one of `ft`, or that entry cleared. -/
def Cleaned (ft ft' : OptTable) : Prop :=
  ∀ i, ft'.entries i = ft.entries i ∨ ft'.entries i = optClearEntry (ft.entries i)

theorem Cleaned.refl (ft : OptTable) : Cleaned ft ft := fun _ => .inl rfl

theorem Cleaned.trans {ft ft' ft'' : OptTable} (h : Cleaned ft ft') (h' : Cleaned ft' ft'') :
    Cleaned ft ft'' := by
  intro i
  rcases h i with h1 | h1
  · rcases h' i with h2 | h2
    · exact .inl (h2.trans h1)
    · exact .inr (by rw [h2, h1])
  · rcases h' i with h2 | h2
    · exact .inr (h2.trans h1)
    · exact .inr (by rw [h2, h1]; rfl)

theorem cleaned_set_clear (ft : OptTable) (idx : Nat) :
    Cleaned ft (ft.set idx (optClearEntry (ft.entries idx))) := by
  intro i
  by_cases hi : i = idx
  · subst hi; exact .inr (ft.set_entries_self i _)
  · exact .inl (ft.set_entries_of_ne _ hi)

/-- The probe clears the expired entries it meets. -/
theorem cleaned_optProbe (epoch datagramId : UInt32) (now : UInt64) (base k : Nat) :
    ∀ (i : Nat) (ft : OptTable) (emptyIdx oldestIdx : Option Nat) (oldestAge : UInt64),
      Cleaned ft (optProbe epoch datagramId now base k i ft emptyIdx oldestIdx oldestAge).1 := by
  induction k with
  | zero => intro i ft emptyIdx oldestIdx oldestAge; exact Cleaned.refl ft
  | succ k ih =>
      intro i ft emptyIdx oldestIdx oldestAge
      rw [optProbe]
      by_cases hlive : (ft.entries ((base + i) % l2FragTableSize)).occupied = true ∧
          (ft.entries ((base + i) % l2FragTableSize)).expired now = false
      · simp only [if_pos hlive]
        split
        · exact Cleaned.refl ft
        · split
          · exact ih _ _ _ _ _
          · exact ih _ _ _ _ _
      · simp only [if_neg hlive]
        by_cases hocc : (ft.entries ((base + i) % l2FragTableSize)).occupied = true
        · rw [if_pos hocc]; exact (cleaned_set_clear ft _).trans (ih _ _ _ _ _)
        · rw [if_neg hocc]; exact ih _ _ _ _ _

theorem cleaned_optPickSlot (ft : OptTable) (epoch datagramId : UInt32) (now : UInt64) :
    Cleaned ft (optPickSlot ft epoch datagramId now).1 :=
  cleaned_optProbe epoch datagramId now _ 8 0 ft none none 0

/-- The sweep clears the expired entries of its range. -/
theorem cleaned_optGcSweep (now : UInt64) (start n : Nat) (ft : OptTable) :
    Cleaned ft (optGcSweep now start n ft) := by
  induction n with
  | zero => exact Cleaned.refl ft
  | succ n ih =>
      rw [optGcSweep]
      split
      · exact ih.trans (cleaned_set_clear _ _)
      · exact ih

theorem cleaned_optFragGcTable (ft : OptTable) (now : UInt64) :
    Cleaned ft (optFragGcTable ft now) := by
  unfold optFragGcTable
  generalize 256 = n
  exact cleaned_optGcSweep now ft.gcCursor n ft

/-! ## what an entry holds -/

section Entry

variable {P : UdpMeta → List UInt8 → List UInt8 → Prop} {Q : UdpMeta → List UInt8 → Prop}

/-- The datagram an entry belongs to. -/
def OptEntry.dg (e : OptEntry) : UdpMeta := ⟨e.epoch, e.udpSeq, e.datagramId⟩

/-- The halves an entry has arrived for its own datagram. -/
structure EntryFrom (P : UdpMeta → List UInt8 → List UInt8 → Prop) (Q : UdpMeta → List UInt8 → Prop)
    (e : OptEntry) : Prop where
  first : e.gotFirst = true →
    e.ethLen = 14 ∧ P e.dg (e.ethHdr.read 0 12) (e.first.read 0 e.firstLen)
  second : e.gotSecond = true → Q e.dg (e.second.read 0 e.secondLen)

/-- All entries of a table. -/
def TableFrom (P : UdpMeta → List UInt8 → List UInt8 → Prop) (Q : UdpMeta → List UInt8 → Prop)
    (ft : OptTable) : Prop :=
  ∀ i, EntryFrom P Q (ft.entries i)

theorem entryFrom_clear (e : OptEntry) : EntryFrom P Q (optClearEntry e) :=
  ⟨(by intro h; cases h), (by intro h; cases h)⟩

theorem tableFrom_empty : TableFrom P Q OptTable.empty :=
  fun _ => ⟨(by intro h; cases h), (by intro h; cases h)⟩

theorem TableFrom.cleaned {ft ft' : OptTable} (h : TableFrom P Q ft) (hc : Cleaned ft ft') :
    TableFrom P Q ft' := by
  intro i
  rcases hc i with hi | hi
  · rw [hi]; exact h i
  · rw [hi]; exact entryFrom_clear _

theorem TableFrom.set {ft : OptTable} (h : TableFrom P Q ft) (idx : Nat) {e : OptEntry}
    (he : EntryFrom P Q e) : TableFrom P Q (ft.set idx e) := by
  intro i
  by_cases hi : i = idx
  · subst hi; rw [ft.set_entries_self]; exact he
  · rw [ft.set_entries_of_ne _ hi]; exact h i

/-- A prepared entry belongs to `dg`, and keeps only halves that did so before. -/
theorem entryFrom_prepare {e : OptEntry} (h : EntryFrom P Q e) (dg : UdpMeta) (now : UInt64) :
    EntryFrom P Q (optPrepareEntry e dg now) ∧ (optPrepareEntry e dg now).dg = dg := by
  refine ⟨?_, rfl⟩
  rw [optPrepareEntry]
  split
  · exact ⟨(by intro h; cases h), (by intro h; cases h)⟩
  · rename_i hkeep
    simp only [not_or, ne_eq, Decidable.not_not] at hkeep
    obtain ⟨h1, h2, h3, -⟩ := hkeep
    have hdg : e.dg = dg := by rw [OptEntry.dg, h1, h2, h3]
    refine ⟨fun hf => ?_, fun hs => ?_⟩
    · have := h.first hf
      rw [hdg] at this; exact this
    · have := h.second hs
      rw [hdg] at this; exact this

theorem entryFrom_storeFirst {e e' : OptEntry} (h : EntryFrom P Q e) {dg : UdpMeta} {data : Mem}
    {n : Nat} {now : UInt64} (hp : P dg (data.read 0 12) (data.read 14 n))
    (hs : optStoreFirst e dg data 14 data 14 n now = some e') : EntryFrom P Q e' := by
  obtain ⟨hprep, hdg⟩ := entryFrom_prepare h dg now
  rw [optStoreFirst] at hs
  by_cases hlen : n > neJumboFrameMax
  · rw [if_pos hlen] at hs; cases hs
  · rw [if_neg hlen, if_neg (by simp), Option.some.injEq] at hs
    subst hs
    refine ⟨fun _ => ⟨rfl, ?_⟩, fun hsec => hprep.second hsec⟩
    have hhdr : ((optPrepareEntry e dg now).ethHdr.write 0 (data.read 0 14)).read 0 12 =
        data.read 0 12 := by
      have h0 := @Mem.read_write_inside (optPrepareEntry e dg now).ethHdr 0 0 12 (data.read 0 14)
        (by simp)
      rw [h0, List.drop_zero, Mem.take_read _ (by omega)]
    have hdata : ((optPrepareEntry e dg now).first.write 0 (data.read 14 n)).read 0 n =
        data.read 14 n := Mem.read_write_self _ (by simp)
    simp only [OptEntry.dg, hhdr, hdata]
    exact hp

theorem entryFrom_storeSecond {e e' : OptEntry} (h : EntryFrom P Q e) {dg : UdpMeta} {data : Mem}
    {n : Nat} {now : UInt64} (hq : Q dg (data.read 14 n))
    (hs : optStoreSecond e dg data 14 n now = some e') : EntryFrom P Q e' := by
  obtain ⟨hprep, hdg⟩ := entryFrom_prepare h dg now
  rw [optStoreSecond] at hs
  by_cases hlen : n > neJumboFrameMax
  · rw [if_pos hlen] at hs; cases hs
  · rw [if_neg hlen, Option.some.injEq] at hs
    subst hs
    refine ⟨fun hf => hprep.first hf, fun _ => ?_⟩
    have hdata : ((optPrepareEntry e dg now).second.write 0 (data.read 14 n)).read 0 n =
        data.read 14 n := Mem.read_write_self _ (by simp)
    simp only [OptEntry.dg, hdata]
    exact hq

/-- A frame put together from a first half `p` and a second half `q`. -/
def joined (macs p q : List UInt8) : List UInt8 := macs ++ [0x08, 0x00] ++ (p ++ q)

/-- Writing header, halves and EtherType in turn gives the joined frame. -/
private theorem read_join (outBuf hdr : Mem) {p q : List UInt8} :
    (cryptoEthSetIpv4Et (((outBuf.write 0 (hdr.read 0 14)).write 14 p).write (14 + p.length) q)
      12).read 0 (14 + p.length + q.length) = joined (hdr.read 0 12) p q := by
  have hwrite : ((outBuf.write 0 (hdr.read 0 14)).write 14 p).write (14 + p.length) q =
      outBuf.write 0 (hdr.read 0 14 ++ (p ++ q)) := by
    rw [Mem.write_append, Mem.write_append, Mem.length_read, Nat.zero_add]
  have hlen : 14 + p.length + q.length = 12 + (2 + (p ++ q).length) := by
    rw [List.length_append]; omega
  rw [hwrite, cryptoEthSetIpv4Et, hlen, Mem.read_add, Mem.read_add, joined, List.append_assoc]
  have hmacs : (Mem.write (outBuf.write 0 (hdr.read 0 14 ++ (p ++ q))) 12 [0x08, 0x00]).read 0 12 =
      hdr.read 0 12 := by
    have h0 := @Mem.read_write_inside outBuf 0 0 12 (hdr.read 0 14 ++ (p ++ q)) (by simp; omega)
    rw [Mem.read_write_of_disjoint _ (.inl (by omega)), h0, List.drop_zero,
      List.take_append_of_le_length (by simp), Mem.take_read _ (by omega)]
  have het : (Mem.write (outBuf.write 0 (hdr.read 0 14 ++ (p ++ q))) 12 [0x08, 0x00]).read
      (0 + 12) 2 = [0x08, 0x00] := Mem.read_write_self _ rfl
  have hrest : (Mem.write (outBuf.write 0 (hdr.read 0 14 ++ (p ++ q))) 12 [0x08, 0x00]).read
      (0 + 12 + 2) (p ++ q).length = p ++ q := by
    have h14 := @Mem.read_write_inside outBuf 0 14 (p ++ q).length (hdr.read 0 14 ++ (p ++ q))
      (by simp)
    rw [Mem.read_write_of_disjoint _ (.inr (by simp)), h14, List.drop_left' (by simp),
      List.take_length]
  rw [hmacs, het, hrest]

/-- A join puts two halves of one datagram together. -/
theorem optEmitJoin_from {e : OptEntry} (h : EntryFrom P Q e) (outBuf : Mem) :
    EntryFrom P Q (optEmitJoin e outBuf).1 ∧
      ∀ out len, (optEmitJoin e outBuf).2 = .done out len →
        ∃ dg macs p q, P dg macs p ∧ Q dg q ∧ out.read 0 len = joined macs p q := by
  rw [optEmitJoin]
  by_cases hboth : (!e.gotFirst || !e.gotSecond) = true
  · rw [if_pos hboth]
    exact ⟨h, fun out len hd => by cases hd⟩
  · rw [if_neg hboth]
    simp only [Bool.or_eq_true, Bool.not_eq_true', not_or, Bool.not_eq_false] at hboth
    obtain ⟨hf, hs⟩ := hboth
    obtain ⟨heth, hp⟩ := h.first hf
    have hq := h.second hs
    have hlen : (if e.ethLen ≠ 0 then e.ethLen else ethHeaderSize) = 14 := by
      rw [heth]; rfl
    by_cases hbig : e.firstLen + e.secondLen + 14 > neJumboFrameMax
    · simp only [hlen, if_pos hbig]
      exact ⟨entryFrom_clear e, fun out len hd => by cases hd⟩
    · simp only [hlen, if_neg hbig, if_pos (show 14 ≥ 2 by omega), Nat.reduceSub]
      refine ⟨entryFrom_clear e, fun out len hd => ?_⟩
      have hjoin := read_join outBuf e.ethHdr (p := e.first.read 0 e.firstLen)
        (q := e.second.read 0 e.secondLen)
      rw [Mem.length_read, Mem.length_read] at hjoin
      simp only [ReasmResult.done.injEq] at hd
      obtain ⟨rfl, rfl⟩ := hd
      exact ⟨e.dg, _, _, _, hp, hq, hjoin⟩

/-- One reassembly step on a table: it stays a table of arrived halves, and what
it emits is a join of two of them. -/
theorem l2Reassemble_from {ft : OptTable} (hft : TableFrom P Q ft) {pktData : Mem} {pktLen : Nat}
    {dg : UdpMeta} {kind : L2UdpKind} (now : UInt64) (outBuf : Mem)
    (hp : kind = .frag0 → P dg (pktData.read 0 12) (pktData.read 14 (pktLen - 14)))
    (hq : kind = .frag1 → Q dg (pktData.read 14 (pktLen - 14))) :
    TableFrom P Q (l2Reassemble ft pktData pktLen dg kind now outBuf).1 ∧
      ∀ out len, (l2Reassemble ft pktData pktLen dg kind now outBuf).2 = .done out len →
        ∃ dg macs p q, P dg macs p ∧ Q dg q ∧ out.read 0 len = joined macs p q := by
  rw [l2Reassemble]
  cases hw : l2WirePrefixLen pktData pktLen with
  | none => exact ⟨hft, fun out len hd => by cases hd⟩
  | some wireEth =>
      have h14 : wireEth = 14 := by
        rw [l2WirePrefixLen, Option.map_eq_some_iff] at hw
        obtain ⟨o, ho, rfl⟩ := hw
        rw [(cryptoEthInnerEtOff_eq_some_iff.mp ho).1]
      subst h14
      dsimp only
      by_cases hshort : 14 > ethL2HdrMax ∨ pktLen < 14
      · rw [if_pos hshort]; exact ⟨hft, fun out len hd => by cases hd⟩
      · rw [if_neg hshort]
        have hpick := hft.cleaned (cleaned_optPickSlot ft dg.epoch dg.datagramId now)
        generalize optPickSlot ft dg.epoch dg.datagramId now = pick at hpick
        cases kind with
        | frag0 =>
            dsimp only
            rw [l2ReassembleFirst]
            split
            · exact ⟨hpick, fun out len hd => by cases hd⟩
            · split
              · exact ⟨hpick, fun out len hd => by cases hd⟩
              · cases hst : optStoreFirst (pick.1.entries pick.2) dg pktData 14 pktData 14
                    (pktLen - 14) now with
                | none => exact ⟨hpick, fun out len hd => by cases hd⟩
                | some e =>
                    have he := entryFrom_storeFirst (hpick pick.2) (hp rfl) hst
                    obtain ⟨hemit, hdone⟩ := optEmitJoin_from he outBuf
                    exact ⟨hpick.set pick.2 hemit, hdone⟩
        | frag1 =>
            dsimp only
            rw [l2ReassembleSecond]
            dsimp only
            have hclear : EntryFrom P Q (if (pick.1.entries pick.2).occupied = true ∧
                (pick.1.entries pick.2).epoch = dg.epoch ∧
                (pick.1.entries pick.2).datagramId = dg.datagramId ∧
                (pick.1.entries pick.2).expired now = true then
                  optClearEntry (pick.1.entries pick.2) else pick.1.entries pick.2) := by
              split
              · exact entryFrom_clear _
              · exact hpick pick.2
            generalize (if (pick.1.entries pick.2).occupied = true ∧
                (pick.1.entries pick.2).epoch = dg.epoch ∧
                (pick.1.entries pick.2).datagramId = dg.datagramId ∧
                (pick.1.entries pick.2).expired now = true then
                  optClearEntry (pick.1.entries pick.2) else pick.1.entries pick.2) = e at hclear
            cases hst : optStoreSecond e dg pktData 14 (pktLen - 14) now with
            | none => exact ⟨hpick.set pick.2 hclear, fun out len hd => by cases hd⟩
            | some e' =>
                have he := entryFrom_storeSecond hclear (hq rfl) hst
                obtain ⟨hemit, hdone⟩ := optEmitJoin_from he outBuf
                exact ⟨hpick.set pick.2 hemit, hdone⟩
        | full => exact ⟨hpick, fun out len hd => by cases hd⟩

end Entry

/-! ## the tables of all workers -/

section Tables

variable {P : Nat → UdpMeta → List UInt8 → List UInt8 → Prop}
  {Q : Nat → UdpMeta → List UInt8 → Prop} {F : List UInt8 → List UInt8 → Prop}

/-- Every worker's table holds halves that arrived at that worker. -/
def TablesFrom (P : Nat → UdpMeta → List UInt8 → List UInt8 → Prop)
    (Q : Nat → UdpMeta → List UInt8 → Prop) (tables : FragTables) : Prop :=
  ∀ w ft, tables w = some ft → TableFrom (P w) (Q w) ft

theorem tablesFrom_none : TablesFrom P Q fun _ => none := fun _ _ h => by cases h

/-- More may have arrived. -/
theorem TablesFrom.mono {P' : Nat → UdpMeta → List UInt8 → List UInt8 → Prop}
    {Q' : Nat → UdpMeta → List UInt8 → Prop} {tables : FragTables} (h : TablesFrom P Q tables)
    (hP : ∀ w dg macs p, P w dg macs p → P' w dg macs p) (hQ : ∀ w dg q, Q w dg q → Q' w dg q) :
    TablesFrom P' Q' tables := by
  intro w ft hw i
  have he := h w ft hw i
  exact ⟨fun hf => ⟨(he.first hf).1, hP _ _ _ _ (he.first hf).2⟩, fun hs => hQ _ _ _ (he.second hs)⟩

theorem TablesFrom.update {tables : FragTables} (h : TablesFrom P Q tables) {w : Nat} {ft : OptTable}
    (hft : TableFrom (P w) (Q w) ft) : TablesFrom P Q (Function.update tables w (some ft)) := by
  intro w' ft' hw
  by_cases heq : w' = w
  · subst heq
    rw [Function.update_self, Option.some.injEq] at hw
    rw [← hw]; exact hft
  · rw [Function.update_of_ne heq] at hw
    exact h w' ft' hw

theorem tablesFrom_gc {tables : FragTables} (h : TablesFrom P Q tables) (workerIdx : Nat)
    (now : UInt64) : TablesFrom P Q (l2CryptoFragGc tables workerIdx now) := by
  rw [l2CryptoFragGc]
  cases ht : tables (optTableIdx workerIdx) with
  | none => exact h
  | some ft => exact h.update ((h _ ft ht).cleaned (cleaned_optFragGcTable ft now))

/-- A table that is found or allocated holds arrived halves only. -/
theorem TablesFrom.optTable {env : Env} {tables : FragTables} (h : TablesFrom P Q tables) {w : Nat}
    {ft : OptTable} (hft : optTable env tables w = some ft) : TableFrom (P w) (Q w) ft := by
  rw [NetworkEncryptor.optTable] at hft
  cases ht : tables w with
  | none =>
      simp only [ht] at hft
      by_cases hc : env.callocOk = true
      · rw [if_pos hc, Option.some.injEq] at hft
        rw [← hft]; exact tableFrom_empty
      · rw [if_neg hc] at hft; cases hft
  | some ft' =>
      simp only [ht, Option.some.injEq] at hft
      rw [← hft]; exact h w ft' ht

/-- One call of `l2_crypto_reassemble_udp`, on any bytes: if whatever the cipher
accepts of them is a whole datagram `F`, a first half `P` or a second half `Q`,
then the tables keep to such halves, and what is emitted is a whole datagram or
a join. -/
theorem l2CryptoReassembleUdp_from {env : Env} {ctx : PacketCryptoCtx} {tables : FragTables}
    {workerIdx : Nat} {packet : Mem} {len : Nat} (output : Mem) (h : TablesFrom P Q tables)
    (harrive : ∀ kind dg payload, KnownEt packet → packet.read 27 4 = l2UdpMarker →
      Opens env ctx packet 31 len (l2UdpShim kind dg ++ payload) →
      match kind with
      | .full => F (packet.read 0 12) payload
      | .frag0 => P (optTableIdx workerIdx) dg (packet.read 0 12) payload
      | .frag1 => Q (optTableIdx workerIdx) dg payload) :
    TablesFrom P Q (l2CryptoReassembleUdp env ctx tables workerIdx packet len output).1 ∧
      ∀ out n, (l2CryptoReassembleUdp env ctx tables workerIdx packet len output).2 = .done out n →
        (∃ macs payload, F macs payload ∧ out.read 0 n = joined macs payload []) ∨
          ∃ dg macs p q, P (optTableIdx workerIdx) dg macs p ∧ Q (optTableIdx workerIdx) dg q ∧
            out.read 0 n = joined macs p q := by
  rw [l2CryptoReassembleUdp]
  cases hd : l2DoDecryptUdp env ctx packet len with
  | none => exact ⟨h, fun out n hr => by cases hr⟩
  | some r =>
      obtain ⟨het, hmark, -, kind, dg, payload, ho, rfl⟩ := l2DoDecryptUdp_eq_some_iff.mp hd
      obtain ⟨hmacs, hrest, hpay⟩ := read_udpPlain packet kind dg payload
      have harr := harrive kind dg payload het hmark ho
      have hkind : (udpPlain packet kind dg payload).kind = kind := rfl
      have hlen : (udpPlain packet kind dg payload).len = 14 + payload.length := rfl
      dsimp only
      by_cases hfull : (udpPlain packet kind dg payload).kind = .full
      · rw [if_pos hfull]
        rw [hkind] at hfull
        subst hfull
        split
        · refine ⟨h, fun out n hr => .inl ⟨packet.read 0 12, payload, harr, ?_⟩⟩
          simp only [ReasmResult.done.injEq] at hr
          obtain ⟨rfl, rfl⟩ := hr
          rw [Mem.read_write_self _ (Mem.length_read ..), hlen, show 14 = 12 + 2 from rfl,
            Nat.add_assoc, Mem.read_add, Mem.read_add, Nat.zero_add, hmacs, hrest, hpay, joined,
            List.append_nil, List.append_assoc]
          rfl
        · exact ⟨h, fun out n hr => by cases hr⟩
      · rw [if_neg hfull]
        cases ht : optTable env tables (optTableIdx workerIdx) with
        | none => exact ⟨h, fun out n hr => by cases hr⟩
        | some ft =>
            have hsub : 14 + payload.length - 14 = payload.length := by omega
            have hre := @l2Reassemble_from (P (optTableIdx workerIdx)) (Q (optTableIdx workerIdx))
              ft (h.optTable ht) (udpPlain packet kind dg payload).packet (14 + payload.length) dg
              kind env.now output
              (fun hk => by subst hk; rw [hsub, hmacs, hpay]; exact harr)
              (fun hk => by subst hk; rw [hsub, hpay]; exact harr)
            exact ⟨h.update hre.1, fun out n hr => .inr (hre.2 out n hr)⟩

end Tables

end NetworkEncryptor
