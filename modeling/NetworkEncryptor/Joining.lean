import NetworkEncryptor.Fragments

/-!
# NetworkEncryptor.Joining

That the fragment table does its work: starting from a table without halves,
the first of two halves is kept where the second one finds it, in either order,
and they are joined unless the timeout has passed in between.
-/

namespace NetworkEncryptor

/-! ## finding the slot -/

/-- No entry has a half. -/
def OptTable.Vacant (ft : OptTable) : Prop := ∀ i, (ft.entries i).occupied = false

theorem vacant_empty : OptTable.empty.Vacant := fun _ => rfl

section Probe

variable {ft : OptTable} {epoch datagramId : UInt32} {now : UInt64}

/-- Once a free slot has been met, nothing but a live entry could change the
answer. -/
theorem optProbe_vacant (base k : Nat) : ∀ (i : Nat) (idx : Nat) (oldestIdx : Option Nat)
    (oldestAge : UInt64), ft.Vacant →
    optProbe epoch datagramId now base k i ft (some idx) oldestIdx oldestAge = (ft, idx) := by
  induction k with
  | zero => intro i idx oldestIdx oldestAge _; rfl
  | succ k ih =>
      intro i idx oldestIdx oldestAge hv
      have ho := hv ((base + i) % l2FragTableSize)
      rw [optProbe]
      simp only [ho, Bool.false_eq_true, false_and, if_false]
      exact ih (i + 1) idx oldestIdx oldestAge hv

/-- The first slot of the probe is in range. -/
theorem optBase_mod (epoch datagramId : UInt32) :
    (optBase epoch datagramId + 0) % l2FragTableSize = optBase epoch datagramId := by
  rw [optBase, Nat.add_zero, Nat.mod_mod]

theorem optPickSlot_vacant (h : ft.Vacant) :
    optPickSlot ft epoch datagramId now = (ft, optBase epoch datagramId) := by
  have ho := h (optBase epoch datagramId)
  rw [optPickSlot, optProbe, optBase_mod]
  simp only [ho, Bool.false_eq_true, false_and, if_false]
  exact optProbe_vacant _ 7 1 _ none 0 h

/-- A live entry of the datagram in the first slot is found. -/
theorem optPickSlot_hit
    (hocc : (ft.entries (optBase epoch datagramId)).occupied = true)
    (hlive : (ft.entries (optBase epoch datagramId)).expired now = false)
    (hkey : (ft.entries (optBase epoch datagramId)).epoch = epoch ∧
      (ft.entries (optBase epoch datagramId)).datagramId = datagramId) :
    optPickSlot ft epoch datagramId now = (ft, optBase epoch datagramId) := by
  rw [optPickSlot, optProbe, optBase_mod]
  simp only [hocc, hlive, hkey, and_self, if_true]

/-- An expired entry in the first slot is cleared, and its slot taken. -/
theorem optPickSlot_expired
    (hocc : (ft.entries (optBase epoch datagramId)).occupied = true)
    (hexp : (ft.entries (optBase epoch datagramId)).expired now = true)
    (hv : (ft.set (optBase epoch datagramId)
      (optClearEntry (ft.entries (optBase epoch datagramId)))).Vacant) :
    optPickSlot ft epoch datagramId now =
      (ft.set (optBase epoch datagramId) (optClearEntry (ft.entries (optBase epoch datagramId))),
        optBase epoch datagramId) := by
  rw [optPickSlot, optProbe, optBase_mod]
  simp only [hocc, hexp, Bool.true_eq_false, and_false, if_false, if_true]
  exact optProbe_vacant _ 7 1 _ none 0 hv

end Probe

/-! ## keeping a half -/

/-- An entry with the first half `p` of `dg`, kept since `now`. -/
structure KeepsFirst (e : OptEntry) (dg : UdpMeta) (now : UInt64) (macs p : List UInt8) : Prop where
  flags : e.gotFirst = true ∧ e.gotSecond = false
  dg : e.dg = dg
  time : e.timestampNs = now
  eth : e.ethLen = 14 ∧ e.ethHdr.read 0 12 = macs
  half : e.firstLen = p.length ∧ e.first.read 0 e.firstLen = p

/-- An entry with the second half `q` of `dg`, kept since `now`. -/
structure KeepsSecond (e : OptEntry) (dg : UdpMeta) (now : UInt64) (q : List UInt8) : Prop where
  flags : e.gotFirst = false ∧ e.gotSecond = true
  dg : e.dg = dg
  time : e.timestampNs = now
  half : e.secondLen = q.length ∧ e.second.read 0 e.secondLen = q

section Keep

variable {e : OptEntry} {dg : UdpMeta} {now : UInt64} {data : Mem} {n : Nat}

/-- A prepared entry without halves has none. -/
theorem optPrepareEntry_vacant (h : e.occupied = false) :
    (optPrepareEntry e dg now).gotFirst = false ∧ (optPrepareEntry e dg now).gotSecond = false := by
  rw [OptEntry.occupied, Bool.or_eq_false_iff] at h
  rw [optPrepareEntry]
  split
  · exact ⟨rfl, rfl⟩
  · exact h

/-- A live entry of the datagram is prepared by a new timestamp alone. -/
theorem optPrepareEntry_live (hdg : e.dg = dg) (hlive : e.expired now = false) :
    optPrepareEntry e dg now = { e with timestampNs := now } := by
  have h1 : e.epoch = dg.epoch := congrArg UdpMeta.epoch hdg
  have h2 : e.udpSeq = dg.seq := congrArg UdpMeta.seq hdg
  have h3 : e.datagramId = dg.datagramId := congrArg UdpMeta.datagramId hdg
  rw [optPrepareEntry, if_neg (by simp [h1, h2, h3, hlive]), ← h1, ← h2, ← h3]

/-- Fields of an entry the first half was stored in. -/
theorem optStoreFirst_fields (hn : n ≤ neJumboFrameMax) :
    ∃ e', optStoreFirst e dg data 14 data 14 n now = some e' ∧ e'.gotFirst = true ∧
      e'.gotSecond = (optPrepareEntry e dg now).gotSecond ∧ e'.dg = dg ∧ e'.timestampNs = now ∧
      e'.ethLen = 14 ∧ e'.ethHdr.read 0 12 = data.read 0 12 ∧ e'.firstLen = n ∧
      e'.first.read 0 n = data.read 14 n ∧
      e'.secondLen = (optPrepareEntry e dg now).secondLen ∧
      e'.second = (optPrepareEntry e dg now).second := by
  have hhdr : ((optPrepareEntry e dg now).ethHdr.write 0 (data.read 0 14)).read 0 12 =
      data.read 0 12 := by
    have h0 := @Mem.read_write_inside (optPrepareEntry e dg now).ethHdr 0 0 12 (data.read 0 14)
      (by simp)
    rw [h0, List.drop_zero, Mem.take_read _ (by omega)]
  rw [optStoreFirst, if_neg (by omega), if_neg (by simp)]
  exact ⟨_, rfl, rfl, rfl, rfl, rfl, rfl, hhdr, rfl, Mem.read_write_self _ (by simp), rfl, rfl⟩

/-- Fields of an entry the second half was stored in. -/
theorem optStoreSecond_fields (hn : n ≤ neJumboFrameMax) :
    ∃ e', optStoreSecond e dg data 14 n now = some e' ∧ e'.gotSecond = true ∧
      e'.gotFirst = (optPrepareEntry e dg now).gotFirst ∧ e'.dg = dg ∧ e'.timestampNs = now ∧
      e'.secondLen = n ∧ e'.second.read 0 n = data.read 14 n ∧
      e'.ethLen = (optPrepareEntry e dg now).ethLen ∧
      e'.ethHdr = (optPrepareEntry e dg now).ethHdr ∧
      e'.firstLen = (optPrepareEntry e dg now).firstLen ∧
      e'.first = (optPrepareEntry e dg now).first := by
  rw [optStoreSecond, if_neg (by omega)]
  exact ⟨_, rfl, rfl, rfl, rfl, rfl, rfl, Mem.read_write_self _ (by simp), rfl, rfl, rfl, rfl⟩

/-- An entry with one half has to wait. -/
theorem optEmitJoin_wait (h : e.gotFirst = false ∨ e.gotSecond = false) (out : Mem) :
    optEmitJoin e out = (e, .wait) := by
  rw [optEmitJoin, if_pos]
  rcases h with h | h
  · rw [h]; rfl
  · rw [h, Bool.not_false, Bool.or_true]

/-- An entry with both halves is joined. -/
theorem optEmitJoin_done {macs p q : List UInt8} (hflags : e.gotFirst = true ∧ e.gotSecond = true)
    (heth : e.ethLen = 14 ∧ e.ethHdr.read 0 12 = macs)
    (hfirst : e.firstLen = p.length ∧ e.first.read 0 e.firstLen = p)
    (hsecond : e.secondLen = q.length ∧ e.second.read 0 e.secondLen = q)
    (hlen : 14 + p.length + q.length ≤ neJumboFrameMax) (outBuf : Mem) :
    ∃ out, (optEmitJoin e outBuf).2 = .done out (14 + p.length + q.length) ∧
      out.read 0 (14 + p.length + q.length) = joined macs p q := by
  have hfrom : EntryFrom (fun _ macs' p' => macs' = macs ∧ p' = p) (fun _ q' => q' = q) e :=
    ⟨fun _ => ⟨heth.1, heth.2, hfirst.2⟩, fun _ => hsecond.2⟩
  have hdone : ∃ out, (optEmitJoin e outBuf).2 = .done out (14 + p.length + q.length) := by
    have heth14 : (if (14 : Nat) ≠ 0 then 14 else ethHeaderSize) = 14 := rfl
    rw [optEmitJoin, hflags.1, hflags.2, if_neg (by simp), heth.1, heth14]
    dsimp only
    rw [if_neg (by rw [hfirst.1, hsecond.1]; omega), hfirst.1, hsecond.1]
    exact ⟨_, rfl⟩
  obtain ⟨out, hout⟩ := hdone
  obtain ⟨_, _, _, _, ⟨rfl, rfl⟩, rfl, hread⟩ := (optEmitJoin_from hfrom outBuf).2 out _ hout
  exact ⟨out, hout, hread⟩

/-- A joined entry is free again. -/
theorem optEmitJoin_fst_of_done {out outBuf : Mem} (h : (optEmitJoin e outBuf).2 = .done out n) :
    (optEmitJoin e outBuf).1 = optClearEntry e := by
  unfold optEmitJoin at h ⊢
  split at h
  · cases h
  · rename_i hflags
    rw [if_neg hflags]
    generalize (if e.ethLen ≠ 0 then e.ethLen else ethHeaderSize) = ethLen
    dsimp only
    rw [apply_ite Prod.fst, ite_self]

end Keep

/-! ## one reassembly step -/

section Step

variable {ft : OptTable} {dg : UdpMeta} {now then' : UInt64} {data outBuf : Mem} {pktLen : Nat}
  {macs p q : List UInt8}

/-- A decoded fragment the table takes: its EtherType is known and it is not too
long. -/
structure FragOk (data : Mem) (pktLen : Nat) : Prop where
  et : KnownEt data
  len : 14 ≤ pktLen ∧ pktLen - 14 ≤ neJumboFrameMax

/-- A first half also starts with an IPv4 header. -/
structure Frag0Ok (data : Mem) (pktLen : Nat) : Prop extends FragOk data pktLen where
  version : (data 14).toNat / 16 = 4
  ihl : 20 ≤ (data 14).toNat % 16 * 4 ∧ (data 14).toNat % 16 * 4 ≤ pktLen - 14

theorem FragOk.prefixLen (h : FragOk data pktLen) : l2WirePrefixLen data pktLen = some 14 := by
  have : cryptoEthL2PrefixLen data pktLen = some 12 :=
    cryptoEthInnerEtOff_eq_some_iff.mpr ⟨rfl, h.len.1, h.et⟩
  rw [l2WirePrefixLen, this]
  rfl

theorem l2Reassemble_frag0 {ft' : OptTable} {idx : Nat} (h : Frag0Ok data pktLen)
    (hpick : optPickSlot ft dg.epoch dg.datagramId now = (ft', idx)) :
    l2Reassemble ft data pktLen dg .frag0 now outBuf =
      match optStoreFirst (ft'.entries idx) dg data 14 data 14 (pktLen - 14) now with
      | none => (ft', .fail)
      | some e => (ft'.set idx (optEmitJoin e outBuf).1, (optEmitJoin e outBuf).2) := by
  have hl := h.len
  have hi := h.ihl
  have hv := h.version
  rw [l2Reassemble, h.toFragOk.prefixLen, hpick]
  dsimp only
  rw [if_neg (by simp; omega), l2ReassembleFirst]
  dsimp only
  have hsize : ¬(pktLen - 14 < 20 ∨ (data 14).toNat / 16 ≠ 4) := by omega
  have hihl : ¬((data 14).toNat % 16 * 4 < 20 ∨ pktLen - 14 < (data 14).toNat % 16 * 4) := by omega
  cases optStoreFirst (ft'.entries idx) dg data 14 data 14 (pktLen - 14) now with
  | none => simp only [if_neg hsize, if_neg hihl]
  | some e => simp only [if_neg hsize, if_neg hihl]

/-- The second half of a datagram whose entry is not expired. -/
theorem l2Reassemble_frag1 {ft' : OptTable} {idx : Nat} (h : FragOk data pktLen)
    (hpick : optPickSlot ft dg.epoch dg.datagramId now = (ft', idx))
    (hlive : (ft'.entries idx).occupied = true → (ft'.entries idx).expired now = false) :
    l2Reassemble ft data pktLen dg .frag1 now outBuf =
      match optStoreSecond (ft'.entries idx) dg data 14 (pktLen - 14) now with
      | none => (ft'.set idx (ft'.entries idx), .fail)
      | some e => (ft'.set idx (optEmitJoin e outBuf).1, (optEmitJoin e outBuf).2) := by
  have hl := h.len
  have hno : ¬ ((ft'.entries idx).occupied = true ∧ (ft'.entries idx).epoch = dg.epoch ∧
      (ft'.entries idx).datagramId = dg.datagramId ∧ (ft'.entries idx).expired now = true) := by
    intro hc
    rw [hlive hc.1] at hc
    simp at hc
  rw [l2Reassemble, h.prefixLen, hpick]
  dsimp only
  rw [if_neg (by simp; omega), l2ReassembleSecond]
  dsimp only
  cases hs : optStoreSecond (ft'.entries idx) dg data 14 (pktLen - 14) now with
  | none => simp only [if_neg hno, hs]
  | some e => simp only [if_neg hno, hs]

/-- The table whose only half is in the first slot of `dg`. -/
def OptTable.OnlyAt (ft : OptTable) (dg : UdpMeta) : Prop :=
  ∀ i, i ≠ optBase dg.epoch dg.datagramId → (ft.entries i).occupied = false

theorem onlyAt_set (h : ft.Vacant) (dg : UdpMeta) (e : OptEntry) :
    (ft.set (optBase dg.epoch dg.datagramId) e).OnlyAt dg := by
  intro i hi
  rw [ft.set_entries_of_ne e hi]
  exact h i

/-- Clearing the only entry with a half leaves none. -/
theorem vacant_clear (h : ft.OnlyAt dg) :
    (ft.set (optBase dg.epoch dg.datagramId)
      (optClearEntry (ft.entries (optBase dg.epoch dg.datagramId)))).Vacant := by
  intro i
  by_cases hi : i = optBase dg.epoch dg.datagramId
  · subst hi; rw [ft.set_entries_self]; rfl
  · rw [ft.set_entries_of_ne _ hi]; exact h i hi

/-- A first half that meets no other half of its datagram is kept. -/
theorem frag0_kept_of_fresh {ft' : OptTable} {idx : Nat} (hok : Frag0Ok data pktLen)
    (hpick : optPickSlot ft dg.epoch dg.datagramId now = (ft', idx))
    (hfresh : (optPrepareEntry (ft'.entries idx) dg now).gotSecond = false) :
    ∃ e, l2Reassemble ft data pktLen dg .frag0 now outBuf = (ft'.set idx e, .wait) ∧
      KeepsFirst e dg now (data.read 0 12) (data.read 14 (pktLen - 14)) := by
  obtain ⟨e, hst, h1, h2, h3, h4, h5, h6, h7, h8, -, -⟩ :=
    @optStoreFirst_fields (ft'.entries idx) dg now data (pktLen - 14) hok.len.2
  have hsec : e.gotSecond = false := h2.trans hfresh
  refine ⟨e, ?_, ⟨h1, hsec⟩, h3, h4, ⟨h5, h6⟩, ?_, ?_⟩
  · rw [l2Reassemble_frag0 hok hpick, hst]
    dsimp only
    rw [optEmitJoin_wait (.inr hsec)]
  · rw [h7, Mem.length_read]
  · rw [h7, h8]

theorem frag0_kept {ft' : OptTable} {idx : Nat} (hok : Frag0Ok data pktLen)
    (hpick : optPickSlot ft dg.epoch dg.datagramId now = (ft', idx))
    (hvac : (ft'.entries idx).occupied = false) :
    ∃ e, l2Reassemble ft data pktLen dg .frag0 now outBuf = (ft'.set idx e, .wait) ∧
      KeepsFirst e dg now (data.read 0 12) (data.read 14 (pktLen - 14)) :=
  frag0_kept_of_fresh hok hpick (optPrepareEntry_vacant hvac).2

/-- A second half that meets no other half of its datagram is kept. -/
theorem frag1_kept_of_fresh {ft' : OptTable} {idx : Nat} (hok : FragOk data pktLen)
    (hpick : optPickSlot ft dg.epoch dg.datagramId now = (ft', idx))
    (hlive : (ft'.entries idx).occupied = true → (ft'.entries idx).expired now = false)
    (hfresh : (optPrepareEntry (ft'.entries idx) dg now).gotFirst = false) :
    ∃ e, l2Reassemble ft data pktLen dg .frag1 now outBuf = (ft'.set idx e, .wait) ∧
      KeepsSecond e dg now (data.read 14 (pktLen - 14)) := by
  obtain ⟨e, hst, h1, h2, h3, h4, h5, h6, -, -, -, -⟩ :=
    @optStoreSecond_fields (ft'.entries idx) dg now data (pktLen - 14) hok.len.2
  have hfst : e.gotFirst = false := h2.trans hfresh
  refine ⟨e, ?_, ⟨hfst, h1⟩, h3, h4, ?_, ?_⟩
  · rw [l2Reassemble_frag1 hok hpick hlive, hst]
    dsimp only
    rw [optEmitJoin_wait (.inl hfst)]
  · rw [h5, Mem.length_read]
  · rw [h5, h6]

theorem frag1_kept {ft' : OptTable} {idx : Nat} (hok : FragOk data pktLen)
    (hpick : optPickSlot ft dg.epoch dg.datagramId now = (ft', idx))
    (hvac : (ft'.entries idx).occupied = false) :
    ∃ e, l2Reassemble ft data pktLen dg .frag1 now outBuf = (ft'.set idx e, .wait) ∧
      KeepsSecond e dg now (data.read 14 (pktLen - 14)) :=
  frag1_kept_of_fresh hok hpick (fun h => by rw [hvac] at h; cases h)
    (optPrepareEntry_vacant hvac).1

/-! ## two halves -/

theorem KeepsFirst.occupied {e : OptEntry} (h : KeepsFirst e dg then' macs p) :
    e.occupied = true := by rw [OptEntry.occupied, h.flags.1]; rfl

theorem KeepsSecond.occupied {e : OptEntry} (h : KeepsSecond e dg then' q) : e.occupied = true := by
  rw [OptEntry.occupied, h.flags.2, Bool.or_true]

theorem OptEntry.expired_eq {e : OptEntry} (h : e.timestampNs = then') :
    e.expired now = decide (now - then' > l2FragTimeoutNs) := by rw [OptEntry.expired, h]

/-- The second half finds the first one in its slot: they are joined, and the slot
is free again. -/
theorem frag1_done {ft' : OptTable} {idx : Nat}
    (hpick : optPickSlot ft dg.epoch dg.datagramId now = (ft', idx))
    (hat : KeepsFirst (ft'.entries idx) dg then' macs p)
    (htime : now - then' ≤ l2FragTimeoutNs) (hok : FragOk data pktLen)
    (hlen : 14 + p.length + (pktLen - 14) ≤ neJumboFrameMax) :
    ∃ out e, l2Reassemble ft data pktLen dg .frag1 now outBuf =
        (ft'.set idx (optClearEntry e), .done out (p.length + pktLen)) ∧
      out.read 0 (p.length + pktLen) = joined macs p (data.read 14 (pktLen - 14)) := by
  have hlive : (ft'.entries idx).expired now = false := by
    rw [OptEntry.expired_eq hat.time, decide_eq_false_iff_not, gt_iff_lt, UInt64.not_lt]
    exact htime
  obtain ⟨e, hst, h1, h2, h3, -, h5, h6, h7, h8, h9, h10⟩ :=
    @optStoreSecond_fields (ft'.entries idx) dg now data (pktLen - 14) hok.len.2
  rw [optPrepareEntry_live hat.dg hlive] at h2 h7 h8 h9 h10
  obtain ⟨out, hdone, hread⟩ := @optEmitJoin_done e macs p (data.read 14 (pktLen - 14))
    ⟨h2.trans hat.flags.1, h1⟩ ⟨h7.trans hat.eth.1, by rw [h8]; exact hat.eth.2⟩
    ⟨h9.trans hat.half.1, by rw [h9, h10]; exact hat.half.2⟩
    ⟨by rw [h5, Mem.length_read], by rw [h5, h6]⟩ (by rw [Mem.length_read]; exact hlen) outBuf
  have hn : 14 + p.length + (data.read 14 (pktLen - 14)).length = p.length + pktLen := by
    have := hok.len.1
    rw [Mem.length_read]; omega
  rw [hn] at hdone hread
  refine ⟨out, e, ?_, hread⟩
  rw [l2Reassemble_frag1 hok hpick (fun _ => hlive), hst]
  dsimp only
  rw [hdone, optEmitJoin_fst_of_done hdone]

/-- The first half finds the second one in its slot. -/
theorem frag0_done {ft' : OptTable} {idx : Nat}
    (hpick : optPickSlot ft dg.epoch dg.datagramId now = (ft', idx))
    (hat : KeepsSecond (ft'.entries idx) dg then' q)
    (htime : now - then' ≤ l2FragTimeoutNs) (hok : Frag0Ok data pktLen)
    (hlen : pktLen + q.length ≤ neJumboFrameMax) :
    ∃ out e, l2Reassemble ft data pktLen dg .frag0 now outBuf =
        (ft'.set idx (optClearEntry e), .done out (pktLen + q.length)) ∧
      out.read 0 (pktLen + q.length) =
        joined (data.read 0 12) (data.read 14 (pktLen - 14)) q := by
  have hlive : (ft'.entries idx).expired now = false := by
    rw [OptEntry.expired_eq hat.time, decide_eq_false_iff_not, gt_iff_lt, UInt64.not_lt]
    exact htime
  obtain ⟨e, hst, h1, h2, h3, -, h5, h6, h7, h8, h9, h10⟩ :=
    @optStoreFirst_fields (ft'.entries idx) dg now data (pktLen - 14) hok.len.2
  rw [optPrepareEntry_live hat.dg hlive] at h2 h9 h10
  have hn : 14 + (data.read 14 (pktLen - 14)).length + q.length = pktLen + q.length := by
    have := hok.len.1
    rw [Mem.length_read]; omega
  obtain ⟨out, hdone, hread⟩ := @optEmitJoin_done e (data.read 0 12) (data.read 14 (pktLen - 14)) q
    ⟨h1, h2.trans hat.flags.2⟩ ⟨h5, h6⟩ ⟨by rw [h7, Mem.length_read], by rw [h7, h8]⟩
    ⟨h9.trans hat.half.1, by rw [h9, h10]; exact hat.half.2⟩ (by rw [hn]; exact hlen) outBuf
  rw [hn] at hdone hread
  refine ⟨out, e, ?_, hread⟩
  rw [l2Reassemble_frag0 hok hpick, hst]
  dsimp only
  rw [hdone, optEmitJoin_fst_of_done hdone]

/-- The second half arrives after the first: it is joined, unless it is late. -/
theorem frag1_joins (hat : KeepsFirst (ft.entries (optBase dg.epoch dg.datagramId)) dg then' macs p)
    (honly : ft.OnlyAt dg) (hok : FragOk data pktLen)
    (hlen : 14 + p.length + (pktLen - 14) ≤ neJumboFrameMax) :
    (now - then' ≤ l2FragTimeoutNs → ∃ out,
      (l2Reassemble ft data pktLen dg .frag1 now outBuf).2 = .done out (p.length + pktLen) ∧
      out.read 0 (p.length + pktLen) = joined macs p (data.read 14 (pktLen - 14))) ∧
    (¬ now - then' ≤ l2FragTimeoutNs →
      (l2Reassemble ft data pktLen dg .frag1 now outBuf).2 = .wait) := by
  have hkey : (ft.entries (optBase dg.epoch dg.datagramId)).epoch = dg.epoch ∧
      (ft.entries (optBase dg.epoch dg.datagramId)).datagramId = dg.datagramId :=
    ⟨congrArg UdpMeta.epoch hat.dg, congrArg UdpMeta.datagramId hat.dg⟩
  refine ⟨fun htime => ?_, fun hlate => ?_⟩
  · have hlive : (ft.entries (optBase dg.epoch dg.datagramId)).expired now = false := by
      rw [OptEntry.expired_eq hat.time, decide_eq_false_iff_not, gt_iff_lt, UInt64.not_lt]
      exact htime
    have hpick := optPickSlot_hit hat.occupied hlive hkey
    obtain ⟨out, e, hrun, hread⟩ := @frag1_done ft dg now then' data outBuf pktLen macs p _ _ hpick
      hat htime hok hlen
    exact ⟨out, by rw [hrun], hread⟩
  · have hexp : (ft.entries (optBase dg.epoch dg.datagramId)).expired now = true := by
      rw [OptEntry.expired_eq hat.time, decide_eq_true_eq, gt_iff_lt, ← UInt64.not_le]
      exact hlate
    have hpick := optPickSlot_expired hat.occupied hexp (vacant_clear honly)
    obtain ⟨e, hrun, -⟩ := @frag1_kept ft dg now data outBuf pktLen _ _ hok hpick
      (vacant_clear honly _)
    rw [hrun]

/-- The first half arrives after the second: it is joined, unless it is late. -/
theorem frag0_joins (hat : KeepsSecond (ft.entries (optBase dg.epoch dg.datagramId)) dg then' q)
    (honly : ft.OnlyAt dg) (hok : Frag0Ok data pktLen)
    (hlen : pktLen + q.length ≤ neJumboFrameMax) :
    (now - then' ≤ l2FragTimeoutNs → ∃ out,
      (l2Reassemble ft data pktLen dg .frag0 now outBuf).2 = .done out (pktLen + q.length) ∧
      out.read 0 (pktLen + q.length) =
        joined (data.read 0 12) (data.read 14 (pktLen - 14)) q) ∧
    (¬ now - then' ≤ l2FragTimeoutNs →
      (l2Reassemble ft data pktLen dg .frag0 now outBuf).2 = .wait) := by
  have hkey : (ft.entries (optBase dg.epoch dg.datagramId)).epoch = dg.epoch ∧
      (ft.entries (optBase dg.epoch dg.datagramId)).datagramId = dg.datagramId :=
    ⟨congrArg UdpMeta.epoch hat.dg, congrArg UdpMeta.datagramId hat.dg⟩
  refine ⟨fun htime => ?_, fun hlate => ?_⟩
  · have hlive : (ft.entries (optBase dg.epoch dg.datagramId)).expired now = false := by
      rw [OptEntry.expired_eq hat.time, decide_eq_false_iff_not, gt_iff_lt, UInt64.not_lt]
      exact htime
    have hpick := optPickSlot_hit hat.occupied hlive hkey
    obtain ⟨out, e, hrun, hread⟩ := @frag0_done ft dg now then' data outBuf pktLen q _ _ hpick
      hat htime hok hlen
    exact ⟨out, by rw [hrun], hread⟩
  · have hexp : (ft.entries (optBase dg.epoch dg.datagramId)).expired now = true := by
      rw [OptEntry.expired_eq hat.time, decide_eq_true_eq, gt_iff_lt, ← UInt64.not_le]
      exact hlate
    have hpick := optPickSlot_expired hat.occupied hexp (vacant_clear honly)
    obtain ⟨e, hrun, -⟩ := @frag0_kept ft dg now data outBuf pktLen _ _ hok hpick
      (vacant_clear honly _)
    rw [hrun]

end Step

end NetworkEncryptor
